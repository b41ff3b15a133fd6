import TreeSelectors.Document.Edit
import TreeSelectors.Proofs.Query.Retrieval
import TreeSelectors.Proofs.Selector.Writing

/-!
  Lookups by class and by tag. A host that has none, or refuses, leaves the walk. The lookups of a
  document are made from other walks and other comparisons, and find the same nodes where classes
  are told apart by case; only the name `*`, which a selector can write as an escaped tag, they take
  for every element. Main statement: `Document.bulkLookups_agree`.
-/

namespace TreeSelectors

/-! ## Names of tags -/

theorem lower_folded (name : TagName) : Text.lower name.folded = Text.lower name.written := by
  have letter : ∀ c : Char, c.toUpper.toLower = c.toLower := by
    intro c
    unfold Char.toUpper
    split
    · next small =>
      have lower : ¬ IsUpper c := by
        simp [IsUpper] at *
        grind
      rw [toLower_eq_self lower]
      refine Char.ext ((val_toLower ?_).trans ?_)
      · simp [IsUpper] at *
        grind
      · simp
        grind
    · rfl
  simp [Text.lower, TagName.folded, Text.upper, String.map_map, Function.comp_def, letter]

/-- A text is a star when it is one after a change of case that makes a star of nothing else. -/
theorem map_eq_star_iff {change : Char → Char} (letter : ∀ c, change c = '*' ↔ c = '*')
    (text : String) : text.map change = "*" ↔ text = "*" := by
  rw [← String.toList_inj, ← String.toList_inj, String.toList_map]
  show text.toList.map change = ['*'] ↔ text.toList = ['*']
  rw [List.map_eq_singleton_iff]
  constructor
  · intro changed
    obtain ⟨c, same, star⟩ := changed
    rw [same, (letter c).mp star]
  · exact fun same => ⟨'*', same, (letter '*').mpr rfl⟩

theorem folded_eq_star_iff {name : TagName} : name.folded = "*" ↔ name = ⟨"*"⟩ := by
  have letter : ∀ c : Char, c.toUpper = '*' ↔ c = '*' := by
    intro c
    unfold Char.toUpper
    split
    · simp [Char.ext_iff] at *
      grind
    · rfl
  obtain ⟨written⟩ := name
  rw [TagName.folded, Text.upper, map_eq_star_iff letter, TagName.mk.injEq]

theorem lower_eq_star_iff {text : String} : Text.lower text = "*" ↔ text = "*" := by
  have letter : ∀ c : Char, c.toLower = '*' ↔ c = '*' := by
    intro c
    by_cases upper : IsUpper c
    · rw [Char.ext_iff, Char.ext_iff, val_toLower upper]
      simp [IsUpper] at *
      grind
    · rw [toLower_eq_self upper]
  exact map_eq_star_iff letter text

/-- The case of a star does not matter. -/
theorem Document.hasTag_star_iff {d : Document} {exactTags : Bool} {n : NodeId} :
    d.hasTag ⟨"*"⟩ exactTags n = true ↔ d.tag? n = some "*" := by
  have star : Text.lower "*" = "*" := lower_eq_star_iff.mpr rfl
  unfold hasTag
  cases d.tag? n with
  | none => simp
  | some tag => cases exactTags <;> simp [Text.equalIgnoringCase, star, lower_eq_star_iff]

/-- Without case, tags are compared letter by letter. -/
theorem Document.hasTag_eq_letters (d : Document) (name : TagName) :
    d.hasTag name false = fun n => (d.tag? n).any fun tag =>
      tag.toList.map Char.toLower = name.written.toList.map Char.toLower := by
  funext n
  unfold hasTag
  cases d.tag? n with
  | none => rfl
  | some tag =>
    rw [Bool.eq_iff_iff]
    simp [Text.equalIgnoringCase, Text.lower, ← String.toList_inj]

/-- A view has no lookups that answer. -/
def Document.IsSilent (d : Document) (view : View) : Prop := view = .full → d.offersLookups = false

/-! ## Exact lookups -/

namespace Retrieval

variable {d : Document} {view : View}

theorem lookups?_of_silent (silent : d.IsSilent view) :
    (d.host view).lookups? = none ∨ (d.host view).lookups? = some .refusing := by
  cases view with
  | full => exact .inl (by simp [Document.host, silent rfl])
  | plain => exact .inl rfl
  | refusing => exact .inr rfl

theorem isExact_byClasses_of_silent (silent : d.IsSilent view) (names : List String)
    (exactTags : Bool) : (byClasses names).IsExact (d.host view) exactTags := by
  intro context
  cases lookups?_of_silent silent with
  | inl absent => simp [byClassesFrom, absent]
  | inr refusing => simp [byClassesFrom, refusing, Lookups.refusing, Except.toOption]

theorem isExact_byTag_of_silent (silent : d.IsSilent view) (name : TagName) (exactTags : Bool) :
    (byTag name).IsExact (d.host view) exactTags := by
  intro context
  cases lookups?_of_silent silent with
  | inl absent => simp [byTagFrom, absent]
  | inr refusing =>
    cases exactTags <;> simp [byTagFrom, refusing, Lookups.refusing, Except.toOption]

/-- Where tags are compared as written, no lookup is asked. -/
theorem isExact_byTag_of_exactTags (d : Document) (view : View) (name : TagName) :
    (byTag name).IsExact (d.host view) true := by
  intro context
  simp [byTagFrom]

theorem byTagFrom_full (offers : d.offersLookups = true) (name : TagName) (context : NodeId) :
    byTagFrom (d.host .full) false name context = d.elementsByTag context name.folded := by
  simp [byTagFrom, Document.host, offers, Document.lookups, Except.toOption]

theorem isExact_byTag {name : TagName} (offers : d.offersLookups = true) (other : name ≠ ⟨"*"⟩) :
    (byTag name).IsExact (d.host .full) false := by
  intro context
  have star : (name.folded == "*") = false := by
    rw [beq_eq_false_iff_ne]
    exact fun same => other (folded_eq_star_iff.mp same)
  have tagged (n : NodeId) : (d.tag? n).any (Text.equalIgnoringCase · name.folded) =
      d.hasTag name false n := by
    cases tag : d.tag? n <;> simp [Document.hasTag, tag, Text.equalIgnoringCase, lower_folded]
  have indexed : d.elementsByTag context name.folded =
      (d.elementDescendants context).filter (d.hasTag name false) := by
    simp only [Document.elementsByTag, star, Bool.false_or, tagged]
  rw [byTagFrom_full offers, indexed, Document.elementDescendants, List.filter_filter]
  refine List.filter_congr fun n _ => ?_
  show (d.hasTag name false n && d.isElement n) = d.hasTag name false n
  cases same : d.hasTag name false n with
  | false => rfl
  | true => simp [Document.isElement_of_hasTag same]

/-- The lookup takes a star for every element. -/
theorem byTagFrom_star (offers : d.offersLookups = true) (context : NodeId) :
    byTagFrom (d.host .full) false ⟨"*"⟩ context = d.elementDescendants context := by
  have star : TagName.folded ⟨"*"⟩ = "*" := folded_eq_star_iff.mpr rfl
  simp [byTagFrom_full offers, star, Document.elementsByTag]

theorem isExact_byClasses (offers : d.offersLookups = true)
    (exactCase : d.ignoresClassCase = false) (names : List String) (exactTags : Bool) :
    (byClasses names).IsExact (d.host .full) exactTags := by
  intro context
  simp [byClassesFrom, Document.host, offers, Document.lookups, Document.elementsByClasses,
    Except.toOption, Document.hasClassAsIndexed, exactCase]

end Retrieval

/-! ## Views -/

namespace Document

variable {d : Document}

/-- A view answers by itself or not at all. -/
theorem offersLookups_or_isSilent (d : Document) (view : View) :
    (view = .full ∧ d.offersLookups = true) ∨ d.IsSilent view := by
  cases view with
  | full =>
    cases offers : d.offersLookups with
    | true => exact .inl ⟨rfl, rfl⟩
    | false => exact .inr fun _ => offers
  | plain => exact .inr nofun
  | refusing => exact .inr nofun

theorem isExact_byClasses_host (exactCase : d.ignoresClassCase = false) (names : List String)
    (exactTags : Bool) (view : View) :
    (Retrieval.byClasses names).IsExact (d.host view) exactTags := by
  cases d.offersLookups_or_isSilent view with
  | inl answers =>
    obtain ⟨full, offers⟩ := answers
    rw [full]
    exact Retrieval.isExact_byClasses offers exactCase names exactTags
  | inr silent => exact Retrieval.isExact_byClasses_of_silent silent names exactTags

/-- A view finds what the walk finds, or takes a star for every element. -/
theorem exact_or_starred (name : TagName) (exactTags : Bool) (view : View) :
    (Retrieval.byTag name).IsExact (d.host view) exactTags ∨
      view = .full ∧ d.offersLookups = true ∧ exactTags = false ∧ name = ⟨"*"⟩ := by
  cases d.offersLookups_or_isSilent view with
  | inr silent => exact .inl (Retrieval.isExact_byTag_of_silent silent name exactTags)
  | inl answers =>
    obtain ⟨rfl, offers⟩ := answers
    cases exactTags with
    | true => exact .inl (Retrieval.isExact_byTag_of_exactTags d .full name)
    | false =>
      by_cases star : name = ⟨"*"⟩
      · exact .inr ⟨rfl, offers, rfl, star⟩
      · exact .inl (Retrieval.isExact_byTag offers star)

/-- The elements below a context with some classes are found the same way in every view, and so are
    those with a tag, unless the tag is a star, its case does not matter and the document answers:
    then the views agree just where all elements below have that tag. -/
theorem bulkLookups_agree (exactCase : d.ignoresClassCase = false) (exactTags : Bool)
    (context : NodeId) :
    (∀ names, ∃ found,
      d.Lists found (fun n => d.isBelow n context = true ∧ d.isElement n = true ∧
        ∀ name ∈ names, d.hasClass name n = true) ∧
      ∀ view, (Retrieval.byClasses names).candidates (d.host view) exactTags context = found) ∧
    ∀ name, ∃ found,
      d.Lists found (fun n => d.isBelow n context = true ∧ d.hasTag name exactTags n = true) ∧
      ((∀ view, (Retrieval.byTag name).candidates (d.host view) exactTags context = found) ↔
        (d.offersLookups = true → exactTags = false → name = ⟨"*"⟩ →
          ∀ n, d.isBelow n context = true → d.isElement n = true → d.tag? n = some "*")) := by
  constructor
  · intro names
    refine ⟨_, ((lists_elementDescendants context).filter fun n =>
      names.all (d.hasClass · n)).congr fun n => ?_, fun view => ?_⟩
    · rw [List.all_eq_true, and_assoc]
    · simpa [Retrieval.candidates] using isExact_byClasses_host exactCase names exactTags view context
  · intro name
    have walked := (lists_descendants (d := d) context).filter (d.hasTag name exactTags)
    refine ⟨_, walked, ?_⟩
    constructor
    · intro agree offers ignoresCase starred n below element
      have whole := agree .full
      rw [ignoresCase, starred, Retrieval.candidates, Retrieval.byTagFrom_star offers] at whole
      have member := mem_elementDescendants.mpr ⟨below, element⟩
      rw [whole, List.mem_filter] at member
      exact hasTag_star_iff.mp member.2
    · intro tagged view
      cases exact_or_starred name exactTags view with
      | inl exact => simpa [Retrieval.candidates] using exact context
      | inr starred =>
        obtain ⟨rfl, offers, rfl, rfl⟩ := starred
        rw [Retrieval.candidates, Retrieval.byTagFrom_star offers]
        refine ((lists_elementDescendants context).congr fun n => ?_).unique walked
        rw [hasTag_star_iff]
        refine and_congr_right fun below => ⟨tagged offers rfl rfl n below, fun tag => ?_⟩
        have tagged : d.hasTag ⟨"*"⟩ false n = true := hasTag_star_iff.mpr tag
        exact isElement_of_hasTag tagged

theorem bulkLookups_agree_list :
    let d := ofEdits [.element 0 "UL" [], .element 1 "li" [("class", "a b")],
      .element 1 "LI" [("class", "B a")], .text 1 "li", .element 1 "Li" [("class", "b a")]]
    d.ignoresClassCase = false ∧ ∀ view,
      (Retrieval.byClasses ["a", "b"]).candidates (d.host view) false 0 = [2, 5] ∧
      (Retrieval.byTag ⟨"lI"⟩).candidates (d.host view) false 0 = [2, 3, 5] := by
  intro d
  have exactCase : d.ignoresClassCase = false := by decide +kernel
  obtain ⟨classes, tags⟩ := bulkLookups_agree exactCase false 0
  obtain ⟨classed, -, alike⟩ := classes ["a", "b"]
  obtain ⟨tagged, -, alike_iff⟩ := tags ⟨"lI"⟩
  have agree := alike_iff.mpr fun _ _ same => absurd same (by decide)
  have byClasses : (Retrieval.byClasses ["a", "b"]).candidates (d.host .plain) false 0 = [2, 5] := by
    decide +kernel
  have byTag : (Retrieval.byTag ⟨"lI"⟩).candidates (d.host .plain) false 0 = [2, 3, 5] := by
    simp only [Retrieval.candidates, Retrieval.byTagFrom, host, hasTag_eq_letters]
    decide +kernel
  refine ⟨exactCase, fun view => ⟨?_, ?_⟩⟩
  · rw [alike view, ← alike .plain, byClasses]
  · rw [agree view, ← agree .plain, byTag]

/-- An escaped `*` is the name of a tag, which no element here has. -/
theorem bulkLookup_escaped_star :
    let d := ofEdits [.element 0 "a" []]
    d.ignoresClassCase = false ∧ (parse "\\*").map (Retrieval.ofPart · true) = [.byTag ⟨"*"⟩] ∧
      (Retrieval.byTag ⟨"*"⟩).candidates (d.host .full) false 0 = [1] ∧
      (Retrieval.byTag ⟨"*"⟩).candidates (d.host .plain) false 0 = [] ∧
      (Retrieval.byTag ⟨"*"⟩).candidates (d.host .refusing) false 0 = [] := by
  decide +kernel

end Document

end TreeSelectors
