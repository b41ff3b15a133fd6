import TreeSelectors.Proofs.Chain
import TreeSelectors.Proofs.Document.Order
import TreeSelectors.Proofs.Selector.RoundTrip

/-!
  The lookup by selector text that a document offers. It answers exactly the selectors whose groups
  all are understood (`isUnderstood_iff`), and then with the elements below the scope at which a
  chain for some group ends, wherever in the document that chain starts
  (`elementsBySelector_correct`).
-/

namespace TreeSelectors

/-- Presence and equality of attributes; `:first-child` and `:last-child` without argument. -/
structure Part.IsPlain (part : Part) : Prop where
  attrs : ∀ test ∈ part.attrs, test.op = .present ∨ test.op = .equals
  pseudos : ∀ pseudo ∈ part.pseudos,
    pseudo.arg = none ∧ (pseudo.name = "first-child" ∨ pseudo.name = "last-child")

/-- A well-formed group of plain parts that is not relative to a context. -/
def IsUnderstood (group : String) : Prop :=
  ∃ first rest, parseWellFormed group = .ok (first :: rest) ∧ first.operator = .descendant ∧
    ∀ part ∈ first :: rest, part.IsPlain

/-- What a plain part asks of an element. -/
structure Document.Meets (d : Document) (part : Part) (n : NodeId) : Prop where
  tag : ∀ name ∈ part.tag, ∃ tag ∈ d.tag? n, Text.lower tag = Text.lower name.written
  id : ∀ id ∈ part.id, d.attr? n "id" = some id
  classes : ∀ name ∈ part.classes, name ∈ d.classes n
  attrs : ∀ test ∈ part.attrs,
    ∃ value ∈ d.attr? n test.attr, test.op = .equals → value = test.value
  first : (∃ pseudo ∈ part.pseudos, pseudo.name = "first-child") →
    ∀ m, d.IsLaterSibling m n → d.isElement m = false
  last : (∃ pseudo ∈ part.pseudos, pseudo.name = "last-child") →
    ∀ m, d.IsLaterSibling n m → d.isElement m = false

/-! ## The fragment -/

theorem Part.unsupported?_eq_none_iff {part : Part} : part.unsupported? = none ↔ part.IsPlain := by
  have pseudos : part.pseudos.find? (!·.isUnderstood) = none ↔ ∀ pseudo ∈ part.pseudos,
      pseudo.arg = none ∧ (pseudo.name = "first-child" ∨ pseudo.name = "last-child") := by
    simp [Pseudo.isUnderstood, understoodPseudos, or_iff_not_imp_left]
  have attrs : part.attrs.find? (!·.isUnderstood) = none ↔
      ∀ test ∈ part.attrs, test.op = .present ∨ test.op = .equals := by
    simp [AttrTest.isUnderstood, or_iff_not_imp_left]
  simp only [Part.unsupported?, Option.or_eq_none_iff, Option.map_eq_none_iff, attrs, pseudos]
  exact ⟨fun ⟨attrs, pseudos⟩ => ⟨attrs, pseudos⟩, fun plain => ⟨plain.attrs, plain.pseudos⟩⟩

theorem unsupported?_eq_none_iff {parts : List Part} :
    unsupported? parts = none ↔ ∃ first rest, parts = first :: rest ∧
      first.operator = .descendant ∧ ∀ part ∈ parts, part.IsPlain := by
  cases parts with
  | nil => simp [unsupported?]
  | cons first rest =>
    by_cases absolute : first.operator = .descendant
    · simp only [unsupported?, absolute, ↓reduceIte, List.findSome?_eq_none_iff,
        Part.unsupported?_eq_none_iff]
      constructor
      · exact fun plain => ⟨first, rest, rfl, absolute, plain⟩
      · exact fun ⟨_, _, _, _, plain⟩ => plain
    · simp only [unsupported?, absolute, ↓reduceIte, reduceCtorEq, false_iff]
      rintro ⟨_, _, same, descendant, -⟩
      obtain ⟨rfl, rfl⟩ := List.cons.inj same
      exact absolute descendant

theorem understood_eq_ok_iff {group : String} {parts : List Part} :
    understood group = .ok parts ↔
      parseWellFormed group = .ok parts ∧ unsupported? parts = none := by
  unfold understood
  cases parseWellFormed group with
  | error error => simp
  | ok read =>
    cases found : unsupported? read with
    | none =>
      simp only [found, Except.ok.injEq]
      exact ⟨fun same => ⟨same, same ▸ found⟩, fun both => both.1⟩
    | some obstacle =>
      simp only [found, reduceCtorEq, Except.ok.injEq, false_iff, not_and]
      rintro rfl
      simp [found]

theorem isUnderstood_iff {group : String} :
    IsUnderstood group ↔ ∃ parts, understood group = .ok parts := by
  simp only [understood_eq_ok_iff, unsupported?_eq_none_iff]
  constructor
  · rintro ⟨first, rest, read, absolute, plain⟩
    exact ⟨first :: rest, read, first, rest, rfl, absolute, plain⟩
  · rintro ⟨_, read, first, rest, rfl, absolute, plain⟩
    exact ⟨first, rest, read, absolute, plain⟩

/-- Trying all succeeds when each try does. -/
theorem mapM_eq_ok_iff {α β ε : Type} {f : α → Except ε β} {items : List α} {found : List β} :
    items.mapM f = .ok found ↔ List.Forall₂ (fun item value => f item = .ok value) items found := by
  induction items generalizing found with
  | nil => simp [pure, Except.pure, eq_comm]
  | cons item items ih =>
    rw [List.mapM_cons, List.forall₂_cons_left_iff]
    cases here : f item with
    | error error => simp [bind, Except.bind]
    | ok value =>
      cases later : items.mapM f with
      | error error =>
        simp only [bind, Except.bind, reduceCtorEq, Except.ok.injEq, false_iff]
        rintro ⟨_, rest, -, others, -⟩
        simp [ih.mpr others] at later
      | ok rest =>
        simp only [bind, Except.bind, pure, Except.pure, Except.ok.injEq]
        constructor
        · rintro rfl
          exact ⟨value, rest, rfl, ih.mp later, rfl⟩
        · rintro ⟨_, others, rfl, matched, rfl⟩
          have same := (ih.mpr matched).symm.trans later
          rw [Except.ok.inj same]

theorem exists_mapM_eq_ok_iff {α β ε : Type} {f : α → Except ε β} {items : List α} :
    (∃ found, items.mapM f = .ok found) ↔ ∀ item ∈ items, ∃ value, f item = .ok value := by
  simp only [mapM_eq_ok_iff]
  induction items with
  | nil => simp
  | cons item items ih =>
    rw [List.forall_mem_cons, ← ih]
    constructor
    · rintro ⟨_, matched⟩
      obtain ⟨value, rest, here, later, -⟩ := List.forall₂_cons_left_iff.mp matched
      exact ⟨⟨value, here⟩, rest, later⟩
    · rintro ⟨⟨value, here⟩, rest, later⟩
      exact ⟨value :: rest, .cons here later⟩

theorem eq_map_of_forall₂ {α β : Type} {r : α → β → Prop} {f : α → β} {items : List α}
    {values : List β} (matched : List.Forall₂ r items values)
    (one : ∀ item ∈ items, ∀ value, r item value → value = f item) : values = items.map f := by
  induction matched with
  | nil => rfl
  | @cons item value items values here _ ih =>
    rw [List.map_cons, one item List.mem_cons_self value here,
      ih fun other later => one other (List.mem_cons_of_mem item later)]

/-- Lists whose items correspond have corresponding members. -/
theorem exists_mem_iff_of_forall₂ {α β : Type} {r : α → β → Prop} {p : α → Prop} {q : β → Prop}
    {items : List α} {values : List β} (matched : List.Forall₂ r items values)
    (alike : ∀ item value, r item value → (p item ↔ q value)) :
    (∃ item ∈ items, p item) ↔ ∃ value ∈ values, q value := by
  induction matched with
  | nil => simp
  | cons here _ ih => simp [alike _ _ here, ih]

namespace Document

variable {d : Document} {n : NodeId}

/-! ## One part -/

theorem isFirstElement_iff :
    d.isFirstElement n = true ↔ ∀ m, d.IsLaterSibling m n → d.isElement m = false := by
  have members : d.precedingElements n = [] ↔ ∀ m, m ∉ d.precedingElements n :=
    List.eq_nil_iff_forall_not_mem
  simpa [isFirstElement, previousElement?, mem_precedingElements] using members

theorem isLastElement_iff :
    d.isLastElement n = true ↔ ∀ m, d.IsLaterSibling n m → d.isElement m = false := by
  have members : d.followingElements n = [] ↔ ∀ m, m ∉ d.followingElements n :=
    List.eq_nil_iff_forall_not_mem
  simpa [isLastElement, nextElement?, mem_followingElements] using members

theorem hasTag_iff {name : TagName} :
    d.hasTag name false n = true ↔ ∃ tag ∈ d.tag? n, Text.lower tag = Text.lower name.written := by
  cases tag : d.tag? n <;> simp [hasTag, tag, Text.equalIgnoringCase]

theorem passesAttr_iff {test : AttrTest} (plain : test.op = .present ∨ test.op = .equals) :
    d.passesAttr n test = true ↔
      ∃ value ∈ d.attr? n test.attr, test.op = .equals → value = test.value := by
  rcases plain with op | op
  · simp [passesAttr, op, Option.isSome_iff_exists]
  · simp [passesAttr, op]

theorem all_passesPseudo_iff {pseudos : List Pseudo}
    (plain : ∀ pseudo ∈ pseudos, pseudo.name = "first-child" ∨ pseudo.name = "last-child") :
    pseudos.all (d.passesPseudo n) = true ↔
      ((∃ pseudo ∈ pseudos, pseudo.name = "first-child") → d.isFirstElement n = true) ∧
      ((∃ pseudo ∈ pseudos, pseudo.name = "last-child") → d.isLastElement n = true) := by
  rw [List.all_eq_true]
  constructor
  · intro passed
    refine ⟨?_, ?_⟩
    · rintro ⟨pseudo, member, named⟩
      simpa [passesPseudo, named] using passed pseudo member
    · rintro ⟨pseudo, member, named⟩
      simpa [passesPseudo, named] using passed pseudo member
  · rintro ⟨first, last⟩ pseudo member
    rcases plain pseudo member with named | named
    · simpa [passesPseudo, named] using first ⟨pseudo, member, named⟩
    · simpa [passesPseudo, named] using last ⟨pseudo, member, named⟩

theorem satisfies_iff {part : Part} (plain : part.IsPlain) :
    d.satisfies part n = true ↔ d.isElement n = true ∧ d.Meets part n := by
  have tag : part.tag.all (d.hasTag · false n) = true ↔
      ∀ name ∈ part.tag, ∃ tag ∈ d.tag? n, Text.lower tag = Text.lower name.written := by
    cases part.tag <;> simp [hasTag_iff]
  have id : part.id.all (d.hasId · n) = true ↔ ∀ id ∈ part.id, d.attr? n "id" = some id := by
    cases part.id <;> simp [hasId]
  have classes : part.classes.all (d.hasClass · n) = true ↔
      ∀ name ∈ part.classes, name ∈ d.classes n := by
    simp [hasClass]
  have attrs : part.attrs.all (d.passesAttr n) = true ↔ ∀ test ∈ part.attrs,
      ∃ value ∈ d.attr? n test.attr, test.op = .equals → value = test.value := by
    rw [List.all_eq_true]
    exact forall₂_congr fun test member => passesAttr_iff (plain.attrs test member)
  have pseudos := all_passesPseudo_iff (d := d) (n := n) fun pseudo member =>
    (plain.pseudos pseudo member).2
  rw [isFirstElement_iff, isLastElement_iff] at pseudos
  simp only [satisfies, Bool.and_eq_true, tag, id, classes, attrs, pseudos]
  constructor
  · rintro ⟨⟨⟨⟨⟨element, tag⟩, id⟩, classes⟩, attrs⟩, first, last⟩
    exact ⟨element, tag, id, classes, attrs, first, last⟩
  · rintro ⟨element, tag, id, classes, attrs, first, last⟩
    exact ⟨⟨⟨⟨⟨element, tag⟩, id⟩, classes⟩, attrs⟩, first, last⟩

/-! ## A chain, matched from its end -/

/-- The walk back tries every origin, so it finds a chain wherever there is one. -/
theorem endsChain_iff {before : List Part} (nonempty : before ≠ [])
    (plain : ∀ part ∈ before, part.IsPlain) :
    d.endsChain before n = true ↔ d.EndsAnywhere d.Meets before.reverse n := by
  induction before generalizing n with
  | nil => exact absurd rfl nonempty
  | cons part before ih =>
    obtain ⟨here, earlier⟩ := List.forall_mem_cons.mp plain
    rw [List.reverse_cons, endsAnywhere_concat, endsChain, Bool.and_eq_true, satisfies_iff here,
      and_assoc]
    refine and_congr_right fun element => and_congr_right fun met => ?_
    rw [Bool.or_eq_true, List.isEmpty_iff, List.reverse_eq_nil_iff, List.any_eq_true]
    by_cases alone : before = []
    · simp [alone]
    · simp only [alone, false_or]
      refine exists_congr fun m => ?_
      rw [ih alone earlier]
      constructor
      · rintro ⟨origin, ends⟩
        exact ⟨(mem_origins ends.isElement).mp origin, ends⟩
      · rintro ⟨related, ends⟩
        exact ⟨(mem_origins ends.isElement).mpr related, ends⟩

/-! ## Whole selectors -/

theorem endsChain_iff_of_understood {group : String} {parts : List Part}
    (read : understood group = .ok parts) :
    d.endsChain parts.reverse n = true ↔ d.EndsAnywhere d.Meets (parse group) n := by
  obtain ⟨wellFormed, supported⟩ := understood_eq_ok_iff.mp read
  obtain ⟨first, rest, rfl, -, plain⟩ := unsupported?_eq_none_iff.mp supported
  have plain' : ∀ part ∈ (first :: rest).reverse, part.IsPlain :=
    fun part member => plain part (List.mem_reverse.mp member)
  rw [endsChain_iff (by simp) plain', List.reverse_reverse,
    (parseWellFormed_eq_ok_iff.mp wellFormed).2]

/-- A document answers just the selectors it understands, and finds just what they mean. -/
theorem elementsBySelector_correct (d : Document) (scope : NodeId) (selector : String) :
    match d.elementsBySelector scope selector with
    | .ok nodes =>
      (groupsOf selector ≠ [] ∧ ∀ group ∈ groupsOf selector, IsUnderstood group) ∧
        d.InOrder nodes ∧
        ∀ n, n ∈ nodes ↔ d.isElement n = true ∧ d.isBelow n scope = true ∧
          ∃ group ∈ groupsOf selector, d.EndsAnywhere d.Meets (parse group) n
    | .error _ => ¬ (groupsOf selector ≠ [] ∧ ∀ group ∈ groupsOf selector, IsUnderstood group) := by
  cases read : (groupsOf selector).mapM understood with
  | error refusal =>
    have answer : d.elementsBySelector scope selector = .error refusal := by
      simp [elementsBySelector, read, bind, Except.bind]
    rw [answer]
    rintro ⟨-, all⟩
    obtain ⟨found, success⟩ := exists_mapM_eq_ok_iff.mpr fun group member =>
      isUnderstood_iff.mp (all group member)
    simp [read] at success
  | ok groups =>
    have matched := mapM_eq_ok_iff.mp read
    by_cases empty : groups = []
    · have answer : d.elementsBySelector scope selector = .error (.rejected "empty selector") := by
        simp [elementsBySelector, read, empty, bind, Except.bind]
      rw [answer]
      rintro ⟨some, -⟩
      exact some (List.forall₂_nil_right_iff.mp (empty ▸ matched))
    · have answer : d.elementsBySelector scope selector =
          .ok ((d.elementDescendants scope).filter fun n =>
            groups.any fun parts => d.endsChain parts.reverse n) := by
        simp [elementsBySelector, read, empty, bind, Except.bind]
      rw [answer]
      refine ⟨⟨?_, ?_⟩, ((inOrder_descendants scope).filter _).filter _, ?_⟩
      · intro none
        exact empty (List.forall₂_nil_left_iff.mp (none ▸ matched))
      · intro group member
        exact isUnderstood_iff.mpr (exists_mapM_eq_ok_iff.mp ⟨groups, read⟩ group member)
      · intro n
        have meaning := exists_mem_iff_of_forall₂ matched
          fun _ _ read => (endsChain_iff_of_understood (d := d) (n := n) read).symm
        rw [List.mem_filter, List.any_eq_true, ← meaning, elementDescendants, List.mem_filter,
          mem_descendants, and_comm (a := d.isBelow n scope = true), and_assoc]

end Document

end TreeSelectors
