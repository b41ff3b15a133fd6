import Mathlib.Tactic.MkIffOfInductiveProp
import Mathlib.Tactic.Tauto
import TreeSelectors.Proofs.Selector.Completion
import TreeSelectors.Proofs.Selector.Compound

/-!
  What is well formed, said of the tokens of a selector alone: each compound is, and no combinator
  follows another. Nothing that a well-formed selector asks for is lost or ends up in another part.
  Main statement: `parseWellFormed_eq_compoundParts`.
-/

namespace TreeSelectors

/-! ## What is well formed -/

/-- What may only stand first in a compound. -/
def Token.isLead : Token → Bool
  | .universal | .tag _ => true
  | _ => false

/-- A tag or `*` stands first, and there is at most one id. -/
@[mk_iff isWellFormed_iff]
structure Compound.IsWellFormed (compound : Compound) : Prop where
  lead : ∀ token ∈ compound.run.tail, token.isLead = false
  id : (compound.run.filterMap Token.id?).length ≤ 1

/-- No two combinators with nothing or only blanks between them. -/
def IsSpaced (row : List Token) : Prop :=
  ∀ first blanks second, (∀ token ∈ blanks, token = .blank) →
    ¬ (.combinator first :: (blanks ++ [.combinator second])) <:+: row

/-! ## Combinators apart -/

section

variable {compound : Compound} {gap run rest row : List Token} {draft : Draft}
  {operator : Combinator} {token : Token}

/-- Where blanks are left out, no two combinators are next to each other. -/
theorem isSpaced_iff :
    IsSpaced row ↔ (row.filter (· ≠ .blank)).IsChain fun token next =>
      token.operator? = none ∨ next.operator? = none := by
  rw [List.isChain_iff_forall_rel_of_append_cons_cons]
  constructor
  · intro spaced token next front back same
    obtain ⟨before, more, rfl, -, same⟩ := List.filter_eq_append_iff.mp same
    obtain ⟨left, more, rfl, -, -, same⟩ := List.filter_eq_cons_iff.mp same
    obtain ⟨blanks, after, rfl, blank, -, -⟩ := List.filter_eq_cons_iff.mp same
    cases token with
    | combinator first =>
      cases next with
      | combinator second =>
        refine absurd ⟨before ++ left, after, by simp⟩ (spaced first blanks second ?_)
        exact fun token among => by simpa using blank token among
      | _ => exact .inr rfl
    | _ => exact .inl rfl
  · rintro apart first blanks second blank ⟨before, after, rfl⟩
    have near : (before ++ Token.combinator first :: (blanks ++ [.combinator second]) ++
        after).filter (· ≠ .blank) = before.filter (· ≠ .blank) ++
          .combinator first :: .combinator second :: after.filter (· ≠ .blank) := by
      simpa using blank
    rcases apart near with none | none <;> exact absurd none (Option.some_ne_none _)

theorem isSpaced_lead_cons (next : Combinator) (proper : next ≠ .descendant) :
    IsSpaced (Part.lead operator ++ .combinator next :: row) ↔
      operator = .descendant ∧ IsSpaced (Part.lead next ++ row) := by
  by_cases same : operator = .descendant
  · simp [isSpaced_iff, Part.lead, same, proper]
  · simp [isSpaced_iff, Part.lead, same, Token.operator?]

/-- Gap and rest are spaced apart from each other: on either side of where the run meets a neighbour
    there is a token that is no combinator. -/
theorem Compound.IsCut.isSpaced_append (cut : compound.IsCut rest) :
    IsSpaced (compound.gap ++ (compound.run ++ rest)) ↔ IsSpaced compound.gap ∧ IsSpaced rest := by
  have none (token : Token) (among : token ∈ compound.run) : token.operator? = none :=
    operator?_of_solid (cut.run token among)
  simp only [isSpaced_iff, List.filter_append, filter_of_solid cut.run]
  have inside : compound.run.IsChain fun token next =>
      token.operator? = Option.none ∨ next.operator? = Option.none :=
    List.isChain_iff_forall_rel_of_append_cons_cons.mpr fun token _ _ _ whole =>
      .inl (none token (by simp [whole]))
  rw [List.isChain_append, List.isChain_append, and_iff_right inside,
    List.head?_append_of_ne_nil _ cut.nonempty]
  constructor
  · exact fun ⟨gap, ⟨rest, _⟩, _⟩ => ⟨gap, rest⟩
  · exact fun ⟨gap, rest⟩ => ⟨gap,
      ⟨rest, fun token last _ _ => .inl (none token (List.mem_of_getLast? last))⟩,
      fun _ _ next first => .inr (none next (List.mem_of_head? first))⟩

/-! ## Complaints -/

namespace Draft

/-- Nobody complains about a row. -/
def IsQuiet (draft : Draft) (row : List Token) : Prop := ∃ built final, Takes draft row built final

theorem isQuiet_nil : draft.IsQuiet [] := ⟨[], draft, .nil⟩

theorem isQuiet_cons :
    draft.IsQuiet (token :: row) ↔
      draft.complaint? token = none ∧ (draft.step token).2.IsQuiet row := by
  constructor
  · rintro ⟨built, final, takes⟩
    cases takes with
    | cons quiet later => exact ⟨quiet, _, final, later⟩
  · rintro ⟨quiet, built, final, later⟩
    exact ⟨_, final, .cons quiet later⟩

theorem faults_eq_nil_iff {read : List Lexeme} :
    draft.faults read = [] ↔
      (∀ lexeme ∈ read, lexeme.faults = []) ∧ draft.IsQuiet (read.map Lexeme.token) := by
  constructor
  · intro clean
    refine ⟨faults_of_faults_eq_nil clean, ?_⟩
    induction read generalizing draft with
    | nil => exact isQuiet_nil
    | cons lexeme read ih =>
      simp only [faults, List.append_eq_nil_iff, List.map_eq_nil_iff,
        Option.toList_eq_nil_iff] at clean
      exact isQuiet_cons.mpr ⟨clean.1.1, ih clean.2⟩
  · rintro ⟨clean, built, final, takes⟩
    exact takes.faults clean

theorem isQuiet_gap (writable : ∀ token ∈ gap, token.IsWritable)
    (separators : ∀ token ∈ gap, token.isSeparator = true) (operator : Combinator)
    (rest : List Token) :
    IsQuiet { part.operator := operator } (gap ++ rest) ↔
      IsSpaced (Part.lead operator ++ gap) ∧
      IsQuiet { part.operator := operatorAfter operator gap } rest := by
  induction gap generalizing operator with
  | nil =>
    have alone : IsSpaced (Part.lead operator ++ []) := by
      cases operator <;> simp [isSpaced_iff, Part.lead]
    exact (and_iff_right alone).symm
  | cons token gap ih =>
    obtain ⟨here, later⟩ := List.forall_mem_cons.mp separators
    obtain ⟨proper, others⟩ := List.forall_mem_cons.mp writable
    cases token with
    | blank =>
      have skipped : IsSpaced (Part.lead operator ++ .blank :: gap) ↔
          IsSpaced (Part.lead operator ++ gap) := by simp [isSpaced_iff]
      rw [List.cons_append, isQuiet_cons, skipped, operatorAfter_blank,
        ← ih others later operator]
      simp [complaint?, step]
    | combinator next =>
      rw [List.cons_append, isQuiet_cons, isSpaced_lead_cons next proper, and_assoc,
        operatorAfter_combinator, ← ih others later next]
      simp [complaint?, step]
    | _ => exact absurd here Bool.noConfusion

/-- A draft that holds something complains about another lead and another id. -/
theorem complaint?_eq_none_iff (writable : token.IsWritable) (solid : token.isSeparator = false)
    (full : draft.isEmpty = false) :
    draft.complaint? token = none ↔
      token.isLead = false ∧ (draft.part.id = none ∨ token.id? = none) := by
  have named := Token.isNameless_eq_false writable
  cases token with
  | combinator => exact absurd solid Bool.noConfusion
  | _ => simp_all [complaint?, Token.isNameless, Token.isLead, Token.id?]

/-- A draft that holds nothing complains about no token of a compound. -/
theorem complaint?_bare (operator : Combinator) (solid : token.isSeparator = false) :
    complaint? { part.operator := operator } token = none := by
  cases token with
  | combinator => exact absurd solid Bool.noConfusion
  | _ => simp [complaint?]

theorem id_add (draft : Draft) (token : Token) :
    (draft.add token).part.id = token.id?.or draft.part.id := by
  cases token <;> rfl

theorem isQuiet_run (writable : ∀ token ∈ run, token.IsWritable)
    (solid : ∀ token ∈ run, token.isSeparator = false) (full : draft.isEmpty = false)
    (rest : List Token) :
    draft.IsQuiet (run ++ rest) ↔
      ((∀ token ∈ run, token.isLead = false) ∧
        (draft.part.id.toList ++ run.filterMap Token.id?).length ≤ 1) ∧
      (run.foldl add draft).IsQuiet rest := by
  induction run generalizing draft with
  | nil => cases draft.part.id <;> simp
  | cons token run ih =>
    obtain ⟨here, later⟩ := List.forall_mem_cons.mp writable
    obtain ⟨alone, others⟩ := List.forall_mem_cons.mp solid
    have ids : (draft.part.id.toList ++ (token :: run).filterMap Token.id?).length ≤ 1 ↔
        (draft.part.id = none ∨ token.id? = none) ∧
          ((draft.add token).part.id.toList ++ run.filterMap Token.id?).length ≤ 1 := by
      rw [id_add, List.filterMap_cons]
      cases draft.part.id <;> cases token.id? <;> simp
    rw [List.cons_append, isQuiet_cons, complaint?_eq_none_iff here alone full,
      step_of_solid here alone, ih later others (isEmpty_add here alone), List.forall_mem_cons, ids,
      List.foldl_cons]
    tauto

theorem isQuiet_compound (writable : ∀ token ∈ compound.run, token.IsWritable)
    (cut : compound.IsCut rest) (operator : Combinator) :
    IsQuiet { part.operator := operator } (compound.run ++ rest) ↔
      compound.IsWellFormed ∧
      (compound.run.foldl add { part.operator := operator }).IsQuiet rest := by
  obtain ⟨gap, _ | ⟨token, run⟩⟩ := compound
  · exact absurd rfl cut.nonempty
  obtain ⟨here, later⟩ := List.forall_mem_cons.mp writable
  obtain ⟨alone, others⟩ := List.forall_mem_cons.mp cut.run
  have wellFormed : Compound.IsWellFormed ⟨gap, token :: run⟩ ↔
      (∀ token ∈ run, token.isLead = false) ∧
        ((add { part.operator := operator } token).part.id.toList ++
          run.filterMap Token.id?).length ≤ 1 := by
    rw [Compound.isWellFormed_iff, id_add, List.filterMap_cons]
    cases token.id? <;> simp
  rw [List.cons_append, isQuiet_cons, and_iff_right (complaint?_bare operator alone),
    step_of_solid here alone, isQuiet_run later others (isEmpty_add here alone), wellFormed,
    List.foldl_cons]

/-- What follows a part that holds anything is read as at the start. -/
theorem isQuiet_after (full : draft.isEmpty = false)
    (separated : ∀ token ∈ rest.head?, token.isSeparator = true) :
    draft.IsQuiet rest ↔ ({} : Draft).IsQuiet rest := by
  cases rest with
  | nil => exact iff_of_true isQuiet_nil isQuiet_nil
  | cons token rest =>
    have here := separated token rfl
    cases token with
    | blank => simp [isQuiet_cons, complaint?, step, full]
    | combinator => simp [isQuiet_cons, complaint?, step, full]
    | _ => exact absurd here Bool.noConfusion

end Draft

/-- From tokens that can be written, nobody complains exactly where compounds are well formed and
    combinators apart. -/
theorem isQuiet_iff_compounds (writable : ∀ token ∈ row, token.IsWritable) :
    ({} : Draft).IsQuiet row ↔
      (∀ compound ∈ compounds row, compound.IsWellFormed) ∧ IsSpaced row := by
  induction row using compound_induction with
  | separators gap separators =>
    have quiet := Draft.isQuiet_gap writable separators .descendant []
    rw [List.append_nil, and_iff_left Draft.isQuiet_nil] at quiet
    rw [compounds_of_separators separators]
    simpa [Part.lead] using quiet
  | compound compound rest cut ih =>
    rw [List.forall_mem_append, List.forall_mem_append] at writable
    obtain ⟨inGap, inRun, inRest⟩ := writable
    have full := Draft.isEmpty_foldl_add inRun cut.run cut.nonempty
      { part.operator := compound.operator }
    calc ({} : Draft).IsQuiet (compound.gap ++ (compound.run ++ rest))
      _ ↔ IsSpaced compound.gap ∧
          Draft.IsQuiet { part.operator := compound.operator } (compound.run ++ rest) :=
        Draft.isQuiet_gap inGap cut.gap .descendant _
      _ ↔ IsSpaced compound.gap ∧ compound.IsWellFormed ∧ ({} : Draft).IsQuiet rest := by
        rw [Draft.isQuiet_compound inRun cut, Draft.isQuiet_after full cut.rest]
      _ ↔ _ := by
        rw [ih inRest, cut.compounds_append, cut.isSpaced_append, List.forall_mem_cons]
        tauto

/-! ## Nothing is lost -/

theorem perm_append_of_perm_cons {token : Token} {back more : List Token} (front : List Token)
    (moved : back.Perm (token :: more)) : (front ++ back).Perm (token :: (front ++ more)) :=
  (moved.append_left front).trans List.perm_middle

/-- Sorted by their kinds, the tokens of a run are still those of the run. -/
theorem perm_run (components : ∀ token ∈ run, token.isComponent = true) :
    ((run.filterMap Token.tag?).map (fun name => .tag name.written) ++
      ((run.filterMap Token.id?).map .id ++ ((run.filterMap Token.className?).map .className ++
        ((run.filterMap Token.attr?).map .attr ++ (run.filterMap Token.pseudo?).map .pseudo))) :
      List Token).Perm (run.filter (· ≠ .universal)) := by
  induction run with
  | nil => exact .nil
  | cons token run ih =>
    obtain ⟨here, later⟩ := List.forall_mem_cons.mp components
    have rest := ih later
    cases token with
    | universal => exact rest
    | tag name => exact rest.cons _
    | id name => exact List.perm_middle.trans (rest.cons _)
    | className name =>
      exact (perm_append_of_perm_cons _ List.perm_middle).trans (rest.cons _)
    | attr test =>
      exact (perm_append_of_perm_cons _ (perm_append_of_perm_cons _ List.perm_middle)).trans
        (rest.cons _)
    | pseudo named =>
      exact (perm_append_of_perm_cons _ (perm_append_of_perm_cons _
        (perm_append_of_perm_cons _ List.perm_middle))).trans (rest.cons _)
    | _ => exact absurd here Bool.noConfusion

theorem toList_of_length_le_one {α : Type} {list : List α} (short : list.length ≤ 1) :
    list.head?.toList = list ∧ list.getLast?.toList = list := by
  match list, short with
  | [], _ => exact ⟨rfl, rfl⟩
  | [_], _ => exact ⟨rfl, rfl⟩

theorem Compound.IsWellFormed.length_tags (wellFormed : compound.IsWellFormed) :
    (compound.run.filterMap Token.tag?).length ≤ 1 := by
  obtain ⟨gap, _ | ⟨token, run⟩⟩ := compound
  · exact Nat.zero_le _
  · have none : run.filterMap Token.tag? = [] := by
      refine List.filterMap_eq_nil_iff.mpr fun token among => ?_
      cases token with
      | tag name => exact absurd (wellFormed.lead _ among) Bool.noConfusion
      | _ => rfl
    rw [List.filterMap_cons, none]
    split <;> simp

/-- The part of a compound asks for what its tokens ask for, each time they do. -/
theorem perm_components (components : ∀ token ∈ compound.run, token.isComponent = true)
    (wellFormed : compound.IsWellFormed) :
    compound.part.components.Perm (compound.run.filter (· ≠ .universal)) := by
  have tags := (toList_of_length_le_one wellFormed.length_tags).1
  have ids := (toList_of_length_le_one wellFormed.id).2
  rw [Part.components, Part.testTokens, Compound.part, tags, ids]
  exact perm_run components

theorem perm_components_of_mem (writable : ∀ token ∈ row, token.IsWritable)
    (wellFormed : ∀ compound ∈ compounds row, compound.IsWellFormed) :
    ∀ compound ∈ compounds row,
      compound.part.components.Perm (compound.run.filter (· ≠ .universal)) := by
  induction row using compound_induction with
  | separators gap separators => simp [compounds_of_separators separators]
  | compound compound rest cut ih =>
    rw [List.forall_mem_append, List.forall_mem_append] at writable
    obtain ⟨-, inRun, inRest⟩ := writable
    rw [cut.compounds_append, List.forall_mem_cons] at wellFormed ⊢
    refine ⟨perm_components (fun token among => ?_) wellFormed.1, ih inRest wellFormed.2⟩
    exact isComponent_of_solid (inRun token among) (cut.run token among)

theorem length_le_one_of_isSpaced (separators : ∀ token ∈ gap, token.isSeparator = true)
    (spaced : IsSpaced gap) : (gap.filterMap Token.operator?).length ≤ 1 := by
  rw [isSpaced_iff, filter_of_separators separators] at spaced
  match same : gap.filterMap Token.operator? with
  | [] => exact Nat.zero_le 1
  | [_] => exact Nat.le_refl 1
  | first :: second :: others => simp [same, Token.operator?] at spaced

theorem filter_operatorAfter (writable : ∀ token ∈ gap, token.IsWritable)
    (separators : ∀ token ∈ gap, token.isSeparator = true) (spaced : IsSpaced gap) :
    [operatorAfter .descendant gap].filter (· ≠ .descendant) = gap.filterMap Token.operator? := by
  have one := length_le_one_of_isSpaced separators spaced
  have proper := ne_descendant_of_mem writable
  rw [operatorAfter]
  generalize gap.filterMap Token.operator? = operators at one proper ⊢
  obtain _ | ⟨operator, _ | ⟨next, others⟩⟩ := operators
  · rfl
  · simp [proper operator]
  · simp at one

/-- Each combinator is the operator of a part. -/
theorem operators_compoundParts (writable : ∀ token ∈ row, token.IsWritable)
    (spaced : IsSpaced row) :
    ((compoundParts row).map Part.operator).filter (· ≠ .descendant) =
      row.filterMap Token.operator? := by
  induction row using compound_induction with
  | separators gap separators =>
    have one := length_le_one_of_isSpaced separators spaced
    have proper := ne_descendant_of_mem writable
    rw [compoundParts, compounds_of_separators separators,
      danglingOperator?_of_separators separators, (toList_of_length_le_one one).2]
    simpa [Function.comp_def] using proper
  | compound compound rest cut ih =>
    rw [List.forall_mem_append, List.forall_mem_append] at writable
    obtain ⟨inGap, -, inRest⟩ := writable
    obtain ⟨apart, later⟩ := cut.isSpaced_append.mp spaced
    have run : compound.run.filterMap Token.operator? = [] :=
      List.filterMap_eq_nil_iff.mpr fun token among => operator?_of_solid (cut.run token among)
    have here := filter_operatorAfter inGap cut.gap apart
    rw [cut.compoundParts_append, List.map_cons, List.filterMap_append, List.filterMap_append, run,
      List.nil_append, ← ih inRest later, ← here, ← List.filter_append]
    rfl

end

/-! ## Well-formed selectors -/

/-- The tokens of a selector say whether it is well formed and what its parts are then: each token
    lies in one compound and shows in the part of that compound, and each combinator in the part
    after it. -/
theorem parseWellFormed_eq_compoundParts (selector : String) :
    let row := tokens selector
    (∀ parts, parseWellFormed selector = .ok parts ↔
      ((∀ lexeme ∈ lexemes selector.toList, lexeme.faults = []) ∧
        (∀ compound ∈ compounds row, compound.IsWellFormed) ∧ IsSpaced row) ∧
      parts = compoundParts row) ∧
    (compounds row).map Compound.run = (row.splitOnP Token.isSeparator).filter (· ≠ []) ∧
    ∀ parts, parseWellFormed selector = .ok parts →
      (∀ compound ∈ compounds row,
        compound.part.components.Perm (compound.run.filter (· ≠ .universal))) ∧
      (parts.map Part.operator).filter (· ≠ .descendant) = row.filterMap Token.operator? := by
  intro row
  have accepted (parts : List Part) : parseWellFormed selector = .ok parts ↔
      ((∀ lexeme ∈ lexemes selector.toList, lexeme.faults = []) ∧
        (∀ compound ∈ compounds row, compound.IsWellFormed) ∧ IsSpaced row) ∧
      parts = compoundParts row := by
    rw [parseWellFormed_eq_ok_iff, flaws, List.map_eq_nil_iff, Draft.faults_eq_nil_iff, and_assoc,
      and_assoc]
    refine and_congr_right fun clean => ?_
    have writable := isWritable_of_clean clean
    rw [← tokens, isQuiet_iff_compounds writable, parse, parts_eq_compoundParts writable,
      eq_comm]
  refine ⟨accepted, map_run_compounds row, fun parts ok => ?_⟩
  obtain ⟨⟨clean, wellFormed, spaced⟩, rfl⟩ := (accepted parts).mp ok
  have writable := isWritable_of_clean clean
  exact ⟨perm_components_of_mem writable wellFormed, operators_compoundParts writable spaced⟩

/-- Blanks after a combinator at the end change nothing: it still has a part of its own. -/
theorem parseWellFormed_trailing_blank :
    let row := tokens "a > "
    row.getLast? = some .blank ∧ (compounds row).map Compound.part = [{ tag := some ⟨"a"⟩ }] ∧
      parseWellFormed "a > " = .ok [{ tag := some ⟨"a"⟩ }, { operator := .child }] ∧
      parseWellFormed "a > " ≠ .ok ((compounds row).map Compound.part) := by
  decide +kernel

end TreeSelectors
