import Mathlib.Data.List.TakeWhile
import TreeSelectors.Proofs.Selector.RoundTrip

/-!
  The compounds of a selector. Blanks and combinators cut the tokens of a selector into compounds,
  and each compound is read as a part of its own: nothing is carried from one to the next but the
  combinator between them (`parts_after`). Main statement: `parts_eq_compoundParts`.
-/

namespace TreeSelectors

/-! ## Compounds -/

namespace Token

def isSeparator : Token → Bool
  | .blank | .combinator _ => true
  | _ => false

def operator? : Token → Option Combinator
  | .combinator operator => some operator
  | _ => none

def tag? : Token → Option TagName
  | .tag name => some ⟨name⟩
  | _ => none

def id? : Token → Option String
  | .id name => some name
  | _ => none

def className? : Token → Option String
  | .className name => some name
  | _ => none

def attr? : Token → Option AttrTest
  | .attr test => some test
  | _ => none

def pseudo? : Token → Option Pseudo
  | .pseudo named => some named
  | _ => none

end Token

/-- Tokens up to the next separator and the separators before them. -/
structure Compound where
  gap : List Token
  run : List Token
deriving DecidableEq, Repr

/-- The compounds in a row of tokens. Separators at the end belong to none. -/
def compounds (row : List Token) : List Compound :=
  match _ : row.dropWhile Token.isSeparator with
  | [] => []
  | token :: rest =>
    ⟨row.takeWhile Token.isSeparator, token :: rest.takeWhile (!·.isSeparator)⟩ ::
      compounds (rest.dropWhile (!·.isSeparator))
termination_by row.length
decreasing_by
  have reached : row.dropWhile Token.isSeparator = token :: rest := ‹_›
  have whole := (row.dropWhile_suffix Token.isSeparator).length_le
  have less := (rest.dropWhile_suffix (!Token.isSeparator ·)).length_le
  rw [reached, List.length_cons] at whole
  omega

/-- The last combinator in a gap, or `operator` if there is none. -/
def operatorAfter (operator : Combinator) (gap : List Token) : Combinator :=
  (gap.filterMap Token.operator?).getLast?.getD operator

namespace Compound

def operator (compound : Compound) : Combinator := operatorAfter .descendant compound.gap

def part (compound : Compound) : Part where
  tag := (compound.run.filterMap Token.tag?).head?
  id := (compound.run.filterMap Token.id?).getLast?
  classes := compound.run.filterMap Token.className?
  attrs := compound.run.filterMap Token.attr?
  pseudos := compound.run.filterMap Token.pseudo?
  operator := compound.operator

end Compound

/-- The combinator that a row ends in, blanks aside. -/
def danglingOperator? (row : List Token) : Option Combinator :=
  (row.filter (· ≠ .blank)).getLast?.bind Token.operator?

/-- The part of each compound, and one more for a combinator that no compound follows. -/
def compoundParts (row : List Token) : List Part :=
  (compounds row).map Compound.part ++
    (danglingOperator? row).toList.map fun operator => { operator := operator }

/-! ## Cutting -/

/-- A compound at the front of a row that goes on with `rest`. -/
structure Compound.IsCut (compound : Compound) (rest : List Token) : Prop where
  gap : ∀ token ∈ compound.gap, token.isSeparator = true
  run : ∀ token ∈ compound.run, token.isSeparator = false
  nonempty : compound.run ≠ []
  rest : ∀ token ∈ rest.head?, token.isSeparator = true

theorem head?_dropWhile {stops : Token → Bool} {row : List Token} {token : Token}
    (first : token ∈ (row.dropWhile stops).head?) : stops token = false := by
  have stopped := row.head?_dropWhile_not stops
  rw [first] at stopped
  exact stopped

/-- Rows are separators, or begin with a compound. -/
@[elab_as_elim]
theorem compound_induction {motive : List Token → Prop}
    (separators : ∀ gap, (∀ token ∈ gap, token.isSeparator = true) → motive gap)
    (compound : ∀ (compound : Compound) rest, compound.IsCut rest → motive rest →
      motive (compound.gap ++ (compound.run ++ rest)))
    (row : List Token) : motive row := by
  induction row using compounds.induct with
  | case1 row none => exact separators row (List.dropWhile_eq_nil_iff.mp none)
  | case2 row token rest reached ih =>
    have cut : Compound.IsCut ⟨row.takeWhile Token.isSeparator,
        token :: rest.takeWhile (!·.isSeparator)⟩ (rest.dropWhile (!·.isSeparator)) := by
      refine ⟨fun other among => List.mem_takeWhile_imp among, fun other among => ?_,
        List.cons_ne_nil _ _, fun other first => ?_⟩
      · rcases List.mem_cons.mp among with rfl | later
        · exact head?_dropWhile (by rw [reached]; rfl)
        · simpa using List.mem_takeWhile_imp later
      · simpa using head?_dropWhile first
    have whole := compound _ _ cut ih
    rwa [List.cons_append, List.takeWhile_append_dropWhile, ← reached,
      List.takeWhile_append_dropWhile] at whole

theorem compounds_of_separators {gap : List Token}
    (separators : ∀ token ∈ gap, token.isSeparator = true) : compounds gap = [] := by
  have none : gap.dropWhile Token.isSeparator = [] := List.dropWhile_eq_nil_iff.mpr separators
  unfold compounds
  split
  · rfl
  · simp_all

theorem Compound.IsCut.compounds_append {compound : Compound} {rest : List Token}
    (cut : compound.IsCut rest) :
    compounds (compound.gap ++ (compound.run ++ rest)) = compound :: compounds rest := by
  obtain ⟨gap, _ | ⟨token, run⟩⟩ := compound
  · exact absurd rfl cut.nonempty
  obtain ⟨solid, others⟩ := List.forall_mem_cons.mp cut.run
  have stops : (token :: run ++ rest).takeWhile Token.isSeparator = [] := by simp [solid]
  have drops : (gap ++ (token :: run ++ rest)).dropWhile Token.isSeparator =
      token :: (run ++ rest) := by
    rw [List.dropWhile_append_of_pos cut.gap]
    simp [solid]
  have ends : rest.takeWhile (!·.isSeparator) = [] ∧ rest.dropWhile (!·.isSeparator) = rest := by
    cases rest with
    | nil => exact ⟨rfl, rfl⟩
    | cons next rest => simp [cut.rest next rfl]
  have inner : ∀ token ∈ run, (!token.isSeparator) = true := by simpa using others
  rw [compounds]
  split
  · simp_all
  · next first more reached =>
    rw [drops] at reached
    obtain ⟨rfl, rfl⟩ := List.cons.inj reached
    rw [List.takeWhile_append_of_pos cut.gap, stops, List.takeWhile_append_of_pos inner, ends.1,
      List.dropWhile_append_of_pos inner, ends.2]
    simp

/-- The runs are what is left when the row is split at its separators. -/
theorem map_run_compounds (row : List Token) :
    (compounds row).map Compound.run = (row.splitOnP Token.isSeparator).filter (· ≠ []) := by
  have skip {gap : List Token} (separators : ∀ token ∈ gap, token.isSeparator = true)
      (more : List Token) : ((gap ++ more).splitOnP Token.isSeparator).filter (· ≠ []) =
        (more.splitOnP Token.isSeparator).filter (· ≠ []) := by
    induction gap with
    | nil => rfl
    | cons token gap ih =>
      obtain ⟨here, later⟩ := List.forall_mem_cons.mp separators
      simpa [List.splitOnP_cons_eq_if_modifyHead, here] using ih later
  induction row using compound_induction with
  | separators gap separators =>
    have none := skip separators []
    rw [List.append_nil] at none
    rw [none, compounds_of_separators separators]
    rfl
  | compound compound rest cut ih =>
    rw [skip cut.gap, cut.compounds_append, List.map_cons, ih]
    have solid := cut.run
    cases rest with
    | nil => simp [List.splitOnP_eq_singleton solid, cut.nonempty]
    | cons token rest =>
      have here := cut.rest token rfl
      rw [List.splitOnP_append_cons_of_forall_mem solid token here]
      simp [List.splitOnP_cons_eq_if_modifyHead, here, cut.nonempty]

/-! ## Tokens between separators -/

section

variable {compound : Compound} {gap run rest row : List Token} {draft : Draft} {token : Token}

theorem isComponent_of_solid (writable : token.IsWritable) (solid : token.isSeparator = false) :
    token.isComponent = true := by
  cases token with
  | blank => exact absurd solid Bool.noConfusion
  | combinator => exact absurd solid Bool.noConfusion
  | stray => exact writable.elim
  | _ => rfl

theorem operator?_of_solid (solid : token.isSeparator = false) : token.operator? = none := by
  cases token with
  | combinator => exact absurd solid Bool.noConfusion
  | _ => rfl

/-- No combinator stands for the descendant relation. -/
theorem ne_descendant_of_mem (writable : ∀ token ∈ row, token.IsWritable) :
    ∀ operator ∈ row.filterMap Token.operator?, operator ≠ .descendant := by
  intro operator among
  obtain ⟨token, member, same⟩ := List.mem_filterMap.mp among
  cases token with
  | combinator => exact Option.some.inj same ▸ writable _ member
  | _ => exact absurd same nofun

theorem operatorAfter_blank (operator : Combinator) (gap : List Token) :
    operatorAfter operator (.blank :: gap) = operatorAfter operator gap := rfl

theorem operatorAfter_combinator (operator next : Combinator) (gap : List Token) :
    operatorAfter operator (.combinator next :: gap) = operatorAfter next gap := by
  simp [operatorAfter, Token.operator?, List.getLast?_cons]

/-- Separators without their blanks. -/
theorem filter_of_separators (separators : ∀ token ∈ gap, token.isSeparator = true) :
    gap.filter (· ≠ .blank) = (gap.filterMap Token.operator?).map .combinator := by
  induction gap with
  | nil => rfl
  | cons token gap ih =>
    obtain ⟨here, later⟩ := List.forall_mem_cons.mp separators
    cases token with
    | blank => exact ih later
    | combinator => simp [Token.operator?, ← ih later]
    | _ => exact absurd here Bool.noConfusion

theorem filter_of_solid (solid : ∀ token ∈ run, token.isSeparator = false) :
    run.filter (· ≠ .blank) = run := by
  refine List.filter_eq_self.mpr fun token among => ?_
  have here := solid token among
  simp only [decide_eq_true_eq]
  rintro rfl
  exact absurd here Bool.noConfusion

theorem danglingOperator?_of_separators (separators : ∀ token ∈ gap, token.isSeparator = true) :
    danglingOperator? gap = (gap.filterMap Token.operator?).getLast? := by
  rw [danglingOperator?, filter_of_separators separators, List.getLast?_map]
  cases (gap.filterMap Token.operator?).getLast? <;> rfl

theorem Compound.IsCut.danglingOperator?_append (cut : compound.IsCut rest) :
    danglingOperator? (compound.gap ++ (compound.run ++ rest)) = danglingOperator? rest := by
  rw [danglingOperator?, danglingOperator?, List.filter_append, List.filter_append,
    filter_of_solid cut.run, List.getLast?_append, List.getLast?_append]
  cases last : (rest.filter (· ≠ .blank)).getLast? with
  | some token => rfl
  | none =>
    rw [Option.none_or, List.getLast?_eq_some_getLast cut.nonempty]
    exact operator?_of_solid (cut.run _ (List.getLast_mem cut.nonempty))

theorem Compound.IsCut.compoundParts_append (cut : compound.IsCut rest) :
    compoundParts (compound.gap ++ (compound.run ++ rest)) = compound.part :: compoundParts rest := by
  rw [compoundParts, cut.compounds_append, cut.danglingOperator?_append]
  rfl

/-! ## Parts -/

namespace Draft

theorem step_of_solid (writable : token.IsWritable) (solid : token.isSeparator = false)
    (draft : Draft) : draft.step token = (none, draft.add token) :=
  step_of_isComponent (isComponent_of_solid writable solid) (Token.isNameless_eq_false writable)
    draft

theorem isEmpty_add (writable : token.IsWritable) (solid : token.isSeparator = false) :
    (draft.add token).isEmpty = false := by
  cases token with
  | blank => exact absurd solid Bool.noConfusion
  | combinator => exact absurd solid Bool.noConfusion
  | stray => exact writable.elim
  | _ => simp [add, isEmpty, Part.anyTag, Part.hasTests]

theorem isEmpty_foldl_add (writable : ∀ token ∈ run, token.IsWritable)
    (solid : ∀ token ∈ run, token.isSeparator = false) (nonempty : run ≠ []) (draft : Draft) :
    (run.foldl add draft).isEmpty = false := by
  obtain ⟨front, last, rfl⟩ := (List.eq_nil_or_concat' run).resolve_left nonempty
  rw [List.foldl_concat]
  exact isEmpty_add (writable last (by simp)) (solid last (by simp))

/-- Nothing but a combinator has been read. -/
@[simp]
theorem isEmpty_bare (operator : Combinator) : isEmpty { part.operator := operator } = true := rfl

theorem part_foldl_add (draft : Draft) (run : List Token) :
    (run.foldl add draft).part =
      { tag := draft.part.tag.or (run.filterMap Token.tag?).head?
        id := (run.filterMap Token.id?).getLast?.or draft.part.id
        classes := draft.part.classes ++ run.filterMap Token.className?
        attrs := draft.part.attrs ++ run.filterMap Token.attr?
        pseudos := draft.part.pseudos ++ run.filterMap Token.pseudo?
        operator := draft.part.operator } := by
  induction run generalizing draft with
  | nil => simp
  | cons token run ih =>
    rw [List.foldl_cons, ih]
    cases token <;>
      simp [add, Token.tag?, Token.id?, Token.className?, Token.attr?, Token.pseudo?,
        List.filterMap_cons, List.getLast?_cons, Option.or_some]

theorem part_foldl_add_run (compound : Compound) :
    (compound.run.foldl add { part.operator := compound.operator }).part = compound.part := by
  simp [part_foldl_add, Compound.part]

theorem parts_gap (separators : ∀ token ∈ gap, token.isSeparator = true) (operator : Combinator)
    (rest : List Token) :
    parts { part.operator := operator } (gap ++ rest) =
      parts { part.operator := operatorAfter operator gap } rest := by
  induction gap generalizing operator with
  | nil => rfl
  | cons token gap ih =>
    obtain ⟨here, later⟩ := List.forall_mem_cons.mp separators
    cases token with
    | blank => exact ih later operator
    | combinator next =>
      rw [operatorAfter_combinator, ← ih later next]
      simp [parts, step, completed?]
    | _ => exact absurd here Bool.noConfusion

theorem parts_run (writable : ∀ token ∈ run, token.IsWritable)
    (solid : ∀ token ∈ run, token.isSeparator = false) (draft : Draft) (rest : List Token) :
    draft.parts (run ++ rest) = (run.foldl add draft).parts rest := by
  induction run generalizing draft with
  | nil => rfl
  | cons token run ih =>
    obtain ⟨here, later⟩ := List.forall_mem_cons.mp writable
    obtain ⟨alone, others⟩ := List.forall_mem_cons.mp solid
    rw [List.cons_append, parts, step_of_solid here alone]
    exact ih later others _

/-- A separator ends a part that holds anything; what follows is read as at the start. -/
theorem parts_after (full : draft.isEmpty = false)
    (separated : ∀ token ∈ rest.head?, token.isSeparator = true) :
    draft.parts rest = draft.part :: ({} : Draft).parts rest := by
  cases rest with
  | nil => simp [parts, full]
  | cons token rest =>
    have here := separated token rfl
    cases token with
    | blank => simp [parts, step, full]
    | combinator => simp [parts, step, completed?, full]
    | _ => exact absurd here Bool.noConfusion

end Draft

/-- Tokens that can be written are read as their compounds, whether or not anybody complains. -/
theorem parts_eq_compoundParts (writable : ∀ token ∈ row, token.IsWritable) :
    ({} : Draft).parts row = compoundParts row := by
  induction row using compound_induction with
  | separators gap separators =>
    have read := Draft.parts_gap separators .descendant []
    rw [List.append_nil] at read
    rw [read, operatorAfter, compoundParts, compounds_of_separators separators,
      danglingOperator?_of_separators separators]
    cases last : (gap.filterMap Token.operator?).getLast? with
    | none => rfl
    | some operator =>
      have proper := ne_descendant_of_mem writable operator (List.mem_of_getLast? last)
      simp [Draft.parts, proper]
  | compound compound rest cut ih =>
    rw [List.forall_mem_append, List.forall_mem_append] at writable
    obtain ⟨-, inRun, inRest⟩ := writable
    have full := Draft.isEmpty_foldl_add inRun cut.run cut.nonempty
      { part.operator := compound.operator }
    calc ({} : Draft).parts (compound.gap ++ (compound.run ++ rest))
      _ = Draft.parts { part.operator := compound.operator } (compound.run ++ rest) :=
        Draft.parts_gap cut.gap .descendant _
      _ = (compound.run.foldl Draft.add { part.operator := compound.operator }).parts rest :=
        Draft.parts_run inRun cut.run _ rest
      _ = compound.part :: ({} : Draft).parts rest := by
        rw [Draft.parts_after full cut.rest, Draft.part_foldl_add_run]
      _ = compoundParts (compound.gap ++ (compound.run ++ rest)) := by
        rw [ih inRest, cut.compoundParts_append]

end

end TreeSelectors
