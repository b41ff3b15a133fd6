import TreeSelectors.Matching.Dialect

/-!
  Negations in negations. The conditions in an argument of `:not` are found by a call inside the
  call for its part; `conditionsWithin` does no more than so many calls inside each other, and has
  no result where these do not suffice. A part of a selector needs at most one call for each opening
  parenthesis and one for itself, and each call puts at most one negation around the conditions of
  the calls in it. Main statement: `conditionsWithin_of_parens_lt`.
-/

namespace TreeSelectors

variable {dialect : Dialect} {known : Known} {part : Part} {selector : String}

/-! ## Depth -/

mutual

/-- The number of negations inside each other. -/
def Condition.depth : Condition → Nat
  | .not conditions => Conditions.depth conditions + 1
  | _ => 0

def Conditions.depth : List Condition → Nat
  | [] => 0
  | condition :: conditions => max condition.depth (Conditions.depth conditions)

end

theorem Conditions.depth_le_iff {conditions : Conditions} {bound : Nat} :
    Conditions.depth conditions ≤ bound ↔ ∀ condition ∈ conditions, condition.depth ≤ bound := by
  induction conditions with
  | nil => simp [Conditions.depth]
  | cons condition conditions ih =>
    rw [Conditions.depth, Nat.max_le, ih, List.forall_mem_cons]

namespace Dialect

theorem depth_condition_le {pseudoClass : PseudoClass} {arg : Option String}
    {negand : (text : String) → arg = some text → Conditions} {bound : Nat}
    (inside : ∀ text present, Conditions.depth (negand text present) ≤ bound) :
    (condition pseudoClass arg negand).depth ≤ bound + 1 := by
  cases pseudoClass with
  | not =>
    cases arg with
    | none => exact Nat.succ_le_succ (Nat.zero_le bound)
    | some text => exact Nat.succ_le_succ (inside text rfl)
  | _ => exact Nat.zero_le _

/-- The conditions of a part add one negation to what is in its arguments. -/
theorem depth_conditionsWith_le (only : dialect.vocabulary.IsStandard)
    {negand : (text : String) → text ∈ part.arguments → Conditions} {bound : Nat}
    (inside : ∀ text member, Conditions.depth (negand text member) ≤ bound) :
    Conditions.depth (dialect.conditionsWith known part negand) ≤ bound + 1 := by
  refine Conditions.depth_le_iff.mpr fun asked member => ?_
  simp only [conditionsWith, List.mem_append] at member
  rcases member with ((((element | tag) | className) | attr) | pseudo) | id
  case inl.inr =>
    obtain ⟨⟨pseudo, among⟩, -, found⟩ := List.mem_filterMap.mp pseudo
    obtain ⟨factory, defined, rfl⟩ := Option.map_eq_some_iff.mp found
    obtain ⟨pseudoClass, rfl⟩ := only _ _ defined
    exact depth_condition_le fun text present => inside text _
  all_goals grind [Condition.depth]

/-! ## Calls -/

/-- Whether the argument of a pseudo-class is a selector. -/
def asksNegand (dialect : Dialect) (pseudo : Pseudo) : Bool :=
  match dialect.vocabulary.find? pseudo.name with
  | some (.standard .not) => true
  | _ => false

/-- The arguments that are selectors. -/
def negated (dialect : Dialect) (part : Part) : List String :=
  (part.pseudos.filter dialect.asksNegand).filterMap Pseudo.arg

/-- The conditions of a part, found with no more than so many calls inside each other. -/
def conditionsWithin (dialect : Dialect) : Nat → Known → Part → Option Conditions
  | 0, _, _ => none
  | calls + 1, known, part =>
    let inside (arg : String) : Option Conditions :=
      (parse arg).head?.elim (some []) (dialect.conditionsWithin calls { element := true })
    if ∀ arg ∈ dialect.negated part, (inside arg).isSome then
      some (dialect.conditionsWith known part fun arg _ => (inside arg).getD [])
    else none

/-- The conditions of the first part of a text. -/
def negandWithin (dialect : Dialect) (calls : Nat) (text : String) : Option Conditions :=
  (parse text).head?.elim (some []) (dialect.conditionsWithin calls { element := true })

variable {calls : Nat}

theorem conditionsWithin_succ :
    dialect.conditionsWithin (calls + 1) known part =
      if ∀ arg ∈ dialect.negated part, (dialect.negandWithin calls arg).isSome then
        some (dialect.conditionsWith known part fun arg _ =>
          (dialect.negandWithin calls arg).getD [])
      else none :=
  rfl

theorem mem_arguments_of_negated {arg : String} (member : arg ∈ dialect.negated part) :
    arg ∈ part.arguments := by
  obtain ⟨pseudo, among, present⟩ := List.mem_filterMap.mp member
  exact List.mem_filterMap.mpr ⟨pseudo, (List.mem_filter.mp among).1, present⟩

/-- The call for an argument has fewer parentheses to go through than the call it is made in. -/
theorem conditionsWithin_eq_some (member : part ∈ parse selector)
    (enough : parens selector < calls) :
    dialect.conditionsWithin calls known part = some (dialect.conditions known part) := by
  induction calls generalizing selector known part with
  | zero => exact absurd enough (Nat.not_lt_zero _)
  | succ calls ih =>
    have answered (arg : String) (argument : arg ∈ part.arguments) :
        dialect.negandWithin calls arg = some (dialect.negand arg) := by
      have fewer : parens arg < calls :=
        Nat.lt_of_lt_of_le (parens_argument_lt member argument) (Nat.le_of_lt_succ enough)
      rw [negandWithin, negand_eq]
      cases parsed : parse arg with
      | nil => rfl
      | cons first further => exact ih (parsed ▸ List.mem_cons_self) fewer
    rw [conditionsWithin_succ, if_pos fun arg asked =>
      Option.isSome_of_eq_some (answered arg (mem_arguments_of_negated asked)), conditions]
    congr 2
    funext arg argument
    rw [answered arg argument, Option.getD_some]

/-- A call adds one negation to those of the calls inside it. -/
theorem depth_le_of_conditionsWithin (only : dialect.vocabulary.IsStandard)
    {conditions : Conditions}
    (found : dialect.conditionsWithin calls known part = some conditions) :
    Conditions.depth conditions ≤ calls := by
  induction calls generalizing known part conditions with
  | zero => cases found
  | succ calls ih =>
    rw [conditionsWithin_succ] at found
    obtain ⟨-, found⟩ := Option.ite_none_right_eq_some.mp found
    obtain rfl := Option.some.inj found
    refine depth_conditionsWith_le only fun arg _ => ?_
    cases inner : dialect.negandWithin calls arg with
    | none => exact Nat.zero_le _
    | some conditions =>
      rw [negandWithin] at inner
      cases first : (parse arg).head? with
      | none =>
        obtain rfl : [] = conditions := by simpa [first] using inner
        exact Nat.zero_le _
      | some part => exact ih (by simpa [first] using inner)

end Dialect

/-- Whatever the dialect, the conditions of each part of a selector are found within one call more
    than the selector has opening parentheses; with standard pseudo-classes, the negations in them
    are no deeper than that. The length of an argument would give no such bound, for it may be
    longer than the selector. -/
theorem conditionsWithin_of_mem_parse :
    (∀ (dialect : Dialect) (selector : String), ∀ part ∈ parse selector,
      (∀ arg ∈ part.arguments, parens arg < parens selector) ∧
        ∀ known,
          (∀ calls, parens selector < calls →
            dialect.conditionsWithin calls known part = some (dialect.conditions known part)) ∧
          (dialect.vocabulary.IsStandard →
            Conditions.depth (dialect.conditions known part) ≤ parens selector + 1)) ∧
      ∃ selector, ∃ part ∈ parse selector, ∃ arg ∈ part.arguments,
        selector.length < arg.length := by
  refine ⟨fun dialect selector part member => ⟨fun arg => parens_argument_lt member, fun known =>
    ⟨fun calls => Dialect.conditionsWithin_eq_some member, fun only => ?_⟩⟩, ?_⟩
  · exact Dialect.depth_le_of_conditionsWithin only
      (Dialect.conditionsWithin_eq_some member (Nat.lt_succ_self _))
  · refine ⟨":not(((((((", { pseudos := [⟨"not", some "(((((())))))"⟩] }, ?_,
      "(((((())))))", ?_, ?_⟩ <;> decide +kernel

/-- A negation in quotes, and in it one without an argument: neither two calls nor a depth of two
    would do. -/
theorem conditionsWithin_of_mem_parse_quoted :
    let selector := ":not(':not(:not'"
    let part : Part := { pseudos := [⟨"not", some "':not(:not'"⟩] }
    parse selector = [part] ∧ parens selector = 2 ∧
      ({} : Dialect).conditionsWithin 2 {} part = none ∧
      ({} : Dialect).conditionsWithin 3 {} part = some (({} : Dialect).conditions {} part) ∧
      Conditions.depth (({} : Dialect).conditions {} part) = 3 := by
  intro selector part
  have read : parse selector = [part] := by decide +kernel
  have two : parens selector = 2 := by decide +kernel
  obtain ⟨-, each⟩ := conditionsWithin_of_mem_parse.1 {} selector part (read ▸ List.mem_cons_self)
  obtain ⟨enough, bounded⟩ := each {}
  have found := enough 3 (by rw [two]; decide)
  have most := bounded Vocabulary.isStandard_standard
  rw [two] at most
  have deep : (({} : Dialect).conditionsWithin 3 {} part).any (3 ≤ Conditions.depth ·) = true := by
    decide +kernel
  rw [found, Option.any_some, decide_eq_true_iff] at deep
  exact ⟨read, two, Option.isNone_iff_eq_none.mp (by decide +kernel), found,
    Nat.le_antisymm most deep⟩

end TreeSelectors
