import Mathlib.Data.List.TakeWhile
import TreeSelectors.Document.Edit
import TreeSelectors.Matching.Condition
import TreeSelectors.Proofs.Document.Kinship
import TreeSelectors.Proofs.Text

/-!
  Position expressions: which texts are expressions and what they stand for (`parse?_denotes`), and
  which positions an expression accepts (`accepts_multiples`). An expression is cut at its first
  `n`, but nothing that may stand before an `n` has one, so that there is only one way to cut it.
-/

namespace TreeSelectors.Nth

/-! ## Texts -/

/-- What may stand before the `n`, and the step that it stands for. -/
inductive Coefficient : List Char → Int → Prop
  | absent : Coefficient [] 1
  | plus : Coefficient ['+'] 1
  | minus : Coefficient ['-'] (-1)
  | numeral {text : List Char} {step : Int} : Text.Numeral text step → Coefficient text step

/-- What may stand after the `n`, and the offset that it stands for. The sign cannot be left out. -/
inductive Addend : List Char → Int → Prop
  | absent : Addend [] 0
  | plus {digits : List Char} :
      Text.IsDigits digits → Addend ('+' :: digits) (Text.decimal digits)
  | minus {digits : List Char} :
      Text.IsDigits digits → Addend ('-' :: digits) (-Text.decimal digits)

/-- Expressions without white space and in lower case, with step and offset. -/
inductive Denotes : List Char → Int → Int → Prop
  | odd : Denotes "odd".toList 2 1
  | even : Denotes "even".toList 2 0
  | position {text : List Char} {offset : Int} : Text.Numeral text offset → Denotes text 0 offset
  | linear {before after : List Char} {step offset : Int} :
      Coefficient before step → Addend after offset →
        Denotes (before ++ 'n' :: after) step offset

/-- The characters of a text that are not white space, in lower case. -/
def compact (arg : String) : List Char :=
  (arg.toList.filter (!Text.isWhite ·)).map Char.toLower

variable {text : List Char} {step offset : Int64}

theorem Coefficient.mem {c : Char} {step : Int} (coefficient : Coefficient text step)
    (member : c ∈ text) : c = '+' ∨ c = '-' ∨ c.isDigit = true := by
  cases coefficient with
  | absent => simp at member
  | plus => exact .inl (List.mem_singleton.mp member)
  | minus => exact .inr (.inl (List.mem_singleton.mp member))
  | numeral number => exact number.mem member

theorem not_numeral_sign {c : Char} {step : Int} (sign : c = '+' ∨ c = '-') :
    ¬ Text.Numeral [c] step := by
  intro number
  cases number with
  | plain found => exact sign.elim found.head.1 found.head.2
  | plus found => exact found.nonempty rfl
  | minus found => exact found.nonempty rfl

theorem readStep?_eq_some_iff : readStep? text = some step ↔ Coefficient text step.toInt := by
  constructor
  · intro read
    unfold readStep? at read
    split at read
    · obtain rfl := Option.some.inj read
      exact .absent
    · obtain rfl := Option.some.inj read
      exact .plus
    · obtain rfl := Option.some.inj read
      exact .minus
    · exact .numeral (Text.readInt64?_eq_some_iff.mp read)
  · intro coefficient
    generalize value : step.toInt = i at coefficient
    cases coefficient with
    | absent => exact congrArg some (Int64.toInt_inj.mp value.symm)
    | plus => exact congrArg some (Int64.toInt_inj.mp value.symm)
    | minus => exact congrArg some (Int64.toInt_inj.mp value.symm)
    | numeral number =>
      rw [readStep?.eq_4 text number.nonempty]
      · exact Text.readInt64?_eq_some_iff.mpr (value ▸ number)
      · rintro rfl
        exact not_numeral_sign (.inl rfl) number
      · rintro rfl
        exact not_numeral_sign (.inr rfl) number

theorem addend_cons_iff {c : Char} {value : Int} :
    Addend (c :: text) value ↔ (c = '+' ∨ c = '-') ∧ Text.Numeral (c :: text) value := by
  constructor
  · intro addend
    cases addend with
    | plus found => exact ⟨.inl rfl, .plus found⟩
    | minus found => exact ⟨.inr rfl, .minus found⟩
  · rintro ⟨sign, number⟩
    cases number with
    | plain found => exact absurd sign (not_or.mpr found.head)
    | plus found => exact .plus found
    | minus found => exact .minus found

theorem readOffset?_eq_some_iff : readOffset? text = some offset ↔ Addend text offset.toInt := by
  cases text with
  | nil =>
    refine ⟨fun read => ?_, fun addend => ?_⟩
    · obtain rfl := Option.some.inj read
      exact .absent
    · generalize value : offset.toInt = i at addend
      cases addend
      exact congrArg some (Int64.toInt_inj.mp value.symm)
  | cons c text =>
    rw [addend_cons_iff, ← Text.readInt64?_eq_some_iff]
    unfold readOffset?
    split <;> simp_all

theorem not_mem_before {before : List Char} {step : Int} (coefficient : Coefficient before step) :
    'n' ∉ before := by
  intro member
  exact absurd (coefficient.mem member) (by decide)

/-- An expression is cut at its first `n`. -/
theorem takeWhile_before {before : List Char} (apart : 'n' ∉ before) (after : List Char) :
    (before ++ 'n' :: after).takeWhile (· ≠ 'n') = before ∧
      (before ++ 'n' :: after).dropWhile (· ≠ 'n') = 'n' :: after := by
  have others : ∀ c ∈ before, decide (c ≠ 'n') = true := by
    intro c member
    exact decide_eq_true fun same => apart (same ▸ member)
  rw [List.takeWhile_append_of_pos others, List.dropWhile_append_of_pos others]
  simp

theorem ofCompact?_linear {before after : List Char} {nth : Nth} (apart : 'n' ∉ before)
    (other : before ++ 'n' :: after ≠ "even".toList) :
    ofCompact? (before ++ 'n' :: after) = some nth ↔
      Coefficient before nth.step.toInt ∧ Addend after nth.offset.toInt := by
  obtain ⟨front, back⟩ := takeWhile_before apart after
  have odd : before ++ 'n' :: after ≠ "odd".toList := by
    intro same
    have member : 'n' ∈ "odd".toList := same ▸ by simp
    exact absurd member (by decide)
  rw [ofCompact?, if_neg odd, if_neg other, if_pos (by simp), front, back, List.tail_cons,
    ← readStep?_eq_some_iff, ← readOffset?_eq_some_iff]
  obtain ⟨step, offset⟩ := nth
  simp [Option.bind_eq_some_iff]

theorem ofCompact?_eq_some_iff {nth : Nth} :
    ofCompact? text = some nth ↔ Denotes text nth.step.toInt nth.offset.toInt := by
  constructor
  · intro read
    by_cases odd : text = "odd".toList
    · subst odd
      obtain rfl := Option.some.inj read
      exact .odd
    by_cases even : text = "even".toList
    · subst even
      obtain rfl := Option.some.inj read
      exact .even
    by_cases member : 'n' ∈ text
    · obtain ⟨before, after, rfl, apart⟩ := List.eq_append_cons_of_mem member
      obtain ⟨coefficient, addend⟩ := (ofCompact?_linear apart even).mp read
      exact .linear coefficient addend
    · rw [ofCompact?, if_neg odd, if_neg even, if_neg member] at read
      obtain ⟨offset, number, rfl⟩ := Option.map_eq_some_iff.mp read
      exact .position (Text.readInt64?_eq_some_iff.mp number)
  · intro denotes
    obtain ⟨step, offset⟩ := nth
    generalize stepValue : step.toInt = a at denotes
    generalize offsetValue : offset.toInt = b at denotes
    cases denotes with
    | odd =>
      obtain rfl : step = 2 := Int64.toInt_inj.mp stepValue
      obtain rfl : offset = 1 := Int64.toInt_inj.mp offsetValue
      rfl
    | even =>
      obtain rfl : step = 2 := Int64.toInt_inj.mp stepValue
      obtain rfl : offset = 0 := Int64.toInt_inj.mp offsetValue
      rfl
    | position number =>
      obtain rfl : step = 0 := Int64.toInt_inj.mp stepValue
      have odd : text ≠ "odd".toList := by
        rintro rfl
        exact absurd (number.mem (c := 'd') (by decide)) (by decide)
      have letter : 'n' ∉ text := fun member => absurd (number.mem member) (by decide)
      have even : text ≠ "even".toList := by
        rintro rfl
        exact letter (by decide)
      subst offsetValue
      rw [ofCompact?, if_neg odd, if_neg even, if_neg letter,
        Text.readInt64?_eq_some_iff.mpr number]
      rfl
    | @linear before after _ _ coefficient addend =>
      have apart := not_mem_before coefficient
      have even : before ++ 'n' :: after ≠ "even".toList := by
        intro same
        have front : before = "eve".toList := by
          rw [← (takeWhile_before apart after).1, same]
          rfl
        exact absurd (coefficient.mem (c := 'e') (by rw [front]; decide)) (by decide)
      subst stepValue offsetValue
      exact (ofCompact?_linear apart even).mpr ⟨coefficient, addend⟩

/-- What is read is what a text stands for, and a text is read just when it stands for numbers of 64
    bits. -/
theorem parse?_denotes (arg : String) :
    (∀ nth : Nth, parse? arg = some nth ↔
      Denotes (compact arg) nth.step.toInt nth.offset.toInt) ∧
    ((parse? arg).isSome = true ↔ ∃ step offset : Int, Denotes (compact arg) step offset ∧
      Text.fitsInt64 step = true ∧ Text.fitsInt64 offset = true) := by
  have exact (nth : Nth) : parse? arg = some nth ↔ _ := ofCompact?_eq_some_iff
  refine ⟨exact, fun read => ?_, fun ⟨step, offset, denotes, stepFits, offsetFits⟩ => ?_⟩
  · obtain ⟨nth, read⟩ := Option.isSome_iff_exists.mp read
    exact ⟨_, _, (exact nth).mp read, Text.fitsInt64_toInt _, Text.fitsInt64_toInt _⟩
  · refine Option.isSome_iff_exists.mpr ⟨⟨Int64.ofInt step, Int64.ofInt offset⟩, ?_⟩
    rw [exact, Text.toInt_ofInt stepFits, Text.toInt_ofInt offsetFits]
    exact denotes

/-! ## Positions -/

section

variable {nth : Nth} {position : Int64}

/-- Division with nothing left over and no sign is what makes a multiple. -/
theorem exists_multiple_iff {a distance : Int} (nonzero : a ≠ 0) :
    (distance.tmod a = 0 ∧ 0 ≤ distance.tdiv a) ↔ ∃ k : Nat, distance = a * k := by
  constructor
  · rintro ⟨whole, sign⟩
    refine ⟨(distance.tdiv a).toNat, ?_⟩
    rw [Int.toNat_of_nonneg sign, Int.mul_tdiv_cancel' (Int.dvd_of_tmod_eq_zero whole)]
  · rintro ⟨k, rfl⟩
    rw [Int.mul_tmod_right, Int.mul_tdiv_cancel_left _ nonzero]
    exact ⟨rfl, Int.natCast_nonneg k⟩

/-- The one quotient out of range would be that of the least number and `-1`. -/
theorem fitsInt64_tdiv {a distance : Int} (least : Text.minInt64 < distance)
    (greatest : distance ≤ Text.maxInt64) : Text.fitsInt64 (distance.tdiv a) = true := by
  have smaller := Int.natAbs_tdiv_le_natAbs distance a
  rw [Text.minInt64] at least
  rw [Text.maxInt64] at greatest
  rw [Text.fitsInt64_iff]
  omega

theorem accepts_iff (positive : 1 ≤ position.toInt) :
    nth.accepts position = true ↔ position.toInt - nth.offset.toInt ≤ Text.maxInt64 ∧
      ∃ k : Nat, position.toInt = nth.step.toInt * k + nth.offset.toInt := by
  have least : Text.minInt64 < position.toInt - nth.offset.toInt := by
    have := nth.offset.toInt_lt
    rw [Text.minInt64]
    omega
  have moved (k : Nat) : position.toInt = nth.step.toInt * k + nth.offset.toInt ↔
      position.toInt - nth.offset.toInt = nth.step.toInt * k := by omega
  simp only [moved]
  rw [accepts]
  generalize position.toInt - nth.offset.toInt = distance at least
  have fits : Text.fitsInt64 distance = true ↔ distance ≤ Text.maxInt64 := by
    simp [Text.fitsInt64, Int.le_of_lt least]
  rw [Bool.and_eq_true, fits]
  refine and_congr_right fun greatest => ?_
  split
  · next zero => simp [zero]
  · next nonzero =>
    have nonzero : nth.step.toInt ≠ 0 := fun zero => nonzero (Int64.toInt_inj.mp zero)
    rw [Bool.and_eq_true, Bool.and_eq_true, beq_iff_eq, decide_eq_true_eq,
      exists_multiple_iff nonzero]
    exact and_iff_left (fitsInt64_tdiv least greatest)

theorem accepts_nthChild {d : Document} {p n : NodeId} {i : Nat}
    (found : (d.elementChildren p)[i]? = some n) (bound : (i : Int) < Text.maxInt64) :
    (Condition.nthChild (some nth)).accepts d n = true ↔
      (i + 1 : Int) - nth.offset.toInt ≤ Text.maxInt64 ∧
        ∃ k : Nat, (i + 1 : Int) = nth.step.toInt * k + nth.offset.toInt := by
  have here : (d.position n).toInt = i + 1 := by
    rw [Document.position_of_getElem? found bound, Text.toInt_ofInt]
    rw [Text.fitsInt64_iff]
    rw [Text.maxInt64] at bound
    omega
  rw [Condition.accepts, Option.any_some, accepts_iff (by omega), here]

end

/-- An expression accepts the positions that it stands for, and the elements at those positions,
    unless the position is more than the largest 64-bit integer away from the offset. -/
theorem accepts_multiples (nth : Nth) :
    (∀ position : Int64, 1 ≤ position.toInt →
      (nth.accepts position = true ↔ position.toInt - nth.offset.toInt ≤ Text.maxInt64 ∧
        ∃ k : Nat, position.toInt = nth.step.toInt * k + nth.offset.toInt)) ∧
    ∀ (d : Document) (p n : NodeId) (i : Nat), (d.elementChildren p)[i]? = some n →
      (i : Int) < Text.maxInt64 →
      ((Condition.nthChild (some nth)).accepts d n = true ↔
        (i + 1 : Int) - nth.offset.toInt ≤ Text.maxInt64 ∧
          ∃ k : Nat, (i + 1 : Int) = nth.step.toInt * k + nth.offset.toInt) :=
  ⟨fun _ positive => accepts_iff positive, fun _ _ _ _ found bound => accepts_nthChild found bound⟩

/-- A text between the elements is not counted. -/
theorem accepts_multiples_third :
    let d := Document.ofEdits [.element 0 "a" [], .element 0 "b" [], .text 0 "x", .element 0 "c" []]
    (d.elementChildren 0)[2]? = some 4 ∧ (⟨-2, 5⟩ : Nth).accepts 3 = true ∧
      (Condition.nthChild (some ⟨-2, 5⟩)).accepts d 4 = true := by
  intro d
  have found : (d.elementChildren 0)[2]? = some 4 := by decide +kernel
  obtain ⟨alone, among⟩ := accepts_multiples ⟨-2, 5⟩
  exact ⟨found, (alone 3 (by decide)).mpr ⟨by decide, 1, by decide⟩,
    (among d 0 4 2 found (by decide)).mpr ⟨by decide, 1, by decide⟩⟩

/-- The first position is the multiple of 1 by `2 ^ 63 + 1` away from the least offset, but that is
    too far. -/
theorem refuses_far_offset :
    (1 : Int64).toInt = (1 : Int64).toInt * (2 ^ 63 + 1 : Nat) + Int64.minValue.toInt ∧
      (⟨1, Int64.minValue⟩ : Nth).accepts 1 = false := by
  decide +kernel

end TreeSelectors.Nth
