import Mathlib.Data.List.Induction
import Mathlib.Data.Nat.Digits.Defs
import TreeSelectors.Text

/-!
  The number that a decimal text denotes. Digits count by their place from the right, while the
  reader multiplies what it has by ten at each digit (`foldl_digits`). A text of a 64-bit integer is
  one that denotes a number in range (`readInt64?_eq_some_iff`).

  What is written with entities can be read back. Entities begin with a character that is written as
  an entity itself, and some begin alike, but none begins with another. So a text and the place
  where it ends can be told from what is written, if it is followed by something that no text goes
  on with: `<`, or the quote after an attribute value (`encodeEntities_inj`).
-/

namespace TreeSelectors.Text

/-! ## Integers -/

section

variable {text digits : List Char} {value : Int}

/-- At least one digit and nothing else. -/
structure IsDigits (digits : List Char) : Prop where
  nonempty : digits ≠ []
  all : ∀ c ∈ digits, c.isDigit = true

/-- The last digit counts ones, the one before it tens, and so on. -/
def decimal (digits : List Char) : Nat := Nat.ofDigits 10 (digits.reverse.map digitValue)

/-- Digits with or without a sign, and the number they stand for. -/
inductive Numeral : List Char → Int → Prop
  | plain {digits : List Char} : IsDigits digits → Numeral digits (decimal digits)
  | plus {digits : List Char} : IsDigits digits → Numeral ('+' :: digits) (decimal digits)
  | minus {digits : List Char} : IsDigits digits → Numeral ('-' :: digits) (-decimal digits)

theorem foldl_digits (digits : List Char) :
    digits.foldl (fun value c => 10 * value + digitValue c) 0 = decimal digits := by
  induction digits using List.reverseRecOn with
  | nil => rfl
  | append_singleton digits c ih =>
    rw [List.foldl_append, List.foldl_cons, List.foldl_nil, ih, decimal, decimal,
      List.reverse_concat, List.map_cons, Nat.ofDigits_cons, Nat.add_comm]

theorem readNat?_eq_some_iff {value : Nat} :
    readNat? digits = some value ↔ IsDigits digits ∧ decimal digits = value := by
  rw [readNat?, foldl_digits]
  split
  · next found => simp [(⟨found.1, List.all_eq_true.mp found.2⟩ : IsDigits digits)]
  · next other =>
    simp only [reduceCtorEq, false_iff, not_and]
    exact fun found => absurd ⟨found.nonempty, List.all_eq_true.mpr found.all⟩ other

/-! ## Signs -/

theorem IsDigits.head {c : Char} (found : IsDigits (c :: digits)) : c ≠ '+' ∧ c ≠ '-' := by
  have first := found.all c (.head _)
  constructor <;> rintro rfl <;> exact absurd first (by decide)

theorem readInt?_of_digits (found : IsDigits digits) :
    readInt? digits = (readNat? digits).map Int.ofNat := by
  unfold readInt?
  split
  · exact absurd rfl found.head.1
  · exact absurd rfl found.head.2
  · rfl

theorem readInt?_eq_some_iff : readInt? text = some value ↔ Numeral text value := by
  constructor
  · intro read
    unfold readInt? at read
    split at read <;> obtain ⟨number, digits, rfl⟩ := Option.map_eq_some_iff.mp read <;>
      obtain ⟨found, rfl⟩ := readNat?_eq_some_iff.mp digits
    · exact .plus found
    · exact .minus found
    · exact .plain found
  · rintro (found | found | found)
    · rw [readInt?_of_digits found, readNat?_eq_some_iff.mpr ⟨found, rfl⟩]
      rfl
    · rw [readInt?, readNat?_eq_some_iff.mpr ⟨found, rfl⟩]
      rfl
    · rw [readInt?, readNat?_eq_some_iff.mpr ⟨found, rfl⟩]
      rfl

/-! ## The range -/

theorem fitsInt64_iff : fitsInt64 value = true ↔ -2 ^ 63 ≤ value ∧ value < 2 ^ 63 := by
  rw [fitsInt64, Bool.and_eq_true, decide_eq_true_eq, decide_eq_true_eq, minInt64, maxInt64]
  omega

theorem fitsInt64_toInt (i : Int64) : fitsInt64 i.toInt = true :=
  fitsInt64_iff.mpr ⟨i.le_toInt, i.toInt_lt⟩

theorem toInt_ofInt (fits : fitsInt64 value = true) : (Int64.ofInt value).toInt = value := by
  obtain ⟨least, greatest⟩ := fitsInt64_iff.mp fits
  exact Int64.toInt_ofInt_of_le least greatest

theorem readInt64?_eq_some_iff {i : Int64} : readInt64? text = some i ↔ Numeral text i.toInt := by
  rw [← readInt?_eq_some_iff, readInt64?, Option.map_eq_some_iff]
  constructor
  · rintro ⟨value, read, rfl⟩
    obtain ⟨read, fits⟩ := Option.filter_eq_some_iff.mp read
    rw [toInt_ofInt fits, read]
  · intro read
    refine ⟨i.toInt, ?_, Int64.ofInt_toInt i⟩
    rw [read, Option.filter_some_pos (fitsInt64_toInt i)]

/-! ## Characters -/

theorem Numeral.nonempty (number : Numeral text value) : text ≠ [] := by
  cases number with
  | plain found => exact found.nonempty
  | plus | minus => exact List.cons_ne_nil _ _

theorem Numeral.mem {c : Char} (number : Numeral text value) (member : c ∈ text) :
    c = '+' ∨ c = '-' ∨ c.isDigit = true := by
  cases number with
  | plain found => exact .inr (.inr (found.all c member))
  | plus found => exact (List.mem_cons.mp member).imp_right fun later => .inr (found.all c later)
  | minus found => exact .inr ((List.mem_cons.mp member).imp_right (found.all c))

end

/-! ## Entities -/

section

variable {inAttribute : Bool} {rest others : List Char}

/-- No text goes on with `rest`. -/
def EndsText (inAttribute : Bool) (rest : List Char) : Prop :=
  ∀ c, (entity inAttribute c).head? ≠ rest.head?

/-- A character is written as an entity or as it is. -/
theorem entity_cases (inAttribute : Bool) (c : Char) :
    (c ∈ ['&', '<', '>', '"'] ∧ (entity inAttribute c).head? = some '&') ∨
      (entity inAttribute c = [c] ∧ c ≠ '&' ∧ c ≠ '<' ∧ (inAttribute = true → c ≠ '"')) := by
  unfold entity
  split
  · exact .inl ⟨by decide, rfl⟩
  · exact .inl ⟨by decide, rfl⟩
  · exact .inl ⟨by decide, rfl⟩
  · cases inAttribute <;> simp
  · next ampersand less _ quote => exact .inr ⟨rfl, ampersand, less, fun _ => quote⟩

theorem endsText_nil (inAttribute : Bool) : EndsText inAttribute [] := by
  intro c
  rcases entity_cases inAttribute c with ⟨-, first⟩ | ⟨plain, -⟩
  · simp [first]
  · simp [plain]

theorem endsText_less (inAttribute : Bool) (rest : List Char) :
    EndsText inAttribute ('<' :: rest) := by
  intro c
  rcases entity_cases inAttribute c with ⟨-, first⟩ | ⟨plain, -, other, -⟩
  · simp [first]
  · simp [plain, other]

theorem endsText_quote (rest : List Char) : EndsText true ('"' :: rest) := by
  intro c
  rcases entity_cases true c with ⟨-, first⟩ | ⟨plain, -, -, other⟩
  · simp [first]
  · simp [plain, other rfl]

/-- No entity begins with another. -/
theorem entity_inj {c k : Char}
    (same : entity inAttribute c ++ rest = entity inAttribute k ++ others) :
    c = k ∧ rest = others := by
  have heads := congrArg List.head? same
  rw [List.head?_append, List.head?_append] at heads
  rcases entity_cases inAttribute c with ⟨left, first⟩ | ⟨left, first, -⟩ <;>
    rcases entity_cases inAttribute k with ⟨right, second⟩ | ⟨right, second, -⟩
  · simp only [List.mem_cons, List.not_mem_nil, or_false] at left right
    rcases left with rfl | rfl | rfl | rfl <;> rcases right with rfl | rfl | rfl | rfl <;>
      cases inAttribute <;> simp_all [entity]
  · exact absurd (by simpa [first, right] using heads) second.symm
  · exact absurd (by simpa [left, second] using heads) first
  · simpa [left, right] using same

theorem EndsText.ne_cons (ends : EndsText inAttribute rest) {c : Char} :
    rest ≠ entity inAttribute c ++ others := by
  intro same
  have heads := congrArg List.head? same
  rw [List.head?_append] at heads
  rcases entity_cases inAttribute c with ⟨-, first⟩ | ⟨first, -⟩
  · exact ends c (by simp [first, heads])
  · exact ends c (by simp [first, heads])

/-- What is written for a text tells the text and where it ends. -/
theorem encodeEntities_inj {a b : String} (ends : EndsText inAttribute rest)
    (stops : EndsText inAttribute others)
    (same : encodeEntities inAttribute a ++ rest = encodeEntities inAttribute b ++ others) :
    a = b ∧ rest = others := by
  unfold encodeEntities at same
  rw [← String.toList_inj]
  generalize a.toList = left at same
  generalize b.toList = right at same
  induction left generalizing right with
  | nil =>
    cases right with
    | nil => exact ⟨rfl, same⟩
    | cons k right => exact absurd (by simpa using same) ends.ne_cons
  | cons c left ih =>
    cases right with
    | nil => exact absurd (by simpa using same.symm) stops.ne_cons
    | cons k right =>
      rw [List.flatMap_cons, List.flatMap_cons, List.append_assoc, List.append_assoc] at same
      obtain ⟨rfl, later⟩ := entity_inj same
      obtain ⟨rfl, after⟩ := ih right later
      exact ⟨rfl, after⟩

end

end TreeSelectors.Text
