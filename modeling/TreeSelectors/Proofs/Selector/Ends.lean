import Mathlib.Data.List.TakeWhile
import TreeSelectors.Proofs.Selector.Writing

/-!
  A text read before one end and before another. An end goes on with no name and no test and closes
  nothing (`IsEnd`), so that what is read of the text without a fault before one end is read before
  any other too, and leaves as much of it. No reader stops between a backslash and the character
  after it (`Reaches`). Main statement: `lexemes_swap`.
-/

namespace TreeSelectors

/-! ## Ends -/

/-- No name, attribute test, argument or second colon goes on here, and none that is open is
    closed. -/
structure IsEnd (text : List Char) : Prop where
  first : ∀ c ∈ text.head?, isNameChar c = false ∧ c ≠ '=' ∧ c ≠ '(' ∧ c ≠ ':'
  bracket : ']' ∉ text
  paren : ')' ∉ text

theorem isEnd_nil : IsEnd [] := ⟨by simp, List.not_mem_nil, List.not_mem_nil⟩

/-- Text and end do not meet in blanks. -/
def MeetApart (text one : List Char) : Prop :=
  text.getLast?.any Text.isBlank = true → one.head?.any Text.isBlank = false

/-- From a text a place in it is reached by taking characters from the front, a backslash only with
    the character after it. -/
inductive Reaches : List Char → List Char → Prop
  | refl {text : List Char} : Reaches text text
  | escape {c : Char} {text place : List Char} :
      Reaches text place → Reaches ('\\' :: c :: text) place
  | plain {c : Char} {text place : List Char} :
      c ≠ '\\' → Reaches text place → Reaches (c :: text) place

/-- A text is taken from its front, a backslash with the character after it. -/
@[elab_as_elim]
theorem escape_induction {motive : List Char → Prop} (nil : motive []) (dangling : motive ['\\'])
    (escape : ∀ x text, motive text → motive ('\\' :: x :: text))
    (plain : ∀ x text, x ≠ '\\' → motive text → motive (x :: text)) (text : List Char) :
    motive text := by
  induction text using Text.readEscaped.induct fun _ _ => false with
  | case1 => exact nil
  | case2 => exact dangling
  | case3 x text ih => exact escape x text ih
  | case4 x text _ _ stopped => exact absurd stopped Bool.noConfusion
  | case5 x text alone followed _ ih =>
    refine plain x text ?_ ih
    rintro rfl
    cases text with
    | nil => exact alone rfl rfl
    | cons y text => exact followed y text rfl rfl

namespace Reaches

variable {text middle place : List Char}

theorem trans (first : Reaches text middle) (second : Reaches middle place) :
    Reaches text place := by
  induction first with
  | refl => exact second
  | escape _ ih => exact .escape (ih second)
  | plain other _ ih => exact .plain other (ih second)

theorem suffix (reaches : Reaches text place) : place <:+ text := by
  induction reaches with
  | refl => exact List.suffix_refl _
  | @escape c text place _ ih => exact ih.trans ⟨['\\', c], rfl⟩
  | plain _ _ ih => exact ih.trans (List.suffix_cons _ _)

/-- The place is not escaped, so what escapes its end escapes the end of the text. -/
theorem endsEscaping_eq (reaches : Reaches text place) : endsEscaping text = endsEscaping place := by
  induction reaches with
  | refl => rfl
  | escape _ ih => exact ih
  | plain other _ ih => rw [endsEscaping_cons other, ih]

theorem ne_nil (reaches : Reaches text place) (some : place ≠ []) : text ≠ [] :=
  fun none => some (List.suffix_nil.mp (none ▸ reaches.suffix))

theorem dropLast (reaches : Reaches text place) (some : place ≠ []) :
    Reaches text.dropLast place.dropLast := by
  induction reaches with
  | refl => exact .refl
  | @escape c text place reaches ih =>
    rw [List.dropLast_cons_of_ne_nil (List.cons_ne_nil c text),
      List.dropLast_cons_of_ne_nil (reaches.ne_nil some)]
    exact .escape (ih some)
  | plain other reaches ih =>
    rw [List.dropLast_cons_of_ne_nil (reaches.ne_nil some)]
    exact .plain other (ih some)

end Reaches

theorem ne_backslash_of_isBlank {c : Char} (blank : Text.isBlank c = true) : c ≠ '\\' := by
  rintro rfl
  exact absurd blank (by decide)

theorem reaches_skipBlanks (text : List Char) : Reaches text (skipBlanks text) := by
  induction text with
  | nil => exact .refl
  | cons c text ih =>
    cases blank : Text.isBlank c with
    | true =>
      have skipped : skipBlanks (c :: text) = skipBlanks text := by simp [skipBlanks, blank]
      rw [skipped]
      exact .plain (ne_backslash_of_isBlank blank) ih
    | false =>
      rw [skipBlanks_of_head blank]
      exact .refl

section

variable {α : Type} {text rest one two : List Char} {stop : Char → List Char → Bool}

/-- A place that still has what the end does not have is before the end. -/
theorem exists_rest_of_mem {place : List Char} {c : Char} (suffix : place <:+ text ++ one)
    (member : c ∈ place) (absent : c ∉ one) : ∃ rest, place = rest ++ one ∧ rest ≠ [] := by
  cases List.suffix_or_suffix_of_suffix suffix (List.suffix_append text one) with
  | inl inside => exact absurd (inside.subset member) absent
  | inr before =>
    obtain ⟨rest, same⟩ := before
    refine ⟨rest, same.symm, fun none => absent ?_⟩
    rwa [← same, none] at member

theorem mem_of_mem_append {c : Char} (member : c ∈ text ++ one) (absent : c ∉ one) : c ∈ text :=
  (List.mem_append.mp member).resolve_right absent

/-- Blanks before a solid character do not run into the end. -/
theorem skipBlanks_append {c : Char} (member : c ∈ text) (solid : Text.isBlank c = false)
    (one : List Char) : skipBlanks (text ++ one) = skipBlanks text ++ one := by
  induction text with
  | nil => cases member
  | cons x text ih =>
    cases blank : Text.isBlank x with
    | true =>
      have later : c ∈ text := by
        refine (List.mem_cons.mp member).resolve_left ?_
        rintro rfl
        exact absurd blank (by simp [solid])
      simpa [skipBlanks, blank] using ih later
    | false => simp [skipBlanks, blank]

theorem skipBlanks_append_of_bracket (member : ']' ∈ text) (one : List Char) :
    skipBlanks (text ++ one) = skipBlanks text ++ one :=
  skipBlanks_append member (by decide) one

theorem head?_append_ne {c : Char} (other : text.head? ≠ some c) (apart : one.head? ≠ some c) :
    (text ++ one).head? ≠ some c := by
  cases text with
  | nil => exact apart
  | cons => exact other

/-! ## Names -/

/-- A reader gets as far as an end that stops it. -/
theorem readEscaped_reaches (halts : Text.readEscaped stop one = ⟨[], false, one⟩)
    (complete : endsEscaping text = false) :
    ∃ rest, (Text.readEscaped stop (text ++ one)).rest = rest ++ one := by
  induction text using escape_induction with
  | nil => exact ⟨[], congrArg Text.Escaped.rest halts⟩
  | dangling => exact absurd complete (by decide)
  | escape x text ih => exact ih complete
  | plain x text other ih =>
    rw [endsEscaping_cons other] at complete
    rw [List.cons_append, readEscaped_cons other]
    split
    · exact ⟨x :: text, rfl⟩
    · exact ih complete

/-- A reader that stops before the end stops at the same place before the other end. -/
theorem readEscaped_swap (complete : endsEscaping text = false)
    (stopped : (Text.readEscaped stop (text ++ one)).rest = rest ++ one)
    (ends : rest = [] → Text.readEscaped stop one = ⟨[], false, one⟩ ∧
      Text.readEscaped stop two = ⟨[], false, two⟩)
    (alike : ∀ c rest, stop c (rest ++ one) = stop c (rest ++ two)) :
    Reaches text rest ∧ ∃ value,
      Text.readEscaped stop (text ++ one) = ⟨value, false, rest ++ one⟩ ∧
      Text.readEscaped stop (text ++ two) = ⟨value, false, rest ++ two⟩ := by
  induction text using escape_induction with
  | nil =>
    have inside := (Text.readEscaped_rest_suffix stop one).length_le
    have whole : (Text.readEscaped stop one).rest.length = (rest ++ one).length :=
      congrArg List.length stopped
    have none : rest = [] := by
      rw [List.length_append] at whole
      exact List.eq_nil_of_length_eq_zero (by omega)
    subst none
    exact ⟨.refl, [], ends rfl⟩
  | dangling => exact absurd complete (by decide)
  | escape x text ih =>
    obtain ⟨reaches, value, before, after⟩ := ih complete stopped
    refine ⟨.escape reaches, x :: value, ?_, ?_⟩
    · simp [Text.readEscaped, before]
    · simp [Text.readEscaped, after]
  | plain x text other ih =>
    have later : endsEscaping text = false := by rwa [endsEscaping_cons other] at complete
    rw [List.cons_append, readEscaped_cons other] at stopped
    rw [List.cons_append, List.cons_append, readEscaped_cons other, readEscaped_cons other, ← alike]
    cases goes : stop x (text ++ one) with
    | true =>
      rw [goes] at stopped
      obtain rfl : x :: text = rest := List.append_cancel_right stopped
      exact ⟨.refl, [], rfl, rfl⟩
    | false =>
      rw [goes] at stopped
      obtain ⟨reaches, value, before, after⟩ := ih later stopped
      refine ⟨.plain other reaches, x :: value, ?_, ?_⟩
      · simp [before]
      · simp [after]

/-- Before either end the same is read, without a fault, and the same rest of the text is left. -/
def ReadsAlike (text one two : List Char) (first second : Reading α) : Prop :=
  ∃ value rest, Reaches text rest ∧ first = ⟨value, [], rest ++ one⟩ ∧
    second = ⟨value, [], rest ++ two⟩

theorem IsEnd.halts (isEnd : IsEnd one) :
    Text.readEscaped (fun c _ => !isNameChar c) one = ⟨[], false, one⟩ := by
  cases one with
  | nil => rfl
  | cons c one =>
    have stops := (isEnd.first c rfl).1
    have plain : c ≠ '\\' := by
      rintro rfl
      exact absurd stops (by decide)
    rw [readEscaped_cons plain, stops]
    rfl

theorem readName_swap (first : IsEnd one) (second : IsEnd two)
    (complete : endsEscaping text = false) (start start' : List Char)
    (clean : (readName start (text ++ one)).faults = []) :
    ReadsAlike text one two (readName start (text ++ one)) (readName start' (text ++ two)) := by
  obtain ⟨rest, stopped⟩ := readEscaped_reaches first.halts complete
  obtain ⟨reaches, value, before, after⟩ := readEscaped_swap complete stopped
    (fun _ => ⟨first.halts, second.halts⟩) fun _ _ => rfl
  have named : value.isEmpty = false := by simpa [readName, before] using clean
  exact ⟨String.ofList value, rest, reaches, by simp [readName, before, named],
    by simp [readName, after, named]⟩

/-! ## Attribute tests -/

/-- A reader that leaves a bracket has not come to the end. -/
theorem readEscaped_swap_of_mem (first : IsEnd one) (complete : endsEscaping text = false)
    (more : ']' ∈ (Text.readEscaped stop (text ++ one)).rest) (two : List Char)
    (alike : ∀ c rest, stop c (rest ++ one) = stop c (rest ++ two)) :
    ∃ value rest, rest ≠ [] ∧ Reaches text rest ∧
      Text.readEscaped stop (text ++ one) = ⟨value, false, rest ++ one⟩ ∧
      Text.readEscaped stop (text ++ two) = ⟨value, false, rest ++ two⟩ := by
  obtain ⟨rest, stopped, some⟩ := exists_rest_of_mem (Text.readEscaped_rest_suffix _ _) more
    first.bracket
  obtain ⟨reaches, value, swapped⟩ := readEscaped_swap complete stopped
    (fun none => absurd none some) alike
  exact ⟨value, rest, some, reaches, swapped⟩

theorem IsEnd.endsAttrName (first : IsEnd one) (second : IsEnd two) (c : Char)
    (rest : List Char) : endsAttrName c (rest ++ one) = endsAttrName c (rest ++ two) := by
  have none {tail : List Char} (isEnd : IsEnd tail) : (tail.head? == some '=') = false := by
    rw [beq_eq_false_iff_ne]
    intro equals
    exact (isEnd.first '=' equals).2.1 rfl
  cases rest with
  | nil => simp only [TreeSelectors.endsAttrName, List.nil_append, none first, none second]
  | cons => rfl

theorem readAttrName_swap (first : IsEnd one) (second : IsEnd two)
    (complete : endsEscaping text = false) (start start' : List Char)
    (clean : (readAttrName start (text ++ one)).faults = [])
    (more : ']' ∈ (readAttrName start (text ++ one)).rest) :
    ReadsAlike text one two (readAttrName start (text ++ one))
      (readAttrName start' (text ++ two)) := by
  obtain ⟨value, rest, -, reaches, before, after⟩ := readEscaped_swap_of_mem first complete more
    two (first.endsAttrName second)
  have named : value.isEmpty = false := by simpa [readAttrName, before] using clean
  exact ⟨String.ofList value, rest, reaches, by simp [readAttrName, before, named],
    by simp [readAttrName, after, named]⟩

theorem readOp?_eq_some_iff {op : Comparison} : readOp? text = some (op, rest) ↔
    (text = '=' :: rest ∧ op = .equals) ∨
      ∃ lead, opOfLead? lead = some op ∧ text = lead :: '=' :: rest := by
  constructor
  · intro found
    unfold readOp? at found
    split at found
    · obtain ⟨rfl, rfl⟩ := Prod.mk.inj (Option.some.inj found)
      exact .inl ⟨rfl, rfl⟩
    · next lead _ _ =>
      obtain ⟨_, known, pair⟩ := Option.map_eq_some_iff.mp found
      obtain ⟨rfl, rfl⟩ := Prod.mk.inj pair
      exact .inr ⟨lead, known, rfl⟩
    · cases found
  · rintro (⟨rfl, rfl⟩ | ⟨lead, known, rfl⟩)
    · rfl
    · have other : lead ≠ '=' := by
        rintro rfl
        cases known
      rw [readOp?.eq_2 _ _ other, known]
      rfl

/-- An operator is read whatever comes after the text. -/
theorem readOp?_append {op : Comparison} (found : readOp? text = some (op, rest))
    (two : List Char) : Reaches text rest ∧ readOp? (text ++ two) = some (op, rest ++ two) := by
  rw [readOp?_eq_some_iff] at found ⊢
  rcases found with ⟨rfl, rfl⟩ | ⟨lead, known, rfl⟩
  · exact ⟨.plain (by decide) .refl, .inl ⟨rfl, rfl⟩⟩
  · have plain : lead ≠ '\\' := by
      rintro rfl
      cases known
    exact ⟨.plain plain (.plain (by decide) .refl), .inr ⟨lead, known, rfl⟩⟩

/-- An operator after which there is a bracket is read from the text. -/
theorem readOp?_swap (first : IsEnd one) {op : Comparison} {after : List Char}
    (found : readOp? (text ++ one) = some (op, after)) (more : ']' ∈ after) (two : List Char) :
    ∃ rest, Reaches text rest ∧ after = rest ++ one ∧
      readOp? (text ++ two) = some (op, rest ++ two) := by
  obtain ⟨rest, rfl, -⟩ := exists_rest_of_mem (readOp?_rest_suffix found) more first.bracket
  have within : readOp? text = some (op, rest) := by
    rw [readOp?_eq_some_iff] at found ⊢
    rcases found with ⟨same, rfl⟩ | ⟨lead, known, same⟩
    · exact .inl ⟨List.append_cancel_right same, rfl⟩
    · exact .inr ⟨lead, known, List.append_cancel_right same⟩
  obtain ⟨reaches, after⟩ := readOp?_append within two
  exact ⟨rest, reaches, rfl, after⟩

theorem readUnquoted_swap (first : IsEnd one) (complete : endsEscaping text = false)
    (more : ']' ∈ (readUnquoted (text ++ one)).rest) (two : List Char) :
    ReadsAlike text one two (readUnquoted (text ++ one)) (readUnquoted (text ++ two)) := by
  obtain ⟨value, rest, -, reaches, before, after⟩ := readEscaped_swap_of_mem first
    complete more two fun _ _ => rfl
  exact ⟨String.ofList value, rest, reaches, by simp [readUnquoted, before],
    by simp [readUnquoted, after]⟩

/-- A reader does not stop at a backslash. -/
theorem ne_backslash_of_readEscaped {x : Char}
    (stopped : (Text.readEscaped stop text).rest = x :: rest) : x ≠ '\\' := by
  induction text using escape_induction with
  | nil => simp [Text.readEscaped] at stopped
  | dangling => simp [Text.readEscaped] at stopped
  | escape y text ih => exact ih stopped
  | plain y text other ih =>
    rw [readEscaped_cons other] at stopped
    split at stopped
    · obtain ⟨rfl, -⟩ := List.cons.inj stopped
      exact other
    · exact ih stopped

theorem readQuoted_swap (first : IsEnd one) (complete : endsEscaping text = false)
    (start start' : List Char) (quote : Char)
    (more : ']' ∈ (readQuoted start quote (text ++ one)).rest) (two : List Char) :
    ReadsAlike text one two (readQuoted start quote (text ++ one))
      (readQuoted start' quote (text ++ two)) := by
  obtain ⟨value, rest, some, reaches, before, after⟩ := readEscaped_swap_of_mem first
    complete (List.mem_of_mem_tail more) two fun _ _ => rfl
  cases rest with
  | nil => exact absurd rfl some
  | cons x rest =>
    have plain : x ≠ '\\' :=
      ne_backslash_of_readEscaped (congrArg Text.Escaped.rest before)
    exact ⟨String.ofList value, rest, reaches.trans (.plain plain .refl),
      by simp [readQuoted, before], by simp [readQuoted, after]⟩

theorem readValue_cons {x : Char} (double : x ≠ '"') (single : x ≠ '\'')
    (start text : List Char) : readValue start (x :: text) = readUnquoted (x :: text) := by
  unfold readValue
  split <;> simp_all

theorem readValue_swap (first : IsEnd one) (complete : endsEscaping text = false)
    (start start' : List Char) (more : ']' ∈ (readValue start (text ++ one)).rest)
    (two : List Char) :
    ReadsAlike text one two (readValue start (text ++ one)) (readValue start' (text ++ two)) := by
  have quoted (quote : Char) (plain : quote ≠ '\\') {tail : List Char}
      (whole : text = quote :: tail)
      (more : ']' ∈ (readQuoted start quote (tail ++ one)).rest) :
      ReadsAlike text one two (readQuoted start quote (tail ++ one))
        (readQuoted start' quote (tail ++ two)) := by
    rw [whole, endsEscaping_cons plain] at complete
    obtain ⟨value, rest, reaches, swapped⟩ := readQuoted_swap first complete start start' quote
      more two
    exact ⟨value, rest, whole ▸ .plain plain reaches, swapped⟩
  cases text with
  | nil => exact absurd ((readValue_rest_suffix start one).subset more) first.bracket
  | cons x tail =>
    by_cases double : x = '"'
    · subst double
      exact quoted '"' (by decide) rfl more
    · by_cases single : x = '\''
      · subst single
        exact quoted '\'' (by decide) rfl more
      · simp only [List.cons_append, readValue_cons double single] at more ⊢
        exact readUnquoted_swap first complete more two

/-- Without a fault, the closing bracket is found. -/
theorem closeAttr_clean {start : List Char} (clean : (closeAttr start text).faults = []) :
    text = ']' :: (closeAttr start text).rest := by
  unfold closeAttr at clean ⊢
  split <;> simp_all

theorem closeAttr_swap (first : IsEnd one) (start start' : List Char)
    (clean : (closeAttr start (text ++ one)).faults = []) (two : List Char) :
    ReadsAlike text one two (closeAttr start (text ++ one)) (closeAttr start' (text ++ two)) := by
  have closed := closeAttr_clean clean
  cases text with
  | nil =>
    rw [List.nil_append] at closed
    exact absurd (closed ▸ List.mem_cons_self) first.bracket
  | cons x rest =>
    obtain ⟨rfl, -⟩ := List.cons.inj closed
    exact ⟨(), rest, .plain (by decide) .refl, rfl, rfl⟩

theorem readComparison_eq {text : List Char} (nonempty : text ≠ [])
    (bracket : text.head? ≠ some ']') (start : List Char) : readComparison start text =
      match readOp? text with
      | none => ⟨(.present, ""), [⟨.unknownOperator, text⟩], dropThroughBracket text⟩
      | some (op, text) =>
        let value := readValue start (skipBlanks text)
        let closing := closeAttr start (skipBlanks value.rest)
        ⟨(op, value.value), value.faults ++ closing.faults, closing.rest⟩ := by
  have solid (rest : List Char) : text ≠ ']' :: rest := by
    rintro rfl
    exact bracket rfl
  exact readComparison.eq_3 start text nonempty solid

/-- A comparison read without a fault ends in a closing bracket. -/
theorem mem_of_readComparison {start : List Char}
    (clean : (readComparison start text).faults = []) : ']' ∈ text := by
  unfold readComparison at clean
  split at clean
  · simp at clean
  · exact List.mem_cons_self
  · split at clean
    · simp at clean
    · next op after found =>
      have closed := closeAttr_clean (List.append_eq_nil_iff.mp clean).2
      have bracket : ']' ∈ skipBlanks (readValue start (skipBlanks after)).rest := by
        rw [closed]
        exact List.mem_cons_self
      exact (readOp?_rest_suffix found).subset <| (skipBlanks_suffix _).subset <|
        (readValue_rest_suffix _ _).subset <| (skipBlanks_suffix _).subset bracket

/-- A closed attribute test is read alike before any end: its value stops at the bracket or before
    it. -/
theorem readComparison_swap (first : IsEnd one) (complete : endsEscaping text = false)
    (start start' : List Char) (clean : (readComparison start (text ++ one)).faults = [])
    (two : List Char) :
    ReadsAlike text one two (readComparison start (text ++ one))
      (readComparison start' (text ++ two)) := by
  have within := mem_of_mem_append (mem_of_readComparison clean) first.bracket
  cases text with
  | nil => cases within
  | cons x tail =>
    by_cases bracket : x = ']'
    · subst bracket
      exact ⟨(.present, ""), tail, .plain (by decide) .refl, rfl, rfl⟩
    · have solid (more : List Char) : (x :: tail ++ more).head? ≠ some ']' := by simpa using bracket
      have some (more : List Char) : x :: tail ++ more ≠ [] := List.cons_ne_nil _ _
      rw [readComparison_eq (some two) (solid two)]
      rw [readComparison_eq (some one) (solid one)] at clean ⊢
      cases found : readOp? (x :: tail ++ one) with
      | none =>
        rw [found] at clean
        exact absurd clean (List.cons_ne_nil _ _)
      | some pair =>
        obtain ⟨op, after⟩ := pair
        rw [found] at clean
        obtain ⟨-, closed⟩ := List.append_eq_nil_iff.mp clean
        have beyond : ']' ∈ (readValue start (skipBlanks after)).rest := by
          refine (skipBlanks_suffix _).subset ?_
          rw [closeAttr_clean closed]
          exact List.mem_cons_self
        have later := (skipBlanks_suffix _).subset ((readValue_rest_suffix _ _).subset beyond)
        obtain ⟨middle, reaches, rfl, found'⟩ := readOp?_swap first found later two
        have skipped := skipBlanks_append_of_bracket (mem_of_mem_append later first.bracket)
        have reached := reaches.trans (reaches_skipBlanks middle)
        rw [skipped] at beyond closed
        obtain ⟨value, last, reaches', before, after⟩ := readValue_swap first
          (reached.endsEscaping_eq ▸ complete) start start' beyond two
        rw [before] at beyond closed
        have skipped' := skipBlanks_append_of_bracket (mem_of_mem_append beyond first.bracket)
        rw [skipped'] at closed
        obtain ⟨_, rest, reaches'', closing, closing'⟩ := closeAttr_swap first start start' closed two
        refine ⟨(op, value), rest, ?_, ?_, ?_⟩
        · exact reached.trans <| reaches'.trans <| (reaches_skipBlanks last).trans reaches''
        · simp only [skipped, before, skipped', closing, List.append_nil]
        · simp only [found', skipped, after, skipped', closing', List.append_nil]

theorem readAttr_swap (first : IsEnd one) (second : IsEnd two)
    (complete : endsEscaping text = false) (start start' : List Char)
    (clean : (readAttr start (text ++ one)).faults = []) :
    ReadsAlike text one two (readAttr start (text ++ one)) (readAttr start' (text ++ two)) := by
  obtain ⟨named, compared⟩ := List.append_eq_nil_iff.mp clean
  have more := (skipBlanks_suffix _).subset (mem_of_readComparison compared)
  have beyond := (Text.readEscaped_rest_suffix _ _).subset more
  have within := mem_of_mem_append ((skipBlanks_suffix _).subset beyond) first.bracket
  have skipped := skipBlanks_append_of_bracket within
  have reached := reaches_skipBlanks text
  rw [skipped] at named compared more
  obtain ⟨name, middle, reaches, before, after⟩ := readAttrName_swap first second
    (reached.endsEscaping_eq ▸ complete) start start' named more
  rw [before] at compared more
  have skipped' := skipBlanks_append_of_bracket (mem_of_mem_append more first.bracket)
  have reached' := reached.trans <| reaches.trans (reaches_skipBlanks middle)
  rw [skipped'] at compared
  obtain ⟨condition, rest, reaches', test, test'⟩ := readComparison_swap first
    (reached'.endsEscaping_eq ▸ complete) start start' compared two
  refine ⟨⟨name, condition.1, condition.2⟩, rest, reached'.trans reaches', ?_, ?_⟩
  · simp only [readAttr, skipped, before, skipped', test, List.append_nil]
  · simp only [readAttr, skipped, after, skipped', test', List.append_nil]

/-! ## Pseudo-classes -/

theorem readColon_of_head (other : text.head? ≠ some ':') (start : List Char) :
    readColon start text = ⟨(), [], text⟩ := by
  unfold readColon
  split
  · exact absurd rfl other
  · rfl

theorem readColon_swap (first : IsEnd one) (second : IsEnd two) (start start' : List Char)
    (clean : (readColon start (text ++ one)).faults = []) :
    ReadsAlike text one two (readColon start (text ++ one)) (readColon start' (text ++ two)) := by
  have opens {tail : List Char} (isEnd : IsEnd tail) : tail.head? ≠ some ':' :=
    fun colon => (isEnd.first ':' colon).2.2.2 rfl
  by_cases double : text.head? = some ':'
  · obtain ⟨text, rfl⟩ := List.head?_eq_some_iff.mp double
    exact absurd clean (List.cons_ne_nil _ _)
  · exact ⟨(), text, .refl, readColon_of_head (head?_append_ne double (opens first)) start,
      readColon_of_head (head?_append_ne double (opens second)) start'⟩

theorem mem_of_scanArgument {nesting : Nesting} {taken after : List Char}
    (closed : scanArgument nesting text = (taken, .closed after)) : ')' ∈ text := by
  induction text using escape_induction generalizing nesting taken with
  | nil => simp [scanArgument] at closed
  | dangling => simp [scanArgument] at closed
  | escape x text ih =>
    simp only [scanArgument, Prod.mk.injEq] at closed
    have deeper := ih (Prod.ext rfl closed.2)
    simp [deeper]
  | plain x text other ih =>
    rw [scanArgument_cons other] at closed
    split at closed
    · next ends =>
      rw [(Nesting.step_eq_none ends).2]
      exact List.mem_cons_self
    · exact List.mem_cons_of_mem x (ih (Prod.ext rfl (Prod.mk.inj closed).2))

/-- An argument that is closed is closed before the end. -/
theorem scanArgument_swap (first : IsEnd one) {nesting : Nesting} {taken after : List Char}
    (complete : endsEscaping text = false)
    (closed : scanArgument nesting (text ++ one) = (taken, .closed after)) (two : List Char) :
    ∃ rest, Reaches text rest ∧ after = rest ++ one ∧
      scanArgument nesting (text ++ two) = (taken, .closed (rest ++ two)) := by
  induction text using escape_induction generalizing nesting taken with
  | nil => exact absurd (mem_of_scanArgument closed) first.paren
  | dangling => exact absurd complete (by decide)
  | escape x text ih =>
    simp only [List.cons_append, scanArgument, Prod.mk.injEq] at closed ⊢
    obtain ⟨rest, reaches, left, swapped⟩ := ih complete (Prod.ext rfl closed.2)
    refine ⟨rest, .escape reaches, left, ?_, congrArg Prod.snd swapped⟩
    rw [← closed.1, swapped]
  | plain x text other ih =>
    have later : endsEscaping text = false := by rwa [endsEscaping_cons other] at complete
    rw [List.cons_append, scanArgument_cons other] at closed ⊢
    split at closed
    · next ends =>
      simp only [Prod.mk.injEq, ArgumentEnd.closed.injEq] at closed
      obtain ⟨rfl, rfl⟩ := closed
      exact ⟨text, .plain other .refl, rfl, rfl⟩
    · next nesting' stepped =>
      simp only [Prod.mk.injEq] at closed
      obtain ⟨rest, reaches, left, swapped⟩ := ih later (Prod.ext rfl closed.2)
      refine ⟨rest, .plain other reaches, left, ?_⟩
      rw [swapped, ← closed.1]

theorem readArgument?_of_head (other : text.head? ≠ some '(') (start : List Char) :
    readArgument? start text = ⟨none, [], text⟩ := by
  unfold readArgument?
  split
  · exact absurd rfl other
  · rfl

theorem readArgument?_swap (first : IsEnd one) (second : IsEnd two)
    (complete : endsEscaping text = false) (start start' : List Char)
    (clean : (readArgument? start (text ++ one)).faults = []) :
    ReadsAlike text one two (readArgument? start (text ++ one))
      (readArgument? start' (text ++ two)) := by
  have opens {tail : List Char} (isEnd : IsEnd tail) : tail.head? ≠ some '(' :=
    fun paren => (isEnd.first '(' paren).2.2.1 rfl
  by_cases opened : text.head? = some '('
  · obtain ⟨text, rfl⟩ := List.head?_eq_some_iff.mp opened
    rw [endsEscaping_cons (by decide)] at complete
    generalize scanned : scanArgument {} (text ++ one) = result
    obtain ⟨taken, after | nesting⟩ := result
    · obtain ⟨rest, reaches, rfl, swapped⟩ := scanArgument_swap first complete scanned two
      refine ⟨some (String.ofList (trimUnescaped taken)), rest, .plain (by decide) reaches, ?_, ?_⟩
      · simp [readArgument?, readArgument, scanned]
      · simp [readArgument?, readArgument, swapped]
    · simp [readArgument?, readArgument, scanned] at clean
  · exact ⟨none, text, .refl, readArgument?_of_head (head?_append_ne opened (opens first)) start,
      readArgument?_of_head (head?_append_ne opened (opens second)) start'⟩

theorem readPseudo_swap (first : IsEnd one) (second : IsEnd two)
    (complete : endsEscaping text = false) (start start' : List Char)
    (clean : (readPseudo start (text ++ one)).faults = []) :
    ReadsAlike text one two (readPseudo start (text ++ one)) (readPseudo start' (text ++ two)) := by
  simp only [readPseudo, List.append_eq_nil_iff] at clean
  obtain ⟨⟨single, named⟩, closed⟩ := clean
  obtain ⟨_, middle, reaches, colon, colon'⟩ := readColon_swap first second start start' single
  rw [colon] at named closed
  obtain ⟨name, last, reaches', before, after⟩ := readName_swap first second
    (reaches.endsEscaping_eq ▸ complete) start start' named
  rw [before] at closed
  have reached := reaches.trans reaches'
  obtain ⟨arg, rest, reaches'', taken, taken'⟩ := readArgument?_swap first second
    (reached.endsEscaping_eq ▸ complete) start start' closed
  refine ⟨⟨Text.lower name, arg⟩, rest, reached.trans reaches'', ?_, ?_⟩
  · simp only [readPseudo, colon, before, taken, List.append_nil]
  · simp only [readPseudo, colon', after, taken', List.append_nil]

/-! ## Lexemes -/

theorem MeetApart.of_suffix (apart : MeetApart text one) (suffix : rest <:+ text) :
    MeetApart rest one := by
  intro blank
  obtain ⟨front, whole⟩ := suffix
  refine apart ?_
  cases last : rest.getLast? with
  | none => simp [last] at blank
  | some c =>
    rw [last] at blank
    rwa [← whole, List.getLast?_append, last]

theorem MeetApart.head?_of_blanks {x : Char} (apart : MeetApart (x :: text) one)
    (blanks : ∀ c ∈ x :: text, Text.isBlank c = true) : one.head?.any Text.isBlank = false := by
  refine apart ?_
  rw [List.getLast?_eq_some_getLast (List.cons_ne_nil x text)]
  exact blanks _ (List.getLast_mem (List.cons_ne_nil x text))

/-- Blanks run into the end only where text and end meet in blanks. -/
theorem MeetApart.skipBlanks_append {x : Char} (apart : MeetApart (x :: text) one)
    (blank : Text.isBlank x = true) : skipBlanks (text ++ one) = skipBlanks text ++ one := by
  by_cases solid : ∃ c ∈ text, Text.isBlank c = false
  · obtain ⟨c, member, solid⟩ := solid
    exact TreeSelectors.skipBlanks_append member solid one
  · have blanks : ∀ c ∈ text, Text.isBlank c = true := by
      intro c member
      by_contra other
      exact solid ⟨c, member, by simpa using other⟩
    have head := apart.head?_of_blanks (List.forall_mem_cons.mpr ⟨blank, blanks⟩)
    have stops : skipBlanks one = one := by
      cases one with
      | nil => rfl
      | cons c one => exact skipBlanks_of_head head one
    have none : skipBlanks text = [] := List.dropWhile_eq_nil_iff.mpr blanks
    rw [none, List.nil_append, skipBlanks, List.dropWhile_append_of_pos blanks, ← skipBlanks, stops]

/-- A lexeme without a fault is read before either end. -/
theorem readLexeme_swap (first : IsEnd one) (second : IsEnd two) {x : Char}
    (complete : endsEscaping (x :: text) = false)
    (apart : MeetApart (x :: text) one) (apart' : MeetApart (x :: text) two)
    (clean : (readLexeme x (text ++ one)).faults = []) :
    ∃ token rest, Reaches (x :: text) rest ∧
      readLexeme x (text ++ one) = ⟨x :: (text ++ one), token, [], rest ++ one⟩ ∧
      readLexeme x (text ++ two) = ⟨x :: (text ++ two), token, [], rest ++ two⟩ := by
  have lexeme {β : Type} {source : List Char} {before after : Reading β} (token : β → Token)
      (taken : Reaches (x :: text) source) (alike : ReadsAlike source one two before after) :
      ∃ token' rest, Reaches (x :: text) rest ∧
        before.lexeme (x :: (text ++ one)) token = ⟨x :: (text ++ one), token', [], rest ++ one⟩ ∧
        after.lexeme (x :: (text ++ two)) token = ⟨x :: (text ++ two), token', [], rest ++ two⟩ := by
    obtain ⟨value, rest, reaches, rfl, rfl⟩ := alike
    exact ⟨token value, rest, taken.trans reaches, rfl, rfl⟩
  have rest (plain : x ≠ '\\') : endsEscaping text = false := by
    rwa [endsEscaping_cons plain] at complete
  unfold readLexeme at clean ⊢
  split at clean
  · next blank =>
    have plain := ne_backslash_of_isBlank blank
    simp only [blank, if_true]
    refine ⟨.blank, skipBlanks text, .plain plain (reaches_skipBlanks text), ?_, ?_⟩
    · rw [apart.skipBlanks_append blank]
    · rw [apart'.skipBlanks_append blank]
  · next solid =>
    simp only [solid, Bool.false_eq_true, if_false]
    split at clean
    · exact ⟨_, text, .plain (by decide) .refl, rfl, rfl⟩
    · exact ⟨_, text, .plain (by decide) .refl, rfl, rfl⟩
    · exact ⟨_, text, .plain (by decide) .refl, rfl, rfl⟩
    · exact ⟨_, text, .plain (by decide) .refl, rfl, rfl⟩
    · exact lexeme .id (.plain (by decide) .refl)
        (readName_swap first second (rest (by decide)) _ _ clean)
    · exact lexeme .className (.plain (by decide) .refl)
        (readName_swap first second (rest (by decide)) _ _ clean)
    · exact lexeme .attr (.plain (by decide) .refl)
        (readAttr_swap first second (rest (by decide)) _ _ clean)
    · exact lexeme .pseudo (.plain (by decide) .refl)
        (readPseudo_swap first second (rest (by decide)) _ _ clean)
    · split at clean
      · next name =>
        simp only [name, if_true]
        exact lexeme .tag .refl (readName_swap first second complete _ _ clean)
      · simp at clean

/-- A text that is read without a fault before one end gives the same tokens before any other. -/
theorem lexemes_swap (first : IsEnd one) (second : IsEnd two)
    (complete : endsEscaping text = false) (apart : MeetApart text one)
    (apart' : MeetApart text two)
    (clean : ∀ lexeme ∈ lexemes (text ++ one), lexeme.faults = []) :
    ∃ row, (lexemes (text ++ one)).map Lexeme.token = row ++ (lexemes one).map Lexeme.token ∧
      (lexemes (text ++ two)).map Lexeme.token = row ++ (lexemes two).map Lexeme.token ∧
      ((∀ lexeme ∈ lexemes two, lexeme.faults = []) →
        ∀ lexeme ∈ lexemes (text ++ two), lexeme.faults = []) := by
  induction size : text.length using Nat.strong_induction_on generalizing text with
  | _ length ih =>
    cases text with
    | nil => exact ⟨[], rfl, rfl, id⟩
    | cons x text =>
      rw [List.cons_append, lexemes] at clean
      obtain ⟨here, later⟩ := List.forall_mem_cons.mp clean
      obtain ⟨token, rest, reaches, before, after⟩ := readLexeme_swap first second complete apart
        apart' here
      have less : rest.length < length := by
        have shorter := (readLexeme_rest_suffix x (text ++ one)).length_le
        rw [before, List.length_append, List.length_append] at shorter
        rw [← size, List.length_cons]
        omega
      rw [before] at later
      obtain ⟨row, shorter, longer, sound⟩ := ih rest.length less
        (reaches.endsEscaping_eq ▸ complete) (apart.of_suffix reaches.suffix)
        (apart'.of_suffix reaches.suffix) later rfl
      refine ⟨token :: row, ?_, ?_, fun ends => ?_⟩
      · rw [List.cons_append, lexemes, before, List.map_cons, shorter]
        rfl
      · rw [List.cons_append, lexemes, after, List.map_cons, longer]
        rfl
      · rw [List.cons_append, lexemes, after]
        exact List.forall_mem_cons.mpr ⟨rfl, sound ends⟩

end

end TreeSelectors
