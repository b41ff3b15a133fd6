import TreeSelectors.Selector.Parse

/-!
  Where the reader is and where its faults are. A place is what is left of the text from there on,
  so that places on the way through a text are suffixes of each other, and their offsets rise as the
  places shrink. The faults of a lexeme are at its start or at a character that the lexeme goes
  past (`areWithin_readLexeme`), which is why those of a whole text come in order of their places.
-/

namespace TreeSelectors

variable {c : Char} {text place later start rest : List Char}

/-! ## Offsets -/

theorem byteLength_append (front back : List Char) :
    byteLength (front ++ back) = byteLength front + byteLength back := by
  induction front with
  | nil => simp [byteLength]
  | cons c front ih => rw [List.cons_append, byteLength, ih, byteLength, Nat.add_assoc]

theorem byteLength_eq_utf8ByteSize (text : List Char) :
    byteLength text = (String.ofList text).utf8ByteSize := by
  induction text with
  | nil => rfl
  | cons c text ih =>
    rw [← List.singleton_append, String.ofList_append, String.utf8ByteSize_append,
      ← String.singleton_eq_ofList, String.utf8ByteSize_singleton, List.singleton_append,
      byteLength, ih]

theorem offsetOf_append (front place : List Char) :
    offsetOf (front ++ place) place = byteLength front := by
  rw [offsetOf, byteLength_append, Nat.add_sub_cancel_right]

theorem offsetOf_le (within : place <:+ text) (after : later <:+ place) :
    offsetOf text place ≤ offsetOf text later := by
  obtain ⟨front, rfl⟩ := within
  obtain ⟨middle, rfl⟩ := after
  rw [offsetOf_append, ← List.append_assoc, offsetOf_append, byteLength_append]
  exact Nat.le_add_right _ _

theorem offsetOf_lt (within : c :: place <:+ text) (after : later <:+ place) :
    offsetOf text (c :: place) < offsetOf text later := by
  refine Nat.lt_of_lt_of_le ?_ (offsetOf_le ((List.suffix_cons c place).trans within) after)
  obtain ⟨front, rfl⟩ := within
  rw [offsetOf_append, List.append_cons, offsetOf_append, byteLength_append, byteLength,
    byteLength]
  exact Nat.lt_add_of_pos_right (Nat.add_pos_left c.utf8Size_pos _)

/-- A place divides the selector into the text before it, which is as long as the offset says, and
    itself. -/
theorem exists_of_place {selector : String} (within : place <:+ selector.toList) :
    ∃ before : String, selector = before ++ String.ofList place ∧
      offsetOf selector.toList place = before.utf8ByteSize := by
  obtain ⟨front, whole⟩ := within
  refine ⟨String.ofList front, ?_, ?_⟩
  · rw [← String.ofList_append, whole, String.ofList_toList]
  · rw [← whole, offsetOf_append, byteLength_eq_utf8ByteSize]

theorem isValid_offsetOf {selector : String} (within : place <:+ selector.toList) :
    (String.Pos.Raw.mk (offsetOf selector.toList place)).IsValid selector := by
  obtain ⟨before, whole, offset⟩ := exists_of_place within
  exact String.Pos.Raw.isValid_iff_exists_append.mpr
    ⟨before, String.ofList place, whole, congrArg String.Pos.Raw.mk offset⟩

/-! ## Faults of a reader -/

/-- Faults of no character, reported where a lexeme starts. -/
def AreAt (start : List Char) (faults : List Fault) : Prop :=
  ∀ fault ∈ faults, fault.place = start ∧ ∀ c, fault.kind ≠ .unexpectedChar c

/-- Faults found on the way from `start` to `rest`, at characters that have been gone past, a
    character that is unexpected at its place. -/
structure AreWithin (start rest : List Char) (faults : List Fault) : Prop where
  suffix : rest <:+ start
  at_char : ∀ fault ∈ faults, fault.place <:+ start ∧
    ∃ c later, fault.place = c :: later ∧ rest <:+ later ∧
      ∀ other, fault.kind = .unexpectedChar other → other = c
  ordered : faults.Pairwise fun fault next => next.place <:+ fault.place

theorem AreAt.append {faults more : List Fault} (first : AreAt start faults)
    (second : AreAt start more) : AreAt start (faults ++ more) := by
  intro fault member
  exact (List.mem_append.mp member).elim (first fault) (second fault)

namespace AreWithin

variable {faults more : List Fault} {middle : List Char}

theorem nil (suffix : rest <:+ start) : AreWithin start rest [] where
  suffix := suffix
  at_char := by simp
  ordered := .nil

/-- A fault at the start may come before any others. -/
theorem append_left (atStart : AreAt (c :: text) faults) (within : AreWithin (c :: text) rest more)
    (past : rest <:+ text) : AreWithin (c :: text) rest (faults ++ more) where
  suffix := within.suffix
  at_char := by
    intro fault member
    rcases List.mem_append.mp member with first | second
    · obtain ⟨place, plain⟩ := atStart fault first
      exact ⟨place ▸ List.suffix_refl _, c, text, place, past,
        fun other kind => absurd kind (plain other)⟩
    · exact within.at_char fault second
  ordered := by
    refine List.pairwise_append.mpr ⟨?_, within.ordered, ?_⟩
    · refine List.pairwise_of_forall_mem_list fun fault member next among => ?_
      have same : fault.place = next.place :=
        (atStart fault member).1.trans (atStart next among).1.symm
      exact same ▸ List.suffix_refl _
    · intro fault member next among
      rw [(atStart fault member).1]
      exact (within.at_char next among).1

theorem of_areAt (atStart : AreAt (c :: text) faults) (past : rest <:+ text) :
    AreWithin (c :: text) rest faults := by
  have none : AreWithin (c :: text) rest [] := .nil (past.trans (List.suffix_cons c text))
  simpa using none.append_left atStart past

/-- An unexpected character, or text from which no more is understood. -/
theorem single {kind : FlawKind} (within : c :: text <:+ start) (past : rest <:+ text)
    (shown : ∀ other, kind = .unexpectedChar other → other = c) :
    AreWithin start rest [⟨kind, c :: text⟩] where
  suffix := past.trans ((List.suffix_cons c text).trans within)
  at_char := by
    intro fault member
    obtain rfl := List.mem_singleton.mp member
    exact ⟨within, c, text, rfl, past, shown⟩
  ordered := List.pairwise_singleton ..

theorem append (first : AreWithin start middle faults) (second : AreWithin middle rest more) :
    AreWithin start rest (faults ++ more) where
  suffix := second.suffix.trans first.suffix
  at_char := by
    intro fault member
    rcases List.mem_append.mp member with here | there
    · obtain ⟨within, c, later, place, past, shown⟩ := first.at_char fault here
      exact ⟨within, c, later, place, second.suffix.trans past, shown⟩
    · obtain ⟨within, found⟩ := second.at_char fault there
      exact ⟨within.trans first.suffix, found⟩
  ordered := by
    refine List.pairwise_append.mpr ⟨first.ordered, second.ordered, ?_⟩
    intro fault here next there
    obtain ⟨-, c, later, place, past, -⟩ := first.at_char fault here
    rw [place]
    exact ((second.at_char next there).1.trans past).trans (List.suffix_cons c later)

end AreWithin

/-! ## The readers -/

theorem areAt_readName (start text : List Char) : AreAt start (readName start text).faults := by
  refine AreAt.append ?_ ?_ <;> split <;> simp [AreAt]

theorem areAt_readAttrName (start text : List Char) :
    AreAt start (readAttrName start text).faults := by
  simp only [readAttrName]
  split <;> simp [AreAt]

theorem areAt_readQuoted (start : List Char) (quote : Char) (text : List Char) :
    AreAt start (readQuoted start quote text).faults := by
  simp only [readQuoted]
  split <;> simp [AreAt]

theorem areAt_readValue (start text : List Char) : AreAt start (readValue start text).faults := by
  unfold readValue
  split
  · exact areAt_readQuoted start _ _
  · exact areAt_readQuoted start _ _
  · simp [AreAt, readUnquoted]

theorem areAt_readColon (start text : List Char) : AreAt start (readColon start text).faults := by
  unfold readColon
  split <;> simp [AreAt]

theorem areAt_readArgument? (start text : List Char) :
    AreAt start (readArgument? start text).faults := by
  unfold readArgument?
  split
  · simp only
    split <;> simp [AreAt]
  · simp [AreAt]

theorem areAt_readPseudo (start text : List Char) : AreAt start (readPseudo start text).faults :=
  ((areAt_readColon start _).append (areAt_readName start _)).append (areAt_readArgument? start _)

theorem dropThroughBracket_cons_suffix (c : Char) (text : List Char) :
    dropThroughBracket (c :: text) <:+ text := by
  by_cases bracket : c = ']'
  · simp [dropThroughBracket, bracket]
  · have passed : dropThroughBracket (c :: text) = dropThroughBracket text := by
      simp [dropThroughBracket, bracket]
    rw [passed]
    exact dropThroughBracket_suffix text

theorem areWithin_closeAttr (within : place <:+ text) :
    AreWithin (c :: text) (closeAttr (c :: text) place).rest
      (closeAttr (c :: text) place).faults := by
  have inside : place <:+ c :: text := within.trans (List.suffix_cons c text)
  unfold closeAttr
  split
  · exact .of_areAt (by simp [AreAt]) List.nil_suffix
  · exact .nil ((List.suffix_cons _ _).trans inside)
  · exact .single inside (dropThroughBracket_cons_suffix _ _) (by simp [eq_comm])

theorem areWithin_readComparison (within : place <:+ text) :
    AreWithin (c :: text) (readComparison (c :: text) place).rest
      (readComparison (c :: text) place).faults := by
  have inside : place <:+ c :: text := within.trans (List.suffix_cons c text)
  unfold readComparison
  split
  · exact .of_areAt (by simp [AreAt]) List.nil_suffix
  · exact .nil ((List.suffix_cons _ _).trans inside)
  · next nonempty _ =>
    obtain ⟨first, others, rfl⟩ := List.exists_cons_of_ne_nil nonempty
    split
    · exact .single inside (dropThroughBracket_cons_suffix _ _) (by simp)
    · next op after found =>
      have value : skipBlanks (readValue (c :: text) (skipBlanks after)).rest <:+ text :=
        (skipBlanks_suffix _).trans <| (readValue_rest_suffix _ _).trans <|
          (skipBlanks_suffix _).trans <| (readOp?_rest_suffix found).trans within
      exact .append_left (areAt_readValue _ _) (areWithin_closeAttr value)
        ((closeAttr_rest_suffix _ _).trans value)

theorem areWithin_readAttr (c : Char) (text : List Char) :
    AreWithin (c :: text) (readAttr (c :: text) text).rest (readAttr (c :: text) text).faults := by
  have named : skipBlanks (readAttrName (c :: text) (skipBlanks text)).rest <:+ text :=
    (skipBlanks_suffix _).trans <| (Text.readEscaped_rest_suffix _ _).trans (skipBlanks_suffix _)
  exact .append_left (areAt_readAttrName _ _) (areWithin_readComparison named)
    ((readComparison_rest_suffix _ _).trans named)

/-- The faults of a lexeme are reported at its start or at a character that it takes. -/
theorem areWithin_readLexeme (c : Char) (text : List Char) :
    AreWithin (c :: text) (readLexeme c text).rest (readLexeme c text).faults := by
  have past := readLexeme_rest_suffix c text
  have quiet : AreWithin (c :: text) (readLexeme c text).rest [] :=
    .nil (past.trans (List.suffix_cons c text))
  unfold readLexeme at past quiet ⊢
  simp only at past quiet ⊢
  split at past
  · next blank => simpa [blank] using quiet
  · next solid =>
    rw [if_neg solid] at quiet ⊢
    split at past
    · exact quiet
    · exact quiet
    · exact quiet
    · exact quiet
    · exact .of_areAt (areAt_readName _ _) past
    · exact .of_areAt (areAt_readName _ _) past
    · exact areWithin_readAttr _ _
    · exact .of_areAt (areAt_readPseudo _ _) past
    · split at past
      · next name =>
        rw [if_pos name]
        exact .of_areAt (areAt_readName _ _) past
      · next other =>
        rw [if_neg other]
        exact .single (List.suffix_refl _) (List.suffix_refl _) (by simp [eq_comm])

end TreeSelectors
