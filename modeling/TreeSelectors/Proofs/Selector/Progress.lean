import TreeSelectors.Proofs.Selector.Offsets

/-!
  Reading goes on to the end of the text and reports its faults in order. Two parties find faults,
  the reader of lexemes in the text and the draft in the row of tokens; each comes to the end of the
  text on its own, and what both have found is put in order of the offsets, the draft's first where
  they are equal (`flaws_eq_mergeSort`). Main statement: `lexemes_progress`.
-/

namespace TreeSelectors

variable {text place later : List Char}

/-! ## Places -/

/-- A later place is past the character at an earlier one. -/
def IsPast (place later : List Char) : Prop := ∃ c more, place = c :: more ∧ later <:+ more

theorem IsPast.suffix (past : IsPast place later) : later <:+ place := by
  obtain ⟨c, more, rfl, after⟩ := past
  exact after.trans (List.suffix_cons c more)

theorem IsPast.offsetOf_lt (past : IsPast place later) (within : place <:+ text) :
    offsetOf text place < offsetOf text later := by
  obtain ⟨c, more, rfl, after⟩ := past
  exact TreeSelectors.offsetOf_lt within after

/-- The places before the first lexeme and after each. -/
def stops (text : List Char) : List (List Char) := text :: (lexemes text).map Lexeme.rest

theorem start_readLexeme (c : Char) (text : List Char) : (readLexeme c text).start = c :: text := by
  unfold readLexeme Reading.lexeme
  simp only
  repeat' split
  all_goals rfl

theorem stops_nil : stops [] = [[]] := by rw [stops, lexemes, List.map_nil]

theorem stops_cons (c : Char) (text : List Char) :
    stops (c :: text) = (c :: text) :: stops (readLexeme c text).rest := by
  rw [stops, lexemes, stops, List.map_cons]

theorem pairwise_stops (text : List Char) : (stops text).Pairwise IsPast := by
  fun_induction lexemes text with
  | case1 =>
    rw [stops_nil]
    exact List.pairwise_singleton ..
  | case2 c text lexeme ih =>
    rw [stops_cons]
    refine List.pairwise_cons.mpr ⟨fun place member => ⟨c, text, rfl, ?_⟩, ih⟩
    have past : lexeme.rest <:+ text := readLexeme_rest_suffix c text
    rcases List.mem_cons.mp member with rfl | further
    · exact past
    · exact (List.rel_of_pairwise_cons ih further).suffix.trans past

theorem suffix_of_mem_stops (member : place ∈ stops text) : place <:+ text := by
  rcases List.mem_cons.mp member with rfl | further
  · exact List.suffix_refl _
  · exact (List.rel_of_pairwise_cons (pairwise_stops text) further).suffix

/-- Each lexeme starts where the one before it ended, and the last one ends where the text does. -/
theorem stops_eq (text : List Char) :
    (lexemes text).map Lexeme.start ++ [[]] = stops text := by
  fun_induction lexemes text with
  | case1 => rw [stops_nil, List.map_nil, List.nil_append]
  | case2 c text lexeme ih =>
    rw [stops_cons, List.map_cons, start_readLexeme, List.cons_append, ih]

/-! ## Faults of a text -/

def Fault.flaw (text : List Char) (fault : Fault) : Flaw := ⟨fault.kind, offsetOf text fault.place⟩

namespace Draft

/-- What is wrong with where the tokens stand. -/
def complaints (draft : Draft) : List Lexeme → List Fault
  | [] => []
  | lexeme :: row =>
    (draft.complaint? lexeme.token).toList.map (⟨·, lexeme.start⟩) ++
      (draft.step lexeme.token).2.complaints row

theorem complaint?_ne_unexpectedChar (draft : Draft) (token : Token) (c : Char) :
    draft.complaint? token ≠ some (.unexpectedChar c) := by
  unfold complaint?
  split <;> try split
  all_goals simp

theorem areAt_complaint (draft : Draft) (token : Token) (start : List Char) :
    AreAt start ((draft.complaint? token).toList.map (⟨·, start⟩)) := by
  intro fault member
  obtain ⟨kind, complains, rfl⟩ := List.mem_map.mp member
  refine ⟨rfl, fun c unexpected => ?_⟩
  obtain rfl : kind = .unexpectedChar c := unexpected
  exact absurd (Option.mem_toList.mp complains) (complaint?_ne_unexpectedChar draft token c)

theorem areWithin_faults (draft : Draft) (text : List Char) :
    AreWithin text [] (draft.faults (lexemes text)) := by
  fun_induction lexemes text generalizing draft with
  | case1 => exact .nil (List.suffix_refl _)
  | case2 c text lexeme ih =>
    have here := areAt_complaint draft lexeme.token lexeme.start
    rw [start_readLexeme] at here
    rw [faults, start_readLexeme]
    exact (AreWithin.append_left here (areWithin_readLexeme c text)
      (readLexeme_rest_suffix c text)).append (ih _)

theorem suffix_of_mem_complaints (draft : Draft) (text : List Char) :
    ∀ fault ∈ draft.complaints (lexemes text), fault.place <:+ text := by
  fun_induction lexemes text generalizing draft with
  | case1 => simp [complaints]
  | case2 c text lexeme ih =>
    intro fault member
    rw [complaints, start_readLexeme] at member
    rcases List.mem_append.mp member with here | further
    · exact (areAt_complaint draft _ _ fault here).1 ▸ List.suffix_refl _
    · exact (ih _ fault further).trans
        ((readLexeme_rest_suffix c text).trans (List.suffix_cons c text))

/-- Of the faults at one offset, those of the draft come first. -/
theorem filter_faults (draft : Draft) {whole : List Char} (within : text <:+ whole)
    (offset : Nat) :
    (draft.faults (lexemes text)).filter (offsetOf whole ·.place == offset) =
      (draft.complaints (lexemes text)).filter (offsetOf whole ·.place == offset) ++
        ((lexemes text).flatMap Lexeme.faults).filter (offsetOf whole ·.place == offset) := by
  fun_induction lexemes text generalizing draft with
  | case1 => rfl
  | case2 c text lexeme ih =>
    have rest : lexeme.rest <:+ whole :=
      (readLexeme_rest_suffix c text).trans ((List.suffix_cons c text).trans within)
    have apart : lexeme.faults.filter (offsetOf whole ·.place == offset) = [] ∨
        ((draft.step lexeme.token).2.complaints (lexemes lexeme.rest)).filter
          (offsetOf whole ·.place == offset) = [] := by
      by_cases some : ∃ fault ∈ lexeme.faults, offsetOf whole fault.place = offset
      · obtain ⟨fault, found, here⟩ := some
        obtain ⟨inside, first, more, place, past, -⟩ :=
          (areWithin_readLexeme c text).at_char fault found
        refine .inr (List.filter_eq_nil_iff.mpr fun complaint complains there => ?_)
        have before : offsetOf whole fault.place < offsetOf whole complaint.place := by
          rw [place] at inside ⊢
          exact offsetOf_lt (inside.trans within)
            ((suffix_of_mem_complaints _ _ complaint complains).trans past)
        rw [here, eq_of_beq there] at before
        exact Nat.lt_irrefl _ before
      · refine .inl (List.filter_eq_nil_iff.mpr fun fault found here => ?_)
        exact some ⟨fault, found, eq_of_beq here⟩
    rw [faults, complaints, List.flatMap_cons, List.filter_append, List.filter_append,
      List.filter_append, List.filter_append, ih _ rest, List.append_assoc, List.append_assoc]
    rcases apart with none | none <;> simp [none]

end Draft

/-! ## Stable sorting -/

section

variable {α : Type} {key : α → Nat} {items sorted : List α}

theorem decide_le_trans (a b c : α) (first : decide (key a ≤ key b) = true)
    (second : decide (key b ≤ key c) = true) : decide (key a ≤ key c) = true :=
  decide_eq_true (Nat.le_trans (of_decide_eq_true first) (of_decide_eq_true second))

theorem decide_le_total (a b : α) : (decide (key a ≤ key b) || decide (key b ≤ key a)) = true := by
  simpa using Nat.le_total (key a) (key b)

theorem pairwise_mergeSort (items : List α) :
    (items.mergeSort fun a b => key a ≤ key b).Pairwise (key · ≤ key ·) :=
  (List.pairwise_mergeSort decide_le_trans decide_le_total items).imp of_decide_eq_true

theorem filter_mergeSort (items : List α) (k : Nat) :
    (items.mergeSort fun a b => key a ≤ key b).filter (key · == k) =
      items.filter (key · == k) := by
  have equal : (items.filter (key · == k)).Pairwise fun a b => decide (key a ≤ key b) = true := by
    refine List.pairwise_of_forall_mem_list fun a left b right => ?_
    have same : key a = key b := by
      rw [eq_of_beq (List.mem_filter.mp left).2, eq_of_beq (List.mem_filter.mp right).2]
    exact decide_eq_true (Nat.le_of_eq same)
  have kept := (List.sublist_mergeSort decide_le_trans decide_le_total equal
    List.filter_sublist).filter (key · == k)
  rw [List.filter_filter, List.filter_congr fun a _ => Bool.and_self _] at kept
  exact (kept.eq_of_length ((List.mergeSort_perm items _).filter _).length_eq.symm).symm

/-- Lists in order are equal when they have the same items of each key in the same order. -/
theorem eq_of_filter_eq (key : α → Nat)
    (left : items.Pairwise (key · ≤ key ·)) (right : sorted.Pairwise (key · ≤ key ·))
    (same : ∀ k, items.filter (key · == k) = sorted.filter (key · == k)) : items = sorted := by
  have subset {front back : List α}
      (same : ∀ k, front.filter (key · == k) = back.filter (key · == k)) : front ⊆ back := by
    intro a member
    have listed : a ∈ front.filter (key · == key a) :=
      List.mem_filter.mpr ⟨member, beq_self_eq_true _⟩
    rw [same] at listed
    exact (List.mem_filter.mp listed).1
  induction items generalizing sorted with
  | nil => exact (List.subset_nil.mp (subset fun k => (same k).symm)).symm
  | cons a items ih =>
    cases sorted with
    | nil => exact absurd (subset same List.mem_cons_self) List.not_mem_nil
    | cons b sorted =>
      obtain ⟨least, others⟩ := List.pairwise_cons.mp left
      obtain ⟨least', others'⟩ := List.pairwise_cons.mp right
      have low : key a ≤ key b := by
        rcases List.mem_cons.mp (subset (same · |>.symm) List.mem_cons_self) with rfl | later
        · exact Nat.le_refl _
        · exact least b later
      have high : key b ≤ key a := by
        rcases List.mem_cons.mp (subset same List.mem_cons_self) with rfl | later
        · exact Nat.le_refl _
        · exact least' a later
      have level : key b = key a := Nat.le_antisymm high low
      have firsts := same (key a)
      simp only [List.filter_cons, level, beq_self_eq_true, ↓reduceIte] at firsts
      obtain rfl : a = b := (List.cons.inj firsts).1
      refine congrArg (a :: ·) (ih others others' fun k => ?_)
      have filtered := same k
      rw [List.filter_cons, List.filter_cons] at filtered
      split at filtered
      · exact (List.cons.inj filtered).2
      · exact filtered

end

/-! ## Selectors -/

/-- The byte offsets before the first lexeme of a selector and after each. -/
def cursors (selector : String) : List Nat :=
  (stops selector.toList).map (offsetOf selector.toList)

theorem pairwise_cursors (selector : String) : (cursors selector).Pairwise (· < ·) := by
  refine List.pairwise_map.mpr ((pairwise_stops _).imp_of_mem fun {place later} member _ past => ?_)
  exact past.offsetOf_lt (suffix_of_mem_stops member)

theorem offsetOf_self (text : List Char) : offsetOf text text = 0 := Nat.sub_self _

theorem offsetOf_end (selector : String) :
    offsetOf selector.toList [] = selector.utf8ByteSize := by
  rw [offsetOf, byteLength_eq_utf8ByteSize, String.ofList_toList]
  exact Nat.sub_zero _

theorem flaws_eq_map (selector : String) :
    flaws selector =
      (({} : Draft).faults (lexemes selector.toList)).map (Fault.flaw selector.toList) :=
  rfl

theorem pairwise_flaws (selector : String) : (flaws selector).Pairwise (·.offset ≤ ·.offset) := by
  have within := Draft.areWithin_faults {} selector.toList
  rw [flaws_eq_map]
  refine List.pairwise_map.mpr (within.ordered.imp_of_mem fun {fault next} member _ after => ?_)
  exact offsetOf_le (within.at_char fault member).1 after

/-- The flaws are those of the draft and those of the lexemes, in order of their offsets. -/
theorem flaws_eq_mergeSort (selector : String) :
    let row := lexemes selector.toList
    flaws selector =
      ((({} : Draft).complaints row ++ row.flatMap Lexeme.faults).map
        (Fault.flaw selector.toList)).mergeSort fun a b => a.offset ≤ b.offset := by
  intro row
  refine eq_of_filter_eq Flaw.offset (pairwise_flaws selector)
    (pairwise_mergeSort _) fun offset => ?_
  rw [filter_mergeSort, flaws_eq_map, List.filter_map, List.filter_map, List.filter_append]
  exact congrArg (List.map _) (Draft.filter_faults {} (List.suffix_refl _) offset)

/-- A flaw is reported at a character of the selector, an unexpected one at itself. -/
theorem exists_of_flaw {selector : String} {flaw : Flaw} (member : flaw ∈ flaws selector) :
    flaw.offset < selector.utf8ByteSize ∧ (String.Pos.Raw.mk flaw.offset).IsValid selector ∧
      ∀ c, flaw.kind = .unexpectedChar c → ∃ before after,
        selector = before ++ String.singleton c ++ after ∧ flaw.offset = before.utf8ByteSize := by
  rw [flaws_eq_map] at member
  obtain ⟨fault, found, rfl⟩ := List.mem_map.mp member
  obtain ⟨within, c, later, place, -, shown⟩ :=
    (Draft.areWithin_faults {} selector.toList).at_char fault found
  refine ⟨?_, isValid_offsetOf within, fun other unexpected => ?_⟩
  · have before := within
    rw [place] at before
    rw [← offsetOf_end, Fault.flaw, place]
    exact offsetOf_lt before List.nil_suffix
  · obtain ⟨before, whole, offset⟩ := exists_of_place within
    obtain rfl := shown other unexpected
    refine ⟨before, String.ofList later, ?_, offset⟩
    rw [String.append_assoc, String.singleton_eq_ofList, ← String.ofList_append]
    rwa [place] at whole

theorem parseWellFormed_eq_error_iff {selector : String} {error : Malformed} :
    parseWellFormed selector = .error error ↔
      error.selector = selector ∧ (flaws selector).head? = some error.flaw := by
  obtain ⟨written, flaw⟩ := error
  unfold parseWellFormed
  cases flaws selector with
  | nil => simp
  | cons first flaws => simp [eq_comm]

/-- Each lexeme starts at a character where the one before it ended and takes at least that
    character, until the text is used up. All flaws are at characters of the text, in order, and the
    first of them is the one for which the selector is not well formed. -/
theorem lexemes_progress (selector : String) :
    let text := selector.toList
    let row := lexemes text
    (row.map (offsetOf text ·.start) = (cursors selector).dropLast ∧
      (cursors selector).head? = some 0 ∧ (cursors selector).Pairwise (· < ·) ∧
      (cursors selector).getLast? = some selector.utf8ByteSize ∧
      ∀ offset ∈ cursors selector, (String.Pos.Raw.mk offset).IsValid selector) ∧
    (∀ flaw ∈ flaws selector,
      flaw.offset < selector.utf8ByteSize ∧ (String.Pos.Raw.mk flaw.offset).IsValid selector ∧
        ∀ c, flaw.kind = .unexpectedChar c → ∃ before after,
          selector = before ++ String.singleton c ++ after ∧ flaw.offset = before.utf8ByteSize) ∧
    ((flaws selector).Pairwise (·.offset ≤ ·.offset) ∧
      flaws selector =
        ((({} : Draft).complaints row ++ row.flatMap Lexeme.faults).map (Fault.flaw text)).mergeSort
          fun a b => a.offset ≤ b.offset) ∧
    ∀ error, parseWellFormed selector = .error error ↔
      error.selector = selector ∧ (flaws selector).head? = some error.flaw := by
  intro text row
  have cut : cursors selector =
      row.map (offsetOf text ·.start) ++ [selector.utf8ByteSize] := by
    rw [cursors, ← stops_eq, List.map_append, List.map_map, List.map_singleton, offsetOf_end]
    rfl
  refine ⟨⟨?_, ?_, pairwise_cursors selector, ?_, ?_⟩, fun flaw member => exists_of_flaw member,
    ⟨pairwise_flaws selector, flaws_eq_mergeSort selector⟩,
    fun error => parseWellFormed_eq_error_iff⟩
  · rw [cut, List.dropLast_concat]
  · rw [cursors, stops, List.map_cons, List.head?_cons, offsetOf_self]
  · rw [cut, List.getLast?_concat]
  · intro offset member
    obtain ⟨place, among, rfl⟩ := List.mem_map.mp member
    exact isValid_offsetOf (suffix_of_mem_stops among)

/-- The unexpected `&` stands after two characters of two bytes each and two combinators. -/
theorem lexemes_progress_wide :
    let selector := "éü>>&[a"
    cursors selector = [0, 4, 5, 6, 7, 9] ∧
      flaws selector = [⟨.repeatedCombinator, 5⟩, ⟨.unexpectedChar '&', 6⟩, ⟨.openAttribute, 7⟩] ∧
      (∃ before after, selector = before ++ String.singleton '&' ++ after ∧
        6 = before.utf8ByteSize) ∧
      parseWellFormed selector = .error ⟨selector, ⟨.repeatedCombinator, 5⟩⟩ := by
  intro selector
  have found : flaws selector =
      [⟨.repeatedCombinator, 5⟩, ⟨.unexpectedChar '&', 6⟩, ⟨.openAttribute, 7⟩] := by
    decide +kernel
  obtain ⟨-, placed, -, fails⟩ := lexemes_progress selector
  refine ⟨by decide +kernel, found, ?_, (fails _).mpr ⟨rfl, by rw [found]; rfl⟩⟩
  exact (placed ⟨.unexpectedChar '&', 6⟩ (by rw [found]; simp)).2.2 '&' rfl

end TreeSelectors
