import TreeSelectors.Proofs.Selector.WellFormed

/-!
  What a host is asked for a group. A group is completed when its last character is that of a
  combinator, whatever that character belongs to. Before the `*` a well-formed group is read as it
  is alone, so all of its parts are asked for; but where a backslash makes the character part of a
  name, the `*` is one part more. Main statement: `Request.parseWellFormed_ofGroups`.
-/

namespace TreeSelectors

/-! ## Ends -/

theorem isEnd_star : IsEnd [' ', '*'] := ⟨by simp [isNameChar]; decide, by decide, by decide⟩

theorem lexemes_star : (lexemes [' ', '*']).map Lexeme.token = [.blank, .universal] ∧
    ∀ lexeme ∈ lexemes [' ', '*'], lexeme.faults = [] := by
  decide +kernel

/-- After a symbol nothing is escaped. -/
theorem IsSymbol.complete {text front : List Char} {c : Char} (symbol : IsSymbol c)
    (whole : text = front ++ [c]) : endsEscaping text = false := by
  simp [whole, endsEscaping_concat, symbol.ne_backslash]

theorem IsSymbol.meetApart {text front : List Char} {c : Char} (symbol : IsSymbol c)
    (whole : text = front ++ [c]) (one : List Char) : MeetApart text one := by
  intro blank
  simp [whole, symbol.isBlank] at blank

/-- Only blanks and combinators are separators. -/
theorem rest_of_separator {x : Char} {text : List Char}
    (separator : (readLexeme x text).token.isSeparator = true) :
    (Text.isBlank x = true ∧ (readLexeme x text).rest = skipBlanks text) ∨
      (readLexeme x text).rest = text := by
  unfold readLexeme at separator ⊢
  split at separator
  · next blank => exact .inl ⟨blank, by simp [blank]⟩
  · next solid =>
    simp only [solid, Bool.false_eq_true, if_false]
    split at separator
    · exact .inr rfl
    · exact .inr rfl
    · exact .inr rfl
    · exact .inr rfl
    · cases separator
    · cases separator
    · cases separator
    · cases separator
    · split at separator
      · cases separator
      · cases separator

/-- A separator at the end of a text takes no escaped character. -/
theorem isSeparator_eq_false_of_escaped {x : Char} {text : List Char}
    (last : (readLexeme x text).rest = []) (escaped : endsEscaping (x :: text).dropLast = true)
    (apart : MeetApart (x :: text) [' ', '*']) :
    (readLexeme x text).token.isSeparator = false := by
  by_contra other
  cases rest_of_separator (by simpa using other) with
  | inl blanks =>
    obtain ⟨blank, skipped⟩ := blanks
    have all := List.dropWhile_eq_nil_iff.mp (skipped.symm.trans last)
    exact absurd (apart.head?_of_blanks (List.forall_mem_cons.mpr ⟨blank, all⟩)) (by decide)
  | inr whole =>
    rw [whole.symm.trans last] at escaped
    cases escaped

/-- The last token is no separator where a backslash escapes the last character. Each lexeme leaves
    a shorter text whose last character is still escaped, or none. -/
theorem exists_last_of_escaped {text : List Char}
    (clean : ∀ lexeme ∈ lexemes text, lexeme.faults = [])
    (escaped : endsEscaping text.dropLast = true) (complete : endsEscaping text = false)
    (apart : MeetApart text [' ', '*']) :
    ∃ row token, (lexemes text).map Lexeme.token = row ++ [token] ∧
      token.isSeparator = false := by
  induction size : text.length using Nat.strong_induction_on generalizing text with
  | _ length ih =>
    cases text with
    | nil => exact absurd escaped (by decide)
    | cons x text =>
      rw [lexemes] at clean
      obtain ⟨here, later⟩ := List.forall_mem_cons.mp clean
      have alone : text ++ [] = text := List.append_nil text
      obtain ⟨token, rest, reaches, read, -⟩ := readLexeme_swap isEnd_nil isEnd_nil complete
        (fun _ => rfl) (fun _ => rfl) (by rwa [alone])
      rw [alone, List.append_nil] at read
      have tokens_eq : (lexemes (x :: text)).map Lexeme.token =
          token :: (lexemes rest).map Lexeme.token := by
        rw [lexemes, read]
        rfl
      rw [tokens_eq]
      by_cases last : rest = []
      · subst last
        have component := isSeparator_eq_false_of_escaped (by rw [read]) escaped apart
        rw [read] at component
        exact ⟨[], token, by rw [lexemes]; rfl, component⟩
      · have less : rest.length < length := by
          have shorter := (readLexeme_rest_suffix x text).length_le
          rw [read] at shorter
          rw [← size, List.length_cons]
          exact Nat.lt_succ_of_le shorter
        rw [read] at later
        rw [(reaches.dropLast last).endsEscaping_eq] at escaped
        rw [reaches.endsEscaping_eq] at complete
        obtain ⟨row, final, shorter, component⟩ := ih rest.length less later escaped complete
          (apart.of_suffix reaches.suffix) rfl
        exact ⟨token :: row, final, by rw [shorter, List.cons_append], component⟩

/-! ## Drafts -/

namespace Draft

variable {draft final : Draft} {row : List Token} {token : Token} {built : List Part}

theorem Takes.isEmpty_concat (takes : Takes draft (row ++ [token]) built final)
    (writable : token.IsWritable) (solid : token.isSeparator = false) : final.isEmpty = false := by
  induction row generalizing draft built with
  | nil =>
    cases takes with
    | cons _ none =>
      cases none
      rw [step_of_solid writable solid]
      exact isEmpty_add writable solid
  | cons first row ih =>
    cases takes with
    | cons _ later => exact ih later

theorem isEmpty_step_blank (draft : Draft) : (draft.step .blank).2.isEmpty = true := by
  cases empty : draft.isEmpty with
  | true => simp [step, empty]
  | false =>
    simp only [step, empty]
    rfl

/-- Nobody complains about a `*` that stands apart. -/
theorem IsQuiet.star (quiet : draft.IsQuiet row) :
    draft.IsQuiet (row ++ [.blank, .universal]) := by
  obtain ⟨built, final, takes⟩ := quiet
  have star : (final.step .blank).2.complaint? .universal = none := by
    simp [complaint?, isEmpty_step_blank]
  exact ⟨_, _, takes.append (.cons rfl (.cons star .nil))⟩

/-- After a component it is a part of its own. -/
theorem Takes.parts_star (takes : Takes draft row built final) (full : final.isEmpty = false) :
    draft.parts (row ++ [.blank, .universal]) = draft.parts row ++ [({} : Part)] := by
  have first : final.step .blank = (some final.part, {}) := by simp [step, full]
  have star : Takes (final.step .blank).2 [.universal] [] { starred := true } := by
    rw [first]
    exact .cons rfl .nil
  have whole := takes.append (.cons rfl star)
  have last : final.parts [] = [final.part] := by simp [Draft.parts, full]
  have starred : Draft.parts { starred := true } [] = [({} : Part)] := rfl
  rw [takes.parts, whole.parts, first, last, starred, List.append_nil, List.append_assoc]
  exact (List.append_assoc built [final.part] [({} : Part)]).symm

end Draft

/-! ## Requests -/

theorem parseWellFormed_eq_ok_iff_isQuiet {selector : String} {parts : List Part} :
    parseWellFormed selector = .ok parts ↔
      (∀ lexeme ∈ lexemes selector.toList, lexeme.faults = []) ∧
        Draft.IsQuiet {} (tokens selector) ∧ ({} : Draft).parts (tokens selector) = parts := by
  rw [parseWellFormed_eq_ok_iff, flaws, List.map_eq_nil_iff, Draft.faults_eq_nil_iff, and_assoc]
  rfl

/-- The parts of a group that ends in a symbol, with a `*` after it. Where the symbol is escaped the
    last token takes it, so that the `*` is not what it relates. -/
theorem parts_tokens_star {group : String} {front : List Char} {c : Char}
    (whole : group.toList = front ++ [c]) (symbol : IsSymbol c)
    (clean : ∀ lexeme ∈ lexemes group.toList, lexeme.faults = [])
    (quiet : Draft.IsQuiet {} (tokens group)) :
    ({} : Draft).parts (tokens group ++ [.blank, .universal]) =
      if EndsEscaped group then ({} : Draft).parts (tokens group) ++ [({} : Part)]
      else ({} : Draft).parts (tokens group) := by
  split
  · next escaped =>
    rw [endsEscaped_iff] at escaped
    obtain ⟨row, token, last, solid⟩ := exists_last_of_escaped clean escaped.2
      (symbol.complete whole) (symbol.meetApart whole _)
    have same : tokens group = row ++ [token] := last
    have writable := isWritable_of_clean clean token (by simp [same])
    obtain ⟨built, final, takes⟩ := quiet
    have full := (same ▸ takes).isEmpty_concat writable solid
    exact takes.parts_star full
  · next plain =>
    have complete : endsEscaping front = false := by
      by_contra escaping
      exact plain ⟨front, c, whole, symbol, by simpa using escaping⟩
    rw [whole] at clean
    obtain ⟨row, read, -⟩ := lexemes_swap symbol.isEnd symbol.isEnd complete
      (fun _ => symbol.isBlank) (fun _ => symbol.isBlank) clean
    rw [symbol.lexemes_eq] at read
    rw [tokens, whole, read, List.append_assoc]
    exact parts_star symbol {} row

/-- What is asked for a well-formed group is well formed and has the parts of the group, and one
    more only where the group ends in an escaped symbol. -/
theorem Request.parseWellFormed_ofGroups {group : String}
    (trimmed : Text.trim group.toList = group.toList) {parts : List Part}
    (read : parseWellFormed group = .ok parts) (scopable : Bool) :
    (Request.ofGroups [group] scopable).groups.map parseWellFormed =
      [.ok (if EndsEscaped group then parts ++ [({} : Part)] else parts)] := by
  show [parseWellFormed (completeGroup group)] = _
  cases completeGroup_eq trimmed with
  | inl same => rw [same.1, read, if_neg same.2]
  | inr ends =>
    obtain ⟨front, c, whole, symbol, completed⟩ := ends
    obtain ⟨clean, quiet, rfl⟩ := parseWellFormed_eq_ok_iff_isQuiet.mp read
    have text : (completeGroup group).toList = group.toList ++ [' ', '*'] := by
      rw [completed, whole, String.toList_ofList, long, List.append_assoc]
      rfl
    obtain ⟨row, alone, longer, sound⟩ := lexemes_swap isEnd_nil isEnd_star
      (symbol.complete whole) (symbol.meetApart whole _) (symbol.meetApart whole _)
      (by rwa [List.append_nil])
    have star : tokens (completeGroup group) = tokens group ++ [.blank, .universal] := by
      rw [List.append_nil, lexemes, List.map_nil, List.append_nil] at alone
      rw [tokens, text, longer, lexemes_star.1, tokens, alone]
    have asked : parseWellFormed (completeGroup group) =
        .ok (({} : Draft).parts (tokens group ++ [.blank, .universal])) := by
      refine parseWellFormed_eq_ok_iff_isQuiet.mpr ⟨?_, ?_, ?_⟩
      · rw [text]
        exact sound lexemes_star.2
      · rw [star]
        exact quiet.star
      · rw [star]
    rw [asked, parts_tokens_star whole symbol clean quiet]

/-- A `*` that stands for any child is asked for. -/
theorem Request.parseWellFormed_ofGroups_child :
    (Request.ofGroups ["ul li >"] false).groups.map parseWellFormed =
      [.ok [{ tag := some ⟨"ul"⟩ }, { tag := some ⟨"li"⟩ }, { operator := .child }]] := by
  have read : parseWellFormed "ul li >" =
      .ok [{ tag := some ⟨"ul"⟩ }, { tag := some ⟨"li"⟩ }, { operator := .child }] := by
    decide +kernel
  have plain : ¬ EndsEscaped "ul li >" := by decide +kernel
  rw [Request.parseWellFormed_ofGroups (by decide +kernel) read false, if_neg plain]

/-- The tag `a>` has nothing to relate, and yet a `*` is asked for below it. -/
theorem Request.completes_escaped_symbol :
    parseWellFormed "a\\>" = .ok [{ tag := some ⟨"a>"⟩ }] ∧
      (Request.ofGroups ["a\\>"] true).groups = ["a\\> *"] ∧
      parseWellFormed "a\\> *" = .ok [{ tag := some ⟨"a>"⟩ }, {}] := by
  decide +kernel

end TreeSelectors
