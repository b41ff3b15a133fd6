import TreeSelectors.Selector.Parse

/-!
  Every argument in a parsed selector holds fewer opening parentheses than the selector. Its length
  is no such measure, for an argument that is cut off gets closers appended. Main statement:
  `parens_argument_lt`.
-/

namespace TreeSelectors

/-- The opening parentheses of a text. -/
def parens (text : String) : Nat := text.toList.count '('

theorem count_paren_trimUnescaped_le (text : List Char) :
    (trimUnescaped text).count '(' ≤ text.count '(' := by
  have start := (Text.trimStart_suffix text).sublist.count_le '('
  have trimmed := Text.trimEnd_prefix (Text.trimStart text)
  unfold trimUnescaped
  simp only
  split
  · exact Nat.le_trans (trimmed.sublist.count_le '(') start
  · refine Nat.le_trans ?_ start
    obtain ⟨tail, whole⟩ := trimmed
    generalize Text.trimEnd (Text.trimStart text) = front at whole
    rw [← whole, List.drop_left]
    simp only [List.count_append]
    exact Nat.add_le_add_left ((List.take_sublist 1 tail).count_le '(') _

/-- A quote inside an argument is a double or a single one. -/
def Nesting.QuoteOk (nesting : Nesting) : Prop :=
  ∀ quote ∈ nesting.quote, quote = '"' ∨ quote = '\''

theorem Nesting.QuoteOk.step {nesting next : Nesting} {c : Char} (ok : nesting.QuoteOk)
    (stepped : nesting.step c = some next) : next.QuoteOk := by
  unfold Nesting.step at stepped
  split at stepped
  · split at stepped <;> simp_all [QuoteOk, eq_comm]
  · grind [QuoteOk]

theorem Nesting.QuoteOk.count_closers {nesting : Nesting} (ok : nesting.QuoteOk) :
    nesting.closers.count '(' = 0 := by
  have quote : nesting.quote.toList.count '(' = 0 := by
    cases h : nesting.quote with
    | none => rfl
    | some quote => rcases ok quote h with rfl | rfl <;> decide
  simp [Nesting.closers, List.count_append, List.count_replicate, quote]

theorem count_paren_scanArgument_le (nesting : Nesting) (text : List Char) :
    (scanArgument nesting text).1.count '(' ≤ text.count '(' := by
  fun_induction scanArgument nesting text with
  | case1 => simp
  | case2 => simp
  | case3 nesting c text taken ending found ih =>
    simp only [found] at ih
    simp only [List.count_cons]
    omega
  | case4 => simp
  | case5 nesting c text _ _ next stepped taken ending found ih =>
    simp only [found] at ih
    simp only [List.count_cons]
    omega

theorem quoteOk_of_cutOff {nesting final : Nesting} {text taken : List Char} (ok : nesting.QuoteOk)
    (cutOff : scanArgument nesting text = (taken, .cutOff final)) : final.QuoteOk := by
  fun_induction scanArgument nesting text generalizing taken with
  | case1 => simp_all
  | case2 => simp_all
  | case3 nesting c text below ending found ih =>
    simp only [Prod.mk.injEq] at cutOff
    exact ih ok (found.trans (by rw [cutOff.2]))
  | case4 => simp at cutOff
  | case5 nesting c text _ _ next stepped below ending found ih =>
    simp only [Prod.mk.injEq] at cutOff
    exact ih (ok.step stepped) (found.trans (by rw [cutOff.2]))

theorem count_paren_readArgument_le (text : List Char) :
    (readArgument text).value.count '(' ≤ text.count '(' := by
  have scanned := count_paren_scanArgument_le {} text
  unfold readArgument
  split
  · next taken rest found =>
    exact Nat.le_trans (count_paren_trimUnescaped_le taken) (by simpa [found] using scanned)
  · next taken nesting found =>
    have ok : nesting.QuoteOk := quoteOk_of_cutOff (by simp [Nesting.QuoteOk]) found
    simp only [List.count_append, ok.count_closers, Nat.add_zero]
    exact Nat.le_trans (count_paren_trimUnescaped_le taken) (by simpa [found] using scanned)

theorem parens_readPseudo_lt {start text : List Char} {arg : String}
    (present : (readPseudo start text).value.arg = some arg) : parens arg < text.count '(' := by
  have name := (readName_rest_suffix start (readColon start text).rest).trans
    (readColon_rest_suffix start text)
  have here := name.sublist.count_le '('
  change (readArgument? start (readName start (readColon start text).rest).rest).value = some arg
    at present
  generalize (readName start (readColon start text).rest).rest = rest at here present
  unfold readArgument? at present
  split at present
  · next rest =>
    simp only [Option.some.injEq] at present
    have := count_paren_readArgument_le rest
    simp only [← present, parens, String.toList_ofList]
    simp only [List.count_cons_self] at here
    omega
  · simp at present

theorem parens_readLexeme_lt {c : Char} {text : List Char} {pseudo : Pseudo} {arg : String}
    (token : (readLexeme c text).token = .pseudo pseudo) (present : pseudo.arg = some arg) :
    parens arg < (c :: text).count '(' := by
  unfold readLexeme Reading.lexeme at token
  simp only at token
  split at token
  · simp at token
  · split at token <;> try simp at token
    · subst token
      exact Nat.lt_of_lt_of_le (parens_readPseudo_lt present) (by simp)
    · split at token <;> simp at token

theorem parens_lexemes_lt {text : List Char} {pseudo : Pseudo} {arg : String}
    (token : .pseudo pseudo ∈ (lexemes text).map Lexeme.token) (present : pseudo.arg = some arg) :
    parens arg < text.count '(' := by
  fun_induction lexemes text with
  | case1 => simp at token
  | case2 c text lexeme ih =>
    simp only [List.map_cons, List.mem_cons] at token
    rcases token with here | later
    · exact parens_readLexeme_lt here.symm present
    · exact Nat.lt_of_lt_of_le (ih later)
        (((readLexeme_rest_suffix c text).trans (List.suffix_cons c text)).sublist.count_le '(')

namespace Draft

theorem mem_pseudos_add {draft : Draft} {token : Token} {pseudo : Pseudo}
    (member : pseudo ∈ (draft.add token).part.pseudos) :
    pseudo ∈ draft.part.pseudos ∨ token = .pseudo pseudo := by
  cases token <;> simp_all [add, eq_comm]

theorem mem_pseudos_step {draft : Draft} {token : Token} {pseudo : Pseudo}
    (member : pseudo ∈ (draft.step token).2.part.pseudos) :
    pseudo ∈ draft.part.pseudos ∨ token = .pseudo pseudo := by
  unfold step at member
  split at member
  · split at member <;> simp_all
  · simp at member
  · split at member
    · exact .inl member
    · exact mem_pseudos_add member

theorem step_completes {draft : Draft} {token : Token} {part : Part}
    (completed : (draft.step token).1 = some part) : part = draft.part := by
  unfold step completed? at completed
  split at completed <;> (try split at completed) <;> simp_all

/-- Each pseudo-class of a part was a token. -/
theorem mem_pseudos_parts {draft : Draft} {tokens : List Token} {part : Part} {pseudo : Pseudo}
    (built : part ∈ draft.parts tokens) (member : pseudo ∈ part.pseudos) :
    pseudo ∈ draft.part.pseudos ∨ .pseudo pseudo ∈ tokens := by
  induction tokens generalizing draft with
  | nil =>
    unfold parts at built
    split at built
    · simp at built
    · exact .inl (List.mem_singleton.mp built ▸ member)
  | cons token tokens ih =>
    simp only [parts, List.mem_append, Option.mem_toList] at built
    rcases built with now | later
    · exact .inl (step_completes now ▸ member)
    · rcases ih later with held | found
      · rcases mem_pseudos_step held with before | here
        · exact .inl before
        · exact .inr (here ▸ List.mem_cons_self)
      · exact .inr (List.mem_cons_of_mem token found)

end Draft

/-- Reading the arguments of arguments comes to an end. -/
theorem parens_argument_lt {selector arg : String} {part : Part} (parsed : part ∈ parse selector)
    (member : arg ∈ part.arguments) : parens arg < parens selector := by
  obtain ⟨pseudo, among, present⟩ := List.mem_filterMap.mp member
  rcases Draft.mem_pseudos_parts parsed among with held | found
  · simp at held
  · exact parens_lexemes_lt found present

end TreeSelectors
