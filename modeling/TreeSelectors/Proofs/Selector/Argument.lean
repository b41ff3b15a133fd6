import TreeSelectors.Selector.Parens

/-!
  Arguments read back. A text leads from one nesting to another when scanning goes through all of it
  (`Leads`); an argument leads from nothing open to nothing open and has nothing to trim, which makes
  it read as itself when it is written in parentheses (`IsArgument.readArgument_append`). Every
  argument that is ever read is of that kind, the completed ones included
  (`isArgument_readArgument`).
-/

namespace TreeSelectors

/-- Scanning goes through the whole text, escapes included, and ends with `final` open. -/
inductive Leads : Nesting → List Char → Nesting → Prop
  | nil {nesting : Nesting} : Leads nesting [] nesting
  | escaped {nesting final : Nesting} {c : Char} {text : List Char} :
      Leads nesting text final → Leads nesting ('\\' :: c :: text) final
  | plain {nesting next final : Nesting} {c : Char} {text : List Char} :
      c ≠ '\\' → nesting.step c = some next → Leads next text final →
        Leads nesting (c :: text) final

/-- What is open where an argument ends. -/
def ArgumentEnd.nesting : ArgumentEnd → Nesting
  | .closed _ => {}
  | .cutOff nesting => nesting

/-- A text that ends in a backslash which escapes whatever comes next. -/
def endsEscaping (text : List Char) : Bool :=
  text.foldl (fun escaping c => !escaping && c == '\\') false

/-! ## Scanning -/

theorem scanArgument_cons {nesting : Nesting} {c : Char} (plain : c ≠ '\\') (text : List Char) :
    scanArgument nesting (c :: text) =
      match nesting.step c with
      | none => ([], .closed text)
      | some next => (c :: (scanArgument next text).1, (scanArgument next text).2) := by
  exact scanArgument.eq_4 nesting c text (by simp_all) (by simp_all)

theorem Leads.scanArgument_append {nesting final : Nesting} {text : List Char}
    (leads : Leads nesting text final) (rest : List Char) :
    scanArgument nesting (text ++ rest) =
      (text ++ (scanArgument final rest).1, (scanArgument final rest).2) := by
  induction leads with
  | nil => rfl
  | escaped _ ih => simp [scanArgument, ih]
  | plain plain stepped _ ih => simp [scanArgument_cons plain, stepped, ih]

theorem Leads.append {nesting middle final : Nesting} {front back : List Char}
    (before : Leads nesting front middle) (after : Leads middle back final) :
    Leads nesting (front ++ back) final := by
  induction before with
  | nil => exact after
  | escaped _ ih => exact .escaped (ih after)
  | plain plain stepped _ ih => exact .plain plain stepped (ih after)

/-- Characters that open and close nothing lead on with the same open. -/
theorem leads_of_stays {nesting : Nesting} {text : List Char}
    (stays : ∀ c ∈ text, c ≠ '\\' ∧ nesting.step c = some nesting) :
    Leads nesting text nesting := by
  induction text with
  | nil => exact .nil
  | cons c text ih =>
    obtain ⟨here, later⟩ := List.forall_mem_cons.mp stays
    exact .plain here.1 here.2 (ih later)

/-- Only a closing parenthesis ends an argument, and only where nothing is open. -/
theorem Nesting.step_eq_none {nesting : Nesting} {c : Char} (ends : nesting.step c = none) :
    nesting = {} ∧ c = ')' := by
  obtain ⟨parens, brackets, quote⟩ := nesting
  unfold Nesting.step at ends
  cases quote with
  | some quote => simp at ends
  | none => grind

theorem leads_scanArgument (nesting : Nesting) (text : List Char) :
    Leads nesting (scanArgument nesting text).1 (scanArgument nesting text).2.nesting := by
  fun_induction scanArgument nesting text with
  | case1 => exact .nil
  | case2 => exact .nil
  | case3 nesting c text taken ending found ih =>
    rw [found] at ih
    exact .escaped ih
  | case4 nesting c text _ _ ended =>
    obtain ⟨rfl, -⟩ := Nesting.step_eq_none ended
    exact .nil
  | case5 nesting c text dangling escape next stepped taken ending found ih =>
    rw [found] at ih
    refine .plain ?_ stepped ih
    rintro rfl
    cases text with
    | nil => exact dangling rfl rfl
    | cons c text => exact escape c text rfl rfl

/-! ## Cutting a text in two -/

theorem endsEscaping_cons {c : Char} (plain : c ≠ '\\') (text : List Char) :
    endsEscaping (c :: text) = endsEscaping text := by
  simp [endsEscaping, List.foldl_cons, beq_false_of_ne plain]

theorem endsEscaping_concat (text : List Char) (c : Char) :
    endsEscaping (text ++ [c]) = (!endsEscaping text && c == '\\') := by
  simp [endsEscaping, List.foldl_append]

/-- An odd run of backslashes at the end escapes, an even one does not. -/
theorem endsEscaping_reverse (text : List Char) :
    endsEscaping text.reverse = decide ((text.takeWhile (· = '\\')).length % 2 = 1) := by
  induction text with
  | nil => rfl
  | cons c text ih =>
    rw [List.reverse_cons, endsEscaping_concat, ih, List.takeWhile_cons]
    by_cases escape : c = '\\'
    · simp only [escape, decide_true, ↓reduceIte, List.length_cons, beq_self_eq_true, Bool.and_true]
      grind
    · simp [escape]

theorem Leads.endsEscaping {nesting final : Nesting} {text : List Char}
    (leads : Leads nesting text final) : endsEscaping text = false := by
  induction leads with
  | nil => rfl
  | escaped _ ih => exact ih
  | plain plain _ _ ih => rw [endsEscaping_cons plain, ih]

/-- A cut goes between two characters that are read apart, or through an escape. -/
theorem Leads.split {nesting final : Nesting} {front back : List Char}
    (leads : Leads nesting (front ++ back) final) :
    (TreeSelectors.endsEscaping front = false ∧
      ∃ middle, Leads nesting front middle ∧ Leads middle back final) ∨
    (TreeSelectors.endsEscaping front = true ∧
      ∃ c rest middle, back = c :: rest ∧ Leads nesting (front ++ [c]) middle ∧
        Leads middle rest final) := by
  generalize whole : front ++ back = text at leads
  induction leads generalizing front with
  | nil =>
    obtain ⟨rfl, rfl⟩ := List.append_eq_nil_iff.mp whole
    exact .inl ⟨rfl, _, .nil, .nil⟩
  | @escaped nesting final c text leads ih =>
    rcases front with _ | ⟨_, _ | ⟨_, front⟩⟩
    · obtain rfl : back = _ := whole
      exact .inl ⟨rfl, _, .nil, .escaped leads⟩
    · obtain ⟨rfl, rfl⟩ := List.cons.inj whole
      exact .inr ⟨rfl, c, text, nesting, rfl, .escaped .nil, leads⟩
    · simp only [List.cons_append, List.cons.injEq] at whole
      obtain ⟨rfl, rfl, below⟩ := whole
      rcases ih below with ⟨closed, middle, before, after⟩ |
        ⟨cut, c, rest, middle, same, before, after⟩
      · exact .inl ⟨closed, middle, .escaped before, after⟩
      · exact .inr ⟨cut, c, rest, middle, same, .escaped before, after⟩
  | @plain nesting next final c text plain stepped leads ih =>
    rcases front with _ | ⟨_, front⟩
    · obtain rfl : back = _ := whole
      exact .inl ⟨rfl, _, .nil, .plain plain stepped leads⟩
    · obtain ⟨rfl, below⟩ := List.cons.inj whole
      rw [endsEscaping_cons plain]
      rcases ih below with ⟨closed, middle, before, after⟩ |
        ⟨cut, c, rest, middle, same, before, after⟩
      · exact .inl ⟨closed, middle, .plain plain stepped before, after⟩
      · exact .inr ⟨cut, c, rest, middle, same, .plain plain stepped before, after⟩

/-! ## Trimming -/

theorem ne_escape_of_isWhite {c : Char} (white : Text.isWhite c = true) : c ≠ '\\' := by
  rintro rfl
  exact absurd white (by decide)

/-- The characters that open or close something. -/
def Nesting.marks : List Char := ['"', '\'', '[', ']', '(', ')']

theorem not_mem_marks {kind : Char → Bool} {c : Char} (holds : kind c = true)
    (apart : Nesting.marks.all (!kind ·) = true) : c ∉ Nesting.marks := by
  intro member
  have other := List.all_eq_true.mp apart c member
  simp [holds] at other

theorem Nesting.step_of_not_mem {nesting : Nesting} {c : Char} (ok : nesting.QuoteOk)
    (other : c ∉ marks) : nesting.step c = some nesting := by
  simp only [marks, List.mem_cons, List.not_mem_nil, or_false, not_or] at other
  obtain ⟨parens, brackets, quote⟩ := nesting
  cases quote with
  | none => simp [Nesting.step, other]
  | some quote =>
    have apart : c ≠ quote := by
      rcases ok quote rfl with rfl | rfl
      · exact other.1
      · exact other.2.1
    simp [Nesting.step, apart]

/-- White space opens and closes nothing. -/
theorem Nesting.step_of_isWhite {nesting : Nesting} {c : Char} (ok : nesting.QuoteOk)
    (white : Text.isWhite c = true) : nesting.step c = some nesting :=
  Nesting.step_of_not_mem ok (not_mem_marks white (by decide))

theorem Leads.quoteOk {nesting final : Nesting} {text : List Char}
    (leads : Leads nesting text final) (ok : nesting.QuoteOk) : final.QuoteOk := by
  induction leads with
  | nil => exact ok
  | escaped _ ih => exact ih ok
  | plain _ stepped _ ih => exact ih (ok.step stepped)

theorem Leads.eq_of_white {nesting final : Nesting} {text : List Char}
    (leads : Leads nesting text final) (ok : nesting.QuoteOk)
    (white : ∀ c ∈ text, Text.isWhite c = true) : final = nesting := by
  induction leads with
  | nil => rfl
  | escaped =>
    exact absurd rfl (ne_escape_of_isWhite (white '\\' List.mem_cons_self))
  | plain _ stepped _ ih =>
    rw [Nesting.step_of_isWhite ok (white _ List.mem_cons_self)] at stepped
    obtain rfl := Option.some.inj stepped
    exact ih ok fun c member => white c (List.mem_cons_of_mem _ member)

theorem quoteOk_empty : ({} : Nesting).QuoteOk := by simp [Nesting.QuoteOk]

theorem Leads.trimStart {final : Nesting} {text : List Char} (leads : Leads {} text final) :
    Leads {} (Text.trimStart text) final := by
  generalize opened : ({} : Nesting) = nesting at leads
  induction leads with
  | nil => exact .nil
  | escaped leads ih =>
    have kept : Text.isWhite '\\' = false := by decide
    subst opened
    simpa [Text.trimStart, List.dropWhile_cons, kept] using .escaped leads
  | @plain nesting next final c text plain stepped leads ih =>
    subst opened
    rw [Text.trimStart, List.dropWhile_cons]
    split
    · next white =>
      rw [Nesting.step_of_isWhite quoteOk_empty white] at stepped
      obtain rfl := Option.some.inj stepped
      exact ih rfl
    · exact .plain plain stepped leads

theorem exists_trimEnd_append (text : List Char) :
    ∃ tail, (∀ c ∈ tail, Text.isWhite c = true) ∧ Text.trimEnd text ++ tail = text := by
  refine ⟨(text.reverse.takeWhile Text.isWhite).reverse, fun c member => ?_, ?_⟩
  · exact List.all_eq_true.mp List.all_takeWhile c (List.mem_reverse.mp member)
  · rw [Text.trimEnd, ← List.reverse_append, List.takeWhile_append_dropWhile, List.reverse_reverse]

/-- Trimming keeps the first character of the white space that it cuts off when that character is
    escaped. -/
theorem trimUnescaped_eq {text kept tail : List Char} (start : Text.trimStart text = kept ++ tail)
    (trimmed : Text.trimEnd (kept ++ tail) = kept) :
    trimUnescaped text = if endsEscaping kept then kept ++ tail.take 1 else kept := by
  have parity := endsEscaping_reverse kept.reverse
  rw [List.reverse_reverse] at parity
  simp only [trimUnescaped, start, trimmed, parity, List.drop_left, decide_eq_true_eq]
  grind

/-- What is left after trimming still goes all the way, and has nothing to trim. Only white space is
    cut off, and it opens and closes nothing. -/
theorem Leads.trimUnescaped {final : Nesting} {text : List Char} (leads : Leads {} text final) :
    Leads {} (trimUnescaped text) final := by
  have body := leads.trimStart
  obtain ⟨tail, white, whole⟩ := exists_trimEnd_append (Text.trimStart text)
  generalize kept : Text.trimEnd (Text.trimStart text) = front at whole
  rw [trimUnescaped_eq whole.symm (whole.symm ▸ kept)]
  rw [← whole] at body
  rcases body.split with ⟨closed, middle, before, after⟩ |
    ⟨cut, c, rest, middle, rfl, before, after⟩
  · obtain rfl := after.eq_of_white (before.quoteOk quoteOk_empty) white
    simpa [closed] using before
  · obtain rfl := after.eq_of_white (before.quoteOk quoteOk_empty)
      fun c member => white c (List.mem_cons_of_mem _ member)
    simpa [cut] using before

/-- No white space at either end but what is escaped. -/
structure IsTrimmed (text : List Char) : Prop where
  first : ∀ c ∈ text.head?, Text.isWhite c = false
  last : ∀ c ∈ text.getLast?, Text.isWhite c = true → endsEscaping text.dropLast = true

theorem head?_trimStart (text : List Char) :
    ∀ c ∈ (Text.trimStart text).head?, Text.isWhite c = false := by
  intro c member
  have first := List.head?_dropWhile_not Text.isWhite text
  rw [Text.trimStart, Option.mem_def] at member
  simpa [member] using first

theorem getLast?_trimEnd (text : List Char) :
    ∀ c ∈ (Text.trimEnd text).getLast?, Text.isWhite c = false := by
  intro c member
  rw [Text.trimEnd, List.getLast?_reverse] at member
  exact head?_trimStart text.reverse c member

theorem isTrimmed_trimUnescaped (text : List Char) : IsTrimmed (trimUnescaped text) := by
  obtain ⟨tail, white, whole⟩ := exists_trimEnd_append (Text.trimStart text)
  have first := head?_trimStart text
  have last := getLast?_trimEnd (Text.trimStart text)
  generalize kept : Text.trimEnd (Text.trimStart text) = front at whole last
  rw [trimUnescaped_eq whole.symm (whole.symm ▸ kept)]
  rw [← whole] at first
  have head : ∀ c ∈ front.head?, Text.isWhite c = false := by
    intro c member
    cases front with
    | nil => simp at member
    | cons => exact first c member
  split
  · next cut =>
    cases tail with
    | nil => exact ⟨by simpa using head, fun c member space => by simp_all⟩
    | cons c tail =>
      have nonempty : front ≠ [] := by
        rintro rfl
        simp [endsEscaping] at cut
      constructor
      · intro d member
        exact head d (by simpa [List.head?_append, List.head?_eq_some_head nonempty] using member)
      · simp [cut]
  · exact ⟨head, fun c member space => by simp_all⟩

theorem trimStart_eq_self {text : List Char}
    (first : ∀ c ∈ text.head?, Text.isWhite c = false) : Text.trimStart text = text := by
  cases text with
  | nil => rfl
  | cons c text => simp [Text.trimStart, first c rfl]

theorem trimEnd_eq_self {text : List Char}
    (last : ∀ c ∈ text.getLast?, Text.isWhite c = false) : Text.trimEnd text = text := by
  have reversed : Text.trimStart text.reverse = text.reverse :=
    trimStart_eq_self (by simpa [List.head?_reverse] using last)
  rw [Text.trimEnd, ← Text.trimStart, reversed, List.reverse_reverse]

theorem trimEnd_concat {c : Char} (white : Text.isWhite c = true) (text : List Char) :
    Text.trimEnd (text ++ [c]) = Text.trimEnd text := by
  simp [Text.trimEnd, white]

theorem getLast?_of_endsEscaping {text : List Char} (escaping : endsEscaping text = true) :
    text.getLast? = some '\\' := by
  rcases List.eq_nil_or_concat text with rfl | ⟨front, c, rfl⟩
  · simp [endsEscaping] at escaping
  · rw [List.concat_eq_append, endsEscaping_concat] at escaping
    simp_all

/-- A trimmed text may end in white space that is escaped: trimming stops at the backslash and puts
    it back. -/
theorem trimUnescaped_eq_self {text : List Char} (trimmed : IsTrimmed text)
    (complete : endsEscaping text = false) : trimUnescaped text = text := by
  have start := trimStart_eq_self trimmed.first
  rcases List.eq_nil_or_concat text with rfl | ⟨front, c, rfl⟩
  · rfl
  · rw [List.concat_eq_append] at *
    cases white : Text.isWhite c with
    | false =>
      have whole : Text.trimEnd (front ++ [c] ++ []) = front ++ [c] := by
        rw [List.append_nil]
        exact trimEnd_eq_self (by simp [white])
      rw [trimUnescaped_eq (by simpa using start) whole, complete]
      rfl
    | true =>
      have escaping : endsEscaping front = true := by
        simpa using trimmed.last c (by simp) white
      have cut : Text.trimEnd (front ++ [c]) = front := by
        rw [trimEnd_concat white]
        refine trimEnd_eq_self fun d member => ?_
        obtain rfl := Option.some.inj (member.symm.trans (getLast?_of_endsEscaping escaping))
        decide
      rw [trimUnescaped_eq start cut, escaping]
      rfl

/-! ## Completing -/

theorem leads_replicate_bracket (parens brackets : Nat) :
    Leads ⟨parens, brackets, none⟩ (List.replicate brackets ']') ⟨parens, 0, none⟩ := by
  induction brackets with
  | zero => exact .nil
  | succ brackets ih => exact .plain (by decide) (by simp [Nesting.step]) ih

theorem leads_replicate_paren (parens : Nat) :
    Leads ⟨parens, 0, none⟩ (List.replicate parens ')') {} := by
  induction parens with
  | zero => exact .nil
  | succ parens ih => exact .plain (by decide) (by simp [Nesting.step]) ih

theorem Nesting.QuoteOk.leads_closers {nesting : Nesting} (ok : nesting.QuoteOk) :
    Leads nesting nesting.closers {} := by
  obtain ⟨parens, brackets, quote⟩ := nesting
  have rest := (leads_replicate_bracket parens brackets).append (leads_replicate_paren parens)
  cases quote with
  | none => simpa [Nesting.closers] using rest
  | some quote =>
    have plain : quote ≠ '\\' := by rcases ok quote rfl with rfl | rfl <;> decide
    have closed : Leads ⟨parens, brackets, some quote⟩ [quote] ⟨parens, brackets, none⟩ :=
      .plain plain (by simp [Nesting.step]) .nil
    simpa [Nesting.closers] using closed.append rest

theorem Nesting.QuoteOk.isWhite_closers {nesting : Nesting} (ok : nesting.QuoteOk) :
    ∀ c ∈ nesting.closers, Text.isWhite c = false := by
  intro c member
  simp only [Nesting.closers, List.mem_append, Option.mem_toList, List.mem_replicate] at member
  rcases member with (quote | ⟨-, rfl⟩) | ⟨-, rfl⟩
  · rcases ok c quote with rfl | rfl <;> decide
  · decide
  · decide

theorem IsTrimmed.append {text closers : List Char} (trimmed : IsTrimmed text)
    (solid : ∀ c ∈ closers, Text.isWhite c = false) : IsTrimmed (text ++ closers) := by
  constructor
  · intro c member
    cases text with
    | nil => exact solid c (List.mem_of_mem_head? member)
    | cons => exact trimmed.first c member
  · intro c member white
    rcases List.eq_nil_or_concat closers with rfl | ⟨front, d, rfl⟩
    · simpa using trimmed.last c (by simpa using member) white
    · have same : d = c := by simpa [← List.append_assoc] using member
      exact absurd white (by simp [solid c (by simp [same])])

/-! ## Reading back -/

/-- A text that is read as itself between parentheses. -/
structure IsArgument (text : List Char) : Prop where
  leads : Leads {} text {}
  trimmed : IsTrimmed text

theorem Leads.readArgument_append {text : List Char} (leads : Leads {} text {})
    (rest : List Char) :
    readArgument (text ++ ')' :: rest) = ⟨TreeSelectors.trimUnescaped text, false, rest⟩ := by
  have closed : scanArgument {} (')' :: rest) = ([], .closed rest) := by
    rw [scanArgument_cons (by decide)]
    rfl
  have scanned := leads.scanArgument_append (')' :: rest)
  rw [closed, List.append_nil] at scanned
  rw [readArgument, scanned]

theorem IsArgument.readArgument_append {text : List Char} (argument : IsArgument text)
    (rest : List Char) : readArgument (text ++ ')' :: rest) = ⟨text, false, rest⟩ := by
  rw [argument.leads.readArgument_append,
    trimUnescaped_eq_self argument.trimmed argument.leads.endsEscaping]

theorem isArgument_readArgument (text : List Char) : IsArgument (readArgument text).value := by
  have leads := leads_scanArgument {} text
  unfold readArgument
  split
  · next taken rest found =>
    rw [found] at leads
    exact ⟨leads.trimUnescaped, isTrimmed_trimUnescaped taken⟩
  · next taken final found =>
    rw [found] at leads
    have ok : final.QuoteOk := leads.quoteOk quoteOk_empty
    exact ⟨leads.trimUnescaped.append ok.leads_closers,
      (isTrimmed_trimUnescaped taken).append ok.isWhite_closers⟩

end TreeSelectors
