import TreeSelectors.Document.Edit
import TreeSelectors.Proofs.Query.Retrieval
import TreeSelectors.Proofs.Selector.RoundTrip

/-!
  Negation through text. Whatever is written in a canonical text is closed in it, so that between
  the parentheses of `:not` it is taken to its end (`Part.leads_write`). It is taken as it is unless
  a name at one of its ends has white space there, for an argument is trimmed. Main statement:
  `accepts_not_canonical`.
-/

namespace TreeSelectors

/-! ## Nested texts -/

/-- What is open when a text stands inside more parentheses. -/
def Nesting.inParens (nesting : Nesting) (depth : Nat) : Nesting :=
  { nesting with parens := nesting.parens + depth }

theorem Nesting.step_inParens {nesting next : Nesting} {c : Char}
    (stepped : nesting.step c = some next) (depth : Nat) :
    (nesting.inParens depth).step c = some (next.inParens depth) := by
  obtain ⟨parens, brackets, quote⟩ := nesting
  unfold Nesting.step at stepped ⊢
  cases quote <;> simp only [inParens] at stepped ⊢
  · grind
  · grind

theorem Leads.inParens {nesting final : Nesting} {text : List Char}
    (leads : Leads nesting text final) (depth : Nat) :
    Leads (nesting.inParens depth) text (final.inParens depth) := by
  induction leads with
  | nil => exact .nil
  | escaped _ ih => exact .escaped ih
  | plain plain stepped _ ih => exact .plain plain (Nesting.step_inParens stepped depth) ih

/-! ## Written texts -/

theorem leads_escape {nesting : Nesting} {special : Char → Bool}
    (stays : ∀ c, special c = false → c ≠ '\\' ∧ nesting.step c = some nesting)
    (text : List Char) : Leads nesting (Text.escape special text) nesting := by
  induction text with
  | nil => exact .nil
  | cons c text ih =>
    rw [Text.escape]
    cases written : special c with
    | true => exact .escaped ih
    | false => exact .plain (stays c written).1 (stays c written).2 ih

/-- A character that is not written with a backslash opens and closes nothing. -/
theorem leads_writeName {nesting : Nesting} (ok : nesting.QuoteOk) (name : String) :
    Leads nesting (writeName name) nesting := by
  refine leads_escape (fun c written => ?_) name.toList
  have plain : isPlainChar c = true := by simpa using written
  refine ⟨?_, Nesting.step_of_not_mem ok (not_mem_marks plain (by decide))⟩
  rintro rfl
  exact absurd plain (by decide)

theorem leads_writeQuoted (parens brackets : Nat) (value : String) :
    Leads ⟨parens, brackets, none⟩ (writeQuoted value) ⟨parens, brackets, none⟩ := by
  have inside : Leads ⟨parens, brackets, some '"'⟩
      (Text.escape (fun c => c == '"' || c == '\\') value.toList) ⟨parens, brackets, some '"'⟩ := by
    refine leads_escape (fun c written => ?_) value.toList
    simp only [Bool.or_eq_false_iff, beq_eq_false_iff_ne] at written
    exact ⟨written.2, by simp [Nesting.step, written.1]⟩
  have closed : Leads ⟨parens, brackets, some '"'⟩ ['"'] ⟨parens, brackets, none⟩ :=
    .plain (by decide) (by simp [Nesting.step]) .nil
  exact .plain (by decide) (by simp [Nesting.step]) (inside.append closed)

theorem leads_symbol (op : Comparison) (brackets : Nat) :
    Leads ⟨0, brackets, none⟩ op.symbol.toList ⟨0, brackets, none⟩ := by
  have listed : ∀ c ∈ op.symbol.toList, c ∈ ['=', '*', '^', '$', '~', '|'] := by
    cases op <;> simp [Comparison.symbol]
  refine leads_of_stays fun c member => ?_
  replace member := listed c member
  simp only [List.mem_cons, List.not_mem_nil, or_false] at member
  rcases member with rfl | rfl | rfl | rfl | rfl | rfl <;>
    exact ⟨by decide, Nesting.step_of_not_mem (by simp [Nesting.QuoteOk]) (by decide)⟩

theorem AttrTest.leads_write (test : AttrTest) : Leads {} test.write {} := by
  have condition : Leads ⟨0, 1, none⟩
      (if test.op = .present then [] else test.op.symbol.toList ++ writeQuoted test.value)
      ⟨0, 1, none⟩ := by
    split
    · exact .nil
    · exact (leads_symbol _ 1).append (leads_writeQuoted 0 1 _)
  have closed : Leads ⟨0, 1, none⟩ [']'] {} := .plain (by decide) rfl .nil
  have name : Leads ⟨0, 1, none⟩ (writeName test.attr) ⟨0, 1, none⟩ :=
    leads_writeName (by simp [Nesting.QuoteOk]) _
  exact .plain (by decide) rfl ((name.append condition).append closed)

theorem Pseudo.IsWritable.leads_write {pseudo : Pseudo} (writable : pseudo.IsWritable) :
    Leads {} pseudo.write {} := by
  have name := leads_writeName quoteOk_empty pseudo.name
  refine .plain (by decide) rfl (name.append ?_)
  cases present : pseudo.arg with
  | none => exact .nil
  | some arg =>
    have inside := (writable.argument arg present).leads.inParens 1
    have closed : Leads ⟨1, 0, none⟩ [')'] {} := .plain (by decide) rfl .nil
    exact .plain (by decide) rfl (inside.append closed)

/-- A token closes all that it opens. -/
theorem Token.IsWritable.leads_write {token : Token} (writable : token.IsWritable) :
    Leads {} token.write {} := by
  cases token with
  | blank => exact .plain (by decide) rfl .nil
  | combinator operator =>
    cases operator with
    | descendant => exact .nil
    | _ => exact .plain (by decide) rfl .nil
  | universal => exact .plain (by decide) rfl .nil
  | tag name => exact leads_writeName quoteOk_empty name
  | id name => exact .plain (by decide) rfl (leads_writeName quoteOk_empty name)
  | className name => exact .plain (by decide) rfl (leads_writeName quoteOk_empty name)
  | attr test => exact test.leads_write
  | pseudo named => exact Pseudo.IsWritable.leads_write writable
  | stray => exact .nil

theorem Part.IsWritable.leads_write {part : Part} (writable : part.IsWritable) :
    Leads {} part.write {} := by
  have tokens := Part.isWritable_row writable
  rw [Part.write_eq writable]
  generalize part.row = row at tokens
  induction row with
  | nil => exact .nil
  | cons token row ih =>
    obtain ⟨here, later⟩ := List.forall_mem_cons.mp tokens
    exact here.leads_write.append (ih later)

/-! ## The negation of a part -/

/-- `:not` of a text. -/
def negation (arg : String) : Part where
  pseudos := [⟨"not", some arg⟩]

theorem readPseudo_not {text : List Char} (leads : Leads {} text {}) (start : List Char) :
    readPseudo start ('n' :: 'o' :: 't' :: '(' :: (text ++ [')'])) =
      ⟨⟨"not", some (String.ofList (trimUnescaped text))⟩, [], []⟩ := by
  have opens : EndsName ('(' :: (text ++ [')'])) := by
    rintro c ⟨⟩
    decide
  have name : readName start ('n' :: 'o' :: 't' :: '(' :: (text ++ [')'])) =
      ⟨"not", [], '(' :: (text ++ [')'])⟩ :=
    readName_writeName (by decide : "not" ≠ "") opens start
  have lower : Text.lower "not" = "not" := by decide +kernel
  simp [readPseudo, readColon, name, readArgument?, leads.readArgument_append [], lower]

theorem parse_not {text : String} (leads : Leads {} text.toList {}) :
    parse (":not(" ++ text ++ ")") = [negation (String.ofList (trimUnescaped text.toList))] := by
  have whole : (":not(" ++ text ++ ")").toList =
      ':' :: 'n' :: 'o' :: 't' :: '(' :: (text.toList ++ [')']) := by simp
  have lexeme : (readLexeme ':' ('n' :: 'o' :: 't' :: '(' :: (text.toList ++ [')']))).token =
        .pseudo ⟨"not", some (String.ofList (trimUnescaped text.toList))⟩ ∧
      (readLexeme ':' ('n' :: 'o' :: 't' :: '(' :: (text.toList ++ [')']))).rest = [] := by
    simp [readLexeme, readPseudo_not leads, Reading.lexeme, show Text.isBlank ':' = false from rfl]
  rw [parse, tokens, whole, lexemes, List.map_cons, lexeme.1, lexeme.2, lexemes]
  rfl

variable {dialect : Dialect} {d : Document} {n : NodeId}

theorem accepts_negation (known : dialect.vocabulary.find? "not" = some (.standard .not))
    (arg : String) (element : d.isElement n = true) :
    dialect.Accepts d (negation arg) n ↔
      ¬ Conditions.accepts d n (dialect.negand arg) = true := by
  simp [Dialect.Accepts, negation, Dialect.conditions, Dialect.conditionsWith, known,
    Dialect.build, Dialect.condition, Conditions.accepts, Condition.accepts, element]

/-- The conditions of an argument leave out only what holds of every element. -/
theorem accepts_negand {arg : String} {part : Part} (read : parse arg = [part])
    (element : d.isElement n = true) :
    Conditions.accepts d n (dialect.negand arg) = true ↔ dialect.Accepts d part n := by
  rw [Dialect.negand_eq, read, Dialect.Accepts]
  simp [Conditions.accepts_eq_all, Dialect.conditions, Dialect.conditionsWith, Condition.accepts,
    element]

/-- The canonical text of a part between the parentheses of `:not` is read as one part. It accepts
    the elements that the part does not accept, if no white space is trimmed off the text. -/
theorem accepts_not_canonical (selector : String) (part : Part) (parsed : part ∈ parse selector) :
    ∃ opposite : Part, parse (":not(" ++ part.canonical ++ ")") = [opposite] ∧
      (IsTrimmed part.canonical.toList →
        ∀ (dialect : Dialect) (d : Document) (n : NodeId),
          dialect.vocabulary.find? "not" = some (.standard .not) → d.isElement n = true →
            (dialect.Accepts d opposite n ↔ ¬ dialect.Accepts d part n)) := by
  have writable := isWritable_of_mem_parse parsed
  have written : part.canonical.toList = part.write := String.toList_ofList
  have leads : Leads {} part.canonical.toList {} := written ▸ writable.leads_write
  refine ⟨_, parse_not leads, fun trimmed dialect d n known element => ?_⟩
  rw [trimUnescaped_eq_self trimmed leads.endsEscaping, String.ofList_toList]
  have alone := parseWellFormed_join [part] (by simpa using writable)
  have read : parse part.canonical = [part] := by
    simpa using (parseWellFormed_eq_ok_iff.mp alone).2
  exact (accepts_negation known part.canonical element).trans
    (not_congr (accepts_negand read element))

/-- Brackets and parentheses in quotes are taken along, and so is what is negated already. -/
theorem accepts_not_canonical_of_quoted :
    let part : Part := { id := some "a ", attrs := [⟨"t", .equals, "])("⟩],
                         pseudos := [⟨"not", some ":contains('(')"⟩] }
    let d := Document.ofEdits [.element 0 "p" [("id", "a "), ("t", "])(")],
      .element 0 "p" [("id", "a "), ("t", "])(")], .text 2 "("]
    parse "#a\\ [t='])(' ]:not( :contains('(') )" = [part] ∧
      IsTrimmed "#a\\ [t=\"])(\"]:not(:contains('('))".toList ∧
        ∃ opposite, parse ":not(#a\\ [t=\"])(\"]:not(:contains('(')))" = [opposite] ∧
          ¬ ({} : Dialect).Accepts d opposite 1 ∧ ({} : Dialect).Accepts d opposite 2 := by
  intro part d
  have read : parse "#a\\ [t='])(' ]:not( :contains('(') )" = [part] := by decide +kernel
  have written : part.canonical = "#a\\ [t=\"])(\"]:not(:contains('('))" := by decide +kernel
  have ends : part.canonical.toList.head? = some '#' ∧
      part.canonical.toList.getLast? = some ')' := by
    decide +kernel
  have trimmed : IsTrimmed part.canonical.toList := by
    constructor
    · rw [ends.1]
      rintro _ ⟨⟩
      decide
    · rw [ends.2]
      rintro _ ⟨⟩ white
      exact absurd white (by decide)
  have known : ({} : Dialect).vocabulary.find? "not" = some (.standard .not) :=
    Vocabulary.find?_standard .not
  have accepted : ({} : Dialect).Accepts d part 1 := by
    unfold Dialect.Accepts
    decide +kernel
  have refused : ¬ ({} : Dialect).Accepts d part 2 := by
    unfold Dialect.Accepts
    decide +kernel
  obtain ⟨opposite, negated, complement⟩ :=
    accepts_not_canonical "#a\\ [t='])(' ]:not( :contains('(') )" part (read ▸ List.mem_cons_self)
  rw [written] at negated
  exact ⟨read, written ▸ trimmed, opposite, negated,
    fun also => (complement trimmed {} d 1 known (by decide +kernel)).mp also accepted,
    (complement trimmed {} d 2 known (by decide +kernel)).mpr refused⟩

/-- A no-break space is part of a name and is trimmed off an argument: neither the part nor its
    negation accepts the element `a`. -/
theorem refuses_part_and_negation :
    let part : Part := { tag := some ⟨"\u00a0a"⟩ }
    let d := Document.ofEdits [.element 0 "a" []]
    parse "\u00a0a" = [part] ∧ ({} : Dialect).vocabulary.find? "not" = some (.standard .not) ∧
      d.isElement 1 = true ∧ ¬ ({} : Dialect).Accepts d part 1 ∧
        ∃ opposite, parse (":not(" ++ part.canonical ++ ")") = [opposite] ∧
          ¬ ({} : Dialect).Accepts d opposite 1 := by
  intro part d
  unfold Dialect.Accepts
  refine ⟨by decide +kernel, Vocabulary.find?_standard .not, by decide +kernel, by decide +kernel,
    negation "a", by decide +kernel, by decide +kernel⟩

end TreeSelectors
