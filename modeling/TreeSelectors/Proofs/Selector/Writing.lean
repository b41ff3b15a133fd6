import Mathlib.Data.List.Chain
import TreeSelectors.Proofs.Selector.Argument
import TreeSelectors.Selector.Parse

/-!
  Written tokens read back. A token is writable when some selector text reads as it without a fault
  (`Token.IsWritable`), and the reader makes no other tokens but nameless and stray ones
  (`isWritable_readLexeme`), which have a fault (`isNameless_readLexeme`). `reads_write` says that a
  row of writable tokens, none of which runs into the next, is read from its text.
-/

namespace TreeSelectors

/-! ## Writable tokens -/

def Token.write : Token → List Char
  | .blank => [' ']
  | .combinator operator => operator.symbol?.toList
  | .universal => ['*']
  | .tag name => writeName name
  | .id name => '#' :: writeName name
  | .className name => '.' :: writeName name
  | .attr test => test.write
  | .pseudo named => named.write
  | .stray => []

def AttrTest.IsWritable (test : AttrTest) : Prop :=
  test.attr ≠ "" ∧ (test.op = .present → test.value = "")

structure Pseudo.IsWritable (pseudo : Pseudo) : Prop where
  named : pseudo.name ≠ ""
  lower : Text.lower pseudo.name = pseudo.name
  argument : ∀ arg ∈ pseudo.arg, IsArgument arg.toList

/-- The descendant operator has no token of its own. -/
def Token.IsWritable : Token → Prop
  | .blank | .universal => True
  | .combinator operator => operator ≠ .descendant
  | .tag name | .id name | .className name => name ≠ ""
  | .attr test => test.IsWritable
  | .pseudo named => named.IsWritable
  | .stray => False

/-- Upper case letters, which are what lowering changes. -/
def IsUpper (c : Char) : Prop := c.val ≥ 'A'.val ∧ c.val ≤ 'Z'.val

theorem val_toLower {c : Char} (upper : IsUpper c) :
    c.toLower.val = c.val + ('a'.val - 'A'.val) :=
  congrArg Char.val (dif_pos upper)

theorem toLower_eq_self {c : Char} (other : ¬ IsUpper c) : c.toLower = c := dif_neg other

theorem lower_lower (text : String) : Text.lower (Text.lower text) = Text.lower text := by
  have letter (c : Char) : c.toLower.toLower = c.toLower := by
    by_cases upper : IsUpper c
    · refine toLower_eq_self fun again => ?_
      rw [IsUpper, val_toLower upper] at again
      unfold IsUpper at upper
      simp at *
      grind
    · rw [toLower_eq_self upper, toLower_eq_self upper]
  simp [Text.lower, String.map_map, Function.comp_def, letter]

theorem readComparison_present {start text : List Char}
    (present : (readComparison start text).value.1 = .present) :
    (readComparison start text).value.2 = "" := by
  unfold readComparison at present ⊢
  split
  · rfl
  · rfl
  · split
    · rfl
    · next op rest found =>
      simp only [found] at present
      subst present
      exfalso
      unfold readOp? at found
      split at found
      · simp at found
      · simp only [Option.map_eq_some_iff, Prod.mk.injEq] at found
        obtain ⟨op, lead, rfl, -⟩ := found
        unfold opOfLead? at lead
        split at lead <;> simp at lead
      · simp at found

theorem isArgument_readArgument? {start text : List Char} {arg : String}
    (present : (readArgument? start text).value = some arg) : IsArgument arg.toList := by
  unfold readArgument? at present
  split at present
  · next rest =>
    obtain rfl := Option.some.inj present
    rw [String.toList_ofList]
    exact isArgument_readArgument rest
  · simp at present

/-- The reader makes writable tokens, apart from those that add nothing. -/
theorem isWritable_readLexeme (c : Char) (text : List Char) :
    (readLexeme c text).token.isNameless = false → (readLexeme c text).token ≠ .stray →
      (readLexeme c text).token.IsWritable := by
  unfold readLexeme Reading.lexeme
  simp only
  split
  · simp [Token.IsWritable]
  · split
    · simp [Token.IsWritable]
    · simp [Token.IsWritable]
    · simp [Token.IsWritable]
    · simp [Token.IsWritable]
    · simp [Token.isNameless, Token.IsWritable]
    · simp [Token.isNameless, Token.IsWritable]
    · intro named _
      exact ⟨by simpa [Token.isNameless] using named, readComparison_present⟩
    · intro named _
      exact ⟨by simpa [Token.isNameless] using named, lower_lower _,
        fun arg present => isArgument_readArgument? present⟩
    · split
      · simp [Token.isNameless, Token.IsWritable]
      · simp

theorem isWritable_of_mem_tokens {selector : String} {token : Token}
    (read : token ∈ tokens selector) (named : token.isNameless = false) (known : token ≠ .stray) :
    token.IsWritable := by
  unfold tokens at read
  generalize selector.toList = text at read
  fun_induction lexemes text with
  | case1 => simp at read
  | case2 c text lexeme ih =>
    rcases List.mem_cons.mp read with rfl | later
    · exact isWritable_readLexeme c text named known
    · exact ih later

theorem readName_ne_empty {start text : List Char} (clean : (readName start text).faults = []) :
    (readName start text).value ≠ "" := by
  have present := (List.append_eq_nil_iff.mp clean).2
  simpa [readName] using present

theorem readAttrName_ne_empty {start text : List Char}
    (clean : (readAttrName start text).faults = []) : (readAttrName start text).value ≠ "" := by
  simpa [readAttrName] using clean

theorem lower_eq_empty_iff {text : String} : Text.lower text = "" ↔ text = "" := by
  simp [Text.lower]

/-- A component without its name and a stray character have a fault. -/
theorem isNameless_readLexeme (c : Char) (text : List Char) :
    (readLexeme c text).faults = [] →
      (readLexeme c text).token.isNameless = false ∧ (readLexeme c text).token ≠ .stray := by
  unfold readLexeme Reading.lexeme
  simp only
  split
  · simp [Token.isNameless]
  · split
    · simp [Token.isNameless]
    · simp [Token.isNameless]
    · simp [Token.isNameless]
    · simp [Token.isNameless]
    · exact fun clean => ⟨by simpa [Token.isNameless] using readName_ne_empty clean, nofun⟩
    · exact fun clean => ⟨by simpa [Token.isNameless] using readName_ne_empty clean, nofun⟩
    · intro clean
      have named := readAttrName_ne_empty (List.append_eq_nil_iff.mp clean).1
      exact ⟨by simpa [Token.isNameless, readAttr] using named, nofun⟩
    · intro clean
      have named := readName_ne_empty
        (List.append_eq_nil_iff.mp (List.append_eq_nil_iff.mp clean).1).2
      exact ⟨by simpa [Token.isNameless, readPseudo, lower_eq_empty_iff] using named, nofun⟩
    · split
      · exact fun clean => ⟨by simpa [Token.isNameless] using readName_ne_empty clean, nofun⟩
      · simp

theorem isWritable_of_clean {selector : String}
    (clean : ∀ lexeme ∈ lexemes selector.toList, lexeme.faults = []) :
    ∀ token ∈ tokens selector, token.IsWritable := by
  unfold tokens
  generalize selector.toList = text at clean
  fun_induction lexemes text with
  | case1 => simp
  | case2 c text lexeme ih =>
    obtain ⟨here, later⟩ := List.forall_mem_cons.mp clean
    obtain ⟨named, known⟩ := isNameless_readLexeme c text here
    exact List.forall_mem_cons.mpr ⟨isWritable_readLexeme c text named known, ih later⟩

/-! ## Names -/

theorem isNameChar_of_isPlainChar {c : Char} (plain : isPlainChar c = true) :
    isNameChar c = true := by
  simp [isNameChar, plain]

theorem isBlank_eq_false {c : Char} (name : isNameChar c = true) : Text.isBlank c = false := by
  cases blank : Text.isBlank c with
  | false => rfl
  | true =>
    simp only [Text.isBlank, Bool.or_eq_true, beq_iff_eq] at blank
    rcases blank with (((rfl | rfl) | rfl) | rfl) | rfl <;> exact absurd name (by decide)

theorem writeName_eq_cons {name : String} (named : name ≠ "") :
    ∃ c text, writeName name = c :: text ∧ isNameChar c = true := by
  unfold writeName
  cases same : name.toList with
  | nil => exact absurd (String.toList_eq_nil_iff.mp same) named
  | cons c text =>
    rw [Text.escape]
    split
    · exact ⟨_, _, rfl, rfl⟩
    · next plain => exact ⟨_, _, rfl, isNameChar_of_isPlainChar (by simpa using plain)⟩

theorem readEscaped_cons {stop : Char → List Char → Bool} {c : Char} (plain : c ≠ '\\')
    (text : List Char) : Text.readEscaped stop (c :: text) =
      if stop c text then ⟨[], false, c :: text⟩
      else { Text.readEscaped stop text with value := c :: (Text.readEscaped stop text).value } :=
  Text.readEscaped.eq_4 _ _ _ (fun same _ => plain same) fun _ _ same _ => plain same

/-- Nothing is read where the reader stops at once. -/
theorem readEscaped_of_stop {stop : Char → List Char → Bool} {text : List Char}
    (stopped : ∀ c rest, text = c :: rest → c ≠ '\\' ∧ stop c rest = true) :
    Text.readEscaped stop text = ⟨[], false, text⟩ := by
  cases text with
  | nil => rfl
  | cons c rest =>
    obtain ⟨plain, stops⟩ := stopped c rest rfl
    rw [readEscaped_cons plain, if_pos stops]

/-- No character that a name could go on with. -/
def EndsName (text : List Char) : Prop := ∀ c ∈ text.head?, isNameChar c = false

theorem readName_writeName {name : String} {after : List Char} (named : name ≠ "")
    (ends : EndsName after) (start : List Char) :
    readName start (writeName name ++ after) = ⟨name, [], after⟩ := by
  have stopped : Text.readEscaped (fun c _ => !isNameChar c) after = ⟨[], false, after⟩ := by
    refine readEscaped_of_stop fun c rest same => ?_
    have other : isNameChar c = false := ends c (by simp [same])
    refine ⟨?_, by simp [other]⟩
    rintro rfl
    exact absurd other (by decide)
  have written (c : Char) (stops : (!isNameChar c) = true) : (!isPlainChar c) = true := by
    cases plain : isPlainChar c with
    | false => rfl
    | true => simp [isNameChar_of_isPlainChar plain] at stops
  have read : Text.readEscaped (fun c _ => !isNameChar c)
      (Text.escape (fun c => !isPlainChar c) name.toList ++ after) = ⟨name.toList, false, after⟩ :=
    Text.readEscaped_escape_append (by decide) (fun c _ => written c) after stopped name.toList
  unfold readName writeName
  rw [read]
  simp [named]

/-- A written name reads back as that of an attribute: whatever ends one is escaped in it. -/
theorem readAttrName_writeName {name : String} {after : List Char} (named : name ≠ "")
    (ends : ∀ c rest, after = c :: rest → c ≠ '\\' ∧ endsAttrName c rest = true)
    (start : List Char) : readAttrName start (writeName name ++ after) = ⟨name, [], after⟩ := by
  have written (c : Char) (text : List Char) (stops : endsAttrName c text = true) :
      (!isPlainChar c) = true := by
    cases plain : isPlainChar c with
    | false => rfl
    | true =>
      have solid := isBlank_eq_false (isNameChar_of_isPlainChar plain)
      simp only [endsAttrName, solid, Bool.false_or, Bool.or_eq_true, beq_iff_eq,
        Bool.and_eq_true] at stops
      rcases stops with (rfl | rfl) | ⟨lead, -⟩
      · exact absurd plain (by decide)
      · exact absurd plain (by decide)
      · unfold opOfLead? at lead
        split at lead <;> first | exact absurd plain (by decide) | simp at lead
  have read : Text.readEscaped endsAttrName
      (Text.escape (fun c => !isPlainChar c) name.toList ++ after) = ⟨name.toList, false, after⟩ :=
    Text.readEscaped_escape_append (by decide) written after (readEscaped_of_stop ends) name.toList
  unfold readAttrName writeName
  rw [read]
  simp [named]

/-! ## Values, tests and pseudo-classes -/

theorem skipBlanks_of_head {c : Char} (solid : Text.isBlank c = false) (text : List Char) :
    skipBlanks (c :: text) = c :: text := by
  simp [skipBlanks, solid]

theorem readValue_writeQuoted (start : List Char) (value : String) (after : List Char) :
    readValue start (writeQuoted value ++ after) = ⟨value, [], after⟩ := by
  have read : Text.readEscaped (fun c _ => c == '"')
      (Text.escape (fun c => c == '"' || c == '\\') value.toList ++ '"' :: after) =
        ⟨value.toList, false, '"' :: after⟩ :=
    Text.readEscaped_escape_append (by decide) (by simp +contextual) ('"' :: after)
      (readEscaped_of_stop (by simp +contextual)) value.toList
  unfold writeQuoted
  simp only [List.cons_append, List.append_assoc, List.nil_append, readValue, readQuoted]
  rw [read]
  simp

theorem readOp?_symbol {op : Comparison} (compares : op ≠ .present) (text : List Char) :
    readOp? (op.symbol.toList ++ text) = some (op, text) := by
  cases op with
  | present => exact absurd rfl compares
  | _ => rfl

/-- What a symbol begins with ends the name before it. -/
theorem symbol_ends {op : Comparison} (compares : op ≠ .present) (text : List Char) :
    ∃ c rest, op.symbol.toList ++ text = c :: rest ∧ c ≠ ']' ∧ c ≠ '\\' ∧
      Text.isBlank c = false ∧ endsAttrName c rest = true := by
  cases op with
  | present => exact absurd rfl compares
  | _ => exact ⟨_, _, rfl, by decide, by decide, by decide, by rfl⟩

theorem readComparison_symbol {op : Comparison} (compares : op ≠ .present) (start : List Char)
    (value : String) (after : List Char) :
    readComparison start (op.symbol.toList ++ (writeQuoted value ++ ']' :: after)) =
      ⟨(op, value), [], after⟩ := by
  obtain ⟨c, rest, same, open', -⟩ := symbol_ends compares (writeQuoted value ++ ']' :: after)
  have found := readOp?_symbol compares (writeQuoted value ++ ']' :: after)
  rw [same] at found ⊢
  have quoted : skipBlanks (writeQuoted value ++ ']' :: after) = writeQuoted value ++ ']' :: after :=
    skipBlanks_of_head (by decide) _
  have bracket : skipBlanks (']' :: after) = ']' :: after := skipBlanks_of_head (by decide) after
  unfold readComparison
  split
  · next h => simp at h
  · next h => simp_all
  · rw [found]
    simp only [quoted, readValue_writeQuoted, bracket, closeAttr, List.append_nil]

theorem readAttr_write {test : AttrTest} (writable : test.IsWritable) (start after : List Char) :
    readAttr start (test.write.tail ++ after) = ⟨test, [], after⟩ := by
  obtain ⟨name, op, value⟩ := test
  obtain ⟨named, absent⟩ := writable
  obtain ⟨c, rest, first, nameChar⟩ := writeName_eq_cons named
  have skipped (text : List Char) : skipBlanks (writeName name ++ text) = writeName name ++ text := by
    rw [first]
    exact skipBlanks_of_head (isBlank_eq_false nameChar) _
  by_cases present : op = .present
  · subst present
    obtain rfl := absent rfl
    have ends : readAttrName start (writeName name ++ ']' :: after) = ⟨name, [], ']' :: after⟩ :=
      readAttrName_writeName named (by simp [endsAttrName]) start
    simp [AttrTest.write, readAttr, skipped, ends, skipBlanks_of_head (c := ']') (by decide),
      readComparison]
  · obtain ⟨c, rest, same, -, plain, solid, stops⟩ :=
      symbol_ends present (writeQuoted value ++ ']' :: after)
    have compared := readComparison_symbol present start value after
    rw [same] at compared
    have ends : readAttrName start (writeName name ++ c :: rest) = ⟨name, [], c :: rest⟩ :=
      readAttrName_writeName named (by simp_all) start
    simp [AttrTest.write, readAttr, present, skipped, same, ends, skipBlanks_of_head solid,
      compared]

theorem readPseudo_write {pseudo : Pseudo} (writable : pseudo.IsWritable) {after : List Char}
    (ends : EndsName after) (bare : ∀ c ∈ after.head?, c ≠ '(') (start : List Char) :
    readPseudo start (pseudo.write.tail ++ after) = ⟨pseudo, [], after⟩ := by
  obtain ⟨name, arg⟩ := pseudo
  obtain ⟨named, lower, argument⟩ := writable
  obtain ⟨c, rest, first, nameChar⟩ := writeName_eq_cons named
  have single (text : List Char) :
      readColon start (writeName name ++ text) = ⟨(), [], writeName name ++ text⟩ := by
    rw [first, List.cons_append, readColon]
    rintro colon same
    obtain ⟨rfl, -⟩ := List.cons.inj same
    exact absurd nameChar (by decide)
  cases arg with
  | none =>
    have none : readArgument? start after = ⟨none, [], after⟩ := by
      cases after with
      | nil => rfl
      | cons d after =>
        rw [readArgument?]
        rintro rest same
        obtain ⟨rfl, -⟩ := List.cons.inj same
        exact bare _ rfl rfl
    simp [Pseudo.write, readPseudo, single, readName_writeName named ends, none, lower]
  | some arg =>
    have read := (argument arg rfl).readArgument_append after
    have opens : EndsName ('(' :: (arg.toList ++ ')' :: after)) := by simp [EndsName]; decide
    simp [Pseudo.write, readPseudo, single, readName_writeName named opens, readArgument?, read,
      lower]

/-! ## Rows of tokens -/

/-- Written after the token, the character is not read as more of it. -/
def Token.StopsAt (token : Token) (c : Char) : Prop :=
  match token with
  | .blank => Text.isBlank c = false
  | .tag _ | .id _ | .className _ => isNameChar c = false
  | .pseudo _ => isNameChar c = false ∧ c ≠ '('
  | _ => True

theorem readLexeme_write {token : Token} (writable : token.IsWritable) {after : List Char}
    (stops : ∀ c ∈ after.head?, token.StopsAt c) :
    ∃ c text, token.write ++ after = c :: text ∧
      readLexeme c text = ⟨c :: text, token, [], after⟩ := by
  cases token with
  | blank =>
    refine ⟨' ', after, rfl, ?_⟩
    cases after with
    | nil => rfl
    | cons c after =>
      have solid : Text.isBlank c = false := stops c rfl
      simp [readLexeme, skipBlanks_of_head solid, show Text.isBlank ' ' = true from rfl]
  | combinator operator =>
    cases operator with
    | descendant => exact absurd rfl writable
    | _ => exact ⟨_, _, rfl, rfl⟩
  | universal => exact ⟨_, _, rfl, rfl⟩
  | tag name =>
    obtain ⟨c, text, first, nameChar⟩ := writeName_eq_cons writable
    have read := readName_writeName writable stops (c :: (text ++ after))
    rw [first, List.cons_append] at read
    refine ⟨c, text ++ after, by simp [Token.write, first], ?_⟩
    unfold readLexeme
    simp only [isBlank_eq_false nameChar, Bool.false_eq_true, if_false]
    split <;> first
      | exact absurd nameChar (by decide)
      | simp [nameChar, read, Reading.lexeme]
  | id name =>
    refine ⟨_, _, rfl, ?_⟩
    have read := readName_writeName writable stops ('#' :: (writeName name ++ after))
    simp [readLexeme, read, Reading.lexeme, show Text.isBlank '#' = false from rfl]
  | className name =>
    refine ⟨_, _, rfl, ?_⟩
    have read := readName_writeName writable stops ('.' :: (writeName name ++ after))
    simp [readLexeme, read, Reading.lexeme, show Text.isBlank '.' = false from rfl]
  | attr test =>
    refine ⟨'[', test.write.tail ++ after, rfl, ?_⟩
    have read := readAttr_write writable ('[' :: (test.write.tail ++ after)) after
    simp [readLexeme, read, Reading.lexeme, show Text.isBlank '[' = false from rfl]
  | pseudo named =>
    refine ⟨':', named.write.tail ++ after, rfl, ?_⟩
    have read := readPseudo_write writable (fun c first => (stops c first).1)
      (fun c first => (stops c first).2) (':' :: (named.write.tail ++ after))
    simp [readLexeme, read, Reading.lexeme, show Text.isBlank ':' = false from rfl]
  | stray => exact absurd writable not_false

/-- The second token can be written right after the first. A tag begins like any name, so what is
    before it has to be a blank. -/
def Token.Precedes (before after : Token) : Prop :=
  match after with
  | .tag _ => before = .blank
  | .blank => before ≠ .blank
  | _ => True

theorem Token.Precedes.stopsAt {before after : Token} (precedes : before.Precedes after)
    (writable : after.IsWritable) (rest : List Char) :
    ∀ c ∈ (after.write ++ rest).head?, before.StopsAt c := by
  cases after with
  | tag name =>
    obtain ⟨c, text, first, nameChar⟩ := writeName_eq_cons writable
    obtain rfl : before = .blank := precedes
    simpa [Token.write, first, Token.StopsAt] using isBlank_eq_false nameChar
  | blank =>
    rintro _ ⟨⟩
    cases before with
    | blank => exact absurd rfl precedes
    | tag | id | className => exact (by decide : isNameChar ' ' = false)
    | pseudo => exact (by decide : isNameChar ' ' = false ∧ ' ' ≠ '(')
    | _ => exact trivial
  | combinator operator =>
    cases operator with
    | descendant => exact absurd rfl writable
    | _ => cases before <;> simp [Token.write, Token.StopsAt, Combinator.symbol?] <;> decide
  | stray => exact absurd writable not_false
  | _ => cases before <;> simp [Token.write, Token.StopsAt, AttrTest.write, Pseudo.write] <;> decide

/-- The text is read as the tokens, without a fault. -/
def Reads (text : List Char) (tokens : List Token) : Prop :=
  (lexemes text).map Lexeme.token = tokens ∧ ∀ lexeme ∈ lexemes text, lexeme.faults = []

theorem reads_write {row : List Token} (writable : ∀ token ∈ row, token.IsWritable)
    (apart : row.IsChain Token.Precedes) : Reads (row.flatMap Token.write) row := by
  induction row with
  | nil => simp [Reads, lexemes]
  | cons token row ih =>
    obtain ⟨read, clean⟩ := ih (fun other later => writable other (.tail _ later)) apart.tail
    have stops : ∀ c ∈ (row.flatMap Token.write).head?, token.StopsAt c := by
      cases row with
      | nil => simp
      | cons next row =>
        cases apart with
        | cons_cons precedes _ =>
          exact precedes.stopsAt (writable next (.tail _ (.head _))) (row.flatMap Token.write)
    obtain ⟨c, text, first, lexeme⟩ := readLexeme_write (writable token (.head _)) stops
    rw [Reads, List.flatMap_cons, first, lexemes, lexeme]
    exact ⟨by simp [read], by simpa using clean⟩

end TreeSelectors
