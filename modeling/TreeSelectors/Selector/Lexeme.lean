import TreeSelectors.Selector.Basic
import TreeSelectors.Text

/-!
  The lexemes of a selector. Every reader takes text from the front and gives back what it read, the
  faults it found and the rest; a place in the selector is the text from there to the end. No reader
  fails, and `readLexeme_rest_suffix` is why reading lexeme after lexeme comes to an end.

  The argument of a pseudo-class runs to the parenthesis that balances the opening one. Parentheses
  do not count inside quotes or square brackets, and nothing counts after a backslash. An argument
  cut off by the end of the text is completed, so that it reads the same when it is written back in
  parentheses.
-/

namespace TreeSelectors

/-! ## Arguments -/

/-- What is open at some place inside an argument. -/
structure Nesting where
  /-- Parentheses opened inside the argument. -/
  parens : Nat := 0
  brackets : Nat := 0
  quote : Option Char := none
deriving DecidableEq, Repr

namespace Nesting

/-- What is open after an unescaped `c`; `none` when `c` ends the argument. -/
def step (nesting : Nesting) (c : Char) : Option Nesting :=
  match nesting.quote with
  | some quote => some (if c = quote then { nesting with quote := none } else nesting)
  | none =>
    if c = '"' ∨ c = '\'' then some { nesting with quote := some c }
    else if c = '[' then some { nesting with brackets := nesting.brackets + 1 }
    else if c = ']' then some { nesting with brackets := nesting.brackets - 1 }
    else if nesting.brackets ≠ 0 then some nesting
    else if c = '(' then some { nesting with parens := nesting.parens + 1 }
    else if c = ')' then
      match nesting.parens with
      | 0 => none
      | parens + 1 => some { nesting with parens }
    else some nesting

/-- The text that closes all that is open, innermost first. -/
def closers (nesting : Nesting) : List Char :=
  nesting.quote.toList ++ List.replicate nesting.brackets ']' ++ List.replicate nesting.parens ')'

end Nesting

/-- How the text of an argument ends. -/
inductive ArgumentEnd
  | closed (rest : List Char)
  | cutOff (nesting : Nesting)
deriving DecidableEq, Repr

/-- The text up to the closing parenthesis, without the backslash of an escape that is cut off. -/
def scanArgument (nesting : Nesting) : List Char → List Char × ArgumentEnd
  | [] => ([], .cutOff nesting)
  | ['\\'] => ([], .cutOff nesting)
  | '\\' :: c :: text =>
    let (taken, ending) := scanArgument nesting text
    ('\\' :: c :: taken, ending)
  | c :: text =>
    match nesting.step c with
    | none => ([], .closed text)
    | some nesting =>
      let (taken, ending) := scanArgument nesting text
      (c :: taken, ending)

/-- Trims white space on both sides, but not an escaped character at the end. -/
def trimUnescaped (text : List Char) : List Char :=
  let body := Text.trimStart text
  let trimmed := Text.trimEnd body
  let escapes := (trimmed.reverse.takeWhile (· = '\\')).length
  if escapes % 2 = 0 then trimmed else trimmed ++ (body.drop trimmed.length).take 1

structure Argument where
  value : List Char
  cutOff : Bool
  rest : List Char
deriving DecidableEq, Repr

/-- Reads an argument whose opening parenthesis has been taken. -/
def readArgument (text : List Char) : Argument :=
  match scanArgument {} text with
  | (taken, .closed rest) => ⟨trimUnescaped taken, false, rest⟩
  | (taken, .cutOff nesting) => ⟨trimUnescaped taken ++ nesting.closers, true, []⟩

theorem scanArgument_closed_suffix {nesting : Nesting} {text taken rest : List Char}
    (closed : scanArgument nesting text = (taken, .closed rest)) : rest <:+ text := by
  fun_induction scanArgument nesting text generalizing taken with
  | case1 => simp at closed
  | case2 => simp at closed
  | case3 nesting c text below ending found ih =>
    simp only [Prod.mk.injEq] at closed
    exact (ih (found.trans (by rw [closed.2]))).trans ⟨['\\', c], rfl⟩
  | case4 nesting c text =>
    simp only [Prod.mk.injEq, ArgumentEnd.closed.injEq] at closed
    exact closed.2 ▸ List.suffix_cons c text
  | case5 nesting c text _ _ next stepped below ending found ih =>
    simp only [Prod.mk.injEq] at closed
    exact (ih (found.trans (by rw [closed.2]))).trans (List.suffix_cons c text)

theorem readArgument_rest_suffix (text : List Char) : (readArgument text).rest <:+ text := by
  unfold readArgument
  split
  · next found => exact scanArgument_closed_suffix found
  · exact List.nil_suffix

/-! ## Lexemes -/

inductive Token
  /-- A run of blanks. -/
  | blank
  | combinator (operator : Combinator)
  | universal
  | tag (name : String)
  | id (name : String)
  | className (name : String)
  | attr (test : AttrTest)
  | pseudo (pseudo : Pseudo)
  /-- A character that begins nothing. -/
  | stray
deriving DecidableEq, Repr

/-- A departure from the grammar and the place it is reported at. -/
structure Fault where
  kind : FlawKind
  place : List Char
deriving DecidableEq, Repr

structure Lexeme where
  start : List Char
  token : Token
  faults : List Fault
  rest : List Char
deriving DecidableEq, Repr

/-- The characters that stand for themselves in a name: ASCII letters and digits, `-`, `_` and all
    beyond ASCII. -/
def isPlainChar (c : Char) : Bool := c.isAlphanum || c == '-' || c == '_' || 0x80 ≤ c.toNat

def isNameChar (c : Char) : Bool := isPlainChar c || c == '\\'

def skipBlanks (text : List Char) : List Char := text.dropWhile Text.isBlank

def dropThroughBracket (text : List Char) : List Char := (text.dropWhile (· ≠ ']')).tail

/-- A value read from the front of a text. -/
structure Reading (α : Type) where
  value : α
  faults : List Fault
  rest : List Char
deriving DecidableEq, Repr

def Reading.lexeme {α : Type} (reading : Reading α) (start : List Char) (token : α → Token) :
    Lexeme :=
  ⟨start, token reading.value, reading.faults, reading.rest⟩

/-- A tag, id, class or pseudo-class name. Faults are reported at `start`, here and below. -/
def readName (start text : List Char) : Reading String :=
  let name := Text.readEscaped (fun c _ => !isNameChar c) text
  let dangling := if name.dangling then [⟨.cutEscape, start⟩] else []
  let missing := if name.value.isEmpty then [⟨.missingName, start⟩] else []
  ⟨String.ofList name.value, dangling ++ missing, name.rest⟩

/-- The first character of an operator that has two, the second being `=`. -/
def opOfLead? : Char → Option Comparison
  | '*' => some .substring
  | '^' => some .starts
  | '$' => some .ends
  | '~' => some .includes
  | '|' => some .dashed
  | _ => none

def endsAttrName (c : Char) (text : List Char) : Bool :=
  Text.isBlank c || c == ']' || c == '=' || ((opOfLead? c).isSome && text.head? == some '=')

def readAttrName (start text : List Char) : Reading String :=
  let name := Text.readEscaped endsAttrName text
  let missing := if name.value.isEmpty then [⟨.missingName, start⟩] else []
  ⟨String.ofList name.value, missing, name.rest⟩

def readOp? : List Char → Option (Comparison × List Char)
  | '=' :: text => some (.equals, text)
  | c :: '=' :: text => (opOfLead? c).map (·, text)
  | _ => none

def readQuoted (start : List Char) (quote : Char) (text : List Char) : Reading String :=
  let value := Text.readEscaped (fun c _ => c == quote) text
  let cutOff := if value.rest.isEmpty then [⟨.openValue, start⟩] else []
  ⟨String.ofList value.value, cutOff, value.rest.tail⟩

def readUnquoted (text : List Char) : Reading String :=
  let value := Text.readEscaped (fun c _ => c == ']' || Text.isBlank c) text
  ⟨String.ofList value.value, [], value.rest⟩

def readValue (start : List Char) : List Char → Reading String
  | '"' :: text => readQuoted start '"' text
  | '\'' :: text => readQuoted start '\'' text
  | text => readUnquoted text

/-- The closing bracket; anything before it is skipped. -/
def closeAttr (start : List Char) : List Char → Reading Unit
  | [] => ⟨(), [⟨.openAttribute, start⟩], []⟩
  | ']' :: text => ⟨(), [], text⟩
  | c :: text => ⟨(), [⟨.unexpectedChar c, c :: text⟩], dropThroughBracket (c :: text)⟩

/-- What follows the name of an attribute, closing bracket included. -/
def readComparison (start : List Char) : List Char → Reading (Comparison × String)
  | [] => ⟨(.present, ""), [⟨.openAttribute, start⟩], []⟩
  | ']' :: text => ⟨(.present, ""), [], text⟩
  | text =>
    match readOp? text with
    | none => ⟨(.present, ""), [⟨.unknownOperator, text⟩], dropThroughBracket text⟩
    | some (op, text) =>
      let value := readValue start (skipBlanks text)
      let closing := closeAttr start (skipBlanks value.rest)
      ⟨(op, value.value), value.faults ++ closing.faults, closing.rest⟩

/-- An attribute test whose opening bracket has been taken. -/
def readAttr (start text : List Char) : Reading AttrTest :=
  let name := readAttrName start (skipBlanks text)
  let condition := readComparison start (skipBlanks name.rest)
  ⟨⟨name.value, condition.value.1, condition.value.2⟩, name.faults ++ condition.faults,
    condition.rest⟩

def readColon (start : List Char) : List Char → Reading Unit
  | ':' :: text => ⟨(), [⟨.doubleColon, start⟩], text⟩
  | text => ⟨(), [], text⟩

def readArgument? (start : List Char) : List Char → Reading (Option String)
  | '(' :: text =>
    let arg := readArgument text
    let cutOff := if arg.cutOff then [⟨.openArgument, start⟩] else []
    ⟨some (String.ofList arg.value), cutOff, arg.rest⟩
  | text => ⟨none, [], text⟩

/-- A pseudo-class whose first colon has been taken. -/
def readPseudo (start text : List Char) : Reading Pseudo :=
  let colon := readColon start text
  let name := readName start colon.rest
  let arg := readArgument? start name.rest
  ⟨⟨Text.lower name.value, arg.value⟩, colon.faults ++ name.faults ++ arg.faults, arg.rest⟩

/-- The lexeme at the front of `c :: text`. -/
def readLexeme (c : Char) (text : List Char) : Lexeme :=
  let start := c :: text
  if Text.isBlank c then ⟨start, .blank, [], skipBlanks text⟩
  else match c with
    | '>' => ⟨start, .combinator .child, [], text⟩
    | '+' => ⟨start, .combinator .nextSibling, [], text⟩
    | '~' => ⟨start, .combinator .followingSiblings, [], text⟩
    | '*' => ⟨start, .universal, [], text⟩
    | '#' => (readName start text).lexeme start .id
    | '.' => (readName start text).lexeme start .className
    | '[' => (readAttr start text).lexeme start .attr
    | ':' => (readPseudo start text).lexeme start .pseudo
    | _ =>
      if isNameChar c then (readName start start).lexeme start .tag
      else ⟨start, .stray, [⟨.unexpectedChar c, start⟩], text⟩

theorem skipBlanks_suffix (text : List Char) : skipBlanks text <:+ text :=
  List.dropWhile_suffix Text.isBlank

theorem dropThroughBracket_suffix (text : List Char) : dropThroughBracket text <:+ text :=
  (List.tail_suffix _).trans (List.dropWhile_suffix _)

theorem readName_rest_suffix (start text : List Char) : (readName start text).rest <:+ text :=
  Text.readEscaped_rest_suffix _ text

theorem readValue_rest_suffix (start text : List Char) : (readValue start text).rest <:+ text := by
  unfold readValue
  split
  · exact (List.tail_suffix _).trans <| (Text.readEscaped_rest_suffix _ _).trans <|
      List.suffix_cons ..
  · exact (List.tail_suffix _).trans <| (Text.readEscaped_rest_suffix _ _).trans <|
      List.suffix_cons ..
  · exact Text.readEscaped_rest_suffix _ _

theorem closeAttr_rest_suffix (start text : List Char) : (closeAttr start text).rest <:+ text := by
  unfold closeAttr
  split
  · exact List.suffix_refl []
  · exact List.suffix_cons ..
  · exact dropThroughBracket_suffix _

theorem readOp?_rest_suffix {text rest : List Char} {op : Comparison}
    (found : readOp? text = some (op, rest)) : rest <:+ text := by
  unfold readOp? at found
  split at found
  · simp only [Option.some.injEq, Prod.mk.injEq] at found
    exact found.2 ▸ List.suffix_cons ..
  · next c text _ =>
    simp only [Option.map_eq_some_iff, Prod.mk.injEq] at found
    obtain ⟨_, _, _, same⟩ := found
    exact same ▸ ⟨[c, '='], rfl⟩
  · simp at found

theorem readComparison_rest_suffix (start text : List Char) :
    (readComparison start text).rest <:+ text := by
  unfold readComparison
  split
  · exact List.suffix_refl []
  · exact List.suffix_cons ..
  · split
    · exact dropThroughBracket_suffix _
    · next found =>
      exact (closeAttr_rest_suffix _ _).trans <| (skipBlanks_suffix _).trans <|
        (readValue_rest_suffix _ _).trans <| (skipBlanks_suffix _).trans <|
          readOp?_rest_suffix found

theorem readAttr_rest_suffix (start text : List Char) : (readAttr start text).rest <:+ text :=
  (readComparison_rest_suffix _ _).trans <| (skipBlanks_suffix _).trans <|
    (Text.readEscaped_rest_suffix _ _).trans (skipBlanks_suffix _)

theorem readColon_rest_suffix (start text : List Char) : (readColon start text).rest <:+ text := by
  unfold readColon
  split
  · exact List.suffix_cons ..
  · exact List.suffix_refl _

theorem readArgument?_rest_suffix (start text : List Char) :
    (readArgument? start text).rest <:+ text := by
  unfold readArgument?
  split
  · exact (readArgument_rest_suffix _).trans (List.suffix_cons ..)
  · exact List.suffix_refl _

theorem readPseudo_rest_suffix (start text : List Char) : (readPseudo start text).rest <:+ text :=
  (readArgument?_rest_suffix _ _).trans <| (readName_rest_suffix _ _).trans <|
    readColon_rest_suffix _ _

/-- A tag takes at least the character it begins with. -/
theorem readName_rest_suffix_tail {c : Char} (name : isNameChar c = true) (start text : List Char) :
    (readName start (c :: text)).rest <:+ text := by
  unfold readName Text.readEscaped
  split
  · next same => simp at same
  · exact List.nil_suffix
  · next same =>
    cases same
    exact (Text.readEscaped_rest_suffix _ _).trans (List.suffix_cons ..)
  · next same =>
    cases same
    simpa [name] using Text.readEscaped_rest_suffix _ _

/-- A lexeme takes at least its first character. -/
theorem readLexeme_rest_suffix (c : Char) (text : List Char) :
    (readLexeme c text).rest <:+ text := by
  unfold readLexeme
  simp only
  split
  · exact skipBlanks_suffix text
  · split
    · exact List.suffix_refl _
    · exact List.suffix_refl _
    · exact List.suffix_refl _
    · exact List.suffix_refl _
    · exact readName_rest_suffix ('#' :: text) text
    · exact readName_rest_suffix ('.' :: text) text
    · exact readAttr_rest_suffix ('[' :: text) text
    · exact readPseudo_rest_suffix (':' :: text) text
    · split
      · next name => exact readName_rest_suffix_tail name (c :: text) text
      · exact List.suffix_refl _

def lexemes : List Char → List Lexeme
  | [] => []
  | c :: text =>
    let lexeme := readLexeme c text
    lexeme :: lexemes lexeme.rest
termination_by text => text.length
decreasing_by exact Nat.lt_succ_of_le (readLexeme_rest_suffix c text).length_le

end TreeSelectors
