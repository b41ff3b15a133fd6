/-!
  Texts. Letter case is that of the ASCII letters alone. White space is of two kinds: selector
  syntax and class lists are separated by the five ASCII blanks; groups, arguments and settings are
  trimmed of everything Unicode calls white space. Integers are decimal texts of 64 bits. What is
  written into markup takes character entities. A reader of backslash escapes drops each backslash
  and keeps the character after it, whatever that is; a writer puts a backslash before each special
  character.
-/

namespace TreeSelectors.Text

/-! ## Case -/

def upper (text : String) : String := text.map Char.toUpper

def lower (text : String) : String := text.map Char.toLower

def equalIgnoringCase (a b : String) : Bool := lower a == lower b

example : upper "h1-é" = "H1-é" := by cbv

/-! ## White space -/

/-- Space, tab, line feed, form feed or carriage return. -/
def isBlank (c : Char) : Bool :=
  c == ' ' || c == '\t' || c == '\n' || c == '\x0c' || c == '\r'

/-- First and last code points of the runs with the Unicode property White_Space. -/
def whiteRanges : List (Nat × Nat) :=
  [(0x09, 0x0d), (0x20, 0x20), (0x85, 0x85), (0xa0, 0xa0), (0x1680, 0x1680), (0x2000, 0x200a),
    (0x2028, 0x2029), (0x202f, 0x202f), (0x205f, 0x205f), (0x3000, 0x3000)]

def isWhite (c : Char) : Bool :=
  whiteRanges.any fun (first, last) => first ≤ c.toNat && c.toNat ≤ last

def trimStart (text : List Char) : List Char := text.dropWhile isWhite

def trimEnd (text : List Char) : List Char := (text.reverse.dropWhile isWhite).reverse

def trim (text : List Char) : List Char := trimEnd (trimStart text)

theorem trimStart_suffix (text : List Char) : trimStart text <:+ text :=
  List.dropWhile_suffix isWhite

theorem trimEnd_prefix (text : List Char) : trimEnd text <+: text :=
  List.reverse_suffix.mp (by simpa [trimEnd] using List.dropWhile_suffix isWhite)

example : (whiteRanges.map fun (first, last) => last - first + 1).sum = 25 := by decide
example : trim [' ', '\u00a0', 'a', ' ', 'b', '\u3000'] = ['a', ' ', 'b'] := by decide

/-! ## Words -/

/-- The non-empty runs between ASCII blanks, in order. -/
def words (text : String) : List String :=
  ((text.toList.splitOnP isBlank).filter (· ≠ [])).map String.ofList

def hasRun (needle : List Char) : List Char → Bool
  | [] => needle.isEmpty
  | c :: text => needle.isPrefixOf (c :: text) || hasRun needle text

def occursIn (needle text : String) : Bool := hasRun needle.toList text.toList

def startsWith (text start : String) : Bool := start.toList.isPrefixOf text.toList

def endsWith (text ending : String) : Bool := ending.toList.isSuffixOf text.toList

theorem hasRun_iff {needle text : List Char} : hasRun needle text = true ↔ needle <:+: text := by
  induction text with
  | nil => simp [hasRun]
  | cons c text ih => simp [hasRun, ih, List.infix_cons_iff]

theorem occursIn_iff {needle text : String} :
    occursIn needle text = true ↔ needle.toList <:+: text.toList :=
  hasRun_iff

example : words " a\tb  c" = ["a", "b", "c"] := by decide

/-! ## Integers -/

def minInt64 : Int := -0x8000000000000000

def maxInt64 : Int := 0x7fffffffffffffff

def fitsInt64 (i : Int) : Bool := minInt64 ≤ i && i ≤ maxInt64

def digitValue (c : Char) : Nat := c.toNat - '0'.toNat

/-- The number that a non-empty run of digits denotes. -/
def readNat? (digits : List Char) : Option Nat :=
  if digits ≠ [] ∧ digits.all Char.isDigit then
    some (digits.foldl (fun value c => 10 * value + digitValue c) 0)
  else none

def readInt? : List Char → Option Int
  | '+' :: digits => (readNat? digits).map Int.ofNat
  | '-' :: digits => (readNat? digits).map fun value => -Int.ofNat value
  | digits => (readNat? digits).map Int.ofNat

/-- `none` also for a number out of range. -/
def readInt64? (text : List Char) : Option Int64 :=
  ((readInt? text).filter fitsInt64).map Int64.ofInt

example : readInt64? "-9223372036854775808".toList = some Int64.minValue := by decide
example : readInt64? "9223372036854775808".toList = none := by decide
example : readInt64? "+-1".toList = none := by decide

/-! ## Entities -/

/-- Inside an attribute value the double quote is written as an entity too. -/
def entity (inAttribute : Bool) (c : Char) : List Char :=
  match c with
  | '&' => "&amp;".toList
  | '<' => "&lt;".toList
  | '>' => "&gt;".toList
  | '"' => if inAttribute then "&quot;".toList else ['"']
  | c => [c]

def encodeEntities (inAttribute : Bool) (text : String) : List Char :=
  text.toList.flatMap (entity inAttribute)

/-! ## Escapes -/

/-- What a reader took from the front of a text. -/
structure Escaped where
  value : List Char
  /-- The text ended in a backslash with nothing after it. -/
  dangling : Bool
  rest : List Char
deriving DecidableEq, Repr

/-- Reads up to the first unescaped character at which `stop` holds of it and the text after it. -/
def readEscaped (stop : Char → List Char → Bool) : List Char → Escaped
  | [] => ⟨[], false, []⟩
  | ['\\'] => ⟨[], true, []⟩
  | '\\' :: c :: text =>
    let tail := readEscaped stop text
    { tail with value := c :: tail.value }
  | c :: text =>
    if stop c text then ⟨[], false, c :: text⟩
    else
      let tail := readEscaped stop text
      { tail with value := c :: tail.value }

def escape (special : Char → Bool) : List Char → List Char
  | [] => []
  | c :: text => if special c then '\\' :: c :: escape special text else c :: escape special text

theorem readEscaped_rest_suffix (stop : Char → List Char → Bool) (text : List Char) :
    (readEscaped stop text).rest <:+ text := by
  fun_induction readEscaped stop text with
  | case1 => exact List.suffix_refl []
  | case2 => exact List.nil_suffix
  | case3 c text _ ih => exact ih.trans ⟨['\\', c], rfl⟩
  | case4 => exact List.suffix_refl _
  | case5 c text _ _ _ _ ih => exact ih.trans (List.suffix_cons c text)

/-- A written text reads back, when all that stops the reader is escaped and the reader stops
    after it. -/
theorem readEscaped_escape_append {stop : Char → List Char → Bool} {special : Char → Bool}
    (backslash : special '\\' = true)
    (escaped : ∀ c text, stop c text = true → special c = true)
    (after : List Char) (stopped : readEscaped stop after = ⟨[], false, after⟩) (text : List Char) :
    readEscaped stop (escape special text ++ after) = ⟨text, false, after⟩ := by
  induction text with
  | nil => exact stopped
  | cons c text ih =>
    by_cases written : special c = true
    · simp [escape, written, readEscaped, ih]
    · have plain : c ≠ '\\' := fun same => written (same ▸ backslash)
      have goes : stop c (escape special text ++ after) = false := by
        cases held : stop c (escape special text ++ after) with
        | false => rfl
        | true => exact absurd (escaped _ _ held) written
      simp only [escape, written, Bool.false_eq_true, ↓reduceIte, List.cons_append]
      rw [readEscaped.eq_4 _ _ _ (by simp_all) (by simp_all)]
      simp [goes, ih]

end TreeSelectors.Text
