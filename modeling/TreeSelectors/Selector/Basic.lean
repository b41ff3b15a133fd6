import TreeSelectors.Text

/-!
  A selector group is a list of parts. A part is the conjunction of its tag, id, classes, attribute
  tests and pseudo-classes; its operator relates it to the part on its left, or to the node a query
  starts from.

  Reading a selector never fails: malformed text is read as well as it can be, and each place where
  that took a guess is a flaw. A selector is well formed when it has none.
-/

namespace TreeSelectors

/-! ## Parts -/

inductive Combinator
  | descendant
  | child
  /-- The element sibling right after. -/
  | nextSibling
  /-- Every later element sibling. -/
  | followingSiblings
deriving DecidableEq, Repr

/-- Only the descendant relation is written without a symbol. -/
def Combinator.symbol? : Combinator → Option Char
  | .descendant => none
  | .child => some '>'
  | .nextSibling => some '+'
  | .followingSiblings => some '~'

/-- A tag name as written, escapes removed. -/
structure TagName where
  written : String
deriving DecidableEq, Repr

/-- The spelling under which names of different case are the same tag. -/
def TagName.folded (name : TagName) : String := Text.upper name.written

inductive Comparison
  /-- The attribute is there, whatever its value. -/
  | present
  | equals
  | substring
  | starts
  | ends
  /-- The expected value is one of the words of the attribute. -/
  | includes
  /-- Equal to the expected value, or to it and a dash and more. -/
  | dashed
deriving DecidableEq, Repr

def Comparison.symbol : Comparison → String
  | .present => ""
  | .equals => "="
  | .substring => "*="
  | .starts => "^="
  | .ends => "$="
  | .includes => "~="
  | .dashed => "|="

/-- `[attr op value]`; the value of a presence test is empty. -/
structure AttrTest where
  attr : String
  op : Comparison
  value : String
deriving DecidableEq, Repr

/-- `:name` or `:name(arg)`, the name in lower case. -/
structure Pseudo where
  name : String
  arg : Option String
deriving DecidableEq, Repr

structure Part where
  /-- `none` accepts every element. -/
  tag : Option TagName := none
  id : Option String := none
  classes : List String := []
  attrs : List AttrTest := []
  pseudos : List Pseudo := []
  operator : Combinator := .descendant
deriving DecidableEq, Repr

namespace Part

def anyTag (part : Part) : Bool := part.tag.isNone

def hasTests (part : Part) : Bool :=
  !part.classes.isEmpty || !part.attrs.isEmpty || !part.pseudos.isEmpty

/-- The argument texts of the pseudo-classes that have one. -/
def arguments (part : Part) : List String := part.pseudos.filterMap Pseudo.arg

end Part

/-! ## Flaws -/

inductive FlawKind
  | unexpectedChar (c : Char)
  /-- `#`, `.`, `:` or `[` without a name. -/
  | missingName
  | cutEscape
  | openAttribute
  | unknownOperator
  | openValue
  | openArgument
  /-- `::name`, read as `:name`. -/
  | doubleColon
  /-- A second id in one part replaces the first. -/
  | secondId
  | lateTag
  /-- A combinator right after another replaces it. -/
  | repeatedCombinator
deriving DecidableEq, Repr

def FlawKind.message : FlawKind → String
  | .unexpectedChar c => "unexpected character `" ++ c.toString ++ "`"
  | .missingName => "missing name"
  | .cutEscape => "dangling escape"
  | .openAttribute => "unterminated attribute selector"
  | .unknownOperator => "unknown attribute operator"
  | .openValue => "unterminated quoted value"
  | .openArgument => "unterminated pseudo-class argument"
  | .doubleColon => "pseudo-element used as pseudo-class"
  | .secondId => "duplicate id"
  | .lateTag => "tag name after other components"
  | .repeatedCombinator => "consecutive combinators"

/-- The offset counts bytes of the selector's UTF-8 form. -/
structure Flaw where
  kind : FlawKind
  offset : Nat
deriving DecidableEq, Repr

/-- A selector and the first of its flaws. -/
structure Malformed where
  selector : String
  flaw : Flaw
deriving DecidableEq, Repr

def Malformed.message (error : Malformed) : String :=
  error.flaw.kind.message ++ " at byte " ++ toString error.flaw.offset ++
    " in selector `" ++ error.selector ++ "`"

end TreeSelectors
