import TreeSelectors.Selector.Lexeme
import TreeSelectors.Text

/-!
  Parts from tokens, and back to text. Tokens build up a draft of a part; a blank or a combinator
  completes it. `parse` takes any text of a group, `parseWellFormed` only text without flaws. A
  selector is a comma-separated list of groups; the commas are cut first, so one inside quotes or an
  argument separates too.

  The canonical text of a part has operator, tag, id, classes, attribute tests and pseudo-classes,
  or `*` for a part that asks for nothing. Names are escaped, values quoted, arguments copied.
-/

namespace TreeSelectors

/-! ## Drafts -/

/-- A component whose name is missing; it adds nothing to a part. -/
def Token.isNameless : Token → Bool
  | .tag name | .id name | .className name => name == ""
  | .attr test => test.attr == ""
  | .pseudo named => named.name == ""
  | _ => false

/-- A part while its tokens are read. -/
structure Draft where
  part : Part := {}
  /-- A `*` has been read. -/
  starred : Bool := false
deriving DecidableEq, Repr

namespace Draft

/-- Nothing has been read but perhaps a combinator. -/
def isEmpty (draft : Draft) : Bool :=
  !draft.starred && draft.part.anyTag && draft.part.id.isNone && !draft.part.hasTests

def completed? (draft : Draft) : Option Part :=
  if draft.isEmpty then none else some draft.part

/-- The draft with one more component; the first tag stays and the last id wins. -/
def add (draft : Draft) : Token → Draft
  | .universal => { draft with starred := true }
  | .tag name => { draft with part.tag := draft.part.tag.or (some ⟨name⟩) }
  | .id name => { draft with part.id := some name }
  | .className name => { draft with part.classes := draft.part.classes ++ [name] }
  | .attr test => { draft with part.attrs := draft.part.attrs ++ [test] }
  | .pseudo pseudo => { draft with part.pseudos := draft.part.pseudos ++ [pseudo] }
  | .blank | .combinator _ | .stray => draft

/-- The part that a token completes and the draft after the token. -/
def step (draft : Draft) : Token → Option Part × Draft
  | .blank => if draft.isEmpty then (none, draft) else (some draft.part, {})
  | .combinator operator => (draft.completed?, { part.operator := operator })
  | token => (none, if token.isNameless then draft else draft.add token)

/-- What is wrong with a token where the draft stands. -/
def complaint? (draft : Draft) : Token → Option FlawKind
  | .combinator _ =>
    if draft.isEmpty && draft.part.operator ≠ .descendant then some .repeatedCombinator else none
  | .universal => if draft.isEmpty then none else some .lateTag
  | .tag name => if name == "" || draft.isEmpty then none else some .lateTag
  | .id name => if name == "" || draft.part.id.isNone then none else some .secondId
  | _ => none

/-- The parts that tokens build from a draft on. A combinator at the end relates any element. -/
def parts (draft : Draft) : List Token → List Part
  | [] => if draft.isEmpty && draft.part.operator = .descendant then [] else [draft.part]
  | token :: tokens => (draft.step token).1.toList ++ (draft.step token).2.parts tokens

/-- All faults in lexemes, in order of their places. -/
def faults (draft : Draft) : List Lexeme → List Fault
  | [] => []
  | lexeme :: lexemes =>
    (draft.complaint? lexeme.token).toList.map (⟨·, lexeme.start⟩) ++ lexeme.faults ++
      (draft.step lexeme.token).2.faults lexemes

end Draft

/-! ## Groups -/

def tokens (selector : String) : List Token := (lexemes selector.toList).map Lexeme.token

def parse (selector : String) : List Part := ({} : Draft).parts (tokens selector)

/-- Bytes of the UTF-8 form. -/
def byteLength : List Char → Nat
  | [] => 0
  | c :: text => c.utf8Size + byteLength text

/-- The byte offset in `text` of a place in it. -/
def offsetOf (text place : List Char) : Nat := byteLength text - byteLength place

/-- In order of offset. -/
def flaws (selector : String) : List Flaw :=
  (({} : Draft).faults (lexemes selector.toList)).map fun fault =>
    ⟨fault.kind, offsetOf selector.toList fault.place⟩

def parseWellFormed (selector : String) : Except Malformed (List Part) :=
  match flaws selector with
  | [] => .ok (parse selector)
  | flaw :: _ => .error ⟨selector, flaw⟩

/-! ## Selectors -/

/-- The trimmed groups that are not empty. -/
def groupsOf (selector : String) : List String :=
  (((selector.toList.splitOn ',').map Text.trim).filter (· ≠ [])).map String.ofList

example : groupsOf " a , b,, c " = ["a", "b", "c"] := by decide
example : groupsOf " , " = [] := by decide
example : groupsOf "[title='a,b']" = ["[title='a", "b']"] := by decide

/-! ## Canonical texts -/

def writeName (name : String) : List Char := Text.escape (fun c => !isPlainChar c) name.toList

def writeQuoted (value : String) : List Char :=
  '"' :: Text.escape (fun c => c == '"' || c == '\\') value.toList ++ ['"']

def Combinator.write (operator : Combinator) : List Char :=
  match operator.symbol? with
  | none => []
  | some symbol => [symbol, ' ']

def AttrTest.write (test : AttrTest) : List Char :=
  let condition :=
    if test.op = .present then [] else test.op.symbol.toList ++ writeQuoted test.value
  '[' :: writeName test.attr ++ condition ++ [']']

def Pseudo.write (pseudo : Pseudo) : List Char :=
  let arg := match pseudo.arg with
    | none => []
    | some arg => '(' :: arg.toList ++ [')']
  ':' :: writeName pseudo.name ++ arg

namespace Part

def writeConditions (part : Part) : List Char :=
  (part.tag.map fun name => writeName name.written).getD [] ++
    (part.id.map fun id => '#' :: writeName id).getD [] ++
    part.classes.flatMap (fun name => '.' :: writeName name) ++
    part.attrs.flatMap AttrTest.write ++ part.pseudos.flatMap Pseudo.write

def write (part : Part) : List Char :=
  part.operator.write ++ if part.writeConditions = [] then ['*'] else part.writeConditions

def canonical (part : Part) : String := String.ofList part.write

end Part

end TreeSelectors
