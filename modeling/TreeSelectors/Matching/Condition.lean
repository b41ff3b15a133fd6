import TreeSelectors.Document.Walk
import TreeSelectors.Selector.Basic
import TreeSelectors.Text

/-!
  The conditions a selector puts on one node; a list of conditions accepts the nodes that meet all.
  Positions are of the form `a * k + b` for `k` from 0 on. Both numbers have 64 bits, and a position
  whose distance from `b`, or that distance over `a`, does not fit in 64 bits is not accepted.
-/

namespace TreeSelectors

/-! ## Positions -/

/-- `step` is `a` and `offset` is `b`. -/
structure Nth where
  step : Int64
  offset : Int64
deriving DecidableEq, Repr

namespace Nth

/-- The text before the first `n`. -/
def readStep? : List Char → Option Int64
  | [] | ['+'] => some 1
  | ['-'] => some (-1)
  | text => Text.readInt64? text

/-- The text after the first `n`; an offset must have a sign. -/
def readOffset? : List Char → Option Int64
  | [] => some 0
  | '+' :: text => Text.readInt64? ('+' :: text)
  | '-' :: text => Text.readInt64? ('-' :: text)
  | _ => none

def ofCompact? (text : List Char) : Option Nth :=
  if text = "odd".toList then some ⟨2, 1⟩
  else if text = "even".toList then some ⟨2, 0⟩
  else if 'n' ∈ text then do
    let step ← readStep? (text.takeWhile (· ≠ 'n'))
    let offset ← readOffset? (text.dropWhile (· ≠ 'n')).tail
    some ⟨step, offset⟩
  else (Text.readInt64? text).map (⟨0, ·⟩)

/-- White space does not count, nor does the case of the letters. -/
def parse? (arg : String) : Option Nth :=
  ofCompact? ((arg.toList.filter (!Text.isWhite ·)).map Char.toLower)

def accepts (nth : Nth) (position : Int64) : Bool :=
  let distance := position.toInt - nth.offset.toInt
  let count := distance.tdiv nth.step.toInt
  Text.fitsInt64 distance &&
    if nth.step = 0 then distance == 0
    else distance.tmod nth.step.toInt == 0 && 0 ≤ count && Text.fitsInt64 count

example : parse? " 2N + 1 " = some ⟨2, 1⟩ := by decide
example : parse? "-n+3" = some ⟨-1, 3⟩ := by decide
example : parse? "2n1" = none := by decide

end Nth

/-! ## Conditions -/

/-- Whether a value passes. -/
def AttrTest.accepts (test : AttrTest) (value : String) : Bool :=
  match test.op with
  | .present => true
  | .equals => value == test.value
  | .substring => Text.occursIn test.value value
  | .starts => Text.startsWith value test.value
  | .ends => Text.endsWith value test.value
  | .includes => (Text.words value).contains test.value
  | .dashed => value == test.value || Text.startsWith value (test.value ++ "-")

namespace Document

variable (d : Document)

/-- `exact` asks for the written case too. -/
def hasTag (name : TagName) (exact : Bool) (n : NodeId) : Bool :=
  match d.tag? n with
  | none => false
  | some tag => if exact then tag == name.written else Text.equalIgnoringCase tag name.written

def hasId (id : String) (n : NodeId) : Bool := d.attr? n "id" == some id

/-- The words of the class attribute. -/
def classes (n : NodeId) : List String := ((d.attr? n "class").map Text.words).getD []

def hasClass (name : String) (n : NodeId) : Bool := (d.classes n).contains name

def passes (test : AttrTest) (n : NodeId) : Bool := (d.attr? n test.attr).any test.accepts

def isFirstElement (n : NodeId) : Bool := (d.previousElement? n).isNone

def isLastElement (n : NodeId) : Bool := (d.nextElement? n).isNone

/-- Comments and empty texts do not count. -/
def isEmptyNode (n : NodeId) : Bool :=
  (d.children n).all fun c => !d.isElement c && ((d.text? c).all (· == ""))

def isChecked (n : NodeId) : Bool := (d.attr? n "checked").isSome || (d.attr? n "selected").isSome

/-- The position among element siblings, up to the largest 64-bit integer. -/
def position (n : NodeId) : Int64 := Int64.ofInt (min (d.elementPosition n) Text.maxInt64)

variable {d} {n : NodeId}

theorem isElement_of_hasTag {name : TagName} {exactTags : Bool}
    (tagged : d.hasTag name exactTags n = true) : d.isElement n = true := by
  unfold hasTag tag? at tagged
  unfold isElement
  cases found : d.content? n with
  | none => simp [found] at tagged
  | some content =>
    cases content with
    | element => rfl
    | _ => simp [found, Content.tag?] at tagged

theorem isElement_of_hasId {id : String} (identified : d.hasId id n = true) :
    d.isElement n = true := by
  unfold hasId attr? at identified
  unfold isElement
  cases found : d.content? n with
  | none => simp [found] at identified
  | some content =>
    cases content with
    | element => rfl
    | _ => simp [found, Content.attr?] at identified

end Document

inductive Condition
  | element
  | tag (name : TagName) (exact : Bool)
  | id (value : String)
  | className (name : String)
  | attr (test : AttrTest)
  | firstChild
  | lastChild
  | onlyChild
  | empty
  | checked
  /-- The markup below the node contains the text. -/
  | contains (text : String)
  /-- Without an expression no position is accepted. -/
  | nthChild (nth : Option Nth)
  | not (conditions : List Condition)
deriving Repr

abbrev Conditions := List Condition

mutual

def Condition.accepts (d : Document) (n : NodeId) : Condition → Bool
  | .element => d.isElement n
  | .tag name exact => d.hasTag name exact n
  | .id value => d.hasId value n
  | .className name => d.hasClass name n
  | .attr test => d.passes test n
  | .firstChild => d.isFirstElement n
  | .lastChild => d.isLastElement n
  | .onlyChild => d.isFirstElement n && d.isLastElement n
  | .empty => d.isEmptyNode n
  | .checked => d.isChecked n
  | .contains text => Text.occursIn text (d.innerHtml n)
  | .nthChild nth => nth.any (·.accepts (d.position n))
  | .not conditions => !Conditions.accepts d n conditions

def Conditions.accepts (d : Document) (n : NodeId) : List Condition → Bool
  | [] => true
  | condition :: conditions => condition.accepts d n && Conditions.accepts d n conditions

end

theorem Conditions.accepts_eq_all (d : Document) (n : NodeId) (conditions : Conditions) :
    Conditions.accepts d n conditions = conditions.all (·.accepts d n) := by
  induction conditions with
  | nil => rw [Conditions.accepts]; rfl
  | cons condition conditions ih => rw [Conditions.accepts, ih]; rfl

end TreeSelectors
