import TreeSelectors.Document.Basic
import TreeSelectors.Document.Walk
import TreeSelectors.Matching.Condition
import TreeSelectors.Selector.Parse

/-!
  What selectors are asked of: a tree, its lookup by id, and lookups of its own, each of which may
  be refused. A document is such a host. It has two ways to the first element with an id, through
  its index and by a walk. Its lookup by selector understands tags, ids, classes, presence and
  equality of attributes, `:first-child` and `:last-child`, and matches from right to left: the last
  part against the node, the others against nodes anywhere in the document.
-/

namespace TreeSelectors

/-! ## Lookups -/

/-- Why a host did not answer. -/
inductive Refusal
  /-- There are no lookups. -/
  | absent
  /-- A selector of several parts cannot be asked below a node other than the root. -/
  | scoped
  | rejected (reason : String)
deriving DecidableEq, Repr

def Refusal.message : Refusal → String
  | .absent => "host has no native matcher"
  | .scoped => "multi-part selector cannot be scoped to a non-document context"
  | .rejected reason => "native matcher rejected the selector: " ++ reason

/-- What lookups promise. -/
structure Abilities where
  /-- Lookups by class are quick. -/
  classes : Bool := false
  /-- Lookups by class ignore ASCII case, so they find too much. -/
  classesIgnoreCase : Bool := false
  /-- Lookups by selector text are there. -/
  selectors : Bool := false
  /-- The pseudo-classes understood in selector text. -/
  pseudos : List String := []
deriving DecidableEq, Repr

/-- Each lookup gives elements strictly below a node, in document order and once each. -/
structure Lookups where
  abilities : Abilities
  byClasses : NodeId → List String → Except Refusal (List NodeId)
  byTag : NodeId → String → Except Refusal (List NodeId)
  bySelector : NodeId → String → Except Refusal (List NodeId)

end TreeSelectors

namespace TreeSelectors.Document

/-! ## Ids -/

variable (d : Document)

/-- All elements with the id, in order of assignment. -/
def holders (id : String) : List NodeId := d.ids.holders id

def indexedById? (scope : NodeId) (id : String) : Option NodeId :=
  (d.sortByOrder ((d.holders id).filter (d.isBelow · scope))).head?

def walkedById? (scope : NodeId) (id : String) : Option NodeId :=
  (d.descendants scope).find? fun n => d.isElement n && d.hasId id n

variable {d}

theorem mem_holders {n : NodeId} {id : String} : n ∈ d.holders id ↔ d.hasId id n = true := by
  have listed : n ∈ d.holders id ↔ _ := d.tree.mem_holders_iff
  rw [listed]
  cases found : d.node? n with
  | none => simp_all [hasId, attr?, content?, node?]
  | some node => simp_all [hasId, attr?, content?, node?]

end TreeSelectors.Document

namespace TreeSelectors

/-! ## Lookups of a document -/

/-- The pseudo-classes a document understands in selector text. -/
def understoodPseudos : List String := ["first-child", "last-child"]

/-- What a document does not understand in a group. -/
inductive Unsupported
  | relative
  | operator (op : Comparison)
  | pseudoClass (name : String)
deriving DecidableEq, Repr

def Unsupported.message (group : String) : Unsupported → String
  | .relative => "relative selector `" ++ group ++ "`"
  | .operator op => "attribute operator `" ++ op.symbol ++ "` in `" ++ group ++ "`"
  | .pseudoClass name => "pseudo-class `:" ++ name ++ "` in `" ++ group ++ "`"

def AttrTest.isUnderstood (test : AttrTest) : Bool := test.op = .present || test.op = .equals

def Pseudo.isUnderstood (pseudo : Pseudo) : Bool :=
  pseudo.arg.isNone && understoodPseudos.contains pseudo.name

def Part.unsupported? (part : Part) : Option Unsupported :=
  ((part.attrs.find? (!·.isUnderstood)).map (.operator ·.op)).or
    ((part.pseudos.find? (!·.isUnderstood)).map (.pseudoClass ·.name))

/-- The first obstacle in a group. -/
def unsupported? : List Part → Option Unsupported
  | [] => some .relative
  | first :: parts =>
    if first.operator = .descendant then (first :: parts).findSome? Part.unsupported?
    else some .relative

/-- The parts of a group, if a document understands it. -/
def understood (group : String) : Except Refusal (List Part) :=
  match parseWellFormed group with
  | .error error => .error (.rejected error.message)
  | .ok parts =>
    match unsupported? parts with
    | some obstacle => .error (.rejected (obstacle.message group))
    | none => .ok parts

namespace Document

variable (d : Document)

/-- Any operator but `=` is taken for presence. -/
def passesAttr (n : NodeId) (test : AttrTest) : Bool :=
  match test.op with
  | .equals => d.attr? n test.attr == some test.value
  | _ => (d.attr? n test.attr).isSome

/-- Any name but `first-child` is taken for `last-child`. -/
def passesPseudo (n : NodeId) (pseudo : Pseudo) : Bool :=
  if pseudo.name = "first-child" then d.isFirstElement n else d.isLastElement n

/-- The conditions of a part; they are its meaning if the document understands it. -/
def satisfies (part : Part) (n : NodeId) : Bool :=
  d.isElement n && part.tag.all (d.hasTag · false n) && part.id.all (d.hasId · n) &&
    part.classes.all (d.hasClass · n) && part.attrs.all (d.passesAttr n) &&
    part.pseudos.all (d.passesPseudo n)

/-- The nodes to which an operator may relate `n`, the nearest first. -/
def origins (operator : Combinator) (n : NodeId) : List NodeId :=
  match operator with
  | .descendant => d.ancestors n
  | .child => (d.parent? n).toList
  | .nextSibling => (d.previousElement? n).toList
  | .followingSiblings => d.precedingElements n

/-- Whether a chain of nodes for the parts, given last part first, can end at `n`. -/
def endsChain : List Part → NodeId → Bool
  | [], _ => true
  | part :: before, n =>
    d.satisfies part n &&
      (before.isEmpty || (d.origins part.operator n).any (endsChain before))

def hasClassAsIndexed (name : String) (n : NodeId) : Bool :=
  if d.ignoresClassCase then (d.classes n).any (Text.equalIgnoringCase · name)
  else d.hasClass name n

def elementsByClasses (scope : NodeId) (names : List String) : List NodeId :=
  (d.elementDescendants scope).filter fun n => names.all (d.hasClassAsIndexed · n)

/-- Every element for `*`, those with the tag in any case otherwise. -/
def elementsByTag (scope : NodeId) (tag : String) : List NodeId :=
  (d.elementDescendants scope).filter fun n =>
    tag == "*" || (d.tag? n).any (Text.equalIgnoringCase · tag)

def elementsBySelector (scope : NodeId) (selector : String) : Except Refusal (List NodeId) := do
  let groups ← (groupsOf selector).mapM understood
  if groups.isEmpty then .error (.rejected "empty selector")
  else .ok ((d.elementDescendants scope).filter fun n =>
    groups.any fun parts => d.endsChain parts.reverse n)

def abilities : Abilities where
  classes := true
  classesIgnoreCase := d.ignoresClassCase
  selectors := true
  pseudos := understoodPseudos

def lookups : Lookups where
  abilities := d.abilities
  byClasses scope names := .ok (d.elementsByClasses scope names)
  byTag scope tag := .ok (d.elementsByTag scope tag)
  bySelector := d.elementsBySelector

end Document

/-! ## Views -/

structure Host where
  document : Document
  elementById? : NodeId → String → Option NodeId
  lookups? : Option Lookups

/-- A host without lookups promises nothing. -/
def Host.abilities (host : Host) : Abilities :=
  (host.lookups?.map Lookups.abilities).getD {}

/-- Lookups that promise much and refuse everything. -/
def Lookups.refusing : Lookups where
  abilities := ⟨true, false, true, ["first-child", "not"]⟩
  byClasses _ _ := .error (.rejected "no class lookup")
  byTag _ _ := .error .absent
  bySelector _ selector := .error (.rejected ("refused " ++ selector))

inductive View
  /-- The id index and, unless they are turned off, the document's own lookups. -/
  | full
  /-- The tree alone. -/
  | plain
  /-- The tree and lookups that refuse. -/
  | refusing
deriving DecidableEq, Repr

def Document.host (d : Document) : View → Host
  | .full => ⟨d, d.indexedById?, if d.offersLookups then some d.lookups else none⟩
  | .plain => ⟨d, d.walkedById?, none⟩
  | .refusing => ⟨d, d.walkedById?, some .refusing⟩

@[simp]
theorem Document.document_host (d : Document) (view : View) : (d.host view).document = d := by
  cases view <;> rfl

end TreeSelectors
