import TreeSelectors.Host
import TreeSelectors.Matching.Dialect
import TreeSelectors.Selector.Basic
import TreeSelectors.Text

/-!
  Running selectors. A request is what the lookup by selector of a host is asked, if it is asked at
  all. A part that is run finds its nodes from one context node: a retrieval gives candidates for
  which some conditions of the part are known to hold, and the others are put on each. The nodes of
  a group are found part by part, each from the nodes of the part before it, and repetitions are
  dropped by numbering items as they are first met. Whether given nodes are in a group is found the
  same way, once for each tree they are in.
-/

namespace TreeSelectors

/-! ## Requests -/

structure Request where
  groups : List String
  /-- Every group has one part, so that it may be asked below any node. -/
  scopable : Bool
deriving DecidableEq, Repr

/-- A group that ends in a combinator gets an explicit `*`. -/
def completeGroup (group : String) : String :=
  let text := Text.trim group.toList
  let needsPart := text.getLast?.any fun c => c == '>' || c == '+' || c == '~'
  String.ofList (if needsPart then text ++ [' ', '*'] else text)

def Request.ofGroups (groups : List String) (scopable : Bool) : Request :=
  ⟨groups.map completeGroup, scopable⟩

/-- No dash match and no pseudo-class but the listed ones. -/
def Part.isAskable (pseudos : List String) (part : Part) : Bool :=
  part.attrs.all (·.op ≠ .dashed) && part.pseudos.all fun pseudo => pseudos.contains pseudo.name

/-- A group is asked as it stands, so it must not begin with a combinator. -/
def isAskableGroup (pseudos : List String) (parts : List Part) : Bool :=
  parts.head?.any (·.operator = .descendant) && parts.all (Part.isAskable pseudos)

/-- Whether a host that lists `pseudos` may be asked for a selector with these groups. One without
    white space that has a `#` is not asked, for the lookup by id is faster. -/
def isAskable (pseudos : List String) (selector : String) (groups : List (List Part)) :
    Bool :=
  let text := Text.trim selector.toList
  !text.isEmpty && !groups.isEmpty && (text.any Text.isWhite || !text.contains '#') &&
    groups.all (isAskableGroup pseudos)

/-! ## Retrievals -/

inductive Retrieval
  /-- The first element below with the id. -/
  | byId (id : String)
  /-- All elements below with the classes. -/
  | byClasses (names : List String)
  /-- All elements below with the tag. -/
  | byTag (name : TagName)
  /-- All that is below. -/
  | walk
  | children
  | nextSibling
  | followingSiblings
deriving DecidableEq, Repr

namespace Retrieval

def ofPart (part : Part) (useClassLookup : Bool) : Retrieval :=
  match part.operator, part.id, part.tag with
  | .child, _, _ => .children
  | .nextSibling, _, _ => .nextSibling
  | .followingSiblings, _, _ => .followingSiblings
  | .descendant, some id, _ => .byId id
  | .descendant, none, tag =>
    if useClassLookup && !part.classes.isEmpty then .byClasses part.classes
    else match tag with
      | some name => .byTag name
      | none => .walk

/-- What holds of every candidate. -/
def known : Retrieval → Known
  | .byId _ => { element := true, id := true }
  | .byClasses _ => { element := true, classes := true }
  | .byTag _ => { element := true, tag := true }
  | .walk => {}
  | .children | .nextSibling | .followingSiblings => { element := true }

/-- The host's lookup, or a walk where there is none or it is refused. -/
def byClassesFrom (host : Host) (names : List String) (context : NodeId) : List NodeId :=
  match host.lookups?.bind fun lookups => (lookups.byClasses context names).toOption with
  | some found => found
  | none => (host.document.elementDescendants context).filter fun n =>
    names.all (host.document.hasClass · n)

/-- In the same way, but no lookup where tags are compared as written. -/
def byTagFrom (host : Host) (exactTags : Bool) (name : TagName) (context : NodeId) :
    List NodeId :=
  let lookups? := if exactTags then none else host.lookups?
  match lookups?.bind fun lookups => (lookups.byTag context name.folded).toOption with
  | some found => found
  | none => (host.document.descendants context).filter (host.document.hasTag name exactTags)

def candidates (host : Host) (exactTags : Bool) (retrieval : Retrieval) (context : NodeId) :
    List NodeId :=
  match retrieval with
  | .byId id => (host.elementById? context id).toList
  | .byClasses names => byClassesFrom host names context
  | .byTag name => byTagFrom host exactTags name context
  | .walk => host.document.descendants context
  | .children => host.document.elementChildren context
  | .nextSibling => (host.document.nextElement? context).toList
  | .followingSiblings => host.document.followingElements context

end Retrieval

/-- A part made ready to run. -/
structure PartPlan where
  retrieval : Retrieval
  /-- What is left to ask of candidates. -/
  remaining : Conditions
  /-- All conditions of the part. -/
  full : Conditions
  operator : Combinator
deriving Repr

def Dialect.plan (dialect : Dialect) (useClassLookup : Bool) (part : Part) : PartPlan :=
  let retrieval := Retrieval.ofPart part useClassLookup
  { retrieval
    remaining := dialect.conditions retrieval.known part
    full := dialect.conditions {} part
    operator := part.operator }

/-- The nodes of a part from one context node. -/
def PartPlan.nodesFrom (part : PartPlan) (host : Host) (exactTags : Bool) (context : NodeId) :
    List NodeId :=
  (part.retrieval.candidates host exactTags context).filter
    (Conditions.accepts host.document · part.remaining)

/-! ## Numberings -/

section

variable {α : Type} [DecidableEq α]

structure Numbering (α : Type) where
  /-- The number of the next new item; it starts over after the largest one. -/
  next : UInt64 := 1
  /-- The items met and their numbers, the first one first. -/
  numbers : List (α × UInt64) := []

namespace Numbering

def size (numbering : Numbering α) : Nat := numbering.numbers.length

/-- The number of an item; it gets the next one if it has none. -/
def numberOf (numbering : Numbering α) (item : α) : UInt64 × Numbering α :=
  match numbering.numbers.lookup item with
  | some number => (number, numbering)
  | none =>
    (numbering.next,
      { next := numbering.next + 1, numbers := numbering.numbers ++ [(item, numbering.next)] })

/-- Whether the item had no number, which shows in the next number; it has one from now on. -/
def isNew (numbering : Numbering α) (item : α) : Bool × Numbering α :=
  let later := (numbering.numberOf item).2
  (later.next != numbering.next, later)

/-- The items that have no number yet, each once. -/
def fresh (numbering : Numbering α) : List α → List α
  | [] => []
  | item :: items =>
    let (new, numbering) := numbering.isNew item
    if new then item :: numbering.fresh items else numbering.fresh items

end Numbering

/-- Keeps the first occurrence of each item. -/
def distinct (items : List α) : List α := ({} : Numbering α).fresh items

example : distinct [3, 1, 3, 2, 1] = [3, 1, 2] := by decide

end

/-! ## Runs -/

structure GroupPlan where
  text : String
  parts : List PartPlan
deriving Repr

structure SelectorPlan where
  groups : List GroupPlan
  /-- A host may be asked for it. -/
  askable : Bool
deriving Repr

/-- A group of one part that may be anywhere below is not run: the part is put on a node itself. -/
def GroupPlan.alone? (group : GroupPlan) : Option PartPlan :=
  match group.parts with
  | [part] => if part.operator = .descendant then some part else none
  | _ => none

/-- The groups that were run, by their number and the node they were run from. -/
abbrev Runs := List ((Nat × NodeId) × List NodeId)

namespace Host

variable (host : Host) (exactTags : Bool)

/-- The nodes of a part, in order and once each; those from one context already are. -/
def follow (contexts : List NodeId) (part : PartPlan) : List NodeId :=
  match contexts with
  | [] => []
  | [context] => part.nodesFrom host exactTags context
  | contexts =>
    host.document.sortByOrder (distinct (contexts.flatMap (part.nodesFrom host exactTags)))

def runParts (parts : List PartPlan) (root : NodeId) : List NodeId :=
  if parts.isEmpty then [] else parts.foldl (host.follow exactTags) [root]

def runGroups (groups : List GroupPlan) (root : NodeId) : List NodeId :=
  match groups with
  | [group] => host.runParts exactTags group.parts root
  | groups => distinct (groups.flatMap fun group => host.runParts exactTags group.parts root)

/-- The nodes of a group from one node; they are not looked for again. -/
def runOnce (group : GroupPlan) (number : Nat) (root : NodeId) : StateM Runs (List NodeId) := do
  match (← get).lookup (number, root) with
  | some found => return found
  | none =>
    let found := host.runParts exactTags group.parts root
    modify fun runs => ((number, root), found) :: runs
    return found

/-- Whether a node is in a group that is run from the top of the tree of the node. -/
def isIn (n : NodeId) (group : GroupPlan) (number : Nat) : StateM Runs Bool := do
  match group.alone? with
  | some part => return Conditions.accepts host.document n part.full
  | none => return (← host.runOnce exactTags group number (host.document.top n)).contains n

/-- The nodes that are in some group, in the order given. -/
def keep (groups : List GroupPlan) (nodes : List NodeId) : List NodeId :=
  let keeping := nodes.filterM fun n =>
    groups.zipIdx.anyM fun (group, number) => host.isIn exactTags n group number
  (keeping.run []).1

end Host

end TreeSelectors
