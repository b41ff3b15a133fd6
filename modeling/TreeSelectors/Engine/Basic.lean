import TreeSelectors.Engine.Cache

/-!
  An engine answers queries. It asks the host where that is allowed and interprets the selector
  where it is not or the host refuses, so that refusals never reach the caller.
-/

namespace TreeSelectors

/-- Where an answer comes from. -/
inductive Route
  | host
  /-- Interpreted after the host refused. -/
  | fallback (refusal : Refusal)
  | interpreted
deriving DecidableEq, Repr

structure Answer where
  nodes : List NodeId
  route : Route
deriving DecidableEq, Repr

/-- What a host answers. Several groups are asked one by one, which keeps their order. -/
def Request.ask (request : Request) (host : Host) (root : NodeId) :
    Except Refusal (List NodeId) :=
  if !request.scopable && root ≠ Document.root then .error .scoped
  else match host.lookups? with
    | none => .error .absent
    | some lookups =>
      match request.groups with
      | [group] => lookups.bySelector root group
      | groups => (groups.mapM (lookups.bySelector root)).map fun found => distinct found.flatten

inductive Call
  | query (selector : String) (root : NodeId)
  | findFirst (selector : String) (root : NodeId)
  /-- A query whose groups must all be well formed. -/
  | findWellFormed (selector : String) (root : NodeId)
  | test (node : NodeId) (selector : String)
  | keep (nodes : List NodeId) (selector : String)
deriving DecidableEq, Repr

inductive Reply
  | answer (answer : Answer)
  | first (node : Option NodeId)
  | found (nodes : List NodeId)
  | malformed (error : Malformed)
  | verdict (holds : Bool)
  | kept (nodes : List NodeId)
deriving DecidableEq, Repr

/-- The first group of a selector that is not well formed. -/
def malformed? (selector : String) : Option Malformed :=
  (groupsOf selector).findSome? fun group =>
    match parseWellFormed group with
    | .ok _ => none
    | .error error => some error

namespace Settings

variable (settings : Settings) (host : Host)

def interpret (plan : SelectorPlan) (root : NodeId) : List NodeId :=
  host.runGroups settings.config.exactTags plan.groups root

def query (selector : String) (root : NodeId) : StateM Cache Answer := do
  let plan ← settings.planSelector selector
  if plan.askable then
    match (← plan.keptRequest selector).ask host root with
    | .ok nodes => return ⟨nodes, .host⟩
    | .error refusal => return ⟨settings.interpret host plan root, .fallback refusal⟩
  else return ⟨settings.interpret host plan root, .interpreted⟩

/-- The nodes that are in some group, in the order given. -/
def keep (nodes : List NodeId) (selector : String) : StateM Cache (List NodeId) := do
  let plan ← settings.planSelector selector
  return host.keep settings.config.exactTags plan.groups nodes

def call : Call → StateM Cache Reply
  | .query selector root => return .answer (← settings.query host selector root)
  | .findFirst selector root => return .first (← settings.query host selector root).nodes.head?
  | .findWellFormed selector root => do
    match malformed? selector with
    | some error => return .malformed error
    | none => return .found (← settings.query host selector root).nodes
  | .test node selector => return .verdict !(← settings.keep host [node] selector).isEmpty
  | .keep nodes selector => return .kept (← settings.keep host nodes selector)

end Settings

structure Engine where
  settings : Settings
  cache : Cache := {}

namespace Engine

/-- An engine that knows what the lookups of a host can do. -/
def ofHost (config : Config) (host : Host) : Engine where
  settings := { config, abilities := host.abilities }

def call (engine : Engine) (host : Host) (call : Call) : Reply × Engine :=
  let (reply, cache) := (engine.settings.call host call).run engine.cache
  (reply, { engine with cache })

end Engine

end TreeSelectors
