import Std.Data.HashMap
import TreeSelectors.Query.Run
import TreeSelectors.Selector.Parse
import TreeSelectors.Text

/-!
  What the answers of an engine depend on, apart from the host and the selector, and what an engine
  keeps from call to call: selectors and requests by selector text, parts by canonical text. Nothing
  is ever dropped.
-/

namespace TreeSelectors

/-! ## Switches -/

structure Config where
  /-- Ask the host before interpreting. -/
  askHost : Bool := true
  /-- Use the host's lookup by class. -/
  useClassLookup : Bool := true
  /-- Compare tags as written. -/
  exactTags : Bool := false
deriving DecidableEq, Repr

/-- `1` is on, `0` is off, anything else leaves the switch as it is. -/
def readSwitch (text : Option String) (fallback : Bool) : Bool :=
  match text.map fun text => Text.trim text.toList with
  | some ['1'] => true
  | some ['0'] => false
  | _ => fallback

def Config.ofVars (lookup : String → Option String) : Config where
  askHost := readSwitch (lookup "QUERY_NATIVE") true
  useClassLookup := readSwitch (lookup "QUERY_CLASS_INDEX") true
  exactTags := readSwitch (lookup "QUERY_CASE_SENSITIVE") false

/-! ## Settings -/

structure Settings where
  config : Config := {}
  abilities : Abilities := {}
  vocabulary : Vocabulary := Vocabulary.standard

namespace Settings

variable (settings : Settings)

def dialect : Dialect := ⟨settings.vocabulary, settings.config.exactTags⟩

/-- A lookup that finds too much is not used. -/
def useClassLookup : Bool :=
  settings.config.useClassLookup && settings.abilities.classes &&
    !settings.abilities.classesIgnoreCase

/-- Hosts ignore the case of tags, so they are not asked where it counts. -/
def asksHost : Bool :=
  settings.config.askHost && settings.abilities.selectors &&
    !settings.config.exactTags

end Settings

/-! ## Caches -/

structure Cache where
  selectors : Std.HashMap String SelectorPlan := {}
  requests : Std.HashMap String Request := {}
  parts : Std.HashMap String PartPlan := {}
  /-- Calls that found their selector; this number and the next start over after the largest one. -/
  hits : UInt64 := 0
  /-- Calls that planned it. -/
  misses : UInt64 := 0

structure CacheCounts where
  hits : Nat
  misses : Nat
  selectors : Nat
  requests : Nat
  parts : Nat
deriving DecidableEq, Repr

def Cache.counts (cache : Cache) : CacheCounts :=
  ⟨cache.hits.toNat, cache.misses.toNat, cache.selectors.size, cache.requests.size,
    cache.parts.size⟩

namespace Settings

variable (settings : Settings)

def planPart (part : Part) : StateM Cache PartPlan := do
  match (← get).parts[part.canonical]? with
  | some found => return found
  | none =>
    let built := settings.dialect.plan settings.useClassLookup part
    modify fun cache => { cache with parts := cache.parts.insert part.canonical built }
    return built

def planGroup (text : String) : StateM Cache GroupPlan := do
  return ⟨text, ← (parse text).mapM settings.planPart⟩

/-- Whether a host may be asked for a selector. -/
def isAskable (selector : String) : Bool :=
  settings.asksHost && TreeSelectors.isAskable settings.abilities.pseudos selector
    ((groupsOf selector).map parse)

def planNew (selector : String) : StateM Cache SelectorPlan := do
  return ⟨← (groupsOf selector).mapM settings.planGroup, settings.isAskable selector⟩

def planSelector (selector : String) : StateM Cache SelectorPlan := do
  match (← get).selectors[selector]? with
  | some found =>
    modify fun cache => { cache with hits := cache.hits + 1 }
    return found
  | none =>
    let built ← settings.planNew selector
    modify fun cache =>
      { cache with selectors := cache.selectors.insert selector built, misses := cache.misses + 1 }
    return built

end Settings

namespace SelectorPlan

def request (plan : SelectorPlan) : Request :=
  .ofGroups (plan.groups.map GroupPlan.text)
    (plan.groups.all (·.parts.length == 1))

/-- The request for a selector with the given text. -/
def keptRequest (plan : SelectorPlan) (selector : String) : StateM Cache Request := do
  match (← get).requests[selector]? with
  | some found => return found
  | none =>
    let built := plan.request
    modify fun cache => { cache with requests := cache.requests.insert selector built }
    return built

end SelectorPlan

end TreeSelectors
