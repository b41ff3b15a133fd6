import Mathlib.Logic.Function.Basic
import TreeSelectors.Document.Edit
import TreeSelectors.Engine.Basic
import TreeSelectors.Proofs.Selector.RoundTrip

/-!
  Actions that keep what they have found. An action yields a value when it gives that value from
  every sound state and leaves a sound state; what is kept then changes no result.

  The cache changes no reply. A cache is sound when each entry is what its key would be planned to
  (`Cache.IsSound`); parts are kept by canonical text, so soundness rests on no two parts having the
  same one. Planning through a sound cache yields what planning without one does, and so does every
  call. Main statement: `reply_after`.

  Sessions. One engine serves calls on documents that are edited in between, each call on any of
  them and in any view. A step from a session with a sound cache leaves a sound one and replies as a
  step from the session with a new engine does (`Session.step_of_isSound`): nothing that is kept
  depends on a document. Main statement: `Session.replies_eq_repliesAnew`.
-/

namespace TreeSelectors

/-! ## Actions that keep -/

section

variable {σ α β : Type}

/-- Run on a sound state, the action gives the value and leaves a sound state. -/
def Yields (IsSound : σ → Prop) (action : StateM σ α) (value : α) : Prop :=
  ∀ state, IsSound state → (action.run state).1 = value ∧ IsSound (action.run state).2

namespace Yields

variable {IsSound : σ → Prop}

theorem pure (value : α) : Yields IsSound (pure value) value :=
  fun _ sound => ⟨rfl, sound⟩

theorem bind {action : StateM σ α} {next : α → StateM σ β} {value : α} {result : β}
    (first : Yields IsSound action value) (second : Yields IsSound (next value) result) :
    Yields IsSound (action >>= next) result := by
  intro state sound
  obtain ⟨here, kept⟩ := first state sound
  have later := second _ kept
  rw [← here] at later
  exact later

/-- What follows may rely on the soundness of the state that was seen. -/
theorem get {next : σ → StateM σ α} {value : α}
    (each : ∀ state, IsSound state → Yields IsSound (next state) value) :
    Yields IsSound (MonadState.get >>= next) value :=
  fun state sound => each state sound state sound

theorem modify {change : σ → σ} (keeps : ∀ state, IsSound state → IsSound (change state)) :
    Yields IsSound (modify change) () :=
  fun state sound => ⟨rfl, keeps state sound⟩

theorem mapM {action : α → StateM σ β} {value : α → β} {items : List α}
    (each : ∀ item ∈ items, Yields IsSound (action item) (value item)) :
    Yields IsSound (items.mapM action) (items.map value) := by
  induction items with
  | nil => exact .pure []
  | cons item items ih =>
    rw [List.mapM_cons, List.map_cons]
    have rest := ih fun other later => each other (.tail _ later)
    exact (each item (.head _)).bind (rest.bind (.pure _))

/-- Items after the first that passes are not tested. -/
theorem anyM {test : α → StateM σ Bool} {passes : α → Bool} {items : List α}
    (each : ∀ item ∈ items, Yields IsSound (test item) (passes item)) :
    Yields IsSound (items.anyM test) (items.any passes) := by
  induction items with
  | nil => exact .pure false
  | cons item items ih =>
    rw [List.anyM_cons, List.any_cons]
    refine (each item (.head _)).bind ?_
    cases passes item with
    | true => exact .pure true
    | false => exact ih fun other later => each other (.tail _ later)

theorem filterAuxM {test : α → StateM σ Bool} {passes : α → Bool} {items : List α}
    (each : ∀ item ∈ items, Yields IsSound (test item) (passes item)) (kept : List α) :
    Yields IsSound (items.filterAuxM test kept) ((items.filter passes).reverse ++ kept) := by
  induction items generalizing kept with
  | nil => exact .pure kept
  | cons item items ih =>
    have rest (kept : List α) := ih (fun other later => each other (.tail _ later)) kept
    rw [List.filterAuxM, List.filter_cons]
    refine (each item (.head _)).bind ?_
    cases passes item with
    | true => simpa using rest (item :: kept)
    | false => exact rest kept

theorem filterM {test : α → StateM σ Bool} {passes : α → Bool} {items : List α}
    (each : ∀ item ∈ items, Yields IsSound (test item) (passes item)) :
    Yields IsSound (items.filterM test) (items.filter passes) := by
  refine (filterAuxM each []).bind ?_
  rw [List.append_nil, List.reverse_reverse]
  exact .pure _

end Yields

end

namespace Settings

variable (settings : Settings)

/-! ## Planning without a cache -/

def groupPlan (text : String) : GroupPlan :=
  ⟨text, (parse text).map (settings.dialect.plan settings.useClassLookup)⟩

def selectorPlan (selector : String) : SelectorPlan :=
  ⟨(groupsOf selector).map settings.groupPlan, settings.isAskable selector⟩

def answer (host : Host) (selector : String) (root : NodeId) : Answer :=
  let plan := settings.selectorPlan selector
  if plan.askable then
    match plan.request.ask host root with
    | .ok nodes => ⟨nodes, .host⟩
    | .error refusal => ⟨settings.interpret host plan root, .fallback refusal⟩
  else ⟨settings.interpret host plan root, .interpreted⟩

def kept (host : Host) (nodes : List NodeId) (selector : String) : List NodeId :=
  host.keep settings.config.exactTags (settings.selectorPlan selector).groups nodes

def reply (host : Host) : Call → Reply
  | .query selector root => .answer (settings.answer host selector root)
  | .findFirst selector root => .first (settings.answer host selector root).nodes.head?
  | .findWellFormed selector root =>
    match malformed? selector with
    | some error => .malformed error
    | none => .found (settings.answer host selector root).nodes
  | .test node selector => .verdict !(settings.kept host [node] selector).isEmpty
  | .keep nodes selector => .kept (settings.kept host nodes selector)

end Settings

/-! ## Sound caches -/

structure Cache.IsSound (settings : Settings) (cache : Cache) : Prop where
  selectors : ∀ {selector plan}, cache.selectors[selector]? = some plan →
    plan = settings.selectorPlan selector
  requests : ∀ {selector request}, cache.requests[selector]? = some request →
    request = (settings.selectorPlan selector).request
  parts : ∀ {part : Part} {plan}, part.IsWritable → cache.parts[part.canonical]? = some plan →
    plan = settings.dialect.plan settings.useClassLookup part

theorem Cache.isSound_empty (settings : Settings) : Cache.IsSound settings {} where
  selectors := by simp
  requests := by simp
  parts := by simp

/-- An entry is new or was there. -/
theorem eq_or_getElem?_of_insert {α : Type} {map : Std.HashMap String α} {key other : String}
    {value found : α} (present : (map.insert key value)[other]? = some found) :
    (key = other ∧ value = found) ∨ map[other]? = some found := by
  rw [Std.HashMap.getElem?_insert] at present
  split at present
  · next same => exact .inl ⟨eq_of_beq same, Option.some.inj present⟩
  · exact .inr present

namespace Cache.IsSound

variable {settings : Settings} {cache : Cache}

/-- A writable part that is kept by the same text is the same part. -/
theorem insertPart (sound : cache.IsSound settings) {part : Part} (writable : part.IsWritable) :
    Cache.IsSound settings { cache with
      parts := cache.parts.insert part.canonical
        (settings.dialect.plan settings.useClassLookup part) } := by
  refine ⟨sound.selectors, sound.requests, ?_⟩
  intro other plan also present
  rcases eq_or_getElem?_of_insert present with ⟨same, rfl⟩ | before
  · rw [eq_of_canonical_eq writable also same]
  · exact sound.parts also before

theorem insertSelector (sound : cache.IsSound settings) (selector : String) :
    Cache.IsSound settings { cache with
      selectors := cache.selectors.insert selector (settings.selectorPlan selector)
      misses := cache.misses + 1 } := by
  refine ⟨?_, sound.requests, sound.parts⟩
  intro other plan present
  rcases eq_or_getElem?_of_insert present with ⟨rfl, rfl⟩ | before
  · rfl
  · exact sound.selectors before

theorem insertRequest (sound : cache.IsSound settings) (selector : String) :
    Cache.IsSound settings { cache with
      requests := cache.requests.insert selector (settings.selectorPlan selector).request } := by
  refine ⟨sound.selectors, ?_, sound.parts⟩
  intro other request present
  rcases eq_or_getElem?_of_insert present with ⟨rfl, rfl⟩ | before
  · rfl
  · exact sound.requests before

end Cache.IsSound

namespace Settings

variable {settings : Settings}

theorem yields_planPart {part : Part} (writable : part.IsWritable) :
    Yields (Cache.IsSound settings) (settings.planPart part)
      (settings.dialect.plan settings.useClassLookup part) := by
  refine Yields.get fun cache sound => ?_
  cases found : cache.parts[part.canonical]? with
  | some plan =>
    rw [sound.parts writable found]
    exact .pure _
  | none => exact (Yields.modify fun _ sound => sound.insertPart writable).bind (.pure _)

theorem yields_planGroup (text : String) :
    Yields (Cache.IsSound settings) (settings.planGroup text) (settings.groupPlan text) := by
  refine Yields.bind (Yields.mapM fun part member => ?_) (.pure _)
  exact yields_planPart (isWritable_of_mem_parse member)

theorem yields_planNew (selector : String) :
    Yields (Cache.IsSound settings) (settings.planNew selector) (settings.selectorPlan selector) :=
  Yields.bind (Yields.mapM fun group _ => yields_planGroup group) (.pure _)

theorem yields_planSelector (selector : String) :
    Yields (Cache.IsSound settings) (settings.planSelector selector)
      (settings.selectorPlan selector) := by
  refine Yields.get fun cache sound => ?_
  cases found : cache.selectors[selector]? with
  | some plan =>
    rw [sound.selectors found]
    have counted : Yields (Cache.IsSound settings)
        (modify fun cache : Cache => { cache with hits := cache.hits + 1 }) () :=
      .modify fun _ sound => ⟨sound.selectors, sound.requests, sound.parts⟩
    exact counted.bind (.pure _)
  | none =>
    refine (yields_planNew selector).bind ?_
    exact (Yields.modify fun _ sound => sound.insertSelector selector).bind (.pure _)

theorem yields_keptRequest (selector : String) :
    Yields (Cache.IsSound settings) ((settings.selectorPlan selector).keptRequest selector)
      (settings.selectorPlan selector).request := by
  refine Yields.get fun cache sound => ?_
  cases found : cache.requests[selector]? with
  | some request =>
    rw [sound.requests found]
    exact .pure _
  | none => exact (Yields.modify fun _ sound => sound.insertRequest selector).bind (.pure _)

theorem yields_query (host : Host) (selector : String) (root : NodeId) :
    Yields (Cache.IsSound settings) (settings.query host selector root)
      (settings.answer host selector root) := by
  refine (yields_planSelector selector).bind ?_
  rw [answer]
  split
  · refine (yields_keptRequest selector).bind ?_
    cases (settings.selectorPlan selector).request.ask host root with
    | ok nodes => exact .pure _
    | error refusal => exact .pure _
  · exact .pure _

theorem yields_keep (host : Host) (nodes : List NodeId) (selector : String) :
    Yields (Cache.IsSound settings) (settings.keep host nodes selector)
      (settings.kept host nodes selector) :=
  (yields_planSelector selector).bind (.pure _)

theorem yields_call (host : Host) (call : Call) :
    Yields (Cache.IsSound settings) (settings.call host call) (settings.reply host call) := by
  cases call with
  | query selector root => exact (yields_query host selector root).bind (.pure _)
  | findFirst selector root => exact (yields_query host selector root).bind (.pure _)
  | findWellFormed selector root =>
    simp only [Settings.call, reply]
    cases malformed? selector with
    | some error => exact .pure _
    | none => exact (yields_query host selector root).bind (.pure _)
  | test node selector => exact (yields_keep host [node] selector).bind (.pure _)
  | keep nodes selector => exact (yields_keep host nodes selector).bind (.pure _)

end Settings

namespace Engine

/-- The engine after calls, the first one first. -/
def after (engine : Engine) (history : List (Host × Call)) : Engine :=
  history.foldl (fun engine (host, call) => (engine.call host call).2) engine

theorem reply_call {engine : Engine} (sound : engine.cache.IsSound engine.settings) (host : Host)
    (call : Call) : (engine.call host call).1 = engine.settings.reply host call ∧
      (engine.call host call).2.settings = engine.settings ∧
      (engine.call host call).2.cache.IsSound engine.settings := by
  obtain ⟨same, kept⟩ := Settings.yields_call host call engine.cache sound
  exact ⟨same, rfl, kept⟩

theorem isSound_after (engine : Engine) (sound : engine.cache.IsSound engine.settings)
    (history : List (Host × Call)) : (engine.after history).settings = engine.settings ∧
      (engine.after history).cache.IsSound engine.settings := by
  induction history generalizing engine with
  | nil => exact ⟨rfl, sound⟩
  | cons here history ih =>
    obtain ⟨-, same, kept⟩ := reply_call sound here.1 here.2
    have later := ih (engine.call here.1 here.2).2 (by rwa [same])
    rw [same] at later
    exact later

/-- What was asked before does not change what an engine replies. -/
theorem reply_after (settings : Settings) (history : List (Host × Call)) (host : Host)
    (call : Call) :
    ((({ settings } : Engine).after history).call host call).1 = settings.reply host call := by
  obtain ⟨same, sound⟩ := isSound_after { settings } (Cache.isSound_empty settings) history
  have replied := (reply_call (same ▸ sound) host call).1
  rwa [same] at replied

theorem nodes_of_reply {settings : Settings} {history : List (Host × Call)} {host : Host}
    {selector : String} {root : NodeId} {nodes : List NodeId} {route : Route}
    (replied : ((({ settings } : Engine).after history).call host (.query selector root)).1 =
      .answer ⟨nodes, route⟩) : nodes = (settings.answer host selector root).nodes := by
  rw [reply_after] at replied
  exact (congrArg Answer.nodes (Reply.answer.inj replied)).symm

end Engine

/-! ## Sessions -/

inductive Event
  | edit (document : Nat) (edit : Edit)
  | call (document : Nat) (view : View) (call : Call)
deriving DecidableEq, Repr

structure Session where
  documents : Nat → Document
  engine : Engine

namespace Session

/-- The reply to a call and the session after an event. -/
def step (session : Session) : Event → Option Reply × Session
  | .edit document edit =>
    let edited := ((session.documents document).apply edit).1
    (none, { session with documents := Function.update session.documents document edited })
  | .call document view call =>
    let (reply, engine) := session.engine.call ((session.documents document).host view) call
    (some reply, { session with engine })

/-- The replies to the calls among events, the first one first. -/
def replies (session : Session) : List Event → List Reply
  | [] => []
  | event :: events => (session.step event).1.toList ++ (session.step event).2.replies events

/-- The session with a new engine of the same settings. -/
def renew (session : Session) : Session :=
  { session with engine := { settings := session.engine.settings } }

/-- The replies when each call is made on a new engine. -/
def repliesAnew (session : Session) : List Event → List Reply
  | [] => []
  | event :: events =>
    (session.renew.step event).1.toList ++ (session.renew.step event).2.repliesAnew events

def IsSound (session : Session) : Prop := session.engine.cache.IsSound session.engine.settings

theorem isSound_renew (session : Session) : session.renew.IsSound :=
  Cache.isSound_empty session.engine.settings

variable {session other : Session}

theorem step_of_isSound (sound : session.IsSound) (event : Event) :
    (session.step event).1 = (session.renew.step event).1 ∧
      (session.step event).2.renew = (session.renew.step event).2.renew ∧
      (session.step event).2.IsSound := by
  cases event with
  | edit document edit => exact ⟨rfl, rfl, sound⟩
  | call document view call =>
    let host := (session.documents document).host view
    obtain ⟨reply, -, kept⟩ := Engine.reply_call sound host call
    obtain ⟨anew, -, -⟩ := Engine.reply_call session.isSound_renew host call
    exact ⟨congrArg some (reply.trans anew.symm), rfl, kept⟩

theorem repliesAnew_congr (alike : session.renew = other.renew) (events : List Event) :
    session.repliesAnew events = other.repliesAnew events := by
  cases events with
  | nil => rfl
  | cons event events => rw [repliesAnew, repliesAnew, alike]

theorem replies_of_isSound (sound : session.IsSound) (events : List Event) :
    session.replies events = session.repliesAnew events := by
  induction events generalizing session with
  | nil => rfl
  | cons event events ih =>
    obtain ⟨reply, alike, kept⟩ := step_of_isSound sound event
    rw [replies, repliesAnew, reply, ih kept, repliesAnew_congr alike]

/-- Whatever is called and edited, an engine replies to each call as a new one would then. -/
theorem replies_eq_repliesAnew (documents : Nat → Document) (settings : Settings)
    (events : List Event) :
    ({ documents, engine := { settings } } : Session).replies events =
      ({ documents, engine := { settings } } : Session).repliesAnew events := by
  have sound : Session.IsSound ⟨documents, { settings }⟩ := Cache.isSound_empty settings
  exact replies_of_isSound sound events

end Session

end TreeSelectors
