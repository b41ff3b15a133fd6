import TreeSelectors.Proofs.Engine.Cache
import TreeSelectors.Proofs.Query.Numbering

/-!
  What an engine counts. Each kind of entry is made at another moment: a selector when it is first
  planned, a part when its text is first met in any of them, a request when a query first comes to
  asking a host. What has been planned and asked for so far determines all of it
  (`Cache.Records`), whichever calls it came from. Main statement: `Engine.counts_after`.
-/

namespace TreeSelectors

/-! ## Calls -/

def Call.selector : Call → String
  | .query selector _ => selector
  | .findFirst selector _ => selector
  | .findWellFormed selector _ => selector
  | .test _ selector => selector
  | .keep _ selector => selector

/-- Calls for which a host may be asked. -/
def Call.isQuery : Call → Bool
  | .query .. => true
  | .findFirst .. => true
  | .findWellFormed .. => true
  | .test .. => false
  | .keep .. => false

/-- Calls that are answered by an error. -/
def Call.isRefused : Call → Bool
  | .findWellFormed selector _ => (malformed? selector).isSome
  | _ => false

def Reply.isMalformed : Reply → Bool
  | .malformed _ => true
  | _ => false

/-- The calls that are not answered by an error, the first one first. -/
def Engine.served (engine : Engine) : List (Host × Call) → List Call
  | [] => []
  | (host, call) :: history =>
    let later := (engine.call host call).2.served history
    if (engine.call host call).1.isMalformed then later else call :: later

/-- The canonical texts of the parts of all groups. -/
def partTexts (selector : String) : List String :=
  (groupsOf selector).flatMap fun group => (parse group).map Part.canonical

/-! ## Planning -/

section

variable {α β : Type} {cache : Cache}

theorem run_bind (action : StateM Cache α) (next : α → StateM Cache β) :
    (action >>= next).run cache = (next (action.run cache).1).run (action.run cache).2 :=
  rfl

theorem run_get (next : Cache → StateM Cache α) :
    (MonadState.get >>= next).run cache = (next cache).run cache :=
  rfl

end

theorem mem_insert_iff {α : Type} {map : Std.HashMap String α} {key other : String} {value : α} :
    other ∈ map.insert key value ↔ other ∈ map ∨ other = key := by
  rw [Std.HashMap.mem_insert, beq_iff_eq, eq_comm, or_comm]

/-- Only parts are added, those with the given texts. -/
structure Cache.AddsParts (texts : List String) (before after : Cache) : Prop where
  selectors : after.selectors = before.selectors
  requests : after.requests = before.requests
  hits : after.hits = before.hits
  misses : after.misses = before.misses
  parts : ∀ text, text ∈ after.parts ↔ text ∈ before.parts ∨ text ∈ texts

/-- From every cache, the action adds the parts with the given texts. -/
def Plans {α : Type} (action : StateM Cache α) (texts : List String) : Prop :=
  ∀ cache : Cache, cache.AddsParts texts (action.run cache).2

namespace Plans

variable {α β : Type}

theorem pure (value : α) : Plans (pure value) [] :=
  fun _ => ⟨rfl, rfl, rfl, rfl, fun _ => ⟨.inl, fun within => within.resolve_right (by simp)⟩⟩

theorem bind {action : StateM Cache α} {next : α → StateM Cache β} {texts more : List String}
    (first : Plans action texts) (second : ∀ value, Plans (next value) more) :
    Plans (action >>= next) (texts ++ more) := by
  intro cache
  have here := first cache
  have later := second (action.run cache).1 (action.run cache).2
  rw [run_bind]
  refine ⟨later.selectors.trans here.selectors, later.requests.trans here.requests,
    later.hits.trans here.hits, later.misses.trans here.misses, fun text => ?_⟩
  rw [later.parts, here.parts, List.mem_append, or_assoc]

theorem mapM {action : α → StateM Cache β} {texts : α → List String}
    (each : ∀ item, Plans (action item) (texts item)) (items : List α) :
    Plans (items.mapM action) (items.flatMap texts) := by
  induction items with
  | nil => exact .pure []
  | cons item items ih =>
    have whole := (each item).bind fun value => ih.bind fun values => Plans.pure (value :: values)
    rwa [List.append_nil, ← List.mapM_cons, ← List.flatMap_cons] at whole

theorem planPart (settings : Settings) (part : Part) :
    Plans (settings.planPart part) [part.canonical] := by
  intro cache
  rw [Settings.planPart, run_get]
  cases found : cache.parts[part.canonical]? with
  | some plan =>
    show cache.AddsParts [part.canonical] cache
    obtain ⟨old, -⟩ := Std.HashMap.getElem?_eq_some_iff.mp found
    refine ⟨rfl, rfl, rfl, rfl, fun text => ?_⟩
    rw [List.mem_singleton]
    exact (or_iff_left_of_imp fun same => same ▸ old).symm
  | none =>
    show cache.AddsParts [part.canonical] { cache with
      parts := cache.parts.insert part.canonical
        (settings.dialect.plan settings.useClassLookup part) }
    refine ⟨rfl, rfl, rfl, rfl, fun text => ?_⟩
    rw [mem_insert_iff, List.mem_singleton]

theorem planGroup (settings : Settings) (text : String) :
    Plans (settings.planGroup text) ((parse text).map Part.canonical) := by
  have parts := Plans.mapM (planPart settings) (parse text)
  have whole := parts.bind fun plans => Plans.pure (⟨text, plans⟩ : GroupPlan)
  rwa [← List.map_eq_flatMap, List.append_nil] at whole

theorem planNew (settings : Settings) (selector : String) :
    Plans (settings.planNew selector) (partTexts selector) := by
  have groups := Plans.mapM (planGroup settings) (groupsOf selector)
  have whole := groups.bind fun plans =>
    Plans.pure (⟨plans, settings.isAskable selector⟩ : SelectorPlan)
  rwa [List.append_nil] at whole

end Plans

/-! ## Records -/

/-- What there is in a cache when some selectors have been planned and some asked for. -/
structure Cache.Records (settings : Settings) (planned asked : List String) (cache : Cache) :
    Prop where
  selectors : ∀ selector, selector ∈ cache.selectors ↔ selector ∈ planned
  requests : ∀ selector, selector ∈ cache.requests ↔ selector ∈ asked.filter settings.isAskable
  parts : ∀ text, text ∈ cache.parts ↔ text ∈ planned.flatMap partTexts
  misses : cache.misses = UInt64.ofNat cache.selectors.size
  calls : cache.hits + cache.misses = UInt64.ofNat planned.length

theorem Cache.records_empty (settings : Settings) : Cache.Records settings [] [] {} where
  selectors := by simp
  requests := by simp
  parts := by simp
  misses := by simp
  calls := rfl

/-- There are as many keys as there are different ones among those recorded. -/
theorem size_eq_length_distinct {α : Type} {map : Std.HashMap String α} {recorded : List String}
    (keys : ∀ key, key ∈ map ↔ key ∈ recorded) : map.size = (distinct recorded).length := by
  have same : map.keys.Perm (distinct recorded) := by
    refine (List.perm_ext_iff_of_nodup Std.HashMap.nodup_keys (nodup_distinct recorded)).mpr ?_
    intro key
    rw [Std.HashMap.mem_keys, keys, mem_distinct]
  rw [← Std.HashMap.length_keys, same.length_eq]

namespace Cache.Records

variable {settings : Settings} {planned asked : List String} {cache : Cache} {selector : String}

/-- As long as no number starts over. -/
theorem counts_eq (records : cache.Records settings planned asked)
    (few : planned.length < UInt64.size) :
    cache.counts = {
      hits := planned.length - (distinct planned).length
      misses := (distinct planned).length
      selectors := (distinct planned).length
      requests := (distinct (asked.filter settings.isAskable)).length
      parts := (distinct (planned.flatMap partTexts)).length } := by
  have selectors := size_eq_length_distinct records.selectors
  have fewer : (distinct planned).length ≤ planned.length := by
    rw [distinct_eq_eraseDups]
    exact (eraseDups_sublist planned).length_le
  have misses : cache.misses.toNat = (distinct planned).length := by
    rw [records.misses, selectors]
    exact UInt64.toNat_ofNat_of_lt' (Nat.lt_of_le_of_lt fewer few)
  have hits : cache.hits.toNat = planned.length - (distinct planned).length := by
    have calls := congrArg UInt64.toNat records.calls
    rw [UInt64.toNat_add, UInt64.toNat_ofNat_of_lt' few, misses] at calls
    have below := cache.hits.toNat_lt
    simp only [UInt64.size] at few
    omega
  rw [Cache.counts, hits, misses, selectors, size_eq_length_distinct records.requests,
    size_eq_length_distinct records.parts]

/-- The parts of a selector that is kept are kept. -/
theorem hit (records : cache.Records settings planned asked) (old : selector ∈ cache.selectors) :
    Cache.Records settings (planned ++ [selector]) asked { cache with hits := cache.hits + 1 } := by
  have before : selector ∈ planned := (records.selectors selector).mp old
  have same (other : String) : other ∈ planned ++ [selector] ↔ other ∈ planned := by
    rw [List.mem_append, List.mem_singleton]
    exact or_iff_left_of_imp fun last => last ▸ before
  refine ⟨fun other => ?_, records.requests, fun text => ?_, records.misses, ?_⟩
  · rw [same, ← records.selectors]
  · rw [List.mem_flatMap]
    simp only [same]
    rw [← List.mem_flatMap, ← records.parts]
  · show cache.hits + 1 + cache.misses = _
    rw [List.length_append, List.length_singleton, UInt64.ofNat_add, ← records.calls,
      UInt64.add_assoc, UInt64.add_comm 1, ← UInt64.add_assoc]
    rfl

theorem miss {grown : Cache} (records : cache.Records settings planned asked)
    (new : selector ∉ cache.selectors) (adds : cache.AddsParts (partTexts selector) grown)
    (plan : SelectorPlan) :
    Cache.Records settings (planned ++ [selector]) asked { grown with
      selectors := grown.selectors.insert selector plan, misses := grown.misses + 1 } := by
  refine ⟨fun other => ?_, fun other => ?_, fun text => ?_, ?_, ?_⟩
  · show other ∈ grown.selectors.insert selector plan ↔ _
    rw [mem_insert_iff, adds.selectors, records.selectors, List.mem_append, List.mem_singleton]
  · show other ∈ grown.requests ↔ _
    rw [adds.requests, records.requests]
  · show text ∈ grown.parts ↔ _
    rw [adds.parts, records.parts, List.flatMap_append, List.mem_append, List.flatMap_singleton]
  · show grown.misses + 1 = UInt64.ofNat (grown.selectors.insert selector plan).size
    rw [Std.HashMap.size_insert, adds.selectors, adds.misses, if_neg new, records.misses,
      UInt64.ofNat_add]
    rfl
  · show grown.hits + (grown.misses + 1) = _
    rw [adds.hits, adds.misses, List.length_append, List.length_singleton, UInt64.ofNat_add,
      ← records.calls]
    exact (UInt64.add_assoc cache.hits cache.misses 1).symm

/-- A selector is counted once, as found or as planned. -/
theorem planSelector (records : cache.Records settings planned asked) (selector : String) :
    ((settings.planSelector selector).run cache).2.Records settings (planned ++ [selector])
      asked := by
  rw [Settings.planSelector, run_get]
  cases found : cache.selectors[selector]? with
  | some plan =>
    obtain ⟨old, -⟩ := Std.HashMap.getElem?_eq_some_iff.mp found
    exact records.hit old
  | none =>
    have new := (getElem?_eq_none_iff _ _).mp found
    exact records.miss new (Plans.planNew settings selector cache) _

/-- What may not be asked is not counted as asked. -/
theorem asks_of_not_askable (records : cache.Records settings planned asked)
    (never : settings.isAskable selector = false) :
    cache.Records settings planned (asked ++ [selector]) := by
  refine ⟨records.selectors, fun other => ?_, records.parts, records.misses, records.calls⟩
  rw [List.filter_append, List.filter_singleton, never, records.requests]
  simp

theorem keptRequest (records : cache.Records settings planned asked)
    (askable : settings.isAskable selector = true) (plan : SelectorPlan) :
    ((plan.keptRequest selector).run cache).2.Records settings planned (asked ++ [selector]) := by
  rw [SelectorPlan.keptRequest, run_get]
  have asked' (other : String) : other ∈ (asked ++ [selector]).filter settings.isAskable ↔
      other ∈ cache.requests ∨ other = selector := by
    rw [List.filter_append, List.mem_append, records.requests]
    simp [askable]
  cases found : cache.requests[selector]? with
  | some request =>
    obtain ⟨old, -⟩ := Std.HashMap.getElem?_eq_some_iff.mp found
    refine ⟨records.selectors, fun other => ?_, records.parts, records.misses, records.calls⟩
    rw [asked']
    exact (or_iff_left_of_imp fun same => same ▸ old).symm
  | none =>
    refine ⟨records.selectors, fun other => ?_, records.parts, records.misses, records.calls⟩
    show other ∈ cache.requests.insert selector plan.request ↔ _
    rw [asked', mem_insert_iff]

/-- Whatever the host answers, a query counts as asking for its selector. The request is kept before
    the host is asked. -/
theorem query (records : cache.Records settings planned asked) (sound : cache.IsSound settings)
    (host : Host) (selector : String) (root : NodeId) :
    ((settings.query host selector root).run cache).2.Records settings (planned ++ [selector])
      (asked ++ [selector]) := by
  obtain ⟨plan, -⟩ := Settings.yields_planSelector selector cache sound
  have planned := records.planSelector selector
  rw [Settings.query, run_bind, plan]
  cases askable : settings.isAskable selector with
  | true =>
    rw [Settings.selectorPlan, askable]
    rw [if_pos rfl, run_bind]
    have requested := planned.keptRequest askable (settings.selectorPlan selector)
    split
    · exact requested
    · exact requested
  | false =>
    rw [Settings.selectorPlan, askable]
    exact planned.asks_of_not_askable askable

theorem keep (records : cache.Records settings planned asked) (host : Host) (nodes : List NodeId)
    (selector : String) :
    ((settings.keep host nodes selector).run cache).2.Records settings (planned ++ [selector])
      asked :=
  records.planSelector selector

/-- A call that is served. -/
theorem call (records : cache.Records settings planned asked) (sound : cache.IsSound settings)
    (host : Host) {call : Call} (served : call.isRefused = false) :
    ((settings.call host call).run cache).2.Records settings (planned ++ [call.selector])
      (asked ++ ([call].filter Call.isQuery).map Call.selector) := by
  cases call with
  | query selector root => exact records.query sound host selector root
  | findFirst selector root => exact records.query sound host selector root
  | findWellFormed selector root =>
    have wellFormed : malformed? selector = none := by simpa [Call.isRefused] using served
    rw [Settings.call, wellFormed]
    exact records.query sound host selector root
  | test node selector =>
    show ((settings.keep host [node] selector).run cache).2.Records settings _ (asked ++ [])
    rw [List.append_nil]
    exact records.keep host [node] selector
  | keep nodes selector =>
    show ((settings.keep host nodes selector).run cache).2.Records settings _ (asked ++ [])
    rw [List.append_nil]
    exact records.keep host nodes selector

end Cache.Records

/-! ## Runs -/

namespace Engine

theorem isMalformed_call (engine : Engine) (host : Host) (call : Call) :
    (engine.call host call).1.isMalformed = call.isRefused := by
  cases call with
  | findWellFormed selector root =>
    rw [Engine.call, Settings.call, Call.isRefused]
    cases malformed? selector <;> rfl
  | _ => rfl

/-- A call that is refused is not even planned. -/
theorem call_of_refused (engine : Engine) (host : Host) {call : Call}
    (refused : call.isRefused = true) : (engine.call host call).2 = engine := by
  cases call with
  | findWellFormed selector root =>
    obtain ⟨error, malformed⟩ := Option.isSome_iff_exists.mp refused
    rw [Engine.call, Settings.call, malformed]
    rfl
  | _ => cases refused

theorem served_cons (engine : Engine) (host : Host) (call : Call) (history : List (Host × Call)) :
    engine.served ((host, call) :: history) =
      if call.isRefused then engine.served history
      else call :: (engine.call host call).2.served history := by
  rw [served, isMalformed_call]
  split
  · next refused => rw [call_of_refused engine host refused]
  · rfl

/-- An engine that has served some calls. -/
def Records (engine : Engine) (calls : List Call) : Prop :=
  engine.cache.Records engine.settings (calls.map Call.selector)
    ((calls.filter Call.isQuery).map Call.selector)

theorem Records.call {engine : Engine} {calls : List Call} (records : engine.Records calls)
    (sound : engine.cache.IsSound engine.settings) (host : Host) {call : Call}
    (served : call.isRefused = false) : (engine.call host call).2.Records (calls ++ [call]) := by
  have counted := Cache.Records.call records sound host served
  rw [← List.map_append, ← List.filter_append] at counted
  rw [Records, List.map_append]
  exact counted

theorem Records.after {engine : Engine} {calls : List Call} (records : engine.Records calls)
    (sound : engine.cache.IsSound engine.settings) (history : List (Host × Call)) :
    (engine.after history).Records (calls ++ engine.served history) := by
  induction history generalizing engine calls with
  | nil => rwa [served, List.append_nil]
  | cons here history ih =>
    obtain ⟨host, call⟩ := here
    show ((engine.call host call).2.after history).Records _
    rw [served_cons]
    cases refused : call.isRefused with
    | true =>
      rw [call_of_refused engine host refused]
      exact ih records sound
    | false =>
      obtain ⟨-, same, kept⟩ := reply_call sound host call
      have later := ih (records.call sound host refused) (by rwa [same])
      rwa [List.append_assoc] at later

theorem length_served_le (engine : Engine) (history : List (Host × Call)) :
    (engine.served history).length ≤ history.length := by
  induction history generalizing engine with
  | nil => exact Nat.le_refl 0
  | cons here history ih =>
    obtain ⟨host, call⟩ := here
    rw [served_cons]
    split
    · exact Nat.le_succ_of_le (ih engine)
    · exact Nat.succ_le_succ (ih _)

/-- What the counts are after any calls, unless there are so many that a number starts over. Only
    calls that are answered by an error count for nothing. -/
theorem counts_after (settings : Settings) (history : List (Host × Call)) :
    let engine : Engine := { settings }
    let planned := (engine.served history).map Call.selector
    let asked := ((engine.served history).filter Call.isQuery).map Call.selector
    (history.length < UInt64.size →
      (engine.after history).cache.counts = {
        hits := planned.length - (distinct planned).length
        misses := (distinct planned).length
        selectors := (distinct planned).length
        requests := (distinct (asked.filter settings.isAskable)).length
        parts := (distinct (planned.flatMap partTexts)).length }) ∧
      ∀ host call, ((engine.after history).call host call).1.isMalformed = true →
        ((engine.after history).call host call).2 = engine.after history := by
  intro engine planned asked
  have sound : engine.cache.IsSound engine.settings := Cache.isSound_empty settings
  have new : engine.Records [] := Cache.records_empty settings
  constructor
  · intro few
    have counted := Cache.Records.counts_eq (new.after sound history) (by
      rw [List.length_map]
      exact Nat.lt_of_le_of_lt (length_served_le engine history) few)
    rwa [(isSound_after engine sound history).1] at counted
  · intro host call malformed
    rw [isMalformed_call] at malformed
    exact call_of_refused _ host malformed

/-- The part `a` is in three selectors, and the host refuses the last one. -/
theorem counts_after_shared_parts :
    let settings : Settings := { abilities := Document.abilities {} }
    let host := Document.host {} .full
    let engine := ({ settings } : Engine).after [(host, .query "a, b" 0), (host, .query "a, b" 0),
      (host, .test 0 "a"), (host, .findWellFormed "a[" 0), (host, .findFirst "b a" 1)]
    5 < UInt64.size ∧
      engine.cache.counts = { hits := 1, misses := 3, selectors := 3, requests := 2, parts := 2 } ∧
      (engine.call host (.findWellFormed "a[" 0)).2 = engine := by
  intro settings host engine
  obtain ⟨counts, unchanged⟩ := counts_after settings [(host, .query "a, b" 0),
    (host, .query "a, b" 0), (host, .test 0 "a"), (host, .findWellFormed "a[" 0),
    (host, .findFirst "b a" 1)]
  have refused : Call.isRefused (.findWellFormed "a[" 0) = true := by decide +kernel
  have few : 5 < UInt64.size := by decide
  refine ⟨few, (counts few).trans ?_, ?_⟩
  · decide +kernel
  · exact unchanged host _ ((isMalformed_call engine host _).trans refused)

end Engine

end TreeSelectors
