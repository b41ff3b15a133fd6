import TreeSelectors.Proofs.Document.Selection
import TreeSelectors.Proofs.Engine.Cache
import TreeSelectors.Proofs.Query.Run
import TreeSelectors.Proofs.Query.Scope

/-!
  An answer, group by group. Whether a host gives it or the interpreter, it is what is found for each
  group (`Settings.Gives`), merged by first sight; and what is found for one group is in document
  order and consists of elements, so that nothing is left to sort or to drop where there is only one.
  Main statement: `Engine.query_inOrder`.

  A query does not leave its scope. A host is only asked for groups that begin below the node they
  are asked from, and finds nothing elsewhere; the interpreter goes where the first operator of a
  group leads. Main statement: `Engine.query_isWithin`.
-/

namespace TreeSelectors

/-! ## Runs -/

section

open Document

/-- What is found for a group: the answer of the host to its completed text, or what it is run
    to. -/
def Settings.Gives (settings : Settings) (host : Host) (root : NodeId) (group : String) :
    Route → List NodeId → Prop
  | .host, found => ∃ lookups ∈ host.lookups?,
    lookups.bySelector root (completeGroup group) = .ok found
  | .fallback _, found | .interpreted, found =>
    found = host.runParts settings.config.exactTags (settings.groupPlan group).parts root

/-! ## Merging -/

/-- A single answer is not merged, but merging would not change it. -/
theorem Request.eq_distinct_of_ask {host : Host} (selects : host.SelectsBelow) {request : Request}
    {root : NodeId} {nodes : List NodeId} (answered : request.ask host root = .ok nodes) :
    ∃ lookups ∈ host.lookups?, ∃ found : String → List NodeId,
      nodes = distinct (request.groups.flatMap found) ∧
      ∀ group ∈ request.groups, lookups.bySelector root group = .ok (found group) := by
  unfold ask at answered
  split at answered
  · cases answered
  · split at answered
    · cases answered
    · next lookups offered =>
      refine ⟨lookups, offered, fun group => (lookups.bySelector root group).toOption.getD [], ?_⟩
      split at answered
      · next group single =>
        have inOrder : host.document.InOrder nodes :=
          ((selects.lookups lookups offered).bySelector answered).trans
            (inOrder_elementDescendants root)
        simp [single, answered, Except.toOption, distinct_eq_self inOrder.nodup]
      · cases asked : request.groups.mapM (lookups.bySelector root) with
        | error refusal => simp [asked, Except.map] at answered
        | ok lists =>
          have each (group : String) (member : group ∈ request.groups) :
              lookups.bySelector root group =
                .ok ((lookups.bySelector root group).toOption.getD []) := by
            obtain ⟨list, answer⟩ := exists_mapM_eq_ok_iff.mp ⟨lists, asked⟩ group member
            rw [answer]
            rfl
          have lists_eq := eq_map_of_forall₂ (mapM_eq_ok_iff.mp asked)
            fun group member list answer => Except.ok.inj (answer.symm.trans (each group member))
          refine ⟨?_, each⟩
          rw [List.flatMap_def, ← lists_eq]
          simpa [asked, Except.map, eq_comm] using answered

namespace Settings

variable {settings : Settings} {host : Host} {selector group : String} {root n : NodeId}
  {route : Route} {found : List NodeId}

theorem groups_request (selector : String) :
    (settings.selectorPlan selector).request.groups = (groupsOf selector).map completeGroup := by
  simp [SelectorPlan.request, selectorPlan, Request.ofGroups, groupPlan]

variable (settings) in
theorem interpret_eq_distinct (ordered : host.IsOrdered) (selector : String) (root : NodeId) :
    settings.interpret host (settings.selectorPlan selector) root =
      distinct ((groupsOf selector).flatMap fun group =>
        host.runParts settings.config.exactTags (settings.groupPlan group).parts root) := by
  rw [interpret, runGroups_eq_distinct ordered, selectorPlan, List.flatMap_map]

variable (settings) in
theorem exists_gives (selects : host.SelectsBelow) (selector : String) (root : NodeId) :
    ∃ found : String → List NodeId,
      (settings.answer host selector root).nodes = distinct ((groupsOf selector).flatMap found) ∧
      ∀ group ∈ groupsOf selector,
        settings.Gives host root group (settings.answer host selector root).route (found group) := by
  have interpreted := interpret_eq_distinct settings selects.isOrdered selector root
  unfold answer
  simp only
  split
  · cases asked : (settings.selectorPlan selector).request.ask host root with
    | error refusal => exact ⟨_, interpreted, fun _ _ => rfl⟩
    | ok nodes =>
      obtain ⟨lookups, offered, found, rfl, each⟩ := Request.eq_distinct_of_ask selects asked
      rw [groups_request, List.flatMap_map]
      rw [groups_request] at each
      refine ⟨fun group => found (completeGroup group), rfl, fun group member => ?_⟩
      exact ⟨lookups, offered, each _ (List.mem_map_of_mem member)⟩
  · exact ⟨_, interpreted, fun _ _ => rfl⟩

/-! ## One group -/

theorem inOrder_of_gives (selects : host.SelectsBelow)
    (gives : settings.Gives host root group route found) : host.document.InOrder found := by
  cases route with
  | host =>
    obtain ⟨lookups, offered, answered⟩ := gives
    exact ((selects.lookups lookups offered).bySelector answered).trans
      (inOrder_elementDescendants root)
  | fallback refusal => exact gives ▸ selects.isOrdered.inOrder_runParts _ root
  | interpreted => exact gives ▸ selects.isOrdered.inOrder_runParts _ root

theorem isElement_of_gives (selects : host.SelectsBelow)
    (gives : settings.Gives host root group route found) (member : n ∈ found) :
    host.document.isElement n = true := by
  have run (ran : found = host.runParts settings.config.exactTags
      (settings.groupPlan group).parts root) : host.document.isElement n = true := by
    obtain ⟨-, -, -, element, -⟩ := isWithin_of_mem_runParts selects (ran ▸ member)
    exact element
  cases route with
  | host =>
    obtain ⟨lookups, offered, answered⟩ := gives
    have selected := (selects.lookups lookups offered).bySelector answered
    exact (mem_elementDescendants.mp (selected.subset member)).2
  | fallback refusal => exact run gives
  | interpreted => exact run gives

end Settings

/-! ## Answers -/

theorem groupsOf_of_not_mem_comma {selector : String} (single : ',' ∉ selector.toList) :
    groupsOf selector = [] ∨ ∃ group, groupsOf selector = [group] := by
  by_cases blank : Text.trim selector.toList = []
  · exact .inl (by simp [groupsOf, List.splitOn_eq_singleton single, blank])
  · refine .inr ⟨String.ofList (Text.trim selector.toList), ?_⟩
    simp [groupsOf, List.splitOn_eq_singleton single, blank]

/-- Merging what is found for one group leaves it as it is. -/
theorem inOrder_distinct_flatMap {d : Document} {selector : String}
    {found : String → List NodeId} (each : ∀ group ∈ groupsOf selector, d.InOrder (found group))
    (single : ',' ∉ selector.toList) :
    d.InOrder (distinct ((groupsOf selector).flatMap found)) := by
  rcases groupsOf_of_not_mem_comma single with none | ⟨group, one⟩
  · rw [none]
    exact List.nil_sublist _
  · have inOrder := each group (one ▸ List.mem_singleton_self group)
    rw [one, List.flatMap_singleton, distinct_eq_self inOrder.nodup]
    exact inOrder

/-- Whatever an engine was asked before and whoever answers, the nodes are elements, each once; what
    is found for one group is in document order, and so is an answer where no comma cuts the
    selector. -/
theorem Engine.query_inOrder (settings : Settings) (history : List (Host × Call)) (d : Document)
    (view : View) (selector : String) (root : NodeId) :
    ∃ nodes route, ∃ found : String → List NodeId,
      ((({ settings } : Engine).after history).call (d.host view) (.query selector root)).1 =
        .answer ⟨nodes, route⟩ ∧
      (∀ n ∈ nodes, d.isElement n = true) ∧ nodes.Nodup ∧
      (',' ∉ selector.toList → d.InOrder nodes) ∧
      nodes = distinct ((groupsOf selector).flatMap found) ∧
      ∀ group ∈ groupsOf selector,
        settings.Gives (d.host view) root group route (found group) ∧ d.InOrder (found group) := by
  have selects := selectsBelow_host d view
  obtain ⟨found, merged, gives⟩ :=
    settings.exists_gives selects selector root
  have inOrder (group : String) (member : group ∈ groupsOf selector) : d.InOrder (found group) := by
    simpa using Settings.inOrder_of_gives selects (gives group member)
  refine ⟨(settings.answer (d.host view) selector root).nodes,
    (settings.answer (d.host view) selector root).route, found, reply_after .., ?_, ?_, ?_, merged,
    fun group member => ⟨gives group member, inOrder group member⟩⟩
  · intro n member
    rw [merged, mem_distinct, List.mem_flatMap] at member
    obtain ⟨group, among, member⟩ := member
    simpa using Settings.isElement_of_gives selects (gives group among) member
  · rw [merged]
    exact nodup_distinct _
  · rw [merged]
    exact inOrder_distinct_flatMap inOrder

end

/-! ## Scope -/

section

open Document

namespace Settings

variable {settings : Settings} {host : Host} {selector group : String} {root n : NodeId}
  {route : Route} {found : List NodeId}

theorem isAskable_of_route
    (asked : (settings.answer host selector root).route = .host) :
    settings.isAskable selector = true := by
  unfold answer at asked
  simp only at asked
  split at asked
  · next askable => exact askable
  · cases asked

/-- A group that may be asked begins anywhere below. -/
theorem exists_descendant_of_isAskable (askable : settings.isAskable selector = true)
    (member : group ∈ groupsOf selector) :
    ∃ first rest, parse group = first :: rest ∧ first.operator = .descendant := by
  simp only [isAskable, TreeSelectors.isAskable, isAskableGroup, Bool.and_eq_true,
    List.all_map, List.all_eq_true, Function.comp_apply] at askable
  have begins := (askable.2.2 group member).1
  cases parsed : parse group with
  | nil => simp [parsed] at begins
  | cons first rest => exact ⟨first, rest, rfl, by simpa [parsed] using begins⟩

theorem isWithin_of_gives (selects : host.SelectsBelow)
    (asked : route = .host → settings.isAskable selector = true)
    (among : group ∈ groupsOf selector) (gives : settings.Gives host root group route found)
    (member : n ∈ found) :
    ∃ first rest, parse group = first :: rest ∧
      host.document.IsWithin first.operator root n := by
  have run (ran : found = host.runParts settings.config.exactTags
      (settings.groupPlan group).parts root) : ∃ first rest, parse group = first :: rest ∧
      host.document.IsWithin first.operator root n := by
    obtain ⟨first, rest, parsed, -, within⟩ := isWithin_of_mem_runParts selects (ran ▸ member)
    exact ⟨first, rest, parsed, within⟩
  cases route with
  | host =>
    obtain ⟨first, rest, parsed, below⟩ := exists_descendant_of_isAskable (asked rfl) among
    obtain ⟨lookups, offered, answered⟩ := gives
    have selected := (selects.lookups lookups offered).bySelector answered
    refine ⟨first, rest, parsed, ?_⟩
    rw [below]
    exact (mem_elementDescendants.mp (selected.subset member)).1
  | fallback refusal => exact run gives
  | interpreted => exact run gives

end Settings

/-- Whatever an engine was asked before and whoever answers, each node is found for a group, in the
    region that the first operator of the group leads to; so it is not the node that the query starts
    from, nor above it, nor before it among its siblings. -/
theorem Engine.query_isWithin (settings : Settings) (history : List (Host × Call)) (d : Document)
    (view : View) (selector : String) (root : NodeId) :
    ∃ nodes route,
      ((({ settings } : Engine).after history).call (d.host view) (.query selector root)).1 =
        .answer ⟨nodes, route⟩ ∧
      ∀ n ∈ nodes,
        (∃ group ∈ groupsOf selector, ∃ found first rest,
          settings.Gives (d.host view) root group route found ∧ n ∈ found ∧
          parse group = first :: rest ∧ d.IsWithin first.operator root n) ∧
        n ≠ root ∧ d.isBelow root n = false ∧ ¬ d.IsLaterSibling n root := by
  have selects := selectsBelow_host d view
  obtain ⟨found, merged, gives⟩ :=
    settings.exists_gives selects selector root
  refine ⟨(settings.answer (d.host view) selector root).nodes,
    (settings.answer (d.host view) selector root).route, reply_after .., fun n member => ?_⟩
  rw [merged, mem_distinct, List.mem_flatMap] at member
  obtain ⟨group, among, member⟩ := member
  obtain ⟨first, rest, parsed, within⟩ := Settings.isWithin_of_gives selects
    Settings.isAskable_of_route among (gives group among) member
  rw [document_host] at within
  exact ⟨⟨group, among, found group, first, rest, gives group among, member, parsed, within⟩,
    within.ne_root⟩

end

end TreeSelectors
