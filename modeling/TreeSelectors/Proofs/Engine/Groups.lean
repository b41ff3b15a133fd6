import TreeSelectors.Document.Edit
import TreeSelectors.Proofs.Engine.Cache
import TreeSelectors.Proofs.Query.Run

/-!
  Joining selectors. The groups of two selectors joined by a comma are those of the first and then
  those of the second (`groupsOf_append_comma`), whatever the texts are. An engine that asks no host
  therefore answers the two joined with the merged answers to each, although it merges nothing where
  there is only one group. Main statement: `Engine.query_append_comma`.

  Queries one after the other. A group with the parts of two groups finds what the second group finds
  from the nodes of the first, although it runs from all of them at once, drops repetitions and sorts
  in between. Ids may be repeated, for a lookup by id depends on its context alone. Main statement:
  `Engine.query_append_parts`.
-/

namespace TreeSelectors

/-! ## Joined selectors -/

theorem groupsOf_append_comma (first second : String) :
    groupsOf (first ++ "," ++ second) = groupsOf first ++ groupsOf second := by
  have text : (first ++ "," ++ second).toList = first.toList ++ ',' :: second.toList := by
    simp [String.toList_append]
  have cut : (first ++ "," ++ second).toList.splitOn ',' =
      first.toList.splitOn ',' ++ second.toList.splitOn ',' := by
    rw [text]
    exact List.splitOnP_append_cons _ _ (by simp)
  simp only [groupsOf, cut, List.map_append, List.filter_append]

namespace Settings

variable {settings : Settings}

theorem answer_of_asksHost_eq_false (quiet : settings.asksHost = false) (host : Host)
    (selector : String) (root : NodeId) : settings.answer host selector root =
      ⟨settings.interpret host (settings.selectorPlan selector) root, .interpreted⟩ := by
  have unasked : (settings.selectorPlan selector).askable = false := by
    simp [selectorPlan, isAskable, quiet]
  simp [answer, unasked]

theorem interpret_append_comma {host : Host} (ordered : host.IsOrdered) (first second : String)
    (root : NodeId) :
    settings.interpret host (settings.selectorPlan (first ++ "," ++ second)) root =
      distinct (settings.interpret host (settings.selectorPlan first) root ++
        settings.interpret host (settings.selectorPlan second) root) := by
  simp only [interpret, selectorPlan, groupsOf_append_comma, List.map_append]
  exact runGroups_append ordered _ _ root

end Settings

/-- Whatever an engine that asks no host was asked before, it answers two selectors joined by a
    comma with the nodes of the first and then those of the second, each node once. -/
theorem Engine.query_append_comma (settings : Settings) (quiet : settings.asksHost = false)
    (history : List (Host × Call)) (d : Document) (view : View) (first second : String)
    (root : NodeId) :
    let engine := ({ settings } : Engine).after history
    let reply selector := (engine.call (d.host view) (.query selector root)).1
    ∃ left right, reply first = .answer ⟨left, .interpreted⟩ ∧
      reply second = .answer ⟨right, .interpreted⟩ ∧
      reply (first ++ "," ++ second) = .answer ⟨distinct (left ++ right), .interpreted⟩ := by
  intro engine reply
  have interpreted (selector : String) : reply selector = .answer
      ⟨settings.interpret (d.host view) (settings.selectorPlan selector) root, .interpreted⟩ := by
    rw [← Settings.answer_of_asksHost_eq_false quiet]
    exact reply_after ..
  refine ⟨_, _, interpreted first, interpreted second, ?_⟩
  rw [interpreted, Settings.interpret_append_comma (Document.isOrdered_host d view)]

theorem Engine.query_append_comma_repeated_id :
    let d := Document.ofEdits [.element 0 "ul" [], .element 1 "li" [("id", "a")],
      .element 1 "b" [("id", "a")], .element 3 "b" []]
    let settings : Settings := { config := { askHost := false } }
    let reply selector :=
      ((({ settings } : Engine).after []).call (d.host .plain) (.query selector 0)).1
    settings.asksHost = false ∧ reply "b,#a" = .answer ⟨[3, 4, 2], .interpreted⟩ ∧
      reply " ,#a + b, ul, [" = .answer ⟨[3, 1], .interpreted⟩ ∧
      reply "b,#a, ,#a + b, ul, [" = .answer ⟨[3, 4, 2, 1], .interpreted⟩ := by
  intro d settings reply
  have quiet : settings.asksHost = false := by decide
  obtain ⟨left, right, first, second, joined⟩ :=
    query_append_comma settings quiet [] d .plain "b,#a" " ,#a + b, ul, [" 0
  obtain rfl : left = [3, 4, 2] := (nodes_of_reply first).trans (by decide +kernel)
  obtain rfl : right = [3, 1] := (nodes_of_reply second).trans (by decide +kernel)
  exact ⟨quiet, first, second, joined⟩

/-! ## Chained queries -/

section

open Document

theorem lists_runParts_append {host : Host} (ordered : host.IsOrdered) (exactTags : Bool)
    {parts others : List PartPlan} (some : parts ≠ []) (more : others ≠ []) (root : NodeId) :
    host.document.Lists (host.runParts exactTags (parts ++ others) root) fun n =>
      ∃ context ∈ host.runParts exactTags parts root,
        n ∈ host.runParts exactTags others context where
  inOrder := ordered.inOrder_runParts (parts ++ others) root
  mem_iff _ := mem_runParts_append some more

namespace Settings

variable {settings : Settings} {selector group : String}

theorem interpret_of_single (single : groupsOf selector = [group]) (host : Host) (root : NodeId) :
    settings.interpret host (settings.selectorPlan selector) root =
      host.runParts settings.config.exactTags (settings.groupPlan group).parts root := by
  rw [interpret, selectorPlan, single]
  rfl

theorem parts_groupPlan_append {first second : String}
    (joined : parse group = parse first ++ parse second) : (settings.groupPlan group).parts =
      (settings.groupPlan first).parts ++ (settings.groupPlan second).parts := by
  rw [groupPlan, joined, List.map_append]
  rfl

end Settings

/-- Whatever an engine that asks no host was asked before, it finds for the parts of two groups, in
    document order and once each, the nodes that the second group finds from those of the first. -/
theorem Engine.query_append_parts (settings : Settings) (quiet : settings.asksHost = false)
    (history : List (Host × Call)) (d : Document) (view : View)
    {whole first second group front back : String}
    (single : groupsOf whole = [group]) (singleFirst : groupsOf first = [front])
    (singleSecond : groupsOf second = [back]) (joined : parse group = parse front ++ parse back)
    (some : parse front ≠ []) (more : parse back ≠ []) (root : NodeId) :
    let engine := ({ settings } : Engine).after history
    ∃ found : String → NodeId → List NodeId,
      (∀ selector root, (engine.call (d.host view) (.query selector root)).1 =
        .answer ⟨found selector root, .interpreted⟩) ∧
      d.Lists (found whole root) fun n => ∃ context ∈ found first root, n ∈ found second context := by
  intro engine
  refine ⟨fun selector root =>
    settings.interpret (d.host view) (settings.selectorPlan selector) root,
    fun selector root => ?_, ?_⟩
  · rw [← Settings.answer_of_asksHost_eq_false quiet]
    exact reply_after ..
  · have some' : (settings.groupPlan front).parts ≠ [] := by simpa [Settings.groupPlan] using some
    have more' : (settings.groupPlan back).parts ≠ [] := by simpa [Settings.groupPlan] using more
    have lists :=
      lists_runParts_append (isOrdered_host d view) settings.config.exactTags some' more' root
    rw [document_host] at lists
    simpa only [Settings.interpret_of_single single, Settings.interpret_of_single singleFirst,
      Settings.interpret_of_single singleSecond, Settings.parts_groupPlan_append joined] using lists

theorem Engine.query_append_parts_repeated_id :
    let d := Document.ofEdits [.element 0 "ul" [], .element 1 "li" [], .element 2 "ul" [],
      .element 3 "li" [], .element 3 "li" [], .element 5 "b" [("id", "a")], .element 1 "li" [],
      .element 7 "i" [("id", "a")]]
    let settings : Settings := { config := { askHost := false } }
    let reply selector root :=
      ((({ settings } : Engine).after []).call (d.host .plain) (.query selector root)).1
    settings.asksHost = false ∧
      (∀ selector ∈ ["li ~ li #a", "li", "~ li #a"], groupsOf selector = [selector]) ∧
      parse "li ~ li #a" = parse "li" ++ parse "~ li #a" ∧ parse "li" ≠ [] ∧
      parse "~ li #a" ≠ [] ∧
      reply "li" 0 = .answer ⟨[2, 4, 5, 7], .interpreted⟩ ∧
      reply "~ li #a" 2 = .answer ⟨[8], .interpreted⟩ ∧
      reply "~ li #a" 4 = .answer ⟨[6], .interpreted⟩ ∧
      reply "li ~ li #a" 0 = .answer ⟨[6, 8], .interpreted⟩ := by
  intro d settings reply
  have quiet : settings.asksHost = false := by decide
  have single : ∀ selector ∈ ["li ~ li #a", "li", "~ li #a"], groupsOf selector = [selector] := by
    decide +kernel
  have joined : parse "li ~ li #a" = parse "li" ++ parse "~ li #a" := by decide +kernel
  have some : parse "li" ≠ [] := by decide +kernel
  have more : parse "~ li #a" ≠ [] := by decide +kernel
  obtain ⟨found, replied, lists⟩ := query_append_parts settings quiet [] d .plain
    (single _ (by simp)) (single _ (by simp)) (single _ (by simp)) joined some more 0
  have nodes (selector : String) (root : NodeId) := nodes_of_reply (replied selector root)
  have first : found "li" 0 = [2, 4, 5, 7] := (nodes _ _).trans (by decide +kernel)
  have second : [2, 4, 5, 7].map (found "~ li #a") = [[8], [6], [], []] :=
    (List.map_congr_left fun root _ => nodes "~ li #a" root).trans (by decide +kernel)
  obtain ⟨from2, from4, from5, from7⟩ : found "~ li #a" 2 = [8] ∧ found "~ li #a" 4 = [6] ∧
      found "~ li #a" 5 = [] ∧ found "~ li #a" 7 = [] := by simpa using second
  have whole : found "li ~ li #a" 0 = [6, 8] := by
    refine lists.unique ⟨?_, fun n => ?_⟩
    · show [6, 8].Sublist (d.descendants Document.root)
      decide +kernel
    · simp [first, from2, from4, from5, from7, or_comm]
  refine ⟨quiet, single, joined, some, more, ?_, ?_, ?_, ?_⟩
  · exact first ▸ replied "li" 0
  · exact from2 ▸ replied "~ li #a" 2
  · exact from4 ▸ replied "~ li #a" 4
  · exact whole ▸ replied "li ~ li #a" 0

end

end TreeSelectors
