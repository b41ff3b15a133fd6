import TreeSelectors.Proofs.Query.Lookups
import TreeSelectors.Proofs.Query.Numbering
import TreeSelectors.Proofs.Query.Retrieval
import TreeSelectors.Query.Run

/-!
  A group from the root on. A node is in a group when a chain of finds leads to it, each from the
  node before (`mem_runParts`): sorting and dropping repetitions in between change nothing that is
  found later. Where what a part finds is in document order, so is the group (`inOrder_runParts`).
  Where no lookup finds anything else than a walk would, the chains are those that the parts
  describe. Main statement: `lists_runParts`.

  Runs are in order, whatever the lookups find and whoever carries an id. It is enough that each
  lookup finds nodes in document order (`Host.IsOrdered`), which every view of a document does
  (`Document.isOrdered_host`). One group then needs no merging, so that groups may be run apart and
  merged after. Main statement: `runGroups_append`.
-/

namespace TreeSelectors

/-! ## Groups -/

section

open Document

/-- A part leads from a node to what it finds from there. -/
def Host.Finds (host : Host) (exactTags : Bool) (part : PartPlan) (context n : NodeId) : Prop :=
  n ∈ part.nodesFrom host exactTags context

section

variable {host : Host} {exactTags : Bool} {part : PartPlan} {parts : List PartPlan}
  {contexts : List NodeId} {root n : NodeId}

/-! ## Members -/

theorem mem_follow :
    n ∈ host.follow exactTags contexts part ↔
      ∃ context ∈ contexts, host.Finds exactTags part context n := by
  unfold Host.follow Host.Finds
  split
  · simp
  · simp
  · rw [(sortByOrder_perm _).mem_iff, mem_distinct, List.mem_flatMap]

theorem mem_foldl_follow :
    n ∈ parts.foldl (host.follow exactTags) contexts ↔
      ∃ context ∈ contexts, Chain (host.Finds exactTags) context parts n := by
  induction parts generalizing contexts with
  | nil => simp
  | cons part parts ih =>
    simp only [List.foldl_cons, ih, mem_follow, chain_cons]
    constructor
    · rintro ⟨next, ⟨context, among, found⟩, chain⟩
      exact ⟨context, among, next, found, chain⟩
    · rintro ⟨context, among, next, found, chain⟩
      exact ⟨next, ⟨context, among, found⟩, chain⟩

theorem mem_runParts :
    n ∈ host.runParts exactTags parts root ↔
      parts ≠ [] ∧ Chain (host.Finds exactTags) root parts n := by
  cases parts with
  | nil => simp [Host.runParts]
  | cons part parts =>
    show n ∈ (part :: parts).foldl (host.follow exactTags) [root] ↔ _
    rw [mem_foldl_follow]
    simp

/-- Parts run one after the other are run from every node that the first ones find. -/
theorem mem_runParts_append {others : List PartPlan} (some : parts ≠ []) (more : others ≠ []) :
    n ∈ host.runParts exactTags (parts ++ others) root ↔
      ∃ context ∈ host.runParts exactTags parts root,
        n ∈ host.runParts exactTags others context := by
  have joined : parts ++ others ≠ [] := List.append_ne_nil_of_left_ne_nil some others
  simp only [mem_runParts, ne_eq, joined, some, more, not_false_eq_true, true_and]
  exact chain_append

/-! ## Order -/

theorem inOrder_follow
    (each : ∀ context, host.document.InOrder (part.nodesFrom host exactTags context))
    (contexts : List NodeId) : host.document.InOrder (host.follow exactTags contexts part) := by
  unfold Host.follow
  split
  · exact List.nil_sublist _
  · exact each _
  · refine inOrder_sortByOrder (nodup_distinct _) fun n member => ?_
    obtain ⟨context, -, found⟩ := List.mem_flatMap.mp (mem_distinct.mp member)
    exact (inOrder_iff.mp (each context)).1 n found

theorem inOrder_foldl_follow
    (each : ∀ part ∈ parts, ∀ context,
      host.document.InOrder (part.nodesFrom host exactTags context))
    (inOrder : host.document.InOrder contexts) :
    host.document.InOrder (parts.foldl (host.follow exactTags) contexts) := by
  induction parts generalizing contexts with
  | nil => exact inOrder
  | cons part parts ih =>
    obtain ⟨here, later⟩ := List.forall_mem_cons.mp each
    exact ih later (inOrder_follow here contexts)

theorem inOrder_runParts
    (each : ∀ part ∈ parts, ∀ context,
      host.document.InOrder (part.nodesFrom host exactTags context)) (root : NodeId) :
    host.document.InOrder (host.runParts exactTags parts root) := by
  cases parts with
  | nil => exact List.nil_sublist _
  | cons part parts =>
    obtain ⟨here, later⟩ := List.forall_mem_cons.mp each
    show host.document.InOrder (parts.foldl _ (host.follow exactTags [root] part))
    exact inOrder_foldl_follow later (inOrder_follow here [root])

end

/-! ## Meaning -/

theorem lists_runParts {host : Host} {dialect : Dialect} {useClassLookup : Bool}
    {parts : List Part} (exact : ∀ part ∈ parts,
      (Retrieval.ofPart part useClassLookup).IsExact host dialect.exactTags) (root : NodeId) :
    host.document.Lists
      (host.runParts dialect.exactTags (parts.map (dialect.plan useClassLookup)) root)
      fun n => parts ≠ [] ∧
        Chain (host.document.Step (dialect.Accepts host.document)) root parts n where
  inOrder := by
    refine inOrder_runParts (fun plan member context => ?_) root
    obtain ⟨part, among, rfl⟩ := List.mem_map.mp member
    exact (lists_nodesFrom (exact part among) context).inOrder
  mem_iff n := by
    rw [mem_runParts, ne_eq, List.map_eq_nil_iff, chain_map]
    refine and_congr_right fun _ => chain_congr fun part among context m => ?_
    exact (lists_nodesFrom (exact part among) context).mem_iff m

end

/-! ## Order -/

section

open Document

/-- What the lookups find is in document order. -/
structure Lookups.IsOrdered (lookups : Lookups) (d : Document) : Prop where
  byClasses : ∀ {scope names found}, lookups.byClasses scope names = .ok found → d.InOrder found
  byTag : ∀ {scope tag found}, lookups.byTag scope tag = .ok found → d.InOrder found

structure Host.IsOrdered (host : Host) : Prop where
  isBelow_root : ∀ {scope id n}, host.elementById? scope id = some n →
    host.document.isBelow n root = true
  lookups : ∀ lookups ∈ host.lookups?, lookups.IsOrdered host.document

/-! ## Views of a document -/

theorem Host.SelectsBelow.isOrdered {host : Host} (selects : host.SelectsBelow) :
    host.IsOrdered where
  isBelow_root found :=
    isBelow_root_of_isElement (mem_elementDescendants.mp (selects.byId found)).2
  lookups lookups offered :=
    { byClasses := fun answer =>
        ((selects.lookups lookups offered).byClasses answer).trans (inOrder_elementDescendants _)
      byTag := fun answer =>
        ((selects.lookups lookups offered).byTag answer).trans (inOrder_elementDescendants _) }

theorem Document.isOrdered_host (d : Document) (view : View) : (d.host view).IsOrdered :=
  (selectsBelow_host d view).isOrdered

/-! ## Runs -/

section

variable {host : Host} {exactTags : Bool}

/-- Nodes come from a lookup that answers, or from a walk. -/
theorem inOrder_candidates (ordered : host.IsOrdered) (retrieval : Retrieval) (context : NodeId) :
    host.document.InOrder (retrieval.candidates host exactTags context) := by
  cases retrieval with
  | byId id => exact inOrder_toList fun n found => ordered.isBelow_root found
  | byClasses names =>
    simp only [Retrieval.candidates, Retrieval.byClassesFrom]
    split
    · next found answered =>
      obtain ⟨lookups, offered, answer⟩ := Option.bind_eq_some_iff.mp answered
      exact (ordered.lookups lookups offered).byClasses (eq_ok_of_toOption answer)
    · exact ((inOrder_descendants context).filter _).filter _
  | byTag name =>
    simp only [Retrieval.candidates, Retrieval.byTagFrom]
    split
    · next found answered =>
      obtain ⟨lookups, offered, answer⟩ := Option.bind_eq_some_iff.mp answered
      obtain ⟨-, offered⟩ := Option.ite_none_left_eq_some.mp offered
      exact (ordered.lookups lookups offered).byTag (eq_ok_of_toOption answer)
    · exact (inOrder_descendants context).filter _
  | walk => exact inOrder_descendants context
  | children => exact (inOrder_children context).filter _
  | nextSibling =>
    refine inOrder_toList fun n found => ?_
    exact isBelow_root_of_isElement (nextElement?_eq_some_iff.mp found).1
  | followingSiblings => exact inOrder_followingElements context

theorem Host.IsOrdered.inOrder_runParts (ordered : host.IsOrdered) (parts : List PartPlan)
    (root : NodeId) : host.document.InOrder (host.runParts exactTags parts root) :=
  TreeSelectors.inOrder_runParts
    (fun part _ context => (inOrder_candidates ordered part.retrieval context).filter _) root

/-- Merging one group changes nothing. -/
theorem runGroups_eq_distinct (ordered : host.IsOrdered) (groups : List GroupPlan)
    (root : NodeId) : host.runGroups exactTags groups root =
      distinct (groups.flatMap fun group => host.runParts exactTags group.parts root) := by
  unfold Host.runGroups
  split
  · next group =>
    rw [List.flatMap_singleton]
    exact (distinct_eq_self (ordered.inOrder_runParts group.parts root).nodup).symm
  · rfl

theorem runGroups_append (ordered : host.IsOrdered) (groups others : List GroupPlan)
    (root : NodeId) : host.runGroups exactTags (groups ++ others) root =
      distinct (host.runGroups exactTags groups root ++ host.runGroups exactTags others root) := by
  simp only [runGroups_eq_distinct ordered, List.flatMap_append, distinct_append_distinct]

end

end

end TreeSelectors
