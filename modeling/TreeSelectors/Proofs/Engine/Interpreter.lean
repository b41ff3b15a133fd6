import TreeSelectors.Document.Edit
import TreeSelectors.Proofs.Engine.Cache
import TreeSelectors.Proofs.Query.Bulk
import TreeSelectors.Proofs.Query.Lookups
import TreeSelectors.Proofs.Query.Run

/-!
  Queries that no host answers. Lookups that are off or refuse leave every retrieval exact where ids
  are not repeated (`Retrieval.isExact_of_silent`), and the interpreter then finds the ends of the
  chains that the selector describes. Main statement: `Engine.query_of_silent`.
-/

namespace TreeSelectors

namespace Document

variable {d : Document} {n : NodeId} {id : String}

/-- No two nodes carry the id. -/
def IsUniqueId (d : Document) (id : String) : Prop :=
  ∀ n m, d.hasId id n = true → d.hasId id m = true → n = m

def HasDistinctIds (d : Document) : Prop := ∀ id, d.IsUniqueId id

/-! ## Lookups by id -/

/-- All ids in the document, node by node. -/
def allIds (d : Document) : List String := (List.range (d.size + 1)).filterMap (d.attr? · "id")

theorem hasDistinctIds_iff : d.HasDistinctIds ↔ d.allIds.Nodup := by
  constructor
  · intro distinct
    refine List.nodup_range.filterMap fun n m id first second => ?_
    exact distinct id n m (beq_iff_eq.mpr first) (beq_iff_eq.mpr second)
  · intro nodup id n m first second
    have known (k : NodeId) (held : d.hasId id k = true) : k ∈ List.range (d.size + 1) := by
      obtain ⟨content, found, -⟩ := Option.bind_eq_some_iff.mp (beq_iff_eq.mp held)
      obtain ⟨node, present, -⟩ := Option.map_eq_some_iff.mp found
      exact List.mem_range.mpr (Nat.lt_succ_of_le (node?_eq_some_le present))
    have apart := List.pairwise_filterMap.mp nodup
    have symm : Std.Symm fun a b =>
        ∀ x, d.attr? a "id" = some x → ∀ y, d.attr? b "id" = some y → x ≠ y :=
      ⟨fun _ _ before y right x left => (before x left y right).symm⟩
    by_contra different
    exact apart.forall (known n first) (known m second) different id (beq_iff_eq.mp first) id
      (beq_iff_eq.mp second) rfl

instance : Decidable d.HasDistinctIds := decidable_of_iff _ hasDistinctIds_iff.symm

theorem head?_eq_some_iff_mem {nodes : List NodeId} (single : ∀ a ∈ nodes, ∀ b ∈ nodes, a = b) :
    nodes.head? = some n ↔ n ∈ nodes := by
  cases nodes with
  | nil => simp
  | cons first rest =>
    rw [List.head?_cons, Option.some.injEq]
    constructor
    · rintro rfl
      exact List.mem_cons_self
    · exact fun member => single first List.mem_cons_self n member

/-- The index finds what the walk finds. -/
theorem host_full (d : Document) : d.host .full =
    { d.host .plain with lookups? := if d.offersLookups then some d.lookups else none } := by
  have same : d.indexedById? = d.walkedById? := by
    funext scope id
    exact indexedById?_eq_walkedById? d scope id
  rw [host, host, same]

theorem walkedById?_eq_some_iff (unique : d.IsUniqueId id) (scope : NodeId) :
    d.walkedById? scope id = some n ↔ d.isBelow n scope = true ∧ d.hasId id n = true := by
  have identified := (lists_identified (d := d) id scope).mem_iff
  rw [walkedById?, ← List.head?_filter, head?_eq_some_iff_mem, identified]
  intro a first b second
  exact unique a b ((identified a).mp first).2 ((identified b).mp second).2

end Document

/-! ## Exact retrievals -/

namespace Retrieval

variable {d : Document}

theorem isExact_byId {id : String} (unique : d.IsUniqueId id) (view : View) (exactTags : Bool) :
    (byId id).IsExact (d.host view) exactTags := by
  intro context n
  cases view with
  | full =>
    rw [Document.host_full]
    exact Document.walkedById?_eq_some_iff unique context
  | plain => exact Document.walkedById?_eq_some_iff unique context
  | refusing => exact Document.walkedById?_eq_some_iff unique context

theorem isExact_of_silent {view : View} (silent : d.IsSilent view) (distinct : d.HasDistinctIds)
    (exactTags : Bool) (retrieval : Retrieval) : retrieval.IsExact (d.host view) exactTags := by
  cases retrieval with
  | byId id => exact isExact_byId (distinct id) view exactTags
  | byClasses names => exact isExact_byClasses_of_silent silent names exactTags
  | byTag name => exact isExact_byTag_of_silent silent name exactTags
  | _ => trivial

end Retrieval

/-! ## Queries -/

/-- The first group is refused already. -/
theorem Request.ask_of_silent {d : Document} {view : View} (silent : d.IsSilent view)
    {request : Request} (some : request.groups ≠ []) (root : NodeId) :
    ∃ refusal, request.ask (d.host view) root = .error refusal := by
  unfold ask
  split
  · exact ⟨_, rfl⟩
  · rcases Retrieval.lookups?_of_silent silent with absent | refusing
    · exact ⟨.absent, by rw [absent]⟩
    · obtain ⟨group, groups, asked⟩ := List.exists_cons_of_ne_nil some
      refine ⟨.rejected ("refused " ++ group), ?_⟩
      rw [refusing, asked]
      cases groups with
      | nil => rfl
      | cons next groups =>
        simp only [List.mapM_cons, Lookups.refusing]
        rfl

namespace Settings

variable {settings : Settings} {d : Document} {view : View} {selector : String}

theorem nodes_answer_eq_interpret (silent : d.IsSilent view) (selector : String) (root : NodeId) :
    (settings.answer (d.host view) selector root).nodes =
      settings.interpret (d.host view) (settings.selectorPlan selector) root := by
  unfold answer
  simp only
  split
  · next askable =>
    have some : (settings.selectorPlan selector).request.groups ≠ [] := by
      have groups : groupsOf selector ≠ [] := by
        rintro none
        simp [selectorPlan, isAskable, TreeSelectors.isAskable, none] at askable
      simpa [SelectorPlan.request, selectorPlan, Request.ofGroups] using groups
    obtain ⟨refusal, refused⟩ := Request.ask_of_silent silent some root
    rw [refused]
  · rfl

theorem nodes_answer_of_silent (silent : d.IsSilent view) {group : String}
    (single : groupsOf selector = [group]) (root : NodeId) :
    (settings.answer (d.host view) selector root).nodes =
      (d.host view).runParts settings.config.exactTags
        ((parse group).map (settings.dialect.plan settings.useClassLookup)) root := by
  rw [nodes_answer_eq_interpret silent]
  simp [interpret, selectorPlan, single, Host.runGroups, groupPlan]

end Settings

/-- Whatever an engine was asked before, a group that no host answers is answered with the ends of
    the chains from the root for its parts. -/
theorem Engine.query_of_silent (settings : Settings) (history : List (Host × Call))
    {d : Document} {view : View} (silent : d.IsSilent view) (distinct : d.HasDistinctIds)
    {selector group : String} (single : groupsOf selector = [group]) (root : NodeId) :
    ∃ nodes route,
      ((({ settings } : Engine).after history).call (d.host view) (.query selector root)).1 =
        .answer ⟨nodes, route⟩ ∧
      d.InOrder nodes ∧
      ∀ n, n ∈ nodes ↔ parse group ≠ [] ∧
        Chain (d.Step (settings.dialect.Accepts d)) root (parse group) n := by
  have tree : (d.host view).document = d := by cases view <;> rfl
  have exact (part : Part) (_ : part ∈ parse group) :
      (Retrieval.ofPart part settings.useClassLookup).IsExact (d.host view)
        settings.dialect.exactTags := Retrieval.isExact_of_silent silent distinct _ _
  have found := lists_runParts exact root
  rw [tree] at found
  refine ⟨(settings.answer (d.host view) selector root).nodes,
    (settings.answer (d.host view) selector root).route, reply_after .., ?_⟩
  rw [Settings.nodes_answer_of_silent silent single]
  exact ⟨found.inOrder, found.mem_iff⟩

theorem Engine.query_of_silent_siblings :
    let d := Document.ofEdits [.element 0 "ul" [], .element 1 "li" [("id", "a")],
      .element 1 "li" [], .element 3 "b" [], .element 1 "li" [("id", "b")]]
    let selector := "ul > #a ~ li"
    d.HasDistinctIds ∧ groupsOf selector = [selector] ∧
      ∃ route, ((({ settings := {} } : Engine).after []).call (d.host .refusing)
          (.query selector 0)).1 = .answer ⟨[3, 5], route⟩ ∧
        d.InOrder [3, 5] ∧ ∀ n, n ∈ [3, 5] ↔ parse selector ≠ [] ∧
          Chain (d.Step (Settings.dialect {} |>.Accepts d)) 0 (parse selector) n := by
  intro d selector
  have distinct : d.HasDistinctIds := by decide +kernel
  have single : groupsOf selector = [selector] := by decide +kernel
  have silent : d.IsSilent .refusing := nofun
  obtain ⟨nodes, route, replied, inOrder, mem_iff⟩ :=
    query_of_silent {} [] silent distinct single 0
  have same := Reply.answer.inj (replied.symm.trans (reply_after {} [] (d.host .refusing) _))
  have found : (Settings.answer {} (d.host .refusing) selector 0).nodes = [3, 5] := by
    decide +kernel
  obtain rfl : nodes = [3, 5] := (congrArg Answer.nodes same).trans found
  exact ⟨distinct, single, route, replied, inOrder, mem_iff⟩

end TreeSelectors
