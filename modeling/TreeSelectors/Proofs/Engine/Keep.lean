import TreeSelectors.Proofs.Engine.Cache
import TreeSelectors.Proofs.Engine.Interpreter
import TreeSelectors.Proofs.Query.Run

/-!
  Which of given nodes are kept. A run is remembered by the number of its group and the tree it was
  made in, and each is what running the group again would give (`Host.AreRuns`), so every node is
  judged on its own (`keep_eq_filter`). A part that is put on a node itself accepts it just when
  running the part from the top of the tree finds it. Main statement: `holds_iff`.

  Keeping nodes and querying. Where no host answers and ids are not repeated, an engine keeps of
  given nodes those that it finds from the top of the tree of each, although it tests a lone part
  on the nodes themselves. Main statement: `Engine.keep_of_silent`.
-/

namespace TreeSelectors

/-! ## Tests -/

namespace Host

variable (host : Host) (exactTags : Bool)

/-- Whether a node is in a group, with nothing remembered. -/
def holds (n : NodeId) (group : GroupPlan) : Bool :=
  match group.alone? with
  | some part => Conditions.accepts host.document n part.full
  | none => (host.runParts exactTags group.parts (host.document.top n)).contains n

/-- What is remembered of each numbered group is what it finds. -/
def AreRuns (groups : List GroupPlan) (runs : Runs) : Prop :=
  ∀ {number root group found}, groups[number]? = some group →
    runs.lookup (number, root) = some found → found = host.runParts exactTags group.parts root

end Host

/-! ## What is remembered -/

section

variable {host : Host} {exactTags : Bool} {groups : List GroupPlan} {group : GroupPlan}
  {number : Nat}

theorem Host.AreRuns.cons {runs : Runs} (sound : host.AreRuns exactTags groups runs)
    (numbered : groups[number]? = some group) (root : NodeId) :
    host.AreRuns exactTags groups
      (((number, root), host.runParts exactTags group.parts root) :: runs) := by
  intro other start group' found numbered' present
  rw [List.lookup_cons] at present
  split at present
  · next same =>
    obtain ⟨rfl, rfl⟩ := Prod.mk.inj (eq_of_beq same)
    obtain rfl := Option.some.inj (numbered.symm.trans numbered')
    exact (Option.some.inj present).symm
  · exact sound numbered' present

theorem yields_runOnce (numbered : groups[number]? = some group) (root : NodeId) :
    Yields (host.AreRuns exactTags groups) (host.runOnce exactTags group number root)
      (host.runParts exactTags group.parts root) := by
  refine Yields.get fun runs sound => ?_
  cases found : runs.lookup (number, root) with
  | some nodes =>
    rw [sound numbered found]
    exact .pure _
  | none => exact (Yields.modify fun _ sound => sound.cons numbered root).bind (.pure _)

theorem yields_isIn (numbered : groups[number]? = some group) (n : NodeId) :
    Yields (host.AreRuns exactTags groups) (host.isIn exactTags n group number)
      (host.holds exactTags n group) := by
  unfold Host.isIn Host.holds
  cases group.alone? with
  | some part => exact .pure _
  | none => exact (yields_runOnce numbered _).bind (.pure _)

/-- Every node is judged on its own. -/
theorem keep_eq_filter (nodes : List NodeId) :
    host.keep exactTags groups nodes =
      nodes.filter fun n => groups.any (host.holds exactTags n) := by
  have each (n : NodeId) (_ : n ∈ nodes) : Yields (host.AreRuns exactTags groups)
      (groups.zipIdx.anyM fun entry => host.isIn exactTags n entry.1 entry.2)
      (groups.zipIdx.any fun entry => host.holds exactTags n entry.1) :=
    .anyM fun entry member => yields_isIn (List.mem_zipIdx_iff_getElem?.mp member) n
  have kept := (Yields.filterM each [] (by simp [Host.AreRuns])).1
  have unnumbered (n : NodeId) : (groups.zipIdx.any fun entry =>
      host.holds exactTags n entry.1) = groups.any (host.holds exactTags n) := by
    conv_rhs => rw [← List.zipIdx_map_fst 0 groups, List.any_map]
    rfl
  simp only [unnumbered] at kept
  exact kept

theorem mem_runGroups {root n : NodeId} :
    n ∈ host.runGroups exactTags groups root ↔
      ∃ group ∈ groups, n ∈ host.runParts exactTags group.parts root := by
  unfold Host.runGroups
  split <;> simp

end

/-! ## Tested or found -/

section

variable {host : Host} {dialect : Dialect} {useClassLookup : Bool} {parts : List Part}

open Document

theorem alone?_eq_some_iff {group : GroupPlan} {part : PartPlan} :
    group.alone? = some part ↔ group.parts = [part] ∧ part.operator = .descendant := by
  unfold GroupPlan.alone?
  split
  · next only =>
    rw [only, Option.ite_none_right_eq_some, List.singleton_inj, Option.some.injEq]
    constructor
    · rintro ⟨below, rfl⟩
      exact ⟨rfl, below⟩
    · rintro ⟨rfl, below⟩
      exact ⟨below, rfl⟩
  · next several => exact iff_of_false nofun fun single => several part single.1

theorem holds_iff (exact : ∀ part ∈ parts,
      (Retrieval.ofPart part useClassLookup).IsExact host dialect.exactTags)
    (text : String) (n : NodeId) :
    host.holds dialect.exactTags n ⟨text, parts.map (dialect.plan useClassLookup)⟩ = true ↔
      n ∈ host.runParts dialect.exactTags (parts.map (dialect.plan useClassLookup))
        (host.document.top n) := by
  unfold Host.holds
  split
  · next plan alone =>
    obtain ⟨single, below⟩ := alone?_eq_some_iff.mp alone
    obtain ⟨part, rfl, rfl⟩ := List.map_eq_singleton_iff.mp single
    rw [(lists_runParts exact _).mem_iff]
    have step : Chain (host.document.Step (dialect.Accepts host.document)) (host.document.top n)
        [part] n ↔ host.document.isElement n = true ∧
          host.document.isBelow n (host.document.top n) = true ∧
          dialect.Accepts host.document part n := by
      have operator : part.operator = .descendant := below
      simp [Document.Step, operator, Related]
    rw [step]
    constructor
    · intro accepted
      have element := Dialect.Accepts.isElement accepted
      have below := isBelow_root_of_isElement element
      exact ⟨List.cons_ne_nil part [], element, (top_of_isBelow_root below).symm ▸ below, accepted⟩
    · exact fun found => found.2.2.2
  · rw [List.contains_iff_mem]

end

/-! ## Engines -/

namespace Settings

variable {settings : Settings} {d : Document} {view : View}

/-- A node is kept just when it is found from the top of its tree. -/
theorem kept_of_silent (silent : d.IsSilent view) (distinct : d.HasDistinctIds)
    (nodes : List NodeId) (selector : String) :
    settings.kept (d.host view) nodes selector = nodes.filter fun n =>
      decide (n ∈ (settings.answer (d.host view) selector (d.top n)).nodes) := by
  rw [kept, keep_eq_filter]
  refine List.filter_congr fun n _ => ?_
  rw [Bool.eq_iff_iff, decide_eq_true_iff, nodes_answer_eq_interpret silent, interpret,
    mem_runGroups, List.any_eq_true]
  refine exists_congr fun group => and_congr_right fun member => ?_
  obtain ⟨text, -, rfl⟩ := List.mem_map.mp member
  have exact (part : Part) (_ : part ∈ parse text) :
      (Retrieval.ofPart part settings.useClassLookup).IsExact (d.host view)
        settings.dialect.exactTags := Retrieval.isExact_of_silent silent distinct _ _
  have found := holds_iff exact text n
  rw [Document.document_host] at found
  exact found

end Settings

/-- Whatever an engine was asked before, it keeps of given nodes, in their order, those that a query
    from the top of their tree finds, and a node passes the test when it is one of these. -/
theorem Engine.keep_of_silent (settings : Settings) (history : List (Host × Call))
    {d : Document} {view : View} (silent : d.IsSilent view) (distinct : d.HasDistinctIds)
    (selector : String) (nodes : List NodeId) :
    let engine := ({ settings } : Engine).after history
    ∃ found : NodeId → List NodeId,
      (∀ root, ∃ route, (engine.call (d.host view) (.query selector root)).1 =
        .answer ⟨found root, route⟩) ∧
      (engine.call (d.host view) (.keep nodes selector)).1 =
        .kept (nodes.filter fun n => decide (n ∈ found (d.top n))) ∧
      ∀ n, (engine.call (d.host view) (.test n selector)).1 =
        .verdict (decide (n ∈ found (d.top n))) := by
  intro engine
  refine ⟨fun root => (settings.answer (d.host view) selector root).nodes,
    fun root => ⟨(settings.answer (d.host view) selector root).route, reply_after ..⟩, ?_, ?_⟩
  · rw [reply_after, Settings.reply, Settings.kept_of_silent silent distinct]
  · intro n
    rw [reply_after, Settings.reply, Settings.kept_of_silent silent distinct]
    by_cases member : n ∈ (settings.answer (d.host view) selector (d.top n)).nodes
      <;> simp [member]

theorem Engine.keep_of_silent_groups :
    let d := Document.ofEdits [.element 0 "ul" [], .element 1 "li" [("id", "a")], .text 1 "x",
      .element 1 "b" [], .element 1 "li" [("id", "b")]]
    let selector := "b,, > ul > #b, #a"
    let engine := ({ settings := {} } : Engine).after []
    d.HasDistinctIds ∧ d.IsSilent .refusing ∧
      (∃ route, (engine.call (d.host .refusing) (.query selector 0)).1 =
        .answer ⟨[4, 5, 2], route⟩) ∧
      (engine.call (d.host .refusing) (.keep [5, 1, 2, 0, 3, 5] selector)).1 =
        .kept [5, 2, 5] ∧
      (engine.call (d.host .refusing) (.test 4 selector)).1 = .verdict true := by
  intro d selector engine
  have distinct : d.HasDistinctIds := by decide +kernel
  have silent : d.IsSilent .refusing := nofun
  obtain ⟨found, queried, kept, tested⟩ :=
    keep_of_silent {} [] silent distinct selector [5, 1, 2, 0, 3, 5]
  obtain ⟨route, replied⟩ := queried 0
  have nodes : found 0 = [4, 5, 2] := (nodes_of_reply replied).trans (by decide +kernel)
  have tops : ∀ n ∈ [0, 1, 2, 3, 4, 5], d.top n = 0 := by decide +kernel
  simp only [List.forall_mem_cons] at tops
  refine ⟨distinct, silent, ⟨route, nodes ▸ replied⟩, ?_, ?_⟩
  · simpa [tops, nodes] using kept
  · simpa [tops, nodes] using tested 4

end TreeSelectors
