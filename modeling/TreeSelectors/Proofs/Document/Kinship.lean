import TreeSelectors.Host

/-!
  Who is above, below and beside whom. `mem_descendants` ties the walk down to the walk up, and
  `mem_origins` and `mem_followingElements` tie the sideways walks to the relation between two
  siblings.
-/

namespace TreeSelectors.Document

variable {d : Document} {n m p a c : NodeId}

/-! ## Up -/

theorem ancestors_of_parent (parent : d.parent? n = some p) :
    d.ancestors n = p :: d.ancestors p := by
  rw [ancestors]
  split
  · next orphan => simp [orphan] at parent
  · next found =>
    obtain rfl : _ = p := Option.some.inj (found.symm.trans parent)
    rfl

theorem ancestors_of_orphan (orphan : d.parent? n = none) : d.ancestors n = [] := by
  rw [ancestors]
  split
  · rfl
  · next found => simp [orphan] at found

theorem isBelow_of_parent (parent : d.parent? n = some p) :
    d.isBelow n a = true ↔ a = p ∨ d.isBelow p a = true := by
  simp [isBelow, ancestors_of_parent parent]

theorem exists_parent_of_isBelow (below : d.isBelow n a = true) :
    ∃ p, d.parent? n = some p ∧ (a = p ∨ d.isBelow p a = true) := by
  cases parent : d.parent? n with
  | none => simp [isBelow, ancestors_of_orphan parent] at below
  | some p => exact ⟨p, rfl, (isBelow_of_parent parent).mp below⟩

theorem isBelow_trans (low : d.isBelow n m = true) (high : d.isBelow m a = true) :
    d.isBelow n a = true := by
  induction n using ancestors.induct d with
  | case1 n orphan => simp [isBelow, ancestors_of_orphan orphan] at low
  | case2 n p parent ih =>
    rcases (isBelow_of_parent parent).mp low with rfl | above
    · exact (isBelow_of_parent parent).mpr (.inr high)
    · exact (isBelow_of_parent parent).mpr (.inr (ih above))

theorem lt_of_isBelow (below : d.isBelow n a = true) : a < n := by
  induction n using ancestors.induct d with
  | case1 n orphan => simp [isBelow, ancestors_of_orphan orphan] at below
  | case2 n p parent ih =>
    have older := parent?_lt parent
    rcases (isBelow_of_parent parent).mp below with rfl | above
    · exact older
    · exact Nat.lt_trans (ih above) older

/-- What is below a node is a child of it or below one. -/
theorem isBelow_iff_child :
    d.isBelow n a = true ↔ ∃ c, d.parent? c = some a ∧ (n = c ∨ d.isBelow n c = true) := by
  constructor
  · intro below
    induction n using ancestors.induct d with
    | case1 n orphan => simp [isBelow, ancestors_of_orphan orphan] at below
    | case2 n p parent ih =>
      rcases (isBelow_of_parent parent).mp below with rfl | above
      · exact ⟨n, parent, .inl rfl⟩
      · obtain ⟨c, child, same | deeper⟩ := ih above
        · exact ⟨c, child, .inr ((isBelow_of_parent parent).mpr (.inl same.symm))⟩
        · exact ⟨c, child, .inr ((isBelow_of_parent parent).mpr (.inr deeper))⟩
  · rintro ⟨c, child, rfl | deeper⟩
    · exact (isBelow_of_parent child).mpr (.inl rfl)
    · exact isBelow_trans deeper ((isBelow_of_parent child).mpr (.inl rfl))

theorem exists_node?_of_isKnown (positive : 0 < n) (known : d.isKnown n = true) :
    ∃ node, d.node? n = some node := by
  cases n with
  | zero => exact absurd positive (Nat.lt_irrefl 0)
  | succ n =>
    have bound : n < d.nodes.size := of_decide_eq_true known
    exact ⟨d.nodes[n], Array.getElem?_eq_getElem bound⟩

/-- Every node that was made is below the root. -/
theorem isBelow_root (positive : 0 < n) (known : d.isKnown n = true) :
    d.isBelow n root = true := by
  induction n using ancestors.induct d with
  | case1 n orphan =>
    obtain ⟨node, found⟩ := exists_node?_of_isKnown positive known
    simp [parent?, found] at orphan
  | case2 n p parent ih =>
    rw [isBelow_of_parent parent]
    have older := parent?_lt parent
    rcases Nat.eq_zero_or_pos p with rfl | above
    · exact .inl rfl
    · refine .inr (ih above ?_)
      have here : n ≤ d.size := of_decide_eq_true known
      exact decide_eq_true (Nat.le_trans (Nat.le_of_lt older) here)

theorem isBelow_root_of_isElement (element : d.isElement n = true) :
    d.isBelow n root = true := by
  cases found : d.node? n with
  | none => simp [isElement, content?, found] at element
  | some node =>
    refine isBelow_root ?_ (decide_eq_true (node?_eq_some_le found))
    cases n with
    | zero => simp [node?, nodeIn?] at found
    | succ n => exact Nat.succ_pos n

theorem top_of_orphan (orphan : d.parent? n = none) : d.top n = n := by
  rw [top, ancestors_of_orphan orphan, List.getLastD_nil]

theorem top_of_parent (parent : d.parent? n = some p) : d.top n = d.top p := by
  rw [top, ancestors_of_parent parent, List.getLastD_cons, top]

theorem top_of_isBelow_root (below : d.isBelow n root = true) : d.top n = root := by
  induction n using ancestors.induct d with
  | case1 n orphan => simp [isBelow, ancestors_of_orphan orphan] at below
  | case2 n p parent ih =>
    rw [top_of_parent parent]
    rcases (isBelow_of_parent parent).mp below with rfl | above
    · exact top_of_orphan rfl
    · exact ih above

/-! ## Down -/

theorem pairwise_lt_children (n : NodeId) : (d.children n).Pairwise (· < ·) :=
  (List.pairwise_lt_range' 1).filter _

theorem descendants_eq (n : NodeId) :
    d.descendants n = (d.children n).flatMap fun c => c :: d.descendants c := by
  rw [descendants]
  simp only [List.flatMap_subtype, List.unattach_attach]

theorem mem_descendants : m ∈ d.descendants n ↔ d.isBelow m n = true := by
  induction n using descendants.induct d with
  | case1 n ih =>
    rw [descendants_eq, isBelow_iff_child]
    simp only [List.mem_flatMap, List.mem_cons]
    constructor
    · rintro ⟨c, child, here⟩
      exact ⟨c, mem_children.mp child, here.imp_right (ih c child).mp⟩
    · rintro ⟨c, parent, here⟩
      have child := mem_children.mpr parent
      exact ⟨c, child, here.imp_right (ih c child).mpr⟩

theorem mem_elementDescendants :
    m ∈ d.elementDescendants n ↔ d.isBelow m n = true ∧ d.isElement m = true := by
  rw [elementDescendants, List.mem_filter, mem_descendants]

/-! ## Sideways -/

/-- `m` is a sibling of `n` that comes after it. -/
def IsLaterSibling (d : Document) (n m : NodeId) : Prop :=
  n < m ∧ ∃ p, d.parent? n = some p ∧ d.parent? m = some p

/-- There is an element among the siblings between two siblings. -/
def HasElementBetween (d : Document) (n m : NodeId) : Prop :=
  ∃ k, d.IsLaterSibling n k ∧ d.IsLaterSibling k m ∧ d.isElement k = true

/-- How an operator relates a node to the one before it. -/
def Related (d : Document) (operator : Combinator) (context n : NodeId) : Prop :=
  match operator with
  | .descendant => d.isBelow n context = true
  | .child => d.parent? n = some context
  | .nextSibling => d.IsLaterSibling context n ∧ ¬ d.HasElementBetween context n
  | .followingSiblings => d.IsLaterSibling context n

/-- Later siblings of one node are siblings of each other. -/
theorem IsLaterSibling.of_lt (near : d.IsLaterSibling n m) (far : d.IsLaterSibling n c)
    (before : m < c) : d.IsLaterSibling m c := by
  obtain ⟨-, p, parent, middle⟩ := near
  obtain ⟨-, q, parent', child⟩ := far
  obtain rfl : p = q := Option.some.inj (parent.symm.trans parent')
  exact ⟨before, p, middle, child⟩

/-- So are earlier siblings. -/
theorem IsLaterSibling.of_gt (near : d.IsLaterSibling m n) (far : d.IsLaterSibling c n)
    (after : c < m) : d.IsLaterSibling c m := by
  obtain ⟨-, p, middle, parent⟩ := near
  obtain ⟨-, q, child, parent'⟩ := far
  obtain rfl : p = q := Option.some.inj (parent.symm.trans parent')
  exact ⟨after, p, child, middle⟩

theorem mem_siblings : m ∈ d.siblings n ↔ ∃ p, d.parent? n = some p ∧ d.parent? m = some p := by
  cases parent : d.parent? n <;> simp [siblings, parent, mem_children]

theorem pairwise_lt_siblings (n : NodeId) : (d.siblings n).Pairwise (· < ·) := by
  cases parent : d.parent? n with
  | none => simp [siblings, parent]
  | some p => simpa [siblings, parent] using pairwise_lt_children p

theorem mem_followingSiblings : m ∈ d.followingSiblings n ↔ d.IsLaterSibling n m := by
  simp [followingSiblings, mem_siblings, IsLaterSibling, and_comm]

theorem mem_precedingSiblings : m ∈ d.precedingSiblings n ↔ d.IsLaterSibling m n := by
  simp [precedingSiblings, mem_siblings, IsLaterSibling, and_comm]

theorem mem_followingElements :
    m ∈ d.followingElements n ↔ d.IsLaterSibling n m ∧ d.isElement m = true := by
  simp [followingElements, mem_followingSiblings]

theorem mem_precedingElements :
    m ∈ d.precedingElements n ↔ d.IsLaterSibling m n ∧ d.isElement m = true := by
  simp [precedingElements, mem_precedingSiblings]

theorem pairwise_lt_followingElements (n : NodeId) :
    (d.followingElements n).Pairwise (· < ·) :=
  ((pairwise_lt_siblings n).filter _).filter _

theorem pairwise_gt_precedingElements (n : NodeId) :
    (d.precedingElements n).Pairwise (· > ·) :=
  (List.pairwise_reverse.mpr ((pairwise_lt_siblings n).filter _)).filter _

/-- The head of an ordered list is the member that comes before all others. -/
theorem head?_eq_some_iff {r : NodeId → NodeId → Prop} (asymm : ∀ {a b}, r a b → ¬ r b a)
    {nodes : List NodeId} (ordered : nodes.Pairwise r) :
    nodes.head? = some a ↔ a ∈ nodes ∧ ∀ b ∈ nodes, ¬ r b a := by
  cases nodes with
  | nil => simp
  | cons first rest =>
    obtain ⟨before, -⟩ := List.pairwise_cons.mp ordered
    have irrefl : ¬ r first first := fun same => asymm same same
    simp only [List.head?_cons, Option.some.injEq, List.mem_cons]
    constructor
    · rintro rfl
      exact ⟨.inl rfl, fun b => fun
        | .inl same => same ▸ irrefl
        | .inr later => asymm (before b later)⟩
    · rintro ⟨rfl | later, least⟩
      · rfl
      · exact absurd (before a later) (least first (.inl rfl))

theorem nextElement?_eq_some_iff :
    d.nextElement? n = some m ↔
      d.isElement m = true ∧ d.IsLaterSibling n m ∧ ¬ d.HasElementBetween n m := by
  rw [nextElement?, head?_eq_some_iff Nat.lt_asymm (pairwise_lt_followingElements n),
    mem_followingElements]
  constructor
  · rintro ⟨⟨later, element⟩, least⟩
    refine ⟨element, later, ?_⟩
    rintro ⟨k, after, before, between⟩
    exact least k (mem_followingElements.mpr ⟨after, between⟩) before.1
  · rintro ⟨element, later, gap⟩
    refine ⟨⟨later, element⟩, fun k member before => gap ⟨k, ?_⟩⟩
    obtain ⟨after, between⟩ := mem_followingElements.mp member
    exact ⟨after, after.of_lt later before, between⟩

theorem previousElement?_eq_some_iff :
    d.previousElement? n = some m ↔
      d.isElement m = true ∧ d.IsLaterSibling m n ∧ ¬ d.HasElementBetween m n := by
  rw [previousElement?,
    head?_eq_some_iff (fun h => Nat.lt_asymm h) (pairwise_gt_precedingElements n),
    mem_precedingElements]
  constructor
  · rintro ⟨⟨earlier, element⟩, greatest⟩
    refine ⟨element, earlier, ?_⟩
    rintro ⟨k, after, before, between⟩
    exact greatest k (mem_precedingElements.mpr ⟨before, between⟩) after.1
  · rintro ⟨element, earlier, gap⟩
    refine ⟨⟨earlier, element⟩, fun k member after => gap ⟨k, ?_⟩⟩
    obtain ⟨before, between⟩ := mem_precedingElements.mp member
    exact ⟨before.of_gt earlier after, before, between⟩

/-- The children before and after a child are its siblings. -/
theorem siblings_of_children {front back : List NodeId}
    (split : d.children p = front ++ n :: back) :
    d.precedingSiblings n = front.reverse ∧ d.followingSiblings n = back := by
  have child : d.parent? n = some p := mem_children.mp (by simp [split])
  have rising := pairwise_lt_children (d := d) p
  rw [split, List.pairwise_append, List.pairwise_cons] at rising
  obtain ⟨-, ⟨later, -⟩, earlier⟩ := rising
  have before : ∀ m ∈ front, m < n := fun m member => earlier m member n List.mem_cons_self
  rw [precedingSiblings, followingSiblings, siblings, child, Option.map_some, Option.getD_some,
    split, List.filter_append, List.filter_append]
  constructor
  · have none : (n :: back).filter (· < n) = [] := by
      refine List.filter_eq_nil_iff.mpr fun m member => ?_
      rcases List.mem_cons.mp member with rfl | member
      · simp
      · simpa using Nat.le_of_lt (later m member)
    rw [none, List.append_nil, List.filter_eq_self.mpr (by simpa using before)]
  · have none : front.filter (n < ·) = [] := by
      refine List.filter_eq_nil_iff.mpr fun m member => ?_
      simpa using Nat.le_of_lt (before m member)
    rw [none, List.nil_append, List.filter_cons_of_neg (by simp),
      List.filter_eq_self.mpr (by simpa using later)]

/-- The element siblings of an element are the element children around its place. -/
theorem elements_of_getElem? {i : Nat} (found : (d.elementChildren p)[i]? = some n) :
    d.precedingElements n = ((d.elementChildren p).take i).reverse ∧
      d.followingElements n = (d.elementChildren p).drop (i + 1) := by
  obtain ⟨bound, here⟩ := List.getElem?_eq_some_iff.mp found
  have whole : d.elementChildren p =
      (d.elementChildren p).take i ++ n :: (d.elementChildren p).drop (i + 1) := by
    rw [← here, List.getElem_cons_drop, List.take_append_drop]
  obtain ⟨front, rest, split, before, others⟩ := List.filter_eq_append_iff.mp whole
  obtain ⟨skipped, back, rfl, none, -, after⟩ := List.filter_eq_cons_iff.mp others
  rw [← List.append_assoc] at split
  obtain ⟨preceding, following⟩ := siblings_of_children split
  have none : skipped.filter d.isElement = [] := List.filter_eq_nil_iff.mpr none
  rw [precedingElements, followingElements, preceding, following, List.filter_reverse,
    List.filter_append, none, List.append_nil, before, after]
  exact ⟨rfl, rfl⟩

/-- The position of an element is its place among the element children of its parent. -/
theorem elementPosition_of_getElem? {i : Nat} (found : (d.elementChildren p)[i]? = some n) :
    d.elementPosition n = i + 1 := by
  have bound := (List.getElem?_eq_some_iff.mp found).1
  rw [elementPosition, (elements_of_getElem? found).1, List.length_reverse,
    List.length_take_of_le (Nat.le_of_lt bound)]

theorem position_of_getElem? {i : Nat} (found : (d.elementChildren p)[i]? = some n)
    (bound : (i : Int) < Text.maxInt64) : d.position n = Int64.ofInt (i + 1) := by
  have clipped : min ((i + 1 : Nat) : Int) Text.maxInt64 = i + 1 := by omega
  rw [position, elementPosition_of_getElem? found, clipped]

/-- Walking back along an operator meets the elements that the operator relates to the node. -/
theorem mem_origins {operator : Combinator} (element : d.isElement a = true) :
    a ∈ d.origins operator n ↔ d.Related operator a n := by
  cases operator with
  | descendant => simp [origins, Related, isBelow]
  | child => simp [origins, Related]
  | nextSibling => simp [origins, Related, previousElement?_eq_some_iff, element]
  | followingSiblings => simp [origins, Related, mem_precedingElements, element]

end TreeSelectors.Document
