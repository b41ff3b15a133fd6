import Mathlib.Data.List.Pairwise
import Mathlib.Data.List.Sort
import TreeSelectors.Document.Walk
import TreeSelectors.Proofs.Document.Kinship

/-!
  Document order. A list of nodes is in order when it is a selection from the walk through the whole
  document, which is to say that the paths of its nodes rise (`inOrder_iff`). What the walks give is
  in order, and so is what sorting by path gives of nodes that are not repeated.
-/

namespace TreeSelectors.Document

variable {d : Document} {n m p c : NodeId}

/-- Nodes below the root in document order, none of them twice. -/
def InOrder (d : Document) (nodes : List NodeId) : Prop := nodes.Sublist (d.descendants root)

/-- How many siblings come before a node. -/
def index (d : Document) (n : NodeId) : Nat := (d.precedingSiblings n).length

/-! ## Paths -/

theorem path_of_parent (parent : d.parent? n = some p) : d.path n = d.path p ++ [d.index n] := by
  simp [path, ancestors_of_parent parent, index]

theorem exists_path_of_isBelow (below : d.isBelow n m = true) :
    ∃ first rest, d.path n = d.path m ++ first :: rest := by
  induction n using ancestors.induct d with
  | case1 n orphan => simp [isBelow, ancestors_of_orphan orphan] at below
  | case2 n p parent ih =>
    rcases (isBelow_of_parent parent).mp below with rfl | above
    · exact ⟨d.index n, [], path_of_parent parent⟩
    · obtain ⟨first, rest, longer⟩ := ih above
      exact ⟨first, rest ++ [d.index n], by simp [path_of_parent parent, longer]⟩

theorem path_lt_of_isBelow (below : d.isBelow n m = true) : d.path m < d.path n := by
  obtain ⟨first, rest, longer⟩ := exists_path_of_isBelow below
  have prefixed : d.path m ++ [] < d.path m ++ first :: rest :=
    List.append_left_lt (List.nil_lt_cons first rest)
  rwa [List.append_nil, ← longer] at prefixed

/-- The path of a child begins the path of all that is below the child. -/
theorem exists_path_of_child (child : d.parent? c = some p)
    (within : n = c ∨ d.isBelow n c = true) : ∃ rest, d.path n = d.path p ++ d.index c :: rest := by
  rcases within with rfl | below
  · exact ⟨[], path_of_parent child⟩
  · obtain ⟨first, rest, longer⟩ := exists_path_of_isBelow below
    exact ⟨first :: rest, by simp [longer, path_of_parent child]⟩

theorem index_lt (later : d.IsLaterSibling n m) : d.index n < d.index m := by
  obtain ⟨before, p, parent, parent'⟩ := later
  have counts (k : NodeId) (child : d.parent? k = some p) :
      d.index k = ((d.children p).filter (· < k)).length := by
    simp [index, precedingSiblings, siblings, child]
  have narrowed : (d.children p).filter (· < n) =
      ((d.children p).filter (· < m)).filter (· < n) := by
    rw [List.filter_filter]
    refine List.filter_congr fun k _ => ?_
    have transfer : k < n → k < m := fun first => Nat.lt_trans first before
    simpa using transfer
  rw [counts n parent, counts m parent', narrowed, List.length_filter_lt_length_iff_exists]
  refine ⟨n, ?_, by simp⟩
  simpa [mem_children] using ⟨parent, before⟩

/-- All that is below an earlier sibling comes before all that is below a later one. -/
theorem path_lt_of_isLaterSibling {first second : NodeId} (later : d.IsLaterSibling first second)
    (left : n = first ∨ d.isBelow n first = true)
    (right : m = second ∨ d.isBelow m second = true) : d.path n < d.path m := by
  have lower := index_lt later
  obtain ⟨-, p, parent, parent'⟩ := later
  obtain ⟨restLeft, pathLeft⟩ := exists_path_of_child parent left
  obtain ⟨restRight, pathRight⟩ := exists_path_of_child parent' right
  rw [pathLeft, pathRight]
  exact List.append_left_lt (List.cons_lt_cons_iff.mpr (.inl lower))

/-- `m` is below `n`, or some siblings in this order have `n` and `m` at or below them. -/
def Precedes (d : Document) (n m : NodeId) : Prop :=
  d.isBelow m n = true ∨
    ∃ first second, d.IsLaterSibling first second ∧ (n = first ∨ d.isBelow n first = true) ∧
      (m = second ∨ d.isBelow m second = true)

theorem Precedes.path_lt (before : d.Precedes n m) : d.path n < d.path m := by
  rcases before with below | ⟨first, second, later, left, right⟩
  · exact path_lt_of_isBelow below
  · exact path_lt_of_isLaterSibling later left right

/-! ## The walk down -/

theorem pairwise_precedes_descendants (n : NodeId) : (d.descendants n).Pairwise d.Precedes := by
  induction n using descendants.induct d with
  | case1 n ih =>
    rw [descendants_eq, List.pairwise_flatMap]
    constructor
    · intro c child
      refine List.pairwise_cons.mpr ⟨fun m member => ?_, ih c child⟩
      exact .inl (mem_descendants.mp member)
    · refine (pairwise_lt_children n).imp_of_mem fun {a b} first second before => ?_
      intro x inLeft y inRight
      have later : d.IsLaterSibling a b :=
        ⟨before, n, mem_children.mp first, mem_children.mp second⟩
      rw [List.mem_cons, mem_descendants] at inLeft inRight
      exact .inr ⟨a, b, later, inLeft, inRight⟩

theorem pairwise_path_descendants (n : NodeId) :
    (d.descendants n).Pairwise (d.path · < d.path ·) :=
  (pairwise_precedes_descendants n).imp Precedes.path_lt

theorem isBelow_root_of_isBelow (below : d.isBelow n m = true) : d.isBelow n root = true := by
  obtain ⟨p, parent, -⟩ := exists_parent_of_isBelow below
  refine isBelow_root (Nat.lt_of_le_of_lt (Nat.zero_le p) (parent?_lt parent)) ?_
  exact decide_eq_true (parent?_le_size parent)

/-! ## Lists in order -/

/-- A walk that meets two nodes meets one before the other. -/
theorem path_lt_or_lt {nodes : List NodeId} (rising : nodes.Pairwise (d.path · < d.path ·))
    (left : n ∈ nodes) (right : m ∈ nodes) (distinct : n ≠ m) :
    d.path n < d.path m ∨ d.path m < d.path n := by
  have compared := rising.imp (S := fun a b => d.path a < d.path b ∨ d.path b < d.path a) .inl
  have symm : Std.Symm fun a b => d.path a < d.path b ∨ d.path b < d.path a := ⟨fun _ _ => .symm⟩
  exact compared.forall left right distinct

theorem nodup_of_rising {nodes : List NodeId}
    (rising : nodes.Pairwise (d.path · < d.path ·)) : nodes.Nodup := by
  refine List.Pairwise.imp (fun {a b} before => ?_) rising
  rintro rfl
  exact List.lt_irrefl _ before

/-- Nodes below the root are in order where their paths rise: lists that rise by the same order are
    selections from each other as soon as they are subsets. -/
theorem inOrder_iff {nodes : List NodeId} :
    d.InOrder nodes ↔
      (∀ n ∈ nodes, d.isBelow n root = true) ∧ nodes.Pairwise (d.path · < d.path ·) := by
  constructor
  · intro inOrder
    refine ⟨fun n member => mem_descendants.mp (inOrder.subset member), ?_⟩
    exact (pairwise_path_descendants root).sublist inOrder
  · rintro ⟨below, rising⟩
    have asymm : Std.Antisymm fun a b => d.path a < d.path b :=
      ⟨fun _ _ before after => absurd after (List.lt_asymm before)⟩
    refine List.sublist_of_subperm_of_pairwise
      (List.subperm_of_subset (nodup_of_rising rising) ?_) rising (pairwise_path_descendants root)
    exact fun n member => mem_descendants.mpr (below n member)

namespace InOrder

variable {nodes others : List NodeId}

theorem nodup (inOrder : d.InOrder nodes) : nodes.Nodup :=
  nodup_of_rising (inOrder_iff.mp inOrder).2

theorem filter (inOrder : d.InOrder nodes) (keep : NodeId → Bool) :
    d.InOrder (nodes.filter keep) :=
  List.filter_sublist.trans inOrder

/-- Lists in order with the same members are the same. -/
theorem ext (left : d.InOrder nodes) (right : d.InOrder others)
    (same : ∀ n, n ∈ nodes ↔ n ∈ others) : nodes = others := by
  have perm : nodes.Perm others := (List.perm_ext_iff_of_nodup left.nodup right.nodup).mpr same
  refine perm.eq_of_pairwise (fun _ _ _ _ before after => absurd after (List.lt_asymm before))
    (inOrder_iff.mp left).2 (inOrder_iff.mp right).2

end InOrder

/-! ## The walks and sorting -/

theorem inOrder_descendants (n : NodeId) : d.InOrder (d.descendants n) := by
  refine inOrder_iff.mpr ⟨fun m member => ?_, pairwise_path_descendants n⟩
  exact isBelow_root_of_isBelow (mem_descendants.mp member)

theorem inOrder_children (n : NodeId) : d.InOrder (d.children n) := by
  refine inOrder_iff.mpr ⟨fun c member => ?_, ?_⟩
  · exact isBelow_root_of_isBelow ((isBelow_of_parent (mem_children.mp member)).mpr (.inl rfl))
  · refine (pairwise_lt_children n).imp_of_mem fun {a b} first second before => ?_
    have later : d.IsLaterSibling a b :=
      ⟨before, n, mem_children.mp first, mem_children.mp second⟩
    exact path_lt_of_isLaterSibling later (.inl rfl) (.inl rfl)

theorem inOrder_followingElements (n : NodeId) : d.InOrder (d.followingElements n) := by
  have siblings : d.InOrder (d.siblings n) := by
    cases parent : d.parent? n with
    | none => simp [Document.siblings, parent, InOrder]
    | some p => simpa [Document.siblings, parent] using inOrder_children p
  exact (siblings.filter _).filter _

theorem inOrder_toList {found : Option NodeId}
    (below : ∀ n ∈ found, d.isBelow n root = true) : d.InOrder found.toList := by
  cases found with
  | none => exact List.nil_sublist _
  | some n => exact List.singleton_sublist.mpr (mem_descendants.mpr (below n rfl))

theorem sortByOrder_perm (nodes : List NodeId) : (d.sortByOrder nodes).Perm nodes := by
  refine ((List.mergeSort_perm _ _).map Prod.snd).trans ?_
  simp [Function.comp_def]

theorem pairwise_path_sortByOrder (nodes : List NodeId) :
    (d.sortByOrder nodes).Pairwise fun n m => ¬ d.path m < d.path n := by
  have trans (a b c : List Nat × NodeId) (first : (!decide (b.1 < a.1)) = true)
      (second : (!decide (c.1 < b.1)) = true) : (!decide (c.1 < a.1)) = true := by
    rw [Bool.not_eq_true', decide_eq_false_iff_not] at *
    exact List.le_trans first second
  have total (a b : List Nat × NodeId) : (!decide (b.1 < a.1) || !decide (a.1 < b.1)) = true := by
    rw [← Bool.not_and, Bool.not_eq_true', Bool.and_eq_false_iff, decide_eq_false_iff_not,
      decide_eq_false_iff_not]
    exact List.le_total a.1 b.1
  have sorted := List.pairwise_mergeSort trans total (nodes.map fun n => (d.path n, n))
  refine List.pairwise_map.mpr (sorted.imp_of_mem fun {a b} left right before => ?_)
  rw [List.mem_mergeSort] at left right
  obtain ⟨n, -, rfl⟩ := List.mem_map.mp left
  obtain ⟨m, -, rfl⟩ := List.mem_map.mp right
  exact of_decide_eq_false ((Bool.not_eq_true' _).mp before)

theorem inOrder_sortByOrder {nodes : List NodeId} (nodup : nodes.Nodup)
    (below : ∀ n ∈ nodes, d.isBelow n root = true) : d.InOrder (d.sortByOrder nodes) := by
  have perm := sortByOrder_perm (d := d) nodes
  have within : ∀ n ∈ d.sortByOrder nodes, d.isBelow n root = true :=
    fun n member => below n (perm.mem_iff.mp member)
  refine inOrder_iff.mpr ⟨within, ?_⟩
  have rising := (pairwise_path_sortByOrder (d := d) nodes).and (perm.nodup_iff.mpr nodup)
  refine rising.imp_of_mem fun {a b} left right before => ?_
  obtain ⟨below, distinct⟩ := before
  rcases path_lt_or_lt (pairwise_path_descendants root) (mem_descendants.mpr (within a left))
    (mem_descendants.mpr (within b right)) distinct with first | second
  · exact first
  · exact absurd second below

end TreeSelectors.Document
