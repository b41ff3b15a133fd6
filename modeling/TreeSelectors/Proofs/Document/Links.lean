import TreeSelectors.Document.Edit
import TreeSelectors.Proofs.Document.Kinship
import TreeSelectors.Proofs.Document.Order

/-!
  Walks that know a node only by its links. The siblings of a node are the children of its parent
  cut in two, so that each link leads to the next node of the list that is to be met
  (`visits_of_links`). The walk down has no such list to hand: from the last child it climbs, so
  that what it meets below a node has to be told together with what comes after (`visits_below`).

  An element among its siblings. Texts and comments may stand anywhere between the elements, and
  each view passes over them in its own way: by dropping them from the walk to later siblings, by
  looking for the first element on the walk to earlier ones, by counting such searches. All of them
  see the element children of the parent. Main statement: `siblingViews_agree`.

  The one order behind three computations: the walk down goes by links to children and later
  siblings and climbs back, being below is read off the links to parents, and sorting compares how
  many siblings come before a node and before each node above it. Main statement:
  `documentOrder_agrees`.
-/

namespace TreeSelectors

/-! ## Links -/

/-- Going on from node to node by a link comes to an end, and these are the nodes that are met. -/
inductive Visits (next? : NodeId → Option NodeId) : Option NodeId → List NodeId → Prop
  | done : Visits next? none []
  | step {n : NodeId} {nodes : List NodeId} :
      Visits next? (next? n) nodes → Visits next? (some n) (n :: nodes)

theorem visits_of_links {next? : NodeId → Option NodeId} {nodes : List NodeId}
    (linked : ∀ front n back, nodes = front ++ n :: back → next? n = back.head?) :
    Visits next? nodes.head? nodes := by
  induction nodes with
  | nil => exact .done
  | cons n nodes ih =>
    refine .step ?_
    rw [linked [] n nodes rfl]
    exact ih fun front m back split => linked (n :: front) m back (by rw [split, List.cons_append])

namespace Document

variable {d : Document} {n p r : NodeId} {front back : List NodeId}

/-! ## Sideways -/

theorem exists_children_split (child : d.parent? n = some p) :
    ∃ front back, d.children p = front ++ n :: back :=
  List.append_of_mem (mem_children.mpr child)

theorem visits_children (p : NodeId) :
    Visits d.nextSibling? (d.firstChild? p) (d.children p) := by
  refine visits_of_links fun front n back split => ?_
  rw [nextSibling?, (siblings_of_children split).2]

theorem visits_followingSiblings (n : NodeId) :
    Visits d.nextSibling? (d.nextSibling? n) (d.followingSiblings n) := by
  refine visits_of_links fun front m back split => ?_
  obtain ⟨-, p, child, -⟩ := mem_followingSiblings.mp (by rw [split]; simp : m ∈ _)
  obtain ⟨before, after, children⟩ := exists_children_split child
  obtain ⟨-, following⟩ := siblings_of_children children
  have cut : d.children p = (before ++ n :: front) ++ m :: back := by
    rw [children, ← following, split]
    simp
  rw [nextSibling?, (siblings_of_children cut).2]

theorem precedingSiblings_of_split (split : d.precedingSiblings n = front ++ p :: back) :
    d.precedingSiblings p = back := by
  obtain ⟨-, q, -, child⟩ := mem_precedingSiblings.mp (by rw [split]; simp : p ∈ _)
  obtain ⟨before, after, children⟩ := exists_children_split child
  obtain ⟨preceding, -⟩ := siblings_of_children children
  have cut : d.children q = back.reverse ++ p :: (front.reverse ++ n :: after) := by
    have reversed : before = (front ++ p :: back).reverse := by
      rw [← split, preceding, List.reverse_reverse]
    rw [children, reversed]
    simp
  rw [(siblings_of_children cut).1, List.reverse_reverse]

theorem visits_precedingSiblings (n : NodeId) :
    Visits d.previousSibling? (d.previousSibling? n) (d.precedingSiblings n) := by
  refine visits_of_links fun front m back split => ?_
  rw [previousSibling?, precedingSiblings_of_split split]

theorem visits_precedingElements (n : NodeId) :
    Visits d.previousElement? (d.previousElement? n) (d.precedingElements n) := by
  refine visits_of_links fun front m back split => ?_
  obtain ⟨first, second, whole, -, rest⟩ := List.filter_eq_append_iff.mp split
  obtain ⟨skipped, after, rfl, -, -, last⟩ := List.filter_eq_cons_iff.mp rest
  rw [← List.append_assoc] at whole
  rw [previousElement?, precedingElements, precedingSiblings_of_split whole, last]

/-! ## Up and down -/

theorem visits_ancestors (n : NodeId) : Visits d.parent? (d.parent? n) (d.ancestors n) := by
  induction n using ancestors.induct d with
  | case1 n orphan =>
    rw [orphan, ancestors_of_orphan orphan]
    exact .done
  | case2 n p parent ih =>
    rw [parent, ancestors_of_parent parent]
    exact .step ih

theorem climb?_self (r : NodeId) : d.climb? r r = none := by
  rw [climb?, if_pos rfl]

/-- From a child the walk climbs to the next child, and from the last one to where it goes on from
    the parent. -/
theorem climb?_of_children (inner : n ≠ r) (split : d.children p = front ++ n :: back) :
    d.climb? r n = back.head?.or (d.climb? r p) := by
  have child : d.parent? n = some p := mem_children.mp (by simp [split])
  rw [climb?, if_neg inner, nextSibling?, (siblings_of_children split).2]
  cases back with
  | cons next back => rfl
  | nil =>
    simp only [List.head?_nil, Option.none_or]
    split
    · next orphan => simp [orphan] at child
    · next above =>
      obtain rfl := Option.some.inj (above.symm.trans child)
      rfl

/-- What a walk meets below a node comes before what it meets from there on. The children are taken
    from the last one on, each with what comes after it. -/
theorem visits_below (within : n = r ∨ d.isBelow n r = true) {later : List NodeId}
    (onward : Visits (d.successor? r) (d.climb? r n) later) :
    Visits (d.successor? r) (d.successor? r n) (d.descendants n ++ later) := by
  induction n using descendants.induct d generalizing later with
  | case1 n ih =>
    have children : ∀ back front, d.children n = front ++ back →
        Visits (d.successor? r) (back.head?.or (d.climb? r n))
          (back.flatMap (fun c => c :: d.descendants c) ++ later) := by
      intro back
      induction back with
      | nil => exact fun _ _ => onward
      | cons c back rest =>
        intro front split
        have child : d.parent? c = some n := mem_children.mp (by simp [split])
        have below : d.isBelow c r = true :=
          (isBelow_of_parent child).mpr (within.imp Eq.symm id)
        have inner : c ≠ r := Nat.ne_of_gt (lt_of_isBelow below)
        have after := rest (front ++ [c]) (by simp [split])
        rw [← climb?_of_children inner split] at after
        simp only [List.head?_cons, Option.some_or, List.flatMap_cons, List.cons_append,
          List.append_assoc]
        exact .step (ih c (mem_children.mpr child) (.inr below) after)
    rw [successor?, descendants_eq]
    exact children (d.children n) [] rfl

theorem visits_descendants (r : NodeId) :
    Visits (d.successor? r) (d.firstChild? r) (d.descendants r) := by
  have stops : Visits (d.successor? r) (d.climb? r r) [] := by
    rw [climb?_self]
    exact .done
  have walk := visits_below (.inl rfl) stops
  rwa [successor?, climb?_self, Option.or_none, List.append_nil] at walk

end Document

end TreeSelectors

namespace TreeSelectors.Document

section

variable {d : Document} {n p : NodeId} {i : Nat}

/-! ## Neighbours -/

theorem previousElement?_of_getElem? (found : (d.elementChildren p)[i]? = some n) :
    d.previousElement? n = if i = 0 then none else (d.elementChildren p)[i - 1]? := by
  have bound := (List.getElem?_eq_some_iff.mp found).1
  rw [previousElement?, (elements_of_getElem? found).1, List.head?_reverse,
    List.getLast?_eq_getElem?, List.length_take_of_le (Nat.le_of_lt bound)]
  cases i with
  | zero => rfl
  | succ i => simp

theorem nextElement?_of_getElem? (found : (d.elementChildren p)[i]? = some n) :
    d.nextElement? n = (d.elementChildren p)[i + 1]? := by
  rw [nextElement?, (elements_of_getElem? found).2, List.head?_drop]

/-! ## Structural conditions -/

theorem isFirstElement_of_getElem? (found : (d.elementChildren p)[i]? = some n) :
    d.isFirstElement n = true ↔ i = 0 := by
  have bound := (List.getElem?_eq_some_iff.mp found).1
  rw [isFirstElement, Option.isNone_iff_eq_none, previousElement?_of_getElem? found]
  split
  · next first => exact iff_of_true rfl first
  · next later =>
    refine iff_of_false ?_ later
    rw [List.getElem?_eq_none_iff]
    omega

theorem isLastElement_of_getElem? (found : (d.elementChildren p)[i]? = some n) :
    d.isLastElement n = true ↔ i + 1 = (d.elementChildren p).length := by
  have bound := (List.getElem?_eq_some_iff.mp found).1
  rw [isLastElement, Option.isNone_iff_eq_none, nextElement?_of_getElem? found,
    List.getElem?_eq_none_iff]
  omega

theorem accepts_onlyChild_iff (found : (d.elementChildren p)[i]? = some n) :
    Condition.onlyChild.accepts d n = true ↔ (d.elementChildren p).length = 1 := by
  have bound := (List.getElem?_eq_some_iff.mp found).1
  rw [Condition.accepts, Bool.and_eq_true, isFirstElement_of_getElem? found,
    isLastElement_of_getElem? found]
  omega

theorem accepts_nthChild_eq (found : (d.elementChildren p)[i]? = some n)
    (few : (d.elementChildren p).length ≤ Text.maxInt64) (nth : Nth) :
    (Condition.nthChild (some nth)).accepts d n = nth.accepts (Int64.ofInt (i + 1)) := by
  have bound := (List.getElem?_eq_some_iff.mp found).1
  have inRange : (i : Int) < Text.maxInt64 := by omega
  rw [Condition.accepts, Option.any_some, position_of_getElem? found inRange]

/-- The walks from sibling to sibling meet all that stands on their side, and what is an element
    among that is what the element children of the parent have on that side. So an element is the
    first, the last, the only one or one at an accepted position just where its place among the
    element children says so. -/
theorem siblingViews_agree (d : Document) (p : NodeId) :
    let nodes := d.elementChildren p
    (Visits d.nextSibling? (d.firstChild? p) (d.children p) ∧
      nodes = (d.children p).filter d.isElement) ∧
    ∀ i n, nodes[i]? = some n →
      (Visits d.previousSibling? (d.previousSibling? n) (d.precedingSiblings n) ∧
        d.previousElement? n = (d.precedingSiblings n).find? d.isElement ∧
        Visits d.previousElement? (d.previousElement? n) (nodes.take i).reverse ∧
        Visits d.nextSibling? (d.nextSibling? n) (d.followingSiblings n) ∧
        d.followingElements n = (d.followingSiblings n).filter d.isElement) ∧
      (d.elementPosition n = i + 1 ∧
        d.previousElement? n = (if i = 0 then none else nodes[i - 1]?) ∧
        d.nextElement? n = nodes[i + 1]? ∧ d.followingElements n = nodes.drop (i + 1)) ∧
      (Condition.firstChild.accepts d n = true ↔ i = 0) ∧
      (Condition.lastChild.accepts d n = true ↔ i + 1 = nodes.length) ∧
      (Condition.onlyChild.accepts d n = true ↔ nodes.length = 1) ∧
      (nodes.length ≤ Text.maxInt64 → ∀ nth : Nth,
        (Condition.nthChild (some nth)).accepts d n = nth.accepts (Int64.ofInt (i + 1))) := by
  intro nodes
  refine ⟨⟨visits_children p, rfl⟩, fun i n found => ⟨?_, ?_, ?_⟩⟩
  · have earlier : Visits d.previousElement? (d.previousElement? n) (d.precedingElements n) :=
      visits_precedingElements n
    rw [(elements_of_getElem? found).1] at earlier
    refine ⟨visits_precedingSiblings n, ?_, earlier, visits_followingSiblings n, rfl⟩
    rw [previousElement?, precedingElements, List.head?_filter]
  · exact ⟨elementPosition_of_getElem? found, previousElement?_of_getElem? found,
      nextElement?_of_getElem? found, (elements_of_getElem? found).2⟩
  · refine ⟨?_, ?_, accepts_onlyChild_iff found, accepts_nthChild_eq found⟩
    · rw [Condition.accepts]
      exact isFirstElement_of_getElem? found
    · rw [Condition.accepts]
      exact isLastElement_of_getElem? found

/-- The second element after a text and a comment. -/
theorem siblingViews_agree_mixed :
    let d := ofEdits [.text 0 "x", .element 0 "a" [], .comment 0 "y", .element 0 "b" [],
      .text 0 "z"]
    (d.elementChildren 0)[1]? = some 4 ∧ (d.elementChildren 0).length ≤ Text.maxInt64 ∧
      d.elementPosition 4 = 2 ∧ d.previousElement? 4 = some 2 ∧ d.nextElement? 4 = none ∧
      Condition.lastChild.accepts d 4 = true ∧
      (Condition.nthChild (some ⟨2, 0⟩)).accepts d 4 = true := by
  intro d
  have listed : d.elementChildren 0 = [2, 4] := by decide +kernel
  have found : (d.elementChildren 0)[1]? = some 4 := by rw [listed]; rfl
  have few : (d.elementChildren 0).length ≤ Text.maxInt64 := by rw [listed]; decide
  obtain ⟨-, views⟩ := siblingViews_agree d 0
  obtain ⟨-, ⟨position, previous, next, -⟩, -, last, -, nth⟩ := views 1 4 found
  refine ⟨found, few, position, ?_, ?_, last.mpr (by rw [listed]; rfl),
    (nth few ⟨2, 0⟩).trans (by decide)⟩
  · rw [previous, listed]
    rfl
  · rw [next, listed]
    rfl

end

/-! ## Order -/

section

variable {d : Document} {n m : NodeId} {nodes : List NodeId}

/-- All nodes in document order. -/
def preorder (d : Document) : List NodeId := root :: d.descendants root

theorem mem_preorder : n ∈ d.preorder ↔ d.isKnown n = true := by
  rw [preorder, List.mem_cons, mem_descendants]
  constructor
  · rintro (rfl | below)
    · exact decide_eq_true (Nat.zero_le _)
    · obtain ⟨p, parent, -⟩ := exists_parent_of_isBelow below
      exact decide_eq_true (parent?_le_size parent)
  · intro known
    rcases Nat.eq_zero_or_pos n with rfl | positive
    · exact .inl rfl
    · exact .inr (isBelow_root positive known)

theorem pairwise_precedes_preorder : d.preorder.Pairwise d.Precedes := by
  refine List.pairwise_cons.mpr ⟨fun n member => ?_, pairwise_precedes_descendants root⟩
  exact .inl (mem_descendants.mp member)

theorem pairwise_path_preorder : d.preorder.Pairwise (d.path · < d.path ·) :=
  pairwise_precedes_preorder.imp Precedes.path_lt

/-- Nodes that are not the same have paths that are not the same. -/
theorem eq_of_path_not_lt (left : n ∈ d.preorder) (right : m ∈ d.preorder)
    (notBefore : ¬ d.path n < d.path m) (notAfter : ¬ d.path m < d.path n) : n = m := by
  by_contra distinct
  exact (path_lt_or_lt pairwise_path_preorder left right distinct).elim notBefore notAfter

/-! ## Repetitions -/

/-- The nodes of a list in document order, each as often as it is in the list. -/
def repeatedInOrder (d : Document) (nodes : List NodeId) : List NodeId :=
  d.preorder.flatMap fun n => List.replicate (nodes.count n) n

theorem count_flatMap_replicate {distinct : List NodeId} (nodup : distinct.Nodup)
    (times : NodeId → Nat) (n : NodeId) :
    (distinct.flatMap fun m => List.replicate (times m) m).count n =
      if n ∈ distinct then times n else 0 := by
  induction distinct with
  | nil => rfl
  | cons first distinct ih =>
    obtain ⟨fresh, nodup⟩ := List.nodup_cons.mp nodup
    rw [List.flatMap_cons, List.count_append, List.count_replicate, ih nodup]
    by_cases same : first = n
    · subst same
      simp [fresh]
    · simp [same, Ne.symm same]

theorem perm_repeatedInOrder (known : ∀ n ∈ nodes, d.isKnown n = true) :
    (d.repeatedInOrder nodes).Perm nodes := by
  refine List.perm_iff_count.mpr fun n => ?_
  rw [repeatedInOrder, count_flatMap_replicate (nodup_of_rising pairwise_path_preorder)]
  split
  · rfl
  · next absent =>
    refine (List.count_eq_zero.mpr fun member => ?_).symm
    exact absent (mem_preorder.mpr (known n member))

theorem pairwise_repeatedInOrder (nodes : List NodeId) :
    (d.repeatedInOrder nodes).Pairwise fun n m => n = m ∨ d.Precedes n m := by
  refine List.pairwise_flatMap.mpr ⟨fun n _ => ?_, ?_⟩
  · exact List.pairwise_replicate.mpr (.inr (.inl rfl))
  · refine pairwise_precedes_preorder.imp fun {n m} before x inLeft y inRight => ?_
    rw [List.eq_of_mem_replicate inLeft, List.eq_of_mem_replicate inRight]
    exact .inr before

theorem sortByOrder_eq_repeatedInOrder (known : ∀ n ∈ nodes, d.isKnown n = true) :
    d.sortByOrder nodes = d.repeatedInOrder nodes := by
  have sorted := sortByOrder_perm (d := d) nodes
  have repeated := perm_repeatedInOrder known
  have ordered : (d.repeatedInOrder nodes).Pairwise fun n m => ¬ d.path m < d.path n := by
    refine (pairwise_repeatedInOrder nodes).imp fun {n m} before after => ?_
    rcases before with rfl | before
    · exact List.lt_irrefl _ after
    · exact List.lt_asymm before.path_lt after
  refine (sorted.trans repeated.symm).eq_of_pairwise (fun n m left right notAfter notBefore => ?_)
    (pairwise_path_sortByOrder nodes) ordered
  exact eq_of_path_not_lt (mem_preorder.mpr (known n (sorted.mem_iff.mp left)))
    (mem_preorder.mpr (known m (repeated.mem_iff.mp right))) notBefore notAfter

/-- Sorting what is below a node gives the walk through it. -/
theorem sortByOrder_of_perm_descendants (perm : nodes.Perm (d.descendants n)) :
    d.sortByOrder nodes = d.descendants n := by
  have walk : d.InOrder (d.descendants n) := inOrder_descendants n
  have sorted : d.InOrder (d.sortByOrder nodes) := by
    refine inOrder_sortByOrder (perm.nodup_iff.mpr walk.nodup) fun m member => ?_
    exact isBelow_root_of_isBelow (mem_descendants.mp (perm.mem_iff.mp member))
  exact sorted.ext walk fun m => ((sortByOrder_perm nodes).trans perm).mem_iff

/-- The walk down comes to an end and meets each node below just once, in the order in which sorting
    puts those nodes; and sorting gives any nodes in the order in which the walk through the whole
    document meets them, above before below and earlier before later siblings, with what is repeated
    side by side. -/
theorem documentOrder_agrees (d : Document) :
    (∀ n, Visits (d.successor? n) (d.firstChild? n) (d.descendants n) ∧
      Visits d.parent? (d.parent? n) (d.ancestors n) ∧
      Visits d.previousSibling? (d.previousSibling? n) (d.precedingSiblings n)) ∧
    (∀ n, (d.descendants n).Nodup ∧ (∀ m, m ∈ d.descendants n ↔ d.isBelow m n = true) ∧
      ∀ nodes, nodes.Perm (d.descendants n) → d.sortByOrder nodes = d.descendants n) ∧
    ∀ nodes, (∀ n ∈ nodes, d.isKnown n = true) →
      (d.sortByOrder nodes).Perm nodes ∧ d.sortByOrder nodes = d.repeatedInOrder nodes ∧
        (d.sortByOrder nodes).Pairwise fun n m => n = m ∨ d.Precedes n m := by
  refine ⟨fun n => ⟨visits_descendants n, visits_ancestors n, visits_precedingSiblings n⟩,
    fun n => ⟨?_, fun m => mem_descendants, fun nodes => sortByOrder_of_perm_descendants⟩, ?_⟩
  · exact nodup_of_rising (pairwise_path_descendants n)
  · intro nodes known
    have same := sortByOrder_eq_repeatedInOrder known
    refine ⟨sortByOrder_perm nodes, same, ?_⟩
    rw [same]
    exact pairwise_repeatedInOrder nodes

/-- The text was made last but comes second. -/
theorem documentOrder_agrees_text :
    let d := ofEdits [.element 0 "a" [], .element 0 "b" [], .text 1 "x"]
    [3, 2, 1].Perm (d.descendants 0) ∧ d.sortByOrder [3, 2, 1] = d.descendants 0 ∧
      (∀ n ∈ [2, 3, 2, 0], d.isKnown n = true) ∧ d.sortByOrder [2, 3, 2, 0] = [0, 3, 2, 2] := by
  intro d
  obtain ⟨-, walks, sorts⟩ := documentOrder_agrees d
  have below : [3, 2, 1].Perm (d.descendants 0) := by decide +kernel
  have known : ∀ n ∈ [2, 3, 2, 0], d.isKnown n = true := by decide +kernel
  refine ⟨below, (walks 0).2.2 _ below, known, (sorts _ known).2.1.trans ?_⟩
  decide +kernel

end

end TreeSelectors.Document
