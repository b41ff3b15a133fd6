import TreeSelectors.Document.Edit
import TreeSelectors.Host
import TreeSelectors.Proofs.Document.Order
import TreeSelectors.Proofs.Query.Retrieval

/-!
  What lookups find from a scope: some of the elements below it, in document order and once each
  (`Host.SelectsBelow`). Every view of a document keeps that, whatever its lookups are asked and
  however often an id is repeated. Main statement: `Document.selectsBelow_host`.

  Lookups by id. The index has the holders of an id in the order in which they got it, whatever
  their places, and the walk meets them in document order; below a node both name the same elements
  (`lists_holders`, `lists_identified`), and nodes have only one document order. Main statement:
  `idIndex_finds_first`.
-/

namespace TreeSelectors

/-! ## Scopes -/

/-- An answer is a selection from the elements below the scope. -/
structure Lookups.SelectsBelow (lookups : Lookups) (d : Document) : Prop where
  byClasses : ∀ {scope names found}, lookups.byClasses scope names = .ok found →
    found.Sublist (d.elementDescendants scope)
  byTag : ∀ {scope tag found}, lookups.byTag scope tag = .ok found →
    found.Sublist (d.elementDescendants scope)
  bySelector : ∀ {scope selector found}, lookups.bySelector scope selector = .ok found →
    found.Sublist (d.elementDescendants scope)

structure Host.SelectsBelow (host : Host) : Prop where
  byId : ∀ {scope id n}, host.elementById? scope id = some n →
    n ∈ host.document.elementDescendants scope
  lookups : ∀ lookups ∈ host.lookups?, lookups.SelectsBelow host.document

theorem eq_ok_of_toOption {ε α : Type} {result : Except ε α} {value : α}
    (present : result.toOption = some value) : result = .ok value := by
  cases result with
  | error error => cases present
  | ok found => exact congrArg Except.ok (Option.some.inj present)

namespace Document

variable {d : Document} {scope n : NodeId} {id : String}

theorem inOrder_elementDescendants (scope : NodeId) : d.InOrder (d.elementDescendants scope) :=
  (inOrder_descendants scope).filter _

theorem sublist_of_elementsBySelector {selector : String} {found : List NodeId}
    (answered : d.elementsBySelector scope selector = .ok found) :
    found.Sublist (d.elementDescendants scope) := by
  cases read : (groupsOf selector).mapM understood with
  | error refusal => simp [elementsBySelector, read, bind, Except.bind] at answered
  | ok groups =>
    simp only [elementsBySelector, read, bind, Except.bind] at answered
    split at answered
    · cases answered
    · obtain rfl := Except.ok.inj answered
      exact List.filter_sublist

theorem selectsBelow_lookups (d : Document) : d.lookups.SelectsBelow d where
  byClasses := by
    rintro scope names found ⟨⟩
    exact List.filter_sublist
  byTag := by
    rintro scope tag found ⟨⟩
    exact List.filter_sublist
  bySelector := sublist_of_elementsBySelector

theorem selectsBelow_refusing (d : Document) : Lookups.refusing.SelectsBelow d :=
  ⟨nofun, nofun, nofun⟩

theorem mem_of_indexedById? (found : d.indexedById? scope id = some n) :
    n ∈ d.elementDescendants scope := by
  have member := List.mem_of_head? found
  rw [(sortByOrder_perm _).mem_iff, List.mem_filter, mem_holders] at member
  exact mem_elementDescendants.mpr ⟨member.2, isElement_of_hasId member.1⟩

theorem mem_of_walkedById? (found : d.walkedById? scope id = some n) :
    n ∈ d.elementDescendants scope := by
  have below := mem_descendants.mp (List.mem_of_find?_eq_some found)
  have identified := List.find?_some found
  rw [Bool.and_eq_true] at identified
  exact mem_elementDescendants.mpr ⟨below, identified.1⟩

theorem selectsBelow_host (d : Document) (view : View) : (d.host view).SelectsBelow := by
  cases view with
  | full =>
    refine ⟨mem_of_indexedById?, fun lookups offered => ?_⟩
    obtain ⟨-, same⟩ := Option.ite_none_right_eq_some.mp offered
    obtain rfl : d.lookups = lookups := Option.some.inj same
    exact selectsBelow_lookups d
  | plain => exact ⟨mem_of_walkedById?, nofun⟩
  | refusing =>
    refine ⟨mem_of_walkedById?, ?_⟩
    rintro lookups ⟨⟩
    exact selectsBelow_refusing d

end Document

end TreeSelectors

namespace TreeSelectors.Document

/-! ## Ids -/

variable {d : Document} {n : NodeId}

/-- An element below the scope that carries the id. -/
def IsIdentified (d : Document) (scope : NodeId) (id : String) (n : NodeId) : Prop :=
  d.isBelow n scope = true ∧ d.isElement n = true ∧ d.attr? n "id" = some id

/-- Nothing but an element carries an id. -/
theorem isIdentified_iff {scope : NodeId} {id : String} :
    d.IsIdentified scope id n ↔ d.isBelow n scope = true ∧ d.hasId id n = true := by
  rw [IsIdentified, ← beq_iff_eq (a := d.attr? n "id")]
  exact and_congr_right fun _ => and_iff_right_of_imp isElement_of_hasId

/-- The holders of an id below a node, in document order. -/
theorem lists_holders (id : String) (scope : NodeId) :
    d.Lists (d.sortByOrder ((d.holders id).filter (d.isBelow · scope))) fun n =>
      d.isBelow n scope = true ∧ d.hasId id n = true where
  inOrder := by
    have nodup : (d.holders id).Nodup := d.tree.nodup_holders id
    refine inOrder_sortByOrder (nodup.filter _) fun n member => ?_
    exact isBelow_root_of_isBelow (List.mem_filter.mp member).2
  mem_iff n := by rw [(sortByOrder_perm _).mem_iff, List.mem_filter, mem_holders, and_comm]

theorem lists_identified (id : String) (scope : NodeId) :
    d.Lists ((d.descendants scope).filter fun n => d.isElement n && d.hasId id n) fun n =>
      d.isBelow n scope = true ∧ d.hasId id n = true := by
  refine ((lists_descendants scope).filter _).congr fun n => ?_
  rw [Bool.and_eq_true]
  exact and_congr_right fun _ => and_iff_right_of_imp isElement_of_hasId

/-- The index and the walk find the same element. -/
theorem indexedById?_eq_walkedById? (d : Document) (scope : NodeId) (id : String) :
    d.indexedById? scope id = d.walkedById? scope id := by
  rw [indexedById?, (lists_holders id scope).unique (lists_identified id scope), List.head?_filter]
  rfl

/-- A list of the nodes for which something holds begins with the first of them. -/
theorem Lists.head?_eq_some_iff {nodes : List NodeId} {holds : NodeId → Prop}
    (lists : d.Lists nodes holds) :
    nodes.head? = some n ↔ holds n ∧ ∀ m, holds m → m ≠ n → d.path n < d.path m := by
  have rising := (inOrder_iff.mp lists.inOrder).2
  have asymm {a b : NodeId} (before : d.path a < d.path b) : ¬ d.path b < d.path a :=
    List.lt_asymm before
  rw [Document.head?_eq_some_iff asymm rising, lists.mem_iff]
  refine and_congr_right fun held => forall_congr' fun m => ?_
  rw [lists.mem_iff]
  refine forall_congr' fun other => ?_
  constructor
  · intro least apart
    have compared := path_lt_or_lt rising ((lists.mem_iff m).mpr other)
      ((lists.mem_iff n).mpr held) apart
    exact compared.resolve_left least
  · intro first before
    have apart : m ≠ n := by
      intro same
      exact asymm before (same ▸ before)
    exact asymm before (first apart)

/-- Whatever ids were given to whatever elements in whatever order, the index finds what the walk
    finds: below a node, the first element in document order that carries the id, and nothing just
    where there is none. -/
theorem idIndex_finds_first (d : Document) (scope : NodeId) (id : String) :
    d.indexedById? scope id = d.walkedById? scope id ∧
      (∀ n, d.indexedById? scope id = some n ↔ d.IsIdentified scope id n ∧
        ∀ m, d.IsIdentified scope id m → m ≠ n → d.path n < d.path m) ∧
      (d.indexedById? scope id = none ↔ ∀ n, ¬ d.IsIdentified scope id n) := by
  have lists := (lists_holders (d := d) id scope).congr fun n => isIdentified_iff.symm
  refine ⟨indexedById?_eq_walkedById? d scope id, fun n => lists.head?_eq_some_iff, ?_⟩
  rw [indexedById?, List.head?_eq_none_iff, List.eq_nil_iff_forall_not_mem]
  exact forall_congr' fun n => not_congr (lists.mem_iff n)

/-- The element that got the id last comes first. -/
example : (ofEdits [.element 0 "a" [], .element 1 "b" [("id", "x")], .element 0 "c" [("id", "x")],
    .attr 1 "id" "x"]).indexedById? 0 "x" = some 1 := by
  rw [indexedById?_eq_walkedById?]
  decide +kernel

end TreeSelectors.Document
