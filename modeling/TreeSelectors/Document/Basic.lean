/-!
  A document is a tree of elements, texts and comments under an implicit root. Each node knows its
  parent, and nodes are only ever appended, so a parent is older than its children and the children
  of a node are in the order they were made. The attributes of an element are in order, and no name
  is repeated; an index tells which elements have which id, in the order in which the ids were last
  assigned.
-/

namespace TreeSelectors

/-! ## Attributes -/

structure Attributes where
  pairs : List (String × String) := []
  nodup : (pairs.map Prod.fst).Nodup := by exact List.nodup_nil

namespace Attributes

def get? (attrs : Attributes) (name : String) : Option String := attrs.pairs.lookup name

theorem mem_pairs_iff (attrs : Attributes) {name value : String} :
    (name, value) ∈ attrs.pairs ↔ attrs.get? name = some value := by
  obtain ⟨pairs, nodup⟩ := attrs
  unfold get?
  induction pairs with
  | nil => simp
  | cons pair pairs ih =>
    obtain ⟨key, given⟩ := pair
    obtain ⟨fresh, nodup⟩ := List.nodup_cons.mp nodup
    by_cases same : name = key
    · subst same
      have absent : (name, value) ∉ pairs := fun member =>
        fresh (List.mem_map.mpr ⟨(name, value), member, rfl⟩)
      simp [absent, eq_comm]
    · simpa [List.lookup_cons, beq_false_of_ne same, same] using ih nodup

/-- The value of a name changes in its place; a new name comes last. -/
def setPair (name value : String) : List (String × String) → List (String × String)
  | [] => [(name, value)]
  | (key, old) :: pairs =>
    if key = name then (name, value) :: pairs else (key, old) :: setPair name value pairs

theorem map_fst_setPair (name value : String) (pairs : List (String × String)) :
    (setPair name value pairs).map Prod.fst =
      if name ∈ pairs.map Prod.fst then pairs.map Prod.fst else pairs.map Prod.fst ++ [name] := by
  induction pairs with
  | nil => simp [setPair]
  | cons pair pairs ih =>
    obtain ⟨key, old⟩ := pair
    by_cases same : key = name
    · simp [setPair, same]
    · simp only [setPair, same, ↓reduceIte, List.map_cons, ih, List.mem_cons,
        Ne.symm (Ne.intro same), false_or]
      split <;> rfl

theorem lookup_setPair (name value other : String) (pairs : List (String × String)) :
    (setPair name value pairs).lookup other =
      if other = name then some value else pairs.lookup other := by
  induction pairs with
  | nil =>
    by_cases same : other = name
    · simp [setPair, same]
    · simp [setPair, List.lookup_cons, beq_false_of_ne same, same]
  | cons pair pairs ih =>
    obtain ⟨key, old⟩ := pair
    by_cases here : key = name <;> by_cases same : other = name <;>
      simp_all [setPair, List.lookup_cons] <;> grind

def set (attrs : Attributes) (name value : String) : Attributes where
  pairs := setPair name value attrs.pairs
  nodup := by
    rw [map_fst_setPair]
    split
    · exact attrs.nodup
    · next fresh => exact List.nodup_append.mpr ⟨attrs.nodup, by simp, by grind⟩

@[simp]
theorem get?_empty (name : String) : ({} : Attributes).get? name = none := rfl

@[simp]
theorem get?_set (attrs : Attributes) (name value other : String) :
    (attrs.set name value).get? other = if other = name then some value else attrs.get? other :=
  lookup_setPair name value other attrs.pairs

end Attributes

/-! ## Ids -/

/-- Nodes are numbered in the order they are made; the document itself is node 0. -/
abbrev NodeId := Nat

structure IdIndex where
  /-- The elements with an id, the oldest assignment first. -/
  holders : String → List NodeId := fun _ => []

namespace IdIndex

def remove (index : IdIndex) (node : NodeId) (id : String) : IdIndex where
  holders other :=
    if other = id then (index.holders other).filter (· ≠ node) else index.holders other

def append (index : IdIndex) (node : NodeId) (id : String) : IdIndex where
  holders other := if other = id then index.holders other ++ [node] else index.holders other

theorem holders_remove (index : IdIndex) (node : NodeId) (id other : String) :
    (index.remove node id).holders other =
      if other = id then (index.holders other).filter (· ≠ node) else index.holders other :=
  rfl

theorem holders_append (index : IdIndex) (node : NodeId) (id other : String) :
    (index.append node id).holders other =
      if other = id then index.holders other ++ [node] else index.holders other :=
  rfl

/-- The node leaves the list of the id it had, if it had one, and comes last in that of the new
    one. No other list is looked at. -/
def assign (index : IdIndex) (node : NodeId) (old? : Option String) (id : String) : IdIndex :=
  (old?.elim index (index.remove node)).append node id

/-- A node that is in the list of its old id only is in the list of the new one only. -/
theorem holders_assign {index : IdIndex} {node : NodeId} {old? : Option String}
    (only : ∀ id, node ∈ index.holders id → old? = some id) (id other : String) :
    (index.assign node old? id).holders other =
      (index.holders other).filter (· ≠ node) ++ if other = id then [node] else [] := by
  have removed : (old?.elim index (index.remove node)).holders other =
      (index.holders other).filter (· ≠ node) := by
    by_cases member : node ∈ index.holders other
    · simp [only other member, holders_remove]
    · have unchanged : (index.holders other).filter (· ≠ node) = index.holders other :=
        List.filter_eq_self.mpr fun n among => decide_eq_true fun same => member (same ▸ among)
      cases old? with
      | none => exact unchanged.symm
      | some old =>
        rw [Option.elim_some, holders_remove]
        split
        · rfl
        · exact unchanged.symm
  rw [assign, holders_append, removed]
  split
  · rfl
  · exact (List.append_nil _).symm

end IdIndex

/-! ## Trees -/

inductive Content
  | element (tag : String) (attrs : Attributes)
  | text (value : String)
  | comment (value : String)

namespace Content

def isElement : Content → Bool
  | .element _ _ => true
  | _ => false

def tag? : Content → Option String
  | .element tag _ => some tag
  | _ => none

def text? : Content → Option String
  | .text value => some value
  | _ => none

def attr? (content : Content) (name : String) : Option String :=
  match content with
  | .element _ attrs => attrs.get? name
  | _ => none

end Content

structure Node where
  parent : NodeId
  content : Content

/-- Node `n + 1` is entry `n` of `nodes`; node 0 has no entry. -/
def nodeIn? (nodes : Array Node) : NodeId → Option Node
  | 0 => none
  | n + 1 => nodes[n]?

/-- The root and the elements may have children. -/
def isContainerIn (nodes : Array Node) : NodeId → Bool
  | 0 => true
  | n + 1 => (nodes[n]?.map (·.content.isElement)).getD false

/-- Nodes that make a tree, and an index of just their ids. -/
structure IsTree (nodes : Array Node) (ids : IdIndex) : Prop where
  parent_lt : ∀ {n node}, nodeIn? nodes n = some node → node.parent < n
  parent_container : ∀ {n node}, nodeIn? nodes n = some node →
    isContainerIn nodes node.parent = true
  mem_holders_iff : ∀ {n id}, n ∈ ids.holders id ↔
    ∃ node, nodeIn? nodes n = some node ∧ node.content.attr? "id" = some id
  nodup_holders : ∀ id, (ids.holders id).Nodup

theorem IsTree.empty : IsTree #[] {} where
  parent_lt := by intro n; cases n <;> simp [nodeIn?]
  parent_container := by intro n; cases n <;> simp [nodeIn?]
  mem_holders_iff := by intro n; cases n <;> simp [nodeIn?]
  nodup_holders _ := List.nodup_nil

structure Document where
  nodes : Array Node := #[]
  ids : IdIndex := {}
  /-- Whether the document offers lookups of its own to an engine. -/
  offersLookups : Bool := true
  /-- Whether class lookups ignore ASCII case. -/
  ignoresClassCase : Bool := false
  tree : IsTree nodes ids := by exact IsTree.empty

namespace Document

def root : NodeId := 0

variable (d : Document)

/-- How many nodes there are below the root; the newest has this number. -/
def size : Nat := d.nodes.size

def node? (n : NodeId) : Option Node := nodeIn? d.nodes n

def content? (n : NodeId) : Option Content := (d.node? n).map Node.content

def isKnown (n : NodeId) : Bool := n ≤ d.size

def isContainer (n : NodeId) : Bool := isContainerIn d.nodes n

def isElement (n : NodeId) : Bool := ((d.content? n).map Content.isElement).getD false

def tag? (n : NodeId) : Option String := (d.content? n).bind Content.tag?

def text? (n : NodeId) : Option String := (d.content? n).bind Content.text?

def attr? (n : NodeId) (name : String) : Option String := (d.content? n).bind (·.attr? name)

def parent? (n : NodeId) : Option NodeId := (d.node? n).map Node.parent

def children (n : NodeId) : List NodeId :=
  (List.range' 1 d.size).filter fun child => d.parent? child = some n

variable {d}

theorem node?_eq_some_le {n : NodeId} {node : Node} (found : d.node? n = some node) :
    n ≤ d.size := by
  cases n with
  | zero => exact Nat.zero_le _
  | succ n => exact (Array.getElem?_eq_some_iff.mp found).1

theorem parent?_lt {n p : NodeId} (parent : d.parent? n = some p) : p < n := by
  obtain ⟨node, found, rfl⟩ := Option.map_eq_some_iff.mp parent
  exact d.tree.parent_lt found

theorem parent?_le_size {n p : NodeId} (parent : d.parent? n = some p) : n ≤ d.size := by
  obtain ⟨node, found, -⟩ := Option.map_eq_some_iff.mp parent
  exact node?_eq_some_le found

theorem mem_children {n c : NodeId} : c ∈ d.children n ↔ d.parent? c = some n := by
  simp only [children, List.mem_filter, List.mem_range'_1, decide_eq_true_eq,
    and_iff_right_iff_imp]
  intro parent
  have older := parent?_lt parent
  have present := parent?_le_size parent
  grind

end Document

end TreeSelectors
