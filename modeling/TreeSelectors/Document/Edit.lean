import TreeSelectors.Document.Basic

/-!
  Edits of a document. Only the root and elements take children, only elements have attributes, and
  an edit that is refused leaves the document as it was.
-/

namespace TreeSelectors

inductive EditError
  | emptyTag
  | unknownParent (parent : NodeId)
  | childless (parent : NodeId)
  | unknownNode (node : NodeId)
  | notElement
deriving DecidableEq, Repr

def EditError.message : EditError → String
  | .emptyTag => "element tag cannot be empty"
  | .unknownParent parent => "unknown parent node #" ++ toString parent
  | .childless parent => "node #" ++ toString parent ++ " cannot have children"
  | .unknownNode node => "unknown node #" ++ toString node
  | .notElement => "attributes can only be set on elements"

theorem nodeIn?_push (nodes : Array Node) (node : Node) (n : NodeId) :
    nodeIn? (nodes.push node) n = if n = nodes.size + 1 then some node else nodeIn? nodes n := by
  cases n with
  | zero => simp [nodeIn?]
  | succ n => simp [nodeIn?, Array.getElem?_push]

theorem nodeIn?_size_succ (nodes : Array Node) : nodeIn? nodes (nodes.size + 1) = none := by
  simp [nodeIn?]

theorem nodeIn?_setIfInBounds {nodes : Array Node} {n : NodeId} {old : Node} (new : Node)
    (found : nodeIn? nodes n = some old) (m : NodeId) :
    nodeIn? (nodes.setIfInBounds (n - 1) new) m = if m = n then some new else nodeIn? nodes m := by
  cases n with
  | zero => simp [nodeIn?] at found
  | succ n =>
    have bound : n < nodes.size := (Array.getElem?_eq_some_iff.mp found).1
    cases m with
    | zero => simp [nodeIn?]
    | succ m =>
      by_cases same : m = n
      · simp [nodeIn?, same, bound]
      · simp [nodeIn?, same, Ne.symm same]

theorem isContainerIn_eq (nodes : Array Node) (n : NodeId) :
    isContainerIn nodes n =
      (n == 0 || ((nodeIn? nodes n).map (·.content.isElement)).getD false) := by
  cases n <;> simp [isContainerIn, nodeIn?]

namespace IsTree

variable {nodes : Array Node} {ids : IdIndex}

theorem isContainerIn_push {m : NodeId} (container : isContainerIn nodes m = true) (node : Node) :
    isContainerIn (nodes.push node) m = true := by
  rw [isContainerIn_eq] at container ⊢
  rw [nodeIn?_push]
  split
  · next new => simp [new, nodeIn?_size_succ] at container
  · exact container

theorem isContainerIn_setIfInBounds {n m : NodeId} {old new : Node}
    (found : nodeIn? nodes n = some old) (isElement : new.content.isElement = true)
    (container : isContainerIn nodes m = true) :
    isContainerIn (nodes.setIfInBounds (n - 1) new) m = true := by
  rw [isContainerIn_eq] at container ⊢
  rw [nodeIn?_setIfInBounds _ found]
  split
  · simp [isElement]
  · exact container

theorem le_size_of_isContainerIn {n : NodeId} (container : isContainerIn nodes n = true) :
    n ≤ nodes.size := by
  cases n with
  | zero => exact Nat.zero_le _
  | succ n =>
    rcases Nat.lt_or_ge n nodes.size with bound | out
    · exact bound
    · simp [isContainerIn, Array.getElem?_eq_none out] at container

/-- A new node goes under a container and has no id yet. -/
theorem push (tree : IsTree nodes ids) {parent : NodeId} {content : Content}
    (container : isContainerIn nodes parent = true) (noId : content.attr? "id" = none) :
    IsTree (nodes.push ⟨parent, content⟩) ids where
  parent_lt := by
    intro n node found
    rw [nodeIn?_push] at found
    split at found
    · next new =>
      cases found
      exact new ▸ Nat.lt_succ_of_le (le_size_of_isContainerIn container)
    · exact tree.parent_lt found
  parent_container := by
    intro n node found
    rw [nodeIn?_push] at found
    split at found
    · cases found
      exact isContainerIn_push container _
    · exact isContainerIn_push (tree.parent_container found) _
  mem_holders_iff := by
    intro n id
    rw [tree.mem_holders_iff]
    simp only [nodeIn?_push]
    split
    · next new => simp [new, nodeIn?_size_succ, noId]
    · exact Iff.rfl
  nodup_holders := tree.nodup_holders

/-- An element is in no list but that of its id. -/
theorem get?_of_mem_holders (tree : IsTree nodes ids) {n parent : NodeId} {tag : String}
    {attrs : Attributes} (found : nodeIn? nodes n = some ⟨parent, .element tag attrs⟩) (id : String)
    (member : n ∈ ids.holders id) : attrs.get? "id" = some id := by
  obtain ⟨node, present, held⟩ := tree.mem_holders_iff.mp member
  obtain rfl := Option.some.inj (found.symm.trans present)
  exact held

/-- The index follows the attribute `id` and no other. -/
theorem set (tree : IsTree nodes ids) {n parent : NodeId} {tag : String} {attrs : Attributes}
    (found : nodeIn? nodes n = some ⟨parent, .element tag attrs⟩) (name value : String) :
    IsTree (nodes.setIfInBounds (n - 1) ⟨parent, .element tag (attrs.set name value)⟩)
      (if name = "id" then ids.assign n (attrs.get? name) value else ids) where
  parent_lt := by
    intro m node present
    rw [nodeIn?_setIfInBounds _ found] at present
    split at present
    · next same =>
      cases present
      have older := tree.parent_lt found
      exact same ▸ older
    · exact tree.parent_lt present
  parent_container := by
    intro m node present
    rw [nodeIn?_setIfInBounds _ found] at present
    split at present
    · cases present
      have container : isContainerIn nodes parent = true := tree.parent_container found
      exact isContainerIn_setIfInBounds found rfl container
    · exact isContainerIn_setIfInBounds found rfl (tree.parent_container present)
  mem_holders_iff := by
    intro m id
    have before : m ∈ ids.holders id ↔ _ := tree.mem_holders_iff
    simp only [nodeIn?_setIfInBounds _ found]
    by_cases named : name = "id"
    · subst named
      rw [if_pos rfl, IdIndex.holders_assign (tree.get?_of_mem_holders found), List.mem_append]
      by_cases same : m = n
      · simp [same, Content.attr?, eq_comm]
      · simp [same, before]
    · by_cases same : m = n
      · subst same
        simp [named, before, found, Content.attr?, Ne.symm (Ne.intro named)]
      · simp [named, same, before]
  nodup_holders := by
    intro id
    by_cases named : name = "id"
    · subst named
      rw [if_pos rfl, IdIndex.holders_assign (tree.get?_of_mem_holders found)]
      refine List.nodup_append.mpr ⟨(tree.nodup_holders id).filter _, ?_, ?_⟩
      · split <;> simp
      · intro m member k single
        split at single <;> grind
    · simpa [named] using tree.nodup_holders id

end IsTree

namespace Document

variable (d : Document)

/-- The document with a new node. -/
def push (parent : NodeId) (content : Content) (container : d.isContainer parent = true)
    (noId : content.attr? "id" = none) : Document :=
  { d with nodes := d.nodes.push ⟨parent, content⟩, tree := d.tree.push container noId }

def add (parent : NodeId) (content : Content) (noId : content.attr? "id" = none) :
    Except EditError Document :=
  if container : d.isContainer parent = true then .ok (d.push parent content container noId)
  else .error (if d.isKnown parent then .childless parent else .unknownParent parent)

def addElement (parent : NodeId) (tag : String) : Except EditError Document :=
  if tag = "" then .error .emptyTag else d.add parent (.element tag {}) rfl

def addText (parent : NodeId) (value : String) : Except EditError Document :=
  d.add parent (.text value) rfl

def addComment (parent : NodeId) (value : String) : Except EditError Document :=
  d.add parent (.comment value) rfl

/-- The document with an attribute of an element set. -/
def withAttr (n parent : NodeId) (tag : String) (attrs : Attributes)
    (found : d.node? n = some ⟨parent, .element tag attrs⟩) (name value : String) : Document :=
  { d with
    nodes := d.nodes.setIfInBounds (n - 1) ⟨parent, .element tag (attrs.set name value)⟩
    ids := if name = "id" then d.ids.assign n (attrs.get? name) value else d.ids
    tree := d.tree.set found name value }

def putAttr (n : NodeId) (name value : String) : Except EditError Document :=
  match found : d.node? n with
  | some ⟨parent, .element tag attrs⟩ => .ok (d.withAttr n parent tag attrs found name value)
  | some _ => .error .notElement
  | none => .error (if n = root then .notElement else .unknownNode n)

/-- Attributes put one after the other, up to the first that is refused; those before it stay. -/
def putAttrs (d : Document) (n : NodeId) : List (String × String) → Document × Option EditError
  | [] => (d, none)
  | (name, value) :: attrs =>
    match d.putAttr n name value with
    | .ok changed => changed.putAttrs n attrs
    | .error error => (d, some error)

end Document

inductive Edit
  | element (parent : NodeId) (tag : String) (attrs : List (String × String))
  | text (parent : NodeId) (value : String)
  | comment (parent : NodeId) (value : String)
  | attr (node : NodeId) (name value : String)
  | offerLookups (enabled : Bool)
  | ignoreClassCase (enabled : Bool)
deriving DecidableEq, Repr

namespace Document

/-- The document after a step that is refused before anything is changed. -/
def settle (d : Document) : Except EditError Document → Document × Option EditError
  | .ok changed => (changed, none)
  | .error error => (d, some error)

/-- The document after an edit, and why the edit was refused if it was. -/
def apply (d : Document) : Edit → Document × Option EditError
  | .element parent tag attrs =>
    match d.addElement parent tag with
    | .ok grown => grown.putAttrs grown.size attrs
    | .error error => (d, some error)
  | .text parent value => d.settle (d.addText parent value)
  | .comment parent value => d.settle (d.addComment parent value)
  | .attr node name value => d.settle (d.putAttr node name value)
  | .offerLookups enabled => ({ d with offersLookups := enabled }, none)
  | .ignoreClassCase enabled => ({ d with ignoresClassCase := enabled }, none)

/-- What edits make of the empty document. -/
def ofEdits (edits : List Edit) : Document := edits.foldl (fun d edit => (d.apply edit).1) {}

end Document

end TreeSelectors
