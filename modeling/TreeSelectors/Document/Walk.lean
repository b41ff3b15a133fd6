import TreeSelectors.Document.Basic
import TreeSelectors.Text

/-!
  Ways through a document: up to the ancestors, sideways to the siblings and down to the
  descendants. Numbers fall on the way up and rise on the way down, so every walk ends. In document
  order a node comes before its descendants, and what is below an earlier sibling before what is
  below a later one; markup is written in that order.
-/

namespace TreeSelectors.Document

/-! ## Walks -/

variable (d : Document)

/-- The nearest first. -/
def ancestors (n : NodeId) : List NodeId :=
  match _above : d.parent? n with
  | none => []
  | some p => p :: ancestors p
termination_by n
decreasing_by exact parent?_lt _above

/-- Strictly below. -/
def isBelow (n ancestor : NodeId) : Bool := (d.ancestors n).contains ancestor

/-- The topmost ancestor; a node without a parent is its own. -/
def top (n : NodeId) : NodeId := (d.ancestors n).getLastD n

/-- Everything below a node, each node before its children. -/
def descendants (n : NodeId) : List NodeId :=
  (d.children n).attach.flatMap fun ⟨c, _⟩ => c :: descendants c
termination_by d.size + 1 - n
decreasing_by
  have child := mem_children.mp (by assumption)
  have older := parent?_lt child
  have present := parent?_le_size child
  grind

def siblings (n : NodeId) : List NodeId := ((d.parent? n).map d.children).getD []

/-- The nearest first. -/
def precedingSiblings (n : NodeId) : List NodeId := ((d.siblings n).filter (· < n)).reverse

/-- The nearest first. -/
def followingSiblings (n : NodeId) : List NodeId := (d.siblings n).filter (n < ·)

def elementChildren (n : NodeId) : List NodeId := (d.children n).filter d.isElement

def elementDescendants (n : NodeId) : List NodeId := (d.descendants n).filter d.isElement

def precedingElements (n : NodeId) : List NodeId := (d.precedingSiblings n).filter d.isElement

def followingElements (n : NodeId) : List NodeId := (d.followingSiblings n).filter d.isElement

def firstChild? (n : NodeId) : Option NodeId := (d.children n).head?

def nextSibling? (n : NodeId) : Option NodeId := (d.followingSiblings n).head?

def previousSibling? (n : NodeId) : Option NodeId := (d.precedingSiblings n).head?

def nextElement? (n : NodeId) : Option NodeId := (d.followingElements n).head?

def previousElement? (n : NodeId) : Option NodeId := (d.precedingElements n).head?

/-- Counted from 1 among the element siblings. -/
def elementPosition (n : NodeId) : Nat := (d.precedingElements n).length + 1

/-- Where a walk through what is below `scope` goes on when all that is below `n` has been met: to
    the next sibling of `n`, or of the nearest node above it that has one. -/
def climb? (scope n : NodeId) : Option NodeId :=
  if n = scope then none
  else match d.nextSibling? n with
    | some sibling => some sibling
    | none =>
      match _above : d.parent? n with
      | none => none
      | some p => climb? scope p
termination_by n
decreasing_by exact parent?_lt _above

/-- The node that a walk through what is below `scope` meets right after `n`. -/
def successor? (scope n : NodeId) : Option NodeId := (d.firstChild? n).or (d.climb? scope n)

/-! ## Order -/

/-- The numbers of earlier siblings on the way down from the root. -/
def path (n : NodeId) : List Nat :=
  ((n :: d.ancestors n).map fun m => (d.precedingSiblings m).length).reverse

/-- Equal nodes stay, side by side. -/
def sortByOrder (nodes : List NodeId) : List NodeId :=
  ((nodes.map fun n => (d.path n, n)).mergeSort fun a b => !decide (b.1 < a.1)).map Prod.snd

end TreeSelectors.Document

namespace TreeSelectors

/-! ## Markup -/

def attrHtml (attr : String × String) : List Char :=
  ' ' :: attr.1.toList ++ '=' :: '"' :: Text.encodeEntities true attr.2 ++ ['"']

/-- A node whose children have the markup `inner`. -/
def Content.html (content : Content) (inner : List Char) : List Char :=
  match content with
  | .element tag attrs =>
    '<' :: tag.toList ++ attrs.pairs.flatMap attrHtml ++ '>' :: inner ++
      '<' :: '/' :: tag.toList ++ ['>']
  | .text value => Text.encodeEntities false value
  | .comment value => "<!--".toList ++ value.toList ++ "-->".toList

namespace Document

variable (d : Document)

/-- The markup of what is below a node, character by character. -/
def innerChars (n : NodeId) : List Char :=
  (d.children n).attach.flatMap fun ⟨c, _⟩ =>
    ((d.content? c).map fun content => content.html (innerChars c)).getD []
termination_by d.size + 1 - n
decreasing_by
  have child := mem_children.mp (by assumption)
  have older := parent?_lt child
  have present := parent?_le_size child
  grind

def innerHtml (n : NodeId) : String := String.ofList (d.innerChars n)

end Document

end TreeSelectors
