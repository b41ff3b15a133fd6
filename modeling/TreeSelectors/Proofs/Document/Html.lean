import Mathlib.Data.List.Chain
import Mathlib.Data.List.Forall2
import TreeSelectors.Document.Edit
import TreeSelectors.Document.Walk
import TreeSelectors.Matching.Condition
import TreeSelectors.Proofs.Document.Kinship
import TreeSelectors.Proofs.Document.Order
import TreeSelectors.Proofs.Text

/-!
  What markup tells of a tree. The markup below a node is a run of the markup below any node above
  it (`innerChars_infix_of_isBelow`). The other way, nothing is written about where a text or an
  attribute value ends: a value ends at the next quote, a text at the next tag, which may be that of
  a sibling or of the parent. So the markup below a node is read back together with what follows it
  (`isTold_of_textsApart`). Main statement: `contents_eq_of_innerHtml_eq`.

  Looking for a text in markup. What is found below a node is found below every node above it, the
  root included, for each level only puts something around the markup of the level below
  (`innerChars_infix_of_isBelow`). Main statement: `contains_upward`.
-/

namespace TreeSelectors

/-! ## Told trees -/

/-- What a node shows apart from the values of texts and attributes. -/
inductive Outline
  | element (tag : String) (attrs : List String)
  | text
  | comment (value : String)
deriving DecidableEq, Repr

def Content.outline : Content → Outline
  | .element tag attrs => .element tag (attrs.pairs.map Prod.fst)
  | .text _ => .text
  | .comment value => .comment value

namespace Document

/-- The node that a way down leads to; each step is the place of a child among its siblings. -/
def reach? (d : Document) : NodeId → List Nat → Option NodeId
  | n, [] => some n
  | n, place :: way => (d.children n)[place]?.bind (d.reach? · way)

/-- From two nodes the same ways lead down, and they lead to contents that look the same. -/
def AlikeBelow {α : Type} (view : Content → α) (d : Document) (n : NodeId) (e : Document)
    (m : NodeId) : Prop :=
  ∀ place way, ((d.reach? n (place :: way)).bind d.content?).map view =
    ((e.reach? m (place :: way)).bind e.content?).map view

/-- Two nodes look the same, and so does what is below them. -/
def Alike {α : Type} (view : Content → α) (d : Document) (n : NodeId) (e : Document)
    (m : NodeId) : Prop :=
  (d.content? n).map view = (e.content? m).map view ∧ AlikeBelow view d n e m

/-- No two texts are next to each other below a node. -/
def TextsApart (d : Document) (n : NodeId) : Prop :=
  ∀ p ∈ n :: d.descendants n,
    (d.children p).IsChain fun c k => d.text? c = none ∨ d.text? k = none

instance (d : Document) (n : NodeId) : Decidable (d.TextsApart n) :=
  inferInstanceAs (Decidable (∀ p ∈ n :: d.descendants n, _))

/-- The markup of a node with what is below it. -/
def outerChars (d : Document) (n : NodeId) : List Char :=
  ((d.content? n).map fun content => content.html (d.innerChars n)).getD []

/-- The markup below a node tells the contents below it, and where it ends, among all trees of the
    same outlines. -/
def IsTold (d e : Document) (n : NodeId) : Prop :=
  ∀ {m : NodeId} {rest others : List Char}, AlikeBelow Content.outline d n e m →
    Text.EndsText false rest → Text.EndsText false others →
    d.innerChars n ++ rest = e.innerChars m ++ others →
    AlikeBelow id d n e m ∧ rest = others

variable {α : Type} {view : Content → α} {d e : Document} {n m c k a p : NodeId}
  {x y : Content} {rest others : List Char}

theorem innerChars_eq (d : Document) (n : NodeId) :
    d.innerChars n = (d.children n).flatMap d.outerChars := by
  rw [innerChars]
  simp only [List.flatMap_subtype, List.unattach_attach]
  rfl

theorem outerChars_of_content? (found : d.content? n = some x) :
    d.outerChars n = x.html (d.innerChars n) := by
  rw [outerChars, found, Option.map_some, Option.getD_some]

theorem exists_content?_of_parent (parent : d.parent? n = some p) :
    ∃ content, d.content? n = some content := by
  obtain ⟨node, found, -⟩ := Option.map_eq_some_iff.mp parent
  exact ⟨node.content, by rw [content?, found, Option.map_some]⟩

/-- Nothing is below a text or a comment. -/
theorem children_eq_nil (found : d.content? n = some x) (leaf : x.isElement = false) :
    d.children n = [] := by
  rw [List.eq_nil_iff_forall_not_mem]
  intro c child
  obtain ⟨node, present, rfl⟩ := Option.map_eq_some_iff.mp (mem_children.mp child)
  have container := d.tree.parent_container present
  obtain ⟨parent, at?, rfl⟩ := Option.map_eq_some_iff.mp found
  cases above : node.parent with
  | zero => simp [above, node?, nodeIn?] at at?
  | succ p =>
    rw [above] at container at?
    simp only [node?, nodeIn?] at at?
    simp [isContainerIn, at?, leaf] at container

/-! ## Markup within markup -/

theorem innerChars_infix_outerChars (found : d.content? n = some x) :
    d.innerChars n <:+: d.outerChars n := by
  rw [outerChars_of_content? found]
  cases x with
  | element tag attrs =>
    exact ⟨'<' :: tag.toList ++ attrs.pairs.flatMap attrHtml ++ ['>'],
      '<' :: '/' :: tag.toList ++ ['>'], by simp [Content.html]⟩
  | text value =>
    rw [innerChars_eq, children_eq_nil found rfl]
    exact List.nil_infix
  | comment value =>
    rw [innerChars_eq, children_eq_nil found rfl]
    exact List.nil_infix

theorem innerChars_infix_of_parent (parent : d.parent? n = some p) :
    d.innerChars n <:+: d.innerChars p := by
  obtain ⟨content, found⟩ := exists_content?_of_parent parent
  rw [innerChars_eq d p]
  exact (innerChars_infix_outerChars found).trans
    (List.infix_of_mem_flatten (List.mem_map_of_mem (mem_children.mpr parent)))

theorem innerChars_infix_of_isBelow (below : d.isBelow n a = true) :
    d.innerChars n <:+: d.innerChars a := by
  induction n using ancestors.induct d with
  | case1 n orphan => simp [isBelow, ancestors_of_orphan orphan] at below
  | case2 n p parent ih =>
    have step := innerChars_infix_of_parent parent
    rcases (isBelow_of_parent parent).mp below with rfl | above
    · exact step
    · exact step.trans (ih above)

/-! ## Trees that look alike -/

theorem AlikeBelow.symm (alike : AlikeBelow view d n e m) : AlikeBelow view e m d n :=
  fun place way => (alike place way).symm

theorem AlikeBelow.length_le (alike : AlikeBelow view d n e m) :
    (d.children n).length ≤ (e.children m).length := by
  by_contra more
  have place := Nat.lt_of_not_le more
  obtain ⟨content, found⟩ :=
    exists_content?_of_parent (mem_children.mp (List.getElem_mem place))
  have here := alike (e.children m).length []
  simp [reach?, List.getElem?_eq_getElem place, found] at here

/-- What is below two nodes looks alike if their children do, one by one. -/
theorem alikeBelow_iff :
    AlikeBelow view d n e m ↔
      List.Forall₂ (fun c k => Alike view d c e k) (d.children n) (e.children m) := by
  rw [List.forall₂_iff_get]
  constructor
  · intro alike
    refine ⟨Nat.le_antisymm alike.length_le alike.symm.length_le, fun place left right => ?_⟩
    rw [List.get_eq_getElem, List.get_eq_getElem]
    constructor
    · simpa [reach?, left, right] using alike place []
    · intro step way
      simpa [reach?, left, right] using alike place (step :: way)
  · rintro ⟨length, alike⟩ place way
    rcases Nat.lt_or_ge place (d.children n).length with left | out
    · have right := length ▸ left
      obtain ⟨here, below⟩ := alike place left right
      simp only [reach?, List.getElem?_eq_getElem left, List.getElem?_eq_getElem right,
        Option.bind_some]
      cases way with
      | nil => exact here
      | cons step way => exact below step way
    · simp [reach?, List.getElem?_eq_none out, List.getElem?_eq_none (length ▸ out)]

theorem alikeBelow_of_childless (left : d.children n = []) (right : e.children m = []) :
    AlikeBelow view d n e m := by
  rw [alikeBelow_iff, left, right]
  exact .nil

theorem Alike.exists_content? (alike : Alike view d c e k) (found : d.content? c = some x) :
    ∃ y, e.content? k = some y ∧ view x = view y := by
  have same := alike.1.symm
  rw [found] at same
  obtain ⟨y, present, equal⟩ := Option.map_eq_some_iff.mp same
  exact ⟨y, present, equal.symm⟩

/-! ## Reading one node -/

/-- What is written for attributes tells their values. -/
theorem flatMap_attrHtml_inj {attrs given : List (String × String)}
    (names : attrs.map Prod.fst = given.map Prod.fst)
    (same : attrs.flatMap attrHtml ++ rest = given.flatMap attrHtml ++ others) :
    attrs = given ∧ rest = others := by
  induction attrs generalizing given with
  | nil =>
    obtain rfl := List.map_eq_nil_iff.mp names.symm
    exact ⟨rfl, same⟩
  | cons attr attrs ih =>
    cases given with
    | nil => cases names
    | cons pair given =>
      obtain ⟨name, value⟩ := attr
      obtain ⟨key, text⟩ := pair
      obtain ⟨rfl, later⟩ : name = key ∧ attrs.map Prod.fst = given.map Prod.fst :=
        List.cons.inj names
      simp only [List.flatMap_cons, attrHtml, List.append_assoc, List.cons_append,
        List.cons.injEq, List.append_cancel_left_eq, true_and, List.nil_append] at same
      obtain ⟨rfl, after⟩ :=
        Text.encodeEntities_inj (Text.endsText_quote _) (Text.endsText_quote _) same
      obtain ⟨rfl, done⟩ := ih later (List.cons.inj after).2
      exact ⟨rfl, done⟩

/-- What is written for a node tells its content and those below it. Only a text has to be followed
    by something that ends it. -/
theorem outerChars_inj (found : d.content? c = some x) (present : e.content? k = some y)
    (outline : x.outline = y.outline) (alike : AlikeBelow Content.outline d c e k)
    (told : d.IsTold e c)
    (ends : x.text? = none ∨ Text.EndsText false rest ∧ Text.EndsText false others)
    (same : d.outerChars c ++ rest = e.outerChars k ++ others) :
    x = y ∧ AlikeBelow id d c e k ∧ rest = others := by
  rw [outerChars_of_content? found, outerChars_of_content? present] at same
  cases x with
  | element tag attrs =>
    cases y with
    | element name given =>
      obtain ⟨rfl, names⟩ := Outline.element.inj outline
      simp only [Content.html, List.append_assoc, List.cons_append, List.cons.injEq,
        List.append_cancel_left_eq, true_and, List.nil_append] at same
      obtain ⟨values, after⟩ := flatMap_attrHtml_inj names same
      obtain ⟨below, done⟩ := told alike (Text.endsText_less false _) (Text.endsText_less false _)
        (List.cons.inj after).2
      simp only [List.cons.injEq, List.append_cancel_left_eq, true_and] at done
      cases attrs
      cases given
      cases values
      exact ⟨rfl, below, done⟩
    | text | comment => cases outline
  | text value =>
    cases y with
    | text other =>
      obtain ⟨stop, halt⟩ := ends.resolve_left (Option.some_ne_none _)
      obtain ⟨rfl, done⟩ := Text.encodeEntities_inj stop halt same
      exact ⟨rfl, alikeBelow_of_childless (children_eq_nil found rfl)
        (children_eq_nil present rfl), done⟩
    | element | comment => cases outline
  | comment value =>
    cases y with
    | comment other =>
      obtain rfl := Outline.comment.inj outline
      exact ⟨rfl, alikeBelow_of_childless (children_eq_nil found rfl)
        (children_eq_nil present rfl), List.append_cancel_left same⟩
    | element | text => cases outline

/-! ## Reading a row of siblings -/

/-- A node that is there and is no text. -/
def IsMarkup (d : Document) (n : NodeId) : Prop :=
  ∃ content, d.content? n = some content ∧ content.text? = none

theorem IsMarkup.exists_outerChars_eq (markup : d.IsMarkup n) :
    ∃ inner, d.outerChars n = '<' :: inner := by
  obtain ⟨content, found, other⟩ := markup
  rw [outerChars_of_content? found]
  cases content with
  | element tag attrs => exact ⟨_, rfl⟩
  | text value => cases other
  | comment value => exact ⟨_, rfl⟩

theorem IsMarkup.of_alike (markup : d.IsMarkup c) (alike : Alike Content.outline d c e k) :
    e.IsMarkup k := by
  obtain ⟨x, found, other⟩ := markup
  obtain ⟨y, present, outline⟩ := alike.exists_content? found
  refine ⟨y, present, ?_⟩
  cases y with
  | element tag attrs => rfl
  | text value =>
    cases x with
    | element | comment => cases outline
    | text => cases other
  | comment value => rfl

/-- No text goes on with a row of nodes that does not begin with a text. -/
theorem endsText_row {row : List NodeId} (markup : ∀ c ∈ row.head?, d.IsMarkup c)
    (ends : Text.EndsText false rest) :
    Text.EndsText false (row.flatMap d.outerChars ++ rest) := by
  cases row with
  | nil => exact ends
  | cons c row =>
    obtain ⟨inner, written⟩ := (markup c rfl).exists_outerChars_eq
    rw [List.flatMap_cons, written]
    exact Text.endsText_less false _

/-- What is written for a row of nodes tells each of them. After a text the row ends or goes on with
    markup, on both sides. -/
theorem flatMap_outerChars_inj {left right : List NodeId}
    (alike : List.Forall₂ (fun c k => Alike Content.outline d c e k) left right)
    (known : ∀ c ∈ left, ∃ content, d.content? c = some content)
    (told : ∀ c ∈ left, d.IsTold e c)
    (apart : left.IsChain fun c k => d.text? c = none ∨ d.text? k = none)
    (ends : Text.EndsText false rest) (stops : Text.EndsText false others)
    (same : left.flatMap d.outerChars ++ rest = right.flatMap e.outerChars ++ others) :
    List.Forall₂ (fun c k => Alike id d c e k) left right ∧ rest = others := by
  induction alike with
  | nil => exact ⟨.nil, same⟩
  | @cons c k left right here later ih =>
    obtain ⟨⟨x, found⟩, known⟩ := List.forall_mem_cons.mp known
    obtain ⟨first, told⟩ := List.forall_mem_cons.mp told
    obtain ⟨next, apart⟩ := List.isChain_cons.mp apart
    obtain ⟨y, present, outline⟩ := here.exists_content? found
    rw [List.flatMap_cons, List.flatMap_cons, List.append_assoc, List.append_assoc] at same
    have borders : x.text? = none ∨
        Text.EndsText false (left.flatMap d.outerChars ++ rest) ∧
          Text.EndsText false (right.flatMap e.outerChars ++ others) := by
      rw [or_iff_not_imp_left]
      intro text
      cases later with
      | nil => exact ⟨ends, stops⟩
      | @cons a b left right alike later =>
        have markup : d.IsMarkup a := by
          obtain ⟨content, following⟩ := known a List.mem_cons_self
          have other := (next a rfl).resolve_left (by simpa [text?, found] using text)
          exact ⟨content, following, by simpa [text?, following] using other⟩
        exact ⟨endsText_row (by simpa using markup) ends,
          endsText_row (by simpa using markup.of_alike alike) stops⟩
    obtain ⟨rfl, below, after⟩ := outerChars_inj found present outline here.2 first borders same
    obtain ⟨alike, done⟩ := ih known told apart after
    exact ⟨.cons ⟨by rw [found, present], below⟩ alike, done⟩

/-! ## Reading a tree -/

theorem TextsApart.of_child (apart : d.TextsApart n) (child : d.parent? c = some n) :
    d.TextsApart c := by
  have below : d.isBelow c n = true := (isBelow_of_parent child).mpr (.inl rfl)
  intro p member
  refine apart p (List.mem_cons_of_mem _ (mem_descendants.mpr ?_))
  rcases List.mem_cons.mp member with rfl | deeper
  · exact below
  · exact isBelow_trans (mem_descendants.mp deeper) below

theorem isTold_of_textsApart (apart : d.TextsApart n) : d.IsTold e n := by
  induction n using innerChars.induct d with
  | case1 n ih =>
    intro m rest others alike ends stops same
    rw [innerChars_eq, innerChars_eq] at same
    obtain ⟨below, done⟩ := flatMap_outerChars_inj (alikeBelow_iff.mp alike)
      (fun c child => exists_content?_of_parent (mem_children.mp child))
      (fun c child => ih c child (apart.of_child (mem_children.mp child)))
      (apart n List.mem_cons_self) ends stops same
    exact ⟨alikeBelow_iff.mpr below, done⟩

/-- Where two trees differ in the values of texts and attributes at most, and no two texts are next
    to each other, the same markup means the same contents: no value is taken for markup, for
    another value or for part of a neighbour. -/
theorem contents_eq_of_innerHtml_eq (alike : AlikeBelow Content.outline d n e m)
    (apart : d.TextsApart n) (same : d.innerHtml n = e.innerHtml m) (place : Nat)
    (way : List Nat) :
    (d.reach? n (place :: way)).bind d.content? = (e.reach? m (place :: way)).bind e.content? := by
  have written : d.innerChars n ++ [] = e.innerChars m ++ [] := by
    rw [String.ofList_injective same]
  obtain ⟨below, -⟩ := isTold_of_textsApart apart alike (Text.endsText_nil false)
    (Text.endsText_nil false) written
  simpa using below place way

/-- The nodes are made in another order, so that they have other numbers. -/
theorem contents_eq_of_innerHtml_eq_renumbered :
    let d := ofEdits [.element 0 "a" [("title", "say \"hi\"")], .text 1 "1 < 2 & 3",
      .comment 0 "note"]
    let e := ofEdits [.element 0 "a" [("title", "say \"hi\"")], .comment 0 "note",
      .text 1 "1 < 2 & 3"]
    AlikeBelow Content.outline d root e root ∧ d.TextsApart root ∧
      d.innerHtml root = e.innerHtml root ∧
      (d.reach? root [0, 0]).bind d.content? = (e.reach? root [0, 0]).bind e.content? := by
  intro d e
  have inner : AlikeBelow Content.outline d 1 e 1 := by
    rw [alikeBelow_iff, show d.children 1 = [2] by decide +kernel,
      show e.children 1 = [3] by decide +kernel]
    exact .cons ⟨by decide +kernel, alikeBelow_of_childless rfl rfl⟩ .nil
  have alike : AlikeBelow Content.outline d root e root := by
    rw [alikeBelow_iff, show d.children root = [1, 3] by decide +kernel,
      show e.children root = [1, 2] by decide +kernel]
    exact .cons ⟨by decide +kernel, inner⟩
      (.cons ⟨by decide +kernel, alikeBelow_of_childless rfl rfl⟩ .nil)
  have apart : d.TextsApart root := by decide +kernel
  have same : d.innerHtml root = e.innerHtml root := by decide +kernel
  exact ⟨alike, apart, same, contents_eq_of_innerHtml_eq alike apart same 0 [0]⟩

end Document

end TreeSelectors

namespace TreeSelectors.Document

/-! ## Texts in markup -/

variable {d : Document} {n a : NodeId} {needle : String}

theorem exists_innerHtml_eq (below : d.isBelow n a = true) :
    ∃ before after, d.innerHtml a = before ++ d.innerHtml n ++ after := by
  obtain ⟨before, after, whole⟩ := innerChars_infix_of_isBelow below
  refine ⟨String.ofList before, String.ofList after, ?_⟩
  rw [innerHtml, innerHtml, ← whole, String.ofList_append, String.ofList_append]

theorem accepts_contains_iff :
    (Condition.contains needle).accepts d n = true ↔ needle.toList <:+: d.innerChars n := by
  rw [Condition.accepts, Text.occursIn_iff, innerHtml, String.toList_ofList]

theorem accepts_contains_of_isBelow (below : d.isBelow n a = true)
    (accepted : (Condition.contains needle).accepts d n = true) :
    (Condition.contains needle).accepts d a = true := by
  rw [accepts_contains_iff] at accepted ⊢
  exact accepted.trans (innerChars_infix_of_isBelow below)

/-- The markup below a node is found in that below any node above it, and so is every text that is
    looked for, up to the root. -/
theorem contains_upward (below : d.isBelow n a = true) :
    (∃ before after, d.innerHtml a = before ++ d.innerHtml n ++ after) ∧
      ∀ needle, (Condition.contains needle).accepts d n = true →
        (Condition.contains needle).accepts d a = true ∧
          (Condition.contains needle).accepts d root = true := by
  refine ⟨exists_innerHtml_eq below, fun needle accepted => ⟨?_, ?_⟩⟩
  · exact accepts_contains_of_isBelow below accepted
  · exact accepts_contains_of_isBelow (isBelow_root_of_isBelow below) accepted

/-- Two levels up, past a sibling that comes before; the text that is looked for has an entity. -/
theorem contains_upward_entity :
    let d := ofEdits [.element 0 "ul" [("class", "x")], .comment 1 "first", .element 1 "li" [],
      .element 3 "b" [], .text 4 "1 < 2"]
    d.isBelow 4 1 = true ∧ d.innerHtml 4 = "1 &lt; 2" ∧
      (∃ before after, d.innerHtml 1 = before ++ d.innerHtml 4 ++ after) ∧
      (Condition.contains "&lt; ").accepts d 4 = true ∧
      (Condition.contains "&lt; ").accepts d 1 = true ∧
      (Condition.contains "&lt; ").accepts d root = true := by
  intro d
  have below : d.isBelow 4 1 = true := by decide +kernel
  have accepted : (Condition.contains "&lt; ").accepts d 4 = true := by decide +kernel
  obtain ⟨within, upward⟩ := contains_upward below
  exact ⟨below, by decide +kernel, within, accepted, upward "&lt; " accepted⟩

end TreeSelectors.Document
