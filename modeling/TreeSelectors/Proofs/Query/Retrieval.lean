import TreeSelectors.Proofs.Chain
import TreeSelectors.Proofs.Document.Order
import TreeSelectors.Query.Run

/-!
  One part from one context node. Whatever is known of the candidates, the conditions that remain
  make up for the rest (`accepts_conditions_iff`), and candidates are the nodes that the operator
  relates to the context and of which that is known (`lists_candidates`). A lookup of the host has
  to be as good as a walk for that (`Retrieval.IsExact`). Main statement: `lists_nodesFrom`.
-/

namespace TreeSelectors

/-- The nodes for which something holds, in document order and once each. -/
structure Document.Lists (d : Document) (nodes : List NodeId) (holds : NodeId → Prop) : Prop where
  inOrder : d.InOrder nodes
  mem_iff : ∀ n, n ∈ nodes ↔ holds n

/-- What a part asks of a node under a dialect. -/
def Dialect.Accepts (dialect : Dialect) (d : Document) (part : Part) (n : NodeId) : Prop :=
  Conditions.accepts d n (dialect.conditions {} part) = true

@[mk_iff]
structure Known.Holds (known : Known) (d : Document) (exactTags : Bool) (part : Part)
    (n : NodeId) : Prop where
  element : known.element = true → d.isElement n = true
  tag : known.tag = true → ∀ name ∈ part.tag, d.hasTag name exactTags n = true
  id : known.id = true → ∀ id ∈ part.id, d.hasId id n = true
  classes : known.classes = true → ∀ name ∈ part.classes, d.hasClass name n = true

/-- The host's lookup finds what a walk would find. -/
def Retrieval.IsExact (host : Host) (exactTags : Bool) : Retrieval → Prop
  | .byId id => ∀ context n, host.elementById? context id = some n ↔
      host.document.isBelow n context = true ∧ host.document.hasId id n = true
  | .byClasses names => ∀ context, byClassesFrom host names context =
      (host.document.elementDescendants context).filter fun n =>
        names.all (host.document.hasClass · n)
  | .byTag name => ∀ context, byTagFrom host exactTags name context =
      (host.document.descendants context).filter (host.document.hasTag name exactTags)
  | _ => True

namespace Document

variable {d : Document} {nodes others : List NodeId} {holds : NodeId → Prop} {n : NodeId}

theorem Lists.unique (left : d.Lists nodes holds) (right : d.Lists others holds) :
    nodes = others :=
  left.inOrder.ext right.inOrder fun n => (left.mem_iff n).trans (right.mem_iff n).symm

theorem Lists.filter (lists : d.Lists nodes holds) (keep : NodeId → Bool) :
    d.Lists (nodes.filter keep) fun n => holds n ∧ keep n = true where
  inOrder := lists.inOrder.filter keep
  mem_iff n := by rw [List.mem_filter, lists.mem_iff]

theorem Lists.congr {same : NodeId → Prop} (lists : d.Lists nodes holds)
    (alike : ∀ n, holds n ↔ same n) : d.Lists nodes same :=
  ⟨lists.inOrder, fun n => (lists.mem_iff n).trans (alike n)⟩

theorem lists_descendants (context : NodeId) :
    d.Lists (d.descendants context) (d.isBelow · context = true) :=
  ⟨inOrder_descendants context, fun _ => mem_descendants⟩

theorem lists_elementDescendants (context : NodeId) :
    d.Lists (d.elementDescendants context) fun n =>
      d.isBelow n context = true ∧ d.isElement n = true :=
  (lists_descendants context).filter _

theorem lists_elementChildren (context : NodeId) :
    d.Lists (d.elementChildren context) fun n =>
      d.parent? n = some context ∧ d.isElement n = true := by
  have children : d.Lists (d.children context) (d.parent? · = some context) :=
    ⟨inOrder_children context, fun _ => mem_children⟩
  exact children.filter _

theorem lists_followingElements (context : NodeId) :
    d.Lists (d.followingElements context) fun n =>
      d.IsLaterSibling context n ∧ d.isElement n = true :=
  ⟨inOrder_followingElements context, fun _ => mem_followingElements⟩

/-- At most one node for which something holds is a list of them. -/
theorem lists_toList (found : Option NodeId) (holds_iff : ∀ n, found = some n ↔ holds n)
    (element : ∀ n, holds n → d.isElement n = true) : d.Lists found.toList holds where
  inOrder := inOrder_toList fun n member =>
    isBelow_root_of_isElement (element n ((holds_iff n).mp member))
  mem_iff n := Option.mem_toList.trans (holds_iff n)

end Document

/-! ## What is known and what remains -/

/-- A condition left out where it is known to hold. -/
theorem all_ite_nil {α : Type} (known : Bool) (conditions : List α) (accepts : α → Bool) :
    ((if known then [] else conditions).all accepts = true) ↔
      (known = false → conditions.all accepts = true) := by
  cases known <;> simp

theorem all_tag (d : Document) (n : NodeId) (tag : Option TagName) (exactTags : Bool) :
    (tag.toList.map (Condition.tag · exactTags)).all (·.accepts d n) =
      tag.all (d.hasTag · exactTags n) := by
  cases tag <;> simp [Condition.accepts]

theorem all_id (d : Document) (n : NodeId) (id : Option String) :
    (id.toList.map Condition.id).all (·.accepts d n) = id.all (d.hasId · n) := by
  cases id <;> simp [Condition.accepts]

theorem accepts_conditions_iff {d : Document} {n : NodeId} (dialect : Dialect) (known : Known)
    (part : Part) : dialect.Accepts d part n ↔
      known.Holds d dialect.exactTags part n ∧
        Conditions.accepts d n (dialect.conditions known part) = true := by
  have tag : (part.tag.toList.map (Condition.tag · dialect.exactTags)).all (·.accepts d n) = true ↔
      ∀ name ∈ part.tag, d.hasTag name dialect.exactTags n = true := by
    rw [all_tag]
    cases part.tag <;> simp
  have id : (part.id.toList.map Condition.id).all (·.accepts d n) = true ↔
      ∀ id ∈ part.id, d.hasId id n = true := by
    rw [all_id]
    cases part.id <;> simp
  have classes : (part.classes.map Condition.className).all (·.accepts d n) = true ↔
      ∀ name ∈ part.classes, d.hasClass name n = true := by
    simp [Condition.accepts]
  have element : [Condition.element].all (·.accepts d n) = true ↔ d.isElement n = true := by
    simp [Condition.accepts]
  have all (known : Known) :
      Conditions.accepts d n (dialect.conditions known part) = true ↔
        (known.element = false → d.isElement n = true) ∧
        (known.tag = false → ∀ name ∈ part.tag, d.hasTag name dialect.exactTags n = true) ∧
        (known.classes = false → ∀ name ∈ part.classes, d.hasClass name n = true) ∧
        (known.id = false → ∀ id ∈ part.id, d.hasId id n = true) ∧
        Conditions.accepts d n (dialect.conditions ⟨true, true, true, true⟩ part) = true := by
    simp only [Conditions.accepts_eq_all, Dialect.conditions, Dialect.conditionsWith,
      List.all_append, Bool.and_eq_true, all_ite_nil, tag, id, classes, element]
    grind
  rw [Dialect.Accepts, all {}, all known]
  constructor
  · rintro ⟨element, tag, classes, id, rest⟩
    exact ⟨⟨fun _ => element rfl, fun _ => tag rfl, fun _ => id rfl, fun _ => classes rfl⟩,
      fun _ => element rfl, fun _ => tag rfl, fun _ => classes rfl, fun _ => id rfl, rest⟩
  · rintro ⟨⟨element, tag, id, classes⟩, element', tag', classes', id', rest⟩
    refine ⟨fun _ => ?_, fun _ => ?_, fun _ => ?_, fun _ => ?_, rest⟩
    · exact (Bool.eq_false_or_eq_true known.element).elim element element'
    · exact (Bool.eq_false_or_eq_true known.tag).elim tag tag'
    · exact (Bool.eq_false_or_eq_true known.classes).elim classes classes'
    · exact (Bool.eq_false_or_eq_true known.id).elim id id'

theorem Dialect.Accepts.isElement {dialect : Dialect} {d : Document} {part : Part} {n : NodeId}
    (accepted : dialect.Accepts d part n) : d.isElement n = true :=
  ((accepts_conditions_iff dialect { element := true } part).mp accepted).1.element rfl

/-! ## Candidates -/

open Document

/-- Candidates are what the operator relates to the context and what the retrieval knows of. -/
theorem lists_candidates {host : Host} {exactTags useClassLookup : Bool} {part : Part}
    (exact : (Retrieval.ofPart part useClassLookup).IsExact host exactTags) (context : NodeId) :
    host.document.Lists ((Retrieval.ofPart part useClassLookup).candidates host exactTags context)
      fun n => host.document.Related part.operator context n ∧
        (Retrieval.ofPart part useClassLookup).known.Holds host.document exactTags part n := by
  obtain ⟨tag, id, classes, attrs, pseudos, operator⟩ := part
  cases operator with
  | child =>
    refine (lists_elementChildren context).congr fun n => ?_
    simp [Retrieval.ofPart, Retrieval.known, Known.holds_iff, Related]
  | nextSibling =>
    refine (lists_toList (host.document.nextElement? context)
      (fun _ => nextElement?_eq_some_iff) fun n next => next.1).congr fun n => ?_
    simp [Retrieval.ofPart, Retrieval.known, Known.holds_iff, Related, and_comm]
  | followingSiblings =>
    refine (lists_followingElements context).congr fun n => ?_
    simp [Retrieval.ofPart, Retrieval.known, Known.holds_iff, Related]
  | descendant =>
    cases id with
    | some id =>
      refine (lists_toList (host.elementById? context id) (exact context)
        fun n found => isElement_of_hasId found.2).congr fun n => ?_
      simpa [Retrieval.ofPart, Retrieval.known, Known.holds_iff, Related] using
        fun _ => isElement_of_hasId
    | none =>
      unfold Retrieval.ofPart at exact ⊢
      by_cases indexed : (useClassLookup && !classes.isEmpty) = true
      · simp only [indexed, if_true] at exact ⊢
        rw [Retrieval.candidates, exact context]
        refine ((lists_elementDescendants context).filter _).congr fun n => ?_
        simp [Retrieval.known, Known.holds_iff, Related, and_assoc]
      · simp only [indexed, Bool.false_eq_true, if_false] at exact ⊢
        cases tag with
        | some name =>
          rw [Retrieval.candidates, exact context]
          refine ((lists_descendants context).filter _).congr fun n => ?_
          simpa [Retrieval.known, Known.holds_iff, Related] using fun _ => isElement_of_hasTag
        | none =>
          refine (lists_descendants context).congr fun n => ?_
          simp [Retrieval.known, Known.holds_iff, Related]

/-- A plan finds from a context just the nodes its part steps to. -/
theorem lists_nodesFrom {host : Host} {dialect : Dialect} {useClassLookup : Bool} {part : Part}
    (exact : (Retrieval.ofPart part useClassLookup).IsExact host dialect.exactTags)
    (context : NodeId) :
    host.document.Lists
      ((dialect.plan useClassLookup part).nodesFrom host dialect.exactTags context)
      (host.document.Step (dialect.Accepts host.document) part context) := by
  refine ((lists_candidates exact context).filter _).congr fun n => ?_
  have whole := accepts_conditions_iff (d := host.document) (n := n) dialect
    (Retrieval.ofPart part useClassLookup).known part
  constructor
  · rintro ⟨⟨related, known⟩, remaining⟩
    have accepted := whole.mpr ⟨known, remaining⟩
    exact ⟨accepted.isElement, related, accepted⟩
  · rintro ⟨-, related, accepted⟩
    obtain ⟨known, remaining⟩ := whole.mp accepted
    exact ⟨⟨related, known⟩, remaining⟩

end TreeSelectors
