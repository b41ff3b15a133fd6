import TreeSelectors.Proofs.Chain
import TreeSelectors.Proofs.Query.Lookups
import TreeSelectors.Proofs.Query.Run

/-!
  Where chains lead. A step from a node goes below it or to a later sibling, and neither leaves the
  region below a node nor that of its later siblings (`IsWithin.of_related`). A chain therefore stays
  in the region that its first step enters, which is never above the node it starts from nor before
  it. Main statement: `isWithin_of_chain`.

  What a run can reach. A part finds no other nodes than elements that its operator relates to the
  context, for the lookups of a host are confined to what is below it (`step_of_finds`). What a group
  finds therefore is where its first operator leads. Main statement: `isWithin_of_mem_runParts`.
-/

namespace TreeSelectors.Document

/-! ## Chains -/

variable {d : Document} {meets : Part → NodeId → Prop} {operator : Combinator} {root n m a : NodeId}

/-- A later sibling, or below one. -/
def IsBeside (d : Document) (root n : NodeId) : Prop :=
  ∃ sibling, d.IsLaterSibling root sibling ∧ (n = sibling ∨ d.isBelow n sibling = true)

/-- The region that a first step by the operator enters. -/
def IsWithin (d : Document) (operator : Combinator) (root n : NodeId) : Prop :=
  match operator with
  | .descendant | .child => d.isBelow n root = true
  | .nextSibling | .followingSiblings => d.IsBeside root n

/-! ## Single steps -/

theorem IsLaterSibling.trans (near : d.IsLaterSibling n m) (far : d.IsLaterSibling m a) :
    d.IsLaterSibling n a := by
  obtain ⟨before, p, parent, middle⟩ := near
  obtain ⟨after, q, parent', child⟩ := far
  obtain rfl : p = q := Option.some.inj (middle.symm.trans parent')
  exact ⟨Nat.lt_trans before after, p, parent, child⟩

/-- Siblings are below the same nodes. -/
theorem isBelow_of_isLaterSibling (below : d.isBelow n a = true) (later : d.IsLaterSibling n m) :
    d.isBelow m a = true := by
  obtain ⟨-, p, parent, parent'⟩ := later
  exact (isBelow_of_parent parent').mpr ((isBelow_of_parent parent).mp below)

theorem isBelow_or_isLaterSibling_of_related (related : d.Related operator n m) :
    d.isBelow m n = true ∨ d.IsLaterSibling n m := by
  cases operator with
  | descendant => exact .inl related
  | child => exact .inl ((isBelow_of_parent related).mpr (.inl rfl))
  | nextSibling => exact .inr related.1
  | followingSiblings => exact .inr related

theorem isWithin_of_related (related : d.Related operator root n) :
    d.IsWithin operator root n := by
  cases operator with
  | descendant => exact related
  | child => exact (isBelow_of_parent related).mpr (.inl rfl)
  | nextSibling => exact ⟨n, related.1, .inl rfl⟩
  | followingSiblings => exact ⟨n, related, .inl rfl⟩

/-! ## The region is not left -/

/-- No step leads from below a node to anywhere else. -/
theorem isBelow_of_related (below : d.isBelow n a = true) (related : d.Related operator n m) :
    d.isBelow m a = true := by
  rcases isBelow_or_isLaterSibling_of_related related with lower | later
  · exact isBelow_trans lower below
  · exact isBelow_of_isLaterSibling below later

theorem IsBeside.of_related (beside : d.IsBeside root n) (related : d.Related operator n m) :
    d.IsBeside root m := by
  obtain ⟨sibling, later, rfl | below⟩ := beside
  · rcases isBelow_or_isLaterSibling_of_related related with lower | next
    · exact ⟨n, later, .inr lower⟩
    · exact ⟨m, later.trans next, .inl rfl⟩
  · exact ⟨sibling, later, .inr (isBelow_of_related below related)⟩

theorem IsWithin.of_related {next : Combinator} (within : d.IsWithin operator root n)
    (related : d.Related next n m) : d.IsWithin operator root m := by
  cases operator with
  | descendant => exact isBelow_of_related within related
  | child => exact isBelow_of_related within related
  | nextSibling => exact IsBeside.of_related within related
  | followingSiblings => exact IsBeside.of_related within related

theorem isWithin_of_chain {first : Part} {rest : List Part}
    (chain : Chain (d.Step meets) root (first :: rest) n) : d.IsWithin first.operator root n := by
  obtain ⟨start, ⟨-, related, -⟩, later⟩ := chain_cons.mp chain
  have entered := isWithin_of_related related
  clear chain related
  induction later with
  | nil => exact entered
  | cons here _ ih => exact ih (entered.of_related here.2.1)

/-! ## What is outside -/

theorem IsBeside.lt (beside : d.IsBeside root n) : root < n := by
  obtain ⟨sibling, later, rfl | below⟩ := beside
  · exact later.1
  · exact Nat.lt_trans later.1 (lt_of_isBelow below)

theorem IsWithin.lt (within : d.IsWithin operator root n) : root < n := by
  cases operator with
  | descendant => exact lt_of_isBelow within
  | child => exact lt_of_isBelow within
  | nextSibling => exact IsBeside.lt within
  | followingSiblings => exact IsBeside.lt within

/-- The node itself, what is above it and what comes before it among its siblings is outside. -/
theorem IsWithin.ne_root (within : d.IsWithin operator root n) :
    n ≠ root ∧ d.isBelow root n = false ∧ ¬ d.IsLaterSibling n root := by
  have after := within.lt
  refine ⟨Nat.ne_of_gt after, ?_, fun earlier => Nat.lt_asymm after earlier.1⟩
  cases above : d.isBelow root n with
  | false => rfl
  | true => exact absurd (lt_of_isBelow above) (Nat.lt_asymm after)

end TreeSelectors.Document

namespace TreeSelectors

/-! ## Runs -/

open Document

variable {host : Host} {exactTags useClassLookup : Bool} {dialect : Dialect} {part : Part}
  {context root n : NodeId}

namespace Retrieval

theorem byClassesFrom_sublist (selects : host.SelectsBelow) (names : List String)
    (context : NodeId) :
    (byClassesFrom host names context).Sublist (host.document.elementDescendants context) := by
  unfold byClassesFrom
  split
  · next found answered =>
    obtain ⟨lookups, offered, answer⟩ := Option.bind_eq_some_iff.mp answered
    exact (selects.lookups lookups offered).byClasses (eq_ok_of_toOption answer)
  · exact List.filter_sublist

theorem byTagFrom_sublist (selects : host.SelectsBelow) (name : TagName) (context : NodeId) :
    (byTagFrom host exactTags name context).Sublist
      (host.document.elementDescendants context) := by
  simp only [byTagFrom]
  split
  · next found answered =>
    obtain ⟨lookups, offered, answer⟩ := Option.bind_eq_some_iff.mp answered
    obtain ⟨-, offered⟩ := Option.ite_none_left_eq_some.mp offered
    exact (selects.lookups lookups offered).byTag (eq_ok_of_toOption answer)
  · exact List.monotone_filter_right _ fun _ => isElement_of_hasTag

end Retrieval

theorem step_of_finds (selects : host.SelectsBelow)
    (found : host.Finds exactTags (dialect.plan useClassLookup part) context n) :
    host.document.Step (fun _ _ => True) part context n := by
  obtain ⟨candidate, remaining⟩ := List.mem_filter.mp found
  obtain ⟨tag, id, classes, attrs, pseudos, operator⟩ := part
  cases operator with
  | child =>
    obtain ⟨child, element⟩ := List.mem_filter.mp candidate
    exact ⟨element, mem_children.mp child, trivial⟩
  | nextSibling =>
    obtain ⟨element, next⟩ := nextElement?_eq_some_iff.mp (Option.mem_toList.mp candidate)
    exact ⟨element, next, trivial⟩
  | followingSiblings =>
    obtain ⟨later, element⟩ := mem_followingElements.mp candidate
    exact ⟨element, later, trivial⟩
  | descendant =>
    have below : n ∈ host.document.elementDescendants context := by
      cases id with
      | some id => exact selects.byId (Option.mem_toList.mp candidate)
      | none =>
        simp only [Dialect.plan, Retrieval.ofPart] at candidate remaining
        split at candidate
        · exact (Retrieval.byClassesFrom_sublist selects classes context).subset candidate
        · next plain =>
          rw [if_neg plain] at remaining
          cases tag with
          | some name => exact (Retrieval.byTagFrom_sublist selects name context).subset candidate
          | none =>
            have accepted : dialect.Accepts host.document _ n := remaining
            exact mem_elementDescendants.mpr ⟨mem_descendants.mp candidate, accepted.isElement⟩
    obtain ⟨below, element⟩ := mem_elementDescendants.mp below
    exact ⟨element, below, trivial⟩

theorem chain_of_mem_runParts (selects : host.SelectsBelow) {parts : List Part}
    (found : n ∈ host.runParts exactTags (parts.map (dialect.plan useClassLookup)) root) :
    parts ≠ [] ∧ Chain (host.document.Step fun _ _ => True) root parts n := by
  rw [mem_runParts, ne_eq, List.map_eq_nil_iff, chain_map] at found
  exact ⟨found.1, found.2.imp (step_of_finds selects)⟩

theorem isWithin_of_mem_runParts (selects : host.SelectsBelow) {parts : List Part}
    (found : n ∈ host.runParts exactTags (parts.map (dialect.plan useClassLookup)) root) :
    ∃ first rest, parts = first :: rest ∧ host.document.isElement n = true ∧
      host.document.IsWithin first.operator root n := by
  obtain ⟨some, chain⟩ := chain_of_mem_runParts selects found
  obtain ⟨first, rest, rfl⟩ := List.exists_cons_of_ne_nil some
  refine ⟨first, rest, rfl, ?_, isWithin_of_chain chain⟩
  obtain ⟨start, ⟨element, -, -⟩, later⟩ := chain_cons.mp chain
  exact isElement_of_chain element later

end TreeSelectors
