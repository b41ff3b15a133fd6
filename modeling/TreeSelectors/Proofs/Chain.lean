import TreeSelectors.Proofs.Document.Kinship

/-!
  What a list of parts means. A chain takes one step for each item of a list; for parts, a step goes
  to an element that the operator relates to the node before it and that meets the part. A chain may
  start at a given node or at an element anywhere in the document.
-/

namespace TreeSelectors

/-- One step for each item leads from the first node to the last. -/
inductive Chain {α : Type} (step : α → NodeId → NodeId → Prop) : NodeId → List α → NodeId → Prop
  | nil {n : NodeId} : Chain step n [] n
  | cons {item : α} {items : List α} {first next last : NodeId} :
      step item first next → Chain step next items last → Chain step first (item :: items) last

section

variable {α : Type} {step other : α → NodeId → NodeId → Prop} {first last : NodeId}

@[simp]
theorem chain_nil : Chain step first [] last ↔ last = first := by
  constructor
  · rintro ⟨⟩
    rfl
  · rintro rfl
    exact .nil

@[simp]
theorem chain_cons {item : α} {items : List α} :
    Chain step first (item :: items) last ↔
      ∃ next, step item first next ∧ Chain step next items last := by
  constructor
  · rintro ⟨⟩
    exact ⟨_, ‹_›, ‹_›⟩
  · rintro ⟨next, here, later⟩
    exact .cons here later

theorem chain_append {front back : List α} :
    Chain step first (front ++ back) last ↔
      ∃ middle, Chain step first front middle ∧ Chain step middle back last := by
  induction front generalizing first with
  | nil => simp
  | cons item front ih =>
    simp only [List.cons_append, chain_cons, ih]
    constructor
    · rintro ⟨next, here, middle, before, after⟩
      exact ⟨middle, ⟨next, here, before⟩, after⟩
    · rintro ⟨middle, ⟨next, here, before⟩, after⟩
      exact ⟨next, here, middle, before, after⟩

theorem chain_map {β : Type} {f : β → α} {items : List β} :
    Chain step first (items.map f) last ↔ Chain (fun item => step (f item)) first items last := by
  induction items generalizing first with
  | nil => simp
  | cons item items ih => simp only [List.map_cons, chain_cons, ih]

theorem Chain.imp (weaker : ∀ {item n m}, step item n m → other item n m) {items : List α}
    (chain : Chain step first items last) : Chain other first items last := by
  induction chain with
  | nil => exact .nil
  | cons here _ ih => exact .cons (weaker here) ih

/-- Only the steps for the items of the list matter. -/
theorem chain_congr {items : List α}
    (alike : ∀ item ∈ items, ∀ n m, other item n m ↔ step item n m) :
    Chain other first items last ↔ Chain step first items last := by
  induction items generalizing first with
  | nil => simp
  | cons item items ih =>
    simp only [chain_cons, alike item List.mem_cons_self]
    refine exists_congr fun next => and_congr_right fun _ => ?_
    exact ih fun next member => alike next (List.mem_cons_of_mem _ member)

end

namespace Document

variable {d : Document} {meets : Part → NodeId → Prop} {context n : NodeId}

/-- An element that stands to `context` as the part's operator says and meets the part. -/
def Step (d : Document) (meets : Part → NodeId → Prop) (part : Part) (context n : NodeId) : Prop :=
  d.isElement n = true ∧ d.Related part.operator context n ∧ meets part n

/-- `n` ends a chain for the parts whose first element may be anywhere. -/
def EndsAnywhere (d : Document) (meets : Part → NodeId → Prop) (parts : List Part) (n : NodeId) :
    Prop :=
  ∃ first rest start, parts = first :: rest ∧ d.isElement start = true ∧ meets first start ∧
    Chain (d.Step meets) start rest n

theorem isElement_of_chain {parts : List Part} (element : d.isElement context = true)
    (chain : Chain (d.Step meets) context parts n) : d.isElement n = true := by
  induction chain with
  | nil => exact element
  | cons here _ ih => exact ih here.1

theorem EndsAnywhere.isElement {parts : List Part} (ends : d.EndsAnywhere meets parts n) :
    d.isElement n = true := by
  obtain ⟨first, rest, start, -, element, -, chain⟩ := ends
  exact isElement_of_chain element chain

/-- Chains grow at their end. -/
theorem endsAnywhere_concat {parts : List Part} {part : Part} :
    d.EndsAnywhere meets (parts ++ [part]) n ↔
      d.isElement n = true ∧ meets part n ∧
        (parts = [] ∨ ∃ m, d.Related part.operator m n ∧ d.EndsAnywhere meets parts m) := by
  cases parts with
  | nil =>
    simp only [List.nil_append, true_or, and_true]
    constructor
    · rintro ⟨first, rest, start, same, element, met, chain⟩
      obtain ⟨rfl, rfl⟩ := List.cons.inj same
      obtain rfl := chain_nil.mp chain
      exact ⟨element, met⟩
    · rintro ⟨element, met⟩
      exact ⟨part, [], n, rfl, element, met, .nil⟩
  | cons head tail =>
    simp only [reduceCtorEq, false_or]
    constructor
    · rintro ⟨first, rest, start, same, element, met, chain⟩
      obtain ⟨rfl, rfl⟩ := List.cons.inj same
      obtain ⟨m, before, last⟩ := chain_append.mp chain
      simp only [chain_cons, chain_nil] at last
      obtain ⟨_, ⟨isElement, related, meets⟩, rfl⟩ := last
      exact ⟨isElement, meets, m, related, _, _, start, rfl, element, met, before⟩
    · rintro ⟨isElement, meets, m, related, first, rest, start, same, element, met, before⟩
      obtain ⟨rfl, rfl⟩ := List.cons.inj same
      refine ⟨head, tail ++ [part], start, rfl, element, met, chain_append.mpr ⟨m, before, ?_⟩⟩
      exact .cons ⟨isElement, related, meets⟩ .nil

end Document

end TreeSelectors
