import TreeSelectors.Document.Edit
import TreeSelectors.Host

/-!
  What edits leave behind. The log of a run lists the attributes that were set. A document follows a
  log when each attribute has the value it was last set to and the holders of an id come in the
  order in which they last got it (`Document.Follows`). Every edit keeps that, and one that is
  refused changes nothing (`Document.apply_of_refused`), although an element gets its attributes one
  after the other. Main statement: `Document.ofEdits_reflects_log`.
-/

namespace TreeSelectors

/-- An attribute of a node was set. -/
structure Assignment where
  node : NodeId
  name : String
  value : String
deriving DecidableEq, Repr

/-- Entry `time` of the log is the last one to set the attribute of the node. -/
def LastSet (log : List Assignment) (n : NodeId) (name value : String) (time : Nat) : Prop :=
  log[time]? = some ⟨n, name, value⟩ ∧
    ∀ later other, time < later → log[later]? ≠ some ⟨n, name, other⟩

/-- Both nodes last got the id, the first one earlier. -/
def GivenBefore (log : List Assignment) (id : String) (a b : NodeId) : Prop :=
  ∃ earlier later, LastSet log a "id" id earlier ∧ LastSet log b "id" id later ∧ earlier < later

section

variable {log : List Assignment} {last : Assignment} {n a b : NodeId} {name value id : String}
  {time : Nat}

theorem LastSet.lt_length (set : LastSet log n name value time) : time < log.length :=
  (List.getElem?_eq_some_iff.mp set.1).1

theorem not_lastSet_nil : ¬ LastSet [] n name value time := by
  simp [LastSet]

theorem getElem?_concat_eq_some_iff {entry : Assignment} :
    (log ++ [last])[time]? = some entry ↔
      log[time]? = some entry ∨ time = log.length ∧ last = entry := by
  rcases Nat.lt_trichotomy time log.length with before | rfl | after
  · simp [List.getElem?_append_left before, Nat.ne_of_lt before]
  · simp
  · have absent : log[time]? = none := List.getElem?_eq_none (Nat.le_of_lt after)
    have absent' : (log ++ [last])[time]? = none :=
      List.getElem?_eq_none (by simpa using Nat.succ_le_of_lt after)
    simp [absent, absent', Nat.ne_of_gt after]

theorem lastSet_concat_self (log : List Assignment) :
    LastSet (log ++ [⟨n, name, value⟩]) n name value log.length := by
  refine ⟨getElem?_concat_eq_some_iff.mpr (.inr ⟨rfl, rfl⟩), fun later other after => ?_⟩
  rw [List.getElem?_eq_none (by simpa using Nat.succ_le_of_lt after)]
  exact nofun

/-- What the last entry sets was not last set before. -/
theorem LastSet.eq_of_concat {given : String}
    (set : LastSet (log ++ [⟨n, name, given⟩]) n name value time) : value = given := by
  rcases getElem?_concat_eq_some_iff.mp set.1 with before | ⟨-, same⟩
  · have earlier := (List.getElem?_eq_some_iff.mp before).1
    exact absurd (lastSet_concat_self log).1 (set.2 log.length given earlier)
  · exact (Assignment.mk.inj same).2.2.symm

theorem lastSet_concat_of_ne (other : ¬ (n = last.node ∧ name = last.name)) :
    LastSet (log ++ [last]) n name value time ↔ LastSet log n name value time := by
  have entry (time : Nat) (value : String) : (log ++ [last])[time]? = some ⟨n, name, value⟩ ↔
      log[time]? = some ⟨n, name, value⟩ := by
    rw [getElem?_concat_eq_some_iff]
    refine or_iff_left ?_
    rintro ⟨-, rfl⟩
    exact other ⟨rfl, rfl⟩
  simp only [LastSet, ne_eq, entry]

theorem GivenBefore.concat (before : GivenBefore log id a b)
    (left : ¬ (a = last.node ∧ "id" = last.name)) (right : ¬ (b = last.node ∧ "id" = last.name)) :
    GivenBefore (log ++ [last]) id a b := by
  obtain ⟨earlier, later, first, second, order⟩ := before
  exact ⟨earlier, later, (lastSet_concat_of_ne left).mpr first,
    (lastSet_concat_of_ne right).mpr second, order⟩

/-- Whoever has the id already was given it earlier. -/
theorem givenBefore_concat_self (set : LastSet log a "id" id time) (other : a ≠ n) :
    GivenBefore (log ++ [⟨n, "id", id⟩]) id a n :=
  ⟨time, log.length, (lastSet_concat_of_ne fun same => other same.1).mpr set,
    lastSet_concat_self log, set.lt_length⟩

end

namespace Document

variable {d : Document} {log : List Assignment} {n : NodeId}

/-- What an edit sets, in order; a refused edit sets nothing. -/
def assigned (d : Document) (edit : Edit) : List Assignment :=
  match (d.apply edit).2, edit with
  | none, .element _ _ attrs => attrs.map fun (name, value) => ⟨d.size + 1, name, value⟩
  | none, .attr node name value => [⟨node, name, value⟩]
  | _, _ => []

/-- What edits set, one edit after the other. -/
def logOf (d : Document) : List Edit → List Assignment
  | [] => []
  | edit :: edits => d.assigned edit ++ (d.apply edit).1.logOf edits

/-- Each attribute has the value last set, and the holders of an id come in the order in which they
    last got it. -/
structure Follows (d : Document) (log : List Assignment) : Prop where
  attr?_iff : ∀ n name value, d.attr? n name = some value ↔ ∃ time, LastSet log n name value time
  ordered : ∀ id, (d.holders id).Pairwise (GivenBefore log id)

/-! ## One step -/

theorem node?_push {parent : NodeId} {content : Content} (container : d.isContainer parent = true)
    (noId : content.attr? "id" = none) :
    (d.push parent content container noId).node? n =
      if n = d.size + 1 then some ⟨parent, content⟩ else d.node? n :=
  nodeIn?_push d.nodes ⟨parent, content⟩ n

theorem node?_withAttr {parent : NodeId} {tag : String} {attrs : Attributes}
    (found : d.node? n = some ⟨parent, .element tag attrs⟩) (name value : String) (m : NodeId) :
    (d.withAttr n parent tag attrs found name value).node? m =
      if m = n then some ⟨parent, .element tag (attrs.set name value)⟩ else d.node? m :=
  nodeIn?_setIfInBounds _ found m

theorem attr?_push {parent : NodeId} {content : Content}
    (container : d.isContainer parent = true) (noId : content.attr? "id" = none)
    (bare : ∀ name, content.attr? name = none) (name : String) :
    (d.push parent content container noId).attr? n name = d.attr? n name := by
  have absent : d.node? (d.size + 1) = none := nodeIn?_size_succ d.nodes
  simp only [attr?, content?, node?_push]
  split
  · next new => simp [new, absent, bare]
  · rfl

/-- A new node has no attributes yet. -/
theorem Follows.push (follows : d.Follows log) {parent : NodeId} {content : Content}
    (container : d.isContainer parent = true) (noId : content.attr? "id" = none)
    (bare : ∀ name, content.attr? name = none) :
    (d.push parent content container noId).Follows log where
  attr?_iff n name value := by rw [attr?_push container noId bare, follows.attr?_iff]
  ordered := follows.ordered

theorem attr?_withAttr {parent : NodeId} {tag : String} {attrs : Attributes}
    (found : d.node? n = some ⟨parent, .element tag attrs⟩) (name value : String) (m : NodeId)
    (other : String) :
    (d.withAttr n parent tag attrs found name value).attr? m other =
      if m = n ∧ other = name then some value else d.attr? m other := by
  simp only [attr?, content?, node?_withAttr]
  by_cases same : m = n
  · subst same
    by_cases named : other = name <;> simp [named, found, Content.attr?]
  · simp [same]

theorem holders_withAttr {parent : NodeId} {tag : String} {attrs : Attributes}
    (found : d.node? n = some ⟨parent, .element tag attrs⟩) (name value id : String) :
    (d.withAttr n parent tag attrs found name value).holders id =
      if name = "id" then (d.holders id).filter (· ≠ n) ++ if id = value then [n] else []
      else d.holders id := by
  simp only [holders, withAttr]
  split
  · next named =>
    subst named
    exact IdIndex.holders_assign (d.tree.get?_of_mem_holders found) value id
  · rfl

/-- The node set last comes last. -/
theorem Follows.withAttr (follows : d.Follows log) {parent : NodeId} {tag : String}
    {attrs : Attributes} (found : d.node? n = some ⟨parent, .element tag attrs⟩)
    (name value : String) :
    (d.withAttr n parent tag attrs found name value).Follows (log ++ [⟨n, name, value⟩]) where
  attr?_iff m other given := by
    rw [attr?_withAttr]
    by_cases set : m = n ∧ other = name
    · obtain ⟨rfl, rfl⟩ := set
      rw [if_pos ⟨rfl, rfl⟩, Option.some.injEq]
      constructor
      · rintro rfl
        exact ⟨log.length, lastSet_concat_self log⟩
      · rintro ⟨time, last⟩
        exact last.eq_of_concat.symm
    · rw [if_neg set, follows.attr?_iff]
      exact exists_congr fun time => (lastSet_concat_of_ne set).symm
  ordered id := by
    rw [holders_withAttr]
    split
    · next named =>
      subst named
      have kept : ((d.holders id).filter (· ≠ n)).Pairwise
          (GivenBefore (log ++ [⟨n, "id", value⟩]) id) := by
        refine ((follows.ordered id).filter _).imp_of_mem fun {a b} first second before => ?_
        exact before.concat (fun same => of_decide_eq_true (List.mem_filter.mp first).2 same.1)
          (fun same => of_decide_eq_true (List.mem_filter.mp second).2 same.1)
      split
      · next same =>
        subst same
        refine List.pairwise_append.mpr ⟨kept, List.pairwise_singleton .., ?_⟩
        intro a member k single
        obtain rfl := List.mem_singleton.mp single
        obtain ⟨held, other⟩ := List.mem_filter.mp member
        have carried := beq_iff_eq.mp (mem_holders.mp held)
        obtain ⟨time, set⟩ := (follows.attr?_iff a "id" id).mp carried
        exact givenBefore_concat_self set (of_decide_eq_true other)
      · rwa [List.append_nil]
    · next named =>
      refine (follows.ordered id).imp fun {a b} before => ?_
      exact before.concat (fun same => named same.2.symm) fun same => named same.2.symm

/-! ## Edits -/

theorem exists_of_putAttr_eq_ok {name value : String} {changed : Document}
    (went : d.putAttr n name value = .ok changed) :
    ∃ parent tag attrs, ∃ found : d.node? n = some ⟨parent, .element tag attrs⟩,
      d.withAttr n parent tag attrs found name value = changed := by
  unfold putAttr at went
  split at went
  · next parent tag attrs found => exact ⟨parent, tag, attrs, found, Except.ok.inj went⟩
  · cases went
  · cases went

/-- An element takes every attribute and stays an element. -/
theorem exists_putAttr_eq_ok (element : d.isElement n = true) (name value : String) :
    ∃ changed, d.putAttr n name value = .ok changed ∧ changed.isElement n = true := by
  unfold putAttr
  split
  · next parent tag attrs found =>
    refine ⟨_, rfl, ?_⟩
    simp [isElement, content?, node?_withAttr, Content.isElement]
  · next node other found =>
    obtain ⟨parent, content⟩ := node
    cases content with
    | element tag attrs => exact absurd rfl (other parent tag attrs)
    | text text => simp [isElement, content?, found, Content.isElement] at element
    | comment text => simp [isElement, content?, found, Content.isElement] at element
  · next absent => simp [isElement, content?, absent] at element

/-- None of the attributes is refused, so none is set in vain. -/
theorem putAttrs_of_isElement (element : d.isElement n = true) (attrs : List (String × String)) :
    (d.putAttrs n attrs).2 = none := by
  induction attrs generalizing d with
  | nil => rfl
  | cons attr attrs ih =>
    obtain ⟨changed, went, stays⟩ := exists_putAttr_eq_ok element attr.1 attr.2
    simpa only [putAttrs, went] using ih stays

theorem Follows.putAttrs (follows : d.Follows log) {attrs : List (String × String)}
    (went : (d.putAttrs n attrs).2 = none) :
    (d.putAttrs n attrs).1.Follows (log ++ attrs.map fun (name, value) => ⟨n, name, value⟩) := by
  induction attrs generalizing d log with
  | nil => simpa [Document.putAttrs] using follows
  | cons attr attrs ih =>
    obtain ⟨name, value⟩ := attr
    cases here : d.putAttr n name value with
    | error error => simp [Document.putAttrs, here] at went
    | ok changed =>
      obtain ⟨parent, tag, old, found, rfl⟩ := exists_of_putAttr_eq_ok here
      simp only [Document.putAttrs, here] at went ⊢
      simpa using ih (follows.withAttr found name value) went

theorem exists_of_add_eq_ok {parent : NodeId} {content : Content}
    {noId : content.attr? "id" = none} {grown : Document}
    (went : d.add parent content noId = .ok grown) :
    ∃ container, d.push parent content container noId = grown := by
  unfold add at went
  split at went
  · next container => exact ⟨container, Except.ok.inj went⟩
  · cases went

/-- What a new element starts from. -/
theorem exists_of_addElement_eq_ok {parent : NodeId} {tag : String} {grown : Document}
    (went : d.addElement parent tag = .ok grown) :
    ∃ container, d.push parent (.element tag {}) container rfl = grown ∧
      grown.size = d.size + 1 ∧ grown.isElement grown.size = true := by
  unfold addElement at went
  split at went
  · cases went
  · obtain ⟨container, rfl⟩ := exists_of_add_eq_ok went
    have size : (d.push parent (.element tag {}) container rfl).size = d.size + 1 :=
      Array.size_push ..
    have newest : (d.push parent (.element tag {}) container rfl).node? (d.size + 1) =
        some ⟨parent, .element tag {}⟩ := (node?_push container rfl).trans (if_pos rfl)
    exact ⟨container, rfl, size, by simp [isElement, content?, size, newest, Content.isElement]⟩

theorem settle_of_refused {outcome : Except EditError Document}
    (refused : (d.settle outcome).2 ≠ none) : (d.settle outcome).1 = d := by
  cases outcome with
  | ok changed => exact absurd rfl refused
  | error error => rfl

/-- A refused edit changes nothing. An element that has been made takes all its attributes, so
    nothing is left half done. -/
theorem apply_of_refused {edit : Edit} (refused : (d.apply edit).2 ≠ none) :
    (d.apply edit).1 = d := by
  cases edit with
  | element parent tag attrs =>
    cases made : d.addElement parent tag with
    | error error => simp [apply, made]
    | ok grown =>
      obtain ⟨-, -, -, element⟩ := exists_of_addElement_eq_ok made
      simp [apply, made, putAttrs_of_isElement element] at refused
  | text parent value => exact settle_of_refused refused
  | comment parent value => exact settle_of_refused refused
  | attr node name value => exact settle_of_refused refused
  | offerLookups enabled => exact absurd rfl refused
  | ignoreClassCase enabled => exact absurd rfl refused

theorem assigned_of_refused {edit : Edit} (refused : (d.apply edit).2 ≠ none) :
    d.assigned edit = [] := by
  unfold assigned
  split
  · next went => exact absurd went refused
  · next went => exact absurd went refused
  · rfl

/-- A text or a comment has no attributes. -/
theorem Follows.settle_add (follows : d.Follows log) {parent : NodeId} {content : Content}
    {noId : content.attr? "id" = none} (bare : ∀ name, content.attr? name = none) :
    (d.settle (d.add parent content noId)).1.Follows log := by
  cases made : d.add parent content noId with
  | error error => exact follows
  | ok grown =>
    obtain ⟨container, rfl⟩ := exists_of_add_eq_ok made
    exact follows.push container noId bare

theorem Follows.apply (follows : d.Follows log) (edit : Edit) :
    (d.apply edit).1.Follows (log ++ d.assigned edit) := by
  cases went : (d.apply edit).2 with
  | some error =>
    have refused : (d.apply edit).2 ≠ none := by simp [went]
    rw [apply_of_refused refused, assigned_of_refused refused, List.append_nil]
    exact follows
  | none =>
    cases edit with
    | element parent tag attrs =>
      simp only [assigned, went]
      cases made : d.addElement parent tag with
      | error error => simp [Document.apply, made] at went
      | ok grown =>
        obtain ⟨container, rfl, size, -⟩ := exists_of_addElement_eq_ok made
        simp only [Document.apply, made, size] at went ⊢
        exact (follows.push container rfl fun _ => rfl).putAttrs went
    | text parent value =>
      simp only [assigned, went, List.append_nil]
      exact follows.settle_add fun _ => rfl
    | comment parent value =>
      simp only [assigned, went, List.append_nil]
      exact follows.settle_add fun _ => rfl
    | attr node name value =>
      simp only [assigned, went]
      cases put : d.putAttr node name value with
      | error error => simp [Document.apply, put, settle] at went
      | ok changed =>
        obtain ⟨parent, tag, old, found, rfl⟩ := exists_of_putAttr_eq_ok put
        simp only [Document.apply, put, settle]
        exact follows.withAttr found name value
    | offerLookups enabled =>
      simp only [assigned, went, List.append_nil]
      exact ⟨follows.attr?_iff, follows.ordered⟩
    | ignoreClassCase enabled =>
      simp only [assigned, went, List.append_nil]
      exact ⟨follows.attr?_iff, follows.ordered⟩

/-! ## Runs -/

theorem Follows.foldl (follows : d.Follows log) (edits : List Edit) :
    (edits.foldl (fun d edit => (d.apply edit).1) d).Follows (log ++ d.logOf edits) := by
  induction edits generalizing d log with
  | nil => simpa [logOf] using follows
  | cons edit edits ih =>
    rw [List.foldl_cons, logOf, ← List.append_assoc]
    exact ih (follows.apply edit)

theorem follows_empty : Follows {} [] where
  attr?_iff n name value := by
    have absent : attr? {} n name = none := by cases n <;> rfl
    simp [absent, not_lastSet_nil]
  ordered _ := List.Pairwise.nil

theorem follows_ofEdits (edits : List Edit) : (ofEdits edits).Follows (logOf {} edits) :=
  follows_empty.foldl edits

/-- Whatever edits were tried, an id is held by the elements that carry it, in the order in which
    they last got it, a node has the attributes that were set, with the values last set, an element
    has each once, and an edit that is refused leaves all as it was. -/
theorem ofEdits_reflects_log (edits : List Edit) :
    let d := ofEdits edits
    let log := logOf {} edits
    (∀ id, (∀ n, n ∈ d.holders id ↔ d.isElement n = true ∧ d.attr? n "id" = some id) ∧
      (d.holders id).Nodup ∧ (d.holders id).Pairwise (GivenBefore log id)) ∧
    (∀ n name value, d.attr? n name = some value ↔ ∃ time, LastSet log n name value time) ∧
    (∀ n tag attrs, d.content? n = some (.element tag attrs) →
      (attrs.pairs.map Prod.fst).Nodup ∧
        ∀ name value, (name, value) ∈ attrs.pairs ↔ ∃ time, LastSet log n name value time) ∧
    ∀ edit error, (d.apply edit).2 = some error → (d.apply edit).1 = d := by
  intro d log
  have follows : d.Follows log := follows_ofEdits edits
  refine ⟨fun id => ⟨fun n => ?_, d.tree.nodup_holders id, follows.ordered id⟩, follows.attr?_iff,
    ?_, ?_⟩
  · rw [mem_holders, hasId, beq_iff_eq]
    exact (and_iff_right_of_imp fun held => isElement_of_hasId (beq_iff_eq.mpr held)).symm
  · intro n tag attrs found
    refine ⟨attrs.nodup, fun name value => ?_⟩
    rw [Attributes.mem_pairs_iff, ← follows.attr?_iff]
    simp [attr?, found, Content.attr?]
  · intro edit error refused
    exact apply_of_refused (by simp [refused])

example : (ofEdits [.element 0 "a" [("id", "x")], .element 0 "b" [("id", "x")],
    .attr 1 "id" "y", .attr 1 "id" "x"]).holders "x" = [2, 1] := by decide

end Document

end TreeSelectors
