import TreeSelectors.Proofs.Query.Numbering

/-!
  Numbers in the order of first meetings. A pass may ask for the number of an item or whether it is
  new, in any order, and meets the item either way. What is known at any time is told by the items
  met so far alone (`Numbering.Records`); one question keeps this, so a whole pass does. The numbers
  tell items apart as long as they do not start over. Main statement:
  `numbers_follow_first_meetings`.
-/

namespace TreeSelectors

variable {α : Type} [DecidableEq α]

namespace Numbering

/-- What a pass asks about an item; either question gives the item a number. -/
inductive Question (α : Type)
  | number (item : α)
  | isNew (item : α)

inductive Response
  | number (number : UInt64)
  | isNew (new : Bool)
deriving DecidableEq, Repr

def Question.item : Question α → α
  | .number item => item
  | .isNew item => item

def respond (numbering : Numbering α) : Question α → Response × Numbering α
  | .number item =>
    let (number, later) := numbering.numberOf item
    (.number number, later)
  | .isNew item =>
    let (new, later) := numbering.isNew item
    (.isNew new, later)

/-- The responses to questions one after the other, and the numbering they leave. -/
def respondAll (numbering : Numbering α) : List (Question α) → List Response × Numbering α
  | [] => ([], numbering)
  | question :: questions =>
    let (response, later) := numbering.respond question
    let (responses, last) := later.respondAll questions
    (response :: responses, last)

/-- The items met so far are numbered in the order of their first occurrences. -/
structure Records (numbering : Numbering α) (items : List α) : Prop where
  numbers : numbering.numbers =
    items.eraseDups.zipIdx.map fun (item, place) => (item, UInt64.ofNat (place + 1))
  next : numbering.next = UInt64.ofNat (items.eraseDups.length + 1)

/-- The response to a question after some items have been met. -/
def responseAfter (items : List α) : Question α → Response
  | .number item => .number (UInt64.ofNat ((items ++ [item]).eraseDups.idxOf item + 1))
  | .isNew item => .isNew (decide (item ∉ items))

variable {numbering : Numbering α} {items : List α} {item : α}

theorem records_empty : ({} : Numbering α).Records [] := ⟨rfl, rfl⟩

theorem Records.mem_met (records : numbering.Records items) :
    item ∈ numbering.met ↔ item ∈ items := by
  have keys : numbering.met = items.eraseDups := by
    rw [met, records.numbers, List.map_map]
    exact List.zipIdx_map_fst 0 _
  rw [keys, List.mem_eraseDups]

theorem lookup_zipIdx (old : item ∈ items) (start : Nat) :
    ((items.zipIdx start).map fun (item, place) => (item, UInt64.ofNat (place + 1))).lookup item =
      some (UInt64.ofNat (start + items.idxOf item + 1)) := by
  induction items generalizing start with
  | nil => cases old
  | cons first items ih =>
    rw [List.zipIdx_cons, List.map_cons, List.lookup_cons, List.idxOf_cons]
    by_cases same : item = first
    · simp [same]
    · have later := (List.mem_cons.mp old).resolve_left same
      rw [beq_false_of_ne same, beq_false_of_ne (Ne.symm same), cond_false]
      show List.lookup item _ = _
      rw [ih later, Nat.add_right_comm start, Nat.add_assoc start]

theorem Records.meet (records : numbering.Records items) (item : α) :
    (numbering.meet item).Records (items ++ [item]) := by
  by_cases old : item ∈ items
  · rw [meet_of_mem (records.mem_met.mpr old)]
    have same : (items ++ [item]).eraseDups = items.eraseDups := by
      rw [eraseDups_concat, if_pos old]
    exact ⟨same ▸ records.numbers, same ▸ records.next⟩
  · have grown : (items ++ [item]).eraseDups = items.eraseDups ++ [item] := by
      rw [eraseDups_concat, if_neg old]
    rw [Numbering.meet, numberOf_of_not_mem (mt records.mem_met.mp old)]
    constructor
    · simp [grown, records.numbers, records.next, List.zipIdx_append]
    · simp [grown, records.next, UInt64.ofNat_add]

theorem Records.number_eq (records : numbering.Records items) (item : α) :
    (numbering.numberOf item).1 = UInt64.ofNat ((items ++ [item]).eraseDups.idxOf item + 1) := by
  by_cases old : item ∈ items
  · obtain ⟨number, found, same⟩ := exists_numberOf_of_mem (records.mem_met.mpr old)
    rw [records.numbers, lookup_zipIdx (List.mem_eraseDups.mpr old), Nat.zero_add] at found
    rw [same, idxOf_eraseDups_append old, Option.some.inj found]
  · have new : item ∉ items.eraseDups := mt List.mem_eraseDups.mp old
    rw [numberOf_of_not_mem (mt records.mem_met.mp old), eraseDups_concat, if_neg old,
      records.next, List.idxOf_append_of_notMem new, List.idxOf_cons_self, Nat.add_zero]

theorem Records.respond (records : numbering.Records items) (question : Question α) :
    (numbering.respond question).1 = responseAfter items question ∧
      (numbering.respond question).2.Records (items ++ [question.item]) := by
  cases question with
  | number item => exact ⟨congrArg Response.number (records.number_eq item), records.meet item⟩
  | isNew item =>
    rw [Numbering.respond, isNew_eq]
    exact ⟨by simp only [responseAfter, records.mem_met], records.meet item⟩

theorem Records.respondAll (records : numbering.Records items) (questions : List (Question α)) :
    (numbering.respondAll questions).2.Records (items ++ questions.map Question.item) ∧
      ∀ time question, questions[time]? = some question →
        (numbering.respondAll questions).1[time]? =
          some (responseAfter (items ++ (questions.map Question.item).take time) question) := by
  induction questions generalizing numbering items with
  | nil => exact ⟨by simpa [Numbering.respondAll] using records, by simp⟩
  | cons first questions ih =>
    obtain ⟨response, later⟩ := records.respond first
    obtain ⟨last, responses⟩ := ih later
    refine ⟨by simpa [Numbering.respondAll] using last, fun time question asked => ?_⟩
    cases time with
    | zero =>
      obtain rfl := Option.some.inj asked
      simpa [Numbering.respondAll] using response
    | succ time => simpa [Numbering.respondAll] using responses time question asked

variable {questions : List (Question α)} {time : Nat}

/-- An item has the same number whenever it is asked for. -/
theorem number_of_respondAll (asked : questions[time]? = some (.number item)) :
    (({} : Numbering α).respondAll questions).1[time]? =
      some (.number
        (UInt64.ofNat ((questions.map Question.item).eraseDups.idxOf item + 1))) := by
  obtain ⟨-, responses⟩ := records_empty.respondAll questions
  rw [responses time _ asked, List.nil_append, responseAfter]
  have here : (questions.map Question.item)[time]? = some item := by
    rw [List.getElem?_map, asked]
    rfl
  have whole := List.take_append_drop (time + 1) (questions.map Question.item)
  rw [List.take_add_one, here, Option.toList_some] at whole
  rw [← idxOf_eraseDups_append (by simp) ((questions.map Question.item).drop (time + 1)), whole]

theorem isNew_of_respondAll (asked : questions[time]? = some (.isNew item)) :
    (({} : Numbering α).respondAll questions).1[time]? =
      some (.isNew (decide (item ∉ (questions.map Question.item).take time))) := by
  obtain ⟨-, responses⟩ := records_empty.respondAll questions
  rw [responses time _ asked, List.nil_append, responseAfter]

theorem size_of_respondAll (questions : List (Question α)) :
    (({} : Numbering α).respondAll questions).2.size =
      (questions.map Question.item).eraseDups.length := by
  obtain ⟨records, -⟩ := records_empty.respondAll questions
  rw [size, records.numbers, List.length_map, List.length_zipIdx, List.nil_append]

theorem mem_eraseDups_of_asked {question : Question α} (asked : questions[time]? = some question) :
    question.item ∈ (questions.map Question.item).eraseDups :=
  List.mem_eraseDups.mpr (List.mem_map_of_mem (List.mem_of_getElem? asked))

/-- Too few items have been met for a number to start over. -/
theorem toNat_number (few : (questions.map Question.item).eraseDups.length < UInt64.size - 1)
    (member : item ∈ (questions.map Question.item).eraseDups) :
    (UInt64.ofNat ((questions.map Question.item).eraseDups.idxOf item + 1)).toNat =
      (questions.map Question.item).eraseDups.idxOf item + 1 := by
  have place := List.idxOf_lt_length_of_mem member
  exact UInt64.toNat_ofNat_of_lt' (by omega)

end Numbering

/-- Whatever is asked in whatever order, items are numbered from 1 on in the order in which they are
    first met by either question, each keeps its number and shares it with no other, and an item is
    new exactly when it has not been met. So first occurrences are kept in their order and all else
    is dropped, and lists may be joined before or after. -/
theorem numbers_follow_first_meetings :
    (∀ questions : List (Numbering.Question α),
      let items := questions.map Numbering.Question.item
      let responses := (({} : Numbering α).respondAll questions).1
      items.eraseDups.length < UInt64.size - 1 →
      (∀ (time : Nat) (item : α), questions[time]? = some (.number item) →
        ∃ number : UInt64, responses[time]? = some (.number number) ∧
          number.toNat = items.eraseDups.idxOf item + 1) ∧
      (∀ (time later : Nat) (item other : α), questions[time]? = some (.number item) →
        questions[later]? = some (.number other) →
        (responses[time]? = responses[later]? ↔ item = other)) ∧
      (∀ (time : Nat) (item : α), questions[time]? = some (.isNew item) →
        responses[time]? = some (.isNew (decide (item ∉ items.take time)))) ∧
      (({} : Numbering α).respondAll questions).2.size = items.eraseDups.length) ∧
    (∀ items : List α, distinct items = items.eraseDups ∧ (distinct items).Nodup ∧
      (distinct items).Sublist items ∧
      (distinct items).Pairwise fun a b => items.idxOf a < items.idxOf b) ∧
    ∀ items rest : List α,
      distinct (items ++ rest) = distinct (distinct items ++ distinct rest) := by
  refine ⟨?_, fun items => ?_, fun items rest => (distinct_append_distinct items rest).symm⟩
  · intro questions items responses few
    refine ⟨?_, ?_, ?_, Numbering.size_of_respondAll questions⟩
    · intro time item asked
      exact ⟨_, Numbering.number_of_respondAll asked,
        Numbering.toNat_number few (Numbering.mem_eraseDups_of_asked asked)⟩
    · intro time later item other asked again
      have member : item ∈ items.eraseDups := Numbering.mem_eraseDups_of_asked asked
      have another : other ∈ items.eraseDups := Numbering.mem_eraseDups_of_asked again
      rw [Numbering.number_of_respondAll asked, Numbering.number_of_respondAll again,
        Option.some.injEq, Numbering.Response.number.injEq, ← UInt64.toNat_inj,
        Numbering.toNat_number few member, Numbering.toNat_number few another,
        Nat.add_right_cancel_iff, List.idxOf_inj member]
    · intro time item asked
      exact Numbering.isNew_of_respondAll asked
  · refine ⟨distinct_eq_eraseDups items, nodup_distinct items, ?_, ?_⟩
    · rw [distinct_eq_eraseDups]
      exact eraseDups_sublist items
    · rw [distinct_eq_eraseDups]
      exact pairwise_eraseDups items

/-- An item that was asked about as new has its number when it is asked for. -/
theorem numbers_follow_first_meetings_mixed :
    let questions : List (Numbering.Question Nat) :=
      [.number 7, .isNew 5, .number 9, .isNew 7, .number 5, .number 7]
    let responses := (({} : Numbering Nat).respondAll questions).1
    (questions.map Numbering.Question.item).eraseDups.length < UInt64.size - 1 ∧
      questions[4]? = some (.number 5) ∧ questions[1]? = some (.isNew 5) ∧
      (∃ number : UInt64, responses[4]? = some (.number number) ∧ number.toNat = 2) ∧
      responses[1]? = some (.isNew true) := by
  intro questions responses
  have few : (questions.map Numbering.Question.item).eraseDups.length < UInt64.size - 1 := by decide
  obtain ⟨numbers, -, news, -⟩ := numbers_follow_first_meetings.1 questions few
  exact ⟨few, rfl, rfl, numbers 4 5 rfl, news 1 5 rfl⟩

end TreeSelectors
