import Mathlib.Data.List.Basic
import Mathlib.Data.List.Induction
import TreeSelectors.Query.Run

/-!
  Dropping repetitions. Whether an item is new is not looked up but seen from the next number,
  which moves on exactly when an item gets one, also where it starts over (`Numbering.isNew_eq`). So
  what a pass keeps does not depend on numbers. Dropping repetitions from a stretch first makes no
  difference to a pass that has met at least as much (`Numbering.fresh_fresh_append`,
  `Numbering.fresh_append_fresh`), so that lists may be joined before or after
  (`distinct_append_distinct`).
-/

namespace TreeSelectors

namespace Numbering

variable {α : Type} [DecidableEq α] {numbering : Numbering α} {item other : α}

/-- The items that have a number. -/
def met (numbering : Numbering α) : List α := numbering.numbers.map Prod.fst

omit [DecidableEq α] in
@[simp]
theorem met_empty : ({} : Numbering α).met = [] := rfl

/-- What a numbering becomes when an item is met. -/
def meet (numbering : Numbering α) (item : α) : Numbering α := (numbering.numberOf item).2

theorem lookup_eq_none_iff : numbering.numbers.lookup item = none ↔ item ∉ numbering.met := by
  rw [List.lookup_eq_none_iff, met, List.mem_map]
  grind

theorem numberOf_of_not_mem (new : item ∉ numbering.met) :
    numbering.numberOf item =
      (numbering.next,
        { next := numbering.next + 1,
          numbers := numbering.numbers ++ [(item, numbering.next)] }) := by
  rw [numberOf, lookup_eq_none_iff.mpr new]

theorem exists_numberOf_of_mem (old : item ∈ numbering.met) :
    ∃ number, numbering.numbers.lookup item = some number ∧
      numbering.numberOf item = (number, numbering) := by
  cases found : numbering.numbers.lookup item with
  | none => exact absurd old (lookup_eq_none_iff.mp found)
  | some number => exact ⟨number, rfl, by rw [numberOf, found]⟩

theorem meet_of_mem (old : item ∈ numbering.met) : numbering.meet item = numbering := by
  obtain ⟨number, -, same⟩ := exists_numberOf_of_mem old
  rw [meet, same]

theorem mem_meet : item ∈ (numbering.meet other).met ↔ item ∈ numbering.met ∨ item = other := by
  by_cases old : other ∈ numbering.met
  · rw [meet_of_mem old]
    exact (or_iff_left_of_imp fun same => same ▸ old).symm
  · rw [meet, numberOf_of_not_mem old]
    simp [met]

/-- The next number moves on exactly when an item gets one. -/
theorem isNew_eq (numbering : Numbering α) (item : α) :
    numbering.isNew item = (decide (item ∉ numbering.met), numbering.meet item) := by
  unfold isNew meet
  by_cases old : item ∈ numbering.met
  · obtain ⟨number, -, same⟩ := exists_numberOf_of_mem old
    simp [same, old]
  · simp [numberOf_of_not_mem old, old]

/-! ## What is kept -/

theorem fresh_cons (numbering : Numbering α) (first : α) (items : List α) :
    numbering.fresh (first :: items) =
      if first ∈ numbering.met then (numbering.meet first).fresh items
      else first :: (numbering.meet first).fresh items := by
  by_cases old : first ∈ numbering.met <;> simp [fresh, isNew_eq, old]

theorem fresh_eq_eraseDups (numbering : Numbering α) (items : List α) :
    numbering.fresh items = (items.filter (· ∉ numbering.met)).eraseDups := by
  induction items generalizing numbering with
  | nil => rfl
  | cons first items ih =>
    rw [fresh_cons]
    split
    · next old =>
      rw [meet_of_mem old, ih, List.filter_cons_of_neg (by simpa using old)]
    · next new =>
      rw [ih, List.filter_cons_of_pos (by simpa using new), List.eraseDups_cons,
        List.filter_filter]
      congr 2
      refine List.filter_congr fun item _ => ?_
      rw [Bool.eq_iff_iff]
      simp [mem_meet, and_comm]

/-- What one numbering has met, the other has met too. -/
theorem meet_subset {less more : Numbering α} (within : less.met ⊆ more.met) (item : α) :
    (less.meet item).met ⊆ (more.meet item).met := by
  intro other member
  rw [mem_meet] at member ⊢
  exact member.imp_left fun before => within before

theorem fresh_fresh_append {less more : Numbering α} (within : less.met ⊆ more.met)
    (items rest : List α) :
    more.fresh (less.fresh items ++ rest) = more.fresh (items ++ rest) := by
  induction items generalizing less more with
  | nil => rfl
  | cons first items ih =>
    have later := ih (meet_subset within first)
    rw [fresh_cons, List.cons_append, fresh_cons more]
    split
    · next old => rw [if_pos (within old), ← later, meet_of_mem (within old)]
    · rw [List.cons_append, fresh_cons, later]

theorem fresh_append_fresh {less more : Numbering α} (within : less.met ⊆ more.met)
    (items rest : List α) :
    more.fresh (items ++ less.fresh rest) = more.fresh (items ++ rest) := by
  induction items generalizing more with
  | nil => simpa using fresh_fresh_append within rest []
  | cons first items ih =>
    have wider : less.met ⊆ (more.meet first).met :=
      fun item member => mem_meet.mpr (.inl (within member))
    rw [List.cons_append, fresh_cons, List.cons_append, fresh_cons, ih wider]

end Numbering

/-! ## First occurrences -/

variable {α : Type} [DecidableEq α] {items : List α} {item : α}

theorem eraseDups_concat (items : List α) (item : α) :
    (items ++ [item]).eraseDups =
      if item ∈ items then items.eraseDups else items.eraseDups ++ [item] := by
  rw [List.eraseDups_append]
  by_cases old : item ∈ items <;> simp [List.removeAll, List.eraseDups_cons, old]

theorem idxOf_eraseDups_append (member : item ∈ items) (rest : List α) :
    (items ++ rest).eraseDups.idxOf item = items.eraseDups.idxOf item := by
  rw [List.eraseDups_append, List.idxOf_append_of_mem (List.mem_eraseDups.mpr member)]

/-- What is left is in the order of the first occurrences. -/
theorem pairwise_eraseDups (items : List α) :
    items.eraseDups.Pairwise fun a b => items.idxOf a < items.idxOf b := by
  induction items using List.reverseRecOn with
  | nil => exact .nil
  | append_singleton items item ih =>
    have before : items.eraseDups.Pairwise fun a b =>
        (items ++ [item]).idxOf a < (items ++ [item]).idxOf b := by
      refine ih.imp_of_mem fun {a b} first second less => ?_
      rw [List.idxOf_append_of_mem (List.mem_eraseDups.mp first),
        List.idxOf_append_of_mem (List.mem_eraseDups.mp second)]
      exact less
    rw [eraseDups_concat]
    split
    · exact before
    · next new =>
      refine List.pairwise_append.mpr ⟨before, List.pairwise_singleton .., ?_⟩
      intro a member b last
      have present := List.mem_eraseDups.mp member
      obtain rfl := List.mem_singleton.mp last
      rw [List.idxOf_append_of_mem present, List.idxOf_append_of_notMem new]
      exact Nat.lt_add_right _ (List.idxOf_lt_length_of_mem present)

theorem eraseDups_sublist (items : List α) : items.eraseDups.Sublist items := by
  induction items using List.reverseRecOn with
  | nil => exact .slnil
  | append_singleton items item ih =>
    rw [eraseDups_concat]
    split
    · exact ih.trans (List.sublist_append_left ..)
    · exact ih.append (.refl _)

theorem eraseDups_eq_self (nodup : items.Nodup) : items.eraseDups = items := by
  induction items using List.reverseRecOn with
  | nil => rfl
  | append_singleton items item ih =>
    obtain ⟨before, -, apart⟩ := List.nodup_append.mp nodup
    have new : item ∉ items := fun member => apart item member item (List.mem_singleton_self _) rfl
    rw [eraseDups_concat, if_neg new, ih before]

theorem distinct_eq_eraseDups (items : List α) : distinct items = items.eraseDups := by
  rw [distinct, Numbering.fresh_eq_eraseDups, List.filter_eq_self.mpr (by simp)]

@[simp]
theorem mem_distinct : item ∈ distinct items ↔ item ∈ items := by
  rw [distinct_eq_eraseDups, List.mem_eraseDups]

theorem nodup_distinct (items : List α) : (distinct items).Nodup := by
  rw [distinct_eq_eraseDups]
  exact (pairwise_eraseDups items).imp fun less same => absurd (same ▸ less) (Nat.lt_irrefl _)

theorem distinct_eq_self (nodup : items.Nodup) : distinct items = items := by
  rw [distinct_eq_eraseDups, eraseDups_eq_self nodup]

theorem distinct_append_distinct (items rest : List α) :
    distinct (distinct items ++ distinct rest) = distinct (items ++ rest) := by
  unfold distinct
  rw [Numbering.fresh_fresh_append fun _ member => member,
    Numbering.fresh_append_fresh fun _ member => member]

end TreeSelectors
