import Mathlib.Data.List.Basic
import Mathlib.Data.List.Nodup
import Mathlib.Tactic.Common

/-!
# Doubly linked lists

Elements that are linked both ways from a head: they are put at the front, and taken out anywhere.
-/

namespace DoublyLinked

variable {α : Type} {next prev next' prev' : α → Option α} {head head' : Option α} {l l₁ l₂ : List α} {a : α}

/-- The elements of the list are linked in its order, each once. -/
structure Linked (next prev : α → Option α) (head : Option α) (l : List α) : Prop where
  head : head = l.head?
  around : ∀ l₁ a l₂, l = l₁ ++ a :: l₂ → next a = l₂.head? ∧ prev a = l₁.getLast?
  nodup : l.Nodup

theorem linked_nil : Linked next prev none [] where
  head := rfl
  around l₁ a l₂ h := by simp at h
  nodup := List.nodup_nil

theorem Linked.congr (h : Linked next prev head l) (hnext : ∀ a ∈ l, next' a = next a)
    (hprev : ∀ a ∈ l, prev' a = prev a) : Linked next' prev' head l where
  head := h.head
  around l₁ a l₂ hl := by
    have ha : a ∈ l := by simp [hl]
    rw [hnext a ha, hprev a ha]
    exact h.around l₁ a l₂ hl
  nodup := h.nodup

theorem Linked.of_mem (h : Linked next prev head l) (ha : a ∈ l) :
    ∃ l₁ l₂, l = l₁ ++ a :: l₂ ∧ next a = l₂.head? ∧ prev a = l₁.getLast? := by
  obtain ⟨l₁, l₂, rfl⟩ := List.append_of_mem ha
  exact ⟨l₁, l₂, rfl, h.around l₁ a l₂ rfl⟩

theorem middle_of_append {m₁ m₂ : List α} {b : α} (h : l₁ ++ l₂ = m₁ ++ b :: m₂) :
    (∃ k, m₁ = l₁ ++ k ∧ l₂ = k ++ b :: m₂) ∨ ∃ k, l₁ = m₁ ++ b :: k ∧ m₂ = k ++ l₂ := by
  rcases List.append_eq_append_iff.mp h with ⟨k, rfl, rfl⟩ | ⟨k, rfl, hk⟩
  · exact .inl ⟨k, rfl, rfl⟩
  · cases k with
    | nil => exact .inl ⟨[], by simp, hk.symm⟩
    | cons x k =>
      obtain ⟨rfl, rfl⟩ := List.cons.inj hk
      exact .inr ⟨k, rfl, rfl⟩

variable [DecidableEq α]

/-- An element put at the front. -/
theorem Linked.push (h : Linked next prev head l) (ha : a ∉ l) (hnext : next' a = head) (hprev : prev' a = none)
    (hkeep : ∀ b ∈ l, next' b = next b) (hback : ∀ b ∈ l, prev' b = if head = some b then some a else prev b) :
    Linked next' prev' (some a) (a :: l) where
  head := rfl
  around l₁ b l₂ hl := by
    cases l₁ with
    | nil =>
      obtain ⟨rfl, rfl⟩ := List.cons.inj hl
      exact ⟨hnext.trans h.head, hprev⟩
    | cons x l₁ =>
      obtain ⟨rfl, rfl⟩ := List.cons.inj hl
      have hb : b ∈ l₁ ++ b :: l₂ := by simp
      obtain ⟨next_b, prev_b⟩ := h.around l₁ b l₂ rfl
      refine ⟨(hkeep b hb).trans next_b, ?_⟩
      rw [hback b hb, h.head]
      cases l₁ with
      | nil => simp
      | cons y l₁ =>
        have hy : y ≠ b := by
          rintro rfl
          exact (List.nodup_cons.mp h.nodup).1 (by simp)
        simp [hy, prev_b]
  nodup := List.nodup_cons.mpr ⟨ha, h.nodup⟩

/-- An element taken out: its neighbours are linked to each other. -/
theorem Linked.remove (h : Linked next prev head (l₁ ++ a :: l₂))
    (hnext : ∀ b ∈ l₁ ++ l₂, next' b = if prev a = some b then next a else next b)
    (hprev : ∀ b ∈ l₁ ++ l₂, prev' b = if next a = some b then prev a else prev b)
    (hhead : head' = if prev a = none then next a else head) : Linked next' prev' head' (l₁ ++ l₂) := by
  obtain ⟨next_a, prev_a⟩ := h.around l₁ a l₂ rfl
  rw [prev_a, next_a] at hnext hprev hhead
  obtain ⟨-, nodup⟩ := List.nodup_cons.mp (List.nodup_middle.mp h.nodup)
  obtain ⟨nodup₁, nodup₂, apart⟩ := List.nodup_append.mp nodup
  refine ⟨?_, fun m₁ b m₂ hm => ?_, nodup⟩
  · rw [hhead, h.head]
    cases l₁ with
    | nil => simp
    | cons x l₁ => simp
  · have hb : b ∈ l₁ ++ l₂ := by simp [hm]
    rw [hnext b hb, hprev b hb]
    rcases middle_of_append hm with ⟨k, rfl, rfl⟩ | ⟨k, rfl, rfl⟩
    · -- after the element taken out
      obtain ⟨next_b, prev_b⟩ := h.around (l₁ ++ a :: k) b m₂ (by simp)
      have hl : l₁.getLast? ≠ some b := fun hl => apart b (List.mem_of_getLast? hl) b (by simp) rfl
      rw [if_neg hl, next_b, prev_b]
      refine ⟨rfl, ?_⟩
      cases k with
      | nil => simp
      | cons y k =>
        have hy : y ≠ b := by
          rintro rfl
          exact (List.nodup_cons.mp nodup₂).1 (by simp)
        simp [hy]
    · -- before it
      obtain ⟨next_b, prev_b⟩ := h.around m₁ b (k ++ a :: l₂) (by simp)
      have hl : l₂.head? ≠ some b := fun hl => apart b (by simp) b (List.mem_of_mem_head? hl) rfl
      rw [if_neg hl, next_b, prev_b]
      refine ⟨?_, rfl⟩
      cases k with
      | nil => simp
      | cons y k =>
        have hy : (m₁ ++ b :: y :: k).getLast? ≠ some b := by
          intro hlast
          rw [List.getLast?_append_cons, List.getLast?_cons_cons] at hlast
          exact (List.nodup_cons.mp (List.nodup_append.mp nodup₁).2.1).1 (List.mem_of_getLast? hlast)
        rw [if_neg hy]
        simp

end DoublyLinked
