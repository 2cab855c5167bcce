import Mathlib.Data.List.Basic
import Mathlib.Logic.Function.Basic

/-!
# Queues linked through their nodes

A queue kept as the first node, the last node and a link from each node to the next.
-/

namespace LinkedQueue

variable {α : Type} {next next' : α → Option α} {head tail : Option α} {i t : α} {l : List α}

/-- The links lead from the first node through the nodes of the list to the end. -/
def Path (next : α → Option α) : Option α → List α → Prop
  | head, [] => head = none
  | head, i :: l => head = some i ∧ Path next (next i) l

/-- The queue of the nodes of the list, each in it once. -/
structure Queue (next : α → Option α) (head tail : Option α) (l : List α) : Prop where
  path : Path next head l
  tail : tail = l.getLast?
  nodup : l.Nodup

theorem queue_empty : Queue next none none [] where
  path := rfl
  tail := rfl
  nodup := List.nodup_nil

theorem Path.congr (hp : Path next head l) (h : ∀ i ∈ l, next' i = next i) : Path next' head l := by
  induction l generalizing head with
  | nil => exact hp
  | cons i l ih =>
    refine ⟨hp.1, ?_⟩
    rw [h i List.mem_cons_self]
    exact ih hp.2 fun j hj => h j (List.mem_cons_of_mem _ hj)

theorem Queue.congr (hq : Queue next head tail l) (h : ∀ i ∈ l, next' i = next i) : Queue next' head tail l where
  path := hq.path.congr h
  tail := hq.tail
  nodup := hq.nodup

theorem Queue.head_eq (hq : Queue next head tail l) : head = l.head? := by
  cases l with
  | nil => exact hq.path
  | cons i l => exact hq.path.1

/-- The first node taken out. -/
theorem Queue.pop (hq : Queue next head tail (i :: l)) :
    Queue next (next i) (if next i = none then none else tail) l := by
  refine ⟨hq.path.2, ?_, hq.nodup.of_cons⟩
  cases l with
  | nil =>
    have hn : next i = none := hq.path.2
    rw [if_pos hn, List.getLast?_nil]
  | cons j l =>
    have hj : next i = some j := hq.path.2.1
    rw [if_neg (by simp [hj]), hq.tail, List.getLast?_cons_cons]

/-- A node put at the end, which links to nothing. -/
theorem Queue.push [DecidableEq α] (hq : Queue next head tail l) (hi : i ∉ l) (hn : next i = none) :
    Queue (tail.elim next fun t => Function.update next t (some i)) (if tail = none then some i else head) (some i)
      (l ++ [i]) := by
  refine ⟨?_, by simp, ?_⟩
  · rw [hq.tail]
    cases hl : l.getLast? with
    | none =>
      rw [List.getLast?_eq_none_iff.1 hl]
      exact ⟨rfl, hn⟩
    | some t =>
      have path := hq.path
      have nodup := hq.nodup
      simp only [Option.elim_some, reduceCtorEq, if_false]
      clear hq
      induction l generalizing head with
      | nil => simp at hl
      | cons j l ih =>
        refine ⟨path.1, ?_⟩
        cases l with
        | nil =>
          obtain rfl : j = t := by simpa using hl
          have hij : i ≠ j := fun he => hi (by simp [he])
          rw [Function.update_self]
          exact ⟨rfl, by rw [Function.update_of_ne hij, hn]; rfl⟩
        | cons k l =>
          rw [List.getLast?_cons_cons] at hl
          have ht : t ∈ k :: l := List.mem_of_getLast? hl
          have hjt : j ≠ t := fun he => (List.nodup_cons.1 nodup).1 (he ▸ ht)
          rw [Function.update_of_ne hjt]
          exact ih (fun hm => hi (List.mem_cons_of_mem _ hm)) hl path.2 nodup.of_cons
  · refine List.nodup_append.2 ⟨hq.nodup, List.pairwise_singleton _ i, ?_⟩
    rintro j hj k hk rfl
    exact hi (List.mem_singleton.1 hk ▸ hj)

end LinkedQueue
