import Mathlib.Algebra.BigOperators.Group.Finset.Basic
import Mathlib.Data.Finset.Card

/-!
# Traversal of a graph by a worklist

The nodes in the order of their first visit: a queue of nodes to look at, the nodes seen so far, and the
successors of a node put at the end of the queue when it is first seen. The successors may fail to be
known, which ends the traversal.
-/

namespace Worklist

variable {α ε : Type} {next : α → Except ε (List α)} {roots queue seen order bs : List α} {a b : α} {n : Nat}

/-- The nodes that paths from the roots lead to. -/
inductive Reach (next : α → Except ε (List α)) (roots : List α) : α → Prop where
  | root {a : α} : a ∈ roots → Reach next roots a
  | step {a b : α} {bs : List α} : Reach next roots a → next a = .ok bs → b ∈ bs → Reach next roots b

/-- The nodes first visited from here on. `none` when the fuel ends first. -/
def visits [DecidableEq α] (next : α → Except ε (List α)) : Nat → List α → List α → Option (Except ε (List α))
  | 0, _, _ => none
  | _ + 1, _, [] => some (.ok [])
  | n + 1, seen, a :: queue =>
      if a ∈ seen then visits next n seen queue
      else match next a with
        | .error e => some (.error e)
        | .ok bs => (visits next n (a :: seen) (queue ++ bs)).map fun r => r.map (a :: ·)

/-! ## What is reached -/

theorem Reach.mono {next' : α → Except ε (List α)} {roots' : List α} (hroots : ∀ a ∈ roots, a ∈ roots')
    (hnext : ∀ a bs, next a = .ok bs → ∃ bs', next' a = .ok bs' ∧ ∀ b ∈ bs, b ∈ bs') (h : Reach next roots a) :
    Reach next' roots' a := by
  induction h with
  | root ha => exact .root (hroots _ ha)
  | step _ hbs hb ih =>
    obtain ⟨bs', hbs', hsub⟩ := hnext _ _ hbs
    exact .step ih hbs' (hsub _ hb)

/-- A set that has the roots and the successors of its nodes has all that is reached. -/
theorem Reach.mem_of_closed {S : α → Prop} (hroots : ∀ a ∈ roots, S a)
    (hnext : ∀ a bs, S a → next a = .ok bs → ∀ b ∈ bs, S b) (h : Reach next roots a) : S a := by
  induction h with
  | root ha => exact hroots _ ha
  | step _ hbs hb ih => exact hnext _ _ ih hbs _ hb

section
variable [DecidableEq α]

/-! ## One step -/

@[simp] theorem visits_zero : visits next 0 seen queue = none := rfl

@[simp] theorem visits_nil : visits next (n + 1) seen [] = some (.ok []) := rfl

theorem visits_seen (h : a ∈ seen) : visits next (n + 1) seen (a :: queue) = visits next n seen queue := if_pos h

theorem visits_new (h : a ∉ seen) (hbs : next a = .ok bs) :
    visits next (n + 1) seen (a :: queue) = (visits next n (a :: seen) (queue ++ bs)).map fun r => r.map (a :: ·) := by
  refine (if_neg h).trans ?_
  rw [hbs]

theorem visits_failed {e : ε} (h : a ∉ seen) (he : next a = .error e) :
    visits next (n + 1) seen (a :: queue) = some (.error e) := by
  refine (if_neg h).trans ?_
  rw [he]

/-- The visits that start with an unseen node. -/
theorem visits_new_ok (h : a ∉ seen) :
    visits next (n + 1) seen (a :: queue) = some (.ok order) ↔
      ∃ bs rest, next a = .ok bs ∧ visits next n (a :: seen) (queue ++ bs) = some (.ok rest) ∧ order = a :: rest := by
  cases hbs : next a with
  | error e => simp [visits_failed h hbs]
  | ok bs =>
    rw [visits_new h hbs, Option.map_eq_some_iff]
    constructor
    · rintro ⟨r, hr, ho⟩
      cases r with
      | error e => cases ho
      | ok rest =>
        cases ho
        exact ⟨bs, rest, rfl, hr, rfl⟩
    · rintro ⟨_, rest, hbs', hrest, rfl⟩
      cases hbs'
      exact ⟨.ok rest, hrest, rfl⟩

/-! ## What is visited -/

theorem visits_reach (h : visits next n seen queue = some (.ok order)) :
    ∀ a ∈ order, a ∉ seen ∧ Reach next queue a := by
  induction n generalizing seen queue order with
  | zero => simp at h
  | succ n ih =>
    cases queue with
    | nil =>
      obtain rfl : [] = order := by simpa using h
      simp
    | cons x queue =>
      have hmore : ∀ a ∈ queue, a ∈ x :: queue := fun a ha => List.mem_cons_of_mem _ ha
      by_cases hx : x ∈ seen
      · rw [visits_seen hx] at h
        intro a ha
        obtain ⟨hns, hr⟩ := ih h a ha
        exact ⟨hns, hr.mono hmore fun a bs hbs => ⟨bs, hbs, fun _ hb => hb⟩⟩
      · obtain ⟨bs, rest, hbs, hrest, rfl⟩ := (visits_new_ok hx).mp h
        intro a ha
        cases ha with
        | head => exact ⟨hx, .root (by simp)⟩
        | tail _ ha =>
          obtain ⟨hns, hr⟩ := ih hrest a ha
          refine ⟨fun hs => hns (List.mem_cons_of_mem _ hs), hr.mem_of_closed ?_ fun _ _ h hbs _ hb => .step h hbs hb⟩
          intro b hb
          obtain hb | hb := List.mem_append.mp hb
          · exact .root (hmore b hb)
          · exact .step (.root (by simp)) hbs hb

/-- What was seen and what is visited are together closed, and have the queue. -/
theorem visits_closed (h : visits next n seen queue = some (.ok order)) :
    (∀ a ∈ queue, a ∈ seen ∨ a ∈ order) ∧
      ∀ a ∈ order, ∃ bs, next a = .ok bs ∧ ∀ b ∈ bs, b ∈ seen ∨ b ∈ order := by
  induction n generalizing seen queue order with
  | zero => simp at h
  | succ n ih =>
    cases queue with
    | nil =>
      obtain rfl : [] = order := by simpa using h
      simp
    | cons x queue =>
      by_cases hx : x ∈ seen
      · rw [visits_seen hx] at h
        obtain ⟨hqueue, horder⟩ := ih h
        exact ⟨List.forall_mem_cons.mpr ⟨.inl hx, hqueue⟩, horder⟩
      · obtain ⟨bs, rest, hbs, hrest, rfl⟩ := (visits_new_ok hx).mp h
        obtain ⟨hqueue, horder⟩ := ih hrest
        have hsplit : ∀ {b}, b ∈ x :: seen ∨ b ∈ rest → b ∈ seen ∨ b ∈ x :: rest := by
          intro b hb
          simp only [List.mem_cons] at hb ⊢
          tauto
        constructor
        · refine List.forall_mem_cons.mpr ⟨.inr (by simp), fun b hb => hsplit (hqueue b ?_)⟩
          exact List.mem_append_left _ hb
        · refine List.forall_mem_cons.mpr ⟨⟨bs, hbs, fun b hb => hsplit (hqueue b ?_)⟩, fun b hb => ?_⟩
          · exact List.mem_append_right _ hb
          · obtain ⟨bs', hbs', hin⟩ := horder b hb
            exact ⟨bs', hbs', fun c hc => hsplit (hin c hc)⟩

/-- A traversal from nothing seen visits what is reached. -/
theorem visits_iff_reach (h : visits next n [] roots = some (.ok order)) : a ∈ order ↔ Reach next roots a := by
  constructor
  · exact fun ha => (visits_reach h a ha).2
  · intro hr
    obtain ⟨hroots, horder⟩ := visits_closed h
    refine hr.mem_of_closed (fun b hb => by simpa using hroots b hb) fun b bs hb hbs c hc => ?_
    obtain ⟨bs', hbs', hin⟩ := horder b hb
    rw [hbs] at hbs'
    cases hbs'
    simpa using hin c hc

/-- A traversal fails where something reached does. -/
theorem visits_error {e : ε} (h : visits next n seen queue = some (.error e)) :
    ∃ a, Reach next queue a ∧ next a = .error e := by
  induction n generalizing seen queue with
  | zero => simp at h
  | succ n ih =>
    cases queue with
    | nil => simp at h
    | cons x queue =>
      have hmore : ∀ {a}, Reach next queue a → Reach next (x :: queue) a := fun hr =>
        hr.mono (fun a ha => List.mem_cons_of_mem _ ha) fun a bs hbs => ⟨bs, hbs, fun _ hb => hb⟩
      by_cases hx : x ∈ seen
      · rw [visits_seen hx] at h
        obtain ⟨a, hr, ha⟩ := ih h
        exact ⟨a, hmore hr, ha⟩
      · cases hbs : next x with
        | error e' =>
          rw [visits_failed hx hbs] at h
          cases h
          exact ⟨x, .root (by simp), hbs⟩
        | ok bs =>
          rw [visits_new hx hbs] at h
          obtain ⟨r, hv, hr⟩ := Option.map_eq_some_iff.mp h
          cases r with
          | ok rest => cases hr
          | error e' =>
            cases hr
            obtain ⟨a, hr, ha⟩ := ih hv
            refine ⟨a, hr.mem_of_closed (fun b hb => ?_) fun _ _ h hbs _ hb => .step h hbs hb, ha⟩
            obtain hb | hb := List.mem_append.mp hb
            · exact hmore (.root hb)
            · exact .step (.root (by simp)) hbs hb

/-! ## Termination -/

/-- The number of successors of a node. -/
def width (next : α → Except ε (List α)) (a : α) : Nat := match next a with
  | .ok bs => bs.length
  | .error _ => 0

/-- Steps that the nodes of `U` not yet seen can still add. -/
def pending (next : α → Except ε (List α)) (U : Finset α) (seen : List α) : Nat :=
  ∑ a ∈ U.filter (· ∉ seen), (width next a)

theorem pending_cons {U : Finset α} (hU : a ∈ U) (hs : a ∉ seen) :
    pending next U seen = width next a + pending next U (a :: seen) := by
  have hsplit : U.filter (· ∉ seen) = insert a (U.filter (· ∉ a :: seen)) := by
    ext b
    simp only [Finset.mem_filter, Finset.mem_insert, List.mem_cons, not_or]
    constructor
    · exact fun ⟨hb, hn⟩ => (em (b = a)).imp_right fun hne => ⟨hb, hne, hn⟩
    · rintro (rfl | ⟨hb, -, hn⟩)
      · exact ⟨hU, hs⟩
      · exact ⟨hb, hn⟩
  rw [pending, hsplit, Finset.sum_insert (by simp)]
  rfl

/-- In a finite graph the traversal ends: the queue has at most the roots and the successors of each node. -/
theorem visits_isSome {U : Finset α} (hnext : ∀ a ∈ U, ∀ bs, next a = .ok bs → ∀ b ∈ bs, b ∈ U)
    (hqueue : ∀ a ∈ queue, a ∈ U) (hn : queue.length + pending next U seen < n) :
    (visits next n seen queue).isSome := by
  induction n generalizing seen queue with
  | zero => simp at hn
  | succ n ih =>
    cases queue with
    | nil => simp
    | cons x queue =>
      obtain ⟨hxU, hqU⟩ := List.forall_mem_cons.mp hqueue
      by_cases hx : x ∈ seen
      · rw [visits_seen hx]
        apply ih hqU
        simp only [List.length_cons] at hn
        omega
      · cases hbs : next x with
        | error e => simp [visits_failed hx hbs]
        | ok bs =>
          rw [visits_new hx hbs, Option.isSome_map]
          apply ih
          · intro b hb
            exact (List.mem_append.mp hb).elim (hqU b) (hnext x hxU bs hbs b)
          · rw [pending_cons hxU hx] at hn
            simp only [width, hbs, List.length_cons, List.length_append] at hn ⊢
            omega

end

end Worklist
