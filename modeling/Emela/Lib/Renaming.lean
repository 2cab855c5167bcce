import Mathlib

/-!
# Renaming bound names

Two texts are read side by side. A scope pairs the bound names of the one with those of the other,
innermost first; a copy that numbers its names anew keeps a table of them.
-/

namespace Renaming

section
variable {α : Type}

/-- The names stand for each other: the innermost binder that takes one of them pairs them, or no binder
takes either and they are equal. -/
def Matches : List (α × α) → α → α → Prop
  | [], x, y => x = y
  | p :: s, x, y => (x = p.1 ∧ y = p.2) ∨ (x ≠ p.1 ∧ y ≠ p.2 ∧ Matches s x y)

theorem matches_of_mem {s : List (α × α)} (hfst : (s.map Prod.fst).Nodup) (hsnd : (s.map Prod.snd).Nodup)
    {x y : α} (h : (x, y) ∈ s) : Matches s x y := by
  induction s with
  | nil => cases h
  | cons p s ih =>
      simp only [List.map_cons, List.nodup_cons] at hfst hsnd
      rcases List.mem_cons.mp h with rfl | h
      · exact .inl ⟨rfl, rfl⟩
      · refine .inr ⟨?_, ?_, ih hfst.2 hsnd.2 h⟩
        · rintro rfl
          exact hfst.1 (List.mem_map.mpr ⟨_, h, rfl⟩)
        · rintro rfl
          exact hsnd.1 (List.mem_map.mpr ⟨_, h, rfl⟩)

theorem matches_free {s : List (α × α)} {x : α} (hfst : x ∉ s.map Prod.fst) (hsnd : x ∉ s.map Prod.snd) :
    Matches s x x := by
  induction s with
  | nil => rfl
  | cons p s ih =>
      simp only [List.map_cons, List.mem_cons, not_or] at hfst hsnd
      exact .inr ⟨hfst.1, hsnd.1, ih hfst.2 hsnd.2⟩

/-- Under new binders: they pair the names, or do not take the one on the left. -/
theorem matches_bind {s : List (α × α)} {xs ys : List α} (hlen : xs.length = ys.length) {x y : α}
    (h : Matches (xs.zip ys ++ s) x y) : y ∈ ys ∨ (x ∉ xs ∧ Matches s x y) := by
  induction xs generalizing ys with
  | nil => exact .inr ⟨by simp, by simpa using h⟩
  | cons x' xs ih =>
      obtain ⟨y', ys, rfl⟩ : ∃ y' ys', ys = y' :: ys' := List.exists_cons_of_length_eq_add_one hlen.symm
      rcases h with ⟨-, rfl⟩ | ⟨hx, -, h⟩
      · exact .inl (List.mem_cons_self ..)
      · rcases ih (by simpa using hlen) h with hy | ⟨hxs, h⟩
        · exact .inl (List.mem_cons_of_mem _ hy)
        · exact .inr ⟨by simp [hx, hxs], h⟩

end

/-- A scope whose names on the right are numbers from `lo` to below `hi`, given out one after another, as
the table says; names from `outer` are free, and smaller than all of these. -/
structure Paired (s : List (Nat × Nat)) (table : Nat → Option Nat) (outer : Nat → Prop) (lo hi : Nat) : Prop where
  bound : ∀ p ∈ s, table p.1 = some p.2
  fst : (s.map Prod.fst).Nodup
  snd : (s.map Prod.snd).Nodup
  range : ∀ p ∈ s, lo ≤ p.2 ∧ p.2 < hi
  free : ∀ x, outer x → x < lo ∧ table x = none ∧ x ∉ s.map Prod.fst

namespace Paired

variable {s : List (Nat × Nat)} {table table' : Nat → Option Nat} {outer : Nat → Prop} {lo hi k : Nat}

/-- Nothing is bound yet. -/
theorem start (h : ∀ x, outer x → x < lo) (hi : Nat) : Paired [] (fun _ => none) outer lo hi :=
  ⟨by simp, by simp, by simp, by simp, fun x hx => ⟨h x hx, rfl, by simp⟩⟩

/-- A name in scope, renamed by the table, stands for itself. -/
theorem matches_getD (h : Paired s table outer lo hi) {x : Nat} (hx : x ∈ s.map Prod.fst ∨ outer x) :
    Matches s x ((table x).getD x) := by
  rcases hx with hx | hx
  · obtain ⟨p, hp, rfl⟩ := List.mem_map.mp hx
    rw [h.bound p hp]
    exact matches_of_mem h.fst h.snd hp
  · obtain ⟨hlo, htable, hfst⟩ := h.free x hx
    rw [htable]
    refine matches_free hfst ?_
    intro hsnd
    obtain ⟨p, hp, rfl⟩ := List.mem_map.mp hsnd
    have := (h.range p hp).1
    omega

/-- The table grows by names that are not in scope. -/
theorem step (h : Paired s table outer lo hi) (hfst : ∀ x ∈ s.map Prod.fst, table' x = table x)
    (houter : ∀ x, outer x → table' x = table x) (hk : hi ≤ k) : Paired s table' outer lo k where
  bound p hp := by
    rw [hfst p.1 (List.mem_map_of_mem hp)]
    exact h.bound p hp
  fst := h.fst
  snd := h.snd
  range p hp := ⟨(h.range p hp).1, lt_of_lt_of_le (h.range p hp).2 hk⟩
  free x hx := by
    rw [houter x hx]
    exact h.free x hx

/-- Names are bound to the next numbers. -/
theorem extend (h : Paired s table outer lo hi) {xs : List Nat} (hxs : xs.Nodup) (hlo : lo ≤ hi)
    (hnew : ∀ x ∈ xs, x ∉ s.map Prod.fst ∧ ¬ outer x)
    (hbound : ∀ p ∈ xs.zip (List.range' hi xs.length), table' p.1 = some p.2)
    (hothers : ∀ x, x ∉ xs → table' x = table x) :
    Paired (xs.zip (List.range' hi xs.length) ++ s) table' outer lo (hi + xs.length) where
  bound p hp := by
    rcases List.mem_append.mp hp with hp | hp
    · exact hbound p hp
    · rw [hothers p.1 fun hx => (hnew p.1 hx).1 (List.mem_map_of_mem hp)]
      exact h.bound p hp
  fst := by
    rw [List.map_append, List.map_fst_zip (by simp), List.nodup_append']
    exact ⟨hxs, h.fst, fun x hx hs => (hnew x hx).1 hs⟩
  snd := by
    rw [List.map_append, List.map_snd_zip (by simp), List.nodup_append']
    refine ⟨List.nodup_range', h.snd, ?_⟩
    intro y hy hs
    obtain ⟨p, hp, rfl⟩ := List.mem_map.mp hs
    have := (h.range p hp).2
    have := (List.mem_range'_1.mp hy).1
    omega
  range p hp := by
    rcases List.mem_append.mp hp with hp | hp
    · have := List.mem_range'_1.mp (List.of_mem_zip hp).2
      omega
    · have := h.range p hp
      omega
  free x hx := by
    obtain ⟨hlt, htable, hfst⟩ := h.free x hx
    have hxs : x ∉ xs := fun hmem => (hnew x hmem).2 hx
    refine ⟨hlt, by rw [hothers x hxs, htable], ?_⟩
    rw [List.map_append, List.map_fst_zip (by simp), List.mem_append, not_or]
    exact ⟨hxs, hfst⟩

end Paired

end Renaming
