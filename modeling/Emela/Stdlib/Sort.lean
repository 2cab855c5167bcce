import Mathlib
import Emela.Stdlib.Core

/-!
# Sorting a list

`sort_by` of `list.emel`: neighbouring runs are merged until one is left. The runs of one pass come out over an
accumulator, as the elements of one merge do.
-/

namespace Emela.Stdlib.Lists

open Std

variable {A : Type} {f : A → A → Ordering} {xs ys zs : List A}

/-! ## The code -/

/-- Takes from `xs` unless its head is greater. -/
def mergeOnto (f : A → A → Ordering) : List A → List A → List A → List A
  | [], ys, acc => reverseOnto acc ys
  | x :: xs, [], acc => reverseOnto acc (x :: xs)
  | x :: xs, y :: ys, acc => match f x y with
    | .gt => mergeOnto f (x :: xs) ys (y :: acc)
    | _ => mergeOnto f xs (y :: ys) (x :: acc)
termination_by xs ys => xs.length + ys.length

def mergePairsOnto (f : A → A → Ordering) : List (List A) → List (List A) → List (List A)
  | a :: b :: rest, acc => mergePairsOnto f rest (mergeOnto f a b [] :: acc)
  | [a], acc => reverse (a :: acc)
  | [], acc => reverse acc

theorem length_mergePairsOnto (f : A → A → Ordering) : ∀ runs acc : List (List A),
    (mergePairsOnto f runs acc).length = acc.length + (runs.length + 1) / 2
  | [], acc => by simp [mergePairsOnto]
  | [a], acc => by simp [mergePairsOnto]
  | a :: b :: rest, acc => by
    rw [mergePairsOnto, length_mergePairsOnto f rest]
    simp only [List.length_cons]
    omega

def mergeAll (f : A → A → Ordering) : List (List A) → List A
  | [] => []
  | [run] => run
  | a :: b :: rest => mergeAll f (mergePairsOnto f (a :: b :: rest) [])
termination_by runs => runs.length
decreasing_by
  rw [length_mergePairsOnto]
  simp only [List.length_nil, List.length_cons]
  omega

/-- `List.sort_by`. -/
def sortBy (xs : List A) (f : A → A → Ordering) : List A := mergeAll f (map xs fun x => [x])

/-! ## Rearranging -/

/-- No element is greater than a later one. -/
def Sorted (f : A → A → Ordering) (xs : List A) : Prop := xs.Pairwise fun x y => (f x y).isLE

instance (f : A → A → Ordering) (xs : List A) : Decidable (Sorted f xs) :=
  inferInstanceAs (Decidable (xs.Pairwise fun x y => (f x y).isLE))

/-- The elements of `ys` are those of `xs`, and the ones that compare equal to an element stand in the order of `xs`. -/
structure Rearranges (f : A → A → Ordering) (xs ys : List A) : Prop where
  perm : ys.Perm xs
  stable : ∀ a, ys.filter (f a · == .eq) = xs.filter (f a · == .eq)

theorem Rearranges.refl (f : A → A → Ordering) (xs : List A) : Rearranges f xs xs := ⟨.refl xs, fun _ => rfl⟩

theorem Rearranges.trans (h : Rearranges f xs ys) (h' : Rearranges f ys zs) : Rearranges f xs zs :=
  ⟨h'.perm.trans h.perm, fun a => (h'.stable a).trans (h.stable a)⟩

theorem Rearranges.append {xs' ys' : List A} (h : Rearranges f xs ys) (h' : Rearranges f xs' ys') :
    Rearranges f (xs ++ xs') (ys ++ ys') where
  perm := h.perm.append h'.perm
  stable a := by rw [List.filter_append, List.filter_append, h.stable, h'.stable]

/-! ## One merge -/

theorem mergeOnto_eq (f : A → A → Ordering) (xs ys acc : List A) :
    mergeOnto f xs ys acc = acc.reverse ++ xs.merge ys fun x y => (f x y).isLE := by
  fun_induction mergeOnto f xs ys acc with
  | case1 ys acc => simp
  | case2 x xs acc => simp
  | case3 x xs y ys acc h ih => simp [ih, h]
  | case4 x xs y ys acc h ih =>
    have hle : (f x y).isLE := Ordering.isLE_iff_ne_gt.mpr h
    simp [ih, hle]

section
variable [TransCmp f]

theorem sorted_mergeOnto (hxs : Sorted f xs) (hys : Sorted f ys) : Sorted f (mergeOnto f xs ys []) := by
  rw [mergeOnto_eq]
  apply List.pairwise_merge _ _ xs ys hxs hys
  · exact fun x y z hxy hyz => TransCmp.isLE_trans hxy hyz
  · intro x y
    have hswap : f y x = (f x y).swap := OrientedCmp.eq_swap
    rw [hswap]
    cases f x y <;> rfl

/-- When the head of `ys` goes first, nothing in `xs` compares equal to it. -/
theorem filter_eq_nil_of_gt {a x y : A} (hxs : Sorted f (x :: xs)) (hgt : ¬(f x y).isLE) (hy : f a y = .eq) :
    (x :: xs).filter (f a · == .eq) = [] := by
  rw [List.filter_eq_nil_iff]
  intro z hz hza
  rw [beq_iff_eq] at hza
  have hzy : f z y = .eq := (TransCmp.congr_left hza).symm.trans hy
  apply hgt
  rcases List.mem_cons.mp hz with rfl | hz
  · rw [hzy]
    rfl
  · exact TransCmp.isLE_trans (List.rel_of_pairwise_cons hxs hz) (by rw [hzy]; rfl)

theorem filter_merge (hxs : Sorted f xs) (ys : List A) (a : A) :
    (xs.merge ys fun x y => (f x y).isLE).filter (f a · == .eq) =
      xs.filter (f a · == .eq) ++ ys.filter (f a · == .eq) := by
  induction xs generalizing ys with
  | nil => simp
  | cons x xs ihx =>
    induction ys with
    | nil => simp
    | cons y ys ihy =>
      rw [List.cons_merge_cons]
      split
      · rw [List.filter_cons, List.filter_cons, ihx hxs.tail (y :: ys)]
        split <;> rfl
      · next hgt =>
        rw [List.filter_cons, ihy, @List.filter_cons _ _ ys]
        split
        · next hy =>
          rw [filter_eq_nil_of_gt hxs hgt (beq_iff_eq.mp hy)]
          rfl
        · rfl

theorem rearranges_mergeOnto (hxs : Sorted f xs) (ys : List A) : Rearranges f (xs ++ ys) (mergeOnto f xs ys []) := by
  rw [mergeOnto_eq, List.reverse_nil, List.nil_append]
  refine ⟨List.merge_perm_append _, fun a => ?_⟩
  rw [List.filter_append]
  exact filter_merge hxs ys a

/-! ## One pass -/

omit [TransCmp f] in
theorem mergePairsOnto_acc (f : A → A → Ordering) : ∀ runs acc : List (List A),
    mergePairsOnto f runs acc = acc.reverse ++ mergePairsOnto f runs []
  | [], acc => by simp [mergePairsOnto]
  | [a], acc => by simp [mergePairsOnto]
  | a :: b :: rest, acc => by
    rw [mergePairsOnto, mergePairsOnto, mergePairsOnto_acc f rest, mergePairsOnto_acc f rest [_]]
    simp

theorem sorted_mergePairsOnto : ∀ {runs : List (List A)}, (∀ run ∈ runs, Sorted f run) →
    ∀ run ∈ mergePairsOnto f runs [], Sorted f run
  | [], h => h
  | [a], h => h
  | a :: b :: rest, h => by
    rw [mergePairsOnto, mergePairsOnto_acc]
    simp only [List.forall_mem_cons] at h
    obtain ⟨ha, hb, hrest⟩ := h
    exact List.forall_mem_cons.mpr ⟨sorted_mergeOnto ha hb, sorted_mergePairsOnto hrest⟩

theorem rearranges_mergePairsOnto : ∀ {runs : List (List A)}, (∀ run ∈ runs, Sorted f run) →
    Rearranges f runs.flatten (mergePairsOnto f runs []).flatten
  | [], _ => .refl f []
  | [a], _ => .refl f [a].flatten
  | a :: b :: rest, h => by
    rw [mergePairsOnto, mergePairsOnto_acc]
    simp only [List.forall_mem_cons] at h
    obtain ⟨ha, -, hrest⟩ := h
    rw [List.flatten_cons, List.flatten_cons, ← List.append_assoc]
    exact (rearranges_mergeOnto ha b).append (rearranges_mergePairsOnto hrest)

/-! ## All passes -/

theorem mergeAll_sorts {runs : List (List A)} (h : ∀ run ∈ runs, Sorted f run) :
    Sorted f (mergeAll f runs) ∧ Rearranges f runs.flatten (mergeAll f runs) := by
  induction runs using mergeAll.induct f with
  | case1 =>
    rw [mergeAll]
    exact ⟨.nil, .refl f []⟩
  | case2 run =>
    rw [mergeAll, List.flatten_cons, List.flatten_nil, List.append_nil]
    exact ⟨h run List.mem_cons_self, .refl f run⟩
  | case3 a b rest ih =>
    rw [mergeAll]
    obtain ⟨hsorted, hrearranges⟩ := ih (sorted_mergePairsOnto h)
    exact ⟨hsorted, (rearranges_mergePairsOnto h).trans hrearranges⟩

/-- The list is a permutation of the given one, sorted, with the elements that compare equal in their order. -/
theorem sortBy_sorts (f : A → A → Ordering) [TransCmp f] (xs : List A) :
    Rearranges f xs (sortBy xs f) ∧ Sorted f (sortBy xs f) := by
  have hruns : ∀ run ∈ map xs fun x => [x], Sorted f run := by
    simp [Sorted]
  obtain ⟨hsorted, hrearranges⟩ := mergeAll_sorts hruns
  refine ⟨?_, hsorted⟩
  rwa [map_eq, ← List.flatMap_def, List.flatMap_singleton', ← map_eq] at hrearranges

end

/-- By its first component, `(2, 'a')` stays before `(2, 'c')`. -/
theorem sortBy_sorts_pairs :
    let f : Nat × Char → Nat × Char → Ordering := compareOn Prod.fst
    let xs := [(2, 'a'), (1, 'b'), (2, 'c')]
    (Rearranges f xs (sortBy xs f) ∧ Sorted f (sortBy xs f)) ∧ sortBy xs f = [(1, 'b'), (2, 'a'), (2, 'c')] :=
  ⟨sortBy_sorts _ _, by decide +kernel⟩

end Emela.Stdlib.Lists
