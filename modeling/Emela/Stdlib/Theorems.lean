import Emela.Stdlib.Lemmas.Operations

/-!
# Maps are balanced search trees and agree with finite maps

Rotations keep the entries whatever the sizes are, so only building from a list depends on the number of
entries. The balance also depends on the multiples of the sizes.
-/

namespace Emela.Stdlib

open Assoc

variable {K V : Type} [Ord K]

namespace Expr

theorem Fits.counts {e : Expr K V} (h : e.Fits) : e.Counts := by
  induction e with
  | empty => trivial
  | fromList pairs => trivial
  | insert e key value ih => exact ih h.1
  | remove e key ih => exact ih h.1
  | update e key f ih => exact ih h.1
  | filter e f ih => exact ⟨ih h.1, h.2⟩
  | union a b iha ihb => exact ⟨iha h.1, ihb h.2.1, h.2.2⟩
  | mapValues e f ih => exact ih h

variable [Std.TransOrd K]

/-- What an expression makes. -/
structure Makes (e : Expr K V) (m : Map K V) : Prop where
  run : e.run = some m
  ascending : Ascending m.toList
  entry : ∀ k, entryAt k m.toList = e.model k

theorem makes (e : Expr K V) (h : e.Counts) : ∃ m, e.Makes m := by
  induction e with
  | empty => exact ⟨.Empty, rfl, .nil, fun _ => rfl⟩
  | fromList pairs => exact ⟨_, rfl, Map.ascending_fromList pairs, Map.entryAt_fromList pairs⟩
  | insert e key value ih =>
    obtain ⟨m, hm⟩ := ih h
    refine ⟨m.insert key value, by simp [run, hm.run], ?_, fun k => ?_⟩
    · rw [Map.toList_insert hm.ascending]
      exact ascending_put hm.ascending
    · rw [Map.toList_insert hm.ascending, entryAt_put hm.ascending, hm.entry, model]
  | remove e key ih =>
    obtain ⟨m, hm⟩ := ih h
    refine ⟨m.remove key, by simp [run, hm.run], ?_, fun k => ?_⟩
    · rw [Map.toList_remove hm.ascending]
      exact ascending_erase hm.ascending
    · rw [Map.toList_remove hm.ascending, entryAt_erase hm.ascending, hm.entry, model]
  | update e key f ih =>
    obtain ⟨m, hm⟩ := ih h
    refine ⟨m.update key f, by simp [run, hm.run], Map.ascending_update hm.ascending key f, fun k => ?_⟩
    rw [Map.entryAt_update hm.ascending, hm.entry, hm.entry, model]
  | filter e f ih =>
    obtain ⟨m, hm⟩ := ih h.1
    obtain ⟨t, ht, htl, -⟩ := Map.filter_spec f (h.2 m hm.run)
    refine ⟨t, by simp [run, hm.run, ht], htl ▸ ascending_filter hm.ascending _, fun k => ?_⟩
    rw [htl, entryAt_filter hm.ascending, hm.entry]
    rfl
  | union a b iha ihb =>
    obtain ⟨s, hs⟩ := iha h.1
    obtain ⟨t, ht⟩ := ihb h.2.1
    have hlen := Map.length_union hs.ascending ht.ascending ▸ h.2.2 s t hs.run ht.run
    obtain ⟨u, hu, hul, -⟩ := Map.union_spec hlen
    refine ⟨u, by simp [run, hs.run, ht.run, hu], hul ▸ ascending_merge hs.ascending ht.ascending, fun k => ?_⟩
    rw [hul, entryAt_merge hs.ascending ht.ascending, hs.entry, ht.entry, model]
  | mapValues e f ih =>
    obtain ⟨m, hm⟩ := ih h
    refine ⟨m.mapValues f, by simp [run, hm.run], ?_, fun k => ?_⟩
    · rw [Map.toList_mapValues]
      exact ascending_map hm.ascending f
    · rw [Map.toList_mapValues, entryAt_map, hm.entry]
      rfl

theorem weighted {e : Expr K V} (h : e.Fits) {m : Map K V} (hm : e.Makes m) : m.Weighted := by
  induction e with
  | empty =>
    obtain rfl := Option.some.inj hm.run
    exact .empty
  | fromList pairs =>
    obtain rfl := Option.some.inj hm.run
    exact Map.weighted_fromList pairs h
  | insert e key value ih =>
    obtain ⟨t, ht⟩ := e.makes h.1.counts
    obtain rfl : t.insert key value = m := by simpa [run, ht.run] using hm.run
    exact Map.weighted_insert (ih h.1 ht) ht.ascending (h.2 t ht.run) key value
  | remove e key ih =>
    obtain ⟨t, ht⟩ := e.makes h.1.counts
    obtain rfl : t.remove key = m := by simpa [run, ht.run] using hm.run
    exact Map.weighted_remove (ih h.1 ht) ht.ascending (h.2 t ht.run) key
  | update e key f ih =>
    obtain ⟨t, ht⟩ := e.makes h.1.counts
    obtain rfl : t.update key f = m := by simpa [run, ht.run] using hm.run
    exact Map.weighted_update (ih h.1 ht) ht.ascending (h.2 t ht.run) key f
  | filter e f ih =>
    obtain ⟨t, ht⟩ := e.makes h.1.counts
    obtain ⟨u, hu, -, hw⟩ := Map.filter_spec f (h.2 t ht.run)
    obtain rfl : u = m := by simpa [run, ht.run, hu] using hm.run
    exact hw
  | union a b iha ihb =>
    obtain ⟨s, hs⟩ := a.makes h.1.counts
    obtain ⟨t, ht⟩ := b.makes h.2.1.counts
    have hlen := Map.length_union hs.ascending ht.ascending ▸ h.2.2 s t hs.run ht.run
    obtain ⟨u, hu, -, hw, -⟩ := Map.union_spec hlen
    obtain rfl : u = m := by simpa [run, hs.run, ht.run, hu] using hm.run
    exact hw
  | mapValues e f ih =>
    obtain ⟨t, ht⟩ := e.makes h.counts
    obtain rfl : t.mapValues f = m := by simpa [run, ht.run] using hm.run
    exact Map.weighted_mapValues (ih h ht) f

end Expr

variable [Std.TransOrd K]

/-! ## Many keys -/

/-- The `n` keys from `start` on. -/
def pairsFrom (start : Int) (n : Nat) : List (Int × Unit) := (List.range n).map fun i : Nat => (start + i, ())

theorem length_pairsFrom (start : Int) (n : Nat) : (pairsFrom start n).length = n := by simp [pairsFrom]

theorem mem_pairsFrom {start : Int} {n : Nat} {p : Int × Unit} (h : p ∈ pairsFrom start n) :
    start ≤ p.1 ∧ p.1 < start + n := by
  obtain ⟨i, hi, rfl⟩ := List.mem_map.mp h
  have := List.mem_range.mp hi
  exact ⟨by simp only; omega, by simp only; omega⟩

theorem ascending_pairsFrom (start : Int) (n : Nat) : Ascending (pairsFrom start n) := by
  refine List.pairwise_map.mpr (List.pairwise_lt_range.imp fun h => ?_)
  simpa [Int.compare_eq_lt] using h

/-- Keys inserted in their order stay in it. -/
theorem Map.toList_fromList {pairs : List (K × V)} (h : Ascending pairs) : (Map.fromList pairs).toList = pairs := by
  induction pairs using List.reverseRecOn with
  | nil => rfl
  | append_singleton pairs p ih =>
    obtain ⟨hp, -, hlast, -⟩ := ascending_append.mp h
    rw [fromList_concat, toList_insert (ascending_fromList pairs), ih hp]
    have hgt : ∀ q ∈ pairs, compare p.1 q.1 = .gt := fun q hq => Std.OrientedCmp.gt_of_lt (hlast q hq)
    have happend : put p.1 p.2 (pairs ++ []) = pairs ++ put p.1 p.2 [] := put_append_of_gt hgt []
    simpa [put] using happend

/-- The union of two maps whose keys follow each other. -/
theorem Map.union_pairsFrom (start : Int) (a b : Nat) (h : a + b < 2 ^ 31) :
    ∃ t, (Map.fromList (pairsFrom start a)).union (Map.fromList (pairsFrom (start + a) b)) = some t ∧
      t.toList = pairsFrom start a ++ pairsFrom (start + a) b ∧ Ascending t.toList ∧ t.Weighted ∧ t.Halved := by
  have hmerge : merge (Map.fromList (pairsFrom start a)).toList (Map.fromList (pairsFrom (start + a) b)).toList =
      pairsFrom start a ++ pairsFrom (start + a) b := by
    rw [toList_fromList (ascending_pairsFrom _ _), toList_fromList (ascending_pairsFrom _ _)]
    refine merge_append fun p hp q hq => ?_
    have := mem_pairsFrom hp
    have := mem_pairsFrom hq
    simp [Int.compare_eq_lt]
    omega
  have hlt : (pairsFrom start a ++ pairsFrom (start + a) b).length < 2 ^ 31 := by
    rw [List.length_append, length_pairsFrom, length_pairsFrom]
    exact h
  obtain ⟨t, ht, htl, htw, hth⟩ := union_spec (hmerge ▸ hlt)
  refine ⟨t, ht, htl.trans hmerge, ?_, htw, hth⟩
  rw [htl]
  exact ascending_merge (ascending_fromList _) (ascending_fromList _)

/-! ## Balance -/

/-- As long as no size overflows, a map made by the public operations is a balanced search tree. -/
theorem made_balanced (e : Expr K V) (h : e.Fits) : ∃ m, e.run = some m ∧ m.Ordered ∧ m.Sized ∧ m.Balanced := by
  obtain ⟨m, hm⟩ := e.makes h.counts
  have hw := Expr.weighted h hm
  exact ⟨m, hm.run, Map.ordered_iff.mpr hm.ascending, hw.sized, hw.balanced⟩

theorem made_balanced_inserted : ∃ m, (Expr.insert (.insert .empty 2 'b') (1 : Int) 'a').run = some m ∧
    m.Ordered ∧ m.Sized ∧ m.Balanced := by
  refine made_balanced _ ⟨⟨trivial, ?_⟩, ?_⟩ <;>
  · rintro t ⟨⟩
    exact Map.roomy_of_lt (by decide)

/-- A tree of `2 * n + 1` keys, and a smaller key. -/
def heavy (n : Nat) : Expr Int Unit :=
  .insert (.union (.fromList (pairsFrom 0 n)) (.fromList (pairsFrom n (n + 1)))) (-1) ()

/-- Three times the size of the left side overflows, and the right side, which is not heavy, is rotated. -/
theorem heavy_rotates {n : Nat} (hn : n = 715827883) : ∃ m, (heavy n).run = some m ∧ ¬m.Balanced := by
  obtain ⟨t, ht, htl, hasc, htw, hth⟩ := Map.union_pairsFrom 0 n (n + 1) (by omega)
  rw [Int.zero_add] at ht
  have hpos : ∀ p ∈ t.toList, compare (-1) p.1 = .lt := by
    intro p hp
    rw [htl] at hp
    obtain hp | hp := List.mem_append.mp hp <;>
    · have := mem_pairsFrom hp
      exact Int.compare_eq_lt.mpr (by omega)
  have hlen := congrArg List.length htl
  simp only [List.length_append, length_pairsFrom] at hlen
  cases t with
  | Empty => simp at hlen
  | Node size key value l r =>
    simp only [Map.toList_node', List.length_append, List.length_cons] at hlen
    obtain ⟨hlr, hlh, hrh⟩ := hth
    have hl : (l.insert (-1) ()).toList = (-1, ()) :: l.toList := by
      rw [Map.toList_insert (Map.ascending_left hasc)]
      exact put_of_lt fun q hq => hpos q (by simp [hq])
    have hlw : (l.insert (-1) ()).Weighted := by
      refine Map.weighted_insert htw.left (Map.ascending_left hasc) (Map.roomy_of_halved hlh ?_) _ _
      omega
    have hl' : (l.insert (-1) ()).size.toInt = n + 1 := by
      rw [hlw.size, hl]
      simp only [List.length_cons]
      omega
    have hr' : r.size.toInt = n := by
      rw [htw.right.size]
      omega
    have hheavy : Map.tooHeavy r (l.insert (-1) ()) = true := by
      simp only [Map.tooHeavy, Bool.and_eq_true, decide_eq_true_eq, gt_iff_lt, Int32.lt_iff_toInt_lt, Int32.toInt_add,
        Int32.toInt_mul, hr', hl', hn]
      decide
    cases r with
    | Empty =>
      simp only [Map.toList_empty, List.length_nil] at hlr hlen
      omega
    | Node size' k v inner outer =>
      simp only [Map.toList_node', List.length_append, List.length_cons] at hlr hlen
      obtain ⟨hio, -, -⟩ := hrh
      have hle : outer.toList.length ≤ (2 ^ 31 - 1) / 3 := by omega
      have honce : ¬inner.size ≥ RATIO * outer.size := by
        rw [Map.Weighted.twice_iff htw.right.left htw.right.right hle]
        omega
      refine ⟨.node k v (.node key value (l.insert (-1) ()) inner) outer, ?_, fun hb => ?_⟩
      · simp only [heavy, Expr.run, Option.bind_some, Option.map_some, ht, Map.insert, hpos (key, value) (by simp)]
        rw [Map.balance_right hheavy, Map.rotateLeft_once honce]
      · have hf := hb.1
        unfold Map.Fair at hf
        simp only [Map.toList_node, List.length_append, List.length_cons, hl] at hf
        omega

theorem heavy_unbalanced : ∃ m, (heavy 715827883).run = some m ∧ ¬m.Balanced := heavy_rotates rfl

/-! ## Entries -/

/-- As long as no list is longer than an `Int` counts, a map made by the public operations has the entries of the
finite map, each once and in the order of the keys. -/
theorem made_agrees (e : Expr K V) (h : e.Counts) :
    ∃ m, e.run = some m ∧ (∀ k, m.get k = (e.model k).map Prod.snd ∧ m.contains k = (e.model k).isSome) ∧
      m.toList.Pairwise (fun p q => compare p.1 q.1 = .lt) ∧ (∀ p, p ∈ m.toList ↔ e.model p.1 = some p) ∧
      m.keys = m.toList.map Prod.fst ∧ m.values = m.toList.map Prod.snd ∧
      ∀ (B : Type) (start : B) (f : B → K → V → B),
        m.fold start f = m.toList.foldl (fun b p => f b p.1 p.2) start := by
  obtain ⟨m, hm⟩ := e.makes h
  refine ⟨m, hm.run, fun k => ⟨?_, ?_⟩, hm.ascending, fun p => ?_, m.keys_eq, m.values_eq, fun _ => m.fold_eq⟩
  · rw [Map.get_eq hm.ascending, hm.entry]
  · rw [Map.contains_eq hm.ascending, hm.entry]
  · rw [← hm.entry, entryAt_eq_some hm.ascending]
    simp [Std.ReflOrd.compare_self]

theorem made_agrees_union : ∃ m, (Expr.union (.insert .empty (1 : Int) 'a') (.insert .empty 1 'b')).run = some m ∧
    m.get 1 = some 'a' := by
  have hcounts : (Expr.union (.insert .empty (1 : Int) 'a') (.insert .empty 1 'b')).Counts := by
    refine ⟨trivial, trivial, ?_⟩
    rintro s t ⟨⟩ ⟨⟩
    decide
  obtain ⟨m, hm, hget, -⟩ := made_agrees _ hcounts
  exact ⟨m, hm, (hget 1).1⟩

/-- The union of three maps of `n` keys each. -/
def crowded (n : Nat) : Expr Int Unit :=
  .union (.union (.fromList (pairsFrom 0 n)) (.fromList (pairsFrom n n))) (.fromList (pairsFrom (n + n : Nat) n))

theorem crowded_run {n : Nat} (h : n + n < 2 ^ 31) (h' : 2 ^ 31 ≤ n + n + n) :
    (crowded n).run = some .Empty := by
  obtain ⟨t, ht, htl, -⟩ := Map.union_pairsFrom 0 n n h
  have hlast := Map.toList_fromList (ascending_pairsFrom (n + n : Nat) n)
  have hunion : t.union (Map.fromList (pairsFrom (n + n : Nat) n)) = some .Empty := by
    rw [Map.union, Map.unionOnto_eq, hlast, htl, merge_append, List.reverse_nil, List.nil_append]
    · have hlen : (pairsFrom 0 n ++ pairsFrom (0 + n) n ++ pairsFrom (n + n : Nat) n).length = n + n + n := by
        simp only [List.length_append, length_pairsFrom]
      exact Map.fromSorted_overflow (by omega) (by omega)
    · intro p hp q hq
      have := mem_pairsFrom hq
      have hp' : p.1 < (n + n : Nat) := by
        obtain hp | hp := List.mem_append.mp hp <;>
        · have := mem_pairsFrom hp
          omega
      exact Int.compare_eq_lt.mpr (by omega)
  rw [Int.zero_add] at ht
  simp only [crowded, Expr.run, Option.bind_some, ht, hunion]

theorem crowded_model {n : Nat} (h : 0 < n) : (crowded n).model 0 = some (0, ()) := by
  have hfirst : entryAt 0 (pairsFrom 0 n).reverse = some (0, ()) := by
    rw [← Map.entryAt_fromList, Map.toList_fromList (ascending_pairsFrom 0 n), entryAt_eq_some (ascending_pairsFrom 0 n)]
    exact ⟨List.mem_map.mpr ⟨0, by simp [h], rfl⟩, rfl⟩
  simp [crowded, Expr.model, hfirst]

theorem crowded_loses : ∃ m, (crowded 715827883).run = some m ∧ m.get 0 = none ∧
    (crowded 715827883).model 0 = some (0, ()) :=
  ⟨.Empty, crowded_run (by omega) (by omega), rfl, crowded_model (by omega)⟩

end Emela.Stdlib
