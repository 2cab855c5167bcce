import Mathlib
import Emela.Stdlib.Lemmas.Balance

/-!
# What each operation does to the entries and the weights
-/

namespace Emela.Stdlib.Map

open Assoc

variable {K V W : Type} {m l r : Map K V} {key : K} {value : V}

/-! ## The search tree -/

theorem fromList_concat [Ord K] (pairs : List (K × V)) (p : K × V) :
    fromList (pairs ++ [p]) = (fromList pairs).insert p.1 p.2 := by
  simp [fromList]

section
variable [Ord K] [Std.TransOrd K]

theorem ordered_iff : m.Ordered ↔ Ascending m.toList := by
  induction m with
  | Empty => simp [Ordered, Ascending]
  | Node n key value l r ihl ihr =>
    rw [toList_node', ascending_append, ← ihl, ← ihr, Ordered]
    tauto

theorem ascending_left {n : Int32} (h : Ascending (Node n key value l r).toList) : Ascending l.toList := by
  rw [toList_node', ascending_append] at h
  exact h.1

theorem ascending_right {n : Int32} (h : Ascending (Node n key value l r).toList) : Ascending r.toList := by
  rw [toList_node', ascending_append] at h
  exact h.2.1

theorem toList_insert (h : Ascending m.toList) (key : K) (value : V) :
    (m.insert key value).toList = put key value m.toList := by
  induction m with
  | Empty => rfl
  | Node n nodeKey nodeValue l r ihl ihr =>
    have hl : ∀ p ∈ l.toList, compare p.1 nodeKey = .lt := (ordered_iff.mpr h).1
    cases hk : compare key nodeKey with
    | lt => simp only [insert, hk, toList_balance, ihl (ascending_left h), toList_node', put_append_lt hk]
    | gt => simp only [insert, hk, toList_balance, ihr (ascending_right h), toList_node', put_append_gt hl hk]
    | eq => simp only [insert, hk, toList_node', put_append_eq hl hk]

theorem toList_remove (h : Ascending m.toList) (key : K) : (m.remove key).toList = erase key m.toList := by
  induction m with
  | Empty => rfl
  | Node n nodeKey nodeValue l r ihl ihr =>
    have hl : ∀ p ∈ l.toList, compare p.1 nodeKey = .lt := (ordered_iff.mpr h).1
    cases hk : compare key nodeKey with
    | lt => simp only [remove, hk, toList_balance, ihl (ascending_left h), toList_node', erase_append_lt hk]
    | gt => simp only [remove, hk, toList_balance, ihr (ascending_right h), toList_node', erase_append_gt hl hk]
    | eq => simp only [remove, hk, toList_glue, toList_node', erase_append_eq hl hk]

theorem get_eq (h : Ascending m.toList) (key : K) : m.get key = (entryAt key m.toList).map Prod.snd := by
  induction m with
  | Empty => rfl
  | Node n nodeKey nodeValue l r ihl ihr =>
    obtain ⟨hl, hr, -, -⟩ := ordered_iff.mpr h
    cases hk : compare key nodeKey with
    | lt => simp only [get, hk, ihl (ascending_left h), toList_node', entryAt_append_lt hr hk]
    | gt => simp only [get, hk, ihr (ascending_right h), toList_node', entryAt_append_gt hl hk]
    | eq => simp only [get, hk, toList_node', entryAt_append_eq hl hk, Option.map_some]

theorem contains_eq (h : Ascending m.toList) (key : K) : m.contains key = (entryAt key m.toList).isSome := by
  rw [contains, get_eq h, Option.isSome_map]

theorem ascending_fromList (pairs : List (K × V)) : Ascending (fromList pairs).toList := by
  induction pairs using List.reverseRecOn with
  | nil => simp [fromList, empty, Ascending]
  | append_singleton pairs p ih =>
    rw [fromList_concat, toList_insert ih]
    exact ascending_put ih

theorem entryAt_fromList (pairs : List (K × V)) (k : K) :
    entryAt k (fromList pairs).toList = entryAt k pairs.reverse := by
  induction pairs using List.reverseRecOn with
  | nil => rfl
  | append_singleton pairs p ih =>
    rw [fromList_concat, toList_insert (ascending_fromList pairs), entryAt_put (ascending_fromList pairs), ih]
    cases hk : compare k p.1 <;> simp [entryAt, hk]

theorem ascending_update (h : Ascending m.toList) (key : K) (f : Option V → Option V) :
    Ascending (m.update key f).toList := by
  simp only [update]
  split
  · rw [toList_insert h]
    exact ascending_put h
  · rw [toList_remove h]
    exact ascending_erase h

theorem entryAt_update (h : Ascending m.toList) (key : K) (f : Option V → Option V) (k : K) :
    entryAt k (m.update key f).toList =
      if compare k key = .eq then (f ((entryAt key m.toList).map Prod.snd)).map fun value => (key, value)
      else entryAt k m.toList := by
  simp only [update, get_eq h]
  split
  · next value hf => rw [toList_insert h, entryAt_put h, hf, Option.map_some]
  · next hf => rw [toList_remove h, entryAt_erase h, hf, Option.map_none]

end

/-! ## Weights -/

theorem roomy_of_lt (h : m.toList.length < (2 ^ 31 - 1) / 3) : m.Roomy := by
  cases m with
  | Empty => trivial
  | Node n key value l r =>
    simp only [toList_node', List.length_append, List.length_cons] at h
    exact ⟨by omega, by omega⟩

section
variable [Ord K] [Std.TransOrd K]

theorem weighted_insert (h : m.Weighted) (ha : Ascending m.toList) (hr : m.Roomy) (key : K) (value : V) :
    (m.insert key value).Weighted := by
  induction m with
  | Empty => exact Weighted.empty.node .empty (Or.inl (by simp)) (by simp) key value
  | Node n nodeKey nodeValue l r ihl ihr =>
    obtain ⟨hln, hrn⟩ := hr
    have hf := h.balanced.1
    cases hk : compare key nodeKey with
    | lt =>
      have hlen := congrArg List.length (toList_insert (ascending_left ha) key value)
      have hput := length_put key value l.toList
      simp only [insert, hk]
      refine (ihl h.left (ascending_left ha) (roomy_of_lt hln)).balance h.right (by omega) (by omega) ?_ _ _
      exact ⟨_, _, hf, by omega⟩
    | gt =>
      have hlen := congrArg List.length (toList_insert (ascending_right ha) key value)
      have hput := length_put key value r.toList
      simp only [insert, hk]
      refine h.left.balance (ihr h.right (ascending_right ha) (roomy_of_lt hrn)) (by omega) (by omega) ?_ _ _
      exact ⟨_, _, hf, by omega⟩
    | eq =>
      simp only [insert, hk]
      exact ⟨⟨by simpa using h.sized.1, h.sized.2⟩, h.balanced⟩

end

/-- The node without its smallest key. -/
theorem weighted_removeMin (hl : l.Weighted) (hr : r.Weighted) (hf : Fair l.toList.length r.toList.length)
    (hlm : l.toList.length ≤ (2 ^ 31 - 1) / 3) (hrm : r.toList.length ≤ (2 ^ 31 - 1) / 3) (key : K) (value : V) :
    (removeMin key value l r).2.2.Weighted := by
  induction l generalizing key value r with
  | Empty => exact hr
  | Node n k v ll lr ihl ihr =>
    have hlen := congrArg List.length (toList_removeMin k v ll lr)
    simp only [toList_node', List.length_append, List.length_cons] at hlen hlm hf
    simp only [removeMin]
    refine (ihl hl.left hl.right hl.balanced.1 (by omega) (by omega) k v).balance hr (by omega) hrm ?_ key value
    exact ⟨_, _, hf, by omega⟩

/-- The node without its largest key. -/
theorem weighted_removeMax (hl : l.Weighted) (hr : r.Weighted) (hf : Fair l.toList.length r.toList.length)
    (hlm : l.toList.length ≤ (2 ^ 31 - 1) / 3) (hrm : r.toList.length ≤ (2 ^ 31 - 1) / 3) (key : K) (value : V) :
    (removeMax key value l r).2.2.Weighted := by
  induction r generalizing key value l with
  | Empty => exact hl
  | Node n k v rl rr ihl ihr =>
    have hlen := congrArg List.length (toList_removeMax k v rl rr)
    simp only [toList_node', List.length_append, List.length_cons, List.length_nil] at hlen hrm hf
    simp only [removeMax]
    refine hl.balance (ihr hr.left hr.right hr.balanced.1 (by omega) (by omega) k v) hlm (by omega) ?_ key value
    exact ⟨_, _, hf, by omega⟩

theorem weighted_glue (hl : l.Weighted) (hr : r.Weighted) (hf : Fair l.toList.length r.toList.length)
    (hlm : l.toList.length ≤ (2 ^ 31 - 1) / 3) (hrm : r.toList.length ≤ (2 ^ 31 - 1) / 3) : (glue l r).Weighted := by
  cases l with
  | Empty => exact hr
  | Node n k v ll lr =>
    cases r with
    | Empty => exact hl
    | Node n' k' v' rl rr =>
      have hmin := congrArg List.length (toList_removeMin k' v' rl rr)
      have hmax := congrArg List.length (toList_removeMax k v ll lr)
      simp only [toList_node', List.length_append, List.length_cons, List.length_nil] at hmin hmax hlm hrm hf
      simp only [glue]
      split
      · refine (weighted_removeMax hl.left hl.right hl.balanced.1 (by omega) (by omega) k v).balance hr (by omega)
          (by simp; omega) ?_ _ _
        exact ⟨_, _, hf, by simp; omega⟩
      · refine hl.balance (weighted_removeMin hr.left hr.right hr.balanced.1 (by omega) (by omega) k' v') (by simp; omega)
          (by omega) ?_ _ _
        exact ⟨_, _, hf, by simp; omega⟩

section
variable [Ord K] [Std.TransOrd K]

theorem weighted_remove (h : m.Weighted) (ha : Ascending m.toList) (hr : m.Roomy) (key : K) :
    (m.remove key).Weighted := by
  induction m with
  | Empty => exact h
  | Node n nodeKey nodeValue l r ihl ihr =>
    obtain ⟨hln, hrn⟩ := hr
    have hf := h.balanced.1
    cases hk : compare key nodeKey with
    | lt =>
      have hlen := congrArg List.length (toList_remove (ascending_left ha) key)
      have herase := length_erase key l.toList
      simp only [remove, hk]
      refine (ihl h.left (ascending_left ha) (roomy_of_lt hln)).balance h.right (by omega) (by omega) ?_ _ _
      exact ⟨_, _, hf, by omega⟩
    | gt =>
      have hlen := congrArg List.length (toList_remove (ascending_right ha) key)
      have herase := length_erase key r.toList
      simp only [remove, hk]
      refine h.left.balance (ihr h.right (ascending_right ha) (roomy_of_lt hrn)) (by omega) (by omega) ?_ _ _
      exact ⟨_, _, hf, by omega⟩
    | eq =>
      simp only [remove, hk]
      exact weighted_glue h.left h.right hf (by omega) (by omega)

theorem weighted_update (h : m.Weighted) (ha : Ascending m.toList) (hr : m.Roomy) (key : K)
    (f : Option V → Option V) : (m.update key f).Weighted := by
  simp only [update]
  split
  · exact weighted_insert h ha hr key _
  · exact weighted_remove h ha hr key

theorem weighted_fromList (pairs : List (K × V)) (hr : ∀ n < pairs.length, (fromList (pairs.take n)).Roomy) :
    (fromList pairs).Weighted := by
  induction pairs using List.reverseRecOn with
  | nil => exact .empty
  | append_singleton pairs p ih =>
    rw [fromList_concat]
    have hlast := hr pairs.length (by simp)
    rw [List.take_left] at hlast
    refine weighted_insert (ih fun n hn => ?_) (ascending_fromList pairs) hlast p.1 p.2
    have hprev := hr n (by simp; omega)
    rwa [List.take_append_of_le_length (by omega)] at hprev

end

theorem weighted_mapValues (h : m.Weighted) (f : V → W) : (m.mapValues f).Weighted := by
  induction m with
  | Empty => exact .empty
  | Node n key value l r ihl ihr =>
    have hl := ihl h.left
    have hr := ihr h.right
    refine ⟨⟨?_, hl.sized, hr.sized⟩, ?_, hl.balanced, hr.balanced⟩
    · simpa using h.sized.1
    · simpa using h.balanced.1

/-! ## Lists of pairs -/

/-- The sides of each node differ by one entry at most. -/
def Halved : Map K V → Prop
  | Empty => True
  | Node _ _ _ l r => (l.toList.length = r.toList.length ∨ l.toList.length + 1 = r.toList.length) ∧ Halved l ∧ Halved r

theorem roomy_of_halved (h : m.Halved) (hlt : m.toList.length < 2 * ((2 ^ 31 - 1) / 3)) : m.Roomy := by
  cases m with
  | Empty => trivial
  | Node n key value l r =>
    obtain ⟨hlr, -, -⟩ := h
    simp only [toList_node', List.length_append, List.length_cons] at hlt
    exact ⟨by omega, by omega⟩

/-- What building makes of the two halves. -/
theorem build_node {count : Int32} {pairs after remaining : List (K × V)} (hz : ¬count ≤ 0)
    (hleft : build pairs ((count - 1) / 2) = some (l, (key, value) :: after))
    (hright : build after (count - 1 - (count - 1) / 2) = some (r, remaining)) :
    build pairs count = some (node key value l r, remaining) := by
  rw [build, dif_neg hz]
  simp [hleft, hright]

/-- Building takes no more pairs than there are, and splits them evenly. -/
theorem build_spec (n : Nat) (count : Int32) (pairs : List (K × V)) (hn : count.toInt.toNat = n)
    (hle : n ≤ pairs.length) :
    ∃ m, build pairs count = some (m, pairs.drop n) ∧ m.toList = pairs.take n ∧ m.Weighted ∧ m.Halved := by
  induction n using Nat.strongRecOn generalizing count pairs with
  | ind n ih =>
    by_cases hz : count ≤ 0
    · have hzero : count.toInt ≤ 0 := by simpa [Int32.le_iff_toInt_le] using hz
      obtain rfl : n = 0 := by omega
      rw [build, dif_pos hz]
      exact ⟨Empty, rfl, rfl, .empty, trivial⟩
    · obtain ⟨-, hpos⟩ := toInt_pred hz
      have hhalf := toInt_half hz
      have hrest := toInt_rest hz
      have hlt := count.toInt_lt
      obtain ⟨l, hleft, hll, hlw, hlh⟩ := ih ((n - 1) / 2) (by omega) ((count - 1) / 2) pairs (by omega) (by omega)
      cases hafter : pairs.drop ((n - 1) / 2) with
      | nil =>
        have := List.drop_eq_nil_iff.mp hafter
        omega
      | cons p after =>
        obtain ⟨key, value⟩ := p
        have hlen : after.length + 1 = pairs.length - (n - 1) / 2 := by
          rw [← List.length_drop, hafter, List.length_cons]
        obtain ⟨r, hright, hrl, hrw, hrh⟩ := ih (n - 1 - (n - 1) / 2) (by omega) (count - 1 - (count - 1) / 2) after (by omega)
          (by omega)
        rw [hafter] at hleft
        have hsplit : n = (n - 1) / 2 + (n - 1 - (n - 1) / 2 + 1) := by omega
        have hlle : l.toList.length = (n - 1) / 2 := by
          rw [hll, List.length_take]
          omega
        have hrle : r.toList.length = n - 1 - (n - 1) / 2 := by
          rw [hrl, List.length_take]
          omega
        refine ⟨node key value l r, ?_, ?_, hlw.node hrw ?_ (by omega) key value, ?_, hlh, hrh⟩
        · rw [build_node hz hleft hright]
          conv_rhs => rw [hsplit, ← List.drop_drop, hafter, List.drop_succ_cons]
        · rw [toList_node, hll, hrl]
          conv_rhs => rw [hsplit, List.take_add, hafter, List.take_succ_cons]
        · unfold Fair
          omega
        · omega

theorem fromSorted_spec {pairs : List (K × V)} (h : pairs.length < 2 ^ 31) :
    ∃ m, fromSorted pairs = some m ∧ m.toList = pairs ∧ m.Weighted ∧ m.Halved := by
  have hlen : (Lists.length pairs).toInt.toNat = pairs.length := by
    rw [Lists.toInt_length, bmod_of_fits (by omega) (by omega)]
    rfl
  obtain ⟨m, hm, hml, hmw, hmh⟩ := build_spec pairs.length (Lists.length pairs) pairs hlen (Nat.le_refl _)
  refine ⟨m, by simp [fromSorted, hm], ?_, hmw, hmh⟩
  rw [hml, List.take_length]

/-- The number of the pairs is not a positive `Int`. -/
theorem fromSorted_overflow {pairs : List (K × V)} (h : 2 ^ 31 ≤ pairs.length) (h' : pairs.length ≤ 2 ^ 32) :
    fromSorted pairs = some Empty := by
  have hz : Lists.length pairs ≤ 0 := by
    rw [Int32.le_iff_toInt_le, Lists.toInt_length, Int.bmod_def]
    have hzero : (0 : Int32).toInt = 0 := rfl
    split <;> omega
  rw [fromSorted, build, dif_pos hz]
  rfl

theorem unionOnto_eq [Ord K] (xs ys acc : List (K × V)) : unionOnto xs ys acc = acc.reverse ++ merge xs ys := by
  fun_induction unionOnto xs ys acc with
  | case1 acc ys => simp [merge]
  | case2 acc xs hne =>
    cases xs with
    | nil => simp at hne
    | cons x xs => simp [merge]
  | case3 acc x xs y ys hc ih => simp [ih, merge, hc]
  | case4 acc x xs y ys hc ih => simp [ih, merge, hc]
  | case5 acc x xs y ys hc ih => simp [ih, merge, hc]

theorem filter_spec (f : K → V → Bool) (h : (m.toList.filter fun p => f p.1 p.2).length < 2 ^ 31) :
    ∃ t, m.filter f = some t ∧ t.toList = (m.toList.filter fun p => f p.1 p.2) ∧ t.Weighted := by
  obtain ⟨t, ht, htl, htw, -⟩ := fromSorted_spec h
  exact ⟨t, by rw [filter, Lists.filter_eq]; exact ht, htl, htw⟩

theorem length_union [Ord K] [Std.TransOrd K] {a b : Map K V} (ha : Ascending a.toList) (hb : Ascending b.toList) :
    (merge a.toList b.toList).length =
      a.toList.length + (b.toList.filter fun p => !a.contains p.1).length := by
  simp only [length_merge ha hb, contains_eq ha, Option.not_isSome]

theorem union_spec [Ord K] {a b : Map K V} (h : (merge a.toList b.toList).length < 2 ^ 31) :
    ∃ t, a.union b = some t ∧ t.toList = merge a.toList b.toList ∧ t.Weighted ∧ t.Halved := by
  obtain ⟨t, ht, hspec⟩ := fromSorted_spec h
  exact ⟨t, by rw [union, unionOnto_eq, List.reverse_nil, List.nil_append, ht], hspec⟩

/-! ## Observations -/

theorem fold_eq {B : Type} (m : Map K V) (start : B) (f : B → K → V → B) :
    m.fold start f = m.toList.foldl (fun b p => f b p.1 p.2) start := by
  induction m generalizing start with
  | Empty => rfl
  | Node n key value l r ihl ihr => simp [fold, ihl, ihr]

theorem keys_eq (m : Map K V) : m.keys = m.toList.map Prod.fst := by simp [keys]

theorem values_eq (m : Map K V) : m.values = m.toList.map Prod.snd := by simp [values]

end Emela.Stdlib.Map
