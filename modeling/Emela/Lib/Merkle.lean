import Mathlib

/-!
# Merkle trees in the shape of RFC 6962

The tree over `n` leaves splits at the largest power of two below `n`. A range of the leaves is given
by its first index `lo` and its width `n`; the leaves are a function of the index, so that two ranges
of one sequence are compared without cutting lists.
-/

namespace Merkle

/-! ## The split -/

/-- The largest power of two below `n` (for `2 ≤ n`). -/
def split (n : Nat) : Nat := 2 ^ Nat.log2 (n - 1)

theorem split_pos (n : Nat) : 0 < split n := Nat.two_pow_pos _

theorem split_lt {n : Nat} (h : 2 ≤ n) : split n < n := by
  have := Nat.log2_self_le (n := n - 1) (by omega)
  unfold split
  omega

/-- Only one power of two lies in `[n / 2, n)`. -/
theorem split_eq {n m : Nat} (h₁ : 2 ^ m < n) (h₂ : n ≤ 2 ^ (m + 1)) : split n = 2 ^ m := by
  unfold split
  congr 1
  rw [Nat.log2_eq_iff (by have := Nat.two_pow_pos m; omega)]
  omega

theorem split_two_pow (m : Nat) : split (2 ^ (m + 1)) = 2 ^ m :=
  split_eq (by rw [pow_succ]; have := Nat.two_pow_pos m; omega) (Nat.le_refl _)

/-! ## The tree hash -/

section
variable {H : Type*} (node : H → H → H) (leaf : Nat → H)

/-- The tree hash of the leaves `[lo, lo + n)`, for `1 ≤ n`. -/
def rangeHash (lo n : Nat) : H :=
  if n ≤ 1 then leaf lo
  else node (rangeHash lo (split n)) (rangeHash (lo + split n) (n - split n))
termination_by n
decreasing_by
  · exact split_lt (by omega)
  · have := split_pos n; omega

/-- The pairs combined while computing `rangeHash lo n`. -/
def rangePairs (lo n : Nat) : List (H × H) :=
  if n ≤ 1 then []
  else (rangeHash node leaf lo (split n), rangeHash node leaf (lo + split n) (n - split n)) ::
    (rangePairs lo (split n) ++ rangePairs (lo + split n) (n - split n))
termination_by n
decreasing_by
  · exact split_lt (by omega)
  · have := split_pos n; omega

theorem rangeHash_le_one {lo n : Nat} (h : n ≤ 1) : rangeHash node leaf lo n = leaf lo := by
  rw [rangeHash, if_pos h]

theorem rangeHash_split {lo n : Nat} (h : 2 ≤ n) :
    rangeHash node leaf lo n =
      node (rangeHash node leaf lo (split n)) (rangeHash node leaf (lo + split n) (n - split n)) := by
  rw [rangeHash, if_neg (by omega)]

theorem rangePairs_le_one {lo n : Nat} (h : n ≤ 1) : rangePairs node leaf lo n = [] := by
  rw [rangePairs, if_pos h]

theorem rangePairs_split {lo n : Nat} (h : 2 ≤ n) :
    rangePairs node leaf lo n =
      (rangeHash node leaf lo (split n), rangeHash node leaf (lo + split n) (n - split n)) ::
        (rangePairs node leaf lo (split n) ++ rangePairs node leaf (lo + split n) (n - split n)) := by
  rw [rangePairs, if_neg (by omega)]

theorem rangeHash_two_pow (lo m : Nat) :
    rangeHash node leaf lo (2 ^ (m + 1)) =
      node (rangeHash node leaf lo (2 ^ m)) (rangeHash node leaf (lo + 2 ^ m) (2 ^ m)) := by
  rw [rangeHash_split _ _ (by rw [pow_succ]; have := Nat.two_pow_pos m; omega), split_two_pow]
  congr 2
  rw [pow_succ]; omega

/-- A range hash only reads the leaves of its range. -/
theorem rangeHash_congr {leaf' : Nat → H} (lo lo' n : Nat) (hn : 1 ≤ n)
    (h : ∀ i < n, leaf (lo + i) = leaf' (lo' + i)) :
    rangeHash node leaf lo n = rangeHash node leaf' lo' n := by
  induction n using Nat.strong_induction_on generalizing lo lo' with
  | _ n ih =>
    by_cases h1 : n ≤ 1
    · rw [rangeHash_le_one _ _ h1, rangeHash_le_one _ _ h1]
      simpa using h 0 (by omega)
    · have hs := split_pos n
      have hlt := split_lt (n := n) (by omega)
      rw [rangeHash_split node leaf (n := n) (by omega), rangeHash_split node leaf' (n := n) (by omega)]
      congr 1
      · exact ih _ hlt lo lo' hs (fun i hi => h i (by omega))
      · refine ih _ (by omega) _ _ (by omega) (fun i hi => ?_)
        have := h (split n + i) (by omega)
        rwa [← Nat.add_assoc, ← Nat.add_assoc] at this

/-- The pairs combined in a range only depend on the leaves of the range. -/
theorem rangePairs_congr {leaf' : Nat → H} (lo lo' n : Nat)
    (h : ∀ i < n, leaf (lo + i) = leaf' (lo' + i)) :
    rangePairs node leaf lo n = rangePairs node leaf' lo' n := by
  induction n using Nat.strong_induction_on generalizing lo lo' with
  | _ n ih =>
    by_cases h1 : n ≤ 1
    · rw [rangePairs_le_one _ _ h1, rangePairs_le_one _ _ h1]
    · have hs := split_pos n
      have hlt := split_lt (n := n) (by omega)
      have hright : ∀ i < n - split n, leaf (lo + split n + i) = leaf' (lo' + split n + i) := by
        intro i hi
        have := h (split n + i) (by omega)
        rwa [← Nat.add_assoc, ← Nat.add_assoc] at this
      rw [rangePairs_split node leaf (n := n) (by omega), rangePairs_split node leaf' (n := n) (by omega),
        rangeHash_congr node leaf lo lo' _ hs (fun i hi => h i (by omega)),
        rangeHash_congr node leaf _ _ _ (by omega) hright,
        ih _ hlt lo lo' (fun i hi => h i (by omega)), ih _ (by omega) _ _ hright]

/-- Collapsing the subtrees of height `m` into leaves leaves the tree hash as it is. -/
theorem rangeHash_collapse (m lo n : Nat) :
    rangeHash node (fun k => rangeHash node leaf (k * 2 ^ m) (2 ^ m)) lo (2 ^ n) =
      rangeHash node leaf (lo * 2 ^ m) (2 ^ (m + n)) := by
  induction n generalizing lo with
  | zero => simp [rangeHash_le_one]
  | succ n ih =>
    rw [rangeHash_two_pow, ih, ih, ← Nat.add_assoc, rangeHash_two_pow]
    congr 2
    rw [Nat.add_mul, ← pow_add, Nat.add_comm n m]

/-- The pairs combined in a tree are those above the collapsed subtrees and those inside them. -/
theorem mem_rangePairs_collapse (m lo n : Nat) (p : H × H) :
    p ∈ rangePairs node leaf (lo * 2 ^ m) (2 ^ (m + n)) ↔
      p ∈ rangePairs node (fun k => rangeHash node leaf (k * 2 ^ m) (2 ^ m)) lo (2 ^ n) ∨
        ∃ k < 2 ^ n, p ∈ rangePairs node leaf ((lo + k) * 2 ^ m) (2 ^ m) := by
  induction n generalizing lo with
  | zero => simp [rangePairs_le_one]
  | succ n ih =>
    have htwo : ∀ k : Nat, 2 ≤ 2 ^ (k + 1) := fun k => by
      rw [pow_succ]; have := Nat.two_pow_pos k; omega
    have hsub : ∀ k : Nat, 2 ^ (k + 1) - 2 ^ k = 2 ^ k := fun k => by rw [pow_succ]; omega
    have hlo : lo * 2 ^ m + 2 ^ (m + n) = (lo + 2 ^ n) * 2 ^ m := by
      rw [Nat.add_mul, ← pow_add, Nat.add_comm n m]
    rw [rangePairs_split _ _ (htwo n), ← Nat.add_assoc, rangePairs_split _ _ (htwo (m + n)),
      split_two_pow, split_two_pow, hsub, hsub, rangeHash_collapse, rangeHash_collapse, hlo]
    simp only [List.mem_cons, List.mem_append, ih]
    constructor
    · rintro (h | (h | ⟨k, hk, h⟩) | (h | ⟨k, hk, h⟩))
      · exact .inl (.inl h)
      · exact .inl (.inr (.inl h))
      · exact .inr ⟨k, by rw [pow_succ]; omega, h⟩
      · exact .inl (.inr (.inr h))
      · exact .inr ⟨2 ^ n + k, by rw [pow_succ]; omega, by rwa [← Nat.add_assoc]⟩
    · rintro ((h | h | h) | ⟨k, hk, h⟩)
      · exact .inl h
      · exact .inr (.inl (.inl h))
      · exact .inr (.inr (.inl h))
      · by_cases hkn : k < 2 ^ n
        · exact .inr (.inl (.inr ⟨k, hkn, h⟩))
        · refine .inr (.inr (.inr ⟨k - 2 ^ n, by rw [pow_succ] at hk; omega, ?_⟩))
          rwa [show lo + 2 ^ n + (k - 2 ^ n) = lo + k by omega]

theorem rangePairs_two (lo : Nat) :
    rangePairs node leaf lo 2 = [(leaf lo, leaf (lo + 1))] := by
  rw [rangePairs_split _ _ (Nat.le_refl 2), show split 2 = 1 from by decide]
  simp [rangeHash_le_one, rangePairs_le_one]

theorem rangeHash_two (lo : Nat) : rangeHash node leaf lo 2 = node (leaf lo) (leaf (lo + 1)) := by
  rw [rangeHash_split _ _ (Nat.le_refl 2), show split 2 = 1 from by decide]
  simp [rangeHash_le_one]

/-- A tree hash binds its leaves: where the node hash is injective on the pairs combined on both
sides, equal hashes of one width have equal leaves. -/
theorem rangeHash_binds {leaf' : Nat → H} {S : Set (H × H)}
    (hS : Set.InjOn (Function.uncurry node) S) (lo lo' n : Nat) (hn : 1 ≤ n)
    (hp : ∀ p ∈ rangePairs node leaf lo n, p ∈ S) (hp' : ∀ p ∈ rangePairs node leaf' lo' n, p ∈ S)
    (h : rangeHash node leaf lo n = rangeHash node leaf' lo' n) :
    ∀ i < n, leaf (lo + i) = leaf' (lo' + i) := by
  induction n using Nat.strong_induction_on generalizing lo lo' with
  | _ n ih =>
    intro i hi
    by_cases h1 : n ≤ 1
    · rw [rangeHash_le_one _ _ h1, rangeHash_le_one _ _ h1] at h
      obtain rfl : i = 0 := by omega
      simpa using h
    · have h2 : 2 ≤ n := by omega
      have hs := split_pos n
      have hlt := split_lt h2
      rw [rangePairs_split _ _ h2] at hp hp'
      rw [rangeHash_split _ _ h2, rangeHash_split _ _ h2] at h
      have heq := hS (hp _ List.mem_cons_self) (hp' _ List.mem_cons_self) h
      rw [Prod.mk.injEq] at heq
      by_cases hik : i < split n
      · exact ih _ hlt lo lo' hs (fun p h => hp p (by simp [h])) (fun p h => hp' p (by simp [h]))
          heq.1 i hik
      · have := ih _ (by omega) (lo + split n) (lo' + split n) (by omega)
          (fun p h => hp p (by simp [h])) (fun p h => hp' p (by simp [h])) heq.2 (i - split n)
          (by omega)
        rwa [show lo + split n + (i - split n) = lo + i by omega,
          show lo' + split n + (i - split n) = lo' + i by omega] at this

end

/-! ## Nodes below a hash -/

section
variable {H : Type*} {node : H → H → H} {known : Set (H × H)}

/-- The known pairs show that the node over `[lo, lo + w)` with the hash `v` has below it the node over
`[lo', lo' + w')` with the hash `x`. -/
inductive Below (node : H → H → H) (known : Set (H × H)) : H → Nat → Nat → H → Nat → Nat → Prop where
  | refl {v lo w} : Below node known v lo w v lo w
  | left {v a b lo w x lo' w'} : v = node a b → (a, b) ∈ known → 2 ≤ w → Below node known a lo (split w) x lo' w' →
      Below node known v lo w x lo' w'
  | right {v a b lo w x lo' w'} : v = node a b → (a, b) ∈ known → 2 ≤ w →
      Below node known b (lo + split w) (w - split w) x lo' w' → Below node known v lo w x lo' w'

namespace Below

theorem mono {known' : Set (H × H)} {v lo w x lo' w'} (hsub : known ⊆ known') (h : Below node known v lo w x lo' w') :
    Below node known' v lo w x lo' w' := by
  induction h with
  | refl => exact refl
  | left hv hk hw _ ih => exact left hv (hsub hk) hw ih
  | right hv hk hw _ ih => exact right hv (hsub hk) hw ih

theorem trans {v lo w y l₁ w₁ x l₂ w₂} (h : Below node known v lo w y l₁ w₁) (h' : Below node known y l₁ w₁ x l₂ w₂) :
    Below node known v lo w x l₂ w₂ := by
  induction h with
  | refl => exact h'
  | left hv hk hw _ ih => exact left hv hk hw (ih h')
  | right hv hk hw _ ih => exact right hv hk hw (ih h')

theorem range {v lo w x lo' w'} (h : Below node known v lo w x lo' w') : lo ≤ lo' ∧ lo' + w' ≤ lo + w := by
  induction h with
  | refl => exact ⟨Nat.le_refl _, Nat.le_refl _⟩
  | left _ _ hw _ ih =>
    have := split_lt hw
    omega
  | right _ _ hw _ ih =>
    have := split_lt hw
    omega

/-- Of two nodes below a hash, the one whose leaves are among those of the other is below the other. -/
theorem nested {v lo w y l₁ w₁ x l₂ w₂} (hinj : Set.InjOn (Function.uncurry node) known)
    (hy : Below node known v lo w y l₁ w₁) (hx : Below node known v lo w x l₂ w₂) (hpos : 0 < w₂) (hl : l₁ ≤ l₂)
    (hr : l₂ + w₂ ≤ l₁ + w₁) : Below node known y l₁ w₁ x l₂ w₂ := by
  induction hy with
  | refl => exact hx
  | left hv hk hw hy ih =>
    have hlt := split_lt hw
    have hin := hy.range
    cases hx with
    | refl => omega
    | left hv' hk' _ hx =>
      have heq := hinj hk hk' (hv.symm.trans hv')
      rw [Prod.mk.injEq] at heq
      rw [← heq.1] at hx
      exact ih hx hl hr
    | right _ _ _ hx =>
      have := hx.range
      omega
  | @right _ _ _ _ w _ _ _ hv hk hw hy ih =>
    have hleft := split_pos w
    have hin := hy.range
    cases hx with
    | refl => omega
    | left _ _ _ hx =>
      have := hx.range
      omega
    | right hv' hk' _ hx =>
      have heq := hinj hk hk' (hv.symm.trans hv')
      rw [Prod.mk.injEq] at heq
      rw [← heq.2] at hx
      exact ih hx hl hr

/-- One node has one hash. -/
theorem unique {v lo w y x l₁ w₁} (hinj : Set.InjOn (Function.uncurry node) known) (hpos : 0 < w₁)
    (hy : Below node known v lo w y l₁ w₁) (hx : Below node known v lo w x l₁ w₁) : x = y := by
  cases hy.nested hinj hx hpos (Nat.le_refl _) (Nat.le_refl _) with
  | refl => rfl
  | left _ _ hw h =>
    have := h.range
    have := split_lt hw
    omega
  | right _ _ hw h =>
    have := h.range
    have := split_pos w₁
    omega

/-- A hash with a known first half is the node of its halves. -/
theorem eq_node {v x lo n s} (hinj : Set.InjOn (Function.uncurry node) known) (h2 : 2 ≤ n) (hs : split n = s)
    (h : Below node known v lo n x lo s) :
    ∃ c, v = node x c ∧ Below node known v lo n c (lo + s) (n - s) := by
  have hlt := split_lt h2
  have hpos := split_pos n
  cases h with
  | refl => omega
  | left hv hk _ hleft =>
    rw [hs] at hleft
    obtain rfl := hleft.unique hinj (by omega) refl
    refine ⟨_, hv, right hv hk h2 ?_⟩
    rw [hs]
    exact refl
  | right _ _ _ hright =>
    have := hright.range
    omega

/-- Below the hash of a tree there are only the hashes of its ranges. -/
theorem eq_rangeHash {leaf : Nat → H} {v lo w x lo' w'} (hinj : Set.InjOn (Function.uncurry node) known)
    (hv : v = rangeHash node leaf lo w) (hknown : ∀ p ∈ rangePairs node leaf lo w, p ∈ known)
    (h : Below node known v lo w x lo' w') : x = rangeHash node leaf lo' w' := by
  induction h with
  | refl => exact hv
  | left hnode hk hw _ ih =>
    rw [rangePairs_split _ _ hw] at hknown
    rw [rangeHash_split _ _ hw, hnode] at hv
    have heq := hinj hk (hknown _ List.mem_cons_self) hv
    rw [Prod.mk.injEq] at heq
    exact ih heq.1 fun p hp => hknown p (by simp [hp])
  | right hnode hk hw _ ih =>
    rw [rangePairs_split _ _ hw] at hknown
    rw [rangeHash_split _ _ hw, hnode] at hv
    have heq := hinj hk (hknown _ List.mem_cons_self) hv
    rw [Prod.mk.injEq] at heq
    exact ih heq.2 fun p hp => hknown p (by simp [hp])

end Below

/-- A complete subtree over the hashes of complete subtrees of height `u` has the smaller complete subtrees below
it. -/
theorem below_rangeHash (t : Nat → H) (u m e i : Nat)
    (hknown : ∀ p ∈ rangePairs node t (i / 2 ^ e * 2 ^ (m + e)) (2 ^ (m + e)), p ∈ known) :
    Below node known (rangeHash node t (i / 2 ^ e * 2 ^ (m + e)) (2 ^ (m + e))) (i / 2 ^ e * 2 ^ (m + e + u))
      (2 ^ (m + e + u)) (rangeHash node t (i * 2 ^ m) (2 ^ m)) (i * 2 ^ (m + u)) (2 ^ (m + u)) := by
  induction e with
  | zero =>
    simp only [pow_zero, Nat.div_one, Nat.add_zero]
    exact .refl
  | succ e ih =>
    have hw : 2 ≤ 2 ^ (m + e + u + 1) := by
      have := Nat.two_pow_pos (m + e + u)
      rw [pow_succ]
      omega
    have hw' : 2 ≤ 2 ^ (m + e + 1) := by
      have := Nat.two_pow_pos (m + e)
      rw [pow_succ]
      omega
    have hsub : ∀ k : Nat, 2 ^ (k + 1) - 2 ^ k = 2 ^ k := fun k => by rw [pow_succ]; omega
    have hdiv : i / 2 ^ (e + 1) = i / 2 ^ e / 2 := by rw [pow_succ, Nat.div_div_eq_div_mul]
    rw [← Nat.add_assoc, hdiv] at hknown ⊢
    rw [rangePairs_split _ _ hw', split_two_pow, hsub] at hknown
    rw [rangeHash_two_pow, show m + e + 1 + u = m + e + u + 1 by omega]
    have htop := hknown _ List.mem_cons_self
    -- the half with the smaller subtree
    rcases Nat.even_or_odd' (i / 2 ^ e) with ⟨j, hj | hj⟩
    · have hlo : ∀ k, i / 2 ^ e / 2 * 2 ^ (k + 1) = i / 2 ^ e * 2 ^ k := fun k => by
        rw [hj, Nat.mul_div_cancel_left _ (by decide), pow_succ]; ring
      rw [hlo] at htop hknown
      rw [hlo, hlo]
      refine .left rfl htop hw ?_
      rw [split_two_pow]
      exact ih fun p hp => hknown p (by simp [hp])
    · have hlo : ∀ k, i / 2 ^ e / 2 * 2 ^ (k + 1) + 2 ^ k = i / 2 ^ e * 2 ^ k := fun k => by
        rw [hj, show (2 * j + 1) / 2 = j by omega, pow_succ]; ring
      rw [hlo] at htop hknown
      rw [hlo]
      refine .right rfl htop hw ?_
      rw [split_two_pow, hlo, hsub]
      exact ih fun p hp => hknown p (by simp [hp])

end

/-! ## The tree hash of a list -/

section
variable {H : Type*} [Inhabited H] (node : H → H → H) (empty : H)

/-- The tree hash of a list of leaf hashes; `empty` is the hash of the empty list. -/
def treeHash (leaves : List H) : H :=
  if leaves = [] then empty else rangeHash node (fun i => leaves.getD i default) 0 leaves.length

/-- The recursion of RFC 6962 section 2.1: `MTH(D[n]) = node(MTH(D[0:k]), MTH(D[k:n]))`. -/
theorem treeHash_split {leaves : List H} (h : 2 ≤ leaves.length) :
    treeHash node empty leaves =
      node (treeHash node empty (leaves.take (split leaves.length)))
        (treeHash node empty (leaves.drop (split leaves.length))) := by
  have hs := split_pos leaves.length
  have hlt := split_lt h
  unfold treeHash
  rw [if_neg (by rintro rfl; simp at h),
    if_neg (by rw [List.take_eq_nil_iff]; rintro (h | rfl) <;> [omega; simp at hlt]),
    if_neg (by rw [List.drop_eq_nil_iff]; omega), rangeHash_split _ _ h,
    List.length_take_of_le (by omega), List.length_drop]
  congr 1
  · refine rangeHash_congr _ _ _ _ _ hs (fun i hi => ?_)
    simp [List.getD_eq_getElem?_getD, List.getElem?_take_of_lt hi]
  · refine rangeHash_congr _ _ _ _ _ (by omega) (fun i hi => ?_)
    simp [List.getD_eq_getElem?_getD, List.getElem?_drop]

/-- The tree hash of a prefix is a range hash of the whole. -/
theorem treeHash_take {leaves : List H} {n : Nat} (h1 : 1 ≤ n) (hn : n ≤ leaves.length) :
    treeHash node empty (leaves.take n) =
      rangeHash node (fun i => leaves.getD i default) 0 n := by
  unfold treeHash
  rw [if_neg (by rw [List.take_eq_nil_iff]; rintro (h | rfl) <;> [omega; (simp at hn; omega)]),
    List.length_take_of_le hn]
  refine rangeHash_congr _ _ _ _ _ h1 (fun i hi => ?_)
  simp [List.getD_eq_getElem?_getD, List.getElem?_take_of_lt hi]

end

end Merkle
