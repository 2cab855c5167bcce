import Emela.Pome.Lemmas.Read

/-!
# Which tiles a root binds

A root that matches binds the hashes of the tiles it was rebuilt from, and only those. The blocks of
the binary decomposition of a size say which hashes these are.
-/

namespace Emela.Pome

open Merkle

variable {σ ε : Type} {sha256 : List UInt8 → Hash} {src : TileSource σ ε}

/-! ## The binary decomposition of a range -/

/-- The subtree of height `h` at index `i` is read for the leaves `[lo, lo + w)`. -/
def InBlocks (lo w h i : Nat) : Prop :=
  w.testBit h = true ∧ i * 2 ^ h = lo + w / 2 ^ (h + 1) * 2 ^ (h + 1)

theorem inBlocks_two_pow {lo b h i : Nat} (hb : InBlocks lo (2 ^ b) h i) : h = b ∧ i * 2 ^ b = lo := by
  obtain ⟨ht, hi⟩ := hb
  rw [Nat.testBit_two_pow] at ht
  obtain rfl : b = h := by simpa using ht
  rw [Nat.div_eq_of_lt (Nat.pow_lt_pow_succ (by decide))] at hi
  exact ⟨rfl, by omega⟩

theorem inBlocks_add (lo i : Nat) {b w h : Nat} (hw : w < 2 ^ b) :
    InBlocks lo (2 ^ b + w) h i ↔ (h = b ∧ i * 2 ^ b = lo) ∨ InBlocks (lo + 2 ^ b) w h i := by
  have hbit : ∀ j, b ≤ j → w.testBit j = false := fun j hj =>
    Nat.testBit_lt_two_pow (lt_of_lt_of_le hw (Nat.pow_le_pow_right (by decide) hj))
  unfold InBlocks
  rcases lt_trichotomy h b with hlt | rfl | hgt
  · have hdiv : (2 ^ b + w) / 2 ^ (h + 1) * 2 ^ (h + 1) = 2 ^ b + w / 2 ^ (h + 1) * 2 ^ (h + 1) := by
      have : 2 ^ b = 2 ^ (h + 1) * 2 ^ (b - (h + 1)) := by rw [← pow_add]; congr 1; omega
      rw [this, Nat.mul_add_div (Nat.two_pow_pos _)]
      ring
    rw [Nat.testBit_two_pow_add_gt hlt, hdiv, Nat.add_assoc]
    simp [hlt.ne]
  · rw [Nat.testBit_two_pow_add_eq, hbit h (Nat.le_refl h),
      Nat.div_eq_of_lt (show 2 ^ h + w < 2 ^ (h + 1) by rw [pow_succ]; omega)]
    simp
  · have hzero : (2 ^ b + w).testBit h = false := Nat.testBit_lt_two_pow <| by
      calc 2 ^ b + w < 2 ^ (b + 1) := by rw [pow_succ]; omega
        _ ≤ 2 ^ h := Nat.pow_le_pow_right (by decide) hgt
    simp [hzero, hbit h hgt.le, hgt.ne']

theorem inBlocks_first {lo b i : Nat} (hi : i * 2 ^ b = lo) : InBlocks lo (2 ^ b) b i := by
  have := (inBlocks_add lo i (Nat.two_pow_pos b)).mpr (.inl ⟨rfl, hi⟩)
  rwa [Nat.add_zero] at this

/-- A range that is no power of two is a block and the range after it. -/
theorem exists_add_of_ne {w : Nat} (h : 0 < w) (hw : w ≠ 2 ^ w.log2) :
    ∃ b w', w = 2 ^ b + w' ∧ 0 < w' ∧ w' < 2 ^ b ∧ split w = 2 ^ b := by
  have h₁ := Nat.log2_self_le (n := w) (by omega)
  have h₂ := Nat.lt_log2_self (n := w)
  rw [pow_succ] at h₂
  exact ⟨w.log2, w - 2 ^ w.log2, by omega, by omega, by omega,
    split_eq (by omega) (by rw [pow_succ]; omega)⟩

/-! ## The blocks of two sizes -/

/-- The highest bit in which the sizes differ. -/
def topDiff (old new : Nat) : Nat := (old ^^^ new).log2

theorem div_topDiff {old new : Nat} (h : old < new) :
    ∃ q, old / 2 ^ topDiff old new = 2 * q ∧ new / 2 ^ topDiff old new = 2 * q + 1 := by
  have hne : old ^^^ new ≠ 0 := by rw [ne_eq, Nat.xor_eq_zero_iff]; omega
  set d := topDiff old new with hd
  have hq : old / 2 ^ (d + 1) = new / 2 ^ (d + 1) := by
    have : (old ^^^ new) >>> (d + 1) = 0 := by
      rw [Nat.shiftRight_eq_div_pow]
      exact Nat.div_eq_of_lt Nat.lt_log2_self
    rw [Nat.shiftRight_xor_distrib, Nat.xor_eq_zero_iff, Nat.shiftRight_eq_div_pow,
      Nat.shiftRight_eq_div_pow] at this
    exact this
  have hbit : old.testBit d ≠ new.testBit d := by
    have := Nat.testBit_log2 hne
    rw [Nat.testBit_xor, ← topDiff, ← hd] at this
    simpa using this
  rw [pow_succ, ← Nat.div_div_eq_div_mul, ← Nat.div_div_eq_div_mul] at hq
  have hle : old / 2 ^ d ≤ new / 2 ^ d := Nat.div_le_div_right h.le
  simp only [Nat.testBit_eq_decide_div_mod_eq, ne_eq, decide_eq_decide] at hbit
  exact ⟨old / 2 ^ d / 2, by omega, by omega⟩

/-- Every block of the old size lies in a block of the new size: in the block of the highest bit in which the sizes
differ, or, above that bit, in the same block. -/
theorem inBlocks_of_lt {old new h i : Nat} (hlt : old < new) (hb : InBlocks 0 old h i) :
    ∃ e, InBlocks 0 new (h + e) (i / 2 ^ e) ∧ (e = 0 ∨ h + e = topDiff old new) := by
  obtain ⟨q, hold, hnew⟩ := div_topDiff hlt
  generalize topDiff old new = d at *
  obtain ⟨hbit, hi⟩ := hb
  have hdq : ∀ n, n / 2 ^ d = 2 * q ∨ n / 2 ^ d = 2 * q + 1 → ∀ j, d < j → n / 2 ^ j = q / 2 ^ (j - d - 1) := by
    intro n hn j hj
    rw [show j = d + (1 + (j - d - 1)) by omega, pow_add, ← Nat.div_div_eq_div_mul, pow_add, pow_one,
      ← Nat.div_div_eq_div_mul, show n / 2 ^ d / 2 = q by omega]
    congr 2; omega
  rcases lt_trichotomy h d with hhd | rfl | hhd
  · -- below the differing bit: the block lies in the block of that bit
    obtain ⟨e, rfl⟩ : ∃ e, d = h + e := ⟨d - h, by omega⟩
    have hdiv : i / 2 ^ e = 2 * q := by
      have hie : i = old / 2 ^ (h + 1) * 2 := by
        have : i * 2 ^ h = old / 2 ^ (h + 1) * 2 * 2 ^ h := by rw [hi, pow_succ]; ring
        exact Nat.eq_of_mul_eq_mul_right (Nat.two_pow_pos h) this
      obtain ⟨e, rfl⟩ : ∃ e', e = e' + 1 := ⟨e - 1, by omega⟩
      rw [hie, pow_succ 2 e, Nat.mul_div_mul_right _ _ (by decide), Nat.div_div_eq_div_mul, ← pow_add,
        show h + 1 + e = h + (e + 1) by ring, hold]
    refine ⟨e, ⟨?_, ?_⟩, .inr rfl⟩
    · rw [Nat.testBit_eq_decide_div_mod_eq, hnew]; simp
    · rw [hdq new (.inr hnew) (h + e + 1) (by omega), hdiv]
      simp [pow_succ]; ring
  · -- the differing bit itself is not set in the old size
    rw [Nat.testBit_eq_decide_div_mod_eq, hold] at hbit
    simp at hbit
  · -- above the differing bit the sizes have the same blocks
    refine ⟨0, ⟨?_, ?_⟩, .inl rfl⟩
    · rw [Nat.add_zero, Nat.testBit_eq_decide_div_mod_eq, hdq new (.inr hnew) h hhd, ← hdq old (.inl hold) h hhd,
        ← Nat.testBit_eq_decide_div_mod_eq, hbit]
    · rw [pow_zero, Nat.div_one, Nat.add_zero, hi, hdq new (.inr hnew) (h + 1) (by omega),
        ← hdq old (.inl hold) (h + 1) (by omega)]

/-- Where the low bits of the old size below the level of the highest differing bit are zero, the block of the new
size is of the same level. -/
theorem inBlocks_level {old new h i e : Nat}
    (hlow : old % 2 ^ (TILE_HEIGHT * (topDiff old new / TILE_HEIGHT)) = 0) (hb : InBlocks 0 old h i)
    (he : e = 0 ∨ h + e = topDiff old new) : (h + e) / TILE_HEIGHT = h / TILE_HEIGHT := by
  rcases he with rfl | he
  · rw [Nat.add_zero]
  · by_contra hne
    rw [he] at hne
    have hlt' : h < TILE_HEIGHT * (topDiff old new / TILE_HEIGHT) := by
      simp only [TILE_HEIGHT] at hne ⊢; omega
    have := Nat.testBit_mod_two_pow old (TILE_HEIGHT * (topDiff old new / TILE_HEIGHT)) h
    rw [hlow, hb.1] at this
    simp [hlt'] at this

/-- Then every block of the old size lies in a block of the new size of the same level. -/
theorem inBlocks_old {old new h i : Nat} (hlt : old < new)
    (hlow : old % 2 ^ (TILE_HEIGHT * (topDiff old new / TILE_HEIGHT)) = 0) (hb : InBlocks 0 old h i) :
    ∃ h' i', InBlocks 0 new h' i' ∧ h' / TILE_HEIGHT = h / TILE_HEIGHT ∧
      ∀ k < 2 ^ (h % TILE_HEIGHT), ∃ k' < 2 ^ (h' % TILE_HEIGHT),
        i * 2 ^ (h % TILE_HEIGHT) + k = i' * 2 ^ (h' % TILE_HEIGHT) + k' := by
  obtain ⟨e, hb', he⟩ := inBlocks_of_lt hlt hb
  have hlevel := inBlocks_level hlow hb he
  refine ⟨h + e, i / 2 ^ e, hb', hlevel, fun k hk => ?_⟩
  have hmod : (h + e) % TILE_HEIGHT = h % TILE_HEIGHT + e := by
    simp only [TILE_HEIGHT] at hlevel ⊢; omega
  refine ⟨i % 2 ^ e * 2 ^ (h % TILE_HEIGHT) + k, ?_, ?_⟩
  · have : i % 2 ^ e + 1 ≤ 2 ^ e := Nat.mod_lt _ (Nat.two_pow_pos e)
    calc i % 2 ^ e * 2 ^ (h % TILE_HEIGHT) + k
        < (i % 2 ^ e + 1) * 2 ^ (h % TILE_HEIGHT) := by rw [Nat.add_mul]; omega
      _ ≤ 2 ^ e * 2 ^ (h % TILE_HEIGHT) := Nat.mul_le_mul_right _ this
      _ = 2 ^ ((h + e) % TILE_HEIGHT) := by rw [hmod, ← pow_add, Nat.add_comm]
  · calc i * 2 ^ (h % TILE_HEIGHT) + k
        = (2 ^ e * (i / 2 ^ e) + i % 2 ^ e) * 2 ^ (h % TILE_HEIGHT) + k := by rw [Nat.div_add_mod]
      _ = i / 2 ^ e * 2 ^ ((h + e) % TILE_HEIGHT) + (i % 2 ^ e * 2 ^ (h % TILE_HEIGHT) + k) := by
          rw [hmod, pow_add]; ring

/-! ## Bound hashes -/

section
variable {inputs : List (List UInt8)} {leafAt : Nat → Hash}

/-- The tile hash read at `level` and `k` is the hash of that subtree of the leaves. -/
structure Bound (sha256 : List UInt8 → Hash) (leafAt : Nat → Hash) (r : TreeReader σ)
    (level k : Nat) : Prop where
  has : r.Has level k
  eq : r.tileHash level k =
    rangeHash (node sha256) leafAt (k * 2 ^ (TILE_HEIGHT * level)) (2 ^ (TILE_HEIGHT * level))

theorem Bound.ext {r r' : TreeReader σ} {level k : Nat} (h : Bound sha256 leafAt r level k)
    (he : r.Ext r') : Bound sha256 leafAt r' level k :=
  ⟨he.has h.has, (he.tileHash h.has).trans h.eq⟩

/-- Every hash of the subtree of height `h` at `i` is bound. -/
def BoundBlock (sha256 : List UInt8 → Hash) (leafAt : Nat → Hash) (r : TreeReader σ) (h i : Nat) : Prop :=
  ∀ k < 2 ^ (h % TILE_HEIGHT), Bound sha256 leafAt r (h / TILE_HEIGHT) (i * 2 ^ (h % TILE_HEIGHT) + k)

/-- The subtree of height `h` over the hashes of its tile, collapsed to the level of the tile. -/
theorem collapse_block (leafAt : Nat → Hash) (h i : Nat) :
    rangeHash (node sha256) (fun k => rangeHash (node sha256) leafAt
        (k * 2 ^ (TILE_HEIGHT * (h / TILE_HEIGHT))) (2 ^ (TILE_HEIGHT * (h / TILE_HEIGHT))))
      (i * 2 ^ (h % TILE_HEIGHT)) (2 ^ (h % TILE_HEIGHT)) =
    rangeHash (node sha256) leafAt (i * 2 ^ h) (2 ^ h) := by
  rw [rangeHash_collapse, Nat.div_add_mod, Nat.mul_assoc, ← pow_add, Nat.add_comm, Nat.div_add_mod]

theorem nodeInputs_collapse_subset (leafAt : Nat → Hash) (h i : Nat) :
    nodeInputs sha256 (fun k => rangeHash (node sha256) leafAt
        (k * 2 ^ (TILE_HEIGHT * (h / TILE_HEIGHT))) (2 ^ (TILE_HEIGHT * (h / TILE_HEIGHT))))
      (i * 2 ^ (h % TILE_HEIGHT)) (2 ^ (h % TILE_HEIGHT)) ⊆
    nodeInputs sha256 leafAt (i * 2 ^ h) (2 ^ h) := by
  refine List.map_subset _ (fun p hp => ?_)
  have := (mem_rangePairs_collapse (node sha256) leafAt (TILE_HEIGHT * (h / TILE_HEIGHT))
    (i * 2 ^ (h % TILE_HEIGHT)) (h % TILE_HEIGHT) p).mpr (.inl hp)
  rwa [Nat.div_add_mod, Nat.mul_assoc, ← pow_add, Nat.add_comm, Nat.div_add_mod] at this

theorem subtree_binds (hnc : NoCollision sha256 inputs) {h i : Nat} {r r' : TreeReader σ} {v : Hash}
    (hrun : subtree sha256 src h i r = .ok (v, r'))
    (hv : v = rangeHash (node sha256) leafAt (i * 2 ^ h) (2 ^ h)) (hin : r'.hashed ⊆ inputs)
    (htree : nodeInputs sha256 leafAt (i * 2 ^ h) (2 ^ h) ⊆ inputs) :
    BoundBlock sha256 leafAt r' h i := by
  obtain ⟨-, hhas, hval, hlog⟩ := subtree_ok hrun
  intro k hk
  refine ⟨hhas k hk, ?_⟩
  rw [hv, ← collapse_block leafAt h i] at hval
  refine rangeHash_binds (node sha256) _ hnc.node_injOn _ _ _ (Nat.two_pow_pos _) ?_ ?_ hval.symm k hk
  · exact fun p hp => hin ((hlog _).mpr (.inr (List.mem_map.mpr ⟨p, hp, rfl⟩)))
  · exact fun p hp => htree (nodeInputs_collapse_subset _ _ _ (List.mem_map.mpr ⟨p, hp, rfl⟩))

theorem subtree_bound {h i : Nat} {r r' : TreeReader σ} {v : Hash}
    (hrun : subtree sha256 src h i r = .ok (v, r')) (hb : BoundBlock sha256 leafAt r h i) :
    v = rangeHash (node sha256) leafAt (i * 2 ^ h) (2 ^ h) := by
  obtain ⟨hext, -, hval, -⟩ := subtree_ok hrun
  rw [hval, ← collapse_block leafAt h i]
  refine rangeHash_congr _ _ _ _ _ (Nat.two_pow_pos _) (fun k hk => ?_)
  exact ((hb k hk).ext hext).eq

/-- A range that starts at a multiple of a power of two not below its width. -/
def Aligned (lo w : Nat) : Prop := ∃ m, w ≤ 2 ^ m ∧ 2 ^ m ∣ lo

theorem aligned_zero (n : Nat) : Aligned 0 n := ⟨n, Nat.lt_two_pow_self.le, Nat.dvd_zero _⟩

theorem Aligned.dvd {lo b w : Nat} (h : Aligned lo w) (hb : 2 ^ b ≤ w) : 2 ^ b ∣ lo := by
  obtain ⟨m, hm, hd⟩ := h
  exact (Nat.pow_dvd_pow 2 ((Nat.pow_le_pow_iff_right (by decide)).mp (hb.trans hm))).trans hd

theorem Aligned.right {lo b w : Nat} (h : Aligned lo (2 ^ b + w)) (hw : w < 2 ^ b) :
    Aligned (lo + 2 ^ b) w :=
  ⟨b, hw.le, Nat.dvd_add (h.dvd (by omega)) (Nat.dvd_refl _)⟩

variable (sha256 src) in
/-- How an aligned range is read: one subtree, or a subtree and the range after it. -/
theorem range_aligned {lo w : Nat} (ha : Aligned lo w) (hw : 0 < w) :
    (∃ b, w = 2 ^ b ∧ range sha256 src lo (lo + w) none = subtree sha256 src b (lo / 2 ^ b)) ∨
    ∃ b w', w = 2 ^ b + w' ∧ 0 < w' ∧ w' < 2 ^ b ∧ split w = 2 ^ b ∧
      range sha256 src lo (lo + w) none = (do
        let left ← subtree sha256 src b (lo / 2 ^ b)
        let right ← range sha256 src (lo + 2 ^ b) (lo + 2 ^ b + w') none
        nodeHash sha256 left right) := by
  by_cases hp : w = 2 ^ w.log2
  · left
    refine ⟨w.log2, hp, ?_⟩
    have hd : 2 ^ w.log2 ∣ lo := ha.dvd hp.ge
    rw [← range_none_two_pow hd, ← hp]
  · right
    obtain ⟨b, w', hww, hpos, hlt, hsplit⟩ := exists_add_of_ne hw hp
    refine ⟨b, w', hww, hpos, hlt, hsplit, ?_⟩
    rw [range_none_split (by have := Nat.two_pow_pos b; omega) hp, hsplit,
      range_none_two_pow (ha.dvd (b := b) (by omega)), hww, Nat.add_assoc]

/-- A rebuilt range that is the tree hash of the leaves binds every tile hash it was rebuilt from. -/
theorem range_binds (hnc : NoCollision sha256 inputs) {lo w : Nat} {r r' : TreeReader σ} {v : Hash}
    (ha : Aligned lo w) (hw : 0 < w) (hrun : range sha256 src lo (lo + w) none r = .ok (v, r'))
    (hv : v = rangeHash (node sha256) leafAt lo w) (hin : r'.hashed ⊆ inputs)
    (htree : nodeInputs sha256 leafAt lo w ⊆ inputs) {h i : Nat} (hb : InBlocks lo w h i) :
    BoundBlock sha256 leafAt r' h i := by
  induction w using Nat.strong_induction_on generalizing lo r r' v h i with
  | _ w ih =>
    have hidx : ∀ {b}, 2 ^ b ≤ w → lo / 2 ^ b * 2 ^ b = lo := fun hb => Nat.div_mul_cancel (ha.dvd hb)
    have hcancel : ∀ {b}, i * 2 ^ b = lo → lo / 2 ^ b = i := fun hb => by
      rw [← hb, Nat.mul_div_cancel _ (Nat.two_pow_pos _)]
    rcases range_aligned sha256 src ha hw with ⟨b, rfl, heq⟩ | ⟨b, w', rfl, hpos, hlt, hsplit, heq⟩
    · obtain ⟨rfl, hi⟩ := inBlocks_two_pow hb
      rw [heq, hcancel hi] at hrun
      exact subtree_binds hnc hrun (by rw [hi, hv]) hin (by rwa [hi])
    · rw [heq] at hrun
      obtain ⟨a, r₁, hl, hrun⟩ := Read.bind_ok.mp hrun
      obtain ⟨c, r₂, hr, hrun⟩ := Read.bind_ok.mp hrun
      rw [nodeHash_ok] at hrun
      simp only [Except.ok.injEq, Prod.mk.injEq] at hrun
      obtain ⟨rfl, rfl⟩ := hrun
      have h2 : 2 ≤ 2 ^ b + w' := by omega
      rw [nodeInputs_split h2, hsplit, Nat.add_sub_cancel_left] at htree
      rw [rangeHash_split _ _ h2, hsplit, Nat.add_sub_cancel_left] at hv
      obtain ⟨hva, hvc⟩ := hnc.node_inj (hin List.mem_cons_self) (htree List.mem_cons_self) hv
      have hsub := List.append_subset.mp (List.Subset.trans (List.subset_cons_self _ _) htree)
      have hr₂ : r₂.hashed ⊆ inputs := List.Subset.trans (List.subset_cons_self _ _) hin
      rcases (inBlocks_add _ _ hlt).mp hb with ⟨rfl, hi⟩ | hb'
      · rw [hcancel hi] at hl
        have := subtree_binds hnc hl (by rw [hi, hva])
          (List.Subset.trans (range_ext hr).hashed hr₂) (by rw [hi]; exact hsub.1)
        exact fun k hk => ((this k hk).ext (range_ext hr)).ext ⟨rfl, fun _ _ h => h, List.subset_cons_self _ _⟩
      · have := ih w' (by have := Nat.two_pow_pos b; omega) (ha.right hlt) hpos hr hvc hr₂ hsub.2 hb'
        exact fun k hk => (this k hk).ext ⟨rfl, fun _ _ h => h, List.subset_cons_self _ _⟩

/-- A range whose tile hashes are all bound is rebuilt to the tree hash of the leaves. -/
theorem range_bound {lo w : Nat} {r r' : TreeReader σ} {v : Hash} (ha : Aligned lo w) (hw : 0 < w)
    (hrun : range sha256 src lo (lo + w) none r = .ok (v, r'))
    (hb : ∀ h i, InBlocks lo w h i → BoundBlock sha256 leafAt r h i) :
    v = rangeHash (node sha256) leafAt lo w := by
  induction w using Nat.strong_induction_on generalizing lo r r' v with
  | _ w ih =>
    have hidx : ∀ {b}, 2 ^ b ≤ w → lo / 2 ^ b * 2 ^ b = lo := fun hb => Nat.div_mul_cancel (ha.dvd hb)
    rcases range_aligned sha256 src ha hw with ⟨b, rfl, heq⟩ | ⟨b, w', rfl, hpos, hlt, hsplit, heq⟩
    · rw [heq] at hrun
      have hi := hidx (Nat.le_refl _)
      rw [subtree_bound hrun (hb _ _ (inBlocks_first hi)), hi]
    · rw [heq] at hrun
      obtain ⟨a, r₁, hl, hrun⟩ := Read.bind_ok.mp hrun
      obtain ⟨c, r₂, hr, hrun⟩ := Read.bind_ok.mp hrun
      rw [nodeHash_ok] at hrun
      simp only [Except.ok.injEq, Prod.mk.injEq] at hrun
      obtain ⟨rfl, -⟩ := hrun
      have hi := hidx (b := b) (by omega)
      rw [rangeHash_split _ _ (by omega), hsplit, Nat.add_sub_cancel_left]
      congr 1
      · rw [subtree_bound hl (hb _ _ ((inBlocks_add _ _ hlt).mpr (.inl ⟨rfl, hi⟩))), hi]
      · refine ih w' (by have := Nat.two_pow_pos b; omega) (ha.right hlt) hpos hr (fun h i hbl => ?_)
        have := hb h i ((inBlocks_add _ _ hlt).mpr (.inr hbl))
        exact fun k hk => (this k hk).ext (subtree_ok hl).1

end

end Emela.Pome
