import Emela.Pome.Lemmas.Consistency
import Emela.Pome.Records

/-!
# Trees that are prefixes of each other

What an accepted consistency check says of two roots without their leaves: the blocks of the smaller tree are below
both roots. Said so, it goes from check to check.
-/

namespace Emela.Pome

open Merkle

/-! ## Blocks and hashes -/

theorem inBlocks_range {lo w h i : Nat} (hb : InBlocks lo w h i) : lo ≤ i * 2 ^ h ∧ i * 2 ^ h + 2 ^ h ≤ lo + w := by
  obtain ⟨hbit, hi⟩ := hb
  rw [Nat.testBit_eq_decide_div_mod_eq, decide_eq_true_eq] at hbit
  have hodd : w / 2 ^ h = 2 * (w / 2 ^ (h + 1)) + 1 := by
    rw [pow_succ, ← Nat.div_div_eq_div_mul]
    omega
  have hle := Nat.div_mul_le_self w (2 ^ h)
  have hpow : w / 2 ^ (h + 1) * 2 ^ (h + 1) + 2 ^ h = w / 2 ^ h * 2 ^ h := by
    rw [hodd, pow_succ]
    ring
  omega

section
variable {H : Type} {node : H → H → H} {known : Set (H × H)}

/-- The blocks of a tree are below its hash. -/
theorem below_blocks {leaf : Nat → H} {lo w h i : Nat} (ha : Aligned lo w) (hw : 0 < w)
    (hknown : ∀ p ∈ rangePairs node leaf lo w, p ∈ known) (hb : InBlocks lo w h i) :
    Below node known (rangeHash node leaf lo w) lo w (rangeHash node leaf (i * 2 ^ h) (2 ^ h)) (i * 2 ^ h) (2 ^ h) := by
  induction w using Nat.strong_induction_on generalizing lo with
  | _ w ih =>
    by_cases hp : w = 2 ^ w.log2
    · rw [hp] at hb
      obtain ⟨rfl, hi⟩ := inBlocks_two_pow hb
      rw [hi, ← hp]
      exact .refl
    · obtain ⟨b, w', rfl, hpos, hlt, hsplit⟩ := exists_add_of_ne hw hp
      have h2 : 2 ≤ 2 ^ b + w' := by
        have := Nat.two_pow_pos b
        omega
      rw [rangePairs_split _ _ h2, hsplit, Nat.add_sub_cancel_left] at hknown
      rw [rangeHash_split _ _ h2, hsplit, Nat.add_sub_cancel_left]
      rcases (inBlocks_add _ _ hlt).mp hb with ⟨rfl, hi⟩ | hb'
      · refine .left rfl (hknown _ List.mem_cons_self) h2 ?_
        rw [hi, hsplit]
        exact .refl
      · refine .right rfl (hknown _ List.mem_cons_self) h2 ?_
        rw [hsplit, Nat.add_sub_cancel_left]
        exact ih w' (by omega) (ha.right hlt) hpos (fun p hp => hknown p (by simp [hp])) hb'

/-- Two hashes over the same blocks are the same. -/
theorem eq_of_blocks {v u : H} {lo w : Nat} (hinj : Set.InjOn (Function.uncurry node) known) (ha : Aligned lo w)
    (hw : 0 < w) (hblocks : ∀ h i, InBlocks lo w h i →
      ∃ x, Below node known v lo w x (i * 2 ^ h) (2 ^ h) ∧ Below node known u lo w x (i * 2 ^ h) (2 ^ h)) :
    v = u := by
  induction w using Nat.strong_induction_on generalizing lo v u with
  | _ w ih =>
    by_cases hp : w = 2 ^ w.log2
    · obtain ⟨b, rfl⟩ : ∃ b, w = 2 ^ b := ⟨_, hp⟩
      have hd : lo / 2 ^ b * 2 ^ b = lo := Nat.div_mul_cancel (ha.dvd (Nat.le_refl _))
      obtain ⟨x, hx, hx'⟩ := hblocks b (lo / 2 ^ b) (inBlocks_first hd)
      rw [hd] at hx hx'
      exact (hx.unique hinj hw .refl).trans (hx'.unique hinj hw .refl).symm
    · obtain ⟨b, w', rfl, hpos, hlt, hsplit⟩ := exists_add_of_ne hw hp
      have h2 : 2 ≤ 2 ^ b + w' := by
        have := Nat.two_pow_pos b
        omega
      have hd : lo / 2 ^ b * 2 ^ b = lo := Nat.div_mul_cancel (ha.dvd (by omega))
      obtain ⟨x, hx, hx'⟩ := hblocks b (lo / 2 ^ b) ((inBlocks_add _ _ hlt).mpr (.inl ⟨rfl, hd⟩))
      rw [hd] at hx hx'
      obtain ⟨c, rfl, hc⟩ := hx.eq_node hinj h2 hsplit
      obtain ⟨c', rfl, hc'⟩ := hx'.eq_node hinj h2 hsplit
      rw [Nat.add_sub_cancel_left] at hc hc'
      have hright := ih w' (by omega) (v := c) (u := c') (ha.right hlt) hpos
        fun h i hb => by
          obtain ⟨y, hy, hy'⟩ := hblocks h i ((inBlocks_add _ _ hlt).mpr (.inr hb))
          have hr := inBlocks_range hb
          exact ⟨y, hc.nested hinj hy (Nat.two_pow_pos h) hr.1 hr.2,
            hc'.nested hinj hy' (Nat.two_pow_pos h) hr.1 hr.2⟩
      rw [hright]

end

/-! ## What the reader read -/

/-- The pairs of hashes among the inputs hashed. -/
def knownPairs (inputs : List (List UInt8)) : Set (Hash × Hash) := {p | nodeInput p.1 p.2 ∈ inputs}

section
variable {σ ε : Type} {sha256 : List UInt8 → Hash} {src : TileSource σ ε}

theorem mem_knownPairs {inputs : List (List UInt8)} {leaf : Nat → Hash} {lo n : Nat}
    (hsub : nodeInputs sha256 leaf lo n ⊆ inputs) : ∀ p ∈ rangePairs (node sha256) leaf lo n, p ∈ knownPairs inputs :=
  fun p hp => hsub (List.mem_map.mpr ⟨p, hp, rfl⟩)

/-- The hash of the subtree of height `h` at `i`, as the tiles read give it. -/
def TreeReader.blockHash (sha256 : List UInt8 → Hash) (r : TreeReader σ) (h i : Nat) : Hash :=
  rangeHash (node sha256) (r.tileHash (h / TILE_HEIGHT)) (i * 2 ^ (h % TILE_HEIGHT)) (2 ^ (h % TILE_HEIGHT))

/-- The inputs of that hash. -/
def TreeReader.blockInputs (sha256 : List UInt8 → Hash) (r : TreeReader σ) (h i : Nat) : List (List UInt8) :=
  nodeInputs sha256 (r.tileHash (h / TILE_HEIGHT)) (i * 2 ^ (h % TILE_HEIGHT)) (2 ^ (h % TILE_HEIGHT))

theorem subtree_block {h i : Nat} {r r' R : TreeReader σ} {v : Hash}
    (hrun : subtree sha256 src h i r = .ok (v, r')) (hext : r'.Ext R) :
    v = R.blockHash sha256 h i ∧ R.blockInputs sha256 h i ⊆ R.hashed := by
  obtain ⟨-, hhas, hval, hlog⟩ := subtree_ok hrun
  have hsame : ∀ k < 2 ^ (h % TILE_HEIGHT),
      r'.tileHash (h / TILE_HEIGHT) (i * 2 ^ (h % TILE_HEIGHT) + k) =
        R.tileHash (h / TILE_HEIGHT) (i * 2 ^ (h % TILE_HEIGHT) + k) :=
    fun k hk => (hext.tileHash (hhas k hk)).symm
  refine ⟨hval.trans (rangeHash_congr _ _ _ _ _ (Nat.two_pow_pos _) hsame), fun x hx => hext.hashed ((hlog x).mpr (.inr ?_))⟩
  rwa [nodeInputs, rangePairs_congr _ _ _ _ _ hsame]

/-- The blocks of a rebuilt range are below its hash. -/
theorem range_blocks {lo w h i : Nat} {r r' R : TreeReader σ} {v : Hash} (ha : Aligned lo w) (hw : 0 < w)
    (hrun : range sha256 src lo (lo + w) none r = .ok (v, r')) (hext : r'.Ext R) (hb : InBlocks lo w h i) :
    R.blockInputs sha256 h i ⊆ R.hashed ∧
      Below (node sha256) (knownPairs R.hashed) v lo w (R.blockHash sha256 h i) (i * 2 ^ h) (2 ^ h) := by
  induction w using Nat.strong_induction_on generalizing lo r r' v with
  | _ w ih =>
    have hcancel : ∀ {b}, i * 2 ^ b = lo → lo / 2 ^ b = i := fun hb => by
      rw [← hb, Nat.mul_div_cancel _ (Nat.two_pow_pos _)]
    rcases range_aligned sha256 src ha hw with ⟨b, rfl, heq⟩ | ⟨b, w', rfl, hpos, hlt, hsplit, heq⟩
    · obtain ⟨rfl, hi⟩ := inBlocks_two_pow hb
      rw [heq, hcancel hi] at hrun
      obtain ⟨rfl, hin⟩ := subtree_block hrun hext
      rw [hi]
      exact ⟨hin, .refl⟩
    · rw [heq] at hrun
      obtain ⟨a, r₁, hl, hrun⟩ := Read.bind_ok.mp hrun
      obtain ⟨c, r₂, hr, hrun⟩ := Read.bind_ok.mp hrun
      rw [nodeHash_ok] at hrun
      simp only [Except.ok.injEq, Prod.mk.injEq] at hrun
      obtain ⟨rfl, rfl⟩ := hrun
      have h2 : 2 ≤ 2 ^ b + w' := by
        have := Nat.two_pow_pos b
        omega
      have hknown : (a, c) ∈ knownPairs R.hashed := hext.hashed List.mem_cons_self
      have hext₂ : r₂.Ext R := ⟨hext.size, hext.tiles, fun x hx => hext.hashed (List.mem_cons_of_mem _ hx)⟩
      rcases (inBlocks_add _ _ hlt).mp hb with ⟨rfl, hi⟩ | hb'
      · rw [hcancel hi] at hl
        obtain ⟨rfl, hin⟩ := subtree_block hl ((range_ext hr).trans hext₂)
        refine ⟨hin, .left rfl hknown h2 ?_⟩
        rw [hi, hsplit]
        exact .refl
      · obtain ⟨hin, hbelow⟩ := ih w' (by omega) (ha.right hlt) hpos hr hext₂ hb'
        refine ⟨hin, .right rfl hknown h2 ?_⟩
        rwa [hsplit, Nat.add_sub_cancel_left]

/-- A block of one level in another is below it. -/
theorem below_blockHash {R : TreeReader σ} {h e i : Nat} (hlevel : (h + e) / TILE_HEIGHT = h / TILE_HEIGHT)
    (hin : R.blockInputs sha256 (h + e) (i / 2 ^ e) ⊆ R.hashed) :
    Below (node sha256) (knownPairs R.hashed) (R.blockHash sha256 (h + e) (i / 2 ^ e)) (i / 2 ^ e * 2 ^ (h + e))
      (2 ^ (h + e)) (R.blockHash sha256 h i) (i * 2 ^ h) (2 ^ h) := by
  have hmod : (h + e) % TILE_HEIGHT = h % TILE_HEIGHT + e := by
    simp only [TILE_HEIGHT] at hlevel ⊢
    omega
  have hknown := mem_knownPairs hin
  rw [hlevel, hmod] at hknown
  have hbelow := below_rangeHash (R.tileHash (h / TILE_HEIGHT)) (TILE_HEIGHT * (h / TILE_HEIGHT)) (h % TILE_HEIGHT) e i
    hknown
  have hsum : h % TILE_HEIGHT + e + TILE_HEIGHT * (h / TILE_HEIGHT) = h + e := by
    rw [← hmod, ← hlevel, Nat.mod_add_div]
  rw [hsum, Nat.mod_add_div] at hbelow
  rwa [TreeReader.blockHash, TreeReader.blockHash, hlevel, hmod]

/-! ## Prefixes -/

/-- The low bits of the smaller size below the level of the highest differing bit are zero. -/
def LowBitsZero (old new : Nat) : Prop := old % 2 ^ (TILE_HEIGHT * (topDiff old new / TILE_HEIGHT)) = 0

instance (old new : Nat) : Decidable (LowBitsZero old new) := inferInstanceAs (Decidable (_ = _))

/-- The node at the block `(h, i)` of the tree of a checkpoint. -/
abbrev Reaches (sha256 : List UInt8 → Hash) (inputs : List (List UInt8)) (c : Checkpoint) (x : Hash) (h i : Nat) : Prop :=
  Below (node sha256) (knownPairs inputs) c.root 0 c.size x (i * 2 ^ h) (2 ^ h)

/-- What was hashed shows that the tree of `a` is a prefix of the tree of `b`. -/
structure PrefixOf (sha256 : List UInt8 → Hash) (inputs : List (List UInt8)) (a b : Checkpoint) : Prop where
  le : a.size ≤ b.size
  empty : a.size = 0 → a.root = sha256 []
  empty' : b.size = 0 → b.root = sha256 []
  blocks : ∀ h i, InBlocks 0 a.size h i → ∃ x, Reaches sha256 inputs a x h i ∧ Reaches sha256 inputs b x h i

variable {inputs : List (List UInt8)} {a b c : Checkpoint}

theorem knownPairs_mono {inputs' : List (List UInt8)} (hsub : inputs ⊆ inputs') :
    knownPairs inputs ⊆ knownPairs inputs' := fun _ hp => hsub hp

/-- A block of a size lies in a block of every larger size. -/
theorem inBlocks_of_le {old new h i : Nat} (hle : old ≤ new) (hb : InBlocks 0 old h i) :
    ∃ e, InBlocks 0 new (h + e) (i / 2 ^ e) ∧ (e = 0 ∨ h + e = topDiff old new) := by
  rcases Nat.lt_or_eq_of_le hle with hlt | rfl
  · exact inBlocks_of_lt hlt hb
  · refine ⟨0, ?_, .inl rfl⟩
    rwa [Nat.add_zero, pow_zero, Nat.div_one]

/-- The leaves of a block are among those of the block it lies in. -/
theorem block_in {h e i : Nat} :
    i / 2 ^ e * 2 ^ (h + e) ≤ i * 2 ^ h ∧ i * 2 ^ h + 2 ^ h ≤ i / 2 ^ e * 2 ^ (h + e) + 2 ^ (h + e) := by
  have hlt : i < (i / 2 ^ e + 1) * 2 ^ e := Nat.lt_mul_of_div_lt (Nat.lt_succ_self _) (Nat.two_pow_pos e)
  have hle : i / 2 ^ e * 2 ^ e ≤ i := Nat.div_mul_le_self i (2 ^ e)
  constructor
  · calc i / 2 ^ e * 2 ^ (h + e) = i / 2 ^ e * 2 ^ e * 2 ^ h := by rw [pow_add]; ring
      _ ≤ i * 2 ^ h := Nat.mul_le_mul_right _ hle
  · calc i * 2 ^ h + 2 ^ h = (i + 1) * 2 ^ h := by ring
      _ ≤ (i / 2 ^ e + 1) * 2 ^ e * 2 ^ h := Nat.mul_le_mul_right _ hlt
      _ = i / 2 ^ e * 2 ^ (h + e) + 2 ^ (h + e) := by rw [pow_add]; ring

namespace PrefixOf

theorem mono {inputs' : List (List UInt8)} (hsub : inputs ⊆ inputs') (h : PrefixOf sha256 inputs a b) :
    PrefixOf sha256 inputs' a b := by
  refine ⟨h.le, h.empty, h.empty', fun k i hb => ?_⟩
  obtain ⟨x, hx, hx'⟩ := h.blocks k i hb
  exact ⟨x, hx.mono (knownPairs_mono hsub), hx'.mono (knownPairs_mono hsub)⟩

theorem symm (h : PrefixOf sha256 inputs a b) (hsize : a.size = b.size) : PrefixOf sha256 inputs b a := by
  refine ⟨hsize.ge, h.empty', h.empty, fun k i hb => ?_⟩
  rw [← hsize] at hb
  obtain ⟨x, hx, hx'⟩ := h.blocks k i hb
  exact ⟨x, hx', hx⟩

theorem root_eq (hnc : NoCollision sha256 inputs) (h : PrefixOf sha256 inputs a b) (hsize : a.size = b.size) :
    a.root = b.root := by
  rcases Nat.eq_zero_or_pos a.size with h0 | hpos
  · exact (h.empty h0).trans (h.empty' (hsize ▸ h0)).symm
  · apply eq_of_blocks hnc.node_injOn (aligned_zero a.size) hpos
    intro k i hb
    obtain ⟨x, hx, hx'⟩ := h.blocks k i hb
    unfold Reaches at hx'
    rw [← hsize] at hx'
    exact ⟨x, hx, hx'⟩

theorem trans (hnc : NoCollision sha256 inputs) (hab : PrefixOf sha256 inputs a b) (hbc : PrefixOf sha256 inputs b c) :
    PrefixOf sha256 inputs a c := by
  refine ⟨hab.le.trans hbc.le, hab.empty, hbc.empty', fun k i hb => ?_⟩
  obtain ⟨x, hax, hbx⟩ := hab.blocks k i hb
  obtain ⟨e, hb', -⟩ := inBlocks_of_le hab.le hb
  obtain ⟨y, hby, hcy⟩ := hbc.blocks _ _ hb'
  have hyx := hby.nested hnc.node_injOn hbx (Nat.two_pow_pos k) block_in.1 block_in.2
  exact ⟨x, hax, hcy.trans hyx⟩

/-- Of two prefixes of one tree the smaller is a prefix of the larger. -/
theorem of_le (hnc : NoCollision sha256 inputs) (hac : PrefixOf sha256 inputs a c) (hbc : PrefixOf sha256 inputs b c)
    (hle : a.size ≤ b.size) : PrefixOf sha256 inputs a b := by
  refine ⟨hle, hac.empty, hbc.empty, fun k i hb => ?_⟩
  obtain ⟨x, hax, hcx⟩ := hac.blocks k i hb
  obtain ⟨e, hb', -⟩ := inBlocks_of_le hle hb
  obtain ⟨y, hby, hcy⟩ := hbc.blocks _ _ hb'
  have hyx := hcy.nested hnc.node_injOn hcx (Nat.two_pow_pos k) block_in.1 block_in.2
  exact ⟨x, hax, hby.trans hyx⟩

end PrefixOf

end

end Emela.Pome
