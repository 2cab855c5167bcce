import Emela.Pome.Lemmas.Consistency

/-!
# A tile source that forges an old root

Where the old size has low bits below the level of the highest differing bit, the old root is rebuilt
from tiles the new root does not bind. The source here answers with the hashes of one tree, except in
the tiles below that level, and the toy hash under it has no collision among the inputs hashed.

A toy hash counts the leaves under a node and keeps a tag: the tag of the right child.
-/

namespace Emela.Pome

open Merkle

/-! ## The toy hash -/

/-- The 32 bytes of a number, the lowest first. -/
def enc (c : Nat) : Hash := Vector.ofFn fun j => UInt8.ofNat (c / 256 ^ j.val)

/-- The number of some bytes. -/
def dec (bytes : List UInt8) : Nat := bytes.foldr (fun b n => b.toNat + 256 * n) 0

theorem dec_digits (c k n : Nat) :
    dec ((List.range' k n).map fun j => UInt8.ofNat (c / 256 ^ j)) = c / 256 ^ k % 256 ^ n := by
  induction n generalizing k with
  | zero => simp [dec, Nat.mod_one]
  | succ n ih =>
    have hstep : dec ((List.range' k (n + 1)).map fun j => UInt8.ofNat (c / 256 ^ j)) =
        c / 256 ^ k % 256 + 256 * dec ((List.range' (k + 1) n).map fun j => UInt8.ofNat (c / 256 ^ j)) := by
      rw [List.range'_succ, List.map_cons, dec, List.foldr_cons, UInt8.toNat_ofNat']
      rfl
    rw [hstep, ih, pow_succ 256 k, ← Nat.div_div_eq_div_mul, pow_succ' 256 n, Nat.mod_mul]

theorem dec_enc {c : Nat} (h : c < 256 ^ 32) : dec (enc c).toList = c := by
  have hlist : (enc c).toList = (List.range' 0 32).map fun j => UInt8.ofNat (c / 256 ^ j) := by
    refine List.ext_getElem (by simp) (fun j h₁ h₂ => ?_)
    simp [enc]
  rw [hlist, dec_digits, pow_zero, Nat.div_one, Nat.mod_eq_of_lt h]

/-- The hash of a node over `n` leaves with the tag `t`. -/
def code (n : Nat) (t : Bool) : Hash := enc (2 * n + t.toNat)

theorem dec_code {n : Nat} {t : Bool} (h : n < 2 ^ 64) : dec (code n t).toList = 2 * n + t.toNat := by
  refine dec_enc ?_
  have := Bool.toNat_le t
  omega

theorem code_injective {n m : Nat} {t s : Bool} (hn : n < 2 ^ 64) (hm : m < 2 ^ 64)
    (h : code n t = code m s) : n = m ∧ t = s := by
  have := congrArg (fun v => dec v.toList) h
  simp only [dec_code hn, dec_code hm] at this
  have h₁ := Bool.toNat_le t
  have h₂ := Bool.toNat_le s
  exact ⟨by omega, by cases t <;> cases s <;> simp at this ⊢ <;> omega⟩

/-- Adds the leaves of the two halves after the first byte and keeps the tag of the second. -/
def toyHash (input : List UInt8) : Hash :=
  match input with
  | 0x01 :: children =>
      let left := dec (children.take 32)
      let right := dec (children.drop 32)
      code (left / 2 + right / 2) (right % 2 == 1)
  | _ => code 1 false

theorem node_code {n m : Nat} {t s : Bool} (hn : n < 2 ^ 64) (hm : m < 2 ^ 64) :
    node toyHash (code n t) (code m s) = code (n + m) s := by
  have ht := Bool.toNat_le t
  have hs := Bool.toNat_le s
  simp only [node, nodeInput, toyHash]
  rw [List.take_left' (by simp), List.drop_left' (by simp), dec_code hn, dec_code hm]
  congr 1
  · omega
  · cases s <;> simp

/-! ## Inputs without a collision -/

/-- What is hashed for the forged source: two halves in the shape of the tree, where the tag of the
left half follows from its width and the tag of the right half. -/
def Shaped (L : Nat) (input : List UInt8) : Prop :=
  ∃ n m t, 1 ≤ m ∧ n + m < 2 ^ 64 ∧ n = split (n + m) ∧
    input = nodeInput (code n (t && decide (n < 2 ^ (TILE_HEIGHT * L)))) (code m t)

theorem noCollision_shaped {L : Nat} (inputs : List (List UInt8)) (h : ∀ x ∈ inputs, Shaped L x) :
    NoCollision toyHash inputs := by
  intro x hx y hy heq
  obtain ⟨n, m, t, -, hlt, hsplit, rfl⟩ := h x hx
  obtain ⟨n', m', t', -, hlt', hsplit', rfl⟩ := h y hy
  have : code (n + m) t = code (n' + m') t' := by
    rw [← node_code (by omega) (by omega), ← node_code (by omega) (by omega)]
    exact heq
  obtain ⟨hsum, rfl⟩ := code_injective hlt hlt' this
  obtain rfl : n = n' := by rw [hsplit, hsplit', hsum]
  obtain rfl : m = m' := by omega
  rfl

/-- An input of the hash of a leaf does not collide with a node. -/
theorem noCollision_cons_shaped (leaf : List UInt8) {L : Nat} {inputs : List (List UInt8)}
    (hleaf : toyHash leaf = code 1 false) (h : ∀ x ∈ inputs, x = leaf ∨ Shaped L x) :
    NoCollision toyHash inputs := by
  have hne : ∀ x, Shaped L x → toyHash x ≠ code 1 false := by
    rintro x ⟨n, m, t, hm, hlt, hsplit, rfl⟩ heq
    have hn : 0 < n := hsplit ▸ split_pos _
    change node toyHash _ _ = _ at heq
    rw [node_code (by omega) (by omega)] at heq
    have := (code_injective hlt (by decide) heq).1
    omega
  intro x hx y hy heq
  rcases h x hx with rfl | hx' <;> rcases h y hy with rfl | hy'
  · rfl
  · exact absurd (heq.symm.trans hleaf) (hne y hy')
  · exact absurd (heq.trans hleaf) (hne x hx')
  · exact noCollision_shaped (L := L) [x, y] (by simp [hx', hy']) x (by simp) y (by simp) heq

/-! ## The tree of equal leaves -/

theorem rangeHash_const (lo : Nat) {w : Nat} (hw : 1 ≤ w) (hlt : w < 2 ^ 64) :
    rangeHash (node toyHash) (fun _ => code 1 false) lo w = code w false := by
  induction w using Nat.strong_induction_on generalizing lo with
  | _ w ih =>
    by_cases h1 : w ≤ 1
    · obtain rfl : w = 1 := by omega
      exact rangeHash_le_one _ _ h1
    · have hs := split_lt (n := w) (by omega)
      have hpos := split_pos w
      rw [rangeHash_split _ _ (by omega), ih _ hs _ hpos (by omega), ih _ (by omega) _ (by omega) (by omega),
        node_code (by omega) (by omega)]
      congr 1; omega

theorem shaped_const {L lo w : Nat} (hlt : w < 2 ^ 64) {x : List UInt8}
    (hx : x ∈ nodeInputs toyHash (fun _ => code 1 false) lo w) : Shaped L x := by
  induction w using Nat.strong_induction_on generalizing lo with
  | _ w ih =>
    by_cases h1 : w ≤ 1
    · simp [nodeInputs, rangePairs_le_one _ _ h1] at hx
    · have hs := split_lt (n := w) (by omega)
      have hpos := split_pos w
      rw [nodeInputs_split (by omega), rangeHash_const _ hpos (by omega), rangeHash_const _ (by omega) (by omega)] at hx
      rcases List.mem_cons.mp hx with rfl | hx
      · refine ⟨split w, w - split w, false, by omega, by omega, ?_, rfl⟩
        congr 1; omega
      · rcases List.mem_append.mp hx with hx | hx
        · exact ih _ hs (by omega) hx
        · exact ih _ (by omega) (by omega) hx

theorem mth_const {w : Nat} (hw : 1 ≤ w) (hlt : w < 2 ^ 64) :
    mth toyHash (List.replicate w (code 1 false)) = code w false := by
  unfold mth treeHash
  rw [if_neg (by simp; omega), List.length_replicate, ← rangeHash_const 0 hw hlt]
  refine rangeHash_congr _ _ _ _ _ hw (fun i hi => ?_)
  simp [List.getD_eq_getElem?_getD, hi]

theorem shaped_mthInputs {L w : Nat} (hw : 1 ≤ w) (hlt : w < 2 ^ 64) {x : List UInt8}
    (hx : x ∈ mthInputs toyHash (List.replicate w (code 1 false))) : Shaped L x := by
  have hpairs : rangePairs (node toyHash) (fun i => (List.replicate w (code 1 false)).getD i default) 0 w =
      rangePairs (node toyHash) (fun _ => code 1 false) 0 w :=
    rangePairs_congr _ _ 0 0 w (fun i hi => by simp [List.getD_eq_getElem?_getD, hi])
  unfold mthInputs at hx
  rw [if_neg (by simp; omega), List.length_replicate,
    hpairs] at hx
  exact shaped_const hlt hx

/-! ## The source -/

section
variable (d q : Nat)

/-- The hash served for the subtree of height `8 * level` at `k`: the tag is set below the level of
bit `d`, in the block of that bit at index `2q`. -/
def forgedHash (level k : Nat) : Hash :=
  code (2 ^ (TILE_HEIGHT * level))
    (decide (level < d / TILE_HEIGHT) && decide (k * 2 ^ (TILE_HEIGHT * level) / 2 ^ d = 2 * q))

def forgedData (tile : Tile) : List UInt8 :=
  (List.range (tile.width * 32)).map fun p =>
    (forgedHash d q tile.level (tile.index * TILE_WIDTH + p / 32)).toList.getD (p % 32) 0

def forged : TileSource Unit Unit where
  tile _ tile := .ok (forgedData d q tile, ())

/-- The tiles read so far are those of the forged source. -/
def Serves (r : TreeReader Unit) : Prop := ∀ t data, r.tiles t = some data → data = forgedData d q t

end

section
variable {d q : Nat}

theorem hashAt_forgedData {tile : Tile} {i : Nat} (hi : i < tile.width) :
    hashAt (forgedData d q tile) i = forgedHash d q tile.level (tile.index * TILE_WIDTH + i) := by
  refine Vector.ext (fun j hj => ?_)
  have hp : 32 * i + j < tile.width * 32 := by omega
  have hdiv : (32 * i + j) / 32 = i := by omega
  have hmod : (32 * i + j) % 32 = j := by omega
  simp [hashAt, forgedData, List.getD_eq_getElem?_getD, hp, hdiv, hmod, hj]

theorem foldLevel_total (hashes : List Hash) (r : TreeReader Unit) :
    ∃ hs r', (foldLevel toyHash hashes : Read Unit Unit _) r = .ok (hs, r') ∧ r'.tiles = r.tiles := by
  fun_induction foldLevel toyHash hashes generalizing r with
  | case1 a b rest ih =>
    obtain ⟨hs, r', hrun, ht⟩ := ih { r with hashed := nodeInput a b :: r.hashed }
    exact ⟨_, r', Read.bind_ok.mpr ⟨_, _, nodeHash_ok, Read.bind_ok.mpr ⟨_, _, hrun, rfl⟩⟩, ht⟩
  | case2 => exact ⟨_, r, rfl, rfl⟩

theorem fold_total (fuel : Nat) (hashes : List Hash) (r : TreeReader Unit) :
    ∃ v r', (fold toyHash fuel hashes : Read Unit Unit _) r = .ok (v, r') ∧ r'.tiles = r.tiles := by
  induction fuel generalizing hashes r with
  | zero => exact ⟨_, r, rfl, rfl⟩
  | succ fuel ih =>
    rw [fold]
    split
    · obtain ⟨hs, r₁, hrun, ht⟩ := foldLevel_total hashes r
      obtain ⟨v, r₂, hrun₂, ht₂⟩ := ih hs r₁
      exact ⟨v, r₂, Read.bind_ok.mpr ⟨_, _, hrun, hrun₂⟩, ht₂.trans ht⟩
    · exact ⟨_, r, rfl, rfl⟩

theorem tileData_forged (tile : Tile) {r : TreeReader Unit} (hs : Serves d q r) :
    ∃ r', tileData (forged d q) tile r = .ok (forgedData d q tile, r') ∧ Serves d q r' := by
  unfold tileData
  cases ht : r.tiles tile with
  | some data => exact ⟨r, by simp [hs _ _ ht], hs⟩
  | none =>
    refine ⟨_, by simp only [forged]; rw [if_neg (by simp [forgedData])], fun t data h => ?_⟩
    by_cases hne : t = tile
    · subst hne
      simpa using h.symm
    · exact hs _ _ (by simpa [Function.update_of_ne hne] using h)

/-- A reader of the forged tiles has the forged hashes. -/
theorem tileHash_forged {r : TreeReader Unit} (hs : Serves d q r) {level k : Nat} (hk : r.Has level k)
    (hsize : (k + 1) * 2 ^ (TILE_HEIGHT * level) ≤ r.size) : r.tileHash level k = forgedHash d q level k := by
  obtain ⟨data, hd⟩ := Option.isSome_iff_exists.mp hk
  have hcount : k + 1 ≤ r.size >>> (level * TILE_HEIGHT) := by
    rw [Nat.shiftRight_eq_div_pow, Nat.le_div_iff_mul_le (Nat.two_pow_pos _), Nat.mul_comm level]
    exact hsize
  have hmod := Nat.div_add_mod k TILE_WIDTH
  have hlt := Nat.mod_lt k (show TILE_WIDTH > 0 by decide)
  rw [TreeReader.tileHash, hd, Option.getD_some, hs _ _ hd, hashAt_forgedData]
  · simp only [tileOf]
    rw [Nat.mul_comm (k / TILE_WIDTH), hmod]
  · simp only [tileOf]
    rw [Nat.mul_comm (k / TILE_WIDTH)]
    omega

/-! ## Rebuilding from the forged tiles -/

theorem rangeHash_tagged {leaf : Nat → Hash} {a m lo : Nat} {t : Bool} (hlt : 2 ^ (a + m) < 2 ^ 64)
    (hleaf : ∀ k < 2 ^ m, leaf (lo + k) = code (2 ^ a) t) :
    rangeHash (node toyHash) leaf lo (2 ^ m) = code (2 ^ (a + m)) t := by
  induction m generalizing lo with
  | zero => simpa [rangeHash_le_one] using hleaf 0
  | succ m ih =>
    have h2 : 2 ^ (a + (m + 1)) = 2 ^ (a + m) + 2 ^ (a + m) := by rw [← Nat.add_assoc, pow_succ]; omega
    rw [pow_succ] at hleaf
    rw [rangeHash_two_pow, ih (by omega) (fun k hk => hleaf k (by omega)),
      ih (by omega) (fun k hk => by rw [Nat.add_assoc]; exact hleaf _ (by omega)),
      node_code (by omega) (by omega), h2]

theorem shaped_tagged {leaf : Nat → Hash} {a m lo : Nat} {t : Bool} (hlt : 2 ^ (a + m) < 2 ^ 64)
    (hleaf : ∀ k < 2 ^ m, leaf (lo + k) = code (2 ^ a) t) {L : Nat} (ht : t = true → a + m ≤ TILE_HEIGHT * L)
    {x : List UInt8} (hx : x ∈ nodeInputs toyHash leaf lo (2 ^ m)) : Shaped L x := by
  induction m generalizing lo with
  | zero => simp [nodeInputs, rangePairs_le_one] at hx
  | succ m ih =>
    have h2 : 2 ^ (a + (m + 1)) = 2 ^ (a + m) + 2 ^ (a + m) := by rw [← Nat.add_assoc, pow_succ]; omega
    have hm : 2 ≤ 2 ^ (m + 1) := by rw [pow_succ]; have := Nat.two_pow_pos m; omega
    have hpos := Nat.two_pow_pos (a + m)
    rw [pow_succ] at hleaf
    have hl : ∀ k < 2 ^ m, leaf (lo + k) = code (2 ^ a) t := fun k hk => hleaf k (by omega)
    have hr : ∀ k < 2 ^ m, leaf (lo + 2 ^ m + k) = code (2 ^ a) t := fun k hk => by
      rw [Nat.add_assoc]; exact hleaf _ (by omega)
    rw [nodeInputs_split hm, split_two_pow, show 2 ^ (m + 1) - 2 ^ m = 2 ^ m by rw [pow_succ]; omega,
      rangeHash_tagged (by omega) hl, rangeHash_tagged (by omega) hr] at hx
    rcases List.mem_cons.mp hx with rfl | hx
    · refine ⟨2 ^ (a + m), 2 ^ (a + m), t, hpos, by omega, ?_, ?_⟩
      · rw [← h2, ← Nat.add_assoc, split_two_pow]
      · cases t with
        | false => rfl
        | true =>
          have : 2 ^ (a + m) < 2 ^ (TILE_HEIGHT * L) := by
            have := ht rfl
            exact Nat.pow_lt_pow_right (by decide) (by omega)
          simp [this]
    · rcases List.mem_append.mp hx with hx | hx
      · exact ih (by omega) hl (fun h => by have := ht h; omega) hx
      · exact ih (by omega) hr (fun h => by have := ht h; omega) hx

/-- The tag of the subtree of height `h` at `i`. -/
def blockTag (d q h i : Nat) : Bool :=
  decide (h / TILE_HEIGHT < d / TILE_HEIGHT) && decide (i * 2 ^ h / 2 ^ d = 2 * q)

/-- The hashes of one subtree have one tag. -/
theorem forgedHash_block {h i k : Nat} (hk : k < 2 ^ (h % TILE_HEIGHT)) :
    forgedHash d q (h / TILE_HEIGHT) (i * 2 ^ (h % TILE_HEIGHT) + k) =
      code (2 ^ (TILE_HEIGHT * (h / TILE_HEIGHT))) (blockTag d q h i) := by
  unfold forgedHash blockTag
  congr 1
  by_cases hl : h / TILE_HEIGHT < d / TILE_HEIGHT
  · set a := TILE_HEIGHT * (h / TILE_HEIGHT) with ha
    obtain ⟨e, he⟩ : ∃ e, d = h + e := ⟨d - h, by simp only [TILE_HEIGHT] at hl; omega⟩
    have hsplit : 2 ^ h = 2 ^ (h % TILE_HEIGHT) * 2 ^ a := by
      rw [← pow_add, Nat.add_comm, ha, Nat.div_add_mod]
    have hlow : k * 2 ^ a < 2 ^ h := by
      rw [hsplit]; exact Nat.mul_lt_mul_of_pos_right hk (Nat.two_pow_pos a)
    have hnum : (i * 2 ^ (h % TILE_HEIGHT) + k) * 2 ^ a / 2 ^ d = i * 2 ^ h / 2 ^ d := by
      rw [Nat.add_mul, Nat.mul_assoc, ← hsplit, he, pow_add, ← Nat.div_div_eq_div_mul,
        ← Nat.div_div_eq_div_mul, Nat.mul_comm i, Nat.mul_add_div (Nat.two_pow_pos h),
        Nat.div_eq_of_lt hlow, Nat.add_zero, Nat.mul_div_cancel_left _ (Nat.two_pow_pos h)]
    rw [hnum]
  · simp [hl]

theorem subtree_forged {h i : Nat} {r : TreeReader Unit} (hs : Serves d q r) (hsize : r.size < 2 ^ 64)
    (hi : (i + 1) * 2 ^ h ≤ r.size) :
    ∃ r', subtree toyHash (forged d q) h i r = .ok (code (2 ^ h) (blockTag d q h i), r') ∧
      Serves d q r' ∧ ∀ x ∈ r'.hashed, x ∈ r.hashed ∨ Shaped (d / TILE_HEIGHT) x := by
  have hm : h % TILE_HEIGHT ≤ TILE_HEIGHT := (Nat.mod_lt _ (by decide)).le
  have hpow : 2 ^ (TILE_HEIGHT * (h / TILE_HEIGHT) + h % TILE_HEIGHT) = 2 ^ h := by rw [Nat.div_add_mod]
  have hh : 2 ^ h < 2 ^ 64 := by
    have := Nat.le_mul_of_pos_left (2 ^ h) (show 0 < i + 1 by omega)
    omega
  -- the run succeeds, as the source always answers
  obtain ⟨v, r', hrun, hs'⟩ : ∃ v r', subtree toyHash (forged d q) h i r = .ok (v, r') ∧ Serves d q r' := by
    obtain ⟨r₁, hd, hs₁⟩ := tileData_forged (tileOf r.size (h / TILE_HEIGHT) (i * 2 ^ (h % TILE_HEIGHT))) hs
    obtain ⟨v, r₂, hf, hr₂⟩ := fold_total _ _ r₁
    refine ⟨v, r₂, ?_, fun t data ht => hs₁ t data (by rwa [hr₂] at ht)⟩
    unfold subtree
    simp only [hd, bind, Except.bind]
    exact hf
  obtain ⟨hext, hhas, hval, hlog⟩ := subtree_ok hrun
  have htile : ∀ k < 2 ^ (h % TILE_HEIGHT),
      r'.tileHash (h / TILE_HEIGHT) (i * 2 ^ (h % TILE_HEIGHT) + k) =
        code (2 ^ (TILE_HEIGHT * (h / TILE_HEIGHT))) (blockTag d q h i) := by
    intro k hk
    rw [tileHash_forged hs' (hhas k hk), forgedHash_block hk]
    rw [hext.size]
    calc (i * 2 ^ (h % TILE_HEIGHT) + k + 1) * 2 ^ (TILE_HEIGHT * (h / TILE_HEIGHT))
        ≤ ((i + 1) * 2 ^ (h % TILE_HEIGHT)) * 2 ^ (TILE_HEIGHT * (h / TILE_HEIGHT)) := by
          refine Nat.mul_le_mul_right _ ?_
          rw [Nat.add_mul]; omega
      _ = (i + 1) * 2 ^ h := by rw [Nat.mul_assoc, Nat.mul_comm (2 ^ (h % TILE_HEIGHT)), ← pow_add, hpow]
      _ ≤ r.size := hi
  have htag : blockTag d q h i = true →
      TILE_HEIGHT * (h / TILE_HEIGHT) + h % TILE_HEIGHT ≤ TILE_HEIGHT * (d / TILE_HEIGHT) := by
    intro ht
    have : h / TILE_HEIGHT < d / TILE_HEIGHT := by
      simp only [blockTag, Bool.and_eq_true, decide_eq_true_eq] at ht
      exact ht.1
    simp only [TILE_HEIGHT] at this ⊢
    omega
  refine ⟨r', ?_, hs', fun x hx => ?_⟩
  · rw [hrun, hval, rangeHash_tagged (by rw [hpow]; exact hh) htile, hpow]
  · exact ((hlog x).mp hx).imp_right (shaped_tagged (by rw [hpow]; exact hh) htile htag)

/-- The tag of a range is that of its last block. -/
theorem tag_add {b w L : Nat} (hpos : 0 < w) (hlt : w < 2 ^ b) :
    (2 ^ b + w) % 2 ^ L = 0 ↔ w % 2 ^ L = 0 := by
  by_cases hb : L ≤ b
  · rw [Nat.add_mod, Nat.mod_eq_zero_of_dvd (Nat.pow_dvd_pow 2 hb), Nat.zero_add, Nat.mod_mod]
  · have : 2 ^ (b + 1) ≤ 2 ^ L := Nat.pow_le_pow_right (by decide) (by omega)
    rw [pow_succ] at this
    rw [Nat.mod_eq_of_lt (by omega), Nat.mod_eq_of_lt (by omega)]
    omega

theorem shaped_node {b w L : Nat} {mode : Bool} (hpos : 0 < w) (hlt : w < 2 ^ b) (hsize : 2 ^ b + w < 2 ^ 64)
    (hsplit : split (2 ^ b + w) = 2 ^ b) :
    Shaped L (nodeInput (code (2 ^ b) (mode && decide (2 ^ b % 2 ^ (TILE_HEIGHT * L) ≠ 0)))
      (code w (mode && decide (w % 2 ^ (TILE_HEIGHT * L) ≠ 0)))) := by
  refine ⟨2 ^ b, w, mode && decide (w % 2 ^ (TILE_HEIGHT * L) ≠ 0), hpos, hsize, hsplit.symm, ?_⟩
  congr 2
  by_cases hb : b < TILE_HEIGHT * L
  · have hlt' : 2 ^ b < 2 ^ (TILE_HEIGHT * L) := Nat.pow_lt_pow_right (by decide) hb
    rw [Nat.mod_eq_of_lt hlt', Nat.mod_eq_of_lt (by omega)]
    simp [hlt', hpos.ne']
  · have hle : 2 ^ (TILE_HEIGHT * L) ≤ 2 ^ b := Nat.pow_le_pow_right (by decide) (by omega)
    rw [Nat.mod_eq_zero_of_dvd (Nat.pow_dvd_pow 2 (by omega))]
    simp [Nat.not_lt.mpr hle]

/-- A range all of whose blocks below the level of bit `d` have the tag `mode`. -/
theorem range_forged (mode : Bool) {lo w : Nat} {r : TreeReader Unit} (ha : Aligned lo w) (hw : 0 < w)
    (hs : Serves d q r) (hsize : r.size < 2 ^ 64) (hlw : lo + w ≤ r.size)
    (hmode : ∀ h i, InBlocks lo w h i → h / TILE_HEIGHT < d / TILE_HEIGHT →
      decide (i * 2 ^ h / 2 ^ d = 2 * q) = mode) :
    ∃ r', range toyHash (forged d q) lo (lo + w) none r =
        .ok (code w (mode && decide (w % 2 ^ (TILE_HEIGHT * (d / TILE_HEIGHT)) ≠ 0)), r') ∧
      Serves d q r' ∧ ∀ x ∈ r'.hashed, x ∈ r.hashed ∨ Shaped (d / TILE_HEIGHT) x := by
  induction w using Nat.strong_induction_on generalizing lo r with
  | _ w ih =>
    have hblock : ∀ {b}, 2 ^ b ≤ w → lo / 2 ^ b * 2 ^ b = lo := fun hb => Nat.div_mul_cancel (ha.dvd hb)
    have htag : ∀ {b}, 2 ^ b ≤ w → InBlocks lo w b (lo / 2 ^ b) → blockTag d q b (lo / 2 ^ b) =
        (mode && decide (2 ^ b % 2 ^ (TILE_HEIGHT * (d / TILE_HEIGHT)) ≠ 0)) := by
      intro b hb hin
      by_cases hl : b / TILE_HEIGHT < d / TILE_HEIGHT
      · have hlt : 2 ^ b < 2 ^ (TILE_HEIGHT * (d / TILE_HEIGHT)) :=
          Nat.pow_lt_pow_right (by decide) (by simp only [TILE_HEIGHT] at hl ⊢; omega)
        rw [blockTag, hmode _ _ hin hl, Nat.mod_eq_of_lt hlt]
        simp [hl]
      · have hdvd : 2 ^ (TILE_HEIGHT * (d / TILE_HEIGHT)) ∣ 2 ^ b :=
          Nat.pow_dvd_pow 2 (by simp only [TILE_HEIGHT] at hl ⊢; omega)
        simp [blockTag, hl, Nat.mod_eq_zero_of_dvd hdvd]
    rcases range_aligned toyHash (forged d q) ha hw with
      ⟨b, rfl, heq⟩ | ⟨b, w', rfl, hpos, hlt, hsplit, heq⟩
    · have hi := hblock (Nat.le_refl _)
      obtain ⟨r', hrun, hs', hlog⟩ := subtree_forged (h := b) (i := lo / 2 ^ b) hs hsize
        (by rw [Nat.add_mul, hi, Nat.one_mul]; exact hlw)
      have hin : InBlocks lo (2 ^ b) b (lo / 2 ^ b) :=
        (inBlocks_add lo (lo / 2 ^ b) (Nat.two_pow_pos b)).mpr (.inl ⟨rfl, hi⟩)
      exact ⟨r', by rw [heq, hrun, htag (Nat.le_refl _) hin], hs', hlog⟩
    · have hi := hblock (b := b) (by omega)
      have hb := Nat.two_pow_pos b
      obtain ⟨r₁, hl, hs₁, hlog₁⟩ := subtree_forged (h := b) (i := lo / 2 ^ b) hs hsize
        (by rw [Nat.add_mul, hi, Nat.one_mul]; omega)
      have hsize₁ := (subtree_ok hl).1.size
      obtain ⟨r₂, hr, hs₂, hlog₂⟩ := ih w' (by omega) (ha.right hlt) hpos hs₁ (by omega) (by omega)
        (fun h i hin => hmode h i ((inBlocks_add _ _ hlt).mpr (.inr hin)))
      have hin : InBlocks lo (2 ^ b + w') b (lo / 2 ^ b) := (inBlocks_add _ _ hlt).mpr (.inl ⟨rfl, hi⟩)
      let tag := mode && decide (w' % 2 ^ (TILE_HEIGHT * (d / TILE_HEIGHT)) ≠ 0)
      refine ⟨{ r₂ with hashed := nodeInput (code (2 ^ b) (blockTag d q b (lo / 2 ^ b))) (code w' tag) :: r₂.hashed },
        ?_, hs₂, fun x hx => ?_⟩
      · rw [heq]
        refine Read.bind_ok.mpr ⟨_, _, hl, Read.bind_ok.mpr ⟨_, _, hr, ?_⟩⟩
        rw [nodeHash_ok, node_code (by omega) (by omega)]
        simp only [ne_eq, tag_add hpos hlt]
        rfl
      · rcases List.mem_cons.mp hx with rfl | hx
        · right
          rw [htag (by omega) hin]
          exact shaped_node hpos hlt (by omega) hsplit
        · rcases hlog₂ x hx with hx | hx
          · exact hlog₁ x hx
          · exact .inr hx

theorem inBlocks_div {n h i : Nat} (hb : InBlocks 0 n h i) (hd : h < d) : i * 2 ^ h / 2 ^ d = n / 2 ^ d := by
  obtain ⟨e, rfl⟩ : ∃ e, d = h + 1 + e := ⟨d - (h + 1), by omega⟩
  rw [hb.2, Nat.zero_add, pow_add 2 (h + 1) e, ← Nat.div_div_eq_div_mul, ← Nat.div_div_eq_div_mul,
    Nat.mul_div_cancel _ (Nat.two_pow_pos _)]

/-- The root of the first `n` leaves as the forged source gives it. -/
theorem root_forged (mode : Bool) {n : Nat} {r : TreeReader Unit} (hn : 0 < n) (hs : Serves d q r)
    (hsize : r.size < 2 ^ 64) (hle : n ≤ r.size) (hmode : decide (n / 2 ^ d = 2 * q) = mode) :
    ∃ r', root toyHash (forged d q) n r =
        .ok (code n (mode && decide (n % 2 ^ (TILE_HEIGHT * (d / TILE_HEIGHT)) ≠ 0)), r') ∧
      Serves d q r' ∧ ∀ x ∈ r'.hashed, x ∈ r.hashed ∨ Shaped (d / TILE_HEIGHT) x := by
  have ha : Aligned 0 n := ⟨n, Nat.lt_two_pow_self.le, Nat.dvd_zero _⟩
  have := range_forged mode ha hn hs hsize (by omega) (fun h i hin hlevel => by
    rw [inBlocks_div hin (by simp only [TILE_HEIGHT] at hlevel; omega), hmode])
  rw [Nat.zero_add] at this
  rwa [root, if_neg (by omega)]

end

/-- Both roots are accepted, the old one with its tag set. -/
theorem verifyConsistency_forged {old new : Nat} (hlt : old < new) (hnew : new < 2 ^ 64)
    (hlow : old % 2 ^ (TILE_HEIGHT * (topDiff old new / TILE_HEIGHT)) ≠ 0) :
    ∃ q r', verifyConsistency toyHash (forged (topDiff old new) q) () old (code old true) new
        (code new false) = .ok ((), r') ∧
      ∀ x ∈ r'.hashed, Shaped (topDiff old new / TILE_HEIGHT) x := by
  obtain ⟨q, hq, hq'⟩ := div_topDiff hlt
  have hpos : 0 < old := by
    rcases Nat.eq_zero_or_pos old with rfl | h
    · simp at hlow
    · exact h
  have hs : Serves (topDiff old new) q (TreeReader.new new ()) := fun t data h => by
    simp [TreeReader.new] at h
  obtain ⟨r₁, hrun₁, hs₁, hlog₁⟩ := root_forged false (n := new) (by omega) hs hnew (Nat.le_refl _)
    (by simp [hq'])
  have hsize₁ : r₁.size = new := (root_ext hrun₁).size
  obtain ⟨r₂, hrun₂, -, hlog₂⟩ := root_forged true (n := old) hpos hs₁ (by omega) (by omega)
    (by simp [hq])
  refine ⟨q, r₂, ?_, fun x hx => ?_⟩
  · unfold verifyConsistency
    rw [if_neg (by omega)]
    refine Read.bind_ok.mpr ⟨_, _, hrun₁, ?_⟩
    simp only [Bool.false_and, ne_eq, not_true_eq_false, if_false]
    refine Read.bind_ok.mpr ⟨_, _, hrun₂, ?_⟩
    rw [if_neg (by simp [hlow])]
    rfl
  · rcases hlog₂ x hx with hx | hx
    · rcases hlog₁ x hx with hx | hx
      · simp [TreeReader.new] at hx
      · exact hx
    · exact hx

end Emela.Pome
