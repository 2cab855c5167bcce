import Emela.Pome.Cached
import Emela.Pome.Checked
import Emela.Pome.Lemmas.Read

/-!
# Honest tiles

Against a source that serves the tiles of a tree, no method of the reader is stopped, each root is the tree hash of the
leaves before it, and the proofs hold.
-/

namespace Emela.Pome

open Merkle Checked

variable {σ ε : Type} {sha256 : List UInt8 → Hash} {src : TileSource σ ε} {leaves : List Hash} {r r' : TreeReader σ}
  {tile : Tile}

/-! ## Tiles -/

/-- The hash of the complete subtree of height `8 * level` at an index. -/
def subtreeHash (sha256 : List UInt8 → Hash) (leaves : List Hash) (level index : Nat) : Hash :=
  mth sha256 ((leaves.drop (index * 2 ^ (TILE_HEIGHT * level))).take (2 ^ (TILE_HEIGHT * level)))

/-- The hashes of a tile. -/
def tileHashes (sha256 : List UInt8 → Hash) (leaves : List Hash) (tile : Tile) : List Hash :=
  (List.range' (tile.index * TILE_WIDTH) tile.width).map (subtreeHash sha256 leaves tile.level)

def tileBytes (sha256 : List UInt8 → Hash) (leaves : List Hash) (tile : Tile) : List UInt8 :=
  (tileHashes sha256 leaves tile).flatMap (·.toList)

/-- A tile of a tree of a size: not empty, and of subtrees that are complete. -/
structure Tile.Within (tile : Tile) (size : Nat) : Prop where
  pos : 0 < tile.width
  width : tile.width ≤ TILE_WIDTH
  complete : (tile.index * TILE_WIDTH + tile.width) * 2 ^ (TILE_HEIGHT * tile.level) ≤ size

/-- The source serves the tiles of the tree of the leaves. -/
def Honest (sha256 : List UInt8 → Hash) (src : TileSource σ ε) (leaves : List Hash) : Prop :=
  ∀ state tile, tile.Within leaves.length → ∃ state', src.tile state tile = .ok (tileBytes sha256 leaves tile, state')

/-- A reader of the tree that has read tiles of it. -/
structure TreeReader.Over (r : TreeReader σ) (sha256 : List UInt8 → Hash) (leaves : List Hash) : Prop where
  size : r.size = leaves.length
  tiles : ∀ tile data, r.tiles tile = some data → data = tileBytes sha256 leaves tile

theorem TreeReader.Over.new (source : σ) : (TreeReader.new leaves.length source).Over sha256 leaves :=
  ⟨rfl, fun _ _ h => by cases h⟩

/-- A method returns the value, and leaves a reader of the tree. -/
def Returns {α : Type} (x : Checked σ ε α) (sha256 : List UInt8 → Hash) (leaves : List Hash) (a : α) : Prop :=
  ∀ r : TreeReader σ, r.Over sha256 leaves → ∃ r', x r = some (.ok (a, r')) ∧ r'.Over sha256 leaves

namespace Returns

variable {α β : Type} {x : Checked σ ε α} {f : α → Checked σ ε β} {a : α} {b : β}

theorem pure (a : α) : Returns (pure a : Checked σ ε α) sha256 leaves a := fun r hr => ⟨r, rfl, hr⟩

theorem bind (hx : Returns x sha256 leaves a) (hf : Returns (f a) sha256 leaves b) :
    Returns (x >>= f) sha256 leaves b := by
  intro r hr
  obtain ⟨r₁, hrun, hr₁⟩ := hx r hr
  obtain ⟨r₂, hrun₂, hr₂⟩ := hf r₁ hr₁
  refine ⟨r₂, ?_, hr₂⟩
  exact Option.bind_eq_some_iff.mpr ⟨_, hrun, hrun₂⟩

theorem lift_bind {o : Option α} (ho : o = some a) (hf : Returns (f a) sha256 leaves b) :
    Returns (lift o >>= f) sha256 leaves b := by
  intro r hr
  obtain ⟨r', hrun, hr'⟩ := hf r hr
  exact ⟨r', lift_bind_eq_some.mpr ⟨a, ho, hrun⟩, hr'⟩

theorem get_bind {f : TreeReader σ → Checked σ ε β} (hf : ∀ r, r.Over sha256 leaves → Returns (f r) sha256 leaves b) :
    Returns (get >>= f) sha256 leaves b := fun r hr => hf r hr r hr

theorem digest (input : List UInt8) :
    Returns (call (Pome.digest sha256 input) : Checked σ ε Hash) sha256 leaves (sha256 input) :=
  fun _ hr => ⟨_, rfl, hr.size, hr.tiles⟩

theorem nodeHash (left right : Hash) :
    Returns (call (Pome.nodeHash sha256 left right) : Checked σ ε Hash) sha256 leaves (node sha256 left right) :=
  digest _

end Returns

/-! ## Folding -/

/-- A round over an even number of hashes. -/
theorem foldLevel_returns (t : Nat → Hash) (lo n : Nat) :
    Returns (Checked.foldLevel sha256 ((List.range' (2 * lo) (2 * n)).map t) : Checked σ ε _) sha256 leaves
      ((List.range' lo n).map fun k => rangeHash (node sha256) t (k * 2) 2) := by
  induction n generalizing lo with
  | zero => exact .pure []
  | succ n ih =>
    rw [show 2 * (n + 1) = 2 * n + 1 + 1 by ring, List.range'_succ, List.range'_succ, List.map_cons, List.map_cons,
      show 2 * lo + 1 + 1 = 2 * (lo + 1) by ring, List.range'_succ, List.map_cons, Nat.mul_comm lo 2, rangeHash_two]
    exact .bind (.nodeHash _ _) (.bind (ih (lo + 1)) (.pure _))

/-- The fold of a power of two of hashes. -/
theorem fold_returns (t : Nat → Hash) (lo m fuel : Nat) (hm : m < fuel) :
    Returns (Checked.fold sha256 fuel ((List.range' (lo * 2 ^ m) (2 ^ m)).map t) : Checked σ ε _) sha256 leaves
      (rangeHash (node sha256) t (lo * 2 ^ m) (2 ^ m)) := by
  induction m generalizing t fuel with
  | zero =>
    obtain ⟨fuel, rfl⟩ : ∃ f, fuel = f + 1 := ⟨fuel - 1, by omega⟩
    rw [pow_zero, Nat.mul_one, rangeHash_le_one _ _ (Nat.le_refl 1), Checked.fold, if_neg (by simp)]
    exact fun r hr => ⟨r, rfl, hr⟩
  | succ m ih =>
    obtain ⟨fuel, rfl⟩ : ∃ f, fuel = f + 1 := ⟨fuel - 1, by omega⟩
    have hlo : lo * 2 ^ (m + 1) = 2 * (lo * 2 ^ m) := by rw [pow_succ]; ring
    have htwo : 2 ^ (m + 1) = 2 * 2 ^ m := by rw [pow_succ]; ring
    have hcollapse := rangeHash_collapse (node sha256) t 1 (lo * 2 ^ m) m
    rw [pow_one, Nat.add_comm 1 m, Nat.mul_comm _ 2, ← hlo] at hcollapse
    rw [Checked.fold, if_pos (by simp), ← hcollapse]
    refine .bind (a := (List.range' (lo * 2 ^ m) (2 ^ m)).map fun k => rangeHash (node sha256) t (k * 2) 2) ?_
      (ih _ fuel (by omega))
    rw [hlo, htwo]
    exact foldLevel_returns t (lo * 2 ^ m) (2 ^ m)

/-! ## Reading -/

theorem length_flatMap_hashes (hashes : List Hash) : (hashes.flatMap (·.toList)).length = hashes.length * 32 := by
  induction hashes with
  | nil => rfl
  | cons h hashes ih =>
    rw [List.flatMap_cons, List.length_append, ih, Vector.length_toList, List.length_cons]
    ring

theorem length_tileBytes (tile : Tile) : (tileBytes sha256 leaves tile).length = tile.width * 32 := by
  rw [tileBytes, length_flatMap_hashes, tileHashes, List.length_map, List.length_range']

/-- The hashes one after another are read back. -/
theorem hashAt_flatMap {hashes : List Hash} {i : Nat} (hi : i < hashes.length) :
    hashAt (hashes.flatMap (·.toList)) i = hashes[i] := by
  induction hashes generalizing i with
  | nil => exact absurd hi (Nat.not_lt_zero i)
  | cons h hashes ih =>
    refine Vector.ext fun j hj => ?_
    rw [hashAt, Vector.getElem_ofFn, List.flatMap_cons, List.getD_eq_getElem?_getD]
    cases i with
    | zero =>
      rw [List.getElem?_append_left (by rw [Vector.length_toList]; omega)]
      simp [hj]
    | succ i =>
      have hih := congrArg (·[j]) (ih (Nat.lt_of_succ_lt_succ hi))
      rw [hashAt, Vector.getElem_ofFn, List.getD_eq_getElem?_getD] at hih
      rw [List.getElem?_append_right (by rw [Vector.length_toList]; omega), Vector.length_toList,
        show 32 * (i + 1) + j - 32 = 32 * i + j by omega, hih]
      rfl

theorem hashAt_tileBytes {i : Nat} (hi : i < tile.width) :
    hashAt (tileBytes sha256 leaves tile) i =
      subtreeHash sha256 leaves tile.level (tile.index * TILE_WIDTH + i) := by
  have hlength : i < (tileHashes sha256 leaves tile).length := by
    rwa [tileHashes, List.length_map, List.length_range']
  rw [tileBytes, hashAt_flatMap hlength]
  simp [tileHashes]

theorem tileData_returns (hhonest : Honest sha256 src leaves) (hwithin : tile.Within leaves.length) :
    Returns (Checked.tileData src tile) sha256 leaves (tileBytes sha256 leaves tile) := by
  intro r hr
  unfold Checked.tileData
  cases hread : r.tiles tile with
  | some data => exact ⟨r, by rw [hr.tiles _ _ hread], hr⟩
  | none =>
    obtain ⟨state', hserved⟩ := hhonest r.source tile hwithin
    have hwidth : tile.width ≤ 256 := hwithin.width
    have hmul : mul tile.width 32 = some (tile.width * 32) := if_pos (by omega)
    dsimp only
    rw [hserved]
    dsimp only
    rw [hmul, Option.map_some, if_neg (not_not_intro (length_tileBytes tile))]
    refine ⟨_, rfl, hr.size, fun tile' data hdata => ?_⟩
    dsimp only at hdata
    by_cases hsame : tile' = tile
    · subst hsame
      rw [Function.update_self] at hdata
      exact (Option.some.inj hdata).symm
    · rw [Function.update_of_ne hsame] at hdata
      exact hr.tiles _ _ hdata

/-! ## Subtrees -/

/-- The hash of a leaf. -/
def leafAt (leaves : List Hash) (i : Nat) : Hash := leaves.getD i default

theorem subtreeHash_eq {level index : Nat} (h : (index + 1) * 2 ^ (TILE_HEIGHT * level) ≤ leaves.length) :
    subtreeHash sha256 leaves level index = rangeHash (node sha256) (leafAt leaves) (index * 2 ^ (TILE_HEIGHT * level))
      (2 ^ (TILE_HEIGHT * level)) := by
  rw [Nat.add_mul, Nat.one_mul] at h
  have hpos := Nat.two_pow_pos (TILE_HEIGHT * level)
  rw [subtreeHash, mth, treeHash_take _ _ hpos (by rw [List.length_drop]; omega)]
  refine rangeHash_congr _ _ _ _ _ hpos fun i hi => ?_
  simp [leafAt, List.getD_eq_getElem?_getD, List.getElem?_drop]

theorem mapM_eq_map {α : Type} {f : Nat → Option α} {g : Nat → α} {l : List Nat} (h : ∀ i ∈ l, f i = some (g i)) :
    l.mapM f = some (l.map g) := by
  induction l with
  | nil => rfl
  | cons i l ih =>
    obtain ⟨hi, hl⟩ := List.forall_mem_cons.mp h
    rw [List.mapM_cons, hi, ih hl]
    rfl

/-- The hashes of a complete subtree lie in one tile, which is of the tree. -/
theorem span_within {level m index size : Nat} (hm : m ≤ TILE_HEIGHT)
    (h : (index + 1) * 2 ^ (TILE_HEIGHT * level + m) ≤ size) :
    index * 2 ^ m % TILE_WIDTH + 2 ^ m ≤ (tileOf size level (index * 2 ^ m)).width ∧
      index * 2 ^ m + 2 ^ m ≤ size >>> (level * TILE_HEIGHT) ∧ (tileOf size level (index * 2 ^ m)).Within size := by
  have hcount : index * 2 ^ m + 2 ^ m ≤ size >>> (level * TILE_HEIGHT) := by
    rw [Nat.shiftRight_eq_div_pow, Nat.le_div_iff_mul_le (Nat.two_pow_pos _)]
    calc (index * 2 ^ m + 2 ^ m) * 2 ^ (level * TILE_HEIGHT) = (index + 1) * 2 ^ (TILE_HEIGHT * level + m) := by
          rw [pow_add, Nat.mul_comm level]
          ring
      _ ≤ size := h
  have hpos := Nat.two_pow_pos m
  have hdiv := Nat.div_add_mod (index * 2 ^ m) TILE_WIDTH
  -- a tile is a whole number of subtrees
  have haligned : index * 2 ^ m % TILE_WIDTH + 2 ^ m ≤ TILE_WIDTH := by
    have hlt := Nat.mod_lt index (Nat.two_pow_pos (TILE_HEIGHT - m))
    rw [tileWidth_eq hm, Nat.mul_comm (2 ^ m), Nat.mul_mod_mul_right]
    calc index % 2 ^ (TILE_HEIGHT - m) * 2 ^ m + 2 ^ m = (index % 2 ^ (TILE_HEIGHT - m) + 1) * 2 ^ m := by ring
      _ ≤ 2 ^ (TILE_HEIGHT - m) * 2 ^ m := Nat.mul_le_mul_right _ hlt
  have hbefore : index * 2 ^ m / TILE_WIDTH * TILE_WIDTH + index * 2 ^ m % TILE_WIDTH = index * 2 ^ m := by
    rw [Nat.mul_comm]
    exact hdiv
  refine ⟨?_, hcount, ?_, Nat.min_le_right _ _, ?_⟩
  · dsimp only [tileOf]
    omega
  · dsimp only [tileOf]
    omega
  · dsimp only [tileOf]
    calc (index * 2 ^ m / TILE_WIDTH * TILE_WIDTH +
            min (size >>> (level * TILE_HEIGHT) - index * 2 ^ m / TILE_WIDTH * TILE_WIDTH) TILE_WIDTH) *
            2 ^ (TILE_HEIGHT * level) ≤ size >>> (level * TILE_HEIGHT) * 2 ^ (TILE_HEIGHT * level) := by
          apply Nat.mul_le_mul_right
          omega
      _ ≤ size := by
          rw [Nat.shiftRight_eq_div_pow, Nat.mul_comm level]
          exact Nat.div_mul_le_self _ _

/-- The hashes of a subtree in the bytes of its tile. -/
theorem hashIn_tileBytes {i : Nat} (hwidth : tile.width ≤ TILE_WIDTH) (hi : i < tile.width) :
    hashIn (tileBytes sha256 leaves tile) i =
      some (subtreeHash sha256 leaves tile.level (tile.index * TILE_WIDTH + i)) := by
  have hwidth : tile.width ≤ 256 := hwidth
  have hmul : mul i 32 = some (i * 32) := if_pos (by omega)
  have hadd : add (i * 32) 32 = some (i * 32 + 32) := if_pos (by omega)
  rw [hashIn, hmul, Option.bind_eq_bind, Option.bind_some, hadd, Option.bind_some,
    if_pos (by rw [length_tileBytes]; omega), hashAt_tileBytes hi]

/-- The fold of the hashes of a tile under a subtree. -/
theorem fold_subtree {level m index : Nat} (hm : m ≤ TILE_HEIGHT)
    (h : (index + 1) * 2 ^ (TILE_HEIGHT * level + m) ≤ leaves.length) :
    Returns (Checked.fold sha256 (2 ^ m) ((List.range' (index * 2 ^ m % TILE_WIDTH) (2 ^ m)).map fun i =>
        subtreeHash sha256 leaves level (index * 2 ^ m / TILE_WIDTH * TILE_WIDTH + i)) : Checked σ ε _) sha256 leaves
      (rangeHash (node sha256) (leafAt leaves) (index * 2 ^ (TILE_HEIGHT * level + m))
        (2 ^ (TILE_HEIGHT * level + m))) := by
  obtain ⟨q, hq⟩ : ∃ q, index * 2 ^ m % TILE_WIDTH = q * 2 ^ m := by
    refine ⟨index % 2 ^ (TILE_HEIGHT - m), ?_⟩
    rw [tileWidth_eq hm, Nat.mul_comm (2 ^ m), Nat.mul_mod_mul_right]
  have hdiv : index * 2 ^ m / TILE_WIDTH * TILE_WIDTH + q * 2 ^ m = index * 2 ^ m := by
    rw [← hq, Nat.mul_comm _ TILE_WIDTH]
    exact Nat.div_add_mod _ _
  have hvalue : rangeHash (node sha256) (leafAt leaves) (index * 2 ^ (TILE_HEIGHT * level + m))
      (2 ^ (TILE_HEIGHT * level + m)) = rangeHash (node sha256)
        (fun i => subtreeHash sha256 leaves level (index * 2 ^ m / TILE_WIDTH * TILE_WIDTH + i)) (q * 2 ^ m) (2 ^ m) := by
    rw [pow_add, Nat.mul_comm (2 ^ (TILE_HEIGHT * level)), ← Nat.mul_assoc, Nat.mul_comm (2 ^ m), ← pow_add,
      ← rangeHash_collapse]
    refine rangeHash_congr _ _ _ _ _ (Nat.two_pow_pos m) fun k hk => ?_
    rw [← Nat.add_assoc, hdiv, subtreeHash_eq]
    calc (index * 2 ^ m + k + 1) * 2 ^ (TILE_HEIGHT * level) ≤
          (index * 2 ^ m + 2 ^ m) * 2 ^ (TILE_HEIGHT * level) := Nat.mul_le_mul_right _ (by omega)
      _ = (index + 1) * 2 ^ (TILE_HEIGHT * level + m) := by rw [pow_add]; ring
      _ ≤ leaves.length := h
  rw [hq, hvalue]
  exact fold_returns _ q m (2 ^ m) Nat.lt_two_pow_self

theorem subtree_returns {height index : Nat} (hsize : leaves.length < 2 ^ 64) (hhonest : Honest sha256 src leaves)
    (h : (index + 1) * 2 ^ height ≤ leaves.length) :
    Returns (Checked.subtree sha256 src height index) sha256 leaves
      (rangeHash (node sha256) (leafAt leaves) (index * 2 ^ height) (2 ^ height)) := by
  have hheight : height < 64 := by
    by_contra hge
    have := Nat.pow_le_pow_right (n := 2) (by decide) (Nat.le_of_not_lt hge)
    have := Nat.le_mul_of_pos_left (2 ^ height) (Nat.add_one_pos index)
    omega
  have hparts : height = TILE_HEIGHT * (height / TILE_HEIGHT) + height % TILE_HEIGHT := (Nat.div_add_mod _ _).symm
  have hm : height % TILE_HEIGHT < 8 := Nat.mod_lt _ (by decide)
  have hlevel : height / TILE_HEIGHT * TILE_HEIGHT < 64 := Nat.lt_of_le_of_lt (Nat.div_mul_le_self _ _) hheight
  rw [Checked.subtree]
  generalize height / TILE_HEIGHT = level at hparts hlevel ⊢
  generalize height % TILE_HEIGHT = m at hparts hm ⊢
  subst hparts
  obtain ⟨hspan, hcount, hwithin⟩ := span_within (Nat.le_of_lt hm) h
  have hpos := Nat.two_pow_pos m
  have hle : leaves.length >>> (level * TILE_HEIGHT) ≤ leaves.length := Nat.shiftRight_le _ _
  have hbefore : index * 2 ^ m / TILE_WIDTH * TILE_WIDTH ≤ index * 2 ^ m := Nat.div_mul_le_self _ _
  have hstart : index * 2 ^ m - index * 2 ^ m / TILE_WIDTH * TILE_WIDTH = index * 2 ^ m % TILE_WIDTH := by
    have := Nat.div_add_mod (index * 2 ^ m) TILE_WIDTH
    rw [Nat.mul_comm] at this
    omega
  have hwidth : (tileOf leaves.length level (index * 2 ^ m)).width ≤ 256 := hwithin.width
  apply Returns.lift_bind (if_pos (by omega))
  apply Returns.lift_bind (if_pos (by omega))
  apply Returns.get_bind
  intro r hr
  rw [hr.size]
  apply Returns.lift_bind (if_pos hlevel)
  apply Returns.lift_bind (if_pos (by omega))
  apply Returns.lift_bind (if_pos (by omega))
  apply Returns.bind (tileData_returns hhonest hwithin)
  apply Returns.lift_bind (if_pos hbefore)
  rw [hstart]
  apply Returns.lift_bind (if_pos (by omega))
  rw [Nat.add_sub_cancel_left]
  have hhashes : (List.range' (index * 2 ^ m % TILE_WIDTH) (2 ^ m)).mapM
      (hashIn (tileBytes sha256 leaves (tileOf leaves.length level (index * 2 ^ m)))) =
      some ((List.range' (index * 2 ^ m % TILE_WIDTH) (2 ^ m)).map fun i =>
        subtreeHash sha256 leaves level (index * 2 ^ m / TILE_WIDTH * TILE_WIDTH + i)) := by
    apply mapM_eq_map
    intro i hi
    rw [List.mem_range'_1] at hi
    exact hashIn_tileBytes hwithin.width (by omega)
  apply Returns.lift_bind hhashes
  rw [List.length_map, List.length_range']
  exact fold_subtree (Nat.le_of_lt hm) h

/-! ## Ranges -/

/-- A range whose replaced leaf is the leaf of the tree. -/
theorem range_returns {lo hi : Nat} (hsize : leaves.length < 2 ^ 64) (hhonest : Honest sha256 src leaves)
    (hlo : lo < hi) (hhi : hi ≤ leaves.length) {leaf : Option (Nat × Hash)}
    (hleaf : ∀ i h, leaf = some (i, h) → h = leafAt leaves i) :
    Returns (Checked.range sha256 src lo hi leaf) sha256 leaves
      (rangeHash (node sha256) (leafAt leaves) lo (hi - lo)) := by
  fun_induction Checked.range sha256 src lo hi leaf with
  | case1 => omega
  | case2 lo hi leaf hle width leaf' i h hone =>
    obtain ⟨hin, hwidth⟩ := Option.filter_eq_some_iff.mp hone
    obtain ⟨hmem, hbounds⟩ := Option.filter_eq_some_iff.mp hin
    rw [beq_iff_eq] at hwidth
    rw [Bool.and_eq_true, decide_eq_true_eq, decide_eq_true_eq] at hbounds
    have hwidth : hi - lo = 1 := hwidth
    obtain rfl : i = lo := by omega
    rw [hwidth, rangeHash_le_one _ _ (Nat.le_refl 1), ← hleaf i h hmem]
    exact .pure h
  | case3 lo hi leaf hle width leaf' hone haligned =>
    rw [Bool.and_eq_true, Bool.and_eq_true, beq_iff_eq, beq_iff_eq] at haligned
    obtain ⟨⟨-, hpow⟩, hmod⟩ := haligned
    have hindex : lo / width * 2 ^ width.log2 = lo := by
      rw [← hpow]
      exact Nat.div_mul_cancel (Nat.dvd_of_mod_eq_zero hmod)
    have hsub := @subtree_returns _ _ _ src _ width.log2 (lo / width) hsize hhonest
    rw [Nat.add_mul, Nat.one_mul, hindex, ← hpow] at hsub
    exact hsub (by omega)
  | case4 lo hi leaf hle width leaf' hone haligned hzero =>
    -- one leaf is replaced or is a subtree
    exfalso
    have hone' : width = 1 := by
      rcases hzero with hzero | hzero
      · omega
      · rw [leadingZeros] at hzero
        split at hzero <;> omega
    rw [hone'] at hone haligned
    have hnone : leaf' = none := by
      cases hleaf' : leaf' with
      | none => rfl
      | some leaf => simp [hleaf'] at hone
    rw [hnone, Nat.mod_one] at haligned
    exact haligned rfl
  | case5 lo hi leaf hle width leaf' hone haligned hwidth k hover =>
    have hk := shift_lt hwidth
    omega
  | case6 lo hi leaf hle width leaf' hone haligned hwidth k hlt ihleft ihright =>
    obtain ⟨hlog, htwo⟩ := leadingZeros_eq hwidth (by omega)
    have hk : k = split width := congrArg (2 ^ ·) hlog
    have hsplit := split_lt htwo
    have hpos := split_pos width
    have hleaf' : ∀ i h, leaf' = some (i, h) → h = leafAt leaves i := fun i h heq =>
      hleaf i h (Option.filter_eq_some_iff.mp heq).1
    have hleft := ihleft (by omega) (by omega) hleaf'
    have hright := ihright (by omega) hhi hleaf'
    rw [rangeHash_split _ _ htwo]
    rw [Nat.add_sub_cancel_left] at hleft
    rw [Nat.sub_add_eq] at hright
    rw [hk] at hleft hright ⊢
    exact .bind hleft (.bind hright (.nodeHash _ _))

/-! ## Roots and proofs -/

theorem mth_take {n : Nat} (hpos : 0 < n) (hn : n ≤ leaves.length) :
    mth sha256 (leaves.take n) = rangeHash (node sha256) (leafAt leaves) 0 n := treeHash_take _ _ hpos hn

theorem root_returns {n : Nat} (hsize : leaves.length < 2 ^ 64) (hhonest : Honest sha256 src leaves)
    (hn : n ≤ leaves.length) : Returns (Checked.root sha256 src n) sha256 leaves (mth sha256 (leaves.take n)) := by
  rw [Checked.root]
  split
  · next hzero =>
    rw [hzero]
    exact .digest []
  · next hne =>
    have hpos := Nat.pos_of_ne_zero hne
    rw [mth_take hpos hn]
    exact range_returns hsize hhonest hpos hn (by simp)

theorem verifyInclusion_returns {index : Nat} {record : List UInt8} (hsize : leaves.length < 2 ^ 64)
    (hhonest : Honest sha256 src leaves) (hrecord : leaves[index]? = some (sha256 (recordInput record))) (source : σ) :
    ∃ r, Checked.verifyInclusion sha256 src source leaves.length (mth sha256 leaves) index record =
      some (.ok ((), r)) := by
  have hindex : index < leaves.length := by
    by_contra hge
    rw [List.getElem?_eq_none (Nat.le_of_not_lt hge)] at hrecord
    cases hrecord
  have hleaf : ∀ i h, some (index, sha256 (recordInput record)) = some (i, h) → h = leafAt leaves i := by
    rintro i h heq
    cases heq
    rw [leafAt, List.getD_eq_getElem?_getD, hrecord, Option.getD_some]
  have hpos : 0 < leaves.length := by omega
  have hmth := @mth_take sha256 _ _ hpos (Nat.le_refl _)
  rw [List.take_length] at hmth
  have hroot := range_returns hsize hhonest hpos (Nat.le_refl _) hleaf
  rw [Nat.sub_zero, ← hmth] at hroot
  have hbody : Returns (do
      let leaf ← call (recordHash sha256 record)
      let rebuilt ← Checked.rootWithLeaf sha256 src leaves.length index leaf
      if rebuilt = mth sha256 leaves then return () else call (throw .mismatch) : Checked σ ε Unit) sha256 leaves () := by
    refine .bind (.digest (recordInput record)) (.bind hroot ?_)
    rw [if_pos rfl]
    exact .pure ()
  obtain ⟨r, hrun, -⟩ := hbody _ (.new source)
  refine ⟨r, ?_⟩
  rw [Checked.verifyInclusion, if_neg (Nat.not_le_of_lt hindex)]
  exact hrun

theorem verifyConsistency_returns {old : Nat} (hsize : leaves.length < 2 ^ 64) (hhonest : Honest sha256 src leaves)
    (hold : old ≤ leaves.length) (source : σ) :
    ∃ r, Checked.verifyConsistency sha256 src source old (mth sha256 (leaves.take old)) leaves.length
      (mth sha256 leaves) = some (.ok ((), r)) := by
  have hnew := root_returns hsize hhonest (Nat.le_refl leaves.length)
  rw [List.take_length] at hnew
  have hbody : Returns (do
      let new ← Checked.root sha256 src leaves.length
      if new ≠ mth sha256 leaves then call (throw .mismatch)
      let old' ← Checked.root sha256 src old
      if old' ≠ mth sha256 (leaves.take old) then call (throw .mismatch) : Checked σ ε Unit) sha256 leaves () := by
    refine .bind hnew ?_
    rw [if_neg (not_not_intro rfl)]
    refine .bind (root_returns hsize hhonest hold) ?_
    rw [if_neg (not_not_intro rfl)]
    exact .pure ()
  obtain ⟨r, hrun, -⟩ := hbody _ (.new source)
  refine ⟨r, ?_⟩
  rw [Checked.verifyConsistency, if_neg (Nat.not_lt_of_le hold)]
  exact hrun

/-- Over honest tiles of a tree whose size is a `u64` nothing is stopped: a reader finds the root of every prefix and
stays a reader of the tree, and every inclusion and every older size is verified, with its arithmetic checked or not. -/
theorem reader_honest (hsize : leaves.length < 2 ^ 64) (hhonest : Honest sha256 src leaves) :
    (∀ source : σ, (TreeReader.new leaves.length source).Over sha256 leaves) ∧
    (∀ n ≤ leaves.length, ∀ r : TreeReader σ, r.Over sha256 leaves →
      ∃ r', Checked.root sha256 src n r = some (.ok (mth sha256 (leaves.take n), r')) ∧
        root sha256 src n r = .ok (mth sha256 (leaves.take n), r') ∧ r'.Over sha256 leaves) ∧
    (∀ source index record, leaves[index]? = some (sha256 (recordInput record)) →
      ∃ r, Checked.verifyInclusion sha256 src source leaves.length (mth sha256 leaves) index record =
          some (.ok ((), r)) ∧
        verifyInclusion sha256 src source leaves.length (mth sha256 leaves) index record = .ok ((), r)) ∧
    ∀ source, ∀ old ≤ leaves.length,
      ∃ r, Checked.verifyConsistency sha256 src source old (mth sha256 (leaves.take old)) leaves.length
          (mth sha256 leaves) = some (.ok ((), r)) ∧
        verifyConsistency sha256 src source old (mth sha256 (leaves.take old)) leaves.length (mth sha256 leaves) =
          .ok ((), r) := by
  refine ⟨.new, fun n hn r hr => ?_, fun source index record hrecord => ?_, fun source old hold => ?_⟩
  · obtain ⟨r', hrun, hover⟩ := root_returns hsize hhonest hn r hr
    exact ⟨r', hrun, Checked.root_refines (Nat.lt_of_le_of_lt hn hsize) r _ hrun, hover⟩
  · obtain ⟨r, hrun⟩ := verifyInclusion_returns hsize hhonest hrecord source
    exact ⟨r, hrun, Checked.verifyInclusion_refines hsize hrun⟩
  · obtain ⟨r, hrun⟩ := verifyConsistency_returns hsize hhonest hold source
    exact ⟨r, hrun, Checked.verifyConsistency_refines hsize hrun⟩

namespace Example

/-- SHA-256 of the leaves of the records `x` and `y` and of the node over them. -/
def twoLeaves (input : List UInt8) : Hash :=
  if input = [0x00, 0x78] then hashOf 0x3c7e9bc930dc93f01fa69985ef242d9f9e861f3c5355aa24ce5ef4b4b8a70ccb
  else if input = [0x00, 0x79] then hashOf 0x3553eb351adac70cf5caa4fefa1caf8cec726403fe4b34c14f1bb8d980c20b95
  else hashOf 0x2d6e943e85ac09dd6af182bf9fc9041abe70609149a3d2d55717e09e37507e6d

def leavesXY : List Hash := [twoLeaves [0x00, 0x78], twoLeaves [0x00, 0x79]]

/-- A source that has the tiles of a tree. -/
def serving (sha256 : List UInt8 → Hash) (leaves : List Hash) : TileSource Unit Unit where
  tile _ tile := .ok (tileBytes sha256 leaves tile, ())

theorem honest_serving (sha256 : List UInt8 → Hash) (leaves : List Hash) :
    Honest sha256 (serving sha256 leaves) leaves := fun _ _ _ => ⟨(), rfl⟩

theorem reader_honest_leavesXY :
    ∃ r, Checked.verifyInclusion twoLeaves (serving twoLeaves leavesXY) () 2 (mth twoLeaves leavesXY) 1 [0x79] =
        some (.ok ((), r)) ∧
      verifyInclusion twoLeaves (serving twoLeaves leavesXY) () 2 (mth twoLeaves leavesXY) 1 [0x79] = .ok ((), r) :=
  (reader_honest (by decide) (honest_serving twoLeaves leavesXY)).2.2.1 () 1 [0x79] rfl

end Example

end Emela.Pome
