import Emela.Pome.Lemmas.Forge

/-!
# Soundness of the two verifications

The tile source is arbitrary: it may answer anything, and differently each time. SHA-256 is assumed to
have no collision among the inputs hashed by the verification and those of the tree in question.
-/

namespace Emela.Pome

open Merkle

variable {σ ε : Type} {sha256 : List UInt8 → Hash} {src : TileSource σ ε}

/-! ## Inclusion -/

theorem mthInputs_eq {leaves : List Hash} (h : leaves ≠ []) :
    mthInputs sha256 leaves = nodeInputs sha256 (fun i => leaves.getD i default) 0 leaves.length := by
  rw [mthInputs, if_neg h]
  rfl

theorem mth_eq {leaves : List Hash} (h : leaves ≠ []) :
    mth sha256 leaves = rangeHash (node sha256) (fun i => leaves.getD i default) 0 leaves.length := by
  rw [mth, Merkle.treeHash, if_neg h]

/-- An accepted record is the leaf at its index of every leaf sequence with the root. -/
theorem verifyInclusion_sound {source : σ} {size index : Nat} {root : Hash} {record : List UInt8}
    {r' : TreeReader σ}
    (hok : verifyInclusion sha256 src source size root index record = .ok ((), r'))
    {leaves : List Hash} (hlen : leaves.length = size) (hroot : mth sha256 leaves = root)
    (hnc : NoCollision sha256 (r'.hashed ++ mthInputs sha256 leaves)) :
    leaves[index]? = some (sha256 (recordInput record)) := by
  unfold verifyInclusion at hok
  split at hok
  · cases hok
  · rename_i hidx
    obtain ⟨leaf, r₁, hleaf, hok⟩ := Read.bind_ok.mp hok
    obtain ⟨rebuilt, r₂, hrun, hcheck⟩ := Read.bind_ok.mp hok
    rw [recordHash, digest_ok] at hleaf
    simp only [Except.ok.injEq, Prod.mk.injEq] at hleaf
    obtain ⟨rfl, rfl⟩ := hleaf
    split at hcheck
    · rename_i hreb
      obtain ⟨-, rfl⟩ := Read.pure_ok.mp hcheck
      have hne : leaves ≠ [] := by rintro rfl; simp at hlen; omega
      subst hlen hreb
      rw [mth_eq hne] at hroot
      rw [mthInputs_eq hne] at hnc
      have hleaf := range_leaf_binds (i := index) (w := leaves.length) hnc (Nat.zero_le _) (by omega)
        (by rw [Nat.zero_add]; exact hrun)
        hroot.symm (List.subset_append_left _ _) (List.subset_append_right _ _)
      rw [List.getD_eq_getElem?_getD] at hleaf
      have hi : index < leaves.length := by omega
      rw [List.getElem?_eq_getElem hi] at hleaf ⊢
      exact congrArg some hleaf
    · cases hcheck

/-- Two equal leaves, the second one read from the source. -/
theorem verifyInclusion_sound_two :
    ∃ r', verifyInclusion toyHash (forged 0 0) () 2 (code 2 false) 0 [] = .ok ((), r') ∧
      [code 1 false, code 1 false][0]? = some (toyHash (recordInput [])) := by
  let r : TreeReader Unit := { TreeReader.new 2 () with hashed := [recordInput []] }
  obtain ⟨r₁, hrun, -, hlog⟩ := subtree_forged (d := 0) (q := 0) (h := 0) (i := 1) (r := r)
    (fun t data h => by simp [r, TreeReader.new] at h) (by decide) (by decide)
  have hright : range toyHash (forged 0 0) 1 2 (some (0, toyHash (recordInput []))) r = .ok (code 1 false, r₁) := by
    rw [range]
    exact hrun
  have hok : verifyInclusion toyHash (forged 0 0) () 2 (code 2 false) 0 [] =
      .ok ((), { r₁ with hashed := nodeInput (code 1 false) (code 1 false) :: r₁.hashed }) := by
    unfold verifyInclusion
    rw [if_neg (by decide)]
    refine Read.bind_ok.mpr ⟨_, r, rfl, Read.bind_ok.mpr ⟨code 2 false, _, ?_, rfl⟩⟩
    rw [rootWithLeaf, ← Nat.zero_add 2, range_some_split (by decide) (by decide) (by decide)]
    refine Read.bind_ok.mpr ⟨code 1 false, r, ?_, Read.bind_ok.mpr ⟨_, _, hright, ?_⟩⟩
    · rw [show split (0 + 2) = 1 from by decide, range_some_one rfl]
      rfl
    · rw [nodeHash_ok, node_code (by decide) (by decide)]
  have hnc : NoCollision toyHash (nodeInput (code 1 false) (code 1 false) :: r₁.hashed ++
      mthInputs toyHash [code 1 false, code 1 false]) := by
    refine noCollision_cons_shaped (recordInput []) (L := 0) rfl (fun x hx => ?_)
    simp only [List.cons_append, List.mem_cons, List.mem_append] at hx
    rcases hx with rfl | hx | hx
    · exact .inr ⟨1, 1, false, by decide, by decide, by decide, rfl⟩
    · simpa [r] using hlog x hx
    · exact .inr (shaped_mthInputs (w := 2) (by decide) (by decide) hx)
  exact ⟨_, hok, verifyInclusion_sound hok rfl (mth_const (w := 2) (by decide) (by decide)) hnc⟩

/-! ## Consistency -/

/-- The old root follows from the new root: whatever tiles are served, an accepted old root is the
tree hash of the first `old` leaves of every leaf sequence of length `new` with the new root. -/
def ConsistencySound (old new : Nat) : Prop :=
  ∀ {σ ε : Type} (sha256 : List UInt8 → Hash) (src : TileSource σ ε) (source : σ)
    (oldRoot newRoot : Hash) (r' : TreeReader σ),
    verifyConsistency sha256 src source old oldRoot new newRoot = .ok ((), r') →
    ∀ leaves : List Hash, leaves.length = new → mth sha256 leaves = newRoot →
      NoCollision sha256 (r'.hashed ++ mthInputs sha256 leaves ++ mthInputs sha256 (leaves.take old)) →
      oldRoot = mth sha256 (leaves.take old)

/-- What an accepted consistency check ran. -/
theorem verifyConsistency_ok {source : σ} {old new : Nat} {oldRoot newRoot : Hash} {r' : TreeReader σ}
    (h : verifyConsistency sha256 src source old oldRoot new newRoot = .ok ((), r')) :
    old ≤ new ∧ ∃ r₁, root sha256 src new (TreeReader.new new source) = .ok (newRoot, r₁) ∧
      root sha256 src old r₁ = .ok (oldRoot, r') := by
  unfold verifyConsistency at h
  split at h
  · cases h
  · refine ⟨by omega, ?_⟩
    obtain ⟨v, r₁, hnew, h⟩ := Read.bind_ok.mp h
    split at h
    · cases h
    · obtain ⟨v', r₂, hold, h⟩ := Read.bind_ok.mp h
      split at h
      · cases h
      · obtain ⟨-, rfl⟩ := Read.pure_ok.mp h
        simp_all

theorem root_pos {n : Nat} (hn : n ≠ 0) : root sha256 src n = range sha256 src 0 (0 + n) none := by
  rw [root, if_neg hn, Nat.zero_add]

/-- The old root is rebuilt from hashes the new root binds. -/
theorem consistencySound_of_low {old new : Nat} (hle : old ≤ new)
    (hlow : old % 2 ^ (TILE_HEIGHT * (topDiff old new / TILE_HEIGHT)) = 0) : ConsistencySound old new := by
  intro σ ε sha256 src source oldRoot newRoot r' hok leaves hlen hroot hnc
  obtain ⟨-, r₁, hnew, hold⟩ := verifyConsistency_ok hok
  by_cases h0 : old = 0
  · -- the root of no leaves is the digest of the empty input
    subst h0
    rw [root, if_pos rfl, digest_ok] at hold
    simp only [Except.ok.injEq, Prod.mk.injEq] at hold
    rw [← hold.1]
    simp [mth, Merkle.treeHash]
  · have hne : leaves ≠ [] := by rintro rfl; simp at hlen; omega
    rw [root_pos (by omega)] at hnew hold
    rw [mth_eq hne, hlen] at hroot
    rw [mthInputs_eq hne, hlen] at hnc
    have hbind : ∀ h i, InBlocks 0 new h i →
        BoundBlock sha256 (fun i => leaves.getD i default) r₁ h i := fun h i hb =>
      range_binds hnc (aligned_zero new) (by omega) hnew hroot.symm
        (fun x hx => by simp [(range_ext hold).hashed hx])
        (List.Subset.trans (List.subset_append_right _ _) (List.subset_append_left _ _)) hb
    rw [mth, treeHash_take _ _ (by omega) (by omega)]
    refine range_bound (aligned_zero old) (by omega) hold (fun h i hb => ?_)
    rcases Nat.lt_or_eq_of_le hle with hlt | rfl
    · obtain ⟨h', i', hb', hlevel, hspan⟩ := inBlocks_old hlt hlow hb
      intro k hk
      obtain ⟨k', hk', heq⟩ := hspan k hk
      rw [heq, ← hlevel]
      exact hbind h' i' hb' k' hk'
    · exact hbind h i hb

/-- With low bits in the old size, the forged source is accepted with a root that is not the tree
hash. -/
theorem not_consistencySound_of_low {old new : Nat} (hle : old ≤ new) (hnew : new < 2 ^ 64)
    (hlow : old % 2 ^ (TILE_HEIGHT * (topDiff old new / TILE_HEIGHT)) ≠ 0) : ¬ ConsistencySound old new := by
  intro hsound
  have hlt : old < new := by
    rcases Nat.lt_or_eq_of_le hle with hlt | rfl
    · exact hlt
    · simp [topDiff, Nat.mod_one] at hlow
  have hpos : 0 < old := by
    rcases Nat.eq_zero_or_pos old with rfl | h
    · simp at hlow
    · exact h
  obtain ⟨q, r', hok, hlog⟩ := verifyConsistency_forged hlt hnew hlow
  have htake : (List.replicate new (code 1 false)).take old = List.replicate old (code 1 false) := by
    rw [List.take_replicate, Nat.min_eq_left hle]
  have hnc : NoCollision toyHash (r'.hashed ++ mthInputs toyHash (List.replicate new (code 1 false)) ++
      mthInputs toyHash ((List.replicate new (code 1 false)).take old)) := by
    refine noCollision_shaped (L := topDiff old new / TILE_HEIGHT) _ (fun x hx => ?_)
    rw [htake, List.mem_append, List.mem_append] at hx
    rcases hx with (hx | hx) | hx
    · exact hlog x hx
    · exact shaped_mthInputs (by omega) hnew hx
    · exact shaped_mthInputs hpos (by omega) hx
  have := hsound toyHash _ _ _ _ r' hok _ List.length_replicate (mth_const (by omega) hnew) hnc
  rw [htake, mth_const hpos (by omega)] at this
  exact absurd (code_injective (by omega) (by omega) this).2 (by decide)

/-- The check is sound exactly for the old sizes that are a multiple of the width of a tile hash at
the level of the highest bit in which the sizes differ. -/
theorem consistencySound_iff {old new : Nat} (hle : old ≤ new) (hnew : new < 2 ^ 64) :
    ConsistencySound old new ↔ old % 2 ^ (TILE_HEIGHT * (topDiff old new / TILE_HEIGHT)) = 0 := by
  constructor
  · intro h
    by_contra hlow
    exact not_consistencySound_of_low hle hnew hlow h
  · exact consistencySound_of_low hle

theorem consistencySound_256_512 : ConsistencySound 256 512 :=
  (consistencySound_iff (by decide) (by decide)).mpr (by decide)

/-- One leaf against 256: the new root is one hash of level 1, the old root one of level 0. -/
theorem not_consistencySound_1_256 : ¬ ConsistencySound 1 256 :=
  not_consistencySound_of_low (by decide) (by decide) (by decide)

end Emela.Pome
