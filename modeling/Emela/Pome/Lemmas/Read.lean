import Emela.Pome.Tlog

/-!
# What the tree reader returns

One lemma for each method of the reader: its value as a tree hash over the tiles read so far, and the
inputs it hashed.
-/

namespace Emela.Pome

open Merkle

variable {σ ε : Type} {sha256 : List UInt8 → Hash} {src : TileSource σ ε}

/-! ## The method monad -/

theorem Read.bind_ok {α β : Type} {x : Read σ ε α} {f : α → Read σ ε β} {r : TreeReader σ}
    {p : β × TreeReader σ} :
    (x >>= f) r = .ok p ↔ ∃ a r₁, x r = .ok (a, r₁) ∧ f a r₁ = .ok p := by
  change (x r >>= fun q => f q.1 q.2) = .ok p ↔ _
  cases hx : x r with
  | error e => simp [bind, Except.bind]
  | ok q => obtain ⟨a, r₁⟩ := q; simp [bind, Except.bind]

theorem Read.pure_ok {α : Type} {a b : α} {r r' : TreeReader σ} :
    (pure a : Read σ ε α) r = .ok (b, r') ↔ a = b ∧ r = r' := by
  change Except.ok (a, r) = Except.ok (b, r') ↔ _
  simp

/-- The inputs of the node hash for the pairs combined in a range. -/
def nodeInputs (sha256 : List UInt8 → Hash) (leaf : Nat → Hash) (lo n : Nat) : List (List UInt8) :=
  (rangePairs (node sha256) leaf lo n).map fun p => nodeInput p.1 p.2

theorem nodeInput_injective : Function.Injective (Function.uncurry nodeInput) := by
  rintro ⟨a, b⟩ ⟨a', b'⟩ h
  simp only [Function.uncurry_apply_pair, nodeInput, List.cons.injEq, true_and] at h
  obtain ⟨h₁, h₂⟩ := List.append_inj h (by simp)
  rw [Prod.mk.injEq]
  exact ⟨Vector.toList_inj.mp h₁, Vector.toList_inj.mp h₂⟩

/-- Without collisions, the node hash is injective on the pairs hashed. -/
theorem NoCollision.node_injOn {inputs : List (List UInt8)} (h : NoCollision sha256 inputs) :
    Set.InjOn (Function.uncurry (node sha256)) {p | nodeInput p.1 p.2 ∈ inputs} := by
  rintro ⟨a, b⟩ hp ⟨a', b'⟩ hp' heq
  exact nodeInput_injective (h _ hp _ hp' heq)

/-! ## Folding -/

theorem digest_ok {input : List UInt8} {r : TreeReader σ} :
    (digest sha256 input : Read σ ε Hash) r =
      .ok (sha256 input, { r with hashed := input :: r.hashed }) := rfl

theorem nodeHash_ok {a b : Hash} {r : TreeReader σ} :
    (nodeHash sha256 a b : Read σ ε Hash) r =
      .ok (node sha256 a b, { r with hashed := nodeInput a b :: r.hashed }) := rfl

theorem foldLevel_cons_cons (a b : Hash) (rest : List Hash) (r : TreeReader σ) :
    (foldLevel sha256 (a :: b :: rest) : Read σ ε _) r =
      (foldLevel sha256 rest { r with hashed := nodeInput a b :: r.hashed }).map
        fun q => (node sha256 a b :: q.1, q.2) := by
  rw [foldLevel]
  change ((nodeHash sha256 a b : Read σ ε Hash) r >>= fun q => _) = _
  rw [nodeHash_ok]
  change ((foldLevel sha256 rest : Read σ ε _) _ >>= fun q => _) = _
  cases (foldLevel sha256 rest : Read σ ε _) { r with hashed := nodeInput a b :: r.hashed } <;> rfl

variable (sha256) in
/-- One round of the fold over the hashes `t lo, …, t (lo + 2n - 1)`. -/
theorem foldLevel_range (t : Nat → Hash) (lo n : Nat) (r : TreeReader σ) :
    ∃ log, (foldLevel sha256 ((List.range' (2 * lo) (2 * n)).map t) : Read σ ε _) r =
        .ok ((List.range' lo n).map fun k => rangeHash (node sha256) t (k * 2) 2,
          { r with hashed := log ++ r.hashed }) ∧
      ∀ x, x ∈ log ↔ ∃ k < n, x = nodeInput (t ((lo + k) * 2)) (t ((lo + k) * 2 + 1)) := by
  induction n generalizing lo r with
  | zero => exact ⟨[], rfl, by simp⟩
  | succ n ih =>
    obtain ⟨log, hrun, hlog⟩ := ih (lo + 1) { r with hashed := nodeInput (t (2 * lo)) (t (2 * lo + 1)) :: r.hashed }
    refine ⟨log ++ [nodeInput (t (2 * lo)) (t (2 * lo + 1))], ?_, ?_⟩
    · rw [show 2 * (n + 1) = 2 * n + 1 + 1 by ring, List.range'_succ, List.range'_succ, List.map_cons,
        List.map_cons, foldLevel_cons_cons, show 2 * lo + 1 + 1 = 2 * (lo + 1) by ring, hrun]
      simp [Except.map, List.range'_succ, rangeHash_two, Nat.mul_comm lo 2]
    · intro x
      simp only [List.mem_append, hlog, List.mem_singleton]
      constructor
      · rintro (⟨k, hk, rfl⟩ | rfl)
        · exact ⟨k + 1, by omega, by rw [show lo + 1 + k = lo + (k + 1) by ring]⟩
        · exact ⟨0, by omega, by simp [Nat.mul_comm]⟩
      · rintro ⟨k, hk, rfl⟩
        cases k with
        | zero => right; rw [Nat.add_zero, Nat.mul_comm]
        | succ k => left; exact ⟨k, by omega, by rw [show lo + 1 + k = lo + (k + 1) by ring]⟩

variable (sha256) in
/-- The fold of a power of two of hashes is their tree hash. -/
theorem fold_range (t : Nat → Hash) (lo m fuel : Nat) (hm : m ≤ fuel) (r : TreeReader σ) :
    ∃ log, (fold sha256 fuel ((List.range' (lo * 2 ^ m) (2 ^ m)).map t) : Read σ ε _) r =
        .ok (rangeHash (node sha256) t (lo * 2 ^ m) (2 ^ m), { r with hashed := log ++ r.hashed }) ∧
      ∀ x, x ∈ log ↔ x ∈ nodeInputs sha256 t (lo * 2 ^ m) (2 ^ m) := by
  induction m generalizing t fuel r with
  | zero =>
    refine ⟨[], ?_, by simp [nodeInputs, rangePairs_le_one]⟩
    have hval : rangeHash (node sha256) t lo 1 = t lo := rangeHash_le_one _ _ (Nat.le_refl 1)
    cases fuel <;> simp [fold, hval] <;> rfl
  | succ m ih =>
    obtain ⟨fuel, rfl⟩ : ∃ f, fuel = f + 1 := ⟨fuel - 1, by omega⟩
    have hlo : lo * 2 ^ (m + 1) = 2 * (lo * 2 ^ m) := by rw [pow_succ]; ring
    have htwo : 2 ^ (m + 1) = 2 * 2 ^ m := by rw [pow_succ]; ring
    obtain ⟨log₁, hrun₁, hlog₁⟩ := foldLevel_range (ε := ε) sha256 t (lo * 2 ^ m) (2 ^ m) r
    obtain ⟨log₂, hrun₂, hlog₂⟩ := ih (fun k => rangeHash (node sha256) t (k * 2) 2) fuel (by omega)
      { r with hashed := log₁ ++ r.hashed }
    refine ⟨log₂ ++ log₁, ?_, ?_⟩
    · rw [fold, if_pos (by simp)]
      rw [hlo, htwo]
      refine Read.bind_ok.mpr ⟨_, _, hrun₁, ?_⟩
      rw [hrun₂]
      have hc := rangeHash_collapse (node sha256) t 1 (lo * 2 ^ m) m
      rw [pow_one, Nat.add_comm 1 m, htwo, Nat.mul_comm _ 2] at hc
      simp [hc]
    · intro x
      have hc := mem_rangePairs_collapse (node sha256) t 1 (lo * 2 ^ m) m
      rw [pow_one, Nat.add_comm 1 m, htwo, Nat.mul_comm _ 2] at hc
      rw [List.mem_append, hlog₂, hlog₁, hlo, htwo]
      simp only [nodeInputs, List.mem_map, hc, rangePairs_two, List.mem_singleton]
      constructor
      · rintro (⟨p, hp, rfl⟩ | ⟨k, hk, rfl⟩)
        · exact ⟨p, .inl hp, rfl⟩
        · exact ⟨_, .inr ⟨k, hk, rfl⟩, rfl⟩
      · rintro ⟨p, hp | ⟨k, hk, rfl⟩, rfl⟩
        · exact .inl ⟨p, hp, rfl⟩
        · exact .inr ⟨k, hk, rfl⟩

/-! ## Tiles -/

/-- `r'` is `r` after some methods ran: the tiles read stay, and so do the inputs hashed. -/
structure TreeReader.Ext (r r' : TreeReader σ) : Prop where
  size : r'.size = r.size
  tiles : ∀ t d, r.tiles t = some d → r'.tiles t = some d
  hashed : r.hashed ⊆ r'.hashed

theorem TreeReader.Ext.refl (r : TreeReader σ) : r.Ext r :=
  ⟨rfl, fun _ _ h => h, List.Subset.refl _⟩

theorem TreeReader.Ext.trans {r₁ r₂ r₃ : TreeReader σ} (h : r₁.Ext r₂) (h' : r₂.Ext r₃) :
    r₁.Ext r₃ :=
  ⟨h'.size.trans h.size, fun t d hd => h'.tiles t d (h.tiles t d hd), List.Subset.trans h.hashed h'.hashed⟩

/-- The reader has read the tile with the hash of the subtree of height `8 * level` at index `k`. -/
def TreeReader.Has (r : TreeReader σ) (level k : Nat) : Prop :=
  (r.tiles (tileOf r.size level k)).isSome

/-- The hash of the subtree of height `8 * level` at index `k`, as the tiles read give it. -/
def TreeReader.tileHash (r : TreeReader σ) (level k : Nat) : Hash :=
  hashAt ((r.tiles (tileOf r.size level k)).getD []) (k % TILE_WIDTH)

theorem TreeReader.Ext.has {r r' : TreeReader σ} (h : r.Ext r') {level k : Nat}
    (hk : r.Has level k) : r'.Has level k := by
  obtain ⟨d, hd⟩ := Option.isSome_iff_exists.mp hk
  simp [TreeReader.Has, h.size, h.tiles _ _ hd]

theorem TreeReader.Ext.tileHash {r r' : TreeReader σ} (h : r.Ext r') {level k : Nat}
    (hk : r.Has level k) : r'.tileHash level k = r.tileHash level k := by
  obtain ⟨d, hd⟩ := Option.isSome_iff_exists.mp hk
  simp [TreeReader.tileHash, h.size, h.tiles _ _ hd, hd]

theorem tileData_ok {tile : Tile} {r r' : TreeReader σ} {d : List UInt8}
    (h : tileData src tile r = .ok (d, r')) :
    r.Ext r' ∧ r'.tiles tile = some d ∧ r'.hashed = r.hashed := by
  unfold tileData at h
  cases ht : r.tiles tile with
  | some d' =>
    simp only [ht, Except.ok.injEq, Prod.mk.injEq] at h
    obtain ⟨rfl, rfl⟩ := h
    exact ⟨.refl _, ht, rfl⟩
  | none =>
    simp only [ht] at h
    split at h
    · cases h
    · split at h
      · cases h
      · simp only [Except.ok.injEq, Prod.mk.injEq] at h
        obtain ⟨rfl, rfl⟩ := h
        refine ⟨⟨rfl, fun t d hd => ?_, List.Subset.refl _⟩, Function.update_self .., rfl⟩
        have hne : t ≠ tile := by rintro rfl; simp [ht] at hd
        simpa [Function.update_of_ne hne] using hd

theorem tileWidth_eq {m : Nat} (hm : m ≤ TILE_HEIGHT) :
    TILE_WIDTH = 2 ^ m * 2 ^ (TILE_HEIGHT - m) := by
  rw [← pow_add, Nat.add_sub_cancel' hm]

/-- The hashes of one subtree lie in one tile. -/
theorem tileOf_span (size level : Nat) {index m k : Nat} (hm : m ≤ TILE_HEIGHT) (hk : k < 2 ^ m) :
    (index * 2 ^ m + k) / TILE_WIDTH = index * 2 ^ m / TILE_WIDTH ∧
      tileOf size level (index * 2 ^ m + k) = tileOf size level (index * 2 ^ m) := by
  have hdiv : (index * 2 ^ m + k) / TILE_WIDTH = index * 2 ^ m / TILE_WIDTH := by
    rw [tileWidth_eq hm, ← Nat.div_div_eq_div_mul, ← Nat.div_div_eq_div_mul, Nat.mul_div_cancel _ (Nat.two_pow_pos m),
      Nat.mul_comm, Nat.mul_add_div (Nat.two_pow_pos m), Nat.div_eq_of_lt hk, Nat.add_zero]
  exact ⟨hdiv, by simp only [tileOf, hdiv]⟩

/-- A subtree is the tree hash over the hashes of its tile. -/
theorem subtree_ok {height index : Nat} {r r' : TreeReader σ} {v : Hash}
    (h : subtree sha256 src height index r = .ok (v, r')) :
    r.Ext r' ∧
      (∀ k < 2 ^ (height % TILE_HEIGHT),
        r'.Has (height / TILE_HEIGHT) (index * 2 ^ (height % TILE_HEIGHT) + k)) ∧
      v = rangeHash (node sha256) (r'.tileHash (height / TILE_HEIGHT))
        (index * 2 ^ (height % TILE_HEIGHT)) (2 ^ (height % TILE_HEIGHT)) ∧
      ∀ x, x ∈ r'.hashed ↔ x ∈ r.hashed ∨
        x ∈ nodeInputs sha256 (r'.tileHash (height / TILE_HEIGHT))
          (index * 2 ^ (height % TILE_HEIGHT)) (2 ^ (height % TILE_HEIGHT)) := by
  unfold subtree at h
  set level := height / TILE_HEIGHT
  set m := height % TILE_HEIGHT
  have hm : m ≤ TILE_HEIGHT := (Nat.mod_lt _ (by decide)).le
  cases hd : tileData src (tileOf r.size level (index * 2 ^ m)) r with
  | error e => simp [hd, bind, Except.bind] at h
  | ok q =>
    obtain ⟨data, r₁⟩ := q
    simp only [hd, bind, Except.bind, List.length_map, List.length_range'] at h
    obtain ⟨hext, htile, hhashed⟩ := tileData_ok hd
    -- the start of the subtree in the tile is its first hash modulo the width of a tile
    have hstart : index * 2 ^ m - index * 2 ^ m / TILE_WIDTH * TILE_WIDTH =
        index * 2 ^ m % TILE_WIDTH := by
      have := Nat.div_add_mod (index * 2 ^ m) TILE_WIDTH
      rw [Nat.mul_comm] at this
      omega
    obtain ⟨q, hq⟩ : ∃ q, index * 2 ^ m % TILE_WIDTH = q * 2 ^ m := by
      refine ⟨index % 2 ^ (TILE_HEIGHT - m), ?_⟩
      rw [tileWidth_eq hm, Nat.mul_comm (2 ^ m), Nat.mul_mod_mul_right]
    rw [hstart, hq] at h
    obtain ⟨log, hrun, hlog⟩ := fold_range (ε := ε) sha256 (hashAt data) q m (2 ^ m)
      Nat.lt_two_pow_self.le r₁
    rw [hrun] at h
    simp only [Except.ok.injEq, Prod.mk.injEq] at h
    obtain ⟨hv, rfl⟩ := h
    have hsome : ∀ k < 2 ^ m, r₁.tiles (tileOf r₁.size level (index * 2 ^ m + k)) = some data := by
      intro k hk
      rw [(tileOf_span _ _ hm hk).2, hext.size, htile]
    have hhash : ∀ k < 2 ^ m, r₁.tileHash level (index * 2 ^ m + k) = hashAt data (q * 2 ^ m + k) := by
      intro k hk
      have hmod : (index * 2 ^ m + k) % TILE_WIDTH = q * 2 ^ m + k := by
        have h₁ := Nat.div_add_mod (index * 2 ^ m + k) TILE_WIDTH
        have h₂ := Nat.div_add_mod (index * 2 ^ m) TILE_WIDTH
        rw [(tileOf_span 0 0 hm hk).1] at h₁
        omega
      rw [TreeReader.tileHash, hsome k hk, hmod, Option.getD_some]
    have hpairs : nodeInputs sha256 (hashAt data) (q * 2 ^ m) (2 ^ m) =
        nodeInputs sha256 (r₁.tileHash level) (index * 2 ^ m) (2 ^ m) := by
      unfold nodeInputs
      rw [rangePairs_congr _ _ _ (index * 2 ^ m) _ (fun k hk => (hhash k hk).symm)]
    refine ⟨⟨hext.size, hext.tiles, ?_⟩, fun k hk => ?_, ?_, fun x => ?_⟩
    · rw [← hhashed]; exact List.subset_append_right _ _
    · exact Option.isSome_iff_exists.mpr ⟨data, hsome k hk⟩
    · rw [← hv]
      exact rangeHash_congr _ _ _ _ _ (Nat.two_pow_pos m) (fun k hk => (hhash k hk).symm)
    · rw [List.mem_append, hlog, hpairs, hhashed, or_comm]
      rfl

/-! ## Ranges of leaves

How `range` takes a range apart. Without a replaced leaf, a range that starts at a multiple of a power
of two not below its width is read as the subtrees of its binary decomposition. -/

/-! ## One step of `range` -/

theorem range_none_two_pow {lo b : Nat} (h : 2 ^ b ∣ lo) :
    range sha256 src lo (lo + 2 ^ b) none = subtree sha256 src b (lo / 2 ^ b) := by
  rw [range]
  simp [Nat.mod_eq_zero_of_dvd h]

theorem range_none_split {lo w : Nat} (h : 2 ≤ w) (hw : w ≠ 2 ^ w.log2) :
    range sha256 src lo (lo + w) none = (do
      let left ← range sha256 src lo (lo + split w) none
      let right ← range sha256 src (lo + split w) (lo + w) none
      nodeHash sha256 left right) := by
  rw [range]
  simp [h, hw, split]

theorem range_some_one {lo i : Nat} {leaf : Hash} (h : i = lo) :
    range sha256 src lo (lo + 1) (some (i, leaf)) = pure leaf := by
  rw [range]
  simp [h, Option.filter_some]

theorem range_some_outside {lo b i : Nat} {leaf : Hash} (h : 2 ^ b ∣ lo) (hi : lo ≤ i → lo + 2 ^ b ≤ i) :
    range sha256 src lo (lo + 2 ^ b) (some (i, leaf)) = subtree sha256 src b (lo / 2 ^ b) := by
  have hnot : ¬(lo ≤ i ∧ i < lo + 2 ^ b) := fun ⟨h₁, h₂⟩ => absurd (hi h₁) (by omega)
  rw [range]
  simp [Nat.mod_eq_zero_of_dvd h, Option.filter_some, if_neg hnot]

theorem range_some_split {lo w i : Nat} {leaf : Hash} (h : 2 ≤ w) (h₁ : lo ≤ i) (h₂ : i < lo + w) :
    range sha256 src lo (lo + w) (some (i, leaf)) = (do
      let left ← range sha256 src lo (lo + split w) (some (i, leaf))
      let right ← range sha256 src (lo + split w) (lo + w) (some (i, leaf))
      nodeHash sha256 left right) := by
  rw [range]
  have hw : w ≠ 1 := by omega
  simp [h, h₁, h₂, hw, split, Option.filter_some]

/-- Reading a range only adds tiles and hashed inputs. -/
theorem range_ext {lo hi : Nat} {leaf : Option (Nat × Hash)} {r r' : TreeReader σ} {v : Hash}
    (h : range sha256 src lo hi leaf r = .ok (v, r')) : r.Ext r' := by
  fun_induction range sha256 src lo hi leaf generalizing r r' v with
  | case1 => obtain ⟨-, rfl⟩ := Read.pure_ok.mp h; exact .refl _
  | case2 => exact (subtree_ok h).1
  | case3 =>
    rename_i ihl ihr
    obtain ⟨a, r₁, ha, h⟩ := Read.bind_ok.mp h
    obtain ⟨b, r₂, hb, h⟩ := Read.bind_ok.mp h
    refine ((ihl ha).trans (ihr hb)).trans ?_
    rw [nodeHash_ok] at h
    simp only [Except.ok.injEq, Prod.mk.injEq] at h
    obtain ⟨-, rfl⟩ := h
    exact ⟨rfl, fun _ _ h => h, List.subset_cons_self _ _⟩
  | case4 => obtain ⟨-, rfl⟩ := Read.pure_ok.mp h; exact .refl _

theorem root_ext {n : Nat} {r r' : TreeReader σ} {v : Hash}
    (h : root sha256 src n r = .ok (v, r')) : r.Ext r' := by
  unfold root at h
  split at h
  · rw [digest_ok] at h
    simp only [Except.ok.injEq, Prod.mk.injEq] at h
    obtain ⟨-, rfl⟩ := h
    exact ⟨rfl, fun _ _ h => h, List.subset_cons_self _ _⟩
  · exact range_ext h

/-! ## The replaced leaf -/

section
variable {inputs : List (List UInt8)} {leafAt : Nat → Hash}

/-- Equal node hashes have equal children. -/
theorem NoCollision.node_inj (hnc : NoCollision sha256 inputs) {a b a' b' : Hash}
    (h : nodeInput a b ∈ inputs) (h' : nodeInput a' b' ∈ inputs)
    (heq : node sha256 a b = node sha256 a' b') : a = a' ∧ b = b' := by
  have : (a, b) = (a', b') := hnc.node_injOn h h' heq
  simpa using this

theorem nodeInputs_split {lo n : Nat} (h : 2 ≤ n) :
    nodeInputs sha256 leafAt lo n =
      nodeInput (rangeHash (node sha256) leafAt lo (split n))
        (rangeHash (node sha256) leafAt (lo + split n) (n - split n)) ::
      (nodeInputs sha256 leafAt lo (split n) ++ nodeInputs sha256 leafAt (lo + split n) (n - split n)) := by
  unfold nodeInputs
  rw [rangePairs_split _ _ h]
  simp

/-- A rebuilt hash that is the tree hash of the leaves was rebuilt with the leaf at the index. -/
theorem range_leaf_binds (hnc : NoCollision sha256 inputs) {i : Nat} {leaf : Hash} {w lo : Nat}
    {r r' : TreeReader σ} {v : Hash} (h₁ : lo ≤ i) (h₂ : i < lo + w)
    (h : range sha256 src lo (lo + w) (some (i, leaf)) r = .ok (v, r'))
    (hv : v = rangeHash (node sha256) leafAt lo w) (hrun : r'.hashed ⊆ inputs)
    (htree : nodeInputs sha256 leafAt lo w ⊆ inputs) : leafAt i = leaf := by
  induction w using Nat.strong_induction_on generalizing lo r r' v with
  | _ w ih =>
    by_cases hw : w = 1
    · subst hw
      obtain rfl : i = lo := by omega
      rw [range_some_one rfl] at h
      obtain ⟨rfl, -⟩ := Read.pure_ok.mp h
      rw [hv, rangeHash_le_one _ _ (Nat.le_refl 1)]
    · have hw2 : 2 ≤ w := by omega
      have hlt := split_lt hw2
      have hpos := split_pos w
      rw [range_some_split hw2 h₁ h₂] at h
      obtain ⟨a, r₁, ha, h⟩ := Read.bind_ok.mp h
      obtain ⟨b, r₂, hb, h⟩ := Read.bind_ok.mp h
      rw [nodeHash_ok] at h
      simp only [Except.ok.injEq, Prod.mk.injEq] at h
      obtain ⟨rfl, rfl⟩ := h
      rw [nodeInputs_split hw2] at htree
      rw [rangeHash_split _ _ hw2] at hv
      obtain ⟨hva, hvb⟩ := hnc.node_inj (hrun List.mem_cons_self) (htree List.mem_cons_self) hv
      have hsub := List.append_subset.mp (List.Subset.trans (List.subset_cons_self _ _) htree)
      have hr₂ : r₂.hashed ⊆ inputs := List.Subset.trans (List.subset_cons_self _ _) hrun
      -- go on into the half that has the index
      by_cases hi : i < lo + split w
      · exact ih _ hlt h₁ hi ha hva (List.Subset.trans (range_ext hb).hashed hr₂) hsub.1
      · rw [show lo + w = lo + split w + (w - split w) by omega] at hb
        exact ih _ (by omega) (by omega) (by omega) hb hvb hr₂ hsub.2

end

end Emela.Pome
