import Emela.Pome.Lemmas.Read

/-!
# The tree reader with its arithmetic checked

The methods of the reader again, where an operation on `u64` that overflows, a shift by 64 or more and an index out of
bounds stop the run. A run that is not stopped is one of the reader.
-/

namespace Emela.Pome

variable {σ ε α β : Type}

/-- A method of the reader. `none` is a run that is stopped. -/
abbrev Checked (σ ε α : Type) := StateT (TreeReader σ) (ExceptT (ProofError ε) Option) α

namespace Checked

def lift (o : Option α) : Checked σ ε α := fun r => o.map fun a => .ok (a, r)

def fault : Checked σ ε α := lift none

/-- A method without arithmetic. -/
def call (x : Read σ ε α) : Checked σ ε α := fun r => some (x r)

/-! ## Arithmetic of `u64` -/

def add (a b : Nat) : Option Nat := if a + b < 2 ^ 64 then some (a + b) else none

def sub (a b : Nat) : Option Nat := if b ≤ a then some (a - b) else none

def mul (a b : Nat) : Option Nat := if a * b < 2 ^ 64 then some (a * b) else none

/-- `1u64 << n`. -/
def shl (n : Nat) : Option Nat := if n < 64 then some (2 ^ n) else none

def shr (a n : Nat) : Option Nat := if n < 64 then some (a >>> n) else none

def leadingZeros (a : Nat) : Nat := if a = 0 then 64 else 63 - a.log2

/-- The largest power of two below the width. -/
theorem shift_lt {width : Nat} (h : ¬(width = 0 ∨ leadingZeros (width - 1) = 64)) :
    2 ^ (63 - leadingZeros (width - 1)) < width := by
  rw [not_or, leadingZeros] at h
  rw [leadingZeros]
  split at h
  · exact absurd rfl h.2
  · next hne =>
    rw [if_neg hne]
    calc 2 ^ (63 - (63 - (width - 1).log2)) ≤ 2 ^ (width - 1).log2 := Nat.pow_le_pow_right (by decide) (by omega)
      _ ≤ width - 1 := Nat.log2_self_le hne
      _ < width := Nat.sub_lt (Nat.pos_of_ne_zero h.1) (by decide)

/-- `data[i * 32..i * 32 + 32]`. -/
def hashIn (data : List UInt8) (i : Nat) : Option Hash := do
  let start ← mul i 32
  let stop ← add start 32
  if stop ≤ data.length then some (hashAt data i) else none

/-! ## Methods -/

section
variable (sha256 : List UInt8 → Hash) (src : TileSource σ ε)

/-- A chunk of one hash has no `p[1]`. -/
def foldLevel : List Hash → Checked σ ε (List Hash)
  | a :: b :: rest => do
      let h ← call (nodeHash sha256 a b)
      let hs ← foldLevel rest
      return h :: hs
  | [_] => fault
  | [] => return []

def fold : Nat → List Hash → Checked σ ε Hash
  | 0, _ => fault
  | fuel + 1, hashes =>
      if hashes.length > 1 then do
        let hs ← foldLevel sha256 hashes
        fold fuel hs
      else lift hashes.head?

def tileData (tile : Tile) : Checked σ ε (List UInt8) := fun r =>
  match r.tiles tile with
  | some d => some (.ok (d, r))
  | none =>
      match src.tile r.source tile with
      | .error e => some (.error (.source e))
      | .ok (d, source) => (mul tile.width 32).map fun length =>
          if d.length ≠ length then .error (.badTile tile)
          else .ok (d, { r with source, tiles := Function.update r.tiles tile (some d) })

def subtree (height index : Nat) : Checked σ ε Hash := do
  let level := height / TILE_HEIGHT
  let span ← lift (shl (height % TILE_HEIGHT))
  let first ← lift (mul index span)
  let tileIndex := first / TILE_WIDTH
  let count ← lift (shr (← get).size (level * TILE_HEIGHT))
  let before ← lift (mul tileIndex TILE_WIDTH)
  let rest ← lift (sub count before)
  let data ← tileData src { level, index := tileIndex, width := min rest TILE_WIDTH }
  let start ← lift (sub first before)
  let stop ← lift (add start span)
  let hashes ← lift ((List.range' start (stop - start)).mapM (hashIn data))
  fold sha256 hashes.length hashes

def range (lo hi : Nat) (leaf : Option (Nat × Hash)) : Checked σ ε Hash :=
  if hi < lo then fault -- `hi - lo`
  else
    let width := hi - lo
    let leaf := leaf.filter fun (i, _) => lo ≤ i && i < hi
    match leaf.filter fun _ => width == 1 with
    | some (_, h) => return h
    | none =>
        if leaf.isNone && width == 2 ^ width.log2 && lo % width == 0 then
          subtree sha256 src width.log2 (lo / width)
        else if _h : width = 0 ∨ leadingZeros (width - 1) = 64 then fault -- `width - 1` and the subtraction from 63
        else
          let k := 2 ^ (63 - leadingZeros (width - 1))
          if 2 ^ 64 ≤ lo + k then fault
          else do
            let left ← range lo (lo + k) leaf
            let right ← range (lo + k) hi leaf
            call (nodeHash sha256 left right)
termination_by hi - lo
decreasing_by
  · have : 2 ^ (63 - leadingZeros (hi - lo - 1)) < hi - lo := shift_lt _h
    omega
  · have : 2 ^ (63 - leadingZeros (hi - lo - 1)) < hi - lo := shift_lt _h
    have := Nat.two_pow_pos (63 - leadingZeros (hi - lo - 1))
    omega

def root (n : Nat) : Checked σ ε Hash :=
  if n = 0 then call (digest sha256 []) else range sha256 src 0 n none

def rootWithLeaf (n index : Nat) (leaf : Hash) : Checked σ ε Hash :=
  range sha256 src 0 n (some (index, leaf))

def verifyInclusion (source : σ) (size : Nat) (root : Hash) (index : Nat) (record : List UInt8) :
    Option (Except (ProofError ε) (Unit × TreeReader σ)) :=
  if index ≥ size then some (.error .mismatch)
  else
    (do
      let leaf ← call (recordHash sha256 record)
      let rebuilt ← rootWithLeaf sha256 src size index leaf
      if rebuilt = root then return () else call (throw .mismatch) :
      Checked σ ε Unit) (TreeReader.new size source)

def verifyConsistency (source : σ) (oldSize : Nat) (oldRoot : Hash) (newSize : Nat) (newRoot : Hash) :
    Option (Except (ProofError ε) (Unit × TreeReader σ)) :=
  if oldSize > newSize then some (.error .mismatch)
  else
    (do
      let new ← root sha256 src newSize
      if new ≠ newRoot then call (throw .mismatch)
      let old ← root sha256 src oldSize
      if old ≠ oldRoot then call (throw .mismatch) :
      Checked σ ε Unit) (TreeReader.new newSize source)

end

/-! ## Runs that are not stopped -/

/-- A run of `c` that is not stopped is one of `u`. -/
def Refines (c : Checked σ ε α) (u : Read σ ε α) : Prop := ∀ r q, c r = some q → u r = q

namespace Refines

variable {c : Checked σ ε α} {u : Read σ ε α} {f : α → Checked σ ε β} {g : α → Read σ ε β} {o : Option α} {a : α}

theorem call (u : Read σ ε α) : Refines (call u) u := fun _ _ h => Option.some.inj h

theorem pure (a : α) : Refines (pure a : Checked σ ε α) (pure a) := fun _ _ h => Option.some.inj h

theorem fault : Refines fault u := fun _ _ h => by cases h

theorem bind (hc : Refines c u) (hf : ∀ a, Refines (f a) (g a)) : Refines (c >>= f) (u >>= g) := by
  intro r q h
  obtain ⟨p, hp, hq⟩ := Option.bind_eq_some_iff.mp h
  have hu := hc r p hp
  change (u r >>= fun p => g p.1 p.2) = q
  rw [hu]
  cases p with
  | error e => exact Option.some.inj hq
  | ok p => exact hf p.1 p.2 q hq

theorem lift_bind {v : Read σ ε β} (h : ∀ a, o = some a → Refines (f a) v) : Refines (lift o >>= f) v := by
  intro r q hq
  obtain ⟨p, hp, hq⟩ := Option.bind_eq_some_iff.mp hq
  obtain ⟨a, rfl, rfl⟩ := Option.map_eq_some_iff.mp hp
  exact h a rfl r q hq

end Refines

variable {sha256 : List UInt8 → Hash} {src : TileSource σ ε}

theorem foldLevel_refines (hashes : List Hash) :
    Refines (foldLevel sha256 hashes : Checked σ ε _) (Pome.foldLevel sha256 hashes) := by
  fun_induction foldLevel (σ := σ) (ε := ε) sha256 hashes with
  | case1 a b rest ih => exact .bind (.call _) fun h => .bind ih fun hs => .pure _
  | case2 a => exact .fault
  | case3 => exact .pure _

theorem fold_refines (fuel : Nat) (hashes : List Hash) :
    Refines (fold sha256 fuel hashes : Checked σ ε _) (Pome.fold sha256 fuel hashes) := by
  induction fuel generalizing hashes with
  | zero => exact .fault
  | succ fuel ih =>
    rw [fold, Pome.fold]
    split
    · exact .bind (foldLevel_refines hashes) ih
    · cases hashes with
      | nil => exact .fault
      | cons h hashes => exact .pure _

theorem tileData_refines (tile : Tile) : Refines (tileData src tile) (Pome.tileData src tile) := by
  intro r q h
  unfold tileData at h
  unfold Pome.tileData
  cases hd : r.tiles tile with
  | some d =>
    simp only [hd] at h ⊢
    exact Option.some.inj h
  | none =>
    simp only [hd] at h ⊢
    cases hs : src.tile r.source tile with
    | error e =>
      simp only [hs] at h ⊢
      exact Option.some.inj h
    | ok answer =>
      simp only [hs] at h ⊢
      obtain ⟨length, hlength, hq⟩ := Option.map_eq_some_iff.mp h
      rw [mul, Option.ite_none_right_eq_some, Option.some.injEq] at hlength
      rw [← hlength.2] at hq
      exact hq

theorem lift_bind_eq_some {o : Option α} {f : α → Checked σ ε β} {r : TreeReader σ}
    {q : Except (ProofError ε) (β × TreeReader σ)} :
    (lift o >>= f) r = some q ↔ ∃ a, o = some a ∧ f a r = some q := by
  cases o with
  | none => exact ⟨fun h => (by cases h), fun ⟨_, h, _⟩ => (by cases h)⟩
  | some a => exact ⟨fun h => ⟨a, rfl, h⟩, fun ⟨_, h, hq⟩ => Option.some.inj h ▸ hq⟩

theorem get_bind {f : TreeReader σ → Checked σ ε β} {r : TreeReader σ} : (get >>= f) r = f r r := rfl

theorem mapM_eq_some {f : Nat → Option α} {g : Nat → α} (h : ∀ i a, f i = some a → a = g i) {l : List Nat}
    {values : List α} (hl : l.mapM f = some values) : values = l.map g := by
  induction l generalizing values with
  | nil => exact (Option.some.inj hl).symm
  | cons i l ih =>
    rw [List.mapM_cons] at hl
    obtain ⟨a, ha, hl⟩ := Option.bind_eq_some_iff.mp hl
    obtain ⟨rest, hrest, hl⟩ := Option.bind_eq_some_iff.mp hl
    rw [← Option.some.inj hl, List.map_cons, ← ih hrest, ← h i a ha]

theorem hashIn_eq_some {data : List UInt8} {i : Nat} {h : Hash} (hh : hashIn data i = some h) : h = hashAt data i := by
  obtain ⟨start, -, hh⟩ := Option.bind_eq_some_iff.mp hh
  obtain ⟨stop, -, hh⟩ := Option.bind_eq_some_iff.mp hh
  rw [Option.ite_none_right_eq_some, Option.some.injEq] at hh
  exact hh.2.symm

theorem subtree_refines (height index : Nat) :
    Refines (subtree sha256 src height index) (Pome.subtree sha256 src height index) := by
  intro r q h
  obtain ⟨span, hspan, h⟩ := lift_bind_eq_some.mp h
  obtain ⟨first, hfirst, h⟩ := lift_bind_eq_some.mp h
  rw [get_bind] at h
  obtain ⟨count, hcount, h⟩ := lift_bind_eq_some.mp h
  obtain ⟨before, hbefore, h⟩ := lift_bind_eq_some.mp h
  obtain ⟨rest, hrest, h⟩ := lift_bind_eq_some.mp h
  rw [shl, Option.ite_none_right_eq_some, Option.some.injEq] at hspan
  rw [mul, Option.ite_none_right_eq_some, Option.some.injEq] at hfirst hbefore
  rw [shr, Option.ite_none_right_eq_some, Option.some.injEq] at hcount
  rw [sub, Option.ite_none_right_eq_some, Option.some.injEq] at hrest
  obtain ⟨-, rfl⟩ := hspan
  obtain ⟨-, rfl⟩ := hfirst
  obtain ⟨-, rfl⟩ := hbefore
  obtain ⟨-, rfl⟩ := hcount
  obtain ⟨-, rfl⟩ := hrest
  obtain ⟨p, hp, h⟩ := Option.bind_eq_some_iff.mp h
  have hdata := tileData_refines _ r p hp
  unfold Pome.subtree
  dsimp only [tileOf]
  rw [hdata]
  cases p with
  | error e => exact Option.some.inj h
  | ok p =>
    obtain ⟨start, hstart, h⟩ := lift_bind_eq_some.mp h
    obtain ⟨stop, hstop, h⟩ := lift_bind_eq_some.mp h
    obtain ⟨hashes, hhashes, h⟩ := lift_bind_eq_some.mp h
    rw [sub, Option.ite_none_right_eq_some, Option.some.injEq] at hstart
    rw [add, Option.ite_none_right_eq_some, Option.some.injEq] at hstop
    obtain ⟨-, rfl⟩ := hstart
    obtain ⟨-, rfl⟩ := hstop
    rw [Nat.add_sub_cancel_left] at hhashes
    obtain rfl := mapM_eq_some (fun _ _ => hashIn_eq_some) hhashes
    exact fold_refines _ _ _ _ h

theorem leadingZeros_eq {width : Nat} (h : ¬(width = 0 ∨ leadingZeros (width - 1) = 64)) (hwidth : width < 2 ^ 64) :
    63 - leadingZeros (width - 1) = (width - 1).log2 ∧ 2 ≤ width := by
  rw [not_or, leadingZeros] at h
  rw [leadingZeros]
  split at h
  · exact absurd rfl h.2
  · next hne =>
    have hlog : (width - 1).log2 < 64 := (Nat.log2_lt hne).mpr (by omega)
    rw [if_neg hne]
    omega

theorem range_refines {lo hi : Nat} (hhi : hi < 2 ^ 64) (leaf : Option (Nat × Hash)) :
    Refines (range sha256 src lo hi leaf) (Pome.range sha256 src lo hi leaf) := by
  fun_induction range sha256 src lo hi leaf with
  | case1 => exact .fault
  | case2 lo hi leaf hle width leaf' i h hone =>
    rw [Pome.range]
    dsimp only
    split
    · next hone' =>
      have heq := Option.some.inj (hone.symm.trans hone')
      rw [Prod.mk.injEq] at heq
      rw [heq.2]
      exact .pure _
    · next hone' => cases hone.symm.trans hone'
  | case3 lo hi leaf hle width leaf' hone haligned =>
    rw [Pome.range]
    dsimp only
    split
    · next hone' => cases hone.symm.trans hone'
    · rw [if_pos haligned]
      exact subtree_refines _ _
  | case4 => exact .fault
  | case5 => exact .fault
  | case6 lo hi leaf hle width leaf' hone hsplit hwidth k hlt ihleft ihright =>
    have hsize : width < 2 ^ 64 := by omega
    obtain ⟨hlog, htwo⟩ := leadingZeros_eq hwidth hsize
    have hk : k = 2 ^ (width - 1).log2 := congrArg (2 ^ ·) hlog
    rw [Pome.range]
    dsimp only
    split
    · next hone' => cases hone.symm.trans hone'
    · rw [if_neg hsplit, dif_pos htwo]
      rw [hk] at ihleft ihright ⊢
      exact .bind (ihleft (by omega)) fun left => .bind (ihright hhi) fun right => .call _

theorem root_refines {n : Nat} (hn : n < 2 ^ 64) : Refines (root sha256 src n) (Pome.root sha256 src n) := by
  rw [root, Pome.root]
  split
  · exact .call _
  · exact range_refines hn none

theorem verifyInclusion_refines {source : σ} {size index : Nat} {signed : Hash} {record : List UInt8}
    {q : Except (ProofError ε) (Unit × TreeReader σ)} (hsize : size < 2 ^ 64)
    (h : verifyInclusion sha256 src source size signed index record = some q) :
    Pome.verifyInclusion sha256 src source size signed index record = q := by
  rw [verifyInclusion] at h
  rw [Pome.verifyInclusion]
  split at h
  · next hout =>
    rw [if_pos hout]
    exact Option.some.inj h
  · next hin =>
    rw [if_neg hin]
    refine Refines.bind (.call _) (fun leaf => .bind (range_refines hsize _) fun rebuilt => ?_) _ _ h
    split
    · exact .pure _
    · exact .call _

theorem verifyConsistency_refines {source : σ} {oldSize newSize : Nat} {oldRoot newRoot : Hash}
    {q : Except (ProofError ε) (Unit × TreeReader σ)} (hsize : newSize < 2 ^ 64)
    (h : verifyConsistency sha256 src source oldSize oldRoot newSize newRoot = some q) :
    Pome.verifyConsistency sha256 src source oldSize oldRoot newSize newRoot = q := by
  rw [verifyConsistency] at h
  rw [Pome.verifyConsistency]
  split at h
  · next hout =>
    rw [if_pos hout]
    exact Option.some.inj h
  · next hin =>
    rw [if_neg hin]
    refine Refines.bind (root_refines hsize) (fun new => ?_) _ _ h
    split
    · exact .bind (.call _) fun _ => .bind (root_refines (by omega)) fun old => by split <;> [exact .call _; exact .pure _]
    · exact .bind (root_refines (by omega)) fun old => by split <;> [exact .call _; exact .pure _]

end Checked

end Emela.Pome
