import Emela.Heap.Lemmas.Layout

/-!
# Freeing and taking blocks
-/

namespace Emela.Heap

open DoublyLinked

variable {b : Board} {s s' s'' : State} {B L R L' R' : List Nat} {a x z total kind : Nat}

theorem Layout.rest (h : Layout b s B) (hs : s.initialized = true) : Rest b s.headers .start B := by
  have := h.blocks
  rwa [if_pos hs] at this

theorem Layout.initialized (h : Layout b s B) (ha : a ∈ B) : s.initialized = true := by
  by_contra hs
  have := h.blocks
  rw [if_neg hs] at this
  simp [this] at ha

theorem Layout.congr (h : Layout b s B) (hi : s'.initialized = s.initialized) (hb : s'.bins = s.bins)
    (hh : ∀ x ∈ B, (s'.headers x).tile = (s.headers x).tile ∧ ((s.headers x).isFree = true →
      (s'.headers x).freeNext = (s.headers x).freeNext ∧ (s'.headers x).freePrevious = (s.headers x).freePrevious)) :
    Layout b s' B where
  blocks := by
    have := h.blocks
    rw [hi]
    split
    · rw [if_pos ‹_›] at this
      exact this.congr fun x hx => (hh x hx).1
    · rwa [if_neg ‹_›] at this
  bins := by
    apply h.bins.congr
    · ext x
      simp only [Set.mem_ofPred_eq]
      constructor <;> rintro ⟨hx, hf⟩ <;> have := (tile_eq.mp (hh x hx).1).2.2
      · exact ⟨hx, this ▸ hf⟩
      · exact ⟨hx, this ▸ hf⟩
    · exact hb
    · rintro x ⟨hx, hf⟩
      exact ⟨((hh x hx).2 hf).1, ((hh x hx).2 hf).2, (tile_eq.mp (hh x hx).1).1⟩

theorem Layout.nodup (h : Layout b s B) : B.Nodup := by
  have := h.blocks
  split at this
  · obtain ⟨e, run, -⟩ := this
    exact run.nodup
  · rw [this]
    exact List.nodup_nil

theorem Layout.length_le (h : Layout b s B) : B.length ≤ b.heapEnd := by
  have := h.blocks
  split at this
  · obtain ⟨e, run, he⟩ := this
    have := run.le
    omega
  · rw [this]
    exact Nat.zero_le _

/-! ## Freeing a block -/

/-- The block `a`, which was between others, is a part of the free block `z`; the used blocks are as before. -/
structure Frees (s s' : State) (L R L' R' : List Nat) (a z : Nat) : Prop where
  before : L' <+: L
  after : R' <:+ R
  left : ∀ x ∈ L, (s.headers x).isFree = false → x ∈ L'
  right : ∀ x ∈ R, (s.headers x).isFree = false → x ∈ R'
  freed : (s'.headers z).isFree = true
  isFree : ∀ x ∈ L' ++ R', (s'.headers x).isFree = (s.headers x).isFree
  kept : ∀ x ∈ L ++ R, (s.headers x).isFree = false → (s'.headers x).kept = (s.headers x).kept
  block : z ∈ L ++ a :: R
  only : OnlyAt (L ++ a :: R) s s'
  contents : s'.contents = s.contents
  initialized : s'.initialized = s.initialized
  traceMode : s'.traceMode = s.traceMode

/-- A used block is in no bin. -/
theorem Layout.gap (h : Layout b s (L ++ a :: R)) (ha : (s.headers a).isFree = false) : Gap b s L a R false false := by
  have rest := h.rest (h.initialized (a := a) (by simp))
  obtain ⟨e, run, rest⟩ := rest_append.mp rest
  obtain ⟨fits, rest⟩ := rest_cons.mp rest
  refine ⟨⟨e, run, fits.address, fits.previousSize, fun h => by cases h⟩, fits.room, fits.aligned, ?_, ?_⟩
  · rw [Edge.after, ha] at rest
    exact rest
  · apply h.bins.congr
    · ext x
      simp only [Set.mem_ofPred_eq, List.mem_append, List.mem_cons]
      constructor
      · tauto
      · rintro ⟨hx | rfl | hx, hf⟩
        · exact ⟨.inl hx, hf⟩
        · rw [ha] at hf
          cases hf
        · exact ⟨.inr hx, hf⟩
    · rfl
    · exact fun _ _ => ⟨rfl, rfl, rfl⟩

/-- A block without free neighbours is put into a bin. -/
theorem Gap.addFree (h : Gap b s L a R true true) (hs : s.initialized = true) :
    Layout b (s.addFree b a) (L ++ a :: R) := by
  have ha := h.not_mem
  have hne : ∀ x ∈ L ++ R, x ≠ a := fun x hx he => ha (he ▸ hx)
  have bins := h.bins.addFree (a := a) fun hm => ha hm.1
  have tile : ∀ x, x ≠ a → ((s.addFree b a).headers x).tile = (s.headers x).tile := fun x hx => by
    simp [addFree_headers, Header.tile, hx]
  obtain ⟨e, run, address, previousSize, free⟩ := h.before
  constructor
  · have hs' : (s.addFree b a).initialized = true := by simpa [State.addFree] using hs
    rw [if_pos hs']
    apply rest_append.mpr
    refine ⟨e, run.congr fun x hx => tile x (hne x (List.mem_append_left _ hx)), rest_cons.mpr ⟨⟨address, ?_, ?_, ?_, ?_⟩, ?_⟩⟩
    · simpa [addFree_headers] using previousSize
    · intro he
      rw [free rfl] at he
      cases he
    · simpa [addFree_headers] using h.room
    · simpa [addFree_headers] using h.aligned
    · have edge : Edge.after (s.addFree b a).headers a = ⟨a + (s.headers a).size, (s.headers a).size, true⟩ := by
        simp [Edge.after, addFree_headers]
      rw [edge]
      exact h.rest.congr fun x hx => tile x (hne x (List.mem_append_right _ hx))
  · apply bins.congr
    · ext x
      simp only [Set.mem_ofPred_eq, Set.mem_insert_iff, List.mem_append, List.mem_cons, addFree_headers]
      by_cases hx : x = a
      · simp [hx]
      · simp [hx]
    · rfl
    · exact fun _ _ => ⟨rfl, rfl, rfl⟩

theorem Layout.freeBlock (h : Layout b s (L ++ a :: R)) (ha : (s.headers a).isFree = false) : ∃ L' R',
    Layout b (s.freeBlock b a).1 (L' ++ (s.freeBlock b a).2 :: R') ∧
    Frees s (s.freeBlock b a).1 L R L' R' a (s.freeBlock b a).2 := by
  obtain ⟨R', after, right, gap, joins₁, only₁⟩ := (h.gap ha).joinNext
  generalize hs₁ : (s.joinNext b a).tellNext b a = s₁ at gap joins₁ only₁
  obtain ⟨L', before, left, gap', joins', block, only'⟩ := gap.joinPrevious
  generalize hz₂ : (s₁.joinPrevious b a).2 = z at gap' joins' block only'
  generalize hs₂ : (s₁.joinPrevious b a).1.tellNext b z = s₂ at gap' joins' only'
  have joins := joins₁.trans joins'
  have block : z ∈ L ++ a :: R := by
    simp only [List.mem_append, List.mem_cons, List.not_mem_nil, or_false] at block ⊢
    tauto
  have blocks : ∀ x ∈ L' ++ R', x ∈ L ++ a :: R := by
    intro x hx
    have := (List.mem_append.mp hx).imp (before.subset ·) (after.subset ·)
    simp only [List.mem_append, List.mem_cons]
    tauto
  have only : OnlyAt (L ++ a :: R) s s₂ := by
    apply only₁.trans (only'.mono ?_)
    intro x hx
    have := fun hx : x ∈ R' => after.subset hx
    simp only [List.mem_append, List.mem_cons] at hx ⊢
    tauto
  have hz : z ∉ L' ++ R' := gap'.not_mem
  have hi : s₂.initialized = true := joins.initialized.trans (h.initialized (a := a) (by simp))
  generalize hs₃ : (s₂.set z fun block => { block with references := 0, kind := 0 }) = s₃
  have hne : ∀ x, x ≠ z → s₃.headers x = s₂.headers x := fun x hx => hs₃ ▸ State.set_of_ne hx
  have gap'' : Gap b s₃ L' z R' true true := by
    apply gap'.congr
    · rw [← hs₃, State.set_bins]
    · rw [← hs₃, State.set_self]
      exact ⟨rfl, rfl⟩
    · intro x hx
      rw [hne x fun he => hz (he ▸ hx)]
      exact ⟨rfl, rfl, rfl⟩
  have hfree : s.freeBlock b a = (s₃.addFree b z, z) := by
    simp only [State.freeBlock, hs₁, hz₂, hs₂, hs₃]
  have links := gap''.bins.onlyLinks_addFree (a := z)
  rw [hfree]
  refine ⟨L', R', gap''.addFree (by rw [← hs₃]; exact hi), ⟨before, after, fun x hx hf => ?_, right, ?_, fun x hx => ?_,
    fun x hx hf => ?_, block, ?_, ?_, ?_, ?_⟩⟩
  · exact left x hx ((joins₁.isFree x).trans hf)
  · simp [addFree_headers]
  · have hxz : x ≠ z := fun he => hz (he ▸ hx)
    simp [addFree_headers, hxz, hne x hxz, joins.isFree]
  · have hm : x ∈ L' ++ R' := by
      rcases List.mem_append.mp hx with hx | hx
      · exact List.mem_append_left _ (left x hx ((joins₁.isFree x).trans hf))
      · exact List.mem_append_right _ (right x hx hf)
    have hxz : x ≠ z := fun he => hz (he ▸ hm)
    have hxa : x ≠ a := fun he => (h.gap ha).not_mem (he ▸ hx)
    have hout : x ∉ insert z {x | x ∈ L' ++ R' ∧ (s₃.headers x).isFree = true} := by
      rintro (he | ⟨-, ht⟩)
      · exact hxz he
      · rw [hne x hxz, joins.isFree, hf] at ht
        cases ht
    rw [links.others x hout, State.set_of_ne hxz, hne x hxz]
    exact joins.kept x hxa hf
  · apply only.trans
    refine OnlyAt.trans (?_ : OnlyAt _ _ (s₃.set z fun block => { block with isFree := true })) ?_
    · rw [← hs₃]
      exact (onlyAt_set block).trans (onlyAt_set block)
    · apply links.onlyAt
      rintro x (rfl | ⟨hx, -⟩)
      · exact block
      · exact blocks x hx
  · rw [links.contents, State.set_contents, ← hs₃]
    exact joins.contents
  · rw [links.initialized, State.set_initialized, ← hs₃]
    exact joins.initialized
  · rw [links.traceMode, State.set_traceMode, ← hs₃]
    exact joins.traceMode

/-! ## Taking a block -/

/-- A block that is used may have free neighbours. -/
theorem Gap.used {left right : Bool} (h : Gap b s L a R left right) (hs : s.initialized = true)
    (ha : (s.headers a).isFree = false) : Layout b s (L ++ a :: R) where
  blocks := by
    obtain ⟨e, run, address, previousSize, -⟩ := h.before
    rw [if_pos hs]
    refine rest_append.mpr ⟨e, run, rest_cons.mpr ⟨⟨address, previousSize, fun _ => ha, h.room, h.aligned⟩, ?_⟩⟩
    rw [Edge.after, ha]
    exact rest_weaken h.rest
  bins := by
    apply h.bins.congr
    · ext x
      simp only [Set.mem_ofPred_eq, List.mem_append, List.mem_cons]
      by_cases hx : x = a
      · simp [hx, ha]
      · simp [hx]
    · rfl
    · exact fun _ _ => ⟨rfl, rfl, rfl⟩

theorem Layout.removeFree (h : Layout b s (L ++ a :: R)) (ha : (s.headers a).isFree = true) :
    Gap b (s.removeFree b a) L a R true true := by
  have hm : a ∈ L ++ a :: R := by simp
  have links := h.bins.onlyLinks_removeFree (a := a) ⟨hm, ha⟩
  have bins := h.bins.removeFree (a := a) ⟨hm, ha⟩
  have tile : ∀ x, ((s.removeFree b a).headers x).tile = (s.headers x).tile := fun x =>
    tile_eq.mpr ⟨links.size x, links.previousSize x, links.isFree x⟩
  obtain ⟨e, run, rest⟩ := rest_append.mp (h.rest (h.initialized hm))
  obtain ⟨fits, rest⟩ := rest_cons.mp rest
  refine ⟨⟨e, run.congr fun x _ => tile x, fits.address, (links.previousSize a).trans fits.previousSize, fun _ => ?_⟩,
    links.size a ▸ fits.room, links.size a ▸ fits.aligned, ?_, ?_⟩
  · by_contra he
    rw [fits.apart (Bool.of_not_eq_false he)] at ha
    cases ha
  · rw [links.size, ← ha]
    exact rest.congr fun x _ => tile x
  · apply bins.congr
    · simp only [links.isFree]
      exact free_middle (List.nodup_cons.mp (List.nodup_middle.mp h.nodup)).1
    · rfl
    · exact fun _ _ => ⟨rfl, rfl, rfl⟩

theorem addFree_initialized : (s.addFree b a).initialized = s.initialized := by simp [State.addFree]

theorem addFree_traceMode : (s.addFree b a).traceMode = s.traceMode := by simp [State.addFree]

theorem addFree_contents : (s.addFree b a).contents = s.contents := by simp [State.addFree]

theorem addFree_tellNext : (s.addFree b a).tellNext b a = (s.tellNext b a).addFree b a := by
  have size : ((s.tellNext b a).headers a).size = (s.headers a).size := by rw [tellNext_headers]
  have size' : ((s.addFree b a).headers a).size = (s.headers a).size := by rw [addFree_headers]
  have told := joins_tellNext (b := b) (s := s) (a := a) (x := a)
  have told' := joins_tellNext (b := b) (s := s.addFree b a) (a := a) (x := a)
  ext1
  · funext x
    simp only [tellNext_headers, addFree_headers, tellNext_bins]
  · rw [tellNext_bins, addFree_bins, addFree_bins, tellNext_bins, size]
  · rw [told'.initialized, addFree_initialized, addFree_initialized, told.initialized]
  · rw [told'.traceMode, addFree_traceMode, addFree_traceMode, told.traceMode]
  · rw [told'.contents, addFree_contents, addFree_contents, told.contents]

theorem addFree_set {g : Header → Header} (hx : x ≠ a) (hb : s.bins (b.bin (s.headers a).size) ≠ some x) :
    (s.addFree b a).set x g = (s.set x g).addFree b a := by
  ext1
  · funext y
    rw [State.set_headers]
    by_cases hy : y = x
    · subst hy
      simp [addFree_headers, State.set_of_ne (Ne.symm hx), hx, hb]
    · simp [addFree_headers, State.set_of_ne (Ne.symm hx), State.set_of_ne hy, hy]
  · rw [State.set_bins, addFree_bins, addFree_bins, State.set_of_ne (Ne.symm hx), State.set_bins]
  · rw [State.set_initialized, addFree_initialized, addFree_initialized, State.set_initialized]
  · rw [State.set_traceMode, addFree_traceMode, addFree_traceMode, State.set_traceMode]
  · rw [State.set_contents, addFree_contents, addFree_contents, State.set_contents]

/-- What `take` makes of the header of the block. -/
def Header.taken (kind : Nat) (h : Header) : Header :=
  { h with isFree := false, references := 1, kind := kind, freeNext := none, freePrevious := none }

def Header.splitOff (total leftover : Nat) (h : Header) : Header :=
  { h with size := leftover, previousSize := total, references := 0, kind := 0, freeNext := none, freePrevious := none }

theorem tellNext_set {g : Header → Header} (hx : x ≠ a) (hn : x ≠ a + (s.headers a).size) :
    (s.tellNext b a).set x g = (s.set x g).tellNext b a := by
  simp only [State.tellNext, State.set_of_ne (Ne.symm hx)]
  split
  · exact State.set_comm (Ne.symm hn)
  · rfl

/-- When a block is split, the new block is told to the one after it and then put into its bin. -/
theorem take_eq (h : Gap b (s.removeFree b a) L a R true true) (htotal : 0 < total)
    (hleft : b.headerSize + b.alignment ≤ ((s.removeFree b a).headers a).size - total) :
    s.take b a total kind =
      ((((s.removeFree b a).set a fun block => { block with size := total }.taken kind).set (a + total)
        (.splitOff total (((s.removeFree b a).headers a).size - total))).tellNext b (a + total)).addFree b (a + total) := by
  generalize hs₁ : s.removeFree b a = s₁ at h hleft ⊢
  have header_pos : 0 < b.headerSize := b.headerSize_pos
  have hne : a ≠ a + total := by omega
  have split : s₁.split b a total = (((s₁.set a fun block => { block with size := total }).set (a + total)
      (.splitOff total ((s₁.headers a).size - total))).addFree b (a + total)).tellNext b (a + total) := by
    have size : ((((s₁.set a fun block => { block with size := total }).set (a + total)
        (.splitOff total ((s₁.headers a).size - total))).addFree b (a + total)).headers (a + total)).size =
        (s₁.headers a).size - total := by
      rw [addFree_headers, State.set_self]
      rfl
    rw [State.split]
    dsimp only
    rw [if_pos hleft, State.tellNext, size]
    rfl
  have out : ∀ i, s₁.bins i ≠ some a := fun i => h.bins.not_mem (fun hm => h.not_mem hm.1) i
  rw [State.take, hs₁, split, tellNext_set hne, addFree_set hne, State.set_comm hne.symm, State.set_set, addFree_tellNext]
  · rfl
  · exact out _
  · rw [addFree_headers, State.set_self]
    simp only [Header.splitOff]
    omega

/-- The blocks before and after the one that is split off. -/
theorem Gap.splitOff (gap : Gap b s L a R true true) (hleft : b.headerSize ≤ (s.headers a).size - total)
    (htotal : b.headerSize ≤ total) (haligned : b.alignment ∣ total) {u : State} (hb : u.bins = s.bins)
    (hua : u.headers a = { s.headers a with size := total }.taken kind)
    (husp : u.headers (a + total) = (s.headers (a + total)).splitOff total ((s.headers a).size - total))
    (hux : ∀ x ∈ L ++ R, u.headers x = s.headers x) :
    Gap b (u.tellNext b (a + total)) (L ++ [a]) (a + total) R true true := by
  obtain ⟨e, run, address, previousSize, -⟩ := gap.before
  apply gap_tellNext (v := (s.headers a).size)
  · refine ⟨.after u.headers a, run_append.mpr ⟨e, run.congr fun x hx => ?_, ⟨address, ?_, fun _ => ?_, ?_, ?_⟩, rfl⟩, ?_, ?_, fun _ => ?_⟩
    · rw [hux x (List.mem_append_left _ hx)]
    · rw [hua]
      exact previousSize
    · rw [hua]
      rfl
    · rw [hua]
      exact htotal
    · rw [hua]
      exact haligned
    · rw [Edge.after, hua]
      rfl
    · rw [Edge.after, hua, husp]
      rfl
    · rw [Edge.after, hua]
      rfl
  · rw [husp]
    exact hleft
  · rw [husp]
    exact Nat.dvd_sub gap.aligned haligned
  · have hend : a + total + (u.headers (a + total)).size = a + (s.headers a).size := by
      have := b.headerSize_pos
      rw [husp]
      simp only [Header.splitOff]
      omega
    rw [hend]
    exact gap.rest.congr fun x hx => by rw [hux x (List.mem_append_right _ hx)]
  · apply gap.bins.congr
    · ext x
      simp only [Set.mem_ofPred_eq, List.mem_append, List.mem_singleton]
      by_cases hx : x = a
      · subst hx
        have := gap.not_mem
        rw [hua]
        simp_all [Header.taken]
      · constructor
        · rintro ⟨hm, hf⟩
          have hm : x ∈ L ++ R := by
            simp only [List.mem_append]
            tauto
          rw [hux x hm] at hf
          exact ⟨List.mem_append.mp hm, hf⟩
        · rintro ⟨hm, hf⟩
          rw [hux x (List.mem_append.mpr hm)]
          exact ⟨by tauto, hf⟩
    · exact hb
    · rintro x ⟨hx, -⟩
      rw [hux x hx]
      exact ⟨rfl, rfl, rfl⟩

/-- The free block `a` is used; the blocks of `M` are new, and the used blocks are as before. -/
structure Takes (s s' : State) (L R M : List Nat) (a total kind : Nat) : Prop where
  taken : (s'.headers a).isFree = false
  references : (s'.headers a).references = 1
  kind : (s'.headers a).kind = kind
  room : total ≤ (s'.headers a).size
  split : ∀ x ∈ M, (s'.headers x).isFree = true
  isFree : ∀ x ∈ L ++ R, (s'.headers x).isFree = (s.headers x).isFree
  kept : ∀ x ∈ L ++ R, (s.headers x).isFree = false → (s'.headers x).kept = (s.headers x).kept
  only : OnlyAt (L ++ a :: (M ++ R)) s s'
  contents : s'.contents = s.contents
  initialized : s'.initialized = s.initialized
  traceMode : s'.traceMode = s.traceMode

theorem Layout.take (h : Layout b s (L ++ a :: R)) (ha : (s.headers a).isFree = true)
    (hfit : total ≤ (s.headers a).size) (htotal : b.headerSize ≤ total) (haligned : b.alignment ∣ total) (kind : Nat) :
    ∃ M, Layout b (s.take b a total kind) (L ++ a :: (M ++ R)) ∧ Takes s (s.take b a total kind) L R M a total kind := by
  have hm : a ∈ L ++ a :: R := by simp
  have gap := h.removeFree ha
  have links := h.bins.onlyLinks_removeFree (a := a) ⟨hm, ha⟩
  have hne : ∀ x ∈ L ++ R, x ≠ a := fun x hx he => gap.not_mem (he ▸ hx)
  have same : ∀ x, (s.headers x).isFree = false → (s.removeFree b a).headers x = s.headers x := fun x hf =>
    links.others x fun hm => absurd (hf.symm.trans hm.2) (by simp)
  have hi : (s.removeFree b a).initialized = true := links.initialized.trans (h.initialized hm)
  rw [← links.size a] at hfit
  by_cases hleft : b.headerSize + b.alignment ≤ ((s.removeFree b a).headers a).size - total
  · have hpos : 0 < total := Nat.lt_of_lt_of_le b.headerSize_pos htotal
    rw [take_eq gap hpos hleft]
    generalize hs₁ : s.removeFree b a = s₁ at *
    generalize hu : ((s₁.set a fun block => { block with size := total }.taken kind).set (a + total)
      (.splitOff total ((s₁.headers a).size - total))) = u
    have hsp : ∀ x ∈ L ++ R, x ≠ a + total := fun x hx he => by
      rcases List.mem_append.mp hx with hx | hx
      · have := gap.before_lt hx
        omega
      · have := gap.lt_rest hx
        have := b.headerSize_pos
        omega
    have hua : u.headers a = { s₁.headers a with size := total }.taken kind := by
      rw [← hu, State.set_of_ne (by omega), State.set_self]
    have husp : u.headers (a + total) = (s₁.headers (a + total)).splitOff total ((s₁.headers a).size - total) := by
      rw [← hu, State.set_self, State.set_of_ne (by omega)]
    have hux : ∀ x ∈ L ++ R, u.headers x = s₁.headers x := fun x hx => by
      rw [← hu, State.set_of_ne (hsp x hx), State.set_of_ne (hne x hx)]
    have gap' : Gap b (u.tellNext b (a + total)) (L ++ [a]) (a + total) R true true :=
      gap.splitOff (Nat.le_of_add_right_le hleft) htotal haligned (by rw [← hu]; rfl) hua husp hux
    have told := joins_tellNext (b := b) (s := u) (a := a + total) (x := a + total)
    have layout := gap'.addFree (told.initialized.trans (by rw [← hu]; exact hi))
    have links' := gap'.bins.onlyLinks_addFree (a := a + total)
    have others : ∀ x, x ≠ a + total → (u.headers x).isFree = false →
        ((u.tellNext b (a + total)).addFree b (a + total)).headers x = (u.tellNext b (a + total)).headers x := by
      intro x hx hf
      rw [links'.others x, State.set_of_ne hx]
      rintro (he | ⟨-, ht⟩)
      · exact hx he
      · rw [told.isFree, hf] at ht
        cases ht
    have atBlock : ((u.tellNext b (a + total)).addFree b (a + total)).headers a =
        (u.tellNext b (a + total)).headers a := others a (by omega) (by rw [hua]; rfl)
    refine ⟨[a + total], by simpa using layout, ⟨?_, ?_, ?_, ?_, ?_, fun x hx => ?_, fun x hx hf => ?_, ?_, ?_, ?_, ?_⟩⟩
    · rw [atBlock, tellNext_headers, hua]
      rfl
    · rw [atBlock, tellNext_headers, hua]
      rfl
    · rw [atBlock, tellNext_headers, hua]
      rfl
    · rw [atBlock, tellNext_headers, hua]
      exact Nat.le_refl total
    · intro x hx
      obtain rfl : x = a + total := by simpa using hx
      rw [addFree_headers]
      exact if_pos rfl
    · rw [links'.isFree, State.set_of_ne (hsp x hx), told.isFree, hux x hx, links.isFree]
    · have hfu : (u.headers x).isFree = false := by rw [hux x hx, links.isFree, hf]
      rw [others x (hsp x hx) hfu, tellNext_headers, hux x hx, same x hf]
      rfl
    · have tile : L ++ [a] ++ (a + total) :: R = L ++ a :: ([a + total] ++ R) := by simp
      rw [← tile]
      have hsub : ∀ x ∈ L ++ a :: R, x ∈ L ++ [a] ++ (a + total) :: R := by
        intro x hx
        simp only [List.mem_append, List.mem_cons] at hx ⊢
        tauto
      apply (links.onlyAt fun x hx => hsub x hx.1).trans
      refine OnlyAt.trans (?_ : OnlyAt _ _ u) ?_
      · rw [← hu]
        exact (onlyAt_set (by simp)).trans (onlyAt_set (by simp))
      · apply gap'.onlyAt_tellNext.trans
        refine OnlyAt.trans (?_ : OnlyAt _ _ ((u.tellNext b (a + total)).set (a + total)
          fun block => { block with isFree := true })) ?_
        · exact onlyAt_set (by simp)
        · apply links'.onlyAt
          rintro x (rfl | ⟨hx, -⟩)
          · simp
          · simp only [List.mem_append, List.mem_cons] at hx ⊢
            tauto
    · rw [links'.contents, State.set_contents, told.contents, ← hu]
      exact links.contents
    · rw [links'.initialized, State.set_initialized, told.initialized, ← hu]
      exact links.initialized
    · rw [links'.traceMode, State.set_traceMode, told.traceMode, ← hu]
      exact links.traceMode
  · have htake : s.take b a total kind = (s.removeFree b a).set a (.taken kind) := by
      rw [State.take, State.split]
      dsimp only
      rw [if_neg hleft]
      rfl
    have gap' : Gap b ((s.removeFree b a).set a (.taken kind)) L a R true true := by
      apply gap.congr
      · rfl
      · rw [State.set_self]
        exact ⟨rfl, rfl⟩
      · intro x hx
        rw [State.set_of_ne (hne x hx)]
        exact ⟨rfl, rfl, rfl⟩
    rw [htake]
    refine ⟨[], ?_, ⟨?_, ?_, ?_, ?_, by simp, fun x hx => ?_, fun x hx hf => ?_, ?_, links.contents, links.initialized,
      links.traceMode⟩⟩
    · apply gap'.used hi
      rw [State.set_self]
      rfl
    · rw [State.set_self]
      rfl
    · rw [State.set_self]
      rfl
    · rw [State.set_self]
      rfl
    · rw [State.set_self]
      exact hfit
    · rw [State.set_of_ne (hne x hx), links.isFree]
    · rw [State.set_of_ne (hne x hx), same x hf]
    · exact (links.onlyAt fun x hx => hx.1).trans (onlyAt_set (by simp))

end Emela.Heap
