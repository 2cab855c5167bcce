import Emela.Heap.Lemmas.Bins

/-!
# Blocks

The storage is filled with blocks, each of which knows its size and the size of the one before it. No two free
blocks are next to each other, and the free blocks are those in the bins.
-/

namespace Emela.Heap

variable {b : Board} {s s' s'' : State} {h h' : Nat → Header} {B B' L R : List Nat} {a x v r p total kind : Nat}
  {left right f : Bool}

/-- Where a block begins, with the size of the block before it and whether that is free. -/
structure Edge where
  address : Nat
  size : Nat
  free : Bool

def Edge.start : Edge := ⟨0, 0, false⟩

def Edge.after (h : Nat → Header) (a : Nat) : Edge := ⟨a + (h a).size, (h a).size, (h a).isFree⟩

structure Fits (b : Board) (h : Nat → Header) (e : Edge) (a : Nat) : Prop where
  address : a = e.address
  previousSize : (h a).previousSize = e.size
  apart : e.free = true → (h a).isFree = false
  room : b.headerSize ≤ (h a).size
  aligned : b.alignment ∣ (h a).size

/-- Blocks that follow one another. -/
def Run (b : Board) (h : Nat → Header) : Edge → List Nat → Edge → Prop
  | e, [], e' => e' = e
  | e, a :: B, e' => Fits b h e a ∧ Run b h (.after h a) B e'

/-- Blocks up to the end. -/
def Rest (b : Board) (h : Nat → Header) (e : Edge) (B : List Nat) : Prop :=
  ∃ e', Run b h e B e' ∧ e'.address = b.heapEnd

structure Layout (b : Board) (s : State) (B : List Nat) : Prop where
  blocks : if s.initialized then Rest b s.headers .start B else B = []
  bins : Bins b s {x | x ∈ B ∧ (s.headers x).isFree = true}

/-! ## Runs of blocks -/

theorem run_append {e e'' : Edge} : Run b h e (B ++ B') e'' ↔ ∃ e', Run b h e B e' ∧ Run b h e' B' e'' := by
  induction B generalizing e with
  | nil => simp [Run]
  | cons a B ih => simp [Run, ih, and_assoc]

theorem rest_append {e : Edge} : Rest b h e (B ++ B') ↔ ∃ e', Run b h e B e' ∧ Rest b h e' B' := by
  simp only [Rest, run_append]
  constructor
  · rintro ⟨e'', ⟨e', hB, hB'⟩, he⟩
    exact ⟨e', hB, e'', hB', he⟩
  · rintro ⟨e', hB, e'', hB', he⟩
    exact ⟨e'', ⟨e', hB, hB'⟩, he⟩

theorem rest_cons {e : Edge} : Rest b h e (a :: B) ↔ Fits b h e a ∧ Rest b h (.after h a) B := by
  simp only [Rest, Run]
  constructor
  · rintro ⟨e', ⟨hf, hB⟩, he⟩
    exact ⟨hf, e', hB, he⟩
  · rintro ⟨hf, e', hB, he⟩
    exact ⟨e', ⟨hf, hB⟩, he⟩

/-- What the blocks before and after a block depend on. -/
def Header.tile (h : Header) : Nat × Nat × Bool := (h.size, h.previousSize, h.isFree)

theorem tile_eq {h h' : Header} : h'.tile = h.tile ↔
    h'.size = h.size ∧ h'.previousSize = h.previousSize ∧ h'.isFree = h.isFree := by
  simp [Header.tile]

theorem Fits.congr {e : Edge} (hf : Fits b h e a) (heq : (h' a).tile = (h a).tile) : Fits b h' e a := by
  obtain ⟨size, previousSize, isFree⟩ := tile_eq.mp heq
  exact ⟨hf.address, previousSize ▸ hf.previousSize, isFree ▸ hf.apart, size ▸ hf.room, size ▸ hf.aligned⟩

theorem after_congr (heq : (h' a).tile = (h a).tile) : Edge.after h' a = Edge.after h a := by
  obtain ⟨size, -, isFree⟩ := tile_eq.mp heq
  rw [Edge.after, Edge.after, size, isFree]

theorem Run.congr {e e' : Edge} (hr : Run b h e B e') (heq : ∀ x ∈ B, (h' x).tile = (h x).tile) : Run b h' e B e' := by
  induction B generalizing e with
  | nil => exact hr
  | cons a B ih =>
    refine ⟨hr.1.congr (heq a List.mem_cons_self), ?_⟩
    rw [after_congr (heq a List.mem_cons_self)]
    exact ih hr.2 fun x hx => heq x (List.mem_cons_of_mem a hx)

theorem Rest.congr {e : Edge} (hr : Rest b h e B) (heq : ∀ x ∈ B, (h' x).tile = (h x).tile) : Rest b h' e B := by
  obtain ⟨e', hr, he⟩ := hr
  exact ⟨e', hr.congr heq, he⟩

theorem rest_weaken {e : Edge} (hr : Rest b h e B) : Rest b h ⟨e.address, e.size, false⟩ B := by
  cases B with
  | nil =>
    obtain ⟨e', rfl, he⟩ := hr
    exact ⟨_, rfl, he⟩
  | cons a B =>
    obtain ⟨fits, rest⟩ := rest_cons.mp hr
    exact rest_cons.mpr ⟨⟨fits.address, fits.previousSize, fun h => absurd h (by simp), fits.room, fits.aligned⟩, rest⟩

theorem Board.headerSize_pos : 0 < b.headerSize := by
  have := b.blockSize_pos
  have := Nat.mod_lt b.blockSize b.alignment_pos
  unfold Board.headerSize
  dsimp only
  split <;> omega

theorem Fits.size_pos {e : Edge} (hf : Fits b h e a) : 0 < (h a).size :=
  Nat.lt_of_lt_of_le b.headerSize_pos hf.room

theorem Run.le {e e' : Edge} (hr : Run b h e B e') : e.address + B.length ≤ e'.address := by
  induction B generalizing e with
  | nil => exact Nat.le_of_eq (congrArg Edge.address hr).symm
  | cons a B ih =>
    have := ih hr.2
    have := hr.1.size_pos
    have := hr.1.address
    simp only [Edge.after, List.length_cons] at *
    omega

theorem Run.bounds {e e' : Edge} (hr : Run b h e B e') (hx : x ∈ B) :
    e.address ≤ x ∧ x + (h x).size ≤ e'.address ∧ 0 < (h x).size := by
  induction B generalizing e with
  | nil => simp at hx
  | cons a B ih =>
    have size_pos := hr.1.size_pos
    have address := hr.1.address
    rcases List.mem_cons.mp hx with rfl | hx
    · have := hr.2.le
      simp only [Edge.after] at this
      exact ⟨by omega, by omega, size_pos⟩
    · obtain ⟨low, high, pos⟩ := ih hr.2 hx
      simp only [Edge.after] at low
      exact ⟨by omega, high, pos⟩

theorem Rest.bounds {e : Edge} (hr : Rest b h e B) (hx : x ∈ B) :
    e.address ≤ x ∧ x + (h x).size ≤ b.heapEnd ∧ 0 < (h x).size := by
  obtain ⟨e', hr, he⟩ := hr
  exact he ▸ hr.bounds hx

theorem Run.unique {e e₁ e₂ : Edge} (h₁ : Run b h e B e₁) (h₂ : Run b h e B e₂) : e₁ = e₂ := by
  induction B generalizing e with
  | nil => exact Eq.trans h₁ (Eq.symm h₂)
  | cons a B ih => exact ih h₁.2 h₂.2

/-- The blocks are in the order of their addresses and do not overlap. -/
theorem Run.pairwise {e e' : Edge} (hr : Run b h e B e') : B.Pairwise fun x y => x + (h x).size ≤ y := by
  induction B generalizing e with
  | nil => exact List.Pairwise.nil
  | cons a B ih =>
    refine List.Pairwise.cons (fun y hy => ?_) (ih hr.2)
    exact (hr.2.bounds hy).1

theorem Run.sum {e e' : Edge} (hr : Run b h e B e') : e.address + (B.map fun a => (h a).size).sum = e'.address := by
  induction B generalizing e with
  | nil => exact congrArg Edge.address (Eq.symm hr)
  | cons a B ih =>
    rw [List.map_cons, List.sum_cons, ← Nat.add_assoc, ← hr.1.address]
    exact ih hr.2

theorem Run.fits {e e' : Edge} (hr : Run b h e B e') (hx : x ∈ B) : ∃ e, Fits b h e x := by
  induction B generalizing e with
  | nil => simp at hx
  | cons a B ih =>
    rcases List.mem_cons.mp hx with rfl | hx
    · exact ⟨e, hr.1⟩
    · exact ih hr.2 hx

theorem Run.aligned {e e' : Edge} (hr : Run b h e B e') (he : b.alignment ∣ e.address) :
    (∀ x ∈ B, b.alignment ∣ x) ∧ b.alignment ∣ e'.address := by
  induction B generalizing e with
  | nil => exact ⟨by simp, hr ▸ he⟩
  | cons a B ih =>
    have ha : b.alignment ∣ a := hr.1.address ▸ he
    obtain ⟨hB, he'⟩ := ih hr.2 (Nat.dvd_add ha hr.1.aligned)
    refine ⟨fun x hx => ?_, he'⟩
    rcases List.mem_cons.mp hx with rfl | hx
    · exact ha
    · exact hB x hx

/-! ## A block in no bin -/

/-- A block between others that is freed or taken, whatever it says of itself; the flags say whether it is known that
it has no free neighbour. -/
structure Gap (b : Board) (s : State) (L : List Nat) (a : Nat) (R : List Nat) (left right : Bool) : Prop where
  before : ∃ e, Run b s.headers .start L e ∧ a = e.address ∧ (s.headers a).previousSize = e.size ∧
    (left = true → e.free = false)
  room : b.headerSize ≤ (s.headers a).size
  aligned : b.alignment ∣ (s.headers a).size
  rest : Rest b s.headers ⟨a + (s.headers a).size, (s.headers a).size, right⟩ R
  bins : Bins b s {x | x ∈ L ++ R ∧ (s.headers x).isFree = true}

/-- A header without the size of the block before. -/
def Header.kept (h : Header) : Header := { h with previousSize := 0 }

/-- Of the used blocks other than `a` nothing is changed but what they know of the block before. -/
structure Joins (a : Nat) (s s' : State) : Prop where
  kept : ∀ x, x ≠ a → (s.headers x).isFree = false → (s'.headers x).kept = (s.headers x).kept
  isFree : ∀ x, (s'.headers x).isFree = (s.headers x).isFree
  contents : s'.contents = s.contents
  initialized : s'.initialized = s.initialized
  traceMode : s'.traceMode = s.traceMode

theorem Joins.trans (h : Joins a s s') (h' : Joins a s' s'') : Joins a s s'' where
  kept x hx hf := (h'.kept x hx ((h.isFree x).trans hf)).trans (h.kept x hx hf)
  isFree x := (h'.isFree x).trans (h.isFree x)
  contents := h'.contents.trans h.contents
  initialized := h'.initialized.trans h.initialized
  traceMode := h'.traceMode.trans h.traceMode

/-- Only the headers at these addresses differ. -/
def OnlyAt (B : List Nat) (s s' : State) : Prop := ∀ x ∉ B, s'.headers x = s.headers x

theorem OnlyAt.refl : OnlyAt B s s := fun _ _ => rfl

theorem OnlyAt.trans (h : OnlyAt B s s') (h' : OnlyAt B s' s'') : OnlyAt B s s'' :=
  fun x hx => (h' x hx).trans (h x hx)

theorem OnlyAt.mono (h : OnlyAt B s s') (hB : B ⊆ B') : OnlyAt B' s s' := fun x hx => h x fun hm => hx (hB hm)

theorem onlyAt_set {g : Header → Header} (ha : a ∈ B) : OnlyAt B s (s.set a g) :=
  fun _ hx => State.set_of_ne fun he => hx (he ▸ ha)

theorem OnlyLinks.onlyAt {F : Set Nat} (h : OnlyLinks F s s') (hF : ∀ x ∈ F, x ∈ B) : OnlyAt B s s' :=
  fun x hx => h.others x fun hm => hx (hF x hm)

theorem Gap.size_pos (h : Gap b s L a R left right) : 0 < (s.headers a).size :=
  Nat.lt_of_lt_of_le b.headerSize_pos h.room

theorem Gap.before_lt (h : Gap b s L a R left right) (hx : x ∈ L) : x < a := by
  obtain ⟨e, hr, rfl, -⟩ := h.before
  have := hr.bounds hx
  omega

theorem Gap.lt_rest (h : Gap b s L a R left right) (hx : x ∈ R) : a + (s.headers a).size ≤ x := (h.rest.bounds hx).1

theorem Gap.not_mem (h : Gap b s L a R left right) : a ∉ L ++ R := by
  intro ha
  have := h.size_pos
  rcases List.mem_append.mp ha with ha | ha
  · exact absurd (h.before_lt ha) (Nat.lt_irrefl a)
  · have := h.lt_rest ha
    omega

theorem Run.nodup {e e' : Edge} {h : Nat → Header} (hr : Run b h e B e') : B.Nodup := by
  have lt : B.Pairwise fun x y => x < y := hr.pairwise.imp_of_mem fun hx _ hle => by
    have := hr.bounds hx
    omega
  exact lt.imp Nat.ne_of_lt

theorem Gap.nodup (h : Gap b s L a R left right) : (L ++ R).Nodup := by
  obtain ⟨e, run, -⟩ := h.before
  obtain ⟨e', rest, -⟩ := h.rest
  refine List.nodup_append.mpr ⟨run.nodup, rest.nodup, ?_⟩
  rintro x hL y hR rfl
  have := h.before_lt hL
  have := h.lt_rest hR
  omega

theorem free_middle {P : Nat → Prop} (hr : r ∉ L ++ R) :
    {x | x ∈ L ++ R ∧ P x} = {x | x ∈ L ++ r :: R ∧ P x} \ {r} := by
  ext x
  simp only [Set.mem_ofPred_eq, Set.mem_sdiff, Set.mem_singleton_iff]
  constructor
  · rintro ⟨hx, hP⟩
    refine ⟨⟨?_, hP⟩, fun he => hr (he ▸ hx)⟩
    simp only [List.mem_append, List.mem_cons] at hx ⊢
    tauto
  · rintro ⟨⟨hx, hP⟩, hxr⟩
    refine ⟨?_, hP⟩
    simp only [List.mem_append, List.mem_cons] at hx ⊢
    tauto

theorem Gap.not_mem_after (h : Gap b s L a (r :: R) left right) : r ∉ L ++ R :=
  (List.nodup_cons.mp (List.nodup_middle.mp h.nodup)).1

theorem Gap.congr (h : Gap b s L a R left right) (hb : s'.bins = s.bins)
    (ha : (s'.headers a).size = (s.headers a).size ∧ (s'.headers a).previousSize = (s.headers a).previousSize)
    (hh : ∀ x ∈ L ++ R, (s'.headers x).tile = (s.headers x).tile ∧ (s'.headers x).freeNext = (s.headers x).freeNext ∧
      (s'.headers x).freePrevious = (s.headers x).freePrevious) : Gap b s' L a R left right := by
  obtain ⟨e, run, address, previousSize, free⟩ := h.before
  refine ⟨⟨e, run.congr fun x hx => (hh x (List.mem_append_left _ hx)).1, address, ha.2.trans previousSize, free⟩,
    ha.1 ▸ h.room, ha.1 ▸ h.aligned, ?_, ?_⟩
  · rw [ha.1]
    exact h.rest.congr fun x hx => (hh x (List.mem_append_right _ hx)).1
  · apply h.bins.congr
    · ext x
      simp only [Set.mem_ofPred_eq]
      constructor <;> rintro ⟨hx, hf⟩ <;> have := (tile_eq.mp (hh x hx).1).2.2
      · exact ⟨hx, this ▸ hf⟩
      · exact ⟨hx, this ▸ hf⟩
    · exact hb
    · exact fun x hx => ⟨(hh x hx.1).2.1, (hh x hx.1).2.2, (tile_eq.mp (hh x hx.1).1).1⟩

/-! ## The block after is told the size -/

theorem tellNext_headers : (s.tellNext b a).headers x =
    { s.headers x with
      previousSize := if x = a + (s.headers a).size ∧ a + (s.headers a).size < b.heapEnd then (s.headers a).size
        else (s.headers x).previousSize } := by
  simp only [State.tellNext]
  by_cases hlt : a + (s.headers a).size < b.heapEnd
  · rw [if_pos hlt, State.set_headers]
    by_cases hx : x = a + (s.headers a).size
    · simp [hx, hlt]
    · simp [hx]
  · simp [hlt]

theorem tellNext_bins : (s.tellNext b a).bins = s.bins := by
  simp only [State.tellNext]
  split <;> rfl

theorem joins_tellNext : Joins x s (s.tellNext b a) where
  kept _ _ _ := by
    rw [tellNext_headers]
    rfl
  isFree _ := by rw [tellNext_headers]
  contents := by
    simp only [State.tellNext]
    split <;> rfl
  initialized := by
    simp only [State.tellNext]
    split <;> rfl
  traceMode := by
    simp only [State.tellNext]
    split <;> rfl

theorem Gap.end_mem (h : Gap b s L a R left right) (hlt : a + (s.headers a).size < b.heapEnd) :
    a + (s.headers a).size ∈ R := by
  cases R with
  | nil =>
    obtain ⟨e', rfl, he⟩ := h.rest
    exact absurd hlt (he ▸ Nat.lt_irrefl _)
  | cons r R =>
    have address : r = a + (s.headers a).size := (rest_cons.mp h.rest).1.address
    exact address ▸ List.mem_cons_self

theorem Gap.onlyAt_tellNext (h : Gap b (s.tellNext b a) L a R left right) : OnlyAt (L ++ a :: R) s (s.tellNext b a) := by
  intro x hx
  rw [tellNext_headers, if_neg]
  rintro ⟨rfl, hlt⟩
  have size : ((s.tellNext b a).headers a).size = (s.headers a).size := by rw [tellNext_headers]
  have := h.end_mem (size ▸ hlt)
  rw [size] at this
  exact hx (by simp [this])

theorem rest_tellNext (h : Rest b s.headers ⟨a + (s.headers a).size, v, f⟩ R) :
    Rest b (s.tellNext b a).headers ⟨a + (s.headers a).size, (s.headers a).size, f⟩ R := by
  cases R with
  | nil =>
    obtain ⟨e', rfl, he⟩ := h
    exact ⟨_, rfl, he⟩
  | cons r R =>
    obtain ⟨fits, rest⟩ := rest_cons.mp h
    obtain rfl : r = a + (s.headers a).size := fits.address
    have size_pos := fits.size_pos
    have lt : a + (s.headers a).size < b.heapEnd := by
      have := h.bounds List.mem_cons_self
      omega
    apply rest_cons.mpr
    constructor
    · refine ⟨rfl, ?_, ?_, ?_, ?_⟩
      · rw [tellNext_headers]
        exact if_pos ⟨rfl, lt⟩
      · rw [tellNext_headers]
        exact fits.apart
      · rw [tellNext_headers]
        exact fits.room
      · rw [tellNext_headers]
        exact fits.aligned
    · have same : Edge.after (s.tellNext b a).headers (a + (s.headers a).size) =
          .after s.headers (a + (s.headers a).size) := by simp [Edge.after, tellNext_headers]
      rw [same]
      apply rest.congr
      intro x hx
      have := (rest.bounds hx).1
      have hne : x ≠ a + (s.headers a).size := by
        simp only [Edge.after] at this
        omega
      simp [tellNext_headers, hne]

/-- A block that is told to the one after it. -/
theorem gap_tellNext (hbefore : ∃ e, Run b s.headers .start L e ∧ a = e.address ∧
      (s.headers a).previousSize = e.size ∧ (left = true → e.free = false))
    (hroom : b.headerSize ≤ (s.headers a).size) (haligned : b.alignment ∣ (s.headers a).size)
    (hrest : Rest b s.headers ⟨a + (s.headers a).size, v, right⟩ R)
    (hbins : Bins b s {x | x ∈ L ++ R ∧ (s.headers x).isFree = true}) :
    Gap b (s.tellNext b a) L a R left right := by
  have size : ((s.tellNext b a).headers a).size = (s.headers a).size := by rw [tellNext_headers]
  have size_pos : 0 < (s.headers a).size := Nat.lt_of_lt_of_le b.headerSize_pos hroom
  obtain ⟨e, run, address, previousSize, free⟩ := hbefore
  refine ⟨⟨e, ?_, address, ?_, free⟩, size ▸ hroom, size ▸ haligned, ?_, ?_⟩
  · apply run.congr
    intro x hx
    have := run.bounds hx
    have hne : x ≠ a + (s.headers a).size := by omega
    simp [tellNext_headers, hne]
  · simp [tellNext_headers, Nat.ne_of_gt size_pos, previousSize]
  · rw [size]
    exact rest_tellNext hrest
  · apply hbins.congr
    · simp [tellNext_headers]
    · exact tellNext_bins
    · simp [tellNext_headers]

theorem Gap.tellNext (h : Gap b s L a R left right) : Gap b (s.tellNext b a) L a R left right :=
  gap_tellNext h.before h.room h.aligned h.rest h.bins

/-! ## Joining -/

theorem joins_removeFree (hbins : Bins b s {x | x ∈ B ∧ (s.headers x).isFree = true}) (hr : r ∈ B)
    (hfree : (s.headers r).isFree = true) {y z : Nat} (hy : y = a ∨ (s.headers y).isFree = true) :
    Joins a s ((s.removeFree b r).set y fun block => { block with size := block.size + z }) := by
  have links := hbins.onlyLinks_removeFree ⟨hr, hfree⟩
  refine ⟨fun x hx hf => ?_, fun x => ?_, links.contents, links.initialized, links.traceMode⟩
  · have hxy : x ≠ y := by
      rintro rfl
      rcases hy with rfl | hy
      · exact hx rfl
      · rw [hf] at hy
        cases hy
    rw [State.set_of_ne hxy, links.others x fun hm => by rw [hm.2] at hf; cases hf]
  · rw [State.set_headers]
    split
    · next he =>
      subst he
      exact links.isFree _
    · exact links.isFree _

/-- After a block that is not free follow blocks of which the first is free or not. -/
theorem Gap.of_not_free (h : Gap b s L a R left right) (hR : ∀ x ∈ R.head?, (s.headers x).isFree = false) :
    Gap b s L a R left true := by
  refine ⟨h.before, h.room, h.aligned, ?_, h.bins⟩
  cases R with
  | nil =>
    obtain ⟨e', rfl, he⟩ := h.rest
    exact ⟨_, rfl, he⟩
  | cons r R =>
    obtain ⟨fits, rest⟩ := rest_cons.mp h.rest
    exact rest_cons.mpr ⟨⟨fits.address, fits.previousSize, fun _ => hR r rfl, fits.room, fits.aligned⟩, rest⟩

/-- The free block after is taken in. -/
theorem Gap.takeNext (h : Gap b s L a (r :: R) left false) (hfree : (s.headers r).isFree = true) :
    let s₁ := (s.removeFree b r).set a fun block => { block with size := block.size + ((s.removeFree b r).headers r).size }
    Gap b (s₁.tellNext b a) L a R left true ∧ Joins a s s₁ ∧ OnlyAt (L ++ a :: r :: R) s s₁ := by
  intro s₁
  have hr : r ∈ L ++ r :: R := by simp
  have links := h.bins.onlyLinks_removeFree (a := r) ⟨hr, hfree⟩
  have bins := h.bins.removeFree (a := r) ⟨hr, hfree⟩
  obtain ⟨fits, rest⟩ := rest_cons.mp h.rest
  have address : r = a + (s.headers a).size := fits.address
  have hne : ∀ x ∈ L ++ r :: R, x ≠ a := fun x hx he => h.not_mem (he ▸ hx)
  have size : (s₁.headers a).size = (s.headers a).size + (s.headers r).size := by
    simp [s₁, links.size]
  have tile : ∀ x, x ≠ a → (s₁.headers x).tile = (s.headers x).tile := fun x hx => by
    rw [State.set_of_ne hx]
    exact tile_eq.mpr ⟨links.size x, links.previousSize x, links.isFree x⟩
  have joins : Joins a s s₁ := joins_removeFree h.bins hr hfree (.inl rfl)
  have only : OnlyAt (L ++ a :: r :: R) s s₁ := by
    apply (links.onlyAt ?_).trans (onlyAt_set (by simp))
    rintro x ⟨hx, -⟩
    simp only [List.mem_append, List.mem_cons] at hx ⊢
    tauto
  refine ⟨gap_tellNext (v := (s.headers r).size) ?_ ?_ ?_ ?_ ?_, joins, only⟩
  · obtain ⟨e, run, before, previousSize, free⟩ := h.before
    refine ⟨e, run.congr fun x hx => tile x (hne x (List.mem_append_left _ hx)), before, ?_, free⟩
    simpa [s₁, links.previousSize] using previousSize
  · rw [size]
    exact Nat.le_add_right_of_le h.room
  · rw [size]
    exact Nat.dvd_add h.aligned fits.aligned
  · have edge : Edge.after s.headers r = ⟨a + (s₁.headers a).size, (s.headers r).size, true⟩ := by
      rw [Edge.after, size, hfree, ← Nat.add_assoc, ← address]
    rw [← edge]
    exact rest.congr fun x hx => tile x (hne x (List.mem_append_right _ (List.mem_cons_of_mem r hx)))
  · apply bins.congr
    · simp only [joins.isFree]
      exact free_middle h.not_mem_after
    · rfl
    · rintro x ⟨⟨hx, -⟩, -⟩
      rw [State.set_of_ne (hne x hx)]
      simp

/-- The free block before takes it in. -/
theorem Gap.giveUp (h : Gap b s (L ++ [p]) a R left true) (hfree : (s.headers p).isFree = true) :
    let s₁ := (s.removeFree b p).set p fun block => { block with size := block.size + ((s.removeFree b p).headers a).size }
    Gap b (s₁.tellNext b p) L p R true true ∧ Joins a s s₁ ∧ OnlyAt (L ++ [p] ++ a :: R) s s₁ := by
  intro s₁
  have hp : p ∈ (L ++ [p]) ++ R := by simp
  have links := h.bins.onlyLinks_removeFree (a := p) ⟨hp, hfree⟩
  have bins := h.bins.removeFree (a := p) ⟨hp, hfree⟩
  have joins : Joins a s s₁ := joins_removeFree h.bins hp hfree (.inr hfree)
  have only : OnlyAt (L ++ [p] ++ a :: R) s s₁ := by
    apply (links.onlyAt ?_).trans (onlyAt_set (by simp))
    rintro x ⟨hx, -⟩
    simp only [List.mem_append, List.mem_cons] at hx ⊢
    tauto
  have hout : p ∉ L ++ R := by
    have := h.nodup
    rw [List.append_assoc] at this
    exact (List.nodup_cons.mp (List.nodup_middle.mp this)).1
  obtain ⟨e, run, address, previousSize, -⟩ := h.before
  obtain ⟨e', before, fits, rfl⟩ := run_append.mp run
  have address : a = p + (s.headers p).size := address
  have hne : ∀ x ∈ L ++ R, x ≠ p := fun x hx he => hout (he ▸ hx)
  have size : (s₁.headers p).size = (s.headers p).size + (s.headers a).size := by
    simp [s₁, links.size]
  have tile : ∀ x, x ≠ p → (s₁.headers x).tile = (s.headers x).tile := fun x hx => by
    rw [State.set_of_ne hx]
    exact tile_eq.mpr ⟨links.size x, links.previousSize x, links.isFree x⟩
  refine ⟨gap_tellNext (v := (s.headers a).size) ?_ ?_ ?_ ?_ ?_, joins, only⟩
  · refine ⟨e', before.congr fun x hx => tile x (hne x (List.mem_append_left _ hx)), fits.address, ?_, fun _ => ?_⟩
    · simpa [s₁, links.previousSize] using fits.previousSize
    · by_contra he
      rw [fits.apart (Bool.of_not_eq_false he)] at hfree
      cases hfree
  · rw [size]
    exact Nat.le_add_right_of_le fits.room
  · rw [size]
    exact Nat.dvd_add fits.aligned h.aligned
  · rw [size, ← Nat.add_assoc, ← address]
    exact h.rest.congr fun x hx => tile x (hne x (List.mem_append_right _ hx))
  · apply bins.congr
    · simp only [joins.isFree, List.append_assoc]
      exact free_middle hout
    · rfl
    · rintro x ⟨⟨hx, -⟩, hxp⟩
      rw [State.set_of_ne hxp]
      simp

theorem Gap.joinNext (h : Gap b s L a R left false) : ∃ R', R' <:+ R ∧
    (∀ x ∈ R, (s.headers x).isFree = false → x ∈ R') ∧
    Gap b ((s.joinNext b a).tellNext b a) L a R' left true ∧ Joins a s ((s.joinNext b a).tellNext b a) ∧
    OnlyAt (L ++ a :: R) s ((s.joinNext b a).tellNext b a) := by
  cases R with
  | nil =>
    have hnot : ¬ a + (s.headers a).size < b.heapEnd := by
      obtain ⟨e', rfl, he⟩ := h.rest
      exact he ▸ Nat.lt_irrefl _
    have hs : s.joinNext b a = s := by simp [State.joinNext, hnot]
    rw [hs]
    have gap := (h.of_not_free (by simp)).tellNext
    exact ⟨[], List.suffix_rfl, fun _ hx _ => hx, gap, joins_tellNext, gap.onlyAt_tellNext⟩
  | cons r R =>
    obtain ⟨fits, rest⟩ := rest_cons.mp h.rest
    have address : r = a + (s.headers a).size := fits.address
    have hlt : r < b.heapEnd := by
      have := h.rest.bounds List.mem_cons_self
      omega
    cases hfree : (s.headers r).isFree with
    | false =>
      have hs : s.joinNext b a = s := by simp [State.joinNext, ← address, hfree]
      rw [hs]
      have gap : Gap b (s.tellNext b a) L a (r :: R) left true := by
        apply Gap.tellNext
        apply h.of_not_free
        intro x hx
        obtain rfl : r = x := by simpa using hx
        exact hfree
      exact ⟨r :: R, List.suffix_rfl, fun _ hx _ => hx, gap, joins_tellNext, gap.onlyAt_tellNext⟩
    | true =>
      have hs : s.joinNext b a = (s.removeFree b r).set a fun block =>
          { block with size := block.size + ((s.removeFree b r).headers r).size } := by
        simp [State.joinNext, ← address, hfree, hlt]
      obtain ⟨gap, joins, only⟩ := h.takeNext hfree
      have told : L ++ a :: R ⊆ L ++ a :: r :: R := by
        intro x hx
        simp only [List.mem_append, List.mem_cons] at hx ⊢
        tauto
      rw [hs]
      refine ⟨R, List.suffix_cons r R, fun x hx hf => ?_, gap, joins.trans joins_tellNext,
        only.trans (gap.onlyAt_tellNext.mono told)⟩
      rcases List.mem_cons.mp hx with rfl | hx
      · rw [hfree] at hf
        cases hf
      · exact hx

theorem Gap.joinPrevious (h : Gap b s L a R false true) : ∃ L', L' <+: L ∧
    (∀ x ∈ L, (s.headers x).isFree = false → x ∈ L') ∧
    Gap b ((s.joinPrevious b a).1.tellNext b (s.joinPrevious b a).2) L' (s.joinPrevious b a).2 R true true ∧
    Joins a s ((s.joinPrevious b a).1.tellNext b (s.joinPrevious b a).2) ∧
    (s.joinPrevious b a).2 ∈ L ++ [a] ∧
    OnlyAt (L ++ a :: R) s ((s.joinPrevious b a).1.tellNext b (s.joinPrevious b a).2) := by
  obtain ⟨e, run, address, previousSize, -⟩ := h.before
  rcases List.eq_nil_or_concat L with rfl | ⟨L, p, rfl⟩
  · have hs : s.joinPrevious b a = (s, a) := by
      have : (s.headers a).previousSize = 0 := previousSize.trans (congrArg Edge.size run)
      simp [State.joinPrevious, this]
    rw [hs]
    have gap : Gap b (s.tellNext b a) [] a R true true :=
      Gap.tellNext ⟨⟨e, run, address, previousSize, fun _ => congrArg Edge.free run⟩, h.room, h.aligned, h.rest, h.bins⟩
    exact ⟨[], List.prefix_rfl, fun _ hx _ => hx, gap, joins_tellNext, List.mem_cons_self, gap.onlyAt_tellNext⟩
  · rw [List.concat_eq_append] at h run ⊢
    obtain ⟨e', before, fits, rfl⟩ := run_append.mp run
    have address : a = p + (s.headers p).size := address
    have previousSize : (s.headers a).previousSize = (s.headers p).size := previousSize
    have hp : a - (s.headers p).size = p := by omega
    have hpos : (s.headers p).size ≠ 0 := Nat.ne_of_gt fits.size_pos
    cases hfree : (s.headers p).isFree with
    | false =>
      have hs : s.joinPrevious b a = (s, a) := by simp [State.joinPrevious, previousSize, hp, hfree]
      rw [hs]
      have gap : Gap b (s.tellNext b a) (L ++ [p]) a R true true :=
        Gap.tellNext ⟨⟨_, run, address, previousSize, fun _ => hfree⟩, h.room, h.aligned, h.rest, h.bins⟩
      exact ⟨L ++ [p], List.prefix_rfl, fun _ hx _ => hx, gap, joins_tellNext, by simp, gap.onlyAt_tellNext⟩
    | true =>
      have hs : s.joinPrevious b a = ((s.removeFree b p).set p fun block =>
          { block with size := block.size + ((s.removeFree b p).headers a).size }, p) := by
        simp [State.joinPrevious, previousSize, hp, hfree, hpos]
      obtain ⟨gap, joins, only⟩ := h.giveUp hfree
      have told : L ++ p :: R ⊆ L ++ [p] ++ a :: R := by
        intro x hx
        simp only [List.mem_append, List.mem_cons] at hx ⊢
        tauto
      rw [hs]
      refine ⟨L, List.prefix_append L [p], fun x hx hf => ?_, gap, joins.trans joins_tellNext, by simp,
        only.trans (gap.onlyAt_tellNext.mono told)⟩
      rcases List.mem_append.mp hx with hx | hx
      · exact hx
      · obtain rfl : x = p := by simpa using hx
        rw [hfree] at hf
        cases hf

end Emela.Heap
