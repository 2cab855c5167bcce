import Emela.Heap.Lemmas.Blocks
import Mathlib.Data.List.Perm.Subperm

/-!
# Allocation
-/

namespace Emela.Heap

open DoublyLinked

variable {b : Board} {s s' : State} {B B' L R : List Nat} {a x total payloadSize kind value : Nat}

/-! ## Sizes -/

theorem Board.heapEnd_dvd : b.alignment ∣ b.heapEnd := Nat.dvd_sub_mod b.capacity

theorem Board.totalSize_dvd : b.alignment ∣ b.totalSize payloadSize := by
  simp only [Board.totalSize]
  split
  · have := Nat.mod_lt (b.headerSize + payloadSize) b.alignment_pos
    have hsplit := Nat.div_add_mod (b.headerSize + payloadSize) b.alignment
    refine ⟨(b.headerSize + payloadSize) / b.alignment + 1, ?_⟩
    rw [Nat.mul_add]
    omega
  · next h => exact Nat.dvd_of_mod_eq_zero (not_not.mp h)

theorem Board.le_totalSize : b.headerSize + payloadSize ≤ b.totalSize payloadSize := by
  simp only [Board.totalSize]
  split
  · exact Nat.le_add_right ..
  · exact Nat.le_refl _

/-! ## Searching -/

theorem fitIn_eq {l : List Nat} {head : Option Nat} {n : Nat}
    (h : Linked (fun a => (s.headers a).freeNext) (fun a => (s.headers a).freePrevious) head l) (hn : l.length ≤ n) :
    s.fitIn total n head = .ok (l.find? fun a => total ≤ (s.headers a).size) := by
  have suffix : ∀ l₂ l₁ n, l = l₁ ++ l₂ → l₂.length ≤ n →
      s.fitIn total n l₂.head? = .ok (l₂.find? fun a => total ≤ (s.headers a).size) := by
    intro l₂
    induction l₂ with
    | nil =>
      intro l₁ n _ _
      cases n <;> rfl
    | cons a l₂ ih =>
      intro l₁ n hl hn
      obtain ⟨n, rfl⟩ := Nat.exists_eq_add_one.mpr (Nat.lt_of_lt_of_le (by simp) hn)
      rw [List.head?_cons, State.fitIn, List.find?_cons]
      by_cases hfit : total ≤ (s.headers a).size
      · simp [hfit]
      · have next : (s.headers a).freeNext = l₂.head? := (h.around l₁ a l₂ hl).1
        rw [if_neg hfit, next, ih (l₁ ++ [a]) n (by simp [hl]) (by simpa using hn)]
        simp [hfit]
  rw [h.head]
  exact suffix l [] n rfl hn

/-- The free blocks of a bin, in an order. -/
theorem Layout.bin (h : Layout b s B) (i total : Nat) : ∃ l : List Nat,
    (∀ a, a ∈ l ↔ (a ∈ B ∧ (s.headers a).isFree = true) ∧ b.bin (s.headers a).size = i) ∧
    s.fitIn total (b.heapEnd + 1) (s.bins i) = .ok (l.find? fun a => total ≤ (s.headers a).size) := by
  obtain ⟨l, linked, mem⟩ := h.bins i
  refine ⟨l, mem, fitIn_eq linked ?_⟩
  have sub : l.Subperm B := linked.nodup.subperm fun a ha => ((mem a).mp ha).1.1
  exact Nat.le_succ_of_le (Nat.le_trans sub.length_le h.length_le)

/-- The search ends: with a free block that is large enough, or when there is none in the bins. -/
theorem Layout.fitFrom (h : Layout b s B) (total : Nat) (indices : List Nat) : ∃ found,
    s.fitFrom b total indices = .ok found ∧
    (∀ a ∈ found, a ∈ B ∧ (s.headers a).isFree = true ∧ total ≤ (s.headers a).size) ∧
    (found = none → ∀ i ∈ indices, ∀ a ∈ B, (s.headers a).isFree = true → b.bin (s.headers a).size = i →
      (s.headers a).size < total) := by
  induction indices with
  | nil => exact ⟨none, rfl, by simp, by simp⟩
  | cons i indices ih =>
    obtain ⟨l, mem, hfit⟩ := h.bin i total
    obtain ⟨found, hfound, some, none⟩ := ih
    simp only [State.fitFrom, hfit, bind, Except.bind]
    cases hfind : l.find? fun a => total ≤ (s.headers a).size with
    | some a =>
      refine ⟨_, rfl, fun x hx => ?_, by simp⟩
      obtain rfl : a = x := by simpa using hx
      obtain ⟨⟨ha, hf⟩, -⟩ := (mem a).mp (List.mem_of_find?_eq_some hfind)
      exact ⟨ha, hf, by simpa using List.find?_some hfind⟩
    | none =>
      refine ⟨found, hfound, some, fun hnone j hj a ha hf hbin => ?_⟩
      rcases List.mem_cons.mp hj with rfl | hj
      · have := List.find?_eq_none.mp hfind a ((mem a).mpr ⟨⟨ha, hf⟩, hbin⟩)
        simpa using this
      · exact none hnone j hj a ha hf hbin

/-- If none is found there is none: a larger block is in no smaller bin. -/
theorem Layout.findFit (h : Layout b s B) (total : Nat) : ∃ found, s.findFit b total = .ok found ∧
    (∀ a ∈ found, a ∈ B ∧ (s.headers a).isFree = true ∧ total ≤ (s.headers a).size) ∧
    (found = none → ∀ a ∈ B, (s.headers a).isFree = true → (s.headers a).size < total) := by
  obtain ⟨found, hfound, some, none⟩ := h.fitFrom total
    (List.range' (b.bin total) (binCount - b.bin total))
  refine ⟨found, hfound, some, fun hnone a ha hf => ?_⟩
  by_contra hfit
  rw [Nat.not_lt] at hfit
  have hbin : b.bin (s.headers a).size ∈ List.range' (b.bin total) (binCount - b.bin total) := by
    have := b.bin_lt (s.headers a).size
    have := b.bin_mono hfit
    rw [List.mem_range'_1]
    omega
  exact absurd (none hnone _ hbin a ha hf rfl) (Nat.not_lt.mpr hfit)

/-! ## The first block -/

theorem Layout.eq_nil (h : Layout b s B) (hs : s.initialized = false) : B = [] := by
  have := h.blocks
  rwa [if_neg (by simp [hs])] at this

theorem Layout.heapInitialize (h : Layout b s B)
    (hroom : s.initialized = true ∨ b.headerSize + b.alignment ≤ b.heapEnd) : ∃ B', Layout b (s.heapInitialize b) B' ∧
      (s.heapInitialize b).contents = s.contents ∧ (s.heapInitialize b).traceMode = s.traceMode ∧
      (∀ x, x ∈ B' ∧ ((s.heapInitialize b).headers x).isFree = false ↔ x ∈ B ∧ (s.headers x).isFree = false) ∧
      (∀ x ∈ B, (s.heapInitialize b).headers x = s.headers x) ∧ OnlyAt B' s (s.heapInitialize b) := by
  cases hs : s.initialized with
  | true =>
    have same : s.heapInitialize b = s := if_pos hs
    rw [same]
    exact ⟨B, h, rfl, rfl, fun _ => Iff.rfl, fun _ _ => rfl, .refl⟩
  | false =>
    have hroom : b.headerSize + b.alignment ≤ b.heapEnd := hroom.resolve_left (by simp [hs])
    obtain rfl := h.eq_nil hs
    generalize ht : (({ s with initialized := true } : State).set 0 fun block => { block with
      size := b.heapEnd, previousSize := 0, references := 0, kind := 0, freePrevious := none, freeNext := none }) = t
    have made : s.heapInitialize b = t.addFree b 0 := by
      rw [State.heapInitialize, if_neg (by simp [hs])]
      dsimp only
      rw [if_neg (Nat.not_lt.mpr hroom), ht]
    have size : (t.headers 0).size = b.heapEnd := by rw [← ht, State.set_self]
    have gap : Gap b t [] 0 [] true true := by
      refine ⟨⟨.start, rfl, rfl, ?_, fun _ => rfl⟩, ?_, ?_, ⟨_, rfl, ?_⟩, ?_⟩
      · rw [← ht, State.set_self]
        rfl
      · rw [size]
        exact Nat.le_of_add_right_le hroom
      · rw [size]
        exact b.heapEnd_dvd
      · simp [size]
      · apply h.bins.congr
        · simp
        · rw [← ht]
          rfl
        · simp
    have free : ((t.addFree b 0).headers 0).isFree = true := by
      simp [addFree_headers]
    rw [made]
    refine ⟨[0], gap.addFree (by rw [← ht]; rfl), ?_, ?_, fun x => ?_, by simp, ?_⟩
    · rw [addFree_contents, ← ht]
      rfl
    · rw [addFree_traceMode, ← ht]
      rfl
    · constructor
      · rintro ⟨hx, hf⟩
        obtain rfl : x = 0 := by simpa using hx
        rw [free] at hf
        cases hf
      · rintro ⟨hx, -⟩
        simp at hx
    · have links := gap.bins.onlyLinks_addFree (a := 0)
      refine OnlyAt.trans (?_ : OnlyAt _ _ (t.set 0 fun block => { block with isFree := true })) ?_
      · rw [← ht]
        exact (onlyAt_set (s := { s with initialized := true }) List.mem_cons_self).trans (onlyAt_set List.mem_cons_self)
      · apply links.onlyAt
        rintro x (rfl | ⟨hx, -⟩)
        · exact List.mem_cons_self
        · simp at hx

/-- Without room for a block nothing is ever found. -/
theorem Layout.findFit_eq_none (h : Layout b s B) (hs : s.initialized = false)
    (hroom : b.heapEnd < b.headerSize + b.alignment) : (s.heapInitialize b).findFit b total = .ok none := by
  have hbins : ∀ i, s.bins i = none := fun i => by
    obtain ⟨l, linked, mem⟩ := h.bins i
    have hl : l = [] := List.eq_nil_iff_forall_not_mem.mpr fun a ha => by
      have := ((mem a).mp ha).1.1
      rw [h.eq_nil hs] at this
      simp at this
    rw [linked.head, hl, List.head?_nil]
  have made : s.heapInitialize b = { s with initialized := true } := by
    rw [State.heapInitialize, if_neg (by simp [hs])]
    exact if_pos hroom
  rw [made, State.findFit]
  generalize List.range' (b.bin total) (binCount - b.bin total) = indices
  induction indices with
  | nil => rfl
  | cons i indices ih =>
    rw [State.fitFrom]
    change (State.fitIn _ _ _ (s.bins i) >>= _) = _
    rw [hbins i]
    exact ih

/-- A block `a` is used that was not, and the used blocks are as before. -/
structure Allocates (b : Board) (s s' : State) (B B' : List Nat) (a payloadSize kind : Nat) : Prop where
  layout : Layout b s' B'
  mem : a ∈ B'
  taken : (s'.headers a).isFree = false
  references : (s'.headers a).references = 1
  kind : (s'.headers a).kind = kind
  room : b.headerSize + payloadSize ≤ (s'.headers a).size
  fresh : ¬ (a ∈ B ∧ (s.headers a).isFree = false)
  used : ∀ x, x ≠ a → (x ∈ B' ∧ (s'.headers x).isFree = false ↔ x ∈ B ∧ (s.headers x).isFree = false)
  kept : ∀ x ∈ B, (s.headers x).isFree = false → (s'.headers x).kept = (s.headers x).kept
  only : OnlyAt B' s s'
  contents : s'.contents = s.contents
  traceMode : s'.traceMode = s.traceMode

theorem Layout.allocate (h : Layout b s B) (payloadSize kind : Nat) :
    (∃ s' a B', s.allocate b payloadSize kind = .ok (s', a + b.headerSize) ∧ Allocates b s s' B B' a payloadSize kind ∧
      ¬ b.sizeMax - b.headerSize - b.alignment < payloadSize ∧
      ∃ B', Layout b (s.heapInitialize b) B' ∧ a ∈ B' ∧ ((s.heapInitialize b).headers a).isFree = true ∧
        b.totalSize payloadSize ≤ ((s.heapInitialize b).headers a).size) ∨
    s.allocate b payloadSize kind = .error exhausted ∧ (b.sizeMax - b.headerSize - b.alignment < payloadSize ∨
      (s.initialized = false ∧ b.heapEnd < b.headerSize + b.alignment) ∨
      ∃ B', Layout b (s.heapInitialize b) B' ∧ ∀ a ∈ B', ((s.heapInitialize b).headers a).isFree = true →
        ((s.heapInitialize b).headers a).size < b.totalSize payloadSize) := by
  simp only [State.allocate]
  by_cases hsize : b.sizeMax - b.headerSize - b.alignment < payloadSize
  · rw [if_pos hsize]
    exact .inr ⟨rfl, .inl hsize⟩
  rw [if_neg hsize]
  by_cases hroom : s.initialized = true ∨ b.headerSize + b.alignment ≤ b.heapEnd
  · obtain ⟨B₁, layout, contents, traceMode, used, same, only⟩ := h.heapInitialize hroom
    obtain ⟨found, hfound, some, none⟩ := layout.findFit (b.totalSize payloadSize)
    simp only [hfound, bind, Except.bind]
    cases found with
    | none => exact .inr ⟨rfl, .inr (.inr ⟨B₁, layout, none rfl⟩)⟩
    | some a =>
      obtain ⟨ha, hf, hfit⟩ := some a rfl
      obtain ⟨L, R, rfl⟩ := List.append_of_mem ha
      obtain ⟨M, layout', takes⟩ := layout.take hf hfit (Nat.le_of_add_right_le b.le_totalSize) b.totalSize_dvd kind
      have mid : ∀ x, x ∈ L ++ a :: R ↔ x = a ∨ x ∈ L ++ R := by
        simp only [List.mem_append, List.mem_cons]
        tauto
      refine .inl ⟨_, a, L ++ a :: (M ++ R), rfl, ⟨layout', by simp, takes.taken, takes.references, takes.kind,
        Nat.le_trans b.le_totalSize takes.room, fun hx => ?_, fun x hx => ?_, fun x hx hfx => ?_, ?_,
        takes.contents.trans contents, takes.traceMode.trans traceMode⟩, hsize, _, layout, ha, hf, hfit⟩
      · rw [((used a).mpr hx).2] at hf
        cases hf
      · rw [← used x, mid x]
        constructor
        · rintro ⟨hm, hfx⟩
          have hm : x ∈ L ++ R := by
            have : x ∉ M := fun hM => absurd ((takes.split x hM).symm.trans hfx) (by simp)
            simp only [List.mem_append, List.mem_cons] at hm ⊢
            tauto
          exact ⟨.inr hm, (takes.isFree x hm).symm.trans hfx⟩
        · rintro ⟨hm, hfx⟩
          have hm := hm.resolve_left hx
          refine ⟨?_, (takes.isFree x hm).trans hfx⟩
          simp only [List.mem_append, List.mem_cons] at hm ⊢
          tauto
      · obtain ⟨hm, hfx'⟩ := (used x).mpr ⟨hx, hfx⟩
        have hxa : x ≠ a := fun he => absurd (hf.symm.trans (he ▸ hfx')) (by simp)
        rw [takes.kept x (((mid x).mp hm).resolve_left hxa) hfx', same x hx]
      · apply (only.mono ?_).trans takes.only
        intro x hx
        simp only [List.mem_append, List.mem_cons] at hx ⊢
        tauto
  · obtain ⟨hs, hroom⟩ := not_or.mp hroom
    have hs := Bool.of_not_eq_true hs
    rw [h.findFit_eq_none hs (Nat.not_le.mp hroom)]
    exact .inr ⟨rfl, .inr (.inl ⟨hs, Nat.not_le.mp hroom⟩)⟩

end Emela.Heap
