import Emela.Heap.State
import Emela.Lib.DoublyLinked
import Mathlib.Data.Set.Insert

/-!
# Bins
-/

namespace Emela.Heap

open DoublyLinked

variable {b : Board} {s s' : State} {F F' : Set Nat} {a x : Nat}

/-! ## The bin of a size -/

theorem Board.binFrom_mono {size size' : Nat} (h : size ≤ size') (n index bound : Nat) :
    b.binFrom size n index bound ≤ b.binFrom size' n index bound := by
  have le : ∀ n index bound, index ≤ b.binFrom size' n index bound := by
    intro n
    induction n with
    | zero => exact fun _ _ => Nat.le_refl _
    | succ n ih =>
      intro index bound
      rw [Board.binFrom]
      split
      · exact Nat.le_trans (Nat.le_succ index) (ih ..)
      · exact Nat.le_refl _
  induction n generalizing index bound with
  | zero => exact Nat.le_refl _
  | succ n ih =>
    by_cases hn : bound < size ∧ index + 1 < binCount ∧ bound ≤ b.sizeMax / 2
    · rw [Board.binFrom, Board.binFrom, if_pos hn, if_pos ⟨Nat.lt_of_lt_of_le hn.1 h, hn.2⟩]
      exact ih ..
    · rw [Board.binFrom, if_neg hn]
      exact le (n + 1) index bound

theorem Board.bin_mono {size size' : Nat} (h : size ≤ size') : b.bin size ≤ b.bin size' := binFrom_mono h ..

theorem Board.bin_lt (size : Nat) : b.bin size < binCount := by
  have lt : ∀ n index bound, index < binCount → b.binFrom size n index bound < binCount := by
    intro n
    induction n with
    | zero => exact fun _ _ h => h
    | succ n ih =>
      intro index bound h
      rw [Board.binFrom]
      split
      · next hn => exact ih _ _ hn.2.1
      · exact h
  exact lt _ _ _ (by decide)

/-! ## The lists -/

/-- Each block of a set is in the list of the bin of its size, once, and nothing else is. -/
def Bins (b : Board) (s : State) (F : Set Nat) : Prop :=
  ∀ i, ∃ l, Linked (fun a => (s.headers a).freeNext) (fun a => (s.headers a).freePrevious) (s.bins i) l ∧
    ∀ a, a ∈ l ↔ a ∈ F ∧ b.bin (s.headers a).size = i

/-- A header without its links. -/
def Header.unlinked (h : Header) : Header := { h with freeNext := none, freePrevious := none }

/-- Only the bins and the links of the blocks of a set differ. -/
structure OnlyLinks (F : Set Nat) (s s' : State) : Prop where
  unlinked : ∀ x, (s'.headers x).unlinked = (s.headers x).unlinked
  others : ∀ x ∉ F, s'.headers x = s.headers x
  contents : s'.contents = s.contents
  initialized : s'.initialized = s.initialized
  traceMode : s'.traceMode = s.traceMode

theorem OnlyLinks.size (h : OnlyLinks F s s') (x : Nat) : (s'.headers x).size = (s.headers x).size :=
  (congrArg Header.size (h.unlinked x) :)

theorem OnlyLinks.previousSize (h : OnlyLinks F s s') (x : Nat) :
    (s'.headers x).previousSize = (s.headers x).previousSize := (congrArg Header.previousSize (h.unlinked x) :)

theorem OnlyLinks.isFree (h : OnlyLinks F s s') (x : Nat) : (s'.headers x).isFree = (s.headers x).isFree :=
  (congrArg Header.isFree (h.unlinked x) :)

theorem Bins.congr (h : Bins b s F) (hF : F' = F) (hb : s'.bins = s.bins)
    (hh : ∀ x ∈ F, (s'.headers x).freeNext = (s.headers x).freeNext ∧
      (s'.headers x).freePrevious = (s.headers x).freePrevious ∧ (s'.headers x).size = (s.headers x).size) :
    Bins b s' F' := by
  subst hF
  intro i
  obtain ⟨l, linked, mem⟩ := h i
  refine ⟨l, ?_, fun a => ?_⟩
  · rw [hb]
    exact linked.congr (fun a ha => (hh a ((mem a).mp ha).1).1) fun a ha => (hh a ((mem a).mp ha).1).2.1
  · rw [mem a]
    constructor <;> rintro ⟨ha, hi⟩
    · exact ⟨ha, (hh a ha).2.2 ▸ hi⟩
    · exact ⟨ha, (hh a ha).2.2 ▸ hi⟩

/-! ## Putting a block in -/

theorem addFree_headers : (s.addFree b a).headers x =
    { s.headers x with
      isFree := if x = a then true else (s.headers x).isFree
      freeNext := if x = a then s.bins (b.bin (s.headers a).size) else (s.headers x).freeNext
      freePrevious := if s.bins (b.bin (s.headers a).size) = some x then some a else if x = a then none
        else (s.headers x).freePrevious } := by
  simp only [State.addFree, State.setBin_headers, State.setSome_headers, State.set_headers]
  split <;> by_cases hx : x = a <;> simp [hx]

theorem addFree_bins : (s.addFree b a).bins = Function.update s.bins (b.bin (s.headers a).size) (some a) := by
  simp [State.addFree, State.setBin]

theorem Bins.not_mem (h : Bins b s F) (ha : a ∉ F) (i : Nat) : s.bins i ≠ some a := by
  obtain ⟨l, linked, mem⟩ := h i
  intro hi
  exact ha ((mem a).mp (List.mem_of_mem_head? (linked.head.symm.trans hi))).1

theorem Bins.addFree (h : Bins b s F) (ha : a ∉ F) : Bins b (s.addFree b a) (insert a F) := by
  intro i
  obtain ⟨l, linked, mem⟩ := h i
  by_cases hi : b.bin (s.headers a).size = i
  · subst hi
    have hal : a ∉ l := fun hm => ha ((mem a).mp hm).1
    refine ⟨a :: l, ?_, fun x => ?_⟩
    · rw [addFree_bins, Function.update_self]
      apply linked.push hal
      · simp [addFree_headers]
      · simp [addFree_headers, h.not_mem ha]
      · intro x hx
        have hxa : x ≠ a := fun he => hal (he ▸ hx)
        simp [addFree_headers, hxa]
      · intro x hx
        have hxa : x ≠ a := fun he => hal (he ▸ hx)
        simp [addFree_headers, hxa]
    · rw [addFree_headers, List.mem_cons, mem, Set.mem_insert_iff]
      by_cases hx : x = a
      · simp [hx]
      · simp [hx]
  · refine ⟨l, ?_, fun x => ?_⟩
    · rw [addFree_bins, Function.update_of_ne (Ne.symm hi)]
      apply linked.congr
      · intro x hx
        have hxa : x ≠ a := fun he => ha (he ▸ ((mem x).mp hx).1)
        simp [addFree_headers, hxa]
      · intro x hx
        have hxa : x ≠ a := fun he => ha (he ▸ ((mem x).mp hx).1)
        have hb : s.bins (b.bin (s.headers a).size) ≠ some x := by
          intro hb
          obtain ⟨l', linked', mem'⟩ := h (b.bin (s.headers a).size)
          have hx' := ((mem' x).mp (List.mem_of_mem_head? (linked'.head.symm.trans hb))).2
          exact hi (hx'.symm.trans ((mem x).mp hx).2)
        simp [addFree_headers, hxa, hb]
    · rw [addFree_headers, mem, Set.mem_insert_iff]
      by_cases hx : x = a
      · subst hx
        simp [ha, hi]
      · simp [hx]

theorem Bins.onlyLinks_addFree (h : Bins b s F) :
    OnlyLinks (insert a F) (s.set a fun block => { block with isFree := true }) (s.addFree b a) where
  unlinked x := by
    rw [addFree_headers, State.set_headers]
    by_cases hx : x = a
    · simp [hx, Header.unlinked]
    · simp [hx, Header.unlinked]
  others x hx := by
    have hxa : x ≠ a := fun he => hx (he ▸ Set.mem_insert a F)
    have hb := h.not_mem (fun hm => hx (Set.mem_insert_of_mem a hm)) (b.bin (s.headers a).size)
    simp [addFree_headers, State.set_headers, hxa, hb]
  contents := by simp [State.addFree]
  initialized := by simp [State.addFree]
  traceMode := by simp [State.addFree]

/-! ## Taking a block out -/

theorem removeFree_headers : (s.removeFree b a).headers x =
    { s.headers x with
      freeNext := if x = a then none else if (s.headers a).freePrevious = some x then (s.headers a).freeNext
        else (s.headers x).freeNext
      freePrevious := if x = a then none else if (s.headers a).freeNext = some x then (s.headers a).freePrevious
        else (s.headers x).freePrevious } := by
  have first : (if (s.headers a).freePrevious = none
      then s.setBin (b.bin (s.headers a).size) (s.headers a).freeNext
      else s.setSome (s.headers a).freePrevious fun block => { block with freeNext := (s.headers a).freeNext }).headers x =
      { s.headers x with
        freeNext := if (s.headers a).freePrevious = some x then (s.headers a).freeNext else (s.headers x).freeNext } := by
    split
    · simp [*]
    · rw [State.setSome_headers]
      split <;> rfl
  simp only [State.removeFree]
  by_cases hx : x = a
  · subst hx
    rw [State.set_self, State.setSome_headers, first, if_pos rfl, if_pos rfl]
    split <;> rfl
  · rw [State.set_of_ne hx, State.setSome_headers, first, if_neg hx, if_neg hx]
    split <;> rfl

theorem removeFree_bins : (s.removeFree b a).bins =
    if (s.headers a).freePrevious = none then Function.update s.bins (b.bin (s.headers a).size) (s.headers a).freeNext
    else s.bins := by
  simp only [State.removeFree, State.set_bins, State.setSome_bins, apply_ite State.bins]
  rfl

/-- The neighbours of a block in its list. -/
theorem Bins.around (h : Bins b s F) (ha : a ∈ F) : ∃ l₁ l₂, (∀ x, x ∈ l₁ ++ a :: l₂ ↔
    x ∈ F ∧ b.bin (s.headers x).size = b.bin (s.headers a).size) ∧
    Linked (fun a => (s.headers a).freeNext) (fun a => (s.headers a).freePrevious)
      (s.bins (b.bin (s.headers a).size)) (l₁ ++ a :: l₂) ∧
    (s.headers a).freeNext = l₂.head? ∧ (s.headers a).freePrevious = l₁.getLast? := by
  obtain ⟨l, linked, mem⟩ := h (b.bin (s.headers a).size)
  obtain ⟨l₁, l₂, rfl, next, previous⟩ := linked.of_mem ((mem a).mpr ⟨ha, rfl⟩)
  exact ⟨l₁, l₂, mem, linked, next, previous⟩

theorem Bins.removeFree (h : Bins b s F) (ha : a ∈ F) : Bins b (s.removeFree b a) (F \ {a}) := by
  obtain ⟨l₁, l₂, mem, linked, next, previous⟩ := h.around ha
  have hnot : a ∉ l₁ ++ l₂ := (List.nodup_cons.mp (List.nodup_middle.mp linked.nodup)).1
  intro i
  by_cases hi : b.bin (s.headers a).size = i
  · subst hi
    refine ⟨l₁ ++ l₂, ?_, fun x => ?_⟩
    · apply linked.remove
      · intro x hx
        have hxa : x ≠ a := fun he => hnot (he ▸ hx)
        simp [removeFree_headers, hxa]
      · intro x hx
        have hxa : x ≠ a := fun he => hnot (he ▸ hx)
        simp [removeFree_headers, hxa]
      · rw [removeFree_bins]
        split <;> simp
    · rw [removeFree_headers, Set.mem_sdiff, Set.mem_singleton_iff]
      by_cases hx : x = a
      · simp only [hx, hnot, not_true, and_false, false_and]
      · have := mem x
        simp only [List.mem_append, List.mem_cons, hx, false_or] at this
        simp [this, hx]
  · obtain ⟨l, linked', mem'⟩ := h i
    have apart : ∀ x ∈ l, x ∉ l₁ ++ a :: l₂ := fun x hx hm =>
      hi (((mem x).mp hm).2.symm.trans ((mem' x).mp hx).2)
    refine ⟨l, ?_, fun x => ?_⟩
    · have hb : (s.removeFree b a).bins i = s.bins i := by
        rw [removeFree_bins]
        split
        · exact Function.update_of_ne (Ne.symm hi) ..
        · rfl
      rw [hb]
      apply linked'.congr
      · intro x hx
        have hxa : x ≠ a := fun he => apart x hx (by simp [he])
        have hp : (s.headers a).freePrevious ≠ some x := fun hp =>
          apart x hx (List.mem_append_left _ (List.mem_of_getLast? (previous.symm.trans hp)))
        simp [removeFree_headers, hxa, hp]
      · intro x hx
        have hxa : x ≠ a := fun he => apart x hx (by simp [he])
        have hn : (s.headers a).freeNext ≠ some x := fun hn =>
          apart x hx (by simp [List.mem_of_mem_head? (next.symm.trans hn)])
        simp [removeFree_headers, hxa, hn]
    · rw [removeFree_headers, mem', Set.mem_sdiff, Set.mem_singleton_iff]
      by_cases hx : x = a
      · simp [hx, hi]
      · simp [hx]

theorem Bins.onlyLinks_removeFree (h : Bins b s F) (ha : a ∈ F) : OnlyLinks F s (s.removeFree b a) where
  unlinked x := by simp [removeFree_headers, Header.unlinked]
  others x hx := by
    obtain ⟨l₁, l₂, mem, -, next, previous⟩ := h.around ha
    have hxa : x ≠ a := fun he => hx (he ▸ ha)
    have hout : x ∉ l₁ ++ a :: l₂ := fun hm => hx ((mem x).mp hm).1
    have hp : (s.headers a).freePrevious ≠ some x := fun hp =>
      hout (List.mem_append_left _ (List.mem_of_getLast? (previous.symm.trans hp)))
    have hn : (s.headers a).freeNext ≠ some x := fun hn =>
      hout (by simp [List.mem_of_mem_head? (next.symm.trans hn)])
    simp [removeFree_headers, hxa, hp, hn]
  contents := by
    simp only [State.removeFree, State.set_contents, State.setSome_contents, apply_ite State.contents]
    exact ite_self _
  initialized := by
    simp only [State.removeFree, State.set_initialized, State.setSome_initialized, apply_ite State.initialized]
    exact ite_self _
  traceMode := by
    simp only [State.removeFree, State.set_traceMode, State.setSome_traceMode, apply_ite State.traceMode]
    exact ite_self _

end Emela.Heap
