import Emela.Heap.Lemmas.Allocation
import Emela.Heap.Lemmas.Collection

/-!
# Programs that use the heap
-/

namespace Emela.Heap

open RefCount

variable {b : Board} {p p' : Program} {s s' : State} {B B' L R roots : List Nat} {a x v w payloadSize kind : Nat}
  {content : Content} {values : List (Option Nat)} {bytes : Nat → Header}

/-! ## Writing a payload -/

theorem Layout.disjoint (h : Layout b s B) (ha : a ∈ B) (hx : x ∈ B) (hlt : a < x) : a + (s.headers a).size ≤ x := by
  obtain ⟨e, run, -⟩ := h.rest (h.initialized ha)
  obtain ⟨L, R, rfl⟩ := List.append_of_mem ha
  obtain ⟨-, pairwise, before⟩ := List.pairwise_append.mp run.pairwise
  rcases List.mem_append.mp hx with hx | hx
  · have := before x hx a List.mem_cons_self
    omega
  · rcases List.mem_cons.mp hx with rfl | hx
    · exact absurd hlt (Nat.lt_irrefl x)
    · exact (List.pairwise_cons.mp pairwise).1 x hx

/-- A header of a block is not inside a payload in use. -/
theorem Layout.outside_payload (h : Layout b s B) (hx : x ∈ B) (hv : v ∈ s.used b B) :
    x + b.headerSize ≤ v ∨ b.header v + (s.headers (b.header v)).size ≤ x := by
  obtain ⟨ha, -, hv⟩ := mem_used_iff.mp hv
  by_cases hlt : b.header v < x
  · exact .inr (h.disjoint ha hx hlt)
  · left
    omega

theorem write_headers (h : Layout b s B) (hv : v ∈ s.used b B) (hx : x ∈ B) :
    (s.write b v content bytes).headers x = s.headers x := by
  apply if_neg
  rintro ⟨low, high⟩
  have header_pos := b.headerSize_pos
  rcases h.outside_payload hx hv with before | after
  · omega
  · omega

theorem references_write (h : Layout b s B) (hv : v ∈ s.used b B) (hw : w ∈ s.used b B) :
    (s.write b v content bytes).references b w = s.references b w := by
  rw [State.references, write_headers h hv (mem_used_iff.mp hw).1, State.references]

theorem used_write (h : Layout b s B) (hv : v ∈ s.used b B) : (s.write b v content bytes).used b B = s.used b B := by
  rw [State.used, State.used]
  congr 1
  apply List.filter_congr
  intro x hx
  rw [write_headers h hv hx]

theorem layout_write (h : Layout b s B) (hv : v ∈ s.used b B) : Layout b (s.write b v content bytes) B := by
  apply h.congr
  · rfl
  · rfl
  · intro x hx
    rw [write_headers h hv hx]
    exact ⟨rfl, fun _ => ⟨rfl, rfl⟩⟩

theorem held_write : (s.write b v content bytes).held = Function.update s.held v content.references.reduceOption := by
  funext w
  change (Function.update s.contents v content w).references.reduceOption = _
  by_cases hw : w = v
  · rw [hw, Function.update_self, Function.update_self]
  · rw [Function.update_of_ne hw, Function.update_of_ne hw, State.held, State.fields]

theorem typed_write (h : Layout b s B) (hv : v ∈ s.used b B) (hfits : b.fits (s.headers (b.header v)).kind content = true)
    (ht : ∀ w ∈ s.used b B, w ≠ v → b.fits (s.headers (b.header w)).kind (s.contents w) = true) :
    Typed b (s.write b v content bytes) B := by
  intro w hw
  rw [used_write h hv] at hw
  rw [write_headers h hv (mem_used_iff.mp hw).1]
  change b.fits _ (Function.update s.contents v content w) = true
  by_cases he : w = v
  · subst he
    rw [Function.update_self]
    exact hfits
  · rw [Function.update_of_ne he]
    exact ht w hw he

/-- What is given away and what is left. -/
theorem diff_perm (h : values.reduceOption.Subperm roots) :
    roots.Perm (values.reduceOption ++ roots.diff values.reduceOption) :=
  (List.subperm_append_diff_self_of_count_le fun x _ => h.count_le x).symm

/-! ## One step -/

/-- References change places: some go from outside into a payload, those that it held go outside. -/
theorem Settled.store (h : Settled b s roots B) (hv : v ∈ s.used b B)
    (hfits : b.fits (s.headers (b.header v)).kind content = true) (hsub : content.references.reduceOption.Subperm roots) :
    Settled b (s.write b v content bytes) (s.held v ++ roots.diff content.references.reduceOption) B where
  layout := layout_write h.layout hv
  typed := typed_write h.layout hv hfits fun w hw _ => h.typed w hw
  counts := by
    rw [used_write h.layout hv, held_write]
    have counts := h.counts.congr (List.Perm.refl _) (diff_perm hsub) (fun _ _ => rfl) fun _ _ => rfl
    exact (counts.exchange hv (nodup_used h.layout.nodup)).congr (List.Perm.refl _) (List.Perm.refl _)
      (fun w hw => references_write h.layout hv hw) fun _ _ => rfl
  positive w hw := by
    rw [used_write h.layout hv] at hw
    rw [references_write h.layout hv hw]
    exact h.positive w hw

theorem Allocates.used_iff (h : Allocates b s s' B B' a payloadSize kind) :
    v ∈ s'.used b B' ↔ v = a + b.headerSize ∨ v ∈ s.used b B := by
  by_cases hv : v = a + b.headerSize
  · subst hv
    simp [mem_used_iff, Board.header_add, h.mem, h.taken]
  · simp only [hv, false_or, mem_used_iff, ← and_assoc]
    refine and_congr_left fun he => h.used _ fun ha => hv (ha ▸ he.symm)

/-- A new payload takes references from outside, where it is held now. -/
theorem Settled.allocate (h : Settled b s roots B) (hal : Allocates b s s' B B' a payloadSize kind)
    (hfits : b.fits kind content = true) (hsub : content.references.reduceOption.Subperm roots) :
    Settled b (s'.write b (a + b.headerSize) content bytes)
      ((a + b.headerSize) :: roots.diff content.references.reduceOption) B' := by
  have hv : a + b.headerSize ∈ s'.used b B' := hal.used_iff.mpr (.inl rfl)
  have hnew : a + b.headerSize ∉ s.used b B := fun hm => hal.fresh (by
    have := mem_used_iff.mp hm
    rw [Board.header_add] at this
    exact ⟨this.1, this.2.1⟩)
  have perm : ((a + b.headerSize) :: s.used b B).Perm (s'.used b B') :=
    (List.perm_ext_iff_of_nodup (List.nodup_cons.mpr ⟨hnew, nodup_used h.layout.nodup⟩)
      (nodup_used hal.layout.nodup)).mpr fun w => by rw [List.mem_cons, hal.used_iff]
  have references : ∀ w ∈ (a + b.headerSize) :: s.used b B, s'.references b w =
      Function.update (s.references b) (a + b.headerSize) 1 w := by
    intro w hw
    by_cases he : w = a + b.headerSize
    · rw [he, Function.update_self, State.references, Board.header_add, hal.references]
    · obtain ⟨hm, hf, -⟩ := mem_used_iff.mp ((List.mem_cons.mp hw).resolve_left he)
      rw [Function.update_of_ne he]
      exact (congrArg Header.references (hal.kept _ hm hf) :)
  have held : s'.held = s.held := held_congr hal.contents
  have typed : Typed b (s'.write b (a + b.headerSize) content bytes) B' := by
    apply typed_write hal.layout hv
    · rw [Board.header_add, hal.kind]
      exact hfits
    · intro w hw hne
      have hw := (hal.used_iff.mp hw).resolve_left hne
      obtain ⟨hm, hf, -⟩ := mem_used_iff.mp hw
      have kind : (s'.headers (b.header w)).kind = (s.headers (b.header w)).kind := (congrArg Header.kind (hal.kept _ hm hf) :)
      rw [kind, hal.contents]
      exact h.typed w hw
  refine ⟨layout_write hal.layout hv, typed, ?_, fun w hw => ?_⟩
  · rw [used_write hal.layout hv, held_write, held]
    have counts := h.counts.congr (List.Perm.refl _) (diff_perm hsub) (fun _ _ => rfl) fun _ _ => rfl
    apply (counts.add hnew).congr perm (List.Perm.refl _) (fun w hw => ?_) fun _ _ => rfl
    rw [references_write hal.layout hv (perm.mem_iff.mp hw)]
    exact references w hw
  · rw [used_write hal.layout hv] at hw
    rw [references_write hal.layout hv hw, references w (perm.mem_iff.mpr hw)]
    by_cases he : w = a + b.headerSize
    · rw [he, Function.update_self]
      exact Nat.one_pos
    · rw [Function.update_of_ne he]
      exact h.positive w ((hal.used_iff.mp hw).resolve_left he)

theorem Settled.retain (h : Settled b s roots B) (hv : v ∈ s.used b B) :
    (s.retain b (some v) = .error referenceOverflow ∧ s.references b v = 2 ^ 32 - 1) ∨
    ∃ s', s.retain b (some v) = .ok s' ∧ Settled b s' (v :: roots) B ∧
      s'.traceMode = s.traceMode ∧ s'.initialized = s.initialized := by
  simp only [State.retain]
  rw [if_neg (not_invalid hv (h.positive v hv))]
  by_cases hmax : (s.headers (b.header v)).references = 2 ^ 32 - 1
  · exact .inl ⟨if_pos hmax, hmax⟩
  rw [if_neg hmax]
  generalize hs : (s.set (b.header v) fun block => { block with references := block.references + 1 }) = s'
  have hf := (mem_used_iff.mp hv).2.1
  have only : OnlyCounts B s s' := by
    rw [← hs]
    refine ⟨onlyAt_set (mem_used_iff.mp hv).1, fun x => ?_, fun x hx => ?_, rfl, rfl, rfl, rfl⟩
    · rw [State.set_headers]
      split
      · next he => rw [he]; rfl
      · rfl
    · rw [State.set_of_ne]
      rintro rfl
      rw [hf] at hx
      cases hx
  have references : ∀ w ∈ s.used b B, s'.references b w = Function.update (s.references b) v (s.references b v + 1) w := by
    intro w hw
    rw [← hs, State.references]
    by_cases he : w = v
    · rw [he, Function.update_self, State.set_self]
      rfl
    · rw [Function.update_of_ne he, State.set_of_ne fun hh => he (header_inj hw hv hh)]
      rfl
  have held : s'.held = s.held := held_congr only.contents
  refine .inr ⟨s', rfl, ⟨only.layout h.layout, only.typed h.typed, ?_, fun w hw => ?_⟩, only.traceMode, only.initialized⟩
  · rw [only.used, held]
    exact (h.counts.retain hv).congr (List.Perm.refl _) (List.Perm.refl _) references fun _ _ => rfl
  · rw [only.used] at hw
    rw [references w hw]
    by_cases he : w = v
    · rw [he, Function.update_self]
      exact Nat.succ_pos _
    · rw [Function.update_of_ne he]
      exact h.positive w hw

/-- Values are released; with a collector nothing is used then that cannot be reached. -/
theorem Settled.release (h : Settled b s roots B) (ht : s.traceMode = 0) (hsub : values.reduceOption.Subperm roots) :
    ∃ s' B', s.release b values = .ok s' ∧ Settled b s' (roots.diff values.reduceOption) B' ∧ Shrinks b s s' B B' ∧
      (b.cycles = true → ∀ v ∈ s'.used b B', Reached (roots.diff values.reduceOption) s'.held v) := by
  have draining : Draining b s ⟨none, none⟩ (values.reduceOption ++ roots.diff values.reduceOption) (s.used b B) [] B := by
    refine ⟨h.layout, h.typed, fun _ hv => hv, nodup_used h.layout.nodup,
      h.counts.congr (List.Perm.refl _) (diff_perm hsub) (fun _ _ => rfl) (fun _ _ => rfl), LinkedQueue.queue_empty, fun a => ?_⟩
    simp only [List.not_mem_nil, false_iff]
    rintro ⟨ha, hz⟩
    have := h.positive _ ha
    rw [State.references, Board.header_add, hz] at this
    exact Nat.lt_irrefl 0 this
  obtain ⟨s₁, q₁, Q₁, hfold, draining₁, only⟩ := draining.enqueue ht
  have hlen : (s.used b B).length < b.heapEnd + 1 := by
    have := h.layout.length_le
    have : (s.used b B).length ≤ B.length := by
      rw [State.used, List.length_map]
      exact List.length_filter_le ..
    omega
  obtain ⟨s₂, B₂, hdrain, settled, shrinks⟩ := draining₁.drainFrom (n := b.heapEnd + 1)
    (fun v hv => only.used (b := b) B ▸ hv) (only.traceMode.trans ht) hlen
  have shrinks := only.shrinks.trans shrinks
  have hrelease : s.release b values = if b.cycles = true ∧ s₂.traceMode = 0 then s₂.collectCycles b else .ok s₂ := by
    simp only [State.release, hfold, State.drain, hdrain, bind, Except.bind]
  rw [hrelease]
  have ht₂ : s₂.traceMode = 0 := shrinks.traceMode.trans ht
  by_cases hc : b.cycles = true
  · rw [if_pos ⟨hc, ht₂⟩]
    cases hi : s₂.initialized with
    | true =>
      obtain ⟨s₃, B₃, hcollect, settled₃, shrinks₃, reached⟩ := settled.collectCycles hc hi ht₂
      exact ⟨s₃, B₃, hcollect, settled₃, shrinks.trans shrinks₃, fun _ => reached⟩
    | false =>
      have hB : B₂ = [] := settled.layout.eq_nil hi
      refine ⟨s₂, B₂, by simp [State.collectCycles, hi], settled, shrinks, fun _ v hv => ?_⟩
      rw [hB] at hv
      simp [State.used] at hv
  · rw [if_neg fun h => hc h.1]
    exact ⟨s₂, B₂, rfl, settled, shrinks, fun h => absurd h hc⟩

end Emela.Heap
