import Emela.Heap.Lemmas.Blocks
import Emela.Lib.LinkedQueue
import Emela.Lib.RefCount
import Mathlib.Data.List.ReduceOption

/-!
# Giving up references

The blocks that are used are the nodes of a graph, known by the addresses of their payloads, and the payloads are
the edges.
-/

namespace Emela.Heap

open LinkedQueue RefCount

variable {b : Board} {s s' s'' : State} {q q' : Pending} {B B' L R Q N roots : List Nat} {a x v w : Nat}
  {l : List (Option Nat)}

/-- The payloads of the used blocks. -/
def State.used (b : Board) (s : State) (B : List Nat) : List Nat :=
  (B.filter fun a => !(s.headers a).isFree).map fun a => a + b.headerSize

/-- How often a payload is said to be held. -/
def State.references (b : Board) (s : State) (v : Nat) : Nat := (s.headers (b.header v)).references

/-- What is held in a payload. -/
def State.held (s : State) (v : Nat) : List Nat := (s.fields v).reduceOption

theorem held_congr (h : s'.contents = s.contents) : s'.held = s.held := by
  funext v
  rw [State.held, State.held, State.fields, State.fields, h]

theorem mem_used : v ∈ s.used b B ↔ ∃ a ∈ B, (s.headers a).isFree = false ∧ a + b.headerSize = v := by
  simp [State.used, and_assoc]

theorem Board.header_add : b.header (a + b.headerSize) = a := Nat.add_sub_cancel ..

theorem mem_used_iff : v ∈ s.used b B ↔
    b.header v ∈ B ∧ (s.headers (b.header v)).isFree = false ∧ b.header v + b.headerSize = v := by
  rw [mem_used]
  constructor
  · rintro ⟨a, ha, hf, rfl⟩
    rw [Board.header_add]
    exact ⟨ha, hf, rfl⟩
  · rintro ⟨ha, hf, he⟩
    exact ⟨_, ha, hf, he⟩

theorem nodup_used (h : B.Nodup) : (s.used b B).Nodup :=
  (h.filter _).map fun _ _ => Nat.add_right_cancel

theorem header_inj (hv : v ∈ s.used b B) (hw : w ∈ s.used b B) (he : b.header v = b.header w) : v = w := by
  rw [← (mem_used_iff.mp hv).2.2, ← (mem_used_iff.mp hw).2.2, he]

/-- What is not the count of a block or its link. -/
def Header.shape (h : Header) : Header := { h with references := 0, freeNext := none }

/-- Only counts and the links of used blocks differ, in the headers of `B`. -/
structure OnlyCounts (B : List Nat) (s s' : State) : Prop where
  only : OnlyAt B s s'
  shape : ∀ x, (s'.headers x).shape = (s.headers x).shape
  free : ∀ x, (s.headers x).isFree = true → (s'.headers x).freeNext = (s.headers x).freeNext
  bins : s'.bins = s.bins
  contents : s'.contents = s.contents
  initialized : s'.initialized = s.initialized
  traceMode : s'.traceMode = s.traceMode

theorem OnlyCounts.tile (h : OnlyCounts B s s') (x : Nat) : (s'.headers x).tile = (s.headers x).tile :=
  (congrArg Header.tile (h.shape x) :)

theorem OnlyCounts.isFree (h : OnlyCounts B s s') (x : Nat) : (s'.headers x).isFree = (s.headers x).isFree :=
  (congrArg Header.isFree (h.shape x) :)

theorem OnlyCounts.refl : OnlyCounts B s s := ⟨.refl, fun _ => rfl, fun _ _ => rfl, rfl, rfl, rfl, rfl⟩

theorem OnlyCounts.trans (h : OnlyCounts B s s') (h' : OnlyCounts B s' s'') : OnlyCounts B s s'' where
  only := h.only.trans h'.only
  shape x := (h'.shape x).trans (h.shape x)
  free x hx := (h'.free x ((h.isFree x).trans hx)).trans (h.free x hx)
  bins := h'.bins.trans h.bins
  contents := h'.contents.trans h.contents
  initialized := h'.initialized.trans h.initialized
  traceMode := h'.traceMode.trans h.traceMode

theorem OnlyCounts.layout (h : OnlyCounts B s s') (hl : Layout b s B') : Layout b s' B' :=
  hl.congr h.initialized h.bins fun x _ => ⟨h.tile x, fun hf => ⟨h.free x hf,
    (congrArg Header.freePrevious (h.shape x) :)⟩⟩

theorem OnlyCounts.used (h : OnlyCounts B s s') (B' : List Nat) : s'.used b B' = s.used b B' := by
  simp only [State.used, h.isFree]

/-! ## One reference -/

/-- Each payload in use is one of its kind. -/
def Typed (b : Board) (s : State) (B : List Nat) : Prop :=
  ∀ v ∈ s.used b B, b.fits (s.headers (b.header v)).kind (s.contents v) = true

/-- Some of the used blocks, with exact counts; those whose count is zero are pending. -/
structure Draining (b : Board) (s : State) (q : Pending) (roots N Q B : List Nat) : Prop where
  layout : Layout b s B
  typed : Typed b s B
  used : ∀ v ∈ N, v ∈ s.used b B
  nodup : N.Nodup
  counts : Exact (s.references b) roots s.held N
  queue : Queue (fun a => (s.headers a).freeNext) q.first q.tail Q
  pending : ∀ a, a ∈ Q ↔ a + b.headerSize ∈ N ∧ (s.headers a).references = 0

theorem OnlyCounts.typed (h : OnlyCounts B' s s') (ht : Typed b s B) : Typed b s' B := by
  intro v hv
  rw [h.used] at hv
  have kind : (s'.headers (b.header v)).kind = (s.headers (b.header v)).kind := (congrArg Header.kind (h.shape _) :)
  rw [h.contents, kind]
  exact ht v hv

theorem drop_headers : (s.drop q a).1.headers x =
    { s.headers x with
      references := if x = a then (s.headers a).references - 1 else (s.headers x).references
      freeNext := if (s.headers a).references - 1 = 0 then
          (if q.tail = some x then some a else if x = a then none else (s.headers x).freeNext)
        else (s.headers x).freeNext } := by
  simp only [State.drop, State.set_self]
  by_cases hz : (s.headers a).references - 1 = 0
  · rw [if_pos hz, if_pos hz, State.setSome_headers, State.set_headers, State.set_self, State.set_headers]
    by_cases hx : x = a
    · subst hx
      simp only [if_true]
      split <;> rfl
    · simp only [if_neg hx]
      split <;> rfl
  · rw [if_neg hz, if_neg hz, State.set_headers]
    by_cases hx : x = a
    · simp only [hx, if_true]
    · simp only [if_neg hx]

theorem drop_pending : (s.drop q a).2 =
    if (s.headers a).references - 1 = 0 then ⟨if q.tail = none then some a else q.first, some a⟩ else q := by
  simp only [State.drop, State.set_self]
  split <;> rfl

theorem drop_state : (s.drop q a).1.bins = s.bins ∧ (s.drop q a).1.contents = s.contents ∧
    (s.drop q a).1.initialized = s.initialized ∧ (s.drop q a).1.traceMode = s.traceMode := by
  simp only [State.drop]
  split <;> simp

theorem onlyCounts_drop (ha : a ∈ B ∧ (s.headers a).isFree = false)
    (hq : ∀ t, q.tail = some t → t ∈ B ∧ (s.headers t).isFree = false) : OnlyCounts B s (s.drop q a).1 where
  only x hx := by
    have hxa : x ≠ a := fun he => hx (he ▸ ha.1)
    have hxq : q.tail ≠ some x := fun he => hx (hq x he).1
    rw [drop_headers]
    simp [hxa, hxq]
  shape x := by
    rw [drop_headers]
    rfl
  free x hx := by
    have hxa : x ≠ a := fun he => absurd (hx.symm.trans (he ▸ ha.2)) (by simp)
    have hxq : q.tail ≠ some x := fun he => absurd (hx.symm.trans (hq x he).2) (by simp)
    rw [drop_headers]
    simp [hxa, hxq]
  bins := drop_state.1
  contents := drop_state.2.1
  initialized := drop_state.2.2.1
  traceMode := drop_state.2.2.2

theorem references_drop (hv : v ∈ s.used b B) (hw : w ∈ s.used b B) : (s.drop q (b.header v)).1.references b w =
    Function.update (s.references b) v (s.references b v - 1) w := by
  simp only [State.references, drop_headers]
  by_cases he : w = v
  · subst he
    rw [Function.update_self]
    exact if_pos rfl
  · rw [Function.update_of_ne he]
    exact if_neg fun hh => he (header_inj hw hv hh)

theorem Draining.used_block (h : Draining b s q roots N Q B) (ha : a ∈ Q) :
    a ∈ B ∧ (s.headers a).isFree = false := by
  have := mem_used_iff.mp (h.used _ ((h.pending a).mp ha).1)
  rw [Board.header_add] at this
  exact ⟨this.1, this.2.1⟩

theorem queue_drop (h : Queue (fun a => (s.headers a).freeNext) q.first q.tail Q) (ha : a ∉ Q)
    (hz : (s.headers a).references - 1 = 0) :
    Queue (fun x => ((s.drop q a).1.headers x).freeNext) (s.drop q a).2.first (s.drop q a).2.tail (Q ++ [a]) := by
  have cut : Queue (fun x => if x = a then none else (s.headers x).freeNext) q.first q.tail Q :=
    h.congr fun x hx => if_neg fun (he : x = a) => ha (he ▸ hx)
  have pushed := cut.push ha (if_pos rfl)
  rw [drop_pending, if_pos hz]
  convert pushed using 1
  funext x
  rw [drop_headers]
  simp only [hz, if_true]
  cases q.tail with
  | none => simp
  | some t =>
    by_cases hx : x = t
    · subst hx
      simp
    · simp [Function.update_of_ne hx, Ne.symm hx]

/-- One of the references is given up. -/
theorem Draining.drop (h : Draining b s q (v :: roots) N Q B) :
    ∃ Q', Draining b (s.drop q (b.header v)).1 (s.drop q (b.header v)).2 roots N Q' B ∧
      OnlyCounts B s (s.drop q (b.header v)).1 := by
  have hv : v ∈ N := h.counts.outside v List.mem_cons_self
  obtain ⟨hB, hf, hv'⟩ := mem_used_iff.mp (h.used v hv)
  have hpos : 0 < s.references b v := h.counts.pos_of_outside List.mem_cons_self
  have hQ : b.header v ∉ Q := fun hm => Nat.ne_of_gt hpos ((h.pending _).mp hm).2
  have only : OnlyCounts B s (s.drop q (b.header v)).1 := onlyCounts_drop ⟨hB, hf⟩ fun t ht => by
    rw [h.queue.tail] at ht
    exact h.used_block (List.mem_of_getLast? ht)
  have counts : Exact ((s.drop q (b.header v)).1.references b) roots (s.drop q (b.header v)).1.held N := by
    apply h.counts.drop.congr (List.Perm.refl N) (List.Perm.refl roots)
    · exact fun w hw => references_drop (h.used v hv) (h.used w hw)
    · intro w _
      rw [held_congr only.contents]
  have typed : Typed b (s.drop q (b.header v)).1 B := only.typed h.typed
  have used : ∀ w ∈ N, w ∈ (s.drop q (b.header v)).1.used b B := fun w hw => only.used (b := b) B ▸ h.used w hw
  have zero : ∀ x, ((s.drop q (b.header v)).1.headers x).references =
      if x = b.header v then s.references b v - 1 else (s.headers x).references := fun x => by rw [drop_headers]; rfl
  by_cases hz : s.references b v - 1 = 0
  · refine ⟨Q ++ [b.header v], ⟨only.layout h.layout, typed, used, h.nodup, counts, ?_, fun x => ?_⟩, only⟩
    · exact queue_drop h.queue hQ hz
    · rw [List.mem_append, List.mem_singleton, h.pending x, zero]
      by_cases hx : x = b.header v
      · simp [hx, hv', hv, hz]
      · simp [hx]
  · refine ⟨Q, ⟨only.layout h.layout, typed, used, h.nodup, counts, ?_, fun x => ?_⟩, only⟩
    · have hz' : ¬ (s.headers (b.header v)).references - 1 = 0 := hz
      rw [drop_pending, if_neg hz']
      apply h.queue.congr
      intro x _
      rw [drop_headers]
      exact if_neg hz'
    · rw [h.pending x, zero]
      by_cases hx : x = b.header v
      · have : s.references b v ≠ 0 := Nat.ne_of_gt hpos
        simp only [hx, if_true, hz, and_false, iff_false]
        exact fun hm => this hm.2
      · simp [hx]

/-! ## References that are given up -/

theorem enqueue_drop (ht : s.traceMode = 0) (hf : (s.headers (b.header v)).isFree = false)
    (hr : 0 < s.references b v) : State.enqueue b (s, q) (some v) = .ok (s.drop q (b.header v)) := by
  have hr : ¬ ((s.headers (b.header v)).isFree = true ∨ (s.headers (b.header v)).references = 0) := by
    rintro (h | h)
    · rw [hf] at h
      cases h
    · exact Nat.ne_of_gt hr h
  simp [State.enqueue, hr, ht]

/-- Values are given up one after the other. -/
theorem Draining.enqueue (h : Draining b s q (l.reduceOption ++ roots) N Q B) (ht : s.traceMode = 0) :
    ∃ s' q' Q', l.foldlM (State.enqueue b) (s, q) = .ok (s', q') ∧ Draining b s' q' roots N Q' B ∧ OnlyCounts B s s' := by
  induction l generalizing s q Q with
  | nil => exact ⟨s, q, Q, rfl, h, .refl⟩
  | cons o l ih =>
    cases o with
    | none => exact ih h ht
    | some v =>
      have hv : v ∈ N := h.counts.outside v (by simp [List.reduceOption_cons_of_some])
      rw [List.reduceOption_cons_of_some, List.cons_append] at h
      obtain ⟨Q₁, h₁, only⟩ := h.drop
      obtain ⟨s', q', Q', hfold, h', only'⟩ := ih h₁ (only.traceMode.trans ht)
      refine ⟨s', q', Q', ?_, h', only.trans only'⟩
      rw [List.foldlM_cons, enqueue_drop ht (mem_used_iff.mp (h.used v hv)).2.1
        (h.counts.pos_of_outside List.mem_cons_self)]
      exact hfold

mutual

/-- The references of a value of a shape are given up one after the other. -/
theorem enqueueValue_eq (sq : State × Pending) : ∀ (shape : Shape) (content : Content), shape.fits content = true →
    State.enqueueValue b sq shape content = content.references.foldlM (State.enqueue b) sq
  | .plain, .plain, _ => rfl
  | .reference, .reference value, _ => by
    rw [State.enqueueValue, Content.references, List.foldlM_cons]
    cases State.enqueue b sq value <;> rfl
  | .tuple fields, .tuple contents, h => enqueueFields_eq sq fields contents h
  | .variants cases, .tagged tag content, h => enqueueCase_eq sq _ cases tag content h
  | .anyBox cases, .tagged tag content, h => enqueueCase_eq sq _ cases tag content h

theorem enqueueFields_eq (sq : State × Pending) : ∀ (shapes : List Shape) (contents : List Content),
    fitAll shapes contents = true →
    State.enqueueFields b sq shapes contents = (allReferences contents).foldlM (State.enqueue b) sq
  | [], [], _ => rfl
  | shape :: shapes, content :: contents, h => by
    rw [fitAll, Bool.and_eq_true] at h
    rw [State.enqueueFields, allReferences, List.foldlM_append, enqueueValue_eq sq shape content h.1]
    congr 1
    funext sq
    exact enqueueFields_eq sq shapes contents h.2

theorem enqueueCase_eq (sq : State × Pending) (byDefault : Except Defect (State × Pending)) :
    ∀ (shapes : List Shape) (tag : Nat) (content : Content), fitsCase shapes tag content = true →
    State.enqueueCase b byDefault sq shapes tag content = content.references.foldlM (State.enqueue b) sq
  | shape :: _, 0, content, h => enqueueValue_eq sq shape content h
  | _ :: shapes, tag + 1, content, h => enqueueCase_eq sq byDefault shapes tag content h

end

/-- A payload of its kind is neither of a kind without a case nor a box of a type without one. -/
theorem destroy_eq (h : b.fits (s.headers a).kind (s.contents (a + b.headerSize)) = true) :
    State.destroy b (s, q) a = (s.fields (a + b.headerSize)).foldlM (State.enqueue b) (s, q) := by
  rw [Board.fits, Option.any_eq_true] at h
  obtain ⟨shape, hshape, fits⟩ := h
  rw [State.destroy, hshape]
  exact enqueueValue_eq (s, q) shape _ fits

/-! ## Blocks that are freed -/

/-- No block is used that was not, and those that are have the size and the kind that they had. -/
structure Shrinks (b : Board) (s s' : State) (B B' : List Nat) : Prop where
  blocks : B' ⊆ B
  only : OnlyAt B s s'
  used : ∀ v ∈ s'.used b B', v ∈ s.used b B
  size : ∀ v ∈ s'.used b B', (s'.headers (b.header v)).size = (s.headers (b.header v)).size
  kind : ∀ v ∈ s'.used b B', (s'.headers (b.header v)).kind = (s.headers (b.header v)).kind
  contents : s'.contents = s.contents
  initialized : s'.initialized = s.initialized
  traceMode : s'.traceMode = s.traceMode

theorem Shrinks.refl : Shrinks b s s B B :=
  ⟨fun _ h => h, .refl, fun _ h => h, fun _ _ => rfl, fun _ _ => rfl, rfl, rfl, rfl⟩

theorem Shrinks.trans {B'' : List Nat} (h : Shrinks b s s' B B') (h' : Shrinks b s' s'' B' B'') :
    Shrinks b s s'' B B'' where
  blocks := fun _ hx => h.blocks (h'.blocks hx)
  only := h.only.trans (h'.only.mono h.blocks)
  used v hv := h.used v (h'.used v hv)
  size v hv := (h'.size v hv).trans (h.size v (h'.used v hv))
  kind v hv := (h'.kind v hv).trans (h.kind v (h'.used v hv))
  contents := h'.contents.trans h.contents
  initialized := h'.initialized.trans h.initialized
  traceMode := h'.traceMode.trans h.traceMode

theorem Shrinks.typed (h : Shrinks b s s' B B') (ht : Typed b s B) : Typed b s' B' := by
  intro v hv
  rw [h.contents, h.kind v hv]
  exact ht v (h.used v hv)

theorem OnlyCounts.shrinks (h : OnlyCounts B s s') : Shrinks b s s' B B where
  blocks := fun _ hx => hx
  only := h.only
  used _ hv := h.used (b := b) B ▸ hv
  size _ _ := (congrArg Header.size (h.shape _) :)
  kind _ _ := (congrArg Header.kind (h.shape _) :)
  contents := h.contents
  initialized := h.initialized
  traceMode := h.traceMode

theorem Frees.mem {L' R' : List Nat} {z : Nat} (h : Frees s s' L R L' R' a z) (hx : x ∈ L ++ R)
    (hf : (s.headers x).isFree = false) : x ∈ L' ++ R' ∧ (s'.headers x).isFree = false := by
  have hm : x ∈ L' ++ R' := by
    rcases List.mem_append.mp hx with hx | hx
    · exact List.mem_append_left _ (h.left x hx hf)
    · exact List.mem_append_right _ (h.right x hx hf)
  exact ⟨hm, (h.isFree x hm).trans hf⟩

theorem Frees.blocks {L' R' : List Nat} {z : Nat} (h : Frees s s' L R L' R' a z) : L' ++ z :: R' ⊆ L ++ a :: R := by
  intro x hx
  rcases List.mem_append.mp hx with hx | hx
  · exact List.mem_append_left _ (h.before.subset hx)
  · rcases List.mem_cons.mp hx with rfl | hx
    · exact h.block
    · exact List.mem_append_right _ (List.mem_cons_of_mem a (h.after.subset hx))

/-- The used blocks are those that were used but for the one that is freed. -/
theorem Frees.used {L' R' : List Nat} {z : Nat} (h : Frees s s' L R L' R' a z) (ha : a ∉ L ++ R) :
    v ∈ s'.used b (L' ++ z :: R') ↔ v ∈ s.used b (L ++ a :: R) ∧ v ≠ a + b.headerSize := by
  simp only [mem_used_iff, List.mem_append, List.mem_cons]
  constructor
  · rintro ⟨hm, hf, hv⟩
    have hz : b.header v ≠ z := fun he => absurd (hf.symm.trans (he ▸ h.freed)) (by simp)
    have hm : b.header v ∈ L' ++ R' := by
      simp only [List.mem_append]
      tauto
    have hm' : b.header v ∈ L ++ R := List.mem_append.mpr
      ((List.mem_append.mp hm).imp (h.before.subset ·) (h.after.subset ·))
    refine ⟨⟨?_, (h.isFree _ hm).symm.trans hf, hv⟩, ?_⟩
    · simp only [List.mem_append] at hm'
      tauto
    · rintro rfl
      rw [Board.header_add] at hm'
      exact ha hm'
  · rintro ⟨⟨hm, hf, hv⟩, hne⟩
    have hx : b.header v ≠ a := fun he => hne (he ▸ hv.symm)
    have hm : b.header v ∈ L ++ R := by
      simp only [List.mem_append]
      tauto
    obtain ⟨hm', hf'⟩ := h.mem hm hf
    refine ⟨?_, hf', hv⟩
    simp only [List.mem_append] at hm'
    tauto

theorem Layout.freeUsed (h : Layout b s B) (hv : v ∈ s.used b B) : ∃ B', Layout b (s.freeBlock b (b.header v)).1 B' ∧
    (∀ w, w ∈ (s.freeBlock b (b.header v)).1.used b B' ↔ w ∈ s.used b B ∧ w ≠ v) ∧
    (∀ w ∈ s.used b B, w ≠ v → ((s.freeBlock b (b.header v)).1.headers (b.header w)).kept = (s.headers (b.header w)).kept) ∧
    Shrinks b s (s.freeBlock b (b.header v)).1 B B' := by
  obtain ⟨ha, hf, hva⟩ := mem_used_iff.mp hv
  clear hv
  generalize hs : s.freeBlock b (b.header v) = freed
  generalize b.header v = a at *
  obtain ⟨L, R, rfl⟩ := List.append_of_mem ha
  obtain ⟨L', R', layout, frees⟩ := h.freeBlock hf
  rw [hs] at layout frees
  have hout : a ∉ L ++ R := (List.nodup_cons.mp (List.nodup_middle.mp h.nodup)).1
  have used : ∀ w, w ∈ freed.1.used b (L' ++ freed.2 :: R') ↔ w ∈ s.used b (L ++ a :: R) ∧ w ≠ v :=
    fun w => hva ▸ frees.used hout
  have kept : ∀ w ∈ s.used b (L ++ a :: R), w ≠ v → (freed.1.headers (b.header w)).kept = (s.headers (b.header w)).kept := by
    intro w hw hwv
    obtain ⟨hm, hf, hw⟩ := mem_used_iff.mp hw
    have hx : b.header w ≠ a := fun he => hwv (hw.symm.trans (he ▸ hva))
    apply frees.kept _ _ hf
    simp only [List.mem_append, List.mem_cons] at hm ⊢
    tauto
  have kept' : ∀ w ∈ freed.1.used b (L' ++ freed.2 :: R'), (freed.1.headers (b.header w)).kept = (s.headers (b.header w)).kept :=
    fun w hw => kept w ((used w).mp hw).1 ((used w).mp hw).2
  exact ⟨_, layout, used, kept, frees.blocks, frees.only, fun w hw => ((used w).mp hw).1,
    fun w hw => (congrArg Header.size (kept' w hw) :), fun w hw => (congrArg Header.kind (kept' w hw) :), frees.contents,
    frees.initialized, frees.traceMode⟩

/-- A block that is no longer counted is freed. -/
theorem Draining.free (h : Draining b s q roots N Q B) (hv : v ∈ s.used b B) (hN : v ∉ N) : ∃ B',
    Draining b (s.freeBlock b (b.header v)).1 q roots N Q B' ∧
    (∀ w, w ∈ (s.freeBlock b (b.header v)).1.used b B' ↔ w ∈ s.used b B ∧ w ≠ v) ∧
    Shrinks b s (s.freeBlock b (b.header v)).1 B B' := by
  obtain ⟨B', layout, used, kept, shrinks⟩ := h.layout.freeUsed hv
  have kept : ∀ w ∈ N, ((s.freeBlock b (b.header v)).1.headers (b.header w)).kept = (s.headers (b.header w)).kept :=
    fun w hw => kept w (h.used w hw) fun he => hN (he ▸ hw)
  refine ⟨B', ⟨layout, shrinks.typed h.typed, fun w hw => (used w).mpr ⟨h.used w hw, fun he => hN (he ▸ hw)⟩, h.nodup, ?_, ?_, fun x => ?_⟩,
    used, shrinks⟩
  · apply h.counts.congr (List.Perm.refl N) (List.Perm.refl roots)
    · exact fun w hw => (congrArg Header.references (kept w hw) :)
    · intro w _
      rw [held_congr shrinks.contents]
  · apply h.queue.congr
    intro x hx
    have := congrArg Header.freeNext (kept _ ((h.pending x).mp hx).1)
    rwa [Board.header_add] at this
  · rw [h.pending x]
    constructor <;> rintro ⟨hx, hz⟩ <;> have := (congrArg Header.references (kept _ hx) :) <;>
      rw [Board.header_add] at this
    · exact ⟨hx, this.trans hz⟩
    · exact ⟨hx, this.symm.trans hz⟩

/-! ## The drain -/

/-- The first pending block is taken out, and what it holds is to be given up. -/
theorem Draining.pop {tail : Option Nat} (h : Draining b s ⟨some a, tail⟩ roots N Q B) : ∃ Q', a + b.headerSize ∈ N ∧
    Draining b s ⟨(s.headers a).freeNext, if (s.headers a).freeNext = none then none else tail⟩
      (s.held (a + b.headerSize) ++ roots) (N.erase (a + b.headerSize)) Q' B := by
  cases Q with
  | nil => exact absurd h.queue.head_eq (by simp)
  | cons x Q =>
    obtain rfl : a = x := by simpa using h.queue.head_eq
    obtain ⟨hN, hz⟩ := (h.pending a).mp List.mem_cons_self
    have hz' : s.references b (a + b.headerSize) = 0 := by rw [State.references, Board.header_add, hz]
    refine ⟨Q, hN, h.layout, h.typed, fun w hw => h.used w (List.mem_of_mem_erase hw), h.nodup.erase _,
      h.counts.takeOut hN hz' h.nodup, h.queue.pop, fun x => ?_⟩
    have hx := h.pending x
    rw [List.mem_cons] at hx
    rw [h.nodup.mem_erase_iff]
    by_cases hxa : x = a
    · subst hxa
      simp [(List.nodup_cons.mp h.queue.nodup).1]
    · rw [← Nat.add_right_cancel_iff (n := b.headerSize)] at hxa
      simp_all

/-- What remains when nothing is pending: every used block is held. -/
structure Settled (b : Board) (s : State) (roots B : List Nat) : Prop where
  layout : Layout b s B
  typed : Typed b s B
  counts : Exact (s.references b) roots s.held (s.used b B)
  positive : ∀ v ∈ s.used b B, 0 < s.references b v

theorem Draining.drainFrom {n : Nat} (h : Draining b s q roots N Q B) (hall : ∀ v ∈ s.used b B, v ∈ N)
    (ht : s.traceMode = 0) (hn : N.length < n) :
    ∃ s' B', State.drainFrom b n (s, q) = .ok s' ∧ Settled b s' roots B' ∧ Shrinks b s s' B B' := by
  induction n generalizing s q N Q B with
  | zero => simp at hn
  | succ n ih =>
    rw [State.drainFrom]
    obtain ⟨first, tail⟩ := q
    cases first with
    | none =>
      have perm : N.Perm (s.used b B) := (List.perm_ext_iff_of_nodup h.nodup (nodup_used h.layout.nodup)).mpr fun v =>
        ⟨h.used v, hall v⟩
      have counts := h.counts.congr perm (List.Perm.refl roots) (fun _ _ => rfl) fun _ _ => rfl
      refine ⟨s, B, rfl, ⟨h.layout, h.typed, counts, fun v hv => ?_⟩, .refl⟩
      have hQ : Q = [] := List.head?_eq_none_iff.mp h.queue.head_eq.symm
      by_contra hz
      have := (h.pending (b.header v)).mpr ⟨?_, Nat.eq_zero_of_not_pos hz⟩
      · simp [hQ] at this
      · rw [(mem_used_iff.mp hv).2.2]
        exact hall v hv
    | some a =>
      obtain ⟨Q₁, hN, h₁⟩ := h.pop
      obtain ⟨s₂, q₂, Q₂, hfold, h₂, only⟩ := h₁.enqueue ht
      have hv : a + b.headerSize ∈ s₂.used b B := only.used (b := b) B ▸ h.used _ hN
      obtain ⟨B₃, h₃, used, shrinks⟩ := h₂.free hv h.nodup.not_mem_erase
      rw [Board.header_add] at h₃ used shrinks
      have hlen : (N.erase (a + b.headerSize)).length < n := by
        have := List.length_erase_of_mem hN
        have := List.length_pos_of_mem hN
        omega
      have hall₃ : ∀ w ∈ (s₂.freeBlock b a).1.used b B₃, w ∈ N.erase (a + b.headerSize) := by
        intro w hw
        obtain ⟨hw, hne⟩ := (used w).mp hw
        exact (h.nodup.mem_erase_iff).mpr ⟨hne, hall w (only.used (b := b) B ▸ hw)⟩
      obtain ⟨s', B', hdrain, settled, shrinks'⟩ := ih h₃ hall₃ ((shrinks.traceMode.trans only.traceMode).trans ht) hlen
      refine ⟨s', B', ?_, settled, (only.shrinks.trans shrinks).trans shrinks'⟩
      have fits := h.typed _ (h.used _ hN)
      rw [Board.header_add] at fits
      simp only [destroy_eq fits, hfold, bind, Except.bind]
      exact hdrain

end Emela.Heap
