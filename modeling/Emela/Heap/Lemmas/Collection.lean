import Emela.Heap.Lemmas.Walks

/-!
# The collection of cycles
-/

namespace Emela.Heap

open RefCount

variable {b : Board} {s s' s'' : State} {q q' : Pending} {B B' L R N roots : List Nat} {a x v w n : Nat}
  {l : List (Option Nat)} {sq sq' : State × Pending} {p : Header → Bool}
  {act : State × Pending → Nat → Except Defect (State × Pending)}

/-! ## Giving up what was not visited -/

theorem drop_of_more (hr : ¬ (s.headers a).references - 1 = 0) :
    s.drop q a = (s.set a fun block => { block with references := block.references - 1 }, q) := by
  simp only [State.drop, State.set_self]
  rw [if_neg hr]

/-- In the third mode blocks that were visited lose references, if they have more. -/
theorem giveUp (hc : b.cycles = true) (ht : s.traceMode = 3) (hl : ∀ v ∈ l.reduceOption, v ∈ s.used b B)
    (hpos : ∀ v ∈ s.used b B, 0 < s.references b v)
    (hlt : ∀ v ∈ s.used b B, s.mark b v ≠ 0 → l.reduceOption.count v < s.references b v) :
    ∃ s', l.foldlM (State.enqueue b) (s, q) = .ok (s', q) ∧ OnlyCounts B s s' ∧
      ∀ v ∈ s.used b B, s'.references b v =
        if s.mark b v = 0 then s.references b v else s.references b v - l.reduceOption.count v := by
  induction l generalizing s with
  | nil => exact ⟨s, rfl, .refl, fun _ _ => by simp⟩
  | cons o l ih =>
    cases o with
    | none => exact ih ht hl hpos hlt
    | some v =>
      rw [List.reduceOption_cons_of_some] at hl hlt
      have hv : v ∈ s.used b B := hl v List.mem_cons_self
      have hl' : ∀ w ∈ l.reduceOption, w ∈ s.used b B := fun w hw => hl w (List.mem_cons_of_mem v hw)
      rw [List.foldlM_cons]
      by_cases hm : s.mark b v = 0
      · have hm' : (s.headers (b.header v)).gcState = 0 := hm
        obtain ⟨s', hfold, only, references⟩ := ih ht hl' hpos fun w hw hw' => by
          have := hlt w hw hw'
          rwa [List.count_cons_of_ne fun (he : v = w) => hw' (he ▸ hm)] at this
        refine ⟨s', ?_, only, fun w hw => ?_⟩
        · simp only [State.enqueue, not_invalid hv (hpos v hv), ht, hm', if_false, (by decide : ¬ (3 = 1)),
            (by decide : ¬ (3 = 2)), and_false, hc, and_self, if_true]
          exact hfold
        · rw [references w hw, List.reduceOption_cons_of_some]
          split
          · rfl
          · next hw' => rw [List.count_cons_of_ne fun (he : v = w) => hw' (he ▸ hm)]
      · have hm' : ¬ (s.headers (b.header v)).gcState = 0 := hm
        have hone : ¬ (s.headers (b.header v)).references - 1 = 0 := by
          have : (v :: l.reduceOption).count v < (s.headers (b.header v)).references := hlt v hv hm
          rw [List.count_cons_self] at this
          omega
        have hdrop := drop_of_more (q := q) hone
        have only₁ : OnlyCounts B s (s.drop q (b.header v)).1 := by
          refine ⟨?_, fun x => by rw [drop_headers]; rfl, fun x _ => ?_, drop_state.1, drop_state.2.1, drop_state.2.2.1,
            drop_state.2.2.2⟩
          · rw [hdrop]
            dsimp only
            exact onlyAt_set (mem_used_iff.mp hv).1
          · rw [drop_headers]
            exact if_neg hone
        have references₁ : ∀ w ∈ s.used b B, (s.drop q (b.header v)).1.references b w =
            if w = v then s.references b v - 1 else s.references b w := by
          intro w hw
          rw [references_drop hv hw, Function.update_apply]
        have mark₁ : ∀ w, (s.drop q (b.header v)).1.mark b w = s.mark b w := fun w =>
          (congrArg Header.gcState (only₁.shape (b.header w)) :)
        have hpair : s.drop q (b.header v) = ((s.drop q (b.header v)).1, q) := by rw [hdrop]
        generalize (s.drop q (b.header v)).1 = s₁ at *
        have hused : s₁.used b B = s.used b B := only₁.used B
        rw [← hused] at hl'
        have hcount : ∀ w ∈ s.used b B, s.mark b w ≠ 0 → l.reduceOption.count w < s₁.references b w := by
          intro w hw hw'
          have := hlt w hw hw'
          rw [references₁ w hw]
          split
          · next he =>
            rw [he, List.count_cons_self] at this
            rw [he]
            omega
          · next he => rwa [List.count_cons_of_ne (Ne.symm he)] at this
        have hpos₁ : ∀ w ∈ s.used b B, 0 < s₁.references b w := by
          intro w hw
          rw [references₁ w hw]
          split
          · exact Nat.pos_of_ne_zero hone
          · exact hpos w hw
        obtain ⟨s', hfold, only, references⟩ := ih (only₁.traceMode.trans ht) hl' (hused.symm ▸ hpos₁)
          (by simpa only [hused, mark₁] using hcount)
        refine ⟨s', ?_, only₁.trans only, fun w hw => ?_⟩
        · simp only [State.enqueue, not_invalid hv (hpos v hv), ht, hm', if_false, (by decide : ¬ (3 = 1)),
            (by decide : ¬ (3 = 2)), and_false, hpair]
          exact hfold
        · rw [references w (hused.symm ▸ hw), mark₁, references₁ w hw, List.reduceOption_cons_of_some]
          by_cases he : w = v
          · subst he
            simp only [hm, if_false, if_true, List.count_cons_self]
            omega
          · simp only [he, if_false, List.count_cons_of_ne (Ne.symm he)]

/-! ## Freeing what was not visited -/

theorem Frees.kept_used {L' R' : List Nat} {z : Nat} (h : Frees s s' L R L' R' a z)
    (hv : v ∈ s.used b (L ++ a :: R)) (hne : v ≠ a + b.headerSize) :
    (s'.headers (b.header v)).kept = (s.headers (b.header v)).kept := by
  obtain ⟨hm, hf, hv⟩ := mem_used_iff.mp hv
  apply h.kept _ _ hf
  have hx : b.header v ≠ a := fun he => hne (he ▸ hv.symm)
  simp only [List.mem_append, List.mem_cons] at hm ⊢
  tauto

/-- The used blocks are those that were visited. -/
structure Sweeps (b : Board) (s s' : State) (B B' : List Nat) : Prop where
  blocks : B' ⊆ B
  only : OnlyAt B s s'
  layout : Layout b s' B'
  used : ∀ v, v ∈ s'.used b B' ↔ v ∈ s.used b B ∧ s.mark b v ≠ 0
  kept : ∀ v ∈ s'.used b B', (s'.headers (b.header v)).kept = (s.headers (b.header v)).kept
  contents : s'.contents = s.contents
  initialized : s'.initialized = s.initialized
  traceMode : s'.traceMode = s.traceMode

theorem Sweeps.shrinks (h : Sweeps b s s' B B') : Shrinks b s s' B B' where
  blocks := h.blocks
  only := h.only
  used v hv := ((h.used v).mp hv).1
  size v hv := (congrArg Header.size (h.kept v hv) :)
  kind v hv := (congrArg Header.kind (h.kept v hv) :)
  contents := h.contents
  initialized := h.initialized
  traceMode := h.traceMode

theorem Layout.sweep_end {e : Edge} (h : Layout b s (L ++ [])) (hi : s.initialized = true)
    (hrun : Run b s.headers .start L e) (hL : ∀ x ∈ L, (s.headers x).isFree = false → (s.headers x).gcState ≠ 0) :
    ∃ s' B', State.sweepFrom b n e.address s = .ok s' ∧ Sweeps b s s' (L ++ []) B' := by
  obtain ⟨e₁, run, e', hend, he⟩ := rest_append.mp (h.rest hi)
  obtain rfl : e = e₁ := hrun.unique run
  obtain rfl : e' = e := hend
  refine ⟨s, _, ?_, fun _ hx => hx, .refl, h, fun v => ⟨fun hv => ⟨hv, ?_⟩, fun hv => hv.1⟩, fun _ _ => rfl, rfl, rfl, rfl⟩
  · cases n <;> rw [State.sweepFrom, if_neg (he ▸ Nat.lt_irrefl _)]
  · obtain ⟨hm, hf, -⟩ := mem_used_iff.mp hv
    exact hL _ (by simpa using hm) hf

/-- From the first block of `R` on, the used blocks that were not visited are freed; each of the blocks that are
freed may be joined with the blocks around it. -/
theorem Layout.sweep {e : Edge} (h : Layout b s (L ++ R)) (hi : s.initialized = true)
    (hrun : Run b s.headers .start L e) (hL : ∀ x ∈ L, (s.headers x).isFree = false → (s.headers x).gcState ≠ 0)
    (hn : R.length ≤ n) : ∃ s' B', State.sweepFrom b n e.address s = .ok s' ∧ Sweeps b s s' (L ++ R) B' := by
  induction n generalizing s L R e with
  | zero =>
    obtain rfl : R = [] := List.length_eq_zero_iff.mp (Nat.le_zero.mp hn)
    exact h.sweep_end hi hrun hL
  | succ n ih =>
    cases R with
    | nil => exact h.sweep_end hi hrun hL
    | cons r R =>
      obtain ⟨e₁, run, rest⟩ := rest_append.mp (h.rest hi)
      obtain rfl : e = e₁ := hrun.unique run
      obtain ⟨fits, -⟩ := rest_cons.mp rest
      have address : r = e.address := fits.address
      have hlt : r < b.heapEnd := by
        have := (h.rest hi).bounds (x := r) (by simp)
        omega
      have hn : R.length ≤ n := Nat.le_of_succ_le_succ hn
      rw [← address, State.sweepFrom, if_pos hlt]
      by_cases hdead : (s.headers r).isFree = false ∧ (s.headers r).gcState = 0
      · rw [if_pos hdead]
        obtain ⟨L', R', layout, frees⟩ := h.freeBlock hdead.1
        generalize s.freeBlock b r = freed at *
        have hout : r ∉ L ++ R := (List.nodup_cons.mp (List.nodup_middle.mp h.nodup)).1
        have hi' : freed.1.initialized = true := frees.initialized.trans hi
        have used : ∀ v, v ∈ freed.1.used b (L' ++ freed.2 :: R') ↔ v ∈ s.used b (L ++ r :: R) ∧ v ≠ r + b.headerSize :=
          fun v => frees.used hout
        have kept : ∀ v ∈ freed.1.used b (L' ++ freed.2 :: R'), (freed.1.headers (b.header v)).kept =
            (s.headers (b.header v)).kept := fun v hv => frees.kept_used ((used v).mp hv).1 ((used v).mp hv).2
        have blocks := frees.blocks
        have split : L' ++ freed.2 :: R' = (L' ++ [freed.2]) ++ R' := by simp
        rw [split] at layout used kept blocks
        obtain ⟨e', run', -⟩ := rest_append.mp (layout.rest hi')
        obtain ⟨e₂, run₂, hfits, rfl⟩ := run_append.mp run'
        have hL' : ∀ x ∈ L' ++ [freed.2], (freed.1.headers x).isFree = false → (freed.1.headers x).gcState ≠ 0 := by
          intro x hx hf
          rcases List.mem_append.mp hx with hx | hx
          · have hf' : (s.headers x).isFree = false := (frees.isFree x (List.mem_append_left _ hx)).symm.trans hf
            have hxL := frees.before.subset hx
            have gcState := (congrArg Header.gcState (frees.kept x (List.mem_append_left _ hxL) hf') :)
            exact gcState ▸ hL x hxL hf'
          · rw [List.mem_singleton.mp hx, frees.freed] at hf
            cases hf
        obtain ⟨s', B', hsweep, sweeps⟩ := ih layout hi' run' hL' (Nat.le_trans frees.after.length_le hn)
        refine ⟨s', B', hsweep, fun x hx => blocks (sweeps.blocks hx), frees.only.trans (sweeps.only.mono blocks),
          sweeps.layout, fun v => (sweeps.used v).trans ?_, fun v hv => ?_,
          sweeps.contents.trans frees.contents, sweeps.initialized.trans frees.initialized,
          sweeps.traceMode.trans frees.traceMode⟩
        · have mark : ∀ hv : v ∈ freed.1.used b (L' ++ [freed.2] ++ R'), freed.1.mark b v = s.mark b v := fun hv =>
            (congrArg Header.gcState (kept v hv) :)
          constructor
          · rintro ⟨hv, hm⟩
            exact ⟨((used v).mp hv).1, mark hv ▸ hm⟩
          · rintro ⟨hv, hm⟩
            have hv' := (used v).mpr ⟨hv, ?_⟩
            · exact ⟨hv', (mark hv').symm ▸ hm⟩
            · rintro rfl
              apply hm
              rw [State.mark, Board.header_add, hdead.2]
        · exact (sweeps.kept v hv).trans (kept v ((sweeps.used v).mp hv).1)
      · rw [if_neg hdead]
        have split : L ++ r :: R = (L ++ [r]) ++ R := by simp
        rw [split] at h ⊢
        apply ih h hi (run_append.mpr ⟨e, run, fits, rfl⟩) (fun x hx hf => ?_) hn
        rcases List.mem_append.mp hx with hx | hx
        · exact hL x hx hf
        · obtain rfl := List.mem_singleton.mp hx
          exact fun hm => hdead ⟨hf, hm⟩

/-! ## What the collector keeps -/

theorem Layout.walk (h : Layout b s B) (hi : s.initialized = true)
    (hact : ∀ sq a sq', act sq a = .ok sq' → ∀ x, (sq'.1.headers x).size = (sq.1.headers x).size) :
    State.walk b Prod.fst (State.onUsed p act) b.heapEnd 0 (s, q) = B.foldlM (State.onUsed p act) (s, q) := by
  apply walk_eq (e := .start)
  · intro sq a sq' hvisit x
    rw [State.onUsed] at hvisit
    split at hvisit
    · exact hact sq a sq' hvisit x
    · cases hvisit
      rfl
  · exact h.rest hi
  · exact fun _ => rfl
  · exact h.length_le

theorem destroy_size (h : State.destroy b sq a = .ok sq') (x : Nat) : (sq'.1.headers x).size = (sq.1.headers x).size :=
  (congrArg Header.size ((visits_destroy h).fixed x) :)

theorem set_size {f : Header → Header}
    (h : (.ok (sq.1.set a f, sq.2) : Except Defect (State × Pending)) = .ok sq') (hf : ∀ h, (f h).size = h.size) (x : Nat) :
    (sq'.1.headers x).size = (sq.1.headers x).size := by
  cases h
  dsimp only
  rw [State.set_headers]
  split
  · next he => rw [he, hf]
  · rfl

theorem reduceOption_flatMap {f : Nat → List (Option Nat)} (l : List Nat) :
    (l.flatMap f).reduceOption = l.flatMap fun a => (f a).reduceOption := by
  induction l with
  | nil => rfl
  | cons a l ih => rw [List.flatMap_cons, List.reduceOption_append, ih, List.flatMap_cons]

/-- The used blocks that meet a condition on their marks. -/
def State.marked (b : Board) (s : State) (B : List Nat) (m : Nat → Bool) : List Nat :=
  (s.used b B).filter fun v => m (s.mark b v)

/-- The references that are visited are those in the payloads. -/
theorem visited_references (m : Nat → Bool) :
    ((B.filter fun a => !(s.headers a).isFree && m (s.headers a).gcState).flatMap fun a =>
      s.fields (a + b.headerSize)).reduceOption = (s.marked b B m).flatMap s.held := by
  have hmap : s.marked b B m =
      (B.filter fun a => !(s.headers a).isFree && m (s.headers a).gcState).map fun a => a + b.headerSize := by
    rw [State.marked, State.used, List.filter_map, List.filter_filter]
    congr 1
    apply List.filter_congr
    intro a _
    rw [Function.comp_apply, State.mark, Board.header_add, Bool.and_comm]
  rw [reduceOption_flatMap, hmap, List.flatMap_map]
  rfl

/-- Every used block is said to be held as often as it is held, from wherever. -/
theorem Settled.trace (h : Settled b s roots B) (hi : s.initialized = true) : ∃ s',
    State.walk b Prod.fst State.traceBlock b.heapEnd 0 (s, q) = .ok (s', q) ∧ OnlyTrace B s s' ∧
      s'.traceMode = s.traceMode ∧ ∀ v ∈ s.used b B, s'.outside b v = s.references b v ∧ s'.mark b v = 0 := by
  obtain ⟨s', hfold, headers, bins, contents, initialized, traceMode⟩ := foldlM_set (s := s) (q := q)
    (p := fun _ => true) (f := fun block => { block with gcReferences := block.references, gcState := 0 }) h.layout.nodup
  refine ⟨s', ?_, ⟨fun x hx => ?_, fun x => ?_, bins, contents, initialized⟩, traceMode, fun v hv => ?_⟩
  · rw [← hfold]
    apply h.layout.walk hi
    intro sq a sq' hset
    exact set_size hset fun _ => rfl
  · rw [headers, if_neg fun h => hx h.1]
  · rw [headers]
    split <;> rfl
  · obtain ⟨hm, hf, -⟩ := mem_used_iff.mp hv
    rw [State.outside, State.mark, headers, if_pos ⟨hm, hf, rfl⟩]
    exact ⟨rfl, rfl⟩

theorem onlyTrace_mode (mode : Nat) : OnlyTrace B s { s with traceMode := mode } :=
  ⟨.refl, fun _ => rfl, rfl, rfl, rfl⟩

/-- The references from the payloads are taken off, so those from outside remain. -/
theorem Settled.countBlocks (h : Settled b s roots B) (hc : b.cycles = true) (hi : s.initialized = true)
    (ht : s.traceMode = 1) (hout : ∀ v ∈ s.used b B, s.outside b v = s.references b v) : ∃ s',
    State.walk b Prod.fst (State.countBlock b) b.heapEnd 0 (s, q) = .ok (s', q) ∧ OnlyTrace B s s' ∧ s'.traceMode = 1 ∧
      (∀ v, s'.mark b v = s.mark b v) ∧ ∀ v ∈ s.used b B, s'.outside b v = roots.count v := by
  have hwalk : State.walk b Prod.fst (State.countBlock b) b.heapEnd 0 (s, q) =
      ((B.filter fun a => !(s.headers a).isFree && true).flatMap fun a => s.fields (a + b.headerSize)).foldlM
        (State.enqueue b) (s, q) := by
    rw [State.countBlock, h.layout.walk hi fun _ _ _ => destroy_size]
    exact foldlM_onUsed h.typed fun _ _ _ _ _ _ => rfl
  have hlist := visited_references (b := b) (s := s) (B := B) fun _ => true
  rw [State.marked, List.filter_true] at hlist
  have hl : ∀ v ∈ (s.used b B).flatMap s.held, v ∈ s.used b B := fun v hv => by
    obtain ⟨y, hy, hv⟩ := List.mem_flatMap.mp hv
    exact h.counts.fields y hy v hv
  have hle : ∀ v ∈ s.used b B, ((s.used b B).flatMap s.held).count v ≤ s.outside b v := fun v hv => by
    rw [hout v hv, h.counts.count v hv]
    exact Nat.le_add_left ..
  rw [← hlist] at hl hle
  obtain ⟨s', hfold, only, traceMode, mark, outside⟩ := h.count (q := q) hc ht hl hle
  refine ⟨s', hwalk.trans hfold, only, traceMode, fun v => mark _, fun v hv => ?_⟩
  rw [outside v hv, hlist, hout v hv, h.counts.count v hv]
  exact Nat.add_sub_cancel ..

/-- What is held from outside is found. -/
theorem Settled.rootBlocks (h : Settled b s roots B) (hi : s.initialized = true)
    (hout : ∀ v ∈ s.used b B, s.outside b v = roots.count v) (hmark : ∀ v ∈ s.used b B, s.mark b v = 0) : ∃ s',
    State.walk b Prod.fst State.rootBlock b.heapEnd 0 (s, q) = .ok (s', q) ∧ OnlyTrace B s s' ∧
      s'.traceMode = s.traceMode ∧ ∀ v ∈ s.used b B, s'.mark b v = if v ∈ roots then 1 else 0 := by
  obtain ⟨s', hfold, headers, bins, contents, initialized, traceMode⟩ := foldlM_set (s := s) (q := q)
    (p := fun block => block.gcReferences ≠ 0) (f := fun block => { block with gcState := 1 }) h.layout.nodup
  refine ⟨s', ?_, ⟨fun x hx => ?_, fun x => ?_, bins, contents, initialized⟩, traceMode, fun v hv => ?_⟩
  · rw [← hfold]
    apply h.layout.walk hi
    intro sq a sq' hset
    exact set_size hset fun _ => rfl
  · rw [headers, if_neg fun h => hx h.1]
  · rw [headers]
    split <;> rfl
  · obtain ⟨hm, hf, -⟩ := mem_used_iff.mp hv
    have hcount : (s.headers (b.header v)).gcReferences = roots.count v := hout v hv
    have hzero : (s.headers (b.header v)).gcState = 0 := hmark v hv
    rw [State.mark, headers]
    by_cases hr : v ∈ roots
    · have hpos : roots.count v ≠ 0 := Nat.ne_of_gt (List.count_pos_iff.mpr hr)
      rw [if_pos hr, if_pos ⟨hm, hf, by simpa [hcount] using hpos⟩]
    · rw [if_neg hr, if_neg, hzero]
      rintro ⟨-, -, hne⟩
      rw [hcount, List.count_eq_zero.mpr hr] at hne
      simp at hne

/-- What can be reached is found, and nothing else is. -/
theorem Marking.mark_iff (h : Marking b s roots B) (hnone : ∀ a ∈ B, (s.headers a).isFree = false → (s.headers a).gcState ≠ 1)
    (hv : v ∈ s.used b B) : s.mark b v ≠ 0 ↔ Reached roots s.held v := by
  refine ⟨h.reached v hv, fun hr => ?_⟩
  refine (hr.of_closed (P := fun w => w ∈ s.used b B ∧ s.mark b w ≠ 0) (fun w hw => ?_) fun w hw y hy => ?_).2
  · exact ⟨h.settled.counts.outside w hw, h.outside w hw⟩
  · refine ⟨h.settled.counts.fields w hw.1 y hy, h.visited w hw.1 ?_ y hy⟩
    have hle := h.le w hw.1
    have hne : s.mark b w ≠ 1 := hnone _ (mem_used_iff.mp hw.1).1 (mem_used_iff.mp hw.1).2.1
    have := hw.2
    omega

theorem lasting_dead : Lasting b 3 fun block => block.gcState = 0 := by
  intro sq o sq' ht h x
  cases o with
  | none =>
    cases h
    rfl
  | some v =>
    simp only [State.enqueue, ht] at h
    split at h
    · cases h
    · split at h
      · next hm => exact absurd hm.2 (by decide)
      · split at h
        · next hm => exact absurd hm.2 (by decide)
        · split at h
          · cases h
            rfl
          · cases h
            simp only [drop_headers]

/-- The blocks that were found and the others. -/
theorem marked_perm : (s.used b B).Perm (s.marked b B (fun m => m ≠ 0) ++ s.marked b B fun m => m = 0) := by
  have := (List.filter_append_perm (fun v => decide (s.mark b v ≠ 0)) (s.used b B)).symm
  simpa [State.marked] using this

theorem mem_marked {m : Nat → Bool} : v ∈ s.marked b B m ↔ v ∈ s.used b B ∧ m (s.mark b v) = true := by
  rw [State.marked, List.mem_filter]

/-- What can be reached has a reference that is not given up. -/
theorem Settled.held_alive (h : Settled b s roots B)
    (hmark : ∀ v ∈ s.used b B, s.mark b v ≠ 0 ↔ Reached roots s.held v) (hv : v ∈ s.used b B) (hm : s.mark b v ≠ 0) :
    ((s.marked b B fun m => m = 0).flatMap s.held).count v < s.references b v := by
  rw [h.counts.count v hv, ((marked_perm (b := b) (s := s) (B := B)).flatMap_right s.held).count_eq,
    List.flatMap_append, List.count_append]
  suffices 0 < roots.count v + ((s.marked b B fun m => m ≠ 0).flatMap s.held).count v by omega
  cases (hmark v hv).mp hm with
  | outside hr => exact Nat.add_pos_left (List.count_pos_iff.mpr hr) _
  | @field _ y hy hr =>
    have hu := h.counts.reached_mem hy
    refine Nat.add_pos_right _ (List.count_pos_iff.mpr (List.mem_flatMap.mpr ⟨y, mem_marked.mpr ⟨hu, ?_⟩, hr⟩))
    simpa using (hmark y hu).mpr hy

theorem Settled.deadBlocks (h : Settled b s roots B) (hc : b.cycles = true) (hi : s.initialized = true)
    (ht : s.traceMode = 3) (hmark : ∀ v ∈ s.used b B, s.mark b v ≠ 0 ↔ Reached roots s.held v) : ∃ s',
    State.walk b Prod.fst (State.deadBlock b) b.heapEnd 0 (s, q) = .ok (s', q) ∧ OnlyCounts B s s' ∧
      ∀ v ∈ s.used b B, s.mark b v ≠ 0 →
        s'.references b v = s.references b v - ((s.marked b B fun m => m = 0).flatMap s.held).count v := by
  have hlast : Lasting b s.traceMode fun block => block.gcState = 0 := ht ▸ lasting_dead
  have hwalk : State.walk b Prod.fst (State.deadBlock b) b.heapEnd 0 (s, q) =
      ((B.filter fun a => !(s.headers a).isFree && decide ((s.headers a).gcState = 0)).flatMap fun a =>
        s.fields (a + b.headerSize)).foldlM (State.enqueue b) (s, q) := by
    rw [State.deadBlock, h.layout.walk hi fun _ _ _ => destroy_size]
    exact foldlM_onUsed h.typed hlast
  have hlist := visited_references (b := b) (s := s) (B := B) fun m => m = 0
  have hl : ∀ v ∈ (s.marked b B fun m => m = 0).flatMap s.held, v ∈ s.used b B := fun v hv => by
    obtain ⟨y, hy, hv⟩ := List.mem_flatMap.mp hv
    exact h.counts.fields y (mem_marked.mp hy).1 v hv
  have hlt := fun v hv hm => h.held_alive hmark (v := v) hv hm
  rw [← hlist] at hl hlt ⊢
  obtain ⟨s', hfold, only, references⟩ := giveUp (q := q) hc ht hl h.positive hlt
  refine ⟨s', hwalk.trans hfold, only, fun v hv hm => ?_⟩
  rw [references v hv, if_neg hm]

/-- After the marking what can be reached is marked, and nothing else is. -/
theorem Settled.markBlocks (h : Settled b s roots B) (hc : b.cycles = true) (hi : s.initialized = true)
    (ht : s.traceMode = 2) (hmark : ∀ v ∈ s.used b B, s.mark b v = if v ∈ roots then 1 else 0) : ∃ s',
    State.markFrom b (b.heapEnd + 1) (s, q) = .ok (s', q) ∧ OnlyTrace B s s' ∧
      ∀ v ∈ s.used b B, s'.mark b v ≠ 0 ↔ Reached roots s.held v := by
  have marking : Marking b s roots B := by
    refine ⟨h, ht, fun v hv => ?_, fun v hv => ?_, fun v hv hm => ?_, fun v hv hm => ?_⟩
    · rw [hmark v hv]
      split <;> decide
    · rw [hmark v (h.counts.outside v hv), if_pos hv]
      decide
    · rw [hmark v hv] at hm
      apply Reached.outside
      by_contra hr
      rw [if_neg hr] at hm
      exact hm rfl
    · rw [hmark v hv] at hm
      split at hm <;> cases hm
  have hlen : s.unvisited b B < b.heapEnd + 1 := by
    have hcount := List.countP_le_length (p := fun v => decide (s.mark b v ≠ 2)) (l := s.used b B)
    have hused : (s.used b B).length ≤ B.length := by
      rw [State.used, List.length_map]
      exact List.length_filter_le ..
    have := h.layout.length_le
    rw [State.unvisited]
    omega
  obtain ⟨s', hfold, only, marking', hnone⟩ := marking.markFrom (q := q) hc hi hlen
  refine ⟨s', hfold, only, fun v hv => ?_⟩
  rw [← only.held]
  exact marking'.mark_iff hnone (only.used (b := b) B ▸ hv)

/-- What was found stays, and its counts are those of the references that are left. -/
theorem Settled.swept {s₁ s₂ : State} (h : Settled b s roots B)
    (hmark : ∀ v ∈ s.used b B, s.mark b v ≠ 0 ↔ Reached roots s.held v) (only : OnlyCounts B s s₁)
    (hcounts : ∀ v ∈ s.used b B, s.mark b v ≠ 0 →
      s₁.references b v = s.references b v - ((s.marked b B fun m => m = 0).flatMap s.held).count v)
    (sweeps : Sweeps b s₁ s₂ B B') : Settled b s₂ roots B' ∧ ∀ v ∈ s₂.used b B', Reached roots s₂.held v := by
  have mark : ∀ v, s₁.mark b v = s.mark b v := fun v => (congrArg Header.gcState (only.shape _) :)
  have held : s₂.held = s.held := held_congr (sweeps.contents.trans only.contents)
  have used : ∀ v, v ∈ s₂.used b B' ↔ v ∈ s.used b B ∧ s.mark b v ≠ 0 := fun v => by
    rw [sweeps.used, only.used, mark]
  have perm : (s.marked b B fun m => m ≠ 0).Perm (s₂.used b B') := by
    refine (List.perm_ext_iff_of_nodup ((nodup_used h.layout.nodup).filter _) (nodup_used sweeps.layout.nodup)).mpr fun v => ?_
    rw [used]
    simp
  have exact_live := h.counts.keep marked_perm (fun v hv => ?_) (fun y hy v hv => ?_)
  · have counts : Exact (s₂.references b) roots s₂.held (s₂.used b B') := by
      rw [held]
      apply exact_live.congr perm (List.Perm.refl roots) (fun v hv => ?_) fun _ _ => rfl
      obtain ⟨hv, hm⟩ := mem_marked.mp hv
      have hm : s.mark b v ≠ 0 := by simpa using hm
      rw [← hcounts v hv hm]
      exact (congrArg Header.references (sweeps.kept v ((used v).mpr ⟨hv, hm⟩)) :)
    have reached : ∀ v ∈ s₂.used b B', Reached roots s₂.held v := fun v hv => by
      rw [held]
      exact (hmark v ((used v).mp hv).1).mp ((used v).mp hv).2
    exact ⟨⟨sweeps.layout, sweeps.shrinks.typed (only.typed h.typed), counts, fun v hv => counts.reached_pos (reached v hv)⟩, reached⟩
  · have hu := h.counts.outside v hv
    exact mem_marked.mpr ⟨hu, by simpa using (hmark v hu).mpr (.outside hv)⟩
  · obtain ⟨hy, hm⟩ := mem_marked.mp hy
    have hu := h.counts.fields y hy v hv
    exact mem_marked.mpr ⟨hu, by simpa using (hmark v hu).mpr (.field ((hmark y hy).mp (by simpa using hm)) hv)⟩

/-- The collector frees what cannot be reached and keeps the rest. -/
theorem Settled.collectCycles (h : Settled b s roots B) (hc : b.cycles = true) (hi : s.initialized = true)
    (ht : s.traceMode = 0) : ∃ s' B', s.collectCycles b = .ok s' ∧ Settled b s' roots B' ∧ Shrinks b s s' B B' ∧
      ∀ v ∈ s'.used b B', Reached roots s'.held v := by
  obtain ⟨s₁, trace, only₁, -, traced⟩ := h.trace (q := ⟨none, none⟩) hi
  have only₁ := only₁.trans (onlyTrace_mode 1)
  have used₁ := only₁.used (b := b) B
  obtain ⟨s₂, count, only₂, -, mark₂, outside₂⟩ := (only₁.settled h).countBlocks (q := ⟨none, none⟩) hc
    (only₁.initialized.trans hi) rfl fun v hv => (traced v (used₁ ▸ hv)).1.trans (only₁.references _).symm
  have only₂ := only₁.trans only₂
  have used₂ := only₂.used (b := b) B
  rw [used₁] at outside₂
  obtain ⟨s₃, root, only₃, -, mark₃⟩ := (only₂.settled h).rootBlocks (q := ⟨none, none⟩) (only₂.initialized.trans hi)
    (fun v hv => outside₂ v (used₂ ▸ hv)) fun v hv => (mark₂ v).trans (traced v (used₂ ▸ hv)).2
  have only₃ := only₂.trans (only₃.trans (onlyTrace_mode 2))
  have used₃ := only₃.used (b := b) B
  rw [used₂] at mark₃
  obtain ⟨s₄, marked, only₄, mark₄⟩ := (only₃.settled h).markBlocks (q := ⟨none, none⟩) hc (only₃.initialized.trans hi) rfl
    fun v hv => mark₃ v (used₃ ▸ hv)
  have only₄ := only₃.trans (only₄.trans (onlyTrace_mode 3))
  have used₄ := only₄.used (b := b) B
  rw [used₃, only₃.held, ← only₄.held, ← used₄] at mark₄
  have h₄ := only₄.settled h
  obtain ⟨s₅, dead, only₅, references₅⟩ := h₄.deadBlocks (q := ⟨none, none⟩) hc (only₄.initialized.trans hi) rfl mark₄
  obtain ⟨s₆, B', sweep, sweeps⟩ := (only₅.layout h₄.layout).sweep (L := []) (R := B) (n := b.heapEnd) (e := .start)
    (only₅.initialized.trans (only₄.initialized.trans hi)) rfl (by simp) h₄.layout.length_le
  obtain ⟨settled, reached⟩ := h₄.swept mark₄ only₅ references₅ sweeps
  have only₆ : OnlyTrace B s₆ { s₆ with traceMode := 0 } := onlyTrace_mode 0
  refine ⟨{ s₆ with traceMode := 0 }, B', ?_, only₆.settled settled, ?_, ?_⟩
  · have start : Edge.start.address = 0 := rfl
    rw [start] at sweep
    rw [State.collectCycles, if_neg (by simp [hi, ht])]
    simp only [trace, count, root, marked, dead, sweep, bind, Except.bind]
  · have shrinks := only₅.shrinks.trans sweeps.shrinks
    refine ⟨shrinks.blocks, (only₄.only.trans shrinks.only).trans only₆.only, fun v hv => ?_, fun v hv => ?_,
      fun v hv => ?_, shrinks.contents.trans only₄.contents, shrinks.initialized.trans only₄.initialized, ht.symm⟩
    · exact used₄ ▸ shrinks.used v hv
    · exact (shrinks.size v hv).trans (congrArg Header.size (only₄.untraced _) :)
    · exact (shrinks.kind v hv).trans (congrArg Header.kind (only₄.untraced _) :)
  · rw [only₆.used, only₆.held]
    exact reached

end Emela.Heap
