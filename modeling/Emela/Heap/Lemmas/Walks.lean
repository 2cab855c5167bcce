import Emela.Heap.Lemmas.Release

/-!
# Walks over the blocks
-/

namespace Emela.Heap

open RefCount

variable {b : Board} {s s' s'' : State} {q q' : Pending} {B B' N roots : List Nat} {a x v w n : Nat}
  {l : List (Option Nat)} {o : Option Nat} {sq sq' : State × Pending} {p : Header → Bool}

/-- A walk that does not change the sizes of blocks visits them one after the other. -/
theorem walk_eq {α : Type} {heap : α → State} {visit : α → Nat → Except Defect α} {h : Nat → Header} {e : Edge} {y : α}
    (hv : ∀ y a y', visit y a = .ok y' → ∀ x, ((heap y').headers x).size = ((heap y).headers x).size)
    (hr : Rest b h e B) (hy : ∀ x, ((heap y).headers x).size = (h x).size) (hn : B.length ≤ n) :
    State.walk b heap visit n e.address y = B.foldlM visit y := by
  induction B generalizing n e y with
  | nil =>
    obtain ⟨e', rfl, he⟩ := hr
    have hnot : ¬ e'.address < b.heapEnd := he ▸ Nat.lt_irrefl _
    cases n <;> simp [State.walk, hnot, pure, Except.pure]
  | cons a B ih =>
    obtain ⟨n, rfl⟩ := Nat.exists_eq_add_one.mpr (Nat.lt_of_lt_of_le (by simp) hn)
    obtain ⟨fits, rest⟩ := rest_cons.mp hr
    have hlt : e.address < b.heapEnd := by
      have := hr.bounds List.mem_cons_self
      have := fits.address
      omega
    rw [State.walk, if_pos hlt, ← fits.address, List.foldlM_cons]
    cases hvisit : visit y a with
    | error d => rfl
    | ok y' =>
      have size : ((heap y').headers a).size = (h a).size := (hv y a y' hvisit a).trans (hy a)
      simp only [bind, Except.bind, size]
      exact ih rest (fun x => (hv y a y' hvisit x).trans (hy x)) (Nat.le_of_succ_le_succ hn)

/-- What no visit of a payload changes. -/
def Header.fixed (h : Header) : Header :=
  { h with references := 0, freeNext := none, gcReferences := 0, gcState := 0 }

structure Visits (s s' : State) : Prop where
  fixed : ∀ x, (s'.headers x).fixed = (s.headers x).fixed
  contents : s'.contents = s.contents
  traceMode : s'.traceMode = s.traceMode

theorem Visits.refl : Visits s s := ⟨fun _ => rfl, rfl, rfl⟩

theorem Visits.trans (h : Visits s s') (h' : Visits s' s'') : Visits s s'' :=
  ⟨fun x => (h'.fixed x).trans (h.fixed x), h'.contents.trans h.contents, h'.traceMode.trans h.traceMode⟩

theorem visits_set {f : Header → Header} (hf : ∀ h, (f h).fixed = h.fixed) : Visits s (s.set a f) where
  fixed x := by
    rw [State.set_headers]
    split
    · next he => rw [he, hf]
    · rfl
  contents := rfl
  traceMode := rfl

theorem visits_drop : Visits s (s.drop q a).1 where
  fixed x := by
    rw [drop_headers]
    rfl
  contents := drop_state.2.1
  traceMode := drop_state.2.2.2

theorem visits_enqueue (h : State.enqueue b sq o = .ok sq') : Visits sq.1 sq'.1 := by
  cases o with
  | none =>
    cases h
    exact .refl
  | some v =>
    simp only [State.enqueue] at h
    split at h
    · cases h
    · split at h
      · split at h
        · cases h
        · cases h
          dsimp only
          apply visits_set
          intro h
          rfl
      · split at h
        · cases h
          split
          · dsimp only
            apply visits_set
            intro h
            rfl
          · exact .refl
        · split at h
          · cases h
            exact .refl
          · cases h
            exact visits_drop

theorem visits_enqueueValue (sq : State × Pending) (shape : Shape) (content : Content) : ∀ sq',
    State.enqueueValue b sq shape content = .ok sq' → Visits sq.1 sq'.1 := by
  apply State.enqueueValue.induct
    (fun sq shape content => ∀ sq', State.enqueueValue b sq shape content = .ok sq' → Visits sq.1 sq'.1)
    (fun byDefault sq shapes tag content => ∀ sq', (byDefault = .ok sq' → Visits sq.1 sq'.1) →
      State.enqueueCase b byDefault sq shapes tag content = .ok sq' → Visits sq.1 sq'.1)
    (fun sq shapes contents => ∀ sq', State.enqueueFields b sq shapes contents = .ok sq' → Visits sq.1 sq'.1)
  · intro sq value sq' h
    exact visits_enqueue h
  · intro sq fields contents ih sq' h
    exact ih sq' h
  · intro sq cases tag content ih sq' h
    apply ih sq' _ h
    intro hd
    cases hd
    exact .refl
  · intro sq cases tag content ih sq' h
    apply ih sq' _ h
    intro hd
    cases hd
  · intro shape sq content h₁ h₂ h₃ h₄ sq' h
    rw [State.enqueueValue] at h
    · cases h
      exact .refl
    · exact h₁
    · exact h₂
    · exact h₃
    · exact h₄
  · intro byDefault sq tag content sq' hd h
    exact hd h
  · intro byDefault sq shape shapes content ih sq' hd h
    exact ih sq' h
  · intro byDefault sq shape shapes tag content ih sq' hd h
    exact ih sq' hd h
  · intro sq shape shapes content contents ihValue ihFields sq' h
    rw [State.enqueueFields] at h
    cases he : State.enqueueValue b sq shape content with
    | error d =>
      rw [he] at h
      cases h
    | ok sq₁ =>
      rw [he] at h
      exact (ihValue sq₁ he).trans (ihFields sq₁ sq' h)
  · intro shapes sq contents hne sq' h
    rw [State.enqueueFields] at h
    · cases h
      exact .refl
    · exact hne

theorem visits_destroy (h : State.destroy b sq a = .ok sq') : Visits sq.1 sq'.1 := by
  rw [State.destroy] at h
  split at h
  · cases h
  · exact visits_enqueueValue sq _ _ sq' h

theorem visits_enqueueAll (h : l.foldlM (State.enqueue b) sq = .ok sq') : Visits sq.1 sq'.1 := by
  induction l generalizing sq with
  | nil =>
    cases h
    exact .refl
  | cons o l ih =>
    rw [List.foldlM_cons] at h
    cases he : State.enqueue b sq o with
    | error d =>
      rw [he] at h
      cases h
    | ok sq₁ =>
      rw [he] at h
      exact (visits_enqueue he).trans (ih h)

/-- A condition on headers that no visit changes. -/
def Lasting (b : Board) (mode : Nat) (p : Header → Bool) : Prop :=
  ∀ sq o sq', sq.1.traceMode = mode → State.enqueue b sq o = .ok sq' → ∀ x, p (sq'.1.headers x) = p (sq.1.headers x)

theorem Lasting.all {mode : Nat} (h : Lasting b mode p) (ht : sq.1.traceMode = mode)
    (hl : l.foldlM (State.enqueue b) sq = .ok sq') (x : Nat) : p (sq'.1.headers x) = p (sq.1.headers x) := by
  induction l generalizing sq with
  | nil =>
    cases hl
    rfl
  | cons o l ih =>
    rw [List.foldlM_cons] at hl
    cases he : State.enqueue b sq o with
    | error d =>
      rw [he] at hl
      cases hl
    | ok sq₁ =>
      rw [he] at hl
      rw [ih ((visits_enqueue he).traceMode.trans ht) hl, h sq o sq₁ ht he x]

theorem Typed.fits (h : Typed b s B) (ha : a ∈ B) (hf : (s.headers a).isFree = false) :
    b.fits (s.headers a).kind (s.contents (a + b.headerSize)) = true := by
  have := h _ (mem_used.mpr ⟨a, ha, hf, rfl⟩)
  rwa [Board.header_add] at this

/-- The payloads of the blocks that meet a lasting condition are visited as one list of references. -/
theorem foldlM_onUsed (hs : Typed b s B) (hp : Lasting b s.traceMode p) :
    B.foldlM (State.onUsed p (State.destroy b)) (s, q) =
      ((B.filter fun a => !(s.headers a).isFree && p (s.headers a)).flatMap fun a => s.fields (a + b.headerSize)).foldlM
        (State.enqueue b) (s, q) := by
  suffices ∀ B₁ ⊆ B, ∀ t q, Visits s t → (∀ x, p (t.headers x) = p (s.headers x)) →
      B₁.foldlM (State.onUsed p (State.destroy b)) (t, q) =
        ((B₁.filter fun a => !(s.headers a).isFree && p (s.headers a)).flatMap fun a => s.fields (a + b.headerSize)).foldlM
          (State.enqueue b) (t, q) from this B (fun _ hx => hx) s q .refl fun _ => rfl
  intro B₁ hB
  induction B₁ with
  | nil => exact fun _ _ _ _ => rfl
  | cons a B₁ ih =>
    intro t q visits hpt
    obtain ⟨ha, hB⟩ := List.cons_subset.mp hB
    have isFree : (t.headers a).isFree = (s.headers a).isFree := (congrArg Header.isFree (visits.fixed a) :)
    have kind : (t.headers a).kind = (s.headers a).kind := (congrArg Header.kind (visits.fixed a) :)
    rw [List.foldlM_cons, List.filter_cons, State.onUsed]
    by_cases hc : (s.headers a).isFree = false ∧ p (s.headers a) = true
    · have fits : b.fits (t.headers a).kind (t.contents (a + b.headerSize)) = true := by
        rw [kind, visits.contents]
        exact hs.fits ha hc.1
      have fields : t.fields = s.fields := by
        funext v
        rw [State.fields, State.fields, visits.contents]
      rw [if_pos (by rw [isFree, hpt]; exact hc), if_pos (by simp [hc]), List.flatMap_cons, List.foldlM_append,
        destroy_eq fits, fields]
      cases hvisit : (s.fields (a + b.headerSize)).foldlM (State.enqueue b) (t, q) with
      | error d => rfl
      | ok sq' => exact ih hB sq'.1 sq'.2 (visits.trans (visits_enqueueAll hvisit)) fun x =>
          (hp.all visits.traceMode hvisit x).trans (hpt x)
    · rw [if_neg (by rw [isFree, hpt]; exact hc), if_neg (by simpa using hc)]
      exact ih hB t q visits hpt

/-- Headers of used blocks that meet a condition are changed. -/
theorem foldlM_set {f : Header → Header} (hB : B.Nodup) : ∃ s',
    B.foldlM (State.onUsed p fun sq a => .ok (sq.1.set a f, sq.2)) (s, q) = .ok (s', q) ∧
    (∀ x, s'.headers x = if x ∈ B ∧ (s.headers x).isFree = false ∧ p (s.headers x) = true then f (s.headers x)
      else s.headers x) ∧
    s'.bins = s.bins ∧ s'.contents = s.contents ∧ s'.initialized = s.initialized ∧ s'.traceMode = s.traceMode := by
  induction B generalizing s with
  | nil => exact ⟨s, rfl, by simp, rfl, rfl, rfl, rfl⟩
  | cons a B ih =>
    obtain ⟨ha, hB⟩ := List.nodup_cons.mp hB
    rw [List.foldlM_cons]
    by_cases hp : (s.headers a).isFree = false ∧ p (s.headers a) = true
    · obtain ⟨s', hfold, headers, bins, fields, initialized, traceMode⟩ := ih (s := s.set a f) hB
      refine ⟨s', ?_, fun x => ?_, bins, fields, initialized, traceMode⟩
      · rw [State.onUsed, if_pos hp]
        exact hfold
      · rw [headers]
        by_cases hx : x = a
        · subst hx
          simp [ha, hp]
        · simp [State.set_of_ne hx, hx]
    · obtain ⟨s', hfold, headers, rest⟩ := ih (s := s) hB
      refine ⟨s', ?_, fun x => ?_, rest⟩
      · rw [State.onUsed, if_neg hp]
        exact hfold
      · rw [headers]
        by_cases hx : x = a
        · subst hx
          simp [ha, hp]
        · simp [hx]

/-! ## The marks of the collector -/

/-- `gc_references` of a payload. -/
def State.outside (b : Board) (s : State) (v : Nat) : Nat := (s.headers (b.header v)).gcReferences

/-- `gc_state` of a payload: 0 until it is found, 1 until it is visited, then 2. -/
def State.mark (b : Board) (s : State) (v : Nat) : Nat := (s.headers (b.header v)).gcState

def Header.untraced (h : Header) : Header := { h with gcReferences := 0, gcState := 0 }

/-- Only what belongs to the collector differs. -/
structure OnlyTrace (B : List Nat) (s s' : State) : Prop where
  only : OnlyAt B s s'
  untraced : ∀ x, (s'.headers x).untraced = (s.headers x).untraced
  bins : s'.bins = s.bins
  contents : s'.contents = s.contents
  initialized : s'.initialized = s.initialized

theorem OnlyTrace.refl : OnlyTrace B s s := ⟨.refl, fun _ => rfl, rfl, rfl, rfl⟩

theorem OnlyTrace.trans (h : OnlyTrace B s s') (h' : OnlyTrace B s' s'') : OnlyTrace B s s'' :=
  ⟨h.only.trans h'.only, fun x => (h'.untraced x).trans (h.untraced x), h'.bins.trans h.bins,
    h'.contents.trans h.contents, h'.initialized.trans h.initialized⟩

theorem OnlyTrace.isFree (h : OnlyTrace B s s') (x : Nat) : (s'.headers x).isFree = (s.headers x).isFree :=
  (congrArg Header.isFree (h.untraced x) :)

theorem OnlyTrace.references (h : OnlyTrace B s s') (x : Nat) : (s'.headers x).references = (s.headers x).references :=
  (congrArg Header.references (h.untraced x) :)

theorem OnlyTrace.used (h : OnlyTrace B s s') (B' : List Nat) : s'.used b B' = s.used b B' := by
  simp only [State.used, h.isFree]

theorem OnlyTrace.held (h : OnlyTrace B s s') : s'.held = s.held := held_congr h.contents

theorem OnlyTrace.settled (h : OnlyTrace B' s s') (hs : Settled b s roots B) : Settled b s' roots B where
  layout := hs.layout.congr h.initialized h.bins fun x _ => ⟨(congrArg Header.tile (h.untraced x) :), fun _ =>
    ⟨(congrArg Header.freeNext (h.untraced x) :), (congrArg Header.freePrevious (h.untraced x) :)⟩⟩
  typed v hv := by
    rw [h.used] at hv
    have kind : (s'.headers (b.header v)).kind = (s.headers (b.header v)).kind :=
      (congrArg Header.kind (h.untraced _) :)
    rw [h.contents, kind]
    exact hs.typed v hv
  counts := by
    rw [h.used, h.held]
    exact hs.counts.congr (List.Perm.refl _) (List.Perm.refl _) (fun v _ => h.references _) fun _ _ => rfl
  positive v hv := by
    rw [h.used] at hv
    exact Nat.lt_of_lt_of_eq (hs.positive v hv) (h.references _).symm

theorem onlyTrace_set {f : Header → Header} (ha : a ∈ B) (hf : ∀ h, (f h).untraced = h.untraced) :
    OnlyTrace B s (s.set a f) where
  only := onlyAt_set ha
  untraced x := by
    rw [State.set_headers]
    split
    · next he => rw [he, hf]
    · rfl
  bins := rfl
  contents := rfl
  initialized := rfl

theorem not_invalid (hv : v ∈ s.used b B) (hr : 0 < s.references b v) :
    ¬ ((s.headers (b.header v)).isFree = true ∨ (s.headers (b.header v)).references = 0) := by
  rintro (h | h)
  · rw [(mem_used_iff.mp hv).2.1] at h
    cases h
  · exact Nat.ne_of_gt hr h

theorem mark_set_of_ne {f : Header → Header} (hv : v ∈ s.used b B) (hw : w ∈ s.used b B) (hne : w ≠ v) :
    (s.set (b.header v) f).mark b w = s.mark b w := by
  rw [State.mark, State.set_of_ne fun he => hne (header_inj hw hv he), State.mark]

/-! ## Counting -/

/-- In the first mode references are taken off, if there are as many. -/
theorem Settled.count (h : Settled b s roots B) (hc : b.cycles = true) (ht : s.traceMode = 1)
    (hl : ∀ v ∈ l.reduceOption, v ∈ s.used b B) (hle : ∀ v ∈ s.used b B, l.reduceOption.count v ≤ s.outside b v) :
    ∃ s', l.foldlM (State.enqueue b) (s, q) = .ok (s', q) ∧ OnlyTrace B s s' ∧ s'.traceMode = 1 ∧
      (∀ x, (s'.headers x).gcState = (s.headers x).gcState) ∧
      ∀ v ∈ s.used b B, s'.outside b v = s.outside b v - l.reduceOption.count v := by
  induction l generalizing s with
  | nil => exact ⟨s, rfl, .refl, ht, fun _ => rfl, fun _ _ => rfl⟩
  | cons o l ih =>
    cases o with
    | none => exact ih h ht hl hle
    | some v =>
      rw [List.reduceOption_cons_of_some] at hl hle
      have hv : v ∈ s.used b B := hl v List.mem_cons_self
      have hpos : ¬ (s.headers (b.header v)).gcReferences = 0 := by
        have := hle v hv
        rw [List.count_cons_self] at this
        exact Nat.ne_of_gt (Nat.lt_of_lt_of_le (Nat.succ_pos _) this)
      generalize hs₁ : (s.set (b.header v) fun block => { block with gcReferences := block.gcReferences - 1 }) = s₁
      have only : OnlyTrace B s s₁ := by
        rw [← hs₁]
        apply onlyTrace_set (mem_used_iff.mp hv).1
        intro h
        rfl
      have outside : ∀ w ∈ s.used b B, s₁.outside b w = if w = v then s.outside b w - 1 else s.outside b w := by
        intro w hw
        rw [← hs₁, State.outside]
        split
        · next he =>
          rw [he, State.set_self]
          rfl
        · next he =>
          rw [State.set_of_ne fun hh => he (header_inj hw hv hh)]
          rfl
      have hl₁ : ∀ w ∈ l.reduceOption, w ∈ s₁.used b B := fun w hw =>
        only.used (b := b) B ▸ hl w (List.mem_cons_of_mem v hw)
      have hle₁ : ∀ w ∈ s₁.used b B, l.reduceOption.count w ≤ s₁.outside b w := by
        intro w hw
        rw [only.used] at hw
        have := hle w hw
        rw [outside w hw]
        split
        · next he =>
          rw [he, List.count_cons_self] at this
          rw [he]
          omega
        · next he => rwa [List.count_cons_of_ne (Ne.symm he)] at this
      obtain ⟨s', hfold, only', traceMode, gcState, count⟩ := ih (only.settled h) (by rw [← hs₁]; exact ht) hl₁ hle₁
      refine ⟨s', ?_, only.trans only', traceMode, fun x => ?_, fun w hw => ?_⟩
      · rw [List.foldlM_cons]
        simp only [State.enqueue, not_invalid hv (h.positive v hv), hc, ht, hpos, if_false, true_and, if_true, bind,
          Except.bind, hs₁]
        exact hfold
      · rw [gcState, ← hs₁, State.set_headers]
        split
        · next he => rw [he]
        · rfl
      · rw [count w (only.used (b := b) B ▸ hw), outside w hw, List.reduceOption_cons_of_some]
        split
        · next he =>
          rw [he, List.count_cons_self]
          omega
        · next he => rw [List.count_cons_of_ne (Ne.symm he)]

/-! ## Marking -/

/-- In the second mode what was not found is found. -/
theorem Settled.find (h : Settled b s roots B) (hc : b.cycles = true) (ht : s.traceMode = 2)
    (hl : ∀ v ∈ l.reduceOption, v ∈ s.used b B) :
    ∃ s', l.foldlM (State.enqueue b) (s, q) = .ok (s', q) ∧ OnlyTrace B s s' ∧ s'.traceMode = 2 ∧
      ∀ v ∈ s.used b B, s'.mark b v = if s.mark b v = 0 ∧ v ∈ l.reduceOption then 1 else s.mark b v := by
  induction l generalizing s with
  | nil => exact ⟨s, rfl, .refl, ht, fun _ _ => by simp⟩
  | cons o l ih =>
    cases o with
    | none => exact ih h ht hl
    | some v =>
      rw [List.reduceOption_cons_of_some] at hl
      have hv : v ∈ s.used b B := hl v List.mem_cons_self
      generalize hs₁ : (if (s.headers (b.header v)).gcState = 0
        then s.set (b.header v) fun block => { block with gcState := 1 } else s) = s₁
      have only : OnlyTrace B s s₁ := by
        rw [← hs₁]
        split
        · apply onlyTrace_set (mem_used_iff.mp hv).1
          intro h
          rfl
        · exact .refl
      have traceMode : s₁.traceMode = 2 := by
        rw [← hs₁]
        split <;> exact ht
      have mark : ∀ w ∈ s.used b B, s₁.mark b w = if s.mark b w = 0 ∧ w = v then 1 else s.mark b w := by
        intro w hw
        rw [← hs₁]
        by_cases hz : (s.headers (b.header v)).gcState = 0
        · rw [if_pos hz]
          by_cases he : w = v
          · subst he
            rw [if_pos ⟨hz, rfl⟩, State.mark, State.set_self]
          · rw [if_neg (by simp [he]), mark_set_of_ne hv hw he]
        · rw [if_neg hz, if_neg]
          rintro ⟨hm, rfl⟩
          exact hz hm
      obtain ⟨s', hfold, only', traceMode', marks⟩ := ih (only.settled h) traceMode fun w hw =>
        only.used (b := b) B ▸ hl w (List.mem_cons_of_mem v hw)
      refine ⟨s', ?_, only.trans only', traceMode', fun w hw => ?_⟩
      · rw [List.foldlM_cons]
        simp only [State.enqueue, not_invalid hv (h.positive v hv), hc, ht, if_false, true_and, if_true, bind,
          Except.bind, hs₁, (by decide : ¬ (2 = 1)), and_false]
        exact hfold
      · rw [marks w (only.used (b := b) B ▸ hw), mark w hw]
        by_cases hm : s.mark b w = 0
        · by_cases he : w = v
          · subst he
            simp [hm, List.reduceOption_cons_of_some]
          · simp [hm, he, List.reduceOption_cons_of_some]
        · simp [hm]

/-- The marks while blocks are found and visited. -/
structure Marking (b : Board) (s : State) (roots B : List Nat) : Prop where
  settled : Settled b s roots B
  traceMode : s.traceMode = 2
  le : ∀ v ∈ s.used b B, s.mark b v ≤ 2
  outside : ∀ v ∈ roots, s.mark b v ≠ 0
  reached : ∀ v ∈ s.used b B, s.mark b v ≠ 0 → Reached roots s.held v
  visited : ∀ v ∈ s.used b B, s.mark b v = 2 → ∀ w ∈ s.held v, s.mark b w ≠ 0

/-- How many used blocks are not visited. -/
def State.unvisited (b : Board) (s : State) (B : List Nat) : Nat := (s.used b B).countP fun v => s.mark b v ≠ 2

theorem countP_lt {α : Type} {p p' : α → Bool} {l : List α} {y : α} (hle : ∀ z ∈ l, p z = true → p' z = true) (hy : y ∈ l)
    (hp : p y = false) (hp' : p' y = true) : l.countP p < l.countP p' := by
  obtain ⟨l₁, l₂, rfl⟩ := List.append_of_mem hy
  have le₁ := List.countP_mono_left (l := l₁) (p := p) (q := p') fun z hz => hle z (by simp [hz])
  have le₂ := List.countP_mono_left (l := l₂) (p := p) (q := p') fun z hz => hle z (by simp [hz])
  simp only [List.countP_append, List.countP_cons, hp, hp']
  simp only [Bool.false_eq_true, if_false, if_true]
  omega

theorem Marking.markBlock (h : Marking b s roots B) (hc : b.cycles = true) (ha : a ∈ B) (changed : Bool) :
    (State.markBlock b ((s, q), changed) a = .ok ((s, q), changed) ∧
      ((s.headers a).isFree = false → (s.headers a).gcState ≠ 1)) ∨
    ∃ s', State.markBlock b ((s, q), changed) a = .ok ((s', q), true) ∧ OnlyTrace B s s' ∧ Marking b s' roots B ∧
      s'.unvisited b B < s.unvisited b B := by
  by_cases hm : (s.headers a).isFree = false ∧ (s.headers a).gcState = 1
  · refine .inr ?_
    have hv : a + b.headerSize ∈ s.used b B := mem_used.mpr ⟨a, ha, hm.1, rfl⟩
    have header : b.header (a + b.headerSize) = a := b.header_add
    generalize hva : a + b.headerSize = v at *
    generalize hs₁ : (s.set a fun block => { block with gcState := 2 }) = s₁
    have only₁ : OnlyTrace B s s₁ := by
      rw [← hs₁]
      apply onlyTrace_set ha
      intro h
      rfl
    have mark₁ : ∀ w ∈ s.used b B, s₁.mark b w = if w = v then 2 else s.mark b w := by
      intro w hw
      rw [← hs₁]
      split
      · next he => rw [he, State.mark, header, State.set_self]
      · next he => rw [← header, mark_set_of_ne hv hw he]
    have hl : ∀ w ∈ (s.fields v).reduceOption, w ∈ s₁.used b B := fun w hw =>
      only₁.used (b := b) B ▸ h.settled.counts.fields v hv w hw
    obtain ⟨s', hfold, only', traceMode, mark'⟩ := (only₁.settled h.settled).find (q := q) hc (by rw [← hs₁]; exact h.traceMode) hl
    have only := only₁.trans only'
    have used : s'.used b B = s.used b B := only.used B
    have mark : ∀ w ∈ s.used b B, s'.mark b w =
        if w = v then 2 else if s.mark b w = 0 ∧ w ∈ s.held v then 1 else s.mark b w := by
      intro w hw
      rw [mark' w (only₁.used (b := b) B ▸ hw), mark₁ w hw]
      by_cases he : w = v
      · simp [he]
      · simp only [he, if_false]
        rfl
    have found : ∀ w ∈ s.used b B, s.mark b w ≠ 0 → s'.mark b w ≠ 0 := fun w hw hw' => by
      rw [mark w hw]
      split
      · decide
      · simp [hw']
    have hv₁ : s.mark b v = 1 := by rw [State.mark, header, hm.2]
    have reached : Reached roots s.held v := h.reached v hv (by rw [hv₁]; decide)
    have closed := h.settled.counts.fields
    refine ⟨s', ?_, only, ⟨only.settled h.settled, traceMode, fun w hw => ?_, fun w hw => ?_, fun w hw hw' => ?_,
      fun w hw hw' y hy => ?_⟩, ?_⟩
    · rw [State.markBlock, if_pos hm]
      have fits : b.fits (s₁.headers a).kind (s₁.contents (a + b.headerSize)) = true :=
        (only₁.settled h.settled).typed.fits ha ((only₁.isFree a).trans hm.1)
      have fields : s₁.fields = s.fields := by
        rw [← hs₁]
        rfl
      simp only [hs₁, destroy_eq fits, hva, fields, hfold]
      rfl
    · rw [used] at hw
      rw [mark w hw]
      have := h.le w hw
      split
      · exact Nat.le_refl 2
      · split
        · decide
        · exact this
    · exact found w (h.settled.counts.outside w hw) (h.outside w hw)
    · rw [used] at hw
      rw [only.held]
      rw [mark w hw] at hw'
      by_cases he : w = v
      · exact he ▸ reached
      · by_cases hf : s.mark b w = 0 ∧ w ∈ s.held v
        · exact .field reached hf.2
        · rw [if_neg he, if_neg hf] at hw'
          exact h.reached w hw hw'
    · rw [used] at hw
      rw [only.held] at hy
      have hy' := closed w hw y hy
      by_cases he : w = v
      · subst he
        rw [mark y hy']
        split
        · decide
        · split
          · decide
          · next hf => exact fun hz => hf ⟨hz, hy⟩
      · rw [mark w hw, if_neg he] at hw'
        apply found y hy'
        split at hw'
        · cases hw'
        · exact h.visited w hw hw' y hy
    · rw [State.unvisited, State.unvisited, used]
      apply countP_lt (y := v)
      · intro w hw hne
        simp only [decide_eq_true_eq] at hne ⊢
        intro he
        rw [mark w hw] at hne
        split at hne
        · exact hne rfl
        · simp [he] at hne
      · exact hv
      · simp [mark v hv]
      · simp [hv₁]
  · refine .inl ⟨?_, fun hf hg => hm ⟨hf, hg⟩⟩
    rw [State.markBlock]
    exact if_neg hm

/-- A pass over blocks visits one or finds that there is none to visit. -/
theorem Marking.markPass {B₁ : List Nat} (h : Marking b s roots B) (hc : b.cycles = true) (hB : ∀ a ∈ B₁, a ∈ B)
    (changed : Bool) : ∃ s' changed', B₁.foldlM (State.markBlock b) ((s, q), changed) = .ok ((s', q), changed') ∧
      OnlyTrace B s s' ∧ Marking b s' roots B ∧
      ((changed' = changed ∧ s' = s ∧ ∀ a ∈ B₁, (s.headers a).isFree = false → (s.headers a).gcState ≠ 1) ∨
        changed' = true ∧ s'.unvisited b B < s.unvisited b B) := by
  induction B₁ generalizing s changed with
  | nil => exact ⟨s, changed, rfl, .refl, h, .inl ⟨rfl, rfl, by simp⟩⟩
  | cons a B₁ ih =>
    have hB₁ : ∀ x ∈ B₁, x ∈ B := fun x hx => hB x (List.mem_cons_of_mem a hx)
    simp only [List.foldlM_cons]
    rcases h.markBlock (q := q) hc (hB a List.mem_cons_self) changed with
      ⟨hblock, hnot⟩ | ⟨s₁, hblock, only, h₁, hlt⟩
    · obtain ⟨s', changed', hfold, only, h', hcase⟩ := ih h hB₁ changed
      refine ⟨s', changed', by rw [hblock]; exact hfold, only, h', ?_⟩
      rcases hcase with ⟨hchanged, hs, hnone⟩ | hcase
      · refine .inl ⟨hchanged, hs, fun x hx => ?_⟩
        rcases List.mem_cons.mp hx with rfl | hx
        · exact hnot
        · exact hnone x hx
      · exact .inr hcase
    · obtain ⟨s', changed', hfold, only', h', hcase⟩ := ih h₁ hB₁ true
      refine ⟨s', changed', by rw [hblock]; exact hfold, only.trans only', h', .inr ?_⟩
      rcases hcase with ⟨hchanged, rfl, -⟩ | ⟨hchanged, hlt'⟩
      · exact ⟨hchanged, hlt⟩
      · exact ⟨hchanged, Nat.lt_trans hlt' hlt⟩

theorem visits_markBlock {y y' : (State × Pending) × Bool} (h : State.markBlock b y a = .ok y') :
    Visits y.1.1 y'.1.1 := by
  rw [State.markBlock] at h
  split at h
  · cases hd : State.destroy b (y.1.1.set a fun block => { block with gcState := 2 }, y.1.2) a with
    | error d =>
      rw [hd] at h
      cases h
    | ok sq =>
      rw [hd] at h
      cases h
      refine Visits.trans ?_ (visits_destroy hd)
      dsimp only
      apply visits_set
      intro h
      rfl
  · cases h
    exact .refl

/-- The loop over passes ends when nothing is to be visited. -/
theorem Marking.markFrom (h : Marking b s roots B) (hc : b.cycles = true) (hi : s.initialized = true)
    (hn : s.unvisited b B < n) : ∃ s', State.markFrom b n (s, q) = .ok (s', q) ∧ OnlyTrace B s s' ∧
      Marking b s' roots B ∧ ∀ a ∈ B, (s'.headers a).isFree = false → (s'.headers a).gcState ≠ 1 := by
  induction n generalizing s with
  | zero => simp at hn
  | succ n ih =>
    have hwalk : State.walk b (fun y => y.1.1) (State.markBlock b) b.heapEnd 0 ((s, q), false) =
        B.foldlM (State.markBlock b) ((s, q), false) := by
      apply walk_eq (e := .start)
      · exact fun _ _ _ hy x => (congrArg Header.size ((visits_markBlock hy).fixed x) :)
      · exact h.settled.layout.rest hi
      · exact fun _ => rfl
      · exact h.settled.layout.length_le
    obtain ⟨s₁, changed, hfold, only, h₁, hcase⟩ := h.markPass (q := q) hc (fun a ha => ha) false
    rw [State.markFrom, hwalk, hfold]
    simp only [bind, Except.bind]
    rcases hcase with ⟨rfl, rfl, hnone⟩ | ⟨rfl, hlt⟩
    · exact ⟨_, rfl, only, h₁, hnone⟩
    · obtain ⟨s', hmark, only', h', hnone⟩ := ih h₁ (only.initialized.trans hi) (by omega)
      exact ⟨s', hmark, only.trans only', h', hnone⟩

end Emela.Heap
