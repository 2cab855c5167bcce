import Emela.Runtime.Lemmas.Flow

/-!
# What a request is answered with
-/

namespace Emela.Runtime

def Input.isInterruption : Input → Bool
  | .throw (.interrupted _) => true
  | .throw (.defect _) | .next _ => false

structure Passing (s : State) (tasks : List Task) : Prop where
  fresh : ∀ w, s.nextWait ≤ w →
    s.passed w = none ∧ s.resumed w = false ∧ s.dropped w = false ∧ s.overtaken w = false
  once : ∀ w, (s.received w).length ≤ 1
  used : ∀ w, (s.op w).used = (s.passed w).isSome
  resumed : ∀ w, s.resumed w → (s.op w).used
  now : ∀ w, (s.op w).sync → (s.op w).now = s.passed w
  synced : ∀ w, (s.op w).sync → s.suspended w = false
  unpassed : ∀ w, (s.wait w).performs → s.live w → s.suspended w → s.passed w = none
  dropped : ∀ w, s.dropped w → s.live w = false ∧ s.suspended w
  tooLate : ∀ w, (s.wait w).performs → s.dropped w → (s.passed w).isSome → s.tooLate w
  overtaken : ∀ w, s.overtaken w → s.dropped w = false ∧ s.live w = false ∧ s.suspended w ∧
    ((s.wait w).performs → (s.passed w).isSome)
  resume : ∀ w inp, .resume w inp ∈ tasks →
    s.dropped w = false ∧ s.overtaken w = false ∧ ((s.wait w).performs → s.passed w = some inp)
  thrown : ∀ t ∈ tasks, ∀ w, t.wait = some w → (∀ v inp, t ≠ .resume v inp) → s.dropped w ∨ s.overtaken w
  received : ∀ w, (s.wait w).performs → ∀ inp ∈ s.received w,
    s.passed w = some inp ∧ s.dropped w = false ∧ s.overtaken w = false ∨
      inp.isInterruption ∧ (s.dropped w ∨ s.overtaken w)
  droppedReceived : ∀ w, s.dropped w → ∀ inp ∈ s.received w, inp.isInterruption

variable {s : State} {tasks tasks' : List Task} {w : WaitId} {t : Task} {g : GenId} {ends : End} {rest : List Act}
  {inp : Input}

/-- What the continuation of a task may be continued with. -/
def Task.gives (t : Task) (inp : Input) : Prop :=
  (∃ w, t = .resume w inp) ∨ inp.isInterruption ∧ ∀ v inp, t ≠ .resume v inp

namespace Passing

theorem subset (h : Passing s tasks) (hs : tasks' ⊆ tasks) : Passing s tasks' :=
  { h with
    resume := fun w inp hw => h.resume w inp (hs hw)
    thrown := fun t ht => h.thrown t (hs ht) }

/-- A task that does not continue a continuation. -/
theorem cons (h : Passing s tasks) (ht : t.wait = none) : Passing s (t :: tasks) :=
  { h with
    resume := by have := h.resume; grind [Task.wait]
    thrown := by have := h.thrown; grind }

/-- A continuation that is no caller is taken back to be continued. -/
theorem unwait (h : Passing s tasks) (hl : s.live w) (hp : (s.wait w).performs = false) (inp : Input) :
    Passing (s.unwait w) (.resume w inp :: tasks) :=
  { h with
    unpassed := by have := h.unpassed; dsimp only [State.unwait]; grind [Function.update_apply]
    dropped := by have := h.dropped; dsimp only [State.unwait]; grind [Function.update_apply]
    overtaken := by have := h.overtaken; dsimp only [State.unwait]; grind [Function.update_apply]
    resume := by
      have := h.resume
      have := h.dropped w
      have := h.overtaken w
      dsimp only [State.unwait]; grind
    thrown := by have := h.thrown; dsimp only [State.unwait]; grind }

/-- The continuation was taken back to be interrupted. -/
theorem drop (h : Passing s tasks) (hf : Flow s tasks) (hl : s.live w) (hs : s.suspended w)
    (htw : t.wait = some w) (ht : ∀ w inp, t ≠ .resume w inp) :
    Passing { s.unwait w with dropped := Function.update s.dropped w true } (t :: tasks) := by
  have hover := h.overtaken w
  have hresuming := @hf.resuming
  have hrec := (hf.paused _ w (hf.live w hl hs)).2.1
  exact { h with
    fresh := by
      have := h.fresh
      have := hf.lt hs
      dsimp only [State.unwait]; grind [Function.update_apply]
    unpassed := by have := h.unpassed; dsimp only [State.unwait]; grind [Function.update_apply]
    dropped := by have := h.dropped; dsimp only [State.unwait]; grind [Function.update_apply]
    tooLate := by
      have := h.tooLate
      have := h.unpassed w
      dsimp only [State.unwait]; grind [Function.update_apply]
    overtaken := by have := h.overtaken; dsimp only [State.unwait]; grind [Function.update_apply]
    resume := by have := h.resume; dsimp only [State.unwait]; grind [Function.update_apply]
    thrown := by have := h.thrown; dsimp only [State.unwait]; grind [Function.update_apply]
    received := by have := h.received; dsimp only [State.unwait]; grind [Function.update_apply]
    droppedReceived := by
      have := h.droppedReceived
      dsimp only [State.unwait]; grind [Function.update_apply] }

/-- An interruption is to be delivered in place of what was passed. -/
theorem overtake (h : Passing s (.resume w inp :: tasks)) (hf : Flow s (.resume w inp :: tasks)) :
    Passing { s with overtaken := Function.update s.overtaken w true } (.drop w :: tasks) := by
  obtain ⟨hlive, hsusp, hpaused⟩ := hf.taken (.resume w inp) (by simp) w rfl
  obtain ⟨hdrop, -, hpass⟩ := h.resume w inp (by simp)
  have hnodup := hf.takenNodup
  have hlt := hf.lt hsusp
  simp only [List.filterMap_cons, Task.wait, List.nodup_cons, List.mem_filterMap, not_exists, not_and] at hnodup
  exact { h with
    fresh := by have := h.fresh; dsimp only; grind [Function.update_apply]
    overtaken := by have := h.overtaken; dsimp only; grind [Function.update_apply]
    resume := by
      have := h.resume
      have := fun inp' hm => hnodup.1 (.resume w inp') hm rfl
      dsimp only; grind [Function.update_apply]
    thrown := by
      have := h.thrown
      dsimp only; grind [Function.update_apply, Task.wait]
    received := by
      have := h.received
      have := (hf.paused _ w hpaused).2.1
      dsimp only; grind [Function.update_apply] }

theorem unpark (h : Passing s (t :: tasks)) (hf : Flow s (t :: tasks)) (ht : t.wait = some w) (hi : t.gives inp) :
    Passing (s.unpark w ends inp) tasks := by
  obtain ⟨hlive, hsusp, hpaused⟩ := hf.taken t (by simp) w ht
  have hrec := (hf.paused _ w hpaused).2.1
  have hres := h.resume
  have hthrown := h.thrown t (by simp) w ht
  simp only [Task.gives] at hi
  exact { h with
    once := by have := h.once; dsimp only [State.unpark]; grind [Function.update_apply]
    resume := fun v inp hv => h.resume v inp (List.mem_cons_of_mem _ hv)
    thrown := fun t ht => h.thrown t (List.mem_cons_of_mem _ ht)
    received := by have := h.received; dsimp only [State.unpark]; grind [Function.update_apply, Task.wait]
    droppedReceived := by
      have := h.droppedReceived
      dsimp only [State.unpark]; grind [Function.update_apply, Task.wait] }

theorem newWait (h : Passing s tasks) (hf : Flow s tasks) (closing performs : Bool) :
    Passing (s.newWait g ends closing performs) tasks := by
  have hfresh := h.fresh s.nextWait (Nat.le_refl _)
  have hrec := hf.fresh s.nextWait (Nat.le_refl _)
  exact { h with
    fresh := by have := h.fresh; dsimp only [State.newWait]; grind
    used := by have := h.used; dsimp only [State.newWait]; grind [Function.update_apply]
    resumed := by have := h.resumed; dsimp only [State.newWait]; grind [Function.update_apply]
    now := by have := h.now; dsimp only [State.newWait]; grind [Function.update_apply]
    synced := by have := h.synced; dsimp only [State.newWait]; grind [Function.update_apply]
    unpassed := by have := h.unpassed; dsimp only [State.newWait]; grind [Function.update_apply]
    dropped := by have := h.dropped; dsimp only [State.newWait]; grind [Function.update_apply]
    tooLate := by have := h.tooLate; dsimp only [State.newWait]; grind [Function.update_apply]
    overtaken := by have := h.overtaken; dsimp only [State.newWait]; grind [Function.update_apply]
    resume := by
      have := h.resume
      have := @hf.resuming
      dsimp only [State.newWait]; grind [Function.update_apply]
    received := by have := h.received; dsimp only [State.newWait]; grind [Function.update_apply] }

theorem park (h : Passing s tasks) (hs : (s.op w).sync = false) (hp : (s.wait w).performs → s.passed w = none) :
    Passing (s.park w) tasks :=
  { h with
    synced := by have := h.synced; dsimp only [State.park]; grind [Function.update_apply]
    unpassed := by have := h.unpassed; dsimp only [State.park]; grind [Function.update_apply]
    dropped := by have := h.dropped; dsimp only [State.park]; grind [Function.update_apply]
    overtaken := by have := h.overtaken; dsimp only [State.park]; grind [Function.update_apply] }

theorem setWaiting (h : Passing s tasks) (v : WaitId) :
    Passing (s.setOp v fun x => { x with waiting := some w }) tasks :=
  { h with
    used := by have := h.used; dsimp only [State.setOp]; grind [Function.update_apply]
    resumed := by have := h.resumed; dsimp only [State.setOp]; grind [Function.update_apply]
    now := by have := h.now; dsimp only [State.setOp]; grind [Function.update_apply]
    synced := by have := h.synced; dsimp only [State.setOp]; grind [Function.update_apply] }

theorem suspend (h : Passing s tasks) (hs : (s.op w).sync = false) (hp : (s.wait w).performs → s.passed w = none) :
    Passing (s.suspend w) tasks := by
  have h1 := h.park hs hp
  dsimp only [State.suspend]
  cases (s.wait w).ends with
  | main => exact { h1 with }
  | settled v => exact h1.setWaiting v
  | orphan => exact h1

theorem answer (h : Passing s tasks) (hw : Unanswered s w) (hp : (s.wait w).performs → s.passed w = some inp) :
    Passing { s with received := Function.update s.received w (s.received w ++ [inp]) } tasks := by
  have hrec := hw.received
  have hsusp := hw.suspended
  have hdrop := h.dropped w
  have hover := h.overtaken w
  exact { h with
    once := by have := h.once; dsimp only; grind [Function.update_apply]
    received := by have := h.received; dsimp only; grind [Function.update_apply]
    droppedReceived := by have := h.droppedReceived; dsimp only; grind [Function.update_apply] }

/-- What is passed first to a caller that does not wait: it is in `$performOp`, or was taken back. -/
theorem setPassed (h : Passing s tasks) (hw : w < s.nextWait) (hu : (s.op w).used = false)
    (hl : s.live w = false ∨ s.suspended w = false) (inp : Input) {m : WaitId → Bool}
    (hm : ∀ v, m v → v = w ∨ s.resumed v) : Passing { s.setPassed w inp with resumed := m } tasks := by
  have hnone : s.passed w = none := by simpa [hu] using h.used w
  have hres : s.resumed w = false := by simpa [hu] using h.resumed w
  exact { h with
    fresh := by have := h.fresh; dsimp only [State.setPassed, State.setOp]; grind [Function.update_apply]
    used := by have := h.used; dsimp only [State.setPassed, State.setOp]; grind [Function.update_apply]
    resumed := by have := h.resumed; dsimp only [State.setPassed, State.setOp]; grind [Function.update_apply]
    now := by have := h.now; dsimp only [State.setPassed, State.setOp]; grind [Function.update_apply]
    synced := by have := h.synced; dsimp only [State.setPassed, State.setOp]; grind [Function.update_apply]
    unpassed := by have := h.unpassed; dsimp only [State.setPassed, State.setOp]; grind [Function.update_apply]
    tooLate := by have := h.tooLate; dsimp only [State.setPassed, State.setOp]; grind [Function.update_apply]
    overtaken := by have := h.overtaken; dsimp only [State.setPassed, State.setOp]; grind [Function.update_apply]
    resume := by have := h.resume; dsimp only [State.setPassed, State.setOp]; grind [Function.update_apply]
    received := by have := h.received; dsimp only [State.setPassed, State.setOp]; grind [Function.update_apply] }

/-- What is passed first to a caller that waits: it is taken back. -/
theorem passTo (h : Passing s tasks) (hw : w < s.nextWait) (hu : (s.op w).used = false) (hl : s.live w)
    (hs : s.suspended w) (inp : Input) {m : WaitId → Bool} (hm : ∀ v, m v → v = w ∨ s.resumed v) :
    Passing (State.unwait { s.setPassed w inp with resumed := m } w) (.resume w inp :: tasks) := by
  have hnone : s.passed w = none := by simpa [hu] using h.used w
  have hres : s.resumed w = false := by simpa [hu] using h.resumed w
  have hdrop := h.dropped w
  have hover := h.overtaken w
  exact { h with
    fresh := by have := h.fresh; dsimp only [State.unwait, State.setPassed, State.setOp]; grind [Function.update_apply]
    used := by have := h.used; dsimp only [State.unwait, State.setPassed, State.setOp]; grind [Function.update_apply]
    resumed := by
      have := h.resumed
      dsimp only [State.unwait, State.setPassed, State.setOp]; grind [Function.update_apply]
    now := by have := h.now; dsimp only [State.unwait, State.setPassed, State.setOp]; grind [Function.update_apply]
    synced := by
      have := h.synced
      dsimp only [State.unwait, State.setPassed, State.setOp]; grind [Function.update_apply]
    unpassed := by
      have := h.unpassed
      dsimp only [State.unwait, State.setPassed, State.setOp]; grind [Function.update_apply]
    dropped := by
      have := h.dropped
      dsimp only [State.unwait, State.setPassed, State.setOp]; grind [Function.update_apply]
    tooLate := by
      have := h.tooLate
      dsimp only [State.unwait, State.setPassed, State.setOp]; grind [Function.update_apply]
    overtaken := by
      have := h.overtaken
      dsimp only [State.unwait, State.setPassed, State.setOp]; grind [Function.update_apply]
    resume := by
      have := h.resume
      dsimp only [State.unwait, State.setPassed, State.setOp]; grind [Function.update_apply]
    thrown := by
      have := h.thrown
      dsimp only [State.unwait, State.setPassed, State.setOp]; grind
    received := by
      have := h.received
      dsimp only [State.unwait, State.setPassed, State.setOp]; grind [Function.update_apply] }

theorem unsync (h : Passing s tasks) (w : WaitId) : Passing (s.setOp w fun x => { x with sync := false }) tasks :=
  { h with
    used := by have := h.used; dsimp only [State.setOp]; grind [Function.update_apply]
    resumed := by have := h.resumed; dsimp only [State.setOp]; grind [Function.update_apply]
    now := by have := h.now; dsimp only [State.setOp]; grind [Function.update_apply]
    synced := by have := h.synced; dsimp only [State.setOp]; grind [Function.update_apply] }

theorem setOnDrop (h : Passing s tasks) (w : WaitId) : Passing (s.setOp w fun x => { x with onDrop := true }) tasks :=
  { h with
    used := by have := h.used; dsimp only [State.setOp]; grind [Function.update_apply]
    resumed := by have := h.resumed; dsimp only [State.setOp]; grind [Function.update_apply]
    now := by have := h.now; dsimp only [State.setOp]; grind [Function.update_apply]
    synced := by have := h.synced; dsimp only [State.setOp]; grind [Function.update_apply] }

end Passing
end Emela.Runtime
