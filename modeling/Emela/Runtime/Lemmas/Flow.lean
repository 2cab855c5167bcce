import Emela.Runtime.Scheduler

/-!
# Where continuations are

Each suspended continuation is in one place: it waits (`live`), a task that will continue it is queued, or it
was continued. `Flow s tasks` states this for a state whose queue is `tasks`, so that a continuation that was
just taken back counts as a task too.
-/

namespace Emela.Runtime

def Act.gen? : Act → Option GenId
  | .gen g _ => some g
  | .drain | .begin _ | .op _ | .opEnd _ | .wakes _ _ => none

/-- The request whose implementation is called. -/
def Act.op? : Act → Option WaitId
  | .op w | .opEnd w => some w
  | .drain | .begin _ | .gen _ _ | .wakes _ _ => none

/-- A loop of a callback of the host. -/
def Act.Idle (a : Act) : Prop := ∃ l, a = .wakes none l

/-- It waits for something else than the implementation of an operation or the children of a scope. -/
def Parked (s : State) (w : WaitId) : Prop :=
  s.suspended w ∧ (s.wait w).performs = false ∧ (s.wait w).closing = false

/-- The request is of the generator on top of the stack, and not answered. -/
structure Unanswered (s : State) (w : WaitId) : Prop where
  lt : w < s.nextWait
  stack : ∃ rest, s.stack = .gen (s.wait w).gen (s.wait w).ends :: rest
  calling : w ∉ s.stack.filterMap Act.op?
  live : s.live w
  suspended : s.suspended w = false
  received : s.received w = []

structure Flow (s : State) (tasks : List Task) : Prop where
  freshWait : ∀ w, s.nextWait ≤ w → s.wait w = {}
  freshOp : ∀ w, s.nextWait ≤ w → s.op w = {}
  fresh : ∀ w, s.nextWait ≤ w → s.live w = false ∧ s.suspended w = false ∧ s.received w = []
  freshGen : ∀ g, s.nextGen ≤ g → s.paused g = none ∧ s.frames g = []
  genLt : ∀ w < s.nextWait, (s.wait w).gen < s.nextGen
  fiber : ∀ w < s.nextWait, (s.wait w).fiber = s.fiberOf (s.wait w).gen
  live : ∀ w, s.live w → s.suspended w → s.paused (s.wait w).gen = some w
  taken : ∀ t ∈ tasks, ∀ w, t.wait = some w →
    s.live w = false ∧ s.suspended w ∧ s.paused (s.wait w).gen = some w
  takenNodup : (tasks.filterMap Task.wait).Nodup
  paused : ∀ g w, s.paused g = some w → (s.wait w).gen = g ∧ s.received w = [] ∧ s.suspended w
  -- the stack
  running : ∀ g ∈ s.stack.filterMap Act.gen?, s.paused g = none ∧ g < s.nextGen
  runningNodup : (s.stack.filterMap Act.gen?).Nodup
  calls : ∀ a rest w, a :: rest <:+ s.stack → a.op? = some w →
    ∃ more, rest = .gen (s.wait w).gen (s.wait w).ends :: more
  callsNodup : (s.stack.filterMap Act.op?).Nodup
  calling : ∀ w ∈ s.stack.filterMap Act.op?,
    (s.op w).sync ∧ s.suspended w = false ∧ s.received w = [] ∧ s.live w ∧ (s.wait w).performs
  idle : s.running = false → ∀ a ∈ s.stack, a.Idle
  drains : ∀ rest, Act.drain :: rest <:+ s.stack → ∀ a ∈ rest, a.Idle
  -- operations
  performs : ∀ w, (s.wait w).performs → (s.wait w).closing = false
  performed : ∀ w, (s.wait w).performs → (s.op w).sync ∨ s.suspended w ∨ (s.op w).used
  waiting : ∀ w v, (s.op w).waiting = some v → s.suspended v ∧ w < v
  settled : ∀ w v, (s.wait w).ends = .settled v → (s.wait v).performs ∧ v < w
  settledRunning : ∀ g v, Act.gen g (.settled v) ∈ s.stack → (s.wait v).performs
  -- what holds on to a request
  waits : ∀ w ∈ s.waits, s.suspended w
  fiberWait : ∀ f w, (s.fiber f).wait = some w → s.suspended w ∧ (s.wait w).fiber = f ∧ (s.wait w).ends = .main
  awaits : ∀ w ∈ s.awaits, Parked s w
  laters : ∀ w ∈ s.laters, Parked s w
  gos : ∀ w, .go w ∈ tasks → Parked s w
  closer : ∀ i w, (s.scope i).closer = some w → s.suspended w ∧ (s.wait w).closing
  waiters : ∀ d, ∀ w ∈ (s.deferred d).waiters, Parked s w
  watchers : ∀ f, ∀ u ∈ (s.fiber f).watchers, Parked s u.wait
  wakes : ∀ c l, .wakes c l ∈ s.stack → ∀ p ∈ l, Parked s p.1

variable {s : State} {tasks tasks' : List Task} {w : WaitId} {t : Task} {g : GenId} {ends : End} {rest : List Act}

namespace Flow

theorem lt (h : Flow s tasks) (hw : s.suspended w) : w < s.nextWait := by
  refine Nat.lt_of_not_le fun hn => ?_
  simp [(h.fresh w hn).2.1] at hw

theorem performs_lt (h : Flow s tasks) (hw : (s.wait w).performs) : w < s.nextWait := by
  refine Nat.lt_of_not_le fun hn => ?_
  simp [h.freshWait w hn] at hw

theorem calling_lt (h : Flow s tasks) {a : Act} (ha : a :: rest <:+ s.stack) (hw : a.op? = some w) :
    w < s.nextWait :=
  h.performs_lt (h.calling w (List.mem_filterMap.mpr ⟨a, ha.subset List.mem_cons_self, hw⟩)).2.2.2.2

theorem resuming (h : Flow s tasks) {inp : Input} (hw : .resume w inp ∈ tasks) :
    s.live w = false ∧ s.suspended w ∧ s.paused (s.wait w).gen = some w :=
  h.taken _ hw w rfl

/-! ## Tasks -/

theorem perm (h : Flow s tasks) (hp : tasks.Perm tasks') : Flow s tasks' :=
  { h with
    taken := fun t ht => h.taken t (hp.mem_iff.mpr ht)
    takenNodup := (hp.filterMap _).nodup_iff.mp h.takenNodup
    gos := fun w hw => h.gos w (hp.mem_iff.mpr hw) }

/-- Tasks may be forgotten. -/
theorem sublist (h : Flow s tasks) (hs : tasks'.Sublist tasks) : Flow s tasks' :=
  { h with
    taken := fun t ht => h.taken t (hs.subset ht)
    takenNodup := h.takenNodup.sublist (hs.filterMap _)
    gos := fun w hw => h.gos w (hs.subset hw) }

/-- A task that does not continue a continuation. -/
theorem consBegin (h : Flow s tasks) (f : FiberId) : Flow s (.begin f :: tasks) :=
  { h with
    taken := by have := h.taken; grind [Task.wait]
    takenNodup := by simpa [List.filterMap_cons, Task.wait] using h.takenNodup
    gos := by have := h.gos; grind }

theorem consGo (h : Flow s tasks) (hw : Parked s w) : Flow s (.go w :: tasks) :=
  { h with
    taken := by have := h.taken; grind [Task.wait]
    takenNodup := by simpa [List.filterMap_cons, Task.wait] using h.takenNodup
    gos := by have := h.gos; grind }

/-- The task may be another one for the same continuation. -/
theorem retask (h : Flow s (t :: tasks)) {t' : Task} (ht : t.wait = some w) (ht' : t'.wait = some w) :
    Flow s (t' :: tasks) :=
  { h with
    taken := by have := h.taken; grind
    takenNodup := by have := h.takenNodup; simp only [List.filterMap_cons, ht, ht'] at this ⊢; exact this
    gos := by have := h.gos; grind [Task.wait] }

theorem schedule (h : Flow s tasks) (t : Task) : Flow (s.schedule t) tasks :=
  { h with
    running := by have := h.running; dsimp only [State.schedule]; grind [Act.gen?]
    runningNodup := by have := h.runningNodup; dsimp only [State.schedule]; grind [Act.gen?]
    calls := by have := h.calls; dsimp only [State.schedule]; grind [Act.op?, List.suffix_cons_iff]
    callsNodup := by have := h.callsNodup; dsimp only [State.schedule]; grind [Act.op?]
    calling := by have := h.calling; dsimp only [State.schedule]; grind [Act.op?]
    idle := by intro hr; cases hr
    drains := by have := h.drains; have := h.idle; dsimp only [State.schedule]; grind [List.suffix_cons_iff]
    settledRunning := by have := h.settledRunning; dsimp only [State.schedule]; grind
    wakes := by have := h.wakes; dsimp only [State.schedule]; grind [Parked] }

theorem enqueue (h : Flow s tasks) (t : Task) : Flow (s.enqueue t) tasks := { h with }

/-! ## Waits -/

theorem unwait (h : Flow s tasks) (hl : s.live w) (hs : s.suspended w) (ht : t.wait = some w) :
    Flow (s.unwait w) (t :: tasks) :=
  { h with
    fresh := by have := h.fresh; dsimp only [State.unwait]; grind [Function.update_apply]
    live := by have := h.live; dsimp only [State.unwait]; grind [Function.update_apply]
    taken := by
      have := h.taken
      have := h.live w hl hs
      dsimp only [State.unwait]; grind [Function.update_apply]
    takenNodup := by
      have := h.taken
      have := h.takenNodup
      simp only [List.filterMap_cons, ht, List.nodup_cons, List.mem_filterMap]
      grind
    calling := by have := h.calling; dsimp only [State.unwait]; grind [Function.update_apply]
    waits := fun v hv => h.waits v (List.mem_of_mem_filter hv)
    fiberWait := by have := h.fiberWait; dsimp only [State.unwait]; grind [Function.update_apply]
    gos := by have := h.gos; dsimp only [State.unwait]; grind [Parked, Task.wait]
    watchers := by have := h.watchers; dsimp only [State.unwait]; grind [Function.update_apply, Parked] }

/-- The continuation of a task runs. -/
theorem unpark (h : Flow s (t :: tasks)) (ht : t.wait = some w) (he : ends = (s.wait w).ends ∨ ends = .orphan)
    (hr : s.running = true) (inp : Input) : Flow (s.unpark w ends inp) tasks := by
  obtain ⟨hlive, hsusp, hpaused⟩ := h.taken t (by simp) w ht
  have hlt := h.lt hsusp
  have hnodup := h.takenNodup
  simp only [List.filterMap_cons, ht, List.nodup_cons, List.mem_filterMap] at hnodup
  have hg : (s.wait w).gen ∉ s.stack.filterMap Act.gen? := by
    intro hg
    simp [(h.running _ hg).1] at hpaused
  exact { h with
    fresh := by have := h.fresh; dsimp only [State.unpark]; grind [Function.update_apply]
    freshGen := by have := h.freshGen; dsimp only [State.unpark]; grind [Function.update_apply]
    live := by have := h.live; dsimp only [State.unpark]; grind [Function.update_apply]
    taken := by
      have := h.taken
      dsimp only [State.unpark]; grind [Function.update_apply]
    takenNodup := hnodup.2
    paused := by have := h.paused; dsimp only [State.unpark]; grind [Function.update_apply]
    running := by
      have := h.running
      have := h.genLt w hlt
      dsimp only [State.unpark]; grind [Function.update_apply, Act.gen?]
    runningNodup := by
      have := h.runningNodup
      dsimp only [State.unpark]; simp [Act.gen?, *]
    calls := by have := h.calls; dsimp only [State.unpark]; grind [Act.op?, List.suffix_cons_iff]
    callsNodup := by have := h.callsNodup; dsimp only [State.unpark]; grind [Act.op?]
    calling := by have := h.calling; dsimp only [State.unpark]; grind [Act.op?, Function.update_apply]
    idle := by intro hn; simp [State.unpark, hr] at hn
    drains := by have := h.drains; dsimp only [State.unpark]; grind [List.suffix_cons_iff]
    settledRunning := by
      have := h.settledRunning
      have := h.settled
      dsimp only [State.unpark]; grind
    gos := fun v hv => h.gos v (List.mem_cons_of_mem _ hv)
    wakes := by have := h.wakes; dsimp only [State.unpark]; grind [Parked] }

/-! ## Requests -/

theorem newWait (h : Flow s tasks) (hs : s.stack = .gen g ends :: rest) {closing performs : Bool}
    (hc : closing = true → performs = false) : Flow (s.newWait g ends closing performs) tasks := by
  have hg := h.running g (by simp [hs, Act.gen?])
  have hfresh := h.fresh s.nextWait (Nat.le_refl _)
  have hpark : ∀ v, Parked s v → Parked (s.newWait g ends closing performs) v := by
    intro v hv
    have := h.lt hv.1
    simp only [Parked] at hv ⊢
    dsimp only [State.newWait]; grind [Function.update_apply]
  have hlt := @h.lt
  have hperf := @h.performs_lt
  exact { h with
    freshWait := by have := h.freshWait; dsimp only [State.newWait]; grind [Function.update_apply]
    freshOp := by have := h.freshOp; dsimp only [State.newWait]; grind [Function.update_apply]
    fresh := by have := h.fresh; dsimp only [State.newWait]; grind [Function.update_apply]
    genLt := by have := h.genLt; dsimp only [State.newWait]; grind [Function.update_apply]
    fiber := by have := h.fiber; dsimp only [State.newWait]; grind [Function.update_apply]
    live := by have := h.live; dsimp only [State.newWait]; grind [Function.update_apply]
    taken := by have := h.taken; dsimp only [State.newWait]; grind [Function.update_apply]
    paused := by have := h.paused; dsimp only [State.newWait]; grind [Function.update_apply]
    calls := by
      intro a rest w ha hw
      have := h.calling_lt ha hw
      have := h.calls a rest w ha hw
      dsimp only [State.newWait]; grind [Function.update_apply]
    calling := by have := h.calling; dsimp only [State.newWait]; grind [Function.update_apply]
    performs := by have := h.performs; dsimp only [State.newWait]; grind [Function.update_apply]
    performed := by have := h.performed; dsimp only [State.newWait]; grind [Function.update_apply]
    waiting := by have := h.waiting; dsimp only [State.newWait]; grind [Function.update_apply]
    settled := by
      have := h.settled
      have := h.settledRunning
      dsimp only [State.newWait]; grind [Function.update_apply]
    settledRunning := by have := h.settledRunning; dsimp only [State.newWait]; grind [Function.update_apply]
    fiberWait := by have := h.fiberWait; dsimp only [State.newWait]; grind [Function.update_apply]
    awaits := fun v hv => hpark v (h.awaits v hv)
    laters := fun v hv => hpark v (h.laters v hv)
    gos := fun v hv => hpark v (h.gos v hv)
    closer := by have := h.closer; dsimp only [State.newWait]; grind [Function.update_apply]
    waiters := fun d v hv => hpark v (h.waiters d v hv)
    watchers := fun f u hu => hpark u.wait (h.watchers f u hu)
    wakes := fun c l hl p hp => hpark p.1 (h.wakes c l hl p hp) }

theorem newWait_unanswered (h : Flow s tasks) (hs : s.stack = .gen g ends :: rest) (closing performs : Bool) :
    Unanswered (s.newWait g ends closing performs) s.nextWait := by
  have hfresh := h.fresh s.nextWait (Nat.le_refl _)
  have hcall : s.nextWait ∉ s.stack.filterMap Act.op? := fun hw =>
    absurd (h.performs_lt (h.calling _ hw).2.2.2.2) (Nat.lt_irrefl _)
  constructor <;> simp_all [State.newWait]

/-- The generator waits for an answer. -/
theorem park (h : Flow s tasks) (hw : Unanswered s w) : Flow (s.park w) tasks := by
  obtain ⟨rest, hs⟩ := hw.stack
  have hrun := h.running (s.wait w).gen (by simp [hs, Act.gen?])
  have hnodup := h.runningNodup
  have hlt := hw.lt
  have hlive := hw.live
  have hsusp := hw.suspended
  have hrec := hw.received
  have hcall := hw.calling
  simp only [hs, List.filterMap_cons, Act.gen?, List.nodup_cons] at hnodup
  have hmono : ∀ v, s.suspended v → (s.park w).suspended v := by
    dsimp only [State.park]; grind [Function.update_apply]
  have hpark : ∀ v, Parked s v → Parked (s.park w) v := fun v hv => ⟨hmono v hv.1, hv.2⟩
  exact { h with
    fresh := by have := h.fresh; dsimp only [State.park]; grind [Function.update_apply]
    freshGen := by have := h.freshGen; dsimp only [State.park]; grind [Function.update_apply]
    live := by have := h.live; have := h.paused; dsimp only [State.park]; grind [Function.update_apply]
    taken := by have := h.taken; dsimp only [State.park]; grind [Function.update_apply]
    paused := by have := h.paused; dsimp only [State.park]; grind [Function.update_apply]
    running := by
      have := h.running
      dsimp only [State.park]; simp only [hs, List.tail_cons] at this ⊢; grind [Function.update_apply]
    runningNodup := by dsimp only [State.park]; simpa only [hs, List.tail_cons] using hnodup.2
    calls := by
      intro a more v ha hv
      have : (s.park w).stack = rest := by simp [State.park, hs]
      exact h.calls a more v (by rw [hs]; rw [this] at ha; exact ha.trans (List.suffix_cons _ _)) hv
    callsNodup := by have := h.callsNodup; dsimp only [State.park]; grind [Act.op?]
    calling := by have := h.calling; dsimp only [State.park]; grind [Act.op?, Function.update_apply]
    idle := by have := h.idle; dsimp only [State.park]; grind
    drains := by have := h.drains; dsimp only [State.park]; grind [List.suffix_cons_iff]
    performed := by have := h.performed; dsimp only [State.park]; grind [Function.update_apply]
    waiting := fun v u hu => ⟨hmono u (h.waiting v u hu).1, (h.waiting v u hu).2⟩
    settledRunning := by have := h.settledRunning; dsimp only [State.park]; grind
    waits := by have := h.waits; dsimp only [State.park]; grind [Function.update_apply]
    fiberWait := fun f v hv => ⟨hmono v (h.fiberWait f v hv).1, (h.fiberWait f v hv).2⟩
    awaits := fun v hv => hpark v (h.awaits v hv)
    laters := fun v hv => hpark v (h.laters v hv)
    gos := fun v hv => hpark v (h.gos v hv)
    closer := fun i v hv => ⟨hmono v (h.closer i v hv).1, (h.closer i v hv).2⟩
    waiters := fun d v hv => hpark v (h.waiters d v hv)
    watchers := fun f u hu => hpark u.wait (h.watchers f u hu)
    wakes := by have := h.wakes; dsimp only [State.park]; grind [Parked, Function.update_apply] }

/-- The wait of a main continuation is its fiber's. -/
theorem setFiberWait (h : Flow s tasks) (hs : s.suspended w) (he : (s.wait w).ends = .main) :
    Flow (s.setFiber (s.wait w).fiber fun x => { x with wait := some w }) tasks :=
  { h with
    fiberWait := by have := h.fiberWait; dsimp only [State.setFiber]; grind [Function.update_apply]
    watchers := by have := h.watchers; dsimp only [State.setFiber]; grind [Function.update_apply, Parked] }

theorem setWaiting (h : Flow s tasks) {v : WaitId} (hs : s.suspended w) (he : (s.wait w).ends = .settled v) :
    Flow (s.setOp v fun x => { x with waiting := some w }) tasks := by
  have hv := h.settled w v he
  have hlt := h.performs_lt hv.1
  exact { h with
    freshOp := by have := h.freshOp; dsimp only [State.setOp]; grind [Function.update_apply]
    calling := by have := h.calling; dsimp only [State.setOp]; grind [Function.update_apply]
    performed := by have := h.performed; dsimp only [State.setOp]; grind [Function.update_apply]
    waiting := by have := h.waiting; dsimp only [State.setOp]; grind [Function.update_apply] }

theorem suspend (h : Flow s tasks) (hw : Unanswered s w) : Flow (s.suspend w) tasks := by
  have hp := h.park hw
  have hs : (s.park w).suspended w := by simp [State.park]
  dsimp only [State.suspend]
  cases he : (s.wait w).ends with
  | main => exact hp.setFiberWait hs he
  | settled v => exact hp.setWaiting hs he
  | orphan => exact hp

/-- The request is answered right away. -/
theorem answer (h : Flow s tasks) (hw : Unanswered s w) (inp : Input) :
    Flow { s with received := Function.update s.received w (s.received w ++ [inp]) } tasks := by
  have hlt := hw.lt
  have hsusp := hw.suspended
  have hcall := hw.calling
  exact { h with
    fresh := by have := h.fresh; dsimp only; grind [Function.update_apply]
    paused := by have := h.paused; dsimp only; grind [Function.update_apply]
    calling := by have := h.calling; dsimp only; grind [Function.update_apply] }

/-! ## Other changes of the maps -/

theorem setFiber (h : Flow s tasks) {f : FiberId} {k : Fiber → Fiber}
    (hw : ∀ w, (k (s.fiber f)).wait = some w → (s.fiber f).wait = some w)
    (hu : ∀ u ∈ (k (s.fiber f)).watchers, u ∈ (s.fiber f).watchers ∨ Parked s u.wait) : Flow (s.setFiber f k) tasks :=
  { h with
    fiberWait := by have := h.fiberWait; dsimp only [State.setFiber]; grind [Function.update_apply]
    watchers := by have := h.watchers; dsimp only [State.setFiber]; grind [Function.update_apply, Parked] }

theorem setScope (h : Flow s tasks) {i : ScopeId} {k : Scope → Scope}
    (hc : ∀ w, (k (s.scope i)).closer = some w →
      (s.scope i).closer = some w ∨ (s.suspended w ∧ (s.wait w).closing)) : Flow (s.setScope i k) tasks :=
  { h with
    closer := by have := h.closer; dsimp only [State.setScope]; grind [Function.update_apply] }

theorem setDeferred (h : Flow s tasks) {d : DeferredId} {k : Deferred → Deferred}
    (hw : ∀ w ∈ (k (s.deferred d)).waiters, w ∈ (s.deferred d).waiters ∨ Parked s w) :
    Flow (s.setDeferred d k) tasks :=
  { h with
    waiters := by have := h.waiters; dsimp only [State.setDeferred]; grind [Function.update_apply, Parked] }

theorem setFrames (h : Flow s tasks) (hg : g < s.nextGen) (frames : List Frame) : Flow (s.setFrames g frames) tasks :=
  { h with
    freshGen := by have := h.freshGen; dsimp only [State.setFrames]; grind [Function.update_apply] }

theorem setOp (h : Flow s tasks) {k : Op → Op} (hlt : w < s.nextWait)
    (hs : (k (s.op w)).sync = (s.op w).sync) (hu : (s.op w).used → (k (s.op w)).used)
    (hw : (k (s.op w)).waiting = (s.op w).waiting) : Flow (s.setOp w k) tasks :=
  { h with
    freshOp := by have := h.freshOp; dsimp only [State.setOp]; grind [Function.update_apply]
    calling := by have := h.calling; dsimp only [State.setOp]; grind [Function.update_apply]
    performed := by have := h.performed; dsimp only [State.setOp]; grind [Function.update_apply]
    waiting := by have := h.waiting; dsimp only [State.setOp]; grind [Function.update_apply] }

/-- `sync = false` once the implementation returned. -/
theorem unsync (h : Flow s tasks) (hlt : w < s.nextWait) (hw : w ∉ s.stack.filterMap Act.op?)
    (hu : s.suspended w ∨ (s.op w).used) : Flow (s.setOp w fun x => { x with sync := false }) tasks :=
  { h with
    freshOp := by have := h.freshOp; dsimp only [State.setOp]; grind [Function.update_apply]
    calling := by have := h.calling; dsimp only [State.setOp]; grind [Function.update_apply]
    performed := by have := h.performed; dsimp only [State.setOp]; grind [Function.update_apply]
    waiting := by have := h.waiting; dsimp only [State.setOp]; grind [Function.update_apply] }

/-! ## The stack -/

theorem pop (h : Flow s tasks) {a : Act} (hs : s.stack = a :: rest) : Flow { s with stack := rest } tasks := by
  have hsuf : rest <:+ s.stack := by rw [hs]; exact List.suffix_cons a rest
  have hsub := hsuf.subset
  exact { h with
    running := fun g hg => h.running g ((hsuf.sublist.filterMap _).subset hg)
    runningNodup := h.runningNodup.sublist (hsuf.sublist.filterMap _)
    calls := fun b more w hb => h.calls b more w (hb.trans hsuf)
    callsNodup := h.callsNodup.sublist (hsuf.sublist.filterMap _)
    calling := fun w hw => h.calling w ((hsuf.sublist.filterMap _).subset hw)
    idle := fun hr b hb => h.idle hr b (hsub hb)
    drains := fun more hm => h.drains more (hm.trans hsuf)
    settledRunning := fun g v hv => h.settledRunning g v (hsub hv)
    wakes := fun c l hl => h.wakes c l (hsub hl) }

/-- `drain` ends. -/
theorem popDrain (h : Flow s tasks) (hs : s.stack = .drain :: rest) :
    Flow { s with stack := rest, running := false } tasks :=
  { h.pop hs with idle := fun _ => h.drains rest (by simp [hs]) }

/-- A forked function is called, or a loop starts. -/
theorem push (h : Flow s tasks) {a : Act} (hg : a.gen? = none) (ho : a.op? = none) (hd : a ≠ .drain)
    (hr : s.running = false → a.Idle) (hw : ∀ c l, a = .wakes c l → ∀ p ∈ l, Parked s p.1) :
    Flow (s.pushAct a) tasks :=
  { h with
    running := by have := h.running; dsimp only [State.pushAct]; grind
    runningNodup := by have := h.runningNodup; dsimp only [State.pushAct]; grind
    calls := by have := h.calls; dsimp only [State.pushAct]; grind [List.suffix_cons_iff]
    callsNodup := by have := h.callsNodup; dsimp only [State.pushAct]; grind
    calling := by have := h.calling; dsimp only [State.pushAct]; grind
    idle := by have := h.idle; dsimp only [State.pushAct]; grind
    drains := by have := h.drains; dsimp only [State.pushAct]; grind [List.suffix_cons_iff]
    settledRunning := by have := h.settledRunning; dsimp only [State.pushAct]; grind [Act.gen?]
    wakes := by have := h.wakes; dsimp only [State.pushAct]; grind [Parked] }

/-- An implementation is called. -/
theorem pushOp (h : Flow s tasks) (hw : Unanswered s w) (hp : (s.wait w).performs) (hsync : (s.op w).sync)
    (hr : s.running = true) : Flow (s.pushAct (.op w)) tasks := by
  have hcall := hw.calling
  have hstack := hw.stack
  have hlive := hw.live
  have hsusp := hw.suspended
  have hrec := hw.received
  exact { h with
    running := by have := h.running; dsimp only [State.pushAct]; grind [Act.gen?]
    runningNodup := by have := h.runningNodup; dsimp only [State.pushAct]; grind [Act.gen?]
    calls := by have := h.calls; dsimp only [State.pushAct]; grind [List.suffix_cons_iff, Act.op?]
    callsNodup := by have := h.callsNodup; dsimp only [State.pushAct]; grind [Act.op?]
    calling := by have := h.calling; dsimp only [State.pushAct]; grind [Act.op?]
    idle := by intro hn; simp [State.pushAct, hr] at hn
    drains := by have := h.drains; dsimp only [State.pushAct]; grind [List.suffix_cons_iff]
    settledRunning := by have := h.settledRunning; dsimp only [State.pushAct]; grind
    wakes := by have := h.wakes; dsimp only [State.pushAct]; grind [Parked] }

/-- An implementation returns. -/
theorem returned (h : Flow s tasks) (hs : s.stack = .op w :: rest) :
    Flow { s with stack := .opEnd w :: rest } tasks :=
  { h with
    running := by have := h.running; grind [Act.gen?]
    runningNodup := by have := h.runningNodup; grind [Act.gen?]
    calls := by have := h.calls; grind [List.suffix_cons_iff, Act.op?]
    callsNodup := by have := h.callsNodup; grind [Act.op?]
    calling := by have := h.calling; grind [Act.op?]
    idle := fun hr => absurd (h.idle hr (.op w) (by simp [hs])) (by simp [Act.Idle])
    drains := by have := h.drains; grind [List.suffix_cons_iff]
    settledRunning := by have := h.settledRunning; grind
    wakes := by have := h.wakes; simp only [Parked] at this ⊢; grind }

/-- One continuation of a loop is woken. -/
theorem waked (h : Flow s tasks) {c : Option FiberId} {p : WaitId × Input} {l : List (WaitId × Input)}
    (hs : s.stack = .wakes c (p :: l) :: rest) : Flow { s with stack := .wakes c l :: rest } tasks :=
  { h with
    running := by have := h.running; grind [Act.gen?]
    runningNodup := by have := h.runningNodup; grind [Act.gen?]
    calls := by have := h.calls; grind [List.suffix_cons_iff, Act.op?]
    callsNodup := by have := h.callsNodup; grind [Act.op?]
    calling := by have := h.calling; grind [Act.op?]
    idle := by
      intro hr a ha
      obtain rfl | ha := List.mem_cons.mp ha
      · obtain ⟨_, he⟩ := h.idle hr (.wakes c (p :: l)) (by simp [hs])
        exact ⟨l, by simp_all⟩
      · exact h.idle hr a (by simp [hs, ha])
    drains := by have := h.drains; grind [List.suffix_cons_iff]
    settledRunning := by have := h.settledRunning; grind
    wakes := by have := h.wakes; simp only [Parked] at this ⊢; grind }

/-- A new generator. -/
theorem newGen (h : Flow s tasks) (f : FiberId) : Flow (s.newGen f).2 tasks :=
  { h with
    freshGen := by have := h.freshGen; dsimp only [State.newGen]; grind
    genLt := by have := h.genLt; dsimp only [State.newGen]; grind
    fiber := by
      have := h.fiber
      have := h.genLt
      dsimp only [State.newGen]; grind [Function.update_apply]
    running := by have := h.running; dsimp only [State.newGen]; grind }

/-- A generator runs that is not on the stack. -/
theorem pushGen (h : Flow s tasks) (hlt : g < s.nextGen) (hp : s.paused g = none)
    (hg : g ∉ s.stack.filterMap Act.gen?) (hr : s.running = true)
    (he : ∀ v, ends = .settled v → (s.wait v).performs) : Flow (s.pushAct (.gen g ends)) tasks :=
  { h with
    running := by have := h.running; dsimp only [State.pushAct]; grind [Act.gen?]
    runningNodup := by
      have := h.runningNodup
      dsimp only [State.pushAct]; simp [Act.gen?, *]
    calls := by have := h.calls; dsimp only [State.pushAct]; grind [List.suffix_cons_iff, Act.op?]
    callsNodup := by have := h.callsNodup; dsimp only [State.pushAct]; grind [Act.op?]
    calling := by have := h.calling; dsimp only [State.pushAct]; grind [Act.op?]
    idle := by intro hn; simp [State.pushAct, hr] at hn
    drains := by have := h.drains; dsimp only [State.pushAct]; grind [List.suffix_cons_iff]
    settledRunning := by have := h.settledRunning; dsimp only [State.pushAct]; grind
    wakes := by have := h.wakes; dsimp only [State.pushAct]; grind [Parked] }

end Flow
end Emela.Runtime
