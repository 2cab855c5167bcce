import Emela.Runtime.Lemmas.Members

/-!
# Scopes that wait for their children

While a `$scope` waits for its children, the continuation that runs it is suspended at a wait that only the
last child takes back. This fails once `$drop` of the caller of an operation drops such a wait (`cut`).
-/

namespace Emela.Runtime

/-- The frame holds interruptions off. -/
def Frame.holds : Frame → Bool
  | .closing _ _ | .hold => true
  | .body _ => false

/-- The scope returned `r` when all its members had ended. -/
structure Scope.Exited (x : Scope) (r : Result) : Prop where
  children : x.children = []
  closed : x.closed
  outcome : ∃ b, x.body = some b ∧ r = x.outcome b

theorem Scope.exited_iff {x : Scope} {r : Result} :
    x.Exited r ↔ x.children = [] ∧ x.closed ∧ ∃ b, x.body = some b ∧ r = (x.first.map Cause.result).getD b :=
  ⟨fun h => ⟨h.children, h.closed, h.outcome⟩, fun h => ⟨h.1, h.2.1, h.2.2⟩⟩

structure Closing (s : State) (tasks : List Task) : Prop where
  head : ∀ g i r, .closing i r ∉ (s.frames g).tail
  running : ∀ g ∈ s.stack.filterMap Act.gen?, ∀ i r, .closing i r ∉ s.frames g
  closing : ∀ g i r, .closing i r ∈ s.frames g → ∃ w, s.paused g = some w ∧ (s.wait w).closing ∧
    (s.live w → (s.scope i).closer = some w) ∧ (s.live w = false → (s.scope i).children = [])
  closingWait : ∀ g w, s.paused g = some w → (s.wait w).closing → ∃ i r, .closing i r ∈ s.frames g
  closer : ∀ i w, (s.scope i).closer = some w → s.live w ∧ ∃ r, .closing i r ∈ s.frames (s.wait w).gen
  tasks : ∀ t ∈ tasks, ∀ w, t.wait = some w → (s.wait w).closing → t = .resume w (.next undef)
  exit : ∀ i r, (s.scope i).exit = some r → (s.scope i).Exited r
  holds : ∀ f g, (s.fiber f).holds.count g = if s.fiberOf g = f then (s.frames g).countP Frame.holds else 0

variable {s : State} {tasks tasks' : List Task} {w : WaitId} {t : Task} {g : GenId} {ends : End} {rest : List Act}

namespace Closing

/-- Only the innermost frame waits. -/
theorem head_eq (h : Closing s tasks) {i : ScopeId} {r : Result} (hfr : .closing i r ∈ s.frames g) :
    ∃ more, s.frames g = .closing i r :: more := by
  have hhead := h.head g i r
  cases hfs : s.frames g with
  | nil => simp [hfs] at hfr
  | cons fr more =>
      simp only [hfs, List.tail_cons, List.mem_cons] at hhead hfr
      exact ⟨more, by rw [hfr.resolve_right hhead]⟩

theorem closer_inj (h : Closing s tasks) {i j : ScopeId} (hi : (s.scope i).closer = some w)
    (hj : (s.scope j).closer = some w) : i = j := by
  obtain ⟨-, r, hr⟩ := h.closer i w hi
  obtain ⟨-, r', hr'⟩ := h.closer j w hj
  obtain ⟨more, hm⟩ := h.head_eq hr
  obtain ⟨more', hm'⟩ := h.head_eq hr'
  simp_all

/-- A fiber with a scope that waits for its children holds interruptions off. -/
theorem held (h : Closing s tasks) (hw : s.paused g = some w) (hc : (s.wait w).closing) :
    (s.fiber (s.fiberOf g)).holds ≠ [] := by
  obtain ⟨i, r, hfr⟩ := h.closingWait g w hw hc
  intro hn
  have hcount := h.holds (s.fiberOf g) g
  rw [hn, if_pos rfl, List.count_nil] at hcount
  exact absurd (List.countP_eq_zero.mp hcount.symm _ hfr) (by simp [Frame.holds])

theorem closed_of (hm : Members s tasks) {i : ScopeId} {r : Result} (hfr : .closing i r ∈ s.frames g) :
    (s.scope i).closed :=
  hm.closed i (Or.inl (by rw [hm.body i, (hm.closings g i r hfr).2.2]; rfl))

/-! ## Tasks -/

theorem subset (h : Closing s tasks) (hs : tasks' ⊆ tasks) : Closing s tasks' :=
  { h with tasks := fun t ht => h.tasks t (hs ht) }

theorem cons (h : Closing s tasks) (ht : ∀ w, t.wait = some w → (s.wait w).closing = false) : Closing s (t :: tasks) :=
  { h with tasks := by have := h.tasks; grind }

theorem schedule (h : Closing s tasks) (t : Task) : Closing (s.schedule t) tasks :=
  { h with
    running := by have := h.running; dsimp only [State.schedule]; grind [Act.gen?] }

/-! ## Changes of the maps -/

theorem setFiber (h : Closing s tasks) {f : FiberId} {k : Fiber → Fiber}
    (hk : (k (s.fiber f)).holds = (s.fiber f).holds) : Closing (s.setFiber f k) tasks :=
  { h with
    holds := by have := h.holds; dsimp only [State.setFiber]; grind [Function.update_apply] }

theorem setScope (h : Closing s tasks) {i : ScopeId} {k : Scope → Scope}
    (hc : (k (s.scope i)).closer = (s.scope i).closer)
    (hn : ∀ g r, .closing i r ∈ s.frames g → (s.scope i).children = [] → (k (s.scope i)).children = [])
    (he : ∀ r, (k (s.scope i)).exit = some r → (k (s.scope i)).Exited r) :
    Closing (s.setScope i k) tasks :=
  { h with
    closing := by have := h.closing; dsimp only [State.setScope]; grind [Function.update_apply]
    closer := by have := h.closer; dsimp only [State.setScope]; grind [Function.update_apply]
    exit := by have := h.exit; dsimp only [State.setScope]; grind [Function.update_apply, Scope.exited_iff] }

theorem setDeferred (h : Closing s tasks) (d : DeferredId) (k : Deferred → Deferred) :
    Closing (s.setDeferred d k) tasks :=
  { h with }

theorem setOp (h : Closing s tasks) (w : WaitId) (k : Op → Op) : Closing (s.setOp w k) tasks := { h with }

/-- The frames of a running generator change, apart from holds. -/
theorem setFrames (h : Closing s tasks) (hg : g ∈ s.stack.filterMap Act.gen?) (frames : List Frame)
    (hc : ∀ i r, .closing i r ∉ frames) (hn : frames.countP Frame.holds = (s.frames g).countP Frame.holds) :
    Closing (s.setFrames g frames) tasks := by
  have hold := h.running g hg
  exact { h with
    head := by
      have := h.head
      have := fun i r => mt (List.mem_of_mem_tail (a := Frame.closing i r)) (hc i r)
      dsimp only [State.setFrames]; grind [Function.update_apply]
    running := by have := h.running; dsimp only [State.setFrames]; grind [Function.update_apply]
    closing := by have := h.closing; dsimp only [State.setFrames]; grind [Function.update_apply]
    closingWait := by have := h.closingWait; dsimp only [State.setFrames]; grind [Function.update_apply]
    closer := by have := h.closer; dsimp only [State.setFrames]; grind [Function.update_apply]
    holds := by have := h.holds; dsimp only [State.setFrames]; grind [Function.update_apply] }

/-- A release starts (`$hold`). -/
theorem hold (h : Closing s tasks) (hg : g ∈ s.stack.filterMap Act.gen?) :
    Closing ((s.setFiber (s.fiberOf g) fun x => { x with holds := g :: x.holds }).setFrames g (.hold :: s.frames g))
      tasks := by
  have hold := h.running g hg
  exact { h with
    head := by
      have := h.head
      dsimp only [State.setFiber, State.setFrames]; grind [Function.update_apply]
    running := by have := h.running; dsimp only [State.setFiber, State.setFrames]; grind [Function.update_apply]
    closing := by have := h.closing; dsimp only [State.setFiber, State.setFrames]; grind [Function.update_apply]
    closingWait := by
      have := h.closingWait
      dsimp only [State.setFiber, State.setFrames]; grind [Function.update_apply]
    closer := by have := h.closer; dsimp only [State.setFiber, State.setFrames]; grind [Function.update_apply]
    holds := by
      have := h.holds
      dsimp only [State.setFiber, State.setFrames]; grind [Function.update_apply, Frame.holds] }

/-- A release ends (`$unhold`). -/
theorem unhold (h : Closing s tasks) (hg : g ∈ s.stack.filterMap Act.gen?) {more : List Frame}
    (hfr : s.frames g = .hold :: more) :
    Closing ((s.setFiber (s.fiberOf g) fun x => { x with holds := x.holds.erase g }).setFrames g more) tasks := by
  have hold := h.running g hg
  have hmore : ∀ i r, .closing i r ∉ more.tail := fun i r hm => hold i r (by rw [hfr]; exact .tail _ (List.mem_of_mem_tail hm))
  exact { h with
    head := by
      have := h.head
      dsimp only [State.setFiber, State.setFrames]; grind [Function.update_apply]
    running := by have := h.running; dsimp only [State.setFiber, State.setFrames]; grind [Function.update_apply]
    closing := by have := h.closing; dsimp only [State.setFiber, State.setFrames]; grind [Function.update_apply]
    closingWait := by
      have := h.closingWait
      dsimp only [State.setFiber, State.setFrames]; grind [Function.update_apply]
    closer := by have := h.closer; dsimp only [State.setFiber, State.setFrames]; grind [Function.update_apply]
    holds := by
      have := h.holds
      dsimp only [State.setFiber, State.setFrames]; grind [Function.update_apply, Frame.holds] }

/-! ## Waits -/

/-- A wait that is not for the children of a scope is taken back. -/
theorem unwait (h : Closing s tasks) (hf : Flow s tasks') (hc : (s.wait w).closing = false) (ht : t.wait = some w) :
    Closing (s.unwait w) (t :: tasks) := by
  have hcl := hf.closer
  have hpaused := hf.paused
  exact { h.setFiber (k := fun x => { x with wait := if x.wait = some w then none else x.wait })
      (f := (s.wait w).fiber) rfl with
    closing := by have := h.closing; dsimp only [State.unwait]; grind [Function.update_apply]
    closer := by have := h.closer; dsimp only [State.unwait]; grind [Function.update_apply]
    tasks := by have := h.tasks; dsimp only [State.unwait]; grind }

/-- The last child of a scope ended. -/
theorem wake (h : Closing s tasks) (hf : Flow s tasks') {i : ScopeId} (hw : (s.scope i).closer = some w)
    (hn : (s.scope i).children = []) :
    Closing ((s.setScope i fun x => { x with closer := none }).unwait w) (.resume w (.next undef) :: tasks) := by
  have hcl := hf.closer
  have hpaused := hf.paused
  have hinj := fun j => h.closer_inj (j := j) hw
  exact { h.setFiber (k := fun x => { x with wait := if x.wait = some w then none else x.wait })
      (f := (s.wait w).fiber) rfl with
    closing := by have := h.closing; dsimp only [State.unwait, State.setScope]; grind [Function.update_apply]
    closer := by have := h.closer; dsimp only [State.unwait, State.setScope]; grind [Function.update_apply]
    tasks := by have := h.tasks; dsimp only [State.unwait, State.setScope]; grind [Task.wait]
    exit := by have := h.exit; dsimp only [State.unwait, State.setScope]; grind [Function.update_apply, Scope.exited_iff] }

/-- Another continuation runs again. -/
theorem unpark (h : Closing s (t :: tasks)) (hf : Flow s (t :: tasks)) (ht : t.wait = some w)
    (hc : (s.wait w).closing = false) (inp : Input) : Closing (s.unpark w ends inp) tasks := by
  obtain ⟨hlive, hsusp, hpaused⟩ := hf.taken t (by simp) w ht
  exact { h with
    running := by
      have := h.running
      have := h.closing (s.wait w).gen
      dsimp only [State.unpark]; grind [Act.gen?]
    closing := by have := h.closing; dsimp only [State.unpark]; grind [Function.update_apply]
    closingWait := by have := h.closingWait; dsimp only [State.unpark]; grind [Function.update_apply]
    tasks := fun t ht => h.tasks t (List.mem_cons_of_mem _ ht) }

/-- The continuation of a scope that waited for its children runs again, and `$scope` returns or throws. -/
theorem resumeScope (h : Closing s (t :: tasks)) (hf : Flow s (t :: tasks)) (hm : Members s tasks') (ht : t.wait = some w)
    (hc : (s.wait w).closing) : Closing ((s.unpark w ends (.next undef)).input (s.wait w).gen (.next undef)) tasks := by
  obtain ⟨hlive, hsusp, hpaused⟩ := hf.taken t (by simp) w ht
  obtain ⟨i, r, hfr⟩ := h.closingWait _ w hpaused hc
  obtain ⟨more, hfs⟩ := h.head_eq hfr
  have hmore : ∀ j r', .closing j r' ∉ more := fun j r' => by simpa [hfs] using h.head (s.wait w).gen j r'
  have hdone : (s.scope i).closed := closed_of hm hfr
  have hbody := (hm.closings _ i r hfr).2.2
  obtain ⟨w', hw', -, -, hchildren⟩ := h.closing _ i r hfr
  obtain rfl : w = w' := by simpa [hpaused] using hw'
  have hinput : (s.unpark w ends (.next undef)).input (s.wait w).gen (.next undef) =
      State.setScope (State.setFrames (State.setFiber { s.unpark w ends (.next undef) with advances := s.advances + 1 }
        (s.fiberOf (s.wait w).gen) fun x => { x with holds := x.holds.erase (s.wait w).gen }) (s.wait w).gen more) i
        fun x => { x with ended := true, exit := some (x.outcome r) } := by
    simp [State.input, State.unpark, hfs]
  rw [hinput]
  have hne : ∀ j v, (s.scope j).closer = some v → (s.wait v).gen ≠ (s.wait w).gen := by
    intro j v hj he
    have hv := hf.live v (h.closer j v hj).1 (hf.closer j v hj).1
    obtain rfl : v = w := by simpa [he, hpaused] using hv.symm
    simp [(h.closer j v hj).1] at hlive
  dsimp only [State.unpark, State.setFiber, State.setFrames, State.setScope]
  exact {
    head := by
      have := h.head
      have := fun j r' hm => hmore j r' (List.mem_of_mem_tail hm)
      dsimp only; grind [Function.update_apply]
    running := by
      have := h.running
      have := h.closing
      dsimp only; grind [Function.update_apply, Act.gen?]
    closing := by
      have := h.closing
      dsimp only; grind [Function.update_apply]
    closingWait := by
      have := h.closingWait
      dsimp only; grind [Function.update_apply]
    closer := by
      have := h.closer
      dsimp only; grind [Function.update_apply]
    tasks := fun t ht => h.tasks t (List.mem_cons_of_mem _ ht)
    exit := by
      have := h.exit
      dsimp only; grind [Function.update_apply, Scope.exited_iff, Scope.outcome]
    holds := by
      have := h.holds
      dsimp only; grind [Function.update_apply, Frame.holds] }

theorem newWait (h : Closing s tasks) (hf : Flow s tasks) (closing performs : Bool) :
    Closing (s.newWait g ends closing performs) tasks := by
  have hlt := @hf.lt
  have hcl := hf.closer
  have hpaused := hf.paused
  exact { h with
    closing := by have := h.closing; dsimp only [State.newWait]; grind [Function.update_apply]
    closingWait := by have := h.closingWait; dsimp only [State.newWait]; grind [Function.update_apply]
    closer := by have := h.closer; dsimp only [State.newWait]; grind [Function.update_apply]
    tasks := by
      have := h.tasks
      have := hf.taken
      dsimp only [State.newWait]; grind [Function.update_apply] }

theorem park (h : Closing s tasks) (hw : Unanswered s w) (hc : (s.wait w).closing = false) :
    Closing (s.park w) tasks := by
  obtain ⟨more, hs⟩ := hw.stack
  have hrun := h.running (s.wait w).gen (by simp [hs, Act.gen?])
  exact { h with
    running := by have := h.running; dsimp only [State.park]; grind
    closing := by have := h.closing; dsimp only [State.park]; grind [Function.update_apply]
    closingWait := by have := h.closingWait; dsimp only [State.park]; grind [Function.update_apply] }

theorem suspend (h : Closing s tasks) (hw : Unanswered s w) (hc : (s.wait w).closing = false) :
    Closing (s.suspend w) tasks := by
  have hp := h.park hw hc
  dsimp only [State.suspend]
  cases (s.wait w).ends with
  | main => exact hp.setFiber rfl
  | settled v => exact hp.setOp v _
  | orphan => exact hp

/-- `$scope` waits for its children, but for what `suspend` does to the fiber or the operation. -/
theorem closePark (h : Closing s tasks) (hf : Flow s tasks) (hs : s.stack = .gen g ends :: rest)
    {i : ScopeId} {r : Result} (hi : ∀ g' r', .closing i r' ∉ s.frames g') (hn : (s.scope i).children ≠ []) :
    Closing (State.setScope (State.park (State.newWait (State.setFrames
        (s.setFiber (s.fiberOf g) fun x => { x with holds := g :: x.holds }) g (.closing i r :: s.frames g))
        g ends true false) s.nextWait) i fun x => { x with closer := some s.nextWait }) tasks := by
  have hrun : g ∈ s.stack.filterMap Act.gen? := by simp [hs, Act.gen?]
  have hmore := h.running g hrun
  have hpaused := (hf.running g hrun).1
  have hlt := @hf.lt
  have hcl := hf.closer
  have hpausedOf := hf.paused
  have hnodup := hf.runningNodup
  simp only [hs, List.filterMap_cons, Act.gen?, List.nodup_cons] at hnodup
  have hcloser : ∀ j v, (s.scope j).closer = some v → v < s.nextWait ∧ (s.wait v).gen ≠ g := by
    intro j v hj
    have hv := hf.live v (h.closer j v hj).1 (hf.closer j v hj).1
    exact ⟨hf.lt (hf.closer j v hj).1, fun he => by simp [he, hpaused] at hv⟩
  dsimp only [State.park, State.newWait, State.setFiber, State.setFrames, State.setScope]
  simp only [hs, List.tail_cons, Function.update_self]
  exact {
    head := by
      have := h.head
      dsimp only; grind [Function.update_apply]
    running := by
      have := h.running
      dsimp only; simp only [hs, List.filterMap_cons, Act.gen?] at this; grind [Function.update_apply]
    closing := by
      have := h.closing
      dsimp only; grind [Function.update_apply]
    closingWait := by
      have := h.closingWait
      dsimp only; grind [Function.update_apply]
    closer := by
      have := h.closer
      dsimp only; grind [Function.update_apply]
    tasks := by
      have := h.tasks
      have := hf.taken
      dsimp only; grind [Function.update_apply]
    exit := by
      have := h.exit
      dsimp only; grind [Function.update_apply, Scope.exited_iff]
    holds := by
      have := h.holds
      dsimp only; grind [Function.update_apply, Frame.holds] }

/-! ## The stack -/

theorem pop (h : Closing s tasks) {a : Act} (hs : s.stack = a :: rest) : Closing { s with stack := rest } tasks :=
  { h with running := by have := h.running; grind }

theorem push (h : Closing s tasks) {a : Act} (hg : ∀ g, a.gen? = some g → ∀ i r, .closing i r ∉ s.frames g) :
    Closing (s.pushAct a) tasks :=
  { h with running := by have := h.running; dsimp only [State.pushAct]; grind }

theorem newGen (h : Closing s tasks) (hf : Flow s tasks') (f : FiberId) : Closing (s.newGen f).2 tasks := by
  have hfresh := hf.freshGen s.nextGen (Nat.le_refl _)
  exact { h with
    holds := by have := h.holds; dsimp only [State.newGen]; grind [Function.update_apply] }

/-! ## New objects -/

theorem newScope (h : Closing s tasks) (hm : Members s tasks') {x : Scope} (hc : x.closer = none) (he : x.exit = none) :
    Closing { s with nextScope := s.nextScope + 1, scope := Function.update s.scope s.nextScope x } tasks := by
  have hlt := hm.closings
  exact { h with
    closing := by have := h.closing; dsimp only; grind [Function.update_apply]
    closer := by have := h.closer; dsimp only; grind [Function.update_apply]
    exit := by have := h.exit; dsimp only; grind [Function.update_apply, Scope.exited_iff] }

theorem newFiber (h : Closing s tasks) (hm : Members s tasks') (hf : Flow s tasks') {i : ScopeId}
    (hc : (s.scope i).closed = false) :
    Closing (State.setScope
      { s with nextFiber := s.nextFiber + 1, fiber := Function.update s.fiber s.nextFiber { scope := some i } } i
      fun x => { x with children := x.children ++ [s.nextFiber] }) tasks := by
  have hgen := hm.genFiber
  have hfr := hf.freshGen
  have hclosed := fun {g : GenId} {r : Result} (hr : .closing i r ∈ s.frames g) => closed_of hm hr
  exact { h with
    closing := by have := h.closing; dsimp only [State.setScope]; grind [Function.update_apply]
    closer := by have := h.closer; dsimp only [State.setScope]; grind [Function.update_apply]
    exit := by have := h.exit; dsimp only [State.setScope]; grind [Function.update_apply, Scope.exited_iff]
    holds := by have := h.holds; dsimp only [State.setScope]; grind [Function.update_apply] }

end Closing
end Emela.Runtime
