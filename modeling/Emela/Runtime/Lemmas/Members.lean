import Emela.Runtime.Lemmas.Flow

/-!
# Scopes and their members

The children of a scope are its fibers that have not ended, each fiber is begun once and has one main
continuation, and the result of a scope is the first failure of its members.
-/

namespace Emela.Runtime

def Act.begin? : Act → Option FiberId
  | .begin f => some f
  | .drain | .gen _ _ | .op _ | .opEnd _ | .wakes _ _ => none

def Task.begin? : Task → Option FiberId
  | .begin f => some f
  | .go _ | .resume _ _ | .interrupted _ | .drop _ | .unwind _ => none

/-- The scope that runs in the frame. -/
def Frame.scope? : Frame → Option ScopeId
  | .body i | .closing i _ => some i
  | .hold => none

/-- The fibers whose function was not called or has not returned. -/
def State.begins (s : State) (tasks : List Task) : List FiberId :=
  tasks.filterMap Task.begin? ++ s.stack.filterMap Act.begin?

structure Members (s : State) (tasks : List Task) : Prop where
  freshFiber : ∀ f, s.nextFiber ≤ f → s.fiber f = {}
  freshScope : ∀ i, s.nextScope ≤ i → s.scope i = {}
  fiberScope : ∀ f i, (s.fiber f).scope = some i → i < s.nextScope
  genFiber : ∀ g < s.nextGen, s.fiberOf g < s.nextFiber
  scopeFiber : ∀ i < s.nextScope, (s.scope i).gen < s.nextGen ∧ s.fiberOf (s.scope i).gen = (s.scope i).fiber
  -- fibers
  begins : ∀ f ∈ s.begins tasks, f < s.nextFiber ∧ (s.fiber f).main = none ∧ (s.fiber f).result = none
  beginsNodup : (s.begins tasks).Nodup
  main : ∀ f g, (s.fiber f).main = some g → g < s.nextGen ∧ s.fiberOf g = f
  mainRunning : ∀ g, .gen g .main ∈ s.stack → (s.fiber (s.fiberOf g)).main = some g
  mainPaused : ∀ g w, s.paused g = some w → (s.wait w).ends = .main → (s.fiber (s.fiberOf g)).main = some g
  finished : ∀ f g, (s.fiber f).result.isSome → (s.fiber f).main = some g →
    s.paused g = none ∧ g ∉ s.stack.filterMap Act.gen? ∧ s.frames g = []
  -- scopes
  children : ∀ i f, f ∈ (s.scope i).children ↔
    f < s.nextFiber ∧ (s.fiber f).scope = some i ∧ (s.fiber f).result = none
  childrenNodup : ∀ i, (s.scope i).children.Nodup
  closed : ∀ i, (s.scope i).bodyDone ∨ (s.scope i).first.isSome → (s.scope i).closed
  first : ∀ i, (s.scope i).first = (s.scope i).failures.head?
  notes : ∀ i, (s.scope i).notes = (s.scope i).failures.tail
  body : ∀ i, (s.scope i).bodyDone = (s.scope i).body.isSome
  failed : ∀ f i r c, (s.fiber f).scope = some i → (s.fiber f).result = some r → failureOf r = some c →
    c ∈ (s.scope i).failures
  bodyFailed : ∀ i r c, (s.scope i).body = some r → failureOf r = some c → c ∈ (s.scope i).failures
  failures : ∀ i, ∀ c ∈ (s.scope i).failures, (∃ r, (s.scope i).body = some r ∧ failureOf r = some c) ∨
    ∃ f r, (s.fiber f).scope = some i ∧ (s.fiber f).result = some r ∧ failureOf r = some c
  -- frames
  bodies : ∀ g i, .body i ∈ s.frames g → (s.scope i).gen = g ∧ i < s.nextScope ∧ (s.scope i).bodyDone = false
  closings : ∀ g i r, .closing i r ∈ s.frames g →
    (s.scope i).gen = g ∧ i < s.nextScope ∧ (s.scope i).body = some r
  framesNodup : ∀ g, ((s.frames g).filterMap Frame.scope?).Nodup
  inBody : ∀ i < s.nextScope, (s.scope i).bodyDone = false → .body i ∈ s.frames (s.scope i).gen

variable {s : State} {tasks tasks' : List Task} {w : WaitId} {t : Task} {g : GenId} {ends : End} {rest : List Act}

namespace Members

theorem scopeFiber_lt (h : Members s tasks) {i : ScopeId} (hi : i < s.nextScope) :
    (s.scope i).fiber < s.nextFiber := by
  have hg := h.scopeFiber i hi
  exact hg.2 ▸ h.genFiber _ hg.1

theorem frame (h : Members s tasks) {fr : Frame} {i : ScopeId} (hf : fr ∈ s.frames g) (hi : fr.scope? = some i) :
    (s.scope i).gen = g ∧ i < s.nextScope := by
  cases fr with
  | body j =>
      cases hi
      exact ⟨(h.bodies g i hf).1, (h.bodies g i hf).2.1⟩
  | closing j r =>
      cases hi
      exact ⟨(h.closings g i r hf).1, (h.closings g i r hf).2.1⟩
  | hold => cases hi

/-! ## Tasks -/

theorem perm (h : Members s tasks) (hp : tasks.Perm tasks') : Members s tasks' := by
  have hb : (s.begins tasks).Perm (s.begins tasks') := (hp.filterMap _).append_right _
  exact { h with
    begins := fun f hf => h.begins f (hb.mem_iff.mpr hf)
    beginsNodup := hb.nodup_iff.mp h.beginsNodup }

theorem sublist (h : Members s tasks) (hs : tasks'.Sublist tasks) : Members s tasks' := by
  have hb : (s.begins tasks').Sublist (s.begins tasks) := (hs.filterMap _).append (List.Sublist.refl _)
  exact { h with
    begins := fun f hf => h.begins f (hb.subset hf)
    beginsNodup := h.beginsNodup.sublist hb }

theorem cons (h : Members s tasks) (ht : t.begin? = none) : Members s (t :: tasks) := by
  have hb : s.begins (t :: tasks) = s.begins tasks := by simp [State.begins, ht]
  exact { h with
    begins := hb ▸ h.begins
    beginsNodup := hb ▸ h.beginsNodup }

/-! ## Changes that keep the members -/

theorem setFiber (h : Members s tasks) {f : FiberId} {k : Fiber → Fiber} (hf : f < s.nextFiber)
    (hs : (k (s.fiber f)).scope = (s.fiber f).scope) (hm : (k (s.fiber f)).main = (s.fiber f).main)
    (hr : (k (s.fiber f)).result = (s.fiber f).result) : Members (s.setFiber f k) tasks := by
  have es : ∀ x, (Function.update s.fiber f (k (s.fiber f)) x).scope = (s.fiber x).scope := by
    grind [Function.update_apply]
  have em : ∀ x, (Function.update s.fiber f (k (s.fiber f)) x).main = (s.fiber x).main := by
    grind [Function.update_apply]
  have er : ∀ x, (Function.update s.fiber f (k (s.fiber f)) x).result = (s.fiber x).result := by
    grind [Function.update_apply]
  exact { h with
    freshFiber := by have := h.freshFiber; dsimp only [State.setFiber]; grind [Function.update_apply]
    fiberScope := by dsimp only [State.setFiber]; simpa only [es] using h.fiberScope
    begins := by dsimp only [State.setFiber]; simp only [em, er]; exact h.begins
    main := by dsimp only [State.setFiber]; simpa only [em] using h.main
    mainRunning := by dsimp only [State.setFiber]; simpa only [em] using h.mainRunning
    mainPaused := by dsimp only [State.setFiber]; simpa only [em] using h.mainPaused
    finished := by dsimp only [State.setFiber]; simpa only [em, er] using h.finished
    children := by dsimp only [State.setFiber]; simpa only [es, er] using h.children
    failed := by dsimp only [State.setFiber]; simpa only [es, er] using h.failed
    failures := by dsimp only [State.setFiber]; simpa only [es, er] using h.failures }

/-- What `closer`, `ended` and `exit` of a scope are does not matter here. -/
theorem setScope (h : Members s tasks) {i : ScopeId} {k : Scope → Scope} {c : Option WaitId} {e : Bool}
    {r : Option Result} (hi : i < s.nextScope)
    (hk : k (s.scope i) = { s.scope i with closer := c, ended := e, exit := r }) : Members (s.setScope i k) tasks := by
  have e1 : ∀ x, (Function.update s.scope i (k (s.scope i)) x).gen = (s.scope x).gen := by
    grind [Function.update_apply]
  have e2 : ∀ x, (Function.update s.scope i (k (s.scope i)) x).fiber = (s.scope x).fiber := by
    grind [Function.update_apply]
  have e3 : ∀ x, (Function.update s.scope i (k (s.scope i)) x).children = (s.scope x).children := by
    grind [Function.update_apply]
  have e4 : ∀ x, (Function.update s.scope i (k (s.scope i)) x).bodyDone = (s.scope x).bodyDone := by
    grind [Function.update_apply]
  have e5 : ∀ x, (Function.update s.scope i (k (s.scope i)) x).body = (s.scope x).body := by
    grind [Function.update_apply]
  have e6 : ∀ x, (Function.update s.scope i (k (s.scope i)) x).failures = (s.scope x).failures := by
    grind [Function.update_apply]
  exact { h with
    freshScope := by have := h.freshScope; dsimp only [State.setScope]; grind [Function.update_apply]
    scopeFiber := by dsimp only [State.setScope]; simpa only [e1, e2] using h.scopeFiber
    children := by dsimp only [State.setScope]; simpa only [e3] using h.children
    childrenNodup := by dsimp only [State.setScope]; simpa only [e3] using h.childrenNodup
    closed := by have := h.closed; dsimp only [State.setScope]; grind [Function.update_apply]
    first := by have := h.first; dsimp only [State.setScope]; grind [Function.update_apply]
    notes := by have := h.notes; dsimp only [State.setScope]; grind [Function.update_apply]
    body := by dsimp only [State.setScope]; simpa only [e4, e5] using h.body
    failed := by dsimp only [State.setScope]; simpa only [e6] using h.failed
    bodyFailed := by dsimp only [State.setScope]; simpa only [e5, e6] using h.bodyFailed
    failures := by dsimp only [State.setScope]; simpa only [e5, e6] using h.failures
    bodies := by dsimp only [State.setScope]; simpa only [e1, e4] using h.bodies
    closings := by dsimp only [State.setScope]; simpa only [e1, e5] using h.closings
    inBody := by dsimp only [State.setScope]; simpa only [e1, e4] using h.inBody }

theorem setDeferred (h : Members s tasks) (d : DeferredId) (k : Deferred → Deferred) :
    Members (s.setDeferred d k) tasks :=
  { h with }

theorem setOp (h : Members s tasks) (w : WaitId) (k : Op → Op) : Members (s.setOp w k) tasks := { h with }

/-! ## Waits -/

theorem unwait (h : Members s tasks) (hf : Flow s tasks) (hs : s.suspended w) : Members (s.unwait w) tasks := by
  have hlt := hf.lt hs
  have hfib : (s.wait w).fiber < s.nextFiber := hf.fiber w hlt ▸ h.genFiber _ (hf.genLt w hlt)
  exact { h.setFiber (k := fun x => { x with wait := if x.wait = some w then none else x.wait }) hfib rfl rfl rfl with }

theorem unpark (h : Members s tasks) (hf : Flow s tasks') (ht : t ∈ tasks') (htw : t.wait = some w)
    (he : ends = .main → (s.wait w).ends = .main) (inp : Input) : Members (s.unpark w ends inp) tasks := by
  obtain ⟨hlive, hsusp, hpaused⟩ := hf.taken t ht w htw
  exact { h with
    begins := by have := h.begins; dsimp only [State.unpark, State.begins] at this ⊢; grind [Act.begin?]
    beginsNodup := by
      have := h.beginsNodup
      dsimp only [State.unpark, State.begins] at this ⊢; simpa [List.filterMap_cons, Act.begin?] using this
    mainRunning := by
      have := h.mainRunning
      have := h.mainPaused _ w hpaused
      dsimp only [State.unpark]; grind
    mainPaused := by have := h.mainPaused; dsimp only [State.unpark]; grind [Function.update_apply]
    finished := by
      have := h.finished
      dsimp only [State.unpark]; grind [Function.update_apply, Act.gen?] }

theorem newWait (h : Members s tasks) (hf : Flow s tasks) (closing performs : Bool) :
    Members (s.newWait g ends closing performs) tasks :=
  { h with
    mainPaused := by
      have := h.mainPaused
      have := hf.paused
      have := @hf.lt
      dsimp only [State.newWait]; grind [Function.update_apply] }

theorem park (h : Members s tasks) (hw : Unanswered s w) : Members (s.park w) tasks := by
  obtain ⟨more, hs⟩ := hw.stack
  have hb : (s.park w).begins tasks = s.begins tasks := by
    simp [State.park, State.begins, hs, List.filterMap_cons, Act.begin?]
  exact { h with
    begins := hb ▸ h.begins
    beginsNodup := hb ▸ h.beginsNodup
    mainRunning := by have := h.mainRunning; dsimp only [State.park]; grind
    mainPaused := by
      have := h.mainPaused
      have := h.mainRunning
      dsimp only [State.park]; grind [Function.update_apply]
    finished := by
      intro f g hr hm
      have := h.finished f g hr hm
      simp only [hs, List.filterMap_cons, Act.gen?, List.mem_cons, not_or] at this
      dsimp only [State.park]; grind [Function.update_apply] }

theorem suspend (h : Members s tasks) (hf : Flow s tasks) (hw : Unanswered s w) : Members (s.suspend w) tasks := by
  have hp := h.park hw
  have hlt : (s.wait w).fiber < s.nextFiber := hf.fiber w hw.lt ▸ h.genFiber _ (hf.genLt w hw.lt)
  dsimp only [State.suspend]
  cases (s.wait w).ends with
  | main => exact hp.setFiber hlt rfl rfl rfl
  | settled v => exact hp.setOp v _
  | orphan => exact hp

/-! ## The stack -/

theorem pop (h : Members s tasks) {a : Act} (hs : s.stack = a :: rest) : Members { s with stack := rest } tasks := by
  have hsub : rest.Sublist s.stack := by rw [hs]; exact List.sublist_cons_self a rest
  have hb : (State.begins { s with stack := rest } tasks).Sublist (s.begins tasks) :=
    (List.Sublist.refl _).append (hsub.filterMap _)
  exact { h with
    begins := fun f hf => h.begins f (hb.subset hf)
    beginsNodup := h.beginsNodup.sublist hb
    mainRunning := fun g hg => h.mainRunning g (hsub.subset hg)
    finished := fun f g hr hm => by
      obtain ⟨hp, hg, hfr⟩ := h.finished f g hr hm
      exact ⟨hp, fun hn => hg ((hsub.filterMap _).subset hn), hfr⟩ }

theorem push (h : Members s tasks) {a : Act} (hg : a.gen? = none) (hb : a.begin? = none) :
    Members (s.pushAct a) tasks := by
  have he : (s.pushAct a).begins tasks = s.begins tasks := by simp [State.pushAct, State.begins, hb]
  exact { h with
    begins := he ▸ h.begins
    beginsNodup := he ▸ h.beginsNodup
    mainRunning := by have := h.mainRunning; dsimp only [State.pushAct]; grind [Act.gen?]
    finished := by have := h.finished; dsimp only [State.pushAct]; grind }

/-- The function of a fiber is called. -/
theorem pushBegin {f : FiberId} (h : Members s (.begin f :: tasks)) : Members (s.pushAct (.begin f)) tasks := by
  have hp : (s.begins (.begin f :: tasks)).Perm ((s.pushAct (.begin f)).begins tasks) := by
    simp only [State.begins, State.pushAct, List.filterMap_cons, Task.begin?, Act.begin?, List.cons_append]
    exact List.perm_middle.symm
  exact { h with
    begins := fun x hx => h.begins x (hp.mem_iff.mpr hx)
    beginsNodup := hp.nodup_iff.mp h.beginsNodup
    mainRunning := by have := h.mainRunning; dsimp only [State.pushAct]; grind
    finished := by have := h.finished; dsimp only [State.pushAct]; grind [Act.gen?] }

theorem schedule (h : Members s tasks) (t : Task) : Members (s.schedule t) tasks := by
  by_cases hr : s.running = true
  · exact { h with
      begins := by simpa [State.schedule, State.begins, hr] using h.begins
      beginsNodup := by simpa [State.schedule, State.begins, hr] using h.beginsNodup
      mainRunning := by simpa [State.schedule, hr] using h.mainRunning
      finished := by simpa [State.schedule, hr] using h.finished }
  · have hp := h.push (a := .drain) rfl rfl
    exact { hp with
      begins := by simpa [State.schedule, State.pushAct, State.begins, hr] using hp.begins
      beginsNodup := by simpa [State.schedule, State.pushAct, State.begins, hr] using hp.beginsNodup
      mainRunning := by simpa [State.schedule, State.pushAct, hr] using hp.mainRunning
      finished := by simpa [State.schedule, State.pushAct, hr] using hp.finished }

theorem replace (h : Members s tasks) {a b : Act} (hs : s.stack = a :: rest) (hg : b.gen? = none) (hb : b.begin? = none) :
    Members { s with stack := b :: rest } tasks :=
  { (h.pop hs).push (a := b) hg hb with }

/-- A generator for an implementation. -/
theorem newGen (h : Members s tasks) (hf : Flow s tasks') {f : FiberId} (hlt : f < s.nextFiber) :
    Members (s.newGen f).2 tasks := by
  have hstack : ∀ g, .gen g .main ∈ s.stack → g < s.nextGen := fun g hg =>
    (hf.running g (List.mem_filterMap.mpr ⟨_, hg, rfl⟩)).2
  have hpaused : ∀ g w, s.paused g = some w → g < s.nextGen := by
    intro g w hw
    obtain ⟨rfl, -, hs⟩ := hf.paused g w hw
    exact hf.genLt w (hf.lt hs)
  exact { h with
    genFiber := by have := h.genFiber; dsimp only [State.newGen]; grind [Function.update_apply]
    scopeFiber := by have := h.scopeFiber; dsimp only [State.newGen]; grind [Function.update_apply]
    main := by have := h.main; dsimp only [State.newGen]; grind [Function.update_apply]
    mainRunning := by
      have := h.mainRunning
      dsimp only [State.newGen]; grind [Function.update_apply, Act.gen?]
    mainPaused := by have := h.mainPaused; dsimp only [State.newGen]; grind [Function.update_apply] }

/-- A generator runs that is not on the stack. -/
theorem pushGen (h : Members s tasks) (hm : ends = .main → (s.fiber (s.fiberOf g)).main = some g)
    (hr : ∀ f, (s.fiber f).main = some g → (s.fiber f).result = none) : Members (s.pushAct (.gen g ends)) tasks :=
  { h with
    begins := by have := h.begins; dsimp only [State.pushAct, State.begins] at this ⊢; grind [Act.begin?]
    beginsNodup := by
      have := h.beginsNodup
      dsimp only [State.pushAct, State.begins] at this ⊢; simpa [List.filterMap_cons, Act.begin?] using this
    mainRunning := by have := h.mainRunning; dsimp only [State.pushAct]; grind
    finished := by have := h.finished; dsimp only [State.pushAct]; grind [Act.gen?] }

/-- The function of a fiber returned its main continuation. -/
theorem setMain (h : Members s tasks) {f : FiberId} (hb : f ∉ s.begins tasks) (hn : (s.fiber f).main = none)
    (hlt : f < s.nextFiber) (hr : (s.fiber f).result = none) (hg : g < s.nextGen) (hgf : s.fiberOf g = f) :
    Members (s.setFiber f fun x => { x with main := some g }) tasks := by
  have es : ∀ x, (Function.update s.fiber f { s.fiber f with main := some g } x).scope = (s.fiber x).scope := by
    grind [Function.update_apply]
  have er : ∀ x, (Function.update s.fiber f { s.fiber f with main := some g } x).result = (s.fiber x).result := by
    grind [Function.update_apply]
  exact { h with
    freshFiber := by have := h.freshFiber; dsimp only [State.setFiber]; grind [Function.update_apply]
    fiberScope := by dsimp only [State.setFiber]; simpa only [es] using h.fiberScope
    begins := by
      have := h.begins
      intro x hx
      have hx' : x ∈ s.begins tasks := hx
      dsimp only [State.setFiber]; grind [Function.update_apply]
    main := by have := h.main; dsimp only [State.setFiber]; grind [Function.update_apply]
    mainRunning := by have := h.mainRunning; dsimp only [State.setFiber]; grind [Function.update_apply]
    mainPaused := by have := h.mainPaused; dsimp only [State.setFiber]; grind [Function.update_apply]
    finished := by have := h.finished; dsimp only [State.setFiber]; grind [Function.update_apply]
    children := by dsimp only [State.setFiber]; simpa only [es, er] using h.children
    failed := by dsimp only [State.setFiber]; simpa only [es, er] using h.failed
    failures := by dsimp only [State.setFiber]; simpa only [es, er] using h.failures }

/-! ## Frames -/

/-- The frames of a running generator change. -/
theorem setFrames (h : Members s tasks) (hg : g ∈ s.stack.filterMap Act.gen?) (frames : List Frame)
    (hb : ∀ i, .body i ∈ frames → (s.scope i).gen = g ∧ i < s.nextScope ∧ (s.scope i).bodyDone = false)
    (hc : ∀ i r, .closing i r ∈ frames → (s.scope i).gen = g ∧ i < s.nextScope ∧ (s.scope i).body = some r)
    (hn : (frames.filterMap Frame.scope?).Nodup) (hold : ∀ i, .body i ∈ s.frames g → .body i ∈ frames) :
    Members (s.setFrames g frames) tasks :=
  { h with
    finished := by have := h.finished; dsimp only [State.setFrames]; grind [Function.update_apply]
    bodies := by have := h.bodies; dsimp only [State.setFrames]; grind [Function.update_apply]
    closings := by have := h.closings; dsimp only [State.setFrames]; grind [Function.update_apply]
    framesNodup := by have := h.framesNodup; dsimp only [State.setFrames]; grind [Function.update_apply]
    inBody := by have := h.inBody; dsimp only [State.setFrames]; grind [Function.update_apply] }

/-! ## Members that end -/

/-- `y` is `x` once a member ended with `r`. -/
structure Ended (x y : Scope) (r : Result) : Prop where
  gen : y.gen = x.gen
  fiber : y.fiber = x.fiber
  failures : y.failures = x.failures ++ (failureOf r).toList
  first : y.first = y.failures.head?
  notes : y.notes = y.failures.tail
  closed : x.closed ∨ y.first.isSome → y.closed

/-- Only the children, the flags and the body of the scope may differ. -/
structure Alike (x y : Scope) : Prop where
  gen : y.gen = x.gen
  fiber : y.fiber = x.fiber
  failures : y.failures = x.failures
  first : y.first = x.first
  notes : y.notes = x.notes
  closed : x.closed → y.closed

theorem ended_failed (h : Members s tasks) {i : ScopeId} {x : Scope} {r : Result} {c : Cause}
    (hx : Alike (s.scope i) x) (hc : failureOf r = some c) : Ended (s.scope i) (x.failed c) r := by
  have h1 := h.first i
  have h2 := h.notes i
  have h3 := h.closed i
  obtain ⟨hx1, hx2, hx3, hx4, hx5, hx6⟩ := hx
  cases hl : (s.scope i).failures with
  | nil => constructor <;> simp_all [Scope.failed]
  | cons d ds => constructor <;> simp_all [Scope.failed]

theorem ended_none (h : Members s tasks) {i : ScopeId} {x : Scope} {r : Result} (hx : Alike (s.scope i) x)
    (hc : failureOf r = none) : Ended (s.scope i) x r where
  gen := hx.gen
  fiber := hx.fiber
  failures := by simp [hx.failures, hc]
  first := by rw [hx.first, hx.failures]; exact h.first i
  notes := by rw [hx.notes, hx.failures]; exact h.notes i
  closed := by
    rintro (ho | hf)
    · exact hx.closed ho
    · exact hx.closed (h.closed i (Or.inr (hx.first ▸ hf)))

/-- The main fiber ends. -/
theorem finishRoot (h : Members s tasks) {f : FiberId} {r : Result} (hlt : f < s.nextFiber)
    (hs : (s.fiber f).scope = none) (hb : f ∉ s.begins tasks)
    (hm : ∀ g, (s.fiber f).main = some g → s.paused g = none ∧ g ∉ s.stack.filterMap Act.gen? ∧ s.frames g = []) :
    Members (s.setFiber f fun x => { x with result := some r, wait := none, watchers := [] }) tasks :=
  { h with
    freshFiber := by have := h.freshFiber; dsimp only [State.setFiber]; grind [Function.update_apply]
    fiberScope := by have := h.fiberScope; dsimp only [State.setFiber]; grind [Function.update_apply]
    begins := by
      have := h.begins
      intro x hx
      have hx' : x ∈ s.begins tasks := hx
      dsimp only [State.setFiber]; grind [Function.update_apply]
    main := by have := h.main; dsimp only [State.setFiber]; grind [Function.update_apply]
    mainRunning := by have := h.mainRunning; dsimp only [State.setFiber]; grind [Function.update_apply]
    mainPaused := by have := h.mainPaused; dsimp only [State.setFiber]; grind [Function.update_apply]
    finished := by have := h.finished; dsimp only [State.setFiber]; grind [Function.update_apply]
    children := by have := h.children; dsimp only [State.setFiber]; grind [Function.update_apply]
    failed := by have := h.failed; dsimp only [State.setFiber]; grind [Function.update_apply]
    failures := by
      intro i c hc
      obtain hl | ⟨x, r', hx, hx', hc'⟩ := h.failures i c hc
      · exact Or.inl hl
      · refine Or.inr ⟨x, r', ?_⟩
        dsimp only [State.setFiber]; grind [Function.update_apply] }

/-- A child ends. -/
theorem finishChild (h : Members s tasks) {f : FiberId} {i : ScopeId} {r : Result} {k : Scope → Scope}
    (hlt : f < s.nextFiber) (hs : (s.fiber f).scope = some i) (hr : (s.fiber f).result = none)
    (hb : f ∉ s.begins tasks)
    (hm : ∀ g, (s.fiber f).main = some g → s.paused g = none ∧ g ∉ s.stack.filterMap Act.gen? ∧ s.frames g = [])
    (hk : Ended (s.scope i) (k (s.scope i)) r) (hc : (k (s.scope i)).children = (s.scope i).children.erase f)
    (hd : (k (s.scope i)).bodyDone = (s.scope i).bodyDone) (hy : (k (s.scope i)).body = (s.scope i).body) :
    Members ((s.setFiber f fun x => { x with result := some r, wait := none, watchers := [] }).setScope i k) tasks := by
  have hi := h.fiberScope f i hs
  have hnodup := h.childrenNodup
  obtain ⟨k1, k2, k3, k4, k5, k6⟩ := hk
  exact { h with
    freshFiber := by have := h.freshFiber; dsimp only [State.setFiber, State.setScope]; grind [Function.update_apply]
    freshScope := by have := h.freshScope; dsimp only [State.setFiber, State.setScope]; grind [Function.update_apply]
    fiberScope := by have := h.fiberScope; dsimp only [State.setFiber, State.setScope]; grind [Function.update_apply]
    scopeFiber := by have := h.scopeFiber; dsimp only [State.setFiber, State.setScope]; grind [Function.update_apply]
    begins := by
      have := h.begins
      intro x hx
      have hx' : x ∈ s.begins tasks := hx
      dsimp only [State.setFiber, State.setScope]; grind [Function.update_apply]
    main := by have := h.main; dsimp only [State.setFiber, State.setScope]; grind [Function.update_apply]
    mainRunning := by have := h.mainRunning; dsimp only [State.setFiber, State.setScope]; grind [Function.update_apply]
    mainPaused := by have := h.mainPaused; dsimp only [State.setFiber, State.setScope]; grind [Function.update_apply]
    finished := by have := h.finished; dsimp only [State.setFiber, State.setScope]; grind [Function.update_apply]
    children := by
      have := h.children
      have := fun j x => (hnodup j).mem_erase_iff (a := x) (b := f)
      dsimp only [State.setFiber, State.setScope]; grind [Function.update_apply]
    childrenNodup := by
      have := fun j => (hnodup j).erase f
      dsimp only [State.setFiber, State.setScope]; grind [Function.update_apply]
    closed := by have := h.closed; dsimp only [State.setFiber, State.setScope]; grind [Function.update_apply]
    first := by have := h.first; dsimp only [State.setFiber, State.setScope]; grind [Function.update_apply]
    notes := by have := h.notes; dsimp only [State.setFiber, State.setScope]; grind [Function.update_apply]
    body := by have := h.body; dsimp only [State.setFiber, State.setScope]; grind [Function.update_apply]
    failed := by have := h.failed; dsimp only [State.setFiber, State.setScope]; grind [Function.update_apply]
    bodyFailed := by have := h.bodyFailed; dsimp only [State.setFiber, State.setScope]; grind [Function.update_apply]
    failures := by
      intro j c hj
      have hold : c ∈ (s.scope j).failures ∨ j = i ∧ failureOf r = some c := by
        dsimp only [State.setFiber, State.setScope] at hj
        grind [Function.update_apply]
      have hfib := Function.update_self f { s.fiber f with result := some r, wait := none, watchers := [] } s.fiber
      obtain hold | ⟨rfl, hnew⟩ := hold
      · obtain ⟨r', hb, hr'⟩ | ⟨x, r', hx, hx', hr'⟩ := h.failures j c hold
        · refine Or.inl ⟨r', ?_, hr'⟩
          dsimp only [State.setFiber, State.setScope]; grind [Function.update_apply]
        · refine Or.inr ⟨x, r', ?_, ?_, hr'⟩ <;>
            (dsimp only [State.setFiber, State.setScope]; grind [Function.update_apply])
      · exact Or.inr ⟨f, r, by dsimp only [State.setFiber, State.setScope]; rw [hfib]; exact hs,
          by dsimp only [State.setFiber, State.setScope]; rw [hfib], hnew⟩
    bodies := by have := h.bodies; dsimp only [State.setFiber, State.setScope]; grind [Function.update_apply]
    closings := by have := h.closings; dsimp only [State.setFiber, State.setScope]; grind [Function.update_apply]
    inBody := by have := h.inBody; dsimp only [State.setFiber, State.setScope]; grind [Function.update_apply] }

/-- The body of a scope ends. -/
theorem bodyEnded (h : Members s tasks) {i : ScopeId} {r : Result} {k : Scope → Scope} {more : List Frame}
    (hg : g ∈ s.stack.filterMap Act.gen?) (hfr : s.frames g = .body i :: more)
    (hk : Ended (s.scope i) (k (s.scope i)) r) (hc : (k (s.scope i)).children = (s.scope i).children)
    (hd : (k (s.scope i)).bodyDone = true) (hcl : (k (s.scope i)).closed = true)
    (hy : (k (s.scope i)).body = some r) : Members ((s.setFrames g more).setScope i k) tasks := by
  obtain ⟨hgen, hi, hdone⟩ := h.bodies g i (by simp [hfr])
  have hframes := h.framesNodup g
  have hnone : (s.scope i).body = none := by simpa [hdone] using h.body i
  obtain ⟨k1, k2, k3, k4, k5, k6⟩ := hk
  simp only [hfr, List.filterMap_cons, Frame.scope?, List.nodup_cons] at hframes
  have hout : ∀ g' fr, fr ∈ Function.update s.frames g more g' → fr.scope? ≠ some i := by
    intro g' fr hmem hsc
    by_cases he : g' = g
    · subst he
      rw [Function.update_self] at hmem
      exact hframes.1 (List.mem_filterMap.mpr ⟨fr, hmem, hsc⟩)
    · rw [Function.update_of_ne he] at hmem
      exact he ((h.frame hmem hsc).1.symm.trans hgen)
  exact { h with
    freshScope := by have := h.freshScope; dsimp only [State.setFrames, State.setScope]; grind [Function.update_apply]
    scopeFiber := by have := h.scopeFiber; dsimp only [State.setFrames, State.setScope]; grind [Function.update_apply]
    finished := by have := h.finished; dsimp only [State.setFrames, State.setScope]; grind [Function.update_apply]
    children := by have := h.children; dsimp only [State.setFrames, State.setScope]; grind [Function.update_apply]
    childrenNodup := by
      have := h.childrenNodup
      dsimp only [State.setFrames, State.setScope]; grind [Function.update_apply]
    closed := by have := h.closed; dsimp only [State.setFrames, State.setScope]; grind [Function.update_apply]
    first := by have := h.first; dsimp only [State.setFrames, State.setScope]; grind [Function.update_apply]
    notes := by have := h.notes; dsimp only [State.setFrames, State.setScope]; grind [Function.update_apply]
    body := by have := h.body; dsimp only [State.setFrames, State.setScope]; grind [Function.update_apply]
    failed := by have := h.failed; dsimp only [State.setFrames, State.setScope]; grind [Function.update_apply]
    bodyFailed := by have := h.bodyFailed; dsimp only [State.setFrames, State.setScope]; grind [Function.update_apply]
    failures := by
      intro j c hj
      have hold : c ∈ (s.scope j).failures ∨ j = i ∧ failureOf r = some c := by
        dsimp only [State.setFrames, State.setScope] at hj
        grind [Function.update_apply]
      obtain hold | ⟨rfl, hnew⟩ := hold
      · obtain ⟨r', hb, hr'⟩ | hx := h.failures j c hold
        · refine Or.inl ⟨r', ?_, hr'⟩
          dsimp only [State.setFrames, State.setScope]; grind [Function.update_apply]
        · exact Or.inr hx
      · exact Or.inl ⟨r, by dsimp only [State.setFrames, State.setScope]; rw [Function.update_self]; exact hy, hnew⟩
    bodies := by
      have := h.bodies
      dsimp only [State.setFrames, State.setScope]; grind [Function.update_apply, Frame.scope?]
    closings := by
      have := h.closings
      dsimp only [State.setFrames, State.setScope]; grind [Function.update_apply, Frame.scope?]
    framesNodup := by
      have := h.framesNodup
      dsimp only [State.setFrames, State.setScope]; grind [Function.update_apply]
    inBody := by
      have := h.inBody
      dsimp only [State.setFrames, State.setScope]; grind [Function.update_apply] }

theorem newScope (h : Members s tasks) (hg : g ∈ s.stack.filterMap Act.gen?) (hlt : g < s.nextGen) (depth : Nat) :
    Members { s with
      nextScope := s.nextScope + 1
      scope := Function.update s.scope s.nextScope { fiber := s.fiberOf g, depth := depth, gen := g }
      frames := Function.update s.frames g (.body s.nextScope :: s.frames g) } tasks := by
  have hfresh := h.freshScope s.nextScope (Nat.le_refl _)
  have hold := h.children s.nextScope
  have hnew : s.nextScope ∉ (s.frames g).filterMap Frame.scope? := by
    intro hn
    obtain ⟨fr, hfr, hi⟩ := List.mem_filterMap.mp hn
    exact absurd (h.frame hfr hi).2 (Nat.lt_irrefl _)
  exact { h with
    finished := by have := h.finished; dsimp only; grind [Function.update_apply]
    freshScope := by have := h.freshScope; dsimp only; grind [Function.update_apply]
    fiberScope := fun f i hi => Nat.lt_succ_of_lt (h.fiberScope f i hi)
    scopeFiber := by have := h.scopeFiber; dsimp only; grind [Function.update_apply]
    children := by have := h.children; dsimp only; grind [Function.update_apply]
    childrenNodup := by have := h.childrenNodup; dsimp only; grind [Function.update_apply]
    closed := by have := h.closed; dsimp only; grind [Function.update_apply]
    first := by have := h.first; dsimp only; grind [Function.update_apply]
    notes := by have := h.notes; dsimp only; grind [Function.update_apply]
    body := by have := h.body; dsimp only; grind [Function.update_apply]
    failed := by have := h.failed; dsimp only; grind [Function.update_apply]
    bodyFailed := by have := h.bodyFailed; dsimp only; grind [Function.update_apply]
    failures := by have := h.failures; dsimp only; grind [Function.update_apply]
    bodies := by have := h.bodies; dsimp only; grind [Function.update_apply]
    closings := by have := h.closings; dsimp only; grind [Function.update_apply]
    framesNodup := by have := h.framesNodup; dsimp only; grind [Function.update_apply, Frame.scope?]
    inBody := by have := h.inBody; dsimp only; grind [Function.update_apply] }

theorem newFiber (h : Members s tasks) {i : ScopeId} (hi : i < s.nextScope) (hc : (s.scope i).closed = false) :
    Members (State.setScope
      { s with nextFiber := s.nextFiber + 1, fiber := Function.update s.fiber s.nextFiber { scope := some i } } i
      fun x => { x with children := x.children ++ [s.nextFiber] }) (.begin s.nextFiber :: tasks) := by
  have hfresh := h.freshFiber s.nextFiber (Nat.le_refl _)
  have hold := h.children i s.nextFiber
  have hb : s.nextFiber ∉ s.begins tasks := fun hn => absurd (h.begins _ hn).1 (Nat.lt_irrefl _)
  exact { h with
    freshFiber := by have := h.freshFiber; dsimp only [State.setScope]; grind [Function.update_apply]
    freshScope := by have := h.freshScope; dsimp only [State.setScope]; grind [Function.update_apply]
    fiberScope := by have := h.fiberScope; dsimp only [State.setScope]; grind [Function.update_apply]
    genFiber := fun g hg => Nat.lt_succ_of_lt (h.genFiber g hg)
    scopeFiber := by have := h.scopeFiber; dsimp only [State.setScope]; grind [Function.update_apply]
    begins := by
      have := h.begins
      simp only [State.begins, State.setScope] at this ⊢
      simp only [List.filterMap_cons, Task.begin?]
      grind [Function.update_apply]
    beginsNodup := by
      have := h.beginsNodup
      simp only [State.begins, State.setScope] at this hb ⊢
      simp only [List.filterMap_cons, Task.begin?, List.cons_append, List.nodup_cons]
      exact ⟨hb, this⟩
    main := by have := h.main; dsimp only [State.setScope]; grind [Function.update_apply]
    mainRunning := by have := h.mainRunning; dsimp only [State.setScope]; grind [Function.update_apply]
    mainPaused := by have := h.mainPaused; dsimp only [State.setScope]; grind [Function.update_apply]
    finished := by have := h.finished; dsimp only [State.setScope]; grind [Function.update_apply]
    children := by have := h.children; dsimp only [State.setScope]; grind [Function.update_apply]
    childrenNodup := by
      have := h.childrenNodup
      dsimp only [State.setScope]; grind [Function.update_apply]
    closed := by have := h.closed; dsimp only [State.setScope]; grind [Function.update_apply]
    first := by have := h.first; dsimp only [State.setScope]; grind [Function.update_apply]
    notes := by have := h.notes; dsimp only [State.setScope]; grind [Function.update_apply]
    body := by have := h.body; dsimp only [State.setScope]; grind [Function.update_apply]
    failed := by have := h.failed; dsimp only [State.setScope]; grind [Function.update_apply]
    bodyFailed := by have := h.bodyFailed; dsimp only [State.setScope]; grind [Function.update_apply]
    failures := by
      have e1 : ∀ j, ((s.setScope i fun x => { x with children := x.children ++ [s.nextFiber] }).scope j).failures =
          (s.scope j).failures := by dsimp only [State.setScope]; grind [Function.update_apply]
      have e2 : ∀ j, ((s.setScope i fun x => { x with children := x.children ++ [s.nextFiber] }).scope j).body =
          (s.scope j).body := by dsimp only [State.setScope]; grind [Function.update_apply]
      intro j c hj
      obtain ⟨r, hr⟩ | ⟨f, r, hs, hr, hc⟩ := h.failures j c (e1 j ▸ hj)
      · exact Or.inl ⟨r, (e2 j).trans hr.1, hr.2⟩
      · refine Or.inr ⟨f, r, ?_, ?_, hc⟩ <;> (dsimp only [State.setScope]; grind [Function.update_apply])
    bodies := by have := h.bodies; dsimp only [State.setScope]; grind [Function.update_apply]
    closings := by have := h.closings; dsimp only [State.setScope]; grind [Function.update_apply]
    inBody := by have := h.inBody; dsimp only [State.setScope]; grind [Function.update_apply] }

end Members
end Emela.Runtime
