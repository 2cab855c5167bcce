import Emela.Runtime.Lemmas.Runs

/-!
# What no step takes back

A result of a fiber, the failures of the members of a scope and what was passed to the caller of an operation stay,
and a run that is over stays over and advances nothing.
-/

namespace Emela.Runtime

structure Lasts (s s' : State) : Prop where
  result : ∀ f r, (s.fiber f).result = some r → (s'.fiber f).result = some r
  failures : ∀ i, (s.scope i).failures <+: (s'.scope i).failures
  passed : ∀ w inp, s.passed w = some inp → s'.passed w = some inp
  isOver : s.isOver → s'.isOver ∧ s'.advances = s.advances

variable {s s' s'' : State} {tasks : List Task} {w : WaitId} {g : GenId} {ends : End} {inp : Input}
  {current : Option FiberId} {i : ScopeId} {f : FiberId}

theorem Scope.failed_failures (x : Scope) (c : Cause) : (x.failed c).failures = x.failures ++ [c] := by
  simp only [Scope.failed]
  split <;> rfl

namespace Lasts

theorem same (hf : ∀ f, (s'.fiber f).result = (s.fiber f).result) (hs : s'.scope = s.scope) (hp : s'.passed = s.passed)
    (ho : s'.isOver = s.isOver) (ha : s'.advances = s.advances) : Lasts s s' where
  result := fun f _ hr => (hf f).trans hr
  failures := fun _ => hs ▸ List.prefix_refl _
  passed := fun _ _ hw => hp ▸ hw
  isOver := fun h => ⟨ho ▸ h, ha⟩

theorem refl (s : State) : Lasts s s := same (fun _ => rfl) rfl rfl rfl rfl

theorem trans (h : Lasts s s') (h' : Lasts s' s'') : Lasts s s'' where
  result := fun f r hr => h'.result f r (h.result f r hr)
  failures := fun i => (h.failures i).trans (h'.failures i)
  passed := fun w inp hw => h'.passed w inp (h.passed w inp hw)
  isOver := fun ho => ⟨(h'.isOver (h.isOver ho).1).1, (h'.isOver (h.isOver ho).1).2.trans (h.isOver ho).2⟩

/-- What comes after a change of other fields. -/
theorem after (h : Lasts s' s'') (hf : ∀ f, (s'.fiber f).result = (s.fiber f).result) (hs : s'.scope = s.scope)
    (hp : s'.passed = s.passed) (ho : s'.isOver = s.isOver) (ha : s'.advances = s.advances) : Lasts s s'' :=
  (same hf hs hp ho ha).trans h

/-- One fiber changes, but not its result. -/
theorem oneFiber {x : Fiber} (hf : s'.fiber = Function.update s.fiber f x) (hx : x.result = (s.fiber f).result)
    (hs : s'.scope = s.scope) (hp : s'.passed = s.passed) (ho : s'.isOver = s.isOver)
    (ha : s'.advances = s.advances) : Lasts s s' :=
  same (fun x => by rw [hf]; grind [Function.update_apply]) hs hp ho ha

/-- One scope changes, and failures of its members may be added. -/
theorem setScope {k : Scope → Scope} (hk : (s.scope i).failures <+: (k (s.scope i)).failures) :
    Lasts s (s.setScope i k) where
  result := fun _ _ hr => hr
  failures := fun j => by
    by_cases he : j = i
    · subst he
      simpa [State.setScope] using hk
    · simp [State.setScope, Function.update_of_ne he]
  passed := fun _ _ hw => hw
  isOver := fun h => ⟨h, rfl⟩

theorem setFiber {k : Fiber → Fiber} (hk : (k (s.fiber f)).result = (s.fiber f).result) : Lasts s (s.setFiber f k) :=
  oneFiber rfl hk rfl rfl rfl rfl

/-! ## Interruptions -/

theorem unwait (s : State) (w : WaitId) : Lasts s (s.unwait w) :=
  oneFiber rfl rfl rfl rfl rfl rfl

theorem schedule (s : State) (t : Task) : Lasts s (s.schedule t) := same (fun _ => rfl) rfl rfl rfl rfl

theorem enqueue (s : State) (t : Task) : Lasts s (s.enqueue t) := same (fun _ => rfl) rfl rfl rfl rfl

theorem dropFuel (n : Nat) : ∀ (s : State) (w : WaitId), Lasts s (State.dropFuel n s w) := by
  induction n with
  | zero => exact fun s _ => refl s
  | succ n ih =>
      intro s w
      have h1 : Lasts s { s.unwait w with dropped := Function.update s.dropped w true } :=
        (unwait s w).trans (same (fun _ => rfl) rfl rfl rfl rfl)
      have h2 : ∀ b : Bool, Lasts s { s.unwait w with dropped := Function.update s.dropped w true, cut := b } :=
        fun b => h1.trans (same (fun _ => rfl) rfl rfl rfl rfl)
      simp only [State.dropFuel]
      split
      · split
        · next v _ =>
            split
            · exact (h2 _).trans ((ih _ v).trans (enqueue _ _))
            · exact h1
        · exact h1
      · exact h1

theorem fiberInterrupt (s : State) (f : FiberId) (target : Option ScopeId) : Lasts s (s.fiberInterrupt f target) := by
  have h1 : Lasts s (s.setFiber f (·.ask target)) := setFiber rfl
  simp only [State.fiberInterrupt]
  split
  · exact h1
  · split
    · split
      · exact h1.trans ((dropFuel _ _ _).trans (schedule _ _))
      · exact h1
    · exact h1

theorem interruptAll (l : List FiberId) : ∀ s : State, Lasts s (s.interruptAll l) := by
  induction l with
  | nil => exact refl
  | cons f l ih => exact fun s => (fiberInterrupt s f none).trans (ih _)

theorem deliver (s : State) (f : FiberId) (g : GenId) : Lasts s (s.deliver f g).2 := by
  have h1 : Lasts s { s with unwound := (s.deliver f g).2.unwound } := same (fun _ => rfl) rfl rfl rfl rfl
  exact h1.trans (setFiber (k := fun x => x.unwind (s.target f)) (Fiber.unwind_rest _ _).2.2.1)

/-! ## Continuations -/

/-- A generator is advanced only while the run is not over. -/
theorem input (ho : s.isOver = false) (g : GenId) (inp : Input) : Lasts s (s.input g inp) := by
  by_cases hn : ∃ i r rest, s.frames g = .closing i r :: rest
  · obtain ⟨i, r, frames, hf⟩ := hn
    obtain ⟨k, he, hk⟩ := s.input_closing hf inp
    rw [he]
    have h1 : Lasts s { s with advances := s.advances + 1 } := ⟨fun _ _ h => h, fun _ => List.prefix_refl _, fun _ _ h => h, by simp [ho]⟩
    have h2 := h1.trans (setFiber (f := s.fiberOf g) (k := fun x => { x with holds := x.holds.erase g }) rfl)
    refine Lasts.trans (h2.trans ?_) (setScope ?_)
    · exact same (fun _ => rfl) rfl rfl rfl rfl
    · exact hk _ ▸ List.prefix_refl _
  · rw [s.input_plain (fun i r rest hf => hn ⟨i, r, rest, hf⟩)]
    exact ⟨fun _ _ h => h, fun _ => List.prefix_refl _, fun _ _ h => h, by simp [ho]⟩

theorem continued (s : State) (w : WaitId) (ends : End) (inp : Input) : Lasts s (s.continue w ends inp) := by
  simp only [State.continue]
  split
  · exact refl s
  · next ho =>
      have h1 : Lasts s (s.unpark w ends inp) := same (fun _ => rfl) rfl rfl rfl rfl
      exact h1.trans (input (by simpa [State.unpark] using ho) _ _)

theorem loop (s : State) (g : GenId) (inp : Input) : Lasts s (s.loop g inp) := by
  simp only [State.loop]
  split
  · exact same (fun _ => rfl) rfl rfl rfl rfl
  · next ho => exact input (by simpa using ho) _ _

theorem enter (s : State) (g : GenId) (ends : End) (inp : Input) : Lasts s (s.enter g ends inp) := by
  simp only [State.enter]
  split
  · exact refl s
  · next ho =>
      have h1 : Lasts s (s.pushAct (.gen g ends)) := same (fun _ => rfl) rfl rfl rfl rfl
      exact h1.trans (input (by simpa [State.pushAct] using ho) _ _)

theorem fiberResume (s : State) (w : WaitId) (inp : Input) : Lasts s (s.fiberResume w inp) := by
  simp only [State.fiberResume]
  split
  · split
    · have h1 : Lasts s { s with overtaken := Function.update s.overtaken w true } := same (fun _ => rfl) rfl rfl rfl rfl
      exact h1.trans ((deliver _ _ _).trans (continued _ _ _ _))
    · exact continued _ _ _ _
  · exact continued _ _ _ _

theorem cont (s : State) (current : Option FiberId) (w : WaitId) (inp : Input) : Lasts s (s.cont current w inp) := by
  simp only [State.cont]
  split
  · split
    · exact (unwait s w).trans (continued _ _ _ _)
    · exact (unwait s w).trans (schedule _ _)
  · exact refl s

theorem suspend (s : State) (w : WaitId) : Lasts s (s.suspend w) := by
  have h1 : Lasts s (s.park w) := same (fun _ => rfl) rfl rfl rfl rfl
  simp only [State.suspend]
  split
  · exact h1.trans (setFiber rfl)
  · exact h1.trans (same (fun _ => rfl) rfl rfl rfl rfl)
  · exact h1

theorem reply (s : State) (w : WaitId) (inp : Input) : Lasts s (s.reply w inp) := by
  simp only [State.reply]
  split
  · exact loop _ _ _
  · have h1 : Lasts s { s with received := Function.update s.received w (s.received w ++ [inp]) } :=
      same (fun _ => rfl) rfl rfl rfl rfl
    exact h1.trans (loop _ _ _)

/-! ## Operations -/

theorem rootFinish (s : State) (r : Result) : Lasts s (s.rootFinish r) := by
  simp only [State.rootFinish]
  split
  · exact refl s
  · next ho => exact ⟨fun _ _ h => h, fun _ => List.prefix_refl _, fun _ _ h => h, fun h => absurd h ho⟩

theorem pass (hn : s.passed w = none) (current : Option FiberId) (inp : Input) : Lasts s (s.pass current w inp) := by
  have h1 : Lasts s (s.setPassed w inp) :=
    { result := fun _ _ h => h
      failures := fun _ => List.prefix_refl _
      passed := fun v inp' hv => by
        have hne : v ≠ w := by
          rintro rfl
          simp [hn] at hv
        simpa [State.setPassed, State.setOp, Function.update_of_ne hne] using hv
      isOver := fun h => ⟨h, rfl⟩ }
  simp only [State.pass]
  split
  · exact h1
  · exact h1.trans (cont _ _ _ _)

theorem not_passed (h : Passing s tasks) (hu : (s.op w).used = false) : s.passed w = none := by
  simpa [hu] using h.used w

theorem resume (h : Passing s tasks) (current : Option FiberId) (w : WaitId) (v : Value) :
    Lasts s ((s.resume current w v).getD s) := by
  simp only [State.resume]
  split
  · exact refl s
  · split
    · exact refl s
    · next hu =>
        have hn := not_passed h (w := w) (by simpa using hu)
        have h1 : Lasts s { s with resumed := Function.update s.resumed w true } := same (fun _ => rfl) rfl rfl rfl rfl
        exact h1.trans (pass (s := { s with resumed := Function.update s.resumed w true }) hn _ _)

theorem settled (h : Passing s tasks) (current : Option FiberId) (w : WaitId) (r : Result) :
    Lasts s (s.settled current w r) := by
  simp only [State.settled]
  split
  · split
    · exact rootFinish _ _
    · next hu => exact pass (not_passed h (by simpa using hu)) _ _
  · split
    · exact rootFinish _ _
    · next hu => exact pass (not_passed h (by simpa using hu)) _ _
  · exact refl s

theorem performed (s : State) (w : WaitId) : Lasts s (s.performed w) := by
  have h1 : Lasts s (s.popAct.setOp w fun x => { x with sync := false }) := same (fun _ => rfl) rfl rfl rfl rfl
  simp only [State.performed]
  split
  · exact h1.trans (reply _ _ _)
  · exact h1.trans (suspend _ _)

/-! ## Scopes -/

theorem memberEnded (s : State) (i : ScopeId) (r : Result) : Lasts s (s.memberEnded i r) := by
  simp only [State.memberEnded, State.scopeFailed, State.interruptMembers]
  split
  · next c _ =>
      have h1 : Lasts s (s.setScope i (·.failed c)) := setScope (Scope.failed_failures _ c ▸ List.prefix_append _ _)
      have h2 := h1.trans (interruptAll (s.setScope i (·.failed c) |>.scope i).children _)
      split
      · exact h1
      · split
        · exact h2
        · exact h2.trans ((fiberInterrupt _ _ _).after (fun _ => rfl) rfl rfl rfl rfl)
  · exact refl s

theorem wakeCloser (s : State) (current : Option FiberId) (i : ScopeId) : Lasts s (s.wakeCloser current i) := by
  simp only [State.wakeCloser]
  split
  · exact (setScope (List.prefix_refl _)).trans (cont _ _ _ _)
  · exact refl s

theorem childEnded (s : State) (current : Option FiberId) (i : ScopeId) (f : FiberId) (r : Result) :
    Lasts s (s.childEnded current i f r) := by
  have h1 : Lasts s (s.setScope i fun x => { x with children := x.children.erase f }) := setScope (List.prefix_refl _)
  exact h1.trans ((memberEnded _ _ _).trans (wakeCloser _ _ _))

theorem rootEnded (s : State) (r : Result) : Lasts s (s.rootEnded r) := by
  simp only [State.rootEnded]
  split <;> exact rootFinish _ _

/-- A fiber ends once. -/
theorem fiberFinish (s : State) (current : Option FiberId) (f : FiberId) (r : Result) :
    Lasts s (s.fiberFinish current f r) := by
  simp only [State.fiberFinish]
  split
  · exact refl s
  · next hr =>
      have hr : (s.fiber f).result = none := by simpa using hr
      have h1 : Lasts s (s.setFiber f fun x => { x with result := some r, wait := none, watchers := [] }) :=
        { result := fun x r' hx => by
            have hne : x ≠ f := by
              rintro rfl
              simp [hr] at hx
            simpa [State.setFiber, Function.update_of_ne hne] using hx
          failures := fun _ => List.prefix_refl _
          passed := fun _ _ h => h
          isOver := fun h => ⟨h, rfl⟩ }
      split
      · exact h1.trans (rootEnded _ _)
      · exact h1.trans ((childEnded _ _ _ _ _).after (fun _ => rfl) rfl rfl rfl rfl)

theorem ended (h : Passing s tasks) (f : FiberId) (ends : End) (r : Result) : Lasts s (s.ended f ends r) := by
  cases ends with
  | main => exact fiberFinish _ _ _ _
  | settled w => exact settled h _ _ _
  | orphan =>
      simp only [State.ended]
      split
      · exact same (fun _ => rfl) rfl rfl rfl rfl
      · exact refl s

/-! ## Requests -/

theorem watchEnd (s : State) (w : WaitId) (verb : Verb) (f : FiberId) :
    Lasts s (match (s.fiber f).result with
      | some r => s.reply w (verb.input r)
      | none => (s.suspend w).setFiber f fun x => { x with watchers := x.watchers ++ [⟨w, verb⟩] }) := by
  split
  · exact reply _ _ _
  · exact (suspend _ _).trans (setFiber rfl)

theorem request (s : State) (w : WaitId) (req : Request) : Lasts s (s.request w req) := by
  cases req with
  | pause =>
      have h1 : Lasts s { s.suspend w with pauses := (s.suspend w).pauses + 1 } :=
        (suspend s w).trans (same (fun _ => rfl) rfl rfl rfl rfl)
      simp only [State.request]
      split
      · exact reply _ _ _
      · split
        · exact h1.trans (same (fun _ => rfl) rfl rfl rfl rfl)
        · exact h1.trans (enqueue _ _)
  | await => exact (suspend s w).trans (same (fun _ => rfl) rfl rfl rfl rfl)
  | deferredAwait d =>
      simp only [State.request]
      split
      · exact reply _ _ _
      · split
        · exact reply _ _ _
        · exact (suspend s w).trans (same (fun _ => rfl) rfl rfl rfl rfl)
  | watch verb f =>
      dsimp only [State.request]
      split
      · exact reply _ _ _
      · have h1 : Lasts s (if verb = .interrupt then s.fiberInterrupt f none else s) := by
          split
          · exact fiberInterrupt _ _ _
          · exact refl s
        split
        · next hv =>
            rw [if_pos hv.1] at h1 ⊢
            split
            · exact h1.trans ((deliver _ _ _).trans (reply _ _ _))
            · exact h1.trans (reply _ _ _)
        · exact h1.trans (watchEnd _ _ _ _)
  | perform => exact same (fun _ => rfl) rfl rfl rfl rfl
  | close i =>
      simp only [State.request]
      split
      · exact reply _ _ _
      · exact (suspend s w).trans (setScope (List.prefix_refl _))

theorem yield (s : State) (g : GenId) (ends : End) (req : Request) : Lasts s (s.yield g ends req) := by
  simp only [State.yield]
  split
  · exact (deliver _ _ _).trans (loop _ _ _)
  · exact (request _ _ _).after (fun _ => rfl) rfl rfl rfl rfl

theorem scopeEnd (s : State) (g : GenId) (ends : End) (i : ScopeId) (r : Result) (rest : List Frame) :
    Lasts s (s.scopeEnd g ends i r rest) := by
  have h1 : Lasts s (State.setScope (State.setFrames (s.setFiber (s.fiberOf g) (·.leaveScope i)) g rest) i
      fun x => { x with bodyDone := true, closed := true, body := some r }) := by
    refine Lasts.trans ?_ (setScope (List.prefix_refl _))
    exact oneFiber rfl rfl rfl rfl rfl rfl
  have h2 := fun l => (h1.trans (memberEnded _ i r)).trans (interruptAll l _)
  simp only [State.scopeEnd]
  split
  · exact (h2 _).trans (setScope (List.prefix_refl _))
  · refine Lasts.trans ?_ (yield _ _ _ _)
    exact Lasts.trans (h2 _) (oneFiber rfl rfl rfl rfl rfl rfl)

/-! ## The whole run -/

theorem pend (s : State) (f : FiberId) : Lasts s (s.pend f) := by
  refine setFiber ?_
  split <;> rfl

theorem unwindWait (s : State) (w : WaitId) : Lasts s (s.unwindWait w) := by
  simp only [State.unwindWait]
  split
  · exact (dropFuel _ _ _).trans (enqueue _ _)
  · exact refl s

theorem foldl {α : Type} {step : State → α → State} (hstep : ∀ s a, Lasts s (step s a)) (l : List α) :
    ∀ s : State, Lasts s (l.foldl step s) := by
  induction l with
  | nil => exact refl
  | cons a l ih => exact fun s => (hstep s a).trans (ih _)

theorem rootInterrupt (s : State) : Lasts s s.rootInterrupt := by
  have h1 := foldl pend (List.range s.nextFiber) s
  simp only [State.rootInterrupt]
  split
  · exact refl s
  · split
    · exact h1.trans (foldl unwindWait _ _)
    · exact (h1.trans (foldl unwindWait _ _)).trans (same (fun _ => rfl) rfl rfl rfl rfl)

theorem runTask (s : State) (t : Task) : Lasts s (s.runTask t) := by
  cases t with
  | begin f =>
      simp only [State.runTask]
      split
      · exact fiberFinish _ _ _ _
      · exact same (fun _ => rfl) rfl rfl rfl rfl
  | go w =>
      simp only [State.runTask]
      split
      · exact (unwait s w).trans (fiberResume _ _ _)
      · exact refl s
  | resume w inp => exact fiberResume _ _ _
  | interrupted w => exact (deliver _ _ _).trans (continued _ _ _ _)
  | drop w => exact continued _ _ _ _
  | unwind w =>
      simp only [State.runTask]
      split
      · exact (deliver _ _ _).trans (continued _ _ _ _)
      · exact continued _ _ _ _

theorem tick (hs : s.tick = some s') : Lasts s s' := by
  simp only [State.tick] at hs
  split at hs
  · split at hs
    · obtain rfl := Option.some.inj hs
      exact (runTask _ _).after (fun _ => rfl) rfl rfl rfl rfl
    · obtain rfl := Option.some.inj hs
      exact same (fun _ => rfl) rfl rfl rfl rfl
  · obtain rfl := Option.some.inj hs
    exact performed _ _
  · obtain rfl := Option.some.inj hs
    exact same (fun _ => rfl) rfl rfl rfl rfl
  · obtain rfl := Option.some.inj hs
    exact (cont _ _ _ _).after (fun _ => rfl) rfl rfl rfl rfl
  · cases hs

theorem leave (h : Passing s tasks) {r : Result} (hs : s.leave r = some s') : Lasts s s' := by
  have h1 : ∀ stack, Lasts s { s with stack := stack } := fun _ => same (fun _ => rfl) rfl rfl rfl rfl
  have hpass : ∀ stack, Passing { s with stack := stack } tasks := fun _ => { h with }
  simp only [State.leave] at hs
  split at hs
  · split at hs
    · obtain rfl := Option.some.inj hs
      exact (h1 _).trans (ended (hpass _) _ _ _)
    · obtain rfl := Option.some.inj hs
      exact scopeEnd _ _ _ _ _ _
    · cases hs
  · cases r with
    | ok v =>
        obtain rfl := Option.some.inj hs
        exact (h1 _).trans (fiberFinish _ _ _ _)
    | error e =>
        obtain rfl := Option.some.inj hs
        exact (h1 _).trans (fiberFinish _ _ _ _)
  · obtain rfl := Option.some.inj hs
    exact (h1 _).trans (settled (hpass _) _ _ _)
  · cases hs

theorem leaveGen (hs : s.leaveGen = some s') : Lasts s s' := by
  simp only [State.leaveGen] at hs
  split at hs
  · next f rest hstack =>
      obtain rfl := Option.some.inj hs
      have h1 : Lasts s (State.newGen { s with stack := rest } f).2 := same (fun _ => rfl) rfl rfl rfl rfl
      exact h1.trans ((setFiber rfl).trans (enter _ _ _ _))
  · obtain rfl := Option.some.inj hs
    exact (enter _ _ _ _).after (fun _ => rfl) rfl rfl rfl rfl
  · cases hs

theorem scopeBegin (h : Members s tasks) (g : GenId) : Lasts s (s.scopeBegin g) := by
  have h1 : Lasts s (s.setScope s.nextScope fun _ =>
      { fiber := s.fiberOf g, depth := (s.fiber (s.fiberOf g)).scopes, gen := g }) := by
    refine setScope ?_
    exact h.freshScope s.nextScope (Nat.le_refl _) ▸ List.prefix_refl _
  exact h1.trans (oneFiber (f := s.fiberOf g) rfl rfl rfl rfl rfl rfl)

theorem fork (h : Members s tasks) {p : FiberId × State} (hp : s.fork i = some p) : Lasts s p.2 := by
  simp only [State.fork] at hp
  split at hp
  · cases hp
  · obtain rfl := Option.some.inj hp
    refine Lasts.trans ?_ ((setScope (List.prefix_refl _)).trans (schedule _ _))
    exact oneFiber rfl (by simp [h.freshFiber]) rfl rfl rfl rfl

theorem exec (h : Inv s [] none) {e : Event} (hs : s.exec e = some s') : Lasts s s' := by
  cases e with
  | tick => exact tick hs
  | settle w inp =>
      simp only [State.exec, Option.ite_none_right_eq_some] at hs
      obtain rfl := Option.some.inj hs.2
      exact (cont _ _ _ _).after (fun _ => rfl) rfl rfl rfl rfl
  | later w =>
      simp only [State.exec, Option.ite_none_right_eq_some] at hs
      obtain rfl := Option.some.inj hs.2
      exact same (fun _ => rfl) rfl rfl rfl rfl
  | stall =>
      simp only [State.exec, Option.ite_none_right_eq_some] at hs
      obtain rfl := Option.some.inj hs.2
      exact rootInterrupt s
  | abandon =>
      simp only [State.exec, Option.ite_none_right_eq_some] at hs
      obtain rfl := Option.some.inj hs.2
      exact ⟨fun _ _ h => h, fun _ => List.prefix_refl _, fun _ _ h => h, fun _ => ⟨rfl, rfl⟩⟩
  | resume foreign w v =>
      simp only [State.exec, Option.ite_none_right_eq_some] at hs
      obtain rfl := Option.some.inj hs.2
      exact resume h.passing _ w v
  | fork i =>
      simp only [State.exec, Option.ite_none_right_eq_some] at hs
      obtain rfl := Option.some.inj hs.2
      cases hf : s.fork i with
      | none => exact refl s
      | some p => exact fork h.members hf
  | deferred i =>
      simp only [State.exec, Option.ite_none_right_eq_some] at hs
      obtain rfl := Option.some.inj hs.2
      simp only [State.newDeferred]
      split <;> exact same (fun _ => rfl) rfl rfl rfl rfl
  | complete foreign d v =>
      simp only [State.exec, Option.ite_none_right_eq_some] at hs
      obtain rfl := Option.some.inj hs.2
      simp only [State.complete]
      split <;> exact same (fun _ => rfl) rfl rfl rfl rfl
  | hold =>
      simp only [State.exec] at hs
      split at hs
      · obtain rfl := Option.some.inj hs
        exact oneFiber rfl rfl rfl rfl rfl rfl
      · cases hs
  | unhold =>
      simp only [State.exec] at hs
      split at hs
      · split at hs
        · obtain rfl := Option.some.inj hs
          exact oneFiber rfl rfl rfl rfl rfl rfl
        · cases hs
      · cases hs
  | scope =>
      simp only [State.exec] at hs
      split at hs
      · obtain rfl := Option.some.inj hs
        exact scopeBegin h.members _
      · cases hs
  | yield req =>
      simp only [State.exec] at hs
      split at hs
      · simp only [Option.ite_none_right_eq_some] at hs
        obtain rfl := Option.some.inj hs.2
        exact yield _ _ _ _
      · cases hs
  | leave r => exact leave h.passing hs
  | leaveGen => exact leaveGen hs

theorem run (events : List Event) : ∀ {s s' : State}, Inv s [] none → s.run events = some s' → Lasts s s' := by
  induction events with
  | nil =>
      intro s s' _ hs
      exact Option.some.inj hs ▸ refl s
  | cons e events ih =>
      intro s s' h hs
      obtain ⟨s1, he, hs⟩ := Option.bind_eq_some_iff.mp hs
      exact (exec h he).trans (ih (h.exec he) hs)

end Lasts
end Emela.Runtime
