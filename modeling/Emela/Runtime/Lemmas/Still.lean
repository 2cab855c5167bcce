import Emela.Runtime.Scheduler
import Emela.Runtime.Lemmas.Runs

/-!
# What the functions of the scheduler keep

`Keeps s s'`: the interruptions asked for, and that `holds` counts the frames that hold interruptions off.
`Still s s'`: also the Deferreds, and no interruption is delivered.
-/

namespace Emela.Runtime

/-- The Deferreds of a run. -/
def State.cells (s : State) : Nat × (DeferredId → Deferred) := (s.nextDeferred, s.deferred)

/-- `holds` of each fiber has a continuation as often as it runs a release or waits for the children of a scope. -/
def State.Counts (s : State) : Prop :=
  ∀ f g, (s.fiber f).holds.count g = if s.fiberOf g = f then (s.frames g).countP Frame.holds else 0

/-- The wait of a fiber is its own. -/
def State.Own (s : State) : Prop := ∀ f w, (s.fiber f).wait = some w → (s.wait w).fiber = f

/-- The interruption is pending, or was delivered, or the body that it unwinds ended. -/
def State.Owed (s : State) (f : FiberId) (t : Option ScopeId) : Prop :=
  t ∈ (s.fiber f).pending ∨ (s.fiber f).unwinding ∨ ∃ i, t = some i ∧ (i ∈ (s.fiber f).unwinds ∨ (s.scope i).bodyDone)

/-- A fiber is younger than the one that runs the scope it was forked into. -/
def State.Older (s : State) : Prop := ∀ f i, (s.fiber f).scope = some i → (s.scope i).fiber < f

structure Keeps (s s' : State) : Prop where
  wait : s'.wait = s.wait
  holds : ∀ f, (s.fiber f).holds = [] → (s'.fiber f).holds = []
  counts : s.Counts → s'.Counts
  own : s.Own → s'.Own
  older : s.Older → s'.Older
  interrupted : s.Own → ∀ w, .interrupted w ∈ s'.queue →
    .interrupted w ∈ s.queue ∨ (s'.fiber (s.wait w).fiber).holds = []
  unwind : ∀ w, .unwind w ∈ s'.queue → .unwind w ∈ s.queue
  owed : ∀ f t, s.Owed f t → s'.Owed f t

structure Still (s s' : State) : Prop extends Keeps s s' where
  cells : s'.cells = s.cells
  unwound : s'.unwound = s.unwound

variable {s s' s'' : State} {w : WaitId} {g : GenId} {ends : End} {inp : Input} {current : Option FiberId} {i : ScopeId}
  {f : FiberId} {d : DeferredId} {t : Task}

namespace Keeps

theorem trans (h : Keeps s s') (h' : Keeps s' s'') : Keeps s s'' where
  wait := h'.wait.trans h.wait
  holds := fun f hf => h'.holds f (h.holds f hf)
  counts := fun hc => h'.counts (h.counts hc)
  own := fun ho => h'.own (h.own ho)
  older := fun ho => h'.older (h.older ho)
  interrupted := fun ho w hw => by
    obtain hw | hw := h'.interrupted (h.own ho) w hw
    · exact (h.interrupted ho w hw).imp_right (h'.holds _)
    · exact Or.inr (h.wait ▸ hw)
  unwind := fun w hw => h.unwind w (h'.unwind w hw)
  owed := fun f t ht => h'.owed f t (h.owed f t ht)

end Keeps

namespace Still

theorem refl (s : State) : Still s s := { toKeeps := by constructor <;> simp +contextual, cells := rfl, unwound := rfl }

theorem trans (h : Still s s') (h' : Still s' s'') : Still s s'' :=
  { h.toKeeps.trans h'.toKeeps with cells := h'.cells.trans h.cells, unwound := h'.unwound.trans h.unwound }

/-- Fields that do not matter change. -/
theorem same (hf : s'.fiber = s.fiber) (hs : s'.scope = s.scope) (hfr : s'.frames = s.frames) (hfo : s'.fiberOf = s.fiberOf)
    (hw : s'.wait = s.wait) (hc : s'.cells = s.cells) (hu : s'.unwound = s.unwound) (hq : s'.queue ⊆ s.queue) :
    Still s s' where
  cells := hc
  unwound := hu
  wait := hw
  holds := fun f h => by rw [hf]; exact h
  counts := fun h => by simpa only [State.Counts, hf, hfo, hfr] using h
  own := fun h => by simpa only [State.Own, hf, hw] using h
  older := fun h => by simpa only [State.Older, hf, hs] using h
  interrupted := fun _ w h => Or.inl (hq h)
  unwind := fun w h => hq h
  owed := fun f t h => by simpa only [State.Owed, hf, hs] using h

/-- One fiber changes, but not what holds interruptions off. -/
theorem setFiber {k : Fiber → Fiber} (hs : (k (s.fiber f)).scope = (s.fiber f).scope)
    (hh : (k (s.fiber f)).holds = (s.fiber f).holds)
    (hw : ∀ w, (k (s.fiber f)).wait = some w → (s.fiber f).wait = some w ∨ (s.wait w).fiber = f)
    (hp : ∀ t ∈ (s.fiber f).pending, t ∈ (k (s.fiber f)).pending)
    (hu : (k (s.fiber f)).unwinding = (s.fiber f).unwinding) (hus : (k (s.fiber f)).unwinds = (s.fiber f).unwinds) :
    Still s (s.setFiber f k) where
  cells := rfl
  unwound := rfl
  wait := rfl
  holds := fun x => by dsimp only [State.setFiber]; grind [Function.update_apply]
  counts := fun h => by
    intro x g
    have := h x g
    dsimp only [State.setFiber]; grind [Function.update_apply]
  own := fun h => by
    intro x w
    have := h x w
    dsimp only [State.setFiber]; grind [Function.update_apply]
  older := fun h => by
    intro x j
    have := h x j
    dsimp only [State.setFiber]; grind [Function.update_apply]
  interrupted := fun _ w h => Or.inl h
  unwind := fun _ h => h
  owed := fun x t h => by
    simp only [State.Owed, State.setFiber] at h ⊢
    by_cases hx : x = f
    · subst hx
      simp only [Function.update_self, hu, hus]
      exact h.imp_left (hp t)
    · simpa only [Function.update_of_ne hx] using h

theorem setScope {k : Scope → Scope} (hf : (k (s.scope i)).fiber = (s.scope i).fiber)
    (hb : (s.scope i).bodyDone → (k (s.scope i)).bodyDone) : Still s (s.setScope i k) where
  cells := rfl
  unwound := rfl
  wait := rfl
  holds := fun _ h => h
  counts := id
  own := id
  older := fun h => by
    intro x j
    have := h x j
    dsimp only [State.setScope]; grind [Function.update_apply]
  interrupted := fun _ w h => Or.inl h
  unwind := fun _ h => h
  owed := fun x t h => by
    simp only [State.Owed] at h ⊢
    dsimp only [State.setScope]; grind [Function.update_apply]

theorem foldl {α : Type} {step : State → α → State} (hstep : ∀ s a, Still s (step s a)) (l : List α) :
    ∀ s : State, Still s (l.foldl step s) := by
  induction l with
  | nil => exact refl
  | cons a l ih => exact fun s => (hstep s a).trans (ih _)

/-! ## Interruptions -/

/-- A task is queued that neither interrupts nor unwinds a continuation. -/
theorem queued (h : Still s s') (ht : ∀ w, t ≠ .interrupted w ∧ t ≠ .unwind w) (hq : s''.queue = s'.queue ++ [t])
    (hf : s''.fiber = s'.fiber) (hs : s''.scope = s'.scope) (hfr : s''.frames = s'.frames) (hfo : s''.fiberOf = s'.fiberOf)
    (hw : s''.wait = s'.wait) (hc : s''.cells = s'.cells) (hu : s''.unwound = s'.unwound) : Still s s'' := by
  have h1 : Still s' { s'' with queue := s'.queue } := same hf hs hfr hfo hw hc hu fun _ h => h
  have h2 := h.trans h1
  refine { h2 with interrupted := fun ho w hw => h2.interrupted ho w ?_, unwind := fun w hw => h2.unwind w ?_ }
  · have := (ht w).1
    grind
  · have := (ht w).2
    grind

theorem schedule (s : State) {t : Task} (ht : ∀ w, t ≠ .interrupted w ∧ t ≠ .unwind w) : Still s (s.schedule t) :=
  (refl s).queued ht rfl rfl rfl rfl rfl rfl rfl rfl

theorem enqueue (s : State) {t : Task} (ht : ∀ w, t ≠ .interrupted w ∧ t ≠ .unwind w) : Still s (s.enqueue t) :=
  (refl s).queued ht rfl rfl rfl rfl rfl rfl rfl rfl

theorem unwait (s : State) (w : WaitId) : Still s (s.unwait w) := by
  refine Still.trans (setFiber (f := (s.wait w).fiber)
    (k := fun x => { x with wait := if x.wait = some w then none else x.wait }) rfl rfl ?_ (fun _ h => h) rfl rfl)
    (same rfl rfl rfl rfl rfl rfl rfl fun _ h => h)
  intro v hv
  dsimp only at hv; grind

theorem dropFuel (n : Nat) : ∀ (s : State) (w : WaitId), Still s (State.dropFuel n s w) := by
  induction n with
  | zero => exact fun s _ => refl s
  | succ n ih =>
      intro s w
      have h1 : Still s { s.unwait w with dropped := Function.update s.dropped w true } :=
        (unwait s w).trans (same rfl rfl rfl rfl rfl rfl rfl fun _ h => h)
      have h2 : ∀ b : Bool, Still s { s.unwait w with dropped := Function.update s.dropped w true, cut := b } :=
        fun b => h1.trans (same rfl rfl rfl rfl rfl rfl rfl fun _ h => h)
      simp only [State.dropFuel]
      split
      · split
        · next v _ =>
            split
            · exact (h2 _).trans ((ih _ v).trans (enqueue _ (by simp)))
            · exact h1
        · exact h1
      · exact h1

theorem fiberInterrupt (s : State) (f : FiberId) (target : Option ScopeId) : Still s (s.fiberInterrupt f target) := by
  have h1 : Still s (s.setFiber f (·.ask target)) := by
    refine setFiber rfl rfl (fun _ h => Or.inl h) (fun t ht => ?_) rfl rfl
    simp only [Fiber.ask]
    split
    · exact ht
    · exact List.mem_append_left _ ht
  simp only [State.fiberInterrupt]
  split
  · exact h1
  · next hn =>
      simp only [Bool.or_eq_true, Bool.not_eq_true', not_or, Bool.not_eq_true, Bool.not_eq_false,
        List.isEmpty_iff] at hn
      split
      · next w hw =>
          split
          · have h2 := h1.trans (dropFuel (s.setFiber f (·.ask target)).nextWait _ w)
            exact { h2 with
              interrupted := fun ho v hv => by
                simp only [State.schedule, List.mem_append, List.mem_singleton, Task.interrupted.injEq] at hv
                obtain hv | rfl := hv
                · exact h2.interrupted ho v hv
                · exact Or.inr (h2.holds _ (by rw [ho f v hw]; exact hn.2))
              unwind := fun v hv => h2.unwind v (by simpa [State.schedule, State.drop] using hv) }
          · exact h1
      · exact h1

theorem interruptAll (l : List FiberId) (s : State) : Still s (s.interruptAll l) :=
  foldl (fun s f => fiberInterrupt s f none) l s

/-! ## Continuations -/

/-- A scope that waited for its children no longer holds interruptions off. -/
theorem popFrame {fr : Frame} {rest : List Frame} (hfr : s.frames g = fr :: rest) (hh : fr.holds) :
    Still s ((s.setFiber (s.fiberOf g) fun x => { x with holds := x.holds.erase g }).setFrames g rest) where
  cells := rfl
  unwound := rfl
  wait := rfl
  holds := fun x hx => by dsimp only [State.setFiber, State.setFrames]; grind [Function.update_apply]
  counts := fun h => by
    intro x k
    have hx := h x k
    change (Function.update s.fiber (s.fiberOf g)
        { s.fiber (s.fiberOf g) with holds := (s.fiber (s.fiberOf g)).holds.erase g } x).holds.count k =
      if s.fiberOf k = x then (Function.update s.frames g rest k).countP Frame.holds else 0
    by_cases hf : x = s.fiberOf g
    · subst hf
      by_cases hk : k = g
      · subst hk
        simp only [Function.update_self, List.count_erase_self, hx, if_pos, hfr, List.countP_cons_of_pos hh]
        rfl
      · simpa only [Function.update_self, Function.update_of_ne hk, List.count_erase_of_ne hk] using hx
    · rw [Function.update_of_ne hf, hx]
      by_cases hk : k = g
      · rw [hk, if_neg (Ne.symm hf), if_neg (Ne.symm hf)]
      · rw [Function.update_of_ne hk]
  own := fun h => by
    intro x w
    have := h x w
    dsimp only [State.setFiber, State.setFrames]; grind [Function.update_apply]
  older := fun h => by
    intro x j
    have := h x j
    dsimp only [State.setFiber, State.setFrames]; grind [Function.update_apply]
  interrupted := fun _ w h => Or.inl h
  unwind := fun _ h => h
  owed := fun x t h => by
    simp only [State.Owed] at h ⊢
    dsimp only [State.setFiber, State.setFrames]; grind [Function.update_apply]

theorem input (s : State) (g : GenId) (inp : Input) : Still s (s.input g inp) := by
  have h1 : Still s { s with advances := s.advances + 1 } := same rfl rfl rfl rfl rfl rfl rfl fun _ h => h
  simp only [State.input]
  split
  · next j r frames hfr =>
      have h2 := h1.trans (popFrame (g := g) hfr rfl)
      split <;> exact h2.trans (setScope rfl id)
  · exact h1

theorem continued (s : State) (w : WaitId) (ends : End) (inp : Input) : Still s (s.continue w ends inp) := by
  have h1 : Still s (s.unpark w ends inp) := same rfl rfl rfl rfl rfl rfl rfl fun _ h => h
  simp only [State.continue]
  split
  · exact refl s
  · exact h1.trans (input _ _ _)

theorem loop (s : State) (g : GenId) (inp : Input) : Still s (s.loop g inp) := by
  simp only [State.loop]
  split
  · exact same rfl rfl rfl rfl rfl rfl rfl fun _ h => h
  · exact input _ _ _

theorem enter (s : State) (g : GenId) (ends : End) (inp : Input) : Still s (s.enter g ends inp) := by
  have h1 : Still s (s.pushAct (.gen g ends)) := same rfl rfl rfl rfl rfl rfl rfl fun _ h => h
  simp only [State.enter]
  split
  · exact refl s
  · exact h1.trans (input _ _ _)

theorem cont (s : State) (current : Option FiberId) (w : WaitId) (inp : Input) : Still s (s.cont current w inp) := by
  simp only [State.cont]
  split
  · split
    · exact (unwait s w).trans (continued _ _ _ _)
    · exact (unwait s w).trans (schedule _ (by simp))
  · exact refl s

theorem suspend (s : State) (w : WaitId) : Still s (s.suspend w) := by
  have h1 : Still s (s.park w) := same rfl rfl rfl rfl rfl rfl rfl fun _ h => h
  simp only [State.suspend]
  split
  · refine h1.trans (setFiber rfl rfl (fun v hv => Or.inr ?_) (fun _ h => h) rfl rfl)
    cases hv
    rfl
  · exact h1.trans (same rfl rfl rfl rfl rfl rfl rfl fun _ h => h)
  · exact h1

theorem reply (s : State) (w : WaitId) (inp : Input) : Still s (s.reply w inp) := by
  have h1 : Still s { s with received := Function.update s.received w (s.received w ++ [inp]) } :=
    same rfl rfl rfl rfl rfl rfl rfl fun _ h => h
  simp only [State.reply]
  split
  · exact loop _ _ _
  · exact h1.trans (loop _ _ _)

/-! ## Operations -/

theorem rootFinish (s : State) (r : Result) : Still s (s.rootFinish r) := by
  simp only [State.rootFinish]
  split
  · exact refl s
  · exact same rfl rfl rfl rfl rfl rfl rfl (by simp)

theorem pass (s : State) (current : Option FiberId) (w : WaitId) (inp : Input) : Still s (s.pass current w inp) := by
  have h1 : Still s (s.setPassed w inp) := same rfl rfl rfl rfl rfl rfl rfl fun _ h => h
  simp only [State.pass]
  split
  · exact h1
  · exact h1.trans (cont _ _ _ _)

theorem resume (s : State) (current : Option FiberId) (w : WaitId) (v : Value) : Still s ((s.resume current w v).getD s) := by
  have h1 : Still s { s with resumed := Function.update s.resumed w true } := same rfl rfl rfl rfl rfl rfl rfl fun _ h => h
  simp only [State.resume]
  split
  · exact refl s
  · split
    · exact refl s
    · exact h1.trans (pass _ _ _ _)

theorem settled (s : State) (current : Option FiberId) (w : WaitId) (r : Result) : Still s (s.settled current w r) := by
  simp only [State.settled]
  split
  · split
    · exact rootFinish _ _
    · exact pass _ _ _ _
  · split
    · exact rootFinish _ _
    · exact pass _ _ _ _
  · exact refl s

theorem performed (s : State) (w : WaitId) : Still s (s.performed w) := by
  have h1 : Still s (s.popAct.setOp w fun x => { x with sync := false }) := same rfl rfl rfl rfl rfl rfl rfl fun _ h => h
  simp only [State.performed]
  split
  · exact h1.trans (reply _ _ _)
  · exact h1.trans (suspend _ _)

/-! ## Scopes -/

theorem memberEnded (s : State) (i : ScopeId) (r : Result) : Still s (s.memberEnded i r) := by
  simp only [State.memberEnded, State.scopeFailed, State.interruptMembers]
  split
  · next c _ =>
      have h1 : Still s (s.setScope i (·.failed c)) := by
        obtain ⟨hf, hb⟩ : ((s.scope i).failed c).fiber = (s.scope i).fiber ∧
            ((s.scope i).failed c).bodyDone = (s.scope i).bodyDone := by
          simp only [Scope.failed]
          split <;> exact ⟨rfl, rfl⟩
        exact setScope hf (hb ▸ id)
      have h2 := h1.trans (interruptAll (s.setScope i (·.failed c) |>.scope i).children _)
      have h3 : ∀ {s : State} (b : Bool), Still s { s with astray := b } := fun _ =>
        same rfl rfl rfl rfl rfl rfl rfl fun _ h => h
      split
      · exact h1
      · split
        · exact h2
        · exact h2.trans ((h3 _).trans (fiberInterrupt _ _ _))
  · exact refl s

theorem wakeCloser (s : State) (current : Option FiberId) (i : ScopeId) : Still s (s.wakeCloser current i) := by
  simp only [State.wakeCloser]
  split
  · exact (setScope rfl id).trans (cont _ _ _ _)
  · exact refl s

theorem pushAct (s : State) (a : Act) : Still s (s.pushAct a) := same rfl rfl rfl rfl rfl rfl rfl fun _ h => h

theorem childEnded (s : State) (current : Option FiberId) (i : ScopeId) (f : FiberId) (r : Result) :
    Still s (s.childEnded current i f r) := by
  have h1 : Still s (s.setScope i fun x => { x with children := x.children.erase f }) := setScope rfl id
  exact h1.trans ((memberEnded _ _ _).trans (wakeCloser _ _ _))

theorem fiberFinish (s : State) (current : Option FiberId) (f : FiberId) (r : Result) :
    Still s (s.fiberFinish current f r) := by
  simp only [State.fiberFinish]
  split
  · exact refl s
  · have h1 : Still s (s.setFiber f fun x => { x with result := some r, wait := none, watchers := [] }) :=
      setFiber rfl rfl (by simp) (fun _ h => h) rfl rfl
    split
    · simp only [State.rootEnded]
      split <;> exact h1.trans (rootFinish _ _)
    · exact h1.trans ((pushAct _ _).trans (childEnded _ _ _ _ _))

theorem ended (s : State) (f : FiberId) (ends : End) (r : Result) : Still s (s.ended f ends r) := by
  cases ends with
  | main => exact fiberFinish _ _ _ _
  | settled w => exact settled _ _ _ _
  | orphan =>
      simp only [State.ended]
      split
      · exact same rfl rfl rfl rfl rfl rfl rfl fun _ h => h
      · exact refl s

end Still

end Emela.Runtime
