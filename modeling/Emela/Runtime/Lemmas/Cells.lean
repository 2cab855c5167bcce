import Emela.Runtime.Lemmas.Still

/-!
# What changes Deferreds

Only `$deferred`, `$complete` and `$deferredAwait` do.
-/

namespace Emela.Runtime

variable {s s' : State} {w : WaitId} {g : GenId} {ends : End} {inp : Input} {current : Option FiberId} {i : ScopeId}
  {f : FiberId} {d : DeferredId}

theorem fiberResume_cells (s : State) (w : WaitId) (inp : Input) : (s.fiberResume w inp).cells = s.cells := by
  simp only [State.fiberResume]
  split
  · split <;> exact (Still.continued _ _ _ _).cells
  · exact (Still.continued _ _ _ _).cells

/-! ## Requests -/

theorem watch_cells (s : State) (w : WaitId) (verb : Verb) (f : FiberId) :
    (s.request w (.watch verb f)).cells = s.cells := by
  dsimp only [State.request]
  split
  · exact (Still.reply _ _ _).cells
  · have h1 : (if verb = .interrupt then s.fiberInterrupt f none else s).cells = s.cells := by
      split
      · exact (Still.fiberInterrupt _ _ _).cells
      · rfl
    split
    · next hv =>
        rw [if_pos hv.1] at h1 ⊢
        split <;> exact (Still.reply _ _ _).cells.trans h1
    · split
      · exact (Still.reply _ _ _).cells.trans h1
      · exact (Still.suspend _ _).cells.trans h1

theorem request_cells {req : Request} (hn : ∀ d, req ≠ .deferredAwait d) (s : State) (w : WaitId) :
    (s.request w req).cells = s.cells := by
  cases req with
  | pause =>
      simp only [State.request]
      split
      · exact (Still.reply _ _ _).cells
      · split <;> exact (Still.suspend s w).cells
  | await => exact (Still.suspend s w).cells
  | deferredAwait d => exact absurd rfl (hn d)
  | watch verb f => exact watch_cells s w verb f
  | perform => rfl
  | close i =>
      simp only [State.request]
      split
      · exact (Still.reply _ _ _).cells
      · exact (Still.suspend s w).cells

theorem yield_cells {req : Request} (hn : ∀ d, req ≠ .deferredAwait d) (s : State) (g : GenId) (ends : End) :
    (s.yield g ends req).cells = s.cells := by
  simp only [State.yield]
  split
  · exact (Still.loop _ _ _).cells
  · exact request_cells hn _ _

theorem scopeEnd_cells (s : State) (g : GenId) (ends : End) (i : ScopeId) (r : Result) (rest : List Frame) :
    (s.scopeEnd g ends i r rest).cells = s.cells := by
  simp only [State.scopeEnd]
  split
  · exact (Still.interruptAll _ _).cells.trans (Still.memberEnded _ _ _).cells
  · exact (yield_cells (by simp) _ _ _).trans ((Still.interruptAll _ _).cells.trans (Still.memberEnded _ _ _).cells)

/-! ## Steps -/

theorem foldl_cells {α : Type} {step : State → α → State} (hstep : ∀ s a, (step s a).cells = s.cells) (l : List α) :
    ∀ s : State, (l.foldl step s).cells = s.cells := by
  induction l with
  | nil => exact fun _ => rfl
  | cons a l ih => exact fun s => (ih _).trans (hstep s a)

theorem rootInterrupt_cells (s : State) : s.rootInterrupt.cells = s.cells := by
  have hpend : ∀ (s : State) (f : FiberId), (s.pend f).cells = s.cells := fun _ _ => rfl
  have hwait : ∀ (s : State) (w : WaitId), (s.unwindWait w).cells = s.cells := by
    intro s w
    simp only [State.unwindWait]
    split
    · exact (Still.dropFuel _ _ _).cells
    · rfl
  simp only [State.rootInterrupt]
  split
  · rfl
  · split <;> exact (foldl_cells hwait _ _).trans (foldl_cells hpend _ _)

theorem runTask_cells (s : State) (t : Task) : (s.runTask t).cells = s.cells := by
  cases t with
  | begin f =>
      simp only [State.runTask]
      split
      · exact (Still.fiberFinish _ _ _ _).cells
      · rfl
  | go w =>
      simp only [State.runTask]
      split
      · exact fiberResume_cells _ _ _
      · rfl
  | resume w inp => exact fiberResume_cells _ _ _
  | interrupted w => exact (Still.continued _ _ _ _).cells
  | drop w => exact (Still.continued _ _ _ _).cells
  | unwind w =>
      simp only [State.runTask]
      split <;> exact (Still.continued _ _ _ _).cells

theorem tick_cells (hs : s.tick = some s') : s'.cells = s.cells := by
  simp only [State.tick] at hs
  split at hs
  · split at hs
    · obtain rfl := Option.some.inj hs
      exact runTask_cells _ _
    · obtain rfl := Option.some.inj hs
      rfl
  · obtain rfl := Option.some.inj hs
    exact (Still.performed _ _).cells
  · obtain rfl := Option.some.inj hs
    rfl
  · obtain rfl := Option.some.inj hs
    exact (Still.cont _ _ _ _).cells
  · cases hs

theorem leave_cells {r : Result} (hs : s.leave r = some s') : s'.cells = s.cells := by
  simp only [State.leave] at hs
  split at hs
  · split at hs
    · obtain rfl := Option.some.inj hs
      exact (Still.ended _ _ _ _).cells
    · obtain rfl := Option.some.inj hs
      exact scopeEnd_cells _ _ _ _ _ _
    · cases hs
  · cases r with
    | ok v =>
        obtain rfl := Option.some.inj hs
        exact (Still.fiberFinish _ _ _ _).cells
    | error e =>
        obtain rfl := Option.some.inj hs
        exact (Still.fiberFinish _ _ _ _).cells
  · obtain rfl := Option.some.inj hs
    exact (Still.settled _ _ _ _).cells
  · cases hs

theorem leaveGen_cells (hs : s.leaveGen = some s') : s'.cells = s.cells := by
  simp only [State.leaveGen] at hs
  split at hs
  · obtain rfl := Option.some.inj hs
    exact (Still.enter _ _ _ _).cells
  · obtain rfl := Option.some.inj hs
    exact (Still.enter _ _ _ _).cells
  · cases hs

/-- The events that do not change Deferreds. -/
def Event.other : Event → Bool
  | .deferred _ | .complete _ _ _ | .yield (.deferredAwait _) => false
  | _ => true

theorem exec_cells {e : Event} (he : e.other) (hs : s.exec e = some s') : s'.cells = s.cells := by
  cases e with
  | tick => exact tick_cells hs
  | settle w inp =>
      simp only [State.exec, Option.ite_none_right_eq_some] at hs
      exact Option.some.inj hs.2 ▸ (Still.cont _ _ _ _).cells
  | later w =>
      simp only [State.exec, Option.ite_none_right_eq_some] at hs
      exact Option.some.inj hs.2 ▸ rfl
  | stall =>
      simp only [State.exec, Option.ite_none_right_eq_some] at hs
      exact Option.some.inj hs.2 ▸ rootInterrupt_cells s
  | abandon =>
      simp only [State.exec, Option.ite_none_right_eq_some] at hs
      exact Option.some.inj hs.2 ▸ rfl
  | resume foreign w v =>
      simp only [State.exec, Option.ite_none_right_eq_some] at hs
      exact Option.some.inj hs.2 ▸ (Still.resume _ _ _ _).cells
  | fork i =>
      simp only [State.exec, Option.ite_none_right_eq_some] at hs
      rw [← Option.some.inj hs.2, State.fork]
      split <;> rfl
  | deferred i => cases he
  | complete foreign d v => cases he
  | hold =>
      simp only [State.exec] at hs
      split at hs
      · exact Option.some.inj hs ▸ rfl
      · cases hs
  | unhold =>
      simp only [State.exec] at hs
      split at hs
      · split at hs
        · exact Option.some.inj hs ▸ rfl
        · cases hs
      · cases hs
  | scope =>
      simp only [State.exec] at hs
      split at hs
      · exact Option.some.inj hs ▸ rfl
      · cases hs
  | yield req =>
      simp only [State.exec] at hs
      split at hs
      · simp only [Option.ite_none_right_eq_some] at hs
        rw [← Option.some.inj hs.2]
        refine yield_cells (fun d hd => ?_) _ _ _
        subst hd
        cases he
      · cases hs
  | leave r => exact leave_cells hs
  | leaveGen => exact leaveGen_cells hs

end Emela.Runtime
