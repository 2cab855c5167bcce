import Emela.EventLoop.Life

/-!
# Steps of the event loop

What the functions of the event loop keep: the registrations, the places of the tasks, the table of handles and
the lives of the calls.
-/

namespace Emela.EventLoop

open LinkedQueue

variable {P : Target} {s s' : State} {t : TaskId} {Q D : List TaskId} {F : List Nat}

/-! ## What the functions do to the state -/

theorem wake_eq (s : State) (t : TaskId) : s.wake t = { s with
    tasks := Function.update s.tasks t
      { s.tasks t with wait := none, completion := { (s.tasks t).completion with str := none } }
    retired := t :: s.retired
    waitTask := s.unwait t
    log := s.log ++ [match (s.tasks t).wait with
      | none => .discarded t
      | some w => .resumed t w ((s.tasks t).input)] } := by
  cases hw : (s.tasks t).wait with
  | none => simp [State.wake, State.setTask, State.retire, State.freeStr, State.emit, State.unwait, hw]
  | some w =>
      simp only [State.wake, State.setTask, State.retire, State.freeStr, State.emit, State.unwait, hw,
        Function.update_self, Function.update_idem]
      rfl

theorem taskCancel_eq (hcancelled : (s.tasks t).cancelled = false) : s.taskCancel t = { s with
    tasks := Function.update s.tasks t { s.tasks t with cancelled := true, wait := none, onCancel := none }
    waitTask := s.unwait t
    log := s.log ++ .dropped t :: (s.tasks t).onCancel.toList.map (.cancelled t) } := by
  cases hw : (s.tasks t).wait with
  | none =>
      cases hcb : (s.tasks t).onCancel with
      | none => simp [State.taskCancel, State.tellHost, State.setTask, State.emit, State.unwait, hcancelled, hw, hcb]
      | some cb => simp [State.taskCancel, State.tellHost, State.setTask, State.emit, State.unwait, hcancelled, hw, hcb]
  | some w =>
      cases hcb : (s.tasks t).onCancel with
      | none => simp [State.taskCancel, State.tellHost, State.setTask, State.emit, State.unwait, hcancelled, hw, hcb]
      | some cb => simp [State.taskCancel, State.tellHost, State.setTask, State.emit, State.unwait, hcancelled, hw, hcb]

/-- `em_task_end` of a task that is in place, which it then is not any more. -/
theorem taskEnd_cases {h : Handle} {dead : Bool} {w : WaitId} (hrun : s.taskEnd P h dead w = some s') :
    ∃ t, s.taskOf P h = some (some t) ∧
      (((s.tasks t).completed = true ∧ (s.tasks t).queued = false ∧ s' = { s with
        tasks := Function.update s.tasks t { s.tasks t with
          inPlace := false, completion := { (s.tasks t).completion with str := none } }
        retired := t :: s.retired
        log := s.log ++ [.returned t (if (s.tasks t).twice then .throw (twiceMessage (some (s.tasks t).function))
          else (s.tasks t).input)] }) ∨
      (((s.tasks t).completed = true → (s.tasks t).queued = true) ∧
        s' = (s.setTask t fun task => { task with inPlace := false }).taskCancel t) ∨
      (((s.tasks t).completed = true → (s.tasks t).queued = true) ∧ s' = { s with
        tasks := Function.update s.tasks t { s.tasks t with inPlace := false, wait := some w }
        waitTask := Function.update s.waitTask w (some t)
        log := s.log ++ [.suspended t w] })) := by
  simp only [State.taskEnd] at hrun
  split at hrun
  · cases hrun
  · cases hrun
  · next t ht =>
    refine ⟨t, ht, ?_⟩
    rw [setTask_self] at hrun
    split at hrun
    · next hc =>
      refine .inl ⟨hc.1, by simpa using hc.2, ?_⟩
      rw [← Option.some.inj hrun]
      simp only [State.setTask, State.retire, State.freeStr, State.emit, Function.update_self, Function.update_idem]
      rfl
    · next hc =>
      have hqueued : (s.tasks t).completed = true → (s.tasks t).queued = true := by simpa using hc
      split at hrun
      · exact .inr (.inl ⟨hqueued, (Option.some.inj hrun).symm⟩)
      · refine .inr (.inr ⟨hqueued, ?_⟩)
        rw [← Option.some.inj hrun]
        simp [State.setTask, State.emit]

/-! ## Lives -/

theorem eventsOf_self {log : List Event} (h : ∀ e ∈ log, e.about = some t) : eventsOf t log = log := by
  apply List.filter_eq_self.mpr
  simpa using h

theorem eventsOf_singleton {e : Event} (h : e.about = some t) : eventsOf t [e] = [e] :=
  eventsOf_self (by simp [h])

/-- A task that is not the one of the step. -/
theorem update_others {task : Task} (hlive : ∀ t' ≠ t, (s'.Live t' ↔ s.Live t'))
    (htasks : s'.tasks = Function.update s.tasks t task) :
    ∀ t' ≠ t, SameLife (s.tasks t') (s'.tasks t') ∧ (s'.Live t' ↔ s.Live t') := by
  intro t' ht'
  rw [htasks, Function.update_of_ne ht']
  exact ⟨.refl _, hlive t' ht'⟩

theorem LivesOk.completed (h : LivesOk s) (made : t < s.taskSeq) (hlive : s.Live t)
    (hc : (s.tasks t).completed = false) (completion : Completion) :
    LivesOk ((s.setTask t fun task => { task with completed := true, completion }).emit (.completed t completion)) := by
  have self : ((s.setTask t fun task => { task with completed := true, completion }).emit (.completed t completion)).tasks
      t = { s.tasks t with completed := true, completion } := Function.update_self ..
  refine h.step ⟨rfl, by simp [Event.about], made, rfl, update_others (fun _ _ => .rfl) rfl, by rw [self], by rw [self],
    fun life hlife => ?_⟩
  rw [eventsOf_singleton rfl, self]
  cases hlife with
  | gone hl => exact absurd hlive hl
  | @live w x d again hl completed same wait running cancelled =>
      rw [hc] at completed
      obtain rfl : x = none := by
        cases x with
        | none => rfl
        | some x => cases completed
      refine ⟨.live w (some completion) d again, rfl, .live hlive rfl (fun x hx => ?_) wait running cancelled⟩
      exact Option.some.inj hx

/-- What the completion gives back is the continuation's, unless the fiber was interrupted. -/
theorem LivesOk.wake (h : LivesOk s) (made : t < s.taskSeq) (hlive : s.Live t)
    (hc : (s.tasks t).completed = true) (hlost : (s.tasks t).wait = none → (s.tasks t).cancelled = true) :
    LivesOk (s.wake t) := by
  have frame := wake_eq s t
  have tasks : (s.wake t).tasks = Function.update s.tasks t
      { s.tasks t with wait := none, completion := { (s.tasks t).completion with str := none } } := by rw [frame]
  have retired : (s.wake t).retired = t :: s.retired := by rw [frame]
  have freed : (s.wake t).freed = s.freed := by rw [frame]
  have self : (s.wake t).tasks t =
      { s.tasks t with wait := none, completion := { (s.tasks t).completion with str := none } } := by
    rw [tasks, Function.update_self]
  refine h.step ⟨by rw [frame], ?_, made, by rw [frame], update_others (fun t' ht' => ?_) tasks, by rw [self],
    by rw [self], fun life hlife => ?_⟩
  · cases (s.tasks t).wait <;> simp [Event.about]
  · simp [State.Live, freed, retired, ht']
  · refine ⟨.gone, ?_, .gone fun hl => hl.2 (by rw [retired]; exact List.mem_cons_self ..)⟩
    cases hlife with
    | gone hl => exact absurd hlive hl
    | @live w x d again hl completed same wait running cancelled =>
        rw [hc] at completed
        obtain ⟨x, rfl⟩ := Option.isSome_iff_exists.mp completed.symm
        have hx : { s.tasks t with completion := x } = s.tasks t := by
          rw [← same x rfl]
        cases hw : (s.tasks t).wait with
        | none =>
            rw [hlost hw] at cancelled
            rw [eventsOf_singleton rfl, ← cancelled]
            cases w <;> rfl
        | some w' =>
            obtain ⟨rfl, rfl⟩ := wait w' hw
            rw [eventsOf_singleton rfl]
            simp [Task.lives, Life.next, Task.inputOf, hx]

theorem LivesOk.taskCancel (h : LivesOk s) (made : t < s.taskSeq) (hlive : s.Live t)
    (hplace : (s.tasks t).inPlace = false) (hcancelled : (s.tasks t).cancelled = false) :
    LivesOk (s.taskCancel t) := by
  have frame := taskCancel_eq hcancelled
  have tasks : (s.taskCancel t).tasks = Function.update s.tasks t
      { s.tasks t with cancelled := true, wait := none, onCancel := none } := by rw [frame]
  have self : (s.taskCancel t).tasks t = { s.tasks t with cancelled := true, wait := none, onCancel := none } := by
    rw [tasks, Function.update_self]
  have live : ∀ t', (s.taskCancel t).Live t' ↔ s.Live t' := by
    intro t'
    rw [frame]
    rfl
  have habout : ∀ e ∈ Event.dropped t :: (s.tasks t).onCancel.toList.map (Event.cancelled t), e.about = some t := by
    cases (s.tasks t).onCancel <;> simp [Event.about]
  refine h.step ⟨by rw [frame], ?_, made, by rw [frame], update_others (fun t' _ => live t') tasks, by rw [self],
    by rw [self], fun life hlife => ?_⟩
  · intro e he t' ht'
    rw [habout e he] at ht'
    exact (Option.some.inj ht').symm
  · rw [live, self]
    cases hlife with
    | gone hl => exact absurd hlive hl
    | @live w x d again hl completed same wait running cancelled =>
        rw [hcancelled] at cancelled
        subst cancelled
        refine ⟨.live w x true again, ?_, .live hlive completed same (fun x hx => by cases hx) (fun hp => ?_) rfl⟩
        · rw [eventsOf_self habout]
          cases (s.tasks t).onCancel <;> cases w <;> cases x <;> rfl
        · change (s.tasks t).inPlace = true at hp
          rw [hplace] at hp
          cases hp

/-- The end of a call whose completion is there: the wrapper gives it back itself. -/
theorem LivesOk.returned (h : LivesOk s) (made : t < s.taskSeq) (hlive : s.Live t)
    (hplace : (s.tasks t).inPlace = true) (hc : (s.tasks t).completed = true)
    (hs : s' = { s with
      tasks := Function.update s.tasks t { s.tasks t with
        inPlace := false, completion := { (s.tasks t).completion with str := none } }
      retired := t :: s.retired
      log := s.log ++ [.returned t (if (s.tasks t).twice then .throw (twiceMessage (some (s.tasks t).function))
        else (s.tasks t).input)] }) : LivesOk s' := by
  subst hs
  refine h.step ⟨rfl, by simp [Event.about], made, rfl, update_others (fun t' ht' => by simp [State.Live, ht']) rfl,
    by simp, by simp, fun life hlife => ?_⟩
  refine ⟨.gone, ?_, .gone fun hl => hl.2 (List.mem_cons_self ..)⟩
  cases hlife with
  | gone hl => exact absurd hlive hl
  | @live w x d again hl completed same wait running cancelled =>
      rw [hc] at completed
      obtain ⟨x, rfl⟩ := Option.isSome_iff_exists.mp completed.symm
      obtain ⟨rfl, rfl, rfl⟩ := running hplace
      have hx : { s.tasks t with completion := x } = s.tasks t := by
        rw [← same x rfl]
      rw [eventsOf_singleton rfl]
      simp [Task.lives, Life.next, Task.inputOf, hx]

theorem LivesOk.suspended (h : LivesOk s) (made : t < s.taskSeq) (hlive : s.Live t)
    (hplace : (s.tasks t).inPlace = true) {w : WaitId} (hs : s' = { s with
      tasks := Function.update s.tasks t { s.tasks t with inPlace := false, wait := some w }
      waitTask := Function.update s.waitTask w (some t)
      log := s.log ++ [.suspended t w] }) : LivesOk s' := by
  subst hs
  refine h.step ⟨rfl, by simp [Event.about], made, rfl, update_others (fun _ _ => .rfl) rfl, by simp, by simp,
    fun life hlife => ?_⟩
  cases hlife with
  | gone hl => exact absurd hlive hl
  | @live w' x d again hl completed same wait running cancelled =>
      obtain ⟨rfl, rfl, rfl⟩ := running hplace
      rw [eventsOf_singleton rfl]
      refine ⟨.live (some w) x false _, by cases x <;> rfl, ?_⟩
      simp only [Function.update_self]
      exact .live hlive completed same (fun x hx => ⟨hx, rfl⟩) (fun hp => by cases hp) cancelled

theorem LivesOk.again (h : LivesOk s) (made : t < s.taskSeq) (hlive : s.Live t)
    (hplace : (s.tasks t).inPlace = true) (hc : (s.tasks t).completed = true) :
    LivesOk ((s.setTask t fun task => { task with twice := true }).emit (.again t)) := by
  have self : ((s.setTask t fun task => { task with twice := true }).emit (.again t)).tasks t =
      { s.tasks t with twice := true } := Function.update_self ..
  refine h.step ⟨rfl, by simp [Event.about], made, rfl, update_others (fun _ _ => .rfl) rfl, by rw [self], by rw [self],
    fun life hlife => ?_⟩
  rw [eventsOf_singleton rfl, self]
  cases hlife with
  | gone hl => exact absurd hlive hl
  | @live w x d again hl completed same wait running cancelled =>
      obtain ⟨rfl, rfl, rfl⟩ := running hplace
      have hx := completed
      rw [hc] at hx
      obtain ⟨x, rfl⟩ := Option.isSome_iff_exists.mp hx.symm
      exact ⟨.live none (some x) false true, rfl, .live hlive completed same wait (fun _ => ⟨rfl, rfl, rfl⟩) cancelled⟩

/-- A cancelled task whose host asks to be told is told. -/
theorem LivesOk.told (h : LivesOk s) (made : t < s.taskSeq) (hlive : s.Live t)
    (hcancelled : (s.tasks t).cancelled = true) (cb : Callback) : LivesOk (s.emit (.cancelled t cb)) := by
  refine h.step ⟨rfl, by simp [Event.about], made, rfl, fun t' _ => ⟨.refl _, .rfl⟩, rfl, rfl, fun life hlife => ?_⟩
  rw [eventsOf_singleton rfl]
  cases hlife with
  | gone hl => exact absurd hlive hl
  | @live w x d again hl completed same wait running cancelled =>
      rw [hcancelled] at cancelled
      subst cancelled
      exact ⟨.live w x true again, by cases w <;> cases x <;> rfl,
        .live hlive completed same wait running hcancelled⟩

/-! ## Only registrations change -/

structure OnlyRegs (s s' : State) : Prop where
  tasks : ∀ t, s'.tasks t = { s.tasks t with regs := (s'.tasks t).regs }
  log : ∃ events, s'.log = s.log ++ events ∧ ∀ e ∈ events, e.about = none
  rest : s' = { s with
    timers := s'.timers, fds := s'.fds, regs := s'.regs, regSeq := s'.regSeq, tasks := s'.tasks, log := s'.log }

theorem OnlyRegs.live (h : OnlyRegs s s') (t : TaskId) : s'.Live t ↔ s.Live t := by
  rw [h.rest]
  rfl

theorem OnlyRegs.slots (h : OnlyRegs s s') : SameSlots s s' := by
  refine ⟨?_, ?_, ?_, ?_, ?_, ?_, fun t => by rw [h.tasks], fun t => by rw [h.tasks]⟩ <;> rw [h.rest]

theorem OnlyRegs.lives (h : OnlyRegs s s') : SameLives s s' := by
  refine ⟨h.log, by rw [h.rest], fun t => ?_, h.live⟩
  rw [h.tasks]
  exact ⟨rfl, rfl, rfl, rfl, rfl, id, rfl, rfl⟩

theorem OnlyRegs.frame (h : OnlyRegs s s') : SameTasks { s with tasks := s'.tasks } s' := by
  refine ⟨fun _ => .refl _, ?_, ?_, ?_, ?_, ?_, ?_, ?_⟩
  all_goals rw [h.rest]

theorem OnlyRegs.places (h : OnlyRegs s s') (hok : TasksOk s Q D) (hregs : ∀ t, (s'.tasks t).regs ≠ [] →
    (s.tasks t).regs ≠ [] ∨ (s.tasks t).completed = false ∧ t < s.taskSeq) : TasksOk s' Q D := by
  have next : ∀ t, (s'.tasks t).inboxNext = (s.tasks t).inboxNext := fun t => by rw [h.tasks]
  refine ⟨?_, ?_, hok.taken_nodup, ?_, ?_, fun t w => ?_, fun t => ?_⟩
  · simp only [next]
    rw [h.rest]
    exact hok.inbox
  · simp only [next]
    rw [h.rest]
    exact hok.taken
  · rw [h.rest]
    exact hok.retired_nodup
  · rw [h.rest]
    exact hok.retired_freed
  · have hwait : (s'.tasks t).wait = (s.tasks t).wait := by rw [h.tasks]
    rw [hwait, h.rest]
    exact hok.waits t w
  · have old := hok.each t
    have hmade : s'.taskSeq = s.taskSeq := by rw [h.rest]
    have hcompleted : (s'.tasks t).completed = (s.tasks t).completed := by rw [h.tasks]
    have hplace : SamePlace { s.tasks t with regs := (s'.tasks t).regs } (s'.tasks t) := by
      rw [h.tasks]
      exact ⟨rfl, rfl, rfl, rfl, id, id⟩
    rw [hmade]
    refine TaskOk.congr ?_ hplace .rfl (h.live t) .rfl .rfl
    refine ⟨old.queued, old.apart, old.known, old.taken, old.gone, fun hnot => ?_, old.completed, old.ended, old.lost,
      fun hr hc => ?_⟩
    · obtain ⟨h1, h2, h3, h4⟩ := old.fresh hnot
      refine ⟨h1, h2, h3, ?_⟩
      by_contra hr
      rcases hregs t hr with hr | hr
      · exact hr h4
      · exact hnot hr.2
    · rcases hregs t hr with hr | hr
      · exact old.regs hr hc
      · change (s.tasks t).completed = true at hc
        rw [hr.1] at hc
        cases hc

theorem onlyRegs_taskUnregister (s : State) (t : TaskId) : OnlyRegs s (s.taskUnregister t) := by
  rw [taskUnregister_eq]
  refine ⟨fun t' => ?_, ⟨[], (List.append_nil _).symm, by simp⟩, rfl⟩
  by_cases ht : t' = t
  · subst ht
    simp [State.withRegs, State.setTask]
  · simp [State.withRegs, State.setTask, ht]

theorem onlyRegs_regFire (s : State) (g : RegId) : OnlyRegs s (s.regFire g) := by
  rw [regFire_eq, State.without, regRemove_eq]
  refine ⟨fun t => ?_, ⟨[.fired g], rfl, by simp [Event.about]⟩, rfl⟩
  by_cases ht : t = (s.regs g).task
  · subst ht
    simp [State.withRegs, State.setTask, State.emit]
  · simp [State.withRegs, State.setTask, State.emit, ht]

theorem onlyRegs_register (s : State) (kind : RegKind) (time fd : Int) (o : Option TaskId) (cb : Callback) :
    OnlyRegs s (s.register kind time fd o cb) := by
  have refl : OnlyRegs s s := ⟨fun _ => rfl, ⟨[], (List.append_nil _).symm, by simp⟩, rfl⟩
  cases o with
  | none => exact refl
  | some t =>
      cases hc : (s.tasks t).completed with
      | true =>
          rw [State.register, if_pos hc]
          exact refl
      | false =>
          have tasks : ∀ reg t', (s.enlist t reg).tasks t' =
              { s.tasks t' with regs := ((s.enlist t reg).tasks t').regs } := by
            intro reg t'
            by_cases ht : t' = t
            · subst ht
              simp [State.enlist, State.withRegs, State.setTask]
            · simp [State.enlist, State.withRegs, State.setTask, ht]
          rw [register_eq hc]
          split
          · exact ⟨tasks _, ⟨[], (List.append_nil _).symm, by simp⟩, rfl⟩
          · exact ⟨tasks _, ⟨[], (List.append_nil _).symm, by simp⟩, rfl⟩

theorem unlinkLast_tasks (items : Nat → RegId) (n : Nat) (s : State) (t : TaskId) :
    (State.unlinkLast items n s).tasks t = { s.tasks t with regs := ((State.unlinkLast items n s).tasks t).regs } := by
  induction n generalizing s with
  | zero => rfl
  | succ n ih =>
      have hunlink : (s.regUnlink (items n)).tasks t =
          { s.tasks t with regs := ((s.regUnlink (items n)).tasks t).regs } := by
        by_cases ht : t = (s.regs (items n)).task
        · subst ht
          simp [State.regUnlink, State.setTask]
        · simp [State.regUnlink, State.setTask, ht]
      rw [State.unlinkLast, ih, hunlink]

theorem onlyRegs_dropAll (s : State) : OnlyRegs s s.dropAll := by
  refine ⟨fun t => ?_, ⟨[], ?_, by simp⟩, ?_⟩
  · have timers : s.dropTimers.tasks t = { s.tasks t with regs := (s.dropTimers.tasks t).regs } :=
      unlinkLast_tasks ..
    have fds : s.dropAll.tasks t = { s.dropTimers.tasks t with regs := (s.dropAll.tasks t).regs } :=
      unlinkLast_tasks ..
    rw [fds, timers]
  · rw [dropAll_eq, List.append_nil]
  · have regs : s.dropAll.regs = s.regs := by rw [dropAll_eq]
    have regSeq : s.dropAll.regSeq = s.regSeq := by rw [dropAll_eq]
    have log : s.dropAll.log = s.log := by rw [dropAll_eq]
    rw [regs, regSeq, log]
    exact dropAll_eq s

theorem taskUnregister_self (s : State) (t : TaskId) : (s.taskUnregister t).tasks t = { s.tasks t with regs := [] } := by
  rw [taskUnregister_eq]
  exact Function.update_self ..

theorem taskUnregister_of_ne {t' : TaskId} (s : State) (ht : t' ≠ t) : (s.taskUnregister t).tasks t' = s.tasks t' := by
  rw [taskUnregister_eq]
  exact Function.update_of_ne ht ..

theorem sameTasks_emit (s : State) (e : Event) : SameTasks s (s.emit e) :=
  ⟨fun _ => .refl _, rfl, rfl, rfl, rfl, rfl, rfl, rfl⟩

/-! ## Only one task changes -/

/-- The task keeps its registrations and its slot. -/
structure OnlyTask (s s' : State) (t : TaskId) : Prop where
  others : ∀ t' ≠ t, s'.tasks t' = s.tasks t'
  regs : (s'.tasks t).regs = (s.tasks t).regs
  slot : (s'.tasks t).slot = (s.tasks t).slot
  handle : (s'.tasks t).handle = (s.tasks t).handle
  rest : s' = { s with tasks := s'.tasks, retired := s'.retired, waitTask := s'.waitTask, log := s'.log }

theorem OnlyTask.sameRegs (h : OnlyTask s s' t) : SameRegs s s' := by
  refine ⟨?_, ?_, ?_, ?_, fun t' => ?_⟩
  any_goals rw [h.rest]
  by_cases ht : t' = t
  · rw [ht, h.regs]
  · rw [h.others t' ht]

theorem OnlyTask.slots (h : OnlyTask s s' t) : SameSlots s s' := by
  refine ⟨?_, ?_, ?_, ?_, ?_, ?_, fun t' => ?_, fun t' => ?_⟩
  any_goals rw [h.rest]
  · by_cases ht : t' = t
    · rw [ht, h.slot]
    · rw [h.others t' ht]
  · by_cases ht : t' = t
    · rw [ht, h.handle]
    · rw [h.others t' ht]

theorem onlyTask_update {task : Task} (tasks : s'.tasks = Function.update s.tasks t task)
    (regs : task.regs = (s.tasks t).regs) (slot : task.slot = (s.tasks t).slot)
    (handle : task.handle = (s.tasks t).handle)
    (rest : s' = { s with tasks := s'.tasks, retired := s'.retired, waitTask := s'.waitTask, log := s'.log }) :
    OnlyTask s s' t := by
  refine ⟨fun t' ht => ?_, ?_, ?_, ?_, rest⟩
  · rw [tasks, Function.update_of_ne ht]
  · rw [tasks, Function.update_self, regs]
  · rw [tasks, Function.update_self, slot]
  · rw [tasks, Function.update_self, handle]

theorem onlyTask_setTask (s : State) (t : TaskId) (f : Task → Task) (events : List Event)
    (regs : (f (s.tasks t)).regs = (s.tasks t).regs) (slot : (f (s.tasks t)).slot = (s.tasks t).slot)
    (handle : (f (s.tasks t)).handle = (s.tasks t).handle) :
    OnlyTask s { s.setTask t f with log := s.log ++ events } t :=
  onlyTask_update rfl regs slot handle rfl

theorem onlyTask_wake (s : State) (t : TaskId) : OnlyTask s (s.wake t) t := by
  rw [wake_eq]
  exact onlyTask_update rfl rfl rfl rfl rfl

theorem onlyTask_taskCancel (hcancelled : (s.tasks t).cancelled = false) : OnlyTask s (s.taskCancel t) t := by
  rw [taskCancel_eq hcancelled]
  exact onlyTask_update rfl rfl rfl rfl rfl

/-! ## Only the inbox changes -/

structure OnlyInbox (s s' : State) : Prop where
  tasks : ∀ t, s'.tasks t = { s.tasks t with queued := (s'.tasks t).queued, inboxNext := (s'.tasks t).inboxNext }
  rest : s' = { s with
    inboxHead := s'.inboxHead, inboxTail := s'.inboxTail, inboxTwice := s'.inboxTwice, phase := s'.phase
    tasks := s'.tasks }

theorem OnlyInbox.regs (h : OnlyInbox s s') : SameRegs s s' := by
  refine ⟨?_, ?_, ?_, ?_, fun t => by rw [h.tasks]⟩ <;> rw [h.rest]

theorem OnlyInbox.slots (h : OnlyInbox s s') : SameSlots s s' := by
  refine ⟨?_, ?_, ?_, ?_, ?_, ?_, fun t => by rw [h.tasks], fun t => by rw [h.tasks]⟩ <;> rw [h.rest]

theorem OnlyInbox.lives (h : OnlyInbox s s') : SameLives s s' := by
  refine ⟨⟨[], ?_, by simp⟩, by rw [h.rest], fun t => ?_, fun t => ?_⟩
  · rw [h.rest, List.append_nil]
  · rw [h.tasks]
    exact ⟨rfl, rfl, rfl, rfl, rfl, id, rfl, rfl⟩
  · rw [h.rest]
    rfl

theorem onlyInbox_pushInbox (s : State) (t : TaskId) : OnlyInbox s (s.pushInbox t) := by
  refine ⟨fun t' => ?_, ?_⟩
  · cases hcase : s.inboxTail with
    | none =>
        simp only [State.pushInbox, State.setTask, hcase, Function.update_apply]
        by_cases ht : t' = t
        · simp [ht]
        · simp [ht]
    | some u =>
        simp only [State.pushInbox, State.setTask, hcase, Function.update_apply]
        by_cases ht : t' = t
        · by_cases hu : t' = u <;> simp [← ht, hu]
        · by_cases hu : t' = u
          · simp [← hu, ht]
          · simp [hu, ht]
  · cases hcase : s.inboxTail <;> simp [State.pushInbox, State.setTask, hcase]

theorem onlyInbox_takeInbox (h : TasksOk s Q D) (ready : List RegId) : OnlyInbox s (s.takeInbox ready) := by
  have hrun := unqueue_eq Q s.taskSeq s.inboxHead { s with inboxHead := none, inboxTail := none, inboxTwice := [] }
    h.length_le h.inbox.nodup h.inbox.path
  refine ⟨fun t => ?_, ?_⟩
  · simp only [State.takeInbox, hrun]
    split <;> rfl
  · simp only [State.takeInbox, hrun]

end Emela.EventLoop
