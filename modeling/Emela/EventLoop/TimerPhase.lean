import Emela.EventLoop.Theorems
import Mathlib.Data.Int.Order.Basic

/-!
# Timers

The part of a turn that calls the timers that are due. Callbacks, and other threads, may complete tasks and
register timers meanwhile.
-/

namespace Emela.EventLoop

variable {P : Target} {A : Reg → Prop} {s s' s'' : State} {t : TaskId} {g : RegId}

/-- The registration whose callback is called. -/
def Event.registration : Event → Option RegId
  | .fired g => some g
  | _ => none

/-- The registrations whose callbacks have been called, in order. -/
def State.fired (s : State) : List RegId := s.log.filterMap Event.registration

/-! ## Steps that fire nothing -/

/-- Only registrations of completed tasks go, and only new ones come, which are as `A` says. -/
structure Calm (A : Reg → Prop) (s s' : State) : Prop where
  now : s'.now = s.now
  phase : s'.phase = s.phase
  fired : s'.fired = s.fired
  seq : s.regSeq ≤ s'.regSeq
  regs : ∀ g < s.regSeq, s'.regs g = s.regs g
  new : ∀ g, s.regSeq ≤ g → g < s'.regSeq → A (s'.regs g)
  lists : ∀ t, ∀ g ∈ (s'.tasks t).regs, g ∈ (s.tasks t).regs ∨ s.regSeq ≤ g
  kept : ∀ t, ∀ g ∈ (s.tasks t).regs, g ∈ (s'.tasks t).regs ∨ (s'.tasks t).completed = true

theorem fired_of_log {events : List Event} (h : s'.log = s.log ++ events)
    (hevents : ∀ e ∈ events, e.registration = none) : s'.fired = s.fired := by
  rw [State.fired, h, List.filterMap_append, List.filterMap_eq_nil_iff.mpr hevents, List.append_nil]
  rfl

theorem SameRegs.calm (h : SameRegs s s') (now : s'.now = s.now) (phase : s'.phase = s.phase)
    (fired : s'.fired = s.fired) : Calm A s s' :=
  ⟨now, phase, fired, h.regSeq.ge, fun g _ => congrFun h.regs g,
    fun _ hg hlt => absurd (hlt.trans_eq h.regSeq) (Nat.not_lt_of_le hg), fun t _ hg => .inl (h.lists t ▸ hg),
    fun t _ hg => .inl (h.lists t ▸ hg)⟩

theorem Calm.refl (s : State) : Calm A s s := (SameRegs.refl s).calm rfl rfl rfl

theorem Calm.trans (h : Calm A s s') (h' : Calm A s' s'') (completed : ∀ t, (s'.tasks t).completed = true →
    (s''.tasks t).completed = true) : Calm A s s'' where
  now := h'.now.trans h.now
  phase := h'.phase.trans h.phase
  fired := h'.fired.trans h.fired
  seq := h.seq.trans h'.seq
  regs g hg := (h'.regs g (hg.trans_le h.seq)).trans (h.regs g hg)
  new g hg hlt := by
    by_cases hmid : g < s'.regSeq
    · rw [h'.regs g hmid]
      exact h.new g hg hmid
    · exact h'.new g (Nat.le_of_not_lt hmid) hlt
  lists t g hg := by
    rcases h'.lists t g hg with hg | hg
    · exact h.lists t g hg
    · exact .inr (h.seq.trans hg)
  kept t g hg := by
    rcases h.kept t g hg with hg | hc
    · exact h'.kept t g hg
    · exact .inr (completed t hc)

theorem OnlyTask.calm (h : OnlyTask s s' t) {events : List Event} (hlog : s'.log = s.log ++ events)
    (hevents : ∀ e ∈ events, e.registration = none) : Calm A s s' := by
  refine h.sameRegs.calm ?_ ?_ (fired_of_log hlog hevents)
  · rw [h.rest]
  · rw [h.rest]

theorem calm_emit (s : State) {e : Event} (he : e.registration = none) : Calm A s (s.emit e) := by
  have fired : (s.emit e).fired = s.fired := fired_of_log rfl (by simpa using he)
  exact SameRegs.calm ⟨rfl, rfl, rfl, rfl, fun _ => rfl⟩ rfl rfl fired

theorem calm_taskUnregister (hc : (s.tasks t).completed = true) : Calm A s (s.taskUnregister t) := by
  have frame := taskUnregister_eq s t
  have seq : (s.taskUnregister t).regSeq = s.regSeq := by
    rw [frame]
    rfl
  refine ⟨?_, ?_, ?_, seq.ge, ?_, fun g hg hlt => absurd (hlt.trans_eq seq) (Nat.not_lt_of_le hg), fun t' g hg => ?_,
    fun t' g hg => ?_⟩
  · rw [frame]
    rfl
  · rw [frame]
    rfl
  · rw [frame]
    rfl
  · rw [frame]
    exact fun _ _ => rfl
  · by_cases ht : t' = t
    · subst ht
      rw [taskUnregister_self] at hg
      cases hg
    · rw [taskUnregister_of_ne s ht] at hg
      exact .inl hg
  · by_cases ht : t' = t
    · subst ht
      rw [taskUnregister_self]
      exact .inr hc
    · rw [taskUnregister_of_ne s ht]
      exact .inl hg

theorem calm_wake (s : State) (t : TaskId) : Calm A s (s.wake t) := by
  refine (onlyTask_wake s t).calm (by rw [wake_eq]) ?_
  cases (s.tasks t).wait <;> simp [Event.registration]

theorem calm_deliver (hc : (s.tasks t).completed = true) : Calm A s (s.deliver t) := by
  have first : Calm A s _ := calm_taskUnregister hc
  rw [State.deliver]
  change Calm A s (if ((s.taskUnregister t).tasks t).inPlace then _ else (s.taskUnregister t).wake t)
  split
  · exact first
  · refine first.trans (calm_wake ..) fun t' => ?_
    have tasks : ((s.taskUnregister t).wake t).tasks = Function.update (s.taskUnregister t).tasks t
        { (s.taskUnregister t).tasks t with
          wait := none, completion := { ((s.taskUnregister t).tasks t).completion with str := none } } := by
      rw [wake_eq]
    exact (stays_update tasks ⟨id, id, fun _ => id⟩ t').completed

theorem calm_taskCancel (s : State) (t : TaskId) : Calm A s (s.taskCancel t) := by
  cases hcancelled : (s.tasks t).cancelled with
  | true =>
      rw [State.taskCancel, if_pos hcancelled]
      exact .refl s
  | false =>
      refine (onlyTask_taskCancel hcancelled).calm (by rw [taskCancel_eq hcancelled]) ?_
      cases (s.tasks t).onCancel <;> simp [Event.registration]

theorem calm_completeAgain (s : State) (here : Bool) (o : Option TaskId) (function : Option String) :
    Calm A s (s.completeAgain here o function) := by
  cases here with
  | false => exact SameRegs.calm ⟨rfl, rfl, rfl, rfl, fun _ => rfl⟩ rfl rfl rfl
  | true =>
      cases o with
      | none => exact calm_emit s rfl
      | some t =>
          change Calm A s (if (s.tasks t).inPlace then (s.setTask t fun task => { task with twice := true }).emit (.again t)
            else s.emit (.failedRun (twiceMessage function)))
          split
          · exact (onlyTask_setTask s t (fun task => { task with twice := true }) [.again t] rfl rfl rfl).calm rfl
              (by simp [Event.registration])
          · exact calm_emit s rfl

theorem calm_register (s : State) {kind : RegKind} {time fd : Int} (o : Option TaskId) {cb : Callback}
    (hA : ∀ t, A ⟨kind, time, fd, t, cb⟩) : Calm A s (s.register kind time fd o cb) := by
  cases o with
  | none => exact .refl s
  | some t =>
      cases hc : (s.tasks t).completed with
      | true =>
          rw [State.register, if_pos hc]
          exact .refl s
      | false =>
          have calm : Calm A s (s.enlist t ⟨kind, time, fd, t, cb⟩) := by
            refine ⟨rfl, rfl, rfl, Nat.le_succ _, fun g hg => enlist_regs_of_ne hg.ne t, fun g hg hlt => ?_,
              fun t' g hg => ?_, fun t' g hg => .inl ?_⟩
            · obtain rfl : g = s.regSeq := Nat.le_antisymm (Nat.le_of_lt_succ hlt) hg
              rw [enlist_regs_self]
              exact hA t
            · rw [enlist_lists] at hg
              split at hg
              · next ht =>
                rcases List.mem_cons.mp hg with rfl | hg
                · exact .inr le_rfl
                · exact .inl (ht ▸ hg)
              · exact .inl hg
            · rw [enlist_lists]
              split
              · next ht => exact List.mem_cons_of_mem _ (ht ▸ hg)
              · exact hg
          rw [register_eq hc]
          split
          · exact ⟨calm.now, calm.phase, calm.fired, calm.seq, calm.regs, calm.new, calm.lists, calm.kept⟩
          · exact ⟨calm.now, calm.phase, calm.fired, calm.seq, calm.regs, calm.new, calm.lists, calm.kept⟩

/-- The steps of a turn, and those between runs. -/
def Action.internal : Action → Bool
  | .poll .. | .turn | .reset => true
  | _ => false

theorem Ok.calm (hs : Ok P s) {action : Action} (hinternal : action.internal = false)
    (hafter : ∀ ms h cb t, action = .after ms h cb →
      A ⟨.timer, State.addInt64 s.now (if ms < 0 then 0 else ms), -1, t, cb⟩)
    (hfile : ∀ kind fd t cb, kind ≠ .timer → A ⟨kind, 0, fd, t, cb⟩)
    (hrun : s.step P action = some s') : Calm A s s' := by
  cases action with
  | taskNew kind function =>
      obtain ⟨Q, D, places⟩ := hs.places
      obtain ⟨F, slots⟩ := hs.slots
      obtain ⟨slot, handle, frame⟩ := slots.taskNew_frame hrun
      have fresh := (places.each s.taskSeq).fresh (Nat.lt_irrefl _)
      have same : SameRegs s s' := by
        refine ⟨?_, ?_, ?_, ?_, fun t => ?_⟩
        any_goals rw [frame]
        change (Function.update s.tasks s.taskSeq _ t).regs = _
        by_cases ht : t = s.taskSeq
        · rw [ht, Function.update_self, fresh.2.2.2]
          rfl
        · rw [Function.update_of_ne ht]
      refine same.calm ?_ ?_ ?_
      · rw [frame]
      · rw [frame]
      · rw [State.fired, State.fired, frame]
  | taskEnd h dead w =>
      simp only [State.step] at hrun
      split at hrun
      · obtain ⟨t, -, hcases⟩ := taskEnd_cases hrun
        rcases hcases with ⟨-, -, rfl⟩ | ⟨-, rfl⟩ | ⟨-, rfl⟩
        · exact OnlyTask.calm (onlyTask_update rfl rfl rfl rfl rfl) rfl (by simp [Event.registration])
        · have first : Calm A s (s.setTask t fun task => { task with inPlace := false }) :=
            OnlyTask.calm (onlyTask_update rfl rfl rfl rfl rfl) (List.append_nil _).symm (by simp)
          exact first.trans (calm_taskCancel ..) fun t' => (stays_taskCancel _ t t').completed
        · exact OnlyTask.calm (onlyTask_update rfl rfl rfl rfl rfl) rfl (by simp [Event.registration])
      · cases hrun
  | complete here h completion =>
      simp only [State.step, State.complete] at hrun
      split at hrun
      · cases hrun
      · rw [← Option.some.inj hrun]
        exact calm_completeAgain ..
      · next t function hfind =>
        cases hc : (s.tasks t).completed with
        | true =>
            rw [if_pos hc, Option.some.injEq] at hrun
            rw [← hrun]
            exact calm_completeAgain ..
        | false =>
            rw [hc, if_neg Bool.false_ne_true, Option.some.injEq] at hrun
            rw [← hrun]
            have first : Calm A s _ := (onlyTask_setTask s t (fun task => { task with completed := true, completion })
              [.completed t completion] rfl rfl rfl).calm rfl (by simp [Event.registration])
            cases here with
            | true =>
                have hdone := congrArg Task.completed
                  (setTask_self s t fun task => { task with completed := true, completion })
                exact first.trans (calm_deliver hdone) fun t' => (stays_deliver _ t t').completed
            | false =>
                have only := onlyInbox_pushInbox ((s.setTask t fun task =>
                  { task with completed := true, completion }).emit (.completed t completion)) t
                refine first.trans (only.regs.calm ?_ ?_ ?_) fun t' hc' => ?_
                · rw [only.rest]
                · rw [pushInbox_eq]
                · rw [State.fired, only.rest]
                  rfl
                · rw [if_neg Bool.false_ne_true, only.tasks]
                  exact hc'
  | after ms h cb =>
      obtain ⟨o, -, rfl⟩ := Option.map_eq_some_iff.mp hrun
      exact calm_register s o fun t => hafter ms h cb t rfl
  | onReadable fd h cb =>
      obtain ⟨o, -, rfl⟩ := Option.map_eq_some_iff.mp hrun
      exact calm_register s o fun t => hfile .read fd t cb (by simp)
  | onWritable fd h cb =>
      obtain ⟨o, -, rfl⟩ := Option.map_eq_some_iff.mp hrun
      exact calm_register s o fun t => hfile .write fd t cb (by simp)
  | onCancel h cb =>
      simp only [State.step, State.onCancel] at hrun
      split at hrun
      · cases hrun
      · rw [← Option.some.inj hrun]
        exact .refl s
      · next t ht =>
        split at hrun
        · cases cb with
          | none =>
              rw [← Option.some.inj hrun]
              exact .refl s
          | some cb =>
              rw [← Option.some.inj hrun]
              split
              · exact .refl s
              · exact calm_emit s rfl
        · rw [← Option.some.inj hrun]
          exact OnlyTask.calm (onlyTask_update rfl rfl rfl rfl rfl) (List.append_nil _).symm (by simp)
  | cancel w =>
      rw [← Option.some.inj hrun]
      cases s.waitTask w with
      | none => exact .refl s
      | some t => exact calm_taskCancel s t
  | poll now ready => cases hinternal
  | turn => cases hinternal
  | reset => cases hinternal

/-! ## The clock -/

theorem regFire_now (s : State) (g : RegId) : (s.regFire g).now = s.now := by rw [(onlyRegs_regFire s g).rest]

theorem deliver_now (s : State) (t : TaskId) : (s.deliver t).now = s.now := by
  have hunregister : (s.taskUnregister t).now = s.now := by
    rw [taskUnregister_eq]
    rfl
  change (if ((s.taskUnregister t).tasks t).inPlace then _ else (s.taskUnregister t).wake t).now = s.now
  split
  · exact hunregister
  · rw [wake_eq]
    exact hunregister

theorem turn_now (hrun : s.turn = some s') : s'.now = s.now := by
  obtain ⟨phase, ⟨function, rfl⟩ | ⟨t, rfl⟩ | ⟨g, rfl⟩ | rfl⟩ := turn_cases hrun
  · rfl
  · exact deliver_now ..
  · exact regFire_now ..
  · rfl

/-- The time changes only where a turn reads the clock, which does not go back. -/
theorem Ok.now_le (hs : Ok P s) {action : Action} (hrun : s.step P action = some s') : s.now ≤ s'.now := by
  cases hinternal : action.internal with
  | false =>
      have calm : Calm (fun _ => True) s s' :=
        hs.calm hinternal (fun _ _ _ _ _ => trivial) (fun _ _ _ _ _ => trivial) hrun
      exact calm.now.ge
  | true =>
      cases action with
      | poll now ready =>
          simp only [State.step] at hrun
          split at hrun
          · next hguard =>
            obtain ⟨Q, D, places⟩ := hs.collect.places
            have places₁ : TasksOk { s.collect with now } Q D := places.congr
              ⟨fun _ => .refl _, rfl, rfl, rfl, rfl, rfl, rfl, rfl⟩
            have only : OnlyInbox { s.collect with now } (s.poll now ready) := onlyInbox_takeInbox places₁ ready
            rw [← Option.some.inj hrun, only.rest]
            exact hguard.2.2.1
          · cases hrun
      | turn => exact (turn_now hrun).ge
      | reset =>
          simp only [State.step] at hrun
          split at hrun
          · rw [← Option.some.inj hrun]
            change s.now ≤ s.dropAll.collect.now
            rw [collect_eq, (onlyRegs_dropAll s).rest]
          · cases hrun
      | _ => cases hinternal

theorem Ok.now_le_run (hs : Ok P s) {actions : List Action} (hrun : s.run P actions = some s') : s.now ≤ s'.now := by
  induction actions generalizing s with
  | nil => rw [← Option.some.inj hrun]
  | cons action actions ih =>
      simp only [State.run, List.foldlM_cons, Option.bind_eq_bind, Option.bind_eq_some_iff] at hrun
      obtain ⟨s₁, hstep, hrest⟩ := hrun
      exact (hs.now_le hstep).trans (ih (hs.step hstep) hrest)

theorem Reachable.now_nonneg (hs : Reachable P s) : 0 ≤ s.now := by
  obtain ⟨now, actions, hnow, hrun⟩ := hs
  exact hnow.trans ((ok_init P now).now_le_run hrun)

/-! ## The timers after a step -/

theorem Calm.timers_old (h : Calm A s s') (hs : RegsOk s) (hs' : RegsOk s') (hg : s'.timers.Mem g) :
    s.timers.Mem g ∨ s.regSeq ≤ g ∧ A (s'.regs g) ∧ (s'.regs g).kind = .timer := by
  obtain ⟨hkind, hreg⟩ := (hs'.timers_mem g).mp hg
  have hlt := (hs'.owner _ g hreg).2
  rcases h.lists _ g hreg with hold | hnew
  · have hsame := h.regs g (hs.owner _ g hold).2
    rw [hsame] at hkind
    exact .inl ((hs.timers_mem g).mpr ⟨hkind, hs.registered hold⟩)
  · exact .inr ⟨hnew, h.new g hnew hlt, hkind⟩

theorem Calm.timers_kept (h : Calm A s s') (hs : RegsOk s) (hs' : RegsOk s') (hg : s.timers.Mem g) :
    s'.timers.Mem g ∨ (s'.tasks (s.regs g).task).completed = true := by
  obtain ⟨hkind, hreg⟩ := (hs.timers_mem g).mp hg
  rcases h.kept _ g hreg with hkept | hc
  · have hsame := h.regs g (hs.owner _ g hreg).2
    exact .inl ((hs'.timers_mem g).mpr ⟨hsame ▸ hkind, hs'.registered hkept⟩)
  · exact .inr hc

theorem RegsOk.timer_lt (hs : RegsOk s) (hg : s.timers.Mem g) : g < s.regSeq :=
  (hs.owner _ g ((hs.timers_mem g).mp hg).2).2

theorem RegsOk.regFire_timers (hs : RegsOk s) {g' : RegId} (hg : s.Registered g) :
    (s.regFire g).timers.Mem g' ↔ s.timers.Mem g' ∧ g' ≠ g := by
  have regs : (s.regFire g).regs = s.regs := by
    rw [regFire_eq]
    exact regRemove_regs s g
  rw [(hs.regFire hg).timers_mem, hs.timers_mem, regs, and_assoc]
  refine and_congr_right fun _ => ?_
  rw [State.Registered, regs, regFire_eq]
  exact without_registered hs hg g'

theorem timerKey_lt_of_le {regs : RegId → Reg} {g g' : RegId} (h : timerKey regs g ≤ timerKey regs g') (hne : g' ≠ g) :
    timerKey regs g < timerKey regs g' := by
  refine h.lt_of_ne fun he => hne ?_
  have hpair := toLex.injective he
  exact (congrArg Prod.snd hpair).symm

theorem timerKey_le {regs : RegId → Reg} {g g' : RegId} (h : timerKey regs g ≤ timerKey regs g') :
    (regs g).time < (regs g').time ∨ (regs g).time = (regs g').time ∧ g ≤ g' := by
  simpa [timerKey, Prod.Lex.toLex_le_toLex] using h

theorem timerKey_congr {regs regs' : RegId → Reg} (h : regs' g = regs g) : timerKey regs' g = timerKey regs g := by
  rw [timerKey, timerKey, h]

/-! ## The timers of a turn -/

/-- The state `s'` is reached from the beginning `s` of the timers of a turn, and these have been called. `late`
is that timers registered meanwhile are not due before now. -/
structure Firing (late : Prop) (s s' : State) (called : List RegId) : Prop where
  now : s'.now = s.now
  phase : s'.phase = .timers s.regSeq ∨ s'.phase = .idle
  seq : s.regSeq ≤ s'.regSeq
  regs : ∀ g < s.regSeq, s'.regs g = s.regs g
  fired : s'.fired = s.fired ++ called
  sorted : called.Pairwise fun g g' => timerKey s.regs g < timerKey s.regs g'
  due : ∀ g ∈ called, s.timers.Mem g ∧ (s.regs g).time ≤ s.now
  left : ∀ g, s'.timers.Mem g → g < s.regSeq →
    s.timers.Mem g ∧ ∀ g' ∈ called, timerKey s.regs g' < timerKey s.regs g
  kept : ∀ g, s.timers.Mem g → g ∈ called ∨ s'.timers.Mem g ∨ (s'.tasks (s.regs g).task).completed = true
  new : late → ∀ g, s'.timers.Mem g → s.regSeq ≤ g → s.now ≤ (s'.regs g).time
  done : late → s'.phase = .idle → ∀ g, s'.timers.Mem g → g < s.regSeq → s.now < (s.regs g).time

theorem firing_refl {late : Prop} (hs : RegsOk s) (hphase : s.phase = .timers s.regSeq) : Firing late s s [] where
  now := rfl
  phase := .inl hphase
  seq := le_rfl
  regs _ _ := rfl
  fired := (List.append_nil _).symm
  sorted := .nil
  due g hg := by cases hg
  left g hg _ := ⟨hg, fun g' hg' => by cases hg'⟩
  kept g hg := .inr (.inl hg)
  new _ g hg hle := by
    exact absurd (hs.timer_lt hg) (Nat.not_lt_of_le hle)
  done _ hidle := by
    rw [hphase] at hidle
    cases hidle

variable {late : Prop} {called : List RegId}

theorem Firing.calm (h : Firing late s s' called) (hs : RegsOk s) (hs' : RegsOk s') (hs'' : RegsOk s'')
    (hcalm : Calm (fun reg => late → reg.kind = .timer → s.now ≤ reg.time) s' s'')
    (completed : ∀ t, (s'.tasks t).completed = true → (s''.tasks t).completed = true) :
    Firing late s s'' called where
  now := hcalm.now.trans h.now
  phase := by
    rw [hcalm.phase]
    exact h.phase
  seq := h.seq.trans hcalm.seq
  regs g hg := (hcalm.regs g (hg.trans_le h.seq)).trans (h.regs g hg)
  fired := hcalm.fired.trans h.fired
  sorted := h.sorted
  due := h.due
  left g hg hlt := by
    rcases hcalm.timers_old hs' hs'' hg with hold | ⟨hnew, -⟩
    · exact h.left g hold hlt
    · exact absurd (hlt.trans_le h.seq) (Nat.not_lt_of_le hnew)
  kept g hg := by
    rcases h.kept g hg with hcalled | hmem | hc
    · exact .inl hcalled
    · rcases hcalm.timers_kept hs' hs'' hmem with hmem | hc
      · exact .inr (.inl hmem)
      · rw [h.regs g (hs.timer_lt hg)] at hc
        exact .inr (.inr hc)
    · exact .inr (.inr (completed _ hc))
  new hlate g hg hle := by
    rcases hcalm.timers_old hs' hs'' hg with hold | ⟨-, hnew, hkind⟩
    · rw [hcalm.regs g (hs'.timer_lt hold)]
      exact h.new hlate g hold hle
    · exact hnew hlate hkind
  done hlate hidle g hg hlt := by
    rw [hcalm.phase] at hidle
    rcases hcalm.timers_old hs' hs'' hg with hold | ⟨hnew, -⟩
    · exact h.done hlate hidle g hold hlt
    · exact absurd (hlt.trans_le h.seq) (Nat.not_lt_of_le hnew)

/-- The first of the timers is called. -/
theorem Firing.fire (h : Firing late s s' called) (hs' : RegsOk s') (hlen : 0 < s'.timers.len)
    (hdue : ¬ (s'.now < (s'.regs (s'.timers.items 0)).time ∨ s.regSeq ≤ s'.timers.items 0))
    (hphase : s'.phase = .timers s.regSeq) :
    Firing late s (s'.regFire (s'.timers.items 0)) (called ++ [s'.timers.items 0]) := by
  rw [not_or, Int.not_lt, Nat.not_le] at hdue
  generalize hroot : s'.timers.items 0 = root at hdue ⊢
  have hmem : s'.timers.Mem root := ⟨0, hlen, hroot⟩
  have hreg := ((hs'.timers_mem root).mp hmem).2
  have mem : ∀ g, (s'.regFire root).timers.Mem g ↔ s'.timers.Mem g ∧ g ≠ root := fun _ => hs'.regFire_timers hreg
  have only := onlyRegs_regFire s' root
  have regs : (s'.regFire root).regs = s'.regs := by
    rw [regFire_eq]
    exact regRemove_regs s' root
  have seq : (s'.regFire root).regSeq = s'.regSeq := by
    rw [regFire_eq]
    exact regRemove_regSeq s' root
  obtain ⟨hstart, hbefore⟩ := h.left root hmem hdue.2
  have least : ∀ g, s'.timers.Mem g → g < s.regSeq → g ≠ root → timerKey s.regs root < timerKey s.regs g := by
    intro g hg hlt hne
    have hle := hs'.heap.root_le hg
    rw [hroot, timerKey_congr (h.regs root hdue.2), timerKey_congr (h.regs g hlt)] at hle
    exact timerKey_lt_of_le hle hne
  refine ⟨?_, ?_, ?_, fun g hg => ?_, ?_, ?_, fun g hg => ?_, fun g hg hlt => ?_, fun g hg => ?_, fun hlate g hg hle => ?_,
    fun _ hidle => ?_⟩
  · rw [only.rest]
    exact h.now
  · rw [only.rest]
    exact .inl hphase
  · rw [seq]
    exact h.seq
  · rw [regs]
    exact h.regs g hg
  · rw [regFire_eq]
    change ((s'.without root).log ++ [Event.fired root]).filterMap Event.registration = _
    have hlog : (s'.without root).log = s'.log := by
      rw [State.without, regRemove_eq]
      rfl
    rw [hlog, List.filterMap_append]
    change s'.fired ++ _ = _
    rw [h.fired, List.append_assoc]
    rfl
  · rw [List.pairwise_append]
    refine ⟨h.sorted, List.pairwise_singleton .., fun g hg g' hg' => ?_⟩
    rw [List.mem_singleton.mp hg']
    exact hbefore g hg
  · rcases List.mem_append.mp hg with hg | hg
    · exact h.due g hg
    · obtain rfl := List.mem_singleton.mp hg
      rw [h.now, h.regs g hdue.2] at hdue
      exact ⟨hstart, hdue.1⟩
  · obtain ⟨hg, hne⟩ := (mem g).mp hg
    refine ⟨(h.left g hg hlt).1, fun g' hg' => ?_⟩
    rcases List.mem_append.mp hg' with hg' | hg'
    · exact (h.left g hg hlt).2 g' hg'
    · rw [List.mem_singleton.mp hg']
      exact least g hg hlt hne
  · rcases h.kept g hg with hcalled | hg' | hc
    · exact .inl (List.mem_append_left _ hcalled)
    · by_cases hne : g = root
      · exact .inl (List.mem_append_right _ (List.mem_singleton.mpr hne))
      · exact .inr (.inl ((mem g).mpr ⟨hg', hne⟩))
    · rw [only.tasks]
      exact .inr (.inr hc)
  · rw [regs]
    exact h.new hlate g ((mem g).mp hg).1 hle
  · rw [only.rest] at hidle
    change s'.phase = .idle at hidle
    rw [hphase] at hidle
    cases hidle

/-- No timer is due any more. -/
theorem Firing.finish (h : Firing late s s' called) (hs' : RegsOk s')
    (hdue : ¬ (0 < s'.timers.len ∧ ¬ (s'.now < (s'.regs (s'.timers.items 0)).time ∨ s.regSeq ≤ s'.timers.items 0))) :
    Firing late s { s' with phase := .idle } called := by
  refine ⟨h.now, .inr rfl, h.seq, h.regs, h.fired, h.sorted, h.due, h.left, h.kept, h.new, fun hlate _ g hg hlt => ?_⟩
  have hlen : 0 < s'.timers.len := by
    obtain ⟨i, hi, -⟩ := hg
    exact Nat.zero_lt_of_lt hi
  have hle := timerKey_le (hs'.heap.root_le hg)
  rw [h.regs g hlt] at hle
  rcases Classical.not_not.mp fun hnot => hdue ⟨hlen, hnot⟩ with hlater | hnew
  · rw [h.now] at hlater
    omega
  · have hroot := h.new hlate (s'.timers.items 0) ⟨0, hlen, rfl⟩ hnew
    rcases hle with hlt' | ⟨-, hle⟩
    · omega
    · exact absurd (hlt.trans_le hnew) (Nat.not_lt_of_le hle)

theorem addInt64_le {now ms : Int} (hnow : 0 ≤ now) (hms : now + max ms 0 < 2 ^ 63) :
    now ≤ State.addInt64 now (if ms < 0 then 0 else ms) := by
  have hmax : (if ms < 0 then 0 else ms) = max ms 0 := by
    split <;> omega
  rw [hmax, State.addInt64, Int.bmod_eq_of_le] <;> omega

theorem Firing.step (h : Firing late s s' called) (hs : RegsOk s) (hs' : Reachable P s') (hnow : 0 ≤ s.now)
    {action : Action} (haction : action = .turn ∨ action.internal = false)
    (hlate : late → ∀ ms h cb, action = .after ms h cb → s.now + max ms 0 < 2 ^ 63)
    (hrun : s'.step P action = some s'') : ∃ more, Firing late s s'' (called ++ more) := by
  have ok := hs'.ok
  have ok'' := ok.step hrun
  rcases haction with rfl | hinternal
  · have hturn : s'.turn = some s'' := hrun
    rcases h.phase with hphase | hphase
    · simp only [State.turn, hphase] at hturn
      split at hturn
      · next hdue =>
        rw [← Option.some.inj hturn]
        exact ⟨_, h.fire ok.regs hdue.1 hdue.2 hphase⟩
      · next hdue =>
        rw [← Option.some.inj hturn]
        refine ⟨[], ?_⟩
        rw [List.append_nil]
        exact h.finish ok.regs hdue
    · simp only [State.turn, hphase] at hturn
      cases hturn
  · refine ⟨[], ?_⟩
    rw [List.append_nil]
    refine h.calm hs ok.regs ok''.regs (ok.calm hinternal (fun ms hdl cb t haction hl _ => ?_) (fun _ _ _ _ hk _ hk' => ?_)
      hrun) fun t hc => ?_
    · rw [h.now]
      exact addInt64_le hnow (hlate hl ms hdl cb haction)
    · exact absurd hk' hk
    · obtain ⟨Q, D, places⟩ := ok.places
      exact (hs'.stays hrun ((places.each t).made hc)).completed hc

theorem Firing.run (late : Prop) (hs : RegsOk s) (hnow : 0 ≤ s.now) (actions : List Action) : ∀ s' called,
    Firing late s s' called → Reachable P s' → (∀ action ∈ actions, action = .turn ∨ action.internal = false) →
    (late → ∀ ms h cb, .after ms h cb ∈ actions → s.now + max ms 0 < 2 ^ 63) → s'.run P actions = some s'' →
    ∃ more, Firing late s s'' (called ++ more) := by
  induction actions with
  | nil =>
      intro s' called h _ _ _ hrun
      rw [← Option.some.inj hrun]
      exact ⟨[], by rwa [List.append_nil]⟩
  | cons action actions ih =>
      intro s' called h hs' hactions hlate hrun
      simp only [State.run, List.foldlM_cons, Option.bind_eq_bind, Option.bind_eq_some_iff] at hrun
      obtain ⟨s₁, hstep, hrest⟩ := hrun
      obtain ⟨more, h₁⟩ := h.step hs hs' hnow (hactions action (List.mem_cons_self ..))
        (fun hl ms hdl cb he => hlate hl ms hdl cb (he ▸ List.mem_cons_self ..)) hstep
      have hs₁ : Reachable P s₁ := hs'.step hstep
      obtain ⟨more', h₂⟩ := ih s₁ (called ++ more) h₁ hs₁ (fun a ha => hactions a (List.mem_cons_of_mem _ ha))
        (fun hl ms hdl cb ha => hlate hl ms hdl cb (List.mem_cons_of_mem _ ha)) hrest
      exact ⟨more ++ more', by rwa [← List.append_assoc]⟩

/-- Whatever is called during the timers of a turn, timers are called in the order of their times, and of equal
times in the order in which they were registered, each was registered before and is due; at the end every such
timer has been called unless its task was completed, provided that no time overflows. -/
theorem Reachable.timers (hs : Reachable P s) (hphase : s.phase = .timers s.regSeq)
    {actions : List Action} (hactions : ∀ action ∈ actions, action = .turn ∨ action.internal = false)
    (hrun : s.run P actions = some s') :
    ∃ called, s'.fired = s.fired ++ called ∧ called.Pairwise (fun g g' => timerKey s.regs g < timerKey s.regs g') ∧
      (∀ g ∈ called, s.timers.Mem g ∧ (s.regs g).time ≤ s.now) ∧
      (s'.phase = .idle → (∀ ms h cb, .after ms h cb ∈ actions → s.now + max ms 0 < 2 ^ 63) →
        ∀ g, s.timers.Mem g → (s.regs g).time ≤ s.now → g ∈ called ∨ (s'.tasks (s.regs g).task).completed = true) := by
  have regs := hs.ok.regs
  obtain ⟨called, h⟩ := Firing.run (∀ ms h cb, .after ms h cb ∈ actions → s.now + max ms 0 < 2 ^ 63) regs hs.now_nonneg actions
    s [] (firing_refl regs hphase) hs hactions id hrun
  rw [List.nil_append] at h
  refine ⟨called, h.fired, h.sorted, h.due, fun hidle hlate g hg hdue => ?_⟩
  rcases h.kept g hg with hcalled | hmem | hc
  · exact .inl hcalled
  · have := h.done hlate hidle g hmem (regs.timer_lt hg)
    omega
  · exact .inr hc

theorem timers_sleeping : ∃ (s s' : State) (called : List RegId), s'.fired = s.fired ++ called ∧
    called.Pairwise (fun g g' => timerKey s.regs g < timerKey s.regs g') ∧ s'.fired = [1] := by
  obtain ⟨s, hs, hphase, hafter⟩ := of_run sleepTarget sleeping (fun s => s.phase = .timers s.regSeq ∧
    (s.run sleepTarget waking).any (fun s' => decide (s'.fired = [1])) = true) (by decide)
  obtain ⟨s', hrun, hfired⟩ := (Option.any_eq_true ..).mp hafter
  obtain ⟨called, heq, hsorted, -⟩ := hs.timers hphase (by simp [waking, Action.internal]) hrun
  exact ⟨s, s', called, heq, hsorted, of_decide_eq_true hfired⟩

end Emela.EventLoop
