import Emela.EventLoop.Lemmas.Registrations
import Mathlib.Data.List.Perm.Subperm

/-!
# Where the tasks are

A task is in place while its host function runs, then waits, then is completed: in place, in the inbox, or
among the completions that the loop has taken out of the inbox. Once its completion is delivered it is
retired, and later freed.
-/

namespace Emela.EventLoop

open LinkedQueue

/-- The first of the completions taken out of the inbox. -/
def Phase.head : Phase → Option TaskId
  | .inbox head _ _ => head
  | _ => none

/-- The task's completion is not delivered yet. -/
def State.Live (s : State) (t : TaskId) : Prop := s.freed t = false ∧ t ∉ s.retired

/-- What holds of a task, given whether it is made, live, in the inbox or taken out of it. -/
structure TaskOk (a : Task) (made live inQ inD : Prop) : Prop where
  queued : a.queued = true ↔ inQ
  apart : inQ → ¬ inD
  known : inQ ∨ inD → live ∧ a.completed = true
  taken : inD → a.inPlace = false
  gone : ¬ live → a.completed = true ∧ a.inPlace = false ∧ a.wait = none
  fresh : ¬ made → a.completed = false ∧ a.inPlace = false ∧ a.wait = none ∧ a.regs = []
  completed : a.completed = true → live → a.inPlace = true ∨ inQ ∨ inD
  ended : a.inPlace = true → a.wait = none
  lost : made → live → a.inPlace = false → a.wait = none → a.cancelled = true
  regs : a.regs ≠ [] → a.completed = true → inQ ∨ inD

/-- `Q` are the tasks in the inbox and `D` those taken out of it. -/
structure TasksOk (s : State) (Q D : List TaskId) : Prop where
  inbox : Queue (fun t => (s.tasks t).inboxNext) s.inboxHead s.inboxTail Q
  taken : Path (fun t => (s.tasks t).inboxNext) s.phase.head D
  taken_nodup : D.Nodup
  retired_nodup : s.retired.Nodup
  retired_freed : ∀ t ∈ s.retired, s.freed t = false
  waits : ∀ t w, s.waitTask w = some t ↔ (s.tasks t).wait = some w
  each : ∀ t, TaskOk (s.tasks t) (t < s.taskSeq) (s.Live t) (t ∈ Q) (t ∈ D)

variable {s s' : State} {t : TaskId} {Q D : List TaskId}

theorem setTask_self (s : State) (t : TaskId) (f : Task → Task) : (s.setTask t f).tasks t = f (s.tasks t) :=
  Function.update_self ..

theorem setTask_of_ne {t' : TaskId} (s : State) (f : Task → Task) (h : t' ≠ t) :
    (s.setTask t f).tasks t' = s.tasks t' :=
  Function.update_of_ne h ..

theorem TaskOk.made {a : Task} {made live inQ inD : Prop} (h : TaskOk a made live inQ inD) (ha : a.completed = true) :
    made := by
  by_contra hmade
  rw [(h.fresh hmade).1] at ha
  cases ha

/-- Only tasks whose completion is not delivered are registered with the loop. -/
theorem TaskOk.live {a : Task} {made live inQ inD : Prop} (h : TaskOk a made live inQ inD) (ha : a.regs ≠ []) :
    live := by
  by_contra hlive
  exact hlive (h.known (h.regs ha (h.gone hlive).1)).1

/-! ## What other functions leave alone -/

/-- The task is where it was. -/
structure SamePlace (a b : Task) : Prop where
  queued : b.queued = a.queued
  completed : b.completed = a.completed
  inPlace : b.inPlace = a.inPlace
  wait : b.wait = a.wait
  cancelled : a.cancelled = true → b.cancelled = true
  regs : b.regs ≠ [] → a.regs ≠ []

structure SameTask (a b : Task) : Prop extends SamePlace a b where
  inboxNext : b.inboxNext = a.inboxNext

theorem SameTask.refl (a : Task) : SameTask a a := ⟨⟨rfl, rfl, rfl, rfl, id, id⟩, rfl⟩

theorem SameTask.trans {a b d : Task} (h : SameTask a b) (h' : SameTask b d) : SameTask a d :=
  ⟨⟨h'.queued.trans h.queued, h'.completed.trans h.completed, h'.inPlace.trans h.inPlace, h'.wait.trans h.wait,
    h'.cancelled ∘ h.cancelled, h.regs ∘ h'.regs⟩, h'.inboxNext.trans h.inboxNext⟩

structure SameTasks (s s' : State) : Prop where
  tasks : ∀ t, SameTask (s.tasks t) (s'.tasks t)
  inboxHead : s'.inboxHead = s.inboxHead
  inboxTail : s'.inboxTail = s.inboxTail
  taken : s'.phase.head = s.phase.head
  retired : s'.retired = s.retired
  freed : s'.freed = s.freed
  taskSeq : s'.taskSeq = s.taskSeq
  waitTask : s'.waitTask = s.waitTask

theorem SameTasks.trans {s'' : State} (h : SameTasks s s') (h' : SameTasks s' s'') : SameTasks s s'' :=
  ⟨fun t => (h.tasks t).trans (h'.tasks t), h'.inboxHead.trans h.inboxHead, h'.inboxTail.trans h.inboxTail,
    h'.taken.trans h.taken, h'.retired.trans h.retired, h'.freed.trans h.freed, h'.taskSeq.trans h.taskSeq,
    h'.waitTask.trans h.waitTask⟩

theorem SameTasks.live (h : SameTasks s s') : s'.Live t ↔ s.Live t := by
  rw [State.Live, State.Live, h.freed, h.retired]

theorem sameTasks_setTask (s : State) (t : TaskId) {f : Task → Task} (hf : SameTask (s.tasks t) (f (s.tasks t))) :
    SameTasks s (s.setTask t f) := by
  refine ⟨fun t' => ?_, rfl, rfl, rfl, rfl, rfl, rfl, rfl⟩
  by_cases h : t' = t
  · subst h
    rw [setTask_self]
    exact hf
  · rw [setTask_of_ne _ _ h]
    exact .refl _

theorem TaskOk.congr {a b : Task} {made live inQ inD made' live' inQ' inD' : Prop} (h : TaskOk a made live inQ inD)
    (hb : SamePlace a b) (hmade : made' ↔ made) (hlive : live' ↔ live) (hQ : inQ' ↔ inQ) (hD : inD' ↔ inD) :
    TaskOk b made' live' inQ' inD' := by
  rw [hmade, hlive, hQ, hD]
  refine ⟨hb.queued ▸ h.queued, h.apart, hb.completed ▸ h.known, hb.inPlace ▸ h.taken,
    hb.completed ▸ hb.inPlace ▸ hb.wait ▸ h.gone, fun hm => ?_, hb.completed ▸ hb.inPlace ▸ h.completed,
    hb.inPlace ▸ hb.wait ▸ h.ended, fun hm hl hp hw => ?_, fun hr hc => ?_⟩
  · obtain ⟨hcompleted, hplace, hwait, hregs⟩ := h.fresh hm
    refine ⟨hb.completed.trans hcompleted, hb.inPlace.trans hplace, hb.wait.trans hwait, ?_⟩
    by_contra hne
    exact hb.regs hne hregs
  · exact hb.cancelled (h.lost hm hl (hb.inPlace ▸ hp) (hb.wait ▸ hw))
  · exact h.regs (hb.regs hr) (hb.completed ▸ hc)

theorem TasksOk.congr (h : TasksOk s Q D) (hs : SameTasks s s') : TasksOk s' Q D where
  inbox := by
    rw [hs.inboxHead, hs.inboxTail]
    exact h.inbox.congr fun t _ => (hs.tasks t).inboxNext
  taken := by
    rw [hs.taken]
    exact h.taken.congr fun t _ => (hs.tasks t).inboxNext
  taken_nodup := h.taken_nodup
  retired_nodup := by
    rw [hs.retired]
    exact h.retired_nodup
  retired_freed t ht := by
    rw [hs.retired] at ht
    rw [hs.freed]
    exact h.retired_freed t ht
  waits t w := by
    rw [hs.waitTask, (hs.tasks t).wait]
    exact h.waits t w
  each t := (h.each t).congr (hs.tasks t).toSamePlace (by rw [hs.taskSeq]) hs.live .rfl .rfl

/-! ## A task that ends, is cancelled or waits -/

/-- No wait has the task. -/
theorem TasksOk.not_waiting (h : TasksOk s Q D) (hw : (s.tasks t).wait = none) (w : WaitId) : s.waitTask w ≠ some t := by
  rw [Ne, h.waits, hw]
  exact (Option.some_ne_none w).symm

/-- The waits, without those of one task. -/
def State.unwait (s : State) (t : TaskId) : WaitId → Option TaskId :=
  match (s.tasks t).wait with
  | none => s.waitTask
  | some w => Function.update s.waitTask w none

theorem TasksOk.unwait (h : TasksOk s Q D) (t' : TaskId) (w : WaitId) :
    s.unwait t w = some t' ↔ s.waitTask w = some t' ∧ t' ≠ t := by
  rw [State.unwait]
  cases hw : (s.tasks t).wait with
  | none =>
      refine ⟨fun ht => ⟨ht, ?_⟩, And.left⟩
      rintro rfl
      exact h.not_waiting hw w ht
  | some w' =>
      by_cases he : w = w'
      · subst he
        have := (h.waits t w).mpr hw
        simp [this, eq_comm]
      · simp only [Function.update_of_ne he]
        refine ⟨fun ht => ⟨ht, ?_⟩, And.left⟩
        rintro rfl
        rw [h.waits, hw, Option.some.injEq] at ht
        exact he ht.symm

/-- Only the task `t` is in another place, and has no wait any more. -/
structure Moved (s s' : State) (t : TaskId) : Prop where
  others : ∀ t' ≠ t, SameTask (s.tasks t') (s'.tasks t')
  taskSeq : s'.taskSeq = s.taskSeq
  freed : s'.freed = s.freed
  wait : (s'.tasks t).wait = none
  waitTask : s'.waitTask = s.unwait t

theorem TasksOk.moved_waits (h : TasksOk s Q D) (hm : Moved s s' t) (t' : TaskId) (w : WaitId) :
    s'.waitTask w = some t' ↔ (s'.tasks t').wait = some w := by
  rw [hm.waitTask, h.unwait]
  by_cases ht : t' = t
  · subst ht
    simp [hm.wait]
  · rw [(hm.others t' ht).wait, h.waits, and_iff_left ht]

/-- The completion is delivered, and the task retired. -/
theorem TasksOk.finish {D' : List TaskId} (h : TasksOk s Q D) (hm : Moved s s' t) (hlive : s.Live t) (hQ : t ∉ Q)
    (retired : s'.retired = t :: s.retired) (head : s'.inboxHead = s.inboxHead) (tail : s'.inboxTail = s.inboxTail)
    (completed : (s'.tasks t).completed = true) (inPlace : (s'.tasks t).inPlace = false)
    (queued : (s'.tasks t).queued = (s.tasks t).queued) (regs : (s'.tasks t).regs = []) (made : t < s.taskSeq)
    (hD : ∀ t', t' ∈ D' ↔ t' ∈ D ∧ t' ≠ t) (nodup : D'.Nodup)
    (path : Path (fun t => (s'.tasks t).inboxNext) s'.phase.head D') : TasksOk s' Q D' where
  inbox := by
    rw [head, tail]
    refine h.inbox.congr fun t' ht' => (hm.others t' ?_).inboxNext
    rintro rfl
    exact hQ ht'
  taken := path
  taken_nodup := nodup
  retired_nodup := by
    rw [retired]
    exact List.nodup_cons.mpr ⟨hlive.2, h.retired_nodup⟩
  retired_freed t' ht' := by
    rw [hm.freed]
    rw [retired] at ht'
    rcases List.mem_cons.mp ht' with rfl | ht'
    · exact hlive.1
    · exact h.retired_freed t' ht'
  waits := h.moved_waits hm
  each t' := by
    by_cases ht' : t' = t
    · subst ht'
      have hdead : ¬ s'.Live t' := fun hl => hl.2 (by rw [retired]; exact List.mem_cons_self ..)
      have hD' : t' ∉ D' := fun hd => ((hD t').mp hd).2 rfl
      refine ⟨?_, fun hq => absurd hq hQ, ?_, fun hd => absurd hd hD', fun _ => ⟨completed, inPlace, hm.wait⟩, ?_,
        fun _ hl => absurd hl hdead, fun hp => ?_, fun _ hl => absurd hl hdead, fun hr => absurd regs hr⟩
      · rw [queued]
        exact (h.each t').queued
      · rintro (hq | hd)
        · exact absurd hq hQ
        · exact absurd hd hD'
      · rw [hm.taskSeq]
        exact fun hnot => absurd made hnot
      · rw [inPlace] at hp
        cases hp
    · refine (h.each t').congr (hm.others t' ht').toSamePlace (by rw [hm.taskSeq]) ?_ .rfl (by simp [hD, ht'])
      simp [State.Live, hm.freed, retired, ht']

/-- The fiber does not wait for the task any more. -/
theorem TasksOk.cancel (h : TasksOk s Q D) (hm : Moved s s' t) (retired : s'.retired = s.retired)
    (head : s'.inboxHead = s.inboxHead) (tail : s'.inboxTail = s.inboxTail) (taken : s'.phase.head = s.phase.head)
    (inboxNext : (s'.tasks t).inboxNext = (s.tasks t).inboxNext)
    (completed : (s'.tasks t).completed = (s.tasks t).completed) (queued : (s'.tasks t).queued = (s.tasks t).queued)
    (regs : (s'.tasks t).regs = (s.tasks t).regs) (inPlace : (s'.tasks t).inPlace = false)
    (cancelled : (s'.tasks t).cancelled = true)
    (hplace : (s.tasks t).completed = true → (s.tasks t).inPlace = true → t ∈ Q) : TasksOk s' Q D := by
  have next : ∀ t', (s'.tasks t').inboxNext = (s.tasks t').inboxNext := by
    intro t'
    by_cases ht' : t' = t
    · rw [ht', inboxNext]
    · exact (hm.others t' ht').inboxNext
  have hlive : ∀ t', s'.Live t' ↔ s.Live t' := fun t' => by rw [State.Live, State.Live, hm.freed, retired]
  refine ⟨?_, ?_, h.taken_nodup, retired ▸ h.retired_nodup, ?_, h.moved_waits hm, fun t' => ?_⟩
  · rw [head, tail]
    exact h.inbox.congr fun t' _ => next t'
  · rw [taken]
    exact h.taken.congr fun t' _ => next t'
  · rw [retired, hm.freed]
    exact h.retired_freed
  · by_cases ht' : t' = t
    · subst ht'
      have old := h.each t'
      rw [hm.taskSeq, hlive]
      refine ⟨queued ▸ old.queued, old.apart, completed ▸ old.known, fun _ => inPlace, fun hl => ?_, fun hnot => ?_,
        fun hc hl => ?_, fun _ => hm.wait, fun _ _ _ _ => cancelled, regs ▸ completed ▸ old.regs⟩
      · exact ⟨completed.trans (old.gone hl).1, inPlace, hm.wait⟩
      · exact ⟨completed.trans (old.fresh hnot).1, inPlace, hm.wait, regs.trans (old.fresh hnot).2.2.2⟩
      · rw [completed] at hc
        rcases old.completed hc hl with hp | hrest
        · exact .inr (.inl (hplace hc hp))
        · exact .inr hrest
    · exact (h.each t').congr (hm.others t' ht').toSamePlace (by rw [hm.taskSeq]) (hlive t') .rfl .rfl

/-- The fiber waits for the task. -/
theorem TasksOk.wait {w : WaitId} (h : TasksOk s Q D) (others : ∀ t' ≠ t, SameTask (s.tasks t') (s'.tasks t'))
    (hsame : SameTask { s.tasks t with inPlace := false, wait := some w } (s'.tasks t))
    (hplace : (s.tasks t).inPlace = true) (hqueue : (s.tasks t).completed = true → t ∈ Q)
    (hw : s.waitTask w = none) (waitTask : s'.waitTask = Function.update s.waitTask w (some t))
    (rest : SameTasks { s with waitTask := s'.waitTask, tasks := s'.tasks } s') : TasksOk s' Q D := by
  have next : ∀ t', (s'.tasks t').inboxNext = (s.tasks t').inboxNext := by
    intro t'
    by_cases ht' : t' = t
    · rw [ht', hsame.inboxNext]
    · exact (others t' ht').inboxNext
  refine ⟨?_, ?_, h.taken_nodup, rest.retired ▸ h.retired_nodup, ?_, fun t' w' => ?_, fun t' => ?_⟩
  · rw [rest.inboxHead, rest.inboxTail]
    exact h.inbox.congr fun t' _ => next t'
  · rw [rest.taken]
    exact h.taken.congr fun t' _ => next t'
  · rw [rest.retired, rest.freed]
    exact h.retired_freed
  · rw [waitTask]
    have hnone := (h.each t).ended hplace
    by_cases ht' : t' = t
    · subst ht'
      rw [hsame.wait]
      by_cases he : w' = w
      · simp [he]
      · rw [Function.update_of_ne he]
        simp [h.not_waiting hnone, Ne.symm he]
    · rw [(others t' ht').wait]
      by_cases he : w' = w
      · subst he
        rw [Function.update_self, ← h.waits, hw]
        simp [Ne.symm ht']
      · rw [Function.update_of_ne he, h.waits]
  · have hlive : s'.Live t' ↔ s.Live t' := by rw [State.Live, State.Live, rest.freed, rest.retired]
    by_cases ht' : t' = t
    · subst ht'
      have old := h.each t'
      rw [show s'.taskSeq = s.taskSeq from rest.taskSeq, hlive]
      have hlive' : s.Live t' := by
        by_contra hl
        rw [(old.gone hl).2.1] at hplace
        cases hplace
      have made : t' < s.taskSeq := by
        by_contra hnot
        rw [(old.fresh hnot).2.1] at hplace
        cases hplace
      refine ⟨by rw [hsame.queued]; exact old.queued, old.apart, by rw [hsame.completed]; exact old.known,
        fun _ => hsame.inPlace, fun hl => absurd hlive' hl, fun hnot => absurd made hnot, fun hc _ => ?_, fun hp => ?_,
        fun _ _ _ hnone => ?_, fun hr hc => ?_⟩
      · rw [hsame.completed] at hc
        exact .inr (.inl (hqueue hc))
      · rw [hsame.inPlace] at hp
        cases hp
      · rw [hsame.wait] at hnone
        cases hnone
      · rw [hsame.completed] at hc
        exact .inl (hqueue hc)
    · exact (h.each t').congr (others t' ht').toSamePlace (by rw [rest.taskSeq]) hlive .rfl .rfl

/-! ## Completions -/

/-- The task is completed on the runtime's thread while its host function runs. -/
theorem TasksOk.completeInPlace (h : TasksOk s Q D) (hplace : (s.tasks t).inPlace = true)
    (others : ∀ t' ≠ t, SameTask (s.tasks t') (s'.tasks t')) (inboxNext : (s'.tasks t).inboxNext = (s.tasks t).inboxNext)
    (queued : (s'.tasks t).queued = (s.tasks t).queued) (inPlace : (s'.tasks t).inPlace = true)
    (wait : (s'.tasks t).wait = (s.tasks t).wait) (regs : (s'.tasks t).regs = [])
    (hcompleted : (s.tasks t).completed = false) (completed : (s'.tasks t).completed = true)
    (rest : SameTasks { s with tasks := s'.tasks } s') : TasksOk s' Q D := by
  have next : ∀ t', (s'.tasks t').inboxNext = (s.tasks t').inboxNext := by
    intro t'
    by_cases ht' : t' = t
    · rw [ht', inboxNext]
    · exact (others t' ht').inboxNext
  have old := h.each t
  have hout : ¬ (t ∈ Q ∨ t ∈ D) := by
    intro hin
    rw [(old.known hin).2] at hcompleted
    cases hcompleted
  refine ⟨?_, ?_, h.taken_nodup, rest.retired ▸ h.retired_nodup, ?_, fun t' w => ?_, fun t' => ?_⟩
  · rw [rest.inboxHead, rest.inboxTail]
    exact h.inbox.congr fun t' _ => next t'
  · rw [rest.taken]
    exact h.taken.congr fun t' _ => next t'
  · rw [rest.retired, rest.freed]
    exact h.retired_freed
  · rw [rest.waitTask]
    by_cases ht' : t' = t
    · rw [ht', wait]
      exact h.waits t w
    · rw [(others t' ht').wait]
      exact h.waits t' w
  · have hlive : s'.Live t' ↔ s.Live t' := by rw [State.Live, State.Live, rest.freed, rest.retired]
    by_cases ht' : t' = t
    · subst ht'
      rw [show s'.taskSeq = s.taskSeq from rest.taskSeq, hlive]
      refine ⟨queued ▸ old.queued, old.apart, fun hin => absurd hin hout, fun hd => absurd (.inr hd) hout,
        fun hl => ?_, fun hnot => ?_, fun _ _ => .inl inPlace, fun _ => wait.trans (old.ended hplace), fun _ _ hp => ?_,
        fun hr => absurd regs hr⟩
      · rw [(old.gone hl).1] at hcompleted
        cases hcompleted
      · rw [(old.fresh hnot).2.1] at hplace
        cases hplace
      · rw [inPlace] at hp
        cases hp
    · exact (h.each t').congr (others t' ht').toSamePlace (by rw [rest.taskSeq]) hlive .rfl .rfl

/-- The links of the inbox once a task is put at its end. -/
theorem pushInbox_links (s : State) (t : TaskId) :
    (fun t' => ((s.pushInbox t).tasks t').inboxNext) =
      s.inboxTail.elim (Function.update (fun t' => (s.tasks t').inboxNext) t none)
        (fun u => Function.update (Function.update (fun t' => (s.tasks t').inboxNext) t none) u (some t)) := by
  funext t'
  cases hcase : s.inboxTail with
  | none =>
      simp only [State.pushInbox, State.setTask, hcase, Option.elim_none, Function.update_apply]
      split <;> rfl
  | some u =>
      simp only [State.pushInbox, State.setTask, hcase, Option.elim_some, Function.update_apply]
      split
      · rfl
      · split <;> rfl

theorem pushInbox_place (s : State) (t : TaskId) (hu : s.inboxTail ≠ some t) :
    SamePlace { s.tasks t with queued := true } ((s.pushInbox t).tasks t) ∧
      ∀ t' ≠ t, SamePlace (s.tasks t') ((s.pushInbox t).tasks t') := by
  cases hcase : s.inboxTail with
  | none =>
      simp only [State.pushInbox, State.setTask, hcase]
      refine ⟨?_, fun t' ht' => ?_⟩
      · rw [Function.update_self]
        exact ⟨rfl, rfl, rfl, rfl, id, id⟩
      · rw [Function.update_of_ne ht']
        exact ⟨rfl, rfl, rfl, rfl, id, id⟩
  | some u =>
      have hut : u ≠ t := fun he => hu (by rw [hcase, he])
      simp only [State.pushInbox, State.setTask, hcase]
      refine ⟨?_, fun t' ht' => ?_⟩
      · rw [Function.update_of_ne hut.symm, Function.update_self]
        exact ⟨rfl, rfl, rfl, rfl, id, id⟩
      · by_cases htu : t' = u
        · subst htu
          rw [Function.update_self, Function.update_of_ne hut]
          exact ⟨rfl, rfl, rfl, rfl, id, id⟩
        · rw [Function.update_of_ne htu, Function.update_of_ne ht']
          exact ⟨rfl, rfl, rfl, rfl, id, id⟩

theorem pushInbox_eq (s : State) (t : TaskId) :
    s.pushInbox t = { s with
      tasks := (s.pushInbox t).tasks
      inboxHead := if s.inboxTail = none then some t else s.inboxHead
      inboxTail := some t } := by
  cases hcase : s.inboxTail with
  | none => simp [State.pushInbox, State.setTask, hcase]
  | some u => simp [State.pushInbox, State.setTask, hcase]

/-- A task completed by another thread. -/
theorem TasksOk.pushInbox (h : TasksOk s Q D) (hcompleted : (s.tasks t).completed = false) (made : t < s.taskSeq)
    (completion : Completion) :
    TasksOk (((s.setTask t fun task => { task with completed := true, completion := completion }).emit
      (.completed t completion)).pushInbox t) (Q ++ [t]) D := by
  have old := h.each t
  have hlive : s.Live t := by
    by_contra hl
    rw [(old.gone hl).1] at hcompleted
    cases hcompleted
  have hout : ¬ (t ∈ Q ∨ t ∈ D) := by
    intro hin
    rw [(old.known hin).2] at hcompleted
    cases hcompleted
  rw [not_or] at hout
  have hu : s.inboxTail ≠ some t := by
    rw [h.inbox.tail]
    exact fun he => hout.1 (List.mem_of_getLast? he)
  let s₁ := (s.setTask t fun task => { task with completed := true, completion := completion }).emit
    (.completed t completion)
  have same : ∀ t' ≠ t, s₁.tasks t' = s.tasks t' := fun t' ht' => Function.update_of_ne ht' ..
  have mine : s₁.tasks t = { s.tasks t with completed := true, completion := completion } := Function.update_self ..
  have links := pushInbox_links s₁ t
  obtain ⟨self, others⟩ := pushInbox_place s₁ t hu
  rw [mine] at self
  have next : Function.update (fun t' => (s₁.tasks t').inboxNext) t none =
      Function.update (fun t' => (s.tasks t').inboxNext) t none := by
    funext t'
    by_cases ht' : t' = t
    · rw [ht', Function.update_self, Function.update_self]
    · rw [Function.update_of_ne ht', Function.update_of_ne ht', same t' ht']
  rw [next] at links
  change TasksOk (s₁.pushInbox t) (Q ++ [t]) D
  have queue : Queue (Function.update (fun t' => (s.tasks t').inboxNext) t none) s.inboxHead s.inboxTail Q := by
    refine h.inbox.congr fun t' ht' => Function.update_of_ne ?_ _ _
    rintro rfl
    exact hout.1 ht'
  refine ⟨?inbox, ?taken, h.taken_nodup, ?retired, ?freed, fun t' w => ?waits, fun t' => ?each⟩
  case inbox =>
    rw [links, pushInbox_eq]
    exact queue.push hout.1 (Function.update_self ..)
  case taken =>
    rw [links, pushInbox_eq]
    refine h.taken.congr fun t' ht' => ?_
    have htt : t' ≠ t := by
      rintro rfl
      exact hout.2 ht'
    change (s.inboxTail.elim (Function.update (fun t' => (s.tasks t').inboxNext) t none) fun u =>
      Function.update (Function.update (fun t' => (s.tasks t').inboxNext) t none) u (some t)) t' = _
    cases htail : s.inboxTail with
    | none => rw [Option.elim_none, Function.update_of_ne htt]
    | some u =>
        have hut : t' ≠ u := by
          rintro rfl
          rw [h.inbox.tail] at htail
          exact (h.each t').apart (List.mem_of_getLast? htail) ht'
        rw [Option.elim_some, Function.update_of_ne hut, Function.update_of_ne htt]
  case retired =>
    rw [pushInbox_eq]
    exact h.retired_nodup
  case freed =>
    rw [pushInbox_eq]
    exact h.retired_freed
  case waits =>
    have hwait : ((s₁.pushInbox t).tasks t').wait = (s.tasks t').wait := by
      by_cases ht' : t' = t
      · rw [ht', self.wait]
      · rw [(others t' ht').wait, same t' ht']
    rw [hwait, pushInbox_eq]
    exact h.waits t' w
  case each =>
    have made' : t' < (s₁.pushInbox t).taskSeq ↔ t' < s.taskSeq := by
      rw [pushInbox_eq]
      rfl
    have live' : (s₁.pushInbox t).Live t' ↔ s.Live t' := by
      rw [pushInbox_eq]
      rfl
    by_cases ht' : t' = t
    · subst ht'
      rw [made', live']
      have inQ : t' ∈ Q ++ [t'] := by simp
      refine ⟨⟨fun _ => inQ, fun _ => self.queued⟩, fun _ => hout.2, fun _ => ⟨hlive, self.completed⟩,
        fun hd => absurd hd hout.2, fun hl => absurd hlive hl, fun hnot => absurd made hnot, fun _ _ => .inr (.inl inQ),
        fun hp => ?_, fun hm hl hp hw => ?_, fun _ _ => .inl inQ⟩
      · rw [self.inPlace] at hp
        rw [self.wait]
        exact old.ended hp
      · rw [self.inPlace] at hp
        rw [self.wait] at hw
        exact self.cancelled (old.lost hm hl hp hw)
    · have place := others t' ht'
      rw [same t' ht'] at place
      exact (h.each t').congr place made' live' (by simp [ht']) .rfl

/-! ## The inbox taken -/

theorem unqueue_eq (l : List TaskId) : ∀ (n : Nat) (head : Option TaskId) (s : State), l.length ≤ n → l.Nodup →
    Path (fun t => (s.tasks t).inboxNext) head l →
    State.unqueue n head s =
      { s with tasks := fun t => if t ∈ l then { s.tasks t with queued := false } else s.tasks t } := by
  induction l with
  | nil =>
      intro n head s _ _ hp
      obtain rfl : head = none := hp
      cases n <;> simp [State.unqueue]
  | cons t l ih =>
      intro n head s hn hnd hp
      obtain ⟨n, rfl⟩ : ∃ k, n = k + 1 := ⟨n - 1, by simp at hn; omega⟩
      rw [List.nodup_cons] at hnd
      obtain rfl : head = some t := hp.1
      have hpath : Path (fun t' => ((s.setTask t fun task => { task with queued := false }).tasks t').inboxNext)
          (s.tasks t).inboxNext l := by
        refine hp.2.congr fun t' ht' => ?_
        rw [setTask_of_ne]
        rintro rfl
        exact hnd.1 ht'
      rw [State.unqueue, ih n _ _ (by simpa using hn) hnd.2 hpath]
      have tasks : ∀ t', (if t' ∈ l then
            { (s.setTask t fun task => { task with queued := false }).tasks t' with queued := false }
          else (s.setTask t fun task => { task with queued := false }).tasks t') =
          if t' ∈ t :: l then { s.tasks t' with queued := false } else s.tasks t' := by
        intro t'
        by_cases ht' : t' = t
        · subst ht'
          rw [if_neg hnd.1, if_pos (List.mem_cons_self ..), setTask_self]
        · rw [setTask_of_ne _ _ ht']
          simp [ht']
      simp only [tasks]
      rfl

theorem TasksOk.length_le (h : TasksOk s Q D) : Q.length ≤ s.taskSeq := by
  have hsub : Q ⊆ List.range s.taskSeq := by
    intro t ht
    exact List.mem_range.mpr ((h.each t).made ((h.each t).known (.inl ht)).2)
  have := (List.Nodup.subperm h.inbox.nodup hsub).length_le
  rwa [List.length_range] at this

theorem TasksOk.takeInbox (h : TasksOk s Q []) (hcalm : ∀ t, (s.tasks t).inPlace = false) (ready : List RegId) :
    TasksOk (s.takeInbox ready) [] Q := by
  have hrun := unqueue_eq Q s.taskSeq s.inboxHead { s with inboxHead := none, inboxTail := none, inboxTwice := [] }
    h.length_le h.inbox.nodup h.inbox.path
  have tasks : ∀ t, (s.takeInbox ready).tasks t = if t ∈ Q then { s.tasks t with queued := false } else s.tasks t := by
    intro t
    rw [State.takeInbox, hrun]
  have links : ∀ t, ((s.takeInbox ready).tasks t).inboxNext = (s.tasks t).inboxNext := by
    intro t
    rw [tasks]
    split <;> rfl
  have frame : s.takeInbox ready = { s with
      inboxHead := none, inboxTail := none, inboxTwice := [], tasks := (s.takeInbox ready).tasks
      phase := .inbox s.inboxHead s.inboxTwice ready } := by
    rw [State.takeInbox, hrun]
  refine ⟨?inbox, ?taken, h.inbox.nodup, ?retired, ?freed, fun t w => ?waits, fun t => ?each⟩
  case inbox =>
    rw [frame]
    exact queue_empty
  case taken =>
    simp only [links]
    rw [frame]
    exact h.inbox.path
  case retired =>
    rw [frame]
    exact h.retired_nodup
  case freed =>
    rw [frame]
    exact h.retired_freed
  case waits =>
    have hwait : ((s.takeInbox ready).tasks t).wait = (s.tasks t).wait := by
      rw [tasks]
      split <;> rfl
    rw [hwait, frame]
    exact h.waits t w
  case each =>
    have old := h.each t
    have place : SamePlace { s.tasks t with queued := false } ((s.takeInbox ready).tasks t) := by
      rw [tasks]
      split
      · exact ⟨rfl, rfl, rfl, rfl, id, id⟩
      · next ht =>
          have hq : (s.tasks t).queued = false := by
            rw [Bool.eq_false_iff, Ne, old.queued]
            exact ht
          exact ⟨hq, rfl, rfl, rfl, id, id⟩
    have hout : ¬ t ∈ ([] : List TaskId) := List.not_mem_nil
    have live' : (s.takeInbox ready).Live t ↔ s.Live t := by
      rw [frame]
      rfl
    rw [show (s.takeInbox ready).taskSeq = s.taskSeq by rw [frame], live']
    have inner : TaskOk { s.tasks t with queued := false } (t < s.taskSeq) (s.Live t) (t ∈ ([] : List TaskId)) (t ∈ Q) := by
      refine ⟨by simp, fun hq => absurd hq hout, fun hin => old.known (.inl (hin.resolve_left hout)), fun _ => hcalm t,
        old.gone, old.fresh, fun hc hl => .inr (.inr ?_), old.ended, old.lost, fun hr hc => .inr ?_⟩
      · rcases old.completed hc hl with hp | hq | hd
        · rw [hcalm] at hp
          cases hp
        · exact hq
        · exact absurd hd hout
      · exact (old.regs hr hc).resolve_right hout
    exact inner.congr place .rfl .rfl .rfl .rfl

/-! ## Tasks freed and made -/

theorem collectTask_eq (s : State) (t : TaskId) : s.collectTask t = { s with
    slots := (s.collectTask t).slots, freeHead := (s.collectTask t).freeHead, freeTail := (s.collectTask t).freeTail
    freed := Function.update s.freed t true } := by
  cases hcase : s.freeTail <;> simp [State.collectTask, State.setSlot, hcase]

theorem foldl_collectTask_eq (l : List TaskId) (s : State) : l.foldl State.collectTask s = { s with
    slots := (l.foldl State.collectTask s).slots, freeHead := (l.foldl State.collectTask s).freeHead
    freeTail := (l.foldl State.collectTask s).freeTail, freed := fun t => s.freed t || decide (t ∈ l) } := by
  induction l generalizing s with
  | nil => simp
  | cons t l ih =>
      rw [List.foldl_cons, ih, collectTask_eq]
      have hfreed : (fun t' => Function.update s.freed t true t' || decide (t' ∈ l)) =
          fun t' => s.freed t' || decide (t' ∈ t :: l) := by
        funext t'
        by_cases ht' : t' = t
        · simp [ht']
        · simp [ht']
      rw [← hfreed]

theorem collect_eq (s : State) : s.collect = { s with
    slots := s.collect.slots, freeHead := s.collect.freeHead, freeTail := s.collect.freeTail
    freed := fun t => s.freed t || decide (t ∈ s.retired), retired := [] } := by
  conv_lhs => rw [State.collect, foldl_collectTask_eq]
  rfl

theorem collect_live (s : State) (t : TaskId) : s.collect.Live t ↔ s.Live t := by
  rw [State.Live, collect_eq, State.Live]
  simp

theorem TasksOk.collect (h : TasksOk s Q D) : TasksOk s.collect Q D := by
  have live := collect_live s
  have tasks : s.collect.tasks = s.tasks := by rw [collect_eq]
  refine ⟨?_, ?_, h.taken_nodup, ?_, ?_, ?_, fun t => ?_⟩
  · rw [collect_eq]
    exact h.inbox
  · rw [collect_eq]
    exact h.taken
  · rw [collect_eq]
    exact List.nodup_nil
  · rw [collect_eq]
    simp
  · rw [collect_eq]
    exact h.waits
  · refine (h.each t).congr ?_ ?_ (live t) .rfl .rfl
    · rw [tasks]
      exact ⟨rfl, rfl, rfl, rfl, id, id⟩
    · rw [collect_eq]

/-- A new task, in place. -/
theorem TasksOk.taskNew (h : TasksOk s Q D) (new : Task) (others : ∀ t' ≠ s.taskSeq, s'.tasks t' = s.tasks t')
    (inPlace : new.inPlace = true) (wait : new.wait = none) (queued : new.queued = false)
    (completed : new.completed = false) (self : SamePlace new (s'.tasks s.taskSeq)) (seq : s'.taskSeq = s.taskSeq + 1)
    (rest : SameTasks { s with tasks := s'.tasks, taskSeq := s'.taskSeq } s') : TasksOk s' Q D := by
  have old := h.each s.taskSeq
  have hnot : ¬ s.taskSeq < s.taskSeq := Nat.lt_irrefl _
  have hout : ¬ (s.taskSeq ∈ Q ∨ s.taskSeq ∈ D) := fun hin => hnot (old.made (old.known hin).2)
  have apart : ∀ t', t' ∈ Q ∨ t' ∈ D → t' ≠ s.taskSeq := by
    rintro t' ht' rfl
    exact hout ht'
  refine ⟨?_, ?_, h.taken_nodup, rest.retired ▸ h.retired_nodup, ?_, fun t' w => ?_, fun t' => ?_⟩
  · rw [rest.inboxHead, rest.inboxTail]
    exact h.inbox.congr fun t' ht' => by rw [others t' (apart t' (.inl ht'))]
  · rw [rest.taken]
    exact h.taken.congr fun t' ht' => by rw [others t' (apart t' (.inr ht'))]
  · rw [rest.retired, rest.freed]
    exact h.retired_freed
  · rw [rest.waitTask]
    by_cases ht' : t' = s.taskSeq
    · subst ht'
      rw [self.wait, wait]
      have hw := h.not_waiting (old.fresh hnot).2.2.1 w
      simpa using hw
    · rw [others t' ht']
      exact h.waits t' w
  · have hlive : s'.Live t' ↔ s.Live t' := by rw [State.Live, State.Live, rest.freed, rest.retired]
    by_cases ht' : t' = s.taskSeq
    · subst ht'
      rw [seq, hlive]
      rw [not_or] at hout
      have live : s.Live s.taskSeq := by
        by_contra hl
        exact hnot (old.made (old.gone hl).1)
      have hqueued : (s'.tasks s.taskSeq).queued = false := self.queued.trans queued
      have hcompleted : (s'.tasks s.taskSeq).completed = false := self.completed.trans completed
      have hplace : (s'.tasks s.taskSeq).inPlace = true := self.inPlace.trans inPlace
      refine ⟨?_, fun hq => absurd hq hout.1, fun hin => absurd hin (by simp [hout]), fun hd => absurd hd hout.2,
        fun hl => absurd live hl, fun hlt => absurd (Nat.lt_succ_self _) hlt, fun _ _ => .inl hplace,
        fun _ => self.wait.trans wait, fun _ _ hp => ?_, fun _ hc => ?_⟩
      · rw [hqueued]
        simp [hout.1]
      · rw [hplace] at hp
        cases hp
      · rw [hcompleted] at hc
        cases hc
    · refine (h.each t').congr ?_ ?_ hlive .rfl .rfl
      · rw [others t' ht']
        exact ⟨rfl, rfl, rfl, rfl, id, id⟩
      · rw [seq, Nat.lt_succ_iff_lt_or_eq, or_iff_left ht']

end Emela.EventLoop
