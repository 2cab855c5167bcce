import Emela.EventLoop.Lemmas.Slots

/-!
# The life of a call

What a call of a suspending external function is to the program: it is completed once, and what it was
completed with is given back to the program once, by the wrapper itself or to the wait made for it, unless the
fiber was interrupted. The log of every run keeps to this.
-/

namespace Emela.EventLoop

/-- A call, with the wait made for it, its completion, whether the fiber was interrupted and whether it was
completed again while its host function ran. -/
inductive Life where
  | live (wait : Option WaitId) (completion : Option Completion) (dropped again : Bool)
  | gone
deriving DecidableEq

/-- What may happen next; `input` is what a completion gives back. -/
def Life.next (input : Completion → Input) (message : Bytes) : Life → Event → Option Life
  | .live w none d a, .completed _ completion => some (.live w (some completion) d a)
  | .live none (some completion) false _, .again _ => some (.live none (some completion) false true)
  | .live none completion false a, .suspended _ w => some (.live (some w) completion false a)
  | .live w completion false a, .dropped _ => some (.live w completion true a)
  | .live w completion true a, .cancelled _ _ => some (.live w completion true a)
  | .live (some w) (some completion) false _, .resumed _ w' i =>
      if w' = w ∧ i = input completion then some .gone else none
  | .live none (some completion) false a, .returned _ i =>
      if i = (if a then .throw message else input completion) then some .gone else none
  | .live _ (some _) true _, .discarded _ => some .gone
  | _, _ => none

/-- The task that an event is about. -/
def Event.about : Event → Option TaskId
  | .completed t _ | .again t | .suspended t _ | .resumed t _ _ | .discarded t | .returned t _ | .dropped t
  | .cancelled t _ => some t
  | .failedRun _ | .fired _ => none

def eventsOf (t : TaskId) (log : List Event) : List Event := log.filter fun e => e.about = some t

def Task.inputOf (a : Task) (completion : Completion) : Input := Task.input { a with completion }

/-- A life goes on with the events of a task. -/
def Task.lives (a : Task) (events : List Event) (life : Life) : Option Life :=
  events.foldlM (Life.next (a.inputOf) (twiceMessage (some a.function))) life

/-- The life of a task, as the log has it. -/
def State.life (s : State) (t : TaskId) : Option Life :=
  (s.tasks t).lives (eventsOf t s.log) (.live none none false false)

/-- The record of a task says where its life is. -/
inductive Matches (a : Task) : Prop → Life → Prop where
  | live {live : Prop} {w : Option WaitId} {completion : Option Completion} {dropped again : Bool} (hlive : live)
      (completed : a.completed = completion.isSome) (same : ∀ x ∈ completion, a.completion = x)
      (wait : ∀ x ∈ a.wait, w = some x ∧ dropped = false)
      (running : a.inPlace = true → w = none ∧ dropped = false ∧ a.twice = again) (cancelled : a.cancelled = dropped) :
      Matches a live (.live w completion dropped again)
  | gone {live : Prop} (hlive : ¬ live) : Matches a live .gone

/-- Every task lives as a call does. -/
structure LivesOk (s : State) : Prop where
  each : ∀ t, ∃ life, s.life t = some life ∧ Matches (s.tasks t) (s.Live t) life
  unmade : ∀ t, s.taskSeq ≤ t → eventsOf t s.log = []

variable {P : Target} {s s' : State} {t : TaskId} {a b : Task}

/-! ## What does not concern a life -/

/-- What a life is about. -/
structure SameLife (a b : Task) : Prop where
  function : b.function = a.function
  kind : b.kind = a.kind
  completed : b.completed = a.completed
  completion : b.completion = a.completion
  wait : b.wait = a.wait
  inPlace : b.inPlace = true → a.inPlace = true
  cancelled : b.cancelled = a.cancelled
  twice : b.twice = a.twice

theorem SameLife.refl (a : Task) : SameLife a a := ⟨rfl, rfl, rfl, rfl, rfl, id, rfl, rfl⟩

theorem Matches.congr {live live' : Prop} {life : Life} (h : Matches a live life) (hs : SameLife a b)
    (hlive : live' ↔ live) : Matches b live' life := by
  cases h with
  | live hl completed same wait running cancelled =>
      exact .live (hlive.mpr hl) (hs.completed.trans completed) (hs.completion ▸ same) (hs.wait ▸ wait)
        (fun hp => hs.twice ▸ running (hs.inPlace hp)) (hs.cancelled.trans cancelled)
  | gone hl => exact .gone (mt hlive.mp hl)

theorem inputOf_congr (hfunction : b.function = a.function) (hkind : b.kind = a.kind) :
    b.inputOf = a.inputOf := by
  funext completion
  simp only [Task.inputOf, Task.input, hfunction, hkind]

theorem lives_congr (hfunction : b.function = a.function) (hkind : b.kind = a.kind) (events : List Event)
    (life : Life) : b.lives events life = a.lives events life := by
  rw [Task.lives, Task.lives, inputOf_congr hfunction hkind, hfunction]

theorem eventsOf_append (log log' : List Event) : eventsOf t (log ++ log') = eventsOf t log ++ eventsOf t log' :=
  List.filter_append ..

theorem eventsOf_eq_nil {log : List Event} (h : ∀ e ∈ log, e.about ≠ some t) : eventsOf t log = [] := by
  apply List.filter_eq_nil_iff.mpr
  intro e he
  simpa using h e he

/-! ## Steps of lives -/

/-- What happens to a task in a step, and to no other. -/
structure Step (s s' : State) (t : TaskId) (events : List Event) : Prop where
  log : s'.log = s.log ++ events
  about : ∀ e ∈ events, ∀ t' ∈ e.about, t' = t
  made : t < s.taskSeq
  taskSeq : s'.taskSeq = s.taskSeq
  others : ∀ t' ≠ t, SameLife (s.tasks t') (s'.tasks t') ∧ (s'.Live t' ↔ s.Live t')
  function : (s'.tasks t).function = (s.tasks t).function
  kind : (s'.tasks t).kind = (s.tasks t).kind
  self : ∀ life, Matches (s.tasks t) (s.Live t) life →
    ∃ life', (s.tasks t).lives (eventsOf t events) life = some life' ∧ Matches (s'.tasks t) (s'.Live t) life'

theorem LivesOk.step {events : List Event} (h : LivesOk s) (hs : Step s s' t events) : LivesOk s' := by
  have none_of_ne : ∀ t' ≠ t, eventsOf t' events = [] := fun t' ht' =>
    eventsOf_eq_nil fun e he habout => ht' (hs.about e he t' habout)
  refine ⟨fun t' => ?_, fun t' ht' => ?_⟩
  · obtain ⟨life, hlife, hmatch⟩ := h.each t'
    by_cases ht' : t' = t
    · subst ht'
      obtain ⟨life', hnext, hmatch'⟩ := hs.self life hmatch
      refine ⟨life', ?_, hmatch'⟩
      rw [State.life, lives_congr hs.function hs.kind, hs.log, eventsOf_append, Task.lives, List.foldlM_append]
      rw [State.life, Task.lives] at hlife
      rw [hlife]
      exact hnext
    · obtain ⟨hsame, hlive⟩ := hs.others t' ht'
      refine ⟨life, ?_, hmatch.congr hsame hlive⟩
      rw [State.life, lives_congr hsame.function hsame.kind, hs.log, eventsOf_append, none_of_ne t' ht',
        List.append_nil]
      exact hlife
  · rw [hs.taskSeq] at ht'
    have hne : t' ≠ t := (Nat.lt_of_lt_of_le hs.made ht').ne'
    rw [hs.log, eventsOf_append, h.unmade t' ht', none_of_ne t' hne, List.append_nil]

/-- Nothing happens to any task. -/
structure SameLives (s s' : State) : Prop where
  log : ∃ events, s'.log = s.log ++ events ∧ ∀ e ∈ events, e.about = none
  taskSeq : s'.taskSeq = s.taskSeq
  tasks : ∀ t, SameLife (s.tasks t) (s'.tasks t)
  live : ∀ t, s'.Live t ↔ s.Live t

theorem LivesOk.congr (h : LivesOk s) (hs : SameLives s s') : LivesOk s' := by
  obtain ⟨events, hlog, habout⟩ := hs.log
  have hevents : ∀ t, eventsOf t s'.log = eventsOf t s.log := by
    intro t
    have : eventsOf t events = [] := eventsOf_eq_nil fun e he => by simp [habout e he]
    rw [hlog, eventsOf_append, this, List.append_nil]
  refine ⟨fun t => ?_, fun t ht => ?_⟩
  · obtain ⟨life, hlife, hmatch⟩ := h.each t
    refine ⟨life, ?_, hmatch.congr (hs.tasks t) (hs.live t)⟩
    rw [State.life, hevents, lives_congr (hs.tasks t).function (hs.tasks t).kind]
    exact hlife
  · rw [hevents]
    exact h.unmade t (hs.taskSeq ▸ ht)

theorem sameLife_setTask (s : State) (t t' : TaskId) {f : Task → Task} (hf : SameLife (s.tasks t) (f (s.tasks t))) :
    SameLife (s.tasks t') ((s.setTask t f).tasks t') := by
  by_cases h : t' = t
  · subst h
    rw [setTask_self]
    exact hf
  · rw [setTask_of_ne _ _ h]
    exact .refl _

end Emela.EventLoop
