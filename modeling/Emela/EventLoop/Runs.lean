import Emela.EventLoop.Lemmas.Steps

/-!
# Runs of the event loop

Whatever the program, its host functions and other threads call in whatever order, the registrations stay a
heap and an array, each task has its slot, and each call lives as a call does.
-/

namespace Emela.EventLoop

open LinkedQueue

structure Ok (P : Target) (s : State) : Prop where
  regs : RegsOk s
  places : ∃ Q D, TasksOk s Q D
  slots : ∃ F, SlotsOk P s F
  lives : LivesOk s

variable {P : Target} {s s' : State} {t : TaskId} {h : Handle}

/-! ## Tasks -/

theorem Ok.made (hs : Ok P s) (ht : s.taskOf P h = some (some t)) : t < s.taskSeq ∧ s.freed t = false := by
  obtain ⟨F, slots⟩ := hs.slots
  simp only [State.taskOf, Option.map_eq_some_iff] at ht
  obtain ⟨⟨o, function⟩, hfind, rfl⟩ := ht
  exact slots.of_slotFind hfind

theorem Ok.live_of_running (hs : Ok P s) (hc : (s.tasks t).completed = false) : s.Live t := by
  obtain ⟨Q, D, places⟩ := hs.places
  by_contra hl
  rw [((places.each t).gone hl).1] at hc
  cases hc

theorem Ok.live_of_inPlace (hs : Ok P s) (hp : (s.tasks t).inPlace = true) : s.Live t ∧ t < s.taskSeq := by
  obtain ⟨Q, D, places⟩ := hs.places
  constructor
  · by_contra hl
    rw [((places.each t).gone hl).2.1] at hp
    cases hp
  · by_contra hnot
    rw [((places.each t).fresh hnot).2.1] at hp
    cases hp

theorem Ok.live_of_wait (hs : Ok P s) {w : WaitId} (hw : (s.tasks t).wait = some w) :
    s.Live t ∧ t < s.taskSeq ∧ (s.tasks t).inPlace = false := by
  obtain ⟨Q, D, places⟩ := hs.places
  refine ⟨?_, ?_, ?_⟩
  · by_contra hl
    rw [((places.each t).gone hl).2.2] at hw
    cases hw
  · by_contra hnot
    rw [((places.each t).fresh hnot).2.2.1] at hw
    cases hw
  · by_contra hp
    rw [(places.each t).ended (by simpa using hp)] at hw
    cases hw

/-- A task in place, or with a wait, is not cancelled. -/
theorem Ok.not_cancelled (hs : Ok P s) (hlive : s.Live t)
    (hp : (s.tasks t).inPlace = true ∨ (s.tasks t).wait ≠ none) : (s.tasks t).cancelled = false := by
  obtain ⟨life, -, hmatch⟩ := hs.lives.each t
  cases hmatch with
  | gone hl => exact absurd hlive hl
  | @live w x d again hl completed same wait running cancelled =>
      rw [cancelled]
      rcases hp with hp | hw
      · exact (running hp).2.1
      · obtain ⟨w', hw'⟩ := Option.ne_none_iff_exists'.mp hw
        exact (wait w' hw').2

/-! ## What keeps the invariant -/

theorem Ok.onlyRegs (hs : Ok P s) (hr : OnlyRegs s s') (regs : RegsOk s') (hregs : ∀ t, (s'.tasks t).regs ≠ [] →
    (s.tasks t).regs ≠ [] ∨ (s.tasks t).completed = false ∧ t < s.taskSeq) : Ok P s' := by
  obtain ⟨Q, D, places⟩ := hs.places
  obtain ⟨F, slots⟩ := hs.slots
  exact ⟨regs, ⟨Q, D, hr.places places hregs⟩, ⟨F, slots.congr hr.slots⟩, hs.lives.congr hr.lives⟩

theorem Ok.register (hs : Ok P s) (kind : RegKind) (time fd : Int) {o : Option TaskId} (cb : Callback)
    (ho : ∀ t ∈ o, t < s.taskSeq) : Ok P (s.register kind time fd o cb) := by
  refine hs.onlyRegs (onlyRegs_register ..) (hs.regs.register ..) fun t hr => ?_
  cases o with
  | none => exact .inl hr
  | some t' =>
      cases hc : (s.tasks t').completed with
      | true =>
          rw [State.register, if_pos hc] at hr
          exact .inl hr
      | false =>
          by_cases ht : t = t'
          · subst ht
            exact .inr ⟨hc, ho t rfl⟩
          · have hlist : ((s.register kind time fd (some t') cb).tasks t).regs = (s.tasks t).regs := by
              rw [register_eq hc]
              split <;> exact withRegs_of_ne _ _ ht
            rw [hlist] at hr
            exact .inl hr

theorem Ok.regFire (hs : Ok P s) {g : RegId} (hg : s.Registered g) : Ok P (s.regFire g) := by
  refine hs.onlyRegs (onlyRegs_regFire ..) (hs.regs.regFire hg) fun t hr => .inl fun hnil => hr ?_
  rw [regFire_eq, State.without]
  change (((s.regRemove g).withRegs _ _).tasks t).regs = []
  by_cases ht : t = (s.regs g).task
  · rw [ht, withRegs_self, ← ht, hnil, List.erase_nil]
  · rw [withRegs_of_ne _ _ ht, regRemove_tasks, hnil]

theorem Ok.dropAll (hs : Ok P s) : Ok P s.dropAll :=
  hs.onlyRegs (onlyRegs_dropAll s) hs.regs.dropAll fun t hr => absurd (hs.regs.dropAll_regs t) hr

theorem Ok.collect (hs : Ok P s) : Ok P s.collect := by
  obtain ⟨Q, D, places⟩ := hs.places
  obtain ⟨F, slots⟩ := hs.slots
  have tasks : s.collect.tasks = s.tasks := by rw [collect_eq]
  refine ⟨hs.regs.congr ?_, ⟨Q, D, places.collect⟩, slots.collect places.retired_nodup fun t ht => ?_, hs.lives.congr ?_⟩
  · refine ⟨?_, ?_, ?_, ?_, fun t => by rw [tasks]⟩ <;> rw [collect_eq]
  · have hnot : ¬ s.Live t := fun hl => hl.2 ht
    exact ⟨(places.each t).made ((places.each t).gone hnot).1, places.retired_freed t ht⟩
  · refine ⟨⟨[], ?_, by simp⟩, by rw [collect_eq], fun t => ?_, collect_live s⟩
    · rw [collect_eq, List.append_nil]
    · rw [tasks]
      exact .refl _

/-- The runtime reports that the run failed. -/
theorem Ok.failedRun (hs : Ok P s) (message : Bytes) : Ok P (s.emit (.failedRun message)) := by
  obtain ⟨Q, D, places⟩ := hs.places
  obtain ⟨F, slots⟩ := hs.slots
  refine ⟨hs.regs.congr ⟨rfl, rfl, rfl, rfl, fun _ => rfl⟩, ⟨Q, D, places.congr (sameTasks_emit ..)⟩,
    ⟨F, slots.congr ⟨rfl, rfl, rfl, rfl, rfl, rfl, fun _ => rfl, fun _ => rfl⟩⟩, hs.lives.congr ?_⟩
  exact ⟨⟨[_], rfl, by simp [Event.about]⟩, rfl, fun _ => .refl _, fun _ => .rfl⟩

theorem Ok.again (hs : Ok P s) (hc : (s.tasks t).completed = true) (hp : (s.tasks t).inPlace = true) :
    Ok P ((s.setTask t fun task => { task with twice := true }).emit (.again t)) := by
  obtain ⟨Q, D, places⟩ := hs.places
  obtain ⟨F, slots⟩ := hs.slots
  obtain ⟨hlive, hmade⟩ := hs.live_of_inPlace hp
  have only := onlyTask_setTask s t (fun task => { task with twice := true }) [.again t] rfl rfl rfl
  refine ⟨hs.regs.congr only.sameRegs, ⟨Q, D, places.congr ?_⟩, ⟨F, slots.congr only.slots⟩,
    hs.lives.again hmade hlive hp hc⟩
  exact (sameTasks_setTask s t ⟨⟨rfl, rfl, rfl, rfl, id, id⟩, rfl⟩).trans (sameTasks_emit ..)

theorem Ok.completeAgain (hs : Ok P s) (here : Bool) {o : Option TaskId} (function : Option String)
    (ho : ∀ t ∈ o, (s.tasks t).completed = true) : Ok P (s.completeAgain here o function) := by
  cases here with
  | false =>
      obtain ⟨Q, D, places⟩ := hs.places
      obtain ⟨F, slots⟩ := hs.slots
      have hsame : OnlyInbox s (s.completeAgain false o function) := ⟨fun _ => rfl, rfl⟩
      exact ⟨hs.regs.congr hsame.regs, ⟨Q, D, places.congr ⟨fun _ => .refl _, rfl, rfl, rfl, rfl, rfl, rfl, rfl⟩⟩,
        ⟨F, slots.congr hsame.slots⟩, hs.lives.congr hsame.lives⟩
  | true =>
      cases o with
      | none => exact hs.failedRun _
      | some t =>
          rw [State.completeAgain]
          by_cases hp : (s.tasks t).inPlace = true
          · simp only [if_true, hp]
            exact hs.again (ho t rfl) hp
          · simp only [if_true, hp, Bool.false_eq_true, if_false]
            exact hs.failedRun _

/-- The host's callback changes. -/
theorem Ok.setOnCancel (hs : Ok P s) (t : TaskId) (cb : Option Callback) :
    Ok P (s.setTask t fun task => { task with onCancel := cb }) := by
  obtain ⟨Q, D, places⟩ := hs.places
  obtain ⟨F, slots⟩ := hs.slots
  refine ⟨hs.regs.congr (sameRegs_setTask s t rfl), ⟨Q, D, places.congr ?_⟩,
    ⟨F, slots.congr (sameSlots_setTask s t rfl rfl)⟩, hs.lives.congr ⟨⟨[], ?_, by simp⟩, rfl, fun t' => ?_, fun _ => .rfl⟩⟩
  · exact sameTasks_setTask s t ⟨⟨rfl, rfl, rfl, rfl, id, id⟩, rfl⟩
  · exact (List.append_nil _).symm
  · exact sameLife_setTask s t t' ⟨rfl, rfl, rfl, rfl, rfl, id, rfl, rfl⟩

theorem Ok.told (hs : Ok P s) (hmade : t < s.taskSeq) (hlive : s.Live t) (hcancelled : (s.tasks t).cancelled = true)
    (cb : Callback) : Ok P (s.emit (.cancelled t cb)) := by
  obtain ⟨Q, D, places⟩ := hs.places
  obtain ⟨F, slots⟩ := hs.slots
  exact ⟨hs.regs.congr ⟨rfl, rfl, rfl, rfl, fun _ => rfl⟩,
    ⟨Q, D, places.congr (sameTasks_emit ..)⟩,
    ⟨F, slots.congr ⟨rfl, rfl, rfl, rfl, rfl, rfl, fun _ => rfl, fun _ => rfl⟩⟩, hs.lives.told hmade hlive hcancelled cb⟩

/-! ## Completions -/

/-- A completion by another thread. -/
theorem Ok.queued (hs : Ok P s) (hmade : t < s.taskSeq) (hc : (s.tasks t).completed = false) (completion : Completion) :
    Ok P (((s.setTask t fun task => { task with completed := true, completion }).emit
      (.completed t completion)).pushInbox t) := by
  obtain ⟨Q, D, places⟩ := hs.places
  obtain ⟨F, slots⟩ := hs.slots
  have hpush := onlyInbox_pushInbox ((s.setTask t fun task => { task with completed := true, completion }).emit
    (.completed t completion)) t
  have only := onlyTask_setTask s t (fun task => { task with completed := true, completion }) [.completed t completion]
    rfl rfl rfl
  exact ⟨(hs.regs.congr only.sameRegs).congr hpush.regs, ⟨Q ++ [t], D, places.pushInbox hc hmade completion⟩,
    ⟨F, (slots.congr only.slots).congr hpush.slots⟩,
    (hs.lives.completed hmade (hs.live_of_running hc) hc completion).congr hpush.lives⟩

/-- A completion on the runtime's thread, which is delivered at once. -/
theorem Ok.here (hs : Ok P s) (hmade : t < s.taskSeq) (hc : (s.tasks t).completed = false) (completion : Completion) :
    Ok P (((s.setTask t fun task => { task with completed := true, completion }).emit
      (.completed t completion)).deliver t) := by
  obtain ⟨Q, D, places⟩ := hs.places
  obtain ⟨F, slots⟩ := hs.slots
  have hlive := hs.live_of_running hc
  have only := onlyTask_setTask s t (fun task => { task with completed := true, completion }) [.completed t completion]
    rfl rfl rfl
  let s₁ := (s.setTask t fun task => { task with completed := true, completion }).emit (.completed t completion)
  let s₂ := s₁.taskUnregister t
  have unreg : OnlyRegs s₁ s₂ := onlyRegs_taskUnregister s₁ t
  have mine₁ : s₁.tasks t = { s.tasks t with completed := true, completion } := Function.update_self ..
  have mine : s₂.tasks t = { s.tasks t with completed := true, completion, regs := [] } := by
    change (s₁.taskUnregister t).tasks t = _
    rw [taskUnregister_self, mine₁]
  have others : ∀ t' ≠ t, s₂.tasks t' = s.tasks t' := fun t' ht' =>
    (taskUnregister_of_ne s₁ ht').trans (Function.update_of_ne ht' ..)
  have regs : RegsOk s₂ := (hs.regs.congr only.sameRegs).taskUnregister t
  have slots₂ : SlotsOk P s₂ F := (slots.congr only.slots).congr unreg.slots
  have lives : LivesOk s₂ := (hs.lives.completed hmade hlive hc completion).congr unreg.lives
  have live : ∀ t', s₂.Live t' ↔ s.Live t' := unreg.live
  have frame := unreg.frame
  have seq : s₂.taskSeq = s.taskSeq := frame.taskSeq
  have rest : SameTasks { s with tasks := s₂.tasks } s₂ :=
    ⟨fun _ => .refl _, frame.inboxHead, frame.inboxTail, frame.taken, frame.retired, frame.freed, frame.taskSeq,
      frame.waitTask⟩
  have hout : ¬ (t ∈ Q ∨ t ∈ D) := by
    intro hin
    rw [((places.each t).known hin).2] at hc
    cases hc
  change Ok P (if (s₂.tasks t).inPlace then s₂ else s₂.wake t)
  split
  · next hp =>
    refine ⟨regs, ⟨Q, D, ?_⟩, ⟨F, slots₂⟩, lives⟩
    have hp' : (s.tasks t).inPlace = true := by
      rw [mine] at hp
      exact hp
    refine places.completeInPlace hp' (fun t' ht' => ?_) ?_ ?_ hp ?_ ?_ hc ?_ rest
    · rw [others t' ht']
      exact .refl _
    all_goals rw [mine]
  · next hp =>
    have hp' : (s.tasks t).inPlace = false := by
      rw [mine] at hp
      simpa using hp
    have frame := wake_eq s₂ t
    have lost : (s₂.tasks t).wait = none → (s₂.tasks t).cancelled = true := by
      rw [mine]
      exact (places.each t).lost hmade hlive hp'
    have woken := onlyTask_wake s₂ t
    have self : (s₂.wake t).tasks t =
        { s₂.tasks t with wait := none, completion := { (s₂.tasks t).completion with str := none } } := by
      rw [frame]
      exact Function.update_self ..
    refine ⟨regs.congr woken.sameRegs, ⟨Q, D, ?_⟩, ⟨F, slots₂.congr woken.slots⟩,
      lives.wake (seq ▸ hmade) ((live t).mpr hlive) (by rw [mine]) lost⟩
    have moved : Moved s (s₂.wake t) t := by
      refine ⟨fun t' ht' => ?_, ?_, ?_, by rw [self], ?_⟩
      · rw [woken.others t' ht', others t' ht']
        exact .refl _
      · rw [frame]
        exact seq
      · rw [frame]
        exact rest.freed
      · rw [frame]
        change s₂.unwait t = s.unwait t
        rw [State.unwait, State.unwait, mine, rest.waitTask]
    have links : ∀ t', ((s₂.wake t).tasks t').inboxNext = (s.tasks t').inboxNext := by
      intro t'
      by_cases ht' : t' = t
      · rw [ht', self, mine]
      · rw [woken.others t' ht', others t' ht']
    refine places.finish moved hlive (fun hq => hout (.inl hq)) ?_ ?_ ?_ ?_ ?_ ?_ ?_ hmade (fun t' => ?_)
      places.taken_nodup ?_
    · rw [frame]
      exact congrArg _ rest.retired
    · rw [frame]
      exact rest.inboxHead
    · rw [frame]
      exact rest.inboxTail
    · rw [self, mine]
    · rw [self, mine]
      exact hp'
    · rw [self, mine]
    · rw [self, mine]
    · refine (and_iff_left_of_imp ?_).symm
      rintro hd rfl
      exact hout (.inr hd)
    · simp only [links]
      rw [frame]
      change Path _ s₂.phase.head D
      rw [rest.taken]
      exact places.taken

theorem Ok.complete (hs : Ok P s) {here : Bool} {completion : Completion}
    (hrun : s.complete P here h completion = some s') : Ok P s' := by
  obtain ⟨F, slots⟩ := hs.slots
  simp only [State.complete] at hrun
  split at hrun
  · cases hrun
  · next function hfind =>
    rw [← Option.some.inj hrun]
    exact hs.completeAgain here function (by simp)
  · next t function hfind =>
    obtain ⟨hmade, -⟩ := slots.of_slotFind hfind
    cases hc : (s.tasks t).completed with
    | true =>
        rw [if_pos hc, Option.some.injEq] at hrun
        rw [← hrun]
        exact hs.completeAgain here _ fun t' ht' => Option.some.inj ht' ▸ hc
    | false =>
        rw [hc, if_neg Bool.false_ne_true, Option.some.injEq] at hrun
        rw [← hrun]
        cases here with
        | true => exact hs.here hmade hc completion
        | false => exact hs.queued hmade hc completion

/-! ## Cancelling -/

/-- A task that is not in place any more is cancelled. -/
theorem Ok.dropped (hs : Ok P s) (hmade : t < s.taskSeq) (hlive : s.Live t) (hcancelled : (s.tasks t).cancelled = false)
    (hqueued : (s.tasks t).completed = true → (s.tasks t).inPlace = true → (s.tasks t).queued = true) :
    Ok P ((s.setTask t fun task => { task with inPlace := false }).taskCancel t) := by
  obtain ⟨Q, D, places⟩ := hs.places
  obtain ⟨F, slots⟩ := hs.slots
  let s₁ := s.setTask t fun task => { task with inPlace := false }
  have mine : s₁.tasks t = { s.tasks t with inPlace := false } := setTask_self ..
  have hcancelled₁ : (s₁.tasks t).cancelled = false := by rw [mine, hcancelled]
  have only₁ : OnlyTask s s₁ t := onlyTask_update rfl rfl rfl rfl rfl
  have only := onlyTask_taskCancel hcancelled₁
  have ended : false = true → (s.tasks t).inPlace = true := by
    intro hp
    cases hp
  have lives₁ : LivesOk s₁ := hs.lives.congr ⟨⟨[], (List.append_nil _).symm, by simp⟩, rfl,
    fun t' => sameLife_setTask s t t' ⟨rfl, rfl, rfl, rfl, rfl, ended, rfl, rfl⟩, fun _ => .rfl⟩
  have frame := taskCancel_eq hcancelled₁
  have self : (s₁.taskCancel t).tasks t =
      { s.tasks t with inPlace := false, cancelled := true, wait := none, onCancel := none } := by
    rw [frame]
    exact (Function.update_self ..).trans (by rw [mine])
  have unwait : s₁.unwait t = s.unwait t := by
    rw [State.unwait, State.unwait, mine]
    rfl
  have moved : Moved s (s₁.taskCancel t) t := by
    refine ⟨fun t' ht' => ?_, ?_, ?_, by rw [self], ?_⟩
    · rw [only.others t' ht', only₁.others t' ht']
      exact .refl _
    · rw [frame]
      rfl
    · rw [frame]
      rfl
    · rw [frame]
      exact unwait
  refine ⟨(hs.regs.congr only₁.sameRegs).congr only.sameRegs, ⟨Q, D, ?_⟩, ⟨F, (slots.congr only₁.slots).congr only.slots⟩,
    lives₁.taskCancel hmade hlive (by rw [mine]) hcancelled₁⟩
  refine places.cancel moved ?_ ?_ ?_ ?_ ?_ ?_ ?_ ?_ ?_ ?_ fun hc hp => (places.each t).queued.mp (hqueued hc hp)
  · rw [frame]
    rfl
  · rw [frame]
    rfl
  · rw [frame]
    rfl
  · rw [frame]
    rfl
  all_goals rw [self]

/-- The scheduler drops a wait. -/
theorem Ok.cancel (hs : Ok P s) {w : WaitId} (hw : s.waitTask w = some t) : Ok P (s.taskCancel t) := by
  obtain ⟨Q, D, places⟩ := hs.places
  have hwait := (places.waits t w).mp hw
  obtain ⟨hlive, hmade, hplace⟩ := hs.live_of_wait hwait
  have same : (s.setTask t fun task => { task with inPlace := false }) = s := by
    have htask : { s.tasks t with inPlace := false } = s.tasks t := by rw [← hplace]
    simp only [State.setTask, htask, Function.update_eq_self]
  have hcancelled := hs.not_cancelled hlive (.inr (by rw [hwait]; exact Option.some_ne_none w))
  have h := hs.dropped hmade hlive hcancelled fun _ hp => by
    rw [hplace] at hp
    cases hp
  rwa [same] at h

theorem Ok.onCancel (hs : Ok P s) {cb : Option Callback} (hrun : s.onCancel P h cb = some s') : Ok P s' := by
  simp only [State.onCancel] at hrun
  split at hrun
  · cases hrun
  · rw [← Option.some.inj hrun]
    exact hs
  · next t ht =>
    obtain ⟨hmade, -⟩ := hs.made ht
    split at hrun
    · next hcancelled =>
      cases cb with
      | none =>
          rw [← Option.some.inj hrun]
          exact hs
      | some cb =>
          rw [← Option.some.inj hrun]
          split
          · exact hs
          · next hc => exact hs.told hmade (hs.live_of_running (by simpa using hc)) hcancelled cb
    · rw [← Option.some.inj hrun]
      exact hs.setOnCancel t cb

/-! ## Calls -/

theorem Ok.taskNew (hs : Ok P s) {kind : HostKind} {function : String} (hrun : s.taskNew P kind function = some s') :
    Ok P s' := by
  obtain ⟨Q, D, places⟩ := hs.places
  obtain ⟨F, slots⟩ := hs.slots
  have hnot : ¬ s.taskSeq < s.taskSeq := Nat.lt_irrefl _
  have fresh := (places.each s.taskSeq).fresh hnot
  have hlive := hs.live_of_running fresh.1
  have hslots := slots.taskNew hlive.1 hrun
  obtain ⟨slot, handle, frame⟩ := slots.taskNew_frame hrun
  have others : ∀ t' ≠ s.taskSeq, s'.tasks t' = s.tasks t' := by
    intro t' ht'
    rw [frame]
    exact Function.update_of_ne ht' ..
  have self : s'.tasks s.taskSeq = { State.newTask kind function with slot, handle } := by
    rw [frame]
    exact Function.update_self ..
  have unused := hs.lives.unmade s.taskSeq le_rfl
  refine ⟨hs.regs.congr ?_, ⟨Q, D, ?_⟩, hslots, ?_, ?_⟩
  · refine ⟨?_, ?_, ?_, ?_, fun t => ?_⟩
    · rw [frame]
    · rw [frame]
    · rw [frame]
    · rw [frame]
    · by_cases ht : t = s.taskSeq
      · subst ht
        rw [self, fresh.2.2.2]
        rfl
      · rw [others t ht]
  · refine places.taskNew (State.newTask kind function) others rfl rfl rfl rfl ?_ ?_ ?_
    · rw [self]
      exact ⟨rfl, rfl, rfl, rfl, id, id⟩
    · rw [frame]
    · refine ⟨fun _ => .refl _, ?_, ?_, ?_, ?_, ?_, ?_, ?_⟩
      all_goals rw [frame]
  · intro t
    have live : s'.Live t ↔ s.Live t := by
      rw [frame]
      rfl
    have log : s'.log = s.log := by rw [frame]
    by_cases ht : t = s.taskSeq
    · subst ht
      refine ⟨.live none none false false, ?_, ?_⟩
      · rw [State.life, log, unused]
        rfl
      · rw [self]
        exact .live (live.mpr hlive) rfl (fun x hx => by cases hx) (fun x hx => by cases hx) (fun _ => ⟨rfl, rfl, rfl⟩) rfl
    · obtain ⟨life, hlife, hmatch⟩ := hs.lives.each t
      refine ⟨life, ?_, hmatch.congr (others t ht ▸ .refl _) live⟩
      rw [State.life, log, others t ht]
      exact hlife
  · intro t ht
    have log : s'.log = s.log := by rw [frame]
    have hseq : s'.taskSeq = s.taskSeq + 1 := by rw [frame]
    rw [log]
    rw [hseq] at ht
    exact hs.lives.unmade t (Nat.le_of_succ_le ht)

theorem Ok.taskEnd (hs : Ok P s) {dead : Bool} {w : WaitId}
    (hplace : ∀ t, s.taskOf P h = some (some t) → (s.tasks t).inPlace = true) (hw : s.waitTask w = none)
    (hrun : s.taskEnd P h dead w = some s') : Ok P s' := by
  obtain ⟨Q, D, places⟩ := hs.places
  obtain ⟨F, slots⟩ := hs.slots
  obtain ⟨t, ht, hcases⟩ := taskEnd_cases hrun
  have hp := hplace t ht
  obtain ⟨hlive, hmade⟩ := hs.live_of_inPlace hp
  have hD : t ∉ D := by
    intro hd
    rw [(places.each t).taken hd] at hp
    cases hp
  rcases hcases with ⟨hc, hq, hs'⟩ | ⟨hq, rfl⟩ | ⟨hq, hs'⟩
  · have hQ : t ∉ Q := by
      intro hin
      rw [(places.each t).queued.mpr hin] at hq
      cases hq
    have only : OnlyTask s s' t := by
      rw [hs']
      exact onlyTask_update rfl rfl rfl rfl rfl
    have self : s'.tasks t = { s.tasks t with
        inPlace := false, completion := { (s.tasks t).completion with str := none } } := by
      rw [hs']
      exact Function.update_self ..
    have hwait := (places.each t).ended hp
    have hregs : (s.tasks t).regs = [] := by
      by_contra hr
      rcases (places.each t).regs hr hc with hin | hin
      · exact hQ hin
      · exact hD hin
    have moved : Moved s s' t := by
      refine ⟨fun t' ht' => ?_, ?_, ?_, by rw [self]; exact hwait, ?_⟩
      · rw [only.others t' ht']
        exact .refl _
      · rw [hs']
      · rw [hs']
      · rw [hs', State.unwait, hwait]
    refine ⟨hs.regs.congr only.sameRegs, ⟨Q, D, ?_⟩, ⟨F, slots.congr only.slots⟩, hs.lives.returned hmade hlive hp hc hs'⟩
    refine places.finish moved hlive hQ ?_ ?_ ?_ ?_ ?_ ?_ ?_ hmade (fun t' => ?_) places.taken_nodup ?_
    · rw [hs']
    · rw [hs']
    · rw [hs']
    · rw [self]
      exact hc
    · rw [self]
    · rw [self]
    · rw [self]
      exact hregs
    · refine (and_iff_left_of_imp ?_).symm
      rintro hd rfl
      exact hD hd
    · have links : ∀ t', (s'.tasks t').inboxNext = (s.tasks t').inboxNext := by
        intro t'
        by_cases ht' : t' = t
        · rw [ht', self]
        · rw [only.others t' ht']
      simp only [links]
      rw [hs']
      exact places.taken
  · exact hs.dropped hmade hlive (hs.not_cancelled hlive (.inl hp)) fun hc _ => hq hc
  · have only : OnlyTask s s' t := by
      rw [hs']
      exact onlyTask_update rfl rfl rfl rfl rfl
    refine ⟨hs.regs.congr only.sameRegs, ⟨Q, D, ?_⟩, ⟨F, slots.congr only.slots⟩, hs.lives.suspended hmade hlive hp hs'⟩
    refine places.wait (w := w) (fun t' ht' => ?_) ?_ hp (fun hc => (places.each t).queued.mp (hq hc)) hw ?_ ?_
    · rw [only.others t' ht']
      exact .refl _
    · rw [hs']
      simp only [Function.update_self]
      exact .refl _
    · rw [hs']
    · rw [hs']
      exact ⟨fun _ => .refl _, rfl, rfl, rfl, rfl, rfl, rfl, rfl⟩

/-! ## Turns -/

/-- The thread goes on to where the same completions are to be delivered. -/
theorem Ok.setPhase (hs : Ok P s) {phase : Phase} (hphase : phase.head = s.phase.head) :
    Ok P { s with phase := phase } := by
  obtain ⟨Q, D, places⟩ := hs.places
  obtain ⟨F, slots⟩ := hs.slots
  have only : OnlyInbox s { s with phase := phase } := ⟨fun _ => rfl, rfl⟩
  exact ⟨hs.regs.congr only.regs, ⟨Q, D, places.congr ⟨fun _ => .refl _, rfl, rfl, hphase, rfl, rfl, rfl, rfl⟩⟩,
    ⟨F, slots.congr only.slots⟩, hs.lives.congr only.lives⟩

theorem Ok.poll (hs : Ok P s) (hphase : s.phase = .idle) (hcalling : s.calling = false) (now : Int)
    (ready : List RegId) : Ok P (s.poll now ready) := by
  have hcollect := hs.collect
  have tasks : s.collect.tasks = s.tasks := by rw [collect_eq]
  have phase : s.collect.phase = s.phase := by rw [collect_eq]
  obtain ⟨Q, D, places⟩ := hcollect.places
  obtain ⟨F, slots⟩ := hcollect.slots
  let s₁ : State := { s.collect with now }
  have places₁ : TasksOk s₁ Q D := places.congr ⟨fun _ => .refl _, rfl, rfl, rfl, rfl, rfl, rfl, rfl⟩
  have hD : D = [] := by
    have htaken := places.taken
    rw [phase, hphase] at htaken
    cases D with
    | nil => rfl
    | cons t D => cases htaken.1
  subst hD
  have calm : ∀ t, (s₁.tasks t).inPlace = false := by
    intro t
    change (s.collect.tasks t).inPlace = false
    by_cases ht : t < s.taskSeq
    · rw [tasks]
      rw [State.calling, List.any_eq_false] at hcalling
      simpa using hcalling t (List.mem_range.mpr ht)
    · have hseq : s.collect.taskSeq = s.taskSeq := by rw [collect_eq]
      exact ((places.each t).fresh (hseq ▸ ht)).2.1
  have only := onlyInbox_takeInbox places₁ ready
  refine ⟨RegsOk.congr ?_ only.regs, ⟨[], Q, places₁.takeInbox calm ready⟩, ⟨F, SlotsOk.congr ?_ only.slots⟩,
    LivesOk.congr ?_ only.lives⟩
  · exact hcollect.regs.congr ⟨rfl, rfl, rfl, rfl, fun _ => rfl⟩
  · exact slots.congr ⟨rfl, rfl, rfl, rfl, rfl, rfl, fun _ => rfl, fun _ => rfl⟩
  · exact hcollect.lives.congr ⟨⟨[], (List.append_nil _).symm, by simp⟩, rfl, fun _ => .refl _, fun _ => .rfl⟩

/-- The first of the completions taken out of the inbox is delivered. -/
theorem Ok.deliverFirst {Q D : List TaskId} (hs : Ok P s) (places : TasksOk s Q D) {ready : List RegId}
    (hphase : s.phase = .inbox (some t) [] ready) (hs' : s' =
      { (s.setTask t fun task => { task with inboxNext := none }).deliver t with
        phase := .inbox (s.tasks t).inboxNext [] ready }) : Ok P s' ∧ ∃ D', D = t :: D' ∧ TasksOk s' Q D' := by
  obtain ⟨F, slots⟩ := hs.slots
  obtain ⟨D', rfl⟩ : ∃ D', D = t :: D' := by
    have htaken := places.taken
    rw [hphase] at htaken
    cases D with
    | nil => cases htaken
    | cons t' D =>
        have ht : t = t' := Option.some.inj htaken.1
        exact ⟨D, by rw [ht]⟩
  have hin : t ∈ t :: D' := List.mem_cons_self ..
  have old := places.each t
  obtain ⟨hlive, hc⟩ := old.known (.inr hin)
  have hplace := old.taken hin
  have hmade := old.made hc
  have hQ : t ∉ Q := fun hq => old.apart hq hin
  have hnodup := List.nodup_cons.mp places.taken_nodup
  let s₁ := s.setTask t fun task => { task with inboxNext := none }
  have only₁ : OnlyTask s s₁ t := onlyTask_update rfl rfl rfl rfl rfl
  have mine₁ : s₁.tasks t = { s.tasks t with inboxNext := none } := setTask_self ..
  let s₂ := s₁.taskUnregister t
  have unreg : OnlyRegs s₁ s₂ := onlyRegs_taskUnregister s₁ t
  have frame₂ := unreg.frame
  have mine₂ : s₂.tasks t = { s.tasks t with inboxNext := none, regs := [] } := by
    change (s₁.taskUnregister t).tasks t = _
    rw [taskUnregister_self, mine₁]
  have others₂ : ∀ t' ≠ t, s₂.tasks t' = s.tasks t' := fun t' ht' =>
    (taskUnregister_of_ne s₁ ht').trans (only₁.others t' ht')
  have hplace₂ : (s₂.tasks t).inPlace = false := by rw [mine₂, hplace]
  have hdeliver : s₁.deliver t = s₂.wake t := by
    rw [State.deliver]
    change (if (s₂.tasks t).inPlace then s₂ else s₂.wake t) = _
    rw [hplace₂, if_neg Bool.false_ne_true]
  let s₃ := s₂.wake t
  have frame := wake_eq s₂ t
  have woken := onlyTask_wake s₂ t
  have self : s₃.tasks t = { s₂.tasks t with wait := none, completion := { (s₂.tasks t).completion with str := none } } := by
    change (s₂.wake t).tasks t = _
    rw [frame]
    exact Function.update_self ..
  have lives₁ : LivesOk s₁ := hs.lives.congr ⟨⟨[], (List.append_nil _).symm, by simp⟩, rfl,
    fun t' => sameLife_setTask s t t' ⟨rfl, rfl, rfl, rfl, rfl, id, rfl, rfl⟩, fun _ => .rfl⟩
  have lost : (s₂.tasks t).wait = none → (s₂.tasks t).cancelled = true := by
    rw [mine₂]
    exact old.lost hmade hlive hplace
  have lives₃ : LivesOk s₃ := (lives₁.congr unreg.lives).wake (frame₂.taskSeq.symm ▸ hmade) ((unreg.live t).mpr hlive)
    (by rw [mine₂, hc]) lost
  have regs₃ : RegsOk s₃ := ((hs.regs.congr only₁.sameRegs).taskUnregister t).congr woken.sameRegs
  have slots₃ : SlotsOk P s₃ F := ((slots.congr only₁.slots).congr unreg.slots).congr woken.slots
  have only : OnlyInbox s₃ { s₃ with phase := .inbox (s.tasks t).inboxNext [] ready } := ⟨fun _ => rfl, rfl⟩
  change s' = { s₁.deliver t with phase := .inbox (s.tasks t).inboxNext [] ready } at hs'
  rw [hdeliver] at hs'
  subst hs'
  suffices hplaces : TasksOk { s₃ with phase := .inbox (s.tasks t).inboxNext [] ready } Q D' from
    ⟨⟨regs₃.congr only.regs, ⟨Q, D', hplaces⟩, ⟨F, slots₃.congr only.slots⟩, lives₃.congr only.lives⟩, D', rfl, hplaces⟩
  have moved : Moved s { s₃ with phase := .inbox (s.tasks t).inboxNext [] ready } t := by
    refine ⟨fun t' ht' => ?_, ?_, ?_, by rw [self], ?_⟩
    · change SameTask _ (s₃.tasks t')
      rw [woken.others t' ht', others₂ t' ht']
      exact .refl _
    · change s₃.taskSeq = _
      simp only [s₃, frame]
      exact frame₂.taskSeq
    · change s₃.freed = _
      simp only [s₃, frame]
      exact frame₂.freed
    · change s₃.waitTask = _
      simp only [s₃, frame]
      rw [State.unwait, State.unwait, mine₂, frame₂.waitTask]
      rfl
  refine places.finish moved hlive hQ ?_ ?_ ?_ ?_ ?_ ?_ ?_ hmade (fun t' => ?_) hnodup.2 ?_
  · change s₃.retired = _
    simp only [s₃, frame]
    exact congrArg _ frame₂.retired
  · change s₃.inboxHead = _
    simp only [s₃, frame]
    exact frame₂.inboxHead
  · change s₃.inboxTail = _
    simp only [s₃, frame]
    exact frame₂.inboxTail
  · rw [self, mine₂, hc]
  · rw [self, mine₂, hplace]
  · rw [self, mine₂]
  · rw [self, mine₂]
  · rw [List.mem_cons]
    constructor
    · intro hd
      refine ⟨.inr hd, ?_⟩
      rintro rfl
      exact hnodup.1 hd
    · rintro ⟨rfl | hd, hne⟩
      · exact absurd rfl hne
      · exact hd
  · refine places.taken.2.congr fun t' ht' => ?_
    have hne : t' ≠ t := by
      rintro rfl
      exact hnodup.1 ht'
    change (s₃.tasks t').inboxNext = _
    rw [woken.others t' hne, others₂ t' hne]

theorem listed_iff {v : IndexedArray RegId} {g : RegId} : State.listed v g = true ↔ v.Mem g := by
  simp [State.listed, IndexedArray.Mem]

theorem Ok.turn (hs : Ok P s) (hrun : s.turn = some s') : Ok P s' := by
  simp only [State.turn] at hrun
  split at hrun
  · cases hrun
  · next head function twice ready hphase =>
    rw [← Option.some.inj hrun]
    exact (hs.failedRun _).setPhase (by rw [show (s.emit _).phase = s.phase from rfl, hphase]; rfl)
  · next t ready hphase =>
    obtain ⟨Q, D, places⟩ := hs.places
    exact (hs.deliverFirst places hphase (Option.some.inj hrun).symm).1
  · next ready hphase =>
    rw [← Option.some.inj hrun]
    exact hs.setPhase (by rw [hphase]; rfl)
  · next g ready hphase =>
    rw [← Option.some.inj hrun]
    split
    · next hlisted =>
      have hreg := ((hs.regs.fds_mem g).mp (listed_iff.mp hlisted)).2
      have hkeep : (s.regFire g).phase = s.phase := by rw [(onlyRegs_regFire s g).rest]
      exact (hs.regFire hreg).setPhase (by rw [hkeep, hphase]; rfl)
    · exact hs.setPhase (by rw [hphase]; rfl)
  · next hphase =>
    rw [← Option.some.inj hrun]
    exact hs.setPhase (by rw [hphase]; rfl)
  · next limit hphase =>
    split at hrun
    · next hdue =>
      rw [← Option.some.inj hrun]
      exact hs.regFire ((hs.regs.timers_mem _).mp ⟨0, hdue.1, rfl⟩).2
    · rw [← Option.some.inj hrun]
      exact hs.setPhase (by rw [hphase]; rfl)

/-! ## Runs -/

theorem Ok.step (hs : Ok P s) {action : Action} (hrun : s.step P action = some s') : Ok P s' := by
  cases action with
  | taskNew kind function => exact hs.taskNew hrun
  | taskEnd h dead w =>
      simp only [State.step] at hrun
      split at hrun
      · next hguard =>
        refine hs.taskEnd (fun t ht => ?_) hguard.2 hrun
        have hany := hguard.1
        rw [ht] at hany
        simpa using hany
      · cases hrun
  | complete here h completion => exact hs.complete hrun
  | after ms h cb =>
      obtain ⟨o, ho, rfl⟩ := Option.map_eq_some_iff.mp hrun
      exact hs.register _ _ _ _ fun t ht => (hs.made (ht ▸ ho)).1
  | onReadable fd h cb =>
      obtain ⟨o, ho, rfl⟩ := Option.map_eq_some_iff.mp hrun
      exact hs.register _ _ _ _ fun t ht => (hs.made (ht ▸ ho)).1
  | onWritable fd h cb =>
      obtain ⟨o, ho, rfl⟩ := Option.map_eq_some_iff.mp hrun
      exact hs.register _ _ _ _ fun t ht => (hs.made (ht ▸ ho)).1
  | onCancel h cb => exact hs.onCancel hrun
  | cancel w =>
      rw [← Option.some.inj hrun]
      cases hw : s.waitTask w with
      | none => exact hs
      | some t => exact hs.cancel hw
  | poll now ready =>
      simp only [State.step] at hrun
      split at hrun
      · next hguard =>
        rw [← Option.some.inj hrun]
        exact hs.poll hguard.1 (by simpa using hguard.2.1) now ready
      · cases hrun
  | turn => exact hs.turn hrun
  | reset =>
      simp only [State.step] at hrun
      split at hrun
      · rw [← Option.some.inj hrun]
        exact hs.dropAll.collect
      · cases hrun

theorem Ok.run (hs : Ok P s) {actions : List Action} (hrun : s.run P actions = some s') : Ok P s' := by
  induction actions generalizing s with
  | nil =>
      rw [← Option.some.inj hrun]
      exact hs
  | cons action actions ih =>
      simp only [State.run, List.foldlM_cons, Option.bind_eq_bind, Option.bind_eq_some_iff] at hrun
      obtain ⟨s₁, hstep, hrest⟩ := hrun
      exact ih (hs.step hstep) hrest

theorem Target.slotLimit_pos (P : Target) : 0 < P.slotLimit := by
  have hfits := P.fits
  have hpow : 2 ^ 1 ≤ 2 ^ (P.pointerBits - P.genBits) := Nat.pow_le_pow_right two_pos (by omega)
  rw [Target.slotLimit]
  split <;> omega

theorem ok_init (P : Target) (now : Int) : Ok P (State.init now) where
  regs := by
    have none : ∀ g, ¬ (State.init now).Registered g := fun g => List.not_mem_nil
    have empty : ∀ g, ¬ (State.init now).timers.Mem g := by
      rintro g ⟨i, hi, -⟩
      exact Nat.not_lt_zero i hi
    refine ⟨IndexedArray.isHeap_empty rfl, fun i hi => absurd hi (Nat.not_lt_zero i), fun g => ?_, fun g => ?_,
      fun t g hg => absurd hg List.not_mem_nil, fun t => List.nodup_nil⟩
    · exact iff_of_false (empty g) fun hg => none g hg.2
    · exact iff_of_false (empty g) fun hg => none g hg.2
  places := by
    have hlive : ∀ t, (State.init now).Live t := fun t => ⟨rfl, List.not_mem_nil⟩
    refine ⟨[], [], queue_empty, rfl, List.nodup_nil, List.nodup_nil, by simp [State.init], by simp [State.init], fun t => ?_⟩
    have hnone : ¬ t ∈ ([] : List TaskId) := List.not_mem_nil
    exact ⟨by simp [State.init], fun hq => absurd hq hnone, by simp, fun hd => absurd hd hnone,
      fun hl => absurd (hlive t) hl, fun _ => ⟨rfl, rfl, rfl, rfl⟩, fun hc => absurd hc Bool.false_ne_true,
      fun _ => rfl, fun hm => absurd hm (Nat.not_lt_zero t), fun hr => absurd rfl hr⟩
  slots := ⟨[], queue_empty, by simp [State.init], by simp [State.init], fun t ht => absurd ht (Nat.not_lt_zero t),
    fun t ht => absurd ht (Nat.not_lt_zero t), fun i hi => absurd hi (Nat.not_lt_zero i),
    fun t ht => absurd ht (Nat.not_lt_zero t), P.slotLimit_pos⟩
  lives := by
    refine ⟨fun t => ⟨.live none none false false, rfl, ?_⟩, fun t _ => rfl⟩
    exact .live ⟨rfl, List.not_mem_nil⟩ rfl (by simp) (by simp [State.init]) (by simp [State.init]) rfl

end Emela.EventLoop
