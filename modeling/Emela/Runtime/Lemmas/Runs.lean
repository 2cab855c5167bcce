import Emela.Runtime.Lemmas.Steps

/-!
# Runs keep the invariant
-/

namespace Emela.Runtime

variable {s s' : State} {tasks : List Task} {ts : List Task} {w : WaitId} {t : Task} {g : GenId} {ends : End}
  {rest : List Act} {inp : Input} {current : Option FiberId} {i : ScopeId} {f : FiberId}

/-! ## Functions that are called or return -/

theorem Members.begins_task (h : Members s (.begin f :: tasks)) : f ∉ s.begins tasks := by
  have := h.beginsNodup
  simp only [State.begins, List.filterMap_cons, Task.begin?, List.cons_append, List.nodup_cons] at this
  exact this.1

theorem Members.begins_stack (h : Members s tasks) (hs : s.stack = .begin f :: rest) :
    f ∉ State.begins { s with stack := rest } tasks := by
  have := h.beginsNodup
  simp only [State.begins, hs, List.filterMap_cons, Act.begin?] at this
  exact (List.nodup_cons.mp (List.perm_middle.nodup_iff.mp this)).1

theorem Members.main_off (h : Members s tasks) (hf : Flow s tasks) (hs : s.stack = .gen g .main :: rest)
    (hfr : s.frames g = []) :
    s.fiberOf g ∉ State.begins { s with stack := rest } tasks ∧ MainOff { s with stack := rest } (s.fiberOf g) := by
  have hmain := h.mainRunning g (by simp [hs])
  refine ⟨fun hb => ?_, fun g' hg' => ?_⟩
  · have hb : s.fiberOf g ∈ s.begins tasks := by
      simpa [State.begins, hs, List.filterMap_cons, Act.begin?] using hb
    simp [(h.begins _ hb).2.1] at hmain
  · obtain rfl : g = g' := Option.some.inj (hmain.symm.trans hg')
    have hnodup := hf.runningNodup
    simp only [hs, List.filterMap_cons, Act.gen?, List.nodup_cons] at hnodup
    exact ⟨(hf.running g (by simp [hs, Act.gen?])).1, hnodup.1, hfr⟩

namespace Inv

/-- The implementation on top of the stack returned. -/
theorem returned (h : Inv s ts none) (hs : s.stack = .op w :: rest) : Inv { s with stack := .opEnd w :: rest } ts none where
  flow := h.flow.returned hs
  passing := { h.passing with }
  members := h.members.replace hs rfl rfl
  closing := fun hc => { ((h.closing hc).pop hs).push (a := .opEnd w) (by simp [Act.gen?]) with }
  targets := fun hc ha => { h.targets hc ha with }

theorem newGen (h : Inv s ts none) (hf : f < s.nextFiber) : Inv (s.newGen f).2 ts none where
  flow := h.flow.newGen f
  passing := { h.passing with }
  members := h.members.newGen h.flow hf
  closing := fun hc => (h.closing hc).newGen h.flow f
  targets := fun hc ha => { h.targets hc ha with }

/-- A new generator runs. -/
theorem enter (h : Inv s ts none) (hlt : g < s.nextGen) (hp : s.paused g = none) (hfr : s.frames g = [])
    (hg : g ∉ s.stack.filterMap Act.gen?) (hr : s.running = true) (he : ∀ v, ends = .settled v → (s.wait v).performs)
    (hm : ends = .main → (s.fiber (s.fiberOf g)).main = some g)
    (hres : ∀ f, (s.fiber f).main = some g → (s.fiber f).result = none) (inp : Input) :
    Inv (s.enter g ends inp) ts none := by
  simp only [State.enter]
  split
  · exact h
  · have h1 : Inv (s.pushAct (.gen g ends)) ts none :=
      { flow := h.flow.pushGen hlt hp hg hr he
        passing := { h.passing with }
        members := h.members.pushGen hm hres
        closing := fun hc => (h.closing hc).push (a := .gen g ends) fun g' hg' => by
          obtain rfl : g = g' := by simpa [Act.gen?] using hg'
          simp [hfr]
        targets := fun hc ha => { h.targets hc ha with } }
    exact h1.input (by simp [State.pushAct, Act.gen?])

/-! ## Tasks -/

theorem not_closing (h : Inv s (t :: ts) none) (ht : t.wait = some w) (hn : ∀ v inp, t ≠ .resume v inp)
    (hc : s.cut = false) : (s.wait w).closing = false := by
  cases hw : (s.wait w).closing with
  | false => rfl
  | true => exact absurd ((h.closing hc).tasks t (by simp) w ht hw) (hn w _)

/-- A main continuation is thrown into. -/
theorem throwMain (h : Inv s (t :: ts) none) (hr : s.running = true) (ht : t.wait = some w)
    (hn : ∀ v inp, t ≠ .resume v inp) (hq : t = .interrupted w ∨ t = .unwind w ∧ (s.wait w).ends = .main) :
    Inv ((s.deliver (s.wait w).fiber (s.wait w).gen).2.continue w (s.wait w).ends
      (.throw (s.deliver (s.wait w).fiber (s.wait w).gen).1)) ts none := by
  obtain ⟨-, hs, hp⟩ := h.flow.taken t (by simp) w ht
  have hlt := h.flow.lt hs
  have hf : (s.wait w).fiber < s.nextFiber := h.flow.fiber w hlt ▸ h.members.genFiber _ (h.flow.genLt w hlt)
  have h1 := h.deliver (g := (s.wait w).gen) hf fun hc ha => by
    obtain ⟨he, hi⟩ := (h.targets hc ha).queued w (by obtain rfl | ⟨rfl, he⟩ := hq <;> simp [*])
    exact (h.targets hc ha).delivers (h.main_of_taken ht he).2 hi
  refine h1.continued ht (Or.inl rfl) hr (Or.inr ⟨rfl, hn⟩) fun hc hw => ?_
  have := h.not_closing ht hn hc
  simp [State.deliver, State.setFiber, this] at hw

theorem runTask (h : Inv s (t :: ts) none) (hr : s.running = true) : Inv (s.runTask t) ts none := by
  have hrest := h.sublist (List.sublist_cons_self t ts)
  cases t with
  | begin f =>
      obtain ⟨hf, hmain, hres⟩ := h.members.begins f (by simp [State.begins, Task.begin?])
      simp only [State.runTask]
      split
      · exact hrest.fiberFinish hr hf h.members.begins_task (fun g hg => by simp [hmain] at hg) _ _
      · exact {
          flow := hrest.flow.push rfl rfl (by simp) (by simp [hr]) (by simp)
          passing := { hrest.passing with }
          members := h.members.pushBegin
          closing := fun hc => (hrest.closing hc).push (a := .begin f) (by simp [Act.gen?])
          targets := fun hc ha => { hrest.targets hc ha with } }
  | go w =>
      simp only [State.runTask]
      split
      · next hl =>
          have hw := h.flow.gos w (by simp)
          exact (hrest.take hl hw).fiberResume hr
      · exact hrest
  | resume w inp => exact h.fiberResume hr
  | interrupted w => exact h.throwMain hr rfl (by simp) (Or.inl rfl)
  | drop w =>
      refine h.continued rfl (Or.inl rfl) hr (Or.inr ⟨rfl, by simp⟩) fun hc hw => ?_
      simp [h.not_closing (w := w) rfl (by simp) hc] at hw
  | unwind w =>
      simp only [State.runTask]
      split
      · next he => exact he ▸ h.throwMain hr rfl (by simp) (Or.inr ⟨rfl, he⟩)
      · refine h.continued rfl (Or.inr rfl) hr (Or.inr ⟨rfl, by simp⟩) fun hc hw => ?_
        simp [h.not_closing (w := w) rfl (by simp) hc] at hw

/-! ## Steps -/

/-- A task is taken from the queue. -/
theorem dequeue (h : Inv s [] none) {queue : List Task} (hq : s.queue = t :: queue) : Inv { s with queue := queue } [t] none := by
  obtain ⟨h1, h2, h3, h4, h5⟩ := h
  simp only [List.nil_append, hq] at h1 h2 h3 h4 h5
  exact {
    flow := { h1 with }
    passing := { h2 with }
    members := { h3 with }
    closing := fun hc => { h4 hc with }
    targets := fun hc ha => { h5 hc ha with } }

theorem tick (h : Inv s [] none) (hs : s.tick = some s') : Inv s' [] none := by
  simp only [State.tick] at hs
  split at hs
  · next rest hstack =>
      split at hs
      · next t queue hover hq =>
          obtain rfl := Option.some.inj hs
          have hr := h.flow.running_of (a := .drain) (by simp [hstack]) (by simp [Act.Idle])
          exact (h.dequeue hq).runTask hr
      · obtain rfl := Option.some.inj hs
        have hp := h.pop hstack
        exact {
          flow := h.flow.popDrain hstack
          passing := { hp.passing with }
          members := { hp.members with }
          closing := fun hc => { hp.closing hc with }
          targets := fun hc ha => { hp.targets hc ha with } }
  · next w rest hstack =>
      obtain rfl := Option.some.inj hs
      exact h.performed hstack
  · next c rest hstack =>
      obtain rfl := Option.some.inj hs
      exact h.pop hstack
  · next c w inp more rest hstack =>
      obtain rfl := Option.some.inj hs
      have hpark := h.flow.wakes c ((w, inp) :: more) (by simp [hstack]) (w, inp) (by simp)
      have h1 : Inv { s with stack := .wakes c more :: rest } [] none :=
        { flow := h.flow.waked hstack
          passing := { h.passing with }
          members := h.members.replace hstack rfl rfl
          closing := fun hc => { ((h.closing hc).pop hstack).push (a := .wakes c more) (by simp [Act.gen?]) with }
          targets := fun hc ha => { h.targets hc ha with } }
      refine h1.cont hpark fun hc => ?_
      refine h.flow.running_of (a := .wakes c ((w, inp) :: more)) (by simp [hstack]) ?_
      rintro ⟨l, hl⟩
      exact hc (by simp_all)
  · cases hs

/-- What a generator that ended does to its fiber or its caller. -/
theorem ended (h : Inv s ts none) (hs : s.stack = .gen g ends :: rest) (hfr : s.frames g = []) (r : Result) :
    Inv (State.ended { s with stack := rest } (s.fiberOf g) ends r) ts none := by
  have hr := h.flow.running_of (a := .gen g ends) (by simp [hs]) (by simp [Act.Idle])
  have hp := h.pop hs
  cases ends with
  | main =>
      obtain ⟨hb, hm⟩ := h.members.main_off h.flow hs hfr
      exact hp.fiberFinish hr (h.members.genFiber g (h.flow.running g (by simp [hs, Act.gen?])).2) hb hm _ r
  | settled w => exact hp.settled (h.flow.settledRunning g w (by simp [hs])) (fun _ => hr) r
  | orphan =>
      simp only [State.ended]
      split
      · exact {
          flow := { hp.flow with }
          passing := { hp.passing with }
          members := { hp.members with }
          closing := fun hc => { hp.closing hc with }
          targets := fun hc ha => { hp.targets hc ha with } }
      · exact hp

theorem leave (h : Inv s ts none) {r : Result} (hs : s.leave r = some s') : Inv s' ts none := by
  simp only [State.leave] at hs
  split at hs
  · next g ends rest hstack =>
      split at hs
      · next hfr =>
          obtain rfl := Option.some.inj hs
          exact h.ended hstack hfr r
      · next i frames hfr =>
          obtain rfl := Option.some.inj hs
          exact h.scopeEnd hstack hfr r
      · cases hs
  · next f rest hstack =>
      have hr := h.flow.running_of (a := .begin f) (by simp [hstack]) (by simp [Act.Idle])
      obtain ⟨hf, hmain, -⟩ := h.members.begins f (by simp [State.begins, hstack, Act.begin?])
      have hfin := fun c r => (h.pop hstack).fiberFinish hr hf (h.members.begins_stack hstack)
        (fun g hg => by simp [hmain] at hg) c r
      cases r with
      | ok v =>
          obtain rfl := Option.some.inj hs
          exact hfin _ _
      | error e =>
          obtain rfl := Option.some.inj hs
          exact hfin _ _
  · next w rest hstack =>
      obtain rfl := Option.some.inj hs
      have hr := h.flow.running_of (a := .op w) (by simp [hstack]) (by simp [Act.Idle])
      obtain ⟨-, -, -, -, hp⟩ := h.flow.calling w (by simp [hstack, Act.op?])
      exact (h.returned hstack).settled hp (fun _ => hr) r
  · cases hs

theorem leaveGen (h : Inv s ts none) (hs : s.leaveGen = some s') : Inv s' ts none := by
  have hfresh := h.flow.freshGen s.nextGen (Nat.le_refl _)
  have hout : ∀ rest : List Act, (∀ a ∈ rest, a ∈ s.stack) → s.nextGen ∉ rest.filterMap Act.gen? := fun _ hsub hg => by
    obtain ⟨a, ha, hag⟩ := List.mem_filterMap.mp hg
    exact absurd (h.flow.running _ (List.mem_filterMap.mpr ⟨a, hsub a ha, hag⟩)).2 (Nat.lt_irrefl _)
  have hmainlt : ∀ f, (s.fiber f).main ≠ some s.nextGen := fun f hf =>
    absurd (h.members.main f _ hf).1 (Nat.lt_irrefl _)
  simp only [State.leaveGen] at hs
  split at hs
  · next f rest hstack =>
      obtain rfl := Option.some.inj hs
      have hr := h.flow.running_of (a := .begin f) (by simp [hstack]) (by simp [Act.Idle])
      obtain ⟨hf, hmain, hres⟩ := h.members.begins f (by simp [State.begins, hstack, Act.begin?])
      have h1 := (h.pop hstack).newGen hf
      have hb := h.members.begins_stack hstack
      have h2 : Inv (State.setFiber (State.newGen { s with stack := rest } f).2 f fun x => { x with main := some s.nextGen })
          ts none :=
        { flow := h1.flow.setFiber (fun _ h => h) (fun _ h => Or.inl h)
          passing := { h1.passing with }
          members := h1.members.setMain hb hmain hf hres (Nat.lt_succ_self _) (by simp [State.newGen])
          closing := fun hc => (h1.closing hc).setFiber rfl
          targets := fun hc ha => (h1.targets hc ha).setFiber rfl rfl rfl rfl id fun g hg => by
            simp [State.newGen, hmain] at hg }
      refine h2.enter (Nat.lt_succ_self _) hfresh.1 hfresh.2 (hout rest fun a ha => by simp [hstack, ha]) hr (by simp) ?_ ?_ _
      · simp [State.setFiber, State.newGen]
      · intro f' hf'
        by_cases he : f' = f
        · subst he
          simpa [State.setFiber, State.newGen] using hres
        · refine absurd ?_ (hmainlt f')
          simpa [State.setFiber, State.newGen, Function.update_of_ne he] using hf'
  · next w rest hstack =>
      obtain rfl := Option.some.inj hs
      have hr := h.flow.running_of (a := .op w) (by simp [hstack]) (by simp [Act.Idle])
      obtain ⟨-, -, -, -, hp⟩ := h.flow.calling w (by simp [hstack, Act.op?])
      have hlt := h.flow.performs_lt hp
      have hf : (s.wait w).fiber < s.nextFiber := h.flow.fiber w hlt ▸ h.members.genFiber _ (h.flow.genLt w hlt)
      have h1 := (h.returned hstack).newGen hf
      have h2 : Inv (State.setOp (State.newGen { s with stack := .opEnd w :: rest } (s.wait w).fiber).2 w
          fun x => { x with onDrop := true }) ts none :=
        { flow := h1.flow.setOp hlt rfl id rfl
          passing := h1.passing.setOnDrop w
          members := h1.members.setOp w _
          closing := fun hc => (h1.closing hc).setOp w _
          targets := fun hc ha => { h1.targets hc ha with } }
      refine h2.enter (Nat.lt_succ_self _) hfresh.1 hfresh.2 ?_ hr (fun v hv => ?_) (by simp) (fun f' hf' => ?_) _
      · have := hout rest fun a ha => by simp [hstack, ha]
        simpa [State.setOp, State.newGen, List.filterMap_cons, Act.gen?] using this
      · cases hv
        exact hp
      · exact absurd hf' (hmainlt f')
  · cases hs

theorem exec (h : Inv s [] none) {e : Event} (hs : s.exec e = some s') : Inv s' [] none := by
  cases e with
  | tick => exact h.tick hs
  | settle w inp =>
      simp only [State.exec, Option.ite_none_right_eq_some, Bool.and_eq_true] at hs
      obtain ⟨⟨-, hw⟩, hs⟩ := hs
      obtain rfl := Option.some.inj hs
      have hpark := h.flow.awaits w (by simpa using hw)
      exact (h.setAwaits fun v hv => h.flow.awaits v (List.erase_subset hv)).cont hpark (by simp)
  | later w =>
      simp only [State.exec, Option.ite_none_right_eq_some, Bool.and_eq_true] at hs
      obtain ⟨⟨-, hw⟩, hs⟩ := hs
      obtain rfl := Option.some.inj hs
      have hpark := h.flow.laters w (by simpa using hw)
      exact ((h.setLaters fun v hv => h.flow.laters v (List.erase_subset hv)).consGo hpark).schedule
  | stall =>
      simp only [State.exec, Option.ite_none_right_eq_some] at hs
      obtain rfl := Option.some.inj hs.2
      exact h.rootInterrupt
  | abandon =>
      simp only [State.exec, Option.ite_none_right_eq_some] at hs
      obtain rfl := Option.some.inj hs.2
      exact {
        flow := { h.flow with }
        passing := { h.passing with }
        members := { h.members with }
        closing := fun hc => { h.closing hc with }
        targets := fun hc ha => { h.targets hc ha with } }
  | resume foreign w v =>
      simp only [State.exec, Option.ite_none_right_eq_some, Bool.and_eq_true] at hs
      obtain rfl := Option.some.inj hs.2
      exact h.resume hs.1.2 h.flow.caller_running v
  | fork i =>
      simp only [State.exec, Option.ite_none_right_eq_some, Bool.and_eq_true, decide_eq_true_eq] at hs
      obtain rfl := Option.some.inj hs.2
      cases hf : s.fork i with
      | none => exact h
      | some p => exact h.fork hs.1.2 hf
  | deferred i =>
      simp only [State.exec, Option.ite_none_right_eq_some] at hs
      obtain rfl := Option.some.inj hs.2
      cases hf : s.newDeferred i with
      | none => exact h
      | some p => exact h.newDeferred hf
  | complete foreign d v =>
      simp only [State.exec, Option.ite_none_right_eq_some] at hs
      obtain rfl := Option.some.inj hs.2
      exact h.complete h.flow.caller_running d v
  | hold =>
      simp only [State.exec] at hs
      split at hs
      · next g ends rest hstack =>
          obtain rfl := Option.some.inj hs
          exact h.hold hstack
      · cases hs
  | unhold =>
      simp only [State.exec] at hs
      split at hs
      · next g ends rest hstack =>
          split at hs
          · next more hfr =>
              obtain rfl := Option.some.inj hs
              exact h.unhold hstack hfr
          · cases hs
      · cases hs
  | scope =>
      simp only [State.exec] at hs
      split at hs
      · next g ends rest hstack =>
          obtain rfl := Option.some.inj hs
          exact h.scopeBegin hstack
      · cases hs
  | yield req =>
      simp only [State.exec] at hs
      split at hs
      · next g ends rest hstack =>
          simp only [Option.ite_none_right_eq_some] at hs
          obtain rfl := Option.some.inj hs.2
          exact h.yield hstack hs.1
      · cases hs
  | leave r => exact h.leave hs
  | leaveGen => exact h.leaveGen hs

theorem init (sync : Bool) : Inv (State.init sync) [] none where
  flow := by constructor <;> simp [State.init] <;> grind [Act.gen?, Act.op?, Act.Idle, List.suffix_cons_iff]
  passing := by constructor <;> simp [State.init]
  members := by
    have hb : (State.init sync).begins ([] ++ (State.init sync).queue) = [] := rfl
    constructor <;> (try rw [hb]) <;> simp [State.init] <;> grind [Function.update_apply]
  closing := fun _ => by constructor <;> simp [State.init] <;> grind [Function.update_apply]
  targets := fun _ _ => by constructor <;> simp [State.init] <;> grind [Function.update_apply]

theorem run (events : List Event) : ∀ {s s' : State}, Inv s [] none → s.run events = some s' → Inv s' [] none := by
  induction events with
  | nil =>
      intro s s' h hs
      exact Option.some.inj hs ▸ h
  | cons e events ih =>
      intro s s' h hs
      obtain ⟨s1, he, hs⟩ := Option.bind_eq_some_iff.mp hs
      exact ih (h.exec he) hs

end Inv

end Emela.Runtime
