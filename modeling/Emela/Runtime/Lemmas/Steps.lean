import Emela.Runtime.Lemmas.Bodies

/-!
# Steps keep the invariant
-/

namespace Emela.Runtime

variable {s s' : State} {tasks : List Task} {ts : List Task} {w : WaitId} {t : Task} {g : GenId} {ends : End}
  {rest : List Act} {hot : Option ScopeId} {inp : Input} {current : Option FiberId} {i : ScopeId} {f : FiberId}

/-- Callbacks of the host run on no fiber. -/
theorem currentOf_idle {fiberOf : GenId → FiberId} : ∀ stack : List Act, (∀ a ∈ stack, a.Idle) →
    currentOf stack fiberOf = none
  | [], _ => rfl
  | a :: stack, h => by
      obtain ⟨l, rfl⟩ := h a (by simp)
      exact currentOf_idle stack fun b hb => h b (List.mem_cons_of_mem _ hb)

theorem Flow.caller_running (h : Flow s tasks) {foreign : Bool} (hc : s.caller foreign ≠ none) : s.running = true := by
  cases hr : s.running with
  | true => rfl
  | false =>
      refine absurd ?_ hc
      cases foreign with
      | true => rfl
      | false => exact currentOf_idle s.stack (h.idle hr)

namespace Inv

/-! ## `$fork`, `$deferred` and `$complete` -/

theorem fork (h : Inv s ts none) (hi : i < s.nextScope) {p : FiberId × State} (hp : s.fork i = some p) :
    Inv p.2 ts none := by
  simp only [State.fork] at hp
  split at hp
  · cases hp
  · next hc =>
      have hc : (s.scope i).closed = false := by simpa using hc
      obtain rfl := Option.some.inj hp
      refine schedule ?_
      exact {
        flow := by
          have h1 := h.flow.consBegin s.nextFiber
          exact { h1 with
            fiberWait := by have := h1.fiberWait; dsimp only [State.setScope]; grind [Function.update_apply]
            closer := by have := h1.closer; dsimp only [State.setScope]; grind [Function.update_apply]
            watchers := by
              have := h1.watchers
              dsimp only [State.setScope]; grind [Function.update_apply, Parked] }
        passing := { h.passing.cons (t := .begin s.nextFiber) rfl with }
        members := h.members.newFiber hi hc
        closing := fun hn => ((h.closing hn).newFiber h.members h.flow hc).cons (by simp [Task.wait])
        targets := fun hn ha => ((h.targets hn ha).newFiber h.flow h.members hc).cons (by simp) }

theorem newDeferred (h : Inv s ts none) (hs : s.newDeferred i = some s') : Inv s' ts none := by
  simp only [State.newDeferred] at hs
  split at hs
  · cases hs
  · obtain rfl := Option.some.inj hs
    exact {
      flow := { h.flow with
        waiters := by have := h.flow.waiters; dsimp only; grind [Function.update_apply, Parked] }
      passing := { h.passing with }
      members := { h.members with }
      closing := fun hc => { h.closing hc with }
      targets := fun hc ha => { h.targets hc ha with } }

theorem complete (h : Inv s ts none) (hr : current ≠ none → s.running = true) (d : DeferredId) (v : Value) :
    Inv (s.complete current d v) ts none := by
  simp only [State.complete]
  split
  · exact h
  · have h1 := h.setWaiters (d := d) (k := fun x => { x with full := true, value := v, waiters := [] }) (by simp)
    refine h1.pushWakes current ?_ fun p hp => ?_
    · cases hcur : current with
      | none => exact Or.inr rfl
      | some c => exact Or.inl (hr (by simp [hcur]))
    · obtain ⟨w, hw, rfl⟩ := List.mem_map.mp hp
      exact h.flow.waiters d w hw

/-! ## `$hold` and `$unhold` -/

theorem hold (h : Inv s ts none) (hs : s.stack = .gen g ends :: rest) :
    Inv ((s.setFiber (s.fiberOf g) fun x => { x with holds := g :: x.holds }).setFrames g (.hold :: s.frames g)) ts none := by
  have hg : g ∈ s.stack.filterMap Act.gen? := by simp [hs, Act.gen?]
  have hlt := (h.flow.running g hg).2
  exact {
    flow := (h.flow.setFiber (fun _ h => h) (fun _ h => Or.inl h)).setFrames hlt _
    passing := { h.passing with }
    members := by
      have h1 := h.members.setFiber (f := s.fiberOf g) (k := fun x => { x with holds := g :: x.holds })
        (h.members.genFiber g hlt) rfl rfl rfl
      refine h1.setFrames hg _ (fun j hj => h.members.bodies g j (by simpa using hj))
        (fun j r hj => h.members.closings g j r (by simpa using hj)) ?_ fun j hj => List.mem_cons_of_mem _ hj
      simpa [List.filterMap_cons, Frame.scope?] using h.members.framesNodup g
    closing := fun hc => (h.closing hc).hold hg
    targets := fun hc ha => by
      have h1 := (h.targets hc ha).setFiber (f := s.fiberOf g) (k := fun x => { x with holds := g :: x.holds })
        rfl rfl rfl rfl id (fun _ h => h)
      exact h1.setFrames _ fun j hj => List.mem_cons_of_mem _ hj }

theorem unhold (h : Inv s ts none) (hs : s.stack = .gen g ends :: rest) {more : List Frame}
    (hfr : s.frames g = .hold :: more) :
    Inv ((s.setFiber (s.fiberOf g) fun x => { x with holds := x.holds.erase g }).setFrames g more) ts none := by
  have hg : g ∈ s.stack.filterMap Act.gen? := by simp [hs, Act.gen?]
  have hlt := (h.flow.running g hg).2
  exact {
    flow := (h.flow.setFiber (fun _ h => h) (fun _ h => Or.inl h)).setFrames hlt _
    passing := { h.passing with }
    members := by
      have h1 := h.members.setFiber (f := s.fiberOf g) (k := fun x => { x with holds := x.holds.erase g })
        (h.members.genFiber g hlt) rfl rfl rfl
      have hn := h.members.framesNodup g
      refine h1.setFrames hg _ (fun j hj => h.members.bodies g j (by simp [hfr, hj]))
        (fun j r hj => h.members.closings g j r (by simp [hfr, hj])) (by simpa [hfr, List.filterMap_cons, Frame.scope?] using hn) fun j hj => ?_
      have hj : .body j ∈ s.frames g := hj
      simpa [hfr] using hj
    closing := fun hc => (h.closing hc).unhold hg hfr
    targets := fun hc ha => by
      have h1 := (h.targets hc ha).setFiber (f := s.fiberOf g) (k := fun x => { x with holds := x.holds.erase g })
        rfl rfl rfl rfl id (fun _ h => h)
      refine h1.setFrames _ fun j hj => ?_
      have hj : .body j ∈ s.frames g := hj
      simpa [hfr] using hj }

/-! ## `$Root.interrupt` -/

theorem pend (h : Inv s ts none) (hf : f < s.nextFiber) :
    Inv (s.pend f) ts none ∧ Kept s (s.pend f) ∧ (((s.pend f).fiber f).result = none → ((s.pend f).fiber f).asked) := by
  cases hr : (s.fiber f).result with
  | none =>
      have he : s.pend f = s.setFiber f (·.ask none) := by simp [State.pend, State.setFiber, hr]
      rw [he]
      exact ⟨h.ask hf (fun _ _ i hi => by cases hi), Kept.ask s f none, fun _ => by simp [State.setFiber, Fiber.ask]⟩
  | some r =>
      have he : s.pend f = s := by simp [State.pend, State.setFiber, hr]
      rw [he]
      exact ⟨h, Kept.refl s, by simp [hr]⟩

theorem pendAll (l : List FiberId) : ∀ {s : State}, Inv s ts none → (∀ f ∈ l, f < s.nextFiber) →
    Inv (l.foldl State.pend s) ts none ∧ Kept s (l.foldl State.pend s) ∧
      ∀ f ∈ l, ((l.foldl State.pend s).fiber f).result = none → ((l.foldl State.pend s).fiber f).asked := by
  induction l with
  | nil => exact fun h _ => ⟨h, Kept.refl _, by simp⟩
  | cons f l ih =>
      intro s h hl
      obtain ⟨h1, k1, ha⟩ := h.pend (hl f (by simp))
      obtain ⟨h2, k2, hall⟩ := ih h1 fun x hx => k1.nextFiber ▸ hl x (List.mem_cons_of_mem _ hx)
      refine ⟨h2, k1.trans k2, fun x hx hr => ?_⟩
      obtain rfl | hx := List.mem_cons.mp hx
      · exact k2.asked _ (ha (by rw [← k2.result]; exact hr))
      · exact hall x hx hr

/-- The waits are unwound one after the other. -/
theorem unwindAll (l : List WaitId) : ∀ {s : State}, Inv s ts none → (∀ w ∈ l, s.suspended w ∧ (s.wait w).closing = false) →
    (∀ f < s.nextFiber, (s.fiber f).result = none → (s.fiber f).asked) →
    Inv (l.foldl State.unwindWait s) ts none ∧ Kept s (l.foldl State.unwindWait s) := by
  induction l with
  | nil => exact fun h _ _ => ⟨h, Kept.refl _⟩
  | cons w l ih =>
      intro s h hl hasked
      obtain ⟨hs, hc⟩ := hl w (by simp)
      have hone : Inv (s.unwindWait w) ts none ∧ Kept s (s.unwindWait w) := by
        simp only [State.unwindWait]
        split
        · next hlive =>
            have hpaused := h.flow.live w hlive hs
            have hdrops : Drops s w (.unwind w) :=
              { wait := rfl, begin := rfl, resume := by simp, closing := fun _ => hc
                targets := fun _ _ v hv => by
                  obtain ⟨rfl, he⟩ : w = v ∧ (s.wait v).ends = .main := by simpa using hv
                  refine ⟨he, Or.inl ?_⟩
                  -- a fiber that ended has no main continuation left
                  have hm := h.members.mainPaused _ w hpaused he
                  rw [h.flow.fiber w (h.flow.lt hs)]
                  refine hasked _ (h.members.genFiber _ (h.flow.genLt w (h.flow.lt hs))) ?_
                  cases hr : (s.fiber (s.fiberOf (s.wait w).gen)).result with
                  | none => rfl
                  | some r =>
                      have := (h.members.finished _ _ (by simp [hr]) hm).1
                      simp [hpaused] at this }
            obtain ⟨h1, k1⟩ := h.drop hlive hs hdrops
            exact ⟨h1.enqueue, k1.trans (Kept.enqueue _ _)⟩
        · exact ⟨h, Kept.refl s⟩
      obtain ⟨h1, k1⟩ := hone
      obtain ⟨h2, k2⟩ := ih h1
        (fun v hv => by rw [k1.suspended, k1.wait]; exact hl v (List.mem_cons_of_mem _ hv))
        (fun f hf hr => k1.asked f (hasked f (k1.nextFiber ▸ hf) (k1.result f ▸ hr)))
      exact ⟨h2, k1.trans k2⟩

/-- The queue is drained. -/
theorem drain (h : Inv s ts none) (hr : s.running = false) :
    Inv { s with running := true, stack := .drain :: s.stack } ts none := by
  have he : (if s.running = true then s.stack else .drain :: s.stack) = .drain :: s.stack := by simp [hr]
  have h1 := h.flow.schedule (.begin 0)
  have h2 := h.members.schedule (.begin 0)
  have h3 := fun hc => (h.closing hc).schedule (.begin 0)
  simp only [State.schedule, he] at h1 h2 h3
  exact {
    flow := { h1 with }
    passing := { h.passing with }
    members := { h2 with }
    closing := fun hc => { h3 hc with }
    targets := fun hc ha => { h.targets hc ha with } }

theorem rootInterrupt (h : Inv s ts none) : Inv s.rootInterrupt ts none := by
  simp only [State.rootInterrupt]
  split
  · exact h
  · obtain ⟨h1, k1, hasked⟩ := h.pendAll (List.range s.nextFiber) fun f hf => List.mem_range.mp hf
    obtain ⟨h2, k2⟩ := h1.unwindAll
      (((List.range s.nextFiber).foldl State.pend s).waits.reverse.filter fun w =>
        !(((List.range s.nextFiber).foldl State.pend s).wait w).closing)
      (fun w hw => by
        simp only [List.mem_filter, List.mem_reverse, Bool.not_eq_true'] at hw
        exact ⟨h1.flow.waits w hw.1, hw.2⟩)
      (fun f hf => hasked f (List.mem_range.mpr (k1.nextFiber ▸ hf)))
    split
    · exact h2
    · next hr => exact h2.drain (by simpa using hr)

end Inv
end Emela.Runtime
