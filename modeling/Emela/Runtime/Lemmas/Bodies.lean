import Emela.Runtime.Lemmas.Scopes

/-!
# The bodies of scopes keep the invariant
-/

namespace Emela.Runtime

variable {s s' : State} {tasks : List Task} {ts : List Task} {w : WaitId} {t : Task} {g : GenId} {ends : End}
  {rest : List Act} {hot : Option ScopeId} {i : ScopeId} {r : Result} {more : List Frame}

/-- The generator on top of the stack ran the body of the scope, which ended; `more` is what runs around it. -/
structure BodyDone (s : State) (g : GenId) (ends : End) (i : ScopeId) (r : Result) (more : List Frame) : Prop where
  stack : ∃ rest, s.stack = .gen g ends :: rest
  frames : s.frames g = more
  fresh : i ∉ more.filterMap Frame.scope?
  lt : i < s.nextScope
  gen : (s.scope i).gen = g
  bodyDone : (s.scope i).bodyDone = true
  closed : (s.scope i).closed = true
  body : (s.scope i).body = some r

theorem BodyDone.kept (h : BodyDone s g ends i r more) (hr : s.running = true) (hk : Kept s s') :
    BodyDone s' g ends i r more := by
  obtain ⟨h1, h2, h3, h4, h5, h6, h7, h8⟩ := h
  constructor <;> (try simp only [hk.stack hr, hk.frames, hk.scope, hk.nextScope]) <;> assumption

/-- A scope with children waits for them when the fiber holds interruptions off. -/
theorem State.yield_close (ends : End) (hi : (s.fiber (s.fiberOf g)).interrupting = false)
    (hn : (s.scope i).children ≠ []) :
    s.yield g ends (.close i) = ((s.newWait g ends true false).suspend s.nextWait).setScope i
      fun x => { x with closer := some s.nextWait } := by
  have hb : ((s.newWait g ends true false).scope i).children.isEmpty = false := by simpa [State.newWait] using hn
  simp only [State.yield, hi]
  rw [if_neg (by simp)]
  simp only [State.request, Request.closing, Request.performs, hb]
  rfl

namespace Inv

/-! ## `$scope` is called -/

theorem scopeBegin (h : Inv s ts none) (hs : s.stack = .gen g ends :: rest) : Inv (s.scopeBegin g) ts none := by
  have hg : g ∈ s.stack.filterMap Act.gen? := by simp [hs, Act.gen?]
  have hlt := (h.flow.running g hg).2
  have hcl := h.flow.closer
  exact {
    flow := by
      have h1 : Flow { s with
          nextScope := s.nextScope + 1
          scope := Function.update s.scope s.nextScope
            { fiber := s.fiberOf g, depth := (s.fiber (s.fiberOf g)).scopes, gen := g } } (ts ++ s.queue) :=
        { h.flow with
          closer := by dsimp only; grind [Function.update_apply] }
      have h2 := h1.setFiber (f := s.fiberOf g) (k := fun x => { x with scopes := x.scopes + 1 }) (fun _ h => h)
        (fun _ h => Or.inl h)
      exact h2.setFrames hlt (.body s.nextScope :: s.frames g)
    passing := { h.passing with }
    members := by
      have h1 := (h.members.newScope hg hlt (s.fiber (s.fiberOf g)).scopes).setFiber (f := s.fiberOf g)
        (k := fun x => { x with scopes := x.scopes + 1 }) (h.members.genFiber g hlt) rfl rfl rfl
      exact { h1 with }
    closing := fun hc => by
      have h1 := (h.closing hc).newScope h.members
        (x := { fiber := s.fiberOf g, depth := (s.fiber (s.fiberOf g)).scopes, gen := g }) rfl rfl
      have h2 := h1.setFiber (f := s.fiberOf g) (k := fun x => { x with scopes := x.scopes + 1 }) rfl
      have hrun := h2.running g hg
      refine h2.setFrames hg _ (fun i r hi => ?_) (by simp [Frame.holds, State.setFiber])
      simp only [List.mem_cons, reduceCtorEq, false_or] at hi
      exact hrun i r hi
    targets := fun hc ha => by
      have h1 := (h.targets hc ha).newScope h.members
        (x := { fiber := s.fiberOf g, depth := (s.fiber (s.fiberOf g)).scopes, gen := g }) rfl rfl
      have h2 := h1.setFiber (f := s.fiberOf g) (k := fun x => { x with scopes := x.scopes + 1 }) rfl rfl rfl rfl id
        (fun _ h => h)
      exact h2.setFrames _ fun j hj => List.mem_cons_of_mem _ hj }

/-! ## The body ends -/

/-- The body of the scope ended, and the scope knows. -/
theorem bodyGone (h : Inv s ts none) {k : Scope → Scope} (hs : s.stack = .gen g ends :: rest)
    (hfr : s.frames g = .body i :: more) (hk : Members.Ended (s.scope i) (k (s.scope i)) r)
    (hrest : ∀ x, (k x).children = x.children ∧ (k x).bodyDone = true ∧ (k x).closed = true ∧ (k x).body = some r ∧
      (k x).closer = x.closer ∧ (k x).exit = x.exit ∧ (x.first.isSome → (k x).first.isSome)) :
    Inv (State.setScope (State.setFrames (s.setFiber (s.fiberOf g) (·.leaveScope i)) g more) i k) ts (some i) ∧
      BodyDone (State.setScope (State.setFrames (s.setFiber (s.fiberOf g) (·.leaveScope i)) g more) i k) g ends i r
        more := by
  have hg : g ∈ s.stack.filterMap Act.gen? := by simp [hs, Act.gen?]
  have hlt := (h.flow.running g hg).2
  obtain ⟨hgen, hi, hdone⟩ := h.members.bodies g i (by simp [hfr])
  have hnodup := h.members.framesNodup g
  simp only [hfr, List.filterMap_cons, Frame.scope?, List.nodup_cons] at hnodup
  obtain ⟨kc, kd, kcl, ky, kw, kx, kf⟩ := hrest (s.scope i)
  refine ⟨?_, ?_⟩
  · exact {
      flow := by
        have h1 := h.flow.setFiber (f := s.fiberOf g) (k := (·.leaveScope i)) (fun _ h => h) (fun _ h => Or.inl h)
        exact (h1.setFrames hlt more).setScope fun w hw => Or.inl (kw.symm.trans hw)
      passing := { h.passing with }
      members := by
        have h1 := h.members.setFiber (f := s.fiberOf g) (k := (·.leaveScope i)) (h.members.genFiber g hlt) rfl rfl rfl
        exact h1.bodyEnded hg hfr hk kc kd kcl ky
      closing := fun hc => by
        have h1 := (h.closing hc).setFiber (f := s.fiberOf g) (k := (·.leaveScope i)) rfl
        have hrun := (h.closing hc).running g hg
        have h2 := h1.setFrames hg more (fun j r' hj => hrun j r' (by simp [hfr, hj]))
          (by simp [State.setFiber, hfr, Frame.holds])
        refine h2.setScope kw (fun _ _ _ hn => kc.trans hn) fun r' hx => ?_
        obtain ⟨b, hb, -⟩ := ((h.closing hc).exit i r' (kx ▸ hx)).outcome
        simp [h.members.body i, hb] at hdone
      targets := fun hc ha => (h.targets hc ha).bodyEnded h.flow h.members hg hfr hk.fiber kf }
  · refine ⟨⟨rest, hs⟩, ?_, hnodup.1, hi, ?_, ?_, ?_, ?_⟩ <;>
      simp [State.setScope, State.setFrames, State.setFiber, kd, kcl, ky, hk.gen, hgen]

/-- The scope returns right away. -/
theorem exitNow (h : Inv s ts none) (hd : BodyDone s g ends i r more) (hn : (s.scope i).children = []) :
    Inv (s.setScope i fun x => { x with ended := true, exit := some (x.outcome r) }) ts none where
  flow := h.flow.setScope fun _ hw => Or.inl hw
  passing := { h.passing with }
  members := h.members.setScope hd.lt rfl
  closing := fun hc => (h.closing hc).setScope rfl (fun _ _ _ hn => hn) fun r' hr => by
    cases hr
    exact ⟨hn, hd.closed, r, hd.body, rfl⟩
  targets := fun hc ha => (h.targets hc ha).setScope rfl rfl rfl rfl (List.Subset.refl _)

/-- The scope starts to wait for its children. -/
theorem yieldClose (h : Inv s ts none) (hd : BodyDone s g ends i r more) (hn : (s.scope i).children ≠ []) :
    Inv (State.yield (State.setFrames (s.setFiber (s.fiberOf g) fun x => { x with holds := g :: x.holds }) g
      (.closing i r :: more)) g ends (.close i)) ts none := by
  obtain ⟨rest, hs⟩ := hd.stack
  have hg : g ∈ s.stack.filterMap Act.gen? := by simp [hs, Act.gen?]
  have hlt := (h.flow.running g hg).2
  have hout : ∀ g' r', .closing i r' ∉ s.frames g' := by
    intro g' r' hm
    have hgen := (h.members.closings g' i r' hm).1
    rw [hd.gen] at hgen
    subst hgen
    exact hd.fresh (List.mem_filterMap.mpr ⟨_, hd.frames ▸ hm, rfl⟩)
  -- the state with the frame, then with the request
  let a := State.setFrames (s.setFiber (s.fiberOf g) fun x => { x with holds := g :: x.holds }) g (.closing i r :: more)
  let b := a.newWait g ends true false
  have hy := a.yield_close (g := g) (i := i) ends
    (by simp [a, State.setFrames, State.setFiber, Fiber.interrupting]) hn
  have hflow : Flow a (ts ++ s.queue) := (h.flow.setFiber (fun _ h => h) (fun _ h => Or.inl h)).setFrames hlt _
  have hflow' : Flow b (ts ++ s.queue) := hflow.newWait hs (by simp)
  have hw : Unanswered b a.nextWait := hflow.newWait_unanswered hs true false
  have hmem : Members a (ts ++ s.queue) := by
    have h1 := h.members.setFiber (f := s.fiberOf g) (k := fun x => { x with holds := g :: x.holds })
      (h.members.genFiber g hlt) rfl rfl rfl
    have hbodies := h.members.bodies g
    have hclosings := h.members.closings g
    have hnodup := h.members.framesNodup g
    rw [hd.frames] at hbodies hclosings hnodup
    refine h1.setFrames hg _ (fun j hj => hbodies j (by simpa using hj)) (fun j r' hj => ?_) ?_ fun j hj => ?_
    · obtain hj | hj := List.mem_cons.mp hj
      · cases hj
        exact ⟨hd.gen, hd.lt, hd.body⟩
      · exact hclosings j r' hj
    · simp only [List.filterMap_cons, Frame.scope?, List.nodup_cons]
      exact ⟨hd.fresh, hnodup⟩
    · exact List.mem_cons_of_mem _ (hd.frames ▸ hj)
  have hmem' : Members b (ts ++ s.queue) := hmem.newWait hflow true false
  obtain ⟨hq, hcut, hastray, hsusp, hwait⟩ := b.suspend_rest a.nextWait
  have hscope : (b.suspend a.nextWait).scope = s.scope := by
    simp only [State.suspend]
    split <;> rfl
  have hnext : (b.suspend a.nextWait).nextScope = s.nextScope := by
    simp only [State.suspend]
    split <;> rfl
  rw [hy]
  have hq' : (State.setScope (b.suspend a.nextWait) i fun x => { x with closer := some a.nextWait }).queue = s.queue := hq
  refine ⟨?_, ?_, ?_, fun hc => ?_, fun hc ha => ?_⟩ <;> rw [hq']
  · refine (hflow'.suspend hw).setScope fun v hv => Or.inr ?_
    obtain rfl := Option.some.inj hv
    exact ⟨by rw [hsusp, Function.update_self], by rw [hwait]; simp [b, State.newWait]⟩
  · have h1 : Passing a (ts ++ s.queue) := { h.passing with }
    have h2 : Passing (b.suspend a.nextWait) (ts ++ s.queue) := (h1.newWait hflow true false).suspend
      (by simp [State.newWait]) (by simp [State.newWait])
    exact { h2 with }
  · refine (hmem'.suspend hflow' hw).setScope (c := some a.nextWait) (e := (s.scope i).ended)
      (r := (s.scope i).exit) (hnext ▸ hd.lt) ?_
    rw [hscope]
  · have hcp := (h.closing (hcut ▸ hc)).closePark h.flow hs (r := r) hout hn
    rw [hd.frames] at hcp
    simp only [State.suspend]
    split
    · exact hcp.setFiber (f := (b.wait a.nextWait).fiber) (k := fun x => { x with wait := some a.nextWait }) rfl
    · next v _ => exact hcp.setOp v fun x => { x with waiting := some a.nextWait }
    · exact hcp
  · have h1 := (h.targets (hcut ▸ hc) (hastray ▸ ha)).setFiber (f := s.fiberOf g)
      (k := fun x => { x with holds := g :: x.holds }) rfl rfl rfl rfl id (fun _ h => h)
    have h2 := h1.setFrames (g := g) (.closing i r :: more) fun j hj => List.mem_cons_of_mem _ (hd.frames ▸ hj)
    have h3 : Targets (b.suspend a.nextWait) _ none := (h2.newWait hflow true false).suspend a.nextWait
    exact h3.setScope rfl rfl rfl rfl (List.Subset.refl _)

/-- The body of the scope is left, and the children are asked to unwind. -/
theorem bodyLeft (h : Inv s ts none) (hs : s.stack = .gen g ends :: rest) (hfr : s.frames g = .body i :: more)
    (r : Result) : ∃ s1, State.memberEnded (State.setScope (State.setFrames (s.setFiber (s.fiberOf g) (·.leaveScope i)) g more)
        i fun x => { x with bodyDone := true, closed := true, body := some r }) i r = s1 ∧
      Inv (s1.interruptAll (s1.scope i).children) ts none ∧
      BodyDone (s1.interruptAll (s1.scope i).children) g ends i r more ∧
      (s1.interruptAll (s1.scope i).children).fiberOf = s.fiberOf := by
  have hrun := h.flow.running_of (a := .gen g ends) (by simp [hs]) (by simp [Act.Idle])
  -- the scope after its body, and the failure of the body if any
  obtain ⟨s1, hs1, h1, hd1, hrun1, hof1⟩ : ∃ s1 : State,
      State.memberEnded (State.setScope (State.setFrames (s.setFiber (s.fiberOf g) (·.leaveScope i)) g more) i
        fun x => { x with bodyDone := true, closed := true, body := some r }) i r = s1 ∧
      Inv s1 ts (some i) ∧ BodyDone s1 g ends i r more ∧ s1.running = true ∧ s1.fiberOf = s.fiberOf := by
    have halike : Members.Alike (s.scope i) { s.scope i with bodyDone := true, closed := true, body := some r } := by
      constructor <;> simp
    refine ⟨_, rfl, ?_⟩
    simp only [State.memberEnded]
    cases hc : failureOf r with
    | none =>
        obtain ⟨h1, hd1⟩ := h.bodyGone (k := fun x => { x with bodyDone := true, closed := true, body := some r }) hs hfr
          (h.members.ended_none halike hc) fun x => ⟨rfl, rfl, rfl, rfl, rfl, rfl, id⟩
        exact ⟨h1, hd1, hrun, rfl⟩
    | some c =>
        obtain ⟨h1, hd1⟩ := h.bodyGone
          (k := fun x => { x with bodyDone := true, closed := true, body := some r }.failed c) hs hfr
          (h.members.ended_failed halike hc) fun x => by
            obtain ⟨-, -, h3, h4, h5, h6, h7, h8, h9, -⟩ :=
              Scope.failed_rest { x with bodyDone := true, closed := true, body := some r } c
            exact ⟨h3, h4, h8 rfl, h5, h6, h7, fun _ => h9⟩
        simp only [State.scopeFailed, State.setScope_setScope]
        split
        · exact ⟨h1, hd1, hrun, rfl⟩
        · simp only [State.interruptMembers]
          obtain ⟨h2, k2, -⟩ := h1.interruptAll _ fun f hf => h1.children_lt hf
          rw [if_pos ((congrArg Scope.bodyDone (congrFun k2.scope i)).trans hd1.bodyDone)]
          exact ⟨h2, hd1.kept hrun k2, k2.running hrun, k2.fiberOf⟩
  obtain ⟨h2, k2, hasked⟩ := h1.interruptAll (s1.scope i).children fun f hf => h1.children_lt hf
  have hd2 := hd1.kept hrun1 k2
  have h3 := h2.cool (fun _ _ hn => by simp [hd2.bodyDone] at hn) fun f hf => hasked f (congrFun k2.scope i ▸ hf)
  exact ⟨s1, hs1, h3, hd2, k2.fiberOf.trans hof1⟩

theorem scopeEnd (h : Inv s ts none) (hs : s.stack = .gen g ends :: rest) (hfr : s.frames g = .body i :: more)
    (r : Result) : Inv (s.scopeEnd g ends i r more) ts none := by
  obtain ⟨s1, hs1, h1, hd1, hof1⟩ := h.bodyLeft hs hfr r
  simp only [State.scopeEnd, hs1]
  split
  · next hn => exact h1.exitNow hd1 (by simpa using hn)
  · next hn =>
      have hyield := h1.yieldClose hd1 (by simpa using hn)
      rwa [hof1] at hyield

end Inv
end Emela.Runtime
