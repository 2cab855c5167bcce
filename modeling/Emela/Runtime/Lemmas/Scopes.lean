import Emela.Runtime.Lemmas.Requests

/-!
# Scopes keep the invariant
-/

namespace Emela.Runtime

variable {s s' : State} {tasks : List Task} {ts : List Task} {w : WaitId} {t : Task} {g : GenId} {ends : End}
  {rest : List Act} {hot : Option ScopeId} {inp : Input} {current : Option FiberId} {i : ScopeId} {f : FiberId}

/-- An interruption of a body that is asked for is on its way, unless the fiber ended or is unwinding. -/
theorem Fiber.ask_some (x : Fiber) (i : ScopeId) :
    some i ∈ (x.ask (some i)).pending ∨ i ∈ (x.ask (some i)).unwinds ∨ (x.ask (some i)).result.isSome ∨
      (x.ask (some i)).unwinding := by
  have : x.ignores (some i) = (x.result.isSome || x.unwinding || x.pending.contains (some i) || x.unwinds.contains i) :=
    rfl
  simp only [Fiber.ask]
  split <;> grind

/-- What a failure of a member does not change. -/
theorem Scope.failed_rest (x : Scope) (c : Cause) :
    (x.failed c).gen = x.gen ∧ (x.failed c).fiber = x.fiber ∧ (x.failed c).children = x.children ∧
      (x.failed c).bodyDone = x.bodyDone ∧ (x.failed c).body = x.body ∧ (x.failed c).closer = x.closer ∧
      (x.failed c).exit = x.exit ∧ (x.closed → (x.failed c).closed) ∧ (x.failed c).first.isSome ∧
      (x.failed c).ended = x.ended := by
  simp only [Scope.failed]
  split
  · next hf => simp [hf]
  · simp

theorem State.setScope_setScope (s : State) (i : ScopeId) (k k' : Scope → Scope) :
    (s.setScope i k).setScope i k' = s.setScope i fun x => k' (k x) := by
  simp [State.setScope]

/-- The main continuation of the fiber, if any, ended. -/
def MainOff (s : State) (f : FiberId) : Prop :=
  ∀ g, (s.fiber f).main = some g → s.paused g = none ∧ g ∉ s.stack.filterMap Act.gen? ∧ s.frames g = []

namespace Inv

/-! ## A member failed -/

theorem setAstray (h : Inv s ts hot) (b : Bool) : Inv { s with astray := s.astray || b } ts hot where
  flow := { h.flow with }
  passing := { h.passing with }
  members := { h.members with }
  closing := fun hc => { h.closing hc with }
  targets := fun hc ha => { h.targets hc (Bool.or_eq_false_iff.mp ha).1 with }

/-- All other members of the scope that failed were asked to unwind. -/
theorem cool (h : Inv s ts (some i))
    (hb : s.cut = false → s.astray = false → (s.scope i).bodyDone = false →
      (s.fiber (s.scope i).fiber).main = some (s.scope i).gen ∧
        ((s.fiber (s.scope i).fiber).asked ∨ some i ∈ (s.fiber (s.scope i).fiber).pending ∨
          i ∈ (s.fiber (s.scope i).fiber).unwinds))
    (hc : ∀ f ∈ (s.scope i).children, (s.fiber f).asked) : Inv s ts none where
  flow := h.flow
  passing := h.passing
  members := h.members
  closing := h.closing
  targets := fun hn ha => (h.targets hn ha).cool (fun _ => hb hn ha) hc

theorem children_lt (h : Inv s ts hot) (hf : f ∈ (s.scope i).children) : f < s.nextFiber :=
  ((h.members.children i f).mp hf).1

/-- The body of a scope that failed is interrupted. -/
theorem interruptBody (h : Inv s ts (some i)) (hr : s.running = true) (hi : i < s.nextScope)
    (hfirst : (s.scope i).first.isSome) (hd : (s.scope i).bodyDone = false)
    (hasked : ∀ f ∈ (s.scope i).children, (s.fiber f).asked) :
    Inv (State.fiberInterrupt { s with astray := s.astray || !s.onMain i } (s.scope i).fiber (some i)) ts none ∧
      (State.fiberInterrupt { s with astray := s.astray || !s.onMain i } (s.scope i).fiber (some i)).running = true := by
  have hk := Kept.ask { s with astray := s.astray || !s.onMain i } (s.scope i).fiber (some i)
  have h1 := h.setAstray (!s.onMain i)
  obtain ⟨h2, k2⟩ := h1.fiberInterrupt (some i) (h.members.scopeFiber_lt hi) fun hc ha j hj => by
    obtain rfl := Option.some.inj hj
    have hm : s.onMain i := by simpa using (Bool.or_eq_false_iff.mp ha).2
    exact ⟨rfl, hm, h.members.inBody i hi hd, hfirst⟩
  have hscope := congrFun k2.scope i
  refine ⟨h2.cool (fun hc ha _ => ?_) fun f hf => ?_, k2.running hr⟩
  · have hask : (State.fiberInterrupt { s with astray := s.astray || !s.onMain i } (s.scope i).fiber (some i)).scope i =
        s.scope i := hscope
    have hm : s.onMain i := by simpa using (Bool.or_eq_false_iff.mp ((k2.astray).symm.trans ha)).2
    have hmain : (s.fiber (s.scope i).fiber).main = some (s.scope i).gen := by simpa [State.onMain] using hm
    rw [hask]
    refine ⟨(k2.main _).trans (by simpa [State.setFiber, Fiber.ask] using hmain), ?_⟩
    obtain hp | hu | hres | hun := (s.fiber (s.scope i).fiber).ask_some i
    · exact Or.inr (Or.inl (k2.pending _ _ (by simpa [State.setFiber] using hp)))
    · exact Or.inr (Or.inr (by rw [k2.unwinds]; simpa [State.setFiber] using hu))
    · -- a fiber that ended runs no body
      have hbody := h.members.inBody i hi hd
      simp [(h.members.finished _ _ hres hmain).2.2] at hbody
    · have hcut : s.cut = false := by
        cases hn : s.cut with
        | false => rfl
        | true => simp [(hk.trans k2).cut hn] at hc
      have hastray : s.astray = false := (Bool.or_eq_false_iff.mp ((k2.astray).symm.trans ha)).1
      exact Or.inl ((hk.trans k2).asked _ ((h.targets hcut hastray).asked _ (Or.inr hun)))
  · exact (hk.trans k2).asked f (hasked f (hscope ▸ hf))

theorem interruptMembers (h : Inv s ts (some i)) (hr : s.running = true) (hi : i < s.nextScope)
    (hfirst : (s.scope i).first.isSome) :
    Inv (s.interruptMembers i) ts none ∧ (s.interruptMembers i).running = true := by
  obtain ⟨h1, k1, ha1⟩ := h.interruptAll (s.scope i).children fun f hf => h.children_lt hf
  have hscope := congrFun k1.scope i
  have hasked : ∀ f ∈ ((s.interruptAll (s.scope i).children).scope i).children,
      ((s.interruptAll (s.scope i).children).fiber f).asked := fun f hf => ha1 f (by rwa [hscope] at hf)
  simp only [State.interruptMembers]
  split
  · next hd => exact ⟨h1.cool (fun _ _ hn => by simp [hd] at hn) hasked, k1.running hr⟩
  · next hd =>
      have hfirst' : ((s.interruptAll (s.scope i).children).scope i).first.isSome := by rw [hscope]; exact hfirst
      exact h1.interruptBody (k1.running hr) (k1.nextScope ▸ hi) hfirst' (by simpa using hd) hasked

/-! ## A fiber ends -/

theorem pushWakes (h : Inv s ts hot) (current : Option FiberId) (hr : s.running = true ∨ current = none)
    {l : List (WaitId × Input)} (hl : ∀ p ∈ l, Parked s p.1) : Inv (s.pushAct (.wakes current l)) ts hot where
  flow := h.flow.push rfl rfl (by simp) (fun hn => ⟨l, by simpa [hn] using hr⟩) fun c l' he => by
    cases he
    exact hl
  passing := { h.passing with }
  members := h.members.push (a := .wakes current l) rfl rfl
  closing := fun hc => (h.closing hc).push (a := .wakes current l) (by simp [Act.gen?])
  targets := fun hc ha => { h.targets hc ha with }

theorem rootGone (h : Inv s ts none) {r : Result} (hf : f < s.nextFiber) (hs : (s.fiber f).scope = none)
    (hb : f ∉ s.begins (ts ++ s.queue)) (hm : MainOff s f) :
    Inv (s.setFiber f fun x => { x with result := some r, wait := none, watchers := [] }) ts none where
  flow := h.flow.setFiber (by simp) (by simp)
  passing := { h.passing with }
  members := h.members.finishRoot hf hs hb hm
  closing := fun hc => (h.closing hc).setFiber rfl
  targets := fun hc ha => (h.targets hc ha).setFiber rfl rfl rfl rfl (by simp) (fun _ h => h)

/-- A child of the scope ended, and the scope knows. -/
theorem childGone (h : Inv s ts none) (hot : Option ScopeId) {r : Result} {k : Scope → Scope} (hf : f < s.nextFiber)
    (hs : (s.fiber f).scope = some i) (hr : (s.fiber f).result = none) (hb : f ∉ s.begins (ts ++ s.queue))
    (hm : MainOff s f) (hk : Members.Ended (s.scope i) (k (s.scope i)) r)
    (hrest : ∀ x, (k x).children = x.children.erase f ∧ (k x).bodyDone = x.bodyDone ∧ (k x).body = x.body ∧
      (k x).closer = x.closer ∧ (k x).exit = x.exit ∧ (x.first.isSome → (k x).first.isSome))
    (hhot : hot = some i ∨ hot = none ∧ (k (s.scope i)).first.isSome = (s.scope i).first.isSome) :
    Inv ((s.setFiber f fun x => { x with result := some r, wait := none, watchers := [] }).setScope i k) ts hot := by
  obtain ⟨kc, kd, ky, kw, kx, kf⟩ := hrest (s.scope i)
  have hflow := h.flow.setFiber (f := f) (k := fun x => { x with result := some r, wait := none, watchers := [] })
    (by simp) (by simp)
  exact {
    flow := hflow.setScope fun w hw => Or.inl (kw.symm.trans hw)
    passing := { h.passing with }
    members := h.members.finishChild hf hs hr hb hm hk kc kd ky
    closing := fun hc => by
      have hcl := (h.closing hc).setFiber (f := f)
        (k := fun x => { x with result := some r, wait := none, watchers := [] }) rfl
      refine hcl.setScope kw (fun _ _ _ hn => ?_) fun r' hx => ?_
      · exact kc.trans (by have hn : (s.scope i).children = [] := hn; simp [hn])
      · have he := (h.closing hc).exit i r' (kx ▸ hx)
        have hchild := (h.members.children i f).mpr ⟨hf, hs, hr⟩
        simp [he.children] at hchild
    targets := fun hc ha => by
      have ht := (h.targets hc ha).setFiber (f := f)
        (k := fun x => { x with result := some r, wait := none, watchers := [] }) rfl rfl rfl rfl (by simp) (fun _ h => h)
      obtain rfl | ⟨rfl, he⟩ := hhot
      · exact ht.failed hk.fiber hk.gen kf
      · exact ht.setScope hk.fiber hk.gen he kd (kc ▸ List.erase_subset) }

theorem wakeCloser (h : Inv s ts none) (hr : s.running = true) (current : Option FiberId) (i : ScopeId) :
    Inv (s.wakeCloser current i) ts none := by
  simp only [State.wakeCloser]
  split
  · next w hn hw =>
      obtain ⟨hs, hc⟩ := h.flow.closer i w hw
      have hp : (s.wait w).performs = false := by
        cases hp : (s.wait w).performs with
        | false => rfl
        | true => simp [h.flow.performs w hp] at hc
      have hi : i < s.nextScope := by
        refine Nat.lt_of_not_le fun hle => ?_
        simp [h.members.freshScope i hle] at hw
      have hflow := h.flow.setScope (i := i) (k := fun x => { x with closer := none }) (by simp)
      have hmem := h.members.setScope (k := fun x => { x with closer := none }) hi rfl
      have htar := fun hc ha => (h.targets hc ha).setScope (i := i) (k := fun x => { x with closer := none })
        rfl rfl rfl rfl (List.Subset.refl _)
      by_cases hl : s.live w = true
      · refine contTaken ?_ hl fun _ => hr
        exact {
          flow := hflow.unwait hl hs rfl
          passing := { h.passing.unwait hl hp (.next undef) with }
          members := (hmem.unwait hflow hs).cons rfl
          closing := fun hn' => (h.closing hn').wake h.flow hw hn
          targets := fun hn' ha => ((htar hn' ha).unwait w).cons (by simp) }
      · have he : State.cont (s.setScope i fun x => { x with closer := none }) current w (.next undef) =
            s.setScope i fun x => { x with closer := none } := by
          simp only [State.cont]
          exact if_neg hl
        rw [he]
        exact {
          flow := hflow
          passing := { h.passing with }
          members := hmem
          closing := fun hn' => absurd ((h.closing hn').closer i w hw).1 hl
          targets := htar }
  · exact h

/-- The scope of a fiber learns that it ended. -/
theorem childEnded (h : Inv s ts none) (hrun : s.running = true) {r : Result} (hf : f < s.nextFiber)
    (hs : (s.fiber f).scope = some i) (hr : (s.fiber f).result = none) (hb : f ∉ s.begins (ts ++ s.queue))
    (hm : MainOff s f) {l : List (WaitId × Input)} (hl : ∀ p ∈ l, Parked s p.1) :
    Inv (State.childEnded (State.pushAct (s.setFiber f fun x => { x with result := some r, wait := none, watchers := [] })
      (.wakes current l)) current i f r) ts none := by
  have hi := h.members.fiberScope f i hs
  have herase : Members.Alike (s.scope i) { s.scope i with children := (s.scope i).children.erase f } := by
    constructor <;> simp
  simp only [State.childEnded, State.memberEnded]
  cases hc : failureOf r with
  | none =>
      have h1 := h.childGone none hf hs hr hb hm (k := fun x => { x with children := x.children.erase f })
        (h.members.ended_none herase hc) (fun _ => ⟨rfl, rfl, rfl, rfl, rfl, id⟩) (Or.inr ⟨rfl, rfl⟩)
      exact (h1.pushWakes current (Or.inl hrun) hl).wakeCloser hrun current i
  | some c =>
      have hk := fun hot hhot => h.childGone hot hf hs hr hb hm
        (k := fun x => { x with children := x.children.erase f }.failed c)
        (h.members.ended_failed herase hc)
        (fun x => by
          obtain ⟨-, -, h3, h4, h5, h6, h7, -, h9, -⟩ := Scope.failed_rest { x with children := x.children.erase f } c
          exact ⟨h3, h4, h5, h6, h7, fun _ => h9⟩) hhot
      have hfirst := (Scope.failed_rest { s.scope i with children := (s.scope i).children.erase f } c).2.2.2.2.2.2.2.2.1
      have hsame : (State.setScope (State.pushAct
          (s.setFiber f fun x => { x with result := some r, wait := none, watchers := [] }) (.wakes current l)) i
          fun x => { x with children := x.children.erase f }).scope i =
          { s.scope i with children := (s.scope i).children.erase f } := by
        simp [State.setScope, State.pushAct, State.setFiber]
      simp only [State.scopeFailed, hsame, State.setScope_setScope]
      split
      · next hlater =>
          have h1 := hk none (Or.inr ⟨rfl, hfirst.trans hlater.symm⟩)
          exact (h1.pushWakes current (Or.inl hrun) hl).wakeCloser hrun current i
      · have h1 := (hk (some i) (Or.inl rfl)).pushWakes current (Or.inl hrun) hl
        obtain ⟨h2, hrun2⟩ := h1.interruptMembers hrun hi (by simpa [State.setScope, State.pushAct, State.setFiber] using hfirst)
        exact h2.wakeCloser hrun2 current i

theorem rootEnded (h : Inv s ts hot) (r : Result) : Inv (s.rootEnded r) ts hot := by
  simp only [State.rootEnded]
  split <;> exact h.rootFinish _

theorem fiberFinish (h : Inv s ts none) (hrun : s.running = true) (hf : f < s.nextFiber)
    (hb : f ∉ s.begins (ts ++ s.queue)) (hm : MainOff s f) (current : Option FiberId) (r : Result) :
    Inv (s.fiberFinish current f r) ts none := by
  simp only [State.fiberFinish]
  split
  · exact h
  · next hr =>
      split
      · next hs => exact (h.rootGone hf hs hb hm).rootEnded r
      · next i hs =>
          refine h.childEnded hrun hf hs (by simpa using hr) hb hm fun p hp => ?_
          obtain ⟨u, hu, rfl⟩ := List.mem_map.mp hp
          exact h.flow.watchers f u hu

end Inv
end Emela.Runtime
