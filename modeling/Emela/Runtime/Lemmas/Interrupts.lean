import Emela.Runtime.Lemmas.Passing
import Emela.Runtime.Lemmas.Targets

/-!
# Interruptions keep the invariant

`Inv s ts hot` puts the parts together, for a state `s` and tasks `ts` that are about to be queued or run.
-/

namespace Emela.Runtime

structure Inv (s : State) (ts : List Task) (hot : Option ScopeId) : Prop where
  flow : Flow s (ts ++ s.queue)
  passing : Passing s (ts ++ s.queue)
  members : Members s (ts ++ s.queue)
  closing : s.cut = false → Closing s (ts ++ s.queue)
  targets : s.cut = false → s.astray = false → Targets s (ts ++ s.queue) hot

/-- What an interruption does not change: it only takes back continuations that wait. -/
structure Kept (s s' : State) : Prop where
  scope : s'.scope = s.scope
  frames : s'.frames = s.frames
  fiberOf : s'.fiberOf = s.fiberOf
  wait : s'.wait = s.wait
  op : s'.op = s.op
  suspended : s'.suspended = s.suspended
  received : s'.received = s.received
  isOver : s'.isOver = s.isOver
  sync : s'.sync = s.sync
  deferred : s'.deferred = s.deferred
  nextWait : s'.nextWait = s.nextWait
  nextGen : s'.nextGen = s.nextGen
  nextScope : s'.nextScope = s.nextScope
  nextFiber : s'.nextFiber = s.nextFiber
  astray : s'.astray = s.astray
  running : s.running = true → s'.running = true
  stack : s.running = true → s'.stack = s.stack
  live : ∀ w, s.suspended w = false → s'.live w = s.live w
  fiberScope : ∀ f, (s'.fiber f).scope = (s.fiber f).scope
  result : ∀ f, (s'.fiber f).result = (s.fiber f).result
  main : ∀ f, (s'.fiber f).main = (s.fiber f).main
  holds : ∀ f, (s'.fiber f).holds = (s.fiber f).holds
  asked : ∀ f, (s.fiber f).asked → (s'.fiber f).asked
  pending : ∀ f, ∀ t ∈ (s.fiber f).pending, t ∈ (s'.fiber f).pending
  unwinds : ∀ f, (s'.fiber f).unwinds = (s.fiber f).unwinds
  cut : s.cut = true → s'.cut = true

variable {s s' s'' : State} {ts : List Task} {w : WaitId} {t : Task} {hot : Option ScopeId}

namespace Kept

theorem refl (s : State) : Kept s s := by constructor <;> simp

theorem trans (h : Kept s s') (h' : Kept s' s'') : Kept s s'' where
  scope := h'.scope.trans h.scope
  frames := h'.frames.trans h.frames
  fiberOf := h'.fiberOf.trans h.fiberOf
  wait := h'.wait.trans h.wait
  op := h'.op.trans h.op
  suspended := h'.suspended.trans h.suspended
  received := h'.received.trans h.received
  isOver := h'.isOver.trans h.isOver
  sync := h'.sync.trans h.sync
  deferred := h'.deferred.trans h.deferred
  nextWait := h'.nextWait.trans h.nextWait
  nextGen := h'.nextGen.trans h.nextGen
  nextScope := h'.nextScope.trans h.nextScope
  nextFiber := h'.nextFiber.trans h.nextFiber
  astray := h'.astray.trans h.astray
  running := fun hr => h'.running (h.running hr)
  stack := fun hr => (h'.stack (h.running hr)).trans (h.stack hr)
  live := fun w hw => (h'.live w (h.suspended ▸ hw)).trans (h.live w hw)
  fiberScope := fun f => (h'.fiberScope f).trans (h.fiberScope f)
  result := fun f => (h'.result f).trans (h.result f)
  main := fun f => (h'.main f).trans (h.main f)
  holds := fun f => (h'.holds f).trans (h.holds f)
  asked := fun f ha => h'.asked f (h.asked f ha)
  pending := fun f t ht => h'.pending f t (h.pending f t ht)
  unwinds := fun f => (h'.unwinds f).trans (h.unwinds f)
  cut := fun hc => h'.cut (h.cut hc)

theorem unwait (hw : s.suspended w) : Kept s (s.unwait w) := by
  constructor <;> dsimp only [State.unwait] <;> grind [Function.update_apply]

theorem schedule (s : State) (t : Task) : Kept s (s.schedule t) := by
  constructor <;> simp [State.schedule]

theorem enqueue (s : State) (t : Task) : Kept s (s.enqueue t) := by
  constructor <;> simp [State.enqueue]

theorem drop_one (hw : s.suspended w) :
    Kept s { s.unwait w with dropped := Function.update s.dropped w true } :=
  { unwait hw with }

theorem setCut (s : State) (b : Bool) : Kept s { s with cut := s.cut || b } := by
  constructor <;> simp_all

theorem ask (s : State) (f : FiberId) (target : Option ScopeId) : Kept s (s.setFiber f (·.ask target)) := by
  constructor <;> dsimp only [State.setFiber, Fiber.ask] <;> grind [Function.update_apply]

end Kept

/-! ## Tasks -/

namespace Inv

theorem schedule (h : Inv s (t :: ts) hot) : Inv (s.schedule t) ts hot := by
  have hp : ((t :: ts) ++ s.queue).Perm (ts ++ (s.schedule t).queue) := by
    simp only [State.schedule, List.cons_append]
    rw [← List.append_assoc]
    exact (List.perm_append_singleton t (ts ++ s.queue)).symm
  exact {
    flow := (h.flow.perm hp).schedule t
    passing := { h.passing.subset hp.symm.subset with }
    members := (h.members.perm hp).schedule t
    closing := fun hc => ((h.closing hc).subset hp.symm.subset).schedule t
    targets := fun hc ha => { (h.targets hc ha).subset hp.symm.subset with } }

theorem enqueue (h : Inv s (t :: ts) hot) : Inv (s.enqueue t) ts hot := by
  have hp : ((t :: ts) ++ s.queue).Perm (ts ++ (s.enqueue t).queue) := by
    simp only [State.enqueue, List.cons_append]
    rw [← List.append_assoc]
    exact (List.perm_append_singleton t (ts ++ s.queue)).symm
  exact {
    flow := (h.flow.perm hp).enqueue t
    passing := { h.passing.subset hp.symm.subset with }
    members := { h.members.perm hp with }
    closing := fun hc => { (h.closing hc).subset hp.symm.subset with }
    targets := fun hc ha => { (h.targets hc ha).subset hp.symm.subset with } }

/-- A continuation is taken back to be interrupted by the task. -/
structure Drops (s : State) (w : WaitId) (t : Task) : Prop where
  wait : t.wait = some w
  begin : t.begin? = none
  resume : ∀ v inp, t ≠ .resume v inp
  closing : s.cut = false → (s.wait w).closing = false
  targets : s.cut = false → s.astray = false → ∀ v, t = .interrupted v ∨ t = .unwind v ∧ (s.wait v).ends = .main →
    (s.wait v).ends = .main ∧ (s.fiber (s.wait v).fiber).Interrupted

theorem drop_one (h : Inv s ts hot) (hl : s.live w) (hs : s.suspended w) (ht : Drops s w t) :
    Inv { s.unwait w with dropped := Function.update s.dropped w true } (t :: ts) hot where
  flow := { h.flow.unwait hl hs ht.wait with }
  passing := h.passing.drop h.flow hl hs ht.wait ht.resume
  members := { (h.members.unwait h.flow hs).cons ht.begin with }
  closing := fun hc => { (h.closing hc).unwait h.flow (ht.closing hc) ht.wait with }
  targets := fun hc ha => by
    have hu := ((h.targets hc ha).unwait w)
    refine { hu.cons fun v hv => ?_ with }
    obtain ⟨he, hi⟩ := ht.targets hc ha v hv
    refine ⟨he, ?_⟩
    simp only [Fiber.Interrupted] at hi ⊢
    dsimp only [State.unwait]; grind [Function.update_apply]

/-- What `onDrop` drops is on record. -/
theorem setCut (h : Inv s ts hot) (b : Bool) : Inv { s with cut := s.cut || b } ts hot where
  flow := { h.flow with }
  passing := { h.passing with }
  members := { h.members with }
  closing := fun hc => { h.closing (Bool.or_eq_false_iff.mp hc).1 with }
  targets := fun hc ha => { h.targets (Bool.or_eq_false_iff.mp hc).1 ha with }

theorem dropFuel (n : Nat) : ∀ {s : State} {ts : List Task} {w : WaitId} {t : Task}, Inv s ts hot → s.live w →
    s.suspended w → s.nextWait ≤ n + w → Drops s w t →
    Inv (State.dropFuel n s w) (t :: ts) hot ∧ Kept s (State.dropFuel n s w) := by
  induction n with
  | zero =>
      intro s ts w t h _ hs hn _
      exact absurd (h.flow.lt hs) (Nat.not_lt.mpr (Nat.zero_add w ▸ hn))
  | succ n ih =>
      intro s ts w t h hl hs hn ht
      have h1 := h.drop_one hl hs ht
      have k1 := Kept.drop_one hs
      simp only [State.dropFuel]
      split
      · split
        · next v hv =>
            split
            · next hlive =>
                -- the implementation waits for a later request
                obtain ⟨hsv, hlt⟩ := h1.flow.waiting w v hv
                have h2 := h1.setCut ((s.wait v).closing)
                have hdrops : Drops { ({ s.unwait w with dropped := Function.update s.dropped w true } : State) with
                    cut := s.cut || (s.wait v).closing } v (.drop v) :=
                  { wait := rfl, begin := rfl, resume := by simp, targets := by simp
                    closing := fun hc => (Bool.or_eq_false_iff.mp hc).2 }
                have hfuel : s.nextWait ≤ n + v := by
                  have : w + 1 ≤ v := hlt
                  calc s.nextWait ≤ n + 1 + w := hn
                    _ = n + (w + 1) := by rw [Nat.add_assoc, Nat.add_comm 1 w]
                    _ ≤ n + v := Nat.add_le_add_left this n
                obtain ⟨h3, k3⟩ := ih h2 hlive hsv hfuel hdrops
                exact ⟨h3.enqueue, (k1.trans (Kept.setCut _ _)).trans (k3.trans (Kept.enqueue _ _))⟩
            · exact ⟨h1, k1⟩
        · exact ⟨h1, k1⟩
      · exact ⟨h1, k1⟩

theorem drop (h : Inv s ts hot) (hl : s.live w) (hs : s.suspended w) (ht : Drops s w t) :
    Inv (s.drop w) (t :: ts) hot ∧ Kept s (s.drop w) :=
  dropFuel s.nextWait h hl hs (Nat.le_add_right _ _) ht

/-! ## Fibers -/

/-- The interruption may be asked for. -/
def Asks (s : State) (f : FiberId) (target : Option ScopeId) : Prop :=
  ∀ i, target = some i → (s.scope i).fiber = f ∧ s.onMain i ∧ .body i ∈ s.frames (s.scope i).gen ∧
    (s.scope i).first.isSome

theorem ask (h : Inv s ts hot) {f : FiberId} {target : Option ScopeId} (hf : f < s.nextFiber)
    (ht : s.cut = false → s.astray = false → Asks s f target) : Inv (s.setFiber f (·.ask target)) ts hot where
  flow := h.flow.setFiber (fun _ h => h) (fun _ h => Or.inl h)
  passing := { h.passing with }
  members := h.members.setFiber hf rfl rfl rfl
  closing := fun hc => (h.closing hc).setFiber rfl
  targets := fun hc ha => by
    cases target with
    | none => exact (h.targets hc ha).askAll f
    | some i =>
        obtain ⟨rfl, hm, hb, hfirst⟩ := ht hc ha i rfl
        exact (h.targets hc ha).askBody hm hb hfirst

theorem drops_interrupted (h : Inv s ts hot) {f : FiberId} {target : Option ScopeId} (hh : (s.fiber f).holds = [])
    (hn : (s.fiber f).ignores target = false) (hl : s.live w) (hs : s.suspended w) (hwf : (s.wait w).fiber = f)
    (he : (s.wait w).ends = .main) : Drops (s.setFiber f (·.ask target)) w (.interrupted w) where
  wait := rfl
  begin := rfl
  resume := by simp
  closing := fun hc => by
    cases hcl : (s.wait w).closing with
    | false => exact hcl
    | true =>
        -- the scope that waits holds interruptions of the fiber off
        have := (h.closing hc).held (h.flow.live w hl hs) hcl
        rw [← h.flow.fiber w (h.flow.lt hs), hwf] at this
        exact absurd hh this
  targets := fun _ _ v hv => by
    obtain rfl : w = v := by simpa using hv
    refine ⟨he, ?_⟩
    simp only [State.setFiber, hwf, Function.update_self, Fiber.Interrupted, Fiber.ask, hn]
    cases target with
    | none => simp
    | some i => exact Or.inr (Or.inl ⟨i, by simp⟩)

theorem fiberInterrupt (h : Inv s ts hot) {f : FiberId} (target : Option ScopeId) (hf : f < s.nextFiber)
    (ht : s.cut = false → s.astray = false → Asks s f target) :
    Inv (s.fiberInterrupt f target) ts hot ∧ Kept (s.setFiber f (·.ask target)) (s.fiberInterrupt f target) := by
  have h1 := h.ask hf ht
  have k1 := Kept.refl (s.setFiber f (·.ask target))
  simp only [State.fiberInterrupt]
  split
  · exact ⟨h1, k1⟩
  · next hn =>
      simp only [Bool.or_eq_true, Bool.not_eq_true', not_or, Bool.not_eq_true, Bool.not_eq_false,
        List.isEmpty_iff] at hn
      cases hw : (s.fiber f).wait with
      | none => exact ⟨h1, k1⟩
      | some w =>
          dsimp only
          split
          · next hl =>
              obtain ⟨hs, hwf, he⟩ := h.flow.fiberWait f w hw
              obtain ⟨h2, k2⟩ := h1.drop hl hs (h.drops_interrupted hn.2 hn.1 hl hs hwf he)
              exact ⟨h2.schedule, k2.trans (Kept.schedule _ _)⟩
          · exact ⟨h1, k1⟩

/-- Each of the fibers is asked to unwind. -/
theorem interruptAll (l : List FiberId) : ∀ {s : State}, Inv s ts hot → (∀ f ∈ l, f < s.nextFiber) →
    Inv (s.interruptAll l) ts hot ∧ Kept s (s.interruptAll l) ∧ ∀ f ∈ l, ((s.interruptAll l).fiber f).asked := by
  induction l with
  | nil => exact fun h _ => ⟨h, Kept.refl _, by simp⟩
  | cons f l ih =>
      intro s h hl
      obtain ⟨h1, k1⟩ := h.fiberInterrupt none (hl f (by simp)) (fun _ _ i hi => by cases hi)
      have hasked : ((s.fiberInterrupt f none).fiber f).asked :=
        k1.asked f (by simp [State.setFiber, Fiber.ask])
      have k1 := (Kept.ask s f none).trans k1
      obtain ⟨h2, k2, ha⟩ := ih h1 (fun x hx => k1.nextFiber ▸ hl x (List.mem_cons_of_mem _ hx))
      refine ⟨h2, k1.trans k2, fun x hx => ?_⟩
      obtain rfl | hx := List.mem_cons.mp hx
      · exact k2.asked _ hasked
      · exact ha x hx

end Inv
end Emela.Runtime
