import Emela.Runtime.Lemmas.Cells

/-!
# When interruptions are delivered
-/

namespace Emela.Runtime

/-- The fiber whose continuation the step advances, when it can deliver an interruption. -/
def State.turn (s : State) : Event → Option FiberId
  | .tick =>
      match s.queue with
      | .go w :: _ | .resume w _ :: _ | .interrupted w :: _ | .drop w :: _ | .unwind w :: _ => some (s.wait w).fiber
      | _ => none
  | .yield _ => s.current
  | _ => none

/-- The continuation in which the step begins a release or a wait of a scope for its children. -/
def State.enters (s : State) : Event → Option GenId
  | .hold =>
      match s.stack with
      | .gen g _ :: _ => some g
      | _ => none
  | .leave _ =>
      match s.stack with
      | .gen g _ :: _ =>
          match s.frames g with
          | .body i :: _ => if (s.scope i).children.isEmpty then none else some g
          | _ => none
      | _ => none
  | _ => none

/-- The task is the throw of a `$Fiber.interrupt` of the fiber. -/
def State.throwsInto (s : State) (f : FiberId) : Task → Bool
  | .interrupted w => (s.wait w).fiber == f
  | _ => false

/-- No release and no wait for children begins in a fiber that a queued throw of `$Fiber.interrupt` is for. -/
def State.clear (s : State) (e : Event) : Bool :=
  match s.enters e with
  | some g => !s.queue.any (s.throwsInto (s.fiberOf g))
  | none => true

/-- The event unwinds the whole run. -/
def Event.stalls : Event → Bool
  | .stall => true
  | _ => false

/-- The run is not unwound as a whole, and its steps are clear. -/
def undisturbed : State → List Event → Bool
  | _, [] => true
  | s, e :: events =>
      !e.stalls && s.clear e && match s.exec e with
        | some s' => undisturbed s' events
        | none => true

/-- Of the interruptions pending for the fiber, the one of the whole fiber comes first, or else one of a scope with
the least depth. -/
def State.First (s : State) (f : FiberId) (t : Option ScopeId) : Prop :=
  (none ∈ (s.fiber f).pending → t = none) ∧
    ∀ i, t = some i → ∀ j, some j ∈ (s.fiber f).pending → (s.scope i).depth ≤ (s.scope j).depth

/-- An interruption is delivered to the fiber, which holds none off. -/
def State.Delivers (s s' : State) (f : FiberId) : Prop :=
  ∃ u, s'.unwound = s.unwound ++ [u] ∧ (s.fiber f).holds = [] ∧ s.First f u.target

variable {s s' s'' : State} {w : WaitId} {g : GenId} {ends : End} {inp : Input} {current : Option FiberId} {i : ScopeId}
  {f : FiberId} {d : DeferredId} {t : Task} {e : Event} {rest : List Act}

theorem not_interrupted_of_clear (h : s.clear e) (hg : s.enters e = some g) (hw : .interrupted w ∈ s.queue) :
    (s.wait w).fiber ≠ s.fiberOf g := by
  simp only [State.clear, hg, Bool.not_eq_true', List.any_eq_false] at h
  simpa [State.throwsInto] using h _ hw

/-! ## The order of interruptions -/

theorem outermost_le {depth : ScopeId → Nat} {l : List ScopeId} (h : outermost depth l = some i) {j : ScopeId}
    (hj : j ∈ l) : depth i ≤ depth j := by
  cases l with
  | nil => cases hj
  | cons k ks =>
      simp only [outermost, Option.some.injEq] at h
      have hfold : ∀ (l : List ScopeId) (k : ScopeId), ∀ x ∈ k :: l,
          depth (l.foldl (fun t u => if depth u < depth t then u else t) k) ≤ depth x := by
        intro l
        induction l with
        | nil => simp
        | cons y ys ih =>
            intro k x hx
            have h1 := ih (if depth y < depth k then y else k)
            simp only [List.foldl_cons, List.mem_cons] at h1 hx ⊢
            have h2 := h1 (if depth y < depth k then y else k) (Or.inl rfl)
            obtain rfl | rfl | hx := hx
            · split at h2 <;> grind
            · split at h2 <;> grind
            · exact h1 x (Or.inr hx)
      exact h ▸ hfold ks k j hj

theorem first_target (s : State) (f : FiberId) : s.First f (s.target f) := by
  simp only [State.First, State.target]
  refine ⟨fun hn => if_pos (by simp [hn]), fun i hi j hj => ?_⟩
  split at hi
  · cases hi
  · refine outermost_le hi ?_
    simp only [Fiber.targets, List.mem_append, List.mem_filterMap, id]
    exact Or.inl ⟨some j, hj, rfl⟩

theorem Fiber.owed_unwind {x : Fiber} {t u : Option ScopeId}
    (h : t ∈ x.pending ∨ x.unwinding ∨ ∃ i, t = some i ∧ i ∈ x.unwinds) :
    t ∈ (x.unwind u).pending ∨ (x.unwind u).unwinding ∨ ∃ i, t = some i ∧ i ∈ (x.unwind u).unwinds := by
  cases u with
  | none => exact Or.inr (Or.inl rfl)
  | some k =>
      simp only [Fiber.unwind]
      grind

/-! ## Delivering -/

theorem Keeps.deliver (s : State) (f : FiberId) (g : GenId) : Keeps s (s.deliver f g).2 := by
  obtain ⟨-, -, -, hs, hh, hw, -⟩ := Fiber.unwind_rest (s.fiber f) (s.target f)
  exact {
    wait := rfl
    holds := fun x => by dsimp only [State.deliver, State.setFiber]; grind [Function.update_apply]
    counts := fun h => by
      intro x k
      have := h x k
      dsimp only [State.deliver, State.setFiber]; grind [Function.update_apply]
    own := fun h => by
      intro x w
      have := h x w
      dsimp only [State.deliver, State.setFiber]; grind [Function.update_apply]
    older := fun h => by
      intro x j
      have := h x j
      dsimp only [State.deliver, State.setFiber]; grind [Function.update_apply]
    interrupted := fun _ w h => Or.inl h
    unwind := fun _ h => h
    owed := fun x t h => by
      by_cases hx : x = f
      · subst hx
        have hu := @Fiber.owed_unwind (s.fiber x) t (s.target x)
        simp only [State.Owed, State.deliver, State.setFiber, Function.update_self] at h ⊢
        have widen : ∀ {P Q : ScopeId → Prop}, (∃ i, t = some i ∧ P i) → ∃ i, t = some i ∧ (P i ∨ Q i) := by
          rintro P Q ⟨i, hi, h⟩
          exact ⟨i, hi, Or.inl h⟩
        obtain h | h | ⟨i, hi, h | h⟩ := h
        · exact (hu (Or.inl h)).imp_right (Or.imp_right widen)
        · exact (hu (Or.inr (Or.inl h))).imp_right (Or.imp_right widen)
        · exact (hu (Or.inr (Or.inr ⟨i, hi, h⟩))).imp_right (Or.imp_right widen)
        · exact Or.inr (Or.inr ⟨i, hi, Or.inr h⟩)
      · simpa only [State.Owed, State.deliver, State.setFiber, Function.update_of_ne hx] using h }

/-- A step of the fiber: an interruption may be delivered to it. -/
structure Turned (s s' : State) (f : FiberId) : Prop extends Keeps s s' where
  unwound : s'.unwound = s.unwound ∨ s.Delivers s' f

theorem Still.turned (h : Still s s') (f : FiberId) : Turned s s' f := { h.toKeeps with unwound := Or.inl h.unwound }

/-- An interruption is delivered, and the fiber goes on. -/
theorem Still.delivered (hh : (s.fiber f).holds = []) (h : Still (s.deliver f g).2 s') :
    Turned s s' f ∧ s.Delivers s' f := by
  have hd : s.Delivers s' f := ⟨_, h.unwound, hh, first_target s f⟩
  exact ⟨{ (Keeps.deliver s f g).trans h.toKeeps with unwound := Or.inr hd }, hd⟩

theorem Fiber.interrupting_holds {x : Fiber} (h : x.interrupting) : x.holds = [] := by
  simp only [Fiber.interrupting, Bool.and_eq_true, List.isEmpty_iff] at h
  exact h.1

namespace Turned

theorem fiberResume (s : State) (w : WaitId) (inp : Input) : Turned s (s.fiberResume w inp) (s.wait w).fiber := by
  simp only [State.fiberResume]
  split
  · split
    · next hi =>
        have h1 : Still s { s with overtaken := Function.update s.overtaken w true } :=
          Still.same rfl rfl rfl rfl rfl rfl rfl fun _ h => h
        have h2 := fun ends inp => (Still.delivered (s := { s with overtaken := Function.update s.overtaken w true })
          (g := (s.wait w).gen) (Fiber.interrupting_holds hi) (Still.continued _ w ends inp)).1
        exact { h1.toKeeps.trans (h2 _ _).toKeeps with unwound := (h2 _ _).unwound }
    · exact (Still.continued _ _ _ _).turned _
  · exact (Still.continued _ _ _ _).turned _

end Turned

/-! ## Interruptions queue throws for their fibers -/

theorem dropFuel_rest (n : Nat) : ∀ (s : State) (w : WaitId), (State.dropFuel n s w).scope = s.scope ∧
    (State.dropFuel n s w).wait = s.wait ∧
    (∀ f, ((State.dropFuel n s w).fiber f).holds = (s.fiber f).holds ∧
      ((State.dropFuel n s w).fiber f).pending = (s.fiber f).pending) ∧
    ∀ v, .interrupted v ∈ (State.dropFuel n s w).queue → .interrupted v ∈ s.queue := by
  have hone : ∀ (s : State) (w : WaitId) (f : FiberId), ((s.unwait w).fiber f).holds = (s.fiber f).holds ∧
      ((s.unwait w).fiber f).pending = (s.fiber f).pending := fun s w f => by
    dsimp only [State.unwait]; grind [Function.update_apply]
  induction n with
  | zero => exact fun s w => ⟨rfl, rfl, fun _ => ⟨rfl, rfl⟩, fun _ => id⟩
  | succ n ih =>
      intro s w
      have h1 := hone s w
      simp only [State.dropFuel]
      split
      · split
        · next v _ =>
            split
            · obtain ⟨h2, h3, h4, h5⟩ := ih { s.unwait w with
                dropped := Function.update s.dropped w true, cut := s.cut || ((s.unwait w).wait v).closing } v
              refine ⟨h2, h3, fun f => ⟨(h4 f).1.trans (h1 f).1, (h4 f).2.trans (h1 f).2⟩, fun x hx => ?_⟩
              simp only [State.enqueue, List.mem_append, List.mem_singleton, reduceCtorEq, or_false] at hx
              exact h5 x hx
            · exact ⟨rfl, rfl, h1, fun _ => id⟩
        · exact ⟨rfl, rfl, h1, fun _ => id⟩
      · exact ⟨rfl, rfl, h1, fun _ => id⟩

theorem fiberInterrupt_rest (s : State) (f : FiberId) (target : Option ScopeId) :
    (s.fiberInterrupt f target).scope = s.scope ∧ (s.fiberInterrupt f target).wait = s.wait ∧
    (∀ x, ((s.fiberInterrupt f target).fiber x).holds = (s.fiber x).holds ∧
      (s.fiber x).pending ⊆ ((s.fiberInterrupt f target).fiber x).pending) ∧
    ∀ v, .interrupted v ∈ (s.fiberInterrupt f target).queue → .interrupted v ∈ s.queue ∨ (s.fiber f).wait = some v := by
  have hone : ∀ x, ((s.setFiber f (·.ask target)).fiber x).holds = (s.fiber x).holds ∧
      (s.fiber x).pending ⊆ ((s.setFiber f (·.ask target)).fiber x).pending := fun x => by
    dsimp only [State.setFiber, Fiber.ask]; grind [Function.update_apply]
  simp only [State.fiberInterrupt]
  split
  · exact ⟨rfl, rfl, hone, fun _ => Or.inl⟩
  · split
    · next w hw =>
        split
        · obtain ⟨h2, h3, h4, h5⟩ := dropFuel_rest (s.setFiber f (·.ask target)).nextWait (s.setFiber f (·.ask target)) w
          refine ⟨h2, h3, fun x => ⟨(h4 x).1.trans (hone x).1, ?_⟩, fun v hv => ?_⟩
          · have hsub := (hone x).2
            rw [← (h4 x).2] at hsub
            exact hsub
          · simp only [State.schedule, List.mem_append, List.mem_singleton, Task.interrupted.injEq] at hv
            obtain hv | rfl := hv
            · exact Or.inl (h5 v hv)
            · exact Or.inr hw
        · exact ⟨rfl, rfl, hone, fun _ => Or.inl⟩
    · exact ⟨rfl, rfl, hone, fun _ => Or.inl⟩

theorem interruptAll_rest (l : List FiberId) : ∀ {s : State}, s.Own → (s.interruptAll l).scope = s.scope ∧
    (s.interruptAll l).wait = s.wait ∧
    ∀ v, .interrupted v ∈ (s.interruptAll l).queue → .interrupted v ∈ s.queue ∨ (s.wait v).fiber ∈ l := by
  induction l with
  | nil => exact fun _ => ⟨rfl, rfl, fun _ => Or.inl⟩
  | cons f l ih =>
      intro s ho
      obtain ⟨h1, h2, -, h3⟩ := fiberInterrupt_rest s f none
      obtain ⟨h4, h5, h6⟩ := ih ((Still.fiberInterrupt s f none).own ho)
      refine ⟨h4.trans h1, h5.trans h2, fun v hv => ?_⟩
      obtain hv | hv := h6 v hv
      · obtain hv | hv := h3 v hv
        · exact Or.inl hv
        · exact Or.inr (by simp [ho f v hv])
      · exact Or.inr (List.mem_cons_of_mem _ (h2 ▸ hv))

/-- The other members of a scope whose body is done are its children. -/
theorem memberEnded_rest (ho : s.Own) (hb : (s.scope i).bodyDone) (r : Result) :
    ((s.memberEnded i r).scope i).children = (s.scope i).children ∧ (s.memberEnded i r).wait = s.wait ∧
    ∀ v, .interrupted v ∈ (s.memberEnded i r).queue → .interrupted v ∈ s.queue ∨ (s.wait v).fiber ∈ (s.scope i).children := by
  simp only [State.memberEnded, State.scopeFailed, State.interruptMembers]
  split
  · next c _ =>
      have hc : ((s.setScope i (·.failed c)).scope i).children = (s.scope i).children ∧
          ((s.setScope i (·.failed c)).scope i).bodyDone = (s.scope i).bodyDone := by
        simp only [State.setScope, Function.update_self, Scope.failed]
        split <;> exact ⟨rfl, rfl⟩
      split
      · exact ⟨hc.1, rfl, fun _ => Or.inl⟩
      · obtain ⟨h1, h2, h3⟩ := interruptAll_rest ((s.setScope i (·.failed c)).scope i).children (s := s.setScope i (·.failed c)) ho
        rw [h1, if_pos (hc.2.trans hb)]
        exact ⟨(congrArg Scope.children (congrFun h1 i)).trans hc.1, h2, fun v hv => (h3 v hv).imp_right fun h => hc.1 ▸ h⟩
  · exact ⟨rfl, rfl, fun _ => Or.inl⟩

/-! ## Requests -/

/-- What happens before an interruption is delivered. -/
theorem State.Delivers.before (h : s'.Delivers s'' f) (hu : s'.unwound = s.unwound)
    (hh : (s'.fiber f).holds = (s.fiber f).holds) (hp : (s.fiber f).pending ⊆ (s'.fiber f).pending)
    (hs : s'.scope = s.scope) : s.Delivers s'' f := by
  obtain ⟨u, h1, h2, h3, h4⟩ := h
  exact ⟨u, hu ▸ h1, hh ▸ h2, fun hn => h3 (hp hn), fun i hi j hj => hs ▸ h4 i hi j (hp hj)⟩

namespace Turned

theorem before (h : Turned s' s'' f) (hst : Still s s') (hh : (s'.fiber f).holds = (s.fiber f).holds)
    (hp : (s.fiber f).pending ⊆ (s'.fiber f).pending) (hs : s'.scope = s.scope) : Turned s s'' f :=
  { hst.toKeeps.trans h.toKeeps with
    unwound := h.unwound.imp (fun hu => hu.trans hst.unwound) fun hd => hd.before hst.unwound hh hp hs }

theorem watch (s : State) (w : WaitId) (verb : Verb) (h : FiberId) :
    Turned s (s.request w (.watch verb h)) (s.fiberOf (s.wait w).gen) := by
  have h1 : Still s (if verb = .interrupt then s.fiberInterrupt h none else s) := by
    split
    · exact Still.fiberInterrupt _ _ _
    · exact Still.refl s
  dsimp only [State.request]
  split
  · exact (Still.reply _ _ _).turned _
  · split
    · next hv =>
        rw [if_pos hv.1] at h1 ⊢
        obtain ⟨hs, -, hf, -⟩ := fiberInterrupt_rest s h none
        split
        · next hh =>
            refine Turned.before (Still.delivered (List.isEmpty_iff.mp hh) (Still.reply _ _ _)).1 h1 ?_ ?_ hs
            · exact (hf _).1
            · exact (hf _).2
        · exact (h1.trans (Still.reply _ _ _)).turned _
    · split
      · exact (h1.trans (Still.reply _ _ _)).turned _
      · have h2 := h1.trans (Still.suspend _ w)
        exact (h2.trans (Still.setFiber rfl rfl (fun _ h => Or.inl h) (fun _ h => h) rfl rfl)).turned _

theorem request (s : State) (w : WaitId) (req : Request) : Turned s (s.request w req) (s.fiberOf (s.wait w).gen) := by
  have hsusp := Still.suspend s w
  cases req with
  | pause =>
      simp only [State.request]
      split
      · exact (Still.reply _ _ _).turned _
      · have h1 : Still s { s.suspend w with pauses := (s.suspend w).pauses + 1 } :=
          hsusp.trans (Still.same rfl rfl rfl rfl rfl rfl rfl fun _ h => h)
        split
        · refine (h1.trans ?_).turned _
          exact Still.same rfl rfl rfl rfl rfl rfl rfl fun _ h => h
        · exact (h1.trans (Still.enqueue _ (by simp))).turned _
  | await =>
      refine (hsusp.trans ?_).turned _
      exact Still.same rfl rfl rfl rfl rfl rfl rfl fun _ h => h
  | deferredAwait d =>
      simp only [State.request]
      split
      · exact (Still.reply _ _ _).turned _
      · split
        · exact (Still.reply _ _ _).turned _
        · exact { hsusp.toKeeps with unwound := Or.inl hsusp.unwound }
  | watch verb h => exact watch s w verb h
  | perform => exact (Still.pushAct _ _).turned _
  | close i =>
      simp only [State.request]
      split
      · exact (Still.reply _ _ _).turned _
      · exact (hsusp.trans (Still.setScope rfl id)).turned _

end Turned

/-! ## The invariant -/

/-- `holds` counts, no throw is queued for a fiber that holds interruptions off, and nothing unwinds the whole run. -/
structure Calm (s : State) : Prop where
  counts : s.Counts
  own : s.Own
  older : s.Older
  queued : ∀ w, .interrupted w ∈ s.queue → (s.fiber (s.wait w).fiber).holds = []
  unwind : ∀ w, .unwind w ∉ s.queue

/-- What a step of the fiber `o` keeps. -/
structure Stepped (s s' : State) (o : Option FiberId) : Prop where
  calm : Calm s'
  owed : ∀ f t, s.Owed f t → s'.Owed f t
  unwound : s'.unwound = s.unwound ∨ ∃ f, o = some f ∧ s.Delivers s' f

namespace Calm

theorem keeps (h : Calm s) (k : Keeps s s') : Calm s' where
  counts := k.counts h.counts
  own := k.own h.own
  older := k.older h.older
  queued := fun w hw => by
    obtain hw | hw := k.interrupted h.own w hw
    · exact k.holds _ (k.wait ▸ h.queued w hw)
    · exact k.wait ▸ hw
  unwind := fun w hw => h.unwind w (k.unwind w hw)

theorem still (h : Calm s) (k : Still s s') (o : Option FiberId) : Stepped s s' o :=
  ⟨h.keeps k.toKeeps, k.owed, Or.inl k.unwound⟩

theorem turned (h : Calm s) (k : Turned s s' f) : Stepped s s' (some f) :=
  ⟨h.keeps k.toKeeps, k.owed, k.unwound.imp_right fun hd => ⟨f, rfl, hd⟩⟩

theorem newWait (h : Calm s) (hi : Flow s s.queue) (g : GenId) (ends : End) (closing performs : Bool) :
    Calm (s.newWait g ends closing performs) := by
  have hlt : ∀ {w}, s.suspended w → w ≠ s.nextWait := fun hw => Nat.ne_of_lt (hi.lt hw)
  refine { h with own := fun f w hw => ?_, queued := fun w hw => ?_ }
  · have hne := hlt (hi.fiberWait f w hw).1
    simp only [State.newWait, Function.update_of_ne hne]
    exact h.own f w hw
  · have hne := hlt (hi.taken _ hw w rfl).2.1
    simp only [State.newWait, Function.update_of_ne hne]
    exact h.queued w hw

theorem yield (h : Calm s) (hi : Flow s s.queue) (g : GenId) (ends : End) (req : Request) :
    Stepped s (s.yield g ends req) (some (s.fiberOf g)) := by
  simp only [State.yield]
  split
  · next hint => exact h.turned (Still.delivered (Fiber.interrupting_holds hint.2) (Still.loop _ _ _)).1
  · have h1 := Turned.request (s.newWait g ends req.closing req.performs) s.nextWait req
    have hg : ((s.newWait g ends req.closing req.performs).wait s.nextWait).gen = g := by simp [State.newWait]
    rw [hg] at h1
    have h2 := (h.newWait hi g ends req.closing req.performs).turned h1
    exact ⟨h2.calm, h2.owed, h2.unwound⟩

end Calm

/-! ## Scopes that end -/

/-- The body of the scope is left. -/
theorem Still.leaveBody {more : List Frame} {k : Scope → Scope} (hfr : s.frames g = .body i :: more)
    (hk : (k (s.scope i)).fiber = (s.scope i).fiber ∧ (k (s.scope i)).bodyDone) :
    Still s (((s.setFiber (s.fiberOf g) (·.leaveScope i)).setFrames g more).setScope i k) where
  cells := rfl
  unwound := rfl
  wait := rfl
  holds := fun x => by
    dsimp only [State.setScope, State.setFrames, State.setFiber, Fiber.leaveScope]; grind [Function.update_apply]
  counts := fun h => by
    intro x l
    have hx := h x l
    have hg : ((Frame.body i) :: more).countP Frame.holds = more.countP Frame.holds := List.countP_cons_of_neg (by simp [Frame.holds])
    dsimp only [State.setScope, State.setFrames, State.setFiber, Fiber.leaveScope]; grind [Function.update_apply]
  own := fun h => by
    intro x w
    have := h x w
    dsimp only [State.setScope, State.setFrames, State.setFiber, Fiber.leaveScope]; grind [Function.update_apply]
  older := fun h => by
    intro x j
    have := h x j
    dsimp only [State.setScope, State.setFrames, State.setFiber, Fiber.leaveScope]; grind [Function.update_apply]
  interrupted := fun _ w h => Or.inl h
  unwind := fun _ h => h
  owed := fun x t h => by
    simp only [State.Owed] at h ⊢
    dsimp only [State.setScope, State.setFrames, State.setFiber, Fiber.leaveScope]
    by_cases ht : t = some i
    · exact Or.inr (Or.inr ⟨i, ht, Or.inr (by simp [hk.2])⟩)
    · grind [Function.update_apply]

namespace Calm

/-- The scope waits for its children. -/
theorem enterClosing (h : Calm s) {fr : Frame} (hfr : fr.holds)
    (hq : ∀ w, .interrupted w ∈ s.queue → (s.wait w).fiber ≠ s.fiberOf g) :
    Calm ((s.setFiber (s.fiberOf g) fun x => { x with holds := g :: x.holds }).setFrames g (fr :: s.frames g)) where
  counts := by
    intro x l
    have hx := h.counts x l
    have hg : (fr :: s.frames g).countP Frame.holds = (s.frames g).countP Frame.holds + 1 := List.countP_cons_of_pos hfr
    dsimp only [State.setFrames, State.setFiber]; grind [Function.update_apply]
  own := by
    intro x w
    have := h.own x w
    dsimp only [State.setFrames, State.setFiber]; grind [Function.update_apply]
  older := by
    intro x j
    have := h.older x j
    dsimp only [State.setFrames, State.setFiber]; grind [Function.update_apply]
  queued := fun w hw => by
    simp only [State.setFrames, State.setFiber, Function.update_of_ne (hq w hw)]
    exact h.queued w hw
  unwind := h.unwind

theorem scopeEnd (h : Calm s) (hi : Inv s [] none) (hs : s.stack = .gen g ends :: rest) {more : List Frame}
    (hfr : s.frames g = .body i :: more) (r : Result)
    (hq : (s.scope i).children ≠ [] → ∀ w, .interrupted w ∈ s.queue → (s.wait w).fiber ≠ s.fiberOf g)
    (o : Option FiberId) : Stepped s (s.scopeEnd g ends i r more) o := by
  obtain ⟨s1, hs1, hi2, hd2, hof2⟩ := hi.bodyLeft hs hfr r
  have k0 := Still.leaveBody (k := fun x => { x with bodyDone := true, closed := true, body := some r }) hfr ⟨rfl, rfl⟩
  have k1 := k0.trans (Still.memberEnded _ i r)
  obtain ⟨hch, hw1, hq1⟩ := memberEnded_rest (k0.own h.own) (i := i) (by simp [State.setScope]) r
  simp only [State.scopeEnd]
  rw [hs1] at hch hw1 hq1 k1 ⊢
  have k2 := k1.trans (Still.interruptAll (s1.scope i).children s1)
  obtain ⟨hsc, hw2, hq2⟩ := interruptAll_rest (s1.scope i).children (k1.own h.own)
  have h2 := h.keeps k2.toKeeps
  split
  · exact h.still (k2.trans (Still.setScope rfl id)) o
  · next hn =>
      have hchildren : ((s1.interruptAll (s1.scope i).children).scope i).children = (s.scope i).children := by
        rw [hsc, hch]
        simp [State.setScope, State.setFrames, State.setFiber]
      simp only [hchildren, List.isEmpty_iff] at hn
      -- only children were interrupted, and the fiber is older than them
      have hchild : ∀ f ∈ (s.scope i).children, f ≠ s.fiberOf g := by
        obtain ⟨rfl, hlt, -⟩ := hi.members.bodies g i (by simp [hfr])
        rintro f hf rfl
        have hold := h.older _ _ ((hi.members.children i _).mp hf).2.1
        rw [(hi.members.scopeFiber i hlt).2] at hold
        exact Nat.lt_irrefl _ hold
      generalize s1.interruptAll (s1.scope i).children = s2 at hi2 hd2 hof2 k2 hsc hw2 hq2 h2 hchildren ⊢
      have hne : ∀ w, .interrupted w ∈ s2.queue → (s2.wait w).fiber ≠ s2.fiberOf g := by
        intro w hw
        rw [hof2, hw2, hw1]
        obtain hw | hw := hq2 w hw
        · obtain hw | hw := hq1 w hw
          · exact hq hn w hw
          · exact hchild _ (by simpa [State.setScope, State.setFrames, State.setFiber] using hw)
        · rw [hch, hw1] at hw
          exact hchild _ (by simpa [State.setScope, State.setFrames, State.setFiber] using hw)
      have hfr : (Frame.closing i r).holds := rfl
      have h3 := h2.enterClosing hfr hne
      have hg : g ∈ s.stack.filterMap Act.gen? := by simp [hs, Act.gen?]
      have hflow : Flow s2 s2.queue := hi2.flow
      obtain ⟨rest', hs2⟩ := hd2.stack
      have hlt := (hflow.running g (by simp [hs2, Act.gen?])).2
      have hflow2 := (hflow.setFiber (f := s2.fiberOf g) (k := fun x => { x with holds := g :: x.holds }) (fun _ h => h)
        (fun _ h => Or.inl h)).setFrames hlt (.closing i r :: s2.frames g)
      have h4 := h3.yield hflow2 g ends (.close i)
      rw [hd2.frames, hof2] at h4
      refine ⟨h4.calm, fun f t ht => h4.owed f t ?_, Or.inl ?_⟩
      · have hkeep := k2.owed f t ht
        simp only [State.Owed, State.setFrames, State.setFiber] at hkeep ⊢
        grind [Function.update_apply]
      · obtain hu | ⟨f, hf, u, -, hhold, -⟩ := h4.unwound
        · exact hu.trans k2.unwound
        · -- the fiber holds interruptions off
          cases hf
          simp [State.setFrames, State.setFiber, hof2] at hhold

end Calm

namespace Still

/-- A generator that was not there runs nothing. -/
theorem newGen (hi : Inv s [] none) (f : FiberId) : Still s (s.newGen f).2 := by
  have hfr := (hi.flow.freshGen s.nextGen (Nat.le_refl _)).2
  exact {
    cells := rfl
    unwound := rfl
    wait := rfl
    holds := fun _ => id
    counts := fun h => by
      intro x l
      have := h x l
      dsimp only [State.newGen]; grind [Function.update_apply]
    own := id
    older := id
    interrupted := fun _ _ => Or.inl
    unwind := fun _ => id
    owed := fun _ _ => id }

theorem scopeBegin (hi : Inv s [] none) (g : GenId) : Still s (s.scopeBegin g) := by
  have hscope := hi.members.freshScope s.nextScope (Nat.le_refl _)
  have hlt := hi.members.fiberScope
  have hg : (Frame.body s.nextScope :: s.frames g).countP Frame.holds = (s.frames g).countP Frame.holds :=
    List.countP_cons_of_neg (by simp [Frame.holds])
  exact {
    cells := rfl
    unwound := rfl
    wait := rfl
    holds := fun x => by dsimp only [State.scopeBegin, State.setFrames, State.setFiber]; grind [Function.update_apply]
    counts := fun h => by
      intro x l
      have := h x l
      dsimp only [State.scopeBegin, State.setFrames, State.setFiber]; grind [Function.update_apply]
    own := fun h => by
      intro x w
      have := h x w
      dsimp only [State.scopeBegin, State.setFrames, State.setFiber]; grind [Function.update_apply]
    older := fun h => by
      intro x j
      have := h x j
      have := hlt x j
      dsimp only [State.scopeBegin, State.setFrames, State.setFiber]; grind [Function.update_apply]
    interrupted := fun _ _ => Or.inl
    unwind := fun _ => id
    owed := fun x t h => by
      simp only [State.Owed] at h ⊢
      dsimp only [State.scopeBegin, State.setFrames, State.setFiber]; grind [Function.update_apply] }

theorem fork (hi : Inv s [] none) (hlt : i < s.nextScope) : Still s (((s.fork i).map Prod.snd).getD s) := by
  have hfiber := hi.members.freshFiber s.nextFiber (Nat.le_refl _)
  have hscope := hi.members.scopeFiber_lt hlt
  simp only [State.fork]
  split
  · exact refl s
  · have h1 : Still s { s with
        nextFiber := s.nextFiber + 1, fiber := Function.update s.fiber s.nextFiber { scope := some i } } :=
      { cells := rfl
        unwound := rfl
        wait := rfl
        holds := fun x => by dsimp only; grind [Function.update_apply]
        counts := fun h => by
          intro x l
          have := h x l
          dsimp only; grind [Function.update_apply]
        own := fun h => by
          intro x w
          have := h x w
          dsimp only; grind [Function.update_apply]
        older := fun h => by
          intro x j
          have := h x j
          dsimp only; grind [Function.update_apply]
        interrupted := fun _ _ => Or.inl
        unwind := fun _ => id
        owed := fun x t h => by
          simp only [State.Owed] at h ⊢
          grind [Function.update_apply] }
    exact h1.trans ((setScope rfl id).trans (schedule _ (by simp)))

end Still

namespace Calm

/-! ## Steps -/

theorem runTask (hn : ∀ w, t ≠ .unwind w)
    (hh : ∀ w, t = .interrupted w → (s.fiber (s.wait w).fiber).holds = []) :
    Keeps s (s.runTask t) ∧ ((s.runTask t).unwound = s.unwound ∨
      ∃ w, (t = .go w ∨ t.wait = some w) ∧ s.Delivers (s.runTask t) (s.wait w).fiber) := by
  have hof : ∀ w, t = .go w ∨ t.wait = some w → Turned s (s.runTask t) (s.wait w).fiber →
      Keeps s (s.runTask t) ∧ ((s.runTask t).unwound = s.unwound ∨
        ∃ w, (t = .go w ∨ t.wait = some w) ∧ s.Delivers (s.runTask t) (s.wait w).fiber) :=
    fun w hw k => ⟨k.toKeeps, k.unwound.imp_right fun hd => ⟨w, hw, hd⟩⟩
  cases t with
  | begin f =>
      have k : Still s (s.runTask (.begin f)) := by
        simp only [State.runTask]
        split
        · exact Still.fiberFinish _ _ _ _
        · exact Still.pushAct _ _
      exact ⟨k.toKeeps, Or.inl k.unwound⟩
  | go w =>
      refine hof w (Or.inl rfl) ?_
      simp only [State.runTask]
      split
      · apply (Turned.fiberResume (s.unwait w) w _).before (Still.unwait s w)
        · simp [State.unwait]
        · simp [State.unwait]
        · rfl
      · exact (Still.refl s).turned _
  | resume w inp => exact hof w (Or.inr rfl) (Turned.fiberResume s w inp)
  | interrupted w => exact hof w (Or.inr rfl) (Still.delivered (hh w rfl) (Still.continued _ _ _ _)).1
  | drop w => exact hof w (Or.inr rfl) ((Still.continued _ _ _ _).turned _)
  | unwind w => exact absurd rfl (hn w)

theorem tick (h : Calm s) (hs : s.tick = some s') : Stepped s s' (s.turn .tick) := by
  simp only [State.tick] at hs
  split at hs
  · split at hs
    · next t queue _ hq =>
        obtain rfl := Option.some.inj hs
        have k : Still s { s with queue := queue } :=
          Still.same rfl rfl rfl rfl rfl rfl rfl fun t ht => by simp [hq, ht]
        have h1 := h.keeps k.toKeeps
        obtain ⟨k1, hu⟩ := runTask (s := { s with queue := queue }) (t := t) (fun w he => h.unwind w (by simp [hq, he])) fun w he =>
          h.queued w (by simp [hq, he])
        refine ⟨h1.keeps k1, fun f t ht => k1.owed f t (k.owed f t ht), hu.imp_right ?_⟩
        rintro ⟨w, hw, hd⟩
        refine ⟨(s.wait w).fiber, ?_, hd⟩
        simp only [State.turn, hq]
        obtain rfl | hw := hw
        · rfl
        · cases t <;> cases hw <;> rfl
    · obtain rfl := Option.some.inj hs
      refine h.still ?_ _
      exact Still.same rfl rfl rfl rfl rfl rfl rfl fun _ h => h
  · obtain rfl := Option.some.inj hs
    exact h.still (Still.performed _ _) _
  · obtain rfl := Option.some.inj hs
    refine h.still ?_ _
    exact Still.same rfl rfl rfl rfl rfl rfl rfl fun _ h => h
  · obtain rfl := Option.some.inj hs
    refine h.still (Still.trans ?_ (Still.cont _ _ _ _)) _
    exact Still.same rfl rfl rfl rfl rfl rfl rfl fun _ h => h
  · cases hs

theorem leave (h : Calm s) (hi : Inv s [] none) {r : Result} (hc : s.clear (.leave r)) (hs : s.leave r = some s') :
    Stepped s s' none := by
  have hpop : ∀ stack, Still s { s with stack := stack } := fun _ =>
    Still.same rfl rfl rfl rfl rfl rfl rfl fun _ h => h
  simp only [State.leave] at hs
  split at hs
  · next g ends rest hstack =>
      split at hs
      · obtain rfl := Option.some.inj hs
        exact h.still ((hpop _).trans (Still.ended _ _ _ _)) _
      · next i frames hfr =>
          obtain rfl := Option.some.inj hs
          refine h.scopeEnd hi hstack hfr r (fun hn w hw => not_interrupted_of_clear hc ?_ hw) _
          simp [State.enters, hstack, hfr, hn]
      · cases hs
  · cases r with
    | ok v =>
        obtain rfl := Option.some.inj hs
        exact h.still ((hpop _).trans (Still.fiberFinish _ _ _ _)) _
    | error e =>
        obtain rfl := Option.some.inj hs
        exact h.still ((hpop _).trans (Still.fiberFinish _ _ _ _)) _
  · obtain rfl := Option.some.inj hs
    exact h.still ((hpop _).trans (Still.settled _ _ _ _)) _
  · cases hs

theorem leaveGen (h : Calm s) (hi : Inv s [] none) (hs : s.leaveGen = some s') : Stepped s s' none := by
  simp only [State.leaveGen] at hs
  split at hs
  · next f rest hstack =>
      obtain rfl := Option.some.inj hs
      have h1 := Still.newGen (hi.pop hstack) f
      have h2 : Still s { s with stack := rest } := Still.same rfl rfl rfl rfl rfl rfl rfl fun _ h => h
      have h3 := h2.trans h1
      refine h.still (h3.trans (Still.trans ?_ (Still.enter _ _ _ _))) _
      exact Still.setFiber rfl rfl (fun _ h => Or.inl h) (fun _ h => h) rfl rfl
  · next w rest hstack =>
      obtain rfl := Option.some.inj hs
      have h1 := Still.newGen (hi.returned hstack) (s.wait w).fiber
      have h2 : Still s { s with stack := .opEnd w :: rest } := Still.same rfl rfl rfl rfl rfl rfl rfl fun _ h => h
      have h3 := h2.trans h1
      refine h.still (h3.trans (Still.trans ?_ (Still.enter _ _ _ _))) _
      exact Still.same rfl rfl rfl rfl rfl rfl rfl fun _ h => h
  · cases hs

theorem exec (h : Calm s) (hi : Inv s [] none) (hn : e.stalls = false) (hc : s.clear e) (hs : s.exec e = some s') :
    Stepped s s' (s.turn e) := by
  cases e with
  | tick => exact h.tick hs
  | settle w inp =>
      simp only [State.exec, Option.ite_none_right_eq_some] at hs
      obtain rfl := Option.some.inj hs.2
      refine h.still (Still.trans ?_ (Still.cont _ _ _ _)) _
      exact Still.same rfl rfl rfl rfl rfl rfl rfl fun _ h => h
  | later w =>
      simp only [State.exec, Option.ite_none_right_eq_some] at hs
      obtain rfl := Option.some.inj hs.2
      refine h.still (Still.trans ?_ (Still.schedule _ (by simp))) _
      exact Still.same rfl rfl rfl rfl rfl rfl rfl fun _ h => h
  | stall => cases hn
  | abandon =>
      simp only [State.exec, Option.ite_none_right_eq_some] at hs
      obtain rfl := Option.some.inj hs.2
      refine h.still ?_ _
      exact Still.same rfl rfl rfl rfl rfl rfl rfl fun _ h => h
  | resume foreign w v =>
      simp only [State.exec, Option.ite_none_right_eq_some] at hs
      obtain rfl := Option.some.inj hs.2
      exact h.still (Still.resume _ _ _ _) _
  | fork i =>
      simp only [State.exec, Option.ite_none_right_eq_some, Bool.and_eq_true, decide_eq_true_eq] at hs
      obtain rfl := Option.some.inj hs.2
      exact h.still (Still.fork hi hs.1.2) _
  | deferred i =>
      simp only [State.exec, Option.ite_none_right_eq_some] at hs
      obtain rfl := Option.some.inj hs.2
      simp only [State.newDeferred]
      split
      · exact h.still (Still.refl s) _
      · exact ⟨{ h with }, fun _ _ ht => ht, Or.inl rfl⟩
  | complete foreign d v =>
      simp only [State.exec, Option.ite_none_right_eq_some] at hs
      obtain rfl := Option.some.inj hs.2
      simp only [State.complete]
      split
      · exact h.still (Still.refl s) _
      · exact ⟨{ h with }, fun _ _ ht => ht, Or.inl rfl⟩
  | hold =>
      simp only [State.exec] at hs
      split at hs
      · next g ends rest hstack =>
          obtain rfl := Option.some.inj hs
          have hq := fun w hw => not_interrupted_of_clear (w := w) (g := g) hc (by simp [State.enters, hstack]) hw
          refine ⟨h.enterClosing rfl hq, fun f t ht => ?_, Or.inl rfl⟩
          simp only [State.Owed, State.setFrames, State.setFiber] at ht ⊢
          grind [Function.update_apply]
      · cases hs
  | unhold =>
      simp only [State.exec] at hs
      split at hs
      · split at hs
        · next more hfr =>
            obtain rfl := Option.some.inj hs
            exact h.still (Still.popFrame hfr rfl) _
        · cases hs
      · cases hs
  | scope =>
      simp only [State.exec] at hs
      split at hs
      · obtain rfl := Option.some.inj hs
        exact h.still (Still.scopeBegin hi _) _
      · cases hs
  | yield req =>
      simp only [State.exec] at hs
      split at hs
      · next g ends rest hstack =>
          simp only [Option.ite_none_right_eq_some] at hs
          obtain rfl := Option.some.inj hs.2
          have hy := h.yield hi.flow g ends req
          rwa [show s.turn (.yield req) = some (s.fiberOf g) by simp [State.turn, State.current, hstack, currentOf]]
      · cases hs
  | leave r => exact h.leave hi hc hs
  | leaveGen => exact h.leaveGen hi hs

theorem init (sync : Bool) : Calm (State.init sync) := by
  constructor
  · intro f g
    simp only [State.init]
    grind [Function.update_apply]
  all_goals simp [State.Own, State.Older, State.init]; try grind [Function.update_apply]

end Calm

end Emela.Runtime
