import Emela.Runtime.Lemmas.Closing

/-!
# What an interruption unwinds

An interruption of the body of a scope is sent to the fiber, and reaches the body when the body runs on the
fiber's main continuation. This fails once a scope failed whose body runs elsewhere (`astray`).
-/

namespace Emela.Runtime

/-- An interruption is on its way to the fiber or unwinds it. -/
def Fiber.Interrupted (x : Fiber) : Prop := x.asked ∨ (∃ i, some i ∈ x.pending) ∨ x.unwinds ≠ []

/-- What was thrown unwinds no more than was asked for. -/
structure Unwound.Fair (scope : ScopeId → Scope) (u : Unwound) : Prop where
  body : ∀ i, u.target = some i → i ∈ u.bodies ∧ (scope i).first.isSome
  whole : u.target = none → u.asked

/-- `hot` is a scope whose members are being interrupted. -/
structure Targets (s : State) (tasks : List Task) (hot : Option ScopeId) : Prop where
  targets : ∀ f i, some i ∈ (s.fiber f).pending ∨ i ∈ (s.fiber f).unwinds →
    (s.scope i).fiber = f ∧ (s.fiber f).main = some (s.scope i).gen ∧ .body i ∈ s.frames (s.scope i).gen ∧
      (s.scope i).first.isSome
  asked : ∀ f, none ∈ (s.fiber f).pending ∨ (s.fiber f).unwinding → (s.fiber f).asked
  pending : ∀ f, (s.fiber f).result = none → (s.fiber f).asked → none ∈ (s.fiber f).pending ∨ (s.fiber f).unwinding
  queued : ∀ w, .interrupted w ∈ tasks ∨ .unwind w ∈ tasks ∧ (s.wait w).ends = .main →
    (s.wait w).ends = .main ∧ (s.fiber (s.wait w).fiber).Interrupted
  body : ∀ i, some i ≠ hot → (s.scope i).first.isSome → (s.scope i).bodyDone = false →
    (s.fiber (s.scope i).fiber).main = some (s.scope i).gen ∧
      ((s.fiber (s.scope i).fiber).asked ∨ some i ∈ (s.fiber (s.scope i).fiber).pending ∨
        i ∈ (s.fiber (s.scope i).fiber).unwinds)
  children : ∀ i, some i ≠ hot → (s.scope i).first.isSome ∨ (s.scope i).bodyDone →
    ∀ f ∈ (s.scope i).children, (s.fiber f).asked
  unwound : ∀ u ∈ s.unwound, u.Fair s.scope

variable {s : State} {tasks tasks' : List Task} {w : WaitId} {t : Task} {g : GenId} {ends : End} {rest : List Act}
  {hot : Option ScopeId}

/-- `deliver` unwinds what was asked for when it is called for the continuation. -/
def Delivers (s : State) (f : FiberId) (g : GenId) : Prop :=
  (∀ i, s.target f = some i → .body i ∈ s.frames g) ∧ (s.target f = none → (s.fiber f).asked)

theorem outermost_mem {depth : ScopeId → Nat} {l : List ScopeId} {i : ScopeId} (h : outermost depth l = some i) :
    i ∈ l := by
  cases l with
  | nil => cases h
  | cons j js =>
      simp only [outermost, Option.some.injEq] at h
      have hfold : ∀ (l : List ScopeId) (k : ScopeId),
          l.foldl (fun t u => if depth u < depth t then u else t) k ∈ k :: l := by
        intro l
        induction l with
        | nil => simp
        | cons x xs ih =>
            intro k
            have := ih (if depth x < depth k then x else k)
            simp only [List.foldl_cons]
            grind
      exact h ▸ hfold js j

theorem outermost_eq_none {depth : ScopeId → Nat} {l : List ScopeId} (h : outermost depth l = none) : l = [] := by
  cases l with
  | nil => rfl
  | cons j js => cases h

theorem target_mem {f : FiberId} {i : ScopeId} (h : s.target f = some i) :
    some i ∈ (s.fiber f).pending ∨ i ∈ (s.fiber f).unwinds := by
  simp only [State.target] at h
  split at h
  · cases h
  · simpa [Fiber.targets] using outermost_mem h

theorem target_none {f : FiberId} (h : s.target f = none) :
    (s.fiber f).unwinding ∨ none ∈ (s.fiber f).pending ∨ ∀ i, some i ∉ (s.fiber f).pending ∧ i ∉ (s.fiber f).unwinds := by
  simp only [State.target] at h
  split at h
  · next hn =>
      simp only [Bool.or_eq_true, List.contains_iff_mem] at hn
      exact hn.imp id Or.inl
  · obtain ⟨hp, hu⟩ : (∀ a ∈ (s.fiber f).pending, a = none) ∧ (s.fiber f).unwinds = [] := by
      simpa [Fiber.targets] using outermost_eq_none h
    exact Or.inr (Or.inr fun i => ⟨fun hi => by simpa using hp _ hi, by simp [hu]⟩)

/-! ## Delivery -/

section
variable {x : Fiber} {t : Option ScopeId} {i : ScopeId}

theorem Fiber.unwind_mem (h : some i ∈ (x.unwind t).pending ∨ i ∈ (x.unwind t).unwinds) :
    some i ∈ x.pending ∨ i ∈ x.unwinds ∨ t = some i := by
  cases t with
  | none => simp [Fiber.unwind] at h
  | some j => grind [Fiber.unwind]

theorem Fiber.mem_unwind (h : some i ∈ x.pending ∨ i ∈ x.unwinds) :
    t = none ∨ some i ∈ (x.unwind t).pending ∨ i ∈ (x.unwind t).unwinds := by
  cases t with
  | none => exact Or.inl rfl
  | some j => grind [Fiber.unwind]

theorem Fiber.unwind_none :
    ((none ∈ (x.unwind t).pending ∨ (x.unwind t).unwinding) ↔ t = none ∨ none ∈ x.pending ∨ x.unwinding) := by
  cases t with
  | none => simp [Fiber.unwind]
  | some j => simp [Fiber.unwind]

theorem Fiber.unwind_rest (x : Fiber) (t : Option ScopeId) :
    (x.unwind t).asked = x.asked ∧ (x.unwind t).main = x.main ∧ (x.unwind t).result = x.result ∧
      (x.unwind t).scope = x.scope ∧ (x.unwind t).holds = x.holds ∧ (x.unwind t).wait = x.wait ∧
      (x.unwind t).watchers = x.watchers := by
  cases t <;> exact ⟨rfl, rfl, rfl, rfl, rfl, rfl, rfl⟩

theorem Fiber.Interrupted.unwind (h : x.Interrupted) (hn : t = none → x.asked) : (x.unwind t).Interrupted := by
  obtain ha | ⟨i, hi⟩ | hu := h
  · exact Or.inl ((unwind_rest x t).1.trans ha)
  · obtain ht | hp | hu := mem_unwind (t := t) (Or.inl hi)
    · exact Or.inl ((unwind_rest x t).1.trans (hn ht))
    · exact Or.inr (Or.inl ⟨i, hp⟩)
    · exact Or.inr (Or.inr (List.ne_nil_of_mem hu))
  · obtain ⟨i, hi⟩ := List.exists_mem_of_ne_nil _ hu
    obtain ht | hp | hu := mem_unwind (t := t) (Or.inr hi)
    · exact Or.inl ((unwind_rest x t).1.trans (hn ht))
    · exact Or.inr (Or.inl ⟨i, hp⟩)
    · exact Or.inr (Or.inr (List.ne_nil_of_mem hu))

theorem Fiber.Interrupted.leave (h : x.Interrupted) (hn : some i ∉ x.pending ∧ i ∉ x.unwinds) :
    (x.leaveScope i).Interrupted := by
  have hp : (x.leaveScope i).pending = x.pending := by
    simp only [Fiber.leaveScope, List.filter_eq_self]
    rintro j hj
    simp only [bne_iff_ne]
    rintro rfl
    exact hn.1 hj
  have hu : (x.leaveScope i).unwinds = x.unwinds := by
    simp only [Fiber.leaveScope, List.filter_eq_self]
    rintro j hj
    simp only [bne_iff_ne]
    rintro rfl
    exact hn.2 hj
  simp only [Fiber.Interrupted, hp, hu]
  exact h

end

namespace Targets

/-! ## Tasks -/

theorem subset (h : Targets s tasks hot) (hs : tasks' ⊆ tasks) : Targets s tasks' hot :=
  { h with queued := fun w hw => h.queued w (hw.imp (fun h => hs h) (fun h => ⟨hs h.1, h.2⟩)) }

theorem cons (h : Targets s tasks hot) (ht : ∀ w, t = .interrupted w ∨ t = .unwind w ∧ (s.wait w).ends = .main →
    (s.wait w).ends = .main ∧ (s.fiber (s.wait w).fiber).Interrupted) : Targets s (t :: tasks) hot :=
  { h with queued := by have := h.queued; grind }

/-! ## Changes of the maps -/

/-- What the interruptions of a fiber are does not change. -/
theorem setFiber (h : Targets s tasks hot) {f : FiberId} {k : Fiber → Fiber}
    (hp : (k (s.fiber f)).pending = (s.fiber f).pending) (hu : (k (s.fiber f)).unwinding = (s.fiber f).unwinding)
    (hs : (k (s.fiber f)).unwinds = (s.fiber f).unwinds) (ha : (k (s.fiber f)).asked = (s.fiber f).asked)
    (hr : (k (s.fiber f)).result = none → (s.fiber f).result = none)
    (hm : ∀ g, (s.fiber f).main = some g → (k (s.fiber f)).main = some g) : Targets (s.setFiber f k) tasks hot := by
  have hr' : (s.fiber f).result.isSome → (k (s.fiber f)).result.isSome := by
    intro hs
    cases hk : (k (s.fiber f)).result with
    | none => simp [hr hk] at hs
    | some r => rfl
  have hi : ∀ x, (s.fiber x).Interrupted → (Function.update s.fiber f (k (s.fiber f)) x).Interrupted := by
    simp only [Fiber.Interrupted]; grind [Function.update_apply]
  exact { h with
    targets := by have := h.targets; dsimp only [State.setFiber]; grind [Function.update_apply]
    asked := by have := h.asked; dsimp only [State.setFiber]; grind [Function.update_apply]
    pending := by have := h.pending; dsimp only [State.setFiber]; grind [Function.update_apply]
    queued := fun w hw => ⟨(h.queued w hw).1, hi _ (h.queued w hw).2⟩
    body := by have := h.body; dsimp only [State.setFiber]; grind [Function.update_apply]
    children := by have := h.children; dsimp only [State.setFiber]; grind [Function.update_apply] }

/-- The whole fiber is to be interrupted. -/
theorem askAll (h : Targets s tasks hot) (f : FiberId) : Targets (s.setFiber f (·.ask none)) tasks hot := by
  have hi : ∀ x, (s.fiber x).Interrupted → (Function.update s.fiber f ((s.fiber f).ask none) x).Interrupted := by
    simp only [Fiber.Interrupted, Fiber.ask]; grind [Function.update_apply]
  exact { h with
    targets := by have := h.targets; dsimp only [State.setFiber, Fiber.ask]; grind [Function.update_apply]
    asked := by have := h.asked; dsimp only [State.setFiber, Fiber.ask]; grind [Function.update_apply]
    pending := by
      have := h.pending
      dsimp only [State.setFiber, Fiber.ask, Fiber.ignores]; grind [Function.update_apply]
    queued := fun w hw => ⟨(h.queued w hw).1, hi _ (h.queued w hw).2⟩
    body := by have := h.body; dsimp only [State.setFiber, Fiber.ask]; grind [Function.update_apply]
    children := by have := h.children; dsimp only [State.setFiber, Fiber.ask]; grind [Function.update_apply] }

/-- The body of a failed scope is to be interrupted. -/
theorem askBody (h : Targets s tasks hot) {i : ScopeId} (hm : s.onMain i) (hb : .body i ∈ s.frames (s.scope i).gen)
    (hf : (s.scope i).first.isSome) : Targets (s.setFiber (s.scope i).fiber (·.ask (some i))) tasks hot := by
  have hmain : (s.fiber (s.scope i).fiber).main = some (s.scope i).gen := by simpa [State.onMain] using hm
  have hi : ∀ x, (s.fiber x).Interrupted →
      (Function.update s.fiber (s.scope i).fiber ((s.fiber (s.scope i).fiber).ask (some i)) x).Interrupted := by
    simp only [Fiber.Interrupted, Fiber.ask]; grind [Function.update_apply]
  exact { h with
    targets := by have := h.targets; dsimp only [State.setFiber, Fiber.ask]; grind [Function.update_apply]
    asked := by have := h.asked; dsimp only [State.setFiber, Fiber.ask]; grind [Function.update_apply]
    pending := by have := h.pending; dsimp only [State.setFiber, Fiber.ask]; grind [Function.update_apply]
    queued := fun w hw => ⟨(h.queued w hw).1, hi _ (h.queued w hw).2⟩
    body := by have := h.body; dsimp only [State.setFiber, Fiber.ask]; grind [Function.update_apply]
    children := by have := h.children; dsimp only [State.setFiber, Fiber.ask]; grind [Function.update_apply] }

theorem interrupting (h : Targets s tasks hot) {f : FiberId} (hi : (s.fiber f).interrupting) :
    (s.fiber f).Interrupted := by
  simp only [Fiber.interrupting, Bool.and_eq_true, Bool.or_eq_true, Bool.not_eq_true', List.isEmpty_eq_false_iff] at hi
  obtain ⟨-, (hp | hu) | hu⟩ := hi
  · obtain ⟨target, ht⟩ := List.exists_mem_of_ne_nil _ hp
    cases target with
    | none => exact Or.inl (h.asked f (Or.inl ht))
    | some i => exact Or.inr (Or.inl ⟨i, ht⟩)
  · exact Or.inl (h.asked f (Or.inr hu))
  · exact Or.inr (Or.inr hu)

/-- The main continuation of a fiber runs the bodies that are to be interrupted. -/
theorem delivers (h : Targets s tasks hot) {f : FiberId} (hm : (s.fiber f).main = some g)
    (hi : (s.fiber f).Interrupted) : Delivers s f g := by
  refine ⟨fun i ht => ?_, fun ht => ?_⟩
  · obtain ⟨-, hmain, hb, -⟩ := h.targets f i (target_mem ht)
    obtain rfl : (s.scope i).gen = g := by simpa [hmain] using hm
    exact hb
  · obtain hu | hp | hn := target_none ht
    · exact h.asked f (Or.inr hu)
    · exact h.asked f (Or.inl hp)
    · obtain ha | ⟨i, hi⟩ | hu := hi
      · exact ha
      · exact absurd hi (hn i).1
      · obtain ⟨i, hi⟩ := List.exists_mem_of_ne_nil _ hu
        exact absurd hi (hn i).2

/-- A fiber that was asked to unwind may interrupt itself on another continuation. -/
theorem delivers_asked (h : Targets s tasks hot) (hm : Members s tasks') {f : FiberId} (ha : (s.fiber f).asked) :
    Delivers s f g := by
  refine ⟨fun i ht => ?_, fun _ => ha⟩
  obtain ⟨-, hmain, hb, -⟩ := h.targets f i (target_mem ht)
  cases hr : (s.fiber f).result with
  | none =>
      simp only [State.target] at ht
      split at ht
      · cases ht
      · next hn =>
          simp only [Bool.or_eq_true, List.contains_iff_mem] at hn
          exact absurd (h.pending f hr ha).symm hn
  | some r => simp [(hm.finished f _ (by simp [hr]) hmain).2.2] at hb

/-- An interruption is delivered. -/
theorem deliver (h : Targets s tasks hot) {f : FiberId} (hd : Delivers s f g) :
    Targets (s.deliver f g).2 tasks hot := by
  obtain ⟨hb, hn⟩ := hd
  have hbodies : ∀ i, .body i ∈ s.frames g → i ∈ (s.frames g).filterMap Frame.body? := fun i hi =>
    List.mem_filterMap.mpr ⟨_, hi, rfl⟩
  have hmem := fun i => target_mem (s := s) (f := f) (i := i)
  have hi : ∀ x, (s.fiber x).Interrupted →
      (Function.update s.fiber f ((s.fiber f).unwind (s.target f)) x).Interrupted := by
    intro x hx
    by_cases he : x = f
    · subst he
      rw [Function.update_self]
      exact hx.unwind hn
    · rwa [Function.update_of_ne he]
  have hold := fun i => Fiber.mem_unwind (x := s.fiber f) (t := s.target f) (i := i)
  have hnew := fun i => Fiber.unwind_mem (x := s.fiber f) (t := s.target f) (i := i)
  have hnone := Fiber.unwind_none (x := s.fiber f) (t := s.target f)
  have hrest := Fiber.unwind_rest (s.fiber f) (s.target f)
  exact { h with
    targets := by
      have := h.targets
      dsimp only [State.deliver, State.setFiber]; grind [Function.update_apply]
    asked := by have := h.asked; dsimp only [State.deliver, State.setFiber]; grind [Function.update_apply]
    pending := by have := h.pending; dsimp only [State.deliver, State.setFiber]; grind [Function.update_apply]
    queued := fun w hw => ⟨(h.queued w hw).1, hi _ (h.queued w hw).2⟩
    body := by have := h.body; dsimp only [State.deliver, State.setFiber]; grind [Function.update_apply]
    children := by have := h.children; dsimp only [State.deliver, State.setFiber]; grind [Function.update_apply]
    unwound := by
      intro u hu
      obtain hu | hu := List.mem_append.mp hu
      · exact h.unwound u hu
      · obtain rfl := List.mem_singleton.mp hu
        exact ⟨fun j hj => ⟨hbodies j (hb j hj), (h.targets f j (hmem j hj)).2.2.2⟩, hn⟩ }

/-- A scope changes that has not failed just now. -/
theorem setScope (h : Targets s tasks hot) {i : ScopeId} {k : Scope → Scope}
    (hf : (k (s.scope i)).fiber = (s.scope i).fiber) (hg : (k (s.scope i)).gen = (s.scope i).gen)
    (hs : (k (s.scope i)).first.isSome = (s.scope i).first.isSome)
    (hd : (k (s.scope i)).bodyDone = (s.scope i).bodyDone)
    (hc : (k (s.scope i)).children ⊆ (s.scope i).children) : Targets (s.setScope i k) tasks hot :=
  { h with
    targets := by have := h.targets; dsimp only [State.setScope]; grind [Function.update_apply]
    body := by have := h.body; dsimp only [State.setScope]; grind [Function.update_apply]
    children := by have := h.children; dsimp only [State.setScope]; grind [Function.update_apply]
    unwound := by
      intro u hu
      have := (h.unwound u hu).body
      refine ⟨?_, (h.unwound u hu).whole⟩
      dsimp only [State.setScope]; grind [Function.update_apply] }

/-- A member of the scope fails first: the others are to be interrupted. -/
theorem failed (h : Targets s tasks none) {i : ScopeId} {k : Scope → Scope}
    (hf : (k (s.scope i)).fiber = (s.scope i).fiber) (hg : (k (s.scope i)).gen = (s.scope i).gen)
    (hs : (s.scope i).first.isSome → (k (s.scope i)).first.isSome) : Targets (s.setScope i k) tasks (some i) :=
  { h with
    targets := by have := h.targets; dsimp only [State.setScope]; grind [Function.update_apply]
    body := by have := h.body; dsimp only [State.setScope]; grind [Function.update_apply]
    children := by have := h.children; dsimp only [State.setScope]; grind [Function.update_apply]
    unwound := by
      intro u hu
      have := (h.unwound u hu).body
      refine ⟨?_, (h.unwound u hu).whole⟩
      dsimp only [State.setScope]; grind [Function.update_apply] }

/-- All members of the scope were asked to unwind. -/
theorem cool (h : Targets s tasks (some i))
    (hb : (s.scope i).first.isSome → (s.scope i).bodyDone = false →
      (s.fiber (s.scope i).fiber).main = some (s.scope i).gen ∧
        ((s.fiber (s.scope i).fiber).asked ∨ some i ∈ (s.fiber (s.scope i).fiber).pending ∨
          i ∈ (s.fiber (s.scope i).fiber).unwinds))
    (hc : ∀ f ∈ (s.scope i).children, (s.fiber f).asked) : Targets s tasks none :=
  { h with
    body := by have := h.body; grind
    children := by have := h.children; grind }

/-- The frames of a running generator change, but not its bodies. -/
theorem setFrames (h : Targets s tasks hot) (frames : List Frame)
    (hb : ∀ i, .body i ∈ s.frames g → .body i ∈ frames) : Targets (s.setFrames g frames) tasks hot :=
  { h with
    targets := by have := h.targets; dsimp only [State.setFrames]; grind [Function.update_apply] }

/-- The body of a scope ends: interruptions of it are over. -/
theorem bodyEnded (h : Targets s tasks none) (hf : Flow s tasks) (hm : Members s tasks') {i : ScopeId} {more : List Frame}
    {k : Scope → Scope} (hg : g ∈ s.stack.filterMap Act.gen?) (hfr : s.frames g = .body i :: more)
    (hkf : (k (s.scope i)).fiber = (s.scope i).fiber) (hks : (s.scope i).first.isSome → (k (s.scope i)).first.isSome) :
    Targets (State.setScope (State.setFrames (s.setFiber (s.fiberOf g) (·.leaveScope i)) g more) i k) tasks (some i) := by
  obtain ⟨hgen, hi, -⟩ := hm.bodies g i (by simp [hfr])
  have hfiber : s.fiberOf g = (s.scope i).fiber := hgen ▸ (hm.scopeFiber i hi).2
  have hpaused := (hf.running g hg).1
  have hother : ∀ j, .body j ∈ s.frames g → j ≠ i → .body j ∈ more := by
    intro j hj hne
    rw [hfr] at hj
    simpa [hne] using hj
  -- no continuation of the fiber's main one is queued, since it runs
  have hqueued : ∀ w, (.interrupted w ∈ tasks ∨ .unwind w ∈ tasks ∧ (s.wait w).ends = .main) →
      some i ∉ (s.fiber (s.wait w).fiber).pending ∧ i ∉ (s.fiber (s.wait w).fiber).unwinds := by
    intro w hw
    by_contra hn
    have hi : some i ∈ (s.fiber (s.wait w).fiber).pending ∨ i ∈ (s.fiber (s.wait w).fiber).unwinds := by tauto
    have htw : s.suspended w ∧ s.paused (s.wait w).gen = some w := by
      obtain hw | hw := hw
      · exact (hf.taken _ hw w rfl).2
      · exact (hf.taken _ hw.1 w rfl).2
    have hmain := hm.mainPaused _ w htw.2 (h.queued w hw).1
    rw [← hf.fiber w (hf.lt htw.1), (h.targets _ i hi).2.1, hgen] at hmain
    simp only [Option.some.injEq] at hmain
    simp [← hmain, hpaused] at htw
  exact { h with
    targets := by
      have := h.targets
      dsimp only [State.setFiber, State.setFrames, State.setScope, Fiber.leaveScope]; grind [Function.update_apply]
    asked := by
      have := h.asked
      dsimp only [State.setFiber, State.setFrames, State.setScope, Fiber.leaveScope]; grind [Function.update_apply]
    pending := by
      have := h.pending
      dsimp only [State.setFiber, State.setFrames, State.setScope, Fiber.leaveScope]; grind [Function.update_apply]
    queued := by
      intro w hw
      obtain ⟨he, hint⟩ := h.queued w hw
      have hleave := hint.leave (hqueued w hw)
      refine ⟨he, ?_⟩
      dsimp only [State.setFiber, State.setFrames, State.setScope]; grind [Function.update_apply]
    body := by
      have := h.body
      dsimp only [State.setFiber, State.setFrames, State.setScope, Fiber.leaveScope]; grind [Function.update_apply]
    children := by
      have := h.children
      dsimp only [State.setFiber, State.setFrames, State.setScope, Fiber.leaveScope]; grind [Function.update_apply]
    unwound := by
      intro u hu
      have := (h.unwound u hu).body
      refine ⟨?_, (h.unwound u hu).whole⟩
      dsimp only [State.setFiber, State.setFrames, State.setScope]; grind [Function.update_apply] }

/-! ## Waits and the stack -/

theorem unwait (h : Targets s tasks hot) (w : WaitId) : Targets (s.unwait w) tasks hot :=
  { h.setFiber (k := fun x => { x with wait := if x.wait = some w then none else x.wait })
      (f := (s.wait w).fiber) rfl rfl rfl rfl id (fun _ h => h) with }

theorem newWait (h : Targets s tasks hot) (hf : Flow s tasks) (closing performs : Bool) :
    Targets (s.newWait g ends closing performs) tasks hot :=
  { h with
    queued := by
      intro w hw
      have hs : s.suspended w := by
        obtain hw | hw := hw
        · exact (hf.taken _ hw w rfl).2.1
        · exact (hf.taken _ hw.1 w rfl).2.1
      have hlt := hf.lt hs
      have hold := Function.update_of_ne (Nat.ne_of_lt hlt)
        { gen := g, ends := ends, fiber := s.fiberOf g, closing := closing, performs := performs } s.wait
      have := h.queued w
      dsimp only [State.newWait] at hw ⊢; rw [hold] at hw ⊢; exact this hw }

theorem suspend (h : Targets s tasks hot) (w : WaitId) : Targets (s.suspend w) tasks hot := by
  dsimp only [State.suspend]
  cases (s.wait w).ends with
  | main => exact { h.setFiber (k := fun x => { x with wait := some w }) (f := (s.wait w).fiber) rfl rfl rfl rfl id
      (fun _ h => h) with }
  | settled v => exact { h with }
  | orphan => exact { h with }

/-! ## New objects -/

theorem newScope (h : Targets s tasks hot) (hm : Members s tasks') {x : Scope} (hn : x.first = none)
    (hc : x.children = []) :
    Targets { s with nextScope := s.nextScope + 1, scope := Function.update s.scope s.nextScope x } tasks hot := by
  have hfresh := hm.freshScope s.nextScope (Nat.le_refl _)
  exact { h with
    targets := by have := h.targets; dsimp only; grind [Function.update_apply]
    body := by have := h.body; dsimp only; grind [Function.update_apply]
    children := by have := h.children; dsimp only; grind [Function.update_apply]
    unwound := by
      intro u hu
      have := (h.unwound u hu).body
      refine ⟨?_, (h.unwound u hu).whole⟩
      dsimp only; grind [Function.update_apply] }

theorem newFiber (h : Targets s tasks hot) (hf : Flow s tasks) (hm : Members s tasks') {i : ScopeId}
    (hc : (s.scope i).closed = false) :
    Targets (State.setScope
      { s with nextFiber := s.nextFiber + 1, fiber := Function.update s.fiber s.nextFiber { scope := some i } } i
      fun x => { x with children := x.children ++ [s.nextFiber] }) tasks hot := by
  have hfresh := hm.freshFiber s.nextFiber (Nat.le_refl _)
  have hclosed := hm.closed i
  have hchild : ∀ j f, f ∈ (s.scope j).children → f ≠ s.nextFiber := by
    rintro j f hj rfl
    exact absurd ((hm.children j _).mp hj).1 (Nat.lt_irrefl _)
  have hfiber : ∀ w, s.suspended w → (s.wait w).fiber ≠ s.nextFiber := by
    intro w hw he
    have := hf.lt hw
    have := hm.genFiber _ (hf.genLt w this)
    have := hf.fiber w ‹_›
    simp_all
  exact { h with
    targets := by have := h.targets; dsimp only [State.setScope]; grind [Function.update_apply]
    asked := by have := h.asked; dsimp only [State.setScope]; grind [Function.update_apply]
    pending := by have := h.pending; dsimp only [State.setScope]; grind [Function.update_apply]
    queued := by
      intro w hw
      have hs : s.suspended w := by
        obtain hw | hw := hw
        · exact (hf.taken _ hw w rfl).2.1
        · exact (hf.taken _ hw.1 w rfl).2.1
      have := h.queued w hw
      have := hfiber w hs
      dsimp only [State.setScope]; grind [Function.update_apply]
    body := by
      have := h.body
      dsimp only [State.setScope]; grind [Function.update_apply]
    children := by have := h.children; dsimp only [State.setScope]; grind [Function.update_apply]
    unwound := by
      intro u hu
      have := (h.unwound u hu).body
      refine ⟨?_, (h.unwound u hu).whole⟩
      dsimp only [State.setScope]; grind [Function.update_apply] }

end Targets
end Emela.Runtime
