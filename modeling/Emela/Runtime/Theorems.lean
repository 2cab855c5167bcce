import Emela.Runtime.Lemmas.Lasts

/-!
# What holds in every run of the scheduler
-/

namespace Emela.Runtime

variable {s : State} {sync : Bool} {events : List Event} {w : WaitId} {i : ScopeId} {f : FiberId}

/-- `c` is how the body or a child of the scope failed. -/
def State.Fails (s : State) (i : ScopeId) (c : Cause) : Prop :=
  (∃ r, (s.scope i).body = some r ∧ failureOf r = some c) ∨
    ∃ f r, (s.fiber f).scope = some i ∧ (s.fiber f).result = some r ∧ failureOf r = some c

/-- The fiber unwinds as a whole, or is to at its next suspension point. -/
def Fiber.Unwinds (x : Fiber) : Prop := none ∈ x.pending ∨ x.unwinding

/-- The body of the scope unwinds, alone or with the whole fiber, or is to. -/
def Fiber.UnwindsBody (x : Fiber) (i : ScopeId) : Prop := x.Unwinds ∨ some i ∈ x.pending ∨ i ∈ x.unwinds

theorem Members.fails_iff {tasks : List Task} (h : Members s tasks) {c : Cause} :
    c ∈ (s.scope i).failures ↔ s.Fails i c := by
  constructor
  · exact h.failures i c
  · rintro (⟨r, hr, hc⟩ | ⟨f, r, hf, hr, hc⟩)
    · exact h.bodyFailed i r c hr hc
    · exact h.failed f i r c hf hr hc

theorem Members.first_of_fails {tasks : List Task} (h : Members s tasks) {c : Cause} (hc : s.Fails i c) :
    (s.scope i).first.isSome := by
  have hmem := h.fails_iff.mpr hc
  rw [h.first i]
  cases hl : (s.scope i).failures with
  | nil => simp [hl] at hmem
  | cons d ds => rfl

theorem Targets.unwinds {tasks : List Task} {hot : Option ScopeId} (h : Targets s tasks hot)
    (hr : (s.fiber f).result = none) (ha : (s.fiber f).asked) : (s.fiber f).Unwinds :=
  h.pending f hr ha

/-! ## Structured concurrency -/

theorem fork_closed (h : (s.scope i).closed) : s.fork i = none := by simp [State.fork, h]

/-- As long as no wait of a scope for its children was cut short, a scope returns when the fibers forked into it
have ended, nothing is forked into it once its body ended or a member failed, and the result of a fiber stays. -/
theorem scope_outlives_fibers (hrun : (State.init sync).run events = some s) (hcut : s.cut = false) :
    (∀ i, (s.scope i).exit.isSome → ∀ f, (s.fiber f).scope = some i → (s.fiber f).result.isSome) ∧
      (∀ i, (s.scope i).body.isSome ∨ (∃ c, s.Fails i c) → s.fork i = none) ∧
      ∀ more s', s.run more = some s' → ∀ f r, (s.fiber f).result = some r → (s'.fiber f).result = some r := by
  have h : Inv s [] none := (Inv.init sync).run events hrun
  refine ⟨fun i hx f hf => ?_, fun i hi => fork_closed (h.members.closed i ?_), fun more s' hmore => ?_⟩
  · obtain ⟨r, hr⟩ := Option.isSome_iff_exists.mp hx
    have hchildren := ((h.closing hcut).exit i r hr).children
    have hlt : f < s.nextFiber := by
      refine Nat.lt_of_not_le fun hn => ?_
      simp [h.members.freshFiber f hn] at hf
    cases hres : (s.fiber f).result with
    | some r => rfl
    | none =>
        have hmem := (h.members.children i f).mpr ⟨hlt, hf, hres⟩
        simp [hchildren] at hmem
  · obtain hb | ⟨c, hc⟩ := hi
    · exact Or.inl (by rw [h.members.body i]; exact hb)
    · exact Or.inr (h.members.first_of_fails hc)
  · exact (Lasts.run more h hmore).result

/-- The body of a scope ends while a child is in a release, which the scope waits for. -/
def waiting : List Event := [.scope, .fork 0, .yield .await, .tick, .leaveGen, .hold, .yield .await, .tick,
  .settle 0 (.next undef), .tick, .leave (.ok undef)]

/-- The release and the child end. -/
def joined : List Event := waiting ++ [.tick, .settle 1 (.next undef), .tick, .unhold, .leave (.ok undef), .tick, .tick]

theorem scope_outlives_fibers_joined :
    (((State.init false).run waiting).any fun s => (s.scope 0).closer = some 2 ∧ (s.fiber 1).result = none) = true ∧
    ∃ s, (State.init false).run joined = some s ∧ (s.scope 0).exit.isSome ∧
      (s.fiber 1).scope = some 0 ∧ (s.fiber 1).result.isSome := by
  have h : (((State.init false).run joined).map fun s => (s.cut, (s.scope 0).exit.isSome, (s.fiber 1).scope)) =
      some (false, true, some 0) := by decide
  obtain ⟨s, hs, he⟩ := Option.map_eq_some_iff.mp h
  simp only [Prod.mk.injEq] at he
  exact ⟨by decide, s, hs, he.2.1, he.2.2, (scope_outlives_fibers hs he.1).1 0 he.2.1 1 he.2.2⟩

/-- The implementation of an operation runs a scope and waits for a child of it, which is in a release, when the
event loop is empty and the caller is dropped. -/
def cutShort : List Event := [.yield .perform, .leaveGen, .scope, .fork 0, .yield .pause, .tick, .tick, .leaveGen,
  .hold, .yield .await, .tick, .leave (.ok undef), .tick, .stall, .tick, .yield .await, .tick]

theorem scope_left_early : ∃ s, (State.init false).run cutShort = some s ∧ s.isOver = false ∧
    (s.scope 0).exit.isSome ∧ (s.fiber 1).scope = some 0 ∧ (s.fiber 1).result = none := by
  have h : (((State.init false).run cutShort).map fun s =>
      (s.isOver, (s.scope 0).exit.isSome, (s.fiber 1).scope, (s.fiber 1).result.isNone)) =
      some (false, true, some 0, true) := by decide
  obtain ⟨s, hs, he⟩ := Option.map_eq_some_iff.mp h
  simp only [Prod.mk.injEq, Option.isNone_iff_eq_none] at he
  exact ⟨s, hs, he⟩

/-! ## Failures -/

/-- As long as no wait of a scope for its children was cut short, and no scope failed while its body ran on another
continuation than its fiber's main one: the first failure of a member is how the scope returns and later ones are
its notes, the other members unwind, and what is unwound is the body of a scope that failed or a whole fiber. -/
theorem scope_keeps_failures (hrun : (State.init sync).run events = some s) (hcut : s.cut = false)
    (hastray : s.astray = false) :
    (∀ i c, c ∈ (s.scope i).failures ↔ s.Fails i c) ∧
      (∀ more s', s.run more = some s' → ∀ i, (s.scope i).failures <+: (s'.scope i).failures) ∧
      (∀ i, (s.scope i).first = (s.scope i).failures.head? ∧ (s.scope i).notes = (s.scope i).failures.tail) ∧
      (∀ i r, (s.scope i).exit = some r → ∃ b, (s.scope i).body = some b ∧
        r = ((s.scope i).failures.head?.map Cause.result).getD b) ∧
      (∀ i c, s.Fails i c → (∀ f, (s.fiber f).scope = some i → (s.fiber f).result = none → (s.fiber f).Unwinds) ∧
        (i < s.nextScope → (s.scope i).body = none → (s.fiber (s.scope i).fiber).UnwindsBody i)) ∧
      ∀ u ∈ s.unwound, u.Fair s.scope := by
  have h : Inv s [] none := (Inv.init sync).run events hrun
  have htar := h.targets hcut hastray
  refine ⟨fun i c => h.members.fails_iff, fun more s' hmore => (Lasts.run more h hmore).failures,
    fun i => ⟨h.members.first i, h.members.notes i⟩, fun i r hr => ?_, fun i c hc => ⟨fun f hf hres => ?_, ?_⟩,
    htar.unwound⟩
  · obtain ⟨b, hb, rfl⟩ := ((h.closing hcut).exit i r hr).outcome
    exact ⟨b, hb, by rw [Scope.outcome, h.members.first i]⟩
  · have hlt : f < s.nextFiber := by
      refine Nat.lt_of_not_le fun hn => ?_
      simp [h.members.freshFiber f hn] at hf
    have hchild := (h.members.children i f).mpr ⟨hlt, hf, hres⟩
    exact htar.unwinds hres (htar.children i (by simp) (Or.inl (h.members.first_of_fails hc)) f hchild)
  · intro hi hbody
    have hdone : (s.scope i).bodyDone = false := by simpa [hbody] using h.members.body i
    obtain ⟨hmain, ha | hp | hu⟩ := htar.body i (by simp) (h.members.first_of_fails hc) hdone
    · -- the body still runs on the main continuation, so the fiber has not ended
      have hres : (s.fiber (s.scope i).fiber).result = none := by
        cases hres : (s.fiber (s.scope i).fiber).result with
        | none => rfl
        | some r =>
            have hin := h.members.inBody i hi hdone
            simp [(h.members.finished _ _ (by simp [hres]) hmain).2.2] at hin
      exact Or.inl (htar.unwinds hres ha)
    · exact Or.inr (Or.inl hp)
    · exact Or.inr (Or.inr hu)

/-- A child fails, and the body of its scope is interrupted. -/
def failing : List Event := [.scope, .fork 0, .yield .await, .tick, .leave (.error (.defect 9)), .tick, .tick,
  .leave (.error (.interrupted (some 0)))]

theorem scope_keeps_failures_failing : ∃ s, (State.init false).run failing = some s ∧
    ∃ b, (s.scope 0).body = some b ∧ Except.error (.defect 9) = ((s.scope 0).failures.head?.map Cause.result).getD b := by
  have h : (((State.init false).run failing).map fun s => (s.cut, s.astray, (s.scope 0).exit)) =
      some (false, false, some (.error (.defect 9))) := by decide
  obtain ⟨s, hs, he⟩ := Option.map_eq_some_iff.mp h
  simp only [Prod.mk.injEq] at he
  exact ⟨s, hs, (scope_keeps_failures hs he.1 he.2.1).2.2.2.1 0 _ he.2.2⟩

/-- A child of a scope fails whose body is run by the implementation of an operation. -/
def failingElsewhere : List Event := [.yield .perform, .leaveGen, .scope, .fork 0, .yield .await, .tick, .tick,
  .leave (.error (.defect 9)), .tick, .tick, .leave (.error (.interrupted none)), .leave (.error (.defect 9)), .tick,
  .leave (.error (.interrupted none))]

theorem failure_lost : ∃ s, (State.init false).run failingElsewhere = some s ∧ s.Fails 0 (.die (.defect 9)) ∧
    (∃ u ∈ s.unwound, u.target = none ∧ u.asked = false) ∧ s.outcome = some (.error (.interrupted none)) := by
  have h : (((State.init false).run failingElsewhere).map fun s =>
      ((s.fiber 1).scope, (s.fiber 1).result, s.unwound.any fun u => u.target = none ∧ u.asked = false, s.outcome)) =
      some (some 0, some (.error (.defect 9)), true, some (.error (.interrupted none))) := by decide
  obtain ⟨s, hs, he⟩ := Option.map_eq_some_iff.mp h
  simp only [Prod.mk.injEq, List.any_eq_true, decide_eq_true_eq] at he
  exact ⟨s, hs, Or.inr ⟨1, _, he.1, he.2.1, rfl⟩, he.2.2.1, he.2.2.2⟩

/-! ## Callers of operations -/

end Emela.Runtime
