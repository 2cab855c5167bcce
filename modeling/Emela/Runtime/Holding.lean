import Mathlib.Algebra.Order.BigOperators.Group.Finset
import Emela.Runtime.Lemmas.Holding

/-!
# Releases hold interruptions off
-/

namespace Emela.Runtime

variable {s s' : State} {sync : Bool} {events : List Event} {f : FiberId} {g : GenId} {o : Option FiberId}
  {rest : List Act} {req : Request}

/-- The number of releases that the continuations of the fiber run, and of scopes in them that wait for their
children. -/
def State.holding (s : State) (f : FiberId) : Nat :=
  ∑ g ∈ (Finset.range s.nextGen).filter (s.fiberOf · = f), (s.frames g).countP Frame.holds

theorem Calm.holding (h : Calm s) (hi : Flow s s.queue) (f : FiberId) : (s.fiber f).holds.length = s.holding f := by
  have hmem : ∀ g ∈ ((s.fiber f).holds : Multiset GenId), g ∈ (Finset.range s.nextGen).filter (s.fiberOf · = f) := by
    intro g hg
    have hpos := List.count_pos_iff.mpr (Multiset.mem_coe.mp hg)
    rw [h.counts f g] at hpos
    refine Finset.mem_filter.mpr ⟨Finset.mem_range.mpr (Nat.lt_of_not_le fun hn => ?_), ?_⟩
    · simp [(hi.freshGen g hn).2] at hpos
    · by_contra hne
      simp [hne] at hpos
  rw [← Multiset.coe_card, ← Multiset.sum_count_eq_card hmem]
  refine Finset.sum_congr rfl fun g hg => ?_
  rw [Multiset.coe_count, h.counts f g, if_pos (Finset.mem_filter.mp hg).2]

/-- What is taken off `holds` is there. -/
theorem Calm.mem_holds (h : Calm s) {fr : Frame} (hfr : fr ∈ s.frames g) (hh : fr.holds) :
    g ∈ (s.fiber (s.fiberOf g)).holds := by
  refine List.count_pos_iff.mp ?_
  rw [h.counts, if_pos rfl]
  exact List.countP_pos_iff.mpr ⟨fr, hfr, hh⟩

theorem Calm.run (events : List Event) : ∀ {s s' : State}, Calm s → Inv s [] none → undisturbed s events →
    s.run events = some s' → Calm s' ∧ ∀ f t, s.Owed f t → s'.Owed f t := by
  induction events with
  | nil =>
      intro s s' h _ _ hs
      obtain rfl := Option.some.inj hs
      exact ⟨h, fun _ _ => id⟩
  | cons e events ih =>
      intro s s' h hi hu hs
      obtain ⟨s1, he, hs⟩ := Option.bind_eq_some_iff.mp hs
      simp only [undisturbed, he, Bool.and_eq_true, Bool.not_eq_true'] at hu
      have h1 := h.exec hi hu.1.1 hu.1.2 he
      obtain ⟨h2, h3⟩ := ih h1.calm (hi.exec he) hu.2 hs
      exact ⟨h2, fun f t ht => h3 f t (h1.owed f t ht)⟩

theorem interrupting_of {x : Fiber} (hh : x.holds = []) (hp : x.pending ≠ []) : x.interrupting = true := by
  simp [Fiber.interrupting, hh, hp]

/-- A pending interruption is delivered where the main continuation suspends. -/
theorem yield_delivers (hs : s.stack = .gen g .main :: rest) (hv : req.valid s) (hh : (s.fiber (s.fiberOf g)).holds = [])
    (hp : (s.fiber (s.fiberOf g)).pending ≠ []) :
    ∃ s', s.exec (.yield req) = some s' ∧ s.Delivers s' (s.fiberOf g) := by
  refine ⟨s.yield g .main req, by simp [State.exec, hs, hv], ?_⟩
  simp only [State.yield, interrupting_of hh hp]
  exact (Still.delivered hh (Still.loop _ _ _)).2

/-- It is delivered in place of the value that the main continuation was to go on with. -/
theorem resume_delivers {w : WaitId} {v : Value} {queue : List Task} (hs : s.stack = .drain :: rest)
    (ho : s.isOver = false) (hq : s.queue = .resume w (.next v) :: queue) (he : (s.wait w).ends = .main)
    (hh : (s.fiber (s.wait w).fiber).holds = []) (hp : (s.fiber (s.wait w).fiber).pending ≠ []) :
    ∃ s', s.exec .tick = some s' ∧ s.Delivers s' (s.wait w).fiber := by
  refine ⟨State.fiberResume { s with queue := queue } w (.next v), by simp [State.exec, State.tick, hs, ho, hq, State.runTask], ?_⟩
  simp only [State.fiberResume, he, interrupting_of hh hp]
  have hd := fun e => (Still.delivered (s := { s with queue := queue, overtaken := Function.update s.overtaken w true })
    (g := (s.wait w).gen) hh (Still.continued _ w .main (.throw e))).2
  exact (hd _).before rfl rfl (fun _ h => h) rfl

/-- In a run that is not unwound as a whole: `holds` is the number of releases and of scopes that wait for their
children, and what is taken off it is there; an interruption is delivered to a fiber only while `holds` is zero, and
of those pending that of the whole fiber comes first, or else one of least depth; a pending one stays until it is
delivered or the body of its scope ended, and is delivered where the main continuation next suspends. -/
theorem holds_off_interruptions (hrun : (State.init sync).run events = some s)
    (hu : undisturbed (State.init sync) events) :
    (∀ f, (s.fiber f).holds.length = s.holding f) ∧
      (∀ g fr, fr ∈ s.frames g → fr.holds → g ∈ (s.fiber (s.fiberOf g)).holds) ∧
      (∀ e s', e.stalls = false → s.clear e → s.exec e = some s' →
        s'.unwound = s.unwound ∨ ∃ f, s.turn e = some f ∧ s.Delivers s' f) ∧
      (∀ more s', undisturbed s more → s.run more = some s' → ∀ f t, t ∈ (s.fiber f).pending →
        t ∈ (s'.fiber f).pending ∨ (s'.fiber f).unwinding ∨
          ∃ i, t = some i ∧ (i ∈ (s'.fiber f).unwinds ∨ (s'.scope i).bodyDone)) ∧
      (∀ g rest req, s.stack = .gen g .main :: rest → req.valid s → (s.fiber (s.fiberOf g)).holds = [] →
        (s.fiber (s.fiberOf g)).pending ≠ [] →
          ∃ s', s.exec (.yield req) = some s' ∧ s.Delivers s' (s.fiberOf g)) ∧
      ∀ w v queue rest, s.stack = .drain :: rest → s.isOver = false → s.queue = .resume w (.next v) :: queue →
        (s.wait w).ends = .main → (s.fiber (s.wait w).fiber).holds = [] → (s.fiber (s.wait w).fiber).pending ≠ [] →
          ∃ s', s.exec .tick = some s' ∧ s.Delivers s' (s.wait w).fiber := by
  have hi : Inv s [] none := (Inv.init sync).run events hrun
  obtain ⟨h, -⟩ := (Calm.init sync).run events (Inv.init sync) hu hrun
  refine ⟨h.holding hi.flow, fun g fr hfr hh => h.mem_holds hfr hh, fun e s' hn hc hs => (h.exec hi hn hc hs).unwound,
    fun more s' hmore hs f t ht => ?_, fun g rest req hs hv hh hp => yield_delivers hs hv hh hp,
    fun w v queue rest hs ho hq he hh hp => resume_delivers hs ho hq he hh hp⟩
  exact (h.run more hi hmore hs).2 f t (Or.inl ht)

/-- A child is interrupted while it runs a release, and goes on. -/
def heldOff : List Event := [.scope, .fork 0, .yield .pause, .tick, .leaveGen, .hold, .yield .await, .tick,
  .yield (.watch .interrupt 1)]

theorem holds_off_interruptions_heldOff : ∃ s, (State.init false).run heldOff = some s ∧
    (s.fiber 1).pending = [none] ∧ (s.fiber 1).holds.length = 1 ∧ s.holding 1 = 1 := by
  have h : (((State.init false).run heldOff).map fun s => ((s.fiber 1).pending, (s.fiber 1).holds)) =
      some ([none], [1]) := by decide
  obtain ⟨s, hs, he⟩ := Option.map_eq_some_iff.mp h
  simp only [Prod.mk.injEq] at he
  have hlen : (s.fiber 1).holds.length = 1 := by rw [he.2]; rfl
  exact ⟨s, hs, he.1, hlen, ((holds_off_interruptions hs (by decide)).1 1).symm.trans hlen⟩

/-- The implementation of an operation goes on after it resumed, when its fiber is interrupted. Its release begins
before the queued throw runs. -/
def heldTooLate : List Event := [.scope, .deferred 0, .fork 0, .yield .pause, .tick, .leaveGen, .yield .perform,
  .leaveGen, .resume false 1 undef, .yield (.deferredAwait 0), .tick, .yield .await, .tick, .complete false 0 undef,
  .tick, .tick, .yield (.watch .interrupt 1), .tick, .hold, .yield .await]

/-- An interruption is delivered to a fiber that runs a release. -/
theorem interrupted_in_release : ∃ s s', (State.init false).run heldTooLate = some s ∧ heldTooLate.all (!·.stalls) ∧
    (s.fiber 1).holds = [2] ∧ (s.frames 2).countP Frame.holds = 1 ∧ s.exec .tick = some s' ∧ s.turn .tick = some 1 ∧
    s'.unwound ≠ s.unwound ∧ s'.received 3 = [.throw (.interrupted none)] := by
  have h : (((State.init false).run heldTooLate).bind fun s => (s.exec .tick).map fun s' =>
      (((s.fiber 1).holds, (s.frames 2).countP Frame.holds, s.turn .tick), (s'.unwound.length, s.unwound.length), s'.received 3)) =
      some (([2], 1, some 1), (1, 0), [.throw (.interrupted none)]) := by decide
  obtain ⟨s, hs, h⟩ := Option.bind_eq_some_iff.mp h
  obtain ⟨s', hs', he⟩ := Option.map_eq_some_iff.mp h
  simp only [Prod.mk.injEq] at he
  obtain ⟨⟨hh, hf, ht⟩, ⟨hu', hu⟩, hr⟩ := he
  refine ⟨s, s', hs, by decide, hh, hf, hs', ht, fun hn => ?_, hr⟩
  simp [hn, hu] at hu'

end Emela.Runtime
