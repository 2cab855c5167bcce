import Emela.Runtime.Lemmas.Awaits
import Emela.Runtime.Lemmas.Lasts

/-!
# Deferreds are written once, and no wake is lost
-/

namespace Emela.Runtime

variable {s s' : State} {sync : Bool} {events : List Event} {d : DeferredId} {w : WaitId} {g : GenId} {ends : End}
  {rest : List Act} {e : Event} {v : Value} {inp : Input}
  {late : Prop}

/-! ## The cell of a Deferred -/

/-- A Deferred with a value has no waiters, and one that was not made is empty. -/
structure State.Cells (s : State) : Prop where
  empty : ∀ d, (s.deferred d).full → (s.deferred d).waiters = []
  fresh : ∀ d, s.nextDeferred ≤ d → s.deferred d = {}

theorem input_nextWait (s : State) (g : GenId) (inp : Input) : (s.input g inp).nextWait = s.nextWait := by
  simp only [State.input]
  split
  · split <;> rfl
  · rfl

theorem loop_nextWait (s : State) (g : GenId) (inp : Input) : (s.loop g inp).nextWait = s.nextWait := by
  simp only [State.loop]
  split
  · rfl
  · exact input_nextWait _ _ _

/-- `$deferredAwait` only adds its request to the waiters of a Deferred without a value. -/
theorem yield_deferredAwait (s : State) (g : GenId) (ends : End) (d : DeferredId) :
    (s.yield g ends (.deferredAwait d)).cells = s.cells ∨
      (s.deferred d).full = false ∧ s.nextWait < (s.yield g ends (.deferredAwait d)).nextWait ∧
        (s.yield g ends (.deferredAwait d)).cells =
          (s.setDeferred d fun x => { x with waiters := x.waiters ++ [s.nextWait] }).cells := by
  simp only [State.yield]
  split
  · exact Or.inl ((Still.loop _ _ _).cells)
  · simp only [State.request]
    split
    · exact Or.inl ((Still.reply _ _ _).cells)
    · split
      · exact Or.inl ((Still.reply _ _ _).cells)
      · next hf =>
          refine Or.inr ⟨by simpa [State.newWait] using hf, ?_, ?_⟩
          · simp only [State.setDeferred, State.suspend]
            split <;> exact Nat.lt_succ_self _
          · simp only [State.suspend]
            split <;> rfl

namespace State.Cells

theorem same (h : s.Cells) (hc : s'.cells = s.cells) : s'.Cells := by
  simp only [State.cells, Prod.mk.injEq] at hc
  exact ⟨fun d hf => by rw [hc.2] at hf ⊢; exact h.empty d hf, fun d hd => by rw [hc.2]; exact h.fresh d (hc.1 ▸ hd)⟩

theorem exec (h : s.Cells) (hs : s.exec e = some s') : s'.Cells := by
  by_cases he : e.other
  · exact h.same (exec_cells he hs)
  · cases e with
    | deferred i =>
        simp only [State.exec, Option.ite_none_right_eq_some] at hs
        obtain rfl := Option.some.inj hs.2
        have := h.empty
        have := h.fresh
        simp only [State.newDeferred]
        split
        · exact h
        · constructor <;> dsimp only [Option.getD_some] <;> grind [Function.update_apply]
    | complete foreign d v =>
        simp only [State.exec, Option.ite_none_right_eq_some, Bool.and_eq_true, decide_eq_true_eq] at hs
        obtain rfl := Option.some.inj hs.2
        have := h.empty
        have := h.fresh
        simp only [State.complete]
        split
        · exact h
        · constructor <;> dsimp only [State.setDeferred, State.pushAct] <;> grind [Function.update_apply]
    | yield req =>
        cases req with
        | deferredAwait d =>
            simp only [State.exec] at hs
            split at hs
            · next g ends rest hstack =>
                simp only [Option.ite_none_right_eq_some, Request.valid, decide_eq_true_eq] at hs
                obtain rfl := Option.some.inj hs.2
                obtain hc | ⟨hf, -, hc⟩ := yield_deferredAwait s g ends d
                · exact h.same hc
                · refine same (s := s.setDeferred d fun x => { x with waiters := x.waiters ++ [s.nextWait] }) ?_ hc
                  have := h.empty
                  have := h.fresh
                  constructor <;> dsimp only [State.setDeferred] <;> grind [Function.update_apply]
            · cases hs
        | _ => exact absurd rfl he
    | _ => exact absurd rfl he

theorem run (events : List Event) : ∀ {s s' : State}, s.Cells → s.run events = some s' → s'.Cells := by
  induction events with
  | nil =>
      intro s s' h hs
      exact Option.some.inj hs ▸ h
  | cons e events ih =>
      intro s s' h hs
      obtain ⟨s1, he, hs⟩ := Option.bind_eq_some_iff.mp hs
      exact ih (h.exec he) hs

theorem init (sync : Bool) : (State.init sync).Cells := by constructor <;> simp [State.init]

end State.Cells

theorem complete_true (hc : s.completes d = some true) (current : Option FiberId) (v : Value) :
    (s.deferred d).full = false ∧ (s.complete current d v).deferred =
      Function.update s.deferred d { s.deferred d with full := true, value := v, waiters := [] } := by
  simp only [State.completes, Option.ite_none_left_eq_some, Option.some.injEq, Bool.not_eq_true', Bool.not_eq_true] at hc
  exact ⟨hc.2, by simp [State.complete, hc, State.setDeferred, State.pushAct]⟩

theorem complete_else (hc : s.completes d ≠ some true) (current : Option FiberId) (v : Value) :
    s.complete current d v = s := by
  simp only [State.completes, ne_eq, Option.ite_none_left_eq_some, Option.some.injEq, Bool.not_eq_true',
    Bool.not_eq_true, not_and, Bool.not_eq_false] at hc
  simp only [State.complete, Bool.or_eq_true, ite_eq_left_iff, not_or, Bool.not_eq_true]
  rintro ⟨he, hf⟩
  simp [hc he] at hf

/-- What a step writes to a Deferred. -/
theorem exec_writes (h : s.Cells) (hs : s.exec e = some s') (d : DeferredId) :
    s.writes d e = [] ∧ (s'.deferred d).full = (s.deferred d).full ∧ (s'.deferred d).value = (s.deferred d).value ∨
      ∃ v, s.writes d e = [v] ∧ (s.deferred d).full = false ∧ (s'.deferred d).full ∧ (s'.deferred d).value = v := by
  by_cases he : e.other
  · have hc := exec_cells he hs
    simp only [State.cells, Prod.mk.injEq] at hc
    refine Or.inl ⟨?_, by rw [hc.2], by rw [hc.2]⟩
    cases e <;> first | rfl | cases he
  · cases e with
    | deferred i =>
        simp only [State.exec, Option.ite_none_right_eq_some] at hs
        obtain rfl := Option.some.inj hs.2
        refine Or.inl ⟨rfl, ?_⟩
        have := h.fresh d
        simp only [State.newDeferred]
        split
        · exact ⟨rfl, rfl⟩
        · dsimp only [Option.getD_some]
          grind [Function.update_apply]
    | complete foreign k v =>
        simp only [State.exec, Option.ite_none_right_eq_some, Bool.and_eq_true, decide_eq_true_eq] at hs
        obtain rfl := Option.some.inj hs.2
        simp only [State.writes]
        by_cases hk : s.completes k = some true
        · obtain ⟨hf, hd⟩ := complete_true hk (s.caller foreign) v
          rw [hd]
          grind [Function.update_apply]
        · rw [complete_else hk]
          grind
    | yield req =>
        cases req with
        | deferredAwait k =>
            refine Or.inl ⟨rfl, ?_⟩
            simp only [State.exec] at hs
            split at hs
            · next g ends rest hstack =>
                simp only [Option.ite_none_right_eq_some] at hs
                obtain rfl := Option.some.inj hs.2
                obtain hc | ⟨hf, -, hc⟩ := yield_deferredAwait s g ends k
                · simp only [State.cells, Prod.mk.injEq] at hc
                  exact ⟨by rw [hc.2], by rw [hc.2]⟩
                · simp only [State.cells, Prod.mk.injEq, State.setDeferred] at hc
                  rw [hc.2]
                  grind [Function.update_apply]
            · cases hs
        | _ => exact absurd rfl he
    | _ => exact absurd rfl he

/-- A waiter of a Deferred asked for its value. -/
theorem exec_waiters (hs : s.exec e = some s') (hw : w ∈ (s'.deferred d).waiters) :
    w ∈ (s.deferred d).waiters ∨ w ∈ s.asks s' d e := by
  by_cases he : e.other
  · have hc := exec_cells he hs
    simp only [State.cells, Prod.mk.injEq] at hc
    rw [hc.2] at hw
    exact Or.inl hw
  · cases e with
    | deferred i =>
        simp only [State.exec, Option.ite_none_right_eq_some] at hs
        obtain rfl := Option.some.inj hs.2
        simp only [State.newDeferred] at hw
        split at hw
        · exact Or.inl hw
        · dsimp only [Option.getD_some] at hw
          grind [Function.update_apply]
    | complete foreign k v =>
        simp only [State.exec, Option.ite_none_right_eq_some, Bool.and_eq_true, decide_eq_true_eq] at hs
        obtain rfl := Option.some.inj hs.2
        by_cases hk : s.completes k = some true
        · rw [(complete_true hk (s.caller foreign) v).2] at hw
          grind [Function.update_apply]
        · rw [complete_else hk] at hw
          exact Or.inl hw
    | yield req =>
        cases req with
        | deferredAwait k =>
            simp only [State.exec] at hs
            split at hs
            · next g ends rest hstack =>
                simp only [Option.ite_none_right_eq_some] at hs
                obtain rfl := Option.some.inj hs.2
                simp only [State.asks]
                obtain hc | ⟨hf, hlt, hc⟩ := yield_deferredAwait s g ends k
                · simp only [State.cells, Prod.mk.injEq] at hc
                  rw [hc.2] at hw
                  exact Or.inl hw
                · simp only [State.cells, Prod.mk.injEq, State.setDeferred] at hc
                  rw [hc.2] at hw
                  grind [Function.update_apply]
            · cases hs
        | _ => exact absurd rfl he
    | _ => exact absurd rfl he

/-! ## Requests for the value -/

namespace Awaited

/-- A new request is registered nowhere. -/
theorem fresh (hi : Inv s [] none) (hc : s.Cells) (hd : d < s.nextDeferred) (g : GenId) (ends : End) :
    Awaited (s.newWait g ends false false) [] d s.nextWait late True := by
  have hnot : ∀ w, s.suspended w → w ≠ s.nextWait := fun w hw he => by
    simp [he, (hi.flow.fresh s.nextWait (Nat.le_refl _)).2.1] at hw
  exact {
    lt := Nat.lt_succ_self _
    cell := hd
    performs := by simp [State.newWait]
    awaits := fun hw => hnot _ (hi.flow.awaits _ hw).1 rfl
    laters := fun hw => hnot _ (hi.flow.laters _ hw).1 rfl
    gos := fun hw => hnot _ (hi.flow.gos _ hw).1 rfl
    closer := fun i hw => hnot _ (hi.flow.closer i _ hw).1 rfl
    watchers := fun f u hu => hnot _ (hi.flow.watchers f u hu).1
    empty := hc.empty d
    wakes := fun c l hl inp hw => absurd rfl (hnot _ (hi.flow.wakes c l hl _ hw).1)
    waiters := fun k hw => absurd rfl (hnot _ (hi.flow.waiters k _ hw).1)
    resume := fun inp hr => absurd rfl (hnot _ (hi.flow.resuming hr).2.1)
    received := fun inp hr => by simp [State.newWait, (hi.flow.fresh s.nextWait (Nat.le_refl _)).2.2] at hr
    here := Or.inl trivial }

/-- It has an answer. -/
theorem answered (h : Awaited s [] d w True True) (hl : inp = .throw (.defect 2) ∧ s.suspended w = false ∨ s.Gives d inp)
    (hs : s.stack = .gen g ends :: rest) : Awaited (s.reply w inp) [] d w True False := by
  simp only [State.reply]
  split
  · next ho => exact ({ h with here := Or.inr (Or.inl ho) } : Awaited s [] d w True False).loop hs _ _
  · have h1 : Awaited { s with received := Function.update s.received w (s.received w ++ [inp]) } [] d w True False :=
      { h with
        received := by
          have := h.received
          dsimp only; grind [Function.update_apply, State.Answer, State.Gives]
        here := Or.inr (Or.inr (Or.inl (by simp))) }
    exact h1.loop hs _ _

theorem suspend_live (s : State) (w : WaitId) : (s.suspend w).live = s.live := by
  simp only [State.suspend]
  split <;> rfl

/-- A new request asks for the value of the Deferred. -/
theorem deferredAwait (h : Awaited s [] d w True True) (hs : s.stack = .gen g ends :: rest) (hl : s.live w)
    (hn : s.suspended w = false) (hr : s.received w = []) : Awaited (s.request w (.deferredAwait d)) [] d w True False := by
  simp only [State.request]
  split
  · exact h.answered (Or.inl ⟨rfl, hn⟩) hs
  · split
    · next hf => exact h.answered (Or.inr ⟨hf, rfl⟩) hs
    · next hf =>
        have hcell := congrArg Prod.snd (Still.suspend s w).cells
        simp only [State.cells] at hcell
        have hopen : ((s.suspend w).deferred d).full = false := by simpa [hcell] using hf
        have h1 := (h.suspend (fun _ => hr) hs).addWaiter (v := w) (fun _ => rfl) hopen
        refine { h1 with here := Or.inr (Or.inr (Or.inr (Or.inr ⟨?_, Or.inl ?_⟩))) }
        · simpa [State.setDeferred, suspend_live] using hl
        · simp [State.setDeferred]

/-- The request of a `$deferredAwait`. -/
theorem asked (hi : Inv s [] none) (hc : s.Cells) (hs : s.exec e = some s') (hw : w ∈ s.asks s' d e) :
    Awaited s' [] d w True False := by
  cases e with
  | yield req =>
      cases req with
      | deferredAwait k =>
          simp only [State.asks, List.mem_ite_nil_right, List.mem_singleton] at hw
          obtain ⟨⟨rfl, hlt⟩, rfl⟩ := hw
          simp only [State.exec] at hs
          split at hs
          · next g ends rest hstack =>
              simp only [Option.ite_none_right_eq_some, Request.valid, decide_eq_true_eq] at hs
              obtain ⟨hd, hs⟩ := hs
              obtain rfl := Option.some.inj hs
              obtain ⟨-, hn, hr⟩ := hi.flow.fresh s.nextWait (Nat.le_refl _)
              simp only [State.yield] at hlt ⊢
              split at hlt
              · rw [loop_nextWait] at hlt
                exact absurd hlt (Nat.lt_irrefl _)
              · next hint =>
                  rw [if_neg hint]
                  exact (fresh hi hc hd g ends).deferredAwait hstack (by simp [State.newWait]) hn hr
          · cases hs
      | _ => simp [State.asks] at hw
  | _ => simp [State.asks] at hw

end Awaited

/-! ## Runs -/

/-- A Deferred has the value that was written first. -/
theorem written_eq (events : List Event) : ∀ {s s' : State}, s.Cells → s.run events = some s' →
    written d s events = [] ∧ (s'.deferred d).full = (s.deferred d).full ∧ (s'.deferred d).value = (s.deferred d).value ∨
      ∃ v, written d s events = [v] ∧ (s.deferred d).full = false ∧ (s'.deferred d).full ∧ (s'.deferred d).value = v := by
  induction events with
  | nil =>
      intro s s' _ hs
      obtain rfl := Option.some.inj hs
      exact Or.inl ⟨rfl, rfl, rfl⟩
  | cons e events ih =>
      intro s s' hc hs
      obtain ⟨s1, he, hs⟩ := Option.bind_eq_some_iff.mp hs
      have h1 := exec_writes hc he d
      have h2 := ih (hc.exec he) hs
      simp only [written, he]
      grind

/-- Each waiter of a Deferred is one of the requests for its value. -/
theorem waiters_awaiting (events : List Event) : ∀ {s s' : State}, s.run events = some s' →
    w ∈ (s'.deferred d).waiters → w ∈ (s.deferred d).waiters ∨ w ∈ awaiting d s events := by
  induction events with
  | nil =>
      intro s s' hs hw
      obtain rfl := Option.some.inj hs
      exact Or.inl hw
  | cons e events ih =>
      intro s s' hs hw
      obtain ⟨s1, he, hs⟩ := Option.bind_eq_some_iff.mp hs
      simp only [awaiting, he, List.mem_append]
      obtain h1 | h1 := ih hs hw
      · exact (exec_waiters he h1).imp_right Or.inl
      · exact Or.inr (Or.inr h1)

theorem awaited_of_awaiting (events : List Event) : ∀ {s s' : State}, Inv s [] none → s.Cells →
    s.run events = some s' → w ∈ awaiting d s events → Awaited s' [] d w True False := by
  induction events with
  | nil =>
      intro s s' _ _ _ hw
      simp [awaiting] at hw
  | cons e events ih =>
      intro s s' hi hc hs hw
      obtain ⟨s1, he, hs⟩ := Option.bind_eq_some_iff.mp hs
      simp only [awaiting, he, List.mem_append] at hw
      obtain hw | hw := hw
      · exact (Awaited.asked hi hc he hw).run events (hi.exec he) hs
      · exact ih (hi.exec he) (hc.exec he) hs hw

/-! ## Deferreds -/

/-- At most one `$complete` of a Deferred returns `True`, and its value is the only one that `$poll` and `$await`
give. A fiber that waits when the Deferred is completed goes on once, with the value or an interruption that is
delivered first, or is about to, unless the run is over. -/
theorem deferred_written_once (hrun : (State.init sync).run events = some s) (d : DeferredId) :
    (written d (State.init sync) events).length ≤ 1 ∧
      (∀ x, s.poll d = some x → x = (written d (State.init sync) events).head?) ∧
      (∀ w ∈ awaiting d (State.init sync) events, (s.received w).length ≤ 1 ∧ ∀ inp ∈ s.received w,
        (∃ v, written d (State.init sync) events = [v] ∧ inp = .next v) ∨ inp.isInterruption ∨
          s.suspended w = false ∧ inp = .throw (.defect 2)) ∧
      ∀ foreign v s₁, s.completes d = some true → s.exec (.complete foreign d v) = some s₁ →
        ∀ w ∈ (s.deferred d).waiters, s.live w → ∀ more s', s₁.run more = some s' →
          s'.received w = [.next v] ∨ (∃ inp, s'.received w = [inp] ∧ inp.isInterruption) ∨
            s'.received w = [] ∧ (s'.Due w ∨ s'.isOver) := by
  have hi : Inv s [] none := (Inv.init sync).run events hrun
  have hc : s.Cells := (State.Cells.init sync).run events hrun
  have hw := written_eq (d := d) events (State.Cells.init sync) hrun
  have hempty : ((State.init sync).deferred d).full = false := rfl
  refine ⟨?_, fun x hx => ?_, fun w hwait => ⟨hi.passing.once w, fun inp hinp => ?_⟩, ?_⟩
  · obtain ⟨h1, -⟩ | ⟨v, h1, -⟩ := hw <;> simp [h1]
  · simp only [State.poll, Option.ite_none_left_eq_some, Option.some.injEq] at hx
    obtain ⟨h1, h2, -⟩ | ⟨v, h1, -, h2, h3⟩ := hw
    · simp [h1, ← hx.2, h2, hempty]
    · simp [h1, ← hx.2, h2, h3]
  · have ha := awaited_of_awaiting events (Inv.init sync) (State.Cells.init sync) hrun hwait
    obtain (⟨hf, rfl⟩ | hint) | hdef := ha.received inp hinp
    · obtain ⟨h1, h2, -⟩ | ⟨v, h1, -, h2, h3⟩ := hw
      · simp [h2, hempty] at hf
      · exact Or.inl ⟨v, h1, by rw [h3]⟩
    · exact Or.inr (Or.inl hint)
    · exact Or.inr (Or.inr ⟨hdef.1.2, hdef.2⟩)
  · intro foreign v s₁ hcomp hs₁ w hwait hlive more s' hmore
    obtain ⟨hsusp, -, -⟩ := hi.flow.waiters d w hwait
    have hnone := (hi.flow.paused _ w (hi.flow.live w hlive hsusp)).2.1
    have ha : Awaited s [] d w False False := by
      obtain h1 | h1 := waiters_awaiting events hrun hwait
      · simp [State.init] at h1
      · have h2 := awaited_of_awaiting events (Inv.init sync) (State.Cells.init sync) hrun h1
        exact { h2 with received := by simp [hnone] }
    have hi₁ := hi.exec hs₁
    have hc₁ := hc.exec hs₁
    have hi' : Inv s' [] none := hi₁.run more hmore
    have ha' := (ha.exec hi hs₁).run more hi₁ hmore
    have hvalue : (s'.deferred d).full ∧ (s'.deferred d).value = v := by
      have h1 := exec_writes hc hs₁ d
      have h2 := written_eq (d := d) more hc₁ hmore
      simp only [State.writes, hcomp] at h1
      grind
    -- it has one answer at most
    obtain hrec | ⟨inp, hrec⟩ : s'.received w = [] ∨ ∃ inp, s'.received w = [inp] := by
      have := hi'.passing.once w
      rcases hr : s'.received w with _ | ⟨inp, _ | ⟨inp', more⟩⟩
      · exact Or.inl rfl
      · exact Or.inr ⟨inp, rfl⟩
      · simp [hr] at this
    · refine Or.inr (Or.inr ⟨hrec, ?_⟩)
      obtain hh | hh | hh | hh | ⟨hl, hh | hh⟩ := ha'.here
      · exact hh.elim
      · exact Or.inr hh
      · exact absurd hrec hh
      · exact Or.inl (Or.inl (by simpa using hh))
      · simp [ha'.empty hvalue.1] at hh
      · exact Or.inl (Or.inr ⟨hl, hh⟩)
    · obtain (⟨-, rfl⟩ | hint) | ⟨⟨hf, -⟩, -⟩ := ha'.received inp (by simp [hrec])
      · exact Or.inl (by rw [hrec, hvalue.2])
      · exact Or.inr (Or.inl ⟨inp, hrec, hint⟩)
      · exact hf.elim

/-- A child waits for a Deferred that the body of its scope completes. -/
def woken : List Event := [.scope, .deferred 0, .fork 0, .yield .pause, .tick, .leaveGen, .yield (.deferredAwait 0),
  .tick, .complete false 0 (.other 7), .tick, .tick, .yield .await, .tick]

theorem deferred_written_once_woken : ∃ s, (State.init false).run woken = some s ∧
    s.poll 0 = some (written 0 (State.init false) woken).head? ∧ s.received 1 = [.next (.other 7)] := by
  have h : (((State.init false).run woken).map fun s => (s.poll 0, s.received 1)) =
      some (some (some (.other 7)), [.next (.other 7)]) := by decide
  obtain ⟨s, hs, he⟩ := Option.map_eq_some_iff.mp h
  simp only [Prod.mk.injEq] at he
  refine ⟨s, hs, ?_, he.2⟩
  rw [he.1, ← (deferred_written_once hs 0).2.1 _ he.1]

/-- The body of a scope performs an operation whose implementation completes a Deferred a child waits for, resumes,
and fails. -/
def completing : List Event := [.scope, .deferred 0, .fork 0, .yield .pause, .tick, .leaveGen,
  .yield (.deferredAwait 0), .tick, .yield .perform]

def failAfterResume : List Event := [.tick, .tick, .resume false 2 undef, .leave (.error (.defect 9))]

/-- The run is over before the child goes on, and nothing interrupted it. -/
theorem wake_lost : ∃ s s₁ s', (State.init false).run completing = some s ∧ s.completes 0 = some true ∧
    s.exec (.complete false 0 (.other 7)) = some s₁ ∧ 1 ∈ (s.deferred 0).waiters ∧ s.live 1 ∧
    s₁.run failAfterResume = some s' ∧ s'.received 1 = [] ∧ s'.queue = [] ∧ s'.dropped 1 = false ∧ s'.overtaken 1 = false ∧
    ∀ more s'', s'.run more = some s'' → s''.advances = s'.advances := by
  have h : (((State.init false).run completing).bind fun s => (s.exec (.complete false 0 (.other 7))).bind fun s₁ =>
      (s₁.run failAfterResume).map fun s' => ((s.completes 0, (s.deferred 0).waiters, s.live 1),
        (s'.received 1, s'.queue.isEmpty), s'.dropped 1, s'.overtaken 1, s'.isOver)) =
      some ((some true, [1], true), ([], true), false, false, true) := by decide
  obtain ⟨s, hs, h⟩ := Option.bind_eq_some_iff.mp h
  obtain ⟨s₁, hs₁, h⟩ := Option.bind_eq_some_iff.mp h
  obtain ⟨s', hs', he⟩ := Option.map_eq_some_iff.mp h
  simp only [Prod.mk.injEq, List.isEmpty_iff] at he
  obtain ⟨⟨hc, hw, hl⟩, ⟨hr, hq⟩, hd, ho, hover⟩ := he
  have hi := ((Inv.init false).run completing hs).exec hs₁ |>.run failAfterResume hs'
  exact ⟨s, s₁, s', hs, hc, hs₁, by simp [hw], hl, hs', hr, hq, hd, ho,
    fun more s'' hmore => ((Lasts.run more hi hmore).isOver hover).2⟩

end Emela.Runtime
