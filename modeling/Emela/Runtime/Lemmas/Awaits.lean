import Emela.Runtime.Lemmas.Cells

/-!
# A request that waits for a Deferred

It is in one place until it is answered: among the waiters of the Deferred, in the loop that wakes them, or in
the queue, and it is answered with the value of the Deferred or an interruption.
-/

namespace Emela.Runtime

/-- The Deferred has a value, which is the input. -/
def State.Gives (s : State) (d : DeferredId) (inp : Input) : Prop :=
  (s.deferred d).full ∧ inp = .next (s.deferred d).value

/-- What an `$await` of the Deferred is answered with: its value, or an interruption. -/
def State.Answer (s : State) (d : DeferredId) (inp : Input) : Prop := s.Gives d inp ∨ inp.isInterruption

/-- `late` is for one made after the scope of the Deferred ended, and `lost` for one that is being woken. -/
structure Awaited (s : State) (ts : List Task) (d : DeferredId) (w : WaitId) (late lost : Prop) : Prop where
  lt : w < s.nextWait
  cell : d < s.nextDeferred
  performs : (s.wait w).performs = false
  awaits : w ∉ s.awaits
  laters : w ∉ s.laters
  gos : .go w ∉ ts ++ s.queue
  closer : ∀ i, (s.scope i).closer ≠ some w
  watchers : ∀ f, ∀ u ∈ (s.fiber f).watchers, u.wait ≠ w
  empty : (s.deferred d).full → (s.deferred d).waiters = []
  wakes : ∀ c l, .wakes c l ∈ s.stack → ∀ inp, (w, inp) ∈ l → s.Gives d inp
  waiters : ∀ e, w ∈ (s.deferred e).waiters → e = d
  resume : ∀ inp, .resume w inp ∈ ts ++ s.queue → s.Gives d inp
  received : ∀ inp ∈ s.received w, s.Answer d inp ∨ (late ∧ s.suspended w = false) ∧ inp = .throw (.defect 2)
  here : lost ∨ s.isOver ∨ s.received w ≠ [] ∨ (∃ t ∈ ts ++ s.queue, t.wait = some w) ∨
    s.live w ∧ (w ∈ (s.deferred d).waiters ∨ ∃ c l inp, .wakes c l ∈ s.stack ∧ (w, inp) ∈ l)

/-- The task may continue the request. -/
def Task.Fits (t : Task) (s : State) (d : DeferredId) (w : WaitId) : Prop :=
  t ≠ .go w ∧ ∀ inp, t = .resume w inp → s.Gives d inp

variable {s s' : State} {ts : List Task} {d : DeferredId} {w v : WaitId} {late lost : Prop} {t : Task} {g : GenId}
  {ends : End} {rest : List Act} {inp : Input} {current : Option FiberId} {i : ScopeId} {f : FiberId}

theorem Task.fits_of (hn : ∀ v inp, t ≠ .resume v inp) (hg : t ≠ .go w) : t.Fits s d w :=
  ⟨hg, fun inp he => absurd he (hn w inp)⟩

namespace Awaited

/-! ## Tasks -/

/-- A task that is added. -/
theorem cons (h : Awaited s ts d w late lost) (ht : t.Fits s d w) : Awaited s (t :: ts) d w late lost :=
  { h with
    gos := by have := h.gos; have := ht.1; grind
    resume := by have := h.resume; have := ht.2; grind
    here := by have := h.here; grind }

/-- A task for another request is done. -/
theorem tail (h : Awaited s (t :: ts) d w late lost) (ht : t.wait ≠ some w) : Awaited s ts d w late lost :=
  { h with
    gos := fun hg => h.gos (List.mem_cons_of_mem _ hg)
    resume := fun inp hr => h.resume inp (List.mem_cons_of_mem _ hr)
    here := by have := h.here; grind }

theorem schedule (h : Awaited s (t :: ts) d w late lost) : Awaited (s.schedule t) ts d w late lost := by
  have hm : ∀ a, a ∈ ts ++ (s.queue ++ [t]) ↔ a ∈ t :: ts ++ s.queue := by grind
  exact { h with
    gos := fun hg => h.gos ((hm _).mp hg)
    resume := fun inp hr => h.resume inp ((hm _).mp hr)
    wakes := by have := h.wakes; dsimp only [State.schedule]; grind [State.Gives]
    here := by have := h.here; dsimp only [State.schedule]; grind }

theorem enqueue (h : Awaited s (t :: ts) d w late lost) : Awaited (s.enqueue t) ts d w late lost := by
  have hm : ∀ a, a ∈ ts ++ (s.queue ++ [t]) ↔ a ∈ t :: ts ++ s.queue := by grind
  exact { h with
    gos := fun hg => h.gos ((hm _).mp hg)
    resume := fun inp hr => h.resume inp ((hm _).mp hr)
    here := by have := h.here; dsimp only [State.enqueue]; grind }

/-- A continuation is taken back for the task. -/
theorem take (h : Awaited s ts d w late lost) (htw : t.wait = some v) (ht : t.Fits s d w) :
    Awaited (s.unwait v) (t :: ts) d w late lost := by
  have h1 := h.cons ht
  exact { h1 with
    watchers := by have := h.watchers; dsimp only [State.unwait]; grind [Function.update_apply]
    here := by have := h.here; dsimp only [State.unwait]; grind [Function.update_apply] }

/-! ## Changes of other fields -/

theorem setFiber (h : Awaited s ts d w late lost) {k : Fiber → Fiber}
    (hk : ∀ u ∈ (k (s.fiber f)).watchers, u ∈ (s.fiber f).watchers ∨ u.wait ≠ w) :
    Awaited (s.setFiber f k) ts d w late lost :=
  { h with
    watchers := by have := h.watchers; dsimp only [State.setFiber]; grind [Function.update_apply] }

theorem setScope (h : Awaited s ts d w late lost) {k : Scope → Scope}
    (hk : (k (s.scope i)).closer = (s.scope i).closer ∨ (k (s.scope i)).closer ≠ some w) :
    Awaited (s.setScope i k) ts d w late lost :=
  { h with
    closer := by have := h.closer; dsimp only [State.setScope]; grind [Function.update_apply] }

theorem setFrames (h : Awaited s ts d w late lost) (g : GenId) (frames : List Frame) :
    Awaited (s.setFrames g frames) ts d w late lost := { h with }

theorem setAstray (h : Awaited s ts d w late lost) (b : Bool) : Awaited { s with astray := b } ts d w late lost := { h with }

/-- The loops over continuations to wake stay. -/
theorem restack (h : Awaited s ts d w late lost) {stack : List Act} (hs : ∀ c l, .wakes c l ∈ stack ↔ .wakes c l ∈ s.stack) :
    Awaited { s with stack := stack } ts d w late lost :=
  { h with
    wakes := fun c l hc => h.wakes c l ((hs c l).mp hc)
    here := by have := h.here; grind }

theorem pop (h : Awaited s ts d w late lost) {a : Act} (hs : s.stack = a :: rest) (ha : ∀ c l, a ≠ .wakes c l) :
    Awaited { s with stack := rest } ts d w late lost :=
  h.restack fun c l => by simpa [hs] using fun he => absurd he.symm (ha c l)

theorem push (h : Awaited s ts d w late lost) {a : Act} (ha : ∀ c l, a ≠ .wakes c l) : Awaited (s.pushAct a) ts d w late lost :=
  h.restack fun c l => by simpa using fun he => absurd he.symm (ha c l)

theorem drain (h : Awaited s ts d w late lost) : Awaited { s with running := true, stack := .drain :: s.stack } ts d w late lost :=
  { (show Awaited { s with stack := .drain :: s.stack } ts d w late lost from h.restack (by simp)) with }

theorem popAct (h : Awaited s ts d w late lost) {a : Act} (hs : s.stack = a :: rest) (ha : ∀ c l, a ≠ .wakes c l) :
    Awaited s.popAct ts d w late lost := by
  simp only [State.popAct, hs, List.tail_cons]
  exact h.pop hs ha

/-- Other continuations are to be woken. -/
theorem pushWakes (h : Awaited s ts d w late lost) (current : Option FiberId) {l : List (WaitId × Input)}
    (hl : ∀ p ∈ l, p.1 ≠ w) : Awaited (s.pushAct (.wakes current l)) ts d w late lost :=
  { h with
    wakes := by have := h.wakes; dsimp only [State.pushAct]; grind [State.Gives]
    here := by have := h.here; dsimp only [State.pushAct]; grind }

/-! ## Interruptions -/

theorem dropFuel (n : Nat) : ∀ {s : State} {ts : List Task} {v : WaitId} {t : Task}, Awaited s ts d w late lost →
    t.wait = some v → (∀ v inp, t ≠ .resume v inp) → Awaited (State.dropFuel n s v) (t :: ts) d w late lost := by
  induction n with
  | zero =>
      intro s ts v t h htw ht
      exact h.cons (Task.fits_of ht (by rintro rfl; cases htw))
  | succ n ih =>
      intro s ts v t h htw ht
      have h1 := h.take htw (Task.fits_of ht (by rintro rfl; cases htw))
      have h2 : Awaited { s.unwait v with dropped := Function.update s.dropped v true } (t :: ts) d w late lost :=
        { h1 with }
      simp only [State.dropFuel]
      split
      · split
        · next u _ =>
            split
            · have h3 : Awaited { s.unwait v with
                  dropped := Function.update s.dropped v true, cut := s.cut || (s.wait u).closing } (t :: ts) d w late lost :=
                { h2 with }
              exact (ih h3 rfl (t := .drop u) (by simp)).enqueue
            · exact h2
        · exact h2
      · exact h2

theorem fiberInterrupt (h : Awaited s ts d w late lost) (f : FiberId) (target : Option ScopeId) :
    Awaited (s.fiberInterrupt f target) ts d w late lost := by
  have h1 : Awaited (s.setFiber f (·.ask target)) ts d w late lost := h.setFiber fun _ hu => Or.inl hu
  simp only [State.fiberInterrupt]
  split
  · exact h1
  · split
    · next v _ =>
        split
        · exact (h1.dropFuel _ rfl (by simp)).schedule
        · exact h1
    · exact h1

theorem interruptAll (l : List FiberId) : ∀ {s : State}, Awaited s ts d w late lost → Awaited (s.interruptAll l) ts d w late lost := by
  induction l with
  | nil => exact id
  | cons f l ih => exact fun h => ih (h.fiberInterrupt f none)

theorem deliver (h : Awaited s ts d w late lost) (f : FiberId) (g : GenId) : Awaited (s.deliver f g).2 ts d w late lost := by
  have h1 : Awaited { s with unwound := (s.deliver f g).2.unwound } ts d w late lost := { h with }
  refine h1.setFiber (k := fun x => x.unwind (s.target f)) fun u hu => Or.inl ?_
  cases ht : s.target f <;> simpa [ht, Fiber.unwind] using hu

/-! ## Continuations -/

theorem input (h : Awaited s ts d w late lost) (g : GenId) (inp : Input) : Awaited (s.input g inp) ts d w late lost := by
  have h1 : Awaited { s with advances := s.advances + 1 } ts d w late lost := { h with }
  simp only [State.input]
  split
  · next j r frames _ =>
      have h2 := h1.setFiber (f := s.fiberOf g) (k := fun x => { x with holds := x.holds.erase g }) fun _ hu => Or.inl hu
      have h3 : Awaited (State.setFrames (State.setFiber { s with advances := s.advances + 1 } (s.fiberOf g)
          fun x => { x with holds := x.holds.erase g }) g frames) ts d w late lost := { h2 with }
      split <;> exact h3.setScope (Or.inl rfl)
  · exact h1

/-- What the request may be continued with. -/
theorem unpark (h : Awaited s (t :: ts) d w late lost) (ht : t.wait = some v) (hi : v = w → s.Answer d inp)
    (ends : End) : Awaited (s.unpark v ends inp) ts d w late lost :=
  { h with
    gos := fun hg => h.gos (List.mem_cons_of_mem _ hg)
    resume := fun inp hr => h.resume inp (List.mem_cons_of_mem _ hr)
    wakes := by have := h.wakes; dsimp only [State.unpark]; grind [State.Gives]
    received := by
      have := h.received
      dsimp only [State.unpark]; grind [Function.update_apply, State.Answer, State.Gives]
    here := by
      by_cases hv : v = w
      · exact Or.inr (Or.inr (Or.inl (by simp [State.unpark, hv])))
      · have := (h.tail (by rw [ht]; simpa using hv)).here
        dsimp only [State.unpark]; grind [Function.update_apply] }

theorem continued (h : Awaited s (t :: ts) d w late lost) (ht : t.wait = some v) (hi : v = w → s.Answer d inp) (ends : End) :
    Awaited (s.continue v ends inp) ts d w late lost := by
  simp only [State.continue]
  split
  · next ho =>
      exact { h with
        gos := fun hg => h.gos (List.mem_cons_of_mem _ hg)
        resume := fun inp hr => h.resume inp (List.mem_cons_of_mem _ hr)
        here := Or.inr (Or.inl ho) }
  · exact (h.unpark ht hi ends).input _ _

theorem loop (h : Awaited s ts d w late lost) (hs : s.stack = .gen g ends :: rest) (g' : GenId) (inp : Input) :
    Awaited (s.loop g' inp) ts d w late lost := by
  simp only [State.loop]
  split
  · exact h.popAct hs (by simp)
  · exact h.input _ _

theorem enter (h : Awaited s ts d w late lost) (g : GenId) (ends : End) (inp : Input) :
    Awaited (s.enter g ends inp) ts d w late lost := by
  simp only [State.enter]
  split
  · exact h
  · exact (h.push (by simp)).input _ _

theorem fiberResume (h : Awaited s (.resume v inp :: ts) d w late lost) : Awaited (s.fiberResume v inp) ts d w late lost := by
  have hcont : ∀ ends, Awaited (s.continue v ends inp) ts d w late lost := fun ends =>
    h.continued rfl (fun he => Or.inl (h.resume inp (by simp [he]))) ends
  simp only [State.fiberResume]
  split
  · split
    · have h1 : Awaited { s with overtaken := Function.update s.overtaken v true } (.resume v _ :: ts) d w late lost := { h with }
      exact (h1.deliver _ _).continued rfl (fun _ => Or.inr rfl) _
    · exact hcont _
  · exact hcont _

/-- The request that is being woken is no longer lost. -/
theorem cont (h : Awaited s ts d w late (s.live w ∧ v = w)) (hi : v = w → s.Gives d inp) (current : Option FiberId) :
    Awaited (s.cont current v inp) ts d w late False := by
  simp only [State.cont]
  split
  · next hl =>
      have h1 : Awaited (s.unwait v) (.resume v inp :: ts) d w late False := by
        have h1 := h.take (t := .resume v inp) rfl ⟨by simp, fun inp' he => by cases he; exact hi rfl⟩
        refine { h1 with here := ?_ }
        obtain ⟨-, rfl⟩ | hh := h1.here
        · exact Or.inr (Or.inr (Or.inr (Or.inl ⟨_, List.mem_cons_self, rfl⟩)))
        · exact Or.inr hh
      split
      · exact h1.continued rfl (fun he => Or.inl (hi he)) _
      · exact h1.schedule
  · next hl =>
      refine { h with here := ?_ }
      obtain ⟨hw, rfl⟩ | hh := h.here
      · exact absurd hw hl
      · exact Or.inr hh

/-- Another request is continued. -/
theorem cont_ne (h : Awaited s ts d w late False) (hv : v ≠ w) (current : Option FiberId) (inp : Input) :
    Awaited (s.cont current v inp) ts d w late False :=
  cont { h with here := Or.inr (h.here.resolve_left id) } (fun he => absurd he hv) current

theorem suspend (h : Awaited s ts d w late lost) (hv : v = w → s.received w = []) (hs : s.stack = .gen g ends :: rest) :
    Awaited (s.suspend v) ts d w late lost := by
  have h1 : Awaited (s.park v) ts d w late lost := by
    have h1 := h.popAct hs (by simp)
    exact { h1 with
      received := by
        have := h.received
        dsimp only [State.park]; grind [Function.update_apply, State.Answer, State.Gives] }
  simp only [State.suspend]
  split
  · exact h1.setFiber fun _ hu => Or.inl hu
  · exact { h1 with }
  · exact h1

theorem reply (h : Awaited s ts d w late lost) (hv : v ≠ w) (hs : s.stack = .gen g ends :: rest) (inp : Input) :
    Awaited (s.reply v inp) ts d w late lost := by
  simp only [State.reply]
  split
  · exact h.loop hs _ _
  · have h1 : Awaited { s with received := Function.update s.received v (s.received v ++ [inp]) } ts d w late lost :=
      { h with
        received := by
          have := h.received
          dsimp only; grind [Function.update_apply, State.Answer, State.Gives]
        here := by have := h.here; dsimp only; grind [Function.update_apply] }
    exact h1.loop hs _ _

/-! ## Operations -/

theorem rootFinish (h : Awaited s ts d w late lost) (r : Result) : Awaited (s.rootFinish r) ts d w late lost := by
  simp only [State.rootFinish]
  split
  · exact h
  · exact { h with
      gos := fun hg => h.gos (List.mem_append_left _ (by simpa using hg))
      resume := fun inp hr => h.resume inp (List.mem_append_left _ (by simpa using hr))
      here := Or.inr (Or.inl rfl) }

theorem ne_of_performs (h : Awaited s ts d w late lost) (hp : (s.wait v).performs) : v ≠ w := by
  rintro rfl
  simp [h.performs] at hp

theorem pass (h : Awaited s ts d w late False) (hv : v ≠ w) (current : Option FiberId) (inp : Input) :
    Awaited (s.pass current v inp) ts d w late False := by
  have h1 : Awaited (s.setPassed v inp) ts d w late False := { h with }
  simp only [State.pass]
  split
  · exact h1
  · exact h1.cont_ne hv _ _

theorem resumed (h : Awaited s ts d w late False) (hv : v ≠ w) (current : Option FiberId) (x : Value) :
    Awaited ((s.resume current v x).getD s) ts d w late False := by
  simp only [State.resume]
  split
  · exact h
  · split
    · exact h
    · have h1 : Awaited { s with resumed := Function.update s.resumed v true } ts d w late False := { h with }
      exact h1.pass hv _ _

theorem settled (h : Awaited s ts d w late False) (hv : v ≠ w) (current : Option FiberId) (r : Result) :
    Awaited (s.settled current v r) ts d w late False := by
  simp only [State.settled]
  split
  · split
    · exact h.rootFinish _
    · exact h.pass hv _ _
  · split
    · exact h.rootFinish _
    · exact h.pass hv _ _
  · exact h

theorem performed (h : Awaited s ts d w late False) (hs : s.stack = .opEnd v :: .gen g ends :: rest) (hv : v ≠ w) :
    Awaited (s.performed v) ts d w late False := by
  have h1 : Awaited (s.popAct.setOp v fun x => { x with sync := false }) ts d w late False :=
    { h.popAct hs (by simp) with }
  have hs1 : (s.popAct.setOp v fun x => { x with sync := false }).stack = .gen g ends :: rest := by
    simp [State.popAct, State.setOp, hs]
  simp only [State.performed]
  split
  · exact h1.reply hv hs1 _
  · exact h1.suspend (absurd · hv) hs1

/-! ## Scopes -/

theorem memberEnded (h : Awaited s ts d w late lost) (i : ScopeId) (r : Result) : Awaited (s.memberEnded i r) ts d w late lost := by
  simp only [State.memberEnded, State.scopeFailed, State.interruptMembers]
  split
  · next c _ =>
      have h1 : Awaited (s.setScope i (·.failed c)) ts d w late lost := by
        refine h.setScope (Or.inl ?_)
        simp only [Scope.failed]
        split <;> rfl
      split
      · exact h1
      · split
        · exact h1.interruptAll _
        · exact ((h1.interruptAll _).setAstray _).fiberInterrupt _ _
  · exact h

theorem wakeCloser (h : Awaited s ts d w late False) (current : Option FiberId) (i : ScopeId) :
    Awaited (s.wakeCloser current i) ts d w late False := by
  simp only [State.wakeCloser]
  split
  · next v _ hc =>
      have h1 := h.setScope (i := i) (k := fun x => { x with closer := none }) (Or.inr (by simp))
      exact h1.cont_ne (fun he => h.closer i (he ▸ hc)) _ _
  · exact h

theorem rootEnded (h : Awaited s ts d w late lost) (r : Result) : Awaited (s.rootEnded r) ts d w late lost := by
  simp only [State.rootEnded]
  split <;> exact h.rootFinish _

theorem fiberFinish (h : Awaited s ts d w late False) (current : Option FiberId) (f : FiberId) (r : Result) :
    Awaited (s.fiberFinish current f r) ts d w late False := by
  simp only [State.fiberFinish]
  split
  · exact h
  · have h1 := h.setFiber (f := f) (k := fun x => { x with result := some r, wait := none, watchers := [] }) (by simp)
    split
    · exact h1.rootEnded r
    · next i _ =>
        have h2 := h1.pushWakes current (l := (s.fiber f).watchers.map fun u => (u.wait, u.verb.input r)) fun p hp => by
          obtain ⟨u, hu, rfl⟩ := List.mem_map.mp hp
          exact h.watchers f u hu
        have h3 := h2.setScope (i := i) (k := fun x => { x with children := x.children.erase f }) (Or.inl rfl)
        exact (h3.memberEnded i r).wakeCloser current i

theorem ended (h : Awaited s ts d w late False) (he : ∀ v, ends = .settled v → v ≠ w) (f : FiberId) (r : Result) :
    Awaited (s.ended f ends r) ts d w late False := by
  cases ends with
  | main => exact h.fiberFinish _ _ _
  | settled v => exact h.settled (he v rfl) _ _
  | orphan =>
      simp only [State.ended]
      split
      · exact { h with }
      · exact h

/-! ## Requests -/

theorem newWait (h : Awaited s ts d w late lost) (g : GenId) (ends : End) (closing performs : Bool) :
    Awaited (s.newWait g ends closing performs) ts d w late lost :=
  { h with
    lt := Nat.lt_succ_of_lt h.lt
    performs := by simpa [State.newWait, Function.update_of_ne (Nat.ne_of_lt h.lt)] using h.performs
    here := by
      have := h.here
      have := Nat.ne_of_lt h.lt
      dsimp only [State.newWait]; grind [Function.update_apply] }

/-- A request waits for a Deferred. -/
theorem addWaiter (h : Awaited s ts d w late lost) {e : DeferredId} (hv : v = w → e = d)
    (hf : (s.deferred e).full = false) : Awaited (s.setDeferred e fun x => { x with waiters := x.waiters ++ [v] }) ts d w late lost := by
  have hgives : ∀ inp, s.Gives d inp ↔ (s.setDeferred e fun x => { x with waiters := x.waiters ++ [v] }).Gives d inp := by
    intro inp
    simp only [State.Gives, State.setDeferred]
    grind [Function.update_apply]
  exact { h with
    empty := by have := h.empty; dsimp only [State.setDeferred]; grind [Function.update_apply]
    wakes := fun c l hc inp hi => (hgives inp).mp (h.wakes c l hc inp hi)
    waiters := by have := h.waiters; dsimp only [State.setDeferred]; grind [Function.update_apply]
    resume := fun inp hr => (hgives inp).mp (h.resume inp hr)
    received := fun inp hi => (h.received inp hi).imp_left (Or.imp_left (hgives inp).mp)
    here := by have := h.here; dsimp only [State.setDeferred]; grind [Function.update_apply] }

theorem watchEnd (h : Awaited s ts d w late False) (hv : v ≠ w) (hs : s.stack = .gen g ends :: rest) (verb : Verb) (f : FiberId) :
    Awaited (match (s.fiber f).result with
      | some r => s.reply v (verb.input r)
      | none => (s.suspend v).setFiber f fun x => { x with watchers := x.watchers ++ [⟨v, verb⟩] }) ts d w late False := by
  split
  · exact h.reply hv hs _
  · refine (h.suspend (absurd · hv) hs).setFiber fun u hu => ?_
    obtain hu | hu := List.mem_append.mp hu
    · exact Or.inl hu
    · obtain rfl := List.mem_singleton.mp hu
      exact Or.inr hv

end Awaited

theorem dropFuel_stack (n : Nat) : ∀ (s : State) (w : WaitId),
    (State.dropFuel n s w).stack = s.stack ∧ (State.dropFuel n s w).running = s.running := by
  induction n with
  | zero => exact fun _ _ => ⟨rfl, rfl⟩
  | succ n ih =>
      intro s w
      simp only [State.dropFuel]
      split
      · split
        · split
          · exact ih _ _
          · exact ⟨rfl, rfl⟩
        · exact ⟨rfl, rfl⟩
      · exact ⟨rfl, rfl⟩

/-- While the queue is drained, an interruption only queues tasks. -/
theorem fiberInterrupt_stack (hr : s.running = true) (f : FiberId) (target : Option ScopeId) :
    (s.fiberInterrupt f target).stack = s.stack ∧ (s.fiberInterrupt f target).running = true := by
  simp only [State.fiberInterrupt]
  split
  · exact ⟨rfl, hr⟩
  · split
    · next v _ =>
        split
        · obtain ⟨h1, h2⟩ := dropFuel_stack (s.setFiber f (·.ask target)).nextWait (s.setFiber f (·.ask target)) v
          simp only [State.schedule, State.drop, h2]
          rw [if_pos (by simpa [State.setFiber] using hr)]
          exact ⟨h1, trivial⟩
        · exact ⟨rfl, hr⟩
    · exact ⟨rfl, hr⟩

theorem interruptAll_stack (l : List FiberId) : ∀ {s : State}, s.running = true →
    (s.interruptAll l).stack = s.stack ∧ (s.interruptAll l).running = true := by
  induction l with
  | nil => exact fun hr => ⟨rfl, hr⟩
  | cons f l ih =>
      intro s hr
      obtain ⟨h1, h2⟩ := fiberInterrupt_stack hr f none
      obtain ⟨h3, h4⟩ := ih h2
      exact ⟨h3.trans h1, h4⟩

theorem memberEnded_stack (hr : s.running = true) (i : ScopeId) (r : Result) :
    (s.memberEnded i r).stack = s.stack ∧ (s.memberEnded i r).running = true := by
  simp only [State.memberEnded, State.scopeFailed, State.interruptMembers]
  split
  · next c _ =>
      obtain ⟨h1, h2⟩ := interruptAll_stack (s.setScope i (·.failed c) |>.scope i).children (s := s.setScope i (·.failed c)) hr
      split
      · exact ⟨rfl, hr⟩
      · split
        · exact ⟨h1, h2⟩
        · have h3 := fun b => fiberInterrupt_stack (s := { State.interruptAll (s.setScope i (·.failed c))
            (s.setScope i (·.failed c) |>.scope i).children with astray := b }) h2
          exact ⟨(h3 _ _ _).1.trans h1, (h3 _ _ _).2⟩
  · exact ⟨rfl, hr⟩

namespace Awaited

theorem watch (h : Awaited s ts d w late False) (hv : v ≠ w) (hs : s.stack = .gen g ends :: rest) (hr : s.running = true)
    (verb : Verb) (f : FiberId) : Awaited (s.request v (.watch verb f)) ts d w late False := by
  have h1 : Awaited (if verb = .interrupt then s.fiberInterrupt f none else s) ts d w late False ∧
      (if verb = .interrupt then s.fiberInterrupt f none else s).stack = .gen g ends :: rest := by
    split
    · exact ⟨h.fiberInterrupt _ _, (fiberInterrupt_stack hr _ _).1.trans hs⟩
    · exact ⟨h, hs⟩
  dsimp only [State.request]
  split
  · exact h.reply hv hs _
  · split
    · next hi =>
        rw [if_pos hi.1] at h1 ⊢
        split
        · exact (h1.1.deliver _ _).reply hv h1.2 _
        · exact h1.1.reply hv h1.2 _
    · exact h1.1.watchEnd hv h1.2 _ _

theorem request (h : Awaited s ts d w late False) (hv : v ≠ w) (hs : s.stack = .gen g ends :: rest) (hr : s.running = true)
    (req : Request) : Awaited (s.request v req) ts d w late False := by
  have hsusp := h.suspend (absurd · hv) hs
  cases req with
  | pause =>
      simp only [State.request]
      split
      · exact h.reply hv hs _
      · have h1 : Awaited { s.suspend v with pauses := (s.suspend v).pauses + 1 } ts d w late False := { hsusp with }
        split
        · exact { h1 with laters := by have := h1.laters; grind }
        · exact (h1.cons (Task.fits_of (by simp) (by simpa using hv))).enqueue
  | await =>
      exact { hsusp with
        awaits := by
          have := h.awaits
          dsimp only [State.request]; grind }
  | deferredAwait e =>
      simp only [State.request]
      split
      · exact h.reply hv hs _
      · split
        · exact h.reply hv hs _
        · next hf =>
            refine hsusp.addWaiter (absurd · hv) ?_
            have hc := congrArg Prod.snd (Still.suspend s v).cells
            simp only [State.cells] at hc
            simpa [hc] using hf
  | watch verb f => exact h.watch hv hs hr verb f
  | perform => exact h.push (by simp)
  | close i =>
      simp only [State.request]
      split
      · exact h.reply hv hs _
      · exact hsusp.setScope (Or.inr (by simpa using hv))

theorem yield (h : Awaited s ts d w late False) (hs : s.stack = .gen g ends :: rest) (hr : s.running = true)
    (req : Request) : Awaited (s.yield g ends req) ts d w late False := by
  simp only [State.yield]
  split
  · exact (h.deliver _ _).loop hs _ _
  · exact (h.newWait g ends req.closing req.performs).request (Nat.ne_of_gt h.lt) hs hr req

/-! ## Steps -/

theorem scopeEnd (h : Awaited s ts d w late False) (hs : s.stack = .gen g ends :: rest) (hr : s.running = true) (i : ScopeId)
    (r : Result) (frames : List Frame) : Awaited (s.scopeEnd g ends i r frames) ts d w late False := by
  have h1 := h.setFiber (f := s.fiberOf g) (k := (·.leaveScope i)) fun _ hu => Or.inl hu
  have h2 := (h1.setFrames g frames).setScope (i := i)
    (k := fun x => { x with bodyDone := true, closed := true, body := some r }) (Or.inl rfl)
  obtain ⟨s2, he, h2, hs2, hr2⟩ : ∃ s2, ((s.setFiber (s.fiberOf g) (·.leaveScope i)).setFrames g frames).setScope i
      (fun x => { x with bodyDone := true, closed := true, body := some r }) = s2 ∧ Awaited s2 ts d w late False ∧
      s2.stack = .gen g ends :: rest ∧ s2.running = true := ⟨_, rfl, h2, hs, hr⟩
  obtain ⟨hs3, hr3⟩ := memberEnded_stack hr2 i r
  obtain ⟨hs4, hr4⟩ := interruptAll_stack ((s2.memberEnded i r).scope i).children hr3
  have h4 := (h2.memberEnded i r).interruptAll ((s2.memberEnded i r).scope i).children
  simp only [State.scopeEnd, he]
  split
  · exact h4.setScope (Or.inl rfl)
  · refine @Awaited.yield _ _ _ _ _ _ _ rest (Awaited.setFrames (h4.setFiber fun _ hu => Or.inl hu) _ _) ?_ hr4 _
    exact (hs4.trans hs3).trans hs2

theorem runTask (h : Awaited s (t :: ts) d w late False) : Awaited (s.runTask t) ts d w late False := by
  cases t with
  | begin f =>
      have h1 := h.tail (by simp [Task.wait])
      simp only [State.runTask]
      split
      · exact h1.fiberFinish _ _ _
      · exact h1.push (by simp)
  | go v =>
      have h1 := h.tail (by simp [Task.wait])
      have hv : v ≠ w := by
        rintro rfl
        exact h.gos (by simp)
      simp only [State.runTask]
      split
      · exact (h1.take (t := .resume v (.next undef)) rfl ⟨by simp, fun inp he => by cases he; exact absurd rfl hv⟩).fiberResume
      · exact h1
  | resume v inp => exact h.fiberResume
  | interrupted v => exact (h.deliver _ _).continued rfl (fun _ => Or.inr rfl) _
  | drop v => exact h.continued rfl (fun _ => Or.inr rfl) _
  | unwind v =>
      simp only [State.runTask]
      split
      · exact (h.deliver _ _).continued rfl (fun _ => Or.inr rfl) _
      · exact h.continued rfl (fun _ => Or.inr rfl) _

theorem tick (h : Awaited s [] d w late False) (hi : Inv s [] none) (hs : s.tick = some s') : Awaited s' [] d w late False := by
  simp only [State.tick] at hs
  split at hs
  · next rest hstack =>
      split at hs
      · next t queue _ hq =>
          obtain rfl := Option.some.inj hs
          have h1 : Awaited { s with queue := queue } [t] d w late False :=
            { h with
              gos := fun hg => h.gos (by simpa [hq] using hg)
              resume := fun inp hr => h.resume inp (by simpa [hq] using hr)
              here := by simpa [hq] using h.here }
          exact h1.runTask
      · obtain rfl := Option.some.inj hs
        have h1 := h.pop hstack (by simp)
        exact { h1 with }
  · next v rest hstack =>
      obtain rfl := Option.some.inj hs
      obtain ⟨more, rfl⟩ := hi.flow.calls (.opEnd v) rest v (by simp [hstack]) rfl
      exact h.performed hstack (h.ne_of_performs (hi.flow.calling v (by simp [hstack, Act.op?])).2.2.2.2)
  · next c rest hstack =>
      obtain rfl := Option.some.inj hs
      exact { h with
        wakes := by have := h.wakes; grind [State.Gives]
        here := by have := h.here; grind }
  · next c v inp more rest hstack =>
      obtain rfl := Option.some.inj hs
      have hv : v = w → s.Gives d inp := by
        rintro rfl
        exact h.wakes c ((v, inp) :: more) (by simp [hstack]) inp (by simp)
      have h1 : Awaited { s with stack := .wakes c more :: rest } [] d w late (s.live w ∧ v = w) :=
        { h with
          wakes := by have := h.wakes; grind [State.Gives]
          here := by have := h.here; grind }
      exact h1.cont hv _
  · cases hs

theorem leave (h : Awaited s [] d w late False) (hi : Inv s [] none) {r : Result} (hs : s.leave r = some s') :
    Awaited s' [] d w late False := by
  simp only [State.leave] at hs
  split at hs
  · next g ends rest hstack =>
      split at hs
      · obtain rfl := Option.some.inj hs
        refine (h.pop hstack (by simp)).ended ?_ _ _
        rintro v rfl
        exact h.ne_of_performs (hi.flow.settledRunning g v (by simp [hstack]))
      · obtain rfl := Option.some.inj hs
        exact h.scopeEnd hstack (hi.flow.running_of (a := .gen g ends) (by simp [hstack]) (by simp [Act.Idle])) _ _ _
      · cases hs
  · next f rest hstack =>
      have h1 := h.pop hstack (by simp)
      cases r with
      | ok v =>
          obtain rfl := Option.some.inj hs
          exact h1.fiberFinish _ _ _
      | error e =>
          obtain rfl := Option.some.inj hs
          exact h1.fiberFinish _ _ _
  · next v rest hstack =>
      obtain rfl := Option.some.inj hs
      have h1 : Awaited { s with stack := .opEnd v :: rest } [] d w late False :=
        h.restack fun c l => by simp [hstack]
      exact h1.settled (h.ne_of_performs (hi.flow.calling v (by simp [hstack, Act.op?])).2.2.2.2) _ _
  · cases hs

theorem leaveGen (h : Awaited s [] d w late False) (hs : s.leaveGen = some s') : Awaited s' [] d w late False := by
  simp only [State.leaveGen] at hs
  split at hs
  · next f rest hstack =>
      obtain rfl := Option.some.inj hs
      have h1 := h.pop hstack (by simp)
      have h2 : Awaited (State.newGen { s with stack := rest } f).2 [] d w late False := { h1 with }
      exact (h2.setFiber fun _ hu => Or.inl hu).enter _ _ _
  · next v rest hstack =>
      obtain rfl := Option.some.inj hs
      have h1 : Awaited { s with stack := .opEnd v :: rest } [] d w late False :=
        h.restack fun c l => by simp [hstack]
      have h2 : Awaited (State.setOp (State.newGen { s with stack := .opEnd v :: rest } (s.wait v).fiber).2 v
          fun x => { x with onDrop := true }) [] d w late False := { h1 with }
      exact h2.enter _ _ _
  · cases hs

theorem foldl {α : Type} {step : State → α → State} (hstep : ∀ {s} a, Awaited s ts d w late lost → Awaited (step s a) ts d w late lost)
    (l : List α) : ∀ {s : State}, Awaited s ts d w late lost → Awaited (l.foldl step s) ts d w late lost := by
  induction l with
  | nil => exact id
  | cons a l ih => exact fun h => ih (hstep a h)

theorem rootInterrupt (h : Awaited s ts d w late lost) : Awaited s.rootInterrupt ts d w late lost := by
  have hpend : ∀ {s : State} (f : FiberId), Awaited s ts d w late lost → Awaited (s.pend f) ts d w late lost := fun f h => by
    refine h.setFiber fun u hu => Or.inl ?_
    split at hu <;> exact hu
  have hwait : ∀ {s : State} (v : WaitId), Awaited s ts d w late lost → Awaited (s.unwindWait v) ts d w late lost := fun v h => by
    simp only [State.unwindWait]
    split
    · exact (h.dropFuel _ rfl (t := .unwind v) (by simp)).enqueue
    · exact h
  have h1 := foldl hpend (List.range s.nextFiber) h
  simp only [State.rootInterrupt]
  split
  · exact h
  · split
    · exact foldl hwait _ h1
    · exact (foldl hwait _ h1).drain

/-- The Deferred, or another one, is completed. -/
theorem complete (h : Awaited s ts d w late False) (current : Option FiberId) (e : DeferredId) (x : Value) :
    Awaited (s.complete current e x) ts d w late False := by
  simp only [State.complete]
  split
  · exact h
  · next hn =>
      simp only [Bool.or_eq_true, not_or, Bool.not_eq_true] at hn
      have hgives : ∀ inp, s.Gives d inp →
          (s.setDeferred e fun y => { y with full := true, value := x, waiters := [] }).Gives d inp := by
        intro inp
        simp only [State.Gives, State.setDeferred]
        grind [Function.update_apply]
      exact { h with
        empty := by have := h.empty; dsimp only [State.setDeferred, State.pushAct]; grind [Function.update_apply]
        wakes := by
          have := h.wakes
          have := h.waiters
          dsimp only [State.setDeferred, State.pushAct] at hgives ⊢
          intro c l hc inp hi
          obtain hc | hc := List.mem_cons.mp hc
          · cases hc
            obtain ⟨v, hv, he⟩ := List.mem_map.mp hi
            cases he
            obtain rfl := h.waiters e hv
            simp [State.Gives]
          · exact hgives _ (h.wakes c l hc inp hi)
        waiters := by have := h.waiters; dsimp only [State.setDeferred, State.pushAct]; grind [Function.update_apply]
        resume := fun inp hr => hgives _ (h.resume inp hr)
        received := fun inp hi => (h.received inp hi).imp_left (Or.imp_left (hgives inp))
        here := by
          by_cases he : e = d
          · subst he
            obtain hh | hh | hh | hh | ⟨hl, hw | ⟨c, l, inp, hc, hi⟩⟩ := h.here
            · exact Or.inl hh
            · exact Or.inr (Or.inl hh)
            · exact Or.inr (Or.inr (Or.inl hh))
            · exact Or.inr (Or.inr (Or.inr (Or.inl hh)))
            · exact Or.inr (Or.inr (Or.inr (Or.inr ⟨hl, Or.inr ⟨current, _, .next x, List.mem_cons_self,
                List.mem_map.mpr ⟨w, hw, rfl⟩⟩⟩)))
            · exact Or.inr (Or.inr (Or.inr (Or.inr ⟨hl, Or.inr ⟨c, l, inp, List.mem_cons_of_mem _ hc, hi⟩⟩)))
          · have := h.here
            dsimp only [State.setDeferred, State.pushAct]; grind [Function.update_apply] }

theorem newDeferred (h : Awaited s ts d w late lost) (i : ScopeId) : Awaited ((s.newDeferred i).getD s) ts d w late lost := by
  simp only [State.newDeferred]
  split
  · exact h
  · have hne : d ≠ s.nextDeferred := Nat.ne_of_lt h.cell
    have hgives : ∀ inp, s.Gives d inp → State.Gives { s with
        deferred := Function.update s.deferred s.nextDeferred { scope := i } } d inp := by
      intro inp
      simp only [State.Gives, Function.update_of_ne hne]
      exact id
    exact { h with
      cell := Nat.lt_succ_of_lt h.cell
      empty := by have := h.empty; dsimp only [Option.getD_some]; grind [Function.update_apply]
      wakes := fun c l hc inp hi => hgives _ (h.wakes c l hc inp hi)
      waiters := by have := h.waiters; dsimp only [Option.getD_some]; grind [Function.update_apply]
      resume := fun inp hr => hgives _ (h.resume inp hr)
      received := fun inp hi => (h.received inp hi).imp_left (Or.imp_left (hgives inp))
      here := by have := h.here; dsimp only [Option.getD_some]; grind [Function.update_apply] }

theorem exec (h : Awaited s [] d w late False) (hi : Inv s [] none) {e : Event} (hs : s.exec e = some s') :
    Awaited s' [] d w late False := by
  cases e with
  | tick => exact h.tick hi hs
  | settle v inp =>
      simp only [State.exec, Option.ite_none_right_eq_some, Bool.and_eq_true] at hs
      obtain ⟨⟨-, hv⟩, hs⟩ := hs
      obtain rfl := Option.some.inj hs
      have h1 : Awaited { s with awaits := s.awaits.erase v } [] d w late False :=
        { h with awaits := fun hw => h.awaits (List.erase_subset hw) }
      refine h1.cont_ne ?_ _ _
      rintro rfl
      exact h.awaits (by simpa using hv)
  | later v =>
      simp only [State.exec, Option.ite_none_right_eq_some, Bool.and_eq_true] at hs
      obtain ⟨⟨-, hv⟩, hs⟩ := hs
      obtain rfl := Option.some.inj hs
      have h1 : Awaited { s with laters := s.laters.erase v } [] d w late False :=
        { h with laters := fun hw => h.laters (List.erase_subset hw) }
      refine (h1.cons (Task.fits_of (by simp) ?_)).schedule
      rintro he
      cases he
      exact h.laters (by simpa using hv)
  | stall =>
      simp only [State.exec, Option.ite_none_right_eq_some] at hs
      exact Option.some.inj hs.2 ▸ h.rootInterrupt
  | abandon =>
      simp only [State.exec, Option.ite_none_right_eq_some] at hs
      exact Option.some.inj hs.2 ▸ { h with here := Or.inr (Or.inl rfl) }
  | resume foreign v x =>
      simp only [State.exec, Option.ite_none_right_eq_some, Bool.and_eq_true] at hs
      exact Option.some.inj hs.2 ▸ h.resumed (h.ne_of_performs hs.1.2) _ _
  | fork i =>
      simp only [State.exec, Option.ite_none_right_eq_some] at hs
      obtain rfl := Option.some.inj hs.2
      simp only [State.fork]
      split
      · exact h
      · have h1 : Awaited { s with
            nextFiber := s.nextFiber + 1, fiber := Function.update s.fiber s.nextFiber { scope := some i } } [] d w late False :=
          { h with
            watchers := by have := h.watchers; dsimp only; grind [Function.update_apply] }
        exact ((h1.setScope (Or.inl rfl)).cons (Task.fits_of (by simp) (by simp))).schedule
  | deferred i =>
      simp only [State.exec, Option.ite_none_right_eq_some] at hs
      exact Option.some.inj hs.2 ▸ h.newDeferred i
  | complete foreign e x =>
      simp only [State.exec, Option.ite_none_right_eq_some] at hs
      exact Option.some.inj hs.2 ▸ h.complete _ e x
  | hold =>
      simp only [State.exec] at hs
      split at hs
      · exact Option.some.inj hs ▸ (h.setFiber fun _ hu => Or.inl hu).setFrames _ _
      · cases hs
  | unhold =>
      simp only [State.exec] at hs
      split at hs
      · split at hs
        · exact Option.some.inj hs ▸ (h.setFiber fun _ hu => Or.inl hu).setFrames _ _
        · cases hs
      · cases hs
  | scope =>
      simp only [State.exec] at hs
      split at hs
      · next g ends rest hstack =>
          obtain rfl := Option.some.inj hs
          have h1 : Awaited { s with
              nextScope := s.nextScope + 1
              scope := Function.update s.scope s.nextScope
                { fiber := s.fiberOf g, depth := (s.fiber (s.fiberOf g)).scopes, gen := g } } [] d w late False :=
            { h with
              closer := by have := h.closer; dsimp only; grind [Function.update_apply] }
          exact (h1.setFiber fun _ hu => Or.inl hu).setFrames _ _
      · cases hs
  | yield req =>
      simp only [State.exec] at hs
      split at hs
      · next g ends rest hstack =>
          simp only [Option.ite_none_right_eq_some] at hs
          obtain rfl := Option.some.inj hs.2
          exact h.yield hstack (hi.flow.running_of (a := .gen g ends) (by simp [hstack]) (by simp [Act.Idle])) req
      · cases hs
  | leave r => exact h.leave hi hs
  | leaveGen => exact h.leaveGen hs

theorem run (events : List Event) : ∀ {s s' : State}, Awaited s [] d w late False → Inv s [] none →
    s.run events = some s' → Awaited s' [] d w late False := by
  induction events with
  | nil =>
      intro s s' h _ hs
      exact Option.some.inj hs ▸ h
  | cons e events ih =>
      intro s s' h hi hs
      obtain ⟨s1, he, hs⟩ := Option.bind_eq_some_iff.mp hs
      exact ih (h.exec hi he) (hi.exec he) hs

end Awaited

end Emela.Runtime
