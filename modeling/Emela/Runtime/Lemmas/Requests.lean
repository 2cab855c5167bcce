import Emela.Runtime.Lemmas.Advance

/-!
# Requests keep the invariant
-/

namespace Emela.Runtime

variable {s s' : State} {tasks : List Task} {ts : List Task} {w : WaitId} {t : Task} {g : GenId} {ends : End}
  {rest : List Act} {hot : Option ScopeId} {inp : Input} {current : Option FiberId}

/-- Other code than callbacks of the host runs only while the queue is drained. -/
theorem Flow.running_of (h : Flow s tasks) {a : Act} (ha : a ∈ s.stack) (hn : ¬ a.Idle) : s.running = true := by
  cases hr : s.running with
  | true => rfl
  | false => exact absurd (h.idle hr a ha) hn

theorem Unanswered.running (hw : Unanswered s w) (h : Flow s tasks) : s.running = true := by
  obtain ⟨rest, hs⟩ := hw.stack
  exact h.running_of (a := .gen (s.wait w).gen (s.wait w).ends) (by simp [hs]) (by simp [Act.Idle])

theorem Unanswered.kept (hw : Unanswered s w) (hr : s.running = true) (hk : Kept s s') : Unanswered s' w where
  lt := hk.nextWait ▸ hw.lt
  stack := by rw [hk.stack hr, hk.wait]; exact hw.stack
  calling := by rw [hk.stack hr]; exact hw.calling
  live := (hk.live w hw.suspended).trans hw.live
  suspended := by rw [hk.suspended]; exact hw.suspended
  received := by rw [hk.received]; exact hw.received

theorem State.suspend_rest (s : State) (w : WaitId) :
    (s.suspend w).queue = s.queue ∧ (s.suspend w).cut = s.cut ∧ (s.suspend w).astray = s.astray ∧
      (s.suspend w).suspended = Function.update s.suspended w true ∧ (s.suspend w).wait = s.wait := by
  simp only [State.suspend]
  cases (s.wait w).ends <;> exact ⟨rfl, rfl, rfl, rfl, rfl⟩

/-- Once it is suspended, a request can wait for something else than an implementation or children. -/
theorem Parked.suspend (hp : (s.wait w).performs = false) (hc : (s.wait w).closing = false) :
    Parked (s.suspend w) w := by
  obtain ⟨-, -, -, hs, hw⟩ := s.suspend_rest w
  exact ⟨by simp [hs], hw ▸ hp, hw ▸ hc⟩

namespace Inv

theorem pop (h : Inv s ts hot) {a : Act} (hs : s.stack = a :: rest) : Inv { s with stack := rest } ts hot where
  flow := h.flow.pop hs
  passing := { h.passing with }
  members := h.members.pop hs
  closing := fun hc => (h.closing hc).pop hs
  targets := fun hc ha => { h.targets hc ha with }

theorem newWait (h : Inv s ts hot) (hs : s.stack = .gen g ends :: rest) (closing performs : Bool)
    (hc : closing = true → performs = false) : Inv (s.newWait g ends closing performs) ts hot where
  flow := h.flow.newWait hs hc
  passing := h.passing.newWait h.flow closing performs
  members := h.members.newWait h.flow closing performs
  closing := fun hn => (h.closing hn).newWait h.flow closing performs
  targets := fun hn ha => (h.targets hn ha).newWait h.flow closing performs

theorem suspend (h : Inv s ts hot) (hw : Unanswered s w) (hp : (s.wait w).performs = false)
    (hsync : (s.op w).sync = false) (hc : (s.wait w).closing = false) : Inv (s.suspend w) ts hot := by
  obtain ⟨hq, hcut, hastray, -, -⟩ := s.suspend_rest w
  exact {
    flow := hq ▸ h.flow.suspend hw
    passing := hq ▸ h.passing.suspend hsync (by simp [hp])
    members := hq ▸ h.members.suspend h.flow hw
    closing := fun hn => hq ▸ (h.closing (hcut ▸ hn)).suspend hw hc
    targets := fun hn ha => hq ▸ (h.targets (hcut ▸ hn) (hastray ▸ ha)).suspend w }

/-- The loop of `$advance` goes on. -/
theorem loop (h : Inv s ts none) (hs : s.stack = .gen g ends :: rest) (inp : Input) : Inv (s.loop g inp) ts none := by
  simp only [State.loop]
  split
  · simp only [State.popAct, hs, List.tail_cons]
    exact h.pop hs
  · exact h.input (by simp [hs, Act.gen?])

theorem reply (h : Inv s ts none) (hw : Unanswered s w) (hp : (s.wait w).performs → s.passed w = some inp) :
    Inv (s.reply w inp) ts none := by
  obtain ⟨rest, hs⟩ := hw.stack
  simp only [State.reply]
  split
  · exact h.loop hs inp
  · have h1 : Inv { s with received := Function.update s.received w (s.received w ++ [inp]) } ts none :=
      { flow := h.flow.answer hw inp
        passing := h.passing.answer hw hp
        members := { h.members with }
        closing := fun hc => { h.closing hc with }
        targets := fun hc ha => { h.targets hc ha with } }
    exact h1.loop hs inp

/-! ## What holds on to a request -/

theorem setAwaits (h : Inv s ts hot) {l : List WaitId} (hl : ∀ w ∈ l, Parked s w) : Inv { s with awaits := l } ts hot where
  flow := { h.flow with awaits := hl }
  passing := { h.passing with }
  members := { h.members with }
  closing := fun hc => { h.closing hc with }
  targets := fun hc ha => { h.targets hc ha with }

theorem setLaters (h : Inv s ts hot) {l : List WaitId} (hl : ∀ w ∈ l, Parked s w) : Inv { s with laters := l } ts hot where
  flow := { h.flow with laters := hl }
  passing := { h.passing with }
  members := { h.members with }
  closing := fun hc => { h.closing hc with }
  targets := fun hc ha => { h.targets hc ha with }

theorem consGo (h : Inv s ts hot) (hw : Parked s w) : Inv s (.go w :: ts) hot where
  flow := h.flow.consGo hw
  passing := h.passing.cons rfl
  members := h.members.cons rfl
  closing := fun hc => (h.closing hc).cons (by simp [Task.wait])
  targets := fun hc ha => (h.targets hc ha).cons (by simp)

theorem setWaiters (h : Inv s ts hot) {d : DeferredId} {k : Deferred → Deferred}
    (hk : ∀ w ∈ (k (s.deferred d)).waiters, w ∈ (s.deferred d).waiters ∨ Parked s w) :
    Inv (s.setDeferred d k) ts hot where
  flow := h.flow.setDeferred hk
  passing := { h.passing with }
  members := h.members.setDeferred d k
  closing := fun hc => (h.closing hc).setDeferred d k
  targets := fun hc ha => { h.targets hc ha with }

/-- The fiber of a handle is watched. -/
theorem watched (h : Inv s ts hot) {f : FiberId} (hf : f < s.nextFiber) {u : Watcher} (hu : Parked s u.wait) :
    Inv (s.setFiber f fun x => { x with watchers := x.watchers ++ [u] }) ts hot where
  flow := h.flow.setFiber (fun _ h => h) fun v hv => by
    obtain hv | hv := List.mem_append.mp hv
    · exact Or.inl hv
    · obtain rfl := List.mem_singleton.mp hv
      exact Or.inr hu
  passing := { h.passing with }
  members := h.members.setFiber hf rfl rfl rfl
  closing := fun hc => (h.closing hc).setFiber rfl
  targets := fun hc ha => (h.targets hc ha).setFiber rfl rfl rfl rfl id (fun _ h => h)

theorem setPauses (h : Inv s ts hot) (n : Nat) : Inv { s with pauses := n } ts hot where
  flow := { h.flow with }
  passing := { h.passing with }
  members := { h.members with }
  closing := fun hc => { h.closing hc with }
  targets := fun hc ha => { h.targets hc ha with }

/-! ## The cases of `$advance` -/

theorem pause (h : Inv s ts none) (hw : Unanswered s w) (hp : (s.wait w).performs = false)
    (hsync : (s.op w).sync = false) (hc : (s.wait w).closing = false) : Inv (s.request w .pause) ts none := by
  dsimp only [State.request]
  split
  · exact h.reply hw (by simp [hp])
  · have hpark := Parked.suspend hp hc
    have h1 := (h.suspend hw hp hsync hc).setPauses ((s.suspend w).pauses + 1)
    split
    · refine h1.setLaters fun v hv => ?_
      obtain rfl | hv := List.mem_cons.mp hv
      · exact hpark
      · exact h1.flow.laters v hv
    · exact (h1.consGo hpark).enqueue

theorem await (h : Inv s ts none) (hw : Unanswered s w) (hp : (s.wait w).performs = false)
    (hsync : (s.op w).sync = false) (hc : (s.wait w).closing = false) : Inv (s.request w .await) ts none := by
  have h1 := h.suspend hw hp hsync hc
  have ha : (s.suspend w).awaits = s.awaits := by
    simp only [State.suspend]
    cases (s.wait w).ends <;> rfl
  refine h1.setAwaits fun v hv => ?_
  obtain rfl | hv := List.mem_cons.mp hv
  · exact Parked.suspend hp hc
  · exact h1.flow.awaits v (ha ▸ hv)

theorem deferredAwait (h : Inv s ts none) (hw : Unanswered s w) (hp : (s.wait w).performs = false)
    (hsync : (s.op w).sync = false) (hc : (s.wait w).closing = false) (d : DeferredId) : Inv (s.request w (.deferredAwait d)) ts none := by
  dsimp only [State.request]
  split
  · exact h.reply hw (by simp [hp])
  · split
    · exact h.reply hw (by simp [hp])
    · refine (h.suspend hw hp hsync hc).setWaiters fun v hv => ?_
      obtain hv | hv := List.mem_append.mp hv
      · exact Or.inl hv
      · obtain rfl := List.mem_singleton.mp hv
        exact Or.inr (Parked.suspend hp hc)

/-- A fiber that is not awaited yet, or ended. -/
theorem watchEnd (h : Inv s ts none) (hw : Unanswered s w) (hp : (s.wait w).performs = false)
    (hsync : (s.op w).sync = false) (hc : (s.wait w).closing = false) (verb : Verb) {f : FiberId} (hf : f < s.nextFiber) :
    Inv (match (s.fiber f).result with
      | some r => s.reply w (verb.input r)
      | none => (s.suspend w).setFiber f fun x => { x with watchers := x.watchers ++ [⟨w, verb⟩] }) ts none := by
  cases (s.fiber f).result with
  | some r => exact h.reply hw (by simp [hp])
  | none =>
      have hn : (s.suspend w).nextFiber = s.nextFiber := by
        simp only [State.suspend]
        cases (s.wait w).ends <;> rfl
      exact (h.suspend hw hp hsync hc).watched (hn ▸ hf) (Parked.suspend hp hc)

theorem watch (h : Inv s ts none) (hw : Unanswered s w) (hp : (s.wait w).performs = false)
    (hsync : (s.op w).sync = false) (hc : (s.wait w).closing = false) (verb : Verb) {f : FiberId} (hf : f < s.nextFiber) :
    Inv (s.request w (.watch verb f)) ts none := by
  dsimp only [State.request]
  split
  · exact h.reply hw (by simp [hp])
  · by_cases hv : verb = .interrupt
    · obtain ⟨h1, k1⟩ := h.fiberInterrupt none hf (fun _ _ i hi => by cases hi)
      have hasked : ((s.fiberInterrupt f none).fiber f).asked := k1.asked f (by simp [State.setFiber, Fiber.ask])
      have k1 := (Kept.ask s f none).trans k1
      have hw1 := hw.kept (hw.running h.flow) k1
      have hp1 : ((s.fiberInterrupt f none).wait w).performs = false := k1.wait ▸ hp
      have hsync1 : ((s.fiberInterrupt f none).op w).sync = false := k1.op ▸ hsync
      have hc1 : ((s.fiberInterrupt f none).wait w).closing = false := k1.wait ▸ hc
      simp only [hv, if_true, true_and]
      split
      · next hff =>
          split
          · have h2 := h1.deliver (f := s.fiberOf (s.wait w).gen) (g := (s.wait w).gen)
              (by rw [← hff, k1.nextFiber]; exact hf) fun hc ha =>
                (h1.targets hc ha).delivers_asked h1.members (hff ▸ hasked)
            have hw2 : Unanswered ((s.fiberInterrupt f none).deliver (s.fiberOf (s.wait w).gen) (s.wait w).gen).2 w :=
              { hw1 with }
            exact h2.reply hw2 fun hn => absurd hn (by simp [State.deliver, State.setFiber, hp1])
          · exact h1.reply hw1 (by simp [hp1])
      · exact h1.watchEnd hw1 hp1 hsync1 hc1 .interrupt (k1.nextFiber ▸ hf)
    · simp only [hv, if_false, false_and]
      exact h.watchEnd hw hp hsync hc verb hf

/-- An implementation is called. -/
theorem perform (h : Inv s ts none) (hw : Unanswered s w) (hp : (s.wait w).performs) (hsync : (s.op w).sync) :
    Inv (s.request w .perform) ts none where
  flow := h.flow.pushOp hw hp hsync (hw.running h.flow)
  passing := { h.passing with }
  members := h.members.push (a := .op w) rfl rfl
  closing := fun hc => (h.closing hc).push (a := .op w) (by simp [Act.gen?])
  targets := fun hc ha => { h.targets hc ha with }

theorem request (h : Inv s ts none) (hw : Unanswered s w) {req : Request} (hv : req.valid s)
    (hp : (s.wait w).performs = req.performs) (hc : (s.wait w).closing = req.closing)
    (hsync : (s.op w).sync = req.performs) : Inv (s.request w req) ts none := by
  cases req with
  | pause => exact h.pause hw hp hsync hc
  | await => exact h.await hw hp hsync hc
  | deferredAwait d => exact h.deferredAwait hw hp hsync hc d
  | watch verb f =>
      simp only [Request.valid, Bool.and_eq_true, decide_eq_true_eq] at hv
      exact h.watch hw hp hsync hc verb hv.1
  | perform => exact h.perform hw hp hsync
  | close i => cases hv

/-- An interruption takes effect at the request of a main continuation. -/
theorem yieldInterrupted (h : Inv s ts none) (hs : s.stack = .gen g .main :: rest)
    (hi : (s.fiber (s.fiberOf g)).interrupting) :
    Inv ((s.deliver (s.fiberOf g) g).2.loop g (.throw (s.deliver (s.fiberOf g) g).1)) ts none := by
  have hg := (h.flow.running g (by simp [hs, Act.gen?])).2
  have h1 := h.deliver (g := g) (h.members.genFiber g hg) fun hc ha =>
    (h.targets hc ha).delivers (h.members.mainRunning g (by simp [hs])) ((h.targets hc ha).interrupting hi)
  exact h1.loop hs _

theorem yield (h : Inv s ts none) (hs : s.stack = .gen g ends :: rest) {req : Request} (hv : req.valid s) :
    Inv (s.yield g ends req) ts none := by
  dsimp only [State.yield]
  split
  · next hi =>
      obtain ⟨rfl, hi⟩ := hi
      exact h.yieldInterrupted hs hi
  · have h1 := h.newWait hs req.closing req.performs (by cases req <;> simp [Request.closing, Request.performs])
    have hw := h.flow.newWait_unanswered hs req.closing req.performs
    refine h1.request hw ?_ ?_ ?_ ?_
    · cases req <;> exact hv
    · simp [State.newWait]
    · simp [State.newWait]
    · simp [State.newWait]

end Inv

/-! ## Operations keep the invariant -/

variable {s s' : State} {tasks : List Task} {ts : List Task} {w : WaitId} {t : Task} {g : GenId} {ends : End}
  {rest : List Act} {hot : Option ScopeId} {inp : Input} {current : Option FiberId}

/-- `suspend` and `sync = false` commute, as no operation is called by its own request. -/
theorem State.suspend_unsync (hw : ∀ v, (s.wait w).ends = .settled v → v ≠ w) :
    (s.setOp w fun x => { x with sync := false }).suspend w =
      (s.suspend w).setOp w fun x => { x with sync := false } := by
  simp only [State.suspend]
  cases he : (s.wait w).ends with
  | main => simp [State.setOp, State.park, State.setFiber, he]
  | settled v =>
      have hne := hw v he
      simp only [State.setOp, State.park, he]
      rw [Function.update_of_ne hne, Function.update_of_ne hne.symm, Function.update_comm hne]
  | orphan => simp [State.setOp, State.park, he]

namespace Inv

/-- The run ends. -/
theorem rootFinish (h : Inv s ts hot) (r : Result) : Inv (s.rootFinish r) ts hot := by
  simp only [State.rootFinish]
  split
  · exact h
  · have hs : (ts ++ []).Sublist (ts ++ s.queue) := (List.nil_sublist _).append_left ts
    exact {
      flow := { h.flow.sublist hs with waits := by simp }
      passing := { h.passing.subset hs.subset with }
      members := { h.members.sublist hs with }
      closing := fun hc => { (h.closing hc).subset hs.subset with }
      targets := fun hc ha => { (h.targets hc ha).subset hs.subset with } }

/-! ## `pass` -/

theorem suspended_of (h : Inv s ts hot) (hp : (s.wait w).performs) (hu : (s.op w).used = false)
    (hs : (s.op w).sync = false) : s.suspended w := by
  have := h.flow.performed w hp
  simpa [hu, hs] using this

/-- What is passed first, with `m` for the requests that were resumed. -/
theorem passOn (h : Inv s ts none) (hp : (s.wait w).performs) (hu : (s.op w).used = false)
    (hr : current ≠ none → s.running = true) (inp : Input) {m : WaitId → Bool} (hm : ∀ v, m v → v = w ∨ s.resumed v) :
    Inv (if (s.op w).sync then { s.setPassed w inp with resumed := m }
      else State.cont { s.setPassed w inp with resumed := m } current w inp) ts none := by
  have hlt := h.flow.performs_lt hp
  have hc := h.flow.performs w hp
  have hflow : Flow { s.setPassed w inp with resumed := m } (ts ++ s.queue) :=
    { h.flow.setOp (k := fun x => { x with used := true, now := if x.sync then some inp else x.now }) hlt rfl
        (fun _ => rfl) rfl with }
  have hmem : Members { s.setPassed w inp with resumed := m } (ts ++ s.queue) := { h.members with }
  have hcl : s.cut = false → Closing { s.setPassed w inp with resumed := m } (ts ++ s.queue) := fun hn =>
    { h.closing hn with }
  have htar : s.cut = false → s.astray = false → Targets { s.setPassed w inp with resumed := m } (ts ++ s.queue) none :=
    fun hn ha => { h.targets hn ha with }
  split
  · next hsync => exact ⟨hflow, h.passing.setPassed hlt hu (Or.inr (h.passing.synced w hsync)) inp hm, hmem, hcl, htar⟩
  · next hsync =>
      have hs := h.suspended_of hp hu (by simpa using hsync)
      by_cases hl : s.live w = true
      · refine contTaken ?_ hl hr
        exact {
          flow := hflow.unwait hl hs rfl
          passing := h.passing.passTo hlt hu hl hs inp hm
          members := (hmem.unwait hflow hs).cons rfl
          closing := fun hn => (hcl hn).unwait hflow hc rfl
          targets := fun hn ha => ((htar hn ha).unwait w).cons (by simp) }
      · have he : State.cont { s.setPassed w inp with resumed := m } current w inp =
            { s.setPassed w inp with resumed := m } := by
          simp only [State.cont]
          exact if_neg hl
        rw [he]
        exact ⟨hflow, h.passing.setPassed hlt hu (Or.inl (by simpa using hl)) inp hm, hmem, hcl, htar⟩

theorem pass (h : Inv s ts none) (hp : (s.wait w).performs) (hu : (s.op w).used = false)
    (hr : current ≠ none → s.running = true) (inp : Input) : Inv (s.pass current w inp) ts none := by
  have h1 := h.passOn hp hu hr inp (m := s.resumed) fun _ hv => Or.inr hv
  simpa [State.pass, State.setPassed, State.setOp] using h1

theorem resume (h : Inv s ts none) (hp : (s.wait w).performs) (hr : current ≠ none → s.running = true) (v : Value) :
    Inv ((s.resume current w v).getD s) ts none := by
  simp only [State.resume]
  split
  · exact h
  · split
    · exact h
    · next hu =>
        have h1 := h.passOn hp (by simpa using hu) hr (.next v) (m := Function.update s.resumed w true) fun x hx => by
          by_cases he : x = w
          · exact Or.inl he
          · exact Or.inr (by simpa [Function.update_of_ne he] using hx)
        simpa [State.pass, State.setPassed, State.setOp] using h1

/-- An implementation ends, or throws when it is called. -/
theorem settled (h : Inv s ts none) (hp : (s.wait w).performs) (hr : current ≠ none → s.running = true) (r : Result) :
    Inv (s.settled current w r) ts none := by
  simp only [State.settled]
  split
  · split
    · exact h.rootFinish _
    · next hu => exact h.pass hp (by simpa using hu) hr _
  · split
    · exact h.rootFinish _
    · next hu => exact h.pass hp (by simpa using hu) hr _
  · exact h

/-- `$performOp` returns. -/
theorem performed (h : Inv s ts none) (hs : s.stack = .opEnd w :: rest) : Inv (s.performed w) ts none := by
  obtain ⟨more, hrest⟩ := h.flow.calls (.opEnd w) rest w (by simp [hs]) rfl
  obtain ⟨hsync, hsusp, hrec, hlive, hp⟩ := h.flow.calling w (by simp [hs, Act.op?])
  have hlt := h.flow.performs_lt hp
  have hcall : w ∉ rest.filterMap Act.op? := by
    have := h.flow.callsNodup
    simp only [hs, List.filterMap_cons, Act.op?, List.nodup_cons] at this
    exact this.1
  have hused := h.passing.used w
  have h1 := h.pop hs
  have he : s.popAct = { s with stack := rest } := by simp [State.popAct, hs]
  generalize hs1 : ({ s with stack := rest } : State) = s1 at h1 he
  have hw : Unanswered s1 w := hs1 ▸ ⟨hlt, ⟨more, hrest⟩, hcall, hlive, hsusp, hrec⟩
  have hnow := h1.passing.now w (hs1 ▸ hsync)
  have hp1 : (s1.wait w).performs := hs1 ▸ hp
  have hopnow : ((s1.setOp w fun x => { x with sync := false }).op w).now = (s1.op w).now := by simp [State.setOp]
  simp only [State.performed, he, hopnow]
  have hpass := h1.passing.unsync w
  have hmem := h1.members.setOp w fun x => { x with sync := false }
  have hcl := fun hc => (h1.closing hc).setOp w fun x => { x with sync := false }
  have htar : s1.cut = false → s1.astray = false →
      Targets (s1.setOp w fun x => { x with sync := false }) (ts ++ s1.queue) none := fun hc ha => { h1.targets hc ha with }
  cases hv : (s1.op w).now with
  | some inp =>
      have hpassed : s1.passed w = some inp := by rw [← hnow, hv]
      have h2 : Inv (s1.setOp w fun x => { x with sync := false }) ts none :=
        ⟨h1.flow.unsync hw.lt hw.calling (Or.inr (by rw [h1.passing.used w, hpassed]; rfl)), hpass, hmem, hcl, htar⟩
      exact h2.reply { hw with } fun _ => hpassed
  | none =>
      have hcomm := State.suspend_unsync (s := s1) (w := w) fun v hv' => Nat.ne_of_lt (h1.flow.settled w v hv').2
      have hcl1 := h1.flow.performs w hp1
      have hw2 : Unanswered (s1.setOp w fun x => { x with sync := false }) w := { hw with }
      obtain ⟨hq, hcut, hastray, hs2, -⟩ := State.suspend_rest (s1.setOp w fun x => { x with sync := false }) w
      have hflow : Flow ((s1.setOp w fun x => { x with sync := false }).suspend w) (ts ++ s1.queue) := by
        rw [hcomm]
        have hsus := s1.suspend_rest w
        have hrest2 : (s1.suspend w).nextWait = s1.nextWait ∧ (s1.suspend w).stack = s1.stack.tail := by
          simp only [State.suspend]
          split <;> exact ⟨rfl, rfl⟩
        refine (h1.flow.suspend hw).unsync (by rw [hrest2.1]; exact hw.lt) ?_ (Or.inl (by simp [hsus]))
        rw [hrest2.2]
        exact fun hn => hw.calling (((List.tail_sublist s1.stack).filterMap _).subset hn)
      exact {
        flow := hq ▸ hflow
        passing := hq ▸ hpass.suspend (by simp [State.setOp]) fun _ => by
          rw [← hv, hnow]
          rfl
        members := by
          rw [hq, hcomm]
          exact (h1.members.suspend h1.flow hw).setOp w _
        closing := fun hc => hq ▸ (hcl (hcut ▸ hc)).suspend hw2 hcl1
        targets := fun hc ha => hq ▸ (htar (hcut ▸ hc) (hastray ▸ ha)).suspend w }

end Inv
end Emela.Runtime
