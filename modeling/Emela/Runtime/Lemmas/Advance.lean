import Emela.Runtime.Lemmas.Interrupts

/-!
# Continuations that go on keep the invariant
-/

namespace Emela.Runtime

variable {s : State} {tasks : List Task} {ts : List Task} {w : WaitId} {t : Task} {g : GenId} {ends : End}
  {rest : List Act} {hot : Option ScopeId} {inp : Input}

/-! ## `gen[mode](input)` -/

theorem State.input_plain (hn : ∀ i r rest, s.frames g ≠ .closing i r :: rest) (inp : Input) :
    s.input g inp = { s with advances := s.advances + 1 } := by
  simp only [State.input]

theorem State.input_closing {i : ScopeId} {r : Result} {frames : List Frame} (hf : s.frames g = .closing i r :: frames)
    (inp : Input) : ∃ k : Scope → Scope,
      s.input g inp = State.setScope (State.setFrames (State.setFiber { s with advances := s.advances + 1 } (s.fiberOf g)
        fun x => { x with holds := x.holds.erase g }) g frames) i k ∧
      ∀ x, k x = { x with closer := x.closer, ended := (k x).ended, exit := (k x).exit } := by
  cases inp with
  | next v => exact ⟨fun x => { x with ended := true, exit := some (x.outcome r) },
      by simp [State.input, hf], fun _ => rfl⟩
  | throw e => exact ⟨fun x => { x with exit := some (.error e) }, by simp [State.input, hf], fun _ => rfl⟩

theorem State.input_rest (s : State) (g : GenId) (inp : Input) :
    (s.input g inp).queue = s.queue ∧ (s.input g inp).cut = s.cut ∧ (s.input g inp).astray = s.astray := by
  simp only [State.input]
  split
  · cases inp <;> exact ⟨rfl, rfl, rfl⟩
  · exact ⟨rfl, rfl, rfl⟩

theorem Flow.input (h : Flow s tasks) (hg : g < s.nextGen) : Flow (s.input g inp) tasks := by
  by_cases hn : ∃ i r rest, s.frames g = .closing i r :: rest
  · obtain ⟨i, r, frames, hf⟩ := hn
    obtain ⟨k, he, hk⟩ := s.input_closing hf inp
    rw [he]
    have h1 : Flow { s with advances := s.advances + 1 } tasks := { h with }
    have h2 := h1.setFiber (f := s.fiberOf g) (k := fun x => { x with holds := x.holds.erase g })
      (fun _ h => h) (fun _ h => Or.inl h)
    refine (h2.setFrames hg frames).setScope fun w hw => Or.inl ?_
    rw [hk] at hw
    exact hw
  · rw [s.input_plain (fun i r rest hf => hn ⟨i, r, rest, hf⟩)]
    exact { h with }

theorem Passing.input (h : Passing s tasks) : Passing (s.input g inp) tasks := by
  by_cases hn : ∃ i r rest, s.frames g = .closing i r :: rest
  · obtain ⟨i, r, frames, hf⟩ := hn
    obtain ⟨k, he, -⟩ := s.input_closing hf inp
    rw [he]
    exact { h with }
  · rw [s.input_plain (fun i r rest hf => hn ⟨i, r, rest, hf⟩)]
    exact { h with }

theorem Members.input (h : Members s tasks) (hg : g ∈ s.stack.filterMap Act.gen?) (hlt : g < s.nextGen) :
    Members (s.input g inp) tasks := by
  by_cases hn : ∃ i r rest, s.frames g = .closing i r :: rest
  · obtain ⟨i, r, frames, hf⟩ := hn
    obtain ⟨k, he, hk⟩ := s.input_closing hf inp
    rw [he]
    have hi := (h.closings g i r (by simp [hf])).2.1
    have hnodup := h.framesNodup g
    rw [hf] at hnodup
    have h1 : Members { s with advances := s.advances + 1 } tasks := { h with }
    have h2 := h1.setFiber (k := fun x => { x with holds := x.holds.erase g }) (h.genFiber g hlt) rfl rfl rfl
    have h3 := h2.setFrames hg frames (fun j hj => h.bodies g j (by simp [hf, hj]))
      (fun j r' hj => h.closings g j r' (by simp [hf, hj])) (List.nodup_cons.mp hnodup).2 fun j hj => by
        have hj : .body j ∈ s.frames g := hj
        simpa [hf] using hj
    exact h3.setScope hi (hk _)
  · rw [s.input_plain (fun i r rest hf => hn ⟨i, r, rest, hf⟩)]
    exact { h with }

theorem Targets.input (h : Targets s tasks hot) : Targets (s.input g inp) tasks hot := by
  by_cases hn : ∃ i r rest, s.frames g = .closing i r :: rest
  · obtain ⟨i, r, frames, hf⟩ := hn
    obtain ⟨k, he, hk⟩ := s.input_closing hf inp
    rw [he]
    have h1 : Targets { s with advances := s.advances + 1 } tasks hot := { h with }
    have h2 := h1.setFiber (f := s.fiberOf g) (k := fun x => { x with holds := x.holds.erase g }) rfl rfl rfl rfl id
      (fun _ h => h)
    have h3 := h2.setFrames (g := g) frames fun j hj => by
      have hj : .body j ∈ s.frames g := hj
      simpa [hf] using hj
    exact h3.setScope (by rw [hk]) (by rw [hk]) (by rw [hk]) (by rw [hk]) (by rw [hk]; exact List.Subset.refl _)
  · rw [s.input_plain (fun i r rest hf => hn ⟨i, r, rest, hf⟩)]
    exact { h with }

namespace Inv

theorem sublist {ts' : List Task} (h : Inv s ts hot) (hs : ts'.Sublist ts) : Inv s ts' hot where
  flow := h.flow.sublist (hs.append_right _)
  passing := h.passing.subset (hs.append_right _).subset
  members := h.members.sublist (hs.append_right _)
  closing := fun hc => (h.closing hc).subset (hs.append_right _).subset
  targets := fun hc ha => (h.targets hc ha).subset (hs.append_right _).subset

/-- A generator on the stack is advanced. -/
theorem input (h : Inv s ts hot) (hg : g ∈ s.stack.filterMap Act.gen?) : Inv (s.input g inp) ts hot := by
  have hlt := (h.flow.running g hg).2
  obtain ⟨hq, hc, ha⟩ := s.input_rest g inp
  refine ⟨hq ▸ h.flow.input hlt, hq ▸ h.passing.input, hq ▸ h.members.input hg hlt, fun hn => ?_, fun hn hm => ?_⟩
  · have hcl := h.closing (hc ▸ hn)
    rw [hq, s.input_plain fun i r rest hf => hcl.running g hg i r (by simp [hf])]
    exact { hcl with }
  · exact hq ▸ (h.targets (hc ▸ hn) (ha ▸ hm)).input

/-- The continuation of a task runs. -/
theorem continued (h : Inv s (t :: ts) none) (ht : t.wait = some w) (he : ends = (s.wait w).ends ∨ ends = .orphan)
    (hr : s.running = true) (hi : t.gives inp) (hc : s.cut = false → (s.wait w).closing → inp = .next undef) :
    Inv (s.continue w ends inp) ts none := by
  simp only [State.continue]
  split
  · exact h.sublist (List.sublist_cons_self t ts)
  · have hg : (s.wait w).gen ∈ (s.unpark w ends inp).stack.filterMap Act.gen? := by simp [State.unpark, Act.gen?]
    have hflow : Flow (s.unpark w ends inp) (ts ++ s.queue) := h.flow.unpark ht he hr inp
    have hlt := (hflow.running _ hg).2
    have hends : ends = .main → (s.wait w).ends = .main := by
      rintro rfl
      exact (he.resolve_right (by simp)).symm
    have hmem := (h.members.unpark h.flow (List.mem_cons_self ..) ht hends inp).sublist
      (List.sublist_cons_self t (ts ++ s.queue))
    obtain ⟨hq, hcut, hastray⟩ := (s.unpark w ends inp).input_rest (s.wait w).gen inp
    refine ⟨hq ▸ hflow.input hlt, hq ▸ (h.passing.unpark h.flow ht hi).input, hq ▸ hmem.input hg hlt,
      fun hn => ?_, fun hn hm => ?_⟩
    · have hcl := h.closing (hcut ▸ hn)
      rw [hq]
      cases hw : (s.wait w).closing with
      | true =>
          obtain rfl := hc (hcut ▸ hn) hw
          exact hcl.resumeScope h.flow h.members ht hw
      | false =>
          have hun : Closing (s.unpark w ends inp) (ts ++ s.queue) := hcl.unpark h.flow ht hw inp
          rw [State.input_plain fun i r rest hf => hun.running _ hg i r (by simp [hf])]
          exact { hun with }
    · have htar := (h.targets (hcut ▸ hn) (hastray ▸ hm)).subset (List.subset_cons_self t (ts ++ s.queue))
      have hun : Targets (s.unpark w ends inp) (ts ++ s.queue) none := { htar with }
      exact hq ▸ hun.input

/-! ## `$Fiber.resume` and `cont` -/

theorem deliver (h : Inv s ts hot) {f : FiberId} (hf : f < s.nextFiber)
    (hd : s.cut = false → s.astray = false → Delivers s f g) : Inv (s.deliver f g).2 ts hot := by
  obtain ⟨-, hm, hr, hs, hh, hw, hu⟩ := Fiber.unwind_rest (s.fiber f) (s.target f)
  have hflow : Flow { s with unwound := (s.deliver f g).2.unwound } (ts ++ s.queue) := { h.flow with }
  have hmem : Members { s with unwound := (s.deliver f g).2.unwound } (ts ++ s.queue) := { h.members with }
  have hcl : s.cut = false → Closing { s with unwound := (s.deliver f g).2.unwound } (ts ++ s.queue) := fun hc =>
    { h.closing hc with }
  let k : Fiber → Fiber := fun x => x.unwind (s.target f)
  exact {
    flow := hflow.setFiber (k := k) (fun w hw' => hw ▸ hw') (fun u hu' => Or.inl (hu ▸ hu'))
    passing := { h.passing with }
    members := hmem.setFiber (k := k) hf hs hm hr
    closing := fun hc => (hcl hc).setFiber (k := k) hh
    targets := fun hc ha => (h.targets hc ha).deliver (hd hc ha) }

/-- The fiber and the continuation of a task for a main continuation. -/
theorem main_of_taken (h : Inv s (t :: ts) hot) (ht : t.wait = some w) (he : (s.wait w).ends = .main) :
    (s.wait w).fiber < s.nextFiber ∧ (s.fiber (s.wait w).fiber).main = some (s.wait w).gen := by
  obtain ⟨-, hs, hp⟩ := h.flow.taken t (by simp) w ht
  have hlt := h.flow.lt hs
  rw [h.flow.fiber w hlt]
  exact ⟨h.members.genFiber _ (h.flow.genLt w hlt), h.members.mainPaused _ w hp he⟩

theorem not_interrupting (h : Inv s (t :: ts) hot) (ht : t.wait = some w) (hc : s.cut = false)
    (hw : (s.wait w).closing) : (s.fiber (s.wait w).fiber).interrupting = false := by
  obtain ⟨-, hs, hp⟩ := h.flow.taken t (by simp) w ht
  have hh := (h.closing hc).held hp hw
  rw [← h.flow.fiber w (h.flow.lt hs)] at hh
  simp [Fiber.interrupting, hh]

/-- An interruption is to be delivered in place of what was passed. -/
theorem overtake (h : Inv s (.resume w inp :: ts) none) (hc : s.cut = false → (s.wait w).closing = false) :
    Inv { s with overtaken := Function.update s.overtaken w true } (.drop w :: ts) none where
  flow := { h.flow.retask rfl rfl with }
  passing := h.passing.overtake h.flow
  members := { (h.members.sublist (List.sublist_cons_self ..)).cons (t := .drop w) rfl with }
  closing := fun hn => { ((h.closing hn).subset (List.subset_cons_self ..)).cons (t := .drop w) fun v hv => by
    cases hv
    exact hc hn with }
  targets := fun hn ha => { ((h.targets hn ha).subset (List.subset_cons_self ..)).cons (t := .drop w) (by simp) with }

theorem fiberResume (h : Inv s (.resume w inp :: ts) none) (hr : s.running = true) :
    Inv (s.fiberResume w inp) ts none := by
  have hplain : Inv (s.continue w (s.wait w).ends inp) ts none :=
    h.continued rfl (Or.inl rfl) hr (Or.inl ⟨w, rfl⟩) fun hc hw => by
      simpa using (h.closing hc).tasks (.resume w inp) (by simp) w rfl hw
  dsimp only [State.fiberResume]
  split
  · next v he =>
      split
      · next hi =>
          obtain ⟨hf, hm⟩ := h.main_of_taken rfl he
          have hclosing : s.cut = false → (s.wait w).closing = false := fun hc => by
            cases hw : (s.wait w).closing with
            | false => rfl
            | true => simp [h.not_interrupting rfl hc hw] at hi
          have ho := h.overtake hclosing
          have hd := ho.deliver (g := (s.wait w).gen) hf fun hc ha =>
            (ho.targets hc ha).delivers hm ((ho.targets hc ha).interrupting hi)
          refine hd.continued (t := .drop w) rfl (Or.inl rfl) hr (Or.inr ⟨rfl, by simp⟩) fun hc hw => ?_
          have hw : (s.wait w).closing = true := hw
          simp [hclosing hc] at hw
      · exact hplain
  · exact hplain

/-- A continuation that is no caller is taken back to be continued. -/
theorem take (h : Inv s ts none) (hl : s.live w) (hw : Parked s w) : Inv (s.unwait w) (.resume w inp :: ts) none where
  flow := h.flow.unwait hl hw.1 rfl
  passing := h.passing.unwait hl hw.2.1 inp
  members := (h.members.unwait h.flow hw.1).cons rfl
  closing := fun hn => (h.closing hn).unwait h.flow hw.2.2 rfl
  targets := fun hn ha => ((h.targets hn ha).unwait w).cons (by simp)

theorem contTaken (h : Inv (s.unwait w) (.resume w inp :: ts) none) {current : Option FiberId}
    (hl : s.live w) (hr : current ≠ none → s.running = true) : Inv (s.cont current w inp) ts none := by
  have hplain (hr : s.running = true) : Inv ((s.unwait w).continue w (s.wait w).ends inp) ts none :=
    h.continued rfl (Or.inl rfl) hr (Or.inl ⟨w, rfl⟩) fun hc hw => by
      simpa using (h.closing hc).tasks (.resume w inp) (by simp) w rfl hw
  simp only [State.cont, hl, if_true]
  split
  · next hcur => exact hplain (hr (by simp [hcur]))
  · exact h.schedule

theorem cont (h : Inv s ts none) {current : Option FiberId} (hw : Parked s w)
    (hr : current ≠ none → s.running = true) : Inv (s.cont current w inp) ts none := by
  by_cases hl : s.live w = true
  · exact (h.take hl hw).contTaken hl hr
  · simpa only [State.cont, if_neg hl] using h

end Inv
end Emela.Runtime
