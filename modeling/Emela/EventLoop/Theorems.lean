import Emela.EventLoop.Runs
import Mathlib.Data.List.Induction

/-!
# What holds in every run of the event loop
-/

namespace Emela.EventLoop

open LinkedQueue

variable {P : Target} {s s' : State} {t : TaskId}

/-- A state that the runtime can be in; the clock is not negative when it begins. -/
def Reachable (P : Target) (s : State) : Prop := ∃ now actions, 0 ≤ now ∧ (State.init now).run P actions = some s

theorem Reachable.ok (hs : Reachable P s) : Ok P s := by
  obtain ⟨now, actions, -, hrun⟩ := hs
  exact (ok_init P now).run hrun

theorem run_append (s : State) (actions actions' : List Action) :
    s.run P (actions ++ actions') = (s.run P actions).bind fun s => s.run P actions' :=
  List.foldlM_append ..

theorem Reachable.run (hs : Reachable P s) {actions : List Action} (hrun : s.run P actions = some s') :
    Reachable P s' := by
  obtain ⟨now, before, hnow, hbefore⟩ := hs
  exact ⟨now, before ++ actions, hnow, by rw [run_append, hbefore]; exact hrun⟩

theorem Reachable.step (hs : Reachable P s) {action : Action} (hrun : s.step P action = some s') : Reachable P s' := by
  have hsingle : s.run P [action] = some s' := by simp [State.run, hrun]
  exact hs.run hsingle

/-- A call that registers two timers, and then waits; the second of them is due first, and completes the call. -/
def sleeping : List Action :=
  [.taskNew .int "sleep", .after 5 9 0, .after 3 9 1, .taskEnd 9 false 0, .poll 10 [], .turn, .turn]

def waking : List Action := [.turn, .complete true 9 ⟨some .int, 7, none⟩, .turn]

def sleepTarget : Target := ⟨3, 16, by decide⟩

/-- The generations 0 and 1 only. -/
def smallTarget : Target := ⟨1, 16, by decide⟩

/-- Three calls wait. The second ends, and so does the next one in its slot, and the first; then the slot is taken again. -/
def sharing : List Action :=
  [.taskNew .int "first", .taskEnd 3 false 0, .taskNew .int "second", .taskEnd 5 false 1, .taskNew .int "third",
    .taskEnd 7 false 2, .complete true 5 ⟨some .int, 7, none⟩, .poll 1 [], .turn, .turn, .turn,
    .taskNew .int "second", .taskEnd 4 false 3, .complete true 3 ⟨some .int, 7, none⟩,
    .complete true 4 ⟨some .int, 7, none⟩, .poll 2 [], .turn, .turn, .turn, .taskNew .int "second", .taskEnd 5 false 4]

/-- What can be computed of a state holds of it. -/
theorem of_run (P : Target) (actions : List Action) (p : State → Prop) [DecidablePred p]
    (h : ((State.init 0).run P actions).any (fun s => decide (p s)) = true) : ∃ s, Reachable P s ∧ p s := by
  obtain ⟨s, hs, hp⟩ := (Option.any_eq_true ..).mp h
  exact ⟨s, ⟨0, actions, Int.le_refl 0, hs⟩, of_decide_eq_true hp⟩

/-! ## Registrations -/

/-- The timers are a heap, each registration is at its index, the two arrays hold what the tasks have
registered, and a task whose completion has been delivered has nothing registered. -/
theorem Reachable.registrations (hs : Reachable P s) :
    s.timers.IsHeap (timerKey s.regs) ∧ s.fds.Indexed ∧
      (∀ g, s.timers.Mem g ↔ (s.regs g).kind = .timer ∧ s.Registered g) ∧
      (∀ g, s.fds.Mem g ↔ (s.regs g).kind ≠ .timer ∧ s.Registered g) ∧
      ∀ g, s.Registered g → s.Live (s.regs g).task := by
  have ok := hs.ok
  refine ⟨ok.regs.heap, ok.regs.fds, ok.regs.timers_mem, ok.regs.fds_mem, fun g hg => ?_⟩
  obtain ⟨Q, D, places⟩ := ok.places
  exact (places.each _).live (List.ne_nil_of_mem hg)

theorem registrations_sleeping : ∃ s : State, s.timers.len = 2 ∧ s.timers.IsHeap (timerKey s.regs) := by
  obtain ⟨s, hs, hlen⟩ := of_run sleepTarget sleeping (fun s => s.timers.len = 2) (by decide)
  exact ⟨s, hlen, hs.registrations.1⟩

/-! ## Handles -/

/-- The handle of a task finds it until it is freed, and after that another task only if both have had the
same slot and as many tasks were made in it as generations go round in. -/
theorem Reachable.handles (hs : Reachable P s) (ht : t < s.taskSeq) :
    (s.freed t = false → s.taskOf P (s.tasks t).handle = some (some t)) ∧
      ∃ o, s.taskOf P (s.tasks t).handle = some o ∧ ∀ t', o = some t' ↔
        (t' < s.taskSeq ∧ s.freed t' = false ∧ (s.tasks t').slot = (s.tasks t).slot ∧
          s.ordinal t' % 2 ^ P.genBits = s.ordinal t % 2 ^ P.genBits) := by
  obtain ⟨F, slots⟩ := hs.ok.slots
  constructor
  · intro hfreed
    obtain ⟨function, hfind⟩ := slots.slotFind_self ht hfreed
    rw [State.taskOf, hfind]
    rfl
  · obtain ⟨function, hfind⟩ := slots.slotFind ht
    refine ⟨_, by rw [State.taskOf, hfind]; rfl, fun t' => ?_⟩
    have hlt := slots.slot_lt t ht
    constructor
    · intro ho
      split at ho
      · next hgen =>
        obtain ⟨hmade, hfreed, hslot, -, hordinal⟩ := slots.holds _ hlt t' ho
        exact ⟨hmade, hfreed, hslot, by rw [hordinal, hgen]⟩
      · cases ho
    · rintro ⟨hmade, hfreed, hslot, hgen⟩
      have hheld := slots.held t' hmade hfreed
      rw [hslot] at hheld
      obtain ⟨-, -, -, -, hordinal⟩ := slots.holds _ hlt t' hheld
      rw [if_pos (by rw [← hordinal, hgen]), hheld]

/-- The handle of the task that had the slot two generations before finds the task that has it. -/
theorem handles_sharing : ∃ s : State, s.freed 1 = true ∧ s.taskOf smallTarget (s.tasks 1).handle = some (some 4) ∧
    s.taskOf smallTarget (s.tasks 2).handle = some (some 2) := by
  obtain ⟨s, hs, hseq, h1, h2, h4⟩ := of_run smallTarget sharing (fun s => s.taskSeq = 5 ∧ s.freed 1 = true ∧
    s.freed 2 = false ∧ s.freed 4 = false ∧ (s.tasks 4).slot = (s.tasks 1).slot ∧ s.ordinal 4 % 2 = s.ordinal 1 % 2)
    (by decide)
  have ht1 : 1 < s.taskSeq := by omega
  have ht2 : 2 < s.taskSeq := by omega
  obtain ⟨o, ho, hfinds⟩ := (hs.handles ht1).2
  have ht4 : 4 < s.taskSeq := by omega
  have ho4 : o = some 4 := (hfinds 4).mpr ⟨ht4, h4⟩
  exact ⟨s, h1, ho4 ▸ ho, (hs.handles ht2).1 h2⟩

/-- Each slot is once in the list of free slots, or holds one task. -/
theorem Reachable.slots_partition (hs : Reachable P s) : ∃ F : List Nat, F.Nodup ∧
    Queue (fun i => (s.slots i).nextFree) s.freeHead s.freeTail F ∧ (∀ i ∈ F, i < s.slotsLen) ∧
    ∀ i < s.slotsLen, (i ∈ F ∧ ∀ t < s.taskSeq, (s.tasks t).slot = i → s.freed t = true) ∨
      i ∉ F ∧ ∃ t < s.taskSeq, ∀ t' < s.taskSeq, ((s.tasks t').slot = i ∧ s.freed t' = false ↔ t' = t) := by
  obtain ⟨F, slots⟩ := hs.ok.slots
  refine ⟨F, slots.free.nodup, slots.free, fun i hi => ((slots.free_iff i).mp hi).1, fun i hi => ?_⟩
  cases htask : (s.slots i).task with
  | none =>
      refine .inl ⟨(slots.free_iff i).mpr ⟨hi, htask⟩, fun t ht hslot => ?_⟩
      by_contra hfreed
      have hheld := slots.held t ht (by simpa using hfreed)
      rw [hslot, htask] at hheld
      cases hheld
  | some t =>
      obtain ⟨hmade, hfreed, hslot, -⟩ := slots.holds i hi t htask
      refine .inr ⟨fun hin => ?_, t, hmade, fun t' ht' => ?_⟩
      · rw [((slots.free_iff i).mp hin).2] at htask
        cases htask
      · constructor
        · rintro ⟨hslot', hfreed'⟩
          have hheld := slots.held t' ht' hfreed'
          rw [hslot', htask] at hheld
          exact (Option.some.inj hheld).symm
        · rintro rfl
          exact ⟨hslot, hfreed⟩

/-- The slot of the first call is free, the other two are held. -/
theorem slots_sharing : ∃ (s : State) (F : List Nat), s.slotsLen = 3 ∧ F.Nodup ∧
    Queue (fun i => (s.slots i).nextFree) s.freeHead s.freeTail F ∧ ∀ i, i ∈ F ↔ i = 0 := by
  obtain ⟨s, hs, hlen, hseq, hfirst, ⟨h4, hslot4⟩, h2, hslot2⟩ := of_run smallTarget sharing (fun s => s.slotsLen = 3 ∧
    s.taskSeq = 5 ∧ (∀ t : Nat, t < 5 → (s.tasks t).slot = 0 → s.freed t = true) ∧ (s.freed 4 = false ∧ (s.tasks 4).slot = 1) ∧
    s.freed 2 = false ∧ (s.tasks 2).slot = 2) (by decide)
  obtain ⟨F, hnodup, hqueue, hlt, hslots⟩ := hs.slots_partition
  rw [hlen] at hlt hslots
  rw [hseq] at hslots
  have held : ∀ i < 3, ∀ t < 5, (s.tasks t).slot = i → s.freed t = false → i ∉ F := by
    intro i hi t ht hslot hfreed hin
    rcases hslots i hi with ⟨-, hall⟩ | ⟨hout, -⟩
    · rw [hall t ht hslot] at hfreed
      cases hfreed
    · exact hout hin
  refine ⟨s, F, hlen, hnodup, hqueue, fun i => ⟨fun hin => ?_, ?_⟩⟩
  · have hi := hlt i hin
    by_contra hne
    obtain rfl | rfl : i = 1 ∨ i = 2 := by omega
    · exact held 1 (by decide) 4 (by decide) hslot4 h4 hin
    · exact held 2 (by decide) 2 (by decide) hslot2 h2 hin
  · rintro rfl
    rcases hslots 0 (by decide) with ⟨hin, -⟩ | ⟨-, t, ht, hholder⟩
    · exact hin
    · obtain ⟨hslot, hfreed⟩ := (hholder t ht).mpr rfl
      rw [hfirst t ht hslot] at hfreed
      cases hfreed

/-! ## Lives -/

/-- What happens to a task is the life of a call, which is over when the task is retired or freed; until then a
completion is with the wrapper, in the inbox or in the loop's hands. -/
theorem Reachable.life (hs : Reachable P s) (t : TaskId) : ∃ life, s.life t = some life ∧
    (life = .gone ↔ ¬ s.Live t) ∧
    ∀ w completion dropped again, life = .live w (some completion) dropped again →
      s.phase = .idle → s.inboxHead = none → (s.tasks t).inPlace = true := by
  have ok := hs.ok
  obtain ⟨life, hlife, hmatch⟩ := ok.lives.each t
  obtain ⟨Q, D, places⟩ := ok.places
  refine ⟨life, hlife, ?_, fun w x d a hx hphase hinbox => ?_⟩
  · cases hmatch with
    | live hl _ _ _ _ _ => simp [hl]
    | gone hl => simp [hl]
  · subst hx
    cases hmatch with
    | live hl completed _ _ _ _ =>
        have hQ : Q = [] := by
          have hhead := places.inbox.head_eq
          rw [hinbox] at hhead
          exact List.head?_eq_none_iff.mp hhead.symm
        have hD : D = [] := by
          have htaken := places.taken
          rw [hphase] at htaken
          cases D with
          | nil => rfl
          | cons t D => cases htaken.1
        subst hQ hD
        rcases (places.each t).completed completed hl with hp | hq | hd
        · exact hp
        · cases hq
        · cases hd

theorem life_sleeping : ∃ s : State, s.retired = [0] ∧ s.life 0 = some .gone := by
  obtain ⟨s, hs, hretired⟩ := of_run sleepTarget (sleeping ++ waking) (fun s => s.retired = [0]) (by decide)
  obtain ⟨life, hlife, hover, -⟩ := hs.life 0
  have hdead : ¬ s.Live 0 := fun hl => hl.2 (by rw [hretired]; exact List.mem_singleton_self 0)
  exact ⟨s, hretired, by rw [hlife, hover.mpr hdead]⟩

/-- What a task is completed with. -/
def Event.completion : Event → Option Completion
  | .completed _ completion => some completion
  | _ => none

/-- The completion is given back, or dropped. -/
def Event.gives : Event → Bool
  | .resumed .. | .returned .. | .discarded _ => true
  | _ => false

/-- A call is over when its completion is given back or dropped. -/
theorem gives_of_gone {input : Completion → Input} {message : Bytes} {life : Life} {e : Event}
    (h : life.next input message e = some .gone) : e.gives = true := by
  simp only [Life.next] at h
  split at h
  any_goals cases h
  all_goals rfl

theorem lives_gone {a : Task} {events : List Event} {life : Life} (hlife : life ≠ .gone)
    (h : a.lives events life = some .gone) : ∃ e ∈ events, e.gives = true := by
  induction events generalizing life with
  | nil => exact absurd (Option.some.inj h) hlife
  | cons e events ih =>
      rw [Task.lives, List.foldlM_cons, Option.bind_eq_bind, Option.bind_eq_some_iff] at h
      obtain ⟨life', hnext, hrest⟩ := h
      by_cases hgone : life' = .gone
      · exact ⟨e, List.mem_cons_self, gives_of_gone (hgone ▸ hnext)⟩
      · obtain ⟨e', he', hgives⟩ := ih hgone hrest
        exact ⟨e', List.mem_cons_of_mem _ he', hgives⟩

/-- What has happened to a call that is not over. -/
structure Happened (events : List Event) (w : Option WaitId) (completion : Option Completion) (dropped : Bool) :
    Prop where
  suspended : ∀ x ∈ w, ∃ t, .suspended t x ∈ events
  completed : events.filterMap Event.completion = completion.toList
  dropped : dropped = false → ∀ t, .dropped t ∉ events
  kept : ∀ e ∈ events, e.gives = false

/-- Something else happens. -/
theorem Happened.more {events : List Event} {w : Option WaitId} {completion : Option Completion} {dropped : Bool}
    (h : Happened events w completion dropped) {e : Event} (hcompletion : e.completion = none)
    (hdropped : dropped = false → ∀ t, .dropped t ≠ e) (hkept : e.gives = false) :
    Happened (events ++ [e]) w completion dropped where
  suspended x hx := by
    obtain ⟨t, ht⟩ := h.suspended x hx
    exact ⟨t, List.mem_append_left _ ht⟩
  completed := by rw [List.filterMap_append, h.completed]; simp [hcompletion]
  dropped hd t := by
    rw [List.mem_append, not_or, List.mem_singleton]
    exact ⟨h.dropped hd t, hdropped hd t⟩
  kept e' he' := by
    rcases List.mem_append.mp he' with he' | he'
    · exact h.kept e' he'
    · rw [List.mem_singleton.mp he', hkept]

theorem lives_happened {a : Task} {events : List Event} {w : Option WaitId} {completion : Option Completion}
    {dropped again : Bool}
    (h : a.lives events (.live none none false false) = some (.live w completion dropped again)) :
    Happened events w completion dropped := by
  induction events using List.reverseRecOn generalizing w completion dropped again with
  | nil =>
      obtain ⟨rfl, rfl, rfl, rfl⟩ : none = w ∧ none = completion ∧ false = dropped ∧ false = again := by
        simpa [Task.lives] using h
      exact ⟨by simp, rfl, by simp, by simp⟩
  | append_singleton events e ih =>
      rw [Task.lives, List.foldlM_append, Option.bind_eq_bind, Option.bind_eq_some_iff] at h
      obtain ⟨life, hlife, hnext⟩ := h
      simp only [List.foldlM_cons, List.foldlM_nil, bind_pure, Life.next] at hnext
      split at hnext
      -- completed
      · have old := ih hlife
        simp only [Option.some.injEq, Life.live.injEq] at hnext
        obtain ⟨rfl, rfl, rfl, rfl⟩ := hnext
        refine ⟨fun x hx => ?_, ?_, fun hd t => ?_, fun e he => ?_⟩
        · obtain ⟨t, ht⟩ := old.suspended x hx
          exact ⟨t, List.mem_append_left _ ht⟩
        · rw [List.filterMap_append, old.completed]
          rfl
        · simp [old.dropped hd t]
        · rcases List.mem_append.mp he with he | he
          · exact old.kept e he
          · rw [List.mem_singleton.mp he]
            rfl
      -- completed again
      · have old := ih hlife
        simp only [Option.some.injEq, Life.live.injEq] at hnext
        obtain ⟨rfl, rfl, rfl, -⟩ := hnext
        exact old.more rfl (by simp) rfl
      -- suspended
      · have old := ih hlife
        simp only [Option.some.injEq, Life.live.injEq] at hnext
        obtain ⟨rfl, rfl, rfl, -⟩ := hnext
        rename_i t x
        have rest : Happened (events ++ [.suspended t x]) none _ false := old.more rfl (by simp) rfl
        refine ⟨fun x' hx' => ⟨t, ?_⟩, rest.completed, rest.dropped, rest.kept⟩
        rw [← Option.some.inj hx']
        exact List.mem_append_right _ (List.mem_singleton_self _)
      -- dropped
      · have old := ih hlife
        simp only [Option.some.injEq, Life.live.injEq] at hnext
        obtain ⟨rfl, rfl, rfl, -⟩ := hnext
        refine ⟨fun x hx => ?_, ?_, fun hd => absurd hd.symm Bool.false_ne_true, fun e he => ?_⟩
        · obtain ⟨t, ht⟩ := old.suspended x hx
          exact ⟨t, List.mem_append_left _ ht⟩
        · rw [List.filterMap_append, old.completed]
          exact List.append_nil _
        · rcases List.mem_append.mp he with he | he
          · exact old.kept e he
          · rw [List.mem_singleton.mp he]
            rfl
      -- the host is told
      · have old := ih hlife
        simp only [Option.some.injEq, Life.live.injEq] at hnext
        obtain ⟨rfl, rfl, rfl, -⟩ := hnext
        exact old.more rfl (by simp) rfl
      -- the end of the call
      · simp at hnext
      · simp at hnext
      · cases hnext
      · cases hnext

/-- A wait is resumed once, with what the first completion of the task it was made for gives back, and not once
the fiber is interrupted. -/
theorem Reachable.resumed_once (hs : Reachable P s) {w : WaitId} {input : Input} (h : .resumed t w input ∈ s.log) :
    ∃ before completion, eventsOf t s.log = before ++ [.resumed t w input] ∧
      .suspended t w ∈ before ∧ before.filterMap Event.completion = [completion] ∧
      input = (s.tasks t).inputOf completion ∧ .dropped t ∉ before ∧ ∀ e ∈ before, e.gives = false := by
  obtain ⟨life, hlife, -⟩ := hs.ok.lives.each t
  have hin : .resumed t w input ∈ eventsOf t s.log := by
    rw [eventsOf, List.mem_filter]
    exact ⟨h, by simp [Event.about]⟩
  obtain ⟨before, after, hsplit⟩ := List.append_of_mem hin
  rw [State.life, hsplit, Task.lives, List.foldlM_append, Option.bind_eq_bind, Option.bind_eq_some_iff] at hlife
  obtain ⟨life', hbefore, hrest⟩ := hlife
  rw [List.foldlM_cons, Option.bind_eq_bind, Option.bind_eq_some_iff] at hrest
  obtain ⟨life'', hnext, hafter⟩ := hrest
  obtain ⟨w', completion, again, rfl, rfl, rfl, rfl⟩ : ∃ w' completion again,
      life' = .live (some w') (some completion) false again ∧ w = w' ∧ input = (s.tasks t).inputOf completion ∧
        life'' = .gone := by
    cases life' with
    | gone => simp [Life.next] at hnext
    | live w₀ completion₀ dropped₀ again₀ =>
        cases w₀ <;> cases completion₀ <;> cases dropped₀ <;> simp [Life.next] at hnext
        obtain ⟨⟨rfl, rfl⟩, rfl⟩ := hnext
        exact ⟨_, _, _, rfl, rfl, rfl, rfl⟩
  have hnil : after = [] := by
    cases after with
    | nil => rfl
    | cons e after => simp [Life.next] at hafter
  subst hnil
  have happened := lives_happened (a := s.tasks t) hbefore
  obtain ⟨t', ht'⟩ := happened.suspended w rfl
  have habout : t' = t := by
    have hmem : .suspended t' w ∈ eventsOf t s.log := by
      rw [hsplit]
      exact List.mem_append_left _ ht'
    rw [eventsOf, List.mem_filter] at hmem
    simpa [Event.about] using hmem.2
  subst habout
  exact ⟨before, completion, hsplit, ht', happened.completed, rfl, happened.dropped rfl t', happened.kept⟩

theorem resumed_sleeping : ∃ (s : State) (before : List Event), eventsOf 0 s.log = before ++ [.resumed 0 0 (.value 7)] ∧
    .suspended 0 0 ∈ before := by
  obtain ⟨s, hs, hresumed⟩ := of_run sleepTarget (sleeping ++ waking)
    (fun s => .resumed 0 0 (.value 7) ∈ s.log) (by decide)
  obtain ⟨before, completion, hevents, hsuspended, -⟩ := hs.resumed_once hresumed
  exact ⟨s, before, hevents, hsuspended⟩

/-! ## Turns end -/

/-- The thread gets from one state to the other by going on with its turn. -/
def Turns (P : Target) (s s' : State) : Prop := ∃ n, s.run P (List.replicate n .turn) = some s'

theorem Turns.refl (s : State) : Turns P s s := ⟨0, rfl⟩

theorem Turns.head {s₁ : State} (h : s.turn = some s₁) (h' : Turns P s₁ s') : Turns P s s' := by
  obtain ⟨n, hn⟩ := h'
  refine ⟨n + 1, ?_⟩
  rw [List.replicate_succ, State.run, List.foldlM_cons]
  change (s.turn).bind _ = _
  rw [h]
  exact hn

theorem turns_timers (n limit : Nat) : ∀ s, Ok P s → s.phase = .timers limit → s.timers.len = n →
    ∃ s', Turns P s s' ∧ s'.phase = .idle := by
  induction n with
  | zero =>
      intro s _ hphase hlen
      refine ⟨{ s with phase := .idle }, .head ?_ (.refl _), rfl⟩
      simp [State.turn, hphase, hlen]
  | succ n ih =>
      intro s hs hphase hlen
      by_cases hdue : s.now < (s.regs (s.timers.items 0)).time ∨ limit ≤ s.timers.items 0
      · refine ⟨{ s with phase := .idle }, .head ?_ (.refl _), rfl⟩
        simp [State.turn, hphase, hdue]
      · have hmem := (hs.regs.timers_mem (s.timers.items 0)).mp ⟨0, by omega, rfl⟩
        have hfire : s.turn = some (s.regFire (s.timers.items 0)) := by
          simp only [State.turn, hphase]
          rw [if_pos ⟨by omega, hdue⟩]
        have hlen' : (s.regFire (s.timers.items 0)).timers.len = n := by
          have hkind : ((s.regUnlink (s.timers.items 0)).regs (s.timers.items 0)).kind = .timer := hmem.1
          change ((s.regUnlink (s.timers.items 0)).regRemove (s.timers.items 0)).timers.len = n
          rw [State.regRemove, if_pos hkind]
          change (s.timers.removeAt _ _).len = n
          rw [IndexedArray.removeAt_len, hlen, Nat.add_sub_cancel]
        have hphase' : (s.regFire (s.timers.items 0)).phase = .timers limit := by
          rw [(onlyRegs_regFire ..).rest]
          exact hphase
        obtain ⟨s', hturns, hidle⟩ := ih _ (hs.regFire hmem.2) hphase' hlen'
        exact ⟨s', hturns.head hfire, hidle⟩

theorem turns_files (ready : List RegId) : ∀ s, Ok P s → s.phase = .files ready →
    ∃ s', Turns P s s' ∧ s'.phase = .idle := by
  induction ready with
  | nil =>
      intro s hs hphase
      have hturn : s.turn = some { s with phase := .timers s.regSeq } := by simp only [State.turn, hphase]
      obtain ⟨s', hturns, hidle⟩ := turns_timers _ s.regSeq _ (hs.turn hturn) rfl rfl
      exact ⟨s', hturns.head hturn, hidle⟩
  | cons g ready ih =>
      intro s hs hphase
      obtain ⟨s₁, hturn, hphase₁⟩ : ∃ s₁, s.turn = some s₁ ∧ s₁.phase = .files ready := by
        simp only [State.turn, hphase]
        exact ⟨_, rfl, rfl⟩
      obtain ⟨s', hturns, hidle⟩ := ih s₁ (hs.turn hturn) hphase₁
      exact ⟨s', hturns.head hturn, hidle⟩

theorem turns_deliveries (D : List TaskId) : ∀ s Q ready, Ok P s → TasksOk s Q D →
    (∃ head, s.phase = .inbox head [] ready) → ∃ s', Turns P s s' ∧ s'.phase = .idle := by
  induction D with
  | nil =>
      rintro s Q ready hs places ⟨head, hphase⟩
      have hhead : head = none := by
        have htaken := places.taken
        rw [hphase] at htaken
        exact htaken
      subst hhead
      have hturn : s.turn = some { s with phase := .files ready } := by simp only [State.turn, hphase]
      obtain ⟨s', hturns, hidle⟩ := turns_files ready _ (hs.turn hturn) rfl
      exact ⟨s', hturns.head hturn, hidle⟩
  | cons t D ih =>
      rintro s Q ready hs places ⟨head, hphase⟩
      have hhead : head = some t := by
        have htaken := places.taken
        rw [hphase] at htaken
        exact htaken.1
      subst hhead
      have hturn := hs.deliverFirst places hphase rfl
      obtain ⟨hok, D', hD, places'⟩ := hturn
      obtain rfl : D = D' := (List.cons.inj hD).2
      obtain ⟨s', hturns, hidle⟩ := ih _ Q ready hok places' ⟨_, rfl⟩
      exact ⟨s', hturns.head (by simp only [State.turn, hphase]) , hidle⟩

/-- A turn ends when its callbacks call nothing. -/
theorem Reachable.turn_ends (hs : Reachable P s) : ∃ s', Turns P s s' ∧ s'.phase = .idle := by
  have ok := hs.ok
  cases hphase : s.phase with
  | idle => exact ⟨s, .refl s, hphase⟩
  | files ready => exact turns_files ready s ok hphase
  | timers limit => exact turns_timers _ limit s ok hphase rfl
  | inbox head twice ready =>
      clear hs
      induction twice generalizing s with
      | nil =>
          obtain ⟨Q, D, places⟩ := ok.places
          exact turns_deliveries D s Q ready ok places ⟨head, hphase⟩
      | cons function twice ih =>
          obtain ⟨s₁, hturn, hphase₁⟩ : ∃ s₁, s.turn = some s₁ ∧ s₁.phase = .inbox head twice ready := by
            simp only [State.turn, hphase]
            exact ⟨_, rfl, rfl⟩
          obtain ⟨s', hturns, hidle⟩ := ih (ok.turn hturn) hphase₁
          exact ⟨s', hturns.head hturn, hidle⟩

theorem turn_ends_sleeping : ∃ s s' : State, s.phase = .timers 2 ∧ Turns sleepTarget s s' ∧ s'.phase = .idle := by
  obtain ⟨s, hs, hphase⟩ := of_run sleepTarget sleeping (fun s => s.phase = .timers 2) (by decide)
  obtain ⟨s', hturns, hidle⟩ := hs.turn_ends
  exact ⟨s, s', hphase, hturns, hidle⟩

/-! ## Turns deliver -/

/-- A completed task stays completed, does not go back to its host function nor to the inbox. -/
structure Stays (a b : Task) : Prop where
  completed : a.completed = true → b.completed = true
  inPlace : b.inPlace = true → a.inPlace = true
  queued : a.completed = true → b.queued = true → a.queued = true

theorem Stays.refl (a : Task) : Stays a a := ⟨id, id, fun _ => id⟩

theorem Stays.trans {a b d : Task} (h : Stays a b) (h' : Stays b d) : Stays a d :=
  ⟨h'.completed ∘ h.completed, h.inPlace ∘ h'.inPlace, fun ha hd => h.queued ha (h'.queued (h.completed ha) hd)⟩

theorem stays_update {task : Task} (hs : s'.tasks = Function.update s.tasks t task) (h : Stays (s.tasks t) task)
    (t' : TaskId) : Stays (s.tasks t') (s'.tasks t') := by
  rw [hs]
  by_cases ht : t' = t
  · rw [ht, Function.update_self]
    exact h
  · rw [Function.update_of_ne ht]
    exact .refl _

theorem stays_setTask (s : State) (t t' : TaskId) {f : Task → Task} (h : Stays (s.tasks t) (f (s.tasks t))) :
    Stays (s.tasks t') ((s.setTask t f).tasks t') :=
  stays_update rfl h t'

theorem OnlyRegs.stays (h : OnlyRegs s s') (t : TaskId) : Stays (s.tasks t) (s'.tasks t) := by
  rw [h.tasks]
  exact ⟨id, id, fun _ => id⟩

theorem stays_taskCancel (s : State) (t t' : TaskId) : Stays (s.tasks t') ((s.taskCancel t).tasks t') := by
  cases hcancelled : (s.tasks t).cancelled with
  | true =>
      rw [State.taskCancel, if_pos hcancelled]
      exact .refl _
  | false =>
      have tasks : (s.taskCancel t).tasks = Function.update s.tasks t
          { s.tasks t with cancelled := true, wait := none, onCancel := none } := by rw [taskCancel_eq hcancelled]
      exact stays_update tasks ⟨id, id, fun _ => id⟩ t'

theorem stays_deliver (s : State) (t t' : TaskId) : Stays (s.tasks t') ((s.deliver t).tasks t') := by
  have hunregister := (onlyRegs_taskUnregister s t).stays t'
  let s₁ := s.taskUnregister t
  have tasks : (s₁.wake t).tasks = Function.update s₁.tasks t
      { s₁.tasks t with wait := none, completion := { (s₁.tasks t).completion with str := none } } := by rw [wake_eq]
  change Stays (s.tasks t') ((if (s₁.tasks t).inPlace then s₁ else s₁.wake t).tasks t')
  split
  · exact hunregister
  · exact hunregister.trans (stays_update tasks ⟨id, id, fun _ => id⟩ t')

theorem stays_completeAgain (s : State) (here : Bool) (o : Option TaskId) (function : Option String) (t' : TaskId) :
    Stays (s.tasks t') ((s.completeAgain here o function).tasks t') := by
  cases here with
  | false => exact .refl _
  | true =>
      cases o with
      | none => exact .refl _
      | some t =>
          have tasks : ((s.setTask t fun task => { task with twice := true }).emit (.again t)).tasks =
              Function.update s.tasks t { s.tasks t with twice := true } := rfl
          change Stays _ ((if (s.tasks t).inPlace then (s.setTask t fun task => { task with twice := true }).emit (.again t)
            else s.emit (.failedRun (twiceMessage function))).tasks t')
          split
          · exact stays_update tasks ⟨id, id, fun _ => id⟩ t'
          · exact .refl _

theorem unqueue_inboxHead (n : Nat) (head : Option TaskId) (s : State) :
    (State.unqueue n head s).inboxHead = s.inboxHead := by
  induction n generalizing head s with
  | zero => rfl
  | succ n ih =>
      cases head with
      | none => rfl
      | some t => exact (ih ..).trans rfl

/-- A turn begins with an empty inbox. -/
theorem Ok.poll_queued (hs : Ok P s) (hphase : s.phase = .idle) (hcalling : s.calling = false) (now : Int)
    (ready : List RegId) (t : TaskId) : ((s.poll now ready).tasks t).queued = false := by
  obtain ⟨Q, D, places⟩ := (hs.poll hphase hcalling now ready).places
  have hQ : Q = [] := by
    have hhead := places.inbox.head_eq
    have hnone : (s.poll now ready).inboxHead = none := unqueue_inboxHead ..
    rw [hnone] at hhead
    exact List.head?_eq_none_iff.mp hhead.symm
  rw [Bool.eq_false_iff, Ne, (places.each t).queued, hQ]
  exact List.not_mem_nil

theorem Ok.stays_poll (hs : Ok P s) (hphase : s.phase = .idle) (hcalling : s.calling = false) (now : Int)
    (ready : List RegId) (t : TaskId) : Stays (s.tasks t) ((s.poll now ready).tasks t) := by
  obtain ⟨Q, D, places⟩ := hs.collect.places
  have tasks : ({ s.collect with now } : State).tasks = s.tasks := by
    change s.collect.tasks = s.tasks
    rw [collect_eq]
  have places₁ : TasksOk { s.collect with now } Q D := places.congr
    ⟨fun _ => .refl _, rfl, rfl, rfl, rfl, rfl, rfl, rfl⟩
  have only : OnlyInbox { s.collect with now } (s.poll now ready) := onlyInbox_takeInbox places₁ ready
  refine ⟨fun h => ?_, fun h => ?_, fun _ h => ?_⟩
  · rw [only.tasks, tasks]
    exact h
  · rw [only.tasks, tasks] at h
    exact h
  · rw [hs.poll_queued hphase hcalling] at h
    cases h

/-- What going on with a turn does, besides coming to another part of it. -/
theorem turn_cases (hrun : s.turn = some s') : ∃ phase,
    (∃ function, s' = { s.emit (.failedRun (twiceMessage function)) with phase }) ∨
    (∃ t, s' = { (s.setTask t fun task => { task with inboxNext := none }).deliver t with phase }) ∨
    (∃ g, s' = { s.regFire g with phase }) ∨ s' = { s with phase } := by
  simp only [State.turn] at hrun
  split at hrun
  · cases hrun
  · exact ⟨_, .inl ⟨_, (Option.some.inj hrun).symm⟩⟩
  · exact ⟨_, .inr (.inl ⟨_, (Option.some.inj hrun).symm⟩)⟩
  · exact ⟨_, .inr (.inr (.inr (Option.some.inj hrun).symm))⟩
  · next g ready hphase =>
    have hs' := (Option.some.inj hrun).symm
    split at hs'
    · exact ⟨_, .inr (.inr (.inl ⟨g, hs'⟩))⟩
    · exact ⟨_, .inr (.inr (.inr hs'))⟩
  · exact ⟨_, .inr (.inr (.inr (Option.some.inj hrun).symm))⟩
  · split at hrun
    · exact ⟨_, .inr (.inr (.inl ⟨_, (Option.some.inj hrun).symm⟩))⟩
    · exact ⟨_, .inr (.inr (.inr (Option.some.inj hrun).symm))⟩

theorem stays_turn (hrun : s.turn = some s') (t : TaskId) : Stays (s.tasks t) (s'.tasks t) := by
  obtain ⟨phase, ⟨function, rfl⟩ | ⟨t', rfl⟩ | ⟨g, rfl⟩ | rfl⟩ := turn_cases hrun
  · exact .refl _
  · have hfirst : Stays (s.tasks t) ((s.setTask t' fun task => { task with inboxNext := none }).tasks t) :=
      stays_setTask s t' t ⟨id, id, fun _ => id⟩
    exact hfirst.trans (stays_deliver _ t' t)
  · exact (onlyRegs_regFire s g).stays t
  · exact .refl _

theorem stays_ended (a : Task) (wait : Option WaitId) (completion : Completion) :
    Stays a { a with inPlace := false, wait, completion } := by
  refine ⟨id, fun hp => ?_, fun _ => id⟩
  cases hp

/-- What a step leaves of a task. -/
theorem Reachable.stays (hs : Reachable P s) {action : Action} (hrun : s.step P action = some s')
    (ht : t < s.taskSeq) : Stays (s.tasks t) (s'.tasks t) := by
  have ok := hs.ok
  have registered : ∀ {kind time fd o cb}, s.register kind time fd o cb = s' → Stays (s.tasks t) (s'.tasks t) := by
    rintro kind time fd o cb rfl
    exact (onlyRegs_register ..).stays t
  cases action with
  | taskNew kind function =>
      obtain ⟨F, slots⟩ := ok.slots
      obtain ⟨slot, handle, frame⟩ := slots.taskNew_frame hrun
      rw [frame]
      change Stays (s.tasks t) (Function.update s.tasks s.taskSeq _ t)
      rw [Function.update_of_ne ht.ne]
      exact .refl _
  | taskEnd h dead w =>
      simp only [State.step] at hrun
      split at hrun
      · obtain ⟨t', -, hcases⟩ := taskEnd_cases hrun
        rcases hcases with ⟨-, -, hs'⟩ | ⟨-, rfl⟩ | ⟨-, hs'⟩
        · exact stays_update (congrArg State.tasks hs') (stays_ended ..) t
        · have hfirst : Stays (s.tasks t) ((s.setTask t' fun task => { task with inPlace := false }).tasks t) :=
            stays_setTask s t' t (stays_ended ..)
          exact hfirst.trans (stays_taskCancel ..)
        · exact stays_update (congrArg State.tasks hs') (stays_ended ..) t
      · cases hrun
  | complete here h completion =>
      simp only [State.step, State.complete] at hrun
      split at hrun
      · cases hrun
      · rw [← Option.some.inj hrun]
        exact stays_completeAgain ..
      · next t' function hfind =>
        cases hc : (s.tasks t').completed with
        | true =>
            rw [if_pos hc, Option.some.injEq] at hrun
            rw [← hrun]
            exact stays_completeAgain ..
        | false =>
            rw [hc, if_neg Bool.false_ne_true, Option.some.injEq] at hrun
            have hfirst : Stays (s.tasks t) (((s.setTask t' fun task =>
                { task with completed := true, completion }).emit (.completed t' completion)).tasks t) :=
              stays_setTask (f := fun task => { task with completed := true, completion }) s t' t
                ⟨fun _ => rfl, id, fun _ => id⟩
            rw [← hrun]
            cases here with
            | true => exact hfirst.trans (stays_deliver ..)
            | false =>
                -- only now is the task completed, and queued
                have hpush := (onlyInbox_pushInbox ((s.setTask t' fun task =>
                  { task with completed := true, completion }).emit (.completed t' completion)) t').tasks t
                rw [if_neg Bool.false_ne_true]
                by_cases htt : t = t'
                · subst htt
                  refine ⟨fun hct => ?_, fun hp => ?_, fun hct => ?_⟩
                  · rw [hc] at hct
                    cases hct
                  · rw [hpush] at hp
                    exact hfirst.inPlace hp
                  · rw [hc] at hct
                    cases hct
                · obtain ⟨Q, D, places⟩ := ok.places
                  have hu : s.inboxTail ≠ some t' := by
                    rw [places.inbox.tail]
                    intro htail
                    rw [((places.each t').known (.inl (List.mem_of_getLast? htail))).2] at hc
                    cases hc
                  have place := (pushInbox_place ((s.setTask t' fun task =>
                    { task with completed := true, completion }).emit (.completed t' completion)) t' hu).2 t htt
                  refine hfirst.trans ⟨fun h => ?_, fun h => ?_, fun _ h => ?_⟩
                  · rwa [place.completed]
                  · rwa [place.inPlace] at h
                  · rwa [place.queued] at h
  | after ms h cb =>
      obtain ⟨o, -, hs'⟩ := Option.map_eq_some_iff.mp hrun
      exact registered hs'
  | onReadable fd h cb =>
      obtain ⟨o, -, hs'⟩ := Option.map_eq_some_iff.mp hrun
      exact registered hs'
  | onWritable fd h cb =>
      obtain ⟨o, -, hs'⟩ := Option.map_eq_some_iff.mp hrun
      exact registered hs'
  | onCancel h cb =>
      simp only [State.step, State.onCancel] at hrun
      split at hrun
      · cases hrun
      · rw [← Option.some.inj hrun]
        exact .refl _
      · next t' ht' =>
        split at hrun
        · cases cb with
          | none =>
              rw [← Option.some.inj hrun]
              exact .refl _
          | some cb =>
              rw [← Option.some.inj hrun]
              split <;> exact .refl _
        · rw [← Option.some.inj hrun]
          exact stays_setTask s t' t ⟨id, id, fun _ => id⟩
  | cancel w =>
      rw [← Option.some.inj hrun]
      cases s.waitTask w with
      | none => exact .refl _
      | some t' => exact stays_taskCancel ..
  | poll now ready =>
      simp only [State.step] at hrun
      split at hrun
      · next hguard =>
        rw [← Option.some.inj hrun]
        exact ok.stays_poll hguard.1 (by simpa using hguard.2.1) now ready t
      · cases hrun
  | turn => exact stays_turn hrun t
  | reset =>
      simp only [State.step] at hrun
      split at hrun
      · rw [← Option.some.inj hrun]
        have tasks : s.reset.tasks = s.dropAll.tasks := by
          change s.dropAll.collect.tasks = _
          rw [collect_eq]
        rw [tasks]
        exact (onlyRegs_dropAll s).stays t
      · cases hrun

/-- The task is completed, and neither its host function nor the inbox has it. -/
def State.Leaving (s : State) (t : TaskId) : Prop :=
  (s.tasks t).completed = true ∧ (s.tasks t).inPlace = false ∧ (s.tasks t).queued = false

theorem Reachable.leaving (hs : Reachable P s) {actions : List Action} (hrun : s.run P actions = some s')
    (ht : s.Leaving t) : s'.Leaving t := by
  induction actions generalizing s with
  | nil =>
      rw [← Option.some.inj hrun]
      exact ht
  | cons action actions ih =>
      simp only [State.run, List.foldlM_cons, Option.bind_eq_bind, Option.bind_eq_some_iff] at hrun
      obtain ⟨s₁, hstep, hrest⟩ := hrun
      obtain ⟨Q, D, places⟩ := hs.ok.places
      have stays := hs.stays hstep ((places.each t).made ht.1)
      have hs₁ : Reachable P s₁ := hs.step hstep
      refine ih hs₁ hrest ⟨stays.completed ht.1, ?_, ?_⟩
      · by_contra h
        have := stays.inPlace (by simpa using h)
        rw [ht.2.1] at this
        cases this
      · by_contra h
        have := stays.queued ht.1 (by simpa using h)
        rw [ht.2.2] at this
        cases this

/-- Whatever is called during a turn, by its end each task that was completed before it has been delivered: its completion
was given back or dropped, and it is retired or freed. -/
theorem Reachable.turn_delivers (hs : Reachable P s) {now : Int} {ready : List RegId} {s₁ : State}
    {actions : List Action} (hpoll : s.step P (.poll now ready) = some s₁) (hrun : s₁.run P actions = some s')
    (hidle : s'.phase = .idle) (ht : (s.tasks t).completed = true) :
    ¬ s'.Live t ∧ ∃ e ∈ eventsOf t s'.log, e.gives = true := by
  suffices hover : ¬ s'.Live t by
    obtain ⟨life, hlife, hgone, -⟩ := ((hs.step hpoll).run hrun).life t
    rw [hgone.mpr hover] at hlife
    exact ⟨hover, lives_gone Life.noConfusion hlife⟩
  have hs₁ : Reachable P s₁ := hs.step hpoll
  obtain ⟨Q, D, places⟩ := hs.ok.places
  have hmade := (places.each t).made ht
  have stays := hs.stays hpoll hmade
  simp only [State.step] at hpoll
  split at hpoll
  · next hguard =>
    have hcalling : s.calling = false := by simpa using hguard.2.1
    have hplace : (s.tasks t).inPlace = false := by
      rw [State.calling, List.any_eq_false] at hcalling
      simpa using hcalling t (List.mem_range.mpr hmade)
    have hleaving : s₁.Leaving t := by
      refine ⟨stays.completed ht, ?_, ?_⟩
      · by_contra h
        have := stays.inPlace (by simpa using h)
        rw [hplace] at this
        cases this
      · rw [← Option.some.inj hpoll]
        exact hs.ok.poll_queued hguard.1 hcalling now ready t
    obtain ⟨hc, hp, hq⟩ := hs₁.leaving hrun hleaving
    obtain ⟨Q', D', places'⟩ := (hs₁.run hrun).ok.places
    intro hlive
    have hD : D' = [] := by
      have htaken := places'.taken
      rw [hidle] at htaken
      cases D' with
      | nil => rfl
      | cons t D => cases htaken.1
    rcases (places'.each t).completed hc hlive with h | h | h
    · rw [hp] at h
      cases h
    · rw [(places'.each t).queued.mpr h] at hq
      cases hq
    · rw [hD] at h
      cases h
  · cases hpoll

/-- The call is completed by another thread. -/
def completing : List Action :=
  [.taskNew .int "sleep", .taskEnd 9 false 0, .complete false 9 ⟨some .int, 7, none⟩]

theorem turn_delivers_completing : ∃ s s' : State, (s.tasks 0).completed = true ∧ s'.phase = .idle ∧ ¬ s'.Live 0 ∧
    ∃ e ∈ eventsOf 0 s'.log, e.gives = true := by
  obtain ⟨s, hs, hc, hafter⟩ := of_run sleepTarget completing (fun s => (s.tasks 0).completed = true ∧
    ((s.step sleepTarget (.poll 1 [])).bind fun s => s.run sleepTarget [.turn, .turn, .turn, .turn]).any
      (fun s' => decide (s'.phase = .idle)) = true) (by decide)
  obtain ⟨s', hsteps, hidle⟩ := (Option.any_eq_true ..).mp hafter
  obtain ⟨s₁, hpoll, hrun⟩ := Option.bind_eq_some_iff.mp hsteps
  have hidle' : s'.phase = .idle := of_decide_eq_true hidle
  exact ⟨s, s', hc, hidle', hs.turn_delivers hpoll hrun hidle' hc⟩

end Emela.EventLoop
