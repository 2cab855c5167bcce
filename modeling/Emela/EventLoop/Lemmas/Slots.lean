import Emela.EventLoop.Lemmas.Tasks

/-!
# The table of handles

Each slot is free, and then once in the queue of free slots, or holds one task. A slot's generation counts
the tasks that it has held.
-/

namespace Emela.EventLoop

open LinkedQueue

/-- The tasks that the slot has been given to. -/
def State.uses (s : State) (i : Nat) : Nat := (List.range s.taskSeq).countP fun t => (s.tasks t).slot == i

/-- Of the tasks of its slot, the task is the one with this number, counted from 1. -/
def State.ordinal (s : State) (t : TaskId) : Nat :=
  (List.range (t + 1)).countP fun t' => (s.tasks t').slot == (s.tasks t).slot

structure SlotsOk (P : Target) (s : State) (F : List Nat) : Prop where
  free : Queue (fun i => (s.slots i).nextFree) s.freeHead s.freeTail F
  free_iff : ∀ i, i ∈ F ↔ i < s.slotsLen ∧ (s.slots i).task = none
  holds : ∀ i < s.slotsLen, ∀ t, (s.slots i).task = some t →
    t < s.taskSeq ∧ s.freed t = false ∧ (s.tasks t).slot = i ∧ (s.slots i).nextFree = none ∧ s.ordinal t = s.uses i
  held : ∀ t < s.taskSeq, s.freed t = false → (s.slots (s.tasks t).slot).task = some t
  slot_lt : ∀ t < s.taskSeq, (s.tasks t).slot < s.slotsLen
  gen : ∀ i < s.slotsLen, (s.slots i).gen = s.uses i % 2 ^ P.genBits
  handle : ∀ t < s.taskSeq, (s.tasks t).handle = P.handle (s.tasks t).slot (s.ordinal t % 2 ^ P.genBits)
  limit : s.slotsLen < P.slotLimit

variable {P : Target} {s s' : State} {t : TaskId} {F : List Nat}

/-- What the table of handles is about. -/
structure SameSlots (s s' : State) : Prop where
  slots : s'.slots = s.slots
  slotsLen : s'.slotsLen = s.slotsLen
  freeHead : s'.freeHead = s.freeHead
  freeTail : s'.freeTail = s.freeTail
  taskSeq : s'.taskSeq = s.taskSeq
  freed : s'.freed = s.freed
  slot : ∀ t, (s'.tasks t).slot = (s.tasks t).slot
  handle : ∀ t, (s'.tasks t).handle = (s.tasks t).handle

theorem sameSlots_setTask (s : State) (t : TaskId) {f : Task → Task} (hslot : (f (s.tasks t)).slot = (s.tasks t).slot)
    (hhandle : (f (s.tasks t)).handle = (s.tasks t).handle) : SameSlots s (s.setTask t f) := by
  refine ⟨rfl, rfl, rfl, rfl, rfl, rfl, fun t' => ?_, fun t' => ?_⟩
  · by_cases h : t' = t
    · rw [h, setTask_self, hslot]
    · rw [setTask_of_ne _ _ h]
  · by_cases h : t' = t
    · rw [h, setTask_self, hhandle]
    · rw [setTask_of_ne _ _ h]

theorem SlotsOk.congr (h : SlotsOk P s F) (hs : SameSlots s s') : SlotsOk P s' F := by
  have uses : ∀ i, s'.uses i = s.uses i := fun i => by simp only [State.uses, hs.taskSeq, hs.slot]
  have ordinal : ∀ t, s'.ordinal t = s.ordinal t := fun t => by simp only [State.ordinal, hs.slot]
  constructor
  · rw [hs.slots, hs.freeHead, hs.freeTail]
    exact h.free
  · rw [hs.slots, hs.slotsLen]
    exact h.free_iff
  · simp only [hs.slots, hs.slotsLen, hs.taskSeq, hs.freed, hs.slot, uses, ordinal]
    exact h.holds
  · simp only [hs.slots, hs.taskSeq, hs.freed, hs.slot]
    exact h.held
  · simp only [hs.slotsLen, hs.taskSeq, hs.slot]
    exact h.slot_lt
  · simp only [hs.slots, hs.slotsLen, uses]
    exact h.gen
  · simp only [hs.taskSeq, hs.slot, hs.handle, ordinal]
    exact h.handle
  · rw [hs.slotsLen]
    exact h.limit

/-! ## Counting the tasks of a slot -/

theorem ordinal_congr (h : ∀ t' ≤ t, (s'.tasks t').slot = (s.tasks t').slot) : s'.ordinal t = s.ordinal t := by
  apply List.countP_congr
  intro t' ht'
  have hle : t' ≤ t := Nat.le_of_lt_succ (List.mem_range.mp ht')
  rw [h t' hle, h t le_rfl]

/-! ## Handles -/

theorem handle_index {i gen : Nat} (hgen : gen < 2 ^ P.genBits) : P.handle i gen >>> P.genBits = i + 1 := by
  rw [Target.handle, ← Nat.shiftLeft_add_eq_or_of_lt hgen, Nat.shiftLeft_eq, Nat.shiftRight_eq_div_pow, Nat.add_comm,
    Nat.add_mul_div_right _ _ (Nat.two_pow_pos _), Nat.div_eq_of_lt hgen, Nat.zero_add]

theorem handle_gen {i gen : Nat} (hgen : gen < 2 ^ P.genBits) : P.handle i gen &&& P.genMask = gen := by
  rw [Target.handle, ← Nat.shiftLeft_add_eq_or_of_lt hgen, Target.genMask, Nat.and_two_pow_sub_one_eq_mod,
    Nat.shiftLeft_eq, Nat.add_comm, Nat.add_mul_mod_self_right, Nat.mod_eq_of_lt hgen]

/-- A handle that was given to a task finds what is in the task's slot if the generation is the task's. -/
theorem SlotsOk.slotFind (h : SlotsOk P s F) (ht : t < s.taskSeq) : ∃ function,
    s.slotFind P (s.tasks t).handle = some
      (if s.uses (s.tasks t).slot % 2 ^ P.genBits = s.ordinal t % 2 ^ P.genBits then (s.slots (s.tasks t).slot).task
        else none, function) := by
  have hgen : s.ordinal t % 2 ^ P.genBits < 2 ^ P.genBits := Nat.mod_lt _ (Nat.two_pow_pos _)
  have hslot := h.slot_lt t ht
  rw [h.handle t ht]
  have hindex : ¬ ((s.tasks t).slot + 1 = 0 ∨ s.slotsLen < (s.tasks t).slot + 1) := by omega
  simp only [State.slotFind, handle_index hgen, handle_gen hgen, h.gen _ hslot, Nat.add_sub_cancel, if_neg hindex]
  by_cases he : s.uses (s.tasks t).slot % 2 ^ P.genBits = s.ordinal t % 2 ^ P.genBits
  · rw [if_pos he]
    cases hcase : (s.slots (s.tasks t).slot).task with
    | none => simp
    | some t' => simp [he]
  · simp [he]

/-- The handle of a task that is not freed finds it. -/
theorem SlotsOk.slotFind_self (h : SlotsOk P s F) (ht : t < s.taskSeq) (hfreed : s.freed t = false) :
    ∃ function, s.slotFind P (s.tasks t).handle = some (some t, function) := by
  obtain ⟨function, hfind⟩ := h.slotFind ht
  have hheld := h.held t ht hfreed
  obtain ⟨-, -, -, -, hordinal⟩ := h.holds _ (h.slot_lt t ht) t hheld
  rw [hordinal, if_pos rfl, hheld] at hfind
  exact ⟨function, hfind⟩

/-- What is found is in the table. -/
theorem SlotsOk.of_slotFind (h : SlotsOk P s F) {handle : Handle} {function : Option String}
    (hfind : s.slotFind P handle = some (some t, function)) : t < s.taskSeq ∧ s.freed t = false := by
  simp only [State.slotFind] at hfind
  split at hfind
  · cases hfind
  · next hindex =>
    rw [not_or] at hindex
    have hlt : handle >>> P.genBits - 1 < s.slotsLen :=
      Nat.lt_of_lt_of_le (Nat.sub_one_lt hindex.1) (Nat.le_of_not_lt hindex.2)
    split at hfind
    · next hslot =>
      have htask : (s.slots (handle >>> P.genBits - 1)).task = some t := by
        injection hfind with hpair
        exact congrArg Prod.fst hpair
      obtain ⟨hlt, hfreed, -⟩ := h.holds _ hlt t htask
      exact ⟨hlt, hfreed⟩
    · cases hfind

/-! ## Tasks freed -/

/-- A task's slot is put at the end of the queue. -/
theorem SlotsOk.collectTask (h : SlotsOk P s F) (ht : t < s.taskSeq) (hfreed : s.freed t = false) :
    SlotsOk P (s.collectTask t) (F ++ [(s.tasks t).slot]) := by
  have hheld := h.held t ht hfreed
  have hlt := h.slot_lt t ht
  obtain ⟨-, -, -, hnext, -⟩ := h.holds _ hlt t hheld
  have hfree : (s.tasks t).slot ∉ F := by
    intro hin
    rw [((h.free_iff _).mp hin).2] at hheld
    cases hheld
  have links : (fun i => ((s.collectTask t).slots i).nextFree) =
      s.freeTail.elim (fun i => (s.slots i).nextFree)
        fun j => Function.update (fun i => (s.slots i).nextFree) j (some (s.tasks t).slot) := by
    funext i
    cases hcase : s.freeTail with
    | none =>
        simp only [State.collectTask, State.setSlot, hcase, Option.elim_none, Function.update_apply]
        split
        · next hi => rw [hi]
        · rfl
    | some j =>
        simp only [State.collectTask, State.setSlot, hcase, Option.elim_some, Function.update_apply]
        split
        · rfl
        · split
          · next hi => rw [hi]
          · rfl
  have slots : ∀ i, ((s.collectTask t).slots i).gen = (s.slots i).gen ∧
      ((s.collectTask t).slots i).task = if i = (s.tasks t).slot then none else (s.slots i).task := by
    intro i
    cases hcase : s.freeTail with
    | none =>
        simp only [State.collectTask, State.setSlot, hcase, Function.update_apply]
        split
        · next hi => exact ⟨by rw [hi], rfl⟩
        · exact ⟨rfl, rfl⟩
    | some j =>
        have hj : j ≠ (s.tasks t).slot := by
          rintro rfl
          rw [h.free.tail] at hcase
          exact hfree (List.mem_of_getLast? hcase)
        simp only [State.collectTask, State.setSlot, hcase, Function.update_apply]
        by_cases hi : i = j
        · subst hi
          simp [hj]
        · simp only [if_neg hi]
          split
          · next hi => exact ⟨by rw [hi], rfl⟩
          · exact ⟨rfl, rfl⟩
  have next : ∀ i, (s.slots i).task ≠ none → i < s.slotsLen → ((s.collectTask t).slots i).nextFree = (s.slots i).nextFree := by
    intro i hi hilt
    have hval := congrFun links i
    rw [hval]
    cases hcase : s.freeTail with
    | none => rfl
    | some j =>
        rw [Option.elim_some, Function.update_of_ne]
        rintro rfl
        rw [h.free.tail] at hcase
        exact hi ((h.free_iff i).mp (List.mem_of_getLast? hcase)).2
  have frame := collectTask_eq s t
  have uses : ∀ i, (s.collectTask t).uses i = s.uses i := by
    intro i
    rw [frame]
    rfl
  have ordinal : ∀ t', (s.collectTask t).ordinal t' = s.ordinal t' := by
    intro t'
    rw [frame]
    rfl
  refine ⟨?free, fun i => ?free_iff, fun i hi t' ht' => ?holds, fun t' hlt' hfreed' => ?held, ?slot_lt, fun i hi => ?gen,
    fun t' hlt' => ?handle, ?limit⟩
  case free =>
    have hpush := h.free.push hfree hnext
    rw [links]
    have hhead : (s.collectTask t).freeHead = if s.freeTail = none then some (s.tasks t).slot else s.freeHead := by
      cases hcase : s.freeTail <;> simp [State.collectTask, State.setSlot, hcase]
    have htail : (s.collectTask t).freeTail = some (s.tasks t).slot := rfl
    rw [hhead, htail]
    exact hpush
  case free_iff =>
    rw [List.mem_append, List.mem_singleton, h.free_iff, (slots i).2, frame]
    change _ ↔ i < s.slotsLen ∧ _
    by_cases hi : i = (s.tasks t).slot
    · subst hi
      simp [hlt]
    · simp [hi]
  case holds =>
    rw [(slots i).2] at ht'
    by_cases hi' : i = (s.tasks t).slot
    · rw [if_pos hi'] at ht'
      cases ht'
    · rw [if_neg hi'] at ht'
      have hi₀ : i < s.slotsLen := by
        rw [frame] at hi
        exact hi
      obtain ⟨hlt', hfreed', hslot', hnext', hordinal'⟩ := h.holds i hi₀ t' ht'
      rw [next i (by rw [ht']; exact Option.some_ne_none _) hi₀, uses, ordinal, frame]
      refine ⟨hlt', ?_, hslot', hnext', hordinal'⟩
      have hne : t' ≠ t := by
        rintro rfl
        exact hi' hslot'.symm
      exact (Function.update_of_ne hne ..).trans hfreed'
  case held =>
    rw [frame] at hlt' hfreed'
    change Function.update s.freed t true t' = false at hfreed'
    have hne : t' ≠ t := by
      rintro rfl
      rw [Function.update_self] at hfreed'
      cases hfreed'
    rw [Function.update_of_ne hne] at hfreed'
    have hheld' := h.held t' hlt' hfreed'
    have hslot : ((s.collectTask t).tasks t').slot = (s.tasks t').slot := by rw [frame]
    rw [hslot, (slots _).2, if_neg, hheld']
    intro he
    rw [he, hheld] at hheld'
    exact hne (Option.some.inj hheld').symm
  case slot_lt =>
    rw [frame]
    exact h.slot_lt
  case gen =>
    rw [(slots i).1, uses]
    apply h.gen
    rw [frame] at hi
    exact hi
  case handle =>
    rw [ordinal, frame]
    rw [frame] at hlt'
    exact h.handle t' hlt'
  case limit =>
    rw [frame]
    exact h.limit

theorem SlotsOk.collectAll (l : List TaskId) : ∀ (s : State) (F : List Nat), SlotsOk P s F → l.Nodup →
    (∀ t ∈ l, t < s.taskSeq ∧ s.freed t = false) → ∃ F', SlotsOk P (l.foldl State.collectTask s) F' := by
  induction l with
  | nil => exact fun s F h _ _ => ⟨F, h⟩
  | cons t l ih =>
      intro s F h hnodup hl
      rw [List.nodup_cons] at hnodup
      obtain ⟨hlt, hfreed⟩ := hl t (List.mem_cons_self ..)
      refine ih _ _ (h.collectTask hlt hfreed) hnodup.2 fun t' ht' => ?_
      obtain ⟨hlt', hfreed'⟩ := hl t' (List.mem_cons_of_mem _ ht')
      have hne : t' ≠ t := by
        rintro rfl
        exact hnodup.1 ht'
      rw [collectTask_eq]
      exact ⟨hlt', (Function.update_of_ne hne ..).trans hfreed'⟩

theorem SlotsOk.collect (h : SlotsOk P s F) (hnodup : s.retired.Nodup)
    (hretired : ∀ t ∈ s.retired, t < s.taskSeq ∧ s.freed t = false) : ∃ F', SlotsOk P s.collect F' := by
  obtain ⟨F', hF'⟩ := SlotsOk.collectAll s.retired s F h hnodup hretired
  exact ⟨F', hF'.congr ⟨rfl, rfl, rfl, rfl, rfl, rfl, fun _ => rfl, fun _ => rfl⟩⟩

/-! ## Tasks made -/

/-- A slot taken off the queue or added to the table: it is free, and no queue has it. -/
structure Taken (P : Target) (s s' : State) (i : Nat) (F : List Nat) : Prop where
  free : Queue (fun i => (s'.slots i).nextFree) s'.freeHead s'.freeTail F
  free_iff : ∀ j, j ∈ F ↔ j < s'.slotsLen ∧ (s'.slots j).task = none ∧ j ≠ i
  lt : i < s'.slotsLen
  notHeld : ∀ t, t < s.taskSeq → s.freed t = false → (s.tasks t).slot ≠ i
  gen : (s'.slots i).gen = s.uses i % 2 ^ P.genBits
  others : ∀ j, j ≠ i → s'.slots j = s.slots j
  range : ∀ j, j ≠ i → (j < s'.slotsLen ↔ j < s.slotsLen)
  frame : s' = { s with slots := s'.slots, slotsLen := s'.slotsLen, freeHead := s'.freeHead, freeTail := s'.freeTail }
  limit : s'.slotsLen < P.slotLimit

theorem SlotsOk.freeSlot (h : SlotsOk P s F) {i : Nat} (hrun : s.freeSlot P = some (i, s')) :
    ∃ F', Taken P s s' i F' := by
  cases hhead : s.freeHead with
  | some j =>
      simp only [State.freeSlot, hhead, Option.some.injEq, Prod.mk.injEq] at hrun
      obtain ⟨rfl, rfl⟩ := hrun
      obtain ⟨F', rfl⟩ : ∃ F', F = j :: F' := by
        have hF := h.free.head_eq
        rw [hhead] at hF
        exact List.head?_eq_some_iff.mp hF.symm
      obtain ⟨hj, hfree⟩ := (h.free_iff j).mp (List.mem_cons_self ..)
      have hnodup := List.nodup_cons.mp h.free.nodup
      refine ⟨F', h.free.pop, fun k => ?_, hj, fun t hlt hfreed he => ?_, h.gen j hj, fun _ _ => rfl, fun _ _ => .rfl, rfl,
        h.limit⟩
      · have hk := h.free_iff k
        rw [List.mem_cons] at hk
        by_cases hkj : k = j
        · subst hkj
          simp [hnodup.1]
        · rw [or_iff_right hkj] at hk
          rw [hk]
          simp [hkj]
      · have hheld := h.held t hlt hfreed
        rw [he, hfree] at hheld
        cases hheld
  | none =>
      simp only [State.freeSlot, hhead] at hrun
      split at hrun
      · cases hrun
      · next hlimit =>
        simp only [Option.some.injEq, Prod.mk.injEq] at hrun
        obtain ⟨rfl, rfl⟩ := hrun
        have hF : F = [] := by
          have hF := h.free.head_eq
          rw [hhead] at hF
          exact List.head?_eq_none_iff.mp hF.symm
        subst hF
        have hempty : ∀ k, ¬ (k < s.slotsLen ∧ (s.slots k).task = none) := fun k hk => by
          have := (h.free_iff k).mpr hk
          cases this
        have slots : ∀ k, k ≠ s.slotsLen → (s.setSlot s.slotsLen fun slot => { slot with gen := 0 }).slots k = s.slots k :=
          fun k hk => Function.update_of_ne hk ..
        have hnone : s.uses s.slotsLen = 0 := by
          apply List.countP_eq_zero.mpr
          intro t ht
          have := h.slot_lt t (List.mem_range.mp ht)
          simp
          omega
        refine ⟨[], ?_, fun k => ?_, Nat.lt_succ_self _, fun t hlt _ he => ?_, ?_, slots, fun k hk => ?_, rfl, ?_⟩
        · exact h.free.congr fun k hk => by cases hk
        · change k ∈ [] ↔ k < s.slotsLen + 1 ∧ _ ∧ _
          constructor
          · intro hk
            cases hk
          · rintro ⟨hlt, htask, hne⟩
            rw [slots k hne] at htask
            exact absurd ⟨Nat.lt_of_le_of_ne (Nat.le_of_lt_succ hlt) hne, htask⟩ (hempty k)
        · have := h.slot_lt t hlt
          omega
        · rw [hnone, Nat.zero_mod]
          change (Function.update s.slots s.slotsLen _ s.slotsLen).gen = 0
          rw [Function.update_self]
        · change k < s.slotsLen + 1 ↔ _
          omega
        · change s.slotsLen + 1 < _
          omega

/-- What `em_task_new` does once there is a slot. -/
def State.taskIn (P : Target) (s : State) (kind : HostKind) (function : String) (i : Nat) : State :=
  let gen := ((s.slots i).gen + 1) &&& P.genMask
  { s with
    slots := Function.update s.slots i { task := some s.taskSeq, gen := gen, function := function, nextFree := none }
    tasks := Function.update s.tasks s.taskSeq { State.newTask kind function with slot := i, handle := P.handle i gen }
    taskSeq := s.taskSeq + 1 }

theorem taskNew_eq {kind : HostKind} {function : String} (hrun : s.taskNew P kind function = some s') :
    ∃ i s₁, s.freeSlot P = some (i, s₁) ∧ s' = s₁.taskIn P kind function i := by
  simp only [State.taskNew, State.slotTake, State.freeSlot, State.setTask, State.setSlot] at hrun ⊢
  cases hhead : s.freeHead with
  | some i =>
      simp only [hhead, Function.update_self, Function.update_idem, Option.some.injEq] at hrun
      exact ⟨i, _, rfl, hrun.symm⟩
  | none =>
      simp only [hhead] at hrun
      by_cases hlimit : P.slotLimit ≤ s.slotsLen + 1
      · simp [hlimit] at hrun
      · simp only [if_neg hlimit, Function.update_self, Function.update_idem, Option.some.injEq] at hrun
        refine ⟨s.slotsLen, _, by rw [if_neg hlimit], ?_⟩
        rw [← hrun]
        simp [State.taskIn, State.newTask]

/-- Only the table and the new task change. -/
theorem SlotsOk.taskNew_frame (h : SlotsOk P s F) {kind : HostKind} {function : String}
    (hrun : s.taskNew P kind function = some s') : ∃ slot handle, s' = { s with
      tasks := Function.update s.tasks s.taskSeq { State.newTask kind function with slot, handle }
      taskSeq := s.taskSeq + 1, slots := s'.slots, slotsLen := s'.slotsLen, freeHead := s'.freeHead
      freeTail := s'.freeTail } := by
  obtain ⟨i, s₁, hslot, rfl⟩ := taskNew_eq hrun
  obtain ⟨F', taken⟩ := h.freeSlot hslot
  refine ⟨i, P.handle i (((s₁.slots i).gen + 1) &&& P.genMask), ?_⟩
  have frame := taken.frame
  simp only [State.taskIn]
  rw [frame]

theorem SlotsOk.taskNew (h : SlotsOk P s F) (hfreed : s.freed s.taskSeq = false) {kind : HostKind} {function : String}
    (hrun : s.taskNew P kind function = some s') : ∃ F', SlotsOk P s' F' := by
  obtain ⟨i, s₁, hslot, rfl⟩ := taskNew_eq hrun
  obtain ⟨F', taken⟩ := h.freeSlot hslot
  have seq : s₁.taskSeq = s.taskSeq := by rw [taken.frame]
  have tasks : s₁.tasks = s.tasks := by rw [taken.frame]
  have freed : s₁.freed = s.freed := by rw [taken.frame]
  let s' := s₁.taskIn P kind function i
  have self : (s'.tasks s.taskSeq).slot = i := by
    change (Function.update s₁.tasks s₁.taskSeq _ s.taskSeq).slot = i
    rw [seq, Function.update_self]
  have others : ∀ t' < s.taskSeq, s'.tasks t' = s.tasks t' := by
    intro t' ht'
    change Function.update s₁.tasks s₁.taskSeq _ t' = s.tasks t'
    rw [seq, Function.update_of_ne ht'.ne, tasks]
  have seq' : s'.taskSeq = s.taskSeq + 1 := congrArg (· + 1) seq
  have uses : ∀ j, s'.uses j = s.uses j + if j = i then 1 else 0 := by
    intro j
    have hrange : ((List.range s.taskSeq).countP fun t => (s'.tasks t).slot == j) = s.uses j := by
      apply List.countP_congr
      intro t' ht'
      rw [others t' (List.mem_range.mp ht')]
    rw [State.uses, seq', List.range_succ, List.countP_append, hrange, List.countP_singleton, self]
    by_cases hji : j = i
    · rw [hji, if_pos rfl, beq_self_eq_true, if_pos rfl]
    · rw [if_neg hji, beq_false_of_ne (Ne.symm hji), if_neg Bool.false_ne_true]
  have ordinal : ∀ t' < s.taskSeq, s'.ordinal t' = s.ordinal t' := fun t' ht' =>
    ordinal_congr fun t'' hle => by rw [others t'' (Nat.lt_of_le_of_lt hle ht')]
  have ordinal_self : s'.ordinal s.taskSeq = s'.uses i := by
    rw [State.ordinal, State.uses, self, seq']
  have hgen : ((s₁.slots i).gen + 1) &&& P.genMask = s'.uses i % 2 ^ P.genBits := by
    rw [Target.genMask, Nat.and_two_pow_sub_one_eq_mod, taken.gen, uses, if_pos rfl, Nat.mod_add_mod]
  have slot_self : s'.slots i =
      { task := some s.taskSeq, gen := s'.uses i % 2 ^ P.genBits, function := function, nextFree := none } := by
    change Function.update s₁.slots i _ i = _
    rw [Function.update_self, hgen, seq]
  have slot_others : ∀ j, j ≠ i → s'.slots j = s.slots j := by
    intro j hj
    change Function.update s₁.slots i _ j = _
    rw [Function.update_of_ne hj, taken.others j hj]
  have hi : i ∉ F' := fun hin => ((taken.free_iff i).mp hin).2.2 rfl
  refine ⟨F', ?free, fun j => ?free_iff, fun j hj t' ht' => ?holds, fun t' hlt hfree => ?held, fun t' hlt => ?slot_lt,
    fun j hj => ?gen, fun t' hlt => ?handle, taken.limit⟩
  case free =>
    refine taken.free.congr fun j hj => ?_
    change (Function.update s₁.slots i _ j).nextFree = _
    rw [Function.update_of_ne]
    rintro rfl
    exact hi hj
  case free_iff =>
    by_cases hji : j = i
    · subst hji
      simp [slot_self, s', hi]
    · rw [taken.free_iff, slot_others j hji, taken.others j hji]
      simp [hji, State.taskIn]
  case holds =>
    by_cases hji : j = i
    · subst hji
      rw [slot_self] at ht' ⊢
      obtain rfl := Option.some.inj ht'
      refine ⟨by rw [seq']; exact Nat.lt_succ_self _, ?_, self, rfl, ordinal_self⟩
      change s₁.freed _ = false
      rw [freed, hfreed]
    · rw [slot_others j hji] at ht' ⊢
      obtain ⟨hlt, hfree, hslot', hnext, hord⟩ := h.holds j ((taken.range j hji).mp hj) t' ht'
      rw [seq', others t' hlt, ordinal t' hlt, uses, if_neg hji, Nat.add_zero]
      refine ⟨Nat.lt_succ_of_lt hlt, ?_, hslot', hnext, hord⟩
      change s₁.freed _ = false
      rw [freed, hfree]
  case held =>
    rw [seq'] at hlt
    rcases Nat.lt_succ_iff_lt_or_eq.mp hlt with hlt | rfl
    · have hfree' : s.freed t' = false := by
        change s₁.freed t' = false at hfree
        rwa [freed] at hfree
      rw [others t' hlt, slot_others _ (taken.notHeld t' hlt hfree'), h.held t' hlt hfree']
    · rw [self, slot_self]
  case slot_lt =>
    change _ < s₁.slotsLen
    rw [seq'] at hlt
    rcases Nat.lt_succ_iff_lt_or_eq.mp hlt with hlt | rfl
    · rw [others t' hlt]
      by_cases hti : (s.tasks t').slot = i
      · rw [hti]
        exact taken.lt
      · exact (taken.range _ hti).mpr (h.slot_lt t' hlt)
    · rw [self]
      exact taken.lt
  case gen =>
    by_cases hji : j = i
    · rw [hji, slot_self]
    · rw [slot_others j hji, uses, if_neg hji, Nat.add_zero]
      exact h.gen j ((taken.range j hji).mp hj)
  case handle =>
    rw [seq'] at hlt
    rcases Nat.lt_succ_iff_lt_or_eq.mp hlt with hlt | rfl
    · rw [others t' hlt, ordinal t' hlt]
      exact h.handle t' hlt
    · rw [self, ordinal_self, ← hgen]
      change (Function.update s₁.tasks s₁.taskSeq _ s.taskSeq).handle = _
      rw [seq, Function.update_self]

end Emela.EventLoop
