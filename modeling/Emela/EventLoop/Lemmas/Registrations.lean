import Emela.EventLoop.State

/-!
# The registrations

The timers are a heap and the file descriptors an array, both with the index of each registration, and
together they hold what the tasks have registered.
-/

namespace Emela.EventLoop

open IndexedArray

/-- Timers are ordered by time, then by the order of registration. -/
def timerKey (regs : RegId → Reg) (g : RegId) : Int ×ₗ Nat := toLex ((regs g).time, g)

theorem timerBefore_iff (regs : RegId → Reg) (a b : RegId) :
    timerBefore regs a b ↔ timerKey regs a < timerKey regs b := by
  simp [timerBefore, timerKey, Prod.Lex.toLex_lt_toLex]

/-- A task has the registration. -/
def State.Registered (s : State) (g : RegId) : Prop := g ∈ (s.tasks (s.regs g).task).regs

structure RegsOk (s : State) : Prop where
  heap : s.timers.IsHeap (timerKey s.regs)
  fds : s.fds.Indexed
  timers_mem : ∀ g, s.timers.Mem g ↔ (s.regs g).kind = .timer ∧ s.Registered g
  fds_mem : ∀ g, s.fds.Mem g ↔ (s.regs g).kind ≠ .timer ∧ s.Registered g
  owner : ∀ t, ∀ g ∈ (s.tasks t).regs, (s.regs g).task = t ∧ g < s.regSeq
  nodup : ∀ t, (s.tasks t).regs.Nodup

variable {s s' : State} {t : TaskId} {g : RegId}

/-- The parts of the state that registrations are about. -/
structure SameRegs (s s' : State) : Prop where
  timers : s'.timers = s.timers
  fds : s'.fds = s.fds
  regs : s'.regs = s.regs
  regSeq : s'.regSeq = s.regSeq
  lists : ∀ t, (s'.tasks t).regs = (s.tasks t).regs

theorem SameRegs.refl (s : State) : SameRegs s s := ⟨rfl, rfl, rfl, rfl, fun _ => rfl⟩

theorem SameRegs.registered (h : SameRegs s s') : s'.Registered g ↔ s.Registered g := by
  rw [State.Registered, State.Registered, h.regs, h.lists]

theorem RegsOk.congr (hs : RegsOk s) (h : SameRegs s s') : RegsOk s' where
  heap := by
    rw [h.timers, h.regs]
    exact hs.heap
  fds := by
    rw [h.fds]
    exact hs.fds
  timers_mem g := by
    rw [h.timers, h.regs, h.registered]
    exact hs.timers_mem g
  fds_mem g := by
    rw [h.fds, h.regs, h.registered]
    exact hs.fds_mem g
  owner t g hg := by
    rw [h.lists] at hg
    rw [h.regs, h.regSeq]
    exact hs.owner t g hg
  nodup t := by
    rw [h.lists]
    exact hs.nodup t

theorem RegsOk.task_eq (hs : RegsOk s) (hg : g ∈ (s.tasks t).regs) : (s.regs g).task = t := (hs.owner t g hg).1

theorem RegsOk.registered (hs : RegsOk s) (hg : g ∈ (s.tasks t).regs) : s.Registered g := by
  rw [State.Registered, hs.task_eq hg]
  exact hg

/-- A change of a task that leaves its registrations alone. -/
theorem sameRegs_setTask (s : State) (t : TaskId) {f : Task → Task} (hf : (f (s.tasks t)).regs = (s.tasks t).regs) :
    SameRegs s (s.setTask t f) := by
  refine ⟨rfl, rfl, rfl, rfl, fun t' => ?_⟩
  simp only [State.setTask]
  by_cases h : t' = t
  · subst h
    rw [Function.update_self, hf]
  · rw [Function.update_of_ne h]

/-! ## A registration taken out -/

/-- The task has these registrations. -/
def State.withRegs (s : State) (t : TaskId) (l : List RegId) : State := s.setTask t fun task => { task with regs := l }

@[simp] theorem withRegs_self (s : State) (t : TaskId) (l : List RegId) : ((s.withRegs t l).tasks t).regs = l := by
  simp [State.withRegs, State.setTask]

theorem withRegs_of_ne {t' : TaskId} (s : State) (l : List RegId) (h : t' ≠ t) :
    ((s.withRegs t l).tasks t').regs = (s.tasks t').regs := by
  simp [State.withRegs, State.setTask, h]

theorem withRegs_same (s : State) (t : TaskId) : s.withRegs t (s.tasks t).regs = s := by
  simp [State.withRegs, State.setTask]

theorem withRegs_withRegs (s : State) (t : TaskId) (l l' : List RegId) :
    (s.withRegs t l).withRegs t l' = s.withRegs t l' := by
  simp [State.withRegs, State.setTask]

/-- Only the arrays change when a registration is taken out of them. -/
theorem regRemove_eq (s : State) (g : RegId) :
    s.regRemove g = { s with timers := (s.regRemove g).timers, fds := (s.regRemove g).fds } := by
  simp only [State.regRemove]
  split <;> rfl

@[simp] theorem regRemove_tasks (s : State) (g : RegId) : (s.regRemove g).tasks = s.tasks := by
  rw [regRemove_eq]

@[simp] theorem regRemove_regs (s : State) (g : RegId) : (s.regRemove g).regs = s.regs := by
  rw [regRemove_eq]

@[simp] theorem regRemove_regSeq (s : State) (g : RegId) : (s.regRemove g).regSeq = s.regSeq := by
  rw [regRemove_eq]

theorem regRemove_withRegs (s : State) (t : TaskId) (l : List RegId) (g : RegId) :
    (s.withRegs t l).regRemove g = (s.regRemove g).withRegs t l := by
  by_cases h : (s.regs g).kind = .timer <;> simp [State.regRemove, State.withRegs, State.setTask, h]

/-- Taken out of its array, and of its task's list. -/
def State.without (s : State) (g : RegId) : State :=
  (s.regRemove g).withRegs (s.regs g).task ((s.tasks (s.regs g).task).regs.erase g)

theorem without_registered (hs : RegsOk s) (hg : s.Registered g) (g' : RegId) :
    g' ∈ ((s.without g).tasks (s.regs g').task).regs ↔ s.Registered g' ∧ g' ≠ g := by
  by_cases htask : (s.regs g').task = (s.regs g).task
  · rw [State.without, htask, withRegs_self, State.Registered, htask, (hs.nodup _).mem_erase_iff, and_comm]
  · rw [State.without, withRegs_of_ne _ _ htask, regRemove_tasks, State.Registered]
    refine ⟨fun h => ⟨h, ?_⟩, And.left⟩
    rintro rfl
    exact htask rfl

theorem RegsOk.without (hs : RegsOk s) (hg : s.Registered g) : RegsOk (s.without g) := by
  have hmem : ∀ g', (s.without g).Registered g' ↔ s.Registered g' ∧ g' ≠ g := by
    intro g'
    rw [State.Registered, show (s.without g).regs = s.regs from regRemove_regs s g]
    exact without_registered hs hg g'
  have hlists : ∀ t, ((s.without g).tasks t).regs.Sublist (s.tasks t).regs := by
    intro t
    by_cases ht : t = (s.regs g).task
    · rw [State.without, ht, withRegs_self]
      exact List.erase_sublist
    · rw [State.without, withRegs_of_ne _ _ ht, regRemove_tasks]
  have hregs : (s.without g).regs = s.regs := regRemove_regs s g
  have hseq : (s.without g).regSeq = s.regSeq := regRemove_regSeq s g
  have arrays : (s.without g).timers.IsHeap (timerKey s.regs) ∧ (s.without g).fds.Indexed ∧
      (∀ g', (s.without g).timers.Mem g' ↔ (s.regs g').kind = .timer ∧ s.Registered g' ∧ g' ≠ g) ∧
      ∀ g', (s.without g).fds.Mem g' ↔ (s.regs g').kind ≠ .timer ∧ s.Registered g' ∧ g' ≠ g := by
    by_cases hkind : (s.regs g).kind = .timer
    · obtain ⟨hlt, hitem⟩ := hs.heap.indexed.items_index ((hs.timers_mem g).mpr ⟨hkind, hg⟩)
      obtain ⟨heap, mem⟩ := hs.heap.removeAt (timerBefore_iff s.regs) hlt
      have htimers : (s.without g).timers = s.timers.removeAt (timerBefore s.regs) (s.timers.index g) := by
        simp [State.without, State.withRegs, State.setTask, State.regRemove, hkind]
      have hfds : (s.without g).fds = s.fds := by
        simp [State.without, State.withRegs, State.setTask, State.regRemove, hkind]
      rw [htimers, hfds]
      refine ⟨heap, hs.fds, fun g' => ?_, fun g' => ?_⟩
      · rw [mem, hitem, hs.timers_mem, and_assoc]
      · rw [hs.fds_mem]
        refine and_congr_right fun hk => (and_iff_left ?_).symm
        rintro rfl
        exact hk hkind
    · obtain ⟨hlt, hitem⟩ := hs.fds.items_index ((hs.fds_mem g).mpr ⟨hkind, hg⟩)
      obtain ⟨indexed, mem⟩ := hs.fds.dropAt hlt
      have htimers : (s.without g).timers = s.timers := by
        simp [State.without, State.withRegs, State.setTask, State.regRemove, hkind]
      have hfds : (s.without g).fds = s.fds.dropAt (s.fds.index g) := by
        simp [State.without, State.withRegs, State.setTask, State.regRemove, hkind]
      rw [htimers, hfds]
      refine ⟨hs.heap, indexed, fun g' => ?_, fun g' => ?_⟩
      · rw [hs.timers_mem]
        refine and_congr_right fun hk => (and_iff_left ?_).symm
        rintro rfl
        exact hkind hk
      · rw [mem, hitem, hs.fds_mem, and_assoc]
  obtain ⟨heap, indexed, timers, fds⟩ := arrays
  refine ⟨hregs ▸ heap, indexed, fun g' => ?_, fun g' => ?_, fun t g' hg' => ?_, fun t => (hs.nodup t).sublist (hlists t)⟩
  · rw [timers, hregs, hmem]
  · rw [fds, hregs, hmem]
  · rw [hregs, hseq]
    exact hs.owner t g' ((hlists t).subset hg')

theorem regFire_eq (s : State) (g : RegId) : s.regFire g = (s.without g).emit (.fired g) := by
  rw [State.regFire, State.without, ← regRemove_withRegs]
  rfl

theorem RegsOk.regFire (hs : RegsOk s) (hg : s.Registered g) : RegsOk (s.regFire g) := by
  rw [regFire_eq]
  exact (hs.without hg).congr ⟨rfl, rfl, rfl, rfl, fun _ => rfl⟩

/-! ## The registrations of a task -/

/-- While they are taken out one by one, the task's list holds those that are left. -/
theorem regRemove_each (l : List RegId) (s : State) (hs : RegsOk (s.withRegs t l)) :
    RegsOk ((l.foldl State.regRemove s).withRegs t []) := by
  induction l generalizing s with
  | nil => exact hs
  | cons g l ih =>
      apply ih
      have hg : g ∈ ((s.withRegs t (g :: l)).tasks t).regs := by simp
      have htask : (s.regs g).task = t := hs.task_eq hg
      have h := hs.without (hs.registered hg)
      rw [State.without, show (s.withRegs t (g :: l)).regs = s.regs from rfl, htask, withRegs_self,
        List.erase_cons_head, regRemove_withRegs, withRegs_withRegs] at h
      exact h

theorem foldl_regRemove_eq (l : List RegId) (s : State) :
    l.foldl State.regRemove s =
      { s with timers := (l.foldl State.regRemove s).timers, fds := (l.foldl State.regRemove s).fds } := by
  induction l generalizing s with
  | nil => rfl
  | cons g l ih =>
      rw [List.foldl_cons, ih, regRemove_eq]

/-- Only the arrays and the task's list change when a task is unregistered. -/
theorem taskUnregister_eq (s : State) (t : TaskId) :
    s.taskUnregister t = { s.withRegs t [] with
      timers := (s.taskUnregister t).timers, fds := (s.taskUnregister t).fds } := by
  conv_lhs => rw [State.taskUnregister, foldl_regRemove_eq]
  rfl

theorem RegsOk.taskUnregister (hs : RegsOk s) (t : TaskId) : RegsOk (s.taskUnregister t) := by
  have h := regRemove_each (s.tasks t).regs s (by rwa [withRegs_same])
  exact h

/-! ## A registration added -/

/-- The next registration, in its task's list only. -/
def State.enlist (s : State) (t : TaskId) (reg : Reg) : State :=
  { s with regs := Function.update s.regs s.regSeq reg, regSeq := s.regSeq + 1 }.withRegs t
    (s.regSeq :: (s.tasks t).regs)

section
variable {reg : Reg}

theorem RegsOk.unused (hs : RegsOk s) (t : TaskId) : s.regSeq ∉ (s.tasks t).regs :=
  fun h => absurd (hs.owner t _ h).2 (Nat.lt_irrefl _)

theorem enlist_regs_self (s : State) (t : TaskId) : (s.enlist t reg).regs s.regSeq = reg := Function.update_self ..

theorem enlist_regs_of_ne (h : g ≠ s.regSeq) (t : TaskId) : (s.enlist t reg).regs g = s.regs g :=
  Function.update_of_ne h ..

theorem enlist_lists (s : State) (t t' : TaskId) :
    ((s.enlist t reg).tasks t').regs = if t' = t then s.regSeq :: (s.tasks t).regs else (s.tasks t').regs := by
  by_cases h : t' = t
  · rw [if_pos h, h]
    exact withRegs_self ..
  · rw [if_neg h]
    exact withRegs_of_ne _ _ h

theorem enlist_registered (hreg : reg.task = t) :
    (s.enlist t reg).Registered g ↔ g = s.regSeq ∨ s.Registered g := by
  rw [State.Registered, enlist_lists]
  by_cases hg : g = s.regSeq
  · simp [hg, enlist_regs_self, hreg]
  · rw [enlist_regs_of_ne hg]
    by_cases htask : (s.regs g).task = t
    · simp [htask, hg, State.Registered]
    · simp [htask, hg, State.Registered]

/-- A key does not change when a registration is added. -/
theorem enlist_key (h : g ≠ s.regSeq) (t : TaskId) :
    timerKey (s.enlist t reg).regs g = timerKey s.regs g := by
  rw [timerKey, enlist_regs_of_ne h, timerKey]

theorem RegsOk.not_timers (hs : RegsOk s) : ¬ s.timers.Mem s.regSeq := by
  intro h
  exact hs.unused _ ((hs.timers_mem _).mp h).2

theorem RegsOk.not_fds (hs : RegsOk s) : ¬ s.fds.Mem s.regSeq := by
  intro h
  exact hs.unused _ ((hs.fds_mem _).mp h).2

theorem RegsOk.enlist_owner (hs : RegsOk s) (hreg : reg.task = t) {t' : TaskId}
    (hg : g ∈ ((s.enlist t reg).tasks t').regs) :
    ((s.enlist t reg).regs g).task = t' ∧ g < s.regSeq + 1 := by
  rw [enlist_lists] at hg
  by_cases hgs : g = s.regSeq
  · subst hgs
    rw [enlist_regs_self, hreg]
    by_cases h : t' = t
    · exact ⟨h.symm, Nat.lt_succ_self _⟩
    · rw [if_neg h] at hg
      exact absurd hg (hs.unused t')
  · rw [enlist_regs_of_ne hgs]
    have hold : g ∈ (s.tasks t').regs := by
      by_cases h : t' = t
      · rw [if_pos h, List.mem_cons] at hg
        exact h ▸ hg.resolve_left hgs
      · rwa [if_neg h] at hg
    exact ⟨(hs.owner t' g hold).1, Nat.lt_succ_of_lt (hs.owner t' g hold).2⟩

theorem RegsOk.enlist_nodup (hs : RegsOk s) (t t' : TaskId) : ((s.enlist t reg).tasks t').regs.Nodup := by
  rw [enlist_lists]
  split
  · exact List.nodup_cons.mpr ⟨hs.unused t, hs.nodup t⟩
  · exact hs.nodup t'

/-- A timer, which also goes into the heap. -/
theorem RegsOk.enlist_timer (hs : RegsOk s) (hreg : reg.task = t) (hkind : reg.kind = .timer) :
    RegsOk { s.enlist t reg with
      timers := (s.timers.push s.regSeq).up (timerBefore (s.enlist t reg).regs) s.timers.len } := by
  have heap : s.timers.IsHeap (timerKey (s.enlist t reg).regs) := hs.heap.congr fun g hg => enlist_key
    (fun he => hs.not_timers (he ▸ hg)) t
  obtain ⟨heap, mem⟩ := heap.push (timerBefore_iff _) hs.not_timers
  refine ⟨heap, hs.fds, fun g => ?_, fun g => ?_, fun t' g hg => hs.enlist_owner hreg hg, hs.enlist_nodup t⟩
  · change Mem _ g ↔ ((s.enlist t reg).regs g).kind = .timer ∧ (s.enlist t reg).Registered g
    rw [mem, hs.timers_mem, enlist_registered hreg]
    by_cases hg : g = s.regSeq
    · simp [hg, enlist_regs_self, hkind]
    · simp [hg, enlist_regs_of_ne hg]
  · change s.fds.Mem g ↔ ((s.enlist t reg).regs g).kind ≠ .timer ∧ (s.enlist t reg).Registered g
    rw [hs.fds_mem, enlist_registered hreg]
    by_cases hg : g = s.regSeq
    · have := hs.unused (s.regs s.regSeq).task
      simp [hg, enlist_regs_self, hkind, State.Registered, this]
    · simp [hg, enlist_regs_of_ne hg]

/-- A file descriptor, which goes to the end of the array. -/
theorem RegsOk.enlist_fd (hs : RegsOk s) (hreg : reg.task = t) (hkind : reg.kind ≠ .timer) :
    RegsOk { s.enlist t reg with fds := s.fds.push s.regSeq } := by
  have heap : s.timers.IsHeap (timerKey (s.enlist t reg).regs) := hs.heap.congr fun g hg => enlist_key
    (fun he => hs.not_timers (he ▸ hg)) t
  obtain ⟨indexed, mem⟩ := hs.fds.push hs.not_fds
  refine ⟨heap, indexed, fun g => ?_, fun g => ?_, fun t' g hg => hs.enlist_owner hreg hg, hs.enlist_nodup t⟩
  · change s.timers.Mem g ↔ ((s.enlist t reg).regs g).kind = .timer ∧ (s.enlist t reg).Registered g
    rw [hs.timers_mem, enlist_registered hreg]
    by_cases hg : g = s.regSeq
    · have := hs.unused (s.regs s.regSeq).task
      simp [hg, enlist_regs_self, hkind, State.Registered, this]
    · simp [hg, enlist_regs_of_ne hg]
  · change Mem _ g ↔ ((s.enlist t reg).regs g).kind ≠ .timer ∧ (s.enlist t reg).Registered g
    rw [mem, hs.fds_mem, enlist_registered hreg]
    by_cases hg : g = s.regSeq
    · simp [hg, enlist_regs_self, hkind]
    · simp [hg, enlist_regs_of_ne hg]

end

/-- What `em_register` does for a task that is not completed. -/
theorem register_eq {kind : RegKind} {time fd : Int} {cb : Callback} (ht : (s.tasks t).completed = false) :
    s.register kind time fd (some t) cb =
      if kind = .timer then { s.enlist t ⟨kind, time, fd, t, cb⟩ with
        timers := (s.timers.push s.regSeq).up (timerBefore (s.enlist t ⟨kind, time, fd, t, cb⟩).regs) s.timers.len }
      else { s.enlist t ⟨kind, time, fd, t, cb⟩ with fds := s.fds.push s.regSeq } := by
  have hindex : (s.timers.push s.regSeq).index s.regSeq = s.timers.len := set_index_self
  simp only [State.register, ht, Bool.false_eq_true, if_false]
  by_cases hk : kind = .timer
  · rw [if_pos hk, if_pos hk, ← hindex]
    rfl
  · rw [if_neg hk, if_neg hk]
    rfl

theorem RegsOk.register (hs : RegsOk s) (kind : RegKind) (time fd : Int) (o : Option TaskId) (cb : Callback) :
    RegsOk (s.register kind time fd o cb) := by
  cases o with
  | none => exact hs
  | some t =>
      cases ht : (s.tasks t).completed with
      | true =>
          rw [State.register, if_pos ht]
          exact hs
      | false =>
          rw [register_eq ht]
          split
          · next hk => exact hs.enlist_timer rfl hk
          · next hk => exact hs.enlist_fd rfl hk

/-! ## All registrations dropped -/

/-- The timers cut to their first `n`. -/
def State.firstTimers (s : State) (n : Nat) : State := { s with timers := { s.timers with len := n } }

def State.firstFds (s : State) (n : Nat) : State := { s with fds := { s.fds with len := n } }

theorem regUnlink_eq (s : State) (g : RegId) :
    s.regUnlink g = s.withRegs (s.regs g).task ((s.tasks (s.regs g).task).regs.erase g) := rfl

theorem unlink_registered (hs : RegsOk s) (g' : RegId) :
    (s.regUnlink g).Registered g' ↔ s.Registered g' ∧ g' ≠ g := by
  rw [regUnlink_eq, State.Registered, show (s.withRegs _ _).regs = s.regs from rfl]
  by_cases htask : (s.regs g').task = (s.regs g).task
  · rw [htask, withRegs_self, State.Registered, htask, (hs.nodup _).mem_erase_iff, and_comm]
  · rw [withRegs_of_ne _ _ htask, State.Registered]
    refine ⟨fun h => ⟨h, ?_⟩, And.left⟩
    rintro rfl
    exact htask rfl

theorem unlink_lists (s : State) (g : RegId) (t : TaskId) :
    ((s.regUnlink g).tasks t).regs.Sublist (s.tasks t).regs := by
  rw [regUnlink_eq]
  by_cases ht : t = (s.regs g).task
  · rw [ht, withRegs_self]
    exact List.erase_sublist
  · rw [withRegs_of_ne _ _ ht]

/-- The last timer dropped. -/
theorem RegsOk.dropTimer (hs : RegsOk s) {n : Nat} (hn : s.timers.len = n + 1) :
    RegsOk ((s.regUnlink (s.timers.items n)).firstTimers n) := by
  have hreg := unlink_registered (g := s.timers.items n) hs
  have hlast : s.timers.len - 1 = n := by omega
  have heap := hs.heap.init
  have mem := fun g => hs.heap.mem_init (b := g) (by omega)
  rw [hlast] at heap
  simp only [hlast] at mem
  refine ⟨heap, hs.fds, fun g => ?_, fun g => ?_, fun t g hg => hs.owner t g ((unlink_lists s _ t).subset hg),
    fun t => (hs.nodup t).sublist (unlink_lists s _ t)⟩
  · change Mem _ g ↔ (s.regs g).kind = .timer ∧ (s.regUnlink (s.timers.items n)).Registered g
    rw [hreg, ← and_assoc, ← hs.timers_mem]
    exact mem g
  · change s.fds.Mem g ↔ (s.regs g).kind ≠ .timer ∧ (s.regUnlink (s.timers.items n)).Registered g
    rw [hreg, hs.fds_mem]
    refine and_congr_right fun hk => (and_iff_left ?_).symm
    rintro rfl
    exact hk ((hs.timers_mem _).mp ⟨n, by omega, rfl⟩).1

/-- The last file descriptor dropped. -/
theorem RegsOk.dropFd (hs : RegsOk s) {n : Nat} (hn : s.fds.len = n + 1) :
    RegsOk ((s.regUnlink (s.fds.items n)).firstFds n) := by
  have hreg := unlink_registered (g := s.fds.items n) hs
  have mem : ∀ g, Mem { s.fds with len := n } g ↔ s.fds.Mem g ∧ g ≠ s.fds.items n := by
    intro g
    constructor
    · rintro ⟨i, hi, rfl⟩
      change i < n at hi
      refine ⟨⟨i, by omega, rfl⟩, fun he => ?_⟩
      have := hs.fds.inj (by omega) (by omega) he
      omega
    · rintro ⟨⟨i, hi, rfl⟩, hne⟩
      have hin : i ≠ n := fun he => hne (by rw [he])
      exact ⟨i, show i < n by omega, rfl⟩
  have indexed : Indexed { s.fds with len := n } := fun i hi => hs.fds i (by change i < n at hi; omega)
  refine ⟨hs.heap, indexed, fun g => ?_, fun g => ?_, fun t g hg => hs.owner t g ((unlink_lists s _ t).subset hg),
    fun t => (hs.nodup t).sublist (unlink_lists s _ t)⟩
  · change s.timers.Mem g ↔ (s.regs g).kind = .timer ∧ (s.regUnlink (s.fds.items n)).Registered g
    rw [hreg, hs.timers_mem]
    refine and_congr_right fun hk => (and_iff_left ?_).symm
    rintro rfl
    exact ((hs.fds_mem _).mp ⟨n, by omega, rfl⟩).1 hk
  · change Mem _ g ↔ (s.regs g).kind ≠ .timer ∧ (s.regUnlink (s.fds.items n)).Registered g
    rw [hreg, ← and_assoc, ← hs.fds_mem]
    exact mem g

theorem unlinkLast_eq (items : Nat → RegId) (n : Nat) (s : State) :
    State.unlinkLast items n s = { s with tasks := (State.unlinkLast items n s).tasks } := by
  induction n generalizing s with
  | zero => rfl
  | succ n ih =>
      rw [State.unlinkLast, ih]
      rfl

theorem RegsOk.unlinkTimers (n : Nat) : ∀ s : State, RegsOk (s.firstTimers n) →
    RegsOk ((State.unlinkLast s.timers.items n s).firstTimers 0) := by
  induction n with
  | zero => exact fun s hs => hs
  | succ n ih => exact fun s hs => ih (s.regUnlink (s.timers.items n)) (hs.dropTimer rfl)

theorem RegsOk.unlinkFds (n : Nat) : ∀ s : State, RegsOk (s.firstFds n) →
    RegsOk ((State.unlinkLast s.fds.items n s).firstFds 0) := by
  induction n with
  | zero => exact fun s hs => hs
  | succ n ih => exact fun s hs => ih (s.regUnlink (s.fds.items n)) (hs.dropFd rfl)

/-- All registrations are dropped. -/
def State.dropAll (s : State) : State := s.dropTimers.dropFds

theorem RegsOk.dropAll (hs : RegsOk s) : RegsOk s.dropAll :=
  .unlinkFds _ _ (.unlinkTimers _ _ hs)

/-- Only the arrays and the lists of the tasks change. -/
theorem dropAll_eq (s : State) :
    s.dropAll = { s with timers := s.dropAll.timers, fds := s.dropAll.fds, tasks := s.dropAll.tasks } := by
  have timers : s.dropTimers = { s with timers := s.dropTimers.timers, tasks := s.dropTimers.tasks } := by
    rw [State.dropTimers, unlinkLast_eq]
  have fds : ∀ s : State, s.dropFds = { s with fds := s.dropFds.fds, tasks := s.dropFds.tasks } := by
    intro s
    rw [State.dropFds, unlinkLast_eq]
  rw [State.dropAll, fds, timers]

/-- No task has a registration any more. -/
theorem RegsOk.dropAll_regs (hs : RegsOk s) (t : TaskId) : (s.dropAll.tasks t).regs = [] := by
  apply List.eq_nil_iff_forall_not_mem.mpr
  intro g hg
  have hreg := hs.dropAll.registered hg
  by_cases hk : (s.dropAll.regs g).kind = .timer
  · obtain ⟨i, hi, -⟩ := (hs.dropAll.timers_mem g).mpr ⟨hk, hreg⟩
    have hlen : s.dropAll.timers.len = 0 := by
      rw [State.dropAll, State.dropFds, unlinkLast_eq]
      rfl
    omega
  · obtain ⟨i, hi, -⟩ := (hs.dropAll.fds_mem g).mpr ⟨hk, hreg⟩
    exact absurd hi (Nat.not_lt_zero i)

end Emela.EventLoop
