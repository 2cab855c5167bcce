import Emela.Heap.Runs

/-!
# What holds of every program
-/

namespace Emela.Heap

open RefCount

variable {b : Board} {p p' : Program} {s s' : State} {B roots : List Nat} {a v : Nat} {action : Action}
  {values : List (Option Nat)}

/-- The blocks from an address on. -/
def State.blocksFrom (b : Board) (s : State) : Nat → Nat → List Nat
  | 0, _ => []
  | n + 1, a => if a < b.heapEnd then a :: s.blocksFrom b n (a + (s.headers a).size) else []

/-- The blocks of the heap. -/
def State.blocks (b : Board) (s : State) : List Nat := if s.initialized then s.blocksFrom b b.heapEnd 0 else []

/-- The payloads in use. -/
def Program.used (b : Board) (p : Program) : List Nat := p.heap.used b (p.heap.blocks b)

/-- A program gives away only what it holds, and uses only what it can reach. What it writes into a payload is of the
type that the kind of the payload stands for. -/
def Action.Legal (b : Board) (p : Program) : Action → Prop
  | .allocate _ kind content _ => b.fits kind content = true ∧ content.references.reduceOption.Subperm p.roots
  | .retain value => Reached p.roots p.heap.held value
  | .release values => values.reduceOption.Subperm p.roots
  | .store value content _ => Reached p.roots p.heap.held value ∧
    b.fits (p.heap.headers (b.header value)).kind content = true ∧ content.references.reduceOption.Subperm p.roots

inductive Reachable (b : Board) : Program → Prop
  | init : Reachable b .init
  | step {p p' : Program} {action : Action} (hp : Reachable b p) (legal : action.Legal b p)
      (hstep : p.step b action = .ok p') : Reachable b p'

theorem Layout.blocks_eq (h : Layout b s B) : s.blocks b = B := by
  have eq : ∀ B e n, Rest b s.headers e B → B.length ≤ n → s.blocksFrom b n e.address = B := by
    intro B
    induction B with
    | nil =>
      rintro e n ⟨e', rfl, he⟩ -
      cases n with
      | zero => rfl
      | succ n => exact if_neg (he ▸ Nat.lt_irrefl _)
    | cons a B ih =>
      intro e n hr hn
      obtain ⟨n, rfl⟩ := Nat.exists_eq_add_one.mpr (Nat.lt_of_lt_of_le (by simp) hn)
      obtain ⟨fits, rest⟩ := rest_cons.mp hr
      have hlt : e.address < b.heapEnd := by
        have := hr.bounds List.mem_cons_self
        have := fits.address
        omega
      rw [State.blocksFrom, if_pos hlt, ← fits.address]
      congr 1
      exact ih _ n rest (Nat.le_of_succ_le_succ hn)
  have blocks := h.blocks
  rw [State.blocks]
  split
  · rw [if_pos ‹_›] at blocks
    exact eq B .start _ blocks h.length_le
  · rw [if_neg ‹_›] at blocks
    exact blocks.symm

theorem settled_init : Settled b Program.init.heap Program.init.roots [] where
  layout :=
    { blocks := rfl
      bins := fun i => ⟨[], DoublyLinked.linked_nil, fun a => by simp⟩ }
  typed := by simp [Typed, State.used]
  counts := ⟨by simp [State.used], by simp [Program.init], by simp [State.used]⟩
  positive := by simp [State.used]

/-- A step does not find anything wrong; it may find that there is no room for a payload or for a count. -/
theorem Settled.step (h : Settled b p.heap p.roots B) (ht : p.heap.traceMode = 0) (legal : action.Legal b p) :
    (∃ p' B', p.step b action = .ok p' ∧ Settled b p'.heap p'.roots B' ∧ p'.heap.traceMode = 0 ∧
      (p'.heap.initialized = p.heap.initialized ∨ B' ≠ [])) ∨
    (p.step b action = .error exhausted ∧ ∃ payloadSize kind content bytes, action = .allocate payloadSize kind content bytes) ∨
    (p.step b action = .error referenceOverflow ∧
      ∃ value, action = .retain value ∧ p.heap.references b value = 2 ^ 32 - 1) := by
  cases action with
  | allocate payloadSize kind content bytes =>
    obtain ⟨hfits, hsub⟩ := legal
    rcases h.layout.allocate payloadSize kind with ⟨s', a, B', hal, allocates, -⟩ | ⟨hal, -⟩
    · refine .inl ⟨⟨s'.write b (a + b.headerSize) content bytes, _⟩, B', ?_, h.allocate allocates hfits hsub,
        allocates.traceMode.trans ht, .inr (List.ne_nil_of_mem allocates.mem)⟩
      simp only [Program.step, hal, bind, Except.bind]
    · refine .inr (.inl ⟨?_, payloadSize, kind, content, bytes, rfl⟩)
      simp only [Program.step, hal, bind, Except.bind]
  | retain value =>
    rcases h.retain (h.counts.reached_mem legal) with ⟨hretain, hmax⟩ | ⟨s', hretain, settled, traceMode, initialized⟩
    · refine .inr (.inr ⟨?_, value, rfl, hmax⟩)
      simp only [Program.step, hretain, bind, Except.bind]
    · refine .inl ⟨⟨s', _⟩, B, ?_, settled, traceMode.trans ht, .inl initialized⟩
      simp only [Program.step, hretain, bind, Except.bind]
  | release values =>
    obtain ⟨s', B', hrelease, settled, shrinks, -⟩ := h.release ht legal
    refine .inl ⟨⟨s', _⟩, B', ?_, settled, shrinks.traceMode.trans ht, .inl shrinks.initialized⟩
    simp only [Program.step, hrelease, bind, Except.bind]
  | store value content bytes =>
    obtain ⟨hreached, hfits, hsub⟩ := legal
    exact .inl ⟨_, B, rfl, h.store (h.counts.reached_mem hreached) hfits hsub, ht, .inl rfl⟩

theorem Reachable.settled (h : Reachable b p) : Settled b p.heap p.roots (p.heap.blocks b) ∧ p.heap.traceMode = 0 ∧
    (p.heap.initialized = true → 0 < b.heapEnd) := by
  suffices ∃ B, Settled b p.heap p.roots B ∧ p.heap.traceMode = 0 ∧ (p.heap.initialized = true → 0 < b.heapEnd) by
    obtain ⟨B, settled, rest⟩ := this
    rw [settled.layout.blocks_eq]
    exact ⟨settled, rest⟩
  induction h with
  | init => exact ⟨[], settled_init, rfl, fun h => absurd h (by simp [Program.init])⟩
  | step hp legal hstep ih =>
    obtain ⟨B, settled, ht, hpos⟩ := ih
    rcases settled.step ht legal with ⟨p', B', hok, settled', ht', hi⟩ | ⟨herror, -⟩ | ⟨herror, -⟩
    · cases hok.symm.trans hstep
      refine ⟨B', settled', ht', fun hi' => ?_⟩
      rcases hi with hi | hne
      · exact hpos (hi ▸ hi')
      · obtain ⟨a, ha⟩ := List.exists_mem_of_ne_nil B' hne
        have := (settled'.layout.rest hi').bounds ha
        omega
    · cases herror.symm.trans hstep
    · cases herror.symm.trans hstep

/-! ## Runs that can be computed -/

/-- What is legal whatever is in the payloads. -/
def Action.allowed (b : Board) (p : Program) : Action → Bool
  | .allocate _ kind content _ => b.fits kind content && content.references.reduceOption.isSubperm p.roots
  | .retain value => p.roots.contains value
  | .release values => values.reduceOption.isSubperm p.roots
  | .store value content _ => p.roots.contains value &&
    (b.fits (p.heap.headers (b.header value)).kind content && content.references.reduceOption.isSubperm p.roots)

def Program.run (b : Board) (p : Program) (actions : List Action) : Option Program :=
  actions.foldlM (fun p action => if action.allowed b p then (p.step b action).toOption else none) p

theorem Action.legal_of_allowed (h : action.allowed b p = true) : action.Legal b p := by
  cases action with
  | allocate payloadSize kind content bytes =>
    obtain ⟨hfits, hsub⟩ := Bool.and_eq_true_iff.mp h
    exact ⟨hfits, List.isSubperm_iff.mp hsub⟩
  | retain value => exact .outside (by simpa [Action.allowed] using h)
  | release values => exact List.isSubperm_iff.mp h
  | store value content bytes =>
    obtain ⟨hv, h⟩ := Bool.and_eq_true_iff.mp h
    obtain ⟨hfits, hsub⟩ := Bool.and_eq_true_iff.mp h
    exact ⟨.outside (by simpa using hv), hfits, List.isSubperm_iff.mp hsub⟩

theorem Reachable.run {actions : List Action} (h : Reachable b p) (hrun : p.run b actions = some p') :
    Reachable b p' := by
  induction actions generalizing p with
  | nil =>
    cases hrun
    exact h
  | cons action actions ih =>
    rw [Program.run, List.foldlM_cons] at hrun
    obtain ⟨p₁, hstep, hrun⟩ := Option.bind_eq_some_iff.mp hrun
    obtain ⟨hallowed, hstep⟩ := Option.ite_none_right_eq_some.mp hstep
    cases hs : p.step b action with
    | error d =>
      rw [hs] at hstep
      cases hstep
    | ok p₂ =>
      rw [hs] at hstep
      cases hstep
      exact ih (h.step (Action.legal_of_allowed hallowed) hs) hrun

/-- What can be computed of a program holds of it. -/
theorem of_run (b : Board) (actions : List Action) (P : Program → Prop) [DecidablePred P]
    (h : (Program.init.run b actions).any (fun p => decide (P p)) = true) : ∃ p, Reachable b p ∧ P p := by
  obtain ⟨p, hrun, hp⟩ := (Option.any_eq_true ..).mp h
  exact ⟨p, .run .init hrun, of_decide_eq_true hp⟩

/-- Its one kind of payload may hold a reference. -/
def small : Board :=
  ⟨16, 64, 256, 2 ^ 64 - 1, true, fun kind => [Shape.variants [.plain, .reference]][kind]?, by decide, by decide,
    by decide, by decide⟩

def blank : Nat → Header := fun _ => ⟨0, 0, none, none, 0, 0, true, 0, 0⟩

def nothing : Content := .tagged 0 .plain

def holding (value : Nat) : Content := .tagged 1 (.reference (some value))

/-- Two payloads that hold each other. -/
def ring : List Action :=
  [.allocate 16 0 nothing blank, .allocate 16 0 nothing blank, .retain 64, .retain 144, .store 64 (holding 144) blank,
    .store 144 (holding 64) blank]

/-! ## The storage -/

/-- The blocks of a heap in use fill the storage without a gap, no two free blocks are next to each other, and the
bins hold the free blocks, each once. -/
theorem Reachable.fills_storage (h : Reachable b p) : Layout b p.heap (p.heap.blocks b) ∧
    (p.heap.initialized = true → ((p.heap.blocks b).map fun a => (p.heap.headers a).size).sum = b.heapEnd) ∧
    ((p.heap.blocks b).Pairwise fun a x => a + (p.heap.headers a).size ≤ x) ∧
    ∀ a ∈ p.heap.blocks b, b.alignment ∣ a ∧ b.headerSize ≤ (p.heap.headers a).size ∧
      a + (p.heap.headers a).size ≤ b.heapEnd := by
  have layout := h.settled.1.layout
  refine ⟨layout, fun hi => ?_, ?_, fun a ha => ?_⟩
  · obtain ⟨e, run, he⟩ := layout.rest hi
    have := run.sum
    rwa [he, Edge.start, Nat.zero_add] at this
  · cases hi : p.heap.initialized with
    | true =>
      obtain ⟨e, run, -⟩ := layout.rest hi
      exact run.pairwise
    | false =>
      rw [layout.eq_nil hi]
      exact List.Pairwise.nil
  · obtain ⟨e, run, he⟩ := layout.rest (layout.initialized ha)
    obtain ⟨e₁, fits⟩ := run.fits ha
    exact ⟨(run.aligned (Nat.dvd_zero _)).1 a ha, fits.room, he ▸ (run.bounds ha).2.1⟩

theorem fills_storage_ring : ∃ p : Program, p.heap.blocks small = [0, 80, 160] ∧
    ((p.heap.blocks small).map fun a => (p.heap.headers a).size).sum = 256 := by
  obtain ⟨p, hp, hblocks, hi⟩ := of_run small ring
    (fun p => p.heap.blocks small = [0, 80, 160] ∧ p.heap.initialized = true) (by decide)
  exact ⟨p, hblocks, hp.fills_storage.2.1 hi⟩

/-- What is in payloads is as it was, and no header is written inside one of these. -/
structure Untouched (b : Board) (s s' : State) (payloads : List Nat) : Prop where
  contents : s'.contents = s.contents
  apart : ∀ x, s'.headers x ≠ s.headers x → ∀ v ∈ payloads,
    x + b.headerSize ≤ v ∨ b.header v + (s.headers (b.header v)).size ≤ x

/-- A payload is allocated unless it is too large or no free block has room for it. It is in a block of its own, and
the blocks that were used are as they were, headers and payloads. -/
theorem Reachable.allocates_room (h : Reachable b p) (payloadSize kind : Nat) :
    (∀ d, p.heap.allocate b payloadSize kind = .error d → d = exhausted) ∧
    ((∃ d, p.heap.allocate b payloadSize kind = .error d) ↔
      b.sizeMax - b.headerSize - b.alignment < payloadSize ∨
      (p.heap.initialized = false ∧ b.heapEnd < b.headerSize + b.alignment) ∨
      ∀ a ∈ (p.heap.heapInitialize b).blocks b, ((p.heap.heapInitialize b).headers a).isFree = true →
        ((p.heap.heapInitialize b).headers a).size < b.totalSize payloadSize) ∧
    ∀ s' value, p.heap.allocate b payloadSize kind = .ok (s', value) →
      Layout b s' (s'.blocks b) ∧ value ∉ p.used b ∧
      (∀ v, v ∈ s'.used b (s'.blocks b) ↔ v = value ∨ v ∈ p.used b) ∧
      b.headerSize + payloadSize ≤ (s'.headers (b.header value)).size ∧
      (∀ v ∈ p.used b, (s'.headers (b.header v)).kept = (p.heap.headers (b.header v)).kept) ∧
      Untouched b p.heap s' (p.used b) := by
  have layout := h.settled.1.layout
  rcases layout.allocate payloadSize kind with ⟨s', a, B', hal, allocates, hsize, B₁, layout₁, ha, hf, hfit⟩ | ⟨hal, hcases⟩
  · refine ⟨fun d hd => ?_, ⟨fun herror => ?_, fun hcases => ?_⟩, fun s₁ value hok => ?_⟩
    · cases hal.symm.trans hd
    · obtain ⟨d, hd⟩ := herror
      cases hal.symm.trans hd
    · exfalso
      rcases hcases with hlarge | ⟨hi, hsmall⟩ | hnone
      · exact hsize hlarge
      · simp only [State.allocate] at hal
        rw [if_neg hsize, layout.findFit_eq_none hi hsmall] at hal
        cases hal
      · rw [layout₁.blocks_eq] at hnone
        exact Nat.lt_irrefl _ (Nat.lt_of_lt_of_le (hnone a ha hf) hfit)
    · cases hal.symm.trans hok
      rw [allocates.layout.blocks_eq, Board.header_add]
      have kept : ∀ v ∈ p.used b, (s'.headers (b.header v)).kept = (p.heap.headers (b.header v)).kept := by
        intro v hv
        obtain ⟨hm, hf, -⟩ := mem_used_iff.mp hv
        exact allocates.kept _ hm hf
      refine ⟨allocates.layout, fun hm => ?_, fun v => allocates.used_iff, allocates.room, kept, allocates.contents,
        fun x hx v hv => ?_⟩
      · have := mem_used_iff.mp hm
        rw [Board.header_add] at this
        exact allocates.fresh ⟨this.1, this.2.1⟩
      · have hB : x ∈ B' := by
          by_contra hB
          exact hx (allocates.only x hB)
        have size : (s'.headers (b.header v)).size = (p.heap.headers (b.header v)).size := (congrArg Header.size (kept v hv) :)
        rw [← size]
        exact allocates.layout.outside_payload hB (allocates.used_iff.mpr (.inr hv))
  · refine ⟨fun d hd => ?_, ⟨fun _ => ?_, fun _ => ⟨exhausted, hal⟩⟩, fun s₁ value hok => ?_⟩
    · cases hal.symm.trans hd
      rfl
    · rcases hcases with hlarge | hsmall | ⟨B', layout', hnone⟩
      · exact .inl hlarge
      · exact .inr (.inl hsmall)
      · rw [← layout'.blocks_eq] at hnone
        exact .inr (.inr hnone)
    · cases hal.symm.trans hok

theorem allocates_room_ring : ∃ p : Program, p.heap.blocks small = [0, 80, 160] ∧ p.used small = [64, 144] ∧
    (∃ d, p.heap.allocate small 48 0 = .error d) ∧
    ∃ s' value, p.heap.allocate small 16 0 = .ok (s', value) ∧ value ∉ p.used small ∧
      Untouched small p.heap s' (p.used small) := by
  obtain ⟨p, hp, hblocks, hused, hi, hfull, hroom⟩ := of_run small ring (fun p => p.heap.blocks small = [0, 80, 160] ∧
    p.used small = [64, 144] ∧ p.heap.initialized = true ∧
    (∀ a ∈ (p.heap.heapInitialize small).blocks small, ((p.heap.heapInitialize small).headers a).isFree = true →
      ((p.heap.heapInitialize small).headers a).size < small.totalSize 48) ∧
    ∃ a ∈ (p.heap.heapInitialize small).blocks small, ((p.heap.heapInitialize small).headers a).isFree = true ∧
      small.totalSize 16 ≤ ((p.heap.heapInitialize small).headers a).size) (by decide)
  refine ⟨p, hblocks, hused, (hp.allocates_room 48 0).2.1.mpr (.inr (.inr hfull)), ?_⟩
  obtain ⟨-, hfails, hfits⟩ := hp.allocates_room 16 0
  cases hal : p.heap.allocate small 16 0 with
  | error d =>
    rcases hfails.mp ⟨d, hal⟩ with hlarge | ⟨hi', -⟩ | hnone
    · exact absurd hlarge (by decide)
    · rw [hi] at hi'
      cases hi'
    · obtain ⟨a, ha, hf, hsize⟩ := hroom
      exact absurd (hnone a ha hf) (Nat.not_lt.mpr hsize)
  | ok found =>
    obtain ⟨-, hfresh, -, -, -, untouched⟩ := hfits found.1 found.2 hal
    exact ⟨found.1, found.2, rfl, hfresh, untouched⟩

/-! ## References -/

/-- No reference is found to be wrong: a step stops only when there is no room for a payload or for a count. -/
theorem Reachable.references_valid (h : Reachable b p) (legal : action.Legal b p) :
    (∃ p', p.step b action = .ok p') ∨
    (p.step b action = .error exhausted ∧ ∃ payloadSize kind content bytes, action = .allocate payloadSize kind content bytes) ∨
    (p.step b action = .error referenceOverflow ∧
      ∃ value, action = .retain value ∧ p.heap.references b value = 2 ^ 32 - 1) := by
  obtain ⟨settled, ht, -⟩ := h.settled
  rcases settled.step ht legal with ⟨p', -, hok, -⟩ | herror
  · exact .inl ⟨p', hok⟩
  · exact .inr herror

theorem references_valid_ring : ∃ p : Program, p.used small = [64, 144] ∧
    ((∃ p', p.step small (.release [some 64, none, some 144]) = .ok p') ∨
      (p.step small (.release [some 64, none, some 144]) = .error exhausted ∧
        ∃ payloadSize kind content bytes, Action.release [some 64, none, some 144] = .allocate payloadSize kind content bytes) ∨
      (p.step small (.release [some 64, none, some 144]) = .error referenceOverflow ∧
        ∃ value, Action.release [some 64, none, some 144] = .retain value ∧
          p.heap.references small value = 2 ^ 32 - 1)) := by
  obtain ⟨p, hp, hused, hallowed⟩ := of_run small ring
    (fun p => p.used small = [64, 144] ∧ Action.allowed small p (.release [some 64, none, some 144]) = true) (by decide)
  exact ⟨p, hused, hp.references_valid (Action.legal_of_allowed hallowed)⟩

/-- The count of a payload is the number of the references to it, and what can be reached is not freed. -/
theorem Reachable.counts_references (h : Reachable b p) :
    (∀ v ∈ p.used b, 0 < p.heap.references b v ∧
      p.heap.references b v = p.roots.count v + ((p.used b).flatMap p.heap.held).count v) ∧
    ∀ v, Reached p.roots p.heap.held v → v ∈ p.used b := by
  have settled := h.settled.1
  exact ⟨fun v hv => ⟨settled.positive v hv, settled.counts.count v hv⟩, fun v => settled.counts.reached_mem⟩

theorem counts_references_ring : ∃ p : Program, p.used small = [64, 144] ∧ p.heap.references small 64 = 2 ∧
    p.heap.references small 64 = p.roots.count 64 + ((p.used small).flatMap p.heap.held).count 64 := by
  obtain ⟨p, hp, hused, hcount⟩ := of_run small ring
    (fun p => p.used small = [64, 144] ∧ p.heap.references small 64 = 2) (by decide)
  exact ⟨p, hused, hcount, (hp.counts_references.1 64 (by simp [hused])).2⟩

/-- Where values do not hold each other in cycles, nothing is used that cannot be reached. -/
theorem Reachable.leaks_only_cycles (h : Reachable b p)
    (hacyclic : ∀ v, ¬ Relation.TransGen (fun y z => y ∈ p.used b ∧ z ∈ p.heap.held y) v v) (hv : v ∈ p.used b) :
    Reached p.roots p.heap.held v :=
  h.settled.1.counts.reached_of_acyclic h.settled.1.positive hacyclic hv

theorem leaks_only_cycles_pair : ∃ p : Program, p.used small = [64, 144] ∧ Reached p.roots p.heap.held 64 := by
  obtain ⟨p, hp, hused, hheld⟩ := of_run small [.allocate 16 0 nothing blank, .allocate 16 0 (holding 64) blank]
    (fun p => p.used small = [64, 144] ∧ p.heap.held 64 = [] ∧ p.heap.held 144 = [64]) (by decide)
  refine ⟨p, hused, hp.leaks_only_cycles (fun v hcycle => ?_) (by simp [hused])⟩
  have grows : ∀ y z, y ∈ p.used small ∧ z ∈ p.heap.held y → z < y := by
    rintro y z ⟨hy, hz⟩
    rw [hused, List.mem_cons, List.mem_singleton] at hy
    rcases hy with rfl | rfl
    · simp [hheld] at hz
    · simp_all
  have lt : ∀ y z, Relation.TransGen (fun y z => y ∈ p.used small ∧ z ∈ p.heap.held y) y z → z < y := by
    intro y z hyz
    induction hyz with
    | single h => exact grows _ _ h
    | tail _ h ih => exact Nat.lt_trans (grows _ _ h) ih
  exact Nat.lt_irrefl v (lt v v hcycle)

/-- With a collector the payloads in use after a release are those that can be reached, which are as they were. -/
theorem Reachable.release_collects (h : Reachable b p) (hc : b.cycles = true)
    (legal : values.reduceOption.Subperm p.roots) : ∃ p', p.step b (.release values) = .ok p' ∧
      p'.roots = p.roots.diff values.reduceOption ∧ Untouched b p.heap p'.heap (p.used b) ∧
      (∀ v, v ∈ p'.used b ↔ Reached p'.roots p.heap.held v) ∧
      ∀ v ∈ p'.used b, v ∈ p.used b ∧ (p'.heap.headers (b.header v)).size = (p.heap.headers (b.header v)).size ∧
        (p'.heap.headers (b.header v)).kind = (p.heap.headers (b.header v)).kind := by
  obtain ⟨settled, ht, -⟩ := h.settled
  obtain ⟨s', B', hrelease, settled', shrinks, reached⟩ := settled.release ht legal
  have held : s'.held = p.heap.held := held_congr shrinks.contents
  refine ⟨⟨s', _⟩, ?_, rfl, ⟨shrinks.contents, fun x hx v hv => ?_⟩, fun v => ?_, fun v hv => ?_⟩
  · simp only [Program.step, hrelease, bind, Except.bind]
  · apply settled.layout.outside_payload _ hv
    by_contra hB
    exact hx (shrinks.only x hB)
  · rw [Program.used, settled'.layout.blocks_eq, ← held]
    exact ⟨reached hc v, settled'.counts.reached_mem⟩
  · rw [Program.used, settled'.layout.blocks_eq] at hv
    exact ⟨shrinks.used v hv, shrinks.size v hv, shrinks.kind v hv⟩

theorem release_collects_ring : ∃ p p' : Program, p.used small = [64, 144] ∧
    p.step small (.release [some 64, some 144]) = .ok p' ∧ p'.roots = p.roots.diff [64, 144] ∧
    Untouched small p.heap p'.heap (p.used small) := by
  obtain ⟨p, hp, hused, hallowed⟩ := of_run small ring
    (fun p => p.used small = [64, 144] ∧ Action.allowed small p (.release [some 64, some 144]) = true) (by decide)
  obtain ⟨p', hstep, hroots, untouched, -⟩ := hp.release_collects rfl (Action.legal_of_allowed hallowed)
  exact ⟨p, p', hused, hstep, hroots, untouched⟩

/-- When nothing is used any more, the heap is one free block again. -/
theorem Reachable.whole_again (h : Reachable b p) (hi : p.heap.initialized = true) (hnone : p.used b = []) :
    p.heap.blocks b = [0] ∧ (p.heap.headers 0).isFree = true ∧ (p.heap.headers 0).size = b.heapEnd := by
  obtain ⟨settled, -, hpos⟩ := h.settled
  have hfree : ∀ a ∈ p.heap.blocks b, (p.heap.headers a).isFree = true := by
    intro a ha
    by_contra hf
    have : a + b.headerSize ∈ p.used b := mem_used.mpr ⟨a, ha, Bool.of_not_eq_true hf, rfl⟩
    simp [hnone] at this
  have rest := settled.layout.rest hi
  generalize p.heap.blocks b = B at *
  cases B with
  | nil =>
    obtain ⟨e, rfl, he⟩ := rest
    exact absurd (hpos hi) (he ▸ Nat.lt_irrefl _)
  | cons a B =>
    obtain ⟨fits, rest⟩ := rest_cons.mp rest
    obtain rfl : a = 0 := fits.address
    cases B with
    | nil =>
      obtain ⟨e, rfl, he⟩ := rest
      refine ⟨rfl, hfree 0 List.mem_cons_self, ?_⟩
      simpa [Edge.after] using he
    | cons x B =>
      have hx := (rest_cons.mp rest).1.apart (hfree 0 List.mem_cons_self)
      rw [hfree x (by simp)] at hx
      cases hx

theorem whole_again_ring : ∃ p : Program, p.heap.initialized = true ∧ p.roots = [] ∧ p.heap.blocks small = [0] ∧
    (p.heap.headers 0).size = 256 := by
  obtain ⟨p, hp, hi, hroots, hused⟩ := of_run small (ring ++ [.release [some 64], .release [some 144]])
    (fun p => p.heap.initialized = true ∧ p.roots = [] ∧ p.used small = []) (by decide +kernel)
  obtain ⟨hblocks, -, hsize⟩ := hp.whole_again hi hused
  exact ⟨p, hi, hroots, hblocks, hsize⟩

end Emela.Heap
