import Mathlib.Algebra.Ring.Nat
import Mathlib.Data.List.Basic
import Mathlib.Logic.Function.Basic
import Mathlib.Tactic.Common

/-!
# The fixed heap of embedded programs

`heap.rs`: the allocator, the reference counts and the cycle collector that are written into a program. An address is
an offset into `emela_heap_storage`, and a header is kept for each of them; those that are no block are whatever the
storage holds there. What is in a payload is kept apart from the headers.
-/

namespace Emela.Heap

/-- What is known from the types of a payload, or of a value in one: the cases of `emela_heap_destroy` and
`emela_heap_enqueue_value`. An `EmelaAny` is one of `variants`, of which the first is a reference to its box. -/
inductive Shape where
  | plain
  | reference
  | tuple (fields : List Shape)
  /-- `switch (value->tag)`, which does nothing by default. -/
  | variants (cases : List Shape)
  /-- `switch (box->type)` -/
  | anyBox (cases : List Shape)

/-- What is in a payload, or in a value in one; what is neither reference nor tag is left out. -/
inductive Content where
  | plain
  | reference (value : Option Nat)
  | tuple (fields : List Content)
  | tagged (tag : Nat) (content : Content)

mutual

/-- The references in it. -/
def Content.references : Content → List (Option Nat)
  | .plain => []
  | .reference value => [value]
  | .tuple fields => allReferences fields
  | .tagged _ content => content.references

def allReferences : List Content → List (Option Nat)
  | [] => []
  | content :: contents => content.references ++ allReferences contents

end

mutual

/-- A value has this shape. -/
def Shape.fits : Shape → Content → Bool
  | .plain, .plain => true
  | .reference, .reference _ => true
  | .tuple fields, .tuple contents => fitAll fields contents
  | .variants cases, .tagged tag content => fitsCase cases tag content
  | .anyBox cases, .tagged tag content => fitsCase cases tag content
  | _, _ => false

def fitAll : List Shape → List Content → Bool
  | [], [] => true
  | shape :: shapes, content :: contents => shape.fits content && fitAll shapes contents
  | _, _ => false

def fitsCase : List Shape → Nat → Content → Bool
  | [], _, _ => false
  | shape :: _, 0, content => shape.fits content
  | _ :: shapes, tag + 1, content => fitsCase shapes tag content

end

/-- A build: `_Alignof(max_align_t)`, `sizeof(emela_heap_block)`, `sizeof(emela_heap_storage)`, `SIZE_MAX`, whether
values can hold each other in cycles, and the kinds for which `emela_heap_destroy` has a case. -/
structure Board where
  alignment : Nat
  blockSize : Nat
  capacity : Nat
  sizeMax : Nat
  cycles : Bool
  shapes : Nat → Option Shape
  alignment_pos : 0 < alignment
  blockSize_pos : 0 < blockSize
  capacity_le : capacity ≤ sizeMax
  room : blockSize + 2 * alignment ≤ sizeMax

/-- `emela_heap_block`; `none` is `NULL`. -/
structure Header where
  size : Nat
  previousSize : Nat
  freeNext : Option Nat
  freePrevious : Option Nat
  references : Nat
  kind : Nat
  isFree : Bool
  gcReferences : Nat
  gcState : Nat

@[ext]
structure State where
  headers : Nat → Header
  /-- `emela_heap_bins` -/
  bins : Nat → Option Nat
  /-- `emela_heap_initialized` -/
  initialized : Bool
  /-- `emela_heap_trace_mode` -/
  traceMode : Nat
  /-- What is in the payload at an address. -/
  contents : Nat → Content

/-- The calls of `emela_board_defect`, and a loop that is not over when its fuel is. -/
inductive Defect where
  | heapExhausted (message : String)
  | panic (message : String)
  | unfinished
deriving DecidableEq

def exhausted : Defect := .heapExhausted "fixed heap exhausted"
def referenceOverflow : Defect := .heapExhausted "heap reference count overflow"
def invalidReference : Defect := .heapExhausted "invalid fixed heap reference"
def invalidGraph : Defect := .panic "invalid heap ownership graph"
def invalidKind : Defect := .panic "invalid fixed heap reference"
def invalidBox : Defect := .panic "invalid Any box type"

/-- The variables `pending` and `tail`: blocks whose references are gone, linked through `free_next`. -/
structure Pending where
  first : Option Nat
  tail : Option Nat

namespace State

def set (s : State) (a : Nat) (f : Header → Header) : State :=
  { s with headers := Function.update s.headers a (f (s.headers a)) }

/-- Through a pointer, unless it is `NULL`. -/
def setSome (s : State) (a : Option Nat) (f : Header → Header) : State := a.elim s fun a => s.set a f

def setBin (s : State) (i : Nat) (head : Option Nat) : State := { s with bins := Function.update s.bins i head }

variable {s : State} {a x i : Nat} {f g : Header → Header} {o head : Option Nat}

theorem set_headers : (s.set a f).headers x = if x = a then f (s.headers a) else s.headers x := Function.update_apply ..

@[simp] theorem set_self : (s.set a f).headers a = f (s.headers a) := Function.update_self ..

theorem set_of_ne (h : x ≠ a) : (s.set a f).headers x = s.headers x := Function.update_of_ne h ..

theorem set_set : (s.set a f).set a g = s.set a fun block => g (f block) := by
  simp [set, Function.update_idem]

theorem set_comm (h : x ≠ a) : (s.set x f).set a g = (s.set a g).set x f := by
  simp only [set, Function.update_of_ne h, Function.update_of_ne (Ne.symm h), Function.update_comm h]

@[simp] theorem set_bins : (s.set a f).bins = s.bins := rfl

@[simp] theorem set_contents : (s.set a f).contents = s.contents := rfl

@[simp] theorem set_initialized : (s.set a f).initialized = s.initialized := rfl

@[simp] theorem set_traceMode : (s.set a f).traceMode = s.traceMode := rfl

theorem setSome_headers : (s.setSome o f).headers x = if o = some x then f (s.headers x) else s.headers x := by
  cases o with
  | none => rfl
  | some a =>
    by_cases h : a = x
    · subst h
      simp [setSome]
    · simp [setSome, set_headers, h, Ne.symm h]

@[simp] theorem setSome_bins : (s.setSome o f).bins = s.bins := by cases o <;> rfl

@[simp] theorem setSome_contents : (s.setSome o f).contents = s.contents := by cases o <;> rfl

@[simp] theorem setSome_initialized : (s.setSome o f).initialized = s.initialized := by cases o <;> rfl

@[simp] theorem setSome_traceMode : (s.setSome o f).traceMode = s.traceMode := by cases o <;> rfl

@[simp] theorem setBin_headers : (s.setBin i head).headers = s.headers := rfl

@[simp] theorem setBin_contents : (s.setBin i head).contents = s.contents := rfl

@[simp] theorem setBin_initialized : (s.setBin i head).initialized = s.initialized := rfl

@[simp] theorem setBin_traceMode : (s.setBin i head).traceMode = s.traceMode := rfl

/-- The references in a payload. -/
def fields (s : State) (v : Nat) : List (Option Nat) := (s.contents v).references

end State

/-! ## Sizes -/

/-- `EMELA_HEAP_BIN_COUNT` -/
def binCount : Nat := 32

namespace Board

variable (b : Board)

/-- `emela_heap_header_size` -/
def headerSize : Nat :=
  let remainder := b.blockSize % b.alignment
  if remainder = 0 then b.blockSize else b.blockSize + b.alignment - remainder

/-- The loop of `emela_heap_bin`. -/
def binFrom (size : Nat) : Nat → Nat → Nat → Nat
  | 0, index, _ => index
  | n + 1, index, bound =>
    if bound < size ∧ index + 1 < binCount ∧ bound ≤ b.sizeMax / 2 then binFrom size n (index + 1) (bound * 2)
    else index

/-- `emela_heap_bin` -/
def bin (size : Nat) : Nat := b.binFrom size binCount 0 64

/-- `emela_heap_end` -/
def heapEnd : Nat := b.capacity - b.capacity % b.alignment

/-- `emela_heap_header` -/
def header (value : Nat) : Nat := value - b.headerSize

/-- `total_size` -/
def totalSize (payloadSize : Nat) : Nat :=
  let total := b.headerSize + payloadSize
  let remainder := total % b.alignment
  if remainder ≠ 0 then total + (b.alignment - remainder) else total

/-- There is a case for the kind, and it is for such a payload. -/
def fits (kind : Nat) (content : Content) : Bool := (b.shapes kind).any (·.fits content)

end Board

namespace State

variable (b : Board)

/-! ## Free blocks -/

/-- `emela_heap_add_free` -/
def addFree (s : State) (a : Nat) : State :=
  let index := b.bin (s.headers a).size
  let next := s.bins index
  let s := s.set a fun block => { block with isFree := true, freePrevious := none, freeNext := next }
  let s := s.setSome next fun block => { block with freePrevious := some a }
  s.setBin index (some a)

/-- `emela_heap_remove_free` -/
def removeFree (s : State) (a : Nat) : State :=
  let index := b.bin (s.headers a).size
  let next := (s.headers a).freeNext
  let previous := (s.headers a).freePrevious
  let s := if previous = none then s.setBin index next else s.setSome previous fun block => { block with freeNext := next }
  let s := s.setSome next fun block => { block with freePrevious := previous }
  s.set a fun block => { block with freeNext := none, freePrevious := none }

/-- `emela_heap_initialize` -/
def heapInitialize (s : State) : State :=
  if s.initialized then s
  else
    let s := { s with initialized := true }
    if b.heapEnd < b.headerSize + b.alignment then s
    else
      let s := s.set 0 fun block => { block with
        size := b.heapEnd, previousSize := 0, references := 0, kind := 0, freePrevious := none, freeNext := none }
      s.addFree b 0

/-- The block after `a` is told the size of `a`. -/
def tellNext (s : State) (a : Nat) : State :=
  let blockEnd := a + (s.headers a).size
  if blockEnd < b.heapEnd then s.set blockEnd fun block => { block with previousSize := (s.headers a).size } else s

/-- The block after `a` becomes a part of `a` when it is free. -/
def joinNext (s : State) (a : Nat) : State :=
  let next := a + (s.headers a).size
  if next < b.heapEnd then
    if (s.headers next).isFree then
      let s := s.removeFree b next
      s.set a fun block => { block with size := block.size + (s.headers next).size }
    else s
  else s

/-- `a` becomes a part of the block before it when that is free; the block that it is then. -/
def joinPrevious (s : State) (a : Nat) : State × Nat :=
  if (s.headers a).previousSize ≠ 0 then
    let previous := a - (s.headers a).previousSize
    if (s.headers previous).isFree then
      let s := s.removeFree b previous
      (s.set previous fun block => { block with size := block.size + (s.headers a).size }, previous)
    else (s, a)
  else (s, a)

/-- `emela_heap_free_block` -/
def freeBlock (s : State) (a : Nat) : State × Nat :=
  let s := (s.joinNext b a).tellNext b a
  let joined := s.joinPrevious b a
  let s := joined.1.tellNext b joined.2
  let s := s.set joined.2 fun block => { block with references := 0, kind := 0 }
  (s.addFree b joined.2, joined.2)

/-! ## Allocation -/

/-- The inner loop of `emela_heap_allocate`, over a bin. -/
def fitIn (s : State) (total : Nat) : Nat → Option Nat → Except Defect (Option Nat)
  | _, none => .ok none
  | 0, some _ => .error .unfinished
  | n + 1, some a => if total ≤ (s.headers a).size then .ok (some a) else fitIn s total n (s.headers a).freeNext

/-- The outer loop of `emela_heap_allocate`. -/
def fitFrom (s : State) (total : Nat) : List Nat → Except Defect (Option Nat)
  | [] => .ok none
  | index :: indices => do
    match ← s.fitIn total (b.heapEnd + 1) (s.bins index) with
    | some a => .ok (some a)
    | none => fitFrom s total indices

/-- The first block of the first bin that has one that is large enough. -/
def findFit (s : State) (total : Nat) : Except Defect (Option Nat) :=
  s.fitFrom b total (List.range' (b.bin total) (binCount - b.bin total))

/-- What is left of a free block is a free block of its own when it is large enough. -/
def split (s : State) (a total : Nat) : State :=
  let leftover := (s.headers a).size - total
  if b.headerSize + b.alignment ≤ leftover then
    let s := s.set a fun block => { block with size := total }
    let splitAddress := a + total
    let s := s.set splitAddress fun block => { block with
      size := leftover, previousSize := total, references := 0, kind := 0, freeNext := none, freePrevious := none }
    let s := s.addFree b splitAddress
    let afterSplit := splitAddress + leftover
    if afterSplit < b.heapEnd then s.set afterSplit fun block => { block with previousSize := leftover } else s
  else s

/-- A free block is taken. -/
def take (s : State) (a total kind : Nat) : State :=
  ((s.removeFree b a).split b a total).set a fun block => { block with
    isFree := false, references := 1, kind := kind, freeNext := none, freePrevious := none }

/-- `emela_heap_allocate` -/
def allocate (s : State) (payloadSize kind : Nat) : Except Defect (State × Nat) :=
  let s := s.heapInitialize b
  if b.sizeMax - b.headerSize - b.alignment < payloadSize then .error exhausted
  else do
    match ← s.findFit b (b.totalSize payloadSize) with
    | none => .error exhausted
    | some a => .ok (s.take b a (b.totalSize payloadSize) kind, a + b.headerSize)

/-! ## References -/

/-- `emela_heap_retain` -/
def retain (s : State) : Option Nat → Except Defect State
  | none => .ok s
  | some value =>
    let a := b.header value
    if (s.headers a).isFree ∨ (s.headers a).references = 0 then .error invalidReference
    else if (s.headers a).references = 2 ^ 32 - 1 then .error referenceOverflow
    else .ok (s.set a fun block => { block with references := block.references + 1 })

/-- The end of `emela_heap_enqueue`: a reference to the block is gone. -/
def drop (s : State) (q : Pending) (a : Nat) : State × Pending :=
  let s := s.set a fun block => { block with references := block.references - 1 }
  if (s.headers a).references = 0 then
    let s := s.set a fun block => { block with freeNext := none }
    let s := s.setSome q.tail fun block => { block with freeNext := some a }
    (s, ⟨if q.tail = none then some a else q.first, some a⟩)
  else (s, q)

/-- `emela_heap_enqueue` -/
def enqueue (sq : State × Pending) : Option Nat → Except Defect (State × Pending)
  | none => .ok sq
  | some value =>
    let a := b.header value
    let block := sq.1.headers a
    if block.isFree ∨ block.references = 0 then .error invalidReference
    else if b.cycles ∧ sq.1.traceMode = 1 then
      if block.gcReferences = 0 then .error invalidGraph
      else .ok (sq.1.set a fun block => { block with gcReferences := block.gcReferences - 1 }, sq.2)
    else if b.cycles ∧ sq.1.traceMode = 2 then
      .ok (if block.gcState = 0 then sq.1.set a fun block => { block with gcState := 1 } else sq.1, sq.2)
    else if b.cycles ∧ sq.1.traceMode = 3 ∧ block.gcState = 0 then .ok sq
    else .ok (sq.1.drop sq.2 a)

mutual

/-- `emela_heap_enqueue_value` -/
def enqueueValue (sq : State × Pending) : Shape → Content → Except Defect (State × Pending)
  | .reference, .reference value => enqueue b sq value
  | .tuple fields, .tuple contents => enqueueFields sq fields contents
  | .variants cases, .tagged tag content => enqueueCase (.ok sq) sq cases tag content
  | .anyBox cases, .tagged tag content => enqueueCase (.error invalidBox) sq cases tag content
  | _, _ => .ok sq

def enqueueFields (sq : State × Pending) : List Shape → List Content → Except Defect (State × Pending)
  | shape :: shapes, content :: contents => do
    let sq ← enqueueValue sq shape content
    enqueueFields sq shapes contents
  | _, _ => .ok sq

/-- The case of the tag, or the default one. -/
def enqueueCase (byDefault : Except Defect (State × Pending)) (sq : State × Pending) :
    List Shape → Nat → Content → Except Defect (State × Pending)
  | [], _, _ => byDefault
  | shape :: _, 0, content => enqueueValue sq shape content
  | _ :: shapes, tag + 1, content => enqueueCase byDefault sq shapes tag content

end

/-- `emela_heap_destroy` of the payload of the block `a`. -/
def destroy (sq : State × Pending) (a : Nat) : Except Defect (State × Pending) :=
  match b.shapes (sq.1.headers a).kind with
  | none => .error invalidKind
  | some shape => enqueueValue b sq shape (sq.1.contents (a + b.headerSize))

/-! ## Cycles -/

/-- `for (cursor = emela_heap_storage; cursor < end; cursor += block->size)`; `heap` is the heap among the variables
of the loop. -/
def walk {α : Type} (heap : α → State) (visit : α → Nat → Except Defect α) : Nat → Nat → α → Except Defect α
  | 0, cursor, x => if cursor < b.heapEnd then .error .unfinished else .ok x
  | n + 1, cursor, x =>
    if cursor < b.heapEnd then do
      let x ← visit x cursor
      walk heap visit n (cursor + ((heap x).headers cursor).size) x
    else .ok x

/-- The body of a loop over the used blocks that meet a condition. -/
def onUsed (p : Header → Bool) (act : State × Pending → Nat → Except Defect (State × Pending))
    (sq : State × Pending) (a : Nat) : Except Defect (State × Pending) :=
  if (sq.1.headers a).isFree = false ∧ p (sq.1.headers a) then act sq a else .ok sq

/-- Every reference counts as one from outside. -/
def traceBlock : State × Pending → Nat → Except Defect (State × Pending) :=
  onUsed (fun _ => true) fun sq a =>
    .ok (sq.1.set a fun block => { block with gcReferences := block.references, gcState := 0 }, sq.2)

/-- The references inside the heap are no longer counted. -/
def countBlock : State × Pending → Nat → Except Defect (State × Pending) := onUsed (fun _ => true) (destroy b)

/-- What is held from outside is to be visited. -/
def rootBlock : State × Pending → Nat → Except Defect (State × Pending) :=
  onUsed (fun block => block.gcReferences ≠ 0) fun sq a =>
    .ok (sq.1.set a fun block => { block with gcState := 1 }, sq.2)

/-- A block that is to be visited is visited; the flag is `changed`. -/
def markBlock (x : (State × Pending) × Bool) (a : Nat) : Except Defect ((State × Pending) × Bool) :=
  if (x.1.1.headers a).isFree = false ∧ (x.1.1.headers a).gcState = 1 then do
    let sq ← destroy b (x.1.1.set a fun block => { block with gcState := 2 }, x.1.2) a
    .ok (sq, true)
  else .ok x

/-- `do … while (changed)` -/
def markFrom : Nat → State × Pending → Except Defect (State × Pending)
  | 0, _ => .error .unfinished
  | n + 1, sq => do
    let x ← walk b (fun x => x.1.1) (markBlock b) b.heapEnd 0 (sq, false)
    if x.2 then markFrom n x.1 else .ok x.1

/-- The references of what was not visited are given up. -/
def deadBlock : State × Pending → Nat → Except Defect (State × Pending) :=
  onUsed (fun block => block.gcState = 0) (destroy b)

/-- The last loop: what was not visited is freed. -/
def sweepFrom : Nat → Nat → State → Except Defect State
  | 0, cursor, s => if cursor < b.heapEnd then .error .unfinished else .ok s
  | n + 1, cursor, s =>
    if cursor < b.heapEnd then
      if (s.headers cursor).isFree = false ∧ (s.headers cursor).gcState = 0 then
        let freed := s.freeBlock b cursor
        sweepFrom n (freed.2 + (freed.1.headers freed.2).size) freed.1
      else sweepFrom n (cursor + (s.headers cursor).size) s
    else .ok s

/-- `emela_heap_collect_cycles` -/
def collectCycles (s : State) : Except Defect State :=
  if s.initialized = false ∨ s.traceMode ≠ 0 then .ok s
  else do
    let sq ← walk b Prod.fst traceBlock b.heapEnd 0 (s, ⟨none, none⟩)
    let sq ← walk b Prod.fst (countBlock b) b.heapEnd 0 ({ sq.1 with traceMode := 1 }, sq.2)
    let sq ← walk b Prod.fst rootBlock b.heapEnd 0 sq
    let sq ← markFrom b (b.heapEnd + 1) ({ sq.1 with traceMode := 2 }, sq.2)
    let sq ← walk b Prod.fst (deadBlock b) b.heapEnd 0 ({ sq.1 with traceMode := 3 }, sq.2)
    let s ← sweepFrom b b.heapEnd 0 sq.1
    .ok { s with traceMode := 0 }

/-! ## Release -/

/-- The loop of `emela_heap_drain`. -/
def drainFrom : Nat → State × Pending → Except Defect State
  | 0, sq => if sq.2.first = none then .ok sq.1 else .error .unfinished
  | n + 1, sq =>
    match sq.2.first with
    | none => .ok sq.1
    | some a => do
      let next := (sq.1.headers a).freeNext
      let sq ← destroy b (sq.1, ⟨next, if next = none then none else sq.2.tail⟩) a
      drainFrom n ((sq.1.freeBlock b a).1, sq.2)

/-- `emela_heap_drain` -/
def drain (sq : State × Pending) : Except Defect State := do
  let s ← drainFrom b (b.heapEnd + 1) sq
  if b.cycles ∧ s.traceMode = 0 then s.collectCycles b else .ok s

/-- `emela_heap_release` of a value, and the release of an aggregate, which enqueues each value in it. -/
def release (s : State) (values : List (Option Nat)) : Except Defect State := do
  let sq ← values.foldlM (enqueue b) (s, ⟨none, none⟩)
  drain b sq

end State

/-! ## Programs -/

/-- A program is its heap and the references that it holds in its variables, one for each. -/
structure Program where
  heap : State
  roots : List Nat

/-- What generated code does with the heap. The bytes of a payload are what the storage looks like when headers
are read from it. -/
inductive Action where
  | allocate (payloadSize kind : Nat) (content : Content) (bytes : Nat → Header)
  | retain (value : Nat)
  | release (values : List (Option Nat))
  | store (value : Nat) (content : Content) (bytes : Nat → Header)

/-- A payload is written. -/
def State.write (b : Board) (s : State) (value : Nat) (content : Content) (bytes : Nat → Header) : State :=
  { s with
    headers := fun x => if value ≤ x ∧ x < b.header value + (s.headers (b.header value)).size then bytes x else s.headers x
    contents := Function.update s.contents value content }

/-- References go from variables into a new payload or one that is written, and from that into variables. -/
def Program.step (b : Board) (p : Program) : Action → Except Defect Program
  | .allocate payloadSize kind content bytes => do
    let (s, value) ← p.heap.allocate b payloadSize kind
    .ok ⟨s.write b value content bytes, value :: p.roots.diff content.references.reduceOption⟩
  | .retain value => do
    let s ← p.heap.retain b (some value)
    .ok ⟨s, value :: p.roots⟩
  | .release values => do
    let s ← p.heap.release b values
    .ok ⟨s, p.roots.diff values.reduceOption⟩
  | .store value content bytes =>
    .ok ⟨p.heap.write b value content bytes,
      (p.heap.fields value).reduceOption ++ p.roots.diff content.references.reduceOption⟩

/-- Static storage, before the program runs. -/
def Program.init : Program where
  heap :=
    { headers := fun _ => ⟨0, 0, none, none, 0, 0, false, 0, 0⟩, bins := fun _ => none, initialized := false,
      traceMode := 0, contents := fun _ => .plain }
  roots := []

end Emela.Heap
