import Emela.Lib.IndexedArray
import Emela.Lib.LinkedQueue
import Mathlib.Data.Int.Lemmas
import Mathlib.Data.Prod.Lex
import Mathlib.Tactic.Common

/-!
# The event loop of the C runtime

The data of `emela_runtime.c`: the tasks, which stand for calls of suspending external functions, the table
of their handles, the registrations with the loop, and the inbox that other threads put completions into.
What the host and the fibers do is not modelled: at each point they may call any function of the runtime.
The fields marked as history are not in the source; nothing reads them.
-/

namespace Emela.EventLoop

open IndexedArray

/-- An `em_htask *`; a number is not used again when the task is freed. -/
abbrev TaskId := Nat
/-- An `em_reg *`: its `seq`. -/
abbrev RegId := Nat
/-- An `em_wait *`. -/
abbrev WaitId := Nat
/-- An `em_task *`. -/
abbrev Handle := Nat
/-- A callback with its context. -/
abbrev Callback := Nat
/-- The bits of an `em_word`. -/
abbrev Word := Nat
/-- The bytes of a `char *` before its NUL, or of a String. -/
abbrev Bytes := List UInt8

/-- `EM_HOST_*`, without `EM_HOST_DEFECT`. -/
inductive HostKind where
  | unit
  | int
  | int64
  | float
  | bool
  | string
  | handle
deriving DecidableEq

/-- `em_complete_name` -/
def HostKind.completeName : HostKind → String
  | .int => "em_complete_int"
  | .int64 => "em_complete_int64"
  | .float => "em_complete_float"
  | .bool => "em_complete_bool"
  | .string => "em_complete_string"
  | .handle => "em_complete_handle"
  | .unit => "em_complete_unit"

/-- What a completion gives: the arguments of `em_complete`, with `none` for `EM_HOST_DEFECT`. -/
structure Completion where
  got : Option HostKind
  value : Word
  str : Option Bytes
deriving DecidableEq

/-- What the continuation is resumed with. -/
inductive Input where
  | value (w : Word)
  | text (s : Bytes)
  | handle (w : Word)
  | unit
  | throw (message : Bytes)
deriving DecidableEq

/-- What differs between targets: `EM_GEN_BITS` and the bits of a pointer. -/
structure Target where
  genBits : Nat
  pointerBits : Nat
  fits : genBits < pointerBits

/-- An `em_htask`. -/
structure Task where
  function : String
  handle : Handle
  slot : Nat
  kind : HostKind
  inPlace : Bool
  cancelled : Bool
  wait : Option WaitId
  onCancel : Option Callback
  /-- The registrations, linked through `task_next`. -/
  regs : List RegId
  completed : Bool
  queued : Bool
  twice : Bool
  completion : Completion
  inboxNext : Option TaskId

inductive RegKind where
  | timer
  | read
  | write
deriving DecidableEq

/-- An `em_reg`, without its place. -/
structure Reg where
  kind : RegKind
  time : Int
  fd : Int
  task : TaskId
  callback : Callback

/-- An `em_slot`; `none` is `EM_NO_SLOT`. -/
structure Slot where
  task : Option TaskId
  gen : Nat
  function : String
  nextFree : Option Nat

/-- What the runtime does to the world, in order. -/
inductive Event where
  /-- A task is completed for the first time: history. -/
  | completed (t : TaskId) (completion : Completion)
  /-- A task is completed again while its host function runs: history. -/
  | again (t : TaskId)
  /-- `em_suspend_on` with a wait made for the task. -/
  | suspended (t : TaskId) (w : WaitId)
  /-- `em_cont` with the wait of the task. -/
  | resumed (t : TaskId) (w : WaitId) (input : Input)
  /-- The value of a task whose fiber was interrupted is dropped. -/
  | discarded (t : TaskId)
  /-- `em_task_end` gives the value, or leaves the defect, of a task completed in place. -/
  | returned (t : TaskId) (input : Input)
  /-- `em_task_fail_run` -/
  | failedRun (message : Bytes)
  /-- The callback of a registration is called. -/
  | fired (g : RegId)
  /-- The fiber is interrupted, and does not wait for the task any more: history. -/
  | dropped (t : TaskId)
  /-- The callback of `em_on_cancel` is called. -/
  | cancelled (t : TaskId) (callback : Callback)
deriving DecidableEq

/-- Where the runtime's thread is in `em_loop_turn`; the locals of its loops. -/
inductive Phase where
  /-- Not in a turn. -/
  | idle
  /-- `em_loop_inbox`: the completions and the second completions still to be delivered, and the
  registrations whose file descriptor was ready. -/
  | inbox (head : Option TaskId) (twice : List (Option String)) (ready : List RegId)
  /-- The registrations whose file descriptor was ready, from here on. -/
  | files (ready : List RegId)
  /-- The timers: `limit` is the number of the next registration when the phase began. -/
  | timers (limit : Nat)
deriving DecidableEq

structure State where
  /-- `em_timers` and `em_fds`, with the `index` of each registration. -/
  timers : IndexedArray RegId
  fds : IndexedArray RegId
  regs : RegId → Reg
  /-- `em_reg_seq` -/
  regSeq : Nat
  /-- `em_loop_now` -/
  now : Int
  tasks : TaskId → Task
  /-- The tasks made so far: history, as the source gives each a new address. -/
  taskSeq : Nat
  /-- The tasks freed so far: history. -/
  freed : TaskId → Bool
  /-- `em_retired`, last first. -/
  retired : List TaskId
  inboxHead : Option TaskId
  inboxTail : Option TaskId
  /-- `em_inbox_twice`, last first: the function, if it is still known. -/
  inboxTwice : List (Option String)
  slots : Nat → Slot
  slotsLen : Nat
  freeHead : Option Nat
  freeTail : Option Nat
  /-- The task of a wait (`w->task`). -/
  waitTask : WaitId → Option TaskId
  phase : Phase
  /-- History. -/
  log : List Event

namespace State

def setTask (s : State) (t : TaskId) (f : Task → Task) : State :=
  { s with tasks := Function.update s.tasks t (f (s.tasks t)) }

def setSlot (s : State) (i : Nat) (f : Slot → Slot) : State :=
  { s with slots := Function.update s.slots i (f (s.slots i)) }

def emit (s : State) (e : Event) : State := { s with log := s.log ++ [e] }

end State

/-! ## Texts -/

/-- The bytes of a text of the runtime. -/
def utf8 (s : String) : Bytes := s.toUTF8.data.toList

/-- The loop of `em_utf8_valid`, from the byte with the number `k` on. -/
def utf8Rest (need k : Nat) (lo hi : UInt8) (s : Bytes) : Except Nat Nat :=
  match need, s with
  | 0, _ => .ok k
  | _ + 1, [] => .error k
  | need + 1, c :: s => if c < lo ∨ hi < c then .error k else utf8Rest need (k + 1) 0x80 0xBF s

/-- `em_utf8_valid`: the length of the sequence, or how many bytes are replaced. -/
def utf8Valid (b : UInt8) (s : Bytes) : Except Nat Nat :=
  if b < 0x80 then .ok 1
  else if 0xC2 ≤ b ∧ b ≤ 0xDF then utf8Rest 1 1 0x80 0xBF s
  else if 0xE0 ≤ b ∧ b ≤ 0xEF then
    utf8Rest 2 1 (if b = 0xE0 then 0xA0 else 0x80) (if b = 0xED then 0x9F else 0xBF) s
  else if 0xF0 ≤ b ∧ b ≤ 0xF4 then
    utf8Rest 3 1 (if b = 0xF0 then 0x90 else 0x80) (if b = 0xF4 then 0x8F else 0xBF) s
  else .error 1

/-- The loop of `em_from_host_string`; each turn takes a byte at least. -/
def wellFormedBytes : Nat → Bytes → Bytes
  | 0, _ => []
  | _ + 1, [] => []
  | n + 1, b :: s => match utf8Valid b s with
      | .ok len => (b :: s).take len ++ wellFormedBytes n ((b :: s).drop len)
      | .error bad => [0xEF, 0xBF, 0xBD] ++ wellFormedBytes n ((b :: s).drop bad)

/-- `em_from_host_string`; the array of the message has 256 bytes, one of them the NUL. -/
def fromHostString (s : Option Bytes) (function : String) : Input :=
  match s with
  | none => .throw ((utf8 ("external function `" ++ function ++ "` returned NULL")).take 255)
  | some s => .text (wellFormedBytes s.length s)

/-- `em_twice_message` -/
def twiceMessage : Option String → Bytes
  | none => utf8 "the task of an external function was completed twice"
  | some function => utf8 ("the task of external function `" ++ function ++ "` was completed twice")

/-- `em_task_input` -/
def Task.input (t : Task) : Input :=
  match t.completion.got with
  | none => .throw (t.completion.str.getD [])
  | some got =>
      if got ≠ t.kind then
        .throw (utf8 ("external function `" ++ t.function ++ "` was completed with `" ++ got.completeName ++
          "`, which does not match its return type"))
      else
        match t.kind with
        | .string => fromHostString t.completion.str t.function
        | .handle => .handle t.completion.value
        | .unit => .unit
        | _ => .value t.completion.value

/-! ## The functions of the event loop

The functions of `emela_runtime.c` on tasks, their handles, registrations and completions. `none` is an
abort: memory ran out, or the host passed something that was never a task. -/

/-! ## Handles -/

/-- `EM_GEN_MASK` -/
def Target.genMask (P : Target) : Nat := 2 ^ P.genBits - 1

/-- The slots there may be: an index and 1 fit above the generation, and in 32 bits. -/
def Target.slotLimit (P : Target) : Nat :=
  if 32 ≤ P.pointerBits - P.genBits then 2 ^ 32 - 1 else 2 ^ (P.pointerBits - P.genBits) - 1

def Target.handle (P : Target) (slot gen : Nat) : Handle := (slot + 1) <<< P.genBits ||| gen

namespace State

/-- The slot that `em_slot_take` takes, taken off the free list or added to the table. -/
def freeSlot (P : Target) (s : State) : Option (Nat × State) :=
  match s.freeHead with
  | some i =>
      let next := (s.slots i).nextFree
      some (i, { s with freeHead := next, freeTail := if next = none then none else s.freeTail })
  | none =>
      if P.slotLimit ≤ s.slotsLen + 1 then none
      else
        let s' := s.setSlot s.slotsLen fun slot => { slot with gen := 0 }
        some (s.slotsLen, { s' with slotsLen := s.slotsLen + 1 })

/-- `em_slot_take` -/
def slotTake (P : Target) (s : State) (t : TaskId) : Option State :=
  match s.freeSlot P with
  | none => none
  | some (i, s) =>
      let gen := ((s.slots i).gen + 1) &&& P.genMask
      let s := s.setSlot i fun _ =>
        { task := some t, gen := gen, function := (s.tasks t).function, nextFree := none }
      some (s.setTask t fun task => { task with slot := i, handle := P.handle i gen })

/-- `em_slot_find`: the task, or the function of a task that has been freed if it is known. -/
def slotFind (P : Target) (s : State) (h : Handle) : Option (Option TaskId × Option String) :=
  let index := h >>> P.genBits
  let gen := h &&& P.genMask
  if index = 0 ∨ s.slotsLen < index then none
  else
    let slot := s.slots (index - 1)
    if slot.gen = gen ∧ slot.task.isSome then some (slot.task, none)
    else some (none, if slot.gen = gen then some slot.function else none)

/-- `em_task_of` -/
def taskOf (P : Target) (s : State) (h : Handle) : Option (Option TaskId) := (s.slotFind P h).map Prod.fst

/-- A turn of the loop of `em_loop_collect`. -/
def collectTask (s : State) (t : TaskId) : State :=
  let i := (s.tasks t).slot
  let s := s.setSlot i fun slot => { slot with task := none }
  let s := match s.freeTail with
    | none => { s with freeHead := some i }
    | some j => s.setSlot j fun slot => { slot with nextFree := some i }
  { s with freeTail := some i, freed := Function.update s.freed t true }

/-- `em_loop_collect` -/
def collect (s : State) : State := { s.retired.foldl collectTask s with retired := [] }

end State

/-! ## Registrations -/

/-- `em_timer_before` -/
def timerBefore (regs : RegId → Reg) (a b : RegId) : Bool :=
  (regs a).time < (regs b).time ∨ ((regs a).time = (regs b).time ∧ a < b)

namespace State

/-- `em_reg_unlink` -/
def regUnlink (s : State) (g : RegId) : State :=
  s.setTask (s.regs g).task fun t => { t with regs := t.regs.erase g }

/-- `em_reg_remove` -/
def regRemove (s : State) (g : RegId) : State :=
  if (s.regs g).kind = .timer then { s with timers := s.timers.removeAt (timerBefore s.regs) (s.timers.index g) }
  else { s with fds := s.fds.dropAt (s.fds.index g) }

/-- `em_task_unregister` -/
def taskUnregister (s : State) (t : TaskId) : State :=
  ((s.tasks t).regs.foldl regRemove s).setTask t fun task => { task with regs := [] }

/-- `em_register` -/
def register (s : State) (kind : RegKind) (time fd : Int) (t : Option TaskId) (cb : Callback) : State :=
  match t with
  | none => s
  | some t =>
      if (s.tasks t).completed then s
      else
        let g := s.regSeq
        let s := { s with regs := Function.update s.regs g ⟨kind, time, fd, t, cb⟩, regSeq := g + 1 }
        let s := s.setTask t fun task => { task with regs := g :: task.regs }
        if kind = .timer then
          let timers := s.timers.push g
          { s with timers := timers.up (timerBefore s.regs) (timers.index g) }
        else { s with fds := s.fds.push g }

/-- The sum of two `int64_t`, which wraps around. -/
def addInt64 (a b : Int) : Int := (a + b).bmod (2 ^ 64)

/-- `em_after` -/
def after (P : Target) (s : State) (ms : Int) (h : Handle) (cb : Callback) : Option State :=
  (s.taskOf P h).map fun t => s.register .timer (addInt64 s.now (if ms < 0 then 0 else ms)) (-1) t cb

/-- `em_on_readable` -/
def onReadable (P : Target) (s : State) (fd : Int) (h : Handle) (cb : Callback) : Option State :=
  (s.taskOf P h).map fun t => s.register .read 0 fd t cb

/-- `em_on_writable` -/
def onWritable (P : Target) (s : State) (fd : Int) (h : Handle) (cb : Callback) : Option State :=
  (s.taskOf P h).map fun t => s.register .write 0 fd t cb

/-- `em_reg_fire` -/
def regFire (s : State) (g : RegId) : State := ((s.regUnlink g).regRemove g).emit (.fired g)

/-! ## Tasks -/

/-- `em_task_retire` -/
def retire (s : State) (t : TaskId) : State := { s with retired := t :: s.retired }

/-- The completion's string is freed. -/
def freeStr (s : State) (t : TaskId) : State :=
  s.setTask t fun task => { task with completion := { task.completion with str := none } }

/-- The end of `em_task_deliver`: the wait takes what the completion gave. -/
def wake (s : State) (t : TaskId) : State :=
  let w := (s.tasks t).wait
  let s := (s.setTask t fun task => { task with wait := none }).retire t
  match w with
  | none => (s.freeStr t).emit (.discarded t)
  | some w =>
      let input := (s.tasks t).input
      ({ s with waitTask := Function.update s.waitTask w none }.freeStr t).emit (.resumed t w input)

/-- `em_task_deliver` -/
def deliver (s : State) (t : TaskId) : State :=
  let s := s.taskUnregister t
  if (s.tasks t).inPlace then s else s.wake t

/-- A task completed by another thread goes into the inbox. -/
def pushInbox (s : State) (t : TaskId) : State :=
  let s := s.setTask t fun task => { task with queued := true, inboxNext := none }
  let s := match s.inboxTail with
    | none => { s with inboxHead := some t }
    | some u => s.setTask u fun task => { task with inboxNext := some t }
  { s with inboxTail := some t }

/-- A second completion, of a task completed before (`t`) or freed since. -/
def completeAgain (s : State) (here : Bool) (t : Option TaskId) (function : Option String) : State :=
  if here then
    match t with
    | some t =>
        if (s.tasks t).inPlace then (s.setTask t fun task => { task with twice := true }).emit (.again t)
        else s.emit (.failedRun (twiceMessage function))
    | none => s.emit (.failedRun (twiceMessage function))
  else { s with inboxTwice := function :: s.inboxTwice }

/-- `em_complete`, on the runtime's thread or from another one. -/
def complete (P : Target) (s : State) (here : Bool) (h : Handle) (c : Completion) : Option State :=
  match s.slotFind P h with
  | none => none
  | some (none, function) => some (s.completeAgain here none function)
  | some (some t, _) =>
      if (s.tasks t).completed then some (s.completeAgain here (some t) (some (s.tasks t).function))
      else
        let s := (s.setTask t fun task => { task with completed := true, completion := c }).emit (.completed t c)
        some (if here then s.deliver t else s.pushInbox t)

/-- `em_on_cancel`; `none` is `NULL`. -/
def onCancel (P : Target) (s : State) (h : Handle) (cb : Option Callback) : Option State :=
  match s.taskOf P h with
  | none => none
  | some none => some s
  | some (some t) =>
      if (s.tasks t).cancelled then
        match cb with
        | some cb => some (if (s.tasks t).completed then s else s.emit (.cancelled t cb))
        | none => some s
      else some (s.setTask t fun task => { task with onCancel := cb })

/-- The end of `em_task_cancel`: the host is told. -/
def tellHost (s : State) (t : TaskId) : State :=
  match (s.tasks t).onCancel with
  | none => s
  | some cb => (s.setTask t fun task => { task with onCancel := none }).emit (.cancelled t cb)

/-- `em_task_cancel` -/
def taskCancel (s : State) (t : TaskId) : State :=
  if (s.tasks t).cancelled then s
  else
    let w := (s.tasks t).wait
    let s := s.setTask t fun task => { task with cancelled := true, wait := none }
    let s := match w with
      | none => s
      | some w => { s with waitTask := Function.update s.waitTask w none }
    (s.emit (.dropped t)).tellHost t

/-- The record that `em_task_new` makes, before it has a slot. -/
def newTask (kind : HostKind) (function : String) : Task where
  function := function
  handle := 0
  slot := 0
  kind := kind
  inPlace := true
  cancelled := false
  wait := none
  onCancel := none
  regs := []
  completed := false
  queued := false
  twice := false
  completion := ⟨some .unit, 0, none⟩
  inboxNext := none

/-- `em_task_new` -/
def taskNew (P : Target) (s : State) (kind : HostKind) (function : String) : Option State :=
  let t := s.taskSeq
  let s := s.setTask t fun _ => newTask kind function
  slotTake P { s with taskSeq := t + 1 } t

/-- `em_task_end`; `dead` is whether the run is over, and `w` the wait that is made when it is not. -/
def taskEnd (P : Target) (s : State) (h : Handle) (dead : Bool) (w : WaitId) : Option State :=
  match s.taskOf P h with
  | none => none
  | some none => none
  | some (some t) =>
      let s := s.setTask t fun task => { task with inPlace := false }
      let task := s.tasks t
      if task.completed ∧ ¬ task.queued then
        let input := if task.twice then .throw (twiceMessage (some task.function)) else task.input
        some (((s.retire t).freeStr t).emit (.returned t input))
      else if dead then some (s.taskCancel t)
      else
        let s := s.setTask t fun task => { task with wait := some w }
        some ({ s with waitTask := Function.update s.waitTask w (some t) }.emit (.suspended t w))

end State

/-! ## Runs

`em_loop_turn` and `em_loop_reset` are taken in steps, between which fibers, callbacks and other threads call
the functions above in any order. -/

inductive Action where
  /-- The wrapper of an external function calls `em_task_new`, and later `em_task_end`. -/
  | taskNew (kind : HostKind) (function : String)
  | taskEnd (h : Handle) (dead : Bool) (w : WaitId)
  /-- A completion, on the runtime's thread or on another one. -/
  | complete (here : Bool) (h : Handle) (completion : Completion)
  | after (ms : Int) (h : Handle) (cb : Callback)
  | onReadable (fd : Int) (h : Handle) (cb : Callback)
  | onWritable (fd : Int) (h : Handle) (cb : Callback)
  | onCancel (h : Handle) (cb : Option Callback)
  /-- The scheduler drops a wait, and with it the task that it waits for. -/
  | cancel (w : WaitId)
  /-- A turn begins: the time is read and the inbox taken. -/
  | poll (now : Int) (ready : List RegId)
  /-- The thread goes on with the turn. -/
  | turn
  /-- The run ended. -/
  | reset

namespace State

/-- Whether a host function is being called: the loop does not run then. -/
def calling (s : State) : Bool := (List.range s.taskSeq).any fun t => (s.tasks t).inPlace

/-- The tasks that are linked in the inbox from `t` on are not queued any more. -/
def unqueue : Nat → Option TaskId → State → State
  | 0, _, s => s
  | _ + 1, none, s => s
  | n + 1, some t, s => unqueue n (s.tasks t).inboxNext (s.setTask t fun task => { task with queued := false })

/-- `em_loop_inbox`, under the lock. -/
def takeInbox (s : State) (ready : List RegId) : State :=
  let head := s.inboxHead
  let twice := s.inboxTwice
  let s := { s with inboxHead := none, inboxTail := none, inboxTwice := [] }
  { s.unqueue s.taskSeq head with phase := .inbox head twice ready }

/-- `em_loop_turn` up to where it leaves the lock of the inbox. -/
def poll (s : State) (now : Int) (ready : List RegId) : State := { s.collect with now }.takeInbox ready

/-- The array holds the registration. -/
def listed (v : IndexedArray RegId) (g : RegId) : Bool := (List.range v.len).any fun k => v.items k == g

/-- What the runtime's thread does next in a turn. -/
def turn (s : State) : Option State :=
  match s.phase with
  | .idle => none
  | .inbox head (function :: twice) ready =>
      some { s.emit (.failedRun (twiceMessage function)) with phase := .inbox head twice ready }
  | .inbox (some t) [] ready =>
      let next := (s.tasks t).inboxNext
      let s := s.setTask t fun task => { task with inboxNext := none }
      some { s.deliver t with phase := .inbox next [] ready }
  | .inbox none [] ready => some { s with phase := .files ready }
  | .files (g :: ready) =>
      -- an earlier callback may have completed its task
      let s := if listed s.fds g then s.regFire g else s
      some { s with phase := .files ready }
  | .files [] => some { s with phase := .timers s.regSeq }
  | .timers limit =>
      let g := s.timers.items 0
      if 0 < s.timers.len ∧ ¬ (s.now < (s.regs g).time ∨ limit ≤ g) then some (s.regFire g)
      else some { s with phase := .idle }

/-- Registrations are dropped from the end of an array. -/
def unlinkLast (items : Nat → RegId) : Nat → State → State
  | 0, s => s
  | n + 1, s => unlinkLast items n (s.regUnlink (items n))

def dropTimers (s : State) : State :=
  let s := unlinkLast s.timers.items s.timers.len s
  { s with timers := { s.timers with len := 0 } }

def dropFds (s : State) : State :=
  let s := unlinkLast s.fds.items s.fds.len s
  { s with fds := { s.fds with len := 0 } }

/-- `em_loop_reset` -/
def reset (s : State) : State := s.dropTimers.dropFds.collect

/-- One step; `none` is an abort, or a step that the program does not take in this state. -/
def step (P : Target) (s : State) : Action → Option State
  | .taskNew kind function => s.taskNew P kind function
  | .taskEnd h dead w =>
      -- the wrapper ends each task once, and a wait is new
      if (s.taskOf P h).any (fun t => t.any fun t => (s.tasks t).inPlace) ∧ s.waitTask w = none then
        s.taskEnd P h dead w
      else none
  | .complete here h c => s.complete P here h c
  | .after ms h cb => s.after P ms h cb
  | .onReadable fd h cb => s.onReadable P fd h cb
  | .onWritable fd h cb => s.onWritable P fd h cb
  | .onCancel h cb => s.onCancel P h cb
  | .cancel w => some (match s.waitTask w with
      | none => s
      | some t => s.taskCancel t)
  | .poll now ready =>
      if s.phase = .idle ∧ ¬ s.calling ∧ s.now ≤ now ∧ ready.all (listed s.fds) then some (s.poll now ready) else none
  | .turn => s.turn
  | .reset => if s.phase = .idle then some s.reset else none

/-- The state after `em_loop_init`. -/
def init (now : Int) : State where
  timers := ⟨0, fun _ => 0, fun _ => 0⟩
  fds := ⟨0, fun _ => 0, fun _ => 0⟩
  regs _ := ⟨.timer, 0, 0, 0, 0⟩
  regSeq := 0
  now := now
  tasks _ := ⟨"", 0, 0, .unit, false, false, none, none, [], false, false, false, ⟨some .unit, 0, none⟩, none⟩
  taskSeq := 0
  freed _ := false
  retired := []
  inboxHead := none
  inboxTail := none
  inboxTwice := []
  slots _ := ⟨none, 0, "", none⟩
  slotsLen := 0
  freeHead := none
  freeTail := none
  waitTask _ := none
  phase := .idle
  log := []

/-- The state after the steps. -/
def run (P : Target) (s : State) (actions : List Action) : Option State := actions.foldlM (step P) s

end State

end Emela.EventLoop
