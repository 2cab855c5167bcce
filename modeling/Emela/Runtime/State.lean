import Mathlib.Logic.Function.Basic
import Mathlib.Data.List.Nodup
import Mathlib.Tactic.Common

/-!
# The state of a run of the JS runtime

The objects of `runtime.mjs`: a `$Root`, its fibers, scopes and Deferreds, the waiting continuations and
the stack of calls of the host. What user code does is not modelled: at each point it may call any
function of the runtime (`Event`). Fields marked as history are not in the source; nothing reads them but
other such fields.
-/

namespace Emela.Runtime

abbrev FiberId := Nat
abbrev ScopeId := Nat
abbrev DeferredId := Nat
/-- A continuation: a generator. -/
abbrev GenId := Nat
/-- A request of a continuation, with the `wait` of `$advance` and the locals of `$performOp`. -/
abbrev WaitId := Nat

inductive Value where
  /-- A `$Fail`. -/
  | fail (error : Nat)
  | other (n : Nat)
deriving DecidableEq

inductive Exn where
  /-- `$Interrupted`, of the body of a scope or of the whole fiber. -/
  | interrupted (target : Option ScopeId)
  /-- A defect, or another exception. -/
  | defect (n : Nat)
deriving DecidableEq

/-- `{ ok, value }`. -/
abbrev Result := Except Exn Value

/-- What a generator is advanced with: `{ mode, value }`. -/
inductive Input where
  | next (value : Value)
  | throw (error : Exn)
deriving DecidableEq

def undef : Value := .other 0

inductive Cause where
  | fail (error : Nat)
  | die (error : Exn)
  | interrupt
deriving DecidableEq

/-- The cause of a result, or `none` for a value (`$Fiber.finish`). -/
def causeOf : Result → Option Cause
  | .ok (.fail e) => some (.fail e)
  | .ok (.other _) => none
  | .error (.interrupted _) => some .interrupt
  | .error (.defect n) => some (.die (.defect n))

/-- What a scope that failed with the cause ends with. -/
def Cause.result : Cause → Result
  | .fail e => .ok (.fail e)
  | .die e => .error e
  | .interrupt => .error (.interrupted none)

/-- `end` of `$advance`: the fiber's, `settled` of the operation called by the request, or that of
`$Root.interrupt`. -/
inductive End where
  | main
  | settled (w : WaitId)
  | orphan
deriving DecidableEq

/-- What runs in a generator, from the inside: the body of a `$scope` or its wait for the children, and
releases between `$hold` and `$unhold`. User code is around and between them. -/
inductive Frame where
  | body (s : ScopeId)
  | closing (s : ScopeId) (body : Result)
  | hold

def Frame.body? : Frame → Option ScopeId
  | .body i => some i
  | .closing _ _ | .hold => none

/-- Which fiber operation waits for the end of a fiber. -/
inductive Verb where
  | join | await | interrupt
deriving DecidableEq

structure Watcher where
  wait : WaitId
  verb : Verb

structure Fiber where
  scope : Option ScopeId := none
  wait : Option WaitId := none
  /-- Interruptions not yet delivered: `none` for the whole fiber. -/
  pending : List (Option ScopeId) := []
  unwinding : Bool := false
  unwinds : List ScopeId := []
  /-- The continuations that hold interruptions off (the source keeps their number). -/
  holds : List GenId := []
  scopes : Nat := 0
  result : Option Result := none
  watchers : List Watcher := []
  /-- Its main continuation: the one whose `end` is `fiber.end`. -/
  main : Option GenId := none
  /-- History: an interruption of the whole fiber was asked for. -/
  asked : Bool := false

structure Scope where
  fiber : FiberId := 0
  depth : Nat := 0
  children : List FiberId := []
  closed : Bool := false
  bodyDone : Bool := false
  ended : Bool := false
  first : Option Cause := none
  /-- The notes added to `first`. -/
  notes : List Cause := []
  closer : Option WaitId := none
  /-- The continuation that runs it. -/
  gen : GenId := 0
  /-- History: how its body ended, the failures of its members in the order of time, and how `$scope`
  returned. -/
  body : Option Result := none
  failures : List Cause := []
  exit : Option Result := none

structure Deferred where
  scope : ScopeId := 0
  full : Bool := false
  value : Value := undef
  waiters : List WaitId := []

/-- The fields of the `wait` of a request that do not change. -/
structure Wait where
  gen : GenId := 0
  ends : End := .main
  fiber : FiberId := 0
  closing : Bool := false
  /-- It is answered by `$performOp`. -/
  performs : Bool := false

/-- The locals of `$performOp`. -/
structure Op where
  sync : Bool := false
  now : Option Input := none
  used : Bool := false
  waiting : Option WaitId := none
  /-- The implementation is a generator, so `onDrop` is set. -/
  onDrop : Bool := false

/-- A task of the queue. -/
inductive Task where
  | begin (f : FiberId)
  /-- `go` of a yield for fairness. -/
  | go (w : WaitId)
  /-- `fiber.resume` of a continuation taken back. -/
  | resume (w : WaitId) (input : Input)
  /-- The throw queued by `$Fiber.interrupt`. -/
  | interrupted (w : WaitId)
  /-- The throw queued by `onDrop`. -/
  | drop (w : WaitId)
  /-- The throw queued by `$Root.interrupt`. -/
  | unwind (w : WaitId)

/-- The request that the task continues. -/
def Task.wait : Task → Option WaitId
  | .resume w _ | .interrupted w | .drop w | .unwind w => some w
  | .begin _ | .go _ => none

/-- A call that has not returned. -/
inductive Act where
  /-- `drain`. -/
  | drain
  /-- A generator advanced by `$advance`. -/
  | gen (g : GenId) (ends : End)
  /-- A forked function called by `begin`. -/
  | begin (f : FiberId)
  /-- The implementation of an operation called by `$performOp`, before it returns. -/
  | op (w : WaitId)
  /-- `$performOp` once it returned. -/
  | opEnd (w : WaitId)
  /-- A loop over continuations to wake, with `$current`. -/
  | wakes (current : Option FiberId) (waits : List (WaitId × Input))

/-- An interruption of a continuation: the scopes whose bodies it ran, its target, and whether one of the
whole fiber had been asked for. -/
structure Unwound where
  bodies : List ScopeId
  target : Option ScopeId
  asked : Bool

structure State where
  isOver : Bool
  running : Bool
  queue : List Task
  waits : List WaitId
  orphan : Option Exn
  sync : Bool
  pauses : Nat
  /-- What `done` was called with. -/
  outcome : Option Result
  nextFiber : Nat
  nextScope : Nat
  nextDeferred : Nat
  nextGen : Nat
  nextWait : Nat
  fiber : FiberId → Fiber
  scope : ScopeId → Scope
  deferred : DeferredId → Deferred
  /-- The fiber of a generator, and what runs in it. -/
  fiberOf : GenId → FiberId
  frames : GenId → List Frame
  wait : WaitId → Wait
  live : WaitId → Bool
  op : WaitId → Op
  stack : List Act
  /-- Requests with a promise, or with a timer for a yield for fairness, that is not settled. -/
  awaits : List WaitId
  laters : List WaitId
  /-- History: the request a generator is suspended at, whether `suspend` was called for a request, whether
  `resume` was, what was passed first, whether the continuation was taken back to be interrupted, whether that
  was before something was passed, whether an interruption was delivered in place of what the continuation was
  taken back for, and what it was continued with. -/
  paused : GenId → Option WaitId
  suspended : WaitId → Bool
  resumed : WaitId → Bool
  passed : WaitId → Option Input
  dropped : WaitId → Bool
  tooLate : WaitId → Bool
  overtaken : WaitId → Bool
  received : WaitId → List Input
  /-- History: how often a generator was advanced, the interruptions thrown by `deliver`, whether the wait
  for the children of a scope was cut short, and whether the body of a scope was interrupted that does not
  run on the fiber's main continuation. -/
  advances : Nat
  unwound : List Unwound
  cut : Bool
  astray : Bool

/-- The run at its start: the main fiber makes its first step (`$start`). -/
def State.init (sync : Bool) : State where
  isOver := false
  running := true
  queue := []
  waits := []
  orphan := none
  sync := sync
  pauses := 0
  outcome := none
  nextFiber := 1
  nextScope := 0
  nextDeferred := 0
  nextGen := 1
  nextWait := 0
  fiber := Function.update (fun _ => {}) 0 { main := some 0 }
  scope := fun _ => {}
  deferred := fun _ => {}
  fiberOf := fun _ => 0
  frames := fun _ => []
  wait := fun _ => {}
  live := fun _ => false
  op := fun _ => {}
  stack := [.gen 0 .main, .drain]
  awaits := []
  laters := []
  paused := fun _ => none
  suspended := fun _ => false
  resumed := fun _ => false
  passed := fun _ => none
  dropped := fun _ => false
  tooLate := fun _ => false
  overtaken := fun _ => false
  received := fun _ => []
  advances := 1
  unwound := []
  cut := false
  astray := false

section
variable (s : State)

def State.setFiber (f : FiberId) (g : Fiber → Fiber) : State :=
  { s with fiber := Function.update s.fiber f (g (s.fiber f)) }

def State.setScope (i : ScopeId) (g : Scope → Scope) : State :=
  { s with scope := Function.update s.scope i (g (s.scope i)) }

def State.setDeferred (d : DeferredId) (g : Deferred → Deferred) : State :=
  { s with deferred := Function.update s.deferred d (g (s.deferred d)) }

def State.setFrames (g : GenId) (frames : List Frame) : State :=
  { s with frames := Function.update s.frames g frames }

def State.setOp (w : WaitId) (g : Op → Op) : State := { s with op := Function.update s.op w (g (s.op w)) }

def State.pushAct (a : Act) : State := { s with stack := a :: s.stack }

def State.popAct : State := { s with stack := s.stack.tail }

end

/-- `$current`: the fiber of the innermost generator or forked function. -/
def currentOf : List Act → (GenId → FiberId) → Option FiberId
  | [], _ => none
  | .gen g _ :: _, fiberOf => some (fiberOf g)
  | .begin f :: _, _ => some f
  | _ :: stack, fiberOf => currentOf stack fiberOf

def State.current (s : State) : Option FiberId := currentOf s.stack s.fiberOf

end Emela.Runtime
