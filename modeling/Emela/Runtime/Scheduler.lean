import Emela.Runtime.State

/-!
# The scheduler

The functions of `runtime.mjs` on the state of a run. A call that user code is behind (a generator to
advance, an implementation of an operation) is put on the stack, and what follows it in the source is done
when it comes off. Timers and abort signals only reach the model as host events.
-/

namespace Emela.Runtime

/-! ## `$Root` -/

/-- `schedule`: the queue is drained if it is not already. -/
def State.schedule (s : State) (t : Task) : State :=
  { s with
    queue := s.queue ++ [t]
    running := true
    stack := if s.running then s.stack else .drain :: s.stack }

/-- `queue.push`. -/
def State.enqueue (s : State) (t : Task) : State := { s with queue := s.queue ++ [t] }

/-- `$Root.finish`. -/
def State.rootFinish (s : State) (r : Result) : State :=
  if s.isOver then s else { s with isOver := true, queue := [], waits := [], outcome := some r }

/-- `rootEnded`. -/
def State.rootEnded (s : State) (r : Result) : State :=
  match r, s.orphan with
  | .error (.interrupted _), some e => s.rootFinish (.error e)
  | _, _ => s.rootFinish r

/-! ## Waiting continuations -/

/-- What `take` and `$drop` do to a wait: it is not live, nor waiting. -/
def State.unwait (s : State) (w : WaitId) : State :=
  let f := (s.wait w).fiber
  { s with
    live := Function.update s.live w false
    waits := s.waits.filter (· != w)
    fiber := Function.update s.fiber f
      { s.fiber f with wait := if (s.fiber f).wait = some w then none else (s.fiber f).wait } }

/-- `$drop`, with what `onDrop` drops: the implementation that was not resumed. `fuel` bounds the depth of
implementations that wait for implementations. -/
def State.dropFuel : Nat → State → WaitId → State
  | 0, s, _ => s
  | fuel + 1, s, w =>
      let s := { s.unwait w with dropped := Function.update s.dropped w true }
      let x := s.op w
      if x.onDrop && !x.used then
        match x.waiting with
        | some v =>
            if s.live v then
              let s := { s with cut := s.cut || (s.wait v).closing }
              (State.dropFuel fuel s v).enqueue (.drop v)
            else s
        | none => s
      else s

def State.drop (s : State) (w : WaitId) : State := State.dropFuel s.nextWait s w

/-! ## `$Fiber` -/

/-- `interrupting`. -/
def Fiber.interrupting (f : Fiber) : Bool :=
  f.holds.isEmpty && (!f.pending.isEmpty || f.unwinding || !f.unwinds.isEmpty)

/-- The scopes among the interruptions. -/
def Fiber.targets (f : Fiber) : List ScopeId := f.pending.filterMap id ++ f.unwinds

/-- The outermost of the scopes: the first with the least depth. -/
def outermost (depth : ScopeId → Nat) : List ScopeId → Option ScopeId
  | [] => none
  | s :: ss => some (ss.foldl (fun t u => if depth u < depth t then u else t) s)

/-- The target of `deliver`. -/
def State.target (s : State) (f : FiberId) : Option ScopeId :=
  let x := s.fiber f
  if x.unwinding || x.pending.contains none then none else outermost (fun i => (s.scope i).depth) x.targets

/-- The interruption is delivered. -/
def Fiber.unwind (x : Fiber) : Option ScopeId → Fiber
  | none => { x with unwinding := true, pending := [], unwinds := [] }
  | some i =>
      { x with
        pending := x.pending.filter (· != some i)
        unwinds := if x.unwinds.contains i then x.unwinds else x.unwinds ++ [i] }

/-- `deliver`: the exception for continuation `g`, and the state once it is unwinding. -/
def State.deliver (s : State) (f : FiberId) (g : GenId) : Exn × State :=
  let target := s.target f
  let here : Unwound := ⟨(s.frames g).filterMap Frame.body?, target, (s.fiber f).asked⟩
  (.interrupted target, { s with unwound := s.unwound ++ [here] }.setFiber f (·.unwind target))

/-- The fiber ended, or the interruption was asked for before. -/
def Fiber.ignores (x : Fiber) (target : Option ScopeId) : Bool :=
  x.result.isSome || x.unwinding || x.pending.contains target || target.any (x.unwinds.contains ·)

def Fiber.ask (x : Fiber) (target : Option ScopeId) : Fiber :=
  { x with
    asked := x.asked || target.isNone
    pending := if x.ignores target then x.pending else x.pending ++ [target] }

/-- `$Fiber.interrupt`. -/
def State.fiberInterrupt (s : State) (f : FiberId) (target : Option ScopeId) : State :=
  let x := s.fiber f
  let s := s.setFiber f (·.ask target)
  if x.ignores target || !x.holds.isEmpty then s
  else
    match x.wait with
    | some w => if s.live w then (s.drop w).schedule (.interrupted w) else s
    | none => s

/-- What `settled` of a watcher gives for the result of the fiber. -/
def Verb.input (verb : Verb) (r : Result) : Input :=
  match verb with
  | .join =>
      match r, causeOf r with
      | .ok v, none => .next v
      | _, some .interrupt => .throw (.defect 0)
      | _, _ => .throw (.interrupted none)
  | .await | .interrupt => .next undef

/-! ## `$advance` -/

/-- How `$scope` returns or throws when its body ended with `r`. -/
def Scope.outcome (x : Scope) (r : Result) : Result := (x.first.map Cause.result).getD r

/-- `gen[mode](input)`: a `$scope` that waits for its children goes on; then user code does. -/
def State.input (s : State) (g : GenId) (inp : Input) : State :=
  let s := { s with advances := s.advances + 1 }
  let f := s.fiberOf g
  match s.frames g with
  | .closing i r :: rest =>
      let s := s.setFiber f fun x => { x with holds := x.holds.erase g }
      let s := s.setFrames g rest
      match inp with
      | .next _ => s.setScope i fun x => { x with ended := true, exit := some (x.outcome r) }
      | .throw e => s.setScope i fun x => { x with exit := some (.error e) }
  | _ => s

/-- `$step` of a generator that is not on the stack. -/
def State.enter (s : State) (g : GenId) (ends : End) (inp : Input) : State :=
  if s.isOver then s else (s.pushAct (.gen g ends)).input g inp

/-- The loop of `$advance` goes on with the generator on top of the stack. -/
def State.loop (s : State) (g : GenId) (inp : Input) : State :=
  if s.isOver then s.popAct else s.input g inp

/-- The continuation of the request runs again. -/
def State.unpark (s : State) (w : WaitId) (ends : End) (inp : Input) : State :=
  let g := (s.wait w).gen
  { s with
    received := Function.update s.received w (s.received w ++ [inp])
    paused := Function.update s.paused g none
    stack := .gen g ends :: s.stack }

/-- `$step` of a continuation that was taken back. -/
def State.continue (s : State) (w : WaitId) (ends : End) (inp : Input) : State :=
  if s.isOver then s else (s.unpark w ends inp).input (s.wait w).gen inp

/-- `$Fiber.resume`. -/
def State.fiberResume (s : State) (w : WaitId) (inp : Input) : State :=
  let x := s.wait w
  match x.ends, inp with
  | .main, .next _ =>
      if (s.fiber x.fiber).interrupting then
        let s := { s with overtaken := Function.update s.overtaken w true }
        let (e, s) := s.deliver x.fiber x.gen
        s.continue w x.ends (.throw e)
      else s.continue w x.ends inp
  | _, _ => s.continue w x.ends inp

/-- `cont`: within the same fiber on the spot, otherwise queued. -/
def State.cont (s : State) (current : Option FiberId) (w : WaitId) (inp : Input) : State :=
  let x := s.wait w
  if s.live w then
    let s := s.unwait w
    if current = some x.fiber then s.continue w x.ends inp else s.schedule (.resume w inp)
  else s

/-- The wait of a new request. -/
def State.newWait (s : State) (g : GenId) (ends : End) (closing performs : Bool) : State :=
  { s with
    nextWait := s.nextWait + 1
    wait := Function.update s.wait s.nextWait
      { gen := g, ends := ends, fiber := s.fiberOf g, closing := closing, performs := performs }
    live := Function.update s.live s.nextWait true
    op := Function.update s.op s.nextWait { sync := performs } }

/-- The generator on top of the stack waits for an answer to the request. -/
def State.park (s : State) (w : WaitId) : State :=
  let g := (s.wait w).gen
  { s with
    suspended := Function.update s.suspended w true
    paused := Function.update s.paused g (some w)
    waits := s.waits ++ [w]
    stack := s.stack.tail }

/-- `suspend`, which ends the `$advance` on top of the stack. -/
def State.suspend (s : State) (w : WaitId) : State :=
  let x := s.wait w
  let s := s.park w
  match x.ends with
  | .main => s.setFiber x.fiber fun x => { x with wait := some w }
  | .settled v => s.setOp v fun x => { x with waiting := some w }
  | .orphan => s

/-- A request that is answered right away. -/
def State.reply (s : State) (w : WaitId) (inp : Input) : State :=
  let g := (s.wait w).gen
  if s.isOver then s.loop g inp
  else { s with received := Function.update s.received w (s.received w ++ [inp]) }.loop g inp

/-! ## `$performOp` -/

/-- What is passed first: it is kept for `$performOp` until that returns. -/
def State.setPassed (s : State) (w : WaitId) (inp : Input) : State :=
  { s.setOp w fun x => { x with used := true, now := if x.sync then some inp else x.now } with
    passed := Function.update s.passed w (some inp)
    tooLate := Function.update s.tooLate w (s.dropped w) }

/-- `pass`. -/
def State.pass (s : State) (current : Option FiberId) (w : WaitId) (inp : Input) : State :=
  let s := s.setPassed w inp
  if (s.op w).sync then s else s.cont current w inp

/-- `resume`: raises (`none`) when it was used. -/
def State.resume (s : State) (current : Option FiberId) (w : WaitId) (v : Value) : Option State :=
  if s.isOver then some s
  else if (s.op w).used then none
  else some ({ s with resumed := Function.update s.resumed w true }.pass current w (.next v))

/-- The defect of an implementation that failed after resume. -/
def failedAfterResume : Exn := .defect 1

/-- `settled`. -/
def State.settled (s : State) (current : Option FiberId) (w : WaitId) (r : Result) : State :=
  match r with
  | .error e => if (s.op w).used then s.rootFinish (.error e) else s.pass current w (.throw e)
  | .ok (.fail e) =>
      if (s.op w).used then s.rootFinish (.error failedAfterResume) else s.pass current w (.next (.fail e))
  | .ok (.other _) => s

/-- `$performOp` returns what to pass to the caller, which is the next generator of the stack, or it
suspends. -/
def State.performed (s : State) (w : WaitId) : State :=
  let s := s.popAct.setOp w fun x => { x with sync := false }
  match (s.op w).now with
  | some inp => s.reply w inp
  | none => s.suspend w

/-! ## `$Scope` -/

/-- `child.interrupt(null)` for each child. -/
def State.interruptAll (s : State) (children : List FiberId) : State :=
  children.foldl (fun s f => s.fiberInterrupt f none) s

/-- Whether the body of the scope runs on the main continuation of its fiber. -/
def State.onMain (s : State) (i : ScopeId) : Bool := (s.fiber (s.scope i).fiber).main = some (s.scope i).gen

/-- The first failure is the result of the scope, later ones are its notes. -/
def Scope.failed (x : Scope) (cause : Cause) : Scope :=
  match x.first with
  | some _ => { x with notes := x.notes ++ [cause], failures := x.failures ++ [cause] }
  | none => { x with first := some cause, closed := true, failures := x.failures ++ [cause] }

/-- The other members are interrupted. -/
def State.interruptMembers (s : State) (i : ScopeId) : State :=
  let s := s.interruptAll (s.scope i).children
  if (s.scope i).bodyDone then s
  else { s with astray := s.astray || !s.onMain i }.fiberInterrupt (s.scope i).fiber (some i)

/-- `failed`. -/
def State.scopeFailed (s : State) (i : ScopeId) (cause : Cause) : State :=
  let failed := s.setScope i (·.failed cause)
  if (s.scope i).first.isSome then failed else failed.interruptMembers i

/-- The cause of a result that fails a scope. -/
def failureOf (r : Result) : Option Cause := (causeOf r).filter (· != .interrupt)

/-- The body or a child of the scope ended with `r`. -/
def State.memberEnded (s : State) (i : ScopeId) (r : Result) : State :=
  match failureOf r with
  | some cause => s.scopeFailed i cause
  | none => s

/-- A scope without children wakes what waits for them. -/
def State.wakeCloser (s : State) (current : Option FiberId) (i : ScopeId) : State :=
  match (s.scope i).children, (s.scope i).closer with
  | [], some w => (s.setScope i fun x => { x with closer := none }).cont current w (.next undef)
  | _, _ => s

/-- `childEnded`. -/
def State.childEnded (s : State) (current : Option FiberId) (i : ScopeId) (f : FiberId) (r : Result) : State :=
  let s := s.setScope i fun x => { x with children := x.children.erase f }
  (s.memberEnded i r).wakeCloser current i

/-- `$Fiber.finish`. The watchers are called when the closer of the scope is done. -/
def State.fiberFinish (s : State) (current : Option FiberId) (f : FiberId) (r : Result) : State :=
  let x := s.fiber f
  if x.result.isSome then s
  else
    let s := s.setFiber f fun x => { x with result := some r, wait := none, watchers := [] }
    match x.scope with
    | none => s.rootEnded r
    | some i =>
        (s.pushAct (.wakes current (x.watchers.map fun u => (u.wait, u.verb.input r)))).childEnded current i f r

/-- `end(ok, value)` of a generator that is off the stack. -/
def State.ended (s : State) (f : FiberId) (ends : End) (r : Result) : State :=
  match ends with
  | .main => s.fiberFinish (some f) f r
  | .settled w => s.settled (some f) w r
  | .orphan =>
      match r with
      | .error (.defect n) => { s with orphan := some (s.orphan.getD (.defect n)) }
      | _ => s

/-! ## Requests -/

inductive Request where
  | pause
  | await
  | deferredAwait (d : DeferredId)
  /-- `$join`, `$fiberAwait` and `$interrupt`. -/
  | watch (verb : Verb) (f : FiberId)
  | perform
  /-- A scope waiting for its children. -/
  | close (i : ScopeId)

def Request.closing : Request → Bool
  | .close _ => true
  | _ => false

def Request.performs : Request → Bool
  | .perform => true
  | _ => false

/-- The program has the handle or the Deferred of the request. -/
def Request.valid (s : State) : Request → Bool
  | .deferredAwait d => d < s.nextDeferred
  | .watch _ f => f < s.nextFiber && (s.fiber f).scope.isSome
  | .pause | .await | .perform => true
  | .close _ => false

/-- How often a yield for fairness goes through the host. -/
def hostEvery : Nat := 16

/-- A fiber operation used after the scope of its fiber ended. -/
def State.scopeEnded (s : State) (f : FiberId) : Bool := (s.fiber f).scope.any fun i => (s.scope i).ended

/-- What `$advance` does with a request that does not interrupt the fiber. -/
def State.request (s : State) (w : WaitId) (req : Request) : State :=
  let g := (s.wait w).gen
  let f := s.fiberOf g
  match req with
  | .pause =>
      if s.sync then s.reply w (.next undef)
      else
        let s := s.suspend w
        let s := { s with pauses := s.pauses + 1 }
        if s.pauses % hostEvery = 0 then { s with laters := w :: s.laters }
        else s.enqueue (.go w)
  | .await => { s.suspend w with awaits := w :: s.awaits }
  | .deferredAwait d =>
      if (s.scope (s.deferred d).scope).ended then s.reply w (.throw (.defect 2))
      else if (s.deferred d).full then s.reply w (.next (s.deferred d).value)
      else (s.suspend w).setDeferred d fun x => { x with waiters := x.waiters ++ [w] }
  | .watch verb h =>
      if s.scopeEnded h then s.reply w (.throw (.defect 3))
      else
        let s := if verb = .interrupt then s.fiberInterrupt h none else s
        if verb = .interrupt ∧ h = f then
          if (s.fiber f).holds.isEmpty then
            let (e, s) := s.deliver f g
            s.reply w (.throw e)
          else s.reply w (.next undef)
        else
          match (s.fiber h).result with
          | some r => s.reply w (verb.input r)
          | none => (s.suspend w).setFiber h fun x => { x with watchers := x.watchers ++ [⟨w, verb⟩] }
  | .perform => s.pushAct (.op w)
  | .close i =>
      if (s.scope i).children.isEmpty then s.reply w (.next undef)
      else (s.suspend w).setScope i fun x => { x with closer := some w }

/-- The generator on top of the stack yields a request: an interruption takes effect here. -/
def State.yield (s : State) (g : GenId) (ends : End) (req : Request) : State :=
  let f := s.fiberOf g
  if ends = .main ∧ (s.fiber f).interrupting = true then
    let (e, s) := s.deliver f g
    s.loop g (.throw e)
  else
    let w := s.nextWait
    (s.newWait g ends req.closing req.performs).request w req

/-! ## `$scope` -/

/-- `$scope` is called by the generator on top of the stack. -/
def State.scopeBegin (s : State) (g : GenId) : State :=
  let f := s.fiberOf g
  let i := s.nextScope
  let s := { s with
    nextScope := i + 1
    scope := Function.update s.scope i { fiber := f, depth := (s.fiber f).scopes, gen := g } }
  let s := s.setFiber f fun x => { x with scopes := x.scopes + 1 }
  s.setFrames g (.body i :: s.frames g)

/-- The body of the scope is left: interruptions of it are over. -/
def Fiber.leaveScope (x : Fiber) (i : ScopeId) : Fiber :=
  { x with
    scopes := x.scopes - 1
    pending := x.pending.filter (· != some i)
    unwinds := x.unwinds.filter (· != i) }

/-- The body of the scope ended with `r`; `rest` is what runs around it. -/
def State.scopeEnd (s : State) (g : GenId) (ends : End) (i : ScopeId) (r : Result) (rest : List Frame) : State :=
  let f := s.fiberOf g
  let s := s.setFiber f (·.leaveScope i)
  let s := s.setFrames g rest
  let s := s.setScope i fun x => { x with bodyDone := true, closed := true, body := some r }
  let s := s.memberEnded i r
  let s := s.interruptAll (s.scope i).children
  if (s.scope i).children.isEmpty then
    s.setScope i fun x => { x with ended := true, exit := some (x.outcome r) }
  else
    let s := s.setFiber f fun x => { x with holds := g :: x.holds }
    let s := s.setFrames g (.closing i r :: rest)
    s.yield g ends (.close i)

/-- `$fork`: the child and the state, or `none` when it raises. -/
def State.fork (s : State) (i : ScopeId) : Option (FiberId × State) :=
  if (s.scope i).closed then none
  else
    let f := s.nextFiber
    let s := { s with nextFiber := f + 1, fiber := Function.update s.fiber f { scope := some i } }
    let s := s.setScope i fun x => { x with children := x.children ++ [f] }
    some (f, s.schedule (.begin f))

/-- `$deferred`. -/
def State.newDeferred (s : State) (i : ScopeId) : Option State :=
  if (s.scope i).closed then none
  else some { s with
    nextDeferred := s.nextDeferred + 1
    deferred := Function.update s.deferred s.nextDeferred { scope := i } }

/-- `$complete`. -/
def State.complete (s : State) (current : Option FiberId) (d : DeferredId) (v : Value) : State :=
  if (s.scope (s.deferred d).scope).ended || (s.deferred d).full then s
  else
    let waiters := (s.deferred d).waiters
    let s := s.setDeferred d fun x => { x with full := true, value := v, waiters := [] }
    s.pushAct (.wakes current (waiters.map fun w => (w, .next v)))

/-! ## `$Root.interrupt` -/

/-- An interruption of the whole fiber, not yet delivered. -/
def State.pend (s : State) (f : FiberId) : State :=
  s.setFiber f fun x => if x.result.isSome then x else x.ask none

/-- One of the waits is unwound. -/
def State.unwindWait (s : State) (w : WaitId) : State :=
  if s.live w then (s.drop w).enqueue (.unwind w) else s

/-- `$Root.interrupt`. -/
def State.rootInterrupt (s : State) : State :=
  if s.isOver then s
  else
    let s := (List.range s.nextFiber).foldl State.pend s
    let waits := s.waits.reverse.filter fun w => !(s.wait w).closing
    let s := waits.foldl State.unwindWait s
    if s.running then s else { s with running := true, stack := .drain :: s.stack }

/-! ## Steps -/

/-- A task runs. -/
def State.runTask (s : State) : Task → State
  | .begin f =>
      if !(s.fiber f).pending.isEmpty then s.fiberFinish s.current f (.error (.interrupted none))
      else s.pushAct (.begin f)
  | .go w => if s.live w then (s.unwait w).fiberResume w (.next undef) else s
  | .resume w inp => s.fiberResume w inp
  | .interrupted w =>
      let x := s.wait w
      let (e, s) := s.deliver x.fiber x.gen
      s.continue w x.ends (.throw e)
  | .drop w => s.continue w (s.wait w).ends (.throw (.interrupted none))
  | .unwind w =>
      let x := s.wait w
      if x.ends = .main then
        let (e, s) := s.deliver x.fiber x.gen
        s.continue w .main (.throw e)
      else s.continue w .orphan (.throw (.interrupted none))

/-- What the program, the scheduler or the host does next. `foreign` is for code that does not run on a fiber
of this run (a callback of the host, or a run inside this one). -/
inductive Event where
  /-- The runtime goes on by itself. -/
  | tick
  /-- A promise settles, a timer of a yield for fairness fires, the event loop is empty, `$sync` gives up. -/
  | settle (w : WaitId) (inp : Input)
  | later (w : WaitId)
  | stall
  | abandon
  /-- User code calls a function of the runtime. -/
  | resume (foreign : Bool) (w : WaitId) (v : Value)
  | fork (i : ScopeId)
  | deferred (i : ScopeId)
  | complete (foreign : Bool) (d : DeferredId) (v : Value)
  | hold
  | unhold
  | scope
  | yield (req : Request)
  /-- The body of a scope, a generator, a forked function or an implementation ends. -/
  | leave (r : Result)
  /-- A forked function or an implementation returns a generator. -/
  | leaveGen

/-- A generator for what a function returned. -/
def State.newGen (s : State) (f : FiberId) : GenId × State :=
  (s.nextGen, { s with nextGen := s.nextGen + 1, fiberOf := Function.update s.fiberOf s.nextGen f })

/-- Whether code outside the runtime runs. -/
def State.userTurn (s : State) : Bool :=
  match s.stack with
  | [] | .gen _ _ :: _ | .begin _ :: _ | .op _ :: _ => true
  | _ => false

/-- `$current` for a call of user code. -/
def State.caller (s : State) (foreign : Bool) : Option FiberId := if foreign then none else s.current

/-- The runtime goes on with the call on top of the stack. -/
def State.tick (s : State) : Option State :=
  match s.stack with
  | .drain :: rest =>
      match s.isOver, s.queue with
      | false, t :: queue => some ({ s with queue := queue }.runTask t)
      | _, _ => some { s with stack := rest, running := false }
  | .opEnd w :: _ => some (s.performed w)
  | .wakes _ [] :: rest => some { s with stack := rest }
  | .wakes current ((w, inp) :: more) :: rest => some ({ s with stack := .wakes current more :: rest }.cont current w inp)
  | _ => none

/-- What a generator, a forked function or an implementation on top of the stack ends with. -/
def State.leave (s : State) (r : Result) : Option State :=
  match s.stack with
  | .gen g ends :: rest =>
      match s.frames g with
      | [] => some ({ s with stack := rest }.ended (s.fiberOf g) ends r)
      | .body i :: frames => some (s.scopeEnd g ends i r frames)
      | _ => none
  | .begin f :: rest =>
      let s := { s with stack := rest }
      match r with
      | .ok _ => some (s.fiberFinish s.current f r)
      | .error _ => some (s.fiberFinish (some f) f r)
  | .op w :: rest =>
      let current := s.current
      some ({ s with stack := .opEnd w :: rest }.settled current w r)
  | _ => none

def State.leaveGen (s : State) : Option State :=
  match s.stack with
  | .begin f :: rest =>
      let (g, s) := { s with stack := rest }.newGen f
      let s := s.setFiber f fun x => { x with main := some g }
      some (s.enter g .main (.next undef))
  | .op w :: rest =>
      let (g, s) := { s with stack := .opEnd w :: rest }.newGen (s.wait w).fiber
      let s := s.setOp w fun x => { x with onDrop := true }
      some (s.enter g (.settled w) (.next undef))
  | _ => none

/-- One step; `none` when the event cannot happen. -/
def State.exec (s : State) : Event → Option State
  | .tick => s.tick
  | .settle w inp =>
      if s.stack.isEmpty && s.awaits.contains w then some ({ s with awaits := s.awaits.erase w }.cont none w inp)
      else none
  | .later w =>
      if s.stack.isEmpty && s.laters.contains w then some ({ s with laters := s.laters.erase w }.schedule (.go w))
      else none
  | .stall => if s.stack.isEmpty then some s.rootInterrupt else none
  | .abandon => if s.stack.isEmpty && s.sync && s.waits.isEmpty then some { s with isOver := true } else none
  | .resume foreign w v =>
      if s.userTurn && (s.wait w).performs then some ((s.resume (s.caller foreign) w v).getD s) else none
  | .fork i => if s.userTurn && i < s.nextScope then some (((s.fork i).map Prod.snd).getD s) else none
  | .deferred i => if s.userTurn && i < s.nextScope then some ((s.newDeferred i).getD s) else none
  | .complete foreign d v =>
      if s.userTurn && d < s.nextDeferred then some (s.complete (s.caller foreign) d v) else none
  | .hold =>
      match s.stack with
      | .gen g _ :: _ =>
          let s := s.setFiber (s.fiberOf g) fun x => { x with holds := g :: x.holds }
          some (s.setFrames g (.hold :: s.frames g))
      | _ => none
  | .unhold =>
      match s.stack with
      | .gen g _ :: _ =>
          match s.frames g with
          | .hold :: rest =>
              let s := s.setFiber (s.fiberOf g) fun x => { x with holds := x.holds.erase g }
              some (s.setFrames g rest)
          | _ => none
      | _ => none
  | .scope =>
      match s.stack with
      | .gen g _ :: _ => some (s.scopeBegin g)
      | _ => none
  | .yield req =>
      match s.stack with
      | .gen g ends :: _ => if req.valid s then some (s.yield g ends req) else none
      | _ => none
  | .leave r => s.leave r
  | .leaveGen => s.leaveGen

def State.run (s : State) : List Event → Option State
  | [] => some s
  | e :: events => (s.exec e).bind fun s => s.run events

/-! ## Deferreds in a run

What `$complete` and `$poll` return, which values a run writes to a Deferred and which requests wait for it. -/

/-- What `$complete` returns, or `none` when it raises. -/
def State.completes (s : State) (d : DeferredId) : Option Bool :=
  if (s.scope (s.deferred d).scope).ended then none else some (!(s.deferred d).full)

/-- `$poll`, or `none` when it raises. -/
def State.poll (s : State) (d : DeferredId) : Option (Option Value) :=
  if (s.scope (s.deferred d).scope).ended then none
  else some (if (s.deferred d).full then some (s.deferred d).value else none)

/-- The value of a `$complete` of the Deferred that returns `True`. -/
def State.writes (s : State) (d : DeferredId) : Event → List Value
  | .complete _ e v => if e = d ∧ s.completes d = some true then [v] else []
  | _ => []

/-- The request of a `$deferredAwait` of the Deferred, when the step from `s` to `s'` makes one. -/
def State.asks (s s' : State) (d : DeferredId) : Event → List WaitId
  | .yield (.deferredAwait e) => if e = d ∧ s.nextWait < s'.nextWait then [s.nextWait] else []
  | _ => []

/-- The values that `$complete` writes to the Deferred in a run. -/
def written (d : DeferredId) : State → List Event → List Value
  | _, [] => []
  | s, e :: events =>
      match s.exec e with
      | some s' => s.writes d e ++ written d s' events
      | none => []

/-- The requests of a run that wait for the Deferred or ask for its value. -/
def awaiting (d : DeferredId) : State → List Event → List WaitId
  | _, [] => []
  | s, e :: events =>
      match s.exec e with
      | some s' => s.asks s' d e ++ awaiting d s' events
      | none => []

/-- It is about to go on: a task that continues it is queued, or its `wake` is about to be called. -/
def State.Due (s : State) (w : WaitId) : Prop :=
  (∃ t ∈ s.queue, t.wait = some w) ∨ s.live w ∧ ∃ c l inp, .wakes c l ∈ s.stack ∧ (w, inp) ∈ l

end Emela.Runtime
