import Mathlib

/-!
# The Heap IR

`ir.rs`, from the stage at which defects are explicit: structured statements over variables that are
defined once. The source keeps statements and sequences in arenas and refers to them by ID; the
verifier refuses a node that appears in two places, so here they are trees. The constructs of the
Flow IR alone (nested closures, `protect`, `defect`, failure edges without a landing) have no place
in the types.
-/

namespace Emela.Lir

abbrev VarId := Nat
abbrev LabelId := Nat
abbrev FnId := Nat
abbrev EnumId := Nat
abbrev EffectId := Nat

/-- How a value is held. -/
inductive Repr where
  | i32
  | i64
  | f64
  | ref
  | void
deriving DecidableEq

inductive Const where
  | int (n : Int)
  | int64 (n : Int)
  | float (bits : BitVec 64)
  | bool (b : Bool)
  | string (s : String)
  | unit

inductive Operand where
  | var (v : VarId)
  | const (c : Const)

/-! ## Values -/

inductive PrimOp where
  | add | sub | mul | div | rem | neg | not | eq | ne | lt | le | gt | ge

inductive PrimTy where
  | i32 | i64 | f64 | string

inductive Builtin where
  | stringLength | stringByteSize | stringAppend | stringContains | stringStartsWith | stringEndsWith
  | stringSplit | stringChars | stringJoin | stringTrim | stringCodePoints | stringFromCodePoint
  | showNested
  | intToString | intParse | intCheckedAdd | intBitAnd | intBitOr | intBitXor | intBitNot
  | intShiftLeft | intShiftRight | intShiftRightUnsigned
  | int64FromInt | int64ToString | int64ToInt | int64BitAnd | int64BitOr | int64BitXor | int64BitNot
  | int64ShiftLeft | int64ShiftRight | int64ShiftRightUnsigned
  | floatToString | floatFromInt | floatParse | floatFloor | floatCeil | floatRound | floatTruncate
  | bytesFromList | bytesToList | bytesSize | bytesGet | bytesSlice | bytesConcat | bytesEncodeUtf8
  | bytesDecodeValidUtf8
  | arrayFromList | arrayToList | arraySize | arrayGet | arraySet | arraySlice | arrayConcat
  | panic | todo | dbg | inspect
  | cellNew | cellGet | cellSet | showString | debugPrint | assertFail

inductive FiberOp where
  | scope (fails : Bool)
  | fork
  | deferred
  | join
  | await (exit : EnumId)
  | interrupt
  | attempt (exit : EnumId) (suspends : Bool)
  | complete
  | deferredAwait
  | poll
  | causeKind (kind : EnumId)
  | causeToString
  | causeRaise (fails : Bool)

inductive RuntimeOp where
  | showString | debugPrint | retire | defect | defectAt | defectTake | defectResume
  | hold | unhold | yield | yieldPerform

structure CtorRef where
  enumId : EnumId
  variant : Nat

inductive Callee where
  | direct (f : FnId)
  | indirect (v : VarId)
  | op (handler : VarId) (effect : EffectId) (op : Nat)

/-- The right-hand side of a `let`. The landing of a failing call or concurrency operation stands at
the `let`, next to its defect landing. -/
inductive Value where
  | const (c : Const)
  | prim (op : PrimOp) (ty : PrimTy) (args : List Operand)
  | call (callee : Callee) (args : List Operand) (suspends : Bool)
  | builtin (op : Builtin) (args : List Operand)
  | make (ctor : CtorRef) (args : List Operand)
  | field (base : VarId) (ctor : CtorRef) (index : Nat)
  | tag (v : VarId)
  | tuple (elems : List Operand)
  | tupleGet (base : VarId) (index : Nat)
  | list (elems : List Operand) (tail : Option Operand)
  | listIsEmpty (v : VarId)
  | listHead (v : VarId)
  | listTail (v : VarId)
  | makeClosure (function : FnId) (captures : List VarId)
  | envGet (env : VarId) (index : Nat)
  | evLookup (ev : VarId) (effect : EffectId)
  | evExtend (base : Option VarId) (bindings : List (EffectId × VarId))
  | handler (name : String) (effect : EffectId) (ops : List VarId)
  | fiber (op : FiberOp) (args : List Operand)
  | isError (error : VarId) (enumId : EnumId)
  | asError (error : VarId) (enumId : EnumId)
  | runtime (op : RuntimeOp) (args : List Operand)
  | coerce (v : VarId)

/-! ## Statements -/

inductive Term where
  | yield (value : Option Operand)
  | return (value : Option Operand)
  | fail (error : Operand)
  | break (label : LabelId) (value : Option Operand)
  | recur (args : List Operand)
  | unwind
  | unreachable

/-- A suspension edge: the resume point and the variables saved in the frame. -/
structure Suspend where
  state : Nat
  saved : List VarId

inductive SwitchOn where
  | tag (v : VarId)
  | lit (v : VarId)

def SwitchOn.var : SwitchOn → VarId
  | .tag v => v
  | .lit v => v

inductive CaseKey where
  | variant (i : Nat)
  | lit (c : Const)

mutual

inductive Stmt where
  | let (dst : Option VarId) (value : Value) (onFail : Option (VarId × Seq)) (onDefect : Option Seq)
      (onSuspend : Option Suspend)
  | if (dst : Option VarId) (cond : Operand) (then_ else_ : Seq)
  | switch (dst : Option VarId) (on : SwitchOn) (cases : List (CaseKey × Seq)) (default : Option Seq)
  | loop (dst : Option VarId) (vars : List VarId) (inits : List Operand) (body : Seq)
  | block (dst : Option VarId) (label : LabelId) (body : Seq)
  | dup (v : VarId)
  | drop (v : VarId)

/-- Statements run in order, then the terminator. -/
inductive Seq where
  | mk (stmts : List Stmt) (term : Term)

end

def Stmt.dst : Stmt → Option VarId
  | .let dst .. | .if dst .. | .switch dst .. | .loop dst .. | .block dst .. => dst
  | .dup _ | .drop _ => none

/-! ## Functions -/

structure VarData where
  hint : String
  repr : Repr

/-- A function. `env` says whether it is lifted from a closure: its first parameter is then the
environment. -/
structure Function where
  name : String
  params : List VarId
  suspends : Bool
  external : Bool
  env : Bool
  body : Option Seq
  vars : List VarData

structure Module where
  functions : List Function

/-! ## Who owns what

The ownership rules of `heap/rc.rs`, shared by the pass that inserts `dup` and `drop` and by the
balance check. -/

/-- How a statement uses a variable. -/
inductive Mode where
  | consume
  | borrow
deriving DecidableEq

section
variable (m : Module) (f : Function)

/-- Whether the variable is counted (`ref`). -/
def counted (v : VarId) : Bool := (f.vars[v]?.map (·.repr)) == some .ref

/-- Whether the variable is a borrowed parameter (the environment of a lifted function). -/
def borrowedParam (v : VarId) : Bool := f.env && f.params.head? == some v

def isExternal (g : FnId) : Bool := (m.functions[g]?.map (·.external)).getD false

/-- Whether the value reads a reference out of a value it borrows, so that its destination owns
nothing until a `dup`. -/
def isView : Value → Bool
  | .field .. | .tupleGet .. | .listHead _ | .listTail _ | .envGet .. | .evLookup .. | .asError .. => true
  | .coerce x => counted f x
  | _ => false

def Operand.var? : Operand → Option VarId
  | .var v => some v
  | .const _ => none

/-- The counted variables among the operands, in order. -/
def operandVars (os : List Operand) : List VarId := (os.filterMap Operand.var?).filter (counted f)

/-- The counted variables the value uses, with how it uses them. -/
def valueUses (v : Value) : List (VarId × Mode) :=
  let each (os : List Operand) (mode : Mode) := (operandVars f os).map (·, mode)
  let many (xs : List VarId) (mode : Mode) := (xs.filter (counted f)).map (·, mode)
  match v with
  | .const _ => []
  | .builtin .arraySet args => each (args.take 1) .consume ++ each (args.drop 1) .borrow
  | .prim _ _ args | .builtin _ args | .fiber _ args => each args .borrow
  | .call (.direct g) args _ => each args (if isExternal m g then .borrow else .consume)
  | .call (.indirect c) args _ | .call (.op c _ _) args _ => many [c] .borrow ++ each args .consume
  | .make _ args | .tuple args => each args .consume
  | .list elems tail => each elems .consume ++ each tail.toList .consume
  | .field x _ _ | .tupleGet x _ | .listHead x | .listTail x | .envGet x _ | .evLookup x _ | .asError x _
  | .tag x | .listIsEmpty x | .isError x _ | .coerce x => many [x] .borrow
  | .makeClosure _ captures => many captures .consume
  | .evExtend base bindings => many base.toList .consume ++ many (bindings.map Prod.snd) .consume
  | .handler _ _ ops => many ops .consume
  | .runtime .defectResume args => each args .consume
  | .runtime _ args => each args .borrow

def consumed (v : Value) : List VarId := ((valueUses m f v).filter (·.2 = .consume)).map Prod.fst

def borrowed (v : Value) : List VarId := ((valueUses m f v).filter (·.2 = .borrow)).map Prod.fst

def termOperands : Term → List Operand
  | .yield v | .return v | .break _ v => v.toList
  | .fail v => [v]
  | .recur args => args
  | .unwind | .unreachable => []

/-- The values a terminator consumes. -/
def termConsumes (t : Term) : List VarId := operandVars f (termOperands t)

/-- The counted variables a suspension edge saves. -/
def suspendSaved (edge : Option Suspend) : List VarId :=
  (edge.map fun s => s.saved.filter (counted f)).getD []

end

theorem counted_of_mem_operandVars {f : Function} {os : List Operand} {v : VarId}
    (h : v ∈ operandVars f os) : counted f v = true := (List.mem_filter.mp h).2

/-! ## Liveness

A backward analysis over the structured control, with a fixpoint at loops. The source has it twice,
for all variables (`heap/live.rs`) and for the counted ones (`heap/rc.rs`); the two differ in what
they take for a use. -/

/-- What an analysis takes for a use. -/
structure Uses where
  value : Value → List VarId
  operands : List Operand → List VarId
  cond : Operand → List VarId
  on : VarId → List VarId
  saved : Option Suspend → List VarId

/-- The uses of the counted variables (`heap/rc.rs`). -/
def Uses.counted (m : Module) (f : Function) : Uses where
  value v := (valueUses m f v).map Prod.fst
  operands := operandVars f
  cond _ := []
  on v := [v].filter (Lir.counted f)
  saved := suspendSaved f

/-- What is live where control leaves a sequence: after the statement a `yield` goes to, at the head
of the innermost loop, and after each enclosing block. -/
structure LiveCtx where
  yieldLive : Finset VarId
  head : Option (Finset VarId)
  afterLabel : LabelId → Finset VarId

/-- The context at the start of a function. -/
def LiveCtx.start : LiveCtx where
  yieldLive := ∅
  head := none
  afterLabel _ := ∅

def eraseDst (live : Finset VarId) (dst : Option VarId) : Finset VarId := live \ dst.toFinset

/-- The rounds at a loop head, from nothing live. They end in the second one: what is live at the
head once is all that is live there. -/
def loopHead (round : Finset VarId → Finset VarId) : Nat → Finset VarId → Finset VarId
  | 0, head => head
  | fuel + 1, head =>
      let live := round head
      if live = head then head else loopHead round fuel live

section
variable (U : Uses)

/-- The live variables before the terminator. -/
def liveTerm (lc : LiveCtx) (term : Term) : Finset VarId :=
  (match term with
    | .yield _ => lc.yieldLive
    | .break label _ => lc.afterLabel label
    | .recur _ => lc.head.getD ∅
    | _ => ∅) ∪ (U.operands (termOperands term)).toFinset

mutual

/-- The live variables at the start of the sequence. -/
def liveSeq (lc : LiveCtx) : Seq → Finset VarId
  | .mk stmts term => liveStmts lc stmts (liveTerm U lc term)

def liveStmts (lc : LiveCtx) : List Stmt → Finset VarId → Finset VarId
  | [], live => live
  | s :: stmts, live => liveStmt lc s (liveStmts lc stmts live)

/-- The live variables before the statement, given those after it. -/
def liveStmt (lc : LiveCtx) : Stmt → Finset VarId → Finset VarId
  | .let dst value onFail onDefect onSuspend, after =>
      eraseDst after dst ∪ liveFail lc onFail ∪ liveOption lc onDefect ∪ (U.value value).toFinset ∪
        (U.saved onSuspend).toFinset
  | .dup v, after | .drop v, after => insert v after
  | .if dst cond then_ else_, after =>
      liveSeq { lc with yieldLive := eraseDst after dst } then_ ∪
        liveSeq { lc with yieldLive := eraseDst after dst } else_ ∪ (U.cond cond).toFinset
  | .switch dst on cases default, after =>
      liveCases { lc with yieldLive := eraseDst after dst } cases ∪
        liveOption { lc with yieldLive := eraseDst after dst } default ∪ (U.on on.var).toFinset
  | .block dst label body, after =>
      liveSeq { lc with
        yieldLive := eraseDst after dst
        afterLabel := Function.update lc.afterLabel label (eraseDst after dst) } body
  | .loop dst vars inits body, after =>
      loopHead (fun h => liveSeq { lc with yieldLive := eraseDst after dst, head := some h } body \ vars.toFinset)
        2 ∅ ∪ (U.operands inits).toFinset

/-- The live variables of a failure landing, its error excluded. -/
def liveFail (lc : LiveCtx) : Option (VarId × Seq) → Finset VarId
  | none => ∅
  | some (e, body) => liveSeq lc body \ {e}

def liveOption (lc : LiveCtx) : Option Seq → Finset VarId
  | none => ∅
  | some body => liveSeq lc body

def liveCases (lc : LiveCtx) : List (CaseKey × Seq) → Finset VarId
  | [] => ∅
  | (_, body) :: cases => liveSeq lc body ∪ liveCases lc cases

end

/-- The live outer variables at the head of a loop with the variables live after it. -/
def liveHead (lc : LiveCtx) (after : Finset VarId) (vars : List VarId) (body : Seq) : Finset VarId :=
  loopHead (fun h => liveSeq U { lc with yieldLive := after, head := some h } body \ vars.toFinset) 2 ∅

/-- The live variables before the statement, given those after it, with what is live in its nested
sequences taken from `recorded`, live after it in the analysis. -/
def liveBefore (lc : LiveCtx) (s : Stmt) (recorded after : Finset VarId) : Finset VarId :=
  match s with
  | .let .. | .dup _ | .drop _ => liveStmt U lc s after
  | _ => liveStmt U lc s recorded

end

end Emela.Lir
