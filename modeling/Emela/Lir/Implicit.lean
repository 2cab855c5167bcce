import Emela.Lir.Verify

/-!
# Code with implicit defects

`ir.rs` once closures are converted, the stage before defects are explicit: a defect unwinds by itself
through the cleanups of `protect`, and a failure edge has no landing. Values are those of the later
stages.
-/

namespace Emela.Lir

namespace Implicit

/-- Where a failing call goes. -/
inductive OnFail where
  | break (label : LabelId)
  | propagate

inductive Term where
  | yield (value : Option Operand)
  | return (value : Option Operand)
  | fail (error : Operand)
  | break (label : LabelId) (value : Option Operand)
  | recur (args : List Operand)
  | defect (msg : Operand) (location : Option String)
  | unreachable

mutual

inductive Stmt where
  | let (dst : Option VarId) (value : Value) (onFail : Option OnFail)
  | if (dst : Option VarId) (cond : Operand) (then_ else_ : Seq)
  | switch (dst : Option VarId) (on : SwitchOn) (cases : List (CaseKey × Seq)) (default : Option Seq)
  | loop (dst : Option VarId) (vars : List VarId) (inits : List Operand) (body : Seq)
  | block (dst : Option VarId) (label : LabelId) (body : Seq)
  | protect (dst : Option VarId) (body cleanup : Seq)

inductive Seq where
  | mk (stmts : List Stmt) (term : Term)

end

def Stmt.dst : Stmt → Option VarId
  | .let dst .. | .if dst .. | .switch dst .. | .loop dst .. | .block dst .. | .protect dst .. => dst

/-- A function; an external one has no body. `constant` says that it is a const's value. -/
structure Function where
  name : String
  params : List VarId
  suspends : Bool
  constant : Bool
  env : Bool
  body : Option Seq
  vars : List VarData

structure Module where
  functions : List Function

def Term.operands : Term → List Operand
  | .yield v | .return v | .break _ v => v.toList
  | .fail v | .defect v _ => [v]
  | .recur args => args
  | .unreachable => []

/-! ## What a sequence defines -/

mutual

/-- The variables defined anywhere in the sequence. -/
def defsSeq : Seq → List VarId
  | .mk stmts _ => defsStmts stmts

def defsStmts : List Stmt → List VarId
  | [] => []
  | s :: stmts => defsStmt s ++ defsStmts stmts

def defsStmt : Stmt → List VarId
  | .let dst _ _ => dst.toList
  | .if dst _ then_ else_ => defsSeq then_ ++ defsSeq else_ ++ dst.toList
  | .switch dst _ cases default => defsCases cases ++ defsOption default ++ dst.toList
  | .loop dst vars _ body => vars ++ defsSeq body ++ dst.toList
  | .block dst _ body => defsSeq body ++ dst.toList
  | .protect dst body cleanup => defsSeq body ++ defsSeq cleanup ++ dst.toList

def defsCases : List (CaseKey × Seq) → List VarId
  | [] => []
  | (_, body) :: cases => defsSeq body ++ defsCases cases

def defsOption : Option Seq → List VarId
  | none => []
  | some body => defsSeq body

end

mutual

/-- The labels of the blocks anywhere in the sequence. -/
def labelsSeq : Seq → List LabelId
  | .mk stmts _ => labelsStmts stmts

def labelsStmts : List Stmt → List LabelId
  | [] => []
  | s :: stmts => labelsStmt s ++ labelsStmts stmts

def labelsStmt : Stmt → List LabelId
  | .let .. => []
  | .if _ _ then_ else_ => labelsSeq then_ ++ labelsSeq else_
  | .switch _ _ cases default => labelsCases cases ++ labelsOption default
  | .loop _ _ _ body => labelsSeq body
  | .block _ label body => label :: labelsSeq body
  | .protect _ body cleanup => labelsSeq body ++ labelsSeq cleanup

def labelsCases : List (CaseKey × Seq) → List LabelId
  | [] => []
  | (_, body) :: cases => labelsSeq body ++ labelsCases cases

def labelsOption : Option Seq → List LabelId
  | none => []
  | some body => labelsSeq body

end

/-! ## Scopes -/

/-- What encloses the code being checked: the variables in scope, the labels of the enclosing blocks,
whether there is a loop to go on with, and whether the function may be left. -/
structure Scope where
  vars : Finset VarId
  labels : Finset LabelId
  inLoop : Bool
  leaves : Bool

def Scope.define (Γ : Scope) (dst : Option VarId) : Scope := { Γ with vars := Γ.vars ∪ dst.toFinset }

def Scope.block (Γ : Scope) (label : LabelId) : Scope := { Γ with labels := insert label Γ.labels }

def Scope.loop (Γ : Scope) (vars : List VarId) : Scope :=
  { Γ with vars := Γ.vars ∪ vars.toFinset, inLoop := true }

/-- The body of a `protect`, which a `recur` does not leave. -/
def Scope.protect (Γ : Scope) : Scope := { Γ with inLoop := false }

/-- A cleanup, which only its end leaves. -/
def Scope.cleanup (Γ : Scope) : Scope := { Γ with labels := ∅, inLoop := false, leaves := false }

def Scope.has (Γ : Scope) (vs : List VarId) : Prop := ∀ v ∈ vs, v ∈ Γ.vars

/-- `Checker::term`. -/
def ScopedTerm (Γ : Scope) (term : Term) : Prop :=
  Γ.has (term.operands.filterMap Operand.var?) ∧
    match term with
    | .return _ | .fail _ => Γ.leaves = true
    | .break label _ => label ∈ Γ.labels
    | .recur _ => Γ.inLoop = true
    | .yield _ | .defect .. | .unreachable => True

/-- `Checker::on_fail`. -/
def ScopedFail (Γ : Scope) : OnFail → Prop
  | .break label => label ∈ Γ.labels
  | .propagate => Γ.leaves = true

/-- The runtime operations of this stage: the others move the pending defect, or come with the state
machines. -/
def RuntimeOp.early : RuntimeOp → Bool
  | .showString | .debugPrint | .retire | .hold | .unhold => true
  | .defect | .defectAt | .defectTake | .defectResume | .yield | .yieldPerform => false

def Value.early : Value → Bool
  | .runtime op _ => RuntimeOp.early op
  | _ => true

mutual

def ScopedSeq (Γ : Scope) : Seq → Prop
  | .mk stmts term => ScopedStmts Γ term stmts

def ScopedStmts (Γ : Scope) (term : Term) : List Stmt → Prop
  | [] => ScopedTerm Γ term
  | s :: stmts => ScopedStmt Γ s ∧ ScopedStmts (Γ.define s.dst) term stmts

def ScopedStmt (Γ : Scope) : Stmt → Prop
  | .let _ value onFail => Γ.has value.vars ∧ Value.early value = true ∧ ∀ edge ∈ onFail, ScopedFail Γ edge
  | .if _ cond then_ else_ => Γ.has cond.var?.toList ∧ ScopedSeq Γ then_ ∧ ScopedSeq Γ else_
  | .switch _ on cases default => Γ.has [on.var] ∧ ScopedCases Γ cases ∧ ScopedOption Γ default
  | .loop _ vars inits body => Γ.has (inits.filterMap Operand.var?) ∧ ScopedSeq (Γ.loop vars) body
  | .block _ label body => ScopedSeq (Γ.block label) body
  | .protect _ body cleanup => ScopedSeq Γ.protect body ∧ ScopedSeq Γ.cleanup cleanup

def ScopedOption (Γ : Scope) : Option Seq → Prop
  | none => True
  | some body => ScopedSeq Γ body

def ScopedCases (Γ : Scope) : List (CaseKey × Seq) → Prop
  | [] => True
  | (_, body) :: cases => ScopedSeq Γ body ∧ ScopedCases Γ cases

end

/-- What a function with the given body has at this stage. The verifier checks that variables and labels are
defined once and used in their scope; `Value.early` is what the passes before this one make. -/
structure Verified (f : Function) (body : Seq) : Prop where
  defs : (f.params ++ defsSeq body).Nodup
  labels : (labelsSeq body).Nodup
  inScope : ScopedSeq ⟨f.params.toFinset, ∅, false, true⟩ body

/-- Every function of the module is as this stage has it. -/
def Accepted (m : Module) : Prop := ∀ f ∈ m.functions, ∀ body ∈ f.body, Verified f body

end Implicit

/-! ## Explicit defects

`heap/defects.rs`: the pass that makes defects and the cleanups of `protect` ordinary control, and the
parts of `heap/copy.rs` it uses. The source keeps the cleanups of the enclosing `protect`s as sequences
on a stack, and rebuilds one with the part of the stack below it; here the stack holds, for each, the
function that rebuilds it there. -/

/-! ## Renaming -/

def Operand.rename (σ : VarId → VarId) : Operand → Operand
  | .var v => .var (σ v)
  | .const c => .const c

def Callee.rename (σ : VarId → VarId) : Callee → Callee
  | .direct f => .direct f
  | .indirect v => .indirect (σ v)
  | .op handler effect index => .op (σ handler) effect index

def SwitchOn.rename (σ : VarId → VarId) : SwitchOn → SwitchOn
  | .tag v => .tag (σ v)
  | .lit v => .lit (σ v)

def Value.rename (σ : VarId → VarId) : Value → Value
  | .const c => .const c
  | .prim op ty args => .prim op ty (args.map (·.rename σ))
  | .call callee args suspends => .call (callee.rename σ) (args.map (·.rename σ)) suspends
  | .builtin op args => .builtin op (args.map (·.rename σ))
  | .make ctor args => .make ctor (args.map (·.rename σ))
  | .field base ctor index => .field (σ base) ctor index
  | .tag v => .tag (σ v)
  | .tuple elems => .tuple (elems.map (·.rename σ))
  | .tupleGet base index => .tupleGet (σ base) index
  | .list elems tail => .list (elems.map (·.rename σ)) (tail.map (·.rename σ))
  | .listIsEmpty v => .listIsEmpty (σ v)
  | .listHead v => .listHead (σ v)
  | .listTail v => .listTail (σ v)
  | .makeClosure function captures => .makeClosure function (captures.map σ)
  | .envGet env index => .envGet (σ env) index
  | .evLookup ev effect => .evLookup (σ ev) effect
  | .evExtend base bindings => .evExtend (base.map σ) (bindings.map fun b => (b.1, σ b.2))
  | .handler name effect ops => .handler name effect (ops.map σ)
  | .fiber op args => .fiber op (args.map (·.rename σ))
  | .isError error enumId => .isError (σ error) enumId
  | .asError error enumId => .asError (σ error) enumId
  | .runtime op args => .runtime op (args.map (·.rename σ))
  | .coerce v => .coerce (σ v)

/-! ## Functions -/

namespace Explicit

/-- A function with explicit defects: `defects` says whether a call may come back with a pending one. -/
structure Function extends Lir.Function where
  constant : Bool
  defects : Bool

structure Module where
  functions : List Function

end Explicit

namespace Implicit

/-! ## What may raise a defect -/

/-- `runtime_may_defect` -/
def runtimeMayDefect : RuntimeOp → Bool
  | .yield | .yieldPerform => true
  | _ => false

/-- `builtin_may_defect` -/
def builtinMayDefect : Builtin → Bool
  | .intShiftLeft | .intShiftRight | .intShiftRightUnsigned
  | .int64ShiftLeft | .int64ShiftRight | .int64ShiftRightUnsigned
  | .floatFloor | .floatCeil | .floatRound | .floatTruncate
  | .panic | .todo | .assertFail | .arraySet | .stringSplit => true
  | _ => false

/-- `fiber_may_defect` -/
def fiberMayDefect : FiberOp → Bool
  | .causeKind _ | .causeToString => false
  | _ => true

/-- `may_defect_without_flags` -/
def mayDefectWithoutFlags : Value → Bool
  | .call (.direct _) .. => false
  | .call .. => true
  | .builtin op _ => builtinMayDefect op
  | .fiber op _ => fiberMayDefect op
  | .runtime op _ => runtimeMayDefect op
  | _ => false

/-- `may_defect`, with the flags of the module's functions. -/
def mayDefect (flags : List Bool) : Value → Bool
  | .call (.direct f) .. => flags.getD f false
  | v => mayDefectWithoutFlags v

/-- A division or remainder of integers. -/
def divides : PrimOp → PrimTy → Bool
  | .div, .i32 | .div, .i64 | .rem, .i32 | .rem, .i64 => true
  | _, _ => false

def nonzero : Option Operand → Bool
  | some (.const (.int n)) | some (.const (.int64 n)) => n ≠ 0
  | _ => false

/-- `needs_zero_test` -/
def needsZeroTest (op : PrimOp) (ty : PrimTy) (args : List Operand) : Bool :=
  divides op ty && !nonzero args[1]?

/-- What `analyse` looks for in the statements and terminators it visits: whether one raises a defect by
itself, and the functions called. -/
structure Visit where
  raises : Bool
  callees : List FnId

def Visit.none : Visit := ⟨false, []⟩

def Visit.and (a b : Visit) : Visit := ⟨a.raises || b.raises, a.callees ++ b.callees⟩

def visitValue : Value → Visit
  | .call (.direct g) .. => ⟨false, [g]⟩
  | .prim op ty args => ⟨needsZeroTest op ty args, []⟩
  | v => ⟨mayDefectWithoutFlags v, []⟩

def visitTerm : Term → Visit
  | .defect .. => ⟨true, []⟩
  | _ => .none

mutual

/-- `visit`, as `analyse` uses it. -/
def visitSeq : Seq → Visit
  | .mk stmts term => (visitStmts stmts).and (visitTerm term)

def visitStmts : List Stmt → Visit
  | [] => .none
  | s :: stmts => (visitStmt s).and (visitStmts stmts)

def visitStmt : Stmt → Visit
  | .let _ value _ => visitValue value
  | .if _ _ then_ else_ => (visitSeq then_).and (visitSeq else_)
  | .switch _ _ cases default => (visitCases cases).and (visitOption default)
  | .loop _ _ _ body | .block _ _ body => visitSeq body
  | .protect _ body cleanup => (visitSeq body).and (visitSeq cleanup)

def visitCases : List (CaseKey × Seq) → Visit
  | [] => .none
  | (_, body) :: cases => (visitSeq body).and (visitCases cases)

def visitOption : Option Seq → Visit
  | none => .none
  | some body => visitSeq body

end

/-- What `analyse` finds in one function, before it follows the calls. -/
def visitFunction (f : Function) : Visit :=
  match f.body with
  | none => ⟨true, []⟩
  | some body => { visitSeq body with raises := f.suspends || f.constant || (visitSeq body).raises }

/-- One step of the fixpoint, at function `i`. -/
def mark (visits : List Visit) (flags : List Bool) (i : Nat) : List Bool :=
  if (visits.getD i .none).callees.any (flags.getD · false) then flags.set i true else flags

/-- The loop of the fixpoint over the functions. -/
def sweep (visits : List Visit) (flags : List Bool) : List Bool :=
  (List.range visits.length).foldl (mark visits) flags

/-- The fixpoint: sweeps until nothing changes, at most `fuel` of them. -/
def fixpoint (visits : List Visit) : Nat → List Bool → List Bool
  | 0, flags => flags
  | fuel + 1, flags =>
      if sweep visits flags = flags then flags else fixpoint visits fuel (sweep visits flags)

/-- Which functions may come back with a pending defect. Every sweep but the last sets a flag. -/
def analyse (m : Module) : List Bool :=
  let visits := m.functions.map visitFunction
  fixpoint visits visits.length (visits.map Visit.raises)

/-! ## The function being built -/

/-- The function being built and the copier's tables: the new IDs of the variables and labels seen, and
the depth of the stack at each block. -/
structure Build where
  vars : List VarData
  labels : Nat
  varMap : VarId → Option VarId
  labelMap : LabelId → Option LabelId
  depth : LabelId → Nat

def Build.empty : Build := ⟨[], 0, fun _ => none, fun _ => none, fun _ => 0⟩

/-- A new variable, numbered from the end. -/
def Build.alloc (d : VarData) (b : Build) : Build := { b with vars := b.vars ++ [d] }

/-- A new label, numbered from the end. -/
def Build.allocLabel (b : Build) : Build := { b with labels := b.labels + 1 }

/-- `Copier::label` -/
def Build.label (l : LabelId) (b : Build) : Build :=
  match b.labelMap l with
  | some _ => b
  | none => { b.allocLabel with labelMap := Function.update b.labelMap l (some b.labels) }

/-- The new block for the block `l` of the source, at the depth. -/
def Build.block (l : LabelId) (depth : Nat) (b : Build) : Build :=
  { b.allocLabel with
    labelMap := Function.update b.labelMap l (some b.labels)
    depth := Function.update b.depth l depth }

/-- What the copier makes of a variable and of a label it has seen. -/
def Build.sub (b : Build) (v : VarId) : VarId := (b.varMap v).getD 0

def Build.subLabel (b : Build) (l : LabelId) : LabelId := (b.labelMap l).getD 0

section
variable (src : List VarData)

/-- `Copier::fresh` -/
def Build.fresh (v : VarId) (b : Build) : Build :=
  { b.alloc (src.getD v ⟨"", .ref⟩) with varMap := Function.update b.varMap v (some b.vars.length) }

/-- `Copier::var` -/
def Build.var (v : VarId) (b : Build) : Build :=
  match b.varMap v with
  | some _ => b
  | none => b.fresh src v

def Build.freshAll (vs : List VarId) (b : Build) : Build := vs.foldl (fun b v => b.fresh src v) b

/-- `Copier::var` for each of the variables in turn; what uses them is then renamed. -/
def Build.see (vs : List VarId) (b : Build) : Build := vs.foldl (fun b v => b.var src v) b

def Build.seeOperands (os : List Operand) (b : Build) : Build := b.see src (os.filterMap Operand.var?)

/-! ## Ways out -/

/-- What encloses the code being rebuilt. -/
inductive Encl where
  /-- The body of a `protect`: rebuilds its cleanup where it stands, with the variable of the defect
  under way. -/
  | protect (cleanup : Option VarId → Build → Lir.Seq × Build)
  /-- A cleanup running on the way out with a defect, which was taken into this variable. -/
  | stash (d : VarId)

def runtime (dst : Option VarId) (op : RuntimeOp) (args : List Operand) : Lir.Stmt :=
  .let dst (.runtime op args) none none none

/-- `Explicit::cleanup` -/
def cleanup (run : Build → Lir.Seq × Build) (b : Build) : Lir.Stmt × Build :=
  let r := run b.allocLabel
  (.block none b.labels r.1, r.2)

/-- `Explicit::exit`; the stack is innermost first. -/
def exit (unwind : Bool) (start : Nat) : List Encl → Build → List Lir.Stmt × Build
  | [], b => ([], b)
  | e :: stack, b =>
      if stack.length < start then ([], b)
      else match e with
        | .protect run =>
            if unwind then
              let d := b.vars.length
              let r := cleanup (run (some d)) (b.alloc ⟨"defect", .ref⟩)
              let rest := exit unwind start stack r.2
              (runtime (some d) .defectTake [] :: r.1 :: runtime none .defectResume [.var d] :: rest.1, rest.2)
            else
              let r := cleanup (run none) b
              let rest := exit unwind start stack r.2
              (r.1 :: rest.1, rest.2)
        | .stash d =>
            let rest := exit unwind start stack b
            (runtime none .defectResume [.var d] :: rest.1, rest.2)

/-- `Explicit::exit_seq` -/
def exitSeq (stack : List Encl) (start : Nat) (unwind : Bool) (term : Lir.Term) (b : Build) : Lir.Seq × Build :=
  let r := exit unwind start stack b
  (.mk r.1 term, r.2)

/-- `Explicit::landing` -/
def landing (stack : List Encl) (edge : OnFail) (b : Build) : (VarId × Lir.Seq) × Build :=
  let error := b.vars.length
  let b := b.alloc ⟨"e", .ref⟩
  match edge with
  | .break l =>
      let start := b.depth l
      let b := b.label l
      let r := exitSeq stack start false (.break (b.subLabel l) (some (.var error))) b
      ((error, r.1), r.2)
  | .propagate =>
      let r := exitSeq stack 0 false (.fail (.var error)) b
      ((error, r.1), r.2)

def zeroConst : PrimTy → Const
  | .i64 => .int64 0
  | _ => .int 0

/-- `Explicit::zero_test` -/
def zeroTest (stack : List Encl) (ty : PrimTy) (divisor : Operand) (b : Build) : List Lir.Stmt × Build :=
  let b := b.seeOperands src [divisor]
  let z := b.vars.length
  let raise := exit true 0 stack (b.alloc ⟨"zero", .i32⟩)
  ([.let (some z) (.prim .eq ty [divisor.rename b.sub, .const (zeroConst ty)]) none none none,
    .if none (.var z)
      (.mk (runtime none .defect [.const (.string "division by zero")] :: raise.1) .unwind)
      (.mk [] (.yield none))], raise.2)

/-! ## Rebuilding -/

/-- `Explicit::term`: the statements put before the terminator, and the terminator. -/
def explicitTerm (stack : List Encl) (protectTop : Bool) (term : Term) (b : Build) :
    (List Lir.Stmt × Lir.Term) × Build :=
  let b := b.seeOperands src term.operands
  match term with
  | .yield v =>
      let r := if protectTop then exit false (stack.length - 1) stack b else ([], b)
      ((r.1, .yield (v.map (·.rename b.sub))), r.2)
  | .return v =>
      let r := exit false 0 stack b
      ((r.1, .return (v.map (·.rename b.sub))), r.2)
  | .fail v =>
      let r := exit false 0 stack b
      ((r.1, .fail (v.rename b.sub)), r.2)
  | .break l v =>
      let start := b.depth l
      let b := b.label l
      let r := exit false start stack b
      ((r.1, .break (b.subLabel l) (v.map (·.rename b.sub))), r.2)
  | .recur args => (([], .recur (args.map (·.rename b.sub))), b)
  | .defect msg location =>
      let raise := match location with
        | some l => runtime none .defectAt [msg.rename b.sub, .const (.string l)]
        | none => runtime none .defect [msg.rename b.sub]
      let r := exit true 0 stack b
      ((raise :: r.1, .unwind), r.2)
  | .unreachable => (([], .unreachable), b)

/-- The test before a value, when it needs one. -/
def explicitTest (stack : List Encl) (value : Value) (b : Build) : List Lir.Stmt × Build :=
  match value with
  | .prim op ty args =>
      match args[1]? with
      | some divisor => if needsZeroTest op ty args then zeroTest src stack ty divisor b else ([], b)
      | none => ([], b)
  | _ => ([], b)

/-- The landing of the failure edge, if there is one. -/
def explicitFail (stack : List Encl) (onFail : Option OnFail) (b : Build) : Option (VarId × Lir.Seq) × Build :=
  match onFail with
  | some edge =>
      let r := landing stack edge b
      (some r.1, r.2)
  | none => (none, b)

section
variable (flags : List Bool)

/-- The landing of a value that may raise a defect. -/
def explicitDefect (stack : List Encl) (value : Value) (b : Build) : Option Lir.Seq × Build :=
  if mayDefect flags value then
    let r := exitSeq stack 0 true .unwind b
    (some r.1, r.2)
  else (none, b)

/-- `Explicit::stmt` at a `let`. -/
def explicitLet (stack : List Encl) (dst : Option VarId) (value : Value) (onFail : Option OnFail) (b : Build) :
    List Lir.Stmt × Build :=
  let test := explicitTest src stack value b
  let b := test.2.see src value.vars
  let new := value.rename b.sub
  let handle := explicitFail stack onFail b
  let onDefect := explicitDefect flags stack new handle.2
  let b := onDefect.2.freshAll src dst.toList
  (test.1 ++ [.let (dst.map b.sub) new handle.1 onDefect.1 none], b)

mutual

/-- `Explicit::seq` -/
def explicitSeq (stack : List Encl) (protectTop : Bool) : Seq → Build → Lir.Seq × Build
  | .mk stmts term, b =>
      let r := explicitStmts stack protectTop term stmts b
      (.mk r.1.1 r.1.2, r.2)

def explicitStmts (stack : List Encl) (protectTop : Bool) (term : Term) :
    List Stmt → Build → (List Lir.Stmt × Lir.Term) × Build
  | [], b => explicitTerm src stack protectTop term b
  | s :: stmts, b =>
      let r := explicitStmt stack s b
      let rest := explicitStmts stack protectTop term stmts r.2
      ((r.1 ++ rest.1.1, rest.1.2), rest.2)

/-- `Explicit::stmt` -/
def explicitStmt (stack : List Encl) : Stmt → Build → List Lir.Stmt × Build
  | .let dst value onFail, b => explicitLet src flags stack dst value onFail b
  | .if dst cond then_ else_, b =>
      let b := b.seeOperands src [cond]
      let cond := cond.rename b.sub
      let r := explicitSeq stack false then_ b
      let q := explicitSeq stack false else_ r.2
      let b := q.2.freshAll src dst.toList
      ([.if (dst.map b.sub) cond r.1 q.1], b)
  | .switch dst on cases default, b =>
      let b := b.see src [on.var]
      let on := on.rename b.sub
      let r := explicitCases stack cases b
      let q := explicitOption stack default r.2
      let b := q.2.freshAll src dst.toList
      ([.switch (dst.map b.sub) on r.1 q.1], b)
  | .loop dst vars inits body, b =>
      let b := b.seeOperands src inits
      let inits := inits.map (·.rename b.sub)
      let b := b.freshAll src vars
      let vars := vars.map b.sub
      let r := explicitSeq stack false body b
      let b := r.2.freshAll src dst.toList
      ([.loop (dst.map b.sub) vars inits r.1], b)
  | .block dst label body, b =>
      let new := b.labels
      let r := explicitSeq stack false body (b.block label stack.length)
      let b := r.2.freshAll src dst.toList
      ([.block (dst.map b.sub) new r.1], b)
  | .protect dst body cleanup, b =>
      let run := fun d => explicitSeq ((d.map Encl.stash).toList ++ stack) false cleanup
      let r := explicitSeq (.protect run :: stack) true body b
      let label := r.2.labels
      let b := r.2.allocLabel.freshAll src dst.toList
      ([.block (dst.map b.sub) label r.1], b)

def explicitCases (stack : List Encl) : List (CaseKey × Seq) → Build → List (CaseKey × Lir.Seq) × Build
  | [], b => ([], b)
  | (key, body) :: cases, b =>
      let r := explicitSeq stack false body b
      let rest := explicitCases stack cases r.2
      ((key, r.1) :: rest.1, rest.2)

def explicitOption (stack : List Encl) : Option Seq → Build → Option Lir.Seq × Build
  | none, b => (none, b)
  | some body, b =>
      let r := explicitSeq stack false body b
      (some r.1, r.2)

end

end

end

/-! ## The module -/

/-- `Explicit::run` -/
def Function.explicit (flags : List Bool) (id : FnId) (f : Function) : Explicit.Function :=
  let start := Build.empty.freshAll f.vars f.params
  let built := f.body.map fun body => explicitSeq f.vars flags [] false body start
  { name := f.name
    params := match f.body with
      | some _ => f.params.map start.sub
      | none => f.params
    suspends := f.suspends
    external := f.body.isNone
    env := f.env
    body := built.map Prod.fst
    vars := match built with
      | some r => r.2.vars
      | none => f.vars
    constant := f.constant
    defects := flags.getD id false }

/-- `explicit_defects` -/
def explicitDefects (m : Module) : Explicit.Module :=
  ⟨m.functions.mapIdx fun id f => f.explicit (analyse m) id⟩

end Implicit

end Emela.Lir
