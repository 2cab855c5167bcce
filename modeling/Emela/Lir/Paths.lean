import Emela.Lir.RcCheck
import Emela.Lir.Verify

/-!
# The paths of a function with counted references

A path is any way through the code: any branch, any number of iterations, every landing, suspended or
resumed. What matters of it is what happens to the references of the counted variables, in order. A
path may stop anywhere, so that those that never end are covered by their beginnings.
-/

namespace Emela.Lir

inductive Event where
  /-- The variable gets a value, with a reference or as a view. -/
  | define (v : VarId) (owned : Bool)
  | dup (v : VarId)
  | consume (v : VarId)
  | borrow (v : VarId)
  /-- A reference saved in the frame comes back. -/
  | restore (v : VarId)
  /-- Control leaves the function, which has returned, failed, unwound or is suspended. -/
  | exit
deriving DecidableEq

/-- How control goes on. -/
inductive Flow where
  | next
  | yield
  | break (label : LabelId)
  | recur
  | exit
  | cut
deriving DecidableEq

/-! ## What the references do -/

section
variable (m : Module) (f : Function)

def defineEvents (vs : List VarId) (owned : Bool) : List Event := (vs.filter (counted f)).map (.define · owned)

/-- A value takes what it consumes, and needs what it borrows after that. -/
def valueEvents (value : Value) : List Event :=
  (consumed m f value).map .consume ++ (borrowed m f value).map .borrow

/-- The saved variables move into the frame, and the function comes back suspended. -/
def suspendEvents (edge : Suspend) : List Event := (suspendSaved f (some edge)).map .consume ++ [.exit]

/-- The function is resumed. -/
def resumeEvents (edge : Suspend) : List Event := suspendEvents f edge ++ (suspendSaved f (some edge)).map .restore

/-- A value that comes back right away, or suspended and resumed. -/
def Resumes (onSuspend : Option Suspend) (tr : List Event) : Prop :=
  tr = [] ∨ ∃ edge ∈ onSuspend, tr = resumeEvents f edge

def termEvents (term : Term) : List Event := (termConsumes f term).map .consume

def TermPath (term : Term) (tr : List Event) (flow : Flow) : Prop :=
  match term with
  | .yield _ => tr = termEvents f term ∧ flow = .yield
  | .break label _ => tr = termEvents f term ∧ flow = .break label
  | .recur _ => tr = termEvents f term ∧ flow = .recur
  | .return _ | .fail _ | .unwind => tr = termEvents f term ++ [.exit] ∧ flow = .exit
  | .unreachable => False

/-- After a compound statement, a `yield` goes on with its destination defined. -/
def joinEvents (dst : Option VarId) : Flow → List Event
  | .yield => defineEvents f dst.toList true
  | _ => []

def joinFlow : Flow → Flow
  | .yield => .next
  | flow => flow

/-- A `break` out of the block yields its value. -/
def blockFlow (label : LabelId) (flow : Flow) : Flow := if flow = .break label then .yield else flow

/-- Any number of iterations. -/
inductive LoopPath (vars : List VarId) (body : List Event → Flow → Prop) : List Event → Flow → Prop where
  | leave {tr : List Event} {flow : Flow} (hbody : body tr flow) (hflow : flow ≠ .recur) :
      LoopPath vars body (defineEvents f vars true ++ tr) flow
  | again {tr tr' : List Event} {flow : Flow} (hbody : body tr .recur) (hloop : LoopPath vars body tr' flow) :
      LoopPath vars body (defineEvents f vars true ++ tr ++ tr') flow

mutual

def SeqPath : Seq → List Event → Flow → Prop
  | .mk stmts term, tr, flow => StmtsPath term stmts tr flow

def StmtsPath (term : Term) : List Stmt → List Event → Flow → Prop
  | [], tr, flow => tr = [] ∧ flow = .cut ∨ TermPath f term tr flow
  | s :: stmts, tr, flow =>
      tr = [] ∧ flow = .cut ∨ StmtPath s tr flow ∧ flow ≠ .next ∨
        ∃ a b, StmtPath s a .next ∧ StmtsPath term stmts b flow ∧ tr = a ++ b

def StmtPath : Stmt → List Event → Flow → Prop
  | .let dst value onFail onDefect onSuspend, tr, flow =>
      (∃ edge ∈ onSuspend, tr = valueEvents m f value ++ suspendEvents f edge ∧ flow = .exit) ∨
        ∃ s, Resumes f onSuspend s ∧
          (tr = valueEvents m f value ++ (s ++ defineEvents f dst.toList !isView f value) ∧ flow = .next ∨
            ∃ a, (FailPath onFail a flow ∨ OptionPath onDefect a flow) ∧ tr = valueEvents m f value ++ (s ++ a))
  | .dup v, tr, flow => tr = [.dup v] ∧ flow = .next
  | .drop v, tr, flow => tr = [.consume v] ∧ flow = .next
  | .if dst cond then_ else_, tr, flow =>
      ∃ a g, (SeqPath then_ a g ∨ SeqPath else_ a g) ∧
        tr = (operandVars f [cond]).map .borrow ++ (a ++ joinEvents f dst g) ∧ flow = joinFlow g
  | .switch dst on cases default, tr, flow =>
      ∃ a g, (CasesPath cases a g ∨ OptionPath default a g) ∧
        tr = ([on.var].filter (counted f)).map .borrow ++ (a ++ joinEvents f dst g) ∧ flow = joinFlow g
  | .block dst label body, tr, flow =>
      ∃ a g, SeqPath body a g ∧ tr = a ++ joinEvents f dst (blockFlow label g) ∧ flow = joinFlow (blockFlow label g)
  | .loop dst vars inits body, tr, flow =>
      ∃ a g, LoopPath f vars (SeqPath body) a g ∧
        tr = (operandVars f inits).map .consume ++ (a ++ joinEvents f dst g) ∧ flow = joinFlow g

/-- The failure landing, whose error is an owned variable. -/
def FailPath : Option (VarId × Seq) → List Event → Flow → Prop
  | none, _, _ => False
  | some (e, body), tr, flow => ∃ a, SeqPath body a flow ∧ tr = defineEvents f [e] true ++ a

def OptionPath : Option Seq → List Event → Flow → Prop
  | none, _, _ => False
  | some body, tr, flow => SeqPath body tr flow

def CasesPath : List (CaseKey × Seq) → List Event → Flow → Prop
  | [], _, _ => False
  | (_, body) :: cases, tr, flow => SeqPath body tr flow ∨ CasesPath cases tr flow

end

/-- The parameters are owned, but for the environment, which the caller holds. -/
def paramEvents : List Event := (f.params.filter (counted f)).map fun p => .define p !borrowedParam f p

def Path (body : Seq) (tr : List Event) : Prop := ∃ a flow, SeqPath m f body a flow ∧ tr = paramEvents f ++ a

end

/-! ## What is asked of a path -/

/-- The references the variable came to own. -/
def made (v : VarId) (tr : List Event) : Nat :=
  tr.count (.define v true) + tr.count (.dup v) + tr.count (.restore v)

def taken (v : VarId) (tr : List Event) : Nat := tr.count (.consume v)

/-- The event is right after those before it: what is consumed was owned and not consumed yet, what is borrowed is
held (the environment by the caller), and neither an exit nor another value of the variable loses a reference. -/
def Event.Right (f : Function) (before : List Event) : Event → Prop
  | .define v _ => taken v before = made v before
  | .dup _ | .restore _ => True
  | .consume v => taken v before < made v before
  | .borrow v => borrowedParam f v = true ∨ taken v before < made v before
  | .exit => ∀ v, taken v before = made v before

/-! ## What the verifier accepts -/

section
variable (f : Function)

mutual

/-- The checks of scopes and jumps where references are counted. -/
def CountedSeq (Γ : Scope) : Seq → Prop
  | .mk stmts term => CountedStmts Γ term stmts

def CountedStmts (Γ : Scope) (term : Term) : List Stmt → Prop
  | [] => ScopedTerm Γ term
  | s :: stmts => CountedStmt Γ s ∧ Γ.fresh s.dst.toList ∧ CountedStmts (Γ.define s.dst) term stmts

def CountedStmt (Γ : Scope) : Stmt → Prop
  | .let _ value onFail onDefect onSuspend =>
      Γ.has value.vars ∧ CountedFail Γ onFail ∧ CountedOption Γ.landing onDefect ∧ ∀ edge ∈ onSuspend, Γ.has edge.saved
  | .dup v | .drop v => Γ.has [v] ∧ counted f v = true
  | .if _ cond then_ else_ =>
      Γ.has cond.var?.toList ∧ (∀ v ∈ cond.var?, counted f v = false) ∧ CountedSeq Γ.arm then_ ∧ CountedSeq Γ.arm else_
  | .switch _ on cases default => Γ.has [on.var] ∧ CountedCases Γ.arm cases ∧ CountedOption Γ.arm default
  | .loop _ vars inits body =>
      Γ.has (inits.filterMap Operand.var?) ∧ Γ.fresh vars ∧ CountedSeq (Γ.loop vars) body
  | .block _ label body => label ∉ Γ.labels ∧ CountedSeq (Γ.block label) body

def CountedFail (Γ : Scope) : Option (VarId × Seq) → Prop
  | none => True
  | some (e, body) => counted f e = true ∧ Γ.fresh [e] ∧ CountedSeq (Γ.landing.define (some e)) body

def CountedOption (Γ : Scope) : Option Seq → Prop
  | none => True
  | some body => CountedSeq Γ body

def CountedCases (Γ : Scope) : List (CaseKey × Seq) → Prop
  | [] => True
  | (_, body) :: cases => CountedSeq Γ body ∧ CountedCases Γ cases

end

end
end Emela.Lir
