import Emela.Match.Core

/-!
# The code of a decision tree

The statements of the Flow IR that the lowering of a `match` emits, and what running them does. What
`Lower::expr` emits for a guard or for the body of an arm is kept as one statement or terminator, with
the locals that the row binds for it; running it is given from outside (`Exprs`), and may do anything
to a world `W`.
-/

namespace Emela.Match

open Lir (Const CtorRef VarId LabelId SwitchOn CaseKey Operand)

/-- The locals bound for a guard or a body: to a variable, or to nothing without representation. -/
abbrev Binds := List (Local × Option VarId)

section
variable (Expr : Type)

inductive Term where
  | break (label : LabelId)
  /-- The body of the arm, and the `break` out of the match with its value. -/
  | body (arm : Nat) (body : Expr) (binds : Binds)
  /-- A guard that does not come back. -/
  | guard (guard : Expr) (binds : Binds)
  | defect (message : String)
  | yield
  | unreachable

mutual

inductive Stmt where
  | let (dst : VarId) (value : Lir.Value)
  | guard (dst : VarId) (guard : Expr) (binds : Binds)
  | if (cond : VarId) (then_ else_ : Seq)
  | switch (on : SwitchOn) (cases : List (CaseKey × Seq)) (default : Option Seq)
  | block (label : LabelId) (body : Seq)

inductive Seq where
  | mk (stmts : List Stmt) (term : Term Expr)

end

end

/-! ## Running -/

/-- The values of the locals a row binds (`none` without representation). -/
abbrev Env := Local → Option (Option Val)

/-- What guards and bodies do: a guard gives a Boolean or leaves with an outcome `O`, the body of an arm
(given by its index) leaves. -/
structure Exprs (Expr W O : Type) where
  guard : Expr → Env → W → (O ⊕ Bool) × W
  body : Nat → Expr → Env → W → O × W

abbrev Store := VarId → Option Val

inductive Res (O : Type) where
  /-- On to the next statement. -/
  | next (ρ : Store)
  | break (label : LabelId)
  | done (outcome : O)
  | defect (message : String)
  | stuck

/-- The value a `let` reads. -/
def readValue (ρ : Store) : Lir.Value → Option Val
  | .const c => some (.const c)
  | .tupleGet base i =>
      match ρ base with
      | some (.tuple vs) => vs[i]?
      | _ => none
  | .field base ctor i =>
      match ρ base with
      | some (.ctor d vs) => if d.variant = ctor.variant then vs[i]? else none
      | _ => none
  | .listIsEmpty v =>
      match ρ v with
      | some (.list vs) => some (.const (.bool vs.isEmpty))
      | _ => none
  | .listHead v =>
      match ρ v with
      | some (.list (x :: _)) => some x
      | _ => none
  | .listTail v =>
      match ρ v with
      | some (.list (_ :: xs)) => some (.list xs)
      | _ => none
  | .prim .eq _ [.var v, .const c] =>
      match ρ v with
      | some (.const d) => some (.const (.bool (constEq d c)))
      | _ => none
  | _ => none

/-- The locals with their values, a later one in place of an earlier one. -/
def bindEnv (bs : List (Local × Option Val)) : Env := fun l => (bs.reverse.find? (·.1 == l)).map Prod.snd

/-- The values of what a row binds. -/
def Binds.vals (ρ : Store) (bs : Binds) : List (Local × Option Val) := bs.map fun (l, x) => (l, x.bind ρ)

def switchMatches (v : Val) : CaseKey → Bool
  | .variant k =>
      match v with
      | .ctor c _ => c.variant == k
      | _ => false
  | .lit c =>
      match v with
      | .const d => constEq d c
      | _ => false

/-- The variables of a nested sequence end with it. -/
def leave {W O : Type} (ρ : Store) : Res O × W → Res O × W
  | (.next _, w) => (.next ρ, w)
  | r => r

section
variable {Expr W O : Type} (sem : Exprs Expr W O)

def runTerm (ρ : Store) (w : W) : Term Expr → Res O × W
  | .break label => (.break label, w)
  | .body arm e binds =>
      let (o, w) := sem.body arm e (bindEnv (binds.vals ρ)) w
      (.done o, w)
  | .guard g binds =>
      match sem.guard g (bindEnv (binds.vals ρ)) w with
      | (.inl o, w) => (.done o, w)
      | (.inr _, w) => (.stuck, w)
  | .defect message => (.defect message, w)
  | .yield => (.next ρ, w)
  | .unreachable => (.stuck, w)

mutual

def runSeq (ρ : Store) (w : W) : Seq Expr → Res O × W
  | .mk stmts term =>
      match runStmts ρ w stmts with
      | (.next ρ, w) => runTerm sem ρ w term
      | r => r

def runStmts (ρ : Store) (w : W) : List (Stmt Expr) → Res O × W
  | [] => (.next ρ, w)
  | s :: stmts =>
      match runStmt ρ w s with
      | (.next ρ, w) => runStmts ρ w stmts
      | r => r

def runStmt (ρ : Store) (w : W) : Stmt Expr → Res O × W
  | .let dst value =>
      match readValue ρ value with
      | some v => (.next (Function.update ρ dst (some v)), w)
      | none => (.stuck, w)
  | .guard dst g binds =>
      match sem.guard g (bindEnv (binds.vals ρ)) w with
      | (.inl o, w) => (.done o, w)
      | (.inr b, w) => (.next (Function.update ρ dst (some (.const (.bool b)))), w)
  | .if cond then_ else_ =>
      match ρ cond with
      | some (.const (.bool true)) => leave ρ (runSeq ρ w then_)
      | some (.const (.bool false)) => leave ρ (runSeq ρ w else_)
      | _ => (.stuck, w)
  | .switch on cases default =>
      match ρ on.var with
      | some v => leave ρ ((runCases ρ w v cases).getD (runDefault ρ w default))
      | none => (.stuck, w)
  | .block label body =>
      match runSeq ρ w body with
      | (.break l, w) => if l = label then (.next ρ, w) else (.break l, w)
      | r => leave ρ r

/-- The first case for the value. -/
def runCases (ρ : Store) (w : W) (v : Val) : List (CaseKey × Seq Expr) → Option (Res O × W)
  | [] => none
  | (key, body) :: cases => if switchMatches v key then some (runSeq ρ w body) else runCases ρ w v cases

def runDefault (ρ : Store) (w : W) : Option (Seq Expr) → Res O × W
  | none => (.stuck, w)
  | some body => runSeq ρ w body

end

end

/-! ## First match -/

structure Arm (Expr : Type) where
  pat : Pat
  guard : Option Expr
  body : Expr

/-- The value as a local holds it: `none` without representation. -/
def Val.held : Val → Option Val
  | .const .unit => none
  | v => some v

def heldAll (bs : List (Local × Val)) : List (Local × Option Val) := bs.map fun (l, v) => (l, v.held)

section
variable {Expr W O : Type} (sem : Exprs Expr W O)

/-- The body of arm `i`, with the locals the pattern binds. -/
def runBody (i : Nat) (a : Arm Expr) (env : Env) (w : W) : Res O × W :=
  let (o, w) := sem.body i a.body env w
  (.done o, w)

/-- An arm whose pattern matches: its guard decides whether it runs or the others are tried. -/
def runArm (i : Nat) (a : Arm Expr) (env : Env) (others : W → Res O × W) (w : W) : Res O × W :=
  match a.guard with
  | none => runBody sem i a env w
  | some g =>
      match sem.guard g env w with
      | (.inl o, w) => (.done o, w)
      | (.inr true, w) => runBody sem i a env w
      | (.inr false, w) => others w

/-- The first-match semantics: the arms (with their indices) are tried from top to bottom. -/
def firstMatch (v : Val) : List (Arm Expr × Nat) → W → Res O × W
  | [], w => (.defect "unreachable: no match arm matched", w)
  | (a, i) :: arms, w =>
      match a.pat.bindings v with
      | none => firstMatch v arms w
      | some bs => runArm sem i a (bindEnv (heldAll bs)) (firstMatch v arms) w

end

/-! ## Bodies -/

section
variable {Expr : Type}

def termBodies : Term Expr → List Nat
  | .body arm _ _ => [arm]
  | _ => []

mutual

/-- The arms whose bodies are in the code. -/
def seqBodies : Seq Expr → List Nat
  | .mk stmts term => stmtsBodies stmts ++ termBodies term

def stmtsBodies : List (Stmt Expr) → List Nat
  | [] => []
  | s :: stmts => stmtBodies s ++ stmtsBodies stmts

def stmtBodies : Stmt Expr → List Nat
  | .let .. | .guard .. => []
  | .if _ then_ else_ => seqBodies then_ ++ seqBodies else_
  | .switch _ cases default => casesBodies cases ++ defaultBodies default
  | .block _ body => seqBodies body

def casesBodies : List (CaseKey × Seq Expr) → List Nat
  | [] => []
  | (_, body) :: cases => seqBodies body ++ casesBodies cases

def defaultBodies : Option (Seq Expr) → List Nat
  | none => []
  | some body => seqBodies body

end

end

end Emela.Match
