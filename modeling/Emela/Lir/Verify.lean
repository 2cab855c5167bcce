import Emela.Lir.Ir

/-!
# What the verifier accepts

The checks of `verify.rs` on a function of the Heap IR with explicit defects that bear on its
references: variables are defined once and used in their scope, `break` goes to an enclosing block,
`recur` to an enclosing loop, bodies and landings do not `yield`, and suspension edges save what is
needed after them. A function the verifier accepts meets them; its checks of types, arities and stages
only refuse more.
-/

namespace Emela.Lir

/-- The variables the value uses, in operand order. -/
def Value.vars : Value → List VarId
  | .const _ => []
  | .prim _ _ args | .builtin _ args | .make _ args | .tuple args | .fiber _ args | .runtime _ args =>
      args.filterMap Operand.var?
  | .call (.direct _) args _ => args.filterMap Operand.var?
  | .call (.indirect v) args _ | .call (.op v _ _) args _ => v :: args.filterMap Operand.var?
  | .field v _ _ | .tag v | .tupleGet v _ | .listIsEmpty v | .listHead v | .listTail v | .evLookup v _
  | .isError v _ | .asError v _ | .coerce v | .envGet v _ => [v]
  | .list elems tail => elems.filterMap Operand.var? ++ tail.toList.filterMap Operand.var?
  | .makeClosure _ captures => captures
  | .evExtend base bindings => base.toList ++ bindings.map Prod.snd
  | .handler _ _ ops => ops

/-- The uses of all variables (`heap/live.rs`). -/
def Uses.all : Uses where
  value := Value.vars
  operands os := os.filterMap Operand.var?
  cond o := o.var?.toList
  on v := [v]
  saved _ := []

/-! ## Scopes -/

/-- What encloses the code being checked: the variables in scope, the labels of the enclosing blocks,
whether there is an enclosing loop, and whether a `yield` goes to a statement. -/
structure Scope where
  vars : Finset VarId
  labels : Finset LabelId
  inLoop : Bool
  yields : Bool

def Scope.define (Γ : Scope) (dst : Option VarId) : Scope := { Γ with vars := Γ.vars ∪ dst.toFinset }

/-- The scope of a landing, which does not yield. -/
def Scope.landing (Γ : Scope) : Scope := { Γ with yields := false }

/-- The scope of an arm of a statement. -/
def Scope.arm (Γ : Scope) : Scope := { Γ with yields := true }

def Scope.block (Γ : Scope) (label : LabelId) : Scope :=
  { Γ with labels := insert label Γ.labels, yields := true }

def Scope.loop (Γ : Scope) (vars : List VarId) : Scope :=
  { Γ with vars := Γ.vars ∪ vars.toFinset, inLoop := true, yields := true }

def Scope.has (Γ : Scope) (vs : List VarId) : Prop := ∀ v ∈ vs, v ∈ Γ.vars

def Scope.fresh (Γ : Scope) (vs : List VarId) : Prop := vs.Nodup ∧ ∀ v ∈ vs, v ∉ Γ.vars

/-- `Checker::term`. -/
def ScopedTerm (Γ : Scope) (term : Term) : Prop :=
  Γ.has ((termOperands term).filterMap Operand.var?) ∧
    match term with
    | .yield _ => Γ.yields = true
    | .break label _ => label ∈ Γ.labels
    | .recur _ => Γ.inLoop = true
    | _ => True

section
variable (f : Function)

mutual

def ScopedSeq (Γ : Scope) : Seq → Prop
  | .mk stmts term => ScopedStmts Γ term stmts

def ScopedStmts (Γ : Scope) (term : Term) : List Stmt → Prop
  | [] => ScopedTerm Γ term
  | s :: stmts =>
      ScopedStmt Γ s ∧ Γ.fresh s.dst.toList ∧ ScopedStmts (Γ.define s.dst) term stmts

def ScopedStmt (Γ : Scope) : Stmt → Prop
  | .let _ value onFail onDefect onSuspend =>
      Γ.has value.vars ∧ ScopedFail Γ onFail ∧ ScopedOption Γ.landing onDefect ∧
        ∀ edge ∈ onSuspend, Γ.has edge.saved
  | .dup _ | .drop _ => False
  | .if _ cond then_ else_ =>
      Γ.has cond.var?.toList ∧ (∀ v ∈ cond.var?, counted f v = false) ∧
        ScopedSeq Γ.arm then_ ∧ ScopedSeq Γ.arm else_
  | .switch _ on cases default =>
      Γ.has [on.var] ∧ ScopedCases Γ.arm cases ∧ ScopedOption Γ.arm default
  | .loop _ vars inits body =>
      Γ.has (inits.filterMap Operand.var?) ∧ Γ.fresh vars ∧ ScopedSeq (Γ.loop vars) body
  | .block _ label body => label ∉ Γ.labels ∧ ScopedSeq (Γ.block label) body

def ScopedFail (Γ : Scope) : Option (VarId × Seq) → Prop
  | none => True
  | some (e, body) =>
      counted f e = true ∧ Γ.fresh [e] ∧ ScopedSeq (Γ.landing.define (some e)) body

def ScopedOption (Γ : Scope) : Option Seq → Prop
  | none => True
  | some body => ScopedSeq Γ body

def ScopedCases (Γ : Scope) : List (CaseKey × Seq) → Prop
  | [] => True
  | (_, body) :: cases => ScopedSeq Γ body ∧ ScopedCases Γ cases

end

end

/-! ## Suspension edges -/

section
variable (U : Uses) (P : Finset VarId → Value → Suspend → Prop)

mutual

/-- Every suspension edge of the sequence meets `P` with the variables live on after its value. -/
def EdgesSeq (lc : LiveCtx) : Seq → Prop
  | .mk stmts term => EdgesStmts lc term stmts

def EdgesStmts (lc : LiveCtx) (term : Term) : List Stmt → Prop
  | [] => True
  | s :: stmts =>
      EdgesStmt lc (liveStmts U lc stmts (liveTerm U lc term)) s ∧ EdgesStmts lc term stmts

def EdgesStmt (lc : LiveCtx) (after : Finset VarId) : Stmt → Prop
  | .let dst value onFail onDefect onSuspend =>
      (∀ edge ∈ onSuspend,
        P (eraseDst after dst ∪ liveFail U lc onFail ∪ liveOption U lc onDefect) value edge) ∧
        EdgesFail lc onFail ∧ EdgesOption lc onDefect
  | .dup _ | .drop _ => True
  | .if dst _ then_ else_ =>
      EdgesSeq { lc with yieldLive := eraseDst after dst } then_ ∧
        EdgesSeq { lc with yieldLive := eraseDst after dst } else_
  | .switch dst _ cases default =>
      EdgesCases { lc with yieldLive := eraseDst after dst } cases ∧
        EdgesOption { lc with yieldLive := eraseDst after dst } default
  | .block dst label body =>
      EdgesSeq { lc with
        yieldLive := eraseDst after dst
        afterLabel := Function.update lc.afterLabel label (eraseDst after dst) } body
  | .loop dst vars _ body =>
      EdgesSeq { lc with
        yieldLive := eraseDst after dst
        head := some (liveHead U lc (eraseDst after dst) vars body) } body

def EdgesFail (lc : LiveCtx) : Option (VarId × Seq) → Prop
  | none => True
  | some (_, body) => EdgesSeq lc body

def EdgesOption (lc : LiveCtx) : Option Seq → Prop
  | none => True
  | some body => EdgesSeq lc body

def EdgesCases (lc : LiveCtx) : List (CaseKey × Seq) → Prop
  | [] => True
  | (_, body) :: cases => EdgesSeq lc body ∧ EdgesCases lc cases

end

end

section
variable (m : Module) (f : Function)

/-- The variables a suspension point saves: `saved_vars`. -/
def savedVars (liveOn : Finset VarId) (value : Value) : Finset VarId :=
  liveOn ∪ (borrowed m f value).toFinset

/-- The edge saves every variable needed after its value, as the verifier checks. -/
def SavesNeeded (liveOn : Finset VarId) (value : Value) (edge : Suspend) : Prop :=
  savedVars m f liveOn value ⊆ edge.saved.toFinset

/-- The edge saves the variables needed after its value and no others, each once, as the pass that
makes the state machines does. -/
def SavesExactly (liveOn : Finset VarId) (value : Value) (edge : Suspend) : Prop :=
  edge.saved.Nodup ∧ edge.saved.toFinset = savedVars m f liveOn value

/-- The checks on a function with the given body. -/
structure Verified (body : Seq) : Prop where
  params : f.params.Nodup
  inScope : ScopedSeq f ⟨f.params.toFinset, ∅, false, false⟩ body
  saved : EdgesSeq .all (SavesNeeded m f) .start body

end

/-- The verifier accepts the module. -/
def Accepted (m : Module) : Prop := ∀ f ∈ m.functions, ∀ body ∈ f.body, Verified m f body

/-- Its suspension edges are those the pass that makes the state machines makes. -/
def Suspended (m : Module) : Prop :=
  ∀ f ∈ m.functions, ∀ body ∈ f.body, EdgesSeq .all (SavesExactly m f) .start body

end Emela.Lir
