import Emela.Lir.Ir

/-!
# Reference counting

`heap/rc.rs`: the pass that inserts `dup` and `drop`. The source first records what is live at the
start of each sequence and at each loop head, and then rewrites with these tables. Here the rewrite
carries the context of the analysis (`RcCtx.live`) and asks the analysis again.
-/

namespace Emela.Lir

/-- Where control leaves a sequence: the context of the analysis, and the owned variables wanted after
the statement a `yield` goes to, at the loop head and after each enclosing block. -/
structure RcCtx where
  live : LiveCtx
  yieldTarget : Finset VarId
  loopTarget : Option (Finset VarId)
  labelTarget : LabelId → Finset VarId

/-- The context of the liveness used in the rewrite: a target serves as the liveness after a `yield`
and at the loop head. -/
def RcCtx.targets (ctx : RcCtx) : LiveCtx where
  yieldLive := ctx.yieldTarget
  head := ctx.loopTarget
  afterLabel := ctx.live.afterLabel

/-- Drops in the order of the variables. -/
def drops (dead : Finset VarId) : List Stmt := (dead.sort (· ≤ ·)).map .drop

/-- The `dup`s for consuming `consumed` (one reference per occurrence) when the variables in `keep`
must stay owned. -/
def consumeDups (owned keep : Finset VarId) (consumed : List VarId) : List VarId :=
  consumed.eraseDups.flatMap fun v =>
    List.replicate (if v ∈ owned ∧ v ∉ keep then consumed.count v - 1 else consumed.count v) v

/-- The owned variables after consuming `consumed`. -/
def consumeOwned (owned keep : Finset VarId) (consumed : List VarId) : Finset VarId :=
  owned \ (consumed.toFinset \ keep)

/-- The owned variables wanted after a compound statement: those owned now that are live after it. -/
def target (owned after : Finset VarId) (dst : Option VarId) : Finset VarId := owned ∩ eraseDst after dst

section
variable (m : Module) (f : Function)

def countedDst (dst : Option VarId) : Option VarId := dst.filter (counted f)

/-- The live variables after each statement in the rewrite, for the statements `stmts` that are left. -/
def afters (ctx : RcCtx) (term : Term) : List Stmt → Finset VarId
  | [] => liveTerm (.counted m f) ctx.targets term
  | s :: stmts =>
      liveBefore (.counted m f) ctx.live s
        (liveStmts (.counted m f) ctx.live stmts (liveTerm (.counted m f) ctx.live term))
        (afters ctx term stmts)

/-- What a terminator wants owned where it goes; nothing is released before `unreachable`. -/
def termTarget (ctx : RcCtx) : Term → Option (Finset VarId)
  | .yield _ => some ctx.yieldTarget
  | .break label _ => some (ctx.labelTarget label)
  | .recur _ => some (ctx.loopTarget.getD ∅)
  | .return _ | .fail _ | .unwind => some ∅
  | .unreachable => none

/-- The statements before the terminator. -/
def rcTerm (ctx : RcCtx) (owned : Finset VarId) (term : Term) : List Stmt :=
  match termTarget ctx term with
  | none => []
  | some target =>
      (consumeDups owned target (termConsumes f term)).map .dup ++
        drops (consumeOwned owned target (termConsumes f term) \ target)

mutual

/-- Rewrites the sequence entered with the owned variables `owned`. -/
def rcSeq (ctx : RcCtx) (owned : Finset VarId) : Seq → Seq
  | .mk stmts term =>
      let liveIn := liveStmts (.counted m f) ctx.live stmts (liveTerm (.counted m f) ctx.live term)
      let (out, left) := rcStmts ctx term (owned ∩ liveIn) stmts
      .mk (drops (owned \ liveIn) ++ out ++ rcTerm f ctx left term) term

/-- The rewritten statements, and the owned variables after them. -/
def rcStmts (ctx : RcCtx) (term : Term) (owned : Finset VarId) : List Stmt → List Stmt × Finset VarId
  | [] => ([], owned)
  | s :: stmts =>
      let recorded := liveStmts (.counted m f) ctx.live stmts (liveTerm (.counted m f) ctx.live term)
      let after := afters m f ctx term stmts
      let (out, owned) := rcStmt ctx owned recorded after s
      let (rest, left) := rcStmts ctx term (owned ∩ after) stmts
      (out ++ drops (owned \ after) ++ rest, left)

/-- The rewritten statement, and the owned variables after it before those not live are dropped. -/
def rcStmt (ctx : RcCtx) (owned recorded after : Finset VarId) : Stmt → List Stmt × Finset VarId
  | .let dst value onFail onDefect onSuspend =>
      -- live after the uses, on any way on
      let liveOn := eraseDst after (countedDst f dst) ∪ liveFail (.counted m f) ctx.live onFail ∪
        liveOption (.counted m f) ctx.live onDefect
      let keep := liveOn ∪ (borrowed m f value).toFinset
      let dups := (consumeDups owned keep (consumed m f value)).map .dup
      let owned := consumeOwned owned keep (consumed m f value)
      let landing := { ctx with yieldTarget := ∅ }
      let stmt := .let dst value (rcFail landing owned onFail) (rcOption landing owned onDefect) onSuspend
      match countedDst f dst with
      | none => (dups ++ [stmt], owned)
      | some d =>
          if !isView f value then (dups ++ [stmt], insert d owned)
          else if d ∈ after then (dups ++ [stmt, .dup d], insert d owned)
          else (dups ++ [stmt], owned)
  | .dup v => ([.dup v], owned)
  | .drop v => ([.drop v], owned)
  | .if dst cond then_ else_ =>
      let target := target owned after (countedDst f dst)
      let inner := { ctx with
        live := { ctx.live with yieldLive := eraseDst recorded dst }, yieldTarget := target }
      ([.if dst cond (rcSeq inner owned then_) (rcSeq inner owned else_)], target ∪ (countedDst f dst).toFinset)
  | .switch dst on cases default =>
      let target := target owned after (countedDst f dst)
      let inner := { ctx with
        live := { ctx.live with yieldLive := eraseDst recorded dst }, yieldTarget := target }
      ([.switch dst on (rcCases inner owned cases) (rcOption inner owned default)],
        target ∪ (countedDst f dst).toFinset)
  | .block dst label body =>
      let target := target owned after (countedDst f dst)
      let inner := { ctx with
        live := { ctx.live with
          yieldLive := eraseDst recorded dst
          afterLabel := Function.update ctx.live.afterLabel label (eraseDst recorded dst) }
        yieldTarget := target
        labelTarget := Function.update ctx.labelTarget label target }
      ([.block dst label (rcSeq inner owned body)], target ∪ (countedDst f dst).toFinset)
  | .loop dst vars inits body =>
      let head := liveHead (.counted m f) ctx.live (eraseDst recorded dst) vars body
      let dups := (consumeDups owned head (operandVars f inits)).map .dup
      let left := consumeOwned owned head (operandVars f inits)
      let atHead := left ∩ head
      let target := target atHead after (countedDst f dst)
      let inner := { ctx with
        live := { ctx.live with yieldLive := eraseDst recorded dst, head := some head }
        yieldTarget := target
        loopTarget := some atHead }
      (dups ++ drops (left \ head) ++
        [.loop dst vars inits (rcSeq inner (atHead ∪ (vars.filter (counted f)).toFinset) body)],
        target ∪ (countedDst f dst).toFinset)

/-- The failure landing, entered owning its error. -/
def rcFail (ctx : RcCtx) (owned : Finset VarId) : Option (VarId × Seq) → Option (VarId × Seq)
  | none => none
  | some (e, body) => some (e, rcSeq ctx (insert e owned) body)

def rcOption (ctx : RcCtx) (owned : Finset VarId) : Option Seq → Option Seq
  | none => none
  | some body => some (rcSeq ctx owned body)

def rcCases (ctx : RcCtx) (owned : Finset VarId) : List (CaseKey × Seq) → List (CaseKey × Seq)
  | [] => []
  | (key, body) :: cases => (key, rcSeq ctx owned body) :: rcCases ctx owned cases

end

mutual

/-- The suspension edges of the sequence. -/
def edgesSeq : Seq → List Suspend
  | .mk stmts _ => edgesStmts stmts

def edgesStmts : List Stmt → List Suspend
  | [] => []
  | s :: stmts => edgesStmt s ++ edgesStmts stmts

def edgesStmt : Stmt → List Suspend
  | .let _ _ onFail onDefect onSuspend => onSuspend.toList ++ edgesFail onFail ++ edgesOption onDefect
  | .if _ _ then_ else_ => edgesSeq then_ ++ edgesSeq else_
  | .switch _ _ cases default => edgesCases cases ++ edgesOption default
  | .loop _ _ _ body | .block _ _ body => edgesSeq body
  | .dup _ | .drop _ => []

def edgesFail : Option (VarId × Seq) → List Suspend
  | none => []
  | some (_, body) => edgesSeq body

def edgesOption : Option Seq → List Suspend
  | none => []
  | some body => edgesSeq body

def edgesCases : List (CaseKey × Seq) → List Suspend
  | [] => []
  | (_, body) :: cases => edgesSeq body ++ edgesCases cases

end

def RcCtx.start : RcCtx where
  live := .start
  yieldTarget := ∅
  loopTarget := none
  labelTarget _ := ∅

/-- The environment, if the function owns it: when it is needed and a frame may keep it. -/
def ownedEnv (body : Seq) : Option VarId :=
  f.params.head?.filter fun p =>
    borrowedParam f p && p ∈ liveSeq (.counted m f) .start body &&
      (edgesSeq body).any fun e => e.saved.contains p

/-- The variables a function owns at its start. -/
def ownedParams (body : Seq) : Finset VarId :=
  (f.params.filter fun p => counted f p && !borrowedParam f p).toFinset ∪ (ownedEnv m f body).toFinset

def consStmts (stmts : List Stmt) : Seq → Seq
  | .mk rest term => .mk (stmts ++ rest) term

/-- `Counter::run`. -/
def rcBody (body : Seq) : Seq :=
  consStmts ((ownedEnv m f body).toList.map .dup) (rcSeq m f .start (ownedParams m f body) body)

end

def insertRc (m : Module) : Module where
  functions := m.functions.map fun f => { f with body := f.body.map (rcBody m f) }

/-! ## Without the counting -/

mutual

/-- The sequence without its `dup` and `drop` statements. -/
def eraseSeq : Seq → Seq
  | .mk stmts term => .mk (eraseStmts stmts) term

def eraseStmts : List Stmt → List Stmt
  | [] => []
  | s :: stmts => (eraseStmt s).toList ++ eraseStmts stmts

def eraseStmt : Stmt → Option Stmt
  | .let dst value onFail onDefect onSuspend =>
      some (.let dst value (eraseFail onFail) (eraseOption onDefect) onSuspend)
  | .if dst cond then_ else_ => some (.if dst cond (eraseSeq then_) (eraseSeq else_))
  | .switch dst on cases default => some (.switch dst on (eraseCases cases) (eraseOption default))
  | .loop dst vars inits body => some (.loop dst vars inits (eraseSeq body))
  | .block dst label body => some (.block dst label (eraseSeq body))
  | .dup _ | .drop _ => none

def eraseFail : Option (VarId × Seq) → Option (VarId × Seq)
  | none => none
  | some (e, body) => some (e, eraseSeq body)

def eraseOption : Option Seq → Option Seq
  | none => none
  | some body => some (eraseSeq body)

def eraseCases : List (CaseKey × Seq) → List (CaseKey × Seq)
  | [] => []
  | (key, body) :: cases => (key, eraseSeq body) :: eraseCases cases

end

def eraseRc (m : Module) : Module where
  functions := m.functions.map fun f => { f with body := f.body.map eraseSeq }

end Emela.Lir
