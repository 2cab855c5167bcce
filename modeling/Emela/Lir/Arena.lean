import Emela.Lir.Implicit

/-!
# The arenas

`ir.rs` as the passes that copy code and find what is live see it: a function keeps its variables,
statements, sequences and labels in arenas and refers to them by ID. All of the Flow IR is here, nested
closures and `protect` included. The landing of a failing call or concurrency operation stands at the
`let`, as in the Heap IR.
-/

namespace Emela.Lir.Arena

abbrev SeqId := Nat
abbrev StmtId := Nat
abbrev TypeId := Nat

/-! ## The data -/

structure VarData extends Lir.VarData where
  ty : TypeId

structure LabelData where
  hint : String

/-- Where a failing call goes. -/
inductive OnFail where
  | break (label : LabelId)
  | propagate
  | handle (error : VarId) (body : SeqId)

/-- The right-hand side of a `let`: a value of the Heap IR, or one of the Flow IR alone. -/
inductive Value where
  | heap (value : Lir.Value)
  | fnRef (f : FnId)
  | closure (params captures : List VarId) (body : SeqId) (suspends : Bool)

inductive Term where
  | yield (value : Option Operand)
  | return (value : Option Operand)
  | fail (error : Operand)
  | break (label : LabelId) (value : Option Operand)
  | recur (args : List Operand)
  | defect (msg : Operand) (location : Option String)
  | unwind
  | unreachable

inductive Stmt where
  | let (dst : Option VarId) (value : Value) (onFail : Option OnFail) (onDefect : Option SeqId)
      (onSuspend : Option Suspend)
  | if (dst : Option VarId) (cond : Operand) (then_ else_ : SeqId)
  | switch (dst : Option VarId) (on : SwitchOn) (cases : List (CaseKey × SeqId)) (default : Option SeqId)
  | loop (dst : Option VarId) (vars : List VarId) (inits : List Operand) (body : SeqId)
  | block (dst : Option VarId) (label : LabelId) (body : SeqId)
  | protect (dst : Option VarId) (body cleanup : SeqId)
  | dup (v : VarId)
  | drop (v : VarId)

structure Seq where
  stmts : List StmtId
  term : Term

/-- One host function of an external function. -/
structure ExternalBinding where
  target : String
  host : String

structure Function where
  name : String
  exported : Bool
  params : List VarId
  ret : TypeId
  fails : Bool
  suspends : Bool
  constant : Bool
  external : Option (List ExternalBinding)
  env : Option (List TypeId)
  defects : Bool
  body : Option SeqId
  vars : List VarData
  stmts : List Stmt
  seqs : List Seq
  labels : List LabelData

/-! ## What a statement uses, defines and encloses -/

/-- `Value::for_each_var`: a closure uses its captures. -/
def Value.uses : Value → List VarId
  | .heap v => v.vars
  | .fnRef _ => []
  | .closure _ captures _ _ => captures

def Term.operands : Term → List Operand
  | .yield v | .return v | .break _ v => v.toList
  | .fail v | .defect v _ => [v]
  | .recur args => args
  | .unwind | .unreachable => []

def Term.uses (t : Term) : List VarId := t.operands.filterMap Operand.var?

/-- The block a terminator leaves. -/
def Term.target : Term → Option LabelId
  | .break l _ => some l
  | _ => none

/-- The block a failure edge leaves. -/
def OnFail.target : OnFail → Option LabelId
  | .break l => some l
  | _ => none

/-- `Stmt::dst` -/
def Stmt.dst : Stmt → Option VarId
  | .let dst .. | .if dst .. | .switch dst .. | .loop dst .. | .block dst .. | .protect dst .. => dst
  | .dup _ | .drop _ => none

/-- The variables a statement itself reads. -/
def Stmt.reads : Stmt → List VarId
  | .let _ value _ _ _ => value.uses
  | .if _ cond _ _ => cond.var?.toList
  | .switch _ on _ _ => [on.var]
  | .loop _ _ inits _ => inits.filterMap Operand.var?
  | .dup v | .drop v => [v]
  | .block .. | .protect .. => []

/-- The variables a suspension edge saves. -/
def Stmt.saved : Stmt → List VarId
  | .let _ _ _ _ (some edge) => edge.saved
  | _ => []

/-- The block that the statement's failure edge leaves. -/
def Stmt.target : Stmt → Option LabelId
  | .let _ _ onFail _ _ => onFail.bind OnFail.target
  | _ => none

/-- How a sequence nested in a statement is run. -/
inductive Role where
  /-- Its `yield` gives the statement's value. -/
  | arm
  /-- An arm that `recur` starts again. -/
  | loop
  /-- Run instead of the rest of the sequence. -/
  | landing
  | protect
  | cleanup
  /-- The body of a closure. -/
  | closure
deriving DecidableEq

/-- A sequence nested in a statement: what it binds when it is entered, and the block it is. -/
structure Nested where
  role : Role
  binds : List VarId
  label : Option LabelId
  body : SeqId

def Value.nested : Value → List Nested
  | .closure params _ body _ => [⟨.closure, params, none, body⟩]
  | _ => []

def OnFail.nested : OnFail → List Nested
  | .handle error body => [⟨.landing, [error], none, body⟩]
  | _ => []

/-- The sequences nested in a statement, in the order in which the source writes them. -/
def Stmt.nested : Stmt → List Nested
  | .let _ value onFail onDefect _ =>
      value.nested ++ onFail.toList.flatMap OnFail.nested ++ onDefect.toList.map (⟨.landing, [], none, ·⟩)
  | .if _ _ then_ else_ => [⟨.arm, [], none, then_⟩, ⟨.arm, [], none, else_⟩]
  | .switch _ _ cases default =>
      cases.map (fun c => ⟨.arm, [], none, c.2⟩) ++ default.toList.map (⟨.arm, [], none, ·⟩)
  | .loop _ vars _ body => [⟨.loop, vars, none, body⟩]
  | .block _ label body => [⟨.arm, [], some label, body⟩]
  | .protect _ body cleanup => [⟨.protect, [], none, body⟩, ⟨.cleanup, [], none, cleanup⟩]
  | .dup _ | .drop _ => []

/-- Whether control goes straight on after the statement, without one of its sequences. -/
def Stmt.falls : Stmt → Bool
  | .let .. | .dup _ | .drop _ => true
  | _ => false

/-! ## The tree in the arenas -/

mutual

/-- A sequence read out of the arenas, with everything nested in it. -/
inductive SeqTree where
  | mk (id : SeqId) (term : Term) (stmts : List StmtTree)

inductive StmtTree where
  | mk (id : StmtId) (stmt : Stmt) (subs : List SeqTree)

end

def SeqTree.id : SeqTree → SeqId
  | .mk id _ _ => id

def SeqTree.term : SeqTree → Term
  | .mk _ term _ => term

def SeqTree.stmts : SeqTree → List StmtTree
  | .mk _ _ stmts => stmts

def StmtTree.id : StmtTree → StmtId
  | .mk id _ _ => id

def StmtTree.stmt : StmtTree → Stmt
  | .mk _ stmt _ => stmt

def StmtTree.subs : StmtTree → List SeqTree
  | .mk _ _ subs => subs

/-- What a piece of code introduces: a variable or a label it defines, or a node of its own. -/
inductive Node where
  | var (v : VarId)
  | label (l : LabelId)
  | stmt (id : StmtId)
  | seq (id : SeqId)
deriving DecidableEq

/-- What entering a nested sequence introduces. -/
def Nested.nodes (n : Nested) : List Node := n.label.toList.map .label ++ n.binds.map .var

mutual

/-- Everything the sequence introduces, in the order in which a copy makes it. -/
def SeqTree.nodes : SeqTree → List Node
  | .mk id _ stmts => stmtsNodes stmts ++ [.seq id]

def stmtsNodes : List StmtTree → List Node
  | [] => []
  | t :: ts => t.nodes ++ stmtsNodes ts

def StmtTree.nodes : StmtTree → List Node
  | .mk id stmt subs => nestedNodes stmt.nested subs ++ stmt.dst.toList.map .var ++ [.stmt id]

def nestedNodes : List Nested → List SeqTree → List Node
  | n :: ns, t :: ts => n.nodes ++ t.nodes ++ nestedNodes ns ts
  | _, _ => []

end

mutual

/-- The statements of the sequence, at any depth. -/
def SeqTree.all : SeqTree → List Stmt
  | .mk _ _ stmts => stmtsAll stmts

def stmtsAll : List StmtTree → List Stmt
  | [] => []
  | t :: ts => t.all ++ stmtsAll ts

def StmtTree.all : StmtTree → List Stmt
  | .mk _ stmt subs => stmt :: subsAll subs

def subsAll : List SeqTree → List Stmt
  | [] => []
  | t :: ts => t.all ++ subsAll ts

end

mutual

/-- The number of sequences and statements, with which a walk over the tree gets by. -/
def SeqTree.size : SeqTree → Nat
  | .mk _ _ stmts => stmtsSize stmts + 1

def stmtsSize : List StmtTree → Nat
  | [] => 0
  | t :: ts => t.size + stmtsSize ts

def StmtTree.size : StmtTree → Nat
  | .mk _ _ subs => subsSize subs + 1

def subsSize : List SeqTree → Nat
  | [] => 0
  | t :: ts => t.size + subsSize ts

end

section
variable (f : Function)

mutual

/-- The arenas hold the tree. -/
def StoresSeq : SeqTree → Prop
  | .mk id term stmts => f.seqs[id]? = some ⟨stmts.map StmtTree.id, term⟩ ∧ StoresStmts stmts

def StoresStmts : List StmtTree → Prop
  | [] => True
  | t :: ts => StoresStmt t ∧ StoresStmts ts

def StoresStmt : StmtTree → Prop
  | .mk id stmt subs =>
      f.stmts[id]? = some stmt ∧ stmt.nested.map Nested.body = subs.map SeqTree.id ∧ StoresSubs subs

def StoresSubs : List SeqTree → Prop
  | [] => True
  | t :: ts => StoresSeq t ∧ StoresSubs ts

end

/-- The node is in the arenas. -/
def Function.has : Node → Prop
  | .var v => v < f.vars.length
  | .label l => l < f.labels.length
  | .stmt id => id < f.stmts.length
  | .seq id => id < f.seqs.length

end

/-! ## Scopes -/

/-- The scope in a nested sequence. A landing cannot yield, `recur` does not cross a `protect`, nothing
leaves a cleanup but its end, and a closure is another body. -/
def enter (Γ : Scope) (n : Nested) : Scope :=
  let vars := Γ.vars ∪ n.binds.toFinset
  match n.role with
  | .arm => ⟨vars, Γ.labels ∪ n.label.toFinset, Γ.inLoop, true⟩
  | .loop => ⟨vars, Γ.labels, true, true⟩
  | .landing => ⟨vars, Γ.labels, Γ.inLoop, false⟩
  | .protect => ⟨vars, Γ.labels, false, true⟩
  | .cleanup => ⟨vars, ∅, false, true⟩
  | .closure => ⟨vars, ∅, false, false⟩

/-- `Checker::term`, as far as scopes go. -/
def ScopedTerm (Γ : Scope) (t : Term) : Prop :=
  Γ.has t.uses ∧ (∀ l ∈ t.target, l ∈ Γ.labels) ∧
    match t with
    | .yield _ => Γ.yields = true
    | .recur _ => Γ.inLoop = true
    | _ => True

mutual

/-- `Checker::seq`, as far as scopes go: every variable is used in the scope of its definition, and
`break`, failure edges and `recur` have their targets around them. -/
def ScopedSeq (Γ : Scope) : SeqTree → Prop
  | .mk _ term stmts => ScopedStmts Γ term stmts

def ScopedStmts (Γ : Scope) (term : Term) : List StmtTree → Prop
  | [] => ScopedTerm Γ term
  | t :: ts => ScopedStmt Γ t ∧ ScopedStmts (Γ.define t.stmt.dst) term ts

def ScopedStmt (Γ : Scope) : StmtTree → Prop
  | .mk _ stmt subs =>
      Γ.has stmt.reads ∧ Γ.has stmt.saved ∧ (∀ l ∈ stmt.target, l ∈ Γ.labels) ∧
        ScopedNested Γ stmt.nested subs

def ScopedNested (Γ : Scope) : List Nested → List SeqTree → Prop
  | n :: ns, t :: ts => ScopedSeq (enter Γ n) t ∧ ScopedNested Γ ns ts
  | _, _ => True

end

/-- The checks of `verify.rs` that bear on what is defined, used and shared, with the body read out of
the arenas: each variable and label is defined once and each node stands in one place, and every use is
in scope. -/
structure Verified (f : Function) (body : SeqTree) : Prop where
  entry : f.body = some body.id
  stored : StoresSeq f body
  inArena : ∀ n ∈ f.params.map Node.var ++ body.nodes, f.has n
  once : (f.params.map Node.var ++ body.nodes).Nodup
  inScope : ScopedSeq ⟨f.params.toFinset, ∅, false, false⟩ body

/-! ## Trees in the arenas

What the members of a stored list of trees have, and how large a tree can be. -/

variable {f : Function}

/-! ## Lists of trees -/

theorem storesStmts_iff {ts : List StmtTree} : StoresStmts f ts ↔ ∀ t ∈ ts, StoresStmt f t := by
  induction ts with
  | nil => simp [StoresStmts]
  | cons t ts ih => simp [StoresStmts, ih]

theorem storesSubs_iff {ts : List SeqTree} : StoresSubs f ts ↔ ∀ t ∈ ts, StoresSeq f t := by
  induction ts with
  | nil => simp [StoresSubs]
  | cons t ts ih => simp [StoresSubs, ih]

theorem mem_stmtsAll {ts : List StmtTree} {s : Stmt} : s ∈ stmtsAll ts ↔ ∃ t ∈ ts, s ∈ t.all := by
  induction ts with
  | nil => simp [stmtsAll]
  | cons t ts ih => simp [stmtsAll, ih]

theorem mem_subsAll {ts : List SeqTree} {s : Stmt} : s ∈ subsAll ts ↔ ∃ t ∈ ts, s ∈ t.all := by
  induction ts with
  | nil => simp [subsAll]
  | cons t ts ih => simp [subsAll, ih]

theorem SeqTree.all_eq (t : SeqTree) : t.all = stmtsAll t.stmts := by
  rcases t with ⟨id, term, stmts⟩
  simp only [SeqTree.all, SeqTree.stmts]

theorem StmtTree.all_eq (t : StmtTree) : t.all = t.stmt :: subsAll t.subs := by
  rcases t with ⟨id, stmt, subs⟩
  simp only [StmtTree.all, StmtTree.stmt, StmtTree.subs]

theorem SeqTree.nodes_eq (t : SeqTree) : t.nodes = stmtsNodes t.stmts ++ [.seq t.id] := by
  rcases t with ⟨id, term, stmts⟩
  simp only [SeqTree.nodes, SeqTree.stmts, SeqTree.id]

theorem StmtTree.nodes_eq (t : StmtTree) :
    t.nodes = nestedNodes t.stmt.nested t.subs ++ t.stmt.dst.toList.map .var ++ [.stmt t.id] := by
  rcases t with ⟨id, stmt, subs⟩
  simp only [StmtTree.nodes, StmtTree.stmt, StmtTree.subs, StmtTree.id]

theorem storesSeq_iff {t : SeqTree} :
    StoresSeq f t ↔ f.seqs[t.id]? = some ⟨t.stmts.map StmtTree.id, t.term⟩ ∧ ∀ u ∈ t.stmts, StoresStmt f u := by
  rcases t with ⟨id, term, stmts⟩
  simp only [StoresSeq, storesStmts_iff, SeqTree.id, SeqTree.stmts, SeqTree.term]

theorem storesStmt_iff {t : StmtTree} :
    StoresStmt f t ↔ f.stmts[t.id]? = some t.stmt ∧ t.stmt.nested.map Nested.body = t.subs.map SeqTree.id ∧
      ∀ u ∈ t.subs, StoresSeq f u := by
  rcases t with ⟨id, stmt, subs⟩
  simp only [StoresStmt, storesSubs_iff, StmtTree.id, StmtTree.stmt, StmtTree.subs]

/-! ## Size -/

/-- Whether the node is a place in an arena of code. -/
def Node.isPlace : Node → Bool
  | .seq _ | .stmt _ => true
  | .var _ | .label _ => false

mutual

theorem seq_size (f : Function) : (t : SeqTree) → StoresSeq f t → t.size = (t.nodes.filter Node.isPlace).length
  | .mk id term stmts, h => by
      simp only [StoresSeq] at h
      simp [SeqTree.size, SeqTree.nodes, stmts_size f stmts h.2, List.filter_cons, Node.isPlace]

theorem stmts_size (f : Function) : (ts : List StmtTree) → StoresStmts f ts →
    stmtsSize ts = ((stmtsNodes ts).filter Node.isPlace).length
  | [], _ => by simp [stmtsSize, stmtsNodes]
  | t :: ts, h => by
      simp only [StoresStmts] at h
      simp [stmtsSize, stmtsNodes, stmt_size f t h.1, stmts_size f ts h.2]

theorem stmt_size (f : Function) : (t : StmtTree) → StoresStmt f t → t.size = (t.nodes.filter Node.isPlace).length
  | .mk id stmt subs, h => by
      simp only [StoresStmt] at h
      have hsubs := subs_size f subs stmt.nested h.2.1 h.2.2
      cases hd : stmt.dst <;>
        simp [StmtTree.size, StmtTree.nodes, hsubs, List.filter_cons, Node.isPlace, hd]

theorem subs_size (f : Function) : (ts : List SeqTree) → (ns : List Nested) →
    ns.map Nested.body = ts.map SeqTree.id → StoresSubs f ts →
      subsSize ts = ((nestedNodes ns ts).filter Node.isPlace).length
  | [], ns, _, _ => by cases ns <;> simp [subsSize, nestedNodes]
  | t :: ts, [], hids, _ => by cases hids
  | t :: ts, n :: ns, hids, h => by
      simp only [List.map_cons, List.cons.injEq] at hids
      simp only [StoresSubs] at h
      have binds : ∀ vs : List VarId, (vs.map Node.var).filter Node.isPlace = [] := by
        intro vs
        rw [List.filter_eq_nil_iff]
        simp [Node.isPlace]
      have labels : (n.label.toList.map Node.label).filter Node.isPlace = [] := by
        rw [List.filter_eq_nil_iff]
        simp [Node.isPlace]
      simp [subsSize, nestedNodes, seq_size f t h.1, subs_size f ts ns hids.2 h.2, Nested.nodes, binds, labels]

end

/-- A tree whose nodes are each in one place is no larger than the arenas. -/
theorem size_le {t : SeqTree} (hs : StoresSeq f t) (hin : ∀ n ∈ t.nodes, f.has n) (hnodup : t.nodes.Nodup) :
    t.size ≤ f.seqs.length + f.stmts.length := by
  have hsub : t.nodes.filter Node.isPlace ⊆
      (List.range f.seqs.length).map Node.seq ++ (List.range f.stmts.length).map Node.stmt := by
    intro n hn
    rw [List.mem_filter] at hn
    have hin := hin n hn.1
    cases n with
    | var => simp [Node.isPlace] at hn
    | label => simp [Node.isPlace] at hn
    | seq id => simpa [Function.has] using hin
    | stmt id => simpa [Function.has] using hin
  have := ((hnodup.filter _).subperm hsub).length_le
  rw [seq_size f t hs]
  simpa using this

end Emela.Lir.Arena
