import Emela.Lir.LiveOn

/-!
# Copying code

`heap/copy.rs`. The copier into another function and the one inside a function differ in what they do
with a variable or a label they have not seen, with the label of a failure edge and with a closure, and
in when they rename what a suspension edge saves; the walk is the same.
-/

namespace Emela.Lir.Arena

/-! ## Renaming -/

def Term.rename (σ : VarId → VarId) (ℓ : LabelId → LabelId) : Term → Term
  | .yield v => .yield (v.map (·.rename σ))
  | .return v => .return (v.map (·.rename σ))
  | .fail v => .fail (v.rename σ)
  | .break l v => .break (ℓ l) (v.map (·.rename σ))
  | .recur args => .recur (args.map (·.rename σ))
  | .defect msg location => .defect (msg.rename σ) location
  | .unwind => .unwind
  | .unreachable => .unreachable

/-! ## The tables -/

/-- The function being built, and the new IDs of the variables and labels seen. -/
structure Tables where
  out : Function
  vars : VarId → Option VarId
  labels : LabelId → Option LabelId

abbrev Copying := Walk Tables

/-- `Cloner::use_`; a `Copier` has seen the variable. -/
def Tables.sub (T : Tables) (v : VarId) : VarId := (T.vars v).getD v

def Tables.subLabel (T : Tables) (l : LabelId) : LabelId := (T.labels l).getD l

def pushStmt (s : Stmt) : Copying StmtId := fun T =>
  some (T.out.stmts.length, { T with out := { T.out with stmts := T.out.stmts ++ [s] } })

def pushSeq (s : Seq) : Copying SeqId := fun T =>
  some (T.out.seqs.length, { T with out := { T.out with seqs := T.out.seqs ++ [s] } })

/-- The two copiers: `Copier`, out of a function into another, and `Cloner`, inside its own function. -/
inductive Copier where
  | into (src : Function)
  | clone

namespace Copier

/-- The function whose code is read. -/
def source : Copier → Tables → Function
  | .into src, _ => src
  | .clone, T => T.out

section
variable (K : Copier)

/-- `Copier::fresh`, `Cloner::def` -/
def fresh (v : VarId) : Copying VarId := do
  let T ← get
  let d ← Walk.get (K.source T).vars[v]?
  set ({ T with
    out := { T.out with vars := T.out.vars ++ [d] }
    vars := Function.update T.vars v (some T.out.vars.length) } : Tables)
  pure T.out.vars.length

/-- The new label of a block. -/
def freshLabel (l : LabelId) : Copying LabelId := do
  let T ← get
  let d ← Walk.get (K.source T).labels[l]?
  set ({ T with
    out := { T.out with labels := T.out.labels ++ [d] }
    labels := Function.update T.labels l (some T.out.labels.length) } : Tables)
  pure T.out.labels.length

/-- `Copier::var` gives a variable that it sees for the first time a new ID; `Cloner::use_` keeps it. -/
def see (v : VarId) : Copying PUnit :=
  match K with
  | .into _ => do
      let T ← get
      match T.vars v with
      | some _ => pure ⟨⟩
      | none => do
          let _ ← K.fresh v
          pure ⟨⟩
  | .clone => pure ⟨⟩

def seeLabel (l : LabelId) : Copying PUnit :=
  match K with
  | .into _ => do
      let T ← get
      match T.labels l with
      | some _ => pure ⟨⟩
      | none => do
          let _ ← K.freshLabel l
          pure ⟨⟩
  | .clone => pure ⟨⟩

/-- The variables in turn; what uses them is then renamed. -/
def seeAll (vs : List VarId) : Copying Tables := do
  vs.forM K.see
  get

/-- The block that a failure edge breaks to: the `Cloner` leaves the edge as it is. -/
def edge (l : LabelId) : Copying LabelId :=
  match K with
  | .into _ => do
      K.seeLabel l
      let T ← get
      pure (T.subLabel l)
  | .clone => pure l

/-- What a suspension edge saves is renamed after the defect landing is copied by the `Copier`, before
it by the `Cloner`. -/
def inOrder {α β : Type} (saved : Copying α) (landing : Copying β) : Copying (α × β) :=
  match K with
  | .into _ => do
      let b ← landing
      let a ← saved
      pure (a, b)
  | .clone => do
      let a ← saved
      let b ← landing
      pure (a, b)

def suspend : Option Suspend → Copying (Option Suspend)
  | none => pure none
  | some s => do
      let T ← K.seeAll s.saved
      pure (some { s with saved := s.saved.map T.sub })

/-- `Copier::term`, `Cloner::term` -/
def term (t : Term) : Copying Term := do
  t.target.toList.forM K.seeLabel
  let T ← K.seeAll t.uses
  pure (t.rename T.sub T.subLabel)

/-- `Copier::value`; the `Cloner` renames a closure's captures and keeps its parameters and body. -/
def value (copy : SeqId → Copying SeqId) (v : Value) : Copying Value := do
  let T ← K.seeAll v.uses
  match v with
  | .heap v => pure (.heap (v.rename T.sub))
  | .fnRef g => pure (.fnRef g)
  | .closure params captures body suspends =>
      match K with
      | .into _ => do
          let params ← params.mapM K.fresh
          let body ← copy body
          pure (.closure params (captures.map T.sub) body suspends)
      | .clone => pure (.closure params (captures.map T.sub) body suspends)

/-- `Copier::on_fail` -/
def onFail (copy : SeqId → Copying SeqId) : Option OnFail → Copying (Option OnFail)
  | none => pure none
  | some (.break l) => do
      let l ← K.edge l
      pure (some (.break l))
  | some .propagate => pure (some .propagate)
  | some (.handle error body) => do
      let error ← K.fresh error
      let body ← copy body
      pure (some (.handle error body))

mutual

/-- `Copier::seq`, `Cloner::seq` -/
def seq : Nat → SeqId → Copying SeqId
  | 0, _ => failure
  | fuel + 1, id => do
      let T ← get
      let s ← Walk.get (K.source T).seqs[id]?
      let stmts ← s.stmts.mapM (stmt fuel)
      let term ← K.term s.term
      pushSeq ⟨stmts, term⟩

/-- `Copier::stmt`, `Cloner::stmt` -/
def stmt : Nat → StmtId → Copying StmtId
  | 0, _ => failure
  | fuel + 1, id => do
      let T ← get
      let s ← Walk.get (K.source T).stmts[id]?
      match s with
      | .let dst value onFail onDefect onSuspend => do
          let value ← K.value (seq fuel) value
          let onFail ← K.onFail (seq fuel) onFail
          let edges ← K.inOrder (K.suspend onSuspend) (onDefect.mapM (seq fuel))
          let dst ← dst.mapM K.fresh
          pushStmt (.let dst value onFail edges.2 edges.1)
      | .if dst cond then_ else_ => do
          let T ← K.seeAll cond.var?.toList
          let then_ ← seq fuel then_
          let else_ ← seq fuel else_
          let dst ← dst.mapM K.fresh
          pushStmt (.if dst (cond.rename T.sub) then_ else_)
      | .switch dst on cases default => do
          let T ← K.seeAll [on.var]
          let cases ← cases.mapM fun c => do
            let body ← seq fuel c.2
            pure (c.1, body)
          let default ← default.mapM (seq fuel)
          let dst ← dst.mapM K.fresh
          pushStmt (.switch dst (on.rename T.sub) cases default)
      | .loop dst vars inits body => do
          let T ← K.seeAll (inits.filterMap Operand.var?)
          let vars ← vars.mapM K.fresh
          let body ← seq fuel body
          let dst ← dst.mapM K.fresh
          pushStmt (.loop dst vars (inits.map (·.rename T.sub)) body)
      | .block dst label body => do
          let label ← K.freshLabel label
          let body ← seq fuel body
          let dst ← dst.mapM K.fresh
          pushStmt (.block dst label body)
      | .protect dst body cleanup => do
          let body ← seq fuel body
          let cleanup ← seq fuel cleanup
          let dst ← dst.mapM K.fresh
          pushStmt (.protect dst body cleanup)
      | .dup v => do
          let T ← K.seeAll [v]
          pushStmt (.dup (T.sub v))
      | .drop v => do
          let T ← K.seeAll [v]
          pushStmt (.drop (T.sub v))

end

end

end Copier

/-! ## The copies -/

/-- `empty_like` -/
def emptyLike (f : Function) : Function :=
  { f with params := [], body := none, vars := [], stmts := [], seqs := [], labels := [] }

/-- How deep the code of a function can be, each node of which stands in one place. -/
def Function.depth (f : Function) : Nat := f.seqs.length + f.stmts.length

/-- `compact` -/
def compact (f : Function) : Option Function := do
  let K := Copier.into f
  let (params, T) ← f.params.mapM K.fresh ⟨emptyLike f, fun _ => none, fun _ => none⟩
  let (body, T) ← f.body.mapM (K.seq f.depth) T
  pure { T.out with params, body }

/-- `clone_seq`: the function with the copy, and the copy. -/
def cloneSeq (f : Function) (id : SeqId) : Option (SeqId × Function) :=
  (Copier.clone.seq f.depth id ⟨f, fun _ => none, fun _ => none⟩).map fun r => (r.1, r.2.out)

end Emela.Lir.Arena
