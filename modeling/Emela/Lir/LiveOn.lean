import Emela.Lir.Arena

/-!
# The variables live on after each `let`

`heap/live.rs`: the backward walk over the arenas, with a fixpoint at loops.
-/

namespace Emela.Lir.Arena

/-- The tables of the walk: what is live after each block entered, and on after each `let` visited. -/
structure Live where
  afterLabel : LabelId → Option (Finset VarId)
  liveOn : StmtId → Option (Finset VarId)

/-- A step of a walk: it may find a node missing, or run out of fuel. -/
abbrev Walk (σ : Type) := StateT σ Option

/-- A node looked up in an arena. -/
def Walk.get {σ α : Type} (o : Option α) : Walk σ α := fun st => o.map (·, st)

def Live.enterBlock (label : LabelId) (after : Finset VarId) (st : Live) : Live :=
  { st with afterLabel := Function.update st.afterLabel label (some after) }

def Live.record (s : StmtId) (after : Finset VarId) (st : Live) : Live :=
  { st with liveOn := Function.update st.liveOn s (some after) }

/-- The rounds at a loop head, until nothing changes. -/
def Live.rounds (round : Finset VarId → Walk Live (Finset VarId)) : Nat → Finset VarId → Walk Live (Finset VarId)
  | 0, _ => failure
  | k + 1, h => do
      let l ← round h
      if l = h then pure h else Live.rounds round k l

/-- Where the terminator goes, before its own uses. -/
def Live.termBase (yieldLive : Finset VarId) (head : Option (Finset VarId)) (st : Live) : Term → Finset VarId
  | .yield _ => yieldLive
  | .break label _ => (st.afterLabel label).getD ∅
  | .recur _ => head.getD ∅
  | _ => ∅

section
variable (f : Function) (limit : Nat)

mutual

/-- `Live::seq` -/
def Live.seq : Nat → SeqId → Finset VarId → Option (Finset VarId) → Walk Live (Finset VarId)
  | 0, _, _, _ => failure
  | fuel + 1, id, yieldLive, head => do
      let seq ← Walk.get f.seqs[id]?
      let st ← get
      seq.stmts.foldrM (fun s live => Live.stmt fuel s live yieldLive head)
        (Live.termBase yieldLive head st seq.term ∪ seq.term.uses.toFinset)

/-- `Live::stmt`. A loop whose head still changes after `limit` rounds gives nothing. -/
def Live.stmt : Nat → StmtId → Finset VarId → Finset VarId → Option (Finset VarId) → Walk Live (Finset VarId)
  | 0, _, _, _, _ => failure
  | fuel + 1, s, after, yieldLive, head => do
      let stmt ← Walk.get f.stmts[s]?
      let after := eraseDst after stmt.dst
      match stmt with
      | .let _ value onFail onDefect _ => do
          let after ← match onFail with
            | some (.handle error body) => do
                let l ← Live.seq fuel body yieldLive head
                pure (after ∪ (l \ {error}))
            | _ => pure after
          let after ← match onDefect with
            | some body => do
                let l ← Live.seq fuel body yieldLive head
                pure (after ∪ l)
            | none => pure after
          modify (Live.record s after)
          pure (after ∪ value.uses.toFinset)
      | .dup v | .drop v => pure (insert v after)
      | .if _ cond then_ else_ => do
          let l ← Live.seq fuel then_ after head
          let r ← Live.seq fuel else_ after head
          pure (l ∪ r ∪ cond.var?.toFinset)
      | .switch _ on cases default => do
          let ls ← cases.mapM fun c => Live.seq fuel c.2 after head
          let r ← match default with
            | some body => Live.seq fuel body after head
            | none => pure ∅
          pure (ls.foldr (· ∪ ·) ∅ ∪ r ∪ {on.var})
      | .block _ label body => do
          modify (Live.enterBlock label after)
          Live.seq fuel body after head
      | .loop _ vars inits body => do
          let h ← Live.rounds (fun h => do
            let l ← Live.seq fuel body after (some h)
            pure (l \ vars.toFinset)) limit ∅
          pure (h ∪ (inits.filterMap Operand.var?).toFinset)
      | .protect _ body cleanup => do
          let afterCleanup ← Live.seq fuel cleanup after head
          let l ← Live.seq fuel body afterCleanup head
          pure (l ∪ afterCleanup)

end

/-- `live_on_lets`. Each node of a function stands in one place, so that no walk goes deeper than there
are nodes. -/
def liveOnLets : Option (StmtId → Option (Finset VarId)) :=
  match f.body with
  | none => some fun _ => none
  | some body =>
      (Live.seq f limit (f.seqs.length + f.stmts.length) body ∅ none ⟨fun _ => none, fun _ => none⟩).map
        (·.2.liveOn)

end

/-! ## The paths through a function

Where control goes, one step at a time, and what each step defines. A point of a function has with it
the statements around it, since `yield`, `break` and `recur` go where these say. A step out of a
`protect`, which runs its cleanup on the way, is left out: liveness is asked for once there are none. -/

/-- A statement being run: the sequence it stands in, the index after it, what it defines, and which of
its nested sequences was entered. -/
structure Frame where
  seq : SeqId
  next : Nat
  dst : Option VarId
  nested : Nested

/-- A point of a function: before a statement of a sequence, or before its terminator. -/
structure Point where
  seq : SeqId
  index : Nat
  stack : List Frame

/-- Where a way out goes, and the variables defined on it. -/
abbrev Landing := Point × List VarId

def Frame.after (fr : Frame) (σ : List Frame) : Landing := (⟨fr.seq, fr.next, σ⟩, fr.dst.toList)

/-- A `yield` gives the value of the innermost statement; a landing yields for the sequence it is in. -/
def yieldTo : List Frame → Option Landing
  | [] => none
  | fr :: σ =>
      match fr.nested.role with
      | .arm | .loop => some (fr.after σ)
      | .landing => yieldTo σ
      | _ => none

/-- A `break` leaves the enclosing block with the label. -/
def breakTo (l : LabelId) : List Frame → Option Landing
  | [] => none
  | fr :: σ =>
      match fr.nested.role with
      | .arm => if fr.nested.label = some l then some (fr.after σ) else breakTo l σ
      | .loop | .landing => breakTo l σ
      | _ => none

/-- `recur` starts the innermost loop again. -/
def recurTo : List Frame → Option Landing
  | [] => none
  | fr :: σ =>
      match fr.nested.role with
      | .loop => some (⟨fr.nested.body, 0, fr :: σ⟩, fr.nested.binds)
      | .arm | .landing => recurTo σ
      | _ => none

/-- Where a terminator goes on in the function. -/
def termTo (σ : List Frame) : Term → Option Landing
  | .yield _ => yieldTo σ
  | .break l _ => breakTo l σ
  | .recur _ => recurTo σ
  | _ => none

section
variable (f : Function)

/-- The statement at a point. -/
def stmtAt (p : Point) : Option Stmt :=
  (f.seqs[p.seq]?.bind fun s => s.stmts[p.index]?).bind (f.stmts[·]?)

/-- The terminator at a point. -/
def termAt (p : Point) : Option Term :=
  f.seqs[p.seq]?.bind fun s => if p.index = s.stmts.length then some s.term else none

/-- One step of control, with the variables it defines. -/
inductive Step : Point → List VarId → Point → Prop where
  /-- Into a sequence of the statement. -/
  | enter {p : Point} {s : Stmt} {n : Nested} : stmtAt f p = some s → n ∈ s.nested → n.role ≠ .closure →
      Step p n.binds ⟨n.body, 0, ⟨p.seq, p.index + 1, s.dst, n⟩ :: p.stack⟩
  /-- Past the statement. -/
  | fall {p : Point} {s : Stmt} : stmtAt f p = some s → s.falls = true →
      Step p s.dst.toList ⟨p.seq, p.index + 1, p.stack⟩
  /-- A failing call leaves the block its edge names. -/
  | failed {p q : Point} {s : Stmt} {l : LabelId} {vs : List VarId} : stmtAt f p = some s → s.target = some l →
      breakTo l p.stack = some (q, vs) → Step p vs q
  /-- Out of the sequence. -/
  | leave {p q : Point} {t : Term} {vs : List VarId} : termAt f p = some t → termTo p.stack t = some (q, vs) →
      Step p vs q

/-- What is read at the point itself. -/
def usedAt (p : Point) (v : VarId) : Prop :=
  (∃ s, stmtAt f p = some s ∧ v ∈ s.reads) ∨ ∃ t, termAt f p = some t ∧ v ∈ t.uses

/-- Some path from the point reaches a use of the variable before a redefinition. -/
inductive Reaches (v : VarId) : Point → Prop where
  | use {p : Point} : usedAt f p v → Reaches v p
  | step {p q : Point} {vs : List VarId} : Step f p vs q → v ∉ vs → Reaches v q → Reaches v p

/-- Some path on from the point, past what it reads itself, reaches a use before a redefinition. -/
def LiveOn (v : VarId) (p : Point) : Prop := ∃ vs q, Step f p vs q ∧ v ∉ vs ∧ Reaches f v q

/-- The sequence stands in the function with the statements around it. -/
inductive Occurs : List Frame → SeqId → Prop where
  | body {b : SeqId} : f.body = some b → Occurs [] b
  | nested {σ : List Frame} {q : SeqId} {k : Nat} {s : Stmt} {n : Nested} : Occurs σ q →
      stmtAt f ⟨q, k, σ⟩ = some s → n ∈ s.nested → n.role ≠ .closure → Occurs (⟨q, k + 1, s.dst, n⟩ :: σ) n.body

/-- For each `let` of the function, the table holds the variables that some path on from it uses before
it redefines them. -/
def LiveTable (on : StmtId → Option (Finset VarId)) : Prop :=
  ∀ σ q seq k id dst value onFail onDefect edge, Occurs f σ q → f.seqs[q]? = some seq →
    seq.stmts[k]? = some id → f.stmts[id]? = some (.let dst value onFail onDefect edge) →
    ∃ S, on id = some S ∧ ∀ v, v ∈ S ↔ LiveOn f v ⟨q, k, σ⟩

end

end Emela.Lir.Arena
