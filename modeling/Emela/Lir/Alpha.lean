import Emela.Lib.Renaming
import Emela.Lir.Arena

/-!
# Alpha-equivalence

Two pieces of code, each in its own arenas, are the same up to the IDs of their nodes and the names of
the variables and labels they define.
-/

namespace Emela.Lir.Arena

open Renaming

/-! ## Without names -/

def Value.blank : Value → Value
  | .heap v => .heap (v.rename fun _ => 0)
  | .fnRef g => .fnRef g
  | .closure params captures _ suspends => .closure (params.map fun _ => 0) (captures.map fun _ => 0) 0 suspends

def OnFail.blank : OnFail → OnFail
  | .break _ => .break 0
  | .propagate => .propagate
  | .handle _ _ => .handle 0 0

def Term.blank : Term → Term
  | .yield v => .yield (v.map (·.rename fun _ => 0))
  | .return v => .return (v.map (·.rename fun _ => 0))
  | .fail v => .fail (v.rename fun _ => 0)
  | .break _ v => .break 0 (v.map (·.rename fun _ => 0))
  | .recur args => .recur (args.map (·.rename fun _ => 0))
  | .defect msg location => .defect (msg.rename fun _ => 0) location
  | .unwind => .unwind
  | .unreachable => .unreachable

/-- The statement without its names and the IDs of its sequences. -/
def Stmt.blank : Stmt → Stmt
  | .let dst value onFail onDefect onSuspend =>
      .let (dst.map fun _ => 0) value.blank (onFail.map OnFail.blank) (onDefect.map fun _ => 0)
        (onSuspend.map fun s => { s with saved := s.saved.map fun _ => 0 })
  | .if dst cond _ _ => .if (dst.map fun _ => 0) (cond.rename fun _ => 0) 0 0
  | .switch dst on cases default =>
      .switch (dst.map fun _ => 0) (on.rename fun _ => 0) (cases.map fun c => (c.1, 0)) (default.map fun _ => 0)
  | .loop dst vars inits _ =>
      .loop (dst.map fun _ => 0) (vars.map fun _ => 0) (inits.map (·.rename fun _ => 0)) 0
  | .block dst _ _ => .block (dst.map fun _ => 0) 0 0
  | .protect dst _ _ => .protect (dst.map fun _ => 0) 0 0
  | .dup _ => .dup 0
  | .drop _ => .drop 0

/-! ## Side by side -/

/-- The variables and labels in scope, each with its counterpart. -/
structure Pairs where
  vars : List (VarId × VarId)
  labels : List (LabelId × LabelId)

/-- The scopes of a nested sequence and its counterpart. -/
def Pairs.enter (Γ : Pairs) (n m : Nested) : Pairs where
  vars := n.binds.zip m.binds ++ Γ.vars
  labels := n.label.toList.zip m.label.toList ++ Γ.labels

/-- The scopes after a statement and its counterpart. -/
def Pairs.define (Γ : Pairs) (d e : Option VarId) : Pairs := { Γ with vars := d.toList.zip e.toList ++ Γ.vars }

/-- The names are used for each other. -/
def SameVars (Γ : Pairs) (xs ys : List VarId) : Prop := List.Forall₂ (Matches Γ.vars) xs ys

def SameLabels (Γ : Pairs) (xs ys : List LabelId) : Prop := List.Forall₂ (Matches Γ.labels) xs ys

section
variable (f g : Function)

/-- The binders introduce variables, or labels, with the same data. -/
def Like : Node → Node → Prop
  | .var x, .var y => ∃ d, f.vars[x]? = some d ∧ g.vars[y]? = some d
  | .label l, .label m => ∃ d, f.labels[l]? = some d ∧ g.labels[m]? = some d
  | _, _ => False

mutual

/-- The sequences are alpha-equivalent where the names in scope are paired. -/
def AlphaSeq (Γ : Pairs) : SeqTree → SeqTree → Prop
  | .mk _ term stmts, t => AlphaStmts Γ term t.term stmts t.stmts
termination_by structural t => t

def AlphaStmts (Γ : Pairs) (term term' : Term) : List StmtTree → List StmtTree → Prop
  | [], us => us = [] ∧ term.blank = term'.blank ∧ SameVars Γ term.uses term'.uses ∧
      SameLabels Γ term.target.toList term'.target.toList
  | t :: ts, us => ∃ u us', us = u :: us' ∧ AlphaStmt Γ t u ∧
      List.Forall₂ (Like f g) (t.stmt.dst.toList.map .var) (u.stmt.dst.toList.map .var) ∧
      AlphaStmts (Γ.define t.stmt.dst u.stmt.dst) term term' ts us'
termination_by structural ts => ts

def AlphaStmt (Γ : Pairs) : StmtTree → StmtTree → Prop
  | .mk _ stmt subs, u => stmt.blank = u.stmt.blank ∧ SameVars Γ stmt.reads u.stmt.reads ∧
      SameVars Γ stmt.saved u.stmt.saved ∧ SameLabels Γ stmt.target.toList u.stmt.target.toList ∧
      AlphaNested Γ stmt.nested subs u.stmt.nested u.subs
termination_by structural t => t

def AlphaNested (Γ : Pairs) : List Nested → List SeqTree → List Nested → List SeqTree → Prop
  | n :: ns, t :: ts, ms, us => ∃ m ms' u us', ms = m :: ms' ∧ us = u :: us' ∧
      List.Forall₂ (Like f g) n.nodes m.nodes ∧ AlphaSeq (Γ.enter n m) t u ∧ AlphaNested Γ ns ts ms' us'
  | ns, ts, ms, us => ns = [] ∧ ts = [] ∧ ms = [] ∧ us = []
termination_by structural _ ts => ts

end

end

end Emela.Lir.Arena
