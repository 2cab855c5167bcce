import Emela.Lir.Lemmas.LivePaths

/-!
# What is live after a `let`

`live_on_lets` against the paths of the function, for code with explicit control: it finds exactly the
variables that some path uses before it redefines them, with two rounds at each loop.
-/

namespace Emela.Lir.Arena

/-- The walk ends, and its table is that of the paths. -/
theorem live_on_lets_exact {f : Function} {body : SeqTree} (hf : Verified f body)
    (hall : ∀ s ∈ body.all, s.Explicit) {limit : Nat} (hlimit : 2 ≤ limit) :
    ∃ on, liveOnLets f limit = some on ∧ LiveTable f on := by
  have hnodup := (List.nodup_append'.mp hf.once).2.1
  have hsize := size_le hf.stored (fun n hn => hf.inArena n (List.mem_append_right _ hn)) hnodup
  obtain ⟨st, hrun, -, hrec⟩ := runs_seq hlimit body _ hsize hf.stored hnodup hall _ .start
    ⟨fun _ => none, fun _ => none⟩ hf.inScope (by simp) (by intro l hl; simp at hl)
  refine ⟨st.liveOn, ?_, recorded_liveTable hf.entry hf.stored hall hrec⟩
  simp only [liveOnLets, hf.entry]
  exact congrArg (Option.map (·.2.liveOn)) hrun

/-! ## A loop -/

/-- A loop that reads the parameter `1` after the value it computes on each round. -/
def sumLoop : Function where
  name := "sum"
  exported := false
  params := [0, 1]
  ret := 0
  fails := false
  suspends := false
  constant := false
  external := none
  env := none
  defects := false
  body := some 1
  vars := [⟨⟨"n", .i32⟩, 0⟩, ⟨⟨"k", .i32⟩, 0⟩, ⟨⟨"i", .i32⟩, 0⟩, ⟨⟨"j", .i32⟩, 0⟩]
  stmts := [.let (some 3) (.heap (.prim .add .i32 [.var 2, .var 1])) none none none, .loop none [2] [.var 0] 0]
  seqs := [⟨[0], .recur [.var 3]⟩, ⟨[1], .unreachable⟩]
  labels := []

def sumLoopTree : SeqTree :=
  .mk 1 .unreachable [.mk 1 (.loop none [2] [.var 0] 0)
    [.mk 0 (.recur [.var 3]) [.mk 0 (.let (some 3) (.heap (.prim .add .i32 [.var 2, .var 1])) none none none) []]]]

theorem sumLoop_verified : Verified sumLoop sumLoopTree where
  entry := rfl
  stored := by simp [StoresSeq, StoresStmts, StoresStmt, StoresSubs, sumLoopTree, sumLoop, StmtTree.id, SeqTree.id,
    Stmt.nested, Value.nested]
  inArena := by
    simp [SeqTree.nodes, stmtsNodes, StmtTree.nodes, nestedNodes, Nested.nodes, sumLoopTree, sumLoop, Stmt.nested,
      Value.nested, Stmt.dst, Function.has]
  once := by
    simp [SeqTree.nodes, stmtsNodes, StmtTree.nodes, nestedNodes, Nested.nodes, sumLoopTree, sumLoop, Stmt.nested,
      Value.nested, Stmt.dst]
  inScope := by
    simp [ScopedSeq, ScopedStmts, ScopedStmt, ScopedNested, ScopedTerm, sumLoopTree, sumLoop, Stmt.nested,
      Value.nested, Stmt.dst, Stmt.reads, Stmt.saved, Stmt.target, Scope.has, Scope.define, enter, Value.uses,
      Value.vars, Operand.var?, Term.uses, Term.operands, Term.target, StmtTree.stmt]

theorem sumLoop_explicit : ∀ s ∈ sumLoopTree.all, s.Explicit := by
  simp [SeqTree.all, stmtsAll, StmtTree.all, subsAll, sumLoopTree, Stmt.Explicit, Stmt.target, Stmt.nested,
    Value.nested]

theorem sumLoop_exact : ∃ on, liveOnLets sumLoop 2 = some on ∧ LiveTable sumLoop on :=
  live_on_lets_exact sumLoop_verified sumLoop_explicit le_rfl

end Emela.Lir.Arena
