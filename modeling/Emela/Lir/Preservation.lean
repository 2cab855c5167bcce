import Emela.Lir.Lemmas.Simulation

/-!
# Explicit defects preserve meaning

A function of a module the verifier accepts comes back with the same thing, and does the same to the world,
once its defects are explicit. The meaning of a `protect` says what its cleanups do: each runs once on
whatever way out, innermost first, and its defects settle with the body's way out. What the rebuilt code
does is the meaning of its statements and of the operations on the pending defect alone.
-/

namespace Emela.Lir.Implicit

variable {α W D : Type} (R : Runtime α W D)

/-- A whole body: outside every region, its way out is the function's. -/
theorem body_rebuilt {calls : Calls α W D} (fuel : Nat) {flags : List Bool} (hq : Quiet flags calls) {f : Function}
    {body : Seq} (hv : Verified f body) (args : List (Val α D)) (w : W) :
    ((defineAll (fun _ => .int 0) (f.params.map (Build.empty.freshAll f.vars f.params).sub) args).bind fun ρ =>
      (Explicit.runSeq R calls fuel
        (explicitSeq f.vars flags [] false body (Build.empty.freshAll f.vars f.params)).1 ρ (w, none)).bind fun r =>
          (Explicit.outcome r.1 r.2.2).map (·, r.2.1)) =
      (defineAll (fun _ => .int 0) f.params args).bind fun ρ =>
        (runSeq R calls fuel body ρ w).bind fun r => (outcome r.1).map (·, r.2) := by
  have hstart : Ready R calls fuel ∅ ∅ ⟨id, id⟩ [] [] ⟨∅, ∅, false, true⟩ Build.empty (fun _ => .int 0) (fun _ => .int 0) :=
    ⟨fun v hv => absurd hv (Finset.notMem_empty v), trivial, fun e he => absurd he List.not_mem_nil,
      fun v _ => Set.notMem_empty v, fun l hl => absurd hl (Finset.notMem_empty l), fun _ e he => absurd he List.not_mem_nil⟩
  have hdef := hstart.defineAll f.vars hv.defs.of_append_left
    (fun v _ => ⟨Finset.notMem_empty v, Set.notMem_empty v⟩) args
  split at hdef
  · rename_i hnone
    rw [hnone, hdef]
    rfl
  · rename_i ρ1 hsome
    obtain ⟨ρ1', hdef, hready⟩ := hdef
    have hin : Ready R calls fuel ∅ ∅ ⟨id, id⟩ [] [] ⟨f.params.toFinset, ∅, false, true⟩ _ ρ1 ρ1' :=
      hready.scope (by simp) (Finset.Subset.refl _) id
    have hapart : Apart ∅ ∅ ⟨f.params.toFinset, ∅, false, true⟩ (defsSeq body) (labelsSeq body) :=
      ⟨hv.defs.of_append_right,
        fun v hb => ⟨fun hp => List.disjoint_of_nodup_append hv.defs (List.mem_toFinset.mp hp) hb, Set.notMem_empty v⟩,
        hv.labels, fun l _ => ⟨Finset.notMem_empty l, Set.notMem_empty l⟩⟩
    rw [hsome, hdef]
    simp only [Option.bind_some]
    rw [seq_rebuilt f.vars hq body hv.inScope hapart hin false (by simp) w, Option.bind_assoc]
    refine Option.bind_congr fun r _ => ?_
    rcases r with ⟨e, w'⟩
    cases e <;> simp [left, leaving, leave, unwind, outcome, Explicit.outcome]

theorem runFunction_explicit {calls : Calls α W D} {fuel : Nat} {flags : List Bool} (hq : Quiet flags calls) {f : Function}
    (hv : ∀ body ∈ f.body, Verified f body) (id : FnId) (args : List (Val α D)) (w : W) :
    Explicit.runFunction R calls fuel (f.explicit flags id) args w = runFunction R calls fuel f args w := by
  simp only [Explicit.runFunction, runFunction, Function.explicit]
  cases hb : f.body with
  | none => rfl
  | some body =>
      have hbody := fun w => body_rebuilt R fuel hq (hv body hb) args w
      simp only [Option.map_some, hbody]

/-- Every call of every function of the module means the same after the pass, with any runtime. -/
theorem call_explicitDefects (m : Module) (hm : Accepted m) (fuel : Nat) :
    Explicit.call R (explicitDefects m) fuel = call R m fuel := by
  induction fuel with
  | zero => rfl
  | succ fuel ih =>
      funext i args w
      rw [Explicit.call, call, ih]
      simp only [explicitDefects, List.getElem?_mapIdx]
      rw [Option.bind_map]
      refine Option.bind_congr fun f hf => ?_
      exact runFunction_explicit R (call_quiet R m fuel) (hm f (List.mem_of_getElem? hf)) i args w

/-! ## A cleanup that raises -/

/-- A runtime that counts: `panic` raises the count, and calls of function values fail. -/
def counting : Runtime Unit Nat Nat where
  const _ := ()
  prim _ _ _ := none
  selects _ _ := false
  raised _ _ := 0
  note _ first later := 100 * first + later
  exec _ v _ w := match v with
    | .builtin .panic _ => some (.defect w, w + 1)
    | .call .. => some (.fail (.int w), w + 1)
    | _ => some (.value none, w + 1)
  host _ _ _ := none
  memo _ run w := run w
  exec_defect calls v vs w d w' h := by
    split at h
    · rfl
    · cases h
    · cases h

/-- Two regions are left by a failure, and then by the defect of the inner cleanup; the outer cleanup raises
another. -/
def nested : Module :=
  ⟨[{ name := "main"
      params := [0]
      suspends := false
      constant := false
      env := false
      vars := [⟨"f", .ref⟩]
      body := some (.mk [.block none 0 (.mk [
        .protect none
          (.mk [.protect none
            (.mk [.let none (.call (.indirect 0) [] false) (some (.break 0))] (.yield none))
            (.mk [.let none (.builtin .panic []) none] (.yield none))] (.yield none))
          (.mk [.let none (.builtin .panic []) none] (.yield none))] (.yield none))] (.return none)) }]⟩

theorem nested_accepted : Accepted nested := by
  intro f hf body hbody
  obtain rfl := List.mem_singleton.mp hf
  obtain rfl := Option.mem_some.mp hbody
  refine ⟨by decide, by decide, ?_⟩
  simp [ScopedSeq, ScopedStmts, ScopedStmt, ScopedTerm, Term.operands, Scope.has, Value.vars, Value.early, ScopedFail,
    Scope.block, Scope.protect, Scope.cleanup, Scope.define]

theorem call_explicitDefects_nested :
    Explicit.call counting (explicitDefects nested) 1 0 [.int 0] 5 = some (.defect 607, 8) :=
  (congrFun (congrFun (congrFun (call_explicitDefects counting nested nested_accepted 1) 0) [.int 0]) 5).trans rfl

end Emela.Lir.Implicit
