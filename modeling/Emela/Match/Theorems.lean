import Emela.Match.Lemmas.Runs

/-!
# `match` runs its first matching arm

The code of a `match` does what trying its arms from top to bottom does, and holds the body of each arm
at most once: once if the arm can be the first match, and not at all if a tree has no place for it.
-/

namespace Emela.Match

open Lir (VarId LabelId Operand)

variable {Expr : Type}

/-! ## What patterns bind -/

mutual

theorem bindings_locals (p : Pat) {v : Val} {bs : List (Local × Val)} (h : p.bindings v = some bs) :
    bs.map Prod.fst = p.locals := by
  cases p with
  | wild =>
      cases h
      rfl
  | bind l =>
      cases h
      rfl
  | lit l =>
      rw [Pat.bindings] at h
      split at h
      · cases h
        rfl
      · cases h
  | ctor c ps =>
      cases v with
      | ctor d vs =>
          rw [Pat.bindings] at h
          split at h
          · exact bindingsAll_locals ps h
          · cases h
      | _ => cases h
  | tuple ps =>
      cases v with
      | tuple vs => exact bindingsAll_locals ps h
      | _ => cases h
  | list ps rest =>
      cases v with
      | list vs =>
          rw [Pat.bindings] at h
          obtain ⟨⟨bs, more⟩, hbs, h⟩ := Option.bind_eq_some_iff.mp h
          obtain ⟨cs, hcs, h⟩ := Option.bind_eq_some_iff.mp h
          cases h
          rw [List.map_append, bindingsElems_locals ps hbs, bindingsRest_locals rest hcs, Pat.locals]
      | _ => cases h

theorem bindingsAll_locals (ps : List Pat) {vs : List Val} {bs : List (Local × Val)} (h : bindingsAll ps vs = some bs) :
    bs.map Prod.fst = localsAll ps := by
  cases ps with
  | nil =>
      cases vs with
      | nil =>
          cases h
          rfl
      | cons => cases h
  | cons p ps =>
      cases vs with
      | nil => cases h
      | cons v vs =>
          rw [bindingsAll] at h
          obtain ⟨bs, hbs, h⟩ := Option.bind_eq_some_iff.mp h
          obtain ⟨cs, hcs, h⟩ := Option.bind_eq_some_iff.mp h
          cases h
          rw [List.map_append, bindings_locals p hbs, bindingsAll_locals ps hcs, localsAll]

theorem bindingsElems_locals (ps : List Pat) {vs more : List Val} {bs : List (Local × Val)}
    (h : bindingsElems ps vs = some (bs, more)) : bs.map Prod.fst = localsAll ps := by
  cases ps with
  | nil =>
      cases h
      rfl
  | cons p ps =>
      cases vs with
      | nil => cases h
      | cons v vs =>
          rw [bindingsElems] at h
          obtain ⟨bs, hbs, h⟩ := Option.bind_eq_some_iff.mp h
          obtain ⟨⟨cs, more⟩, hcs, h⟩ := Option.bind_eq_some_iff.mp h
          cases h
          rw [List.map_append, bindings_locals p hbs, bindingsElems_locals ps hcs, localsAll]

theorem bindingsRest_locals (rest : Option Pat) {vs : List Val} {bs : List (Local × Val)}
    (h : bindingsRest rest vs = some bs) : bs.map Prod.fst = localsRest rest := by
  cases rest with
  | none =>
      cases vs with
      | nil =>
          cases h
          rfl
      | cons => cases h
  | some r => exact bindings_locals r h

end

/-! ## The rows of the arms -/

section
variable {core : Core} {W O : Type} {sem : Exprs Expr W O} {arms : List (Arm Expr)} {vars : List Ty} {ρ : Store}
  {occ : Occ} {v : Val}

theorem armRow_bindings (hocc : OccOk core vars ρ occ v) (p : Pat) (i : Nat) :
    rowBindings ρ ⟨[(occ, .pat p)], [], i⟩ = (p.bindings v).map heldAll := by
  simp only [rowBindings, testsBindings, testBindings, hocc.occVal, Option.bind_some, PatRef.toPat]
  cases p.bindings v <;> simp [Binds.vals]

theorem mem_armRows {row : Row} (h : row ∈ armRows occ arms) :
    ∃ a, arms[row.arm]? = some a ∧ row = ⟨[(occ, .pat a.pat)], [], row.arm⟩ := by
  obtain ⟨⟨a, i⟩, hmem, rfl⟩ := List.mem_map.mp h
  exact ⟨a, List.mem_zipIdx_iff_getElem?.mp hmem, rfl⟩

theorem armRows_ok (hocc : OccOk core vars ρ occ v) (hty : ∀ a ∈ arms, PatTy core a.pat occ.ty)
    (hlinear : ∀ a ∈ arms, a.pat.locals.Nodup) : RowsOk core arms vars ρ (armRows occ arms) := by
  refine ⟨fun row hrow => ?_, fun row hrow => ?_, fun row hrow => ?_⟩
  all_goals obtain ⟨a, ha, hrow'⟩ := mem_armRows hrow
  · rw [hrow']
    refine ⟨fun t ht => ?_, by simp⟩
    cases List.mem_singleton.mp ht
    exact ⟨v, hocc, hty a (List.mem_of_getElem? ha)⟩
  · intro bs hbs
    rw [hrow', armRow_bindings hocc] at hbs
    obtain ⟨cs, hcs, rfl⟩ := Option.map_eq_some_iff.mp hbs
    have : (heldAll cs).map Prod.fst = cs.map Prod.fst := by
      rw [heldAll, List.map_map]
      rfl
    rw [this, bindings_locals a.pat hcs]
    exact hlinear a (List.mem_of_getElem? ha)
  · exact lt_of_getElem?_eq ha

/-- Trying the rows of the arms is trying the arms. -/
theorem runRows_armRows (hocc : OccOk core vars ρ occ v) (w : W) :
    runRows sem arms ρ (failRes none) (armRows occ arms) w = firstMatch sem v arms.zipIdx w := by
  have harms : ∀ a ∈ arms.zipIdx, arms[a.2]? = some a.1 := fun a ha => List.mem_zipIdx_iff_getElem?.mp ha
  rw [armRows]
  generalize arms.zipIdx = tried at harms
  induction tried generalizing w with
  | nil => rfl
  | cons a tried ih =>
      obtain ⟨a, i⟩ := a
      have ih := funext fun w => ih w fun a ha => harms a (List.mem_cons_of_mem _ ha)
      simp only [List.map_cons, runRows, armRow_bindings hocc, harms (a, i) (by simp), firstMatch, ih]
      cases a.pat.bindings v with
      | none => rfl
      | some bs => rfl

end

/-! ## Bodies that run are there -/

section
variable {W : Type} {sem : Exprs Expr W (Option Nat)}

/-- Bodies that leave with their arm, and guards that do not. -/
def Tagged (sem : Exprs Expr W (Option Nat)) : Prop :=
  (∀ g env w o w', sem.guard g env w = (.inl o, w') → o = none) ∧ ∀ i e env w, (sem.body i e env w).1 = some i

theorem term_mem_bodies (htag : Tagged sem) (term : Term Expr) {ρ : Store} {w w' : W} {i : Nat}
    (h : runTerm sem ρ w term = (.done (some i), w')) : i ∈ termBodies term := by
  cases term with
  | body arm e binds =>
      have htag := htag.2 arm e (bindEnv (binds.vals ρ)) w
      simp only [runTerm, Prod.mk.injEq, Res.done.injEq] at h
      rw [h.1, Option.some.injEq] at htag
      simp [termBodies, htag]
  | guard g binds =>
      rw [runTerm] at h
      split at h
      · rename_i hg
        have := htag.1 _ _ _ _ _ hg
        subst this
        cases h
      · cases h
  | _ => cases h

theorem leave_done {ρ : Store} {r : Res (Option Nat) × W} {i : Nat} {w' : W} (h : leave ρ r = (.done (some i), w')) :
    r = (.done (some i), w') := by
  obtain ⟨r, w⟩ := r
  cases r <;> first | exact h | cases h

mutual

theorem seq_mem_bodies (htag : Tagged sem) (seq : Seq Expr) {ρ : Store} {w w' : W} {i : Nat}
    (h : runSeq sem ρ w seq = (.done (some i), w')) : i ∈ seqBodies seq := by
  cases seq with
  | mk stmts term =>
      rw [runSeq] at h
      rw [seqBodies, List.mem_append]
      rcases hr : runStmts sem ρ w stmts with ⟨r, w₁⟩
      rw [hr] at h
      cases r with
      | next ρ' => exact .inr (term_mem_bodies htag term h)
      | _ => exact .inl (stmts_mem_bodies htag stmts (hr.trans h))

theorem stmts_mem_bodies (htag : Tagged sem) (stmts : List (Stmt Expr)) {ρ : Store} {w w' : W} {i : Nat}
    (h : runStmts sem ρ w stmts = (.done (some i), w')) : i ∈ stmtsBodies stmts := by
  cases stmts with
  | nil => cases h
  | cons stmt stmts =>
      rw [runStmts] at h
      rw [stmtsBodies, List.mem_append]
      rcases hr : runStmt sem ρ w stmt with ⟨r, w₁⟩
      rw [hr] at h
      cases r with
      | next ρ' => exact .inr (stmts_mem_bodies htag stmts h)
      | _ => exact .inl (stmt_mem_bodies htag stmt (hr.trans h))

theorem stmt_mem_bodies (htag : Tagged sem) (stmt : Stmt Expr) {ρ : Store} {w w' : W} {i : Nat}
    (h : runStmt sem ρ w stmt = (.done (some i), w')) : i ∈ stmtBodies stmt := by
  cases stmt with
  | «let» dst value =>
      rw [runStmt] at h
      split at h <;> cases h
  | guard dst g binds =>
      rw [runStmt] at h
      split at h
      · rename_i hg
        have := htag.1 _ _ _ _ _ hg
        subst this
        cases h
      · cases h
  | «if» cond then_ else_ =>
      rw [runStmt] at h
      rw [stmtBodies, List.mem_append]
      split at h
      · exact .inl (seq_mem_bodies htag then_ (leave_done h))
      · exact .inr (seq_mem_bodies htag else_ (leave_done h))
      · cases h
  | switch on cases default =>
      rw [runStmt] at h
      rw [stmtBodies, List.mem_append]
      split at h
      · rename_i v _
        have h := leave_done h
        cases hc : runCases sem ρ w v cases with
        | some r =>
            rw [hc] at h
            exact .inl (cases_mem_bodies htag cases (hc.trans (congrArg some h)))
        | none =>
            rw [hc] at h
            exact .inr (default_mem_bodies htag default h)
      · cases h
  | block label body =>
      rw [runStmt] at h
      rw [stmtBodies]
      rcases hr : runSeq sem ρ w body with ⟨r, w₁⟩
      rw [hr] at h
      cases r with
      | «break» l =>
          dsimp only at h
          split at h <;> cases h
      | _ => exact seq_mem_bodies htag body (hr.trans (leave_done h))

theorem cases_mem_bodies (htag : Tagged sem) (cases : List (Lir.CaseKey × Seq Expr)) {ρ : Store} {w w' : W} {v : Val}
    {i : Nat} (h : runCases sem ρ w v cases = some (.done (some i), w')) : i ∈ casesBodies cases := by
  cases cases with
  | nil => cases h
  | cons c cases =>
      obtain ⟨key, body⟩ := c
      rw [runCases] at h
      rw [casesBodies, List.mem_append]
      split at h
      · exact .inl (seq_mem_bodies htag body (Option.some.inj h))
      · exact .inr (cases_mem_bodies htag cases h)

theorem default_mem_bodies (htag : Tagged sem) (default : Option (Seq Expr)) {ρ : Store} {w w' : W} {i : Nat}
    (h : runDefault sem ρ w default = (.done (some i), w')) : i ∈ defaultBodies default := by
  cases default with
  | none => cases h
  | some body => exact seq_mem_bodies htag body h

end

end

/-! ## The match -/

/-- The scrutinee has been converted to an operand for `v`. -/
inductive ScrutineeOk (core : Core) (s : Lower Expr) (ρ : Store) (ty : Ty) : Option Operand → Val → Prop where
  | var {x v} : s.vars[x]? = some ty → ρ x = some v → ty.isVoid = false → HasTy core v ty →
      ScrutineeOk core s ρ ty (some (.var x)) v
  | const {c} : ty.isVoid = false → HasTy core (.const c) ty → ScrutineeOk core s ρ ty (some (.const c)) (.const c)
  | void {v} : ty.isVoid = true → HasTy core v ty → ScrutineeOk core s ρ ty none v

/-- Guards that do not come back leave. -/
def Leaves {W O : Type} (diverges : Expr → Bool) (sem : Exprs Expr W O) : Prop :=
  ∀ g env w, diverges g = true → ∃ o w', sem.guard g env w = (.inl o, w')

/-- Arm `i` is the first match for some value of the scrutinee, with some answers of the guards. -/
def CanRun (core : Core) (diverges : Expr → Bool) (scrutinee : Option Operand) (ty : Ty) (arms : List (Arm Expr))
    (s : Lower Expr) (i : Nat) : Prop :=
  ∃ (W : Type) (sem : Exprs Expr W (Option Nat)) (ρ : Store) (v : Val) (w w' : W), Tagged sem ∧ Leaves diverges sem ∧
    Good core s ρ ∧ ScrutineeOk core s ρ ty scrutinee v ∧ firstMatch sem v arms.zipIdx w = (.done (some i), w')

/-- The code added for the match runs the first arm that matches, and holds each body at most once, and once if
it can run. -/
def RunsFirstMatch (core : Core) (diverges : Expr → Bool) (scrutinee : Option Operand) (ty : Ty)
    (arms : List (Arm Expr)) (s : Lower Expr) : Prop :=
  ∃ stmts, (matchArms core diverges scrutinee ty arms s).stmts = s.stmts ++ stmts ∧
    (∀ {W O : Type} (sem : Exprs Expr W O) (ρ : Store) (v : Val), Leaves diverges sem → Good core s ρ →
      ScrutineeOk core s ρ ty scrutinee v → ∀ w, runStmts sem ρ w stmts = firstMatch sem v arms.zipIdx w) ∧
    ∀ i, (stmtsBodies stmts).count i ≤ 1 ∧
      (CanRun core diverges scrutinee ty arms s i → (stmtsBodies stmts).count i = 1)

section
variable {core : Core} {diverges : Expr → Bool} {scrutinee : Option Operand} {ty : Ty} {arms : List (Arm Expr)}

/-- The variable of the scrutinee, assigned if it is a constant. -/
def scrutineeVar (scrutinee : Option Operand) (ty : Ty) (s : Lower Expr) : Option VarId × Lower Expr :=
  match scrutinee with
  | some (.var x) => (some x, s)
  | some (.const c) => ((s.assign ty (.const c)).1, (s.assign ty (.const c)).2)
  | none => (none, s)

theorem scrutineeVar_steps {W O : Type} {s : Lower Expr} {ρ : Store} {v : Val} (sem : Exprs Expr W O)
    (good : Good core s ρ) (h : ScrutineeOk core s ρ ty scrutinee v) :
    ∃ ρ', Steps core sem s ρ (scrutineeVar scrutinee ty s).2 ρ' ∧
      OccOk core (scrutineeVar scrutinee ty s).2.vars ρ' ⟨(scrutineeVar scrutinee ty s).1, ty⟩ v := by
  cases h with
  | var hx hv hvoid hty => exact ⟨ρ, .refl good, .var hx hv hvoid hty⟩
  | @const c hvoid hty =>
      have hread : readValue ρ (.const c) = some (.const c) := rfl
      refine ⟨_, assign_steps good ty hread, .var ?_ (Function.update_self _ _ _) hvoid hty⟩
      simp [scrutineeVar, Lower.assign, Lower.var, Lower.push]
  | void hvoid hty => exact ⟨ρ, .refl good, .void hvoid hty⟩

theorem scrutineeVar_reads (scrutinee : Option Operand) (ty : Ty) (s : Lower Expr) :
    Reads s (scrutineeVar scrutinee ty s).2 := by
  rcases scrutinee with _ | x | c
  · exact .refl s
  · exact .refl s
  · exact assign_reads s ty _

theorem armRows_count (occ : Occ) (arms : List (Arm Expr)) (i : Nat) : armCount i (armRows occ arms) ≤ 1 := by
  have : (armRows occ arms).map Row.arm = List.range arms.length := by
    rw [armRows, List.map_map, List.range_eq_range', ← List.zipIdx_map_snd 0 arms]
    rfl
  rw [armCount, this]
  exact List.nodup_iff_count_le_one.mp List.nodup_range i

/-- The tree of a match, as the body of a block. -/
theorem matchArms_eq (s : Lower Expr) :
    matchArms core diverges scrutinee ty arms s =
      let r := scrutineeVar scrutinee ty s
      let rows := armRows ⟨r.1, ty⟩ arms
      let body := r.2.label.2.nested (compile core diverges arms (rowsSize rows + 1) rows none)
      body.2.push (.block r.2.labels body.1) := by
  rcases scrutinee with _ | x | c <;> rfl

/-- The block of a match, whose body tries the arms and has nowhere else to go. -/
theorem runStmts_block {W O : Type} {sem : Exprs Expr W O} {ρ : Store} {rows : List Row} {body : Seq Expr} (label : LabelId)
    (hbody : ∀ w, runSeq sem ρ w body = runRows sem arms ρ (failRes none) rows w) (w : W) :
    runStmts sem ρ w [.block label body] = runRows sem arms ρ (failRes none) rows w := by
  have hone : ∀ s : Stmt Expr, runStmts sem ρ w [s] = runStmt sem ρ w s := by
    intro s
    rw [runStmts]
    rcases runStmt sem ρ w s with ⟨_ | _ | _ | _ | _, w⟩ <;> rfl
  rw [hone, runStmt, hbody]
  exact runRows_map (f := blockRes ρ label) (fun _ _ => rfl) ρ _ rows w

theorem matchArms_runsFirstMatch (s : Lower Expr) (hty : ∀ a ∈ arms, PatTy core a.pat ty)
    (hlinear : ∀ a ∈ arms, a.pat.locals.Nodup) : RunsFirstMatch core diverges scrutinee ty arms s := by
  have hreads := scrutineeVar_reads scrutinee ty s
  obtain ⟨pre, hpre⟩ := hreads.grown.stmts
  let r := scrutineeVar scrutinee ty s
  let rows := armRows ⟨r.1, ty⟩ arms
  let act := compile core diverges arms (rowsSize rows + 1) rows none
  have tree : Tree rows { r.2.label.2 with stmts := [] } (act { r.2.label.2 with stmts := [] }) :=
    compile_tree core diverges arms _ _ _ _
  let body := (r.2.label.2.nested act).1
  have hruns : ∀ {W O : Type} (sem : Exprs Expr W O) (ρ : Store) (v : Val), Leaves diverges sem → Good core s ρ →
      ScrutineeOk core s ρ ty scrutinee v → ∀ w,
        runStmts sem ρ w (pre ++ [.block r.2.labels body]) = firstMatch sem v arms.zipIdx w := by
    intro W O sem ρ v hleaves good hscrutinee w
    obtain ⟨ρ', steps, hocc⟩ := scrutineeVar_steps sem good hscrutinee
    obtain ⟨pre', hpre', hrun⟩ := steps.run
    have : pre' = pre := List.append_cancel_left (hpre'.symm.trans hpre.symm)
    subst this
    have hbody : ∀ w, runSeq sem ρ' w body = runRows sem arms ρ' (failRes none) rows w := by
      refine nested_runs (compile_runs hleaves _ _ _ _ ρ' (Nat.lt_succ_self _) ?_ (armRows_ok hocc hty hlinear))
      exact ⟨steps.good.base, steps.good.var, steps.good.ty, steps.good.val⟩
    rw [runStmts_append (hrun w), runStmts_block _ hbody, runRows_armRows hocc]
  have hcount : ∀ i, (stmtsBodies (pre ++ [.block r.2.labels body])).count i ≤ 1 := by
    intro i
    have hread := hreads.count i
    rw [← hpre, stmtsBodies_append, List.count_append] at hread
    have hbody : (seqBodies body).count i ≤ 1 := (nested_count tree i).trans (armRows_count ⟨r.1, ty⟩ arms i)
    rw [stmtsBodies_append, List.count_append]
    simp only [stmtsBodies, stmtBodies, List.append_nil]
    omega
  refine ⟨pre ++ [.block r.2.labels body], ?_, hruns, fun i => ⟨hcount i, ?_⟩⟩
  · rw [matchArms_eq]
    exact (congrArg (· ++ [_]) ((nested_nested tree.grown).stmts.trans hpre.symm)).trans (List.append_assoc _ _ _)
  · rintro ⟨W, sem, ρ, v, w, w', htag, hleaves, good, hscrutinee, hfirst⟩
    have hmem := stmts_mem_bodies htag _ ((hruns sem ρ v hleaves good hscrutinee w).trans hfirst)
    have hpos := List.count_pos_iff.mpr hmem
    have := hcount i
    omega

/-- Two arms on a tuple of a list and a number, the first with a guard. -/
def guardedArms : List (Arm Nat) :=
  [⟨.tuple [.list [.bind 0] (some (.bind 1)), .lit (.int 3)], some 0, 0⟩, ⟨.tuple [.wild, .bind 0], none, 1⟩]

theorem guardedArms_runsFirstMatch :
    RunsFirstMatch ⟨fun _ => [], fun _ => ""⟩ (fun _ => false) (some (.var 0)) (.tuple [.list .string, .int]) guardedArms
      ⟨[.tuple [.list .string, .int]], 0, [], [], []⟩ := by
  refine matchArms_runsFirstMatch _ (fun a ha => ?_) (fun a ha => ?_)
  · simp only [guardedArms, List.mem_cons, List.not_mem_nil, or_false] at ha
    rcases ha with rfl | rfl
    · refine .tuple (.cons (.list (fun p hp => ?_) fun r hr => ?_) (.cons .lit .nil))
      · cases List.mem_singleton.mp hp
        exact .bind
      · cases hr
        exact .bind
    · exact .tuple (.cons .wild (.cons .bind .nil))
  · simp only [guardedArms, List.mem_cons, List.not_mem_nil, or_false] at ha
    rcases ha with rfl | rfl <;> decide

end

/-- A later arm that the arms before it leave nothing to has no body in the code. -/
theorem matchArms_drops_body :
    ¬ ∀ (arms : List (Arm Unit)) (s : Lower Unit), (∀ a ∈ arms, PatTy ⟨fun _ => [], fun _ => ""⟩ a.pat .unit) →
      (∀ a ∈ arms, a.pat.locals.Nodup) → ∀ i < arms.length,
        (stmtsBodies (matchArms ⟨fun _ => [], fun _ => ""⟩ (fun _ => false) none .unit arms s).stmts).count i =
          (stmtsBodies s.stmts).count i + 1 := by
  intro h
  have := h [⟨.wild, none, ()⟩, ⟨.wild, none, ()⟩] ⟨[], 0, [], [], []⟩
    (fun a ha => by
      rcases List.mem_cons.mp ha with rfl | ha
      · exact .wild
      · cases List.mem_singleton.mp ha
        exact .wild)
    (fun a ha => by
      rcases List.mem_cons.mp ha with rfl | ha
      · exact List.nodup_nil
      · cases List.mem_singleton.mp ha
        exact List.nodup_nil) 1 (by decide)
  exact absurd this (by decide)

end Emela.Match
