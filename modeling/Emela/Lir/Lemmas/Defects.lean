import Emela.Lir.Lemmas.Rebuilt

/-!
# The simulation

Each part of the code, rebuilt, does what it means and then leaves the regions its way out leaves. The proof
follows the code; a cleanup is met again wherever it is copied.
-/

namespace Emela.Lir.Implicit

variable {α W D : Type} {R : Runtime α W D} {calls : Calls α W D} {fuel : Nat}
  {X : Set VarId} {L : Set LabelId} {τ : Target} {stack : List Encl} {regions : List (Region α W D)} {Γ : Scope}
  {b b' : Build} {ρ ρ' : Env (Val α D)}

/-! ## Ways out -/

theorem Ready.leave_exit (h : Ready R calls fuel X L τ stack regions Γ b ρ ρ') {n : Nat} (hn : n ≤ stack.length)
    (hp : Protects (stack.take n)) {term : Lir.Term} {e : WayOut (Val α D) Unit}
    (hterm : Explicit.runTerm R ρ' term = some e) (w : W) :
    Explicit.runSeq R calls fuel (.mk (exit false (stack.length - n) stack b).1 term) ρ' (w, none) =
      leaving R n regions e w := by
  rw [Implicit.leave_exit h.vars h.stacked h.grows hn hp, hterm, leaving, Option.map_eq_bind]
  refine Option.bind_congr fun r _ => ?_
  rcases r with ⟨_ | d, w'⟩ <;> rfl

/-- Leaving the function leaves the whole stack. -/
theorem Ready.leave_function (h : Ready R calls fuel X L τ stack regions Γ b ρ ρ') (hl : Γ.leaves = true)
    {term : Lir.Term} {e : WayOut (Val α D) Unit} (hterm : Explicit.runTerm R ρ' term = some e) (w : W) :
    Explicit.runSeq R calls fuel (.mk (exit false 0 stack b).1 term) ρ' (w, none) =
      leaving R regions.length regions e w := by
  have hp : Protects (stack.take stack.length) := by simpa using h.leaves hl
  simpa [h.stacked.length_eq] using h.leave_exit le_rfl hp hterm w

/-- A `break` leaves what is above its block. -/
theorem Ready.leave_block (h : Ready R calls fuel X L τ stack regions Γ b ρ ρ') {l : LabelId} (hl : l ∈ Γ.labels)
    {v : Option Operand} {x : Option (Val α D)} (hv : v.map (R.operand ρ') = x) (w : W) :
    b.label l = b ∧ Explicit.runSeq R calls fuel (.mk (exit false (b.depth l) stack b).1 (.break (b.subLabel l) v)) ρ' (w, none) =
      leaving R (regions.length - τ.depth l) regions (.break (τ.label l) x) w := by
  have hplaced := (h.labels l hl).2
  have hlabel : b.label l = b := by simp [Build.label, hplaced.label]
  have hterm : Explicit.runTerm R ρ' (.break (b.subLabel l) v) = some (.break (τ.label l) x) := by
    simp [Explicit.runTerm, Build.subLabel, hplaced.label, hv]
  have hleave := h.leave_exit (Nat.sub_le ..) hplaced.protects hterm w
  rw [Nat.sub_sub_self hplaced.le, ← hplaced.depth] at hleave
  refine ⟨hlabel, ?_⟩
  rw [hleave, h.stacked.length_eq, hplaced.depth]

theorem Ready.unwind_exit (h : Ready R calls fuel X L τ stack regions Γ b ρ ρ') (w : W) (d : D) :
    Explicit.runSeq R calls fuel (.mk (exit true 0 stack b).1 .unwind) ρ' (w, some d) =
      left R τ regions false w (.raise d) := Implicit.unwind_exit h.vars h.stacked h.grows w d

theorem raise_run (msg : Operand) (ρ : Env (Val α D)) (w : W) :
    Explicit.runStmt R calls fuel (runtime none .defect [msg]) ρ (w, none) =
      some (.next ρ, (w, some (R.raised (R.operand ρ msg) none))) := rfl

theorem raise_at_run (msg location : Operand) (ρ : Env (Val α D)) (w : W) :
    Explicit.runStmt R calls fuel (runtime none .defectAt [msg, location]) ρ (w, none) =
      some (.next ρ, (w, some (R.raised (R.operand ρ msg) (some (R.operand ρ location))))) := rfl

theorem term_rebuilt (h : Ready R calls fuel X L τ stack regions Γ b ρ ρ') (src : List VarData) {top : Bool}
    (htop : top = true → stack ≠ [] ∧ Protects (stack.take 1)) {term : Term} (ht : ScopedTerm Γ term) (w : W) :
    Explicit.runSeq R calls fuel
        (.mk (explicitTerm src stack top term b).1.1 (explicitTerm src stack top term b).1.2) ρ' (w, none) =
      ((runTerm R ρ term).map (·, w)).bind fun r => left R τ regions top r.2 r.1 := by
  obtain ⟨hvars, ht⟩ := ht
  have hsee : b.seeOperands src term.operands = b := h.agrees.seeOperands src hvars
  cases term with
  | yield v =>
      have hv := h.agrees.option (R := R) hvars
      have hterm : Explicit.runTerm R ρ' (.yield (v.map (·.rename b.sub))) = some (.yield (v.map (R.operand ρ))) := by
        simp [Explicit.runTerm, hv]
      simp only [explicitTerm, hsee, runTerm, Option.map_some, Option.bind_some, left]
      cases top with
      | true =>
          have hlen : 1 ≤ stack.length := List.length_pos_iff.mpr (htop rfl).1
          exact h.leave_exit hlen (htop rfl).2 hterm w
      | false => simp [runSeq_nil, hterm]
  | «return» v =>
      have hv := h.agrees.option (R := R) hvars
      simp only [explicitTerm, hsee, runTerm, Option.map_some, Option.bind_some, left]
      exact h.leave_function ht (by simp [Explicit.runTerm, hv]) w
  | fail v =>
      have hv := h.agrees.operand (R := R) (o := v) fun x hx => hvars x (List.mem_filterMap.mpr ⟨v, by simp [Term.operands], hx⟩)
      simp only [explicitTerm, hsee, runTerm, Option.map_some, Option.bind_some, left]
      exact h.leave_function ht (by simp [Explicit.runTerm, hv]) w
  | «break» l v =>
      obtain ⟨hlabel, hleave⟩ := h.leave_block ht (h.agrees.option (R := R) hvars) w
      simp only [explicitTerm, hsee, hlabel, runTerm, Option.map_some, Option.bind_some, left]
      exact hleave
  | recur args =>
      have hargs := h.agrees.operands (R := R) hvars
      simp only [explicitTerm, hsee, runTerm, Option.map_some, Option.bind_some, left]
      simpa [runSeq_nil, Explicit.runTerm, Term.operands] using hargs
  | defect msg location =>
      have hmsg := h.agrees.operand (R := R) (o := msg) fun x hx => hvars x (List.mem_filterMap.mpr ⟨msg, by simp [Term.operands], hx⟩)
      simp only [explicitTerm, hsee, runTerm, Option.map_some, Option.bind_some]
      cases location with
      | none => rw [runSeq_cons, raise_run, Option.bind_some, andThen, h.unwind_exit, hmsg]; rfl
      | some l => rw [runSeq_cons, raise_at_run, Option.bind_some, andThen, h.unwind_exit, hmsg]; rfl
  | unreachable => rfl

/-! ## Landings -/

theorem landing_rebuilt (h : Ready R calls fuel X L τ stack regions Γ b ρ ρ') {edge : OnFail} (he : ScopedFail Γ edge)
    (error : Val α D) (w : W) :
    Explicit.runFail R calls fuel error (some (landing stack edge b).1) ρ' (w, none) =
      (left R τ regions false w (failed error edge)).map fun x => (.exit x.1, x.2) := by
  have hready : Ready R calls fuel X L τ stack regions Γ (b.alloc ⟨"e", .ref⟩) ρ
      (Function.update ρ' b.vars.length error) :=
    h.later (Build.Extends.alloc (X := ∅) (L := ∅) _) (by simp) (by simp) fun t ht => Function.update_of_ne ht.ne ..
  have hpasses : ∀ e : WayOut (Val α D) D, (∀ v, e ≠ .yield v) → ∀ q : Lir.Seq,
      Explicit.runSeq R calls fuel q (Function.update ρ' b.vars.length error) (w, none) = left R τ regions false w e →
      Explicit.runFail R calls fuel error (some (b.vars.length, q)) ρ' (w, none) =
        (left R τ regions false w e).map fun x => (.exit x.1, x.2) := by
    intro e he q hq
    rw [Explicit.runFail, hq]
    exact left_passes (fun _ => landed_exit) he w
  cases edge with
  | «break» l =>
      obtain ⟨hlabel, hleave⟩ := hready.leave_block he (v := some (.var b.vars.length)) (x := some error)
        (by simp [Runtime.operand]) w
      refine hpasses (.break l (some error)) (by rintro _ ⟨⟩) _ ?_
      simp only [exitSeq, hlabel, left]
      exact hleave
  | propagate =>
      refine hpasses (.fail error) (by rintro _ ⟨⟩) _ ?_
      simp only [exitSeq, left]
      exact hready.leave_function he (by simp [Explicit.runTerm, Runtime.operand]) w

theorem defect_rebuilt (h : Ready R calls fuel X L τ stack regions Γ b ρ ρ') {flags : List Bool} {v : Value}
    (hv : mayDefect flags v = true) (w : W) (d : D) :
    (Explicit.runOption R calls fuel (explicitDefect flags stack v b).1 ρ' (w, some d)).bind
        (fun r => (landed r.1).map (·, r.2)) =
      (left R τ regions false w (.raise d)).map fun x => (.exit x.1, x.2) := by
  simp only [explicitDefect, hv, if_true, exitSeq, Explicit.runOption]
  rw [h.unwind_exit]
  exact left_passes (e := .raise d) (fun _ => landed_exit) (by rintro _ ⟨⟩) w

/-! ## The test of a divisor -/

theorem runStmts_append (a stmts : List Lir.Stmt) (ρ : Env (Val α D)) (s : W × Option D) :
    Explicit.runStmts R calls fuel (a ++ stmts) ρ s = (Explicit.runStmts R calls fuel a ρ s).bind fun
      | (.next ρ, s) => Explicit.runStmts R calls fuel stmts ρ s
      | (.exit e, s) => some (.exit e, s) := by
  induction a generalizing ρ s with
  | nil => rfl
  | cons stmt a ih =>
      rw [List.cons_append, Explicit.runStmts, Explicit.runStmts, Option.bind_assoc]
      refine Option.bind_congr fun r _ => ?_
      rcases r with ⟨ρ | e, s⟩
      · exact ih ρ s
      · rfl

theorem runStmts_one (stmt : Lir.Stmt) (ρ : Env (Val α D)) (s : W × Option D) :
    Explicit.runStmts R calls fuel [stmt] ρ s = Explicit.runStmt R calls fuel stmt ρ s := by
  rcases h : Explicit.runStmt R calls fuel stmt ρ s with _ | ⟨_ | e, s⟩ <;> simp [Explicit.runStmts, h]

/-- Comparing an integer with zero. -/
theorem eq_zero_value {ty : PrimTy} (hty : ty = .i32 ∨ ty = .i64) (o : Operand) (w : W) :
    R.value calls ρ (.prim .eq ty [o, .const (zeroConst ty)]) w = match R.operand ρ o with
      | .int n => some (.value (some (.int (if n = 0 then 1 else 0))), w)
      | _ => none := by
  have hzero : R.operand ρ (.const (zeroConst ty)) = .int 0 := by rcases hty with rfl | rfl <;> rfl
  cases ho : R.operand ρ o <;> rcases hty with rfl | rfl <;>
    simp [Runtime.value, Runtime.arith, divides, ho, hzero]

/-- The test raises a defect when its value is zero, and goes on when it is another integer. -/
theorem zeroTest_rebuilt (h : Ready R calls fuel X L τ stack regions Γ b ρ ρ') (src : List VarData) {ty : PrimTy}
    (hty : ty = .i32 ∨ ty = .i64) {o : Operand} (ho : ∀ v ∈ o.var?, v ∈ Γ.vars) (w : W) :
    match R.operand ρ o with
    | .int n =>
        if n = 0 then Explicit.runStmts R calls fuel (zeroTest src stack ty o b).1 ρ' (w, none) =
          (left R τ regions false w (.raise R.divisionByZero)).map fun x => (.exit x.1, x.2)
        else ∃ ρ1', Explicit.runStmts R calls fuel (zeroTest src stack ty o b).1 ρ' (w, none) =
            some (.next ρ1', (w, none)) ∧
          Ready R calls fuel X L τ stack regions Γ (zeroTest src stack ty o b).2 ρ ρ1'
    | _ => Explicit.runStmts R calls fuel (zeroTest src stack ty o b).1 ρ' (w, none) = none := by
  have hb : b.seeOperands src [o] = b := h.agrees.seeOperand src ho
  have htest : Explicit.runStmt R calls fuel
      (.let (some b.vars.length) (.prim .eq ty [o.rename b.sub, .const (zeroConst ty)]) none none none) ρ' (w, none) =
        match R.operand ρ o with
        | .int n => some (.next (Function.update ρ' b.vars.length (.int (if n = 0 then 1 else 0))), (w, none))
        | _ => none := by
    simp only [Explicit.runStmt, Explicit.runSlot]
    rw [eq_zero_value hty, h.agrees.operand ho]
    cases R.operand ρ o <;> rfl
  have hready : ∀ y : Val α D, Ready R calls fuel X L τ stack regions Γ (b.alloc ⟨"zero", .i32⟩) ρ
      (Function.update ρ' b.vars.length y) := fun y =>
    h.later (Build.Extends.alloc (X := ∅) (L := ∅) _) (by simp) (by simp) fun t ht => Function.update_of_ne ht.ne ..
  simp only [zeroTest, hb]
  rw [Explicit.runStmts, htest]
  cases R.operand ρ o with
  | int n =>
      simp only [Option.bind_some, runStmts_one, Explicit.runStmt, Runtime.operand, Function.update_self]
      by_cases hn : n = 0
      · have hthen : Explicit.runSeq R calls fuel
            (.mk (runtime none .defect [.const (.string "division by zero")] ::
              (exit true 0 stack (b.alloc ⟨"zero", .i32⟩)).1) .unwind)
            (Function.update ρ' b.vars.length (.int 1)) (w, none) = left R τ regions false w (.raise R.divisionByZero) := by
          rw [runSeq_cons, raise_run]
          exact (hready (.int 1)).unwind_exit w R.divisionByZero
        have hjoin : (left R τ regions false w (.raise R.divisionByZero)).bind
            (fun r => (join none (Function.update ρ' b.vars.length (.int 1)) r.1).map (·, r.2)) = _ :=
          left_passes (e := .raise R.divisionByZero) (fun _ => join_exit _ _) (by rintro _ ⟨⟩) w
        simpa [hn, Runtime.truth, hthen] using hjoin
      · have he := (Build.Extends.alloc (b := b) (X := X) (L := L) ⟨"zero", .i32⟩).trans (exit_extends h.grows true 0 _)
        simp only [hn, if_false]
        exact ⟨Function.update ρ' b.vars.length (.int 0), by simp [Runtime.truth, runSeq_nil, Explicit.runTerm, join, define],
          h.later he h.vars (fun l hl => (h.labels l hl).1) fun t ht => Function.update_of_ne ht.ne ..⟩
  | defect d => rfl
  | other x => rfl

/-! ## Values -/

/-- What the test before a value does: it raises a defect when the value divides by zero, and otherwise goes on,
unless the value goes wrong. -/
theorem test_rebuilt (h : Ready R calls fuel X L τ stack regions Γ b ρ ρ') (src : List VarData) {v : Value}
    (hv : Γ.has v.vars) (w : W) :
    if dividesByZero R ρ v then
      Explicit.runStmts R calls fuel (explicitTest src stack v b).1 ρ' (w, none) =
        (left R τ regions false w (.raise R.divisionByZero)).map fun x => (.exit x.1, x.2)
    else
      (∃ ρ1', Explicit.runStmts R calls fuel (explicitTest src stack v b).1 ρ' (w, none) = some (.next ρ1', (w, none)) ∧
        Ready R calls fuel X L τ stack regions Γ (explicitTest src stack v b).2 ρ ρ1') ∨
      Explicit.runStmts R calls fuel (explicitTest src stack v b).1 ρ' (w, none) = none ∧ R.value calls ρ v w = none := by
  have hskip : ∀ {r : List Lir.Stmt × Build}, r = ([], b) →
      ∃ ρ1', Explicit.runStmts R calls fuel r.1 ρ' (w, none) = some (.next ρ1', (w, none)) ∧
        Ready R calls fuel X L τ stack regions Γ r.2 ρ ρ1' := fun hr => ⟨ρ', by rw [hr]; rfl, by rw [hr]; exact h⟩
  cases v with
  | prim op ty args =>
      by_cases hz : needsZeroTest op ty args = true
      · have hdiv : divides op ty = true := (Bool.and_eq_true_iff.mp hz).1
        have hty : ty = .i32 ∨ ty = .i64 := by
          cases op <;> cases ty <;> simp [divides] at hdiv ⊢
        rcases args with _ | ⟨a, _ | ⟨o, args⟩⟩
        · simp only [dividesByZero, Runtime.divisor, List.map_nil]
          simpa using .inl (hskip rfl)
        · simp only [dividesByZero, Runtime.divisor, List.map_cons, List.map_nil]
          simpa using .inl (hskip rfl)
        · have ho : ∀ v ∈ o.var?, v ∈ Γ.vars := fun x hx =>
            hv x (List.mem_filterMap.mpr ⟨o, by simp, hx⟩)
          have htest : explicitTest src stack (.prim op ty (a :: o :: args)) b = zeroTest src stack ty o b := by
            simp [explicitTest, hz]
          have hzero := zeroTest_rebuilt h src hty ho w
          rw [htest]
          simp only [dividesByZero, hdiv, Bool.true_and, List.map_cons]
          cases hx : R.operand ρ o with
          | int n =>
              rw [hx] at hzero
              by_cases hn : n = 0
              · simpa [Runtime.divisor, hn] using hzero
              · simp only [hn, if_false] at hzero
                simpa [Runtime.divisor, hn] using .inl hzero
          | defect d =>
              rw [hx] at hzero
              simpa [Runtime.divisor, Runtime.value, Runtime.arith, hdiv, hx] using .inr hzero
          | other x =>
              rw [hx] at hzero
              simpa [Runtime.divisor, Runtime.value, Runtime.arith, hdiv, hx] using .inr hzero
      · have hnot : dividesByZero R ρ (.prim op ty args) = false := by
          simp only [dividesByZero, Bool.and_eq_false_imp, decide_eq_false_iff_not]
          exact fun hd => divisor_ne_zero R hd (Bool.eq_false_iff.mpr hz)
        rw [hnot, if_neg Bool.false_ne_true]
        refine .inl (hskip ?_)
        simp only [explicitTest, hz]
        split <;> rfl
  | _ => exact .inl (hskip rfl)

theorem let_rebuilt (h : Ready R calls fuel X L τ stack regions Γ b ρ ρ') (src : List VarData) {flags : List Bool}
    (hq : Quiet flags calls) {dst : Option VarId} {v : Value} {onFail : Option OnFail}
    (hs : ScopedStmt Γ (.let dst v onFail)) (hdst : ∀ d ∈ dst, d ∉ Γ.vars ∧ d ∉ X) (w : W) :
    Follows R calls fuel X L τ stack regions (Γ.define dst) (explicitLet src flags stack dst v onFail b).2
      (runLet R calls dst v onFail ρ w)
      (Explicit.runStmts R calls fuel (explicitLet src flags stack dst v onFail b).1 ρ' (w, none)) := by
  obtain ⟨hvars, hearly, hfail⟩ := hs
  have htest := test_rebuilt h src hvars w
  simp only [explicitLet]
  rw [runStmts_append, runLet, value]
  split at htest
  · rename_i hz
    rw [htest, if_pos hz]
    refine ⟨by rintro _ ⟨⟩, ?_⟩
    cases left R τ regions false w (.raise R.divisionByZero) <;> rfl
  · rename_i hz
    rw [if_neg hz]
    rcases htest with ⟨ρ1', htest, h1⟩ | ⟨htest, hnone⟩
    · have hsee : (explicitTest src stack v b).2.see src v.vars = (explicitTest src stack v b).2 :=
        h1.agrees.see src hvars
      have hvalue : R.value calls ρ1' (v.rename (explicitTest src stack v b).2.sub) w = R.value calls ρ v w :=
        value_rename R calls w fun x hx => h1.agrees.sub (hvars x hx)
      rw [htest, hsee]
      simp only [Option.bind_some, runStmts_one, Explicit.runStmt, runSlot_early R hearly, hvalue]
      rcases hr : R.value calls ρ v w with _ | ⟨out, w1⟩
      · rfl
      · simp only [Option.bind_some]
        cases out with
        | value x =>
            have hgrow := (explicitFail_extends h1.grows onFail (explicitTest src stack v b).2).trans
              (explicitDefect_extends flags h1.grows (v.rename (explicitTest src stack v b).2.sub) _)
            have h2 := h1.later hgrow h1.vars (fun l hl => (h1.labels l hl).1) fun _ _ => rfl
            have hdef := h2.define src hdst x
            split at hdef
            · rename_i hnone
              simp only [hnone, hdef, Option.map_none]
              rfl
            · rename_i ρ2 hsome
              obtain ⟨ρ2', hdef, h3⟩ := hdef
              simp only [hsome, hdef, Option.map_some]
              exact ⟨ρ2', rfl, h3⟩
        | fail error =>
            cases onFail with
            | none => rfl
            | some edge =>
                simp only [Option.map_some]
                refine ⟨fun x hx => ?_, landing_rebuilt h1 (hfail edge rfl) error w1⟩
                cases edge <;> cases hx
        | defect d =>
            have hmay : mayDefect flags (v.rename (explicitTest src stack v b).2.sub) = true := by
              rw [mayDefect_rename]
              exact value_defect R hq hr
            have hgrow := explicitFail_extends h1.grows onFail (explicitTest src stack v b).2
            have h2 := h1.later hgrow h1.vars (fun l hl => (h1.labels l hl).1) fun _ _ => rfl
            exact ⟨by rintro _ ⟨⟩, defect_rebuilt h2 hmay w1 d⟩
    · rw [htest, hnone]
      rfl

end Emela.Lir.Implicit
