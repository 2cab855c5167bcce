import Emela.Match.Lemmas.Bodies

/-!
# Running a tree

The code of the rows does what trying the rows in order does.
-/

namespace Emela.Match

open Lir (VarId EnumId CtorRef LabelId Const)

variable {Expr W O : Type} {core : Core} {sem : Exprs Expr W O} {arms : List (Arm Expr)}

/-- What `failExit` does. -/
def failRes (fail : Option LabelId) (w : W) : Res O × W :=
  match fail with
  | some label => (.break label, w)
  | none => (.defect "unreachable: no match arm matched", w)

theorem runTerm_failExit (ρ : Store) (w : W) (fail : Option LabelId) :
    runTerm sem ρ w (failExit fail) = failRes fail w := by
  cases fail <;> rfl

/-- What the rest of a sequence does with the result of what is before it. -/
def andThen (sem : Exprs Expr W O) (stmts : List (Stmt Expr)) (term : Term Expr) : Res O × W → Res O × W
  | (.next ρ, w) => runSeq sem ρ w (.mk stmts term)
  | r => r

theorem runSeq_cons (ρ : Store) (w : W) (stmt : Stmt Expr) (stmts : List (Stmt Expr)) (term : Term Expr) :
    runSeq sem ρ w (.mk (stmt :: stmts) term) = andThen sem stmts term (runStmt sem ρ w stmt) := by
  rw [runSeq, runStmts]
  rcases runStmt sem ρ w stmt with ⟨r, w⟩
  cases r with
  | next ρ => simp only [andThen, runSeq]
  | _ => rfl

theorem runSeq_append {ρ ρ' : Store} {w w' : W} {stmts : List (Stmt Expr)}
    (h : runStmts sem ρ w stmts = (.next ρ', w')) (more : List (Stmt Expr)) (term : Term Expr) :
    runSeq sem ρ w (.mk (stmts ++ more) term) = runSeq sem ρ' w' (.mk more term) := by
  rw [runSeq, runSeq, runStmts_append h]

/-! ## Rows and trees -/

/-- Rows that can be tried. -/
structure RowsOk (core : Core) (arms : List (Arm Expr)) (vars : List Ty) (ρ : Store) (rows : List Row) : Prop where
  ok : ∀ row ∈ rows, RowOk core vars ρ row
  linear : ∀ row ∈ rows, Linear ρ row
  arm : ∀ row ∈ rows, row.arm < arms.length

/-- The code added to `s` tries the rows. -/
def Runs (sem : Exprs Expr W O) (arms : List (Arm Expr)) (ρ : Store) (rows : List Row) (fail : Option LabelId)
    (s : Lower Expr) (r : Term Expr × Lower Expr) : Prop :=
  ∃ stmts, r.2.stmts = s.stmts ++ stmts ∧
    ∀ w, runSeq sem ρ w (.mk stmts r.1) = runRows sem arms ρ (failRes fail) rows w

section
variable {k : Nat} {s s' : Lower Expr} {ρ ρ' : Store} {rows rows' : List Row} {r : List Row × Lower Expr}
  {t : Term Expr × Lower Expr} {fail : Option LabelId} {vars vars' : List Ty}

theorem RowsOk.mono (h : RowsOk core arms vars ρ rows) (hsub : ∀ row ∈ rows', row ∈ rows) :
    RowsOk core arms vars ρ rows' :=
  ⟨fun row hr => h.ok row (hsub row hr), fun row hr => h.linear row (hsub row hr), fun row hr => h.arm row (hsub row hr)⟩

theorem RowsOk.ext (h : RowsOk core arms vars ρ rows) (hext : Ext vars ρ vars' ρ') : RowsOk core arms vars' ρ' rows :=
  ⟨fun row hr => (h.ok row hr).ext hext, fun row hr => (h.linear row hr).ext (h.ok row hr) hext, h.arm⟩

theorem Refines.arm_lt {n : Nat} (h : Refines ρ ρ' rows rows') (harm : ∀ row ∈ rows, row.arm < n) :
    ∀ row ∈ rows', row.arm < n := by
  induction h with
  | nil => simp
  | keep hrow _ _ ih =>
      intro r hr
      rcases List.mem_cons.mp hr with rfl | hr
      · rw [hrow]
        exact harm _ (by simp)
      · exact ih (fun row hrow => harm row (List.mem_cons_of_mem _ hrow)) r hr
  | skip _ _ ih => exact ih fun row hrow => harm row (List.mem_cons_of_mem _ hrow)

theorem RowsTo.rowsOk (h : RowsTo core sem k s ρ rows r ρ') (ok : RowsOk core arms s.vars ρ rows) :
    RowsOk core arms r.2.vars ρ' r.1 :=
  ⟨h.ok, h.refines.linear ok.linear, h.refines.arm_lt ok.arm⟩

theorem Steps.runs (h : Steps core sem s ρ s' ρ') (ok : ∀ row ∈ rows, RowOk core s.vars ρ row)
    (ht : Runs sem arms ρ' rows fail s' t) : Runs sem arms ρ rows fail s t := by
  obtain ⟨stmts, hstmts, hrun⟩ := h.run
  obtain ⟨more, hmore, hrows⟩ := ht
  refine ⟨stmts ++ more, by rw [hmore, hstmts, List.append_assoc], fun w => ?_⟩
  rw [runSeq_append (hrun w), hrows, runRows_ext ok h.ext]

theorem RowsTo.runs (h : RowsTo core sem k s ρ rows r ρ') (ok : RowsOk core arms s.vars ρ rows)
    (ht : Runs sem arms ρ' r.1 fail r.2 t) : Runs sem arms ρ rows fail s t := by
  obtain ⟨stmts, hstmts, hrun⟩ := h.steps.run
  obtain ⟨more, hmore, hrows⟩ := ht
  refine ⟨stmts ++ more, by rw [hmore, hstmts, List.append_assoc], fun w => ?_⟩
  rw [runSeq_append (hrun w), hrows, h.refines.runRows ok.linear]

theorem nested_runs {act : Lower Expr → Term Expr × Lower Expr}
    (h : Runs sem arms ρ rows fail { s with stmts := [] } (act { s with stmts := [] })) (w : W) :
    runSeq sem ρ w (s.nested act).1 = runRows sem arms ρ (failRes fail) rows w := by
  obtain ⟨stmts, hstmts, hrun⟩ := h
  rw [List.nil_append] at hstmts
  simp only [Lower.nested, hstmts]
  exact hrun w

/-- A statement whose branches try the rows, after which nothing can be reached. -/
theorem runs_stmt {stmt : Stmt Expr} {term : Term Expr} (hs : s'.stmts = s.stmts)
    (hrun : ∀ w, runStmt sem ρ w stmt = leave ρ (runRows sem arms ρ (failRes fail) rows w)) :
    Runs sem arms ρ rows fail s (term, s'.push stmt) := by
  refine ⟨[stmt], by rw [← hs]; rfl, fun w => ?_⟩
  rw [runSeq_cons, hrun]
  have hf : ∀ o w, (andThen sem [] term ∘ leave ρ) (.done o, w) = (.done o, w) := fun _ _ => rfl
  refine (runRows_map hf ρ _ rows w).trans ?_
  congr
  funext w
  cases fail <;> rfl

end

/-! ## The rows of a block -/

/-- The rows all test `v`, whose value is `val`. -/
structure Block (core : Core) (arms : List (Arm Expr)) (s : Lower Expr) (ρ : Store) (v : VarId) (ty : Ty) (val : Val)
    (rows : List Row) : Prop where
  good : Good core s ρ
  rowsOk : RowsOk core arms s.vars ρ rows
  varTy : s.vars[v]? = some ty
  varVal : ρ v = some val
  hasTy : HasTy core val ty
  on : ∀ row ∈ rows, (row.testOn v).isSome = true
  normal : AllNormal rows

/-- `compile` is right for rows smaller than `n`. -/
def Correct (core : Core) (sem : Exprs Expr W O) (arms : List (Arm Expr))
    (compile : List Row → Option LabelId → Lower Expr → Term Expr × Lower Expr) (n : Nat) : Prop :=
  ∀ rows fail s ρ, rowsSize rows < n → Good core s ρ → RowsOk core arms s.vars ρ rows →
    Runs sem arms ρ rows fail s (compile rows fail s)

theorem rowsSize_pos {rows : List Row} (h : rows ≠ []) : 0 < rowsSize rows := by
  cases rows with
  | nil => exact absurd rfl h
  | cons row rows =>
      simp only [rowsSize, List.map_cons, List.sum_cons, Row.size]
      omega

section
variable {s s' : Lower Expr} {ρ ρ' : Store} {v : VarId} {ty : Ty} {val : Val} {rows : List Row}
  {compile : List Row → Option LabelId → Lower Expr → Term Expr × Lower Expr}

theorem Block.ext (h : Block core arms s ρ v ty val rows) (hext : Ext s.vars ρ s'.vars ρ') (good : Good core s' ρ') :
    Block core arms s' ρ' v ty val rows where
  good := good
  rowsOk := h.rowsOk.ext hext
  varTy := (getElem?_of_le hext.types (lt_of_getElem?_eq h.varTy)).trans h.varTy
  varVal := (hext.agree v (lt_of_getElem?_eq h.varTy)).trans h.varVal
  hasTy := h.hasTy
  on := h.on
  normal := h.normal

theorem Block.nested (h : Block core arms s ρ v ty val rows) (hn : Nested s s') : Block core arms s' ρ v ty val rows :=
  have hext : Ext s.vars ρ s'.vars ρ := ⟨hn.vars, fun _ _ => rfl⟩
  h.ext hext (h.good.ext hext hn.cache)

theorem Block.clear (h : Block core arms s ρ v ty val rows) : Block core arms { s with stmts := [] } ρ v ty val rows :=
  ⟨⟨h.good.base, h.good.var, h.good.ty, h.good.val⟩, h.rowsOk, h.varTy, h.varVal, h.hasTy, h.on, h.normal⟩

/-- The test of a row of the block. -/
theorem Block.test (h : Block core arms s ρ v ty val rows) {row : Row} (hrow : row ∈ rows) :
    ∃ p, row.testOn v = some p ∧ PatTy core p.toPat ty ∧ p.normal = true := by
  obtain ⟨p, hp⟩ := Option.isSome_iff_exists.mp (h.on row hrow)
  obtain ⟨occ, pre, post, htests, hv, -⟩ := takeTest_eq hp
  exact ⟨p, hp, (h.rowsOk.ok row hrow).patTy htests hv h.varTy, h.normal row hrow (occ, p) (by simp [htests])⟩

/-- The rows of one case are compiled. -/
theorem RowsTo.compiled {r : List Row × Lower Expr} (h : RowsTo core sem 1 s ρ rows r ρ') (hne : rows ≠ [])
    (ok : RowsOk core arms s.vars ρ rows) (hrec : Correct core sem arms compile (rowsSize rows)) (fail : Option LabelId) :
    Runs sem arms ρ rows fail s (compile r.1 fail r.2) := by
  refine h.runs ok (hrec _ fail _ _ ?_ h.steps.good (h.rowsOk ok))
  have hsize := h.size
  have hpos := rowsSize_pos hne
  cases hr : r.1 with
  | nil => simpa [rowsSize] using hpos
  | cons row more =>
      rw [hr] at hsize
      simp only [List.length_cons] at hsize
      omega

/-! ## Constructors -/

theorem HasTy.enum_inv {id : EnumId} {args : List Ty} (h : HasTy core val (.enum id args)) :
    (∃ k fields tys, val = .ctor ⟨id, k⟩ fields ∧ core.fields id k args = some tys ∧
      List.Forall₂ (HasTy core) fields tys) ∨ core.variants id = [] := by
  cases h with
  | ctor hfields hvals => exact .inl ⟨_, _, _, rfl, hfields, hvals⟩
  | host h => exact .inr h

theorem fields_lt {id : EnumId} {k : Nat} {args tys : List Ty} (h : core.fields id k args = some tys) :
    k < (core.variants id).length := by
  obtain ⟨_, hk, _⟩ := Option.map_eq_some_iff.mp h
  exact lt_of_getElem?_eq hk

/-- The constructor a row of the block tests for. -/
theorem Block.variantOf {id : EnumId} {args : List Ty} (h : Block core arms s ρ v (.enum id args) val rows) {row : Row}
    (hrow : row ∈ rows) : ∃ k, variantOf v row = some k ∧ k < (core.variants id).length := by
  obtain ⟨p, hp, hty, hnormal⟩ := h.test hrow
  obtain ⟨c, ps, rfl⟩ := PatRef.ctor_of_normal hty hnormal
  obtain ⟨-, tys, hfields, -⟩ := hty.ctor_inv
  exact ⟨c.variant, by simp only [Match.variantOf, hp], fields_lt hfields⟩

theorem ctorTree_runs {id : EnumId} {args tys : List Ty} {k : Nat} {fields : List Val}
    (h : Block core arms s ρ v (.enum id args) (.ctor ⟨id, k⟩ fields) rows) (hne : rows ≠ [])
    (hrec : Correct core sem arms compile (rowsSize rows)) (hfields : core.fields id k args = some tys)
    (hvals : List.Forall₂ (HasTy core) fields tys) (fail : Option LabelId) :
    Runs sem arms ρ rows fail s (ctorTree core compile v id args rows fail k s) := by
  obtain ⟨ρ', hto⟩ := specializeRows_spec sem hfields hvals rows h.good h.rowsOk.ok h.varTy h.varVal h.on h.normal
  exact hto.compiled hne h.rowsOk hrec fail

/-- The case of the value's constructor, if there is one. -/
theorem enumCases_runs {id : EnumId} {args tys : List Ty} {k : Nat} {fields : List Val}
    (h : Block core arms s ρ v (.enum id args) (.ctor ⟨id, k⟩ fields) rows) (hne : rows ≠ [])
    (htree : ∀ rows fail s, Tree rows s (compile rows fail s)) (hrec : Correct core sem arms compile (rowsSize rows))
    (hfields : core.fields id k args = some tys) (hvals : List.Forall₂ (HasTy core) fields tys) (fail : Option LabelId)
    (ks : List Nat) (w : W) :
    runCases sem ρ w (.ctor ⟨id, k⟩ fields) (enumCases core compile v id args rows fail ks s).1 =
      if k ∈ ks then some (runRows sem arms ρ (failRes fail) rows w) else none := by
  induction ks generalizing s with
  | nil => rfl
  | cons k' ks ih =>
      rw [enumCases_cons]
      dsimp only
      rw [runCases]
      by_cases hk : k' = k
      · subst hk
        have hruns := nested_runs (ctorTree_runs h.clear hne hrec hfields hvals fail) w
        simp [switchMatches, hruns]
      · have htree' := ctorTree_tree core htree v id args rows fail k' { s with stmts := [] }
        have hkey : switchMatches (.ctor ⟨id, k⟩ fields) (.variant k') = false := by
          simpa [switchMatches] using Ne.symm hk
        rw [hkey, ih (h.nested (nested_nested htree'.grown))]
        simp [Ne.symm hk]

/-! ## Literals -/

/-- The types whose values are tested for literals. -/
def Ty.isLit : Ty → Bool
  | .int | .int64 | .float | .bool | .string => true
  | _ => false

theorem HasTy.lit_inv (h : HasTy core val ty) (hlit : ty.isLit = true) : ∃ d, val = .const d := by
  cases h <;> first | exact ⟨_, rfl⟩ | cases hlit

theorem PatTy.lit_inv {l : Lit} (h : PatTy core (.lit l) ty) : l.ty = ty := by
  cases h
  rfl

/-- The types a normal test can be on. -/
theorem PatRef.ty_of_normal {p : PatRef} (hp : PatTy core p.toPat ty) (hnormal : p.normal = true) :
    (ty.isLit = true ∧ ∃ l c, p = .pat (.lit l) ∧ l.ty = ty ∧ l.const = some c) ∨ (∃ id args, ty = .enum id args) ∨
      ∃ elem, ty = .list elem := by
  cases p with
  | list =>
      obtain ⟨elem, rfl, -⟩ := hp.list_inv
      exact .inr (.inr ⟨elem, rfl⟩)
  | pat p =>
      cases p with
      | ctor =>
          cases hp
          exact .inr (.inl ⟨_, _, rfl⟩)
      | lit l =>
          obtain rfl := hp.lit_inv
          obtain ⟨c, hc⟩ := Option.isSome_iff_exists.mp hnormal
          refine .inl ⟨?_, l, c, rfl, rfl, hc⟩
          cases l <;> first | rfl | cases hnormal
      | wild | bind | tuple | list => cases hnormal

/-- The literal a row of the block tests for. -/
theorem Block.litOf {d : Const} (h : Block core arms s ρ v ty (.const d) rows) (hlit : ty.isLit = true) {row : Row}
    (hrow : row ∈ rows) {p : PatRef} (hp : row.testOn v = some p) :
    ∃ c, litOf v row = some c ∧ p.toPat.bindings (.const d) = if constEq d c then some [] else none := by
  obtain ⟨p', hp', hty, hnormal⟩ := h.test hrow
  rw [hp] at hp'
  cases hp'
  rcases PatRef.ty_of_normal hty hnormal with ⟨-, l, c, rfl, -, hc⟩ | ⟨_, _, rfl⟩ | ⟨_, rfl⟩
  · exact ⟨c, by simp only [Match.litOf, hp, hc], by simp only [PatRef.toPat, Pat.bindings, Lit.matches, hc, Option.getD_some]⟩
  · cases hlit
  · cases hlit

/-- Each literal of a row is equal to one of the list, or in it. -/
theorem litsOf_complete (v : VarId) (rows : List Row) {row : Row} (hrow : row ∈ rows) {c : Const}
    (hc : Match.litOf v row = some c) : ∃ lit ∈ litsOf v rows, lit = c ∨ constEq lit c = true := by
  suffices ∀ consts lits : List Const,
      let all := consts.foldl (fun lits c => if lits.any (constEq · c) then lits else lits ++ [c]) lits
      lits ⊆ all ∧ ∀ c ∈ consts, ∃ lit ∈ all, lit = c ∨ constEq lit c = true from
    (this _ []).2 c (List.mem_filterMap.mpr ⟨row, hrow, hc⟩)
  intro consts
  induction consts with
  | nil => exact fun lits => ⟨fun _ h => h, by simp⟩
  | cons c consts ih =>
      intro lits
      obtain ⟨hsub, hall⟩ := ih (if lits.any (constEq · c) then lits else lits ++ [c])
      refine ⟨fun lit h => hsub (by split <;> simp [h]), fun c' hc' => ?_⟩
      rcases List.mem_cons.mp hc' with rfl | hc'
      · by_cases hany : lits.any (constEq · c') = true
        · obtain ⟨lit, hlit, heq⟩ := List.any_eq_true.mp hany
          exact ⟨lit, hsub (by simp [hany, hlit]), .inr heq⟩
        · exact ⟨c', hsub (by simp [hany]), .inl rfl⟩
      · exact hall c' hc'

/-- Where the value is equal to the literal, its rows stand for all of them. -/
theorem litRows_runs {d lit : Const} (h : Block core arms s ρ v ty (.const d) rows) (hlit : ty.isLit = true)
    (heq : constEq d lit = true) (hne : rows ≠ []) (hrec : Correct core sem arms compile (rowsSize rows))
    (fail : Option LabelId) : Runs sem arms ρ rows fail s (compile (litRows v lit rows) fail s) := by
  have hto : RowsTo core sem 1 s ρ rows (litRows v lit rows, s) ρ := by
    refine filter_dropTest_spec h.good h.rowsOk.ok h.varVal h.on (fun row hrow p hp hsel => ?_) fun row hrow p hp hsel => ?_
    · obtain ⟨c, hc, hb⟩ := h.litOf hlit hrow hp
      rw [hc, Option.any_some] at hsel
      rw [hb, if_pos (constEq_trans heq (constEq_symm hsel))]
    · obtain ⟨c, hc, hb⟩ := h.litOf hlit hrow hp
      rw [hc, Option.any_some] at hsel
      rw [hb, if_neg]
      intro hdc
      rw [constEq_trans (constEq_symm hdc) heq] at hsel
      cases hsel
  exact hto.compiled hne h.rowsOk hrec fail

/-- Where the value is equal to none of the literals, no row matches. -/
theorem noLit_runRows {d : Const} (h : Block core arms s ρ v ty (.const d) rows) (hlit : ty.isLit = true)
    (hnone : ∀ lit ∈ litsOf v rows, constEq d lit = false) (others : W → Res O × W) (w : W) :
    runRows sem arms ρ others rows w = others w := by
  have hto : RowsTo core sem 1 s ρ rows ((rows.filter fun _ => false).map (dropTest · v), s) ρ := by
    refine filter_dropTest_spec h.good h.rowsOk.ok h.varVal h.on (fun _ _ _ _ hsel => ?_) fun row hrow p hp _ => ?_
    · cases hsel
    · obtain ⟨c, hc, hb⟩ := h.litOf hlit hrow hp
      rw [hb, if_neg]
      intro hdc
      obtain ⟨lit, hmem, hlc⟩ := litsOf_complete v rows hrow hc
      have hd := hnone lit hmem
      rcases hlc with rfl | hlc
      · rw [hdc] at hd
        cases hd
      · rw [constEq_trans hdc (constEq_symm hlc)] at hd
        cases hd
  rw [hto.refines.runRows h.rowsOk.linear]
  simp [runRows]

theorem litCases_runs {d : Const} (h : Block core arms s ρ v ty (.const d) rows) (hlit : ty.isLit = true) (hne : rows ≠ [])
    (htree : ∀ rows fail s, Tree rows s (compile rows fail s)) (hrec : Correct core sem arms compile (rowsSize rows))
    (fail : Option LabelId) (lits : List Const) (w : W) :
    runCases sem ρ w (.const d) (litCases compile v rows fail lits s).1 =
      if lits.any (constEq d ·) then some (runRows sem arms ρ (failRes fail) rows w) else none := by
  induction lits generalizing s with
  | nil => rfl
  | cons lit lits ih =>
      rw [litCases]
      dsimp only
      rw [runCases]
      cases hd : constEq d lit with
      | true =>
          have hruns := nested_runs (litRows_runs h.clear hlit hd hne hrec fail) w
          simp [switchMatches, hd, hruns]
      | false =>
          have htree' := htree (litRows v lit rows) fail { s with stmts := [] }
          have hkey : switchMatches (.const d) (.lit lit) = false := hd
          rw [hkey, ih (h.nested (nested_nested htree'.grown))]
          simp [hd]

/-- Comparisons one after the other. -/
theorem litTests_runs {d : Const} (h : Block core arms s ρ v ty (.const d) rows) (hlit : ty.isLit = true) (hne : rows ≠ [])
    (htree : ∀ rows fail s, Tree rows s (compile rows fail s)) (hrec : Correct core sem arms compile (rowsSize rows))
    (fail : Option LabelId) (pty : Lir.PrimTy) (lits : List Const)
    (hnone : (∀ lit ∈ lits, constEq d lit = false) → ∀ w, runRows sem arms ρ (failRes fail) rows w = failRes fail w) :
    Runs sem arms ρ rows fail s (failExit fail, litTests compile v pty rows fail lits s) := by
  induction lits generalizing s ρ with
  | nil =>
      refine ⟨[], by simp [litTests], fun w => ?_⟩
      rw [hnone (by simp)]
      simp only [runSeq, runStmts, runTerm_failExit]
  | cons lit lits ih =>
      rw [litTests]
      have hread : readValue ρ (.prim .eq pty [.var v, .const lit]) = some (.const (.bool (constEq d lit))) := by
        simp only [readValue, h.varVal]
      have steps : Steps core sem s ρ _ _ := assign_steps h.good .bool hread
      refine steps.runs h.rowsOk.ok ?_
      have h₁ := h.ext steps.ext steps.good
      generalize hρ : Function.update ρ s.vars.length (some (Val.const (.bool (constEq d lit)))) = ρ₁ at steps h₁
      have hc : ρ₁ s.vars.length = some (.const (.bool (constEq d lit))) := by simp [← hρ]
      have hnone₁ : (∀ l ∈ lit :: lits, constEq d l = false) → ∀ w,
          runRows sem arms ρ₁ (failRes fail) rows w = failRes fail w := fun hl w => by
        rw [runRows_ext h.rowsOk.ok steps.ext, hnone hl]
      let s₁ := (s.assign .bool (.prim .eq pty [.var v, .const lit])).2
      have htree' := htree (litRows v lit rows) fail { s₁ with stmts := [] }
      have hnested := nested_nested htree'.grown
      let s₂ := (s₁.nested (compile (litRows v lit rows) fail)).2
      let then_ := (s₁.nested (compile (litRows v lit rows) fail)).1
      have h₂ : Block core arms (s₂.push (.if s.vars.length then_ emptySeq)) ρ₁ v ty (.const d) rows :=
        (h₁.nested hnested).ext (.refl _ _) ((h₁.nested hnested).good.ext (.refl _ _) rfl)
      obtain ⟨more, hmore⟩ := (litTests_bodies htree v pty rows fail lits (s₂.push (.if s.vars.length then_ emptySeq))).grown.stmts
      have hstmts : (s₂.push (.if s.vars.length then_ emptySeq)).stmts = s₁.stmts ++ [.if s.vars.length then_ emptySeq] :=
        congrArg (· ++ _) hnested.stmts
      refine ⟨.if s.vars.length then_ emptySeq :: more, ?_, fun w => ?_⟩
      · refine hmore.symm.trans ?_
        rw [hstmts, List.append_assoc]
        rfl
      · rw [runSeq_cons, runStmt, hc]
        cases hd : constEq d lit with
        | true =>
            have hruns := nested_runs (litRows_runs h₁.clear hlit hd hne hrec fail) w
            dsimp only
            rw [hruns]
            have hf : ∀ o w, (andThen sem more (failExit fail) ∘ leave ρ₁) (.done o, w) = (.done o, w) := fun _ _ => rfl
            refine (runRows_map hf ρ₁ _ rows w).trans ?_
            congr
            funext w
            cases fail <;> rfl
        | false =>
            obtain ⟨more', hmore', hrun⟩ := ih h₂ fun hl => hnone₁ fun l hmem => by
              rcases List.mem_cons.mp hmem with rfl | hmem
              · exact hd
              · exact hl l hmem
            have : more' = more := List.append_cancel_left (hmore'.symm.trans hmore.symm)
            subst this
            simp only [emptySeq, runSeq, runStmts, runTerm, leave, andThen]
            have := hrun w
            rw [runSeq] at this
            exact this

/-! ## The cases of a block -/

theorem boolRows_runs {b : Bool} (h : Block core arms s ρ v .bool (.const (.bool b)) rows) (hne : rows ≠ [])
    (hrec : Correct core sem arms compile (rowsSize rows)) (fail : Option LabelId) :
    Runs sem arms ρ rows fail s (compile (boolRows v b rows) fail s) := by
  obtain ⟨sel, hrows, hsel⟩ := boolRows_sel v b
  have htest : ∀ row ∈ rows, ∀ p, row.testOn v = some p → ∃ x, p = .pat (.lit (.bool x)) := by
    intro row hrow p hp
    obtain ⟨p', hp', hty, hnormal⟩ := h.test hrow
    rw [hp] at hp'
    cases hp'
    rcases PatRef.ty_of_normal hty hnormal with ⟨-, l, c, rfl, hl, -⟩ | ⟨_, _, hl⟩ | ⟨_, hl⟩
    · cases l <;> first | exact ⟨_, rfl⟩ | cases hl
    · cases hl
    · cases hl
  have hto : RowsTo core sem 1 s ρ rows (boolRows v b rows, s) ρ := by
    rw [hrows]
    refine filter_dropTest_spec h.good h.rowsOk.ok h.varVal h.on (fun row hrow p hp hs => ?_) fun row hrow p hp hs => ?_
    · rw [(hsel row).mp hs] at hp
      cases hp
      simp [PatRef.toPat, Pat.bindings, Lit.matches, constEq, Lit.const]
    · obtain ⟨x, rfl⟩ := htest row hrow p hp
      have hx : x ≠ b := by
        rintro rfl
        rw [(hsel row).mpr hp] at hs
        cases hs
      simpa [PatRef.toPat, Pat.bindings, Lit.matches, constEq, Lit.const] using Ne.symm hx
  exact hto.compiled hne h.rowsOk hrec fail

theorem emptyRows_runs {elem : Ty} (h : Block core arms s ρ v (.list elem) (.list []) rows) (hne : rows ≠ [])
    (hrec : Correct core sem arms compile (rowsSize rows)) (fail : Option LabelId) :
    Runs sem arms ρ rows fail s (compile ((rows.filter (isEmptyTest v)).map (dropTest · v)) fail s) := by
  have htest : ∀ row ∈ rows, ∀ p, row.testOn v = some p →
      p = .list [] none ∨ ∃ e es rest, p = .list (e :: es) rest := by
    intro row hrow p hp
    obtain ⟨p', hp', hty, hnormal⟩ := h.test hrow
    rw [hp] at hp'
    cases hp'
    exact PatRef.list_of_normal hty hnormal
  have hto : RowsTo core sem 1 s ρ rows ((rows.filter (isEmptyTest v)).map (dropTest · v), s) ρ := by
    refine filter_dropTest_spec h.good h.rowsOk.ok h.varVal h.on (fun row hrow p hp hs => ?_) fun row hrow p hp hs => ?_
    · rcases htest row hrow p hp with rfl | ⟨e, es, rest, rfl⟩
      · rfl
      · simp [isEmptyTest, hp] at hs
    · rcases htest row hrow p hp with rfl | ⟨e, es, rest, rfl⟩
      · simp [isEmptyTest, hp] at hs
      · rfl
  exact hto.compiled hne h.rowsOk hrec fail

theorem consTree_runs {elem : Ty} {x : Val} {xs : List Val} (h : Block core arms s ρ v (.list elem) (.list (x :: xs)) rows)
    (hne : rows ≠ []) (hrec : Correct core sem arms compile (rowsSize rows)) (fail : Option LabelId) :
    Runs sem arms ρ rows fail s (consTree compile v elem rows fail s) := by
  obtain ⟨_, hvs, hall⟩ := h.hasTy.list_inv
  cases hvs
  obtain ⟨ρ', hto⟩ := consRows_spec sem (hall x (by simp)) (.list fun y hy => hall y (List.mem_cons_of_mem _ hy)) rows
    h.good h.rowsOk.ok h.varTy h.varVal h.on h.normal
  exact hto.compiled hne h.rowsOk hrec fail

theorem mem_present {k : Nat} :
    k ∈ ((rows.filterMap (variantOf v)).insertionSort (· ≤ ·)).dedup ↔ ∃ row ∈ rows, variantOf v row = some k := by
  rw [List.mem_dedup, (List.perm_insertionSort _ _).mem_iff, List.mem_filterMap]

/-- A constructor that no row tests for leaves room for the default. -/
theorem present_length_lt {id : EnumId} {args : List Ty} {k : Nat} (h : Block core arms s ρ v (.enum id args) val rows)
    (hk : k < (core.variants id).length) (hmem : k ∉ ((rows.filterMap (variantOf v)).insertionSort (· ≤ ·)).dedup) :
    ((rows.filterMap (variantOf v)).insertionSort (· ≤ ·)).dedup.length < (core.variants id).length := by
  have hnodup := List.nodup_cons.mpr ⟨hmem, List.nodup_dedup _⟩
  have hsub : k :: ((rows.filterMap (variantOf v)).insertionSort (· ≤ ·)).dedup ⊆ List.range (core.variants id).length := by
    intro x hx
    rw [List.mem_range]
    rcases List.mem_cons.mp hx with rfl | hx
    · exact hk
    · obtain ⟨row, hrow, hv⟩ := mem_present.mp hx
      obtain ⟨k', hv', hk'⟩ := h.variantOf hrow
      rw [hv] at hv'
      cases hv'
      exact hk'
  simpa using (List.subperm_of_subset hnodup hsub).length_le

theorem noVariant_runRows {id : EnumId} {args tys : List Ty} {k : Nat} {fields : List Val}
    (h : Block core arms s ρ v (.enum id args) (.ctor ⟨id, k⟩ fields) rows) (hfields : core.fields id k args = some tys)
    (hvals : List.Forall₂ (HasTy core) fields tys) (hnone : ∀ row ∈ rows, variantOf v row ≠ some k)
    (others : W → Res O × W) (w : W) : runRows sem arms ρ others rows w = others w := by
  have hfilter : (rows.filter fun row => variantOf v row == some k) = [] :=
    List.filter_eq_nil_iff.mpr fun row hrow => by simpa using hnone row hrow
  obtain ⟨ρ', hto⟩ := specializeRows_spec sem hfields hvals rows h.good h.rowsOk.ok h.varTy h.varVal h.on h.normal
  rw [hto.refines.runRows h.rowsOk.linear, hfilter]
  rfl

theorem switchOn_runs (h : Block core arms s ρ v ty val rows) (hne : rows ≠ [])
    (htree : ∀ rows fail s, Tree rows s (compile rows fail s)) (hrec : Correct core sem arms compile (rowsSize rows))
    (fail : Option LabelId) : Runs sem arms ρ rows fail s (switchOn core compile v ty rows fail s) := by
  obtain ⟨row, hrow⟩ := List.exists_mem_of_ne_nil rows hne
  obtain ⟨p, hp, hpty, hnormal⟩ := h.test hrow
  rcases PatRef.ty_of_normal hpty hnormal with ⟨hlit, -⟩ | ⟨id, args, rfl⟩ | ⟨elem, rfl⟩
  · obtain ⟨d, rfl⟩ := h.hasTy.lit_inv hlit
    have hnone : _ → ∀ w : W, runRows sem arms ρ (failRes fail) rows w = failRes fail w :=
      fun hn => noLit_runRows h hlit hn (failRes fail)
    have hswitch : Runs sem arms ρ rows fail s (.unreachable, (litCases compile v rows fail (litsOf v rows) s).2.push
        (.switch (.lit v) (litCases compile v rows fail (litsOf v rows) s).1 (some (.mk [] (failExit fail))))) := by
      refine runs_stmt (litCases_bodies htree v rows fail _ s).1.stmts fun w => ?_
      simp only [runStmt, Lir.SwitchOn.var, h.varVal, litCases_runs h hlit hne htree hrec]
      by_cases hany : (litsOf v rows).any (constEq d ·) = true
      · rw [if_pos hany]
        rfl
      · rw [if_neg hany, hnone fun lit hmem => by
          simpa using fun hd => hany (List.any_eq_true.mpr ⟨lit, hmem, hd⟩)]
        simp only [Option.getD_none, runDefault, runSeq, runStmts, runTerm_failExit]
    cases ty with
    | int => exact hswitch
    | int64 => exact hswitch
    | float => exact litTests_runs h hlit hne htree hrec fail .f64 (litsOf v rows) hnone
    | string => exact litTests_runs h hlit hne htree hrec fail .string (litsOf v rows) hnone
    | bool =>
        cases h.hasTy with
        | @bool b =>
            rw [switchOn_bool]
            have treeT := htree (boolRows v true rows) fail { s with stmts := [] }
            have hT := nested_nested treeT.grown
            let s₁ := (s.nested (compile (boolRows v true rows) fail)).2
            have treeF := htree (boolRows v false rows) fail { s₁ with stmts := [] }
            refine runs_stmt ((nested_nested treeF.grown).stmts.trans hT.stmts) fun w => ?_
            rw [runStmt, h.varVal]
            cases b with
            | true => rw [nested_runs (boolRows_runs h.clear hne hrec fail)]
            | false => rw [nested_runs (boolRows_runs (h.nested hT).clear hne hrec fail)]
    | unit | never | tuple | list | enum | param | other => cases hlit
  · have hcount : core.variants id ≠ [] := by
      obtain ⟨k, -, hk⟩ := h.variantOf hrow
      exact List.ne_nil_of_length_pos (Nat.zero_lt_of_lt hk)
    obtain ⟨k, fields, tys, rfl, hfields, hvals⟩ := h.hasTy.enum_inv.resolve_right hcount
    have hk := fields_lt hfields
    rw [switchOn]
    split
    · rename_i hone
      obtain rfl : k = 0 := by omega
      have hall : (rows.filter fun row => Match.variantOf v row == some 0) = rows := by
        refine List.filter_eq_self.mpr fun row hrow => ?_
        obtain ⟨k, hv, hk⟩ := h.variantOf hrow
        rw [hv]
        simp only [beq_iff_eq, Option.some.injEq]
        omega
      have := ctorTree_runs h hne hrec hfields hvals fail
      rw [ctorTree, hall] at this
      exact this
    · refine runs_stmt (enumCases_bodies htree v id args rows fail _ s).1.stmts fun w => ?_
      simp only [runStmt, Lir.SwitchOn.var, h.varVal, enumCases_runs h hne htree hrec hfields hvals]
      by_cases hmem : k ∈ ((rows.filterMap (Match.variantOf v)).insertionSort (· ≤ ·)).dedup
      · rw [if_pos hmem]
        rfl
      · have hlt := present_length_lt h hk hmem
        rw [if_neg hmem, if_pos hlt, noVariant_runRows h hfields hvals fun row hrow hv => hmem ?_]
        · simp only [Option.getD_none, runDefault, runSeq, runStmts, runTerm_failExit]
        · exact mem_present.mpr ⟨row, hrow, hv⟩
  · obtain ⟨vs, rfl, -⟩ := h.hasTy.list_inv
    rw [switchOn_list]
    have hread : readValue ρ (.listIsEmpty v) = some (.const (.bool vs.isEmpty)) := by simp only [readValue, h.varVal]
    have steps : Steps core sem s ρ _ _ := assign_steps h.good .bool hread
    refine steps.runs h.rowsOk.ok ?_
    have h₁ := h.ext steps.ext steps.good
    let s₁ := (s.assign .bool (.listIsEmpty v)).2
    have treeT := htree ((rows.filter (isEmptyTest v)).map (dropTest · v)) fail { s₁ with stmts := [] }
    have hT := nested_nested treeT.grown
    let s₂ := (s₁.nested (compile ((rows.filter (isEmptyTest v)).map (dropTest · v)) fail)).2
    have treeF := consTree_tree htree v elem rows fail { s₂ with stmts := [] }
    refine runs_stmt ((nested_nested treeF.grown).stmts.trans hT.stmts) fun w => ?_
    have hc : Function.update ρ s.vars.length (some (Val.const (.bool vs.isEmpty))) (s.assign .bool (.listIsEmpty v)).1 =
        some (.const (.bool vs.isEmpty)) := Function.update_self _ _ _
    rw [runStmt, hc]
    cases vs with
    | nil => exact congrArg (leave _) (nested_runs (emptyRows_runs h₁.clear hne hrec fail) w)
    | cons x xs => exact congrArg (leave _) (nested_runs (consTree_runs (h₁.nested hT).clear hne hrec fail) w)

end

/-! ## The tree -/

section
variable {diverges : Expr → Bool}

/-- The guard and the body of the first row, and the tree of the later ones. -/
theorem guard_runs {s : Lower Expr} {ρ : Store} {binds : Binds} {arm : Nat} {a : Arm Expr} {g : Expr} {later : List Row}
    {fail : Option LabelId} {act : Lower Expr → Term Expr × Lower Expr} (good : Good core s ρ)
    (ok : RowsOk core arms s.vars ρ (⟨[], binds, arm⟩ :: later)) (ha : arms[arm]? = some a) (hg : a.guard = some g)
    (hact : ∀ s' ρ', Good core s' ρ' → RowsOk core arms s'.vars ρ' later → Runs sem arms ρ' later fail s' (act s')) :
    Runs sem arms ρ (⟨[], binds, arm⟩ :: later) fail s
      (act (((s.var .bool).2.push (.guard s.vars.length g binds)).push
        (.if s.vars.length (.mk [] (.body arm a.body binds)) emptySeq))) := by
  -- The later rows are only tried after a false guard, so they run in the store that has it.
  have hext : Ext s.vars ρ (s.vars ++ [.bool]) (Function.update ρ s.vars.length (some (.const (.bool false)))) := .var _ _ _ _
  have oklater : RowsOk core arms s.vars ρ later := ok.mono fun row hrow => List.mem_cons_of_mem _ hrow
  obtain ⟨more, hmore, hrun⟩ := hact (((s.var .bool).2.push (.guard s.vars.length g binds)).push
    (.if s.vars.length (.mk [] (.body arm a.body binds)) emptySeq)) _ (good.ext hext rfl) (oklater.ext hext)
  refine ⟨.guard s.vars.length g binds :: .if s.vars.length (.mk [] (.body arm a.body binds)) emptySeq :: more, ?_, fun w => ?_⟩
  · refine hmore.trans ?_
    simp [Lower.push, Lower.var]
  · have hext' : Ext s.vars ρ (s.vars ++ [.bool]) (Function.update ρ s.vars.length (some (.const (.bool true)))) :=
      .var _ _ _ _
    have hvals := vals_congr (ok.ok _ List.mem_cons_self).binds hext'
    simp only at hvals
    simp only [runRows, rowBindings, testsBindings, both_some, List.nil_append, ha, runArm, hg]
    rw [runSeq_cons, runStmt]
    rcases sem.guard g (bindEnv (binds.vals ρ)) w with ⟨o | b, w'⟩
    · rfl
    · simp only [andThen]
      rw [runSeq_cons, runStmt, Function.update_self]
      cases b with
      | true => simp only [runSeq, runStmts, runTerm, hvals, leave, andThen, runBody]
      | false =>
          simp only [emptySeq, runSeq, runStmts, runTerm, leave, andThen]
          have := hrun w'
          rw [runSeq, runRows_ext oklater.ok hext] at this
          exact this

/-- How control goes on after the block of the label. -/
def blockRes {W O : Type} (ρ : Store) (label : LabelId) : Res O × W → Res O × W
  | (.break l, w) => if l = label then (.next ρ, w) else (.break l, w)
  | r => leave ρ r

/-- The rows of a block, and the tree of the rows after it. -/
theorem block_runs {s : Lower Expr} {ρ : Store} {block rest : List Row} {fail : Option LabelId} {next : LabelId}
    {act : Lower Expr → Term Expr × Lower Expr} {s' : Lower Expr} {body : Seq Expr} (hs : s'.stmts = s.stmts)
    (hbody : ∀ w, runSeq sem ρ w body = runRows sem arms ρ (failRes (some next)) block w)
    (hact : Runs sem arms ρ rest fail (s'.push (.block next body)) (act (s'.push (.block next body)))) :
    Runs sem arms ρ (block ++ rest) fail s (act (s'.push (.block next body))) := by
  obtain ⟨more, hmore, hrun⟩ := hact
  refine ⟨.block next body :: more, ?_, fun w => ?_⟩
  · rw [hmore, ← hs]
    simp [Lower.push]
  · rw [runSeq_cons, runStmt, hbody, runRows_append]
    let f : Res O × W → Res O × W := fun r => andThen sem more (act (s'.push (.block next body))).1 (blockRes ρ next r)
    refine (runRows_map (f := f) (fun _ _ => rfl) ρ _ block w).trans ?_
    congr
    funext w
    simp only [f, failRes, blockRes, if_true, andThen]
    exact hrun w

/-- The tree tries the rows in order. -/
theorem compile_runs (hdiv : ∀ g env w, diverges g = true → ∃ o w', sem.guard g env w = (.inl o, w')) (fuel : Nat) :
    Correct core sem arms (compile core diverges arms fuel) fuel := by
  induction fuel with
  | zero => exact fun _ _ _ _ h => absurd h (Nat.not_lt_zero _)
  | succ fuel ih =>
      intro rows fail s ρ hsize good ok
      obtain ⟨ρ', hto, hnormal⟩ := normalizeRows_spec sem rows good ok.ok
      refine hto.runs ok ?_
      have ok' := hto.rowsOk ok
      have good' := hto.steps.good
      have hsize' : rowsSize (normalizeRows s rows).1 ≤ fuel := by
        have := hto.size
        omega
      rw [compile]
      generalize normalizeRows s rows = r at *
      obtain ⟨rows', s'⟩ := r
      clear hto ok good hsize
      cases rows' with
      | nil =>
          refine ⟨[], by simp, fun w => ?_⟩
          simp only [runSeq, runStmts, runTerm_failExit, runRows]
      | cons first later =>
          have oklater : RowsOk core arms s'.vars ρ' later := ok'.mono fun row hrow => List.mem_cons_of_mem _ hrow
          obtain ⟨tests, binds, arm⟩ := first
          cases tests with
          | nil =>
              have hlt : arm < arms.length := ok'.arm _ List.mem_cons_self
              have ha : arms[arm]? = some arms[arm] := List.getElem?_eq_getElem hlt
              dsimp only
              simp only [ha]
              cases hg : arms[arm].guard with
              | none =>
                  refine ⟨[], by simp, fun w => ?_⟩
                  simp only [runRows, rowBindings, testsBindings, both_some, List.nil_append, ha, runArm, hg, runSeq,
                    runStmts, runTerm, runBody]
              | some g =>
                  cases hd : diverges g with
                  | true =>
                      dsimp only
                      rw [if_pos hd]
                      refine ⟨[], by simp, fun w => ?_⟩
                      obtain ⟨o, w', hgo⟩ := hdiv g (bindEnv (binds.vals ρ')) w hd
                      simp only [runRows, rowBindings, testsBindings, both_some, List.nil_append, ha, runArm, hg, runSeq,
                        runStmts, runTerm, hgo]
                  | false =>
                      dsimp only
                      rw [if_neg (by simp [hd])]
                      refine guard_runs good' ok' ha hg fun s₁ ρ₁ good₁ ok₁ => ih later fail s₁ ρ₁ ?_ good₁ ok₁
                      simp only [rowsSize, List.map_cons, List.sum_cons, Row.size] at hsize' ⊢
                      omega
          | cons test tests =>
              obtain ⟨val, hocc, hty⟩ := (ok'.ok _ List.mem_cons_self).tests test List.mem_cons_self
              have htest := hnormal _ List.mem_cons_self test List.mem_cons_self
              obtain ⟨⟨var, ty⟩, p⟩ := test
              cases hocc with
              | void hvoid _ =>
                  rcases PatRef.ty_of_normal hty htest with ⟨hlit, -⟩ | ⟨_, _, rfl⟩ | ⟨_, rfl⟩
                  · cases ty <;> first | (cases hlit; done) | cases hvoid
                  · cases hvoid
                  · cases hvoid
              | @var v _ _ hv hval _ hvty =>
                  have hon : ((⟨(⟨some v, ty⟩, p) :: tests, binds, arm⟩ : Row).testOn v).isSome = true := by
                    simp [Row.testOn]
                  dsimp only at hsize' oklater ⊢
                  generalize hrows : (⟨(⟨some v, ty⟩, p) :: tests, binds, arm⟩ :: later : List Row) = rows' at *
                  have hsplit := List.takeWhile_append_dropWhile (p := fun r : Row => (r.testOn v).isSome) (l := rows')
                  generalize hblock : rows'.takeWhile (fun r : Row => (r.testOn v).isSome) = block at *
                  generalize hrest : rows'.dropWhile (fun r : Row => (r.testOn v).isSome) = rest at *
                  have hne : block ≠ [] := by
                    rw [← hblock, ← hrows]
                    simp [hon]
                  have hblockrow : ∀ row ∈ block, (row.testOn v).isSome = true := by
                    intro row hrow
                    rw [← hblock] at hrow
                    exact List.mem_takeWhile_imp (p := fun r : Row => (r.testOn v).isSome) hrow
                  have hmem : ∀ row ∈ block, row ∈ rows' := fun row hrow => hsplit ▸ List.mem_append_left _ hrow
                  have h : Block core arms s' ρ' v ty val block :=
                    ⟨good', ok'.mono hmem, hv, hval, hvty, hblockrow, fun row hrow => hnormal row (hmem row hrow)⟩
                  have hsizes : rowsSize block + rowsSize rest ≤ fuel := by
                    rw [← hsplit] at hsize'
                    simpa [rowsSize] using hsize'
                  have hpos := rowsSize_pos hne
                  have hrec : Correct core sem arms (compile core diverges arms fuel) (rowsSize block) :=
                    fun rows fail s ρ hlt => ih rows fail s ρ (by omega)
                  have htree := compile_tree core diverges arms fuel
                  split
                  · rename_i hempty
                    rw [List.isEmpty_iff.mp hempty, List.append_nil] at hsplit
                    rw [← hsplit]
                    exact switchOn_runs h hne htree hrec fail
                  · rw [← hsplit]
                    have hlabel : Nested s' s'.label.2 := ⟨List.prefix_refl _, rfl, rfl⟩
                    have tree : Tree block _ (switchOn core _ v ty block (some s'.label.1) _) :=
                      switchOn_tree htree v ty block (some s'.label.1) { s'.label.2 with stmts := [] }
                    have hnested := nested_nested tree.grown
                    have hbody := nested_runs (switchOn_runs (h.nested hlabel).clear hne htree hrec (some s'.label.1))
                    have hext : Ext s'.vars ρ' _ ρ' := ⟨hnested.vars, fun _ _ => rfl⟩
                    have okrest : RowsOk core arms s'.vars ρ' rest :=
                      ok'.mono fun row hrow => hsplit ▸ List.mem_append_right _ hrow
                    exact block_runs hnested.stmts hbody
                      (ih rest fail _ ρ' (by omega) (good'.ext hext hnested.cache) (okrest.ext hext))

end

end Emela.Match
