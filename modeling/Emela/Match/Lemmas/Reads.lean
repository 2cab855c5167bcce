import Emela.Match.Lemmas.Rows

/-!
# Values read while matching

The variables of the lowering have their types, and those in the cache hold the value at their key. Both
stay true while statements are added that only read.
-/

namespace Emela.Match

open Lir (VarId)

variable {Expr W O : Type}

/-! ## Keys -/

def Key.base : Key → VarId
  | .tuple b _ | .field b _ _ | .head b | .tail b => b

/-- The value at the key. -/
def Key.val (ρ : Store) : Key → Option Val
  | .tuple b i => readValue ρ (.tupleGet b i)
  | .field b k i => readValue ρ (.field b ⟨0, k⟩ i)
  | .head b => readValue ρ (.listHead b)
  | .tail b => readValue ρ (.listTail b)

/-- The type of the value at the key. -/
def Key.ty (core : Core) (vars : List Ty) (key : Key) : Option Ty :=
  match key, vars[key.base]? with
  | .tuple _ i, some (.tuple ts) => ts[i]?
  | .field _ k i, some (.enum id args) => (core.fields id k args).bind (·[i]?)
  | .head _, some (.list elem) => some elem
  | .tail _, some (.list elem) => some (.list elem)
  | _, _ => none

theorem Key.val_congr {ρ ρ' : Store} {key : Key} (h : ρ' key.base = ρ key.base) : key.val ρ' = key.val ρ := by
  cases key <;> simp only [Key.base] at h <;> simp only [Key.val, readValue, h]

theorem getElem?_of_le {α : Type} {xs ys : List α} (h : xs <+: ys) {i : Nat} (hi : i < xs.length) :
    ys[i]? = xs[i]? := by
  obtain ⟨zs, rfl⟩ := h
  exact List.getElem?_append_left hi

theorem Key.ty_of_le {core : Core} {vars vars' : List Ty} (h : vars <+: vars') {key : Key}
    (hbase : key.base < vars.length) : key.ty core vars' = key.ty core vars := by
  simp only [Key.ty, getElem?_of_le h hbase]

theorem Key.base_lt {core : Core} {vars : List Ty} {key : Key} {ty : Ty} (h : key.ty core vars = some ty) :
    key.base < vars.length := by
  by_contra hn
  have : vars[key.base]? = none := List.getElem?_eq_none (Nat.le_of_not_lt hn)
  simp [Key.ty, this] at h

/-! ## The state -/

/-- Each variable in the cache holds the value at its key, of the type of the key. -/
structure Good (core : Core) (s : Lower Expr) (ρ : Store) : Prop where
  base : ∀ e ∈ s.cache, e.1.base < s.vars.length
  var : ∀ e ∈ s.cache, e.2 < s.vars.length
  ty : ∀ e ∈ s.cache, s.vars[e.2]? = e.1.ty core s.vars
  val : ∀ e ∈ s.cache, ρ e.2 = e.1.val ρ

/-- The variables there were keep their values and types. -/
structure Ext (vars : List Ty) (ρ : Store) (vars' : List Ty) (ρ' : Store) : Prop where
  types : vars <+: vars'
  agree : ∀ x < vars.length, ρ' x = ρ x

theorem Ext.refl (vars : List Ty) (ρ : Store) : Ext vars ρ vars ρ := ⟨List.prefix_refl _, fun _ _ => rfl⟩

theorem Ext.trans {vars vars' vars'' : List Ty} {ρ ρ' ρ'' : Store} (h : Ext vars ρ vars' ρ')
    (h' : Ext vars' ρ' vars'' ρ'') : Ext vars ρ vars'' ρ'' where
  types := h.types.trans h'.types
  agree x hx := (h'.agree x (Nat.lt_of_lt_of_le hx h.types.length_le)).trans (h.agree x hx)

/-- A new variable changes no other. -/
theorem Ext.var (vars : List Ty) (ty : Ty) (ρ : Store) (v : Option Val) :
    Ext vars ρ (vars ++ [ty]) (Function.update ρ vars.length v) where
  types := List.prefix_append _ _
  agree _ hx := Function.update_of_ne (Nat.ne_of_lt hx) _ _

/-- The cache stays good when variables are added. -/
theorem Good.ext {core : Core} {s s' : Lower Expr} {ρ ρ' : Store} (good : Good core s ρ)
    (h : Ext s.vars ρ s'.vars ρ') (cache : s'.cache = s.cache) : Good core s' ρ' := by
  refine ⟨?_, ?_, ?_, ?_⟩
  all_goals
    rw [cache]
    intro e he
    have hbase := good.base e he
    have hvar := good.var e he
  · exact Nat.lt_of_lt_of_le hbase h.types.length_le
  · exact Nat.lt_of_lt_of_le hvar h.types.length_le
  · rw [getElem?_of_le h.types hvar, good.ty e he, Key.ty_of_le h.types hbase]
  · rw [h.agree _ hvar, good.val e he, Key.val_congr (h.agree _ hbase)]

/-! ## Values being matched -/

/-- The value being matched is `v`. -/
inductive OccOk (core : Core) (vars : List Ty) (ρ : Store) : Occ → Val → Prop where
  | var {x ty v} : vars[x]? = some ty → ρ x = some v → ty.isVoid = false → HasTy core v ty →
      OccOk core vars ρ ⟨some x, ty⟩ v
  | void {ty v} : ty.isVoid = true → HasTy core v ty → OccOk core vars ρ ⟨none, ty⟩ v

section
variable {core : Core} {vars vars' : List Ty} {ρ ρ' : Store} {occ : Occ} {v : Val}

theorem lt_of_getElem?_eq {α : Type} {xs : List α} {i : Nat} {x : α} (h : xs[i]? = some x) : i < xs.length :=
  (List.getElem?_eq_some_iff.mp h).1

theorem OccOk.hasTy (h : OccOk core vars ρ occ v) : HasTy core v occ.ty := by
  cases h <;> assumption

theorem OccOk.ext (h : OccOk core vars ρ occ v) (hext : Ext vars ρ vars' ρ') : OccOk core vars' ρ' occ v := by
  cases h with
  | var hx hv hvoid hty =>
      have hlt := lt_of_getElem?_eq hx
      exact .var ((getElem?_of_le hext.types hlt).trans hx) ((hext.agree _ hlt).trans hv) hvoid hty
  | void hvoid hty => exact .void hvoid hty

theorem HasTy.eq_unit {ty : Ty} (h : HasTy core v ty) (hvoid : ty.isVoid = true) : v = .const .unit := by
  cases h <;> first | rfl | cases hvoid

theorem HasTy.held {ty : Ty} (h : HasTy core v ty) (hvoid : ty.isVoid = false) : v.held = some v := by
  cases h <;> first | rfl | cases hvoid

theorem OccOk.occVal (h : OccOk core vars ρ occ v) : occVal ρ occ = some v := by
  cases h with
  | var _ hv _ _ => exact hv
  | void hvoid hty => rw [hty.eq_unit hvoid]; rfl

theorem OccOk.held (h : OccOk core vars ρ occ v) : occ.var.bind ρ = v.held := by
  cases h with
  | var _ hv hvoid hty => rw [hty.held hvoid]; exact hv
  | void hvoid hty => rw [hty.eq_unit hvoid]; rfl

end

/-! ## Rows -/

/-- The tests are on values of their types, and the variables of the bindings are there. -/
structure RowOk (core : Core) (vars : List Ty) (ρ : Store) (row : Row) : Prop where
  tests : ∀ t ∈ row.tests, ∃ v, OccOk core vars ρ t.1 v ∧ PatTy core t.2.toPat t.1.ty
  binds : ∀ b ∈ row.binds, ∀ x ∈ b.2, x < vars.length

section
variable {core : Core} {vars vars' : List Ty} {ρ ρ' : Store} {row : Row}

theorem RowOk.ext (h : RowOk core vars ρ row) (hext : Ext vars ρ vars' ρ') : RowOk core vars' ρ' row where
  tests t ht := by
    obtain ⟨v, hv, hty⟩ := h.tests t ht
    exact ⟨v, hv.ext hext, hty⟩
  binds b hb x hx := Nat.lt_of_lt_of_le (h.binds b hb x hx) hext.types.length_le

theorem testsBindings_congr {tests : List (Occ × PatRef)}
    (h : ∀ t ∈ tests, ∃ v, OccOk core vars ρ t.1 v ∧ PatTy core t.2.toPat t.1.ty) (hext : Ext vars ρ vars' ρ') :
    testsBindings ρ' tests = testsBindings ρ tests := by
  induction tests with
  | nil => rfl
  | cons t tests ih =>
      obtain ⟨v, hv, _⟩ := h t (by simp)
      have hval : occVal ρ' t.1 = occVal ρ t.1 := (hv.ext hext).occVal.trans hv.occVal.symm
      simp only [testsBindings, testBindings, hval, ih fun t ht => h t (List.mem_cons_of_mem _ ht)]

theorem vals_congr {binds : Binds} (h : ∀ b ∈ binds, ∀ x ∈ b.2, x < vars.length) (hext : Ext vars ρ vars' ρ') :
    binds.vals ρ' = binds.vals ρ := by
  refine List.map_congr_left fun b hb => ?_
  obtain ⟨l, x⟩ := b
  cases x with
  | none => rfl
  | some x => exact congrArg (Prod.mk l) (hext.agree x (h _ hb x rfl))

theorem RowOk.bindings_ext (h : RowOk core vars ρ row) (hext : Ext vars ρ vars' ρ') :
    rowBindings ρ' row = rowBindings ρ row := by
  rw [rowBindings, rowBindings, testsBindings_congr h.tests hext, vals_congr h.binds hext]

theorem runRows_ext {sem : Exprs Expr W O} {arms : List (Arm Expr)} {rows : List Row}
    (h : ∀ row ∈ rows, RowOk core vars ρ row) (hext : Ext vars ρ vars' ρ') (others : W → Res O × W) (w : W) :
    runRows sem arms ρ' others rows w = runRows sem arms ρ others rows w := by
  induction rows generalizing w with
  | nil => rfl
  | cons row rows ih =>
      have ih := funext (ih fun row hrow => h row (List.mem_cons_of_mem _ hrow))
      simp only [runRows, (h row (by simp)).bindings_ext hext, ih]

theorem Linear.ext (h : Linear ρ row) (ok : RowOk core vars ρ row) (hext : Ext vars ρ vars' ρ') : Linear ρ' row := by
  intro bs hbs
  rw [ok.bindings_ext hext] at hbs
  exact h bs hbs

end

/-! ## Statements that only read -/

theorem runStmts_append {sem : Exprs Expr W O} {ρ ρ' : Store} {w w' : W} {stmts : List (Stmt Expr)}
    (h : runStmts sem ρ w stmts = (.next ρ', w')) (more : List (Stmt Expr)) :
    runStmts sem ρ w (stmts ++ more) = runStmts sem ρ' w' more := by
  induction stmts generalizing ρ w with
  | nil =>
      rw [runStmts] at h
      cases h
      rfl
  | cons stmt stmts ih =>
      rw [runStmts] at h
      rw [List.cons_append, runStmts]
      rcases hr : runStmt sem ρ w stmt with ⟨r, w₁⟩
      rw [hr] at h
      cases r with
      | next ρ₁ => exact ih h
      | _ => cases h

/-- The lowering has gone from `s` to `s'` by statements that take the store from `ρ` to `ρ'`. -/
structure Steps (core : Core) (sem : Exprs Expr W O) (s : Lower Expr) (ρ : Store) (s' : Lower Expr) (ρ' : Store) :
    Prop where
  ext : Ext s.vars ρ s'.vars ρ'
  cache : s.cache <+: s'.cache
  good : Good core s' ρ'
  run : ∃ stmts, s'.stmts = s.stmts ++ stmts ∧ ∀ w, runStmts sem ρ w stmts = (.next ρ', w)

section
variable {core : Core} {sem : Exprs Expr W O} {s s' s'' : Lower Expr} {ρ ρ' ρ'' : Store}

theorem Steps.refl (good : Good core s ρ) : Steps core sem s ρ s ρ where
  ext := .refl _ _
  cache := List.prefix_refl _
  good := good
  run := ⟨[], by simp, fun _ => by rw [runStmts]⟩

theorem Steps.trans (h : Steps core sem s ρ s' ρ') (h' : Steps core sem s' ρ' s'' ρ'') :
    Steps core sem s ρ s'' ρ'' where
  ext := h.ext.trans h'.ext
  cache := h.cache.trans h'.cache
  good := h'.good
  run := by
    obtain ⟨stmts, hstmts, hrun⟩ := h.run
    obtain ⟨stmts', hstmts', hrun'⟩ := h'.run
    refine ⟨stmts ++ stmts', by rw [hstmts', hstmts, List.append_assoc], fun w => ?_⟩
    rw [runStmts_append (hrun w), hrun']

/-- A `let` of a value that can be read. -/
theorem assign_steps (good : Good core s ρ) (ty : Ty) {value : Lir.Value} {v : Val}
    (hv : readValue ρ value = some v) :
    Steps core sem s ρ (s.assign ty value).2 (Function.update ρ s.vars.length (some v)) where
  ext := .var _ _ _ _
  cache := List.prefix_refl _
  good := good.ext (.var _ _ _ _) rfl
  run := ⟨[.let s.vars.length value], rfl, fun w => by simp [runStmts, runStmt, hv]⟩

theorem read_steps (good : Good core s ρ) (sem : Exprs Expr W O) {key : Key} {ty : Ty} {value : Lir.Value} {v : Val}
    (hty : key.ty core s.vars = some ty) (hval : key.val ρ = some v) (hread : readValue ρ value = some v)
    (hv : HasTy core v ty) :
    ∃ ρ', Steps core sem s ρ (s.read key ty value).2 ρ' ∧
      OccOk core (s.read key ty value).2.vars ρ' ⟨(s.read key ty value).1, ty⟩ v := by
  cases hvoid : ty.isVoid with
  | true =>
      simp only [Lower.read, hvoid, if_true]
      exact ⟨ρ, .refl good, .void hvoid hv⟩
  | false =>
      simp only [Lower.read, hvoid, Bool.false_eq_true, if_false]
      cases hfind : s.cache.find? (·.1 == key) with
      | some e =>
          have hmem := List.mem_of_find?_eq_some hfind
          have hkey : e.1 = key := by simpa using List.find?_some hfind
          refine ⟨ρ, .refl good, .var ?_ ?_ hvoid hv⟩
          · rw [good.ty e hmem, hkey, hty]
          · rw [good.val e hmem, hkey, hval]
      | none =>
          have hbase := Key.base_lt hty
          have steps : Steps core sem s ρ _ _ := assign_steps good ty hread
          have hext := steps.ext
          have hkey : key.val (Function.update ρ s.vars.length (some v)) = some v :=
            (Key.val_congr (hext.agree _ hbase)).trans hval
          refine ⟨Function.update ρ s.vars.length (some v), ?_, ?_⟩
          · -- The cache has one more entry, for the variable just assigned.
            refine ⟨hext, List.prefix_append _ _, ?_, steps.run⟩
            refine ⟨?_, ?_, ?_, ?_⟩
            all_goals
              intro e he
              rcases List.mem_append.mp he with he | he
            · exact steps.good.base e he
            · cases List.mem_singleton.mp he
              exact Nat.lt_of_lt_of_le hbase hext.types.length_le
            · exact steps.good.var e he
            · cases List.mem_singleton.mp he
              simp [Lower.assign, Lower.var, Lower.push]
            · exact steps.good.ty e he
            · cases List.mem_singleton.mp he
              have : key.ty core (s.assign ty value).2.vars = some ty := (Key.ty_of_le hext.types hbase).trans hty
              simpa [Lower.assign, Lower.var, Lower.push] using this.symm
            · exact steps.good.val e he
            · cases List.mem_singleton.mp he
              simpa [Lower.assign, Lower.var, Lower.push] using hkey.symm
          · refine .var ?_ ?_ hvoid hv
            · simp [Lower.assign, Lower.var, Lower.push]
            · simp [Lower.assign, Lower.var, Lower.push]

end

end Emela.Match
