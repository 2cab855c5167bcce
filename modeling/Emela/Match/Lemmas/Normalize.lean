import Emela.Match.Lemmas.Reads

/-!
# Normalized rows

Normalizing a row keeps what it matches and binds, and leaves only tests of constructors, literals and
lists.
-/

namespace Emela.Match

variable {Expr W O : Type} {core : Core} {sem : Exprs Expr W O}

/-- A test that `normalize` leaves. -/
def PatRef.normal : PatRef → Bool
  | .pat (.ctor ..) | .list [] none | .list (_ :: _) _ => true
  | .pat (.lit l) => l.const.isSome
  | _ => false

theorem PatRef.size_eq (p : PatRef) : p.size = p.toPat.size := by
  cases p <;> rfl

theorem testsBindings_append (ρ : Store) (ts ts' : List (Occ × PatRef)) :
    testsBindings ρ (ts ++ ts') = both (testsBindings ρ ts) (testsBindings ρ ts') := by
  induction ts with
  | nil => simp [testsBindings]
  | cons t ts ih => simp only [List.cons_append, testsBindings, ih, both_assoc]

theorem both_left_comm {α : Type} (a b c : Option (List α)) : Same (both (both a b) c) (both b (both a c)) := by
  rw [← both_assoc]
  exact (both_comm a b).both (.refl c)

theorem map_heldAll_both (a b : Option (List (Local × Val))) :
    (both a b).map heldAll = both (a.map heldAll) (b.map heldAll) := by
  cases a <;> cases b <;> simp [heldAll]

theorem bindingsAll_cons (p : Pat) (ps : List Pat) (v : Val) (vs : List Val) :
    bindingsAll (p :: ps) (v :: vs) = both (p.bindings v) (bindingsAll ps vs) := by
  rw [bindingsAll]
  rfl

/-- The row has come to `r`, with the conditions `extra` added, whose patterns have the size `size`. -/
structure Normalized (core : Core) (sem : Exprs Expr W O) (s : Lower Expr) (ρ : Store) (row : Row)
    (extra : Option (List (Local × Option Val))) (size : Nat) (r : Row × Lower Expr) (ρ' : Store) : Prop where
  steps : Steps core sem s ρ r.2 ρ'
  ok : RowOk core r.2.vars ρ' r.1
  arm : r.1.arm = row.arm
  same : Same (rowBindings ρ' r.1) (both extra (rowBindings ρ row))
  size : r.1.size ≤ row.size + size
  normal : (∀ t ∈ row.tests, t.2.normal = true) → ∀ t ∈ r.1.tests, t.2.normal = true

section
variable {s : Lower Expr} {ρ ρ' ρ'' : Store} {row : Row} {occ : Occ} {v : Val}

/-- Nothing is added. -/
theorem Normalized.skip (good : Good core s ρ) (ok : RowOk core s.vars ρ row) (n : Nat) :
    Normalized core sem s ρ row (some []) n (row, s) ρ where
  steps := .refl good
  ok := ok
  arm := rfl
  same := by
    rw [both_nil_left]
    exact .refl _
  size := Nat.le_add_right _ _
  normal h := h

theorem Normalized.bind (good : Good core s ρ) (ok : RowOk core s.vars ρ row) (hocc : OccOk core s.vars ρ occ v)
    (l : Local) (n : Nat) :
    Normalized core sem s ρ row (some (heldAll [(l, v)])) n
      ({ row with binds := row.binds ++ [(l, occ.var)] }, s) ρ where
  steps := .refl good
  ok :=
    { tests := ok.tests
      binds := by
        intro b hb x hx
        rcases List.mem_append.mp hb with hb | hb
        · exact ok.binds b hb x hx
        · cases List.mem_singleton.mp hb
          cases hocc with
          | var hty _ _ _ =>
              cases hx
              exact lt_of_getElem?_eq hty
          | void => cases hx }
  arm := rfl
  same := by
    have hvals : Binds.vals ρ (row.binds ++ [(l, occ.var)]) = row.binds.vals ρ ++ heldAll [(l, v)] := by
      simp [Binds.vals, heldAll, hocc.held]
    have : some (row.binds.vals ρ ++ heldAll [(l, v)]) = both (some (row.binds.vals ρ)) (some (heldAll [(l, v)])) := rfl
    simp only [rowBindings, hvals]
    rw [this, ← both_assoc]
    exact both_comm _ _
  size := Nat.le_add_right _ _
  normal h := h

/-- A test is added. -/
theorem Normalized.test (good : Good core s ρ) (ok : RowOk core s.vars ρ row) (hocc : OccOk core s.vars ρ occ v)
    {p : PatRef} (hp : PatTy core p.toPat occ.ty) (hnormal : p.normal = true) :
    Normalized core sem s ρ row ((p.toPat.bindings v).map heldAll) p.size
      ({ row with tests := row.tests ++ [(occ, p)] }, s) ρ where
  steps := .refl good
  ok :=
    { tests := by
        intro t ht
        rcases List.mem_append.mp ht with ht | ht
        · exact ok.tests t ht
        · cases List.mem_singleton.mp ht
          exact ⟨v, hocc, hp⟩
      binds := ok.binds }
  arm := rfl
  same := by
    have htest : testsBindings ρ [(occ, p)] = (p.toPat.bindings v).map heldAll := by
      simp only [testsBindings, testBindings, hocc.occVal, Option.bind_some]
      cases p.toPat.bindings v <;> simp
    simp only [rowBindings, testsBindings_append, htest]
    exact both_left_comm _ _ _
  size := by
    simp only [Row.size, List.map_append, List.map_cons, List.map_nil, List.sum_append, List.sum_cons, List.sum_nil]
    omega
  normal h t ht := by
    rcases List.mem_append.mp ht with ht | ht
    · exact h t ht
    · cases List.mem_singleton.mp ht
      exact hnormal

theorem Normalized.trans {extra extra' : Option (List (Local × Option Val))} {n n' : Nat} {r r' : Row × Lower Expr}
    (h : Normalized core sem s ρ row extra n r ρ') (h' : Normalized core sem r.2 ρ' r.1 extra' n' r' ρ'') :
    Normalized core sem s ρ row (both extra extra') (n + n') r' ρ'' where
  steps := h.steps.trans h'.steps
  ok := h'.ok
  arm := h'.arm.trans h.arm
  same := by
    refine h'.same.trans (((Same.refl extra').both h.same).trans ?_)
    rw [← both_assoc]
    exact (both_comm _ _).both (.refl _)
  size := by
    have := h.size
    have := h'.size
    omega
  normal hn := h'.normal (h.normal hn)

/-- A read, and what is normalized after it. -/
theorem Normalized.after {extra : Option (List (Local × Option Val))} {n : Nat} {s' : Lower Expr}
    {r : Row × Lower Expr} (steps : Steps core sem s ρ s' ρ') (ok : RowOk core s.vars ρ row)
    (h : Normalized core sem s' ρ' row extra n r ρ'') : Normalized core sem s ρ row extra n r ρ'' where
  steps := steps.trans h.steps
  ok := h.ok
  arm := h.arm
  same := by
    rw [← ok.bindings_ext steps.ext]
    exact h.same
  size := h.size
  normal := h.normal

theorem Normalized.mono {extra : Option (List (Local × Option Val))} {n n' : Nat} {r : Row × Lower Expr}
    (h : Normalized core sem s ρ row extra n r ρ') (hn : n ≤ n') : Normalized core sem s ρ row extra n' r ρ' :=
  { h with size := Nat.le_trans h.size (Nat.add_le_add_left hn _) }

end

theorem normalizeElems_cons (s : Lower Expr) (occ : Occ) (ts : List Ty) (i : Nat) (row : Row) {p : Pat}
    (hp : p ≠ .wild) (ps : List Pat) :
    normalizeElems s occ ts i row (p :: ps) =
      let ty := ts.getD i .never
      let read := occ.var.elim (none, s) fun base => s.read (.tuple base i) ty (.tupleGet base i)
      let r := normalizePat read.2 ⟨read.1, ty⟩ row p
      normalizeElems r.2 occ ts (i + 1) r.1 ps := by
  rcases occ with ⟨_ | x, ty⟩ <;> cases p <;> first | exact absurd rfl hp | rfl

theorem PatTy.tuple_inv {ps : List Pat} {ty : Ty} (h : PatTy core (.tuple ps) ty) :
    ∃ ts, ty = .tuple ts ∧ List.Forall₂ (PatTy core) ps ts := by
  cases h with
  | tuple h => exact ⟨_, rfl, h⟩

theorem HasTy.tuple_inv {v : Val} {ts : List Ty} (h : HasTy core v (.tuple ts)) :
    ∃ vs, v = .tuple vs ∧ List.Forall₂ (HasTy core) vs ts := by
  cases h with
  | tuple h => exact ⟨_, rfl, h⟩

theorem PatTy.unit_inv {ty : Ty} (h : PatTy core (.lit .unit) ty) : ty = .unit := by
  cases h
  rfl

theorem PatTy.list_inv {ps : List Pat} {rest : Option Pat} {ty : Ty} (h : PatTy core (.list ps rest) ty) :
    ∃ elem, ty = .list elem ∧ (∀ p ∈ ps, PatTy core p elem) ∧ ∀ r ∈ rest, PatTy core r (.list elem) := by
  cases h with
  | list hps hrest => exact ⟨_, rfl, hps, hrest⟩

theorem HasTy.list_inv {v : Val} {elem : Ty} (h : HasTy core v (.list elem)) :
    ∃ vs, v = .list vs ∧ ∀ v ∈ vs, HasTy core v elem := by
  cases h with
  | list h => exact ⟨_, rfl, h⟩

theorem bindings_list_nil (r : Pat) (vs : List Val) : (Pat.list [] (some r)).bindings (.list vs) = r.bindings (.list vs) := by
  rw [Pat.bindings, bindingsElems]
  exact both_nil_left _

theorem drop_of_forall₂_cons {α β : Type} {R : α → β → Prop} {a : α} {as : List α} {bs : List β} {i : Nat}
    (h : List.Forall₂ R (a :: as) (bs.drop i)) :
    ∃ b, bs[i]? = some b ∧ R a b ∧ List.Forall₂ R as (bs.drop (i + 1)) := by
  cases hd : bs.drop i with
  | nil =>
      rw [hd] at h
      cases h
  | cons b rest =>
      rw [hd] at h
      have hrest : bs.drop (i + 1) = rest := by
        rw [← List.drop_drop, hd]
        rfl
      have hb : bs[i]? = some b := by
        have := congrArg (·[0]?) hd
        simpa using this
      cases h with
      | cons hab hrest' => exact ⟨b, hb, hab, hrest ▸ hrest'⟩

theorem forall₂_getElem? {α β : Type} {R : α → β → Prop} {as : List α} {bs : List β} (h : List.Forall₂ R as bs)
    {i : Nat} {b : β} (hb : bs[i]? = some b) : ∃ a, as[i]? = some a ∧ R a b := by
  induction h generalizing i with
  | nil => simp at hb
  | cons hab _ ih =>
      cases i with
      | zero =>
          simp only [List.getElem?_cons_zero, Option.some.injEq] at hb
          subst hb
          exact ⟨_, rfl, hab⟩
      | succ i =>
          rw [List.getElem?_cons_succ] at hb
          exact ih hb

mutual

theorem normalizePat_spec (p : Pat) {s : Lower Expr} {ρ : Store} {occ : Occ} {row : Row} {v : Val}
    (good : Good core s ρ) (ok : RowOk core s.vars ρ row) (hocc : OccOk core s.vars ρ occ v)
    (hp : PatTy core p occ.ty) :
    ∃ ρ', Normalized core sem s ρ row ((p.bindings v).map heldAll) p.size (normalizePat s occ row p) ρ' := by
  cases p with
  | wild =>
      rw [normalizePat, Pat.bindings]
      exact ⟨ρ, .skip good ok _⟩
  | bind l =>
      rw [normalizePat, Pat.bindings]
      exact ⟨ρ, .bind good ok hocc l _⟩
  | lit l =>
      cases l with
      | unit =>
          have hv : v = .const .unit := hocc.hasTy.eq_unit (by rw [hp.unit_inv]; rfl)
          rw [hv, normalizePat, Pat.bindings]
          exact ⟨ρ, .skip good ok _⟩
      | int n => exact ⟨ρ, .test good ok hocc (p := .pat (.lit (.int n))) hp rfl⟩
      | int64 n => exact ⟨ρ, .test good ok hocc (p := .pat (.lit (.int64 n))) hp rfl⟩
      | float x => exact ⟨ρ, .test good ok hocc (p := .pat (.lit (.float x))) hp rfl⟩
      | bool b => exact ⟨ρ, .test good ok hocc (p := .pat (.lit (.bool b))) hp rfl⟩
      | string t => exact ⟨ρ, .test good ok hocc (p := .pat (.lit (.string t))) hp rfl⟩
  | ctor c ps => exact ⟨ρ, .test good ok hocc (p := .pat (.ctor c ps)) hp rfl⟩
  | tuple ps =>
      obtain ⟨ts, hty, hps⟩ := hp.tuple_inv
      obtain ⟨vs, rfl, -⟩ := (hty ▸ hocc.hasTy).tuple_inv
      obtain ⟨ρ', h⟩ := normalizeElems_spec ps (i := 0) good ok hocc hty hps
      refine ⟨ρ', ?_⟩
      rw [normalizePat, hty, Pat.bindings, Pat.size]
      exact h.mono (Nat.le_add_left _ _)
  | list ps rest =>
      rw [normalizePat]
      exact normalizeRest_spec rest good ok hocc hp

theorem normalizeElems_spec (ps : List Pat) {s : Lower Expr} {ρ : Store} {occ : Occ} {ts : List Ty} {i : Nat}
    {row : Row} {vs : List Val} (good : Good core s ρ) (ok : RowOk core s.vars ρ row)
    (hocc : OccOk core s.vars ρ occ (.tuple vs)) (hty : occ.ty = .tuple ts)
    (hps : List.Forall₂ (PatTy core) ps (ts.drop i)) :
    ∃ ρ', Normalized core sem s ρ row ((bindingsAll ps (vs.drop i)).map heldAll) (sizeAll ps)
      (normalizeElems s occ ts i row ps) ρ' := by
  obtain ⟨_, hvs', hvs⟩ := (hty ▸ hocc.hasTy).tuple_inv
  cases hvs'
  cases ps with
  | nil =>
      have : vs.drop i = [] := by
        have hts : ts.drop i = [] := List.forall₂_nil_left_iff.mp hps
        rw [List.drop_eq_nil_iff] at hts ⊢
        rw [hvs.length_eq]
        exact hts
      rw [this, bindingsAll, normalizeElems]
      exact ⟨ρ, .skip good ok _⟩
  | cons p ps =>
      obtain ⟨ty, hi, hp, hrest⟩ := drop_of_forall₂_cons hps
      obtain ⟨v, hv, hvty⟩ := forall₂_getElem? hvs hi
      have hdrop : vs.drop i = v :: vs.drop (i + 1) := by
        obtain ⟨hlt, rfl⟩ := List.getElem?_eq_some_iff.mp hv
        exact List.drop_eq_getElem_cons hlt
      rw [hdrop, bindingsAll_cons, map_heldAll_both, sizeAll]
      by_cases hwild : p = .wild
      · subst hwild
        rw [Pat.bindings, normalizeElems]
        obtain ⟨ρ', h⟩ := normalizeElems_spec ps good ok hocc hty hrest
        refine ⟨ρ', ?_⟩
        rw [Option.map_some, heldAll, List.map_nil, both_nil_left]
        exact h.mono (by omega)
      · rw [normalizeElems_cons _ _ _ _ _ hwild, List.getD_eq_getElem?_getD, hi, Option.getD_some]
        cases hocc with
        | void hvoid _ =>
            cases hty
            cases hvoid
        | @var x _ _ hx hρ hnv hvs' =>
            cases hty
            have hkey : (Key.tuple x i).ty core s.vars = some ty := by simp only [Key.ty, Key.base, hx, hi]
            have hval : readValue ρ (.tupleGet x i) = some v := by simp only [readValue, hρ, hv]
            obtain ⟨ρ₁, hsteps, hocc₁⟩ := read_steps good sem hkey hval hval hvty
            simp only [Option.elim_some]
            obtain ⟨ρ₂, h₂⟩ := normalizePat_spec p hsteps.good (ok.ext hsteps.ext) hocc₁ hp
            have hocc₂ := OccOk.ext (.var hx hρ hnv hvs') (hsteps.ext.trans h₂.steps.ext)
            obtain ⟨ρ₃, h₃⟩ := normalizeElems_spec ps h₂.steps.good h₂.ok hocc₂ rfl hrest
            exact ⟨ρ₃, .after hsteps ok ((h₂.trans h₃).mono (by omega))⟩

theorem normalizeRest_spec (rest : Option Pat) {s : Lower Expr} {ρ : Store} {occ : Occ} {row : Row} {v : Val}
    {elems : List Pat} (good : Good core s ρ) (ok : RowOk core s.vars ρ row) (hocc : OccOk core s.vars ρ occ v)
    (hp : PatTy core (.list elems rest) occ.ty) :
    ∃ ρ', Normalized core sem s ρ row (((Pat.list elems rest).bindings v).map heldAll) (Pat.list elems rest).size
      (normalizeList s occ row elems rest) ρ' := by
  cases rest with
  | none =>
      rw [normalizeList]
      have hnormal : (PatRef.list elems none).normal = true := by cases elems <;> rfl
      exact ⟨ρ, .test good ok hocc (p := .list elems none) hp hnormal⟩
  | some r =>
      cases elems with
      | cons e es => exact ⟨ρ, .test good ok hocc (p := .list (e :: es) (some r)) hp rfl⟩
      | nil =>
          obtain ⟨elem, hty, -, hr⟩ := hp.list_inv
          obtain ⟨vs, rfl, -⟩ := (hty ▸ hocc.hasTy).list_inv
          obtain ⟨ρ', h⟩ := normalizePat_spec r good ok hocc (hty ▸ hr r rfl)
          have hsize : r.size ≤ (Pat.list [] (some r)).size := by simp [Pat.size, sizeRest]
          refine ⟨ρ', ?_⟩
          rw [bindings_list_nil]
          exact h.mono hsize

end

theorem normalize_spec (sem : Exprs Expr W O) {s : Lower Expr} {ρ : Store} {occ : Occ} {row : Row} {v : Val} (p : PatRef)
    (good : Good core s ρ) (ok : RowOk core s.vars ρ row) (hocc : OccOk core s.vars ρ occ v)
    (hp : PatTy core p.toPat occ.ty) :
    ∃ ρ', Normalized core sem s ρ row (testBindings ρ (occ, p)) p.size (normalize s occ p row) ρ' := by
  simp only [testBindings, hocc.occVal, Option.bind_some]
  cases p with
  | pat p => exact normalizePat_spec p good ok hocc hp
  | list elems rest => exact normalizeRest_spec rest good ok hocc hp

theorem normalizeTests_spec (sem : Exprs Expr W O) (tests : List (Occ × PatRef)) {s : Lower Expr} {ρ : Store} {row : Row}
    (good : Good core s ρ) (ok : RowOk core s.vars ρ row)
    (htests : ∀ t ∈ tests, ∃ v, OccOk core s.vars ρ t.1 v ∧ PatTy core t.2.toPat t.1.ty) :
    ∃ ρ', Normalized core sem s ρ row (testsBindings ρ tests) (tests.map (·.2.size)).sum
      (tests.foldl (fun (row, s) (occ, p) => normalize s occ p row) (row, s)) ρ' := by
  induction tests generalizing s ρ row with
  | nil => exact ⟨ρ, .skip good ok _⟩
  | cons t tests ih =>
      obtain ⟨v, hocc, hp⟩ := htests t (by simp)
      obtain ⟨ρ₁, h₁⟩ := normalize_spec sem t.2 good ok hocc hp
      have hext := h₁.steps.ext
      have htests : ∀ t ∈ tests, ∃ v, OccOk core s.vars ρ t.1 v ∧ PatTy core t.2.toPat t.1.ty :=
        fun t ht => htests t (List.mem_cons_of_mem _ ht)
      obtain ⟨ρ₂, h₂⟩ := ih h₁.steps.good h₁.ok fun t ht => by
        obtain ⟨v, hv, hty⟩ := htests t ht
        exact ⟨v, hv.ext hext, hty⟩
      rw [testsBindings_congr htests hext] at h₂
      exact ⟨ρ₂, h₁.trans h₂⟩

/-! ## Rows looked at further -/

/-- The rows `r.1` stand for `rows` at the state `r.2`, each smaller by `k` than the one it comes from. -/
structure RowsTo (core : Core) (sem : Exprs Expr W O) (k : Nat) (s : Lower Expr) (ρ : Store) (rows : List Row)
    (r : List Row × Lower Expr) (ρ' : Store) : Prop where
  steps : Steps core sem s ρ r.2 ρ'
  ok : ∀ row ∈ r.1, RowOk core r.2.vars ρ' row
  refines : Refines ρ ρ' rows r.1
  size : rowsSize r.1 + k * r.1.length ≤ rowsSize rows

section
variable {k : Nat} {s s' : Lower Expr} {ρ ρ₁ ρ' : Store} {row row' : Row} {rows : List Row} {r : List Row × Lower Expr}

theorem RowsTo.nil (good : Good core s ρ) : RowsTo core sem k s ρ [] ([], s) ρ where
  steps := .refl good
  ok := by simp
  refines := .nil
  size := by simp

theorem Refines.ext_left {vars vars' : List Ty} {rows' : List Row} (h : Refines ρ₁ ρ' rows rows')
    (ok : ∀ row ∈ rows, RowOk core vars ρ row) (hext : Ext vars ρ vars' ρ₁) : Refines ρ ρ' rows rows' := by
  induction h with
  | nil => exact .nil
  | @keep row _ rows _ harm hsame _ ih =>
      rw [(ok row (by simp)).bindings_ext hext] at hsame
      exact .keep harm hsame (ih fun row hrow => ok row (List.mem_cons_of_mem _ hrow))
  | @skip row rows _ hnone _ ih =>
      rw [(ok row (by simp)).bindings_ext hext] at hnone
      exact .skip hnone (ih fun row hrow => ok row (List.mem_cons_of_mem _ hrow))

theorem RowsTo.cons (ok : ∀ row ∈ rows, RowOk core s.vars ρ row) (steps : Steps core sem s ρ s' ρ₁)
    (hrow : RowOk core s'.vars ρ₁ row') (harm : row'.arm = row.arm)
    (hsame : Same (rowBindings ρ row) (rowBindings ρ₁ row')) (hsize : row'.size + k ≤ row.size)
    (h : RowsTo core sem k s' ρ₁ rows r ρ') : RowsTo core sem k s ρ (row :: rows) (row' :: r.1, r.2) ρ' where
  steps := steps.trans h.steps
  ok := by
    intro row hmem
    rcases List.mem_cons.mp hmem with rfl | hmem
    · exact hrow.ext h.steps.ext
    · exact h.ok row hmem
  refines := by
    rw [← hrow.bindings_ext h.steps.ext] at hsame
    exact .keep harm hsame (h.refines.ext_left ok steps.ext)
  size := by
    have := h.size
    simp only [rowsSize, List.map_cons, List.sum_cons, List.length_cons, Nat.mul_succ] at this ⊢
    omega

theorem RowsTo.skip (hnone : rowBindings ρ row = none) (h : RowsTo core sem k s ρ rows r ρ') :
    RowsTo core sem k s ρ (row :: rows) r ρ' :=
  { h with
    refines := .skip hnone h.refines
    size := by
      have := h.size
      simp only [rowsSize, List.map_cons, List.sum_cons] at this ⊢
      omega }

/-- All the tests of the rows are normal. -/
def AllNormal (rows : List Row) : Prop := ∀ row ∈ rows, ∀ t ∈ row.tests, t.2.normal = true

theorem normalizeRows_spec (sem : Exprs Expr W O) (rows : List Row) {s : Lower Expr} {ρ : Store} (good : Good core s ρ)
    (ok : ∀ row ∈ rows, RowOk core s.vars ρ row) :
    ∃ ρ', RowsTo core sem 0 s ρ rows (normalizeRows s rows) ρ' ∧ AllNormal (normalizeRows s rows).1 := by
  induction rows generalizing s ρ with
  | nil => exact ⟨ρ, .nil good, by simp [AllNormal, normalizeRows]⟩
  | cons row rows ih =>
      have hrow := ok row (by simp)
      have hrows : ∀ row ∈ rows, RowOk core s.vars ρ row := fun row hmem => ok row (List.mem_cons_of_mem _ hmem)
      have hempty : RowOk core s.vars ρ { row with tests := [] } := ⟨by simp, hrow.binds⟩
      obtain ⟨ρ₁, h₁⟩ := normalizeTests_spec sem row.tests good hempty hrow.tests
      obtain ⟨ρ₂, h₂, hnormal⟩ := ih h₁.steps.good fun row hmem => (hrows row hmem).ext h₁.steps.ext
      refine ⟨ρ₂, RowsTo.cons hrows h₁.steps h₁.ok h₁.arm ?_ ?_ h₂, ?_⟩
      · refine Same.symm (h₁.same.trans ?_)
        simp only [rowBindings, testsBindings, both_nil_left]
        exact .refl _
      · have := h₁.size
        simp only [Row.size, List.map_nil, List.sum_nil] at this ⊢
        omega
      · intro row' hmem
        rcases List.mem_cons.mp hmem with rfl | hmem
        · exact h₁.normal (by simp)
        · exact hnormal row' hmem

end

end Emela.Match
