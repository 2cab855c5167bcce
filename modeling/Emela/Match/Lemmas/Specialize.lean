import Emela.Match.Lemmas.Normalize

/-!
# Rows of one case

Where the value tested is known in part, the rows of its case stand for all the rows: those left out do
not match it, and the others have tests on its parts instead.
-/

namespace Emela.Match

open Lir (VarId EnumId CtorRef)

variable {Expr W O : Type} {core : Core} {sem : Exprs Expr W O}

theorem Pat.size_pos (p : Pat) : 0 < p.size := by
  cases p <;> simp only [Pat.size] <;> omega

theorem PatRef.size_pos (p : PatRef) : 0 < p.size := p.size_eq ▸ p.toPat.size_pos

/-! ## The test on a variable -/

theorem takeTest_eq {row : Row} {v : VarId} {p : PatRef} (h : row.testOn v = some p) :
    ∃ occ pre post, row.tests = pre ++ (occ, p) :: post ∧ occ.var = some v ∧
      takeTest row v = some (p, { row with tests := pre ++ post }) := by
  obtain ⟨⟨occ, p'⟩, hfind, rfl⟩ := Option.map_eq_some_iff.mp h
  obtain ⟨hv, pre, post, htests, hpre⟩ := List.find?_eq_some_iff_append.mp hfind
  refine ⟨occ, pre, post, htests, by simpa using hv, ?_⟩
  have hidx : row.tests.findIdx? (fun t => t.1.var == some v) = some pre.length := by
    rw [htests, List.findIdx?_append, List.findIdx?_eq_none_iff.mpr (by simpa using hpre)]
    simp only [List.findIdx?_cons, hv, if_true, Option.map_some, Nat.zero_add, Option.none_or]
  rw [takeTest, hidx]
  simp [htests, List.eraseIdx_append_of_length_le]

theorem dropTest_eq {row : Row} {v : VarId} {p : PatRef} (h : row.testOn v = some p) :
    ∃ occ pre post, row.tests = pre ++ (occ, p) :: post ∧ occ.var = some v ∧
      dropTest row v = { row with tests := pre ++ post } := by
  obtain ⟨occ, pre, post, htests, hv, htake⟩ := takeTest_eq h
  exact ⟨occ, pre, post, htests, hv, by simp only [dropTest, htake, Option.map_some, Option.getD_some]⟩

section
variable {k : Nat} {s s' : Lower Expr} {ρ ρ₁ ρ' : Store} {row : Row} {rows : List Row} {v : VarId} {val : Val}
  {occ : Occ} {p : PatRef} {pre post : List (Occ × PatRef)} {r : List Row × Lower Expr} {ty : Ty}

theorem testBindings_of_var (hv : occ.var = some v) (hval : ρ v = some val) :
    testBindings ρ (occ, p) = (p.toPat.bindings val).map heldAll := by
  simp only [testBindings, occVal, hv, hval, Option.bind_some]

/-- A test on a variable is of the variable's type. -/
theorem RowOk.patTy {vars : List Ty} (ok : RowOk core vars ρ row) (htests : row.tests = pre ++ (occ, p) :: post)
    (hv : occ.var = some v) (hty : vars[v]? = some ty) : PatTy core p.toPat ty := by
  obtain ⟨_, hocc, hp⟩ := ok.tests (occ, p) (by simp [htests])
  cases hocc with
  | var hx _ _ _ =>
      cases hv
      rw [hty] at hx
      cases hx
      exact hp
  | void => cases hv

theorem rowBindings_take (htests : row.tests = pre ++ (occ, p) :: post) :
    Same (rowBindings ρ row) (both (testBindings ρ (occ, p)) (rowBindings ρ { row with tests := pre ++ post })) := by
  simp only [rowBindings, htests, testsBindings_append, testsBindings]
  rw [← both_assoc, ← both_assoc]
  refine Same.both ?_ (.refl _)
  rw [← both_assoc]
  exact (both_comm _ _).both (.refl _)

/-- The row does not match if one of its tests does not. -/
theorem RowsTo.unmatched (htests : row.tests = pre ++ (occ, p) :: post) (hv : occ.var = some v)
    (hval : ρ v = some val) (hnone : p.toPat.bindings val = none) (h : RowsTo core sem k s ρ rows r ρ') :
    RowsTo core sem k s ρ (row :: rows) r ρ' := by
  refine .skip ?_ h
  rcases (rowBindings_take (ρ := ρ) htests).elim with ⟨hb, _⟩ | ⟨_, _, _, hb, _⟩
  · exact hb
  · rw [testBindings_of_var hv hval, hnone] at hb
    cases hb

/-- The test on `v` is replaced by the tests `sub`. -/
theorem RowsTo.replace (sub : List (Occ × PatRef)) (ok : ∀ row' ∈ row :: rows, RowOk core s.vars ρ row') (steps : Steps core sem s ρ s' ρ₁)
    (htests : row.tests = pre ++ (occ, p) :: post) (hv : occ.var = some v) (hval : ρ v = some val)
    (hsub : ∀ t ∈ sub, ∃ v, OccOk core s'.vars ρ₁ t.1 v ∧ PatTy core t.2.toPat t.1.ty)
    (hbind : testsBindings ρ₁ sub = (p.toPat.bindings val).map heldAll) (hsize : (sub.map (·.2.size)).sum + k ≤ p.size)
    (h : RowsTo core sem k s' ρ₁ rows r ρ') :
    RowsTo core sem k s ρ (row :: rows) ({ row with tests := sub ++ (pre ++ post) } :: r.1, r.2) ρ' := by
  have hrow := ok row (by simp)
  have hleft : RowOk core s.vars ρ { row with tests := pre ++ post } := by
    refine ⟨fun t ht => hrow.tests t ?_, hrow.binds⟩
    rw [htests]
    rcases List.mem_append.mp ht with ht | ht
    · exact List.mem_append_left _ ht
    · exact List.mem_append_right _ (List.mem_cons_of_mem _ ht)
  have hleft' := hleft.ext steps.ext
  refine RowsTo.cons (fun row' hrow' => ok row' (List.mem_cons_of_mem _ hrow')) steps ?_ rfl ?_ ?_ h
  · refine ⟨fun t ht => ?_, hleft'.binds⟩
    rcases List.mem_append.mp ht with ht | ht
    · exact hsub t ht
    · exact hleft'.tests t ht
  · refine (rowBindings_take htests).trans ?_
    rw [testBindings_of_var hv hval, ← hbind, ← hleft.bindings_ext steps.ext]
    simp only [rowBindings]
    rw [testsBindings_append ρ₁ sub, both_assoc]
    exact .refl _
  · simp only [Row.size, htests, List.map_append, List.map_cons, List.sum_append, List.sum_cons]
    omega

/-- The rows whose test on `v` says yes, without it. -/
theorem filter_dropTest_spec (good : Good core s ρ) (ok : ∀ row ∈ rows, RowOk core s.vars ρ row)
    (hval : ρ v = some val) {sel : Row → Bool} (hon : ∀ row ∈ rows, (row.testOn v).isSome = true)
    (hyes : ∀ row ∈ rows, ∀ p, row.testOn v = some p → sel row = true → p.toPat.bindings val = some [])
    (hno : ∀ row ∈ rows, ∀ p, row.testOn v = some p → sel row = false → p.toPat.bindings val = none) :
    RowsTo core sem 1 s ρ rows ((rows.filter sel).map (dropTest · v), s) ρ := by
  induction rows with
  | nil => exact .nil good
  | cons row rows ih =>
      obtain ⟨p, hp⟩ := Option.isSome_iff_exists.mp (hon row (by simp))
      obtain ⟨occ, pre, post, htests, hv, hdrop⟩ := dropTest_eq hp
      have tail := ih (fun row h => ok row (List.mem_cons_of_mem _ h)) (fun row h => hon row (List.mem_cons_of_mem _ h))
        (fun row h => hyes row (List.mem_cons_of_mem _ h)) fun row h => hno row (List.mem_cons_of_mem _ h)
      cases hsel : sel row with
      | false =>
          rw [List.filter_cons_of_neg (by simp [hsel])]
          exact tail.unmatched htests hv hval (hno row (by simp) p hp hsel)
      | true =>
          rw [List.filter_cons_of_pos hsel, List.map_cons, hdrop]
          refine RowsTo.replace [] ok (.refl good) htests hv hval (by simp) ?_ ?_ tail
          · rw [hyes row (by simp) p hp hsel]
            rfl
          · rw [List.map_nil, List.sum_nil, Nat.zero_add]
            exact p.size_pos

end

/-! ## Constructors -/

theorem fieldTests_cons (s : Lower Expr) (v : VarId) (ctor : CtorRef) (tys : List Ty) (i : Nat) {p : Pat}
    (hp : p ≠ .wild) (ps : List Pat) :
    fieldTests s v ctor tys i (p :: ps) =
      let ty := tys.getD i .never
      let read := s.read (.field v ctor.variant i) ty (.field v ctor i)
      let sub := fieldTests read.2 v ctor tys (i + 1) ps
      ((⟨read.1, ty⟩, .pat p) :: sub.1, sub.2) := by
  cases p <;> first | exact absurd rfl hp | rfl

/-- The tests on the fields from index `i` on stand for the patterns. -/
theorem fieldTests_spec (sem : Exprs Expr W O) {v : VarId} {id : EnumId} {k : Nat} {args tys : List Ty}
    {fields : List Val} (hfields : core.fields id k args = some tys) (hvals : List.Forall₂ (HasTy core) fields tys)
    (ps : List Pat) {s : Lower Expr} {ρ : Store} {i : Nat} (good : Good core s ρ)
    (hty : s.vars[v]? = some (.enum id args)) (hval : ρ v = some (.ctor ⟨id, k⟩ fields))
    (hps : List.Forall₂ (PatTy core) ps (tys.drop i)) :
    ∃ ρ', Steps core sem s ρ (fieldTests s v ⟨id, k⟩ tys i ps).2 ρ' ∧
      (∀ t ∈ (fieldTests s v ⟨id, k⟩ tys i ps).1, ∃ v',
        OccOk core (fieldTests s v ⟨id, k⟩ tys i ps).2.vars ρ' t.1 v' ∧ PatTy core t.2.toPat t.1.ty) ∧
      testsBindings ρ' (fieldTests s v ⟨id, k⟩ tys i ps).1 = (bindingsAll ps (fields.drop i)).map heldAll ∧
      ((fieldTests s v ⟨id, k⟩ tys i ps).1.map (·.2.size)).sum ≤ sizeAll ps := by
  induction ps generalizing s ρ i with
  | nil =>
      have : fields.drop i = [] := by
        have htys : tys.drop i = [] := List.forall₂_nil_left_iff.mp hps
        rw [List.drop_eq_nil_iff] at htys ⊢
        rw [hvals.length_eq]
        exact htys
      rw [this, bindingsAll, fieldTests]
      exact ⟨ρ, .refl good, by simp, rfl, by simp⟩
  | cons p ps ih =>
      obtain ⟨ty, hi, hp, hrest⟩ := drop_of_forall₂_cons hps
      obtain ⟨val, hfield, hvty⟩ := forall₂_getElem? hvals hi
      have hdrop : fields.drop i = val :: fields.drop (i + 1) := by
        obtain ⟨hlt, rfl⟩ := List.getElem?_eq_some_iff.mp hfield
        exact List.drop_eq_getElem_cons hlt
      rw [hdrop, bindingsAll_cons, map_heldAll_both, sizeAll]
      by_cases hwild : p = .wild
      · subst hwild
        obtain ⟨ρ', hsteps, hok, hbind, hsize⟩ := ih good hty hval hrest
        rw [fieldTests, Pat.bindings, Option.map_some, heldAll, List.map_nil, both_nil_left]
        exact ⟨ρ', hsteps, hok, hbind, by omega⟩
      · rw [fieldTests_cons _ _ _ _ _ hwild, List.getD_eq_getElem?_getD, hi, Option.getD_some]
        have hkey : (Key.field v k i).ty core s.vars = some ty := by
          simp only [Key.ty, Key.base, hty, hfields, Option.bind_some, hi]
        have hread : readValue ρ (.field v ⟨id, k⟩ i) = some val := by simp only [readValue, hval, if_true, hfield]
        have hread' : (Key.field v k i).val ρ = some val := by simp only [Key.val, readValue, hval, if_true, hfield]
        obtain ⟨ρ₁, hsteps₁, hocc⟩ := read_steps good sem hkey hread' hread hvty
        have hlt := lt_of_getElem?_eq hty
        obtain ⟨ρ₂, hsteps₂, hok, hbind, hsize⟩ := ih hsteps₁.good
          ((getElem?_of_le hsteps₁.ext.types hlt).trans hty) ((hsteps₁.ext.agree v hlt).trans hval) hrest
        have hocc₂ := hocc.ext hsteps₂.ext
        refine ⟨ρ₂, hsteps₁.trans hsteps₂, ?_, ?_, ?_⟩
        · intro t ht
          rcases List.mem_cons.mp ht with rfl | ht
          · exact ⟨val, hocc₂, hp⟩
          · exact hok t ht
        · simp only [testsBindings, hbind, testBindings, hocc₂.occVal, Option.bind_some, PatRef.toPat]
        · have : (PatRef.pat p).size = p.size := rfl
          simp only [List.map_cons, List.sum_cons, this]
          omega

theorem PatTy.ctor_inv {c : CtorRef} {ps : List Pat} {id : EnumId} {args : List Ty}
    (h : PatTy core (.ctor c ps) (.enum id args)) :
    c.enumId = id ∧ ∃ tys, core.fields id c.variant args = some tys ∧ List.Forall₂ (PatTy core) ps tys := by
  cases h with
  | ctor hfields hps => exact ⟨rfl, _, hfields, hps⟩

/-- A normal test on an enum is of a constructor. -/
theorem PatRef.ctor_of_normal {p : PatRef} {id : EnumId} {args : List Ty} (hp : PatTy core p.toPat (.enum id args))
    (hnormal : p.normal = true) : ∃ c ps, p = .pat (.ctor c ps) := by
  cases p with
  | list => cases hp
  | pat p =>
      cases p with
      | ctor c ps => exact ⟨c, ps, rfl⟩
      | lit l =>
          generalize hty : Ty.enum id args = ty at hp
          cases hp
          cases l <;> cases hty
      | wild | bind | tuple | list => cases hnormal

section
variable {s : Lower Expr} {ρ : Store} {v : VarId} {id : EnumId} {args tys : List Ty} {k : Nat} {fields : List Val}

/-- Where the value has constructor `k`, the rows of its case stand for all of them. -/
theorem specializeRows_spec (sem : Exprs Expr W O) (hfields : core.fields id k args = some tys)
    (hvals : List.Forall₂ (HasTy core) fields tys) (rows : List Row) (good : Good core s ρ)
    (ok : ∀ row ∈ rows, RowOk core s.vars ρ row) (hty : s.vars[v]? = some (.enum id args))
    (hval : ρ v = some (.ctor ⟨id, k⟩ fields)) (hon : ∀ row ∈ rows, (row.testOn v).isSome = true)
    (hnormal : AllNormal rows) :
    ∃ ρ', RowsTo core sem 1 s ρ rows
      (specializeRows core s v ⟨id, k⟩ args (rows.filter fun row => variantOf v row == some k)) ρ' := by
  induction rows generalizing s ρ with
  | nil => exact ⟨ρ, .nil good⟩
  | cons row rows ih =>
      obtain ⟨p, hp⟩ := Option.isSome_iff_exists.mp (hon row (by simp))
      obtain ⟨occ, pre, post, htests, hv, htake⟩ := takeTest_eq hp
      have hpty := (ok row (by simp)).patTy htests hv hty
      obtain ⟨c, ps, rfl⟩ := PatRef.ctor_of_normal hpty (hnormal row (by simp) (occ, p) (by simp [htests]))
      obtain ⟨hid, tys', hfields', hps⟩ := hpty.ctor_inv
      have hok : ∀ row ∈ rows, RowOk core s.vars ρ row := fun row h => ok row (List.mem_cons_of_mem _ h)
      have hon' : ∀ row ∈ rows, (row.testOn v).isSome = true := fun row h => hon row (List.mem_cons_of_mem _ h)
      have hnormal' : AllNormal rows := fun row h => hnormal row (List.mem_cons_of_mem _ h)
      have hvariant : variantOf v row = some c.variant := by simp only [variantOf, hp]
      by_cases hk : c.variant = k
      · rw [List.filter_cons_of_pos (by simp [hvariant, hk])]
        rw [hk, hfields] at hfields'
        cases hfields'
        obtain ⟨ρ₁, hsteps, hsub, hbind, hsize⟩ := fieldTests_spec sem hfields hvals ps (i := 0) good hty hval hps
        have hlt := lt_of_getElem?_eq hty
        obtain ⟨ρ₂, h⟩ := ih hsteps.good (fun row h => (hok row h).ext hsteps.ext)
          ((getElem?_of_le hsteps.ext.types hlt).trans hty) ((hsteps.ext.agree v hlt).trans hval) hon' hnormal'
        refine ⟨ρ₂, ?_⟩
        have hspec : specializeCtor core s v ⟨id, k⟩ args row =
            ({ row with tests := (fieldTests s v ⟨id, k⟩ tys 0 ps).1 ++ (pre ++ post) },
              (fieldTests s v ⟨id, k⟩ tys 0 ps).2) := by
          simp only [specializeCtor, htake, hfields, Option.getD_some]
        rw [specializeRows, hspec]
        refine RowsTo.replace _ ok hsteps htests hv hval hsub ?_ ?_ h
        · rw [hbind, PatRef.toPat, Pat.bindings, if_pos hk, List.drop_zero]
        · rw [PatRef.size, Pat.size]
          omega
      · rw [List.filter_cons_of_neg (by simp [hvariant, hk])]
        obtain ⟨ρ', h⟩ := ih good hok hty hval hon' hnormal'
        refine ⟨ρ', h.unmatched htests hv hval ?_⟩
        rw [PatRef.toPat, Pat.bindings, if_neg hk]

end

/-! ## Lists -/

theorem bindings_list_cons (p : Pat) (ps : List Pat) (rest : Option Pat) (v : Val) (vs : List Val) :
    (Pat.list (p :: ps) rest).bindings (.list (v :: vs)) =
      both (p.bindings v) ((Pat.list ps rest).bindings (.list vs)) := by
  simp only [Pat.bindings, bindingsElems]
  cases p.bindings v with
  | none => rfl
  | some bs =>
      cases bindingsElems ps vs with
      | none => rfl
      | some e =>
          simp only [Option.bind_eq_bind, Option.bind_some, Option.pure_def]
          cases bindingsRest rest e.2 <;> simp [both]

/-- A normal test on a list is of a list pattern. -/
theorem PatRef.list_of_normal {p : PatRef} {elem : Ty} (hp : PatTy core p.toPat (.list elem))
    (hnormal : p.normal = true) : p = .list [] none ∨ ∃ e es rest, p = .list (e :: es) rest := by
  cases p with
  | list elems rest =>
      cases elems with
      | cons e es => exact .inr ⟨e, es, rest, rfl⟩
      | nil =>
          cases rest with
          | none => exact .inl rfl
          | some r => cases hnormal
  | pat p =>
      cases p with
      | ctor => cases hp
      | lit l =>
          generalize hty : Ty.list elem = ty at hp
          cases hp
          cases l <;> cases hty
      | wild | bind | tuple | list => cases hnormal

/-- Where the value is a list with an element, the rows that test for one stand for all of them. -/
theorem consRows_spec (sem : Exprs Expr W O) {s : Lower Expr} {ρ : Store} {v : VarId} {elem : Ty} {x : Val}
    {xs : List Val} (hx : HasTy core x elem) (hxs : HasTy core (.list xs) (.list elem)) (rows : List Row)
    (good : Good core s ρ) (ok : ∀ row ∈ rows, RowOk core s.vars ρ row) (hty : s.vars[v]? = some (.list elem))
    (hval : ρ v = some (.list (x :: xs))) (hon : ∀ row ∈ rows, (row.testOn v).isSome = true)
    (hnormal : AllNormal rows) :
    ∃ ρ', RowsTo core sem 1 s ρ rows (consRows s v elem rows) ρ' := by
  induction rows generalizing s ρ with
  | nil => exact ⟨ρ, .nil good⟩
  | cons row rows ih =>
      obtain ⟨p, hp⟩ := Option.isSome_iff_exists.mp (hon row (by simp))
      obtain ⟨occ, pre, post, htests, hv, hdrop⟩ := dropTest_eq hp
      have hpty := (ok row (by simp)).patTy htests hv hty
      have hok : ∀ row ∈ rows, RowOk core s.vars ρ row := fun row h => ok row (List.mem_cons_of_mem _ h)
      have hon' : ∀ row ∈ rows, (row.testOn v).isSome = true := fun row h => hon row (List.mem_cons_of_mem _ h)
      have hnormal' : AllNormal rows := fun row h => hnormal row (List.mem_cons_of_mem _ h)
      rcases PatRef.list_of_normal hpty (hnormal row (by simp) (occ, p) (by simp [htests])) with
        rfl | ⟨e, es, rest, rfl⟩
      · obtain ⟨ρ', h⟩ := ih good hok hty hval hon' hnormal'
        refine ⟨ρ', ?_⟩
        simp only [consRows, hp]
        refine h.unmatched htests hv hval ?_
        simp [PatRef.toPat, Pat.bindings, bindingsElems, bindingsRest]
      · obtain ⟨_, helem, hps, hrest⟩ := hpty.list_inv
        cases helem
        -- The head and the tail are read, then the later rows go on from there.
        have hhead : readValue ρ (.listHead v) = some x := by simp only [readValue, hval]
        have hheadTy : (Key.head v).ty core s.vars = some elem := by simp only [Key.ty, Key.base, hty]
        obtain ⟨ρ₁, hsteps₁, hocc₁⟩ := read_steps good sem hheadTy hhead hhead hx
        have hlt := lt_of_getElem?_eq hty
        have hty₁ := (getElem?_of_le hsteps₁.ext.types hlt).trans hty
        have hval₁ := (hsteps₁.ext.agree v hlt).trans hval
        generalize hread₁ : s.read (.head v) elem (.listHead v) = read₁ at *
        have htail : readValue ρ₁ (.listTail v) = some (.list xs) := by simp only [readValue, hval₁]
        have htailTy : (Key.tail v).ty core read₁.2.vars = some (.list elem) := by
          simp only [Key.ty, Key.base, hty₁]
        obtain ⟨ρ₂, hsteps₂, hocc₂⟩ := read_steps hsteps₁.good sem htailTy htail htail hxs
        generalize hread₂ : read₁.2.read (.tail v) (.list elem) (.listTail v) = read₂ at *
        have hsteps := hsteps₁.trans hsteps₂
        obtain ⟨ρ₃, h⟩ := ih hsteps.good (fun row h => (hok row h).ext hsteps.ext)
          ((getElem?_of_le hsteps.ext.types hlt).trans hty) ((hsteps.ext.agree v hlt).trans hval) hon' hnormal'
        refine ⟨ρ₃, ?_⟩
        simp only [consRows, hp, hread₁, hread₂, hdrop]
        refine RowsTo.replace [(⟨read₁.1, elem⟩, .pat e), (⟨read₂.1, .list elem⟩, .list es rest)] ok hsteps htests hv
          hval ?_ ?_ ?_ h
        · intro t ht
          simp only [List.mem_cons, List.not_mem_nil, or_false] at ht
          rcases ht with rfl | rfl
          · exact ⟨x, hocc₁.ext hsteps₂.ext, hps e (by simp)⟩
          · exact ⟨.list xs, hocc₂, .list (fun p hp => hps p (List.mem_cons_of_mem _ hp)) hrest⟩
        · simp only [testsBindings, testBindings, (hocc₁.ext hsteps₂.ext).occVal, hocc₂.occVal, Option.bind_some,
            PatRef.toPat, bindings_list_cons, map_heldAll_both]
          cases ((Pat.list es rest).bindings (.list xs)) <;> simp
        · simp only [List.map_cons, List.map_nil, List.sum_cons, List.sum_nil, PatRef.size, sizeAll]
          omega

end Emela.Match
