import Emela.Types.Lemmas.Split

/-!
# Usefulness as a statement about values

`useful` returns an example exactly when some vector of values matches the query but no row.
-/

namespace Emela.Types

section
variable {T : Type} (table : CtorTable T) (prim : T → Value → Prop)

/-- Some values match `q` but no row. -/
def UsefulTo (rows : List Row) (q : Row) (tys : List T) : Prop :=
  ∃ vs, List.Forall₂ (HasType table prim) vs tys ∧ matchesElems q vs = true ∧
    ∀ r ∈ rows, matchesElems r vs = false

/-- A row of typed patterns whose literals are among `lits`. -/
structure RowOk (lits : List Lit) (tys : List T) (r : Row) : Prop where
  typed : List.Forall₂ (PatTyped table prim) r tys
  lits : ∀ p ∈ r, p.lits ⊆ lits

end

variable {T : Type} {table : CtorTable T} {prim : T → Value → Prop} {lits : List Lit}

/-! ## Rows -/

theorem RowOk.cons {r : Row} {ty : T} {tys : List T} (h : RowOk table prim lits (ty :: tys) r) :
    ∃ p ps, r = p :: ps ∧ PatTyped table prim p ty ∧ p.lits ⊆ lits ∧ RowOk table prim lits tys ps := by
  obtain ⟨ht, hl⟩ := h
  cases ht with
  | cons hp hps =>
    exact ⟨_, _, rfl, hp, hl _ (by simp), hps, fun q hq => hl q (by simp [hq])⟩

theorem RowOk.specialize {p : Pat} {ps : Row} {ty : T} {tys : List T} {heads : List Pat} {ctor : Ctor}
    (hp : PatTyped table prim p ty) (hl : p.lits ⊆ lits) (hps : RowOk table prim lits tys ps)
    (hc : ctor ∈ splitCtors (table.shape ty) heads) (hcov : covers p ctor = true) :
    RowOk table prim lits (fieldTys (table.shape ty) ctor ++ tys)
      (specialize p ps (arity (table.shape ty) ctor)) := by
  refine ⟨List.rel_append (hp.specialized hc hcov) hps.typed, fun q hq => ?_⟩
  rcases List.mem_append.mp hq with hq | hq
  · exact List.Subset.trans (lits_specializeHead hq) hl
  · exact hps.lits q hq

/-- The rows of a matrix whose first column has the type `ty`. -/
def RowsOk (table : CtorTable T) (prim : T → Value → Prop) (lits : List Lit) (tys : List T)
    (rows : List Row) : Prop := ∀ r ∈ rows, RowOk table prim lits tys r

theorem RowsOk.specializeRows {rows : List Row} {ty : T} {tys : List T} {heads : List Pat} {ctor : Ctor}
    (h : RowsOk table prim lits (ty :: tys) rows) (hc : ctor ∈ splitCtors (table.shape ty) heads) :
    RowsOk table prim lits (fieldTys (table.shape ty) ctor ++ tys)
      (specializeRows rows ctor (arity (table.shape ty) ctor)) := by
  intro r' hr'
  obtain ⟨r, hr, rfl⟩ := List.mem_map.mp hr'
  obtain ⟨hr, hcov⟩ := List.mem_filter.mp hr
  obtain ⟨p, ps, rfl, hp, hl, hps⟩ := (h r hr).cons
  exact RowOk.specialize hp hl hps hc hcov

theorem RowsOk.defaultRows {rows : List Row} {ty : T} {tys : List T}
    (h : RowsOk table prim lits (ty :: tys) rows) : RowsOk table prim lits tys (defaultRows rows) := by
  intro r' hr'
  obtain ⟨r, hr, rfl⟩ := List.mem_map.mp hr'
  obtain ⟨p, ps, rfl, -, -, hps⟩ := (h r (List.mem_filter.mp hr).1).cons
  exact hps

theorem forall₂_split {α β : Type} {R : α → β → Prop} {xs : List α} {ys zs : List β}
    (h : List.Forall₂ R xs (ys ++ zs)) :
    ∃ as bs, List.Forall₂ R as ys ∧ List.Forall₂ R bs zs ∧ xs = as ++ bs :=
  ⟨_, _, List.forall₂_take_append _ _ _ h, List.forall₂_drop_append _ _ _ h, (List.take_append_drop _ _).symm⟩

theorem AllInhabited.forall₂ (h : AllInhabited table prim) (tys : List T) :
    ∃ vs, List.Forall₂ (HasType table prim) vs tys := by
  induction tys with
  | nil => exact ⟨[], .nil⟩
  | cons ty tys ih =>
    obtain ⟨v, hv⟩ := h ty
    obtain ⟨vs, hvs⟩ := ih
    exact ⟨v :: vs, .cons hv hvs⟩

/-! ## One column -/

section
variable {rows : List Row} {head : Pat} {qRest : Row} {ty : T} {tys : List T} {ctor : Ctor}

/-- The head patterns of the first column, with that of the query. -/
def column (rows : List Row) (head : Pat) : List Pat := rows.map (·.headD .wild) ++ [head]

theorem column_typed (hrows : RowsOk table prim lits (ty :: tys) rows)
    (hq : RowOk table prim lits (ty :: tys) (head :: qRest)) :
    ∀ p ∈ column rows head, PatTyped table prim p ty ∧ p.lits ⊆ lits := by
  intro p hp
  rcases List.mem_append.mp hp with hp | hp
  · obtain ⟨r, hr, rfl⟩ := List.mem_map.mp hp
    obtain ⟨p, ps, rfl, hp, hl, -⟩ := (hrows r hr).cons
    exact ⟨hp, hl⟩
  · obtain ⟨p', ps, heq, hp', hl, -⟩ := hq.cons
    obtain rfl : p = head := by simpa using hp
    cases heq
    exact ⟨hp', hl⟩

theorem head_mem_column {p : Pat} {ps : Row} (h : p :: ps ∈ rows) : p ∈ column rows head :=
  List.mem_append_left _ (List.mem_map.mpr ⟨_, h, rfl⟩)

/-- A row of the column matches a value and the rest as its specialization matches the fields and the
rest. -/
theorem matchesElems_cons_splits {p : Pat} {v : Value} {fields : List Value} (ps : Row) (vs : List Value)
    (hp : PatTyped table prim p ty) (hmem : p ∈ column rows head)
    (hc : ctor ∈ splitCtors (table.shape ty) (column rows head)) (hs : Splits (column rows head) ctor v fields)
    (hfields : List.Forall₂ (HasType table prim) fields (fieldTys (table.shape ty) ctor)) :
    matchesElems (p :: ps) (v :: vs) =
      (covers p ctor && matchesElems (specialize p ps (arity (table.shape ty) ctor)) (fields ++ vs)) := by
  have hlen : fields.length = arity (table.shape ty) ctor := by
    rw [hfields.length_eq, length_fieldTys hc]
  rw [matchesElems, hp.matches_splits hmem hc hs hlen, specialize,
    matchesElems_append (by rw [length_specializeHead, hlen]), Bool.and_assoc]

theorem UsefulTo.of_specialize (hfresh : Fresh table prim lits)
    (hrows : RowsOk table prim lits (ty :: tys) rows) (hq : RowOk table prim lits (ty :: tys) (head :: qRest))
    (hc : ctor ∈ splitCtors (table.shape ty) (column rows head)) (hcov : covers head ctor = true)
    (h : UsefulTo table prim (specializeRows rows ctor (arity (table.shape ty) ctor))
      (specialize head qRest (arity (table.shape ty) ctor)) (fieldTys (table.shape ty) ctor ++ tys)) :
    UsefulTo table prim rows (head :: qRest) (ty :: tys) := by
  obtain ⟨ws, hws, hmatch, hno⟩ := h
  have hcol := column_typed hrows hq
  obtain ⟨fields, vs, hfields, hvs, rfl⟩ := forall₂_split hws
  obtain ⟨v, hv, hs⟩ := exists_hasType_splits hfresh (fun p hp => (hcol p hp).1)
    (fun l hl => (hcol _ hl).2 (by simp [Pat.lits])) hc hfields
  refine ⟨v :: vs, .cons hv hvs, ?_, fun r hr => ?_⟩
  · rw [matchesElems_cons_splits _ _ (hcol head (by simp [column])).1 (by simp [column]) hc hs hfields, hcov, hmatch]
    rfl
  · obtain ⟨p, ps, rfl, hp, -, -⟩ := (hrows r hr).cons
    rw [matchesElems_cons_splits _ _ hp (head_mem_column hr) hc hs hfields]
    by_cases hcp : covers p ctor
    · have : matchesElems (specialize p ps (arity (table.shape ty) ctor)) (fields ++ vs) = false :=
        hno _ (List.mem_map.mpr ⟨_, List.mem_filter.mpr ⟨hr, hcp⟩, rfl⟩)
      rw [this, Bool.and_false]
    · simp [hcp]

theorem onlyWild_iff : onlyWild rows ctor = true ↔
    ∀ r ∈ rows, covers (r.headD .wild) ctor = true → (r.headD .wild).isWild = true := by
  unfold onlyWild
  constructor
  · intro h r hr hc
    by_contra hw
    simp only [Bool.not_eq_true', List.any_eq_false] at h
    exact h r hr (by rw [hc, Bool.eq_false_of_not_eq_true hw]; rfl)
  · intro h
    simp only [Bool.not_eq_true', List.any_eq_false]
    intro r hr hw
    obtain ⟨hw, hc⟩ := Bool.and_eq_true_iff.mp hw
    rw [h r hr hc] at hw
    cases hw

theorem UsefulTo.of_default (hinh : AllInhabited table prim) (hfresh : Fresh table prim lits)
    (hrows : RowsOk table prim lits (ty :: tys) rows) (hq : RowOk table prim lits (ty :: tys) (head :: qRest))
    (hc : ctor ∈ splitCtors (table.shape ty) (column rows head)) (hw : head.isWild = true)
    (honly : onlyWild rows ctor = true) (h : UsefulTo table prim (defaultRows rows) qRest tys) :
    UsefulTo table prim rows (head :: qRest) (ty :: tys) := by
  obtain ⟨vs, hvs, hmatch, hno⟩ := h
  have hcol := column_typed hrows hq
  obtain ⟨fields, hfields⟩ := hinh.forall₂ (fieldTys (table.shape ty) ctor)
  obtain ⟨v, hv, hs⟩ := exists_hasType_splits hfresh (fun p hp => (hcol p hp).1)
    (fun l hl => (hcol _ hl).2 (by simp [Pat.lits])) hc hfields
  refine ⟨v :: vs, .cons hv hvs, ?_, fun r hr => ?_⟩
  · cases head with
    | wild => simp [matchesElems, Pat.matches, hmatch]
    | _ => cases hw
  · obtain ⟨p, ps, rfl, hp, -, -⟩ := (hrows r hr).cons
    by_cases hcp : covers p ctor
    · -- only a wildcard covers the constructor, and its row is in the default matrix
      have hpw := onlyWild_iff.mp honly _ hr hcp
      rw [matchesElems, hno ps (List.mem_map.mpr ⟨_, List.mem_filter.mpr ⟨hr, hpw⟩, rfl⟩), Bool.and_false]
    · rw [matchesElems_cons_splits _ _ hp (head_mem_column hr) hc hs hfields]
      simp [hcp]

/-- A value that shows the usefulness has one of the constructors. -/
theorem UsefulTo.exists_ctor (hrows : RowsOk table prim lits (ty :: tys) rows)
    (hq : RowOk table prim lits (ty :: tys) (head :: qRest))
    (h : UsefulTo table prim rows (head :: qRest) (ty :: tys)) :
    ∃ ctor ∈ splitCtors (table.shape ty) (column rows head), covers head ctor = true ∧
      UsefulTo table prim (specializeRows rows ctor (arity (table.shape ty) ctor))
        (specialize head qRest (arity (table.shape ty) ctor)) (fieldTys (table.shape ty) ctor ++ tys) ∧
      UsefulTo table prim (defaultRows rows) qRest tys := by
  obtain ⟨ws, hws, hmatch, hno⟩ := h
  have hcol := column_typed hrows hq
  cases hws with
  | @cons v _ vs _ hv hvs =>
    obtain ⟨ctor, hc, fields, hs, hfields⟩ := hv.exists_splits (column rows head)
    have hheadcol := matchesElems_cons_splits qRest vs
      (hcol head (by simp [column])).1 (by simp [column]) hc hs hfields
    rw [hmatch] at hheadcol
    obtain ⟨hcov, hspec⟩ := Bool.and_eq_true_iff.mp hheadcol.symm
    refine ⟨ctor, hc, hcov, ⟨fields ++ vs, List.rel_append hfields hvs, hspec, fun r' hr' => ?_⟩,
      ⟨vs, hvs, ?_, fun r' hr' => ?_⟩⟩
    · obtain ⟨r, hr, rfl⟩ := List.mem_map.mp hr'
      obtain ⟨hr, hcr⟩ := List.mem_filter.mp hr
      obtain ⟨p, ps, rfl, hp, -, -⟩ := (hrows r hr).cons
      have := matchesElems_cons_splits ps vs hp (head_mem_column hr) hc hs hfields
      rw [hno _ hr] at this
      simpa [show covers p ctor = true from hcr] using this.symm
    · rw [matchesElems, Bool.and_eq_true] at hmatch
      exact hmatch.2
    · obtain ⟨r, hr, rfl⟩ := List.mem_map.mp hr'
      obtain ⟨hr, hwr⟩ := List.mem_filter.mp hr
      obtain ⟨p, ps, rfl, -, -, -⟩ := (hrows r hr).cons
      have := hno _ hr
      cases p with
      | wild => simpa [matchesElems, Pat.matches] using this
      | _ => cases hwr

/-! ## The loop over the constructors -/

/-- The constructor is left to the default matrix. -/
def IsMissing (rows : List Row) (head : Pat) (ctor : Ctor) : Prop :=
  covers head ctor = true ∧ (head.isWild && onlyWild rows ctor) = true

/-- The constructor is specialized. -/
def IsSpecialized (rows : List Row) (head : Pat) (ctor : Ctor) : Prop :=
  covers head ctor = true ∧ ¬(head.isWild && onlyWild rows ctor) = true

section
variable {shape : TyShape T} {limit : Nat} {ctors : List Ctor}

/-- An example of the loop comes from a specialized query. -/
theorem mem_usefulCtors {out found : List (List Witness)} {missing left : List Ctor} {w : List Witness}
    (hloop : usefulCtors table rows head qRest shape tys limit ctors out missing = (found, left)) (h : w ∈ found) :
    w ∈ out ∨ ∃ c ∈ ctors, IsSpecialized rows head c ∧ ∃ n ws,
      ws ∈ useful table (specializeRows rows c (arity shape c)) (specialize head qRest (arity shape c))
        (fieldTys shape c ++ tys) n ∧ w = wrap shape c ws := by
  induction ctors generalizing out missing with
  | nil =>
    rw [usefulCtors] at hloop
    cases hloop
    exact .inl h
  | cons ctor ctors ih =>
    have later : ∀ {P : Ctor → Prop}, (∃ c ∈ ctors, P c) → ∃ c ∈ ctor :: ctors, P c := by
      rintro P ⟨c, hc, hp⟩
      exact ⟨c, List.mem_cons_of_mem _ hc, hp⟩
    rw [usefulCtors] at hloop
    split_ifs at hloop with _ hcov hmiss
    · cases hloop
      exact .inl h
    · exact (ih hloop).imp_right later
    · exact (ih hloop).imp_right later
    · rcases ih hloop with h | h
      · rcases List.mem_append.mp h with h | h
        · exact .inl h
        · obtain ⟨ws, hws, rfl⟩ := List.mem_map.mp h
          exact .inr ⟨ctor, List.mem_cons_self, ⟨by simpa using hcov, hmiss⟩, _, ws, hws, rfl⟩
      · exact .inr (later h)

/-- A constructor that the loop leaves to the default matrix. -/
theorem missing_usefulCtors {out found : List (List Witness)} {missing left : List Ctor} {c : Ctor}
    (hloop : usefulCtors table rows head qRest shape tys limit ctors out missing = (found, left)) (h : c ∈ left) :
    c ∈ missing ∨ c ∈ ctors ∧ IsMissing rows head c := by
  induction ctors generalizing out missing with
  | nil =>
    rw [usefulCtors] at hloop
    cases hloop
    exact .inl h
  | cons ctor ctors ih =>
    have later : c ∈ ctors ∧ IsMissing rows head c → c ∈ ctor :: ctors ∧ IsMissing rows head c :=
      And.imp_left (List.mem_cons_of_mem _)
    rw [usefulCtors] at hloop
    split_ifs at hloop with _ hcov hmiss
    · cases hloop
      exact .inl h
    · exact (ih hloop).imp_right later
    · rcases ih hloop with h | h
      · rcases List.mem_append.mp h with h | h
        · exact .inl h
        · obtain rfl := List.mem_singleton.mp h
          exact .inr ⟨List.mem_cons_self, by simpa using hcov, hmiss⟩
      · exact .inr (later h)
    · exact (ih hloop).imp_right later

/-- A loop without examples went over every constructor. -/
theorem usefulCtors_eq_nil (hlimit : 1 ≤ limit) {out : List (List Witness)} {missing left : List Ctor}
    (hloop : usefulCtors table rows head qRest shape tys limit ctors out missing = ([], left)) :
    out = [] ∧ missing ⊆ left ∧ ∀ c ∈ ctors,
      (IsSpecialized rows head c → useful table (specializeRows rows c (arity shape c))
        (specialize head qRest (arity shape c)) (fieldTys shape c ++ tys) limit = []) ∧
      (IsMissing rows head c → c ∈ left) := by
  induction ctors generalizing out missing with
  | nil =>
    rw [usefulCtors] at hloop
    cases hloop
    simp
  | cons ctor ctors ih =>
    rw [usefulCtors] at hloop
    split_ifs at hloop with hge hcov hmiss
    · cases hloop
      simp at hge
      omega
    · obtain ⟨hout, hsub, hall⟩ := ih hloop
      have hcov' : ¬covers head ctor = true := by simpa using hcov
      refine ⟨hout, hsub, List.forall_mem_cons.mpr ⟨⟨?_, ?_⟩, hall⟩⟩
      · exact fun hs => absurd hs.1 hcov'
      · exact fun hm => absurd hm.1 hcov'
    · obtain ⟨hout, hsub, hall⟩ := ih hloop
      refine ⟨hout, fun c hc => hsub (by simp [hc]), List.forall_mem_cons.mpr ⟨⟨?_, ?_⟩, hall⟩⟩
      · exact fun hs => absurd hmiss hs.2
      · exact fun _ => hsub (by simp)
    · obtain ⟨hout, hsub, hall⟩ := ih hloop
      obtain ⟨rfl, hfound⟩ := List.append_eq_nil_iff.mp hout
      refine ⟨rfl, hsub, List.forall_mem_cons.mpr ⟨⟨?_, ?_⟩, hall⟩⟩
      · exact fun _ => List.map_eq_nil_iff.mp hfound
      · exact fun hm => absurd hm.2 hmiss

end

/-- The examples of the default matrix, one for each constructor left to it, or one if the column has
no constructor. -/
def defaultWitnesses (rows : List Row) (shape : TyShape T) (missing : List Ctor) (ws : List Witness) :
    List (List Witness) :=
  if !(rows.any fun r => !(r.headD .wild).isWild) then [.wild :: ws]
  else missing.map fun ctor => wildWitness shape ctor :: ws

/-- `useful` for one column, in terms of the loop. -/
theorem useful_cons {limit : Nat} {out : List (List Witness)} {missing : List Ctor}
    (hloop : usefulCtors table rows head qRest (table.shape ty) tys limit
      (splitCtors (table.shape ty) (column rows head)) [] [] = (out, missing)) :
    useful table rows (head :: qRest) (ty :: tys) limit =
      (if !missing.isEmpty && out.length < limit then
        out ++ (useful table (defaultRows rows) qRest tys (limit - out.length)).flatMap
          (defaultWitnesses rows (table.shape ty) missing)
      else out).take limit := by
  rw [useful]
  simp only [column] at hloop
  simp only [hloop]
  congr 2
  rw [List.flatMap_def, ← List.foldl_append_eq_append]
  congr 1
  funext out ws
  simp only [defaultWitnesses]
  split <;> rfl

/-- An example for one column is one of the loop or one of the default matrix. -/
theorem mem_useful_cons {limit : Nat} {out : List (List Witness)} {missing : List Ctor} {w : List Witness}
    (hloop : usefulCtors table rows head qRest (table.shape ty) tys limit
      (splitCtors (table.shape ty) (column rows head)) [] [] = (out, missing))
    (h : w ∈ useful table rows (head :: qRest) (ty :: tys) limit) :
    w ∈ out ∨ missing ≠ [] ∧ ∃ n, ∃ ws ∈ useful table (defaultRows rows) qRest tys n,
      w ∈ defaultWitnesses rows (table.shape ty) missing ws := by
  rw [useful_cons hloop] at h
  replace h := List.mem_of_mem_take h
  split_ifs at h with hmiss
  · rcases List.mem_append.mp h with h | h
    · exact .inl h
    · obtain ⟨ws, hws, hw⟩ := List.mem_flatMap.mp h
      refine .inr ⟨?_, _, ws, hws, hw⟩
      rintro rfl
      simp at hmiss
  · exact .inl h

/-- Where there is no example for one column, there is none of the loop and none of the default matrix. -/
theorem useful_cons_eq_nil {limit : Nat} (hlimit : 1 ≤ limit) {out : List (List Witness)} {missing : List Ctor}
    (hloop : usefulCtors table rows head qRest (table.shape ty) tys limit
      (splitCtors (table.shape ty) (column rows head)) [] [] = (out, missing))
    (h : useful table rows (head :: qRest) (ty :: tys) limit = []) :
    out = [] ∧ (missing ≠ [] → useful table (defaultRows rows) qRest tys limit = []) := by
  rw [useful_cons hloop, List.take_eq_nil_iff] at h
  replace h := h.resolve_left (by omega)
  by_cases hmiss : missing = []
  · simp only [hmiss, List.isEmpty_nil, Bool.not_true, Bool.false_and, Bool.false_eq_true, if_false] at h
    exact ⟨h, fun hne => absurd hmiss hne⟩
  split_ifs at h with hlt
  · obtain ⟨rfl, hflat⟩ := List.append_eq_nil_iff.mp h
    refine ⟨rfl, fun _ => ?_⟩
    by_contra hne
    obtain ⟨ws, hws⟩ := List.exists_mem_of_ne_nil _ hne
    have hnil := List.flatMap_eq_nil_iff.mp hflat ws hws
    unfold defaultWitnesses at hnil
    split at hnil
    · cases hnil
    · exact hmiss (List.map_eq_nil_iff.mp hnil)
  · subst h
    have hpos : 0 < limit := hlimit
    simp [hmiss, hpos] at hlt

end

/-! ## The recursion over the columns -/

/-- An example is returned only when some values match the query but no row. -/
theorem usefulTo_of_ne_nil (hinh : AllInhabited table prim) (hfresh : Fresh table prim lits)
    {rows : List Row} {q : Row} {tys : List T} {limit : Nat}
    (hrows : RowsOk table prim lits tys rows) (hq : RowOk table prim lits tys q)
    (h : useful table rows q tys limit ≠ []) : UsefulTo table prim rows q tys := by
  match q, tys, hq with
  | [], [], _ =>
    rw [useful] at h
    cases rows with
    | nil => exact ⟨[], .nil, rfl, by simp⟩
    | cons r rows => exact absurd rfl h
  | head :: qRest, ty :: tys, hq =>
    obtain ⟨_, _, heq, hp, hl, hqr⟩ := hq.cons
    cases heq
    obtain ⟨w, hw⟩ := List.exists_mem_of_ne_nil _ h
    obtain ⟨out, missing, hloop⟩ : ∃ out missing, usefulCtors table rows head qRest (table.shape ty) tys limit
        (splitCtors (table.shape ty) (column rows head)) [] [] = (out, missing) := ⟨_, _, rfl⟩
    rcases mem_useful_cons hloop hw with hout | ⟨hmiss, n, ws, hws, -⟩
    · rcases mem_usefulCtors hloop hout with h | ⟨c, hc, hs, n, ws, hws, -⟩
      · cases h
      · have hdec := nodes_specialize_lt hs.2 qRest (arity (table.shape ty) c)
        apply UsefulTo.of_specialize hfresh hrows hq hc hs.1
        exact usefulTo_of_ne_nil hinh hfresh (hrows.specializeRows hc) (RowOk.specialize hp hl hqr hc hs.1)
          (List.ne_nil_of_mem hws)
    · obtain ⟨c, hc⟩ := List.exists_mem_of_ne_nil _ hmiss
      rcases missing_usefulCtors hloop hc with h | ⟨hcs, -, hleft⟩
      · cases h
      · obtain ⟨hwild, honly⟩ := Bool.and_eq_true_iff.mp hleft
        apply UsefulTo.of_default hinh hfresh hrows hq hcs hwild honly
        exact usefulTo_of_ne_nil hinh hfresh hrows.defaultRows hqr (List.ne_nil_of_mem hws)
termination_by (nodesRows rows + nodesList q, q.length)
decreasing_by
  · exact .left _ _ hdec
  · refine Prod.Lex.right' _ ?_ (by simp)
    have := nodesRows_defaultRows_le rows
    simp only [nodesList]
    omega

/-- Where some values match the query but no row, an example is returned. -/
theorem UsefulTo.ne_nil {rows : List Row} {q : Row} {tys : List T} {limit : Nat} (hlimit : 1 ≤ limit)
    (hrows : RowsOk table prim lits tys rows) (hq : RowOk table prim lits tys q)
    (h : UsefulTo table prim rows q tys) : useful table rows q tys limit ≠ [] := by
  match q, tys, hq with
  | [], [], _ =>
    rw [useful]
    cases rows with
    | nil => simp
    | cons r rows =>
      obtain ⟨vs, hvs, -, hno⟩ := h
      cases hvs
      have hr := (hrows r (by simp)).typed
      cases hr
      exact absurd (hno [] (by simp)) (by simp [matchesElems])
  | head :: qRest, ty :: tys, hq =>
    obtain ⟨_, _, heq, hp, hl, hqr⟩ := hq.cons
    cases heq
    intro hnil
    obtain ⟨out, missing, hloop⟩ : ∃ out missing, usefulCtors table rows head qRest (table.shape ty) tys limit
        (splitCtors (table.shape ty) (column rows head)) [] [] = (out, missing) := ⟨_, _, rfl⟩
    obtain ⟨rfl, hdefault⟩ := useful_cons_eq_nil hlimit hloop hnil
    obtain ⟨c, hc, hcov, hspec, hdef⟩ := h.exists_ctor hrows hq
    obtain ⟨-, -, hall⟩ := usefulCtors_eq_nil hlimit hloop
    by_cases hleft : (head.isWild && onlyWild rows c) = true
    · have hmem : c ∈ missing := (hall c hc).2 ⟨hcov, hleft⟩
      exact hdef.ne_nil hlimit hrows.defaultRows hqr (hdefault (List.ne_nil_of_mem hmem))
    · have hdec := nodes_specialize_lt hleft qRest (arity (table.shape ty) c)
      exact hspec.ne_nil hlimit (hrows.specializeRows hc) (RowOk.specialize hp hl hqr hc hcov)
        ((hall c hc).1 ⟨hcov, hleft⟩)
termination_by (nodesRows rows + nodesList q, q.length)
decreasing_by
  · refine Prod.Lex.right' _ ?_ (by simp)
    have := nodesRows_defaultRows_le rows
    simp only [nodesList]
    omega
  · exact .left _ _ hdec

/-- `useful` returns an example exactly when some values match the query but no row. -/
theorem useful_ne_nil_iff (hinh : AllInhabited table prim) (hfresh : Fresh table prim lits)
    {rows : List Row} {q : Row} {tys : List T} {limit : Nat} (hlimit : 1 ≤ limit)
    (hrows : RowsOk table prim lits tys rows) (hq : RowOk table prim lits tys q) :
    useful table rows q tys limit ≠ [] ↔ UsefulTo table prim rows q tys :=
  ⟨usefulTo_of_ne_nil hinh hfresh hrows hq, fun h => h.ne_nil hlimit hrows hq⟩

end Emela.Types
