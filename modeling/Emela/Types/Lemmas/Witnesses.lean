import Emela.Types.Lemmas.Useful
import Emela.Types.Exhaustiveness

/-!
# The witnesses of a constructor

What `wrap` makes of witnesses for the fields denotes the values with the constructor whose fields these denote.
-/

namespace Emela.Types

variable {T : Type} {table : CtorTable T} {prim : T → Value → Prop} {lits : List Lit}

/-! ## Lists of witnesses -/

theorem DenotesAll.append {ws ws' : List Witness} {tys tys' : List T} {vs vs' : List Value}
    (h : DenotesAll table prim lits ws tys vs) (h' : DenotesAll table prim lits ws' tys' vs') :
    DenotesAll table prim lits (ws ++ ws') (tys ++ tys') (vs ++ vs') := by
  induction ws generalizing tys vs with
  | nil =>
    cases h
    exact h'
  | cons w ws ih =>
    cases h with
    | cons hw hws => exact .cons hw (ih hws)

theorem DenotesAll.lengths {ws : List Witness} {tys : List T} {vs : List Value}
    (h : DenotesAll table prim lits ws tys vs) : ws.length = tys.length ∧ vs.length = tys.length := by
  induction ws generalizing tys vs with
  | nil =>
    cases h
    exact ⟨rfl, rfl⟩
  | cons w ws ih =>
    cases h with
    | cons _ hws => simp [ih hws]

/-- Witnesses for the fields and for the other columns come apart. -/
theorem DenotesAll.split {ws : List Witness} {tys tys' : List T} {vs : List Value}
    (h : DenotesAll table prim lits ws (tys ++ tys') vs) : ∃ as bs, vs = as ++ bs ∧
      DenotesAll table prim lits (ws.take tys.length) tys as ∧
      DenotesAll table prim lits (ws.drop tys.length) tys' bs := by
  induction tys generalizing ws vs with
  | nil => exact ⟨[], vs, rfl, by simpa using DenotesAll.nil, by simpa using h⟩
  | cons ty tys ih =>
    cases h with
    | cons hw hws =>
      obtain ⟨as, bs, rfl, has, hbs⟩ := ih hws
      exact ⟨_ :: as, bs, rfl, .cons hw has, hbs⟩

mutual

theorem Denotes.hasType {w : Witness} {ty : T} {v : Value} (h : Denotes table prim lits w ty v) :
    HasType table prim v ty := by
  match h with
  | .wild hv _ => exact hv
  | .lit hshape hv _ => exact .prim hshape hv
  | .variant hshape hi hws => exact .variant hshape hi hws.hasTypes
  | .tuple hshape hws => exact .tuple hshape hws.hasTypes
  | .list hshape hws => exact .list hshape (forall₂_replicate_iff.mp hws.hasTypes).2
  | .listRest hshape hws hmore =>
    apply HasType.list hshape
    intro v hv
    rcases List.mem_append.mp hv with hv | hv
    · exact (forall₂_replicate_iff.mp hws.hasTypes).2 v hv
    · exact hmore v hv

theorem DenotesAll.hasTypes {ws : List Witness} {tys : List T} {vs : List Value}
    (h : DenotesAll table prim lits ws tys vs) : List.Forall₂ (HasType table prim) vs tys := by
  match h with
  | .nil => exact .nil
  | .cons hw hws => exact .cons hw.hasType hws.hasTypes

end

/-! ## Wildcards -/

theorem exists_denotes_wild (hinh : AllInhabited table prim) (hfresh : Fresh table prim lits) (ty : T) :
    ∃ v, Denotes table prim lits .wild ty v := by
  by_cases hshape : table.shape ty = .opaqueTy
  · obtain ⟨v, hv, hne⟩ := hfresh ty hshape
    exact ⟨v, .wild (.prim hshape hv) fun _ => hne⟩
  · obtain ⟨v, hv⟩ := hinh ty
    exact ⟨v, .wild hv fun h => absurd h hshape⟩

theorem exists_denotesAll_wild (hinh : AllInhabited table prim) (hfresh : Fresh table prim lits) (tys : List T) :
    ∃ vs, DenotesAll table prim lits (List.replicate tys.length .wild) tys vs := by
  induction tys with
  | nil => exact ⟨[], .nil⟩
  | cons ty tys ih =>
    obtain ⟨v, hv⟩ := exists_denotes_wild hinh hfresh ty
    obtain ⟨vs, hvs⟩ := ih
    exact ⟨v :: vs, .cons hv hvs⟩

/-! ## A constructor put back -/

section
variable {heads : List Pat} {ctor : Ctor} {ty : T} {ws : List Witness} {v : Value}

/-- The head of what `wrap` makes. -/
def wrapHead (shape : TyShape T) (ctor : Ctor) (ws : List Witness) : Witness := (wrap shape ctor ws).headD .wild

theorem wrap_eq (shape : TyShape T) (ctor : Ctor) (ws : List Witness) :
    wrap shape ctor ws = wrapHead shape ctor ws :: ws.drop (arity shape ctor) := rfl

/-- What the head denotes has the constructor, with fields the witnesses denote. -/
theorem Denotes.splits (hnames : DistinctNames table) (hlits : ∀ l, .lit l ∈ heads → l ∈ lits)
    (hc : ctor ∈ splitCtors (table.shape ty) heads) (hlength : arity (table.shape ty) ctor ≤ ws.length)
    (h : Denotes table prim lits (wrapHead (table.shape ty) ctor ws) ty v) :
    ∃ fields, Splits heads ctor v fields ∧
      DenotesAll table prim lits (ws.take (arity (table.shape ty) ctor)) (fieldTys (table.shape ty) ctor) fields := by
  cases hshape : table.shape ty with
  | enum variants =>
    rw [hshape] at hc hlength h
    simp only [splitCtors, List.mem_map, List.mem_range] at hc
    obtain ⟨i, hi, rfl⟩ := hc
    have hget := List.getElem?_eq_getElem hi
    simp only [wrapHead, wrap, List.headD_cons, hget, Option.map_some, Option.getD_some, arity] at h
    generalize hname : variants[i].name = name at h
    cases h with
    | @variant j _ _ variants' s vs hshape' hj hws =>
      obtain rfl : variants = variants' := TyShape.enum.inj (hshape.symm.trans hshape')
      -- The name is that of the one variant.
      have hij : i = j := by
        apply (List.getElem?_inj (by simpa using hi) (hnames ty variants hshape)).mp
        rw [List.getElem?_map, List.getElem?_map, hget, hj, Option.map_some, Option.map_some, hname]
      subst hij
      obtain rfl : variants[i] = s := by simpa [hget] using hj
      exact ⟨vs, .variant, by simpa [arity, fieldTys, hget] using hws⟩
  | tuple tys =>
    rw [hshape] at hc hlength h
    simp only [splitCtors, List.mem_singleton] at hc
    subst hc
    simp only [wrapHead, wrap, List.headD_cons, arity] at h
    cases h with
    | @tuple _ _ tys' vs hshape' hws =>
      obtain rfl : tys = tys' := TyShape.tuple.inj (hshape.symm.trans hshape')
      exact ⟨vs, .tuple, by simpa [arity, fieldTys] using hws⟩
  | list elem =>
    rw [hshape] at hc hlength h
    simp only [splitCtors, List.mem_append, List.mem_map, List.mem_range, List.mem_singleton] at hc
    rcases hc with ⟨n, -, rfl⟩ | rfl
    · simp only [wrapHead, wrap, List.headD_cons, arity] at h hlength
      cases h with
      | @list _ _ elem' vs hshape' hws =>
        obtain rfl : elem = elem' := TyShape.list.inj (hshape.symm.trans hshape')
        rw [List.length_take_of_le hlength] at hws
        obtain rfl : vs.length = n := by simpa using hws.lengths.2
        exact ⟨vs, .listFixed, by simpa [arity, fieldTys] using hws⟩
    · simp only [wrapHead, wrap, List.headD_cons, arity] at h hlength
      cases h with
      | @listRest _ _ elem' vs more hshape' hws hmore =>
        obtain rfl : elem = elem' := TyShape.list.inj (hshape.symm.trans hshape')
        rw [List.length_take_of_le hlength] at hws
        have hvs : vs.length = listBound heads := by simpa using hws.lengths.2
        have hsplits : Splits heads (.listAtLeast (listBound heads)) (.list (vs ++ more))
            ((vs ++ more).take (listBound heads)) := .listAtLeast (by simp [hvs])
        rw [List.take_left' hvs] at hsplits
        exact ⟨vs, hsplits, by simpa [arity, fieldTys] using hws⟩
  | opaqueTy =>
    rw [hshape] at hc h
    simp only [splitCtors, List.mem_append, List.mem_map, List.mem_singleton] at hc
    rcases hc with ⟨l, -, rfl⟩ | rfl
    · simp only [wrapHead, wrap, List.headD_cons] at h
      cases h with
      | @lit _ v _ _ hv hm =>
        cases v with
        | lit b => exact ⟨[], .lit hm, by simpa [arity, fieldTys] using DenotesAll.nil⟩
        | _ => simp [Pat.matches] at hm
    · simp only [wrapHead, wrap, List.headD_cons] at h
      cases h with
      | wild hv hne =>
        exact ⟨[], .other fun l hl => hne hshape l (hlits l hl), by simpa [arity, fieldTys] using DenotesAll.nil⟩

/-- Whatever the fields are, the head denotes a value with them. -/
theorem exists_denotes_splits (hfresh : Fresh table prim lits) (htyped : ∀ p ∈ heads, PatTyped table prim p ty)
    (hc : ctor ∈ splitCtors (table.shape ty) heads) {fields : List Value}
    (h : DenotesAll table prim lits (ws.take (arity (table.shape ty) ctor)) (fieldTys (table.shape ty) ctor) fields) :
    ∃ v, Denotes table prim lits (wrapHead (table.shape ty) ctor ws) ty v := by
  cases hshape : table.shape ty with
  | enum variants =>
    rw [hshape] at hc h
    simp only [splitCtors, List.mem_map, List.mem_range] at hc
    obtain ⟨i, hi, rfl⟩ := hc
    have hget := List.getElem?_eq_getElem hi
    simp only [fieldTys, arity, hget, Option.map_some, Option.getD_some] at h
    simp only [wrapHead, wrap, List.headD_cons, hget, Option.map_some, Option.getD_some, arity]
    exact ⟨_, .variant hshape hget h⟩
  | tuple tys =>
    rw [hshape] at hc h
    simp only [splitCtors, List.mem_singleton] at hc
    subst hc
    exact ⟨_, .tuple hshape h⟩
  | list elem =>
    rw [hshape] at hc h
    simp only [splitCtors, List.mem_append, List.mem_map, List.mem_range, List.mem_singleton] at hc
    rcases hc with ⟨n, -, rfl⟩ | rfl
    · simp only [fieldTys, arity] at h
      have hlength : (ws.take n).length = n := by simpa using h.lengths.1
      exact ⟨_, .list hshape (by rwa [arity, hlength])⟩
    · simp only [fieldTys, arity] at h
      have hlength : (ws.take (listBound heads)).length = listBound heads := by simpa using h.lengths.1
      exact ⟨.list (fields ++ []), .listRest hshape (by rwa [arity, hlength]) (by simp)⟩
  | opaqueTy =>
    rw [hshape] at hc
    simp only [splitCtors, List.mem_append, List.mem_map, List.mem_singleton] at hc
    rcases hc with ⟨l, hl, rfl⟩ | rfl
    · cases htyped _ ((columnLits_spec heads).1 l hl) with
      | lit _ hv => exact ⟨_, .lit hshape hv (by simp [Pat.matches, Lit.eq_refl])⟩
    · obtain ⟨v, hv, hne⟩ := hfresh ty hshape
      exact ⟨v, .wild (.prim hshape hv) fun _ => hne⟩

end

/-! ## Examples of a query -/

/-- The example denotes values, and each of them matches the query but no row. -/
structure Fits (table : CtorTable T) (prim : T → Value → Prop) (lits : List Lit) (rows : List Row) (q : Row)
    (tys : List T) (ws : List Witness) : Prop where
  denotes : ∃ vs, DenotesAll table prim lits ws tys vs
  fits : ∀ vs, DenotesAll table prim lits ws tys vs →
    matchesElems q vs = true ∧ ∀ r ∈ rows, matchesElems r vs = false

section
variable {rows : List Row} {head : Pat} {qRest : Row} {ty : T} {tys : List T} {ctor : Ctor} {ws : List Witness}

theorem column_lits (hrows : RowsOk table prim lits (ty :: tys) rows)
    (hq : RowOk table prim lits (ty :: tys) (head :: qRest)) : ∀ l, .lit l ∈ column rows head → l ∈ lits :=
  fun _ hl => (column_typed hrows hq _ hl).2 (by simp [Pat.lits])

theorem column_wrapHead (hfresh : Fresh table prim lits) (hrows : RowsOk table prim lits (ty :: tys) rows)
    (hq : RowOk table prim lits (ty :: tys) (head :: qRest))
    (hc : ctor ∈ splitCtors (table.shape ty) (column rows head)) {fields : List Value}
    (h : DenotesAll table prim lits (ws.take (arity (table.shape ty) ctor)) (fieldTys (table.shape ty) ctor) fields) :
    ∃ v, Denotes table prim lits (wrapHead (table.shape ty) ctor ws) ty v :=
  exists_denotes_splits hfresh (fun p hp => (column_typed hrows hq p hp).1) hc h

/-- An example for the specialized query is one for the query, with the constructor put back. -/
theorem Fits.of_specialize (hfresh : Fresh table prim lits) (hnames : DistinctNames table)
    (hrows : RowsOk table prim lits (ty :: tys) rows) (hq : RowOk table prim lits (ty :: tys) (head :: qRest))
    (hc : ctor ∈ splitCtors (table.shape ty) (column rows head)) (hcov : covers head ctor = true)
    (h : Fits table prim lits (specializeRows rows ctor (arity (table.shape ty) ctor))
      (specialize head qRest (arity (table.shape ty) ctor)) (fieldTys (table.shape ty) ctor ++ tys) ws) :
    Fits table prim lits rows (head :: qRest) (ty :: tys) (wrap (table.shape ty) ctor ws) := by
  have hlength := length_fieldTys hc
  obtain ⟨⟨vs, hvs⟩, hfits⟩ := h
  have hws : arity (table.shape ty) ctor ≤ ws.length := by
    rw [hvs.lengths.1, List.length_append, hlength]
    omega
  rw [wrap_eq]
  constructor
  · obtain ⟨as, bs, rfl, has, hbs⟩ := hvs.split
    rw [hlength] at has hbs
    obtain ⟨v, hv⟩ := column_wrapHead hfresh hrows hq hc has
    exact ⟨v :: bs, .cons hv hbs⟩
  · intro vs hvs
    cases hvs with
    | @cons _ _ _ _ v vs hv hvs =>
      obtain ⟨fields, hs, hfields⟩ := hv.splits hnames (column_lits hrows hq) hc hws
      have hall := hfields.append hvs
      rw [List.take_append_drop] at hall
      obtain ⟨hmatch, hno⟩ := hfits _ hall
      constructor
      · rw [matchesElems_cons_splits _ _ (column_typed hrows hq head (by simp [column])).1 (by simp [column]) hc hs
          hfields.hasTypes, hcov, hmatch]
        rfl
      · intro r hr
        obtain ⟨p, ps, rfl, hp, -, -⟩ := (hrows r hr).cons
        rw [matchesElems_cons_splits _ _ hp (head_mem_column hr) hc hs hfields.hasTypes]
        by_cases hcp : covers p ctor = true
        · have hspec : matchesElems (specialize p ps (arity (table.shape ty) ctor)) (fields ++ vs) = false :=
            hno _ (List.mem_map.mpr ⟨_, List.mem_filter.mpr ⟨hr, hcp⟩, rfl⟩)
          rw [hspec, Bool.and_false]
        · rw [Bool.eq_false_of_not_eq_true hcp, Bool.false_and]

/-- An example for the default matrix is one for the query, with a constructor that only wildcards cover. -/
theorem Fits.of_default (hinh : AllInhabited table prim) (hfresh : Fresh table prim lits)
    (hnames : DistinctNames table) (hrows : RowsOk table prim lits (ty :: tys) rows)
    (hq : RowOk table prim lits (ty :: tys) (.wild :: qRest))
    (hc : ctor ∈ splitCtors (table.shape ty) (column rows .wild)) (honly : onlyWild rows ctor = true)
    (h : Fits table prim lits (defaultRows rows) qRest tys ws) :
    Fits table prim lits rows (.wild :: qRest) (ty :: tys) (wildWitness (table.shape ty) ctor :: ws) := by
  obtain ⟨⟨vs, hvs⟩, hfits⟩ := h
  constructor
  · obtain ⟨fields, hfields⟩ := exists_denotesAll_wild hinh hfresh (fieldTys (table.shape ty) ctor)
    rw [length_fieldTys hc] at hfields
    have htake : DenotesAll table prim lits ((List.replicate (arity (table.shape ty) ctor) .wild).take
        (arity (table.shape ty) ctor)) (fieldTys (table.shape ty) ctor) fields := by
      rwa [List.take_of_length_le (by simp)]
    obtain ⟨v, hv⟩ := column_wrapHead hfresh hrows hq hc htake
    exact ⟨v :: vs, .cons hv hvs⟩
  · intro vs hvs
    cases hvs with
    | cons hv hvs =>
      obtain ⟨fields, hs, hfields⟩ := Denotes.splits hnames (column_lits hrows hq) hc (by simp) hv
      obtain ⟨hmatch, hno⟩ := hfits _ hvs
      refine ⟨hmatch, fun r hr => ?_⟩
      obtain ⟨p, ps, rfl, hp, -, -⟩ := (hrows r hr).cons
      by_cases hcp : covers p ctor = true
      · have hwild := onlyWild_iff.mp honly _ hr hcp
        rw [matchesElems, hno ps (List.mem_map.mpr ⟨_, List.mem_filter.mpr ⟨hr, hwild⟩, rfl⟩), Bool.and_false]
      · rw [matchesElems_cons_splits _ _ hp (head_mem_column hr) hc hs hfields.hasTypes,
          Bool.eq_false_of_not_eq_true hcp, Bool.false_and]

/-- Where no row has a constructor, an example for the default matrix is one for the query. -/
theorem Fits.of_wild (hinh : AllInhabited table prim) (hfresh : Fresh table prim lits)
    (hrows : RowsOk table prim lits (ty :: tys) rows) (hwild : ∀ r ∈ rows, (r.headD .wild).isWild = true)
    (h : Fits table prim lits (defaultRows rows) qRest tys ws) :
    Fits table prim lits rows (.wild :: qRest) (ty :: tys) (.wild :: ws) := by
  obtain ⟨⟨vs, hvs⟩, hfits⟩ := h
  constructor
  · obtain ⟨v, hv⟩ := exists_denotes_wild hinh hfresh ty
    exact ⟨v :: vs, .cons hv hvs⟩
  · intro vs hvs
    cases hvs with
    | cons hv hvs =>
      obtain ⟨hmatch, hno⟩ := hfits _ hvs
      refine ⟨hmatch, fun r hr => ?_⟩
      obtain ⟨p, ps, rfl, -, -, -⟩ := (hrows r hr).cons
      rw [matchesElems, hno ps (List.mem_map.mpr ⟨_, List.mem_filter.mpr ⟨hr, hwild _ hr⟩, rfl⟩), Bool.and_false]

end

/-- Every example that `useful` returns fits the query. -/
theorem fits_of_mem_useful (hinh : AllInhabited table prim) (hfresh : Fresh table prim lits)
    (hnames : DistinctNames table) {rows : List Row} {q : Row} {tys : List T} {limit : Nat} {w : List Witness}
    (hrows : RowsOk table prim lits tys rows) (hq : RowOk table prim lits tys q)
    (h : w ∈ useful table rows q tys limit) : Fits table prim lits rows q tys w := by
  match q, tys, hq with
  | [], [], _ =>
    rw [useful] at h
    cases rows with
    | nil =>
      obtain rfl := List.mem_singleton.mp h
      exact ⟨⟨[], .nil⟩, fun _ _ => ⟨rfl, by simp⟩⟩
    | cons r rows => cases h
  | head :: qRest, ty :: tys, hq =>
    obtain ⟨_, _, heq, hp, hl, hqr⟩ := hq.cons
    cases heq
    obtain ⟨found, left, hloop⟩ : ∃ found left, usefulCtors table rows head qRest (table.shape ty) tys limit
        (splitCtors (table.shape ty) (column rows head)) [] [] = (found, left) := ⟨_, _, rfl⟩
    rcases mem_useful_cons hloop h with hfound | ⟨hleft, n, ws, hws, hw⟩
    · rcases mem_usefulCtors hloop hfound with h | ⟨c, hc, hs, n, ws, hws, rfl⟩
      · cases h
      · have hdec := nodes_specialize_lt hs.2 qRest (arity (table.shape ty) c)
        apply Fits.of_specialize hfresh hnames hrows hq hc hs.1
        exact fits_of_mem_useful hinh hfresh hnames (hrows.specializeRows hc)
          (RowOk.specialize hp hl hqr hc hs.1) hws
    · have hfits := fits_of_mem_useful hinh hfresh hnames hrows.defaultRows hqr hws
      have hctor : ∀ c ∈ left, c ∈ splitCtors (table.shape ty) (column rows head) ∧ head = .wild ∧
          onlyWild rows c = true := by
        intro c hc
        rcases missing_usefulCtors hloop hc with h | ⟨hcs, -, hmiss⟩
        · cases h
        · obtain ⟨hwild, honly⟩ := Bool.and_eq_true_iff.mp hmiss
          refine ⟨hcs, ?_, honly⟩
          cases head with
          | wild => rfl
          | _ => cases hwild
      obtain ⟨c, hc⟩ := List.exists_mem_of_ne_nil _ hleft
      obtain ⟨-, rfl, -⟩ := hctor c hc
      unfold defaultWitnesses at hw
      split at hw
      · next hcolumn =>
        obtain rfl := List.mem_singleton.mp hw
        apply Fits.of_wild hinh hfresh hrows _ hfits
        intro r hr
        simp only [Bool.not_eq_true', List.any_eq_false, Bool.not_eq_false] at hcolumn
        simpa using hcolumn r hr
      · obtain ⟨c, hc, rfl⟩ := List.mem_map.mp hw
        obtain ⟨hcs, -, honly⟩ := hctor c hc
        exact .of_default hinh hfresh hnames hrows hq hcs honly hfits
termination_by (nodesRows rows + nodesList q, q.length)
decreasing_by
  · exact .left _ _ hdec
  · refine Prod.Lex.right' _ ?_ (by simp)
    have := nodesRows_defaultRows_le rows
    simp only [nodesList]
    omega

end Emela.Types
