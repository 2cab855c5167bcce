import Emela.Mono.Types

/-!
# What an adapter is

`Adapted`: a value of one type made one of another, as a relation. `adapter` makes one, whatever the two function types
are.
-/

namespace Emela.Mono

variable {α : Type} {table : Locals}

theorem needsAdapter_fn {ps qs : List Ty} {r s : Ty} {f u e f' u' e' : Bool} :
    needsAdapter (.fn ps r f u e) (.fn qs s f' u' e') = true ↔ Ty.fn ps r f u e ≠ .fn qs s f' u' e' ∧
      ((e' && ! e) = true ∨ ps.length = qs.length ∧ (anyNeedsAdapter qs ps = true ∨ needsAdapter r s = true)) := by
  rw [needsAdapter.eq_def]
  split <;> simp_all

@[simp] theorem needsAdapter_refl (a : Ty) : needsAdapter a a = false := by
  rw [needsAdapter.eq_def]
  simp

/-- Adapters are between function types. -/
theorem needsAdapter_functions {src dst : Ty} (h : needsAdapter src dst = true) :
    (∃ ps r f u e, src = .fn ps r f u e) ∧ ∃ qs s f u e, dst = .fn qs s f u e := by
  rw [needsAdapter.eq_def] at h
  split at h
  · cases h
  · split at h
    · exact ⟨⟨_, _, _, _, _, rfl⟩, _, _, _, _, _, rfl⟩
    · cases h

/-! ## The relation -/

/-- The hint and the type of a local. -/
def Bound (table : Locals) (hint : String) (l : Local) (ty : Ty) : Prop := table[l]? = some ⟨hint, ty⟩

mutual

/-- `e` is `value`, of type `src`, as a value of type `dst`: itself, or a lambda over the parameters of `dst` that calls
it with the parameters as its own arguments and gives its result. -/
inductive Adapted (table : Locals) : Expr α → Ty → Ty → Expr α → Prop where
  | same {e : Expr α} {src dst : Ty} : needsAdapter src dst = false → Adapted table e src dst e
  | lambda {value : Expr α} {ps qs : List Ty} {r s : Ty} {fails suspends ev fails' suspends' ev' : Bool} {v : Local}
      {params tables : List Local} {args : List (Expr α)} {body : Expr α}
      (hneeds : needsAdapter (.fn ps r fails suspends ev) (.fn qs s fails' suspends' ev') = true)
      (hv : Bound table "f" v (.fn ps r fails suspends ev)) (hparams : List.Forall₂ (Bound table "x") params qs)
      (htables : List.Forall₂ (Bound table "ev") tables (if ev' then [.evidence] else []))
      (hargs : AdaptedArgs table params qs ps args)
      (hbody : Adapted table (.call (.var v) (args ++ if ev then tables.map .var else []) fails suspends) r s body) :
      Adapted table value (.fn ps r fails suspends ev) (.fn qs s fails' suspends' ev')
        (.let_ v value (.lambda (params ++ tables) (.fn qs s fails' suspends' ev') body suspends))

/-- Each parameter, of the type on the left, as the argument of the type on the right. -/
inductive AdaptedArgs (table : Locals) : List Local → List Ty → List Ty → List (Expr α) → Prop where
  | nil {params : List Local} {haves wants : List Ty} : params = [] ∨ haves = [] ∨ wants = [] →
      AdaptedArgs table params haves wants []
  | cons {p : Local} {params : List Local} {have_ want : Ty} {haves wants : List Ty} {arg : Expr α}
      {args : List (Expr α)} : Adapted table (.var p) have_ want arg → AdaptedArgs table params haves wants args →
      AdaptedArgs table (p :: params) (have_ :: haves) (want :: wants) (arg :: args)

end

/-! ## Larger tables of locals -/

theorem Bound.mono {hint : String} {l : Local} {ty : Ty} (h : Bound table hint l ty) {table' : Locals}
    (ht : table <+: table') : Bound table' hint l ty := by
  obtain ⟨rest, rfl⟩ := ht
  have hlt : l < table.length := (List.getElem?_eq_some_iff.mp h).1
  rw [Bound, List.getElem?_append_left hlt]
  exact h

theorem bounds_mono {hint : String} {ls : List Local} {types : List Ty} (h : List.Forall₂ (Bound table hint) ls types)
    {table' : Locals} (ht : table <+: table') : List.Forall₂ (Bound table' hint) ls types :=
  List.Forall₂.imp (fun _ _ hb => hb.mono ht) h

mutual

theorem Adapted.mono {table' : Locals} (ht : table <+: table') {value e : Expr α} {src dst : Ty} :
    Adapted table value src dst e → Adapted table' value src dst e
  | .same h => .same h
  | .lambda hneeds hv hparams htables hargs hbody =>
    .lambda hneeds (hv.mono ht) (bounds_mono hparams ht) (bounds_mono htables ht) (hargs.mono ht) (hbody.mono ht)

theorem AdaptedArgs.mono {table' : Locals} (ht : table <+: table') {params : List Local} {haves wants : List Ty}
    {args : List (Expr α)} : AdaptedArgs table params haves wants args → AdaptedArgs table' params haves wants args
  | .nil h => .nil h
  | .cons harg hargs => .cons (harg.mono ht) (hargs.mono ht)

end

theorem newLocal_bound (hint : String) (ty : Ty) (ls : Locals) :
    Bound (newLocal hint ty ls).2 hint (newLocal hint ty ls).1 ty := by
  simp [newLocal, Bound]

theorem newLocal_extends (hint : String) (ty : Ty) (ls : Locals) : ls <+: (newLocal hint ty ls).2 :=
  List.prefix_append ..

theorem newLocals_extends (hint : String) : ∀ (types : List Ty) (ls : Locals), ls <+: (newLocals hint types ls).2
  | [], _ => List.prefix_rfl
  | t :: types, ls => (newLocal_extends hint t ls).trans (newLocals_extends hint types _)

theorem newLocals_bound (hint : String) : ∀ (types : List Ty) (ls : Locals),
    List.Forall₂ (Bound (newLocals hint types ls).2 hint) (newLocals hint types ls).1 types
  | [], _ => .nil
  | t :: types, ls =>
    .cons ((newLocal_bound hint t ls).mono (newLocals_extends hint types _)) (newLocals_bound hint types _)

/-! ## Making one -/

variable (α) in
/-- Between these two types an adapter can be made of every value, and it is one. -/
def Makes (src dst : Ty) : Prop :=
  ∀ (value : Expr α) (ls : Locals), ∃ e ls', adapter value src dst ls = some (e, ls') ∧ ls <+: ls' ∧
    Adapted ls' value src dst e

/-- A value that gets an adapter where it needs one. -/
theorem adapted_of_makes {src dst : Ty} (h : needsAdapter src dst = true → Makes α src dst) (value : Expr α)
    (ls : Locals) : ∃ e ls', (if needsAdapter src dst then adapter value src dst ls else some (value, ls)) = some (e, ls') ∧
      ls <+: ls' ∧ Adapted ls' value src dst e := by
  by_cases hneeds : needsAdapter src dst = true
  · obtain ⟨e, ls', hrun, hext, had⟩ := h hneeds value ls
    exact ⟨e, ls', by rw [if_pos hneeds, hrun], hext, had⟩
  · exact ⟨value, ls, by rw [if_neg hneeds], List.prefix_rfl, .same (by simpa using hneeds)⟩

/-- The table's parameter, where the type takes a table. -/
def newTable (ev : Bool) (ls : Locals) : List Local × Locals :=
  newLocals "ev" (if ev then [.evidence] else []) ls

mutual

theorem makes_adapter (src dst : Ty) (h : needsAdapter src dst = true) : Makes α src dst := by
  obtain ⟨⟨ps, r, fails, suspends, ev, rfl⟩, qs, s, fails', suspends', ev', rfl⟩ := needsAdapter_functions h
  intro value ls
  set bound := newLocal "f" (.fn ps r fails suspends ev) ls with hbound
  set xs := newLocals "x" qs bound.2 with hxs
  obtain ⟨args, ls₁, hargs, hext₁, hadapted⟩ := makes_adaptArgs xs.1 qs ps xs.2
  have hext₂ : ls₁ <+: (newTable ev' ls₁).2 := newLocals_extends "ev" _ ls₁
  obtain ⟨body, ls₃, hbody, hext₃, hresult⟩ := adapted_of_makes (makes_adapter r s)
    (.call (.var bound.1) (args ++ if ev then (newTable ev' ls₁).1.map .var else []) fails suspends)
    (newTable ev' ls₁).2
  have hlater : xs.2 <+: ls₃ := hext₁.trans (hext₂.trans hext₃)
  have hv : Bound ls₃ "f" bound.1 (.fn ps r fails suspends ev) :=
    (newLocal_bound "f" _ ls).mono ((newLocals_extends "x" qs bound.2).trans hlater)
  refine ⟨_, ls₃, ?_, ?_, .lambda h hv (bounds_mono (newLocals_bound "x" qs bound.2) hlater)
    (bounds_mono (newLocals_bound "ev" _ ls₁) hext₃) (hadapted.mono (hext₂.trans hext₃)) hresult⟩
  · rw [adapter]
    cases ev' <;> cases ev <;> simp_all [newTable, newLocals]
  · exact (newLocal_extends "f" _ ls).trans ((newLocals_extends "x" qs bound.2).trans hlater)
termination_by sizeOf src + sizeOf dst

theorem makes_adaptArgs : ∀ (params : List Local) (haves wants : List Ty) (ls : Locals),
    ∃ args ls', adaptArgs (α := α) params haves wants ls = some (args, ls') ∧ ls <+: ls' ∧
      AdaptedArgs ls' params haves wants args
  | p :: params, have_ :: haves, want :: wants, ls => by
    obtain ⟨arg, ls₁, harg, hext, had⟩ := adapted_of_makes (makes_adapter have_ want) (.var p) ls
    obtain ⟨args, ls₂, hargs, hext', hads⟩ := makes_adaptArgs params haves wants ls₁
    rw [adaptArgs]
    refine ⟨arg :: args, ls₂, ?_, hext.trans hext', .cons (had.mono hext') hads⟩
    simp [harg, hargs]
  | [], _, _, ls | _, [], _, ls | _, _, [], ls => ⟨[], ls, by simp [adaptArgs], List.prefix_rfl, .nil (by simp)⟩
termination_by _ haves wants => sizeOf haves + sizeOf wants

end

/-! ## The type of an adapter

Where the type checker lets a `src` be used as a `dst`, the verifier finds nothing wrong with an adapter and gives it
the type `dst`. -/

variable {other : α → Option Ty}

/-! ## Flows that need no adapter -/

theorem Ty.usable_fn {ps qs : List Ty} {r s : Ty} {f u e f' u' e' : Bool} (h : usable (.fn ps r f u e) (.fn qs s f' u' e') = true)
    (hne : Ty.fn ps r f u e ≠ .fn qs s f' u' e') :
    allUsable qs ps = true ∧ usable r s = true ∧ (u = true → u' = true) ∧ (e = true → e' = true) := by
  rw [usable.eq_def, if_neg (by simpa using hne)] at h
  simp only [Bool.and_eq_true, Bool.or_eq_true, Bool.not_eq_true'] at h
  obtain ⟨⟨⟨⟨hparams, hret⟩, -⟩, hsuspends⟩, hev⟩ := h
  exact ⟨hparams, hret, by simpa [imp_iff_not_or] using hsuspends, by simpa [imp_iff_not_or] using hev⟩

mutual

theorem Ty.compatible_of_usable {a b : Ty} (h : usable a b = true) (hneeds : needsAdapter a b = false) :
    compatible a b = true := by
  by_cases hedge : (a = b || a = never || a = any || b = any) = true
  · rw [compatible.eq_def, if_pos hedge]
  · have husable := h
    rw [usable.eq_def, if_neg hedge] at h
    split at h
    case h_1 ps r fails suspends ev qs s fails' suspends' ev' =>
      have hne : Ty.fn ps r fails suspends ev ≠ .fn qs s fails' suspends' ev' := fun heq => hedge (by simp [heq])
      obtain ⟨hparams, hret, -, hev⟩ := usable_fn husable hne
      have hno := mt needsAdapter_fn.mpr (Bool.eq_false_iff.mp hneeds)
      simp only [hne, ne_eq, not_false_eq_true, true_and, not_or, not_and, Bool.not_eq_true] at hno
      obtain ⟨hparams', hret'⟩ := hno.2 (length_eq_of_allUsable hparams).symm
      rw [compatible.eq_def, if_neg hedge]
      simp only [Bool.and_eq_true, allCompatible_of_usable hparams hparams', compatible_of_usable hret hret', true_and]
      revert hev hno
      cases ev <;> cases ev' <;> simp
    case h_2 => exact h
termination_by sizeOf a + sizeOf b

theorem Ty.allCompatible_of_usable : ∀ {xs ys : List Ty}, allUsable xs ys = true → anyNeedsAdapter xs ys = false →
    allCompatible xs ys = true
  | [], [], _, _ => by rw [allCompatible]
  | x :: xs, y :: ys, h, hneeds => by
    rw [allUsable, Bool.and_eq_true] at h
    rw [anyNeedsAdapter, Bool.or_eq_false_iff] at hneeds
    rw [allCompatible, Bool.and_eq_true]
    exact ⟨compatible_of_usable h.1 hneeds.1, allCompatible_of_usable h.2 hneeds.2⟩
  | [], y :: ys, h, _ => by simp [allUsable] at h
  | x :: xs, [], h, _ => by simp [allUsable] at h
termination_by xs ys => sizeOf xs + sizeOf ys

end

/-! ## Locals and lambdas -/

theorem Bound.typeOf {hint : String} {l : Local} {ty : Ty} (h : Bound table hint l ty) :
    typeOf other table (.var l) = some ty := by
  rw [Mono.typeOf, h]
  rfl

theorem mapM_bounds {hint : String} : ∀ {ls : List Local} {types : List Ty}, List.Forall₂ (Bound table hint) ls types →
    ls.mapM (table[·]?) = some (types.map (⟨hint, ·⟩))
  | _, _, .nil => rfl
  | l :: ls, t :: types, .cons h hs => by
    have hl : table[l]? = some ⟨hint, t⟩ := h
    simp [List.mapM_cons, hl, mapM_bounds hs]

theorem typesOf_bounds {hint : String} : ∀ {ls : List Local} {types : List Ty},
    List.Forall₂ (Bound table hint) ls types → typesOf other table (ls.map .var) = some types
  | _, _, .nil => rfl
  | l :: ls, t :: types, .cons h hs => by
    simp [typesOf, h.typeOf, typesOf_bounds hs]

theorem lambdaFits_bounds {params tables : List Local} {types : List Ty} {ev : Bool}
    (hparams : List.Forall₂ (Bound table "x") params types)
    (htables : List.Forall₂ (Bound table "ev") tables (if ev then [.evidence] else [])) :
    lambdaFits table (params ++ tables) types ev = true := by
  have hzip : ∀ (p : Ty × LocalData → Bool) (hp : ∀ t, p (t, ⟨"x", t⟩) = true) (types : List Ty) (rest : List LocalData),
      (types.zip (types.map (LocalData.mk "x") ++ rest)).all p = true := by
    intro p hp types rest
    induction types with
    | nil => rfl
    | cons t types ih => simp [ih, hp]
  have hdata : (params ++ tables).mapM (table[·]?) = some (types.map (LocalData.mk "x") ++
      (if ev then [Ty.evidence] else []).map (LocalData.mk "ev")) := by
    rw [List.mapM_append, mapM_bounds hparams, mapM_bounds htables]
    rfl
  have hcount : (params ++ tables).length = types.length + ev.toNat := by
    rw [List.length_append, hparams.length_eq, htables.length_eq]
    cases ev <;> rfl
  rw [lambdaFits, hdata]
  dsimp only
  rw [hzip _ (by simp), hcount, beq_self_eq_true]
  cases ev <;> simp

/-! ## Adapters -/

theorem typesOf_append : ∀ (es es' : List (Expr α)), typesOf other table (es ++ es') =
    (do let ts ← typesOf other table es; let ts' ← typesOf other table es'; some (ts ++ ts'))
  | [], es' => by cases h : typesOf other table es' <;> simp [typesOf, h]
  | e :: es, es' => by
    rw [List.cons_append, typesOf, typesOf, typesOf_append es es']
    cases typeOf other table e <;> cases typesOf other table es <;> cases typesOf other table es' <;> rfl

theorem Ty.allCompatible_append : ∀ {xs ys xs' ys' : List Ty}, allCompatible xs ys = true →
    allCompatible xs' ys' = true → allCompatible (xs ++ xs') (ys ++ ys') = true
  | [], [], _, _, _, h => h
  | x :: xs, y :: ys, _, _, h, h' => by
    rw [allCompatible, Bool.and_eq_true] at h
    rw [List.cons_append, List.cons_append, allCompatible, Bool.and_eq_true]
    exact ⟨h.1, allCompatible_append h.2 h'⟩
  | [], y :: ys, _, _, h, _ => by simp [allCompatible] at h
  | x :: xs, [], _, _, h, _ => by simp [allCompatible] at h

mutual

/-- A value that may flow into `src` becomes one that may flow into `dst`; an adapter has the type `dst`. -/
theorem Adapted.typed {value e : Expr α} {src dst t : Ty} (husable : src.usable dst = true)
    (hvalue : typeOf other table value = some t) (hflows : t.compatible src = true)
    (hsame : needsAdapter src dst = false → t = src) : Adapted table value src dst e →
    ∃ t', typeOf other table e = some t' ∧ t'.compatible dst = true ∧ (needsAdapter src dst = true → t' = dst)
  | .same hneeds => by
    obtain rfl := hsame hneeds
    exact ⟨_, hvalue, Ty.compatible_of_usable husable hneeds, fun h => by simp [hneeds] at h⟩
  | @Adapted.lambda _ _ value ps qs r s fails suspends ev _ suspends' ev' v params tables args _ hneeds hv hparams
      htables hargs hbody => by
    obtain ⟨hps, hret, hsuspends, hev⟩ := Ty.usable_fn husable (needsAdapter_fn.mp hneeds).1
    obtain ⟨actual, htypes, hactual⟩ := AdaptedArgs.typed hparams hps hargs
    have htable : typesOf other table (if ev then tables.map .var else []) = some (if ev then [.evidence] else []) := by
      cases ev with
      | false => rfl
      | true =>
        have hev' : ev' = true := hev rfl
        rw [hev'] at htables
        exact typesOf_bounds htables
    have hslots : Ty.allCompatible (actual ++ if ev then [.evidence] else [])
        (ps ++ if ev then [.evidence] else []) = true := by
      apply Ty.allCompatible_append hactual
      cases ev <;> simp [Ty.allCompatible]
    have hv' : table[v]? = some ⟨"f", .fn ps r fails suspends ev⟩ := hv
    have hcall : typeOf other table (.call (.var v) (args ++ if ev then tables.map .var else []) fails suspends) =
        some r := by
      simp [typeOf, hv', typesOf_append, htypes, htable, hslots]
    obtain ⟨t', ht', hcompat, -⟩ := Adapted.typed hret hcall (Ty.compatible_refl r) (fun _ => rfl) hbody
    have hlambda := lambdaFits_bounds hparams htables
    refine ⟨_, ?_, Ty.compatible_refl _, fun _ => rfl⟩
    have hsuspends' : (! suspends || suspends') = true := by simpa [imp_iff_not_or] using hsuspends
    simp [typeOf, hvalue, hv', hflows, ht', hsuspends', hlambda, hcompat]

theorem AdaptedArgs.typed {params : List Local} {haves wants : List Ty} {args : List (Expr α)}
    (hparams : List.Forall₂ (Bound table "x") params haves) (husable : Ty.allUsable haves wants = true) :
    AdaptedArgs table params haves wants args →
    ∃ actual, typesOf other table args = some actual ∧ Ty.allCompatible actual wants = true
  | .nil hnil => by
    have hcount := hparams.length_eq
    have hcount' := Ty.length_eq_of_allUsable husable
    have hwants : wants = [] := by
      rcases hnil with rfl | rfl | rfl
      · exact List.length_eq_zero_iff.mp (hcount'.symm.trans hcount.symm)
      · exact List.length_eq_zero_iff.mp hcount'.symm
      · rfl
    rw [hwants]
    exact ⟨[], rfl, by rw [Ty.allCompatible]⟩
  | .cons harg hargs => by
    cases hparams with
    | cons hp hparams =>
      rw [Ty.allUsable, Bool.and_eq_true] at husable
      obtain ⟨t, ht, hflows, -⟩ := Adapted.typed husable.1 hp.typeOf (Ty.compatible_refl _) (fun _ => rfl) harg
      obtain ⟨ts, hts, hall⟩ := AdaptedArgs.typed hparams husable.2 hargs
      exact ⟨t :: ts, by simp [typesOf, ht, hts], by rw [Ty.allCompatible, hflows, hall]; rfl⟩

end

end Emela.Mono
