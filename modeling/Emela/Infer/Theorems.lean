import Emela.Infer.Lemmas.Instance
import Emela.Infer.Lemmas.Literals
import Emela.Infer.Lemmas.Names

/-!
# Unification and schemes

What a failed `unify` and a failed `same_tag` leave behind in a context that operations lead to: the table and the
constraints are restored, the variables of integer literals are not. Then generalizing and instantiating.
-/

namespace Emela.Infer

open UnificationTable InferCtx

variable {T : Type} [UnificationTable T]

/-! ## Failures -/

/-- A failed call leaves the context as it was, unless it would make a variable equal to one of an integer literal:
`int_vars` is no part of the snapshot. -/
theorem failure_restores [LawfulTable T] (c : InferCtx T) (hc : c.Reached) :
    (∀ n expected actual error d, expected.Keyed (len c.table) → actual.Keyed (len c.table) →
      c.LiteralsApart [(expected, actual)] → c.unify n expected actual = some (.error error, d) → Restored c d) ∧
    (∀ n a b d, (∀ ty ∈ a.2, ty.Keyed (len c.table)) → (∀ ty ∈ b.2, ty.Keyed (len c.table)) →
      c.LiteralsApart (a.2.zip b.2) → c.sameTag n a b = some (false, d) → Restored c d) := by
  have hbuffer := hc.rowBuffer
  have hclear : ({ c with rowBuffer := [] } : InferCtx T) = c := by
    cases c
    cases hbuffer
    rfl
  have hstart : ∀ pairs, Sound (len c.table) c ∧ Within (len c.table) c pairs c :=
    fun pairs => ⟨hc.sound, .start _ c pairs⟩
  constructor
  · intro n expected actual error d he ha hapart h
    rcases unify_cases h with ⟨_, -, hok, -⟩ | ⟨kind, e, _, hinner, -, rfl⟩
    · cases hok
    · rw [hclear] at hinner
      have hpreserved := preserved_within hc.sound hapart
      have hpair : Equates c.table [(expected, actual)] expected actual := .pair List.mem_cons_self
      exact (hpreserved.unifyInner n .co (hstart _) ⟨hpair, he, ha⟩ _ e hinner).2.restored hbuffer
  · intro n a b d ha hb hapart h
    rcases sameTag_cases h with ⟨-, rfl⟩ | ⟨-, ⟨_, -, hok, -⟩ | ⟨kind, e, hinner, -, rfl⟩⟩
    · exact (Same.refl d).restored
    · cases hok
    · rw [hclear] at hinner
      have hpreserved := preserved_within hc.sound hapart
      have hargs : Leads (fun d => Sound (len c.table) d ∧ Within (len c.table) c (a.2.zip b.2) d)
          (c.unifyArgs n a b) := by
        refine leads_unifyEach (fun x y hxy d hd => ?_) (hstart _)
        obtain ⟨hx, hy⟩ := List.of_mem_zip hxy
        exact hpreserved.unifyInner n _ hd ⟨.pair hxy, ha x hx, hb y hy⟩
      exact (hargs _ e hinner).2.restored hbuffer

theorem reached_freshVar {c : InferCtx Forest} (hc : c.Reached) : c.freshVar.Reached :=
  @InferCtx.Reached.step _ _ _ _ .freshVar _ hc trivial rfl

theorem reached_newIntVar {c : InferCtx Forest} (hc : c.Reached) : c.newIntVar.Reached :=
  @InferCtx.Reached.step _ _ _ _ .newIntVar _ hc trivial rfl

/-- Two tuples that do not unify, and the types that makes equal. -/
def tuples : List Ty := [.tuple [.var 0, .prim .int], .tuple [.prim .int, .prim .string]]

def elements : List Ty := [.var 0, .prim .int, .prim .string]

/-- A variable of an integer literal is bound to `Int` before the mismatch of `Int` and `String`. -/
theorem failure_restores_literal :
    ∃ (c d : InferCtx Forest) (error : TypeError), c.unify 3 (.tuple [.var 0, .prim .int])
      (.tuple [.prim .int, .prim .string]) = some (.error error, d) ∧ c.isIntVar 0 = true ∧ Restored c d := by
  refine ⟨(new.newIntVar).freshVar, _, _, rfl, rfl, ?_⟩
  have hreached : ((new : InferCtx Forest).newIntVar.freshVar).Reached :=
    reached_freshVar (reached_newIntVar .new)
  apply (failure_restores _ hreached).1 3 (.tuple [.var 0, .prim .int]) (.tuple [.prim .int, .prim .string]) _ _ _ _ _ rfl
  · apply Ty.Keyed.tuple
    exact List.forall_mem_cons.mpr ⟨.var (by decide), List.forall_mem_singleton.mpr (.prim _)⟩
  · apply Ty.Keyed.tuple
    exact List.forall_mem_cons.mpr ⟨.prim _, List.forall_mem_singleton.mpr (.prim _)⟩
  · intro v w _ _ _ _ hequal
    have hnoparts : ∀ x ∈ elements, ∀ y ∈ elements, x.parts y = [] := by decide
    have hparts : ∀ x ∈ tuples, ∀ y ∈ tuples, ∀ p ∈ x.parts y, p.1 ∈ elements ∧ p.2 ∈ elements := by decide
    have hsides : ∀ {x y : Ty}, Equates (new.newIntVar.freshVar : InferCtx Forest).table
        [(.tuple [.var 0, .prim .int], .tuple [.prim .int, .prim .string])] x y →
        (∃ v, x = .var v ∧ y = .var v) ∨ (x ∈ elements ∧ y ∈ elements) ∨ (x ∈ tuples ∧ y ∈ tuples) := by
      intro x y h
      induction h with
      | pair h =>
        cases List.mem_singleton.mp h
        exact .inr (.inr ⟨by decide, by decide⟩)
      | value h => cases h
      | same h =>
        cases h
        exact .inl ⟨_, rfl, rfl⟩
      | parts _ h ih =>
        rcases ih with ⟨v, rfl, rfl⟩ | ⟨hx, hy⟩ | ⟨hx, hy⟩
        · cases h
        · rw [hnoparts _ hx _ hy] at h
          cases h
        · exact .inr (.inl (hparts _ hx _ hy _ h))
      | symm _ ih =>
        rcases ih with ⟨v, rfl, rfl⟩ | ⟨hx, hy⟩ | ⟨hx, hy⟩
        · exact .inl ⟨v, rfl, rfl⟩
        · exact .inr (.inl ⟨hy, hx⟩)
        · exact .inr (.inr ⟨hy, hx⟩)
      | through _ _ ih ih' =>
        rcases ih with ⟨v, rfl, heq⟩ | ⟨hx, hy⟩ | ⟨hx, hy⟩
        · cases heq
          exact ih'
        · rcases ih' with ⟨w, heq, rfl⟩ | ⟨hx', hy'⟩ | ⟨hx', hy'⟩
          · cases heq
            exact .inr (.inl ⟨hx, hy⟩)
          · exact .inr (.inl ⟨hx, hy'⟩)
          · simp [tuples] at hx'
        · simp [tuples] at hy
    rcases hsides hequal with ⟨u, hv, hw⟩ | ⟨hv, hw⟩ | ⟨hv, hw⟩
    · cases hv
      cases hw
      exact id
    · simp only [elements, List.mem_cons, Ty.var.injEq, reduceCtorEq, List.not_mem_nil, or_false] at hv hw
      rw [hv, hw]
      exact id
    · simp [tuples] at hv

/-- Here a variable that is none of an integer literal is the representative, and stays one of an integer literal. -/
theorem not_failure_restores : ¬ ∀ (c : InferCtx Forest), c.Reached → ∀ n expected actual error d,
    expected.Keyed (len c.table) → actual.Keyed (len c.table) → c.unify n expected actual = some (.error error, d) →
      Restored c d := by
  intro h
  have hreached : ((new : InferCtx Forest).newIntVar.freshVar).Reached :=
    reached_freshVar (reached_newIntVar .new)
  have hexpected : (Ty.tuple [.var 0, .prim .int]).Keyed 2 :=
    .tuple (List.forall_mem_cons.mpr ⟨.var (by decide), List.forall_mem_singleton.mpr (.prim _)⟩)
  have hactual : (Ty.tuple [.var 1, .prim .string]).Keyed 2 :=
    .tuple (List.forall_mem_cons.mpr ⟨.var (by decide), List.forall_mem_singleton.mpr (.prim _)⟩)
  have hsame := (h _ hreached 3 _ _ _ _ hexpected hactual rfl).1
  have := hsame.intVars 1
  cases this

/-! ## Schemes -/

/-- What generalizing a type says of the scheme: an instance of it unifies with the type, what is free in the environment
is not quantified, and the quantified variables have parameters of their own, with names that no other parameter has. -/
structure Generalizes (c : InferCtx T) (n : Nat) (ty : Ty) (existing : List TyParam) (envVars : List TyVar)
    (scheme : Scheme) (rows : List (RowVar × Nat)) (tys : List (TyVar × Nat)) : Prop where
  unifies : ∀ m, n + 1 ≤ m → ∃ c', (c.instantiate scheme).2.unify m (c.instantiate scheme).1 ty = some (.ok (), c')
  env : ∀ v ∈ tys, ∀ w ∈ envVars, ¬FreeIn c.table v.1 (.var w)
  names : ∃ new, scheme.params = existing ++ new ∧ (new.map (·.name)).Nodup ∧
    (∀ p ∈ new, p.name ∉ existing.map (·.name)) ∧
    tys.map (·.2) ++ rows.map (·.2) = List.range' existing.length new.length

/-- Generalizing and instantiating, for a type of keys of the table whose type parameters are among the written ones. In a
context that operations lead to the type can be resolved, from some depth on. -/
theorem generalizeBounded_right [LawfulTable T] (c : InferCtx T) (hkeyed : c.Keyed) (ty : Ty) (existing : List TyParam)
    (envVars : List TyVar) (immediate : RowVar → Bool) (hty : ty.Keyed (len c.table)) :
    (c.Reached → c.Solved → (∀ w ∈ envVars, w < len c.table) →
      ∃ n, ∀ m, n ≤ m → (∃ r, c.resolve m ty = some r) ∧ ∀ w ∈ envVars, c.resolve m (.var w) ≠ none) ∧
    ∀ n r, c.resolve n ty = some r → r.Scoped existing.length → (∀ w ∈ envVars, c.resolve n (.var w) ≠ none) →
      ∃ scheme rows tys, c.generalizeBounded n ty existing envVars immediate = some (scheme, rows, tys) ∧
        Generalizes c n ty existing envVars scheme rows tys := by
  constructor
  · intro hreached hsolved henv
    have hall : ∀ ty' ∈ ty :: envVars.map .var, Resolves c ty' := by
      intro ty' hty'
      rcases List.mem_cons.mp hty' with rfl | hty'
      · exact hreached.resolves hsolved hty
      · obtain ⟨w, hw, rfl⟩ := List.mem_map.mp hty'
        exact hreached.resolves hsolved (.var (henv w hw))
    obtain ⟨n, hn⟩ := resolves_all hall
    refine ⟨n, fun m hm => ⟨hn m hm ty List.mem_cons_self, fun w hw => ?_⟩⟩
    exact Option.ne_none_iff_exists'.mpr (hn m hm _ (List.mem_cons_of_mem _ (List.mem_map_of_mem hw)))
  intro n r hr hscope henv
  obtain ⟨env, henv'⟩ := exists_foldlM (f := fun env v => collectFreeVars c.table n (.var v) env)
    (fun w hw out => (Option.ne_none_iff_exists'.mp (henv w hw)).elim fun _ h => collectFreeVars_some h out) []
  obtain ⟨vars, hvars⟩ := collectFreeVars_some hr []
  obtain ⟨⟨map, params⟩, more, hmap, hq, hmore⟩ := quantifyVars_spec env vars [] existing 0
  obtain ⟨⟨rowMap, params'⟩, moreRows, hrows, hqr⟩ := quantifyRows_spec immediate (freeRowVars r) [] params fun _ => 0
  obtain ⟨hmap', new, hparams, hadded, hindices⟩ := hq
  obtain ⟨hrowMap, newRows, hparams', haddedRows, hrowIndices⟩ := hqr
  simp only [List.nil_append] at hmap' hrowMap
  subst hmap' hrowMap
  simp only at hparams hparams'
  subst hparams hparams'
  refine ⟨⟨existing ++ new ++ newRows, replaceVars map rowMap r⟩, rowMap, map, ?_, ?_, ?_, ?_⟩
  · simp [generalizeBounded, henv', hvars, hmap, hr, hrows]
  · intro m hm
    have hmade := made_freshArgs (existing ++ new ++ newRows) c
    have hfollows : Follows c map existing.length _ _ := hmade.follows hkeyed (by simp)
    have hok : MapOk existing.length (existing ++ new ++ newRows).length map := by
      have hall : ∀ p ∈ map, existing.length ≤ p.2 ∧ p.2 < existing.length + new.length := by
        intro p hp
        have hmem : p.2 ∈ List.range' existing.length new.length := hindices ▸ List.mem_map_of_mem hp
        simpa using hmem
      refine ⟨fun p hp => (hall p hp).1, fun p hp => ?_, ?_⟩
      · have hlt := (hall p hp).2
        simp only [List.length_append]
        omega
      · rw [hindices]
        exact List.nodup_range'
    obtain ⟨c', hc', -⟩ := Follows.unify_instance hkeyed hok hmade.tys.2 hty hr hscope hm .co
      (c := { (freshArgs (existing ++ new ++ newRows) c).2 with rowBuffer := [] })
      ⟨hfollows.size, hfollows.le, hfollows.coarse, hfollows.fine, hfollows.old, hfollows.made, hfollows.written,
        hfollows.intVars⟩
    exact ⟨c'.commitRows, by rw [unify]; exact congrArg (Option.bind · _) hc'⟩
  · intro v hv w hw hfree
    refine (hmore v hv).2 ?_
    have hfold : (envVars.map Ty.var).foldlM (fun env ty => collectFreeVars c.table n ty env) [] = some env := by
      rwa [List.foldlM_map]
    have hall := (collectEach_mem (fun ty _ out out' h => collectFreeVars_mem h) hfold).2
    exact hall (.var w) (List.mem_map_of_mem hw) v.1 hfree
  · have hnew := hadded.append haddedRows
    refine ⟨new ++ newRows, List.append_assoc .., hnew.1, hnew.2, ?_⟩
    rw [hindices, hrowIndices, List.length_append, List.length_append, List.range'_append_1]

/-- A variable of the environment bound to a list of another one, and a third variable. -/
def listed : InferCtx Forest :=
  let c := (InferCtx.new (T := Forest)).freshVar.freshVar.freshVar
  { c with table := unionValue c.table 0 (.list (.var 2)) }

theorem reached_listed : listed.Reached := by
  have hvar : (Ty.var 2).Keyed 3 := .var (by decide)
  have hlist : (Ty.list (.var 2)).Keyed 3 := .mk (by rintro v ⟨⟩) (List.forall_mem_singleton.mpr hvar)
  have hvars : ((new : InferCtx Forest).freshVar.freshVar.freshVar).Reached :=
    reached_freshVar (reached_freshVar (reached_freshVar .new))
  have hkeyed : (Op.unify 3 (.var 0) (.list (.var 2))).Keyed 3 := ⟨.var (by decide), hlist⟩
  exact hvars.step hkeyed rfl

/-- `fn(?1, ?2, A) -> ?1`, where `?2` is the element type of the environment's variable: `?1` becomes the parameter `B`. -/
theorem generalizeBounded_listed :
    (∃ n, ∀ m, n ≤ m → (∃ r, listed.resolve m (.fn [.var 1, .var 2, .bound 0] (.var 1) [] []) = some r) ∧
      ∀ w ∈ [0], listed.resolve m (.var w) ≠ none) ∧
    ∃ scheme rows tys, listed.generalizeBounded 4 (.fn [.var 1, .var 2, .bound 0] (.var 1) [] [])
        [.new "A" .type] [0] (fun _ => false) = some (scheme, rows, tys) ∧
      Generalizes listed 4 (.fn [.var 1, .var 2, .bound 0] (.var 1) [] []) [.new "A" .type] [0] scheme rows tys := by
  have hchildren : ∀ {p : Ty → Prop}, p (.var 1) → p (.var 2) → p (.bound 0) →
      ∀ child ∈ (Ty.fn [.var 1, .var 2, .bound 0] (.var 1) [] []).children, p child := by
    intro p h₁ h₂ h₃ child hchild
    simp only [Ty.children, Row.tys, List.append_nil, List.mem_append, List.mem_cons, List.not_mem_nil, or_false] at hchild
    rcases hchild with (rfl | rfl | rfl) | rfl
    · exact h₁
    · exact h₂
    · exact h₃
    · exact h₁
  have hkeyed : (Ty.fn [.var 1, .var 2, .bound 0] (.var 1) [] []).Keyed 3 := by
    apply Ty.All.mk (by rintro v ⟨⟩)
    apply hchildren
    · exact Ty.Keyed.var (by decide)
    · exact Ty.Keyed.var (by decide)
    · exact .mk (by rintro v ⟨⟩) (by simp [Ty.children])
  have hscoped : (Ty.fn [.var 1, .var 2, .bound 0] (.var 1) [] []).Scoped 1 := by
    apply Ty.All.mk (by rintro i ⟨⟩)
    apply hchildren
    · exact .mk (by rintro i ⟨⟩) (by simp [Ty.children])
    · exact .mk (by rintro i ⟨⟩) (by simp [Ty.children])
    · exact .mk (by rintro i ⟨⟩; decide) (by simp [Ty.children])
  have hright := generalizeBounded_right listed reached_listed.sound.keyed (.fn [.var 1, .var 2, .bound 0] (.var 1) [] [])
    [.new "A" .type] [0] (fun _ => false) hkeyed
  constructor
  · apply hright.1 reached_listed
    · intro v ty h
      cases h
    · decide
  · exact hright.2 4 _ rfl hscoped (by decide)

/-- A variable of the environment bound to a function with a set variable, and one of an integer literal. -/
def failing : InferCtx Forest :=
  let c := (InferCtx.new (T := Forest)).freshVar.newRowVar
  { c with table := unionValue c.table 0 (.fn [] (.prim .int) [.var 0] []) }

def literal : InferCtx Forest := (InferCtx.new (T := Forest)).newIntVar

/-- The set variable is quantified though it is free in the environment; and a type with a parameter that no declaration
writes does not unify with the instance, where both are one parameter. -/
theorem not_generalize_right :
    ((failing.generalizeBounded 3 (.var 0) [] [0] fun _ => false).map (·.2.1) = some [(0, 0)] ∧
      (failing.resolve 3 (.var 0)).map freeRowVars = some [(0, .errors)]) ∧
    ∃ scheme e c', literal.generalize 3 (.tuple [.bound 0, .var 0]) [] = some scheme ∧
      (literal.instantiate scheme).2.unify 4 (literal.instantiate scheme).1 (.tuple [.bound 0, .var 0]) =
        some (.error e, c') :=
  ⟨by decide, ⟨[.new "A" .type], .tuple [.bound 0, .bound 0]⟩, _, _, by decide, rfl⟩

end Emela.Infer
