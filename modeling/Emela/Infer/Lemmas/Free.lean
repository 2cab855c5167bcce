import Emela.Infer.Scheme

/-!
# Free variables

Following bindings deeper gives the same type, so the free variables of a type do not depend on the bound, and a type that
can be resolved has its free variables collected.
-/

namespace Emela.Infer

open UnificationTable

variable {T : Type} [UnificationTable T] {t : T} {c : InferCtx T} {n m : Nat} {ty r : Ty} {v : TyVar}

theorem shallowResolve_mono (h : shallowResolve t n ty = some r) (hle : n ≤ m) : shallowResolve t m ty = some r := by
  induction n generalizing m ty with
  | zero => cases h
  | succ n ih =>
    obtain ⟨m, rfl⟩ := Nat.exists_eq_add_of_le' (Nat.le_trans (Nat.le_add_left 1 n) hle)
    cases ty with
    | var w =>
      rw [shallowResolve] at h ⊢
      cases hprobe : probeValue t w with
      | none => simpa only [hprobe] using h
      | some bound =>
        simp only [hprobe] at h ⊢
        exact ih h (Nat.le_of_succ_le_succ hle)
    | _ => exact h

theorem shallowResolve_unique {r' : Ty} (h : shallowResolve t n ty = some r) (h' : shallowResolve t m ty = some r') :
    r = r' := by
  rcases Nat.le_total n m with hle | hle
  · exact Option.some.inj ((shallowResolve_mono h hle).symm.trans h')
  · exact Option.some.inj (h.symm.trans (shallowResolve_mono h' hle))

/-- The variable, a representative without a value, occurs in the type, seen through bindings. -/
inductive FreeIn (t : T) (v : TyVar) : Ty → Prop where
  | var {n : Nat} {ty : Ty} : shallowResolve t n ty = some (.var v) → FreeIn t v ty
  | child {n : Nat} {ty ty' child : Ty} : shallowResolve t n ty = some ty' → child ∈ ty'.children →
      FreeIn t v child → FreeIn t v ty

/-! ## Collecting -/

theorem collectEach_mem {f : List TyVar → Ty → Option (List TyVar)} {tys : List Ty} {out out' : List TyVar}
    (hf : ∀ ty ∈ tys, ∀ out out', f out ty = some out' → out ⊆ out' ∧ ∀ v, FreeIn t v ty → v ∈ out')
    (h : tys.foldlM f out = some out') : out ⊆ out' ∧ ∀ ty ∈ tys, ∀ v, FreeIn t v ty → v ∈ out' := by
  induction tys generalizing out with
  | nil =>
    cases h
    exact ⟨List.Subset.refl _, by simp⟩
  | cons ty tys ih =>
    rw [List.foldlM_cons] at h
    obtain ⟨mid, hmid, h⟩ := Option.bind_eq_some_iff.mp h
    obtain ⟨hsub, hfree⟩ := hf ty List.mem_cons_self out mid hmid
    obtain ⟨hsub', hfree'⟩ := ih (fun ty hty => hf ty (List.mem_cons_of_mem _ hty)) h
    exact ⟨List.Subset.trans hsub hsub', List.forall_mem_cons.mpr ⟨fun v hv => hsub' (hfree v hv), hfree'⟩⟩

/-- All the free variables are collected. -/
theorem collectFreeVars_mem {out out' : List TyVar} (h : collectFreeVars t n ty out = some out') :
    out ⊆ out' ∧ ∀ v, FreeIn t v ty → v ∈ out' := by
  induction n generalizing ty out out' with
  | zero => cases h
  | succ n ih =>
    rw [collectFreeVars] at h
    obtain ⟨z, hz, h⟩ := Option.bind_eq_some_iff.mp h
    by_cases hvar : ∃ w, z = .var w
    · obtain ⟨w, rfl⟩ := hvar
      obtain rfl := Option.some.inj h
      have hsub : out ⊆ if w ∈ out then out else out ++ [w] := by
        split
        · exact List.Subset.refl _
        · exact List.subset_append_left _ _
      have hw : w ∈ if w ∈ out then out else out ++ [w] := by
        split
        · assumption
        · simp
      refine ⟨hsub, fun v hv => ?_⟩
      cases hv with
      | var hv =>
        cases shallowResolve_unique hz hv
        exact hw
      | child hv hchild =>
        cases shallowResolve_unique hz hv
        cases hchild
    · have hchildren : z.children.foldlM (fun out child => collectFreeVars t n child out) out = some out' := by
        cases z with
        | var w => exact absurd ⟨w, rfl⟩ hvar
        | _ => exact h
      obtain ⟨hsub, hfree⟩ := collectEach_mem (fun ty _ out out' h => ih h) hchildren
      refine ⟨hsub, fun v hv => ?_⟩
      cases hv with
      | var hv => exact absurd ⟨v, shallowResolve_unique hz hv⟩ hvar
      | child hv hchild hin =>
        cases shallowResolve_unique hz hv
        exact hfree _ hchild v hin

theorem exists_foldlM {α β : Type} {f : β → α → Option β} {xs : List α} (hf : ∀ x ∈ xs, ∀ b, ∃ b', f b x = some b')
    (b : β) : ∃ b', xs.foldlM f b = some b' := by
  induction xs generalizing b with
  | nil => exact ⟨b, rfl⟩
  | cons x xs ih =>
    obtain ⟨mid, hmid⟩ := hf x List.mem_cons_self b
    obtain ⟨b', hb'⟩ := ih (fun x hx => hf x (List.mem_cons_of_mem _ hx)) mid
    exact ⟨b', by rw [List.foldlM_cons, hmid]; exact hb'⟩

/-! ## What can be resolved -/

theorem mapM_some {α β : Type} {f : α → Option β} {xs : List α} {ys : List β} (h : xs.mapM f = some ys) :
    ∀ x ∈ xs, ∃ y, f x = some y := by
  induction xs generalizing ys with
  | nil => simp
  | cons x xs ih =>
    rw [List.mapM_cons] at h
    obtain ⟨y, hy, h⟩ := Option.bind_eq_some_iff.mp h
    obtain ⟨ys', hys', -⟩ := Option.bind_eq_some_iff.mp h
    exact List.forall_mem_cons.mpr ⟨⟨y, hy⟩, ih hys'⟩

theorem foldlM_some {α β : Type} {f : α → Option β} {g : β → β → β} {xs : List α} {b b' : β}
    (h : xs.foldlM (fun out e => return g out (← f e)) b = some b') : ∀ x ∈ xs, ∃ y, f x = some y := by
  induction xs generalizing b with
  | nil => simp
  | cons x xs ih =>
    rw [List.foldlM_cons] at h
    obtain ⟨mid, hmid, h⟩ := Option.bind_eq_some_iff.mp h
    obtain ⟨y, hy, -⟩ := Option.bind_eq_some_iff.mp hmid
    exact List.forall_mem_cons.mpr ⟨⟨y, hy⟩, ih h⟩

theorem Row.mem_tys {row : Row} : ty ∈ Row.tys row ↔ .of ty ∈ row ∨ ∃ d args, .tag d args ∈ row ∧ ty ∈ args := by
  induction row with
  | nil => simp [Row.tys]
  | cons e row ih =>
    cases e with
    | of t => simp [Row.tys, ih, or_assoc]
    | tag d args =>
      simp only [Row.tys, List.mem_append, ih, List.mem_cons, reduceCtorEq, false_or, RowElem.tag.injEq]
      constructor
      · rintro (h | h | ⟨d', args', hmem, h⟩)
        · exact .inr ⟨d, args, .inl ⟨rfl, rfl⟩, h⟩
        · exact .inl h
        · exact .inr ⟨d', args', .inr hmem, h⟩
      · rintro (h | ⟨d', args', ⟨rfl, rfl⟩ | hmem, h⟩)
        · exact .inr (.inl h)
        · exact .inl h
        · exact .inr (.inr ⟨d', args', hmem, h⟩)
    | bound i => simp [Row.tys, ih]
    | var w => simp [Row.tys, ih]

omit [UnificationTable T] in
/-- The types inside a resolved set are resolved. -/
theorem resolveRow_some {resolve : Ty → Option Ty} {row row' : Row} (h : c.resolveRow resolve row = some row') :
    ∀ ty ∈ Row.tys row, ∃ r, resolve ty = some r := by
  intro ty hty
  have hall := foldlM_some h
  rcases Row.mem_tys.mp hty with hmem | ⟨d, args, hmem, harg⟩
  · obtain ⟨y, hy⟩ := hall _ hmem
    obtain ⟨r, hr, -⟩ := Option.bind_eq_some_iff.mp hy
    exact ⟨r, hr⟩
  · obtain ⟨y, hy⟩ := hall _ hmem
    obtain ⟨args', hargs, -⟩ := Option.bind_eq_some_iff.mp hy
    exact mapM_some hargs ty harg

/-- The children of a resolved type are resolved. -/
theorem resolve_children (h : c.resolve (n + 1) ty = some r) :
    ∃ z, shallowResolve c.table (n + 1) ty = some z ∧ ∀ child ∈ z.children, ∃ r, c.resolve n child = some r := by
  rw [InferCtx.resolve] at h
  obtain ⟨z, hz, h⟩ := Option.bind_eq_some_iff.mp h
  refine ⟨z, hz, ?_⟩
  cases z with
  | fn ps ret e u =>
    obtain ⟨ps', hps, h⟩ := Option.bind_eq_some_iff.mp h
    obtain ⟨ret', hret, h⟩ := Option.bind_eq_some_iff.mp h
    obtain ⟨e', he, h⟩ := Option.bind_eq_some_iff.mp h
    obtain ⟨u', hu, -⟩ := Option.bind_eq_some_iff.mp h
    intro child hchild
    simp only [Ty.children, List.mem_append, List.mem_cons] at hchild
    rcases hchild with (hchild | rfl | hchild) | hchild
    · exact mapM_some hps child hchild
    · exact ⟨ret', hret⟩
    · exact resolveRow_some he child hchild
    · exact resolveRow_some hu child hchild
  | set k row =>
    obtain ⟨row', hrow, -⟩ := Option.bind_eq_some_iff.mp h
    exact resolveRow_some hrow
  | cap d args =>
    obtain ⟨args', hargs, -⟩ := Option.bind_eq_some_iff.mp h
    exact mapM_some hargs
  | tuple elems =>
    obtain ⟨elems', helems, -⟩ := Option.bind_eq_some_iff.mp h
    exact mapM_some helems
  | named d args =>
    obtain ⟨args', hargs, -⟩ := Option.bind_eq_some_iff.mp h
    exact mapM_some hargs
  | list elem =>
    obtain ⟨elem', helem, -⟩ := Option.bind_eq_some_iff.mp h
    exact List.forall_mem_singleton.mpr ⟨elem', helem⟩
  | prim | never | var | bound | error => simp [Ty.children]

theorem collectFreeVars_some (h : c.resolve n ty = some r) (out : List TyVar) :
    ∃ out', collectFreeVars c.table n ty out = some out' := by
  induction n generalizing ty r out with
  | zero => cases h
  | succ n ih =>
    obtain ⟨z, hz, hchildren⟩ := resolve_children h
    obtain ⟨out', hout'⟩ := exists_foldlM (f := fun out child => collectFreeVars c.table n child out)
      (fun child hchild out => (hchildren child hchild).elim fun _ hr => ih hr out) out
    rw [collectFreeVars, hz]
    cases z with
    | var w => exact ⟨_, rfl⟩
    | _ => exact ⟨out', hout'⟩

end Emela.Infer
