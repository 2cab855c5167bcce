import Emela.Infer.Lemmas.Calls
import Emela.Infer.Lemmas.Unify

/-!
# Contexts that operations lead to

In a context that operations with keys lead to all variables are keys and bindings end, so its types can be resolved.
-/

namespace Emela.Infer

open UnificationTable LawfulTable InferCtx

variable {T : Type} [UnificationTable T]

/-! ## Every operation -/

section
variable {k : Nat} {c d : InferCtx T}

/-- Keys are all that is needed for the context to stay sound. -/
theorem preserved_keyed [LawfulTable T] :
    Preserved k (fun x y => x.Keyed k ∧ y.Keyed k) (fun _ : InferCtx T => True) where
  keyed h := h
  symm h := ⟨h.2, h.1⟩
  parts h hpq := ⟨h.1.child (Ty.mem_parts hpq).1, h.2.child (Ty.mem_parts hpq).2⟩
  value hs _ h hty := by
    obtain ⟨rfl, hkeyed, -⟩ := hs
    exact ⟨hkeyed.values _ (h.1.self _ rfl) _ hty, h.2⟩
  find hs _ h := by
    obtain ⟨rfl, -, -⟩ := hs
    exact ⟨.var (find_lt _ _ (h.1.self _ rfl)), h.2⟩
  union _ _ _ _ _ := trivial
  bind _ _ _ _ := trivial
  buffer _ _ _ _ _ := trivial

theorem Sound.clear (h : Sound k c) : Sound k { c with rowBuffer := [] } := h.of_eq rfl h.intVars

theorem Sound.commitRows (h : Sound k c) : Sound k c.commitRows := by
  obtain ⟨subsets, heq⟩ := commitRows_subsets c
  rw [heq]
  exact h.of_eq rfl h.intVars

/-- After a failure the table is the one before, and the variables of integer literals are still keys. -/
theorem Sound.restore (h : Sound k c) (hd : Sound k d) : Sound k { d with rowBuffer := [], table := c.table } :=
  h.of_eq rfl hd.intVars

variable [LawfulTable T]

theorem Sound.newKey (h : Sound k c) (ints : List TyVar) (hints : ∀ w ∈ ints, w < k + 1) :
    Sound (k + 1) { c with table := newKey c.table, intVars := c.intVars ++ ints } := by
  obtain ⟨rfl, hkeyed, hends⟩ := h
  have hlen : len (UnificationTable.newKey c.table) = len c.table + 1 := len_newKey c.table
  have hprobe : ∀ v < len c.table, probeValue (UnificationTable.newKey c.table) v = probeValue c.table v :=
    fun v hv => probe_newKey c.table v hv
  have hnew := probe_new c.table
  have hmono : ∀ {ty : Ty}, ty.Keyed (len c.table) → ty.Keyed (len c.table + 1) := by
    intro ty hty
    induction hty with
    | mk hvars _ ih => exact .mk (fun v hv => Nat.lt_succ_of_lt (hvars v hv)) ih
  constructor
  · exact hlen
  · constructor
    · intro w hw
      change w < len (UnificationTable.newKey c.table)
      rw [hlen]
      rcases List.mem_append.mp hw with hw | hw
      · exact Nat.lt_succ_of_lt (hkeyed.intVars w hw)
      · exact hints w hw
    · intro v hv ty hty
      change v < len (UnificationTable.newKey c.table) at hv
      change ty.Keyed (len (UnificationTable.newKey c.table))
      change probeValue (UnificationTable.newKey c.table) v = some ty at hty
      rw [hlen] at hv ⊢
      rcases Nat.lt_succ_iff_lt_or_eq.mp hv with hv | rfl
      · rw [hprobe v hv] at hty
        exact hmono (hkeyed.values v hv ty hty)
      · rw [hnew] at hty
        cases hty
  · intro v hv
    rcases Nat.lt_succ_iff_lt_or_eq.mp hv with hv | rfl
    · exact (hends v hv).of_values hkeyed.values hprobe (.var hv)
    · exact .free hnew

theorem Sound.unifyInner {n : Nat} {expected actual : Ty} {variance : Variance} {r : Except TypeErrorKind Unit}
    (h : Sound k c) (he : expected.Keyed k) (ha : actual.Keyed k)
    (hrun : c.unifyInner n expected actual variance = some (r, d)) : Sound k d :=
  (preserved_keyed.unifyInner n variance ⟨h, trivial⟩ ⟨he, ha⟩ r d hrun).1

theorem Sound.unifyArgs {n : Nat} {a b : DefId × List Ty} {r : Except TypeErrorKind Unit} (h : Sound k c)
    (ha : ∀ ty ∈ a.2, ty.Keyed k) (hb : ∀ ty ∈ b.2, ty.Keyed k) (hrun : c.unifyArgs n a b = some (r, d)) : Sound k d := by
  refine leads_unifyEach (fun x y hxy c hc r d hrun => ?_) h r d hrun
  obtain ⟨hx, hy⟩ := List.of_mem_zip hxy
  exact hc.unifyInner (ha x hx) (hb y hy) hrun

/-- An operation with keys leads from a sound context to one. -/
theorem Sound.step {op : Op} {answer : Answer} (h : Sound k c) (hop : op.Keyed k) (hstep : c.step op = some (answer, d)) :
    ∃ k', Sound k' d := by
  cases op with
  | freshVar =>
    cases hstep
    have hnew := h.newKey [] (by simp)
    rw [List.append_nil] at hnew
    exact ⟨k + 1, hnew⟩
  | newIntVar =>
    cases hstep
    exact ⟨k + 1, h.newKey [len c.table] (by simp [h.len_eq])⟩
  | resolve n ty =>
    obtain ⟨_, -, hstep⟩ := Option.map_eq_some_iff.mp hstep
    cases hstep
    exact ⟨k, h⟩
  | resolveForReport n ty =>
    obtain ⟨_, -, hstep⟩ := Option.map_eq_some_iff.mp hstep
    cases hstep
    exact ⟨k, h⟩
  | addSubset kind sub sup origin =>
    cases hstep
    obtain ⟨subsets, heq⟩ := addSubsetOf_subsets kind sub sup origin c
    rw [heq]
    exact ⟨k, h.of_eq rfl h.intVars⟩
  | unify n expected actual =>
    obtain ⟨⟨r, e⟩, hunify, hstep⟩ := Option.map_eq_some_iff.mp hstep
    cases hstep
    refine ⟨k, ?_⟩
    rcases unify_cases hunify with ⟨e, hinner, -, rfl⟩ | ⟨_, e, _, hinner, -, rfl⟩
    · exact (h.clear.unifyInner hop.1 hop.2 hinner).commitRows
    · exact h.restore (h.clear.unifyInner hop.1 hop.2 hinner)
  | sameTag n a b =>
    obtain ⟨⟨same, e⟩, hsame, hstep⟩ := Option.map_eq_some_iff.mp hstep
    cases hstep
    refine ⟨k, ?_⟩
    rcases sameTag_cases hsame with ⟨-, rfl⟩ | ⟨-, ⟨e, hinner, -, rfl⟩ | ⟨_, e, hinner, -, rfl⟩⟩
    · exact h
    · exact (h.clear.unifyArgs hop.1 hop.2 hinner).commitRows
    · exact h.restore (h.clear.unifyArgs hop.1 hop.2 hinner)
  | _ =>
    cases hstep
    exact ⟨k, h.of_eq rfl h.intVars⟩

/-- And so does every run. -/
theorem InferCtx.Reached.sound (h : c.Reached) : Sound (len c.table) c := by
  induction h with
  | new =>
    have hempty : ∀ v : Nat, ¬v < len (InferCtx.new : InferCtx T).table := by
      intro v hv
      change v < len (empty : T) at hv
      rw [len_empty] at hv
      exact absurd hv (Nat.not_lt_zero v)
    constructor
    · rfl
    · exact ⟨fun w hw => (List.not_mem_nil hw).elim, fun v hv => absurd hv (hempty v)⟩
    · exact fun v hv => absurd hv (hempty v)
  | step _ hop hstep ih =>
    obtain ⟨k', hsound⟩ := ih.step hop hstep
    obtain rfl := hsound.len_eq
    exact hsound

end

/-! ## What can be resolved -/

/-- The type can be resolved, from some depth on. -/
def Resolves (c : InferCtx T) (ty : Ty) : Prop := ∃ n, ∀ m, n ≤ m → ∃ r, c.resolve m ty = some r

/-- The types of a set a variable of a set stands for. -/
def InferCtx.solvedTys (c : InferCtx T) : RowElem → List Ty
  | .var v => match c.rowSolution with
    | some solution => Row.tys ((solution v).getD [])
    | none => []
  | _ => []

/-- The types of the sets that solve the variables of sets can be resolved. -/
def InferCtx.Solved (c : InferCtx T) : Prop := ∀ v, ∀ ty ∈ c.solvedTys (.var v), Resolves c ty

/-- The sets of the type. -/
def Ty.elems : Ty → List RowElem
  | .fn _ _ e u => e ++ u
  | .set _ row => row
  | _ => []

theorem exists_mapM {α β : Type} {f : α → Option β} {xs : List α} (h : ∀ x ∈ xs, ∃ y, f x = some y) :
    ∃ ys, xs.mapM f = some ys := by
  induction xs with
  | nil => exact ⟨[], rfl⟩
  | cons x xs ih =>
    obtain ⟨y, hy⟩ := h x List.mem_cons_self
    obtain ⟨ys, hys⟩ := ih fun x hx => h x (List.mem_cons_of_mem _ hx)
    exact ⟨y :: ys, by simp [List.mapM_cons, hy, hys]⟩

section
variable {f : Ty → Option Ty} {row : Row}

theorem exists_mapTys (h : ∀ ty ∈ Row.tys row, ∃ r, f ty = some r) : ∃ row', Row.mapTys f row = some row' := by
  have hstep : ∀ {o : Option (List RowElem)}, (∃ elems, o = some elems) →
      ∃ row', (do return Row.fromElems (← o)) = some row' := by
    rintro o ⟨elems, rfl⟩
    exact ⟨_, rfl⟩
  rw [Row.mapTys]
  apply hstep
  apply exists_mapM
  intro e he
  cases e with
  | of ty =>
    obtain ⟨r, hr⟩ := h ty (Row.mem_tys.mpr (.inl he))
    exact ⟨.of r, by simp [hr]⟩
  | tag d args =>
    obtain ⟨rs, hrs⟩ := exists_mapM fun ty hty => h ty (Row.mem_tys.mpr (.inr ⟨d, args, he, hty⟩))
    exact ⟨.tag d rs, by simp [hrs]⟩
  | bound i => exact ⟨.bound i, rfl⟩
  | var v => exact ⟨.var v, rfl⟩

omit [UnificationTable T] in
theorem exists_resolveRow {c : InferCtx T} (h : ∀ ty ∈ Row.tys row, ∃ r, f ty = some r)
    (hsolved : ∀ e ∈ row, ∀ ty ∈ c.solvedTys e, ∃ r, f ty = some r) : ∃ row', c.resolveRow f row = some row' := by
  apply exists_foldlM
  intro e he out
  have hstep : ∀ {o : Option Row}, (∃ row', o = some row') → ∃ out', (do return out.extend (← o)) = some out' := by
    rintro o ⟨row', rfl⟩
    exact ⟨_, rfl⟩
  apply hstep
  cases e with
  | of ty =>
    obtain ⟨r, hr⟩ := h ty (Row.mem_tys.mpr (.inl he))
    simp only [hr]
    cases r <;> exact ⟨_, rfl⟩
  | tag d args =>
    obtain ⟨rs, hrs⟩ := exists_mapM fun ty hty => h ty (Row.mem_tys.mpr (.inr ⟨d, args, he, hty⟩))
    exact ⟨[.tag d rs], by simp [hrs]⟩
  | bound i => exact ⟨[.bound i], rfl⟩
  | var v =>
    have hv := hsolved (.var v) he
    cases hsol : c.rowSolution with
    | none => exact ⟨[.var v], rfl⟩
    | some solution =>
      simp only [solvedTys, hsol] at hv
      exact exists_mapTys hv

end

section
variable {c : InferCtx T} {n : Nat} {ty z : Ty}

/-- A type whose children can be resolved. -/
theorem exists_resolve (hz : shallowResolve c.table (n + 1) ty = some z)
    (hchildren : ∀ child ∈ z.children, ∃ r, c.resolve n child = some r)
    (hsolved : ∀ e ∈ z.elems, ∀ ty ∈ c.solvedTys e, ∃ r, c.resolve n ty = some r) : ∃ r, c.resolve (n + 1) ty = some r := by
  rw [resolve, hz]
  cases z with
  | fn ps ret e u =>
    simp only [Ty.children, Ty.elems, List.mem_append, List.mem_cons] at hchildren hsolved
    obtain ⟨ps', hps⟩ := exists_mapM fun p hp => hchildren p (.inl (.inl hp))
    obtain ⟨ret', hret⟩ := hchildren ret (.inl (.inr (.inl rfl)))
    obtain ⟨e', he⟩ := exists_resolveRow (fun ty hty => hchildren ty (.inl (.inr (.inr hty))))
      fun e he => hsolved e (.inl he)
    obtain ⟨u', hu⟩ := exists_resolveRow (fun ty hty => hchildren ty (.inr hty)) fun e he => hsolved e (.inr he)
    exact ⟨.fn ps' ret' e' u', by simp [hps, hret, he, hu]⟩
  | set k row =>
    obtain ⟨row', hrow⟩ := exists_resolveRow hchildren hsolved
    exact ⟨.set k row', by simp [hrow]⟩
  | cap d args =>
    obtain ⟨args', hargs⟩ : ∃ ys, args.mapM (c.resolve n) = some ys := exists_mapM hchildren
    exact ⟨.cap d args', by simp [Ty.mapChildren, hargs]⟩
  | tuple elems =>
    obtain ⟨elems', helems⟩ : ∃ ys, elems.mapM (c.resolve n) = some ys := exists_mapM hchildren
    exact ⟨.tuple elems', by simp [Ty.mapChildren, helems]⟩
  | named d args =>
    obtain ⟨args', hargs⟩ : ∃ ys, args.mapM (c.resolve n) = some ys := exists_mapM hchildren
    exact ⟨.named d args', by simp [Ty.mapChildren, hargs]⟩
  | list elem =>
    obtain ⟨elem', helem⟩ := hchildren elem List.mem_cons_self
    exact ⟨.list elem', by simp [Ty.mapChildren, helem]⟩
  | prim | never | var | bound | error => exact ⟨_, rfl⟩

/-- The types of a list, all from one depth on. -/
theorem resolves_all {tys : List Ty} (h : ∀ ty ∈ tys, Resolves c ty) :
    ∃ n, ∀ m, n ≤ m → ∀ ty ∈ tys, ∃ r, c.resolve m ty = some r := by
  induction tys with
  | nil => exact ⟨0, by simp⟩
  | cons ty tys ih =>
    obtain ⟨n₁, h₁⟩ := h ty List.mem_cons_self
    obtain ⟨n₂, h₂⟩ := ih fun ty hty => h ty (List.mem_cons_of_mem _ hty)
    refine ⟨max n₁ n₂, fun m hm => List.forall_mem_cons.mpr ⟨?_, ?_⟩⟩
    · exact h₁ m (Nat.le_trans (Nat.le_max_left n₁ n₂) hm)
    · exact h₂ m (Nat.le_trans (Nat.le_max_right n₁ n₂) hm)

theorem Resolves.of_children (hz : shallowResolve c.table n ty = some z) (hchildren : ∀ child ∈ z.children, Resolves c child)
    (hsolved : c.Solved) : Resolves c ty := by
  have htys : ∀ ty ∈ z.children ++ z.elems.flatMap c.solvedTys, Resolves c ty := by
    intro ty hty
    rcases List.mem_append.mp hty with hty | hty
    · exact hchildren ty hty
    · obtain ⟨e, -, hty⟩ := List.mem_flatMap.mp hty
      cases e with
      | var v => exact hsolved v ty hty
      | _ => cases hty
  obtain ⟨k, hk⟩ := resolves_all htys
  refine ⟨max n k + 1, fun m hm => ?_⟩
  obtain ⟨m, rfl⟩ := Nat.exists_eq_add_of_le' (Nat.le_trans (Nat.le_add_left 1 _) hm)
  have hle := Nat.le_of_succ_le_succ hm
  apply exists_resolve (shallowResolve_mono hz (Nat.le_succ_of_le (Nat.le_trans (Nat.le_max_left n k) hle)))
  · exact fun child hchild => hk m (Nat.le_trans (Nat.le_max_right n k) hle) child (List.mem_append_left _ hchild)
  · exact fun e he ty hty => hk m (Nat.le_trans (Nat.le_max_right n k) hle) ty
      (List.mem_append_right _ (List.mem_flatMap.mpr ⟨e, he, hty⟩))

/-- A type whose bindings end can be resolved. -/
theorem Ends.resolves (h : Ends c.table ty) (hsolved : c.Solved) : Resolves c ty := by
  have hshallow : ∃ n z, shallowResolve c.table n ty = some z ∧ ∀ child ∈ z.children, Resolves c child := by
    induction h with
    | @free v hprobe => exact ⟨1, .var (find c.table v), by rw [shallowResolve, hprobe], by simp [Ty.children]⟩
    | @value v ty hprobe _ ih =>
      obtain ⟨n, z, hz, hchildren⟩ := ih
      exact ⟨n + 1, z, by rw [shallowResolve, hprobe]; exact hz, hchildren⟩
    | @parts ty hvar _ ih =>
      refine ⟨1, ty, ?_, fun child hchild => ?_⟩
      · cases ty with
        | var v => exact absurd rfl (hvar v)
        | _ => rfl
      · obtain ⟨n, z, hz, hchildren⟩ := ih child hchild
        exact .of_children hz hchildren hsolved
  obtain ⟨n, z, hz, hchildren⟩ := hshallow
  exact .of_children hz hchildren hsolved

theorem InferCtx.Reached.resolves [LawfulTable T] (h : c.Reached) (hsolved : c.Solved) (hty : ty.Keyed (len c.table)) :
    Resolves c ty :=
  (Ends.of_keys h.sound.ends hty).resolves hsolved

end

end Emela.Infer
