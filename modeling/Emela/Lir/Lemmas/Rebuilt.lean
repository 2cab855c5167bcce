import Emela.Lir.Lemmas.Flags
import Emela.Lir.Lemmas.Leaving

/-!
# Rebuilt code means what it did

The rebuilt code runs as the code of the source does, followed by the way out of the enclosing regions.
-/

namespace Emela.Lir.Implicit

variable {α W D : Type} {R : Runtime α W D} {calls : Calls α W D} {fuel : Nat}

/-! ## Where code is rebuilt -/

/-- The copies of the variables in scope hold what the variables hold. -/
def Agrees (Γ : Finset VarId) (b : Build) (ρ ρ' : Env (Val α D)) : Prop :=
  ∀ v ∈ Γ, ∃ t, b.varMap v = some t ∧ t < b.vars.length ∧ ρ' t = ρ v

/-- Where a label in scope went; only `protect`s are between. -/
structure Placed (τ : Target) (stack : List Encl) (b : Build) (l : LabelId) : Prop where
  label : b.labelMap l = some (τ.label l)
  lt : τ.label l < b.labels
  depth : b.depth l = τ.depth l
  le : τ.depth l ≤ stack.length
  protects : Protects (stack.take (stack.length - τ.depth l))

/-- The code under `Γ` can be rebuilt here, and run with the copies. `X` and `L` are what the cleanups of the
stack define. -/
structure Ready (R : Runtime α W D) (calls : Calls α W D) (fuel : Nat) (X : Set VarId) (L : Set LabelId) (τ : Target)
    (stack : List Encl) (regions : List (Region α W D)) (Γ : Scope) (b : Build) (ρ ρ' : Env (Val α D)) : Prop where
  agrees : Agrees Γ.vars b ρ ρ'
  stacked : Stacked R calls fuel Γ.vars b ρ' stack regions
  grows : ∀ e ∈ stack, e.Extends X L
  vars : ∀ v ∈ Γ.vars, v ∉ X
  labels : ∀ l ∈ Γ.labels, l ∉ L ∧ Placed τ stack b l
  leaves : Γ.leaves = true → Protects stack

/-- The code defines variables and labels of its own. -/
structure Apart (X : Set VarId) (L : Set LabelId) (Γ : Scope) (ds : List VarId) (ls : List LabelId) : Prop where
  defs : ds.Nodup
  vars : ∀ v ∈ ds, v ∉ Γ.vars ∧ v ∉ X
  labels : ls.Nodup
  fresh : ∀ l ∈ ls, l ∉ Γ.labels ∧ l ∉ L

namespace Apart

variable {X : Set VarId} {L : Set LabelId} {Γ : Scope} {ds ds' : List VarId} {ls ls' : List LabelId}

theorem left (h : Apart X L Γ (ds ++ ds') (ls ++ ls')) : Apart X L Γ ds ls :=
  ⟨h.defs.of_append_left, fun v hv => h.vars v (List.mem_append_left _ hv), h.labels.of_append_left,
    fun l hl => h.fresh l (List.mem_append_left _ hl)⟩

theorem right (h : Apart X L Γ (ds ++ ds') (ls ++ ls')) : Apart X L Γ ds' ls' :=
  ⟨h.defs.of_append_right, fun v hv => h.vars v (List.mem_append_right _ hv), h.labels.of_append_right,
    fun l hl => h.fresh l (List.mem_append_right _ hl)⟩

/-- Without what stands at the end, such as the destination of a statement. -/
theorem init (h : Apart X L Γ (ds ++ ds') ls) : Apart X L Γ ds ls :=
  ⟨h.defs.of_append_left, fun v hv => h.vars v (List.mem_append_left _ hv), h.labels, h.fresh⟩

theorem tail (h : Apart X L Γ (ds ++ ds') ls) : Apart X L Γ ds' ls :=
  ⟨h.defs.of_append_right, fun v hv => h.vars v (List.mem_append_right _ hv), h.labels, h.fresh⟩

end Apart

namespace Agrees

variable {Γ : Finset VarId} {b b' : Build} {ρ ρ' : Env (Val α D)}

theorem sub (h : Agrees Γ b ρ ρ') {v : VarId} (hv : v ∈ Γ) : ρ' (b.sub v) = ρ v := by
  obtain ⟨t, ht, -, heq⟩ := h v hv
  simpa [Build.sub, ht] using heq

theorem later (h : Agrees Γ b ρ ρ') {ρ'' : Env (Val α D)} (hl : Later Γ b ρ' b' ρ'') : Agrees Γ b' ρ ρ'' := by
  intro v hv
  obtain ⟨t, ht, hlt, heq⟩ := h v hv
  exact ⟨t, hl.varMap v hv t ht, hlt.trans_le hl.vars, (hl.holds t hlt).trans heq⟩

/-- The copier knows the variables in scope. -/
theorem see (h : Agrees Γ b ρ ρ') (src : List VarData) {vs : List VarId} (hvs : ∀ v ∈ vs, v ∈ Γ) :
    b.see src vs = b := by
  induction vs with
  | nil => rfl
  | cons v vs ih =>
      obtain ⟨t, ht, -⟩ := h v (hvs v List.mem_cons_self)
      have hvar : b.var src v = b := by simp [Build.var, ht]
      rw [Build.see, List.foldl_cons, hvar]
      exact ih fun x hx => hvs x (List.mem_cons_of_mem _ hx)

theorem seeOperands (h : Agrees Γ b ρ ρ') (src : List VarData) {os : List Operand}
    (hos : ∀ v ∈ os.filterMap Operand.var?, v ∈ Γ) : b.seeOperands src os = b := h.see src hos

theorem seeOperand (h : Agrees Γ b ρ ρ') (src : List VarData) {o : Operand} (ho : ∀ v ∈ o.var?, v ∈ Γ) :
    b.seeOperands src [o] = b := by
  refine h.seeOperands src fun v hv => ?_
  obtain ⟨_, ho', hv⟩ := List.mem_filterMap.mp hv
  cases List.mem_singleton.mp ho'
  exact ho v hv

theorem operand (h : Agrees Γ b ρ ρ') {o : Operand} (ho : ∀ v ∈ o.var?, v ∈ Γ) :
    R.operand ρ' (o.rename b.sub) = R.operand ρ o := operand_rename R fun v hv => h.sub (ho v hv)

theorem operands (h : Agrees Γ b ρ ρ') {os : List Operand} (hos : ∀ v ∈ os.filterMap Operand.var?, v ∈ Γ) :
    (os.map (Operand.rename b.sub)).map (R.operand ρ') = os.map (R.operand ρ) :=
  operands_rename R fun v hv => h.sub (hos v hv)

theorem option (h : Agrees Γ b ρ ρ') {o : Option Operand} (ho : ∀ v ∈ o.toList.filterMap Operand.var?, v ∈ Γ) :
    (o.map (Operand.rename b.sub)).map (R.operand ρ') = o.map (R.operand ρ) := by
  cases o with
  | none => rfl
  | some o =>
      simp only [Option.map_some, Option.some.injEq]
      exact h.operand fun v hv => ho v (List.mem_filterMap.mpr ⟨o, by simp, hv⟩)

end Agrees

section
variable {X : Set VarId} {L : Set LabelId} {τ : Target} {stack : List Encl} {regions : List (Region α W D)} {Γ : Scope}
  {b b' : Build} {ρ ρ' : Env (Val α D)}

theorem Placed.extends {l : LabelId} {X' : Set VarId} {L' : Set LabelId} (h : Placed τ stack b l)
    (he : Build.Extends X' L' b b') (hl : l ∉ L') : Placed τ stack b' l :=
  ⟨he.labelMap l hl _ h.label, h.lt.trans_le he.labels, (he.depth l hl).trans h.depth, h.le, h.protects⟩

/-- Later, with the same variables. -/
theorem Ready.later (h : Ready R calls fuel X L τ stack regions Γ b ρ ρ') {X' : Set VarId} {L' : Set LabelId}
    {ρ'' : Env (Val α D)} (he : Build.Extends X' L' b b') (hX : ∀ v ∈ Γ.vars, v ∉ X') (hL : ∀ l ∈ Γ.labels, l ∉ L')
    (hρ : ∀ t < b.vars.length, ρ'' t = ρ' t) : Ready R calls fuel X L τ stack regions Γ b' ρ ρ'' := by
  have hl : Later Γ.vars b ρ' b' ρ'' := ⟨he.vars, fun v hv => he.varMap v (hX v hv), hρ⟩
  exact ⟨h.agrees.later hl, h.stacked.later hl (Finset.Subset.refl _), h.grows, h.vars,
    fun l hl => ⟨(h.labels l hl).1, (h.labels l hl).2.extends he (hL l hl)⟩, h.leaves⟩

/-- After code of its own has been rebuilt. -/
theorem Ready.rebuilt (h : Ready R calls fuel X L τ stack regions Γ b ρ ρ') {ds : List VarId} {ls : List LabelId}
    (ha : Apart X L Γ ds ls) (he : Build.Extends (X ∪ {v | v ∈ ds}) (L ∪ {l | l ∈ ls}) b b') :
    Ready R calls fuel X L τ stack regions Γ b' ρ ρ' :=
  h.later he (fun v hv hc => hc.elim (h.vars v hv) fun hd => (ha.vars v hd).1 hv)
    (fun l hl hc => hc.elim (h.labels l hl).1 fun hd => (ha.fresh l hd).1 hl) fun _ _ => rfl

theorem Ready.grows_with (h : Ready R calls fuel X L τ stack regions Γ b ρ ρ') (ds : List VarId) (ls : List LabelId) :
    ∀ e ∈ stack, e.Extends (X ∪ {v | v ∈ ds}) (L ∪ {l | l ∈ ls}) := by
  intro e he
  have := h.grows e he
  cases e with
  | protect run => exact fun d b => (this d b).mono (Set.subset_union_left) (Set.subset_union_left)
  | stash d => trivial

/-- Under another scope with the same variables. -/
theorem Ready.scope (h : Ready R calls fuel X L τ stack regions Γ b ρ ρ') {Γ' : Scope} (hvars : Γ'.vars = Γ.vars)
    (hlabels : Γ'.labels ⊆ Γ.labels) (hleaves : Γ'.leaves = true → Γ.leaves = true) :
    Ready R calls fuel X L τ stack regions Γ' b ρ ρ' :=
  ⟨hvars ▸ h.agrees, hvars ▸ h.stacked, h.grows, hvars ▸ h.vars, fun l hl => h.labels l (hlabels hl),
    fun hl => h.leaves (hleaves hl)⟩

/-! ## Definitions -/

/-- A variable is defined, and its new copy gets the value. -/
theorem Ready.fresh (h : Ready R calls fuel X L τ stack regions Γ b ρ ρ') (src : List VarData) {v : VarId}
    (hv : v ∉ Γ.vars ∧ v ∉ X) (x : Val α D) :
    Ready R calls fuel X L τ stack regions { Γ with vars := insert v Γ.vars } (b.fresh src v)
      (Function.update ρ v x) (Function.update ρ' b.vars.length x) := by
  have he : Build.Extends {v} ∅ b (b.fresh src v) := .fresh src rfl
  have hl : Later Γ.vars b ρ' (b.fresh src v) (Function.update ρ' b.vars.length x) :=
    (Later.update le_rfl x).trans (Later.of_extends he fun u hu hc => hv.1 (hc ▸ hu)) (Finset.Subset.refl _)
  refine ⟨fun u hu => ?_, h.stacked.later hl (Finset.subset_insert ..), h.grows, fun u hu => ?_,
    fun l hl => ⟨(h.labels l hl).1, (h.labels l hl).2.extends he (Set.notMem_empty l)⟩, h.leaves⟩
  · by_cases huv : u = v
    · subst huv
      exact ⟨b.vars.length, by simp [Build.fresh], by simp [Build.fresh, Build.alloc], by simp⟩
    · obtain ⟨t, ht, hlt, heq⟩ := h.agrees.later hl u ((Finset.mem_insert.mp hu).resolve_left huv)
      exact ⟨t, ht, hlt, by rwa [Function.update_of_ne huv]⟩
  · rcases Finset.mem_insert.mp hu with rfl | hu
    · exact hv.2
    · exact h.vars u hu

/-- The new copies of fresh variables. -/
theorem sub_freshAll (src : List VarData) {v : VarId} {vs : List VarId} (hv : v ∉ vs) (b : Build) :
    ((b.fresh src v).freshAll src vs).sub v = b.vars.length := by
  have he : Build.Extends {u | u ∈ vs} ∅ (b.fresh src v) ((b.fresh src v).freshAll src vs) :=
    .freshAll src fun _ hu => hu
  simp [Build.sub, he.varMap v hv b.vars.length (by simp [Build.fresh])]

/-- Variables are defined as their new copies are. -/
theorem Ready.defineAll (src : List VarData) {vs : List VarId} (hnodup : vs.Nodup) {Γ : Scope} {b : Build}
    {ρ ρ' : Env (Val α D)} (h : Ready R calls fuel X L τ stack regions Γ b ρ ρ') (hvs : ∀ v ∈ vs, v ∉ Γ.vars ∧ v ∉ X)
    (xs : List (Val α D)) :
    match Lir.defineAll ρ vs xs with
    | none => Lir.defineAll ρ' (vs.map (b.freshAll src vs).sub) xs = none
    | some ρ1 => ∃ ρ1', Lir.defineAll ρ' (vs.map (b.freshAll src vs).sub) xs = some ρ1' ∧
        Ready R calls fuel X L τ stack regions { Γ with vars := Γ.vars ∪ vs.toFinset } (b.freshAll src vs) ρ1 ρ1' := by
  induction vs generalizing Γ b ρ ρ' xs with
  | nil =>
      cases xs with
      | nil => exact ⟨ρ', rfl, h.scope (by simp) (Finset.Subset.refl _) id⟩
      | cons x xs => rfl
  | cons v vs ih =>
      cases xs with
      | nil => rfl
      | cons x xs =>
          obtain ⟨hv, hnodup⟩ := List.nodup_cons.mp hnodup
          have hone := h.fresh src (hvs v List.mem_cons_self) x
          have hrest := ih hnodup hone (fun u hu =>
            ⟨by simpa [(hvs u (List.mem_cons_of_mem _ hu)).1] using fun huv : u = v => hv (huv ▸ hu),
              (hvs u (List.mem_cons_of_mem _ hu)).2⟩) xs
          have hfold : b.freshAll src (v :: vs) = (b.fresh src v).freshAll src vs := rfl
          rw [hfold, List.map_cons, sub_freshAll src hv]
          simp only [Lir.defineAll]
          split at hrest
          · exact hrest
          · obtain ⟨ρ1', hdef, hready⟩ := hrest
            exact ⟨ρ1', hdef, hready.scope (by simp [Finset.insert_union, Finset.union_insert]) (Finset.Subset.refl _) id⟩

/-- A destination is defined as its new copy is. -/
theorem Ready.define (h : Ready R calls fuel X L τ stack regions Γ b ρ ρ') (src : List VarData) {dst : Option VarId}
    (hdst : ∀ d ∈ dst, d ∉ Γ.vars ∧ d ∉ X) (x : Option (Val α D)) :
    match Lir.define ρ dst x with
    | none => Lir.define ρ' (dst.map (b.freshAll src dst.toList).sub) x = none
    | some ρ1 => ∃ ρ1', Lir.define ρ' (dst.map (b.freshAll src dst.toList).sub) x = some ρ1' ∧
        Ready R calls fuel X L τ stack regions (Γ.define dst) (b.freshAll src dst.toList) ρ1 ρ1' := by
  cases dst with
  | none => exact ⟨ρ', rfl, h.scope (by simp [Scope.define]) (Finset.Subset.refl _) id⟩
  | some d =>
      cases x with
      | none => rfl
      | some x =>
          have hsub := sub_freshAll src (List.not_mem_nil (a := d)) b
          refine ⟨Function.update ρ' b.vars.length x, ?_, (h.fresh src (hdst d rfl) x).scope ?_ (Finset.Subset.refl _) id⟩
          · simp only [Lir.define, Option.map_some]
            exact congrArg (fun t => some (Function.update ρ' t x)) hsub
          · simp [Scope.define]

/-! ## Joins -/

/-- How the rebuilt statement goes on when the one of the source does. -/
def Follows (R : Runtime α W D) (calls : Calls α W D) (fuel : Nat) (X : Set VarId) (L : Set LabelId) (τ : Target)
    (stack : List Encl) (regions : List (Region α W D)) (Γ : Scope) (b : Build) :
    Option (Step (Val α D) D × W) → Option (Step (Val α D) Unit × (W × Option D)) → Prop
  | none, r => r = none
  | some (.exit e, w), r =>
      (∀ v, e ≠ .yield v) ∧ r = (left R τ regions false w e).map fun x => (.exit x.1, x.2)
  | some (.next ρ, w), r =>
      ∃ ρ', r = some (.next ρ', (w, none)) ∧ Ready R calls fuel X L τ stack regions Γ b ρ ρ'

theorem join_exit {V Y : Type} (dst : Option VarId) (ρ : Env V) {e : WayOut V Y} (he : ∀ v, e ≠ .yield v) :
    join dst ρ e = some (.exit e) := by
  cases e with
  | yield v => exact absurd rfl (he v)
  | _ => rfl

theorem landed_exit {V Y : Type} {e : WayOut V Y} (he : ∀ v, e ≠ .yield v) : landed e = some (.exit e) := by
  cases e with
  | yield v => exact absurd rfl (he v)
  | _ => rfl

/-- A way out of the rebuilt code that is no `yield` is one of the rebuilt code around it. -/
theorem left_passes {g : WayOut (Val α D) Unit → Option (Step (Val α D) Unit)}
    (hg : ∀ e, (∀ v, e ≠ .yield v) → g e = some (.exit e)) {e : WayOut (Val α D) D} (he : ∀ v, e ≠ .yield v) (w : W) :
    (left R τ regions false w e).bind (fun r => (g r.1).map (·, r.2)) =
      (left R τ regions false w e).map fun x => (.exit x.1, x.2) := by
  have hraise : g (.raise ()) = some (.exit (.raise ())) := hg _ (by rintro _ ⟨⟩)
  have hleaving : ∀ n (e : WayOut (Val α D) Unit), (∀ v, e ≠ .yield v) →
      (leaving R n regions e w).bind (fun r => (g r.1).map (·, r.2)) =
        (leaving R n regions e w).map fun x => (.exit x.1, x.2) := by
    intro n e he
    rcases hl : leave R n regions w with _ | ⟨_ | d, w'⟩
    · simp [leaving, hl]
    · simp [leaving, hl, hg e he]
    · simp [leaving, hl, hraise]
  cases e with
  | yield v => exact absurd rfl (he v)
  | raise d => cases hu : unwind R regions d w <;> simp [left, hu, hraise]
  | _ => exact hleaving _ _ (by rintro _ ⟨⟩)

theorem join_follows (src : List VarData) (h : Ready R calls fuel X L τ stack regions Γ b ρ ρ') {dst : Option VarId}
    (hdst : ∀ d ∈ dst, d ∉ Γ.vars ∧ d ∉ X) (o : Option (WayOut (Val α D) D × W)) :
    Follows R calls fuel X L τ stack regions (Γ.define dst) (b.freshAll src dst.toList)
      (o.bind fun r => (join dst ρ r.1).map (·, r.2))
      ((o.bind fun r => left R τ regions false r.2 r.1).bind fun r =>
        (join (dst.map (b.freshAll src dst.toList).sub) ρ' r.1).map (·, r.2)) := by
  rcases o with _ | ⟨e, w⟩
  · rfl
  · simp only [Option.bind_some]
    by_cases hy : ∃ v, e = .yield v
    · obtain ⟨v, rfl⟩ := hy
      have hdef := h.define src hdst v
      simp only [left, Bool.false_eq_true, if_false, leaving_zero, Option.bind_some, join]
      split at hdef
      · rename_i hnone
        simp [hnone, hdef, Follows]
      · rename_i ρ1 hsome
        obtain ⟨ρ1', hdef, hready⟩ := hdef
        simp only [hsome, hdef, Option.map_some]
        exact ⟨ρ1', rfl, hready⟩
    · rw [not_exists] at hy
      rw [join_exit dst ρ hy, left_passes (fun _ => join_exit _ _) hy]
      exact ⟨hy, rfl⟩

end

end Emela.Lir.Implicit
