import Emela.Infer.Context

/-!
# Contexts that give the same answers

Two contexts that agree on which variables are those of integer literals, and on all else, answer every operation alike
and go on agreeing. The table only puts variables together, so what they agree on once they agree on later.
-/

namespace Emela.Infer

open UnificationTable InferCtx

variable {T : Type} [UnificationTable T]

/-! ## Variables of integer literals -/

theorem isIntVar_iff {c : InferCtx T} {v : TyVar} :
    c.isIntVar v = true ↔ ∃ w ∈ c.intVars, find c.table v = find c.table w := by
  simp [isIntVar, List.any_eq_true]

theorem isIntVar_of_mem {c : InferCtx T} {w : TyVar} (h : w ∈ c.intVars) : c.isIntVar w = true :=
  isIntVar_iff.mpr ⟨w, h, rfl⟩

theorem InferCtx.Same.refl (c : InferCtx T) : Same c c := ⟨rfl, fun _ => rfl⟩

/-- The contexts agree already over a table that the present one comes from, to which a failure goes back. -/
structure SameFrom (t : T) (c d : InferCtx T) : Prop where
  rest : d = { c with intVars := d.intVars }
  base : ∀ v, (∃ w ∈ d.intVars, find t v = find t w) ↔ ∃ w ∈ c.intVars, find t v = find t w
  coarser : ∀ v w, find t v = find t w → find c.table v = find c.table w

section
variable {t : T} {c d : InferCtx T}

theorem SameFrom.table (h : SameFrom t c d) : d.table = c.table := by rw [h.rest]

theorem SameFrom.same (h : SameFrom t c d) : Same c d := by
  have hside : ∀ {a b : InferCtx T}, a.table = c.table → b.table = c.table →
      (∀ v, (∃ w ∈ a.intVars, find t v = find t w) → ∃ w ∈ b.intVars, find t v = find t w) →
      ∀ v, a.isIntVar v = true → b.isIntVar v = true := by
    intro a b ha hb hab v hv
    obtain ⟨w, hw, hfind⟩ := isIntVar_iff.mp hv
    obtain ⟨w', hw', hfind'⟩ := hab w ⟨w, hw, rfl⟩
    have hfind'' := h.coarser w w' hfind'
    rw [ha] at hfind
    rw [← hb] at hfind hfind''
    exact isIntVar_iff.mpr ⟨w', hw', hfind.trans hfind''⟩
  refine ⟨h.rest, fun v => ?_⟩
  rw [Bool.eq_iff_iff]
  exact ⟨hside h.table rfl (fun v => (h.base v).mp) v, hside rfl h.table (fun v => (h.base v).mpr) v⟩

theorem SameFrom.intVars (h : SameFrom t c d) (v : TyVar) : d.isIntVar v = c.isIntVar v := h.same.intVars v

theorem InferCtx.Same.from (h : Same c d) : SameFrom c.table c d := by
  refine ⟨h.rest, fun v => ?_, fun _ _ h => h⟩
  have htable : d.table = c.table := by rw [h.rest]
  have := h.intVars v
  rw [Bool.eq_iff_iff, isIntVar_iff, isIntVar_iff, htable] at this
  exact this

/-- A table that takes nothing apart, and the same further variables on both sides. -/
theorem SameFrom.coarsen (h : SameFrom t c d) {s : T}
    (ht : ∀ v w, find c.table v = find c.table w → find s v = find s w) (more : List TyVar) :
    SameFrom t { c with table := s, intVars := c.intVars ++ more } { d with table := s, intVars := d.intVars ++ more } := by
  obtain ⟨hrest, hbase, hcoarser⟩ := h
  generalize d.intVars = vars at hrest hbase
  subst hrest
  refine ⟨rfl, fun v => ?_, fun v w hvw => ht v w (hcoarser v w hvw)⟩
  simp only [List.mem_append, or_and_right, exists_or, hbase v]

theorem SameFrom.withTable (h : SameFrom t c d) {s : T}
    (ht : ∀ v w, find c.table v = find c.table w → find s v = find s w) :
    SameFrom t { c with table := s } { d with table := s } := by
  have := h.coarsen ht []
  rwa [List.append_nil, List.append_nil] at this

/-- The fields that are neither the table nor the variables change alike. -/
theorem SameFrom.restore (h : SameFrom t c d) :
    Same { c with rowBuffer := [], table := t } { d with rowBuffer := [], table := t } := by
  obtain ⟨hrest, hbase, -⟩ := h
  generalize d.intVars = vars at hrest hbase
  subst hrest
  refine ⟨rfl, fun v => ?_⟩
  rw [Bool.eq_iff_iff, isIntVar_iff, isIntVar_iff]
  exact hbase v

end

/-! ## Answers -/

/-- The second run gives the answer of the first, and the contexts are related. -/
def Agree {β : Type} (rel : InferCtx T → InferCtx T → Prop) (o o' : Option (β × InferCtx T)) : Prop :=
  ∀ r c, o = some (r, c) → ∃ d, o' = some (r, d) ∧ rel c d

section
omit [UnificationTable T]
variable {β : Type} {rel : InferCtx T → InferCtx T → Prop} {o o' : Option (β × InferCtx T)}

theorem Agree.pure {r : β} {c d : InferCtx T} (h : rel c d) : Agree rel (some (r, c)) (some (r, d)) := by
  intro r' c' hrun
  cases hrun
  exact ⟨d, rfl, h⟩

theorem Agree.none : Agree rel Option.none o := fun _ _ h => by cases h

theorem Agree.bind {γ : Type} {rel' : InferCtx T → InferCtx T → Prop} {f f' : β × InferCtx T → Option (γ × InferCtx T)}
    (h : Agree rel o o') (hf : ∀ r c d, rel c d → Agree rel' (f (r, c)) (f' (r, d))) :
    Agree rel' (o.bind f) (o'.bind f') := by
  intro r c hrun
  obtain ⟨⟨r₁, c₁⟩, ho, hrun⟩ := Option.bind_eq_some_iff.mp hrun
  obtain ⟨d₁, ho', hrel⟩ := h r₁ c₁ ho
  rw [ho']
  exact hf r₁ c₁ d₁ hrel r c hrun

end

omit [UnificationTable T] in
theorem Agree.andThen {rel : InferCtx T → InferCtx T → Prop} {o o' : Option (Outcome T)}
    {f f' : InferCtx T → Option (Outcome T)} (h : Agree rel o o') (hf : ∀ c d, rel c d → Agree rel (f c) (f' d)) :
    Agree rel (andThen o f) (andThen o' f') := by
  apply h.bind
  intro r c d hrel
  match r with
  | .ok () => exact hf c d hrel
  | .error _ => exact .pure hrel

section
variable {t : T} {c d : InferCtx T}

theorem agree_unifyEach {f : Ty → Ty → InferCtx T → Option (Outcome T)}
    (h : ∀ x y c d, SameFrom t c d → Agree (SameFrom t) (f x y c) (f x y d)) (xs ys : List Ty) (hsame : SameFrom t c d) :
    Agree (SameFrom t) (unifyEach f xs ys c) (unifyEach f xs ys d) := by
  induction xs generalizing ys c d with
  | nil => exact .pure hsame
  | cons x xs ih =>
    cases ys with
    | nil => exact .pure hsame
    | cons y ys => exact (h x y c d hsame).andThen fun _ _ => ih ys

theorem same_bufferRows (kind : SetKind) (e a : Row) (variance : Variance) (h : SameFrom t c d) :
    SameFrom t (c.bufferRows kind e a variance) (d.bufferRows kind e a variance) := by
  obtain ⟨hrest, hbase, hcoarser⟩ := h
  generalize d.intVars = vars at hrest hbase
  subst hrest
  unfold bufferRows
  split
  · exact ⟨rfl, hbase, hcoarser⟩
  · cases variance <;> exact ⟨rfl, hbase, hcoarser⟩

theorem same_unionVars (x y : TyVar) (h : SameFrom t c d) : SameFrom t (c.unionVars x y) (d.unionVars x y) := by
  have hcoarse : ∀ v w, find c.table v = find c.table w → find (union c.table x y) v = find (union c.table x y) w :=
    fun v w => find_union c.table x y v w
  unfold unionVars
  dsimp only
  rw [h.table, h.intVars, h.intVars]
  split
  · exact h.coarsen hcoarse _
  · exact h.withTable hcoarse

theorem agree_unifyVar (n : Nat) (v : TyVar) (ty e a : Ty) (h : SameFrom t c d) :
    Agree (SameFrom t) (c.unifyVar n v ty e a) (d.unifyVar n v ty e a) := by
  unfold unifyVar
  rw [h.intVars]
  split
  · exact .pure h
  · unfold bindVar
    rw [h.table]
    cases occurs c.table v n ty with
    | none => exact .none
    | some found =>
      cases found
      · apply Agree.pure
        apply h.withTable
        intro w w' hfind
        rw [find_unionValue, find_unionValue, hfind]
      · exact .pure h

theorem agree_unifyInner (n : Nat) (expected actual : Ty) (variance : Variance) (h : SameFrom t c d) :
    Agree (SameFrom t) (c.unifyInner n expected actual variance) (d.unifyInner n expected actual variance) := by
  induction n generalizing expected actual variance c d with
  | zero => exact .none
  | succ n ih =>
    rw [unifyInner, unifyInner, h.table]
    cases shallowResolve c.table (n + 1) expected with
    | none => exact .none
    | some e =>
      cases shallowResolve c.table (n + 1) actual with
      | none => exact .none
      | some a =>
        simp only [Option.bind_eq_bind, Option.bind_some]
        cases e <;> cases a
        case var.var x y => exact .pure (same_unionVars x y h)
        case cap.cap d xs d' ys =>
          dsimp only
          split
          · exact agree_unifyEach (fun x y _ _ h => ih x y .inv h) xs ys h
          · exact .pure h
        case fn.fn ps r fails uses qs s fails' uses' =>
          dsimp only
          split
          · refine ((agree_unifyEach (fun p q _ _ h => ih p q variance.flip h) ps qs h).andThen
              fun _ _ h => ih r s variance h).andThen fun _ _ h => ?_
            exact .pure (same_bufferRows _ _ _ _ (same_bufferRows _ _ _ _ h))
          · exact .pure h
        case tuple.tuple xs ys =>
          dsimp only
          split
          · exact agree_unifyEach (fun x y _ _ h => ih x y variance h) xs ys h
          · exact .pure h
        case named.named d xs d' ys =>
          dsimp only
          split
          · exact agree_unifyEach (fun x y _ _ h => ih x y .inv h) xs ys h
          · exact .pure h
        case list.list x y => exact ih x y variance h
        case set.set k x l y =>
          dsimp only
          split
          · exact .pure (same_bufferRows _ _ _ _ h)
          · exact .pure h
        all_goals first
          | exact .pure h
          | exact agree_unifyVar _ _ _ _ _ h
          | (dsimp only; split <;> exact .pure h)

end

section
variable {c d : InferCtx T}

/-! ## Questions -/

theorem same_resolve (h : Same c d) (n : Nat) : d.resolve n = c.resolve n := by
  have hrest := h.rest
  generalize d.intVars = vars at hrest
  subst hrest
  induction n with
  | zero => rfl
  | succ n ih =>
    funext ty
    simp only [resolve, ih]
    rfl

theorem same_resolveForReport (h : Same c d) (n : Nat) : d.resolveForReport n = c.resolveForReport n := by
  induction n with
  | zero => rfl
  | succ n ih =>
    funext ty
    simp only [resolveForReport, ih, h.from.table, h.intVars]

theorem same_reportKind (h : Same c d) (n : Nat) (kind : TypeErrorKind) : d.reportKind n kind = c.reportKind n kind := by
  cases kind <;> simp only [reportKind, same_resolveForReport h]

/-! ## Operations -/

theorem same_addSubsetOf (kind : SetKind) (sub sup : Row) (origin : Origin) (h : Same c d) :
    Same (c.addSubsetOf kind sub sup origin) (d.addSubsetOf kind sub sup origin) := by
  have hrest := h.rest
  have hint := h.intVars
  generalize d.intVars = vars at hrest
  subst hrest
  unfold addSubsetOf
  split
  · exact h
  · split
    · exact h
    · exact ⟨rfl, hint⟩

theorem same_addSubsets (buffer : List (Row × Row × SetKind)) (origin : Origin) (h : Same c d) :
    Same (buffer.foldl (fun c (sub, sup, kind) => c.addSubsetOf kind sub sup origin) c)
      (buffer.foldl (fun c (sub, sup, kind) => c.addSubsetOf kind sub sup origin) d) := by
  induction buffer generalizing c d with
  | nil => exact h
  | cons b buffer ih => exact ih (same_addSubsetOf _ _ _ _ h)

theorem same_commitRows (h : Same c d) : Same c.commitRows d.commitRows := by
  have hrest := h.rest
  have hint := h.intVars
  generalize d.intVars = vars at hrest
  subst hrest
  exact same_addSubsets _ _ ⟨rfl, hint⟩

theorem same_clear (h : Same c d) : Same { c with rowBuffer := [] } { d with rowBuffer := [] } := by
  have hrest := h.rest
  have hint := h.intVars
  generalize d.intVars = vars at hrest
  subst hrest
  exact ⟨rfl, hint⟩

end

end Emela.Infer
