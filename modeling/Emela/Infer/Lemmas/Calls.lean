import Emela.Infer.Lemmas.Same

/-!
# Operations

Contexts that agree answer every run of operations alike. What `unify` and `same_tag` make of what `unify_inner` gives.
-/

namespace Emela.Infer

open UnificationTable InferCtx

variable {T : Type} [UnificationTable T]

/-! ## Operations on contexts that agree -/

section
variable {c d : InferCtx T}

theorem agree_unify (n : Nat) (expected actual : Ty) (h : Same c d) :
    Agree Same (c.unify n expected actual) (d.unify n expected actual) := by
  have hstart := (same_clear h).from
  have hunify := agree_unifyInner n expected actual .co hstart
  unfold unify
  apply hunify.bind
  intro r c₁ d₁ hsame
  match r with
  | .ok () => exact .pure (same_commitRows hsame.same)
  | .error kind =>
    have hback := hsame.restore
    simp only [h.from.table]
    simp only [same_reportKind hback, same_resolveForReport hback]
    intro r' c' hrun
    obtain ⟨kind', hkind, hrun⟩ := Option.bind_eq_some_iff.mp hrun
    obtain ⟨e, he, hrun⟩ := Option.bind_eq_some_iff.mp hrun
    obtain ⟨a, ha, hrun⟩ := Option.bind_eq_some_iff.mp hrun
    cases hrun
    exact ⟨_, by simp [hkind, he, ha], hback⟩

theorem agree_sameTag (n : Nat) (a b : DefId × List Ty) (h : Same c d) : Agree Same (c.sameTag n a b) (d.sameTag n a b) := by
  have hstart := (same_clear h).from
  have hunify := agree_unifyEach
    (fun x y _ _ h => agree_unifyInner n x y (argVariance x y) h) a.2 b.2 hstart
  unfold sameTag
  split
  · exact .pure h
  · split
    · exact .pure h
    · apply hunify.bind
      intro r c₁ d₁ hsame
      match r with
      | .ok () => exact .pure (same_commitRows hsame.same)
      | .error _ =>
        have hback := hsame.restore
        simp only [h.from.table]
        exact .pure hback

/-- Contexts that agree answer an operation alike. -/
theorem agree_step (op : Op) (h : Same c d) : Agree Same (c.step op) (d.step op) := by
  have hmap : ∀ {β : Type} {o : Option β} {f : β → Answer}, Agree Same (o.map fun b => (f b, c)) (o.map fun b => (f b, d)) := by
    intro β o f r c' hrun
    obtain ⟨b, rfl, hrun⟩ := Option.map_eq_some_iff.mp hrun
    cases hrun
    exact ⟨d, rfl, h⟩
  have htable := h.from.table
  have hrest := h.rest
  have hint := h.intVars
  cases op with
  | freshVar =>
    have hkey := h.from.withTable (s := newKey c.table) fun v w hvw => by rw [find_newKey, find_newKey, hvw]
    simp only [InferCtx.step, freshVar, htable]
    exact .pure hkey.same
  | newIntVar =>
    have hkey := h.from.coarsen (s := newKey c.table) (fun v w hvw => by rw [find_newKey, find_newKey, hvw]) [len c.table]
    simp only [InferCtx.step, newIntVar, htable]
    exact .pure hkey.same
  | isIntVar v =>
    simp only [InferCtx.step, hint]
    exact .pure h
  | resolve n ty =>
    simp only [InferCtx.step, same_resolve h]
    exact hmap
  | resolveForReport n ty =>
    simp only [InferCtx.step, same_resolveForReport h]
    exact hmap
  | addSubset kind sub sup origin => exact .pure (same_addSubsetOf kind sub sup origin h)
  | unify n expected actual =>
    simp only [InferCtx.step, Option.map_eq_bind]
    exact (agree_unify n expected actual h).bind fun _ _ _ hsame => .pure hsame
  | sameTag n a b =>
    simp only [InferCtx.step, Option.map_eq_bind]
    exact (agree_sameTag n a b h).bind fun _ _ _ hsame => .pure hsame
  | _ =>
    generalize d.intVars = vars at hrest
    subst hrest
    exact .pure ⟨rfl, hint⟩

end

/-- And every operation after it. -/
theorem agree_run (ops : List Op) {c d : InferCtx T} (h : Same c d) : Agree Same (c.run ops) (d.run ops) := by
  induction ops generalizing c d with
  | nil => exact .pure h
  | cons op ops ih =>
    apply (agree_step op h).bind
    intro answer c₁ d₁ hsame
    exact (ih hsame).bind fun _ _ _ hsame => .pure hsame

theorem InferCtx.Same.restored {c d : InferCtx T} (h : Same c d) : Restored c d :=
  ⟨h, fun ops answers c' hrun => agree_run ops h answers c' hrun⟩

/-! ## What a call does -/

omit [UnificationTable T] in
theorem addSubsetOf_subsets (kind : SetKind) (sub sup : Row) (origin : Origin) (c : InferCtx T) :
    ∃ subsets, c.addSubsetOf kind sub sup origin = { c with subsets } := by
  unfold addSubsetOf
  split
  · exact ⟨c.subsets, rfl⟩
  · split
    · exact ⟨c.subsets, rfl⟩
    · exact ⟨_, rfl⟩

omit [UnificationTable T] in
/-- Noting the constraints writes the constraints only. -/
theorem commitRows_subsets (c : InferCtx T) : ∃ subsets, c.commitRows = { c with rowBuffer := [], subsets } := by
  unfold commitRows
  have hfold : ∀ (f : InferCtx T → Row × Row × SetKind → InferCtx T)
      (hf : ∀ d b, ∃ subsets, f d b = { d with subsets }) (buffer : List (Row × Row × SetKind)) (d : InferCtx T),
      ∃ subsets, buffer.foldl f d = { d with subsets } := by
    intro f hf buffer
    induction buffer with
    | nil => exact fun d => ⟨d.subsets, rfl⟩
    | cons b buffer ih =>
      intro d
      obtain ⟨subsets, h⟩ := hf d b
      obtain ⟨subsets', h'⟩ := ih (f d b)
      exact ⟨subsets', h'.trans (by rw [h])⟩
  exact hfold _ (fun d b => addSubsetOf_subsets _ _ _ _ d) _ _

omit [UnificationTable T] in
theorem commitRows_rowBuffer (c : InferCtx T) : c.commitRows.rowBuffer = [] := by
  obtain ⟨subsets, h⟩ := commitRows_subsets c
  rw [h]

section
variable {c d : InferCtx T} {n : Nat}

theorem unify_cases {expected actual : Ty} {r : Except TypeError Unit} (h : c.unify n expected actual = some (r, d)) :
    (∃ e, unifyInner n expected actual .co { c with rowBuffer := [] } = some (.ok (), e) ∧ r = .ok () ∧
      d = e.commitRows) ∨
    (∃ kind e error, unifyInner n expected actual .co { c with rowBuffer := [] } = some (.error kind, e) ∧
      r = .error error ∧ d = { e with rowBuffer := [], table := c.table }) := by
  unfold unify at h
  obtain ⟨⟨r₁, e⟩, hinner, h⟩ := Option.bind_eq_some_iff.mp h
  match r₁ with
  | .ok () =>
    cases h
    exact .inl ⟨e, hinner, rfl, rfl⟩
  | .error kind =>
    obtain ⟨_, -, h⟩ := Option.bind_eq_some_iff.mp h
    obtain ⟨_, -, h⟩ := Option.bind_eq_some_iff.mp h
    obtain ⟨_, -, h⟩ := Option.bind_eq_some_iff.mp h
    cases h
    exact .inr ⟨kind, e, _, hinner, rfl, rfl⟩

/-- The tags have arguments to compare. -/
def Comparable (a b : DefId × List Ty) : Prop := a.1 = b.1 ∧ a.2.length = b.2.length ∧ a.2 ≠ []

theorem sameTag_cases {a b : DefId × List Ty} {same : Bool} (h : c.sameTag n a b = some (same, d)) :
    (¬ Comparable a b ∧ d = c) ∨ (Comparable a b ∧
      ((∃ e, unifyArgs n a b { c with rowBuffer := [] } = some (.ok (), e) ∧ same = true ∧ d = e.commitRows) ∨
        ∃ kind e, unifyArgs n a b { c with rowBuffer := [] } = some (.error kind, e) ∧ same = false ∧
          d = { e with rowBuffer := [], table := c.table })) := by
  unfold sameTag at h
  split at h
  · next hne =>
    cases h
    exact .inl ⟨fun hcmp => hne.elim (fun h => h hcmp.1) fun h => h hcmp.2.1, rfl⟩
  · next heq =>
    split at h
    · next hempty =>
      cases h
      exact .inl ⟨fun hcmp => hcmp.2.2 (List.isEmpty_iff.mp hempty), rfl⟩
    · next hempty =>
      have hcmp : Comparable a b := by
        refine ⟨?_, ?_, ?_⟩
        · exact Decidable.not_not.mp fun h => heq (.inl h)
        · exact Decidable.not_not.mp fun h => heq (.inr h)
        · exact fun h => hempty (List.isEmpty_iff.mpr h)
      obtain ⟨⟨r, e⟩, hinner, h⟩ := Option.bind_eq_some_iff.mp h
      match r with
      | .ok () =>
        cases h
        exact .inr ⟨hcmp, .inl ⟨e, hinner, rfl, rfl⟩⟩
      | .error kind =>
        cases h
        exact .inr ⟨hcmp, .inr ⟨kind, e, hinner, rfl, rfl⟩⟩

/-- Between operations no constraint is under way. -/
theorem step_rowBuffer {op : Op} {answer : Answer} (h : c.step op = some (answer, d)) (hc : c.rowBuffer = []) :
    d.rowBuffer = [] := by
  cases op with
  | resolve n ty =>
    obtain ⟨_, -, h⟩ := Option.map_eq_some_iff.mp h
    cases h
    exact hc
  | resolveForReport n ty =>
    obtain ⟨_, -, h⟩ := Option.map_eq_some_iff.mp h
    cases h
    exact hc
  | addSubset kind sub sup origin =>
    cases h
    obtain ⟨subsets, h⟩ := addSubsetOf_subsets kind sub sup origin c
    rw [h, hc]
  | unify n expected actual =>
    obtain ⟨⟨r, e⟩, hunify, h⟩ := Option.map_eq_some_iff.mp h
    cases h
    rcases unify_cases hunify with ⟨e, -, -, rfl⟩ | ⟨_, e, _, -, -, rfl⟩
    · exact commitRows_rowBuffer e
    · rfl
  | sameTag n a b =>
    obtain ⟨⟨same, e⟩, hsame, h⟩ := Option.map_eq_some_iff.mp h
    cases h
    rcases sameTag_cases hsame with ⟨-, rfl⟩ | ⟨-, ⟨e, -, -, rfl⟩ | ⟨_, e, -, -, rfl⟩⟩
    · exact hc
    · exact commitRows_rowBuffer e
    · rfl
  | _ =>
    cases h
    exact hc

end

theorem InferCtx.Reached.rowBuffer {c : InferCtx T} (h : c.Reached) : c.rowBuffer = [] := by
  induction h with
  | new => rfl
  | step _ _ hstep ih => exact step_rowBuffer hstep ih

end Emela.Infer
