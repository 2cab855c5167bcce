import Emela.Lir.Rc
import Emela.Lir.Verify

/-!
# Facts about liveness

What is live at the start of a sequence depends on what is live where control leaves it only by
adding to it, so the second round at a loop head finds nothing new. On a function that saves exactly
what is needed at its suspension edges, the liveness of the counted variables is that of all
variables, cut down to the counted ones.
-/

namespace Emela.Lir

variable {m : Module} {f : Function} {U U' : Uses}

/-! ## Monotonicity -/

theorem mem_eraseDst {live : Finset VarId} {dst : Option VarId} {v : VarId} :
    v ∈ eraseDst live dst ↔ v ∈ live ∧ v ∉ dst := by
  simp [eraseDst, Option.mem_def]

/-- Every use of a variable with `p` under `U` is a use under `U'`. -/
structure Uses.Le (f : Function) (p : VarId → Prop) (U U' : Uses) : Prop where
  value : ∀ x, ∀ v ∈ U.value x, p v → v ∈ U'.value x
  operands : ∀ os, ∀ v ∈ U.operands os, p v → v ∈ U'.operands os
  cond : ∀ o : Operand, (∀ v ∈ o.var?, Lir.counted f v = false) → ∀ v ∈ U.cond o, p v → v ∈ U'.cond o
  on : ∀ x, ∀ v ∈ U.on x, p v → v ∈ U'.on x
  saved : ∀ e, ∀ v ∈ U.saved e, p v → v ∈ U'.saved e

theorem Uses.Le.refl (f : Function) (p : VarId → Prop) (U : Uses) : U.Le f p U where
  value _ _ hv _ := hv
  operands _ _ hv _ := hv
  cond _ _ _ hv _ := hv
  on _ _ hv _ := hv
  saved _ _ hv _ := hv

/-- What is live in `lc` with `p` is live in `lc'`, but for `D`. -/
structure LiveCtx.Le (p : VarId → Prop) (D : Finset VarId) (lc lc' : LiveCtx) : Prop where
  yieldLive : ∀ v ∈ lc.yieldLive, p v → v ∈ lc'.yieldLive ∨ v ∈ D
  head : ∀ v ∈ lc.head.getD ∅, p v → v ∈ lc'.head.getD ∅ ∨ v ∈ D
  afterLabel : ∀ l, ∀ v ∈ lc.afterLabel l, p v → v ∈ lc'.afterLabel l ∨ v ∈ D

section
variable {p : VarId → Prop} {D : Finset VarId} {lc lc' : LiveCtx}

theorem LiveCtx.Le.refl (p : VarId → Prop) (D : Finset VarId) (lc : LiveCtx) : lc.Le p D lc where
  yieldLive _ hv _ := .inl hv
  head _ hv _ := .inl hv
  afterLabel _ _ hv _ := .inl hv

theorem LiveCtx.Le.yields (h : lc.Le p D lc') {a a' : Finset VarId}
    (ha : ∀ v ∈ a, p v → v ∈ a' ∨ v ∈ D) :
    LiveCtx.Le p D { lc with yieldLive := a } { lc' with yieldLive := a' } :=
  ⟨ha, h.head, h.afterLabel⟩

theorem LiveCtx.Le.loops (h : lc.Le p D lc') (x x' : Finset VarId)
    (hx : ∀ v ∈ x, p v → v ∈ x' ∨ v ∈ D) :
    LiveCtx.Le p D { lc with head := some x } { lc' with head := some x' } :=
  ⟨h.yieldLive, hx, h.afterLabel⟩

theorem LiveCtx.Le.labels (h : lc.Le p D lc') (label : LabelId) {a a' : Finset VarId}
    (ha : ∀ v ∈ a, p v → v ∈ a' ∨ v ∈ D) :
    LiveCtx.Le p D { lc with yieldLive := a, afterLabel := Function.update lc.afterLabel label a }
      { lc' with yieldLive := a', afterLabel := Function.update lc'.afterLabel label a' } := by
  refine ⟨ha, h.head, fun l v hv hp => ?_⟩
  by_cases hl : l = label
  · subst hl
    simp only [Function.update_self] at hv ⊢
    exact ha v hv hp
  · simp only [Function.update_of_ne hl] at hv ⊢
    exact h.afterLabel l v hv hp

theorem eraseDst_le {a a' : Finset VarId} (ha : ∀ v ∈ a, p v → v ∈ a' ∨ v ∈ D) (dst : Option VarId) :
    ∀ v ∈ eraseDst a dst, p v → v ∈ eraseDst a' dst ∨ v ∈ D := by
  intro v hv hp
  rw [mem_eraseDst] at hv ⊢
  rcases ha v hv.1 hp with h | h
  · exact .inl ⟨h, hv.2⟩
  · exact .inr h

theorem liveTerm_le (hU : U.Le f p U') (h : lc.Le p D lc') (term : Term) :
    ∀ v ∈ liveTerm U lc term, p v → v ∈ liveTerm U' lc' term ∨ v ∈ D := by
  intro v hv hp
  simp only [liveTerm, Finset.mem_union, List.mem_toFinset] at hv ⊢
  rcases hv with hv | hv
  · cases term with
    | yield => rcases h.yieldLive v hv hp with h | h <;> simp [h]
    | «break» label => rcases h.afterLabel label v hv hp with h | h <;> simp [h]
    | recur => rcases h.head v hv hp with h | h <;> simp [h]
    | «return» | fail | unwind | unreachable => simp at hv
  · exact .inl (.inr (hU.operands _ v hv hp))

end

/-- The rounds at a loop head end in the second one. -/
theorem loopHead_two {F : Finset VarId → Finset VarId} (mono : ∀ h, F ∅ ⊆ F h)
    (adds : ∀ h, F h ⊆ F ∅ ∪ h) : loopHead F 2 ∅ = F ∅ := by
  have fixed : F (F ∅) = F ∅ := by
    apply subset_antisymm _ (mono _)
    simpa using adds (F ∅)
  simp only [loopHead, fixed]
  split <;> simp_all

theorem loopHead_body (lc : LiveCtx) {vars : List VarId} {body : Seq}
    (ih : ∀ D x x' : Finset VarId, (∀ v ∈ x, v ∈ x' ∨ v ∈ D) →
      ∀ v ∈ liveSeq U { lc with head := some x } body,
        v ∈ liveSeq U { lc with head := some x' } body ∨ v ∈ D) :
    loopHead (fun h => liveSeq U { lc with head := some h } body \ vars.toFinset) 2 ∅ =
      liveSeq U { lc with head := some ∅ } body \ vars.toFinset := by
  apply loopHead_two
  · intro h v hv
    rw [Finset.mem_sdiff] at hv ⊢
    have := ih ∅ ∅ h (by simp) v hv.1
    simp_all
  · intro h v hv
    rw [Finset.mem_sdiff] at hv
    have := ih h h ∅ (by simp) v hv.1
    simp_all

mutual

/-- What is live at the start of a sequence grows only by what is live where control leaves it. -/
theorem liveSeq_le {U U' : Uses} {p : VarId → Prop} {D : Finset VarId} {lc lc' : LiveCtx} {Γ : Scope}
    (hU : U.Le f p U') (h : lc.Le p D lc') :
    (s : Seq) → ScopedSeq f Γ s → ∀ v ∈ liveSeq U lc s, p v → v ∈ liveSeq U' lc' s ∨ v ∈ D
  | .mk stmts term, hs => by
      simp only [liveSeq]
      exact liveStmts_le hU h stmts hs (liveTerm_le hU h term)

theorem liveStmts_le {U U' : Uses} {p : VarId → Prop} {D : Finset VarId} {lc lc' : LiveCtx} {Γ : Scope}
    {term : Term} (hU : U.Le f p U') (h : lc.Le p D lc') {a a' : Finset VarId} :
    (stmts : List Stmt) → ScopedStmts f Γ term stmts → (∀ v ∈ a, p v → v ∈ a' ∨ v ∈ D) →
      ∀ v ∈ liveStmts U lc stmts a, p v → v ∈ liveStmts U' lc' stmts a' ∨ v ∈ D
  | [], _, ha => by simpa only [liveStmts] using ha
  | s :: stmts, hs, ha => by
      simp only [ScopedStmts] at hs
      simp only [liveStmts]
      exact liveStmt_le hU h s hs.1 (liveStmts_le hU h stmts hs.2.2 ha)

theorem liveStmt_le {U U' : Uses} {p : VarId → Prop} {D : Finset VarId} {lc lc' : LiveCtx} {Γ : Scope}
    (hU : U.Le f p U') (h : lc.Le p D lc') {a a' : Finset VarId} :
    (s : Stmt) → ScopedStmt f Γ s → (∀ v ∈ a, p v → v ∈ a' ∨ v ∈ D) →
      ∀ v ∈ liveStmt U lc s a, p v → v ∈ liveStmt U' lc' s a' ∨ v ∈ D
  | .let dst value onFail onDefect onSuspend, hs, ha => by
      simp only [ScopedStmt] at hs
      intro v hv hp
      simp only [liveStmt, Finset.mem_union, List.mem_toFinset] at hv ⊢
      rcases hv with (((hv | hv) | hv) | hv) | hv
      · rcases eraseDst_le ha dst v hv hp with h | h <;> simp [h]
      · rcases liveFail_le hU h onFail hs.2.1 v hv hp with h | h <;> simp [h]
      · rcases liveOption_le hU h onDefect hs.2.2.1 v hv hp with h | h <;> simp [h]
      · simp [hU.value _ v hv hp]
      · simp [hU.saved _ v hv hp]
  | .dup _, hs, _ | .drop _, hs, _ => by simp only [ScopedStmt] at hs
  | .if dst cond then_ else_, hs, ha => by
      simp only [ScopedStmt] at hs
      intro v hv hp
      simp only [liveStmt, Finset.mem_union, List.mem_toFinset] at hv ⊢
      have inner := h.yields (eraseDst_le ha dst)
      rcases hv with (hv | hv) | hv
      · rcases liveSeq_le hU inner then_ hs.2.2.1 v hv hp with h | h <;> simp [h]
      · rcases liveSeq_le hU inner else_ hs.2.2.2 v hv hp with h | h <;> simp [h]
      · simp [hU.cond _ hs.2.1 v hv hp]
  | .switch dst on cases default, hs, ha => by
      simp only [ScopedStmt] at hs
      intro v hv hp
      simp only [liveStmt, Finset.mem_union, List.mem_toFinset] at hv ⊢
      have inner := h.yields (eraseDst_le ha dst)
      rcases hv with (hv | hv) | hv
      · rcases liveCases_le hU inner cases hs.2.1 v hv hp with h | h <;> simp [h]
      · rcases liveOption_le hU inner default hs.2.2 v hv hp with h | h <;> simp [h]
      · simp [hU.on _ v hv hp]
  | .block dst label body, hs, ha => by
      simp only [ScopedStmt] at hs
      simp only [liveStmt]
      exact liveSeq_le hU (h.labels label (eraseDst_le ha dst)) body hs.2
  | .loop dst vars inits body, hs, ha => by
      simp only [ScopedStmt] at hs
      intro v hv hp
      simp only [liveStmt, Finset.mem_union, List.mem_toFinset] at hv ⊢
      rcases hv with hv | hv
      · rw [loopHead_body { lc' with yieldLive := eraseDst a' dst } fun D x x' hx v hv =>
          liveSeq_le (Uses.Le.refl f _ U') ((LiveCtx.Le.refl (fun _ => True) D _).loops x x' fun v hv _ => hx v hv)
            body hs.2.2 v hv trivial]
        rw [loopHead_body { lc with yieldLive := eraseDst a dst } fun D x x' hx v hv =>
          liveSeq_le (Uses.Le.refl f _ U) ((LiveCtx.Le.refl (fun _ => True) D _).loops x x' fun v hv _ => hx v hv)
            body hs.2.2 v hv trivial] at hv
        rw [Finset.mem_sdiff] at hv ⊢
        have inner := (h.yields (eraseDst_le ha dst)).loops ∅ ∅ (by simp)
        rcases liveSeq_le hU inner body hs.2.2 v hv.1 hp with h | h
        · exact .inl (.inl ⟨h, hv.2⟩)
        · exact .inr h
      · simp [hU.operands _ v hv hp]

theorem liveFail_le {U U' : Uses} {p : VarId → Prop} {D : Finset VarId} {lc lc' : LiveCtx} {Γ : Scope}
    (hU : U.Le f p U') (h : lc.Le p D lc') :
    (o : Option (VarId × Seq)) → ScopedFail f Γ o →
      ∀ v ∈ liveFail U lc o, p v → v ∈ liveFail U' lc' o ∨ v ∈ D
  | none, _ => by simp [liveFail]
  | some (e, body), hs => by
      simp only [ScopedFail] at hs
      intro v hv hp
      simp only [liveFail, Finset.mem_sdiff] at hv ⊢
      rcases liveSeq_le hU h body hs.2.2 v hv.1 hp with h | h
      · exact .inl ⟨h, hv.2⟩
      · exact .inr h

theorem liveOption_le {U U' : Uses} {p : VarId → Prop} {D : Finset VarId} {lc lc' : LiveCtx} {Γ : Scope}
    (hU : U.Le f p U') (h : lc.Le p D lc') :
    (o : Option Seq) → ScopedOption f Γ o →
      ∀ v ∈ liveOption U lc o, p v → v ∈ liveOption U' lc' o ∨ v ∈ D
  | none, _ => by simp [liveOption]
  | some body, hs => by
      simp only [ScopedOption] at hs
      simp only [liveOption]
      exact liveSeq_le hU h body hs

theorem liveCases_le {U U' : Uses} {p : VarId → Prop} {D : Finset VarId} {lc lc' : LiveCtx} {Γ : Scope}
    (hU : U.Le f p U') (h : lc.Le p D lc') :
    (cases : List (CaseKey × Seq)) → ScopedCases f Γ cases →
      ∀ v ∈ liveCases U lc cases, p v → v ∈ liveCases U' lc' cases ∨ v ∈ D
  | [], _ => by simp [liveCases]
  | (_, body) :: cases, hs => by
      simp only [ScopedCases] at hs
      intro v hv hp
      simp only [liveCases, Finset.mem_union] at hv ⊢
      rcases hv with hv | hv
      · rcases liveSeq_le hU h body hs.1 v hv hp with h | h <;> simp [h]
      · rcases liveCases_le hU h cases hs.2 v hv hp with h | h <;> simp [h]

end

/-- What is live at a loop head is what is live there when nothing is live at its end. -/
theorem liveHead_eq {lc : LiveCtx} {Γ : Scope} {after : Finset VarId} {vars : List VarId} {body : Seq}
    (hs : ScopedSeq f Γ body) :
    liveHead U lc after vars body =
      liveSeq U { lc with yieldLive := after, head := some ∅ } body \ vars.toFinset := by
  apply loopHead_body { lc with yieldLive := after }
  intro D x x' hx v hv
  exact liveSeq_le (Uses.Le.refl f _ U)
    ((LiveCtx.Le.refl (fun _ => True) D _).loops x x' fun v hv _ => hx v hv) body hs v hv trivial

theorem liveHead_mono {lc : LiveCtx} {Γ : Scope} {after h : Finset VarId} {vars : List VarId} {body : Seq}
    (hs : ScopedSeq f Γ body) :
    liveHead U lc after vars body ⊆
      liveSeq U { lc with yieldLive := after, head := some h } body \ vars.toFinset := by
  rw [liveHead_eq hs]
  apply Finset.sdiff_subset_sdiff _ subset_rfl
  intro v hv
  have := liveSeq_le (Uses.Le.refl f _ U)
    ((LiveCtx.Le.refl (fun _ => True) ∅ { lc with yieldLive := after }).loops ∅ h (by simp)) body hs v hv trivial
  simpa using this

theorem liveHead_fixed {lc : LiveCtx} {Γ : Scope} {after : Finset VarId} {vars : List VarId} {body : Seq}
    (hs : ScopedSeq f Γ body) :
    liveSeq U { lc with yieldLive := after, head := some (liveHead U lc after vars body) } body \
      vars.toFinset = liveHead U lc after vars body := by
  apply subset_antisymm _ (liveHead_mono hs)
  intro v hv
  rw [Finset.mem_sdiff] at hv
  have := liveSeq_le (Uses.Le.refl f _ U)
    ((LiveCtx.Le.refl (fun _ => True) (liveHead U lc after vars body)
      { lc with yieldLive := after }).loops _ ∅ (by simp)) body hs v hv.1 trivial
  rcases this with h | h
  · rw [liveHead_eq hs]
    exact Finset.mem_sdiff.mpr ⟨h, hv.2⟩
  · exact h

/-! ## Bounds -/

/-- The counted variables in scope. -/
def Scope.refs (f : Function) (Γ : Scope) : Finset VarId := Γ.vars.filter fun v => counted f v

theorem Scope.mem_refs {Γ : Scope} {v : VarId} : v ∈ Γ.refs f ↔ v ∈ Γ.vars ∧ counted f v = true := by
  simp [Scope.refs]

theorem Scope.refs_define {Γ : Scope} {dst : Option VarId} :
    (Γ.define dst).refs f = Γ.refs f ∪ (countedDst f dst).toFinset := by
  ext v
  cases dst with
  | none => simp [Scope.refs, Scope.define, countedDst]
  | some d => by_cases hd : counted f d <;> simp [Scope.mem_refs, Scope.define, countedDst, Option.filter, hd] <;> grind

theorem mem_value_counted {value : Value} {v : VarId} :
    v ∈ (valueUses m f value).map Prod.fst ↔ v ∈ value.vars ∧ counted f v = true := by
  cases value with
  | call callee args =>
      cases callee <;> simp [valueUses, Value.vars, operandVars] <;> grind
  | builtin op args =>
      by_cases h : op = .arraySet
      · subst h
        have split : ∀ v, v ∈ args.filterMap Operand.var? ↔
            v ∈ (args.take 1).filterMap Operand.var? ∨ v ∈ (args.drop 1).filterMap Operand.var? := by
          intro v
          rw [← List.mem_append, ← List.filterMap_append, List.take_append_drop]
        simp only [valueUses, Value.vars, operandVars, split]
        simp
        grind
      · simp [valueUses, Value.vars, operandVars]
  | runtime op args => cases op <;> simp [valueUses, Value.vars, operandVars]
  | _ => simp [valueUses, Value.vars, operandVars] <;> grind

theorem mem_operandVars {os : List Operand} {v : VarId} :
    v ∈ operandVars f os ↔ v ∈ os.filterMap Operand.var? ∧ counted f v = true := by
  simp [operandVars]

/-- What is live where control leaves is among `V`. -/
structure LiveCtx.Within (V : Finset VarId) (lc : LiveCtx) : Prop where
  yieldLive : lc.yieldLive ⊆ V
  head : lc.head.getD ∅ ⊆ V
  afterLabel : ∀ l, lc.afterLabel l ⊆ V

section
variable {V W : Finset VarId} {lc : LiveCtx}

theorem LiveCtx.Within.mono (h : lc.Within V) (hV : V ⊆ W) : lc.Within W :=
  ⟨h.yieldLive.trans hV, h.head.trans hV, fun l => (h.afterLabel l).trans hV⟩

theorem LiveCtx.Within.yields (h : lc.Within V) {a : Finset VarId} (ha : a ⊆ V) :
    LiveCtx.Within V { lc with yieldLive := a } :=
  ⟨ha, h.head, h.afterLabel⟩

theorem LiveCtx.Within.loops (h : lc.Within V) {x : Finset VarId} (hx : x ⊆ V) :
    LiveCtx.Within V { lc with head := some x } :=
  ⟨h.yieldLive, hx, h.afterLabel⟩

theorem LiveCtx.Within.labels (h : lc.Within V) (label : LabelId) {a : Finset VarId} (ha : a ⊆ V) :
    LiveCtx.Within V { lc with yieldLive := a, afterLabel := Function.update lc.afterLabel label a } := by
  refine ⟨ha, h.head, fun l => ?_⟩
  by_cases hl : l = label
  · subst hl
    simpa using ha
  · simpa [Function.update_of_ne hl] using h.afterLabel l

end

theorem Scope.refs_loop {Γ : Scope} {vars : List VarId} :
    (Γ.loop vars).refs f = Γ.refs f ∪ (vars.filter (counted f)).toFinset := by
  ext v
  simp only [Scope.mem_refs, Scope.loop, Finset.mem_union, List.mem_toFinset, List.mem_filter]
  tauto

theorem liveTerm_within {lc : LiveCtx} {Γ : Scope} (h : lc.Within (Γ.refs f)) {term : Term}
    (hs : ScopedTerm Γ term) : liveTerm (.counted m f) lc term ⊆ Γ.refs f := by
  apply Finset.union_subset
  · cases term with
    | yield => exact h.yieldLive
    | «break» label => exact h.afterLabel label
    | recur => exact h.head
    | «return» | fail | unwind | unreachable => exact Finset.empty_subset _
  · intro v hv
    have hv := mem_operandVars.mp (List.mem_toFinset.mp hv)
    exact Scope.mem_refs.mpr ⟨hs.1 v hv.1, hv.2⟩

theorem eraseDst_subset_of_define {Γ : Scope} {live : Finset VarId} {dst : Option VarId}
    (h : live ⊆ (Γ.define dst).refs f) : eraseDst live dst ⊆ Γ.refs f := by
  intro v hv
  rw [mem_eraseDst] at hv
  have := Scope.mem_refs.mp (h hv.1)
  simp only [Scope.define, Finset.mem_union, Option.mem_toFinset] at this
  exact Scope.mem_refs.mpr ⟨this.1.resolve_right hv.2, this.2⟩

mutual

/-- The live counted variables at the start of a sequence are in scope. -/
theorem liveSeq_within {lc : LiveCtx} {Γ : Scope} (h : lc.Within (Γ.refs f)) :
    (s : Seq) → ScopedSeq f Γ s → liveSeq (.counted m f) lc s ⊆ Γ.refs f
  | .mk stmts term, hs => by
      simp only [ScopedSeq] at hs
      simp only [liveSeq]
      exact liveStmts_within h stmts hs

theorem liveStmts_within {lc : LiveCtx} {Γ : Scope} {term : Term} (h : lc.Within (Γ.refs f)) :
    (stmts : List Stmt) → ScopedStmts f Γ term stmts →
      liveStmts (.counted m f) lc stmts (liveTerm (.counted m f) lc term) ⊆ Γ.refs f
  | [], hs => by
      simp only [ScopedStmts] at hs
      simp only [liveStmts]
      exact liveTerm_within h hs
  | s :: stmts, hs => by
      simp only [ScopedStmts] at hs
      simp only [liveStmts]
      have wider : lc.Within ((Γ.define s.dst).refs f) := h.mono (by simp [Scope.refs_define])
      exact liveStmt_within h s hs.1 (liveStmts_within wider stmts hs.2.2)

theorem liveStmt_within {lc : LiveCtx} {Γ : Scope} (h : lc.Within (Γ.refs f)) {after : Finset VarId} :
    (s : Stmt) → ScopedStmt f Γ s → after ⊆ (Γ.define s.dst).refs f →
      liveStmt (.counted m f) lc s after ⊆ Γ.refs f
  | .let dst value onFail onDefect onSuspend, hs, ha => by
      simp only [ScopedStmt] at hs
      simp only [liveStmt]
      have value_refs : ((Uses.counted m f).value value).toFinset ⊆ Γ.refs f := by
        intro v hv
        have hv := mem_value_counted.mp (List.mem_toFinset.mp hv)
        exact Scope.mem_refs.mpr ⟨hs.1 v hv.1, hv.2⟩
      have saved_refs : ((Uses.counted m f).saved onSuspend).toFinset ⊆ Γ.refs f := by
        cases onSuspend with
        | none => simp [Uses.counted, suspendSaved]
        | some edge =>
            intro v hv
            simp only [Uses.counted, suspendSaved, Option.map_some, Option.getD_some, List.mem_toFinset,
              List.mem_filter] at hv
            exact Scope.mem_refs.mpr ⟨hs.2.2.2 edge rfl v hv.1, hv.2⟩
      exact Finset.union_subset (Finset.union_subset (Finset.union_subset (Finset.union_subset
        (eraseDst_subset_of_define ha) (liveFail_within h onFail hs.2.1))
        (liveOption_within (Γ := Γ.landing) h onDefect hs.2.2.1)) value_refs) saved_refs
  | .dup _, hs, _ | .drop _, hs, _ => by simp only [ScopedStmt] at hs
  | .if dst cond then_ else_, hs, ha => by
      simp only [ScopedStmt] at hs
      simp only [liveStmt, Uses.counted, List.toFinset_nil, Finset.union_empty]
      have inner := h.yields (eraseDst_subset_of_define ha)
      exact Finset.union_subset (liveSeq_within (Γ := Γ.arm) inner then_ hs.2.2.1)
        (liveSeq_within (Γ := Γ.arm) inner else_ hs.2.2.2)
  | .switch dst on cases default, hs, ha => by
      simp only [ScopedStmt] at hs
      simp only [liveStmt]
      have inner := h.yields (eraseDst_subset_of_define ha)
      refine Finset.union_subset (Finset.union_subset (liveCases_within (Γ := Γ.arm) inner cases hs.2.1)
        (liveOption_within (Γ := Γ.arm) inner default hs.2.2)) ?_
      intro v hv
      simp only [Uses.counted, List.mem_toFinset, List.mem_filter] at hv
      exact Scope.mem_refs.mpr ⟨hs.1 v hv.1, hv.2⟩
  | .block dst label body, hs, ha => by
      simp only [ScopedStmt] at hs
      simp only [liveStmt]
      exact liveSeq_within (Γ := Γ.block label) (h.labels label (eraseDst_subset_of_define ha)) body hs.2
  | .loop dst vars inits body, hs, ha => by
      simp only [ScopedStmt] at hs
      simp only [liveStmt]
      apply Finset.union_subset
      · rw [show loopHead _ 2 ∅ = liveHead (.counted m f) lc (eraseDst after dst) vars body from rfl,
          liveHead_eq hs.2.2]
        have wider : LiveCtx.Within ((Γ.loop vars).refs f)
            { lc with yieldLive := eraseDst after dst, head := some ∅ } :=
          ((h.yields (eraseDst_subset_of_define ha)).loops (Finset.empty_subset _)).mono
            (by simp [Scope.refs_loop])
        intro v hv
        rw [Finset.mem_sdiff] at hv
        have := Scope.mem_refs.mp (liveSeq_within wider body hs.2.2 hv.1)
        simp only [Scope.loop, Finset.mem_union] at this
        exact Scope.mem_refs.mpr ⟨this.1.resolve_right hv.2, this.2⟩
      · intro v hv
        have hv := mem_operandVars.mp (List.mem_toFinset.mp hv)
        exact Scope.mem_refs.mpr ⟨hs.1 v hv.1, hv.2⟩

theorem liveFail_within {lc : LiveCtx} {Γ : Scope} (h : lc.Within (Γ.refs f)) :
    (o : Option (VarId × Seq)) → ScopedFail f Γ o → liveFail (.counted m f) lc o ⊆ Γ.refs f
  | none, _ => by simp [liveFail]
  | some (e, body), hs => by
      simp only [ScopedFail] at hs
      have wider : lc.Within ((Γ.landing.define (some e)).refs f) := h.mono (by
        rw [Scope.refs_define]
        exact Finset.subset_union_left)
      intro v hv
      simp only [liveFail, Finset.mem_sdiff, Finset.mem_singleton] at hv
      have := Scope.mem_refs.mp (liveSeq_within wider body hs.2.2 hv.1)
      simp only [Scope.define, Scope.landing, Finset.mem_union, Option.mem_toFinset, Option.mem_def,
        Option.some.injEq] at this
      exact Scope.mem_refs.mpr ⟨this.1.resolve_right (Ne.symm hv.2), this.2⟩

theorem liveOption_within {lc : LiveCtx} {Γ : Scope} (h : lc.Within (Γ.refs f)) :
    (o : Option Seq) → ScopedOption f Γ o → liveOption (.counted m f) lc o ⊆ Γ.refs f
  | none, _ => by simp [liveOption]
  | some body, hs => by
      simp only [ScopedOption] at hs
      simp only [liveOption]
      exact liveSeq_within h body hs

theorem liveCases_within {lc : LiveCtx} {Γ : Scope} (h : lc.Within (Γ.refs f)) :
    (cases : List (CaseKey × Seq)) → ScopedCases f Γ cases →
      liveCases (.counted m f) lc cases ⊆ Γ.refs f
  | [], _ => by simp [liveCases]
  | (_, body) :: cases, hs => by
      simp only [ScopedCases] at hs
      simp only [liveCases]
      exact Finset.union_subset (liveSeq_within h body hs.1) (liveCases_within h cases hs.2)

end

/-! ## The counted variables among all -/

/-- The counted variables of a set. -/
def refs (f : Function) (live : Finset VarId) : Finset VarId := live.filter fun v => counted f v

theorem mem_refs {live : Finset VarId} {v : VarId} : v ∈ refs f live ↔ v ∈ live ∧ counted f v = true := by
  simp [refs]

theorem refs_union {a b : Finset VarId} : refs f (a ∪ b) = refs f a ∪ refs f b := Finset.filter_union ..

theorem refs_eraseDst {live : Finset VarId} {dst : Option VarId} :
    refs f (eraseDst live dst) = eraseDst (refs f live) dst := by
  ext v
  simp only [mem_refs, mem_eraseDst]
  tauto

theorem refs_sdiff {a b : Finset VarId} : refs f (a \ b) = refs f a \ b := by
  ext v
  simp only [mem_refs, Finset.mem_sdiff]
  tauto

def LiveCtx.refs (f : Function) (lc : LiveCtx) : LiveCtx where
  yieldLive := Lir.refs f lc.yieldLive
  head := lc.head.map (Lir.refs f)
  afterLabel l := Lir.refs f (lc.afterLabel l)

/-- The edge saves, of the counted variables, exactly those needed after its value, each once. -/
def SavesCounted (m : Module) (f : Function) (liveOn : Finset VarId) (value : Value) (edge : Suspend) : Prop :=
  (suspendSaved f (some edge)).Nodup ∧ (suspendSaved f (some edge)).toFinset = savedVars m f liveOn value

theorem borrowed_counted {value : Value} {v : VarId} (hv : v ∈ borrowed m f value) : counted f v = true := by
  simp only [borrowed, List.mem_map, List.mem_filter] at hv
  obtain ⟨use, ⟨hu, -⟩, rfl⟩ := hv
  exact (mem_value_counted.mp (List.mem_map_of_mem hu)).2

theorem SavesExactly.counted {liveOn : Finset VarId} {value : Value} {edge : Suspend}
    (h : SavesExactly m f liveOn value edge) : SavesCounted m f (refs f liveOn) value edge := by
  refine ⟨h.1.filter _, ?_⟩
  ext v
  have saved : v ∈ edge.saved ↔ v ∈ liveOn ∨ v ∈ borrowed m f value := by
    rw [← List.mem_toFinset, h.2]
    simp [savedVars]
  simp only [suspendSaved, savedVars, Option.map_some, Option.getD_some, List.mem_toFinset, List.mem_filter,
    Finset.mem_union, mem_refs, saved]
  have counted_of : v ∈ borrowed m f value → Lir.counted f v = true := borrowed_counted
  tauto

theorem uses_all_le : Uses.all.Le f (fun v => counted f v = true) (.counted m f) where
  value _ _ hv hp := mem_value_counted.mpr ⟨hv, hp⟩
  operands _ _ hv hp := mem_operandVars.mpr ⟨hv, hp⟩
  cond o ho v hv hp := by
    have := ho v (by simpa [Uses.all] using hv)
    simp_all
  on x v hv hp := by simpa [Uses.counted, Uses.all] using ⟨by simpa [Uses.all] using hv, by simp_all [Uses.all]⟩
  saved _ _ hv _ := by simp [Uses.all] at hv

theorem refs_liveTerm {lc : LiveCtx} {term : Term} :
    liveTerm (.counted m f) (lc.refs f) term = refs f (liveTerm .all lc term) := by
  have operands : ((Uses.counted m f).operands (termOperands term)).toFinset =
      refs f (Uses.all.operands (termOperands term)).toFinset := by
    ext v
    simp [mem_refs, Uses.counted, Uses.all, mem_operandVars]
  simp only [liveTerm, refs_union, operands]
  cases term with
  | recur => cases h : lc.head <;> simp [LiveCtx.refs, refs, h]
  | _ => simp [LiveCtx.refs, refs]

theorem LiveCtx.refs_yields {lc : LiveCtx} {after : Finset VarId} {dst : Option VarId} :
    LiveCtx.refs f { lc with yieldLive := eraseDst after dst } =
      { lc.refs f with yieldLive := eraseDst (Lir.refs f after) dst } := by
  simp [LiveCtx.refs, refs_eraseDst]

theorem LiveCtx.refs_labels {lc : LiveCtx} {label : LabelId} {after : Finset VarId} {dst : Option VarId} :
    LiveCtx.refs f { lc with
        yieldLive := eraseDst after dst
        afterLabel := Function.update lc.afterLabel label (eraseDst after dst) } =
      { lc.refs f with
        yieldLive := eraseDst (Lir.refs f after) dst
        afterLabel := Function.update (lc.refs f).afterLabel label (eraseDst (Lir.refs f after) dst) } := by
  simp only [LiveCtx.refs, refs_eraseDst, LiveCtx.mk.injEq, true_and]
  funext l
  by_cases hl : l = label
  · simp [hl, refs_eraseDst]
  · simp [Function.update_of_ne hl]

/-- At a loop head too the counted variables live are those of all, if that is so in the body from
there. -/
theorem refs_liveHead {lc : LiveCtx} {Γ : Scope} {after : Finset VarId} {dst : Option VarId}
    {vars : List VarId} {body : Seq} (hs : ScopedSeq f Γ body)
    (ih : liveSeq (.counted m f) (LiveCtx.refs f { lc with
        yieldLive := eraseDst after dst
        head := some (liveHead .all lc (eraseDst after dst) vars body) }) body =
      refs f (liveSeq .all { lc with
        yieldLive := eraseDst after dst
        head := some (liveHead .all lc (eraseDst after dst) vars body) } body)) :
    liveHead (.counted m f) (lc.refs f) (eraseDst (refs f after) dst) vars body =
      refs f (liveHead .all lc (eraseDst after dst) vars body) := by
  have fixed : liveSeq (.counted m f) (LiveCtx.refs f { lc with
      yieldLive := eraseDst after dst
      head := some (liveHead .all lc (eraseDst after dst) vars body) }) body \ vars.toFinset =
      refs f (liveHead .all lc (eraseDst after dst) vars body) := by
    rw [ih, ← refs_sdiff, liveHead_fixed hs]
  apply subset_antisymm
  · rw [← fixed, ← refs_eraseDst]
    exact liveHead_mono hs
  · intro v hv
    rw [mem_refs, liveHead_eq hs, Finset.mem_sdiff] at hv
    rw [liveHead_eq hs, Finset.mem_sdiff]
    have context : LiveCtx.Le (fun v => counted f v = true) ∅
        { lc with yieldLive := eraseDst after dst, head := some ∅ }
        { lc.refs f with yieldLive := eraseDst (refs f after) dst, head := some ∅ } := by
      refine ⟨fun v hv hp => .inl ?_, fun v hv _ => .inl hv, fun l v hv hp => .inl (mem_refs.mpr ⟨hv, hp⟩)⟩
      rw [← refs_eraseDst]
      exact mem_refs.mpr ⟨hv, hp⟩
    refine ⟨?_, hv.1.2⟩
    simpa using liveSeq_le uses_all_le context body hs v hv.1.1 hv.2

mutual

/-- On a sequence whose suspension edges save exactly what is needed, the two analyses agree on the
counted variables. -/
theorem refs_liveSeq {lc : LiveCtx} {Γ : Scope} :
    (s : Seq) → ScopedSeq f Γ s → EdgesSeq .all (SavesExactly m f) lc s →
      liveSeq (.counted m f) (lc.refs f) s = refs f (liveSeq .all lc s) ∧
        EdgesSeq (.counted m f) (SavesCounted m f) (lc.refs f) s
  | .mk stmts term, hs, he => by
      simp only [ScopedSeq] at hs
      simp only [EdgesSeq] at he
      simp only [liveSeq, EdgesSeq]
      exact refs_liveStmts stmts hs he

theorem refs_liveStmts {lc : LiveCtx} {Γ : Scope} {term : Term} :
    (stmts : List Stmt) → ScopedStmts f Γ term stmts → EdgesStmts .all (SavesExactly m f) lc term stmts →
      liveStmts (.counted m f) (lc.refs f) stmts (liveTerm (.counted m f) (lc.refs f) term) =
        refs f (liveStmts .all lc stmts (liveTerm .all lc term)) ∧
        EdgesStmts (.counted m f) (SavesCounted m f) (lc.refs f) term stmts
  | [], _, _ => by simp [liveStmts, EdgesStmts, refs_liveTerm]
  | s :: stmts, hs, he => by
      simp only [ScopedStmts] at hs
      simp only [EdgesStmts] at he
      have rest := refs_liveStmts stmts hs.2.2 he.2
      have first := refs_liveStmt s hs.1 he.1
      simp only [liveStmts, EdgesStmts, rest.1]
      exact ⟨first.1, first.2, rest.2⟩

theorem refs_liveStmt {lc : LiveCtx} {Γ : Scope} {after : Finset VarId} :
    (s : Stmt) → ScopedStmt f Γ s → EdgesStmt .all (SavesExactly m f) lc after s →
      liveStmt (.counted m f) (lc.refs f) s (refs f after) = refs f (liveStmt .all lc s after) ∧
        EdgesStmt (.counted m f) (SavesCounted m f) (lc.refs f) (refs f after) s
  | .let dst value onFail onDefect onSuspend, hs, he => by
      simp only [ScopedStmt] at hs
      simp only [EdgesStmt] at he
      have failing := refs_liveFail onFail hs.2.1 he.2.1
      have defect := refs_liveOption onDefect hs.2.2.1 he.2.2
      have value_refs : ((Uses.counted m f).value value).toFinset = refs f (Uses.all.value value).toFinset := by
        ext v
        simp only [List.mem_toFinset, mem_refs, Uses.counted, Uses.all, mem_value_counted]
      have edges : ∀ edge ∈ onSuspend, SavesCounted m f
          (eraseDst (refs f after) dst ∪ liveFail (.counted m f) (lc.refs f) onFail ∪
            liveOption (.counted m f) (lc.refs f) onDefect) value edge := by
        intro edge hedge
        have := (he.1 edge hedge).counted
        rwa [refs_union, refs_union, refs_eraseDst, ← failing.1, ← defect.1] at this
      -- what an edge saves is live on or used by the value
      have saved : ((Uses.counted m f).saved onSuspend).toFinset ⊆
          eraseDst (refs f after) dst ∪ liveFail (.counted m f) (lc.refs f) onFail ∪
            liveOption (.counted m f) (lc.refs f) onDefect ∪ ((Uses.counted m f).value value).toFinset := by
        cases onSuspend with
        | none => simp [Uses.counted, suspendSaved]
        | some edge =>
            rw [show (Uses.counted m f).saved (some edge) = suspendSaved f (some edge) from rfl, (edges edge rfl).2]
            apply Finset.union_subset_union_right
            intro v hv
            simp only [borrowed, List.mem_toFinset, List.mem_map, List.mem_filter] at hv
            obtain ⟨use, ⟨hu, -⟩, rfl⟩ := hv
            exact List.mem_toFinset.mpr (List.mem_map_of_mem hu)
      simp only [liveStmt, EdgesStmt]
      refine ⟨?_, edges, failing.2, defect.2⟩
      rw [Finset.union_eq_left.mpr saved, failing.1, defect.1, value_refs, ← refs_eraseDst]
      simp [refs_union, Uses.all]
  | .dup _, hs, _ | .drop _, hs, _ => by simp only [ScopedStmt] at hs
  | .if dst cond then_ else_, hs, he => by
      simp only [ScopedStmt] at hs
      simp only [EdgesStmt] at he
      have yes := refs_liveSeq then_ hs.2.2.1 he.1
      have no := refs_liveSeq else_ hs.2.2.2 he.2
      rw [LiveCtx.refs_yields] at yes no
      have conds : refs f (Uses.all.cond cond).toFinset = ∅ := by
        ext v
        simp only [mem_refs, Uses.all, List.mem_toFinset, Option.mem_toList, Finset.notMem_empty, iff_false,
          not_and, Bool.not_eq_true]
        exact hs.2.1 v
      simp only [liveStmt, EdgesStmt]
      refine ⟨?_, yes.2, no.2⟩
      rw [yes.1, no.1, refs_union, refs_union, conds]
      simp [Uses.counted]
  | .switch dst on cases default, hs, he => by
      simp only [ScopedStmt] at hs
      simp only [EdgesStmt] at he
      have arms := refs_liveCases cases hs.2.1 he.1
      have other := refs_liveOption default hs.2.2 he.2
      rw [LiveCtx.refs_yields] at arms other
      have on_refs : ((Uses.counted m f).on on.var).toFinset = refs f (Uses.all.on on.var).toFinset := by
        ext v
        simp only [List.mem_toFinset, mem_refs, Uses.counted, Uses.all, List.mem_filter]
      simp only [liveStmt, EdgesStmt]
      refine ⟨?_, arms.2, other.2⟩
      rw [arms.1, other.1, on_refs, refs_union, refs_union]
  | .block dst label body, hs, he => by
      simp only [ScopedStmt] at hs
      simp only [EdgesStmt] at he
      have inner := refs_liveSeq body hs.2 he
      rw [LiveCtx.refs_labels] at inner
      simp only [liveStmt, EdgesStmt]
      exact inner
  | .loop dst vars inits body, hs, he => by
      simp only [ScopedStmt] at hs
      simp only [EdgesStmt] at he
      have inner := refs_liveSeq body hs.2.2 he
      have head := refs_liveHead hs.2.2 inner.1
      have inits_refs : ((Uses.counted m f).operands inits).toFinset = refs f (Uses.all.operands inits).toFinset := by
        ext v
        simp [mem_refs, Uses.counted, Uses.all, mem_operandVars]
      simp only [liveStmt, EdgesStmt]
      constructor
      · rw [refs_union, ← inits_refs]
        exact congrArg (· ∪ _) head
      · rw [head, ← refs_eraseDst]
        exact inner.2

theorem refs_liveFail {lc : LiveCtx} {Γ : Scope} :
    (o : Option (VarId × Seq)) → ScopedFail f Γ o → EdgesFail .all (SavesExactly m f) lc o →
      liveFail (.counted m f) (lc.refs f) o = refs f (liveFail .all lc o) ∧
        EdgesFail (.counted m f) (SavesCounted m f) (lc.refs f) o
  | none, _, _ => by simp [liveFail, EdgesFail, refs]
  | some (e, body), hs, he => by
      simp only [ScopedFail] at hs
      simp only [EdgesFail] at he
      have inner := refs_liveSeq body hs.2.2 he
      simp only [liveFail, EdgesFail, inner.1, refs_sdiff]
      exact ⟨trivial, inner.2⟩

theorem refs_liveOption {lc : LiveCtx} {Γ : Scope} :
    (o : Option Seq) → ScopedOption f Γ o → EdgesOption .all (SavesExactly m f) lc o →
      liveOption (.counted m f) (lc.refs f) o = refs f (liveOption .all lc o) ∧
        EdgesOption (.counted m f) (SavesCounted m f) (lc.refs f) o
  | none, _, _ => by simp [liveOption, EdgesOption, refs]
  | some body, hs, he => by
      simp only [ScopedOption] at hs
      simp only [EdgesOption] at he
      simp only [liveOption, EdgesOption]
      exact refs_liveSeq body hs he

theorem refs_liveCases {lc : LiveCtx} {Γ : Scope} :
    (cases : List (CaseKey × Seq)) → ScopedCases f Γ cases → EdgesCases .all (SavesExactly m f) lc cases →
      liveCases (.counted m f) (lc.refs f) cases = refs f (liveCases .all lc cases) ∧
        EdgesCases (.counted m f) (SavesCounted m f) (lc.refs f) cases
  | [], _, _ => by simp [liveCases, EdgesCases, refs]
  | (_, body) :: cases, hs, he => by
      simp only [ScopedCases] at hs
      simp only [EdgesCases] at he
      have first := refs_liveSeq body hs.1 he.1
      have rest := refs_liveCases cases hs.2 he.2
      simp only [liveCases, EdgesCases, first.1, rest.1, refs_union]
      exact ⟨trivial, first.2, rest.2⟩

end

end Emela.Lir
