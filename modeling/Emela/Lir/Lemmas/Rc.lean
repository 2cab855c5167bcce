import Emela.Lir.Lemmas.Live

/-!
# Facts about the rewrite

The rewrite changes no statement but adds `dup` and `drop`; and taking the targets for what is live
after a `yield` and at a loop head makes no difference to it, since they are the owned variables live
there.
-/

namespace Emela.Lir

variable {m : Module} {f : Function}

/-! ## Erasing -/

theorem eraseStmts_append (xs ys : List Stmt) : eraseStmts (xs ++ ys) = eraseStmts xs ++ eraseStmts ys := by
  induction xs with
  | nil => rfl
  | cons s xs ih => simp [eraseStmts, ih]

theorem eraseStmts_dups (vs : List VarId) : eraseStmts (vs.map .dup) = [] := by
  induction vs with
  | nil => rfl
  | cons v vs ih => simp [eraseStmts, eraseStmt, ih]

theorem eraseStmts_drops (dead : Finset VarId) : eraseStmts (drops dead) = [] := by
  unfold drops
  induction dead.sort (· ≤ ·) with
  | nil => rfl
  | cons v vs ih => simp [eraseStmts, eraseStmt, ih]

theorem eraseStmts_rcTerm (ctx : RcCtx) (owned : Finset VarId) (term : Term) :
    eraseStmts (rcTerm f ctx owned term) = [] := by
  unfold rcTerm
  cases termTarget ctx term with
  | none => rfl
  | some target => simp [eraseStmts_append, eraseStmts_dups, eraseStmts_drops]

mutual

/-- Erasing what the rewrite adds gives back the sequence. -/
theorem eraseSeq_rcSeq {Γ : Scope} {ctx : RcCtx} {owned : Finset VarId} :
    (s : Seq) → ScopedSeq f Γ s → eraseSeq (rcSeq m f ctx owned s) = s
  | .mk stmts term, hs => by
      simp only [ScopedSeq] at hs
      simp only [rcSeq, eraseSeq, eraseStmts_append, eraseStmts_drops, eraseStmts_rcTerm, List.nil_append,
        List.append_nil, eraseStmts_rcStmts stmts hs]

theorem eraseStmts_rcStmts {Γ : Scope} {ctx : RcCtx} {term term' : Term} {owned : Finset VarId} :
    (stmts : List Stmt) → ScopedStmts f Γ term' stmts →
      eraseStmts (rcStmts m f ctx term owned stmts).1 = stmts
  | [], _ => by simp [rcStmts, eraseStmts]
  | s :: stmts, hs => by
      simp only [ScopedStmts] at hs
      simp only [rcStmts, eraseStmts_append, eraseStmts_drops, List.append_nil, eraseStmts_rcStmt s hs.1,
        eraseStmts_rcStmts stmts hs.2.2, List.singleton_append]

theorem eraseStmts_rcStmt {Γ : Scope} {ctx : RcCtx} {owned recorded after : Finset VarId} :
    (s : Stmt) → ScopedStmt f Γ s → eraseStmts (rcStmt m f ctx owned recorded after s).1 = [s]
  | .let dst value onFail onDefect onSuspend, hs => by
      simp only [ScopedStmt] at hs
      have failing : ∀ ctx owned, eraseFail (rcFail m f ctx owned onFail) = onFail :=
        fun _ _ => eraseFail_rcFail onFail hs.2.1
      have defect : ∀ ctx owned, eraseOption (rcOption m f ctx owned onDefect) = onDefect :=
        fun _ _ => eraseOption_rcOption onDefect hs.2.2.1
      simp only [rcStmt]
      split
      · simp [eraseStmts_append, eraseStmts_dups, eraseStmts, eraseStmt, failing, defect]
      · split
        · simp [eraseStmts_append, eraseStmts_dups, eraseStmts, eraseStmt, failing, defect]
        · split <;> simp [eraseStmts_append, eraseStmts_dups, eraseStmts, eraseStmt, failing, defect]
  | .dup _, hs | .drop _, hs => by simp only [ScopedStmt] at hs
  | .if dst cond then_ else_, hs => by
      simp only [ScopedStmt] at hs
      simp [rcStmt, eraseStmts, eraseStmt, eraseSeq_rcSeq then_ hs.2.2.1, eraseSeq_rcSeq else_ hs.2.2.2]
  | .switch dst on cases default, hs => by
      simp only [ScopedStmt] at hs
      simp [rcStmt, eraseStmts, eraseStmt, eraseCases_rcCases cases hs.2.1, eraseOption_rcOption default hs.2.2]
  | .block dst label body, hs => by
      simp only [ScopedStmt] at hs
      simp [rcStmt, eraseStmts, eraseStmt, eraseSeq_rcSeq body hs.2]
  | .loop dst vars inits body, hs => by
      simp only [ScopedStmt] at hs
      simp [rcStmt, eraseStmts_append, eraseStmts_dups, eraseStmts_drops, eraseStmts, eraseStmt,
        eraseSeq_rcSeq body hs.2.2]

theorem eraseFail_rcFail {Γ : Scope} {ctx : RcCtx} {owned : Finset VarId} :
    (o : Option (VarId × Seq)) → ScopedFail f Γ o → eraseFail (rcFail m f ctx owned o) = o
  | none, _ => by simp [rcFail, eraseFail]
  | some (e, body), hs => by
      simp only [ScopedFail] at hs
      simp only [rcFail, eraseFail, eraseSeq_rcSeq body hs.2.2]

theorem eraseOption_rcOption {Γ : Scope} {ctx : RcCtx} {owned : Finset VarId} :
    (o : Option Seq) → ScopedOption f Γ o → eraseOption (rcOption m f ctx owned o) = o
  | none, _ => by simp [rcOption, eraseOption]
  | some body, hs => by
      simp only [ScopedOption] at hs
      simp only [rcOption, eraseOption, eraseSeq_rcSeq body hs]

theorem eraseCases_rcCases {Γ : Scope} {ctx : RcCtx} {owned : Finset VarId} :
    (cases : List (CaseKey × Seq)) → ScopedCases f Γ cases → eraseCases (rcCases m f ctx owned cases) = cases
  | [], _ => by simp [rcCases, eraseCases]
  | (_, body) :: cases, hs => by
      simp only [ScopedCases] at hs
      simp only [rcCases, eraseCases, eraseSeq_rcSeq body hs.1, eraseCases_rcCases cases hs.2]

end

/-! ## Targets -/

/-- The targets are the owned variables live where control goes. -/
structure RcCtx.Exact (ctx : RcCtx) (Γ : Scope) (owned : Finset VarId) : Prop where
  yieldTarget : ctx.yieldTarget ⊆ ctx.live.yieldLive
  loopTarget : ctx.loopTarget.getD ∅ ⊆ ctx.live.head.getD ∅
  yields : Γ.yields = true → ∀ v ∈ owned, v ∈ ctx.live.yieldLive → v ∈ ctx.yieldTarget
  loops : ∀ v ∈ owned, v ∈ ctx.live.head.getD ∅ → v ∈ ctx.loopTarget.getD ∅

theorem RcCtx.Exact.mono {ctx : RcCtx} {Γ Γ' : Scope} {owned owned' : Finset VarId} (h : ctx.Exact Γ owned)
    (hΓ : Γ'.yields = Γ.yields) (new : ∀ v ∈ owned', v ∈ owned ∨ v ∉ ctx.live.yieldLive ∧ v ∉ ctx.live.head.getD ∅) :
    ctx.Exact Γ' owned' where
  yieldTarget := h.yieldTarget
  loopTarget := h.loopTarget
  yields hy v hv hl := by
    rcases new v hv with hv | hv
    · exact h.yields (hΓ ▸ hy) v hv hl
    · exact absurd hl hv.1
  loops v hv hl := by
    rcases new v hv with hv | hv
    · exact h.loops v hv hl
    · exact absurd hl hv.2

theorem liveBefore_let {U : Uses} {lc : LiveCtx} {s : Stmt} {recorded after : Finset VarId} {v : VarId}
    (h : v ∈ recorded → v ∈ after) (hv : v ∈ liveStmt U lc s recorded) : v ∈ liveBefore U lc s recorded after := by
  cases s with
  | «let» =>
      simp only [liveBefore, liveStmt, Finset.mem_union, mem_eraseDst] at hv ⊢
      tauto
  | dup | drop =>
      simp only [liveBefore, liveStmt, Finset.mem_insert] at hv ⊢
      tauto
  | _ => exact hv

theorem liveBefore_subset {U : Uses} {lc : LiveCtx} {s : Stmt} {recorded after : Finset VarId}
    (h : after ⊆ recorded) : liveBefore U lc s recorded after ⊆ liveStmt U lc s recorded := by
  intro v hv
  cases s with
  | «let» =>
      simp only [liveBefore, liveStmt, Finset.mem_union, mem_eraseDst] at hv ⊢
      have := @h v
      tauto
  | dup | drop =>
      simp only [liveBefore, liveStmt, Finset.mem_insert] at hv ⊢
      have := @h v
      tauto
  | _ => exact hv

section
variable {ctx : RcCtx} {Γ : Scope} {term : Term}

theorem afters_subset {owned : Finset VarId} (h : ctx.Exact Γ owned) (stmts : List Stmt) :
    afters m f ctx term stmts ⊆
      liveStmts (.counted m f) ctx.live stmts (liveTerm (.counted m f) ctx.live term) := by
  induction stmts with
  | nil =>
      simp only [afters, liveStmts, liveTerm]
      apply Finset.union_subset_union_left
      cases term with
      | yield => exact h.yieldTarget
      | recur => exact h.loopTarget
      | _ => exact subset_rfl
  | cons s stmts ih =>
      simp only [afters, liveStmts]
      exact liveBefore_subset ih

/-- What is owned and live is live in the rewrite. -/
theorem mem_afters {owned : Finset VarId} (h : ctx.Exact Γ owned) {v : VarId} (hv : v ∈ owned)
    (stmts : List Stmt) (Δ : Scope) (hΔ : Δ.yields = Γ.yields) (hs : ScopedStmts f Δ term stmts)
    (hl : v ∈ liveStmts (.counted m f) ctx.live stmts (liveTerm (.counted m f) ctx.live term)) :
    v ∈ afters m f ctx term stmts := by
  induction stmts generalizing Δ with
  | nil =>
      simp only [ScopedStmts, ScopedTerm] at hs
      simp only [afters, liveStmts, liveTerm, Finset.mem_union] at hl ⊢
      rcases hl with hl | hl
      · cases term with
        | yield => exact .inl (h.yields (hΔ ▸ hs.2) v hv hl)
        | recur => exact .inl (h.loops v hv hl)
        | _ => exact .inl hl
      · exact .inr hl
  | cons s stmts ih =>
      simp only [ScopedStmts] at hs
      simp only [afters, liveStmts] at hl ⊢
      exact liveBefore_let (ih (Δ.define s.dst) hΔ hs.2.2) hl

end

theorem consumeDups_congr {owned keep keep' : Finset VarId} (h : ∀ v ∈ owned, v ∈ keep ↔ v ∈ keep')
    (consumed : List VarId) : consumeDups owned keep consumed = consumeDups owned keep' consumed := by
  unfold consumeDups
  congr 1
  funext v
  have : (v ∈ owned ∧ v ∉ keep) ↔ (v ∈ owned ∧ v ∉ keep') := by
    have := h v
    tauto
  simp only [this]

theorem consumeOwned_congr {owned keep keep' : Finset VarId} (h : ∀ v ∈ owned, v ∈ keep ↔ v ∈ keep')
    (consumed : List VarId) : consumeOwned owned keep consumed = consumeOwned owned keep' consumed := by
  ext v
  simp only [consumeOwned, Finset.mem_sdiff, List.mem_toFinset]
  have := h v
  tauto

theorem target_congr {owned after after' : Finset VarId} (h : ∀ v ∈ owned, v ∈ after ↔ v ∈ after')
    (dst : Option VarId) : target owned after dst = target owned after' dst := by
  ext v
  simp only [target, Finset.mem_inter, mem_eraseDst]
  have := h v
  tauto

theorem consumeOwned_subset {owned keep : Finset VarId} {consumed : List VarId} :
    consumeOwned owned keep consumed ⊆ owned := Finset.sdiff_subset

/-- The rewrite of a statement depends on what is live after it only through the owned variables and
the destination. -/
theorem rcStmt_congr {ctx : RcCtx} {owned recorded after after' : Finset VarId} {s : Stmt}
    (h : ∀ v, v ∈ owned ∨ v ∈ s.dst → (v ∈ after ↔ v ∈ after')) :
    rcStmt m f ctx owned recorded after s = rcStmt m f ctx owned recorded after' s := by
  have owned_iff : ∀ v ∈ owned, v ∈ after ↔ v ∈ after' := fun v hv => h v (.inl hv)
  cases s with
  | «let» dst value onFail onDefect onSuspend =>
      have keep : ∀ v ∈ owned,
          v ∈ eraseDst after (countedDst f dst) ∪ liveFail (.counted m f) ctx.live onFail ∪
            liveOption (.counted m f) ctx.live onDefect ∪ (borrowed m f value).toFinset ↔
          v ∈ eraseDst after' (countedDst f dst) ∪ liveFail (.counted m f) ctx.live onFail ∪
            liveOption (.counted m f) ctx.live onDefect ∪ (borrowed m f value).toFinset := by
        intro v hv
        simp only [Finset.mem_union, mem_eraseDst, owned_iff v hv]
      simp only [rcStmt, consumeDups_congr keep, consumeOwned_congr keep]
      cases hd : countedDst f dst with
      | none => rfl
      | some d =>
          have : d ∈ dst := (Option.filter_eq_some_iff.mp hd).1
          simp only [h d (.inr this)]
  | dup | drop => simp only [rcStmt]
  | «if» => simp only [rcStmt, target_congr owned_iff]
  | switch => simp only [rcStmt, target_congr owned_iff]
  | block => simp only [rcStmt, target_congr owned_iff]
  | loop dst vars inits body =>
      simp only [rcStmt]
      rw [target_congr fun v hv => owned_iff v (consumeOwned_subset (Finset.mem_inter.mp hv).1)]

/-- After a statement the function owns nothing new but its destination. -/
theorem rcStmt_owned {ctx : RcCtx} {owned recorded after : Finset VarId} {s : Stmt} :
    (rcStmt m f ctx owned recorded after s).2 ⊆ owned ∪ (countedDst f s.dst).toFinset := by
  cases s with
  | «let» dst value onFail onDefect onSuspend =>
      simp only [rcStmt, Stmt.dst]
      cases hd : countedDst f dst with
      | none => exact consumeOwned_subset.trans Finset.subset_union_left
      | some d =>
          have old : ∀ keep, consumeOwned owned keep (consumed m f value) ⊆ owned ∪ (some d).toFinset :=
            fun _ => consumeOwned_subset.trans Finset.subset_union_left
          have new : d ∈ owned ∪ (some d).toFinset := by simp
          simp only
          split
          · exact Finset.insert_subset new (old _)
          · split
            · exact Finset.insert_subset new (old _)
            · exact old _
  | dup | drop => exact Finset.subset_union_left
  | «if» | switch | block => exact Finset.union_subset_union_left Finset.inter_subset_left
  | loop =>
      apply Finset.union_subset_union_left
      exact Finset.inter_subset_left.trans (Finset.inter_subset_left.trans consumeOwned_subset)

theorem mem_of_mem_countedDst {dst : Option VarId} {v : VarId} (h : v ∈ countedDst f dst) : v ∈ dst :=
  (Option.filter_eq_some_iff.mp h).1

/-- Where the targets are exact, the statements are rewritten with what is live in the analysis. -/
theorem rcStmts_cons {ctx : RcCtx} {term : Term} {owned : Finset VarId} {s : Stmt} {stmts : List Stmt}
    (h : ∀ v, v ∈ owned ∨ v ∈ s.dst → (v ∈ afters m f ctx term stmts ↔
      v ∈ liveStmts (.counted m f) ctx.live stmts (liveTerm (.counted m f) ctx.live term))) :
    rcStmts m f ctx term owned (s :: stmts) =
      let recorded := liveStmts (.counted m f) ctx.live stmts (liveTerm (.counted m f) ctx.live term)
      let (out, owned) := rcStmt m f ctx owned recorded recorded s
      let (rest, left) := rcStmts m f ctx term (owned ∩ recorded) stmts
      (out ++ drops (owned \ recorded) ++ rest, left) := by
  have left : ∀ recorded after, ∀ v ∈ (rcStmt m f ctx owned recorded after s).2, v ∈ owned ∨ v ∈ s.dst :=
    fun _ _ v hv => (Finset.mem_union.mp (rcStmt_owned hv)).imp_right fun hd =>
      mem_of_mem_countedDst (Option.mem_toFinset.mp hd)
  have inter : ∀ {a b c : Finset VarId}, (∀ v ∈ a, v ∈ b ↔ v ∈ c) → a ∩ b = a ∩ c := by
    intro a b c habc
    ext v
    simp only [Finset.mem_inter]
    exact and_congr_right (habc v)
  have sdiff : ∀ {a b c : Finset VarId}, (∀ v ∈ a, v ∈ b ↔ v ∈ c) → a \ b = a \ c := by
    intro a b c habc
    ext v
    simp only [Finset.mem_sdiff]
    exact and_congr_right fun hv => not_congr (habc v hv)
  simp only [rcStmts]
  rw [rcStmt_congr h, inter fun v hv => h v (left _ _ v hv), sdiff fun v hv => h v (left _ _ v hv)]

end Emela.Lir
