import Emela.Lir.Lemmas.Defects

/-!
# The simulation, by cases on the code

The induction is on the code, and meets a cleanup again wherever it is copied: what holds of a cleanup there
is what the stack needs of it.
-/

namespace Emela.Lir.Implicit

variable {α W D : Type} {R : Runtime α W D} {calls : Calls α W D} {fuel : Nat}

/-! ## Where the parts of a statement are rebuilt -/

section
variable {X : Set VarId} {L : Set LabelId} {τ : Target} {stack : List Encl} {regions : List (Region α W D)} {Γ : Scope}
  {b b' : Build} {ρ ρ' : Env (Val α D)} (src : List VarData) (flags : List Bool)

theorem Ready.after_seq (h : Ready R calls fuel X L τ stack regions Γ b ρ ρ') (q : Seq)
    (ha : Apart X L Γ (defsSeq q) (labelsSeq q)) :
    Ready R calls fuel X L τ stack regions Γ (explicitSeq src flags stack false q b).2 ρ ρ' :=
  h.rebuilt ha (explicitSeq_extends src flags (h.grows_with _ _) false q (fun _ hv => .inr hv) (fun _ hl => .inr hl) b)

theorem Ready.after_cases (h : Ready R calls fuel X L τ stack regions Γ b ρ ρ') (cases : List (CaseKey × Seq))
    (ha : Apart X L Γ (defsCases cases) (labelsCases cases)) :
    Ready R calls fuel X L τ stack regions Γ (explicitCases src flags stack cases b).2 ρ ρ' :=
  h.rebuilt ha (explicitCases_extends src flags (h.grows_with _ _) cases (fun _ hv => .inr hv) (fun _ hl => .inr hl) b)

theorem Ready.after_option (h : Ready R calls fuel X L τ stack regions Γ b ρ ρ') (q : Option Seq)
    (ha : Apart X L Γ (defsOption q) (labelsOption q)) :
    Ready R calls fuel X L τ stack regions Γ (explicitOption src flags stack q b).2 ρ ρ' :=
  h.rebuilt ha (explicitOption_extends src flags (h.grows_with _ _) q (fun _ hv => .inr hv) (fun _ hl => .inr hl) b)

/-- After a statement, the rest defines other variables and labels. -/
theorem Apart.rest {s : Stmt} {stmts : List Stmt}
    (h : Apart X L Γ (defsStmt s ++ defsStmts stmts) (labelsStmt s ++ labelsStmts stmts)) :
    Apart X L (Γ.define s.dst) (defsStmts stmts) (labelsStmts stmts) := by
  have hdst : ∀ d ∈ s.dst, d ∈ defsStmt s := by
    intro d hd
    cases s <;> simp only [Stmt.dst, Option.mem_def] at hd <;> simp [defsStmt, hd]
  refine ⟨h.right.defs, fun v hv => ⟨fun hc => ?_, (h.right.vars v hv).2⟩, h.right.labels, h.right.fresh⟩
  rcases Finset.mem_union.mp hc with hc | hc
  · exact (h.right.vars v hv).1 hc
  · exact List.disjoint_of_nodup_append h.defs (hdst v (Option.mem_toFinset.mp hc)) hv

/-- In a loop, its variables are defined. -/
theorem Apart.loop {vars ds : List VarId} {ls : List LabelId} (h : Apart X L Γ (vars ++ ds) ls) :
    Apart X L (Γ.loop vars) ds ls := by
  refine ⟨h.tail.defs, fun v hv => ⟨fun hc => ?_, (h.tail.vars v hv).2⟩, h.labels, h.fresh⟩
  rcases Finset.mem_union.mp hc with hc | hc
  · exact (h.tail.vars v hv).1 hc
  · exact List.disjoint_of_nodup_append h.defs (List.mem_toFinset.mp hc) hv

/-- In a block, its label is defined. -/
theorem Apart.block {ds : List VarId} {l : LabelId} {ls : List LabelId} (h : Apart X L Γ ds (l :: ls)) :
    Apart X L (Γ.block l) ds ls := by
  obtain ⟨hl, hnodup⟩ := List.nodup_cons.mp h.labels
  refine ⟨h.defs, h.vars, hnodup, fun l' hl' => ⟨fun hc => ?_, (h.fresh l' (List.mem_cons_of_mem _ hl')).2⟩⟩
  rcases Finset.mem_insert.mp hc with rfl | hc
  · exact hl hl'
  · exact (h.fresh l' (List.mem_cons_of_mem _ hl')).1 hc

/-- In the body of a `protect`, whose cleanup is copied. -/
theorem Apart.protect {ds ds' : List VarId} {ls ls' : List LabelId} (h : Apart X L Γ (ds ++ ds') (ls ++ ls')) :
    Apart (X ∪ {v | v ∈ ds'}) (L ∪ {l | l ∈ ls'}) Γ.protect ds ls := by
  refine ⟨h.left.defs, fun v hv => ⟨(h.left.vars v hv).1, fun hc => ?_⟩, h.left.labels,
    fun l hl => ⟨(h.left.fresh l hl).1, fun hc => ?_⟩⟩
  · exact hc.elim (h.left.vars v hv).2 fun hd => List.disjoint_of_nodup_append h.defs hv hd
  · exact hc.elim (h.left.fresh l hl).2 fun hd => List.disjoint_of_nodup_append h.labels hl hd

/-- In a cleanup, no label is in scope. -/
theorem Apart.cleanup {ds : List VarId} {ls : List LabelId} (h : Apart X L Γ ds ls) : Apart X L Γ.cleanup ds ls :=
  ⟨h.defs, h.vars, h.labels, fun l hl => ⟨Finset.notMem_empty l, (h.fresh l hl).2⟩⟩

/-! ## Blocks -/

/-- Where the labels go inside a block. -/
def Target.block (τ : Target) (l t : LabelId) (depth : Nat) : Target :=
  ⟨Function.update τ.label l t, Function.update τ.depth l depth⟩

theorem Ready.block (h : Ready R calls fuel X L τ stack regions Γ b ρ ρ') {l : LabelId} (hl : l ∉ Γ.labels ∧ l ∉ L) :
    Ready R calls fuel X L (τ.block l b.labels stack.length) stack regions (Γ.block l) (b.block l stack.length) ρ ρ' := by
  have he : Build.Extends ∅ {l} b (b.block l stack.length) := .block (Set.mem_singleton l) _
  have hl' : ∀ l' ∈ Γ.labels, l' ≠ l := fun l' h' hc => hl.1 (hc ▸ h')
  have hlater := h.later he (fun _ _ hc => hc) (fun l' h' => hl' l' h') fun _ _ => rfl
  refine ⟨hlater.agrees, hlater.stacked, h.grows, h.vars, fun l' h' => ?_, h.leaves⟩
  rcases Finset.mem_insert.mp h' with rfl | h'
  · refine ⟨hl.2, ⟨?_, ?_, ?_, ?_, ?_⟩⟩
    · simp [Build.block, Target.block]
    · simp [Build.block, Target.block, Build.allocLabel]
    · simp [Build.block, Target.block]
    · simp [Target.block]
    · simp [Target.block, Protects]
  · obtain ⟨hL, hp⟩ := hlater.labels l' h'
    exact ⟨hL, ⟨by simpa [Target.block, hl' l' h'] using hp.label, by simpa [Target.block, hl' l' h'] using hp.lt,
      by simpa [Target.block, hl' l' h'] using hp.depth, by simpa [Target.block, hl' l' h'] using hp.le,
      by simpa [Target.block, hl' l' h'] using hp.protects⟩⟩

/-- A way out of the rebuilt block for one of its body. -/
theorem left_block (h : Ready R calls fuel X L τ stack regions Γ b ρ ρ') {l : LabelId} {e : WayOut (Val α D) D}
    (he : Allowed (Γ.block l) e) (w : W) :
    (left R (τ.block l b.labels stack.length) regions false w e).map (fun r => (caught b.labels r.1, r.2)) =
      left R τ regions false w (caught l e) := by
  have hleaving : ∀ n (e : WayOut (Val α D) Unit), caught b.labels e = e →
      (leaving R n regions e w).map (fun r => (caught b.labels r.1, r.2)) = leaving R n regions e w := by
    intro n e he
    rcases hl : leave R n regions w with _ | ⟨_ | d, w'⟩
    · simp [leaving, hl]
    · simp [leaving, hl, he]
    · simp [leaving, hl, caught]
  cases e with
  | «break» l' v =>
      by_cases hll : l' = l
      · subst hll
        simp [left, caught, Target.block, h.stacked.length_eq]
      · have hmem : l' ∈ Γ.labels := (Finset.mem_insert.mp he).resolve_left hll
        have hlt := (h.labels l' hmem).2.lt
        simp only [left, caught, hll, if_false, Target.block, Function.update_of_ne hll]
        exact hleaving _ _ (by simp [caught, hlt.ne])
  | raise d => cases hu : unwind R regions d w <;> simp [left, hu, caught]
  | yield v => simp [left, caught]
  | _ => exact hleaving _ _ rfl

/-! ## Protects -/

/-- Leaving the body of a `protect` runs its cleanup, and then leaves as it settles. -/
theorem left_protect {c : W → Option (WayOut (Val α D) D × W)}
    (hclean : ∀ w e w', c w = some (e, w') → (∃ v, e = .yield v) ∨ ∃ d, e = .raise d) {e : WayOut (Val α D) D}
    (hr : ∀ vs, e ≠ .recur vs) (hd : ∀ l v, e = .break l v → τ.depth l ≤ regions.length) (w : W) :
    left R τ (.protect c :: regions) true w e =
      (c w).bind fun r => (settle R r.2 e r.1).bind fun e' => left R τ regions false r.2 e' := by
  have hleaving : ∀ n (e : WayOut (Val α D) D) (e' : WayOut (Val α D) Unit), (∀ d, e ≠ .raise d) →
      (∀ w, left R τ regions false w e = leaving R n regions e' w) →
      leaving R (n + 1) (.protect c :: regions) e' w =
        (c w).bind fun r => (settle R r.2 e r.1).bind fun e' => left R τ regions false r.2 e' := by
    intro n e e' hraise he
    rw [leaving, leave, Option.map_bind]
    refine Option.bind_congr fun r hr => ?_
    rcases r with ⟨ce, w'⟩
    rcases hclean w ce w' hr with ⟨v, rfl⟩ | ⟨d, rfl⟩
    · simp only [settle, Option.bind_some, he]
      rfl
    · have hsettle : settle R w' e (.raise d) = some (.raise d) := by
        cases e with
        | raise d' => exact absurd rfl (hraise d')
        | _ => rfl
      simp only [hsettle, Option.bind_some, left, Function.comp_apply]
      cases unwind R regions d w' <;> rfl
  cases e with
  | yield v =>
      exact hleaving 0 (.yield v) _ (by rintro _ ⟨⟩) fun w => by simp [left]
  | «return» v => exact hleaving _ (.return v) _ (by rintro _ ⟨⟩) fun w => rfl
  | fail v => exact hleaving _ (.fail v) _ (by rintro _ ⟨⟩) fun w => rfl
  | «break» l v =>
      have hlen : (Region.protect c :: regions).length - τ.depth l = regions.length - τ.depth l + 1 := by
        have := hd l v rfl
        simp only [List.length_cons]
        omega
      simp only [left, hlen]
      exact hleaving _ (.break l v) _ (by rintro _ ⟨⟩) fun w => rfl
  | recur vs => exact absurd rfl (hr vs)
  | raise d =>
      simp only [left, unwind, Option.map_bind]
      refine Option.bind_congr fun r hr => ?_
      rcases r with ⟨ce, w'⟩
      rcases hclean w ce w' hr with ⟨v, rfl⟩ | ⟨later, rfl⟩
      · rfl
      · rfl

/-- A new block around the rebuilt code catches none of its ways out. -/
theorem left_caught (h : Ready R calls fuel X L τ stack regions Γ b ρ ρ') {t : LabelId} (ht : b.labels ≤ t)
    {e : WayOut (Val α D) D} (he : Allowed Γ e) (w : W) :
    (left R τ regions false w e).map (fun r => (caught t r.1, r.2)) = left R τ regions false w e := by
  have hleaving : ∀ n (e : WayOut (Val α D) Unit), caught t e = e →
      (leaving R n regions e w).map (fun r => (caught t r.1, r.2)) = leaving R n regions e w := by
    intro n e he
    rcases hl : leave R n regions w with _ | ⟨_ | d, w'⟩
    · simp [leaving, hl]
    · simp [leaving, hl, he]
    · simp [leaving, hl, caught]
  cases e with
  | «break» l v => exact hleaving _ _ (by simp [caught, ((h.labels l he).2.lt.trans_le ht).ne])
  | raise d => cases hu : unwind R regions d w <;> simp [left, hu, caught]
  | _ => exact hleaving _ _ rfl

/-- Where a cleanup is copied, later, with the defect under way if there is one. -/
theorem Ready.cleanup (h : Ready R calls fuel X L τ stack regions Γ b ρ ρ') {ρ'' : Env (Val α D)}
    (hl : Later Γ.vars b ρ' b' ρ'') {stash : Option (VarId × D)}
    (hs : ∀ s ∈ stash, s.1 < b'.vars.length ∧ ρ'' s.1 = .defect s.2) (τ' : Target) :
    Ready R calls fuel X L τ' (((stash.map Prod.fst).map Encl.stash).toList ++ stack) (stashed stash ++ regions)
      Γ.cleanup b' ρ ρ'' := by
  refine ⟨h.agrees.later hl, ?_, ?_, h.vars, fun l hl => absurd hl (Finset.notMem_empty l), fun hc => nomatch hc⟩
  · cases stash with
    | none => exact h.stacked.later hl (Finset.Subset.refl _)
    | some s => exact ⟨hs s rfl, h.stacked.later hl (Finset.Subset.refl _)⟩
  · intro e he
    cases stash with
    | none => exact h.grows e he
    | some s =>
        rcases List.mem_cons.mp he with rfl | he
        · trivial
        · exact h.grows e he

/-- In the body of a `protect`. -/
theorem Ready.protect (h : Ready R calls fuel X L τ stack regions Γ b ρ ρ') {ds : List VarId} {ls : List LabelId}
    (ha : Apart X L Γ ds ls) {run : Option VarId → Build → Lir.Seq × Build} {c : W → Option (WayOut (Val α D) D × W)}
    (hrun : Runs R calls fuel Γ.vars b ρ' run c regions)
    (hext : (Encl.protect run).Extends (X ∪ {v | v ∈ ds}) (L ∪ {l | l ∈ ls})) :
    Ready R calls fuel (X ∪ {v | v ∈ ds}) (L ∪ {l | l ∈ ls}) τ (.protect run :: stack) (.protect c :: regions)
      Γ.protect b ρ ρ' := by
  refine ⟨h.agrees, ⟨hrun, h.stacked⟩, fun e he => ?_, fun v hv hc => ?_, fun l hl => ⟨fun hc => ?_, ?_⟩, fun hl => ?_⟩
  · rcases List.mem_cons.mp he with rfl | he
    · exact hext
    · exact h.grows_with ds ls e he
  · exact hc.elim (h.vars v hv) fun hd => (ha.vars v hd).1 hv
  · exact hc.elim (h.labels l hl).1 fun hd => (ha.fresh l hd).1 hl
  · have hp := (h.labels l hl).2
    have hsub : (Encl.protect run :: stack).length - τ.depth l = stack.length - τ.depth l + 1 := by
      have := hp.le
      simp only [List.length_cons]
      omega
    refine ⟨hp.label, hp.lt, hp.depth, hp.le.trans (Nat.le_succ _), ?_⟩
    rw [hsub, List.take_succ_cons]
    intro e he
    rcases List.mem_cons.mp he with rfl | he
    · exact ⟨run, rfl⟩
    · exact hp.protects e he
  · intro e he
    rcases List.mem_cons.mp he with rfl | he
    · exact ⟨run, rfl⟩
    · exact h.leaves hl e he

/-- Only a `yield` leaves the innermost region by itself. -/
theorem left_top {top : Bool} {e : WayOut (Val α D) D} (he : ∀ v, e ≠ .yield v) (w : W) :
    left R τ regions top w e = left R τ regions false w e := by
  cases e with
  | yield v => exact absurd rfl (he v)
  | _ => rfl

/-! ## Loops -/

/-- Leaving regions goes on with no loop. -/
theorem leaving_ne_recur {n : Nat} {e e' : WayOut (Val α D) Unit} (he : ∀ vs, e ≠ .recur vs) {w : W} {s : W × Option D}
    (h : leaving R n regions e w = some (e', s)) (vs : List (Val α D)) : e' ≠ .recur vs := by
  simp only [leaving, Option.map_eq_some_iff] at h
  obtain ⟨⟨_ | d, w'⟩, -, h⟩ := h
  · cases h
    exact he vs
  · cases h
    exact fun h => nomatch h

theorem left_ne_recur {e : WayOut (Val α D) D} (he : ∀ vs, e ≠ .recur vs) {w : W} {e' : WayOut (Val α D) Unit}
    {s : W × Option D} (h : left R τ regions false w e = some (e', s)) (vs : List (Val α D)) : e' ≠ .recur vs := by
  cases e with
  | recur vs => exact absurd rfl (he vs)
  | raise d =>
      simp only [left, Option.map_eq_some_iff] at h
      obtain ⟨r, -, h⟩ := h
      cases h
      rintro ⟨⟩
  | _ =>
      refine leaving_ne_recur ?_ h vs
      rintro _ ⟨⟩

theorem iterate_rebuilt {body : List (Val α D) → W → Option (WayOut (Val α D) D × W)}
    {body' : List (Val α D) → W × Option D → Option (WayOut (Val α D) Unit × (W × Option D))}
    (hbody : ∀ vs w, body' vs (w, none) = (body vs w).bind fun r => left R τ regions false r.2 r.1) :
    ∀ n vs w, iterate body' n vs (w, none) = (iterate body n vs w).bind fun r => left R τ regions false r.2 r.1
  | 0, _, _ => rfl
  | n + 1, vs, w => by
      rw [iterate, iterate, hbody, Option.bind_assoc, Option.bind_assoc]
      refine Option.bind_congr fun r _ => ?_
      rcases r with ⟨e, w'⟩
      by_cases hr : ∃ vs', e = .recur vs'
      · obtain ⟨vs', rfl⟩ := hr
        simpa [left] using iterate_rebuilt hbody n vs' w'
      · rw [not_exists] at hr
        rcases hl : left R τ regions false w' e with _ | ⟨e', s⟩
        · cases e <;> first | exact absurd rfl (hr _) | simp [hl]
        · have hr' := left_ne_recur hr hl
          cases e <;> first | exact absurd rfl (hr _) | cases e' <;> first | exact absurd rfl (hr' _) | simp [hl]

end

/-! ## Code -/

section
variable (src : List VarData) {flags : List Bool} (hq : Quiet flags calls)

theorem SwitchOn.var_rename (on : SwitchOn) (σ : VarId → VarId) : (on.rename σ).var = σ on.var := by cases on <;> rfl

include hq

mutual

theorem seq_rebuilt : ∀ {X : Set VarId} {L : Set LabelId} {τ : Target} {stack : List Encl}
    {regions : List (Region α W D)} {Γ : Scope} {b : Build} {ρ ρ' : Env (Val α D)} (q : Seq) (_ : ScopedSeq Γ q)
    (_ : Apart X L Γ (defsSeq q) (labelsSeq q)) (_ : Ready R calls fuel X L τ stack regions Γ b ρ ρ') (top : Bool)
    (_ : top = true → stack ≠ [] ∧ Protects (stack.take 1)) (w : W),
      Explicit.runSeq R calls fuel (explicitSeq src flags stack top q b).1 ρ' (w, none) =
        (runSeq R calls fuel q ρ w).bind fun r => left R τ regions top r.2 r.1
  | _, _, _, _, _, _, _, _, _, .mk stmts term, hs, ha, h, _, htop, w => stmts_rebuilt term stmts hs ha h _ htop w

theorem stmts_rebuilt (term : Term) : ∀ {X : Set VarId} {L : Set LabelId} {τ : Target} {stack : List Encl}
    {regions : List (Region α W D)} {Γ : Scope} {b : Build} {ρ ρ' : Env (Val α D)} (stmts : List Stmt)
    (_ : ScopedStmts Γ term stmts) (_ : Apart X L Γ (defsStmts stmts) (labelsStmts stmts))
    (_ : Ready R calls fuel X L τ stack regions Γ b ρ ρ') (top : Bool)
    (_ : top = true → stack ≠ [] ∧ Protects (stack.take 1)) (w : W),
      Explicit.runSeq R calls fuel (.mk (explicitStmts src flags stack top term stmts b).1.1
          (explicitStmts src flags stack top term stmts b).1.2) ρ' (w, none) =
        (runStmts R calls fuel term stmts ρ w).bind fun r => left R τ regions top r.2 r.1
  | _, _, _, _, _, _, _, _, _, [], hs, _, h, _, htop, w => term_rebuilt h src htop hs w
  | _, _, _, _, _, _, _, _, _, s :: stmts, hs, ha, h, top, htop, w => by
      have hstmt := stmt_rebuilt s hs.1 ha.left h w
      simp only [explicitStmts, runStmts]
      rw [runSeq_append]
      rcases hr : runStmt R calls fuel s _ w with _ | ⟨ρ1 | e, w1⟩
      · rw [hr] at hstmt
        rw [show _ = none from hstmt]
        rfl
      · rw [hr] at hstmt
        obtain ⟨ρ1', hrun, hready⟩ := hstmt
        rw [hrun]
        exact stmts_rebuilt term stmts hs.2 ha.rest hready top htop w1
      · rw [hr] at hstmt
        obtain ⟨hy, hrun⟩ := hstmt
        rw [hrun, Option.bind_map]
        simp only [Option.bind_some, left_top hy]
        exact Option.bind_fun_some _

theorem stmt_rebuilt : ∀ {X : Set VarId} {L : Set LabelId} {τ : Target} {stack : List Encl}
    {regions : List (Region α W D)} {Γ : Scope} {b : Build} {ρ ρ' : Env (Val α D)} (s : Stmt) (_ : ScopedStmt Γ s)
    (_ : Apart X L Γ (defsStmt s) (labelsStmt s)) (_ : Ready R calls fuel X L τ stack regions Γ b ρ ρ') (w : W),
      Follows R calls fuel X L τ stack regions (Γ.define s.dst) (explicitStmt src flags stack s b).2
        (runStmt R calls fuel s ρ w) (Explicit.runStmts R calls fuel (explicitStmt src flags stack s b).1 ρ' (w, none))
  | _, _, _, _, _, _, _, _, _, .let dst v onFail, hs, ha, h, w =>
      let_rebuilt h src hq hs (fun d hd => ha.vars d (Option.mem_toList.mpr hd)) w
  | _, _, _, _, _, _, b, ρ, ρ', .if dst cond then_ else_, hs, ha, h, w => by
      obtain ⟨hcond, hthen, helse⟩ := hs
      have hcond' : ∀ v ∈ cond.var?, v ∈ _ := fun v hv => hcond v (Option.mem_toList.mpr hv)
      have hsee := h.agrees.seeOperand src hcond'
      have h1 := h.after_seq src flags then_ ha.init.left
      have h2 := h1.after_seq src flags else_ ha.init.right
      have hc := h.agrees.operand (R := R) hcond'
      have hq1 := seq_rebuilt then_ hthen ha.init.left h false (by simp) w
      have hq2 := seq_rebuilt else_ helse ha.init.right h1 false (by simp) w
      simp only [explicitStmt, hsee, runStmts_one, Explicit.runStmt, runStmt, hc]
      rcases Runtime.truth (R.operand ρ cond) with _ | c
      · rfl
      · have hj := join_follows src h2 (fun d hd => ha.tail.vars d (Option.mem_toList.mpr hd))
          (if c then runSeq R calls fuel then_ ρ w else runSeq R calls fuel else_ ρ w)
        cases c with
        | true => simpa [hq1, Stmt.dst] using hj
        | false => simpa [hq2, Stmt.dst] using hj
  | _, _, _, _, _, _, b, ρ, ρ', .switch dst on cases default, hs, ha, h, w => by
      obtain ⟨hon, hcases, hdefault⟩ := hs
      have hsee : b.see src [on.var] = b := h.agrees.see src hon
      have h1 := h.after_cases src flags cases ha.init.left
      have h2 := h1.after_option src flags default ha.init.right
      have hx : ρ' (on.rename b.sub).var = ρ on.var := by
        rw [SwitchOn.var_rename]
        exact h.agrees.sub (hon _ List.mem_cons_self)
      have hq1 := option_rebuilt default hdefault ha.init.right h1 w
      have hq2 := cases_rebuilt (ρ on.var) cases hcases ha.init.left h w hq1
      have hj := join_follows src h2 (fun d hd => ha.tail.vars d (Option.mem_toList.mpr hd))
        (runCases R calls fuel (ρ on.var) (runOption R calls fuel default) cases ρ w)
      simp only [explicitStmt, hsee, runStmts_one, Explicit.runStmt, runStmt, hx, hq2]
      exact hj
  | X, L, τ, stack, regions, Γ, b, ρ, ρ', .loop dst vars inits body, hs, ha, h, w => by
      obtain ⟨hinits, hbody⟩ := hs
      have hsee := h.agrees.seeOperands src hinits
      have hargs := h.agrees.operands (R := R) hinits
      have hvars := ha.init.init.vars
      have h1 := h.later (Build.Extends.freshAll (X := {v | v ∈ vars}) (L := ∅) src fun _ hv => hv)
        (fun v hv hc => (hvars v hc).1 hv) (by simp) fun _ _ => rfl
      have h2 := h1.after_seq src flags body ha.init.tail
      have hiter : ∀ vs w, ((defineAll ρ' (vars.map (b.freshAll src vars).sub) vs).bind fun ρ =>
          Explicit.runSeq R calls fuel (explicitSeq src flags stack false body (b.freshAll src vars)).1 ρ (w, none)) =
            ((defineAll ρ vars vs).bind fun ρ => runSeq R calls fuel body ρ w).bind fun r => left R τ regions false r.2 r.1 := by
        intro vs w
        have hdef := h.defineAll src ha.init.init.defs hvars vs
        split at hdef
        · rename_i hnone
          rw [hnone, hdef]
          rfl
        · rename_i ρ1 hsome
          obtain ⟨ρ1', hdef, hready⟩ := hdef
          rw [hsome, hdef]
          exact seq_rebuilt body hbody ha.init.loop (hready.scope rfl (Finset.Subset.refl _) id) false (by simp) w
      have hj := join_follows src h2 (fun d hd => ha.tail.vars d (Option.mem_toList.mpr hd))
        (iterate (fun vs w => (defineAll ρ vars vs).bind fun ρ => runSeq R calls fuel body ρ w) fuel
          (inits.map (R.operand ρ)) w)
      simp only [explicitStmt, hsee, runStmts_one, Explicit.runStmt, runStmt]
      rw [hargs, iterate_rebuilt hiter]
      exact hj
  | X, L, τ, stack, regions, Γ, b, ρ, ρ', .block dst label body, hs, ha, h, w => by
      have hl := ha.fresh label List.mem_cons_self
      have hb := h.block hl
      have hrun := seq_rebuilt body hs ha.init.block hb false (by simp) w
      have h1 := h.rebuilt ha (Build.Extends.block (.inr List.mem_cons_self) stack.length)
      have h2 := h1.rebuilt ha (explicitSeq_extends src flags (h.grows_with _ _) false body (fun _ hv => .inr (List.mem_append_left _ hv))
          (fun _ hv => .inr (List.mem_cons_of_mem _ hv)) _)
      have hj := join_follows src h2 (fun d hd => ha.tail.vars d (Option.mem_toList.mpr hd))
        ((runSeq R calls fuel body ρ w).map fun r => (caught label r.1, r.2))
      have hcaught : ((runSeq R calls fuel body ρ w).bind fun r =>
          left R (τ.block label b.labels stack.length) regions false r.2 r.1).map (fun r => (caught b.labels r.1, r.2)) =
            ((runSeq R calls fuel body ρ w).map fun r => (caught label r.1, r.2)).bind fun r =>
              left R τ regions false r.2 r.1 := by
        rw [Option.map_bind, Option.bind_map]
        refine Option.bind_congr fun r hr => ?_
        exact left_block h (exits_seq R calls fuel body hs ρ w r.1 r.2 hr) r.2
      rw [← hcaught, ← hrun] at hj
      simp only [explicitStmt, runStmts_one, Explicit.runStmt, runStmt]
      rw [Option.bind_map, Option.bind_map] at hj
      exact hj
  | X, L, τ, stack, regions, Γ, b, ρ, ρ', .protect dst body cleanup, hs, ha, h, w => by
      obtain ⟨hbody, hcleanup⟩ := hs
      have hac : Apart X L Γ (defsSeq cleanup) (labelsSeq cleanup) := ha.init.right
      have hclean : ∀ w e w', runSeq R calls fuel cleanup ρ w = some (e, w') → (∃ v, e = .yield v) ∨ ∃ d, e = .raise d :=
        fun w e w' hr => (exits_seq R calls fuel cleanup hcleanup ρ w e w' hr).cleanup
      have hruns : Runs R calls fuel Γ.vars b ρ' (copies src flags stack cleanup) (runSeq R calls fuel cleanup ρ) regions := by
        refine ⟨hclean, fun b' ρ'' hl stash hstash τ' w => ?_⟩
        exact seq_rebuilt cleanup hcleanup hac.cleanup (h.cleanup hl hstash τ') false (by simp) w
      have hin := h.protect hac hruns
        (copies_extends src flags (h.grows_with _ _) (fun _ hv => .inr hv) (fun _ hl => .inr hl))
      have hrun := seq_rebuilt body hbody ha.init.protect hin true (by simp [Protects]) w
      have hgrow : ∀ e ∈ Encl.protect (copies src flags stack cleanup) :: stack,
          e.Extends (X ∪ {v | v ∈ defsStmt (.protect dst body cleanup)})
            (L ∪ {l | l ∈ labelsStmt (.protect dst body cleanup)}) := by
        intro e he
        rcases List.mem_cons.mp he with rfl | he
        · exact copies_extends src flags (h.grows_with _ _) (fun v hv => .inr (by simp [defsStmt, hv]))
            fun l hl => .inr (by simp [labelsStmt, hl])
        · exact h.grows_with _ _ e he
      have hext := explicitSeq_extends src flags hgrow true body (fun v hv => .inr (by simp [defsStmt, hv]))
        (fun l hl => .inr (by simp [labelsStmt, hl])) b
      have h2 := h.rebuilt ha (hext.trans .allocLabel)
      have hj := join_follows src h2 (fun d hd => ha.tail.vars d (Option.mem_toList.mpr hd))
        ((runSeq R calls fuel body ρ w).bind fun r => (runSeq R calls fuel cleanup ρ r.2).bind fun c =>
          (settle R c.2 r.1 c.1).map (·, c.2))
      have hcaught : ((runSeq R calls fuel body ρ w).bind fun r =>
          left R τ (.protect (runSeq R calls fuel cleanup ρ) :: regions) true r.2 r.1).map
            (fun r => (caught (explicitSeq src flags (.protect (copies src flags stack cleanup) :: stack) true body b).2.labels
              r.1, r.2)) =
            ((runSeq R calls fuel body ρ w).bind fun r => (runSeq R calls fuel cleanup ρ r.2).bind fun c =>
              (settle R c.2 r.1 c.1).map (·, c.2)).bind fun r => left R τ regions false r.2 r.1 := by
        rw [Option.map_bind, Option.bind_assoc]
        refine Option.bind_congr fun r hr => ?_
        rcases r with ⟨e, w1⟩
        obtain ⟨hallowed, hne⟩ := (exits_seq R calls fuel body hbody ρ w e w1 hr).protect
        have hdepth : ∀ l v, e = .break l v → τ.depth l ≤ regions.length := fun l v he => by
          subst he
          exact h.stacked.length_eq ▸ (h.labels l hallowed).2.le
        simp only [Function.comp_apply]
        rw [left_protect hclean hne hdepth, Option.map_bind, Option.bind_assoc]
        refine Option.bind_congr fun c _ => ?_
        rw [Function.comp_apply, Option.map_bind, Option.bind_map]
        refine Option.bind_congr fun e' he' => ?_
        exact left_caught h hext.labels (settle_allowed R hallowed he') c.2
      rw [← hcaught, ← hrun] at hj
      simp only [explicitStmt, runStmts_one, Explicit.runStmt, runStmt]
      rw [Option.bind_map] at hj
      simp only [Option.bind_assoc, Option.bind_map] at hj
      exact hj

theorem cases_rebuilt (x : Val α D) : ∀ {X : Set VarId} {L : Set LabelId} {τ : Target} {stack : List Encl}
    {regions : List (Region α W D)} {Γ : Scope} {b : Build} {ρ ρ' : Env (Val α D)} (cases : List (CaseKey × Seq))
    (_ : ScopedCases Γ cases) (_ : Apart X L Γ (defsCases cases) (labelsCases cases))
    (_ : Ready R calls fuel X L τ stack regions Γ b ρ ρ') (w : W)
    {otherwise : Env (Val α D) → W → Option (WayOut (Val α D) D × W)}
    {otherwise' : Env (Val α D) → W × Option D → Option (WayOut (Val α D) Unit × (W × Option D))}
    (_ : otherwise' ρ' (w, none) = (otherwise ρ w).bind fun r => left R τ regions false r.2 r.1),
      Explicit.runCases R calls fuel x otherwise' (explicitCases src flags stack cases b).1 ρ' (w, none) =
        (runCases R calls fuel x otherwise cases ρ w).bind fun r => left R τ regions false r.2 r.1
  | _, _, _, _, _, _, _, _, _, [], _, _, _, _, _, _, ho => ho
  | _, _, _, _, _, _, _, _, _, (key, body) :: cases, hs, ha, h, w, _, _, ho => by
      have hbody := seq_rebuilt body hs.1 ha.left h false (by simp) w
      have hcases := cases_rebuilt x cases hs.2 ha.right (h.after_seq src flags body ha.left) w ho
      simp only [explicitCases, Explicit.runCases, runCases]
      split
      · exact hbody
      · exact hcases

theorem option_rebuilt : ∀ {X : Set VarId} {L : Set LabelId} {τ : Target} {stack : List Encl}
    {regions : List (Region α W D)} {Γ : Scope} {b : Build} {ρ ρ' : Env (Val α D)} (q : Option Seq)
    (_ : ScopedOption Γ q) (_ : Apart X L Γ (defsOption q) (labelsOption q))
    (_ : Ready R calls fuel X L τ stack regions Γ b ρ ρ') (w : W),
      Explicit.runOption R calls fuel (explicitOption src flags stack q b).1 ρ' (w, none) =
        (runOption R calls fuel q ρ w).bind fun r => left R τ regions false r.2 r.1
  | _, _, _, _, _, _, _, _, _, none, _, _, _, _ => rfl
  | _, _, _, _, _, _, _, _, _, some body, hs, ha, h, w => seq_rebuilt body hs ha h false (by simp) w

end

end

end Emela.Lir.Implicit
