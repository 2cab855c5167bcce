import Emela.Lir.Lemmas.Ready

/-!
# The rewrite balances

The check of rewritten code, from a state of the rewrite, adds no error: by induction on the code, one
lemma for each way a statement passes control on.
-/

namespace Emela.Lir

variable {m : Module} {f : Function}

/-! ## Terminators -/

/-- Before a terminator: the references left once it has consumed its values are the target's. -/
theorem rcTerm_tokens {ctx : RcCtx} {owned target : Finset VarId} {term : Term} (ht : target ⊆ owned)
    (hterm : termTarget ctx term = some target) (m : Module) (f : Function) (c : Check) (head : Option Nat) :
    ∃ t, checkStmts m f c (ownTokens owned) head (rcTerm f ctx owned term) = (some t, c) ∧
      ∀ what, c.takeAll f what t (termConsumes f term) = (ownTokens target, c) := by
  simp only [rcTerm, hterm]
  generalize termConsumes f term = consumes
  have dead : ∀ v ∈ consumeOwned owned target consumes \ target, v ∈ owned ∧ v ∉ target ∧ v ∉ consumes := by
    intro v hv
    simp only [consumeOwned, Finset.mem_sdiff, List.mem_toFinset] at hv
    tauto
  refine ⟨fun v => ownTokens owned v + (consumeDups owned target consumes).count v -
    ownTokens (consumeOwned owned target consumes \ target) v, ?_, fun what => ?_⟩
  · rw [checkStmts_append, checkStmts_dups]
    simp only
    rw [checkStmts_drops]
    intro v hv
    rw [ownTokens_of_mem (dead v hv).1]
    omega
  · have tokens : ∀ v, ownTokens owned v + (consumeDups owned target consumes).count v - consumes.count v =
        ownTokens (consumeOwned owned target consumes) v := fun v => congrFun consume_tokens v
    have none_left : ∀ v ∈ consumeOwned owned target consumes \ target,
        (consumeDups owned target consumes).count v = 0 ∧ consumes.count v = 0 := by
      intro v hv
      have : consumes.count v = 0 := List.count_eq_zero_of_not_mem (dead v hv).2.2
      rw [count_consumeDups, this]
      simp
    rw [Check.takeAll_eq]
    · congr 1
      funext v
      by_cases hv : v ∈ consumeOwned owned target consumes \ target
      · rw [ownTokens_of_mem hv, (none_left v hv).1, (none_left v hv).2, ownTokens_of_mem (dead v hv).1,
          ownTokens_of_notMem (dead v hv).2.1]
      · rw [ownTokens_of_notMem hv, Nat.sub_zero, tokens]
        by_cases hvt : v ∈ target
        · rw [ownTokens_of_mem hvt, ownTokens_of_mem]
          simp [consumeOwned, ht hvt, hvt]
        · rw [ownTokens_of_notMem hvt, ownTokens_of_notMem]
          simp_all
    · intro v
      by_cases hv : v ∈ consumeOwned owned target consumes \ target
      · rw [(none_left v hv).2]
        exact Nat.zero_le _
      · rw [ownTokens_of_notMem hv, Nat.sub_zero]
        exact consume_enough v

section
variable {E : Finset VarId} {X : Exits} {ctx : RcCtx} {Γ : Scope} {owned : Finset VarId} {c : Check}
  {yieldTo head : Option Nat}

theorem term_balanced (h : Ready f E X ctx Γ owned c yieldTo head) {term : Term} (hs : ScopedTerm Γ term)
    (hl : liveTerm (.counted m f) ctx.live term ⊆ owned ∪ E) :
    Runs X Γ.labels (liveTerm (.counted m f) ctx.live term) c
      (runSeq m f c (ownTokens owned) yieldTo head (.mk (rcTerm f ctx owned term) term)) := by
  -- an edge to an exit, once the terminator has consumed its values
  have goes : ∀ {slot target live}, termTarget ctx term = some target → Leads X slot target live →
      live ⊆ liveTerm (.counted m f) ctx.live term →
      (∀ t t', c.takeAll f "the terminator consumes" t (termConsumes f term) = (t', c) →
        c.term f t yieldTo head term = c.deliver f slot t') →
      Runs X Γ.labels (liveTerm (.counted m f) ctx.live term) c
        (runSeq m f c (ownTokens owned) yieldTo head (.mk (rcTerm f ctx owned term) term)) := by
    intro slot target live ht hX hlive hterm
    obtain ⟨t, hrc, htake⟩ := rcTerm_tokens (h.target_subset hX (hlive.trans hl)) ht m f c head
    simp only [runSeq, hrc, hterm t _ (htake _)]
    exact h.deliver hX hlive
  -- an edge out of the function
  have leaves : termTarget ctx term = some ∅ →
      (∀ t t', c.takeAll f "the terminator consumes" t (termConsumes f term) = (t', c) →
        c.term f t yieldTo head term = c.deliver f none t') →
      Runs X Γ.labels (liveTerm (.counted m f) ctx.live term) c
        (runSeq m f c (ownTokens owned) yieldTo head (.mk (rcTerm f ctx owned term) term)) := by
    intro ht hterm
    obtain ⟨t, hrc, htake⟩ := rcTerm_tokens (Finset.empty_subset owned) ht m f c head
    simp only [runSeq, hrc, hterm t _ (htake _)]
    rw [Check.deliver_out fun v _ => ownTokens_of_notMem (Finset.notMem_empty v)]
    exact Runs.refl
  cases term with
  | yield v =>
      refine goes rfl (h.yields hs.2) Finset.subset_union_left fun t t' ht => ?_
      simp only [Check.term, ht]
  | «break» label v =>
      have hX := h.labels label hs.2
      refine goes rfl hX Finset.subset_union_left fun t t' ht => ?_
      obtain ⟨i, x, hi, -⟩ := hX
      simp only [Check.term, ht, hi]
  | recur args =>
      have hX := h.loops hs.2
      refine goes rfl hX Finset.subset_union_left fun t t' ht => ?_
      obtain ⟨i, x, rfl, -⟩ := hX
      simp only [Check.term, ht]
  | «return» | fail | unwind =>
      refine leaves rfl fun t t' ht => ?_
      simp only [Check.term, ht]
  | unreachable => exact Runs.refl

/-! ## Values -/

theorem eraseDst_countedDst {live : Finset VarId} {dst : Option VarId} (hc : ∀ v ∈ live, counted f v = true) :
    eraseDst live (countedDst f dst) = eraseDst live dst := by
  ext v
  simp only [mem_eraseDst, countedDst]
  refine and_congr_right fun hv => not_congr ?_
  rw [Option.mem_def, Option.filter_eq_some_iff]
  exact and_iff_left (hc v hv)

theorem mem_valueUses_iff {value : Value} {v : VarId} :
    v ∈ ((Uses.counted m f).value value) ↔ v ∈ consumed m f value ∨ v ∈ borrowed m f value := by
  simp only [Uses.counted, consumed, borrowed, List.mem_map, List.mem_filter]
  constructor
  · rintro ⟨⟨x, mode⟩, hu, rfl⟩
    cases mode with
    | consume => exact .inl ⟨(x, .consume), ⟨hu, by simp⟩, rfl⟩
    | borrow => exact .inr ⟨(x, .borrow), ⟨hu, by simp⟩, rfl⟩
  · rintro (⟨use, ⟨hu, -⟩, rfl⟩ | ⟨use, ⟨hu, -⟩, rfl⟩)
    · exact ⟨use, hu, rfl⟩
    · exact ⟨use, hu, rfl⟩

/-- The uses of a value: its consumed variables are given up where they are not kept, and the others
stay for the borrowed uses and what is live on. -/
theorem value_uses {value : Value} {keep liveOn : Finset VarId} (hkeep : keep = savedVars m f liveOn value)
    (hlo : liveOn ∪ ((Uses.counted m f).value value).toFinset ⊆ owned ∪ E) :
    keep ⊆ consumeOwned owned keep (consumed m f value) ∪ E := by
  intro v hv
  have : v ∈ owned ∪ E := by
    apply hlo
    rw [hkeep, savedVars, Finset.mem_union, List.mem_toFinset] at hv
    rw [Finset.mem_union, List.mem_toFinset, mem_valueUses_iff]
    tauto
  simp only [Finset.mem_union, consumeOwned, Finset.mem_sdiff] at this ⊢
  tauto

/-- At a suspension edge the saved variables are the owned ones. -/
theorem suspended_tokens {value : Value} {keep liveOn owned' : Finset VarId} {edge : Suspend}
    (hkeep : keep = savedVars m f liveOn value) (hsaves : SavesCounted m f liveOn value edge)
    (hE : ∀ v ∈ E, v ∉ edge.saved)
    (hol : owned ⊆ liveOn ∪ ((Uses.counted m f).value value).toFinset ∪ (suspendSaved f (some edge)).toFinset)
    (ho' : owned' = consumeOwned owned keep (consumed m f value)) (hk : keep ⊆ owned' ∪ E) (what : String) :
    ∃ t, c.takeAll f what (ownTokens owned') (suspendSaved f (some edge)) = (t, c) ∧ ∀ v, t v = 0 := by
  have saved_eq : (suspendSaved f (some edge)).toFinset = owned' := by
    rw [hsaves.2, ← hkeep]
    apply subset_antisymm
    · intro v hv
      rcases Finset.mem_union.mp (hk hv) with h | h
      · exact h
      · rw [hkeep, ← hsaves.2, List.mem_toFinset] at hv
        exact absurd (List.mem_of_mem_filter hv) (hE v h)
    · intro v hv
      rw [ho', consumeOwned, Finset.mem_sdiff, Finset.mem_sdiff, List.mem_toFinset] at hv
      have := hol hv.1
      rw [hsaves.2, ← hkeep] at this
      simp only [Finset.mem_union, List.mem_toFinset, mem_valueUses_iff] at this
      have kept : v ∈ liveOn ∨ v ∈ borrowed m f value → v ∈ keep := by
        rw [hkeep, savedVars, Finset.mem_union, List.mem_toFinset]
        exact id
      tauto
  have count : ∀ v, (suspendSaved f (some edge)).count v = ownTokens owned' v := by
    intro v
    rw [hsaves.1.count, ← saved_eq]
    simp [ownTokens]
  refine ⟨_, Check.takeAll_eq fun v => (count v).le, fun v => ?_⟩
  simp [count]

/-- The check of a `let` once its consumed variables have their references. -/
theorem let_tokens (head : Option Nat) (dst : Option VarId) {value : Value} (onFail : Option (VarId × Seq)) (onDefect : Option Seq)
    {onSuspend : Option Suspend} {t : Tokens} {owned' : Finset VarId} {c₁ c₂ : Check}
    (take : c.takeAll f "a consuming use of" t (consumed m f value) = (ownTokens owned', c))
    (borrow : ∀ v ∈ borrowed m f value, v ∈ owned' ∨ borrowedParam f v = true)
    (suspend : ∀ edge ∈ onSuspend,
      ∃ t, c.takeAll f "a suspension edge saves" (ownTokens owned') (suspendSaved f (some edge)) = (t, c) ∧
        ∀ v, t v = 0)
    (failing : checkFail m f c (ownTokens owned') head onFail = c₁)
    (defect : checkOption m f c₁ (ownTokens owned') none head onDefect = c₂) :
    checkStmt m f c t head (.let dst value onFail onDefect onSuspend) =
      (some ((countedDst f dst).elim (ownTokens owned')
          fun d => Function.update (ownTokens owned') d (if isView f value then 0 else 1)),
        { c₂ with scope := c₂.scope ++ (countedDst f dst).toList }) := by
  have borrows : (borrowed m f value).foldl (Check.borrow f (ownTokens owned')) c = c := by
    refine Check.borrow_eq fun v hv => (borrow v hv).imp_left fun h => ?_
    rw [ownTokens_of_mem h]
  cases onSuspend with
  | none =>
      simp only [checkStmt, take, borrows, failing, defect]
      cases dst with
      | none => simp [countedDst]
      | some d => simp [Check.define_tokens, Check.define_dst]
  | some edge =>
      obtain ⟨t, ht, hzero⟩ := suspend edge rfl
      simp only [checkStmt, take, borrows, ht, Check.deliver_out fun v _ => hzero v, failing, defect]
      cases dst with
      | none => simp [countedDst]
      | some d => simp [Check.define_tokens, Check.define_dst]

theorem let_ends (h : Ready f E X ctx Γ owned c yieldTo head) {dst : Option VarId} {value : Value}
    {onFail : Option (VarId × Seq)} {onDefect : Option Seq} {onSuspend : Option Suspend}
    {recorded live : Finset VarId} (hfresh : Γ.fresh dst.toList) (hr : recorded ⊆ (Γ.define dst).refs f)
    (hlive : live = liveStmt (.counted m f) ctx.live (.let dst value onFail onDefect onSuspend) recorded)
    (hl : live ⊆ owned ∪ E) (hol : owned ⊆ live) (hparam : ∀ v ∈ E, borrowedParam f v = true)
    (hedges : ∀ edge ∈ onSuspend, SavesCounted m f
      (eraseDst recorded dst ∪ liveFail (.counted m f) ctx.live onFail ∪
        liveOption (.counted m f) ctx.live onDefect) value edge)
    (hE : ∀ edge ∈ onSuspend, ∀ v ∈ E, v ∉ edge.saved)
    (failing : ∀ c owned', Ready f E X ctx Γ owned' c yieldTo head →
      liveFail (.counted m f) ctx.live onFail ⊆ owned' ∪ E →
      Runs X Γ.labels (liveFail (.counted m f) ctx.live onFail) c
          (checkFail m f c (ownTokens owned') head (rcFail m f { ctx with yieldTarget := ∅ } owned' onFail)) ∧
        (checkFail m f c (ownTokens owned') head
          (rcFail m f { ctx with yieldTarget := ∅ } owned' onFail)).scope = c.scope)
    (defect : ∀ c owned', Ready f E X ctx Γ owned' c yieldTo head →
      liveOption (.counted m f) ctx.live onDefect ⊆ owned' ∪ E →
      Runs X Γ.labels (liveOption (.counted m f) ctx.live onDefect) c
          (checkOption m f c (ownTokens owned') none head
            (rcOption m f { ctx with yieldTarget := ∅ } owned' onDefect)) ∧
        (checkOption m f c (ownTokens owned') none head
          (rcOption m f { ctx with yieldTarget := ∅ } owned' onDefect)).scope = c.scope) :
    Ends f E X Γ.labels live c dst recorded
      (rcStmt m f ctx owned recorded recorded (.let dst value onFail onDefect onSuspend)).2
      (checkStmts m f c (ownTokens owned) head
        (rcStmt m f ctx owned recorded recorded (.let dst value onFail onDefect onSuspend)).1) := by
  have hcounted : ∀ v ∈ recorded, counted f v = true := fun v hv => (Scope.mem_refs.mp (hr hv)).2
  simp only [rcStmt, eraseDst_countedDst hcounted]
  set liveOn := eraseDst recorded dst ∪ liveFail (.counted m f) ctx.live onFail ∪
    liveOption (.counted m f) ctx.live onDefect with hliveOn
  set keep := liveOn ∪ (borrowed m f value).toFinset with hkeep
  set owned' := consumeOwned owned keep (consumed m f value) with howned'
  have live_eq : live = liveOn ∪ ((Uses.counted m f).value value).toFinset ∪
      ((Uses.counted m f).saved onSuspend).toFinset := by rw [hlive, liveStmt]
  have enough : keep ⊆ owned' ∪ E :=
    value_uses hkeep ((Finset.subset_union_left.trans live_eq.ge).trans hl)
  have on : liveOn ⊆ owned' ∪ E := Finset.subset_union_left.trans enough
  have ready : Ready f E X ctx Γ owned' c yieldTo head := h.shrink consumeOwned_subset
  obtain ⟨run₁, scope₁⟩ := failing c owned' ready
    ((Finset.subset_union_right.trans Finset.subset_union_left).trans on)
  obtain ⟨run₂, scope₂⟩ := defect _ owned' (ready.runs run₁ scope₁) (Finset.subset_union_right.trans on)
  have on_live : liveOn ⊆ live := by
    rw [live_eq, Finset.union_assoc]
    exact Finset.subset_union_left
  have run := (run₁.subset ((Finset.subset_union_right.trans Finset.subset_union_left).trans on_live)).trans
    (run₂.subset (Finset.subset_union_right.trans on_live))
  have take : c.takeAll f "a consuming use of"
      (fun v => ownTokens owned v + (consumeDups owned keep (consumed m f value)).count v) (consumed m f value) =
      (ownTokens owned', c) := by rw [Check.takeAll_eq consume_enough, consume_tokens]
  have borrow : ∀ v ∈ borrowed m f value, v ∈ owned' ∨ borrowedParam f v = true := by
    intro v hv
    have : v ∈ owned' ∪ E := enough (Finset.mem_union_right _ (List.mem_toFinset.mpr hv))
    exact (Finset.mem_union.mp this).imp_right (hparam v)
  have suspend : ∀ edge ∈ onSuspend,
      ∃ t, c.takeAll f "a suspension edge saves" (ownTokens owned') (suspendSaved f (some edge)) = (t, c) ∧
        ∀ v, t v = 0 := by
    rintro edge rfl
    exact suspended_tokens hkeep (hedges edge rfl) (hE edge rfl) (hol.trans live_eq.le) howned' enough _
  have step := let_tokens head dst (rcFail m f { ctx with yieldTarget := ∅ } owned' onFail)
    (rcOption m f { ctx with yieldTarget := ∅ } owned' onDefect) take borrow suspend rfl rfl
  have scope := scope₂.trans scope₁
  generalize checkOption m f _ (ownTokens owned') none head _ = c₂ at run step scope
  have rest : ∀ v ∈ recorded, v ∉ dst → v ∈ owned' ∪ E := fun v hv hd =>
    on (Finset.mem_union_left _ (Finset.mem_union_left _ (mem_eraseDst.mpr ⟨hv, hd⟩)))
  have ends := run.withScope (c₂.scope ++ (countedDst f dst).toList) (scope ▸ List.prefix_append ..)
  have on_dst : eraseDst recorded dst ⊆ live :=
    (Finset.subset_union_left.trans Finset.subset_union_left).trans on_live
  cases hd : countedDst f dst with
  | none =>
      simp only [checkStmts_append, checkStmts_dups, checkStmts, step, hd]
      rw [hd] at ends
      refine ⟨ends, by simp, by simp [scope, hd], fun _ _ v hv => rest v hv fun hdst => ?_, fun _ _ => on_dst⟩
      have := Option.filter_eq_some_iff.mpr ⟨hdst, hcounted v hv⟩
      simp [countedDst, this] at hd
  | some d =>
      rw [hd] at ends step
      obtain ⟨rfl, hcd⟩ := Option.filter_eq_some_iff.mp hd
      have new : d ∉ owned' := fun hd =>
        hfresh.2 d (by simp) (Scope.mem_refs.mp (ready.inScope hd)).1
      have owns : recorded ⊆ insert d owned' ∪ E := by
        intro v hv
        by_cases hvd : v = d
        · simp [hvd]
        · have := rest v hv (by simpa using Ne.symm hvd)
          simp only [Finset.mem_union, Finset.mem_insert] at this ⊢
          tauto
      simp only
      split
      · rename_i hview
        simp only [checkStmts_append, checkStmts_dups, checkStmts, step]
        refine ⟨ends, ?_, by simp [scope, hd], fun _ _ => owns, fun _ _ => on_dst⟩
        have : isView f value = false := by simpa using hview
        simp [this, update_ownTokens]
      · rename_i hview
        have hview : isView f value = true := by simpa using hview
        simp only [Option.elim_some, hview, ↓reduceIte, update_ownTokens_zero new] at step
        split
        · simp only [checkStmts_append, checkStmts_dups, checkStmts, step, checkStmt_dup]
          refine ⟨ends, ?_, by simp [scope, hd], fun _ _ => owns, fun _ _ => on_dst⟩
          simp [ownTokens_of_notMem new, update_ownTokens]
        · rename_i hdead
          simp only [checkStmts_append, checkStmts_dups, checkStmts, step]
          refine ⟨ends, by simp, by simp [scope, hd], fun _ _ v hv => rest v hv fun hvd => hdead ?_,
            fun _ _ => on_dst⟩
          obtain rfl : d = v := by simpa using hvd
          exact hv

/-! ## Compound statements -/

/-- The exit at the end of a compound statement. -/
def endExit (f : Function) (c : Check) (owned recorded : Finset VarId) (dst : Option VarId) : Exit where
  scope := c.scope
  target := target owned recorded (countedDst f dst)
  live := eraseDst recorded dst

theorem mem_target {recorded : Finset VarId} {dst : Option VarId} {v : VarId}
    (hc : ∀ v ∈ recorded, counted f v = true) :
    v ∈ target owned recorded (countedDst f dst) ↔ v ∈ owned ∧ v ∈ eraseDst recorded dst := by
  rw [target, eraseDst_countedDst hc, Finset.mem_inter]

/-- The state in an arm of a compound statement. -/
theorem Ready.enter (h : Ready f E X ctx Γ owned c yieldTo head) {recorded : Finset VarId} {dst : Option VarId}
    (hr : recorded ⊆ (Γ.define dst).refs f) :
    Ready f E (Function.update X c.slots.length (some (endExit f c owned recorded dst)))
      { ctx with
        live := { ctx.live with yieldLive := eraseDst recorded dst }
        yieldTarget := target owned recorded (countedDst f dst) }
      Γ.arm owned c.newSlot (some c.slots.length) head := by
  have hc : ∀ v ∈ recorded, counted f v = true := fun v hv => (Scope.mem_refs.mp (hr hv)).2
  have sub : target owned recorded (countedDst f dst) ⊆ eraseDst recorded dst :=
    fun v hv => ((mem_target hc).mp hv).2
  have apart : Disjoint (target owned recorded (countedDst f dst)) E :=
    Finset.disjoint_of_subset_left Finset.inter_subset_left h.apart
  have exit := h.newExit (endExit f c owned recorded dst) ⟨c.scope.length, none⟩ rfl sub
    (eraseDst_subset_of_define hr) apart ⟨⟨c.scope.length, none⟩, by simp, rfl, by simp⟩
  exact exit.yielding ⟨c.slots.length, _, rfl, Function.update_self .., rfl, rfl⟩ (eraseDst_subset_of_define hr) sub
    fun v hv hl => (mem_target hc).mpr ⟨hv, hl⟩

/-- The end of a compound statement whose arms ran. -/
theorem Ready.leave (h : Ready f E X ctx Γ owned c yieldTo head) {recorded live : Finset VarId} {dst : Option VarId}
    (hr : recorded ⊆ (Γ.define dst).refs f) (hl : live ⊆ owned ∪ E) {c' : Check}
    (run : Runs (Function.update X c.slots.length (some (endExit f c owned recorded dst))) Γ.labels live c.newSlot c')
    (scope : c'.scope = c.scope) :
    Ends f E X Γ.labels live c dst recorded (target owned recorded (countedDst f dst) ∪ (countedDst f dst).toFinset)
      (c'.after f c.slots.length (ownTokens owned) dst) := by
  have hc : ∀ v ∈ recorded, counted f v = true := fun v hv => (Scope.mem_refs.mp (hr hv)).2
  have inScope : ∀ v ∈ owned, v ∈ c.scope := fun v hv => List.mem_toFinset.mp (h.scope ▸ h.inScope hv)
  have live_on : eraseDst recorded dst ⊆ live →
      eraseDst recorded dst ⊆ target owned recorded (countedDst f dst) ∪ E := by
    intro hlive v hv
    have := hl (hlive hv)
    rw [Finset.mem_union] at this ⊢
    rw [mem_target hc]
    tauto
  have fresh : ¬ Reached c.newSlot c.slots.length := by
    rintro ⟨slot, hslot, hne⟩
    simp only [Check.newSlot, List.getElem?_concat_length, Option.some.injEq] at hslot
    subst hslot
    exact hne rfl
  have ends := Ends.after (c := c.newSlot) (E := E) run scope (Function.update_self ..)
    ⟨⟨c.scope.length, none⟩, by simp [Check.newSlot], rfl, by simp⟩ fresh inScope Finset.inter_subset_left live_on hc
  exact { ends with runs := ends.runs.pop fun i y hy => h.lt hy }

end

/-- Dropping the owned variables that are not live. -/
theorem checkStmts_release (c : Check) (head : Option Nat) (owned live : Finset VarId) :
    checkStmts m f c (ownTokens owned) head (drops (owned \ live)) = (some (ownTokens (owned ∩ live)), c) := by
  rw [checkStmts_drops fun v hv => (ownTokens_of_mem (Finset.mem_sdiff.mp hv).1).ge]
  congr 2
  funext v
  by_cases ho : v ∈ owned <;> by_cases hl : v ∈ live <;> simp [ownTokens, ho, hl]

section
variable {E : Finset VarId} {X : Exits} {ctx : RcCtx} {Γ : Scope} {owned : Finset VarId} {c : Check}
  {yieldTo head : Option Nat}

/-- The state after a statement. -/
theorem Ready.next (h : Ready f E X ctx Γ owned c yieldTo head) {dst : Option VarId}
    {live recorded owned' : Finset VarId} {t : Tokens} {c' : Check} (hfresh : Γ.fresh dst.toList)
    (ho : owned' ⊆ owned ∪ (countedDst f dst).toFinset)
    (ends : Ends f E X Γ.labels live c dst recorded owned' (some t, c')) :
    Ready f E X ctx (Γ.define dst) (owned' ∩ recorded) c' yieldTo head := by
  have same := h.runs (ends.runs.withScope c.scope List.prefix_rfl) rfl
  have dst_eq : (countedDst f dst).toList.toFinset = (countedDst f dst).toFinset := by ext; simp
  have sub : owned' ∩ recorded ⊆ owned ∪ (countedDst f dst).toList.toFinset :=
    Finset.inter_subset_left.trans (dst_eq ▸ ho)
  have new := same.define (Γ.define dst) (countedDst f dst).toList
    (by rw [Scope.refs_define, dst_eq]) rfl rfl rfl ?_ ?_ sub
  · rw [← ends.scope t rfl] at new
    exact new
  · cases countedDst f dst <;> simp
  · intro v hv hrefs
    have hd := (Option.filter_eq_some_iff.mp (Option.mem_toList.mp hv)).1
    exact hfresh.2 v (by simp [hd]) (Scope.mem_refs.mp hrefs).1

/-- What is live at an exit does not include the destination of a later statement. -/
theorem Ready.exit_live (h : Ready f E X ctx Γ owned c yieldTo head) {i : Nat} {x : Exit} (hx : X i = some x) :
    x.live ⊆ Γ.refs f := by
  intro v hv
  have old := h.exits i x hx
  rw [← h.scope, List.mem_toFinset]
  exact old.outer.subset (old.live v hv)

/-- In the rewrite the same owned variables are live after a statement as in the analysis. -/
theorem Ready.afters_iff (h : Ready f E X ctx Γ owned c yieldTo head) {dst : Option VarId} {term : Term}
    {stmts : List Stmt} (hfresh : Γ.fresh dst.toList) (hs : ScopedStmts f (Γ.define dst) term stmts) {v : VarId}
    (hv : v ∈ owned ∨ v ∈ dst) :
    v ∈ afters m f ctx term stmts ↔
      v ∈ liveStmts (.counted m f) ctx.live stmts (liveTerm (.counted m f) ctx.live term) := by
  have exact : ctx.Exact (Γ.define dst) (owned ∪ dst.toFinset) := h.exact.mono rfl fun v hv => by
    rcases Finset.mem_union.mp hv with hv | hv
    · exact .inl hv
    · have new : v ∉ Γ.refs f := fun hrefs =>
        hfresh.2 v (by simpa using hv) (Scope.mem_refs.mp hrefs).1
      exact .inr ⟨fun hy => new (h.within.yieldLive hy), fun hh => new (h.within.head hh)⟩
  refine ⟨fun hv => afters_subset exact stmts hv, fun hl => ?_⟩
  exact mem_afters exact (by simpa using hv) stmts _ rfl hs hl

end

/-! ## Loops -/

/-- The references at a loop head, once the initial values are consumed. -/
theorem loop_tokens {owned atHead H : Finset VarId} {c : Check} {head : Option Nat} {dst : Option VarId}
    {vars : List VarId} {inits : List Operand} {body : Seq}
    (hat : atHead = consumeOwned owned H (operandVars f inits)) (hsub : atHead ⊆ H) :
    checkStmts m f c (ownTokens owned) head
        ((consumeDups owned H (operandVars f inits)).map .dup ++ drops (atHead \ H) ++ [.loop dst vars inits body]) =
      (checkSeq m f { c.newSlot with
          slots := c.newSlot.slots ++ [⟨c.scope.length, some (c.scope.map (ownTokens atHead))⟩] }
        (ownTokens atHead) (vars.map (·, 1)) (some c.slots.length) (some c.newSlot.slots.length) body).after f
        c.slots.length (ownTokens atHead) dst := by
  have none_dead : drops (atHead \ H) = [] := by
    rw [Finset.sdiff_eq_empty_iff_subset.mpr hsub]
    simp [drops]
  have take : c.takeAll f "a loop's initial value consumes"
      (fun v => ownTokens owned v + (consumeDups owned H (operandVars f inits)).count v) (operandVars f inits) =
      (ownTokens atHead, c) := by rw [Check.takeAll_eq consume_enough, consume_tokens, hat]
  rw [none_dead, List.append_nil, checkStmts_append, checkStmts_dups]
  simp only [checkStmts_one, checkStmt, take]
  rfl

/-- The state in the body of a loop. -/
theorem Ready.enterLoop {E : Finset VarId} {X : Exits} {ctx : RcCtx} {Γ : Scope} {atHead : Finset VarId} {c : Check}
    {yieldTo head : Option Nat} (h : Ready f E X ctx Γ atHead c yieldTo head) {recorded H : Finset VarId}
    {dst : Option VarId} {vars : List VarId} (hr : recorded ⊆ (Γ.define dst).refs f) (hH : H ⊆ Γ.refs f)
    (hsub : atHead ⊆ H) (hfresh : Γ.fresh vars) :
    Ready f E
      (Function.update (Function.update X c.slots.length (some (endExit f c atHead recorded dst)))
        c.newSlot.slots.length (some ⟨c.scope, atHead, H⟩))
      { ctx with
        live := { ctx.live with yieldLive := eraseDst recorded dst, head := some H }
        yieldTarget := target atHead recorded (countedDst f dst)
        loopTarget := some atHead }
      (Γ.loop vars) (atHead ∪ (vars.filter (counted f)).toFinset)
      { c.newSlot with
        slots := c.newSlot.slots ++ [⟨c.scope.length, some (c.scope.map (ownTokens atHead))⟩]
        scope := c.scope ++ vars.filter (counted f) }
      (some c.slots.length) (some c.newSlot.slots.length) := by
  have exit := (h.enter hr).newExit ⟨c.scope, atHead, H⟩
    ⟨c.scope.length, some (c.scope.map (ownTokens atHead))⟩ rfl hsub hH h.apart
    ⟨⟨c.scope.length, some (c.scope.map (ownTokens atHead))⟩, by simp, rfl, by simp⟩
  have loop := exit.looping ⟨c.newSlot.slots.length, _, rfl, Function.update_self .., rfl, rfl⟩ hH hsub
    fun v hv _ => hv
  refine loop.define (Γ.loop vars) _ Scope.refs_loop rfl rfl rfl (hfresh.1.filter _) ?_ subset_rfl
  intro v hv hrefs
  exact hfresh.2 v (List.mem_of_mem_filter hv) (Scope.mem_refs.mp hrefs).1

mutual

/-- Rewritten code is balanced from any state of the rewrite. -/
theorem seq_balanced {E : Finset VarId} (hparam : ∀ v ∈ E, borrowedParam f v = true) {X : Exits} {ctx : RcCtx}
    {Γ : Scope} {owned : Finset VarId} {c : Check} {yieldTo head : Option Nat} :
    (s : Seq) → Ready f E X ctx Γ owned c yieldTo head → ScopedSeq f Γ s →
      EdgesSeq (.counted m f) (SavesCounted m f) ctx.live s → (∀ e ∈ edgesSeq s, ∀ v ∈ E, v ∉ e.saved) →
      liveSeq (.counted m f) ctx.live s ⊆ owned ∪ E →
      Runs X Γ.labels (liveSeq (.counted m f) ctx.live s) c
        (runSeq m f c (ownTokens owned) yieldTo head (rcSeq m f ctx owned s))
  | .mk stmts term, h, hs, he, hE, hl => by
      simp only [ScopedSeq] at hs
      simp only [EdgesSeq] at he
      simp only [edgesSeq] at hE
      simp only [liveSeq] at hl ⊢
      simp only [rcSeq, runSeq, List.append_assoc, checkStmts_append _ _ _ (drops _), checkStmts_release]
      apply stmts_balanced hparam stmts (h.shrink Finset.inter_subset_left) hs he hE Finset.inter_subset_right
      intro v hv
      have := hl hv
      simp only [Finset.mem_union, Finset.mem_inter] at this ⊢
      tauto

theorem stmts_balanced {E : Finset VarId} (hparam : ∀ v ∈ E, borrowedParam f v = true) {X : Exits} {ctx : RcCtx}
    {Γ : Scope} {owned : Finset VarId} {c : Check} {yieldTo head : Option Nat} {term : Term} :
    (stmts : List Stmt) → Ready f E X ctx Γ owned c yieldTo head → ScopedStmts f Γ term stmts →
      EdgesStmts (.counted m f) (SavesCounted m f) ctx.live term stmts →
      (∀ e ∈ edgesStmts stmts, ∀ v ∈ E, v ∉ e.saved) →
      owned ⊆ liveStmts (.counted m f) ctx.live stmts (liveTerm (.counted m f) ctx.live term) →
      liveStmts (.counted m f) ctx.live stmts (liveTerm (.counted m f) ctx.live term) ⊆ owned ∪ E →
      Runs X Γ.labels (liveStmts (.counted m f) ctx.live stmts (liveTerm (.counted m f) ctx.live term)) c
        (runSeq m f c (ownTokens owned) yieldTo head
          (.mk ((rcStmts m f ctx term owned stmts).1 ++ rcTerm f ctx (rcStmts m f ctx term owned stmts).2 term) term))
  | [], h, hs, _, _, _, hl => by
      simp only [ScopedStmts] at hs
      simp only [rcStmts, liveStmts, List.nil_append] at hl ⊢
      exact term_balanced h hs hl
  | s :: stmts, h, hs, he, hE, hol, hl => by
      simp only [ScopedStmts] at hs
      simp only [EdgesStmts] at he
      simp only [liveStmts] at hol hl ⊢
      simp only [edgesStmts, List.mem_append] at hE
      have hrec : liveStmts (.counted m f) ctx.live stmts (liveTerm (.counted m f) ctx.live term) ⊆
          (Γ.define s.dst).refs f :=
        liveStmts_within (h.within.mono (by simp [Scope.refs_define])) stmts hs.2.2
      have ends := stmt_balanced hparam s h hs.1 hs.2.1 he.1 (fun e he => hE e (.inl he)) hrec hol hl
      rw [rcStmts_cons fun v => h.afters_iff hs.2.1 hs.2.2]
      simp only [runSeq, List.append_assoc, checkStmts_append _ _ _ (rcStmt ..).1]
      rcases hres : checkStmts m f c (ownTokens owned) head (rcStmt m f ctx owned _ _ s).1 with ⟨_ | t, c'⟩
      · rw [hres] at ends
        exact ends.runs
      · rw [hres] at ends
        have ready := h.next hs.2.1 rcStmt_owned ends
        have rest := stmts_balanced hparam stmts ready hs.2.2 he.2 (fun e he => hE e (.inr he))
          Finset.inter_subset_right fun v hv => by
            have := ends.enough t rfl hv
            simp only [Finset.mem_union, Finset.mem_inter] at this ⊢
            tauto
        simp only [ends.tokens t rfl, checkStmts_append _ _ _ (drops _), checkStmts_release]
        refine ends.runs.trans (rest.mono fun i x hx hlive v hv => ?_)
        refine ends.on t rfl (mem_eraseDst.mpr ⟨hlive hv, fun hd => ?_⟩)
        exact hs.2.1.2 v (by simpa using hd) (Scope.mem_refs.mp (h.exit_live hx hv)).1

theorem stmt_balanced {E : Finset VarId} (hparam : ∀ v ∈ E, borrowedParam f v = true) {X : Exits} {ctx : RcCtx}
    {Γ : Scope} {owned recorded : Finset VarId} {c : Check} {yieldTo head : Option Nat} :
    (s : Stmt) → Ready f E X ctx Γ owned c yieldTo head → ScopedStmt f Γ s → Γ.fresh s.dst.toList →
      EdgesStmt (.counted m f) (SavesCounted m f) ctx.live recorded s → (∀ e ∈ edgesStmt s, ∀ v ∈ E, v ∉ e.saved) →
      recorded ⊆ (Γ.define s.dst).refs f → owned ⊆ liveStmt (.counted m f) ctx.live s recorded →
      liveStmt (.counted m f) ctx.live s recorded ⊆ owned ∪ E →
      Ends f E X Γ.labels (liveStmt (.counted m f) ctx.live s recorded) c s.dst recorded
        (rcStmt m f ctx owned recorded recorded s).2
        (checkStmts m f c (ownTokens owned) head (rcStmt m f ctx owned recorded recorded s).1)
  | .let dst value onFail onDefect onSuspend, h, hs, hfresh, he, hE, hr, hol, hl => by
      simp only [ScopedStmt] at hs
      simp only [EdgesStmt] at he
      simp only [edgesStmt, List.mem_append, Option.mem_toList] at hE
      exact let_ends h hfresh hr rfl hl hol hparam he.1 (fun edge hedge => hE edge (.inl (.inl hedge)))
        (fun c owned' hc => fail_balanced hparam onFail hc hs.2.1 he.2.1 fun e he => hE e (.inl (.inr he)))
        (fun c owned' hc => option_balanced hparam onDefect hc.landing hs.2.2.1 he.2.2 fun e he => hE e (.inr he))
  | .dup _, _, hs, _, _, _, _, _, _ | .drop _, _, hs, _, _, _, _, _, _ => by simp only [ScopedStmt] at hs
  | .if dst cond then_ else_, h, hs, hfresh, he, hE, hr, hol, hl => by
      simp only [ScopedStmt] at hs
      simp only [EdgesStmt] at he
      simp only [edgesStmt, List.mem_append] at hE
      simp only [liveStmt, Uses.counted, List.toFinset_nil, Finset.union_empty] at hl ⊢
      simp only [rcStmt, checkStmts_one, checkStmt]
      have ready := h.enter hr
      obtain ⟨run₁, scope₁⟩ := (seq_balanced hparam then_ ready hs.2.2.1 he.1 (fun e he => hE e (.inl he))
        (Finset.subset_union_left.trans hl)).nested
      obtain ⟨run₂, scope₂⟩ := (seq_balanced hparam else_ (ready.runs run₁ scope₁) hs.2.2.2 he.2
        (fun e he => hE e (.inr he)) (Finset.subset_union_right.trans hl)).nested
      exact h.leave hr hl ((run₁.subset Finset.subset_union_left).trans (run₂.subset Finset.subset_union_right))
        (scope₂.trans scope₁)
  | .switch dst on cases default, h, hs, hfresh, he, hE, hr, hol, hl => by
      simp only [ScopedStmt] at hs
      simp only [EdgesStmt] at he
      simp only [edgesStmt, List.mem_append] at hE
      simp only [liveStmt] at hl ⊢
      have borrow : (if counted f on.var then c.borrow f (ownTokens owned) on.var else c) = c := by
        split
        · have hon : on.var ∈ owned ∪ E := hl (Finset.mem_union_right _ (by simp [Uses.counted, *]))
          rw [Check.borrow, if_neg]
          rcases Finset.mem_union.mp hon with ho | ho
          · simp [ownTokens_of_mem ho]
          · simp [hparam _ ho]
        · rfl
      simp only [rcStmt, checkStmts_one, checkStmt, borrow]
      have ready := h.enter hr
      have hl' := Finset.subset_union_left.trans hl
      obtain ⟨run₁, scope₁⟩ := cases_balanced hparam cases ready hs.2.1 he.1 (fun e he => hE e (.inl he))
        (Finset.subset_union_left.trans hl')
      obtain ⟨run₂, scope₂⟩ := option_balanced hparam default (ready.runs run₁ scope₁) hs.2.2 he.2
        (fun e he => hE e (.inr he)) (Finset.subset_union_right.trans hl')
      have run := (run₁.subset Finset.subset_union_left).trans (run₂.subset Finset.subset_union_right)
      exact h.leave hr hl (run.subset Finset.subset_union_left) (scope₂.trans scope₁)
  | .block dst label body, h, hs, hfresh, he, hE, hr, hol, hl => by
      simp only [ScopedStmt] at hs
      simp only [EdgesStmt] at he
      simp only [edgesStmt] at hE
      simp only [liveStmt] at hl ⊢
      simp only [rcStmt, checkStmts_one, checkStmt]
      have ready := (h.enter hr).labelling label
        ⟨c.slots.length, _, rfl, Function.update_self .., rfl, rfl⟩ (eraseDst_subset_of_define hr)
      obtain ⟨run, scope⟩ := (seq_balanced hparam body ready hs.2 he hE hl).nested
      exact h.leave hr hl (run.unlabel hs.1) scope
  | .loop dst vars inits body, h, hs, hfresh, he, hE, hr, hol, hl => by
      simp only [ScopedStmt] at hs
      simp only [EdgesStmt] at he
      simp only [edgesStmt] at hE
      set H := liveHead (.counted m f) ctx.live (eraseDst recorded dst) vars body with hH
      have live_eq : liveStmt (.counted m f) ctx.live (.loop dst vars inits body) recorded =
          H ∪ (operandVars f inits).toFinset := by rw [liveStmt, hH]; rfl
      rw [live_eq] at hol hl ⊢
      have hsub : consumeOwned owned H (operandVars f inits) ⊆ H := by
        intro v hv
        have := hol (consumeOwned_subset hv)
        simp only [consumeOwned, Finset.mem_sdiff, Finset.mem_union, List.mem_toFinset] at hv this
        tauto
      have within := liveStmt_within (m := m) h.within (.loop dst vars inits body) (by simpa only [ScopedStmt] using hs) hr
      have hHrefs : H ⊆ Γ.refs f := Finset.subset_union_left.trans (live_eq.ge.trans within)
      have fixed : liveSeq (.counted m f)
          { ctx.live with yieldLive := eraseDst recorded dst, head := some H } body \ vars.toFinset = H :=
        liveHead_fixed hs.2.2
      have entry : Ready f E X ctx Γ (consumeOwned owned H (operandVars f inits)) c yieldTo head :=
        h.shrink consumeOwned_subset
      have hentry : H ⊆ consumeOwned owned H (operandVars f inits) ∪ E := by
        intro v hv
        have := hl (Finset.mem_union_left _ hv)
        simp only [consumeOwned, Finset.mem_sdiff, Finset.mem_union] at this ⊢
        tauto
      have ready := entry.enterLoop hr hHrefs hsub hs.2.1
      have hbody := liveSeq_within (m := m) ready.within body hs.2.2
      have run := seq_balanced hparam body ready hs.2.2 he hE (by
        intro v hv
        by_cases hvars : v ∈ vars
        · have : v ∈ vars.filter (counted f) := List.mem_filter.mpr ⟨hvars, (Scope.mem_refs.mp (hbody hv)).2⟩
          simp [hvars, (Scope.mem_refs.mp (hbody hv)).2]
        · have : v ∈ H := fixed ▸ Finset.mem_sdiff.mpr ⟨hv, by simpa using hvars⟩
          have := hentry this
          simp only [Finset.mem_union] at this ⊢
          tauto)
      simp only [rcStmt, ← hH, Finset.inter_eq_left.mpr hsub]
      rw [loop_tokens rfl hsub]
      obtain ⟨run, scope⟩ := Runs.defining vars
        (c := { c.newSlot with
          slots := c.newSlot.slots ++
            [⟨c.scope.length, some (c.scope.map (ownTokens (consumeOwned owned H (operandVars f inits))))⟩] }) run
      have arm := entry.enter hr
      have ends := entry.leave hr hentry ((run.pop fun i y hy => arm.lt hy).mono fun i x hx hlive v hv => ?_) scope
      · exact ends.subset Finset.subset_union_left
      · refine fixed ▸ Finset.mem_sdiff.mpr ⟨hlive hv, fun hvars => ?_⟩
        exact hs.2.1.2 v (List.mem_toFinset.mp hvars) (Scope.mem_refs.mp (arm.exit_live hx hv)).1

theorem fail_balanced {E : Finset VarId} (hparam : ∀ v ∈ E, borrowedParam f v = true) {X : Exits} {ctx : RcCtx}
    {Γ : Scope} {owned : Finset VarId} {c : Check} {yieldTo head : Option Nat} :
    (o : Option (VarId × Seq)) → Ready f E X ctx Γ owned c yieldTo head → ScopedFail f Γ o →
      EdgesFail (.counted m f) (SavesCounted m f) ctx.live o → (∀ e ∈ edgesFail o, ∀ v ∈ E, v ∉ e.saved) →
      liveFail (.counted m f) ctx.live o ⊆ owned ∪ E →
      Runs X Γ.labels (liveFail (.counted m f) ctx.live o) c
          (checkFail m f c (ownTokens owned) head (rcFail m f { ctx with yieldTarget := ∅ } owned o)) ∧
        (checkFail m f c (ownTokens owned) head (rcFail m f { ctx with yieldTarget := ∅ } owned o)).scope = c.scope
  | none, _, _, _, _, _ => by
      simp only [rcFail, checkFail]
      exact ⟨Runs.refl, trivial⟩
  | some (e, body), h, hs, he, hE, hl => by
      simp only [ScopedFail] at hs
      simp only [EdgesFail] at he
      simp only [edgesFail] at hE
      simp only [liveFail] at hl ⊢
      simp only [rcFail, checkFail]
      have counted_e : [e].filter (counted f) = [e] := by simp [hs.1]
      have new : e ∉ Γ.landing.refs f := fun hrefs => hs.2.1.2 e (by simp) (Scope.mem_refs.mp hrefs).1
      have ready := h.landing.define (Γ.landing.define (some e)) [e]
        (by simp [Scope.refs_define, countedDst, Option.filter, hs.1]) rfl rfl rfl (by simp)
        (by simpa using new) (show insert e owned ⊆ _ by simp)
      have run := seq_balanced hparam body ready hs.2.2 he hE (by
        intro v hv
        by_cases hve : v = e
        · simp [hve]
        · have := hl (Finset.mem_sdiff.mpr ⟨hv, by simpa using hve⟩)
          simp only [Finset.mem_union, Finset.mem_insert] at this ⊢
          tauto)
      have entry : owned ∪ ([e].filter (counted f)).toFinset = insert e owned := by simp [counted_e]
      obtain ⟨run, scope⟩ := Runs.defining [e] (by rw [entry, counted_e]; exact run)
      refine ⟨run.mono fun i x hx hlive v hv => Finset.mem_sdiff.mpr ⟨hlive hv, ?_⟩, scope⟩
      rw [Finset.mem_singleton]
      rintro rfl
      exact new (h.exit_live hx hv)

theorem option_balanced {E : Finset VarId} (hparam : ∀ v ∈ E, borrowedParam f v = true) {X : Exits} {ctx : RcCtx}
    {Γ : Scope} {owned : Finset VarId} {c : Check} {yieldTo head : Option Nat} :
    (o : Option Seq) → Ready f E X ctx Γ owned c yieldTo head → ScopedOption f Γ o →
      EdgesOption (.counted m f) (SavesCounted m f) ctx.live o → (∀ e ∈ edgesOption o, ∀ v ∈ E, v ∉ e.saved) →
      liveOption (.counted m f) ctx.live o ⊆ owned ∪ E →
      Runs X Γ.labels (liveOption (.counted m f) ctx.live o) c
          (checkOption m f c (ownTokens owned) yieldTo head (rcOption m f ctx owned o)) ∧
        (checkOption m f c (ownTokens owned) yieldTo head (rcOption m f ctx owned o)).scope = c.scope
  | none, _, _, _, _, _ => by
      simp only [rcOption, checkOption]
      exact ⟨Runs.refl, trivial⟩
  | some body, h, hs, he, hE, hl => by
      simp only [ScopedOption] at hs
      simp only [EdgesOption] at he
      simp only [edgesOption] at hE
      simp only [liveOption] at hl ⊢
      simp only [rcOption, checkOption]
      exact (seq_balanced hparam body h hs he hE hl).nested

theorem cases_balanced {E : Finset VarId} (hparam : ∀ v ∈ E, borrowedParam f v = true) {X : Exits} {ctx : RcCtx}
    {Γ : Scope} {owned : Finset VarId} {c : Check} {yieldTo head : Option Nat} :
    (cases : List (CaseKey × Seq)) → Ready f E X ctx Γ owned c yieldTo head → ScopedCases f Γ cases →
      EdgesCases (.counted m f) (SavesCounted m f) ctx.live cases → (∀ e ∈ edgesCases cases, ∀ v ∈ E, v ∉ e.saved) →
      liveCases (.counted m f) ctx.live cases ⊆ owned ∪ E →
      Runs X Γ.labels (liveCases (.counted m f) ctx.live cases) c
          (checkCases m f c (ownTokens owned) yieldTo head (rcCases m f ctx owned cases)) ∧
        (checkCases m f c (ownTokens owned) yieldTo head (rcCases m f ctx owned cases)).scope = c.scope
  | [], _, _, _, _, _ => by
      simp only [rcCases, checkCases]
      exact ⟨Runs.refl, trivial⟩
  | (_, body) :: cases, h, hs, he, hE, hl => by
      simp only [ScopedCases] at hs
      simp only [EdgesCases] at he
      simp only [edgesCases, List.mem_append] at hE
      simp only [liveCases] at hl ⊢
      simp only [rcCases, checkCases]
      obtain ⟨run₁, scope₁⟩ := (seq_balanced hparam body h hs.1 he.1 (fun e he => hE e (.inl he))
        (Finset.subset_union_left.trans hl)).nested
      obtain ⟨run₂, scope₂⟩ := cases_balanced hparam cases (h.runs run₁ scope₁) hs.2 he.2
        (fun e he => hE e (.inr he)) (Finset.subset_union_right.trans hl)
      exact ⟨(run₁.subset Finset.subset_union_left).trans (run₂.subset Finset.subset_union_right),
        scope₂.trans scope₁⟩

end

end Emela.Lir
