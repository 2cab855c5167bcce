import Emela.Lir.Lemmas.Balance

/-!
# Reference counting is balanced

The module that `insertRc` makes passes the balance check, and is the module before it but for the
`dup` and `drop` statements.
-/

namespace Emela.Lir

variable {m : Module} {f : Function}

/-! ## The module before and after -/

theorem isExternal_insertRc (m : Module) (g : FnId) : isExternal (insertRc m) g = isExternal m g := by
  simp only [isExternal, insertRc, List.getElem?_map, Option.map_map]
  rfl

theorem valueUses_insertRc (m : Module) (f : Function) (b : Option Seq) (v : Value) :
    valueUses (insertRc m) { f with body := b } v = valueUses m f v := by
  cases v with
  | call callee args suspends =>
      cases callee with
      | direct g =>
          simp only [valueUses, isExternal_insertRc]
          rfl
      | indirect | op => rfl
  | builtin op args => cases op <;> rfl
  | runtime op args => cases op <;> rfl
  | _ => rfl

theorem check_insertRc (m : Module) (f : Function) (body : Seq) :
    check (insertRc m) { f with body := some body } =
      (checkSeq m f (Check.start f) (paramTokens f) [] none none body).errors := by
  have hc : consumed (insertRc m) { f with body := some body } = consumed m f := by
    funext v
    simp only [consumed, valueUses_insertRc]
  have hb : borrowed (insertRc m) { f with body := some body } = borrowed m f := by
    funext v
    simp only [borrowed, valueUses_insertRc]
  simp only [check, checkSeq_congr hc hb]
  rfl

/-! ## The start of a function -/

/-- The environment while it is borrowed: it is used, and the function does not own it. -/
def borrowedEnv (m : Module) (f : Function) (body : Seq) : Finset VarId :=
  (liveSeq (.counted m f) .start body).filter fun v => borrowedParam f v = true ∧ ownedEnv m f body ≠ some v

theorem start_within {V : Finset VarId} : LiveCtx.start.Within V :=
  ⟨Finset.empty_subset _, Finset.empty_subset _, fun _ => Finset.empty_subset _⟩

theorem start_refs : LiveCtx.start.refs f = .start := by simp [LiveCtx.refs, LiveCtx.start, refs]

section
variable {body : Seq}

theorem ownedEnv_eq_some {v : VarId} :
    ownedEnv m f body = some v ↔ borrowedParam f v = true ∧ f.params.head? = some v ∧
      v ∈ liveSeq (.counted m f) .start body ∧ ∃ e ∈ edgesSeq body, v ∈ e.saved := by
  simp only [ownedEnv, Option.filter_eq_some_iff, Bool.and_eq_true, decide_eq_true_eq, List.any_eq_true,
    List.contains_iff_mem]
  tauto

theorem mem_ownedParams {v : VarId} :
    v ∈ ownedParams m f body ↔
      (v ∈ f.params ∧ counted f v = true ∧ borrowedParam f v = false) ∨ ownedEnv m f body = some v := by
  simp [ownedParams]

theorem head_of_borrowedParam {v : VarId} (h : borrowedParam f v = true) : f.params.head? = some v := by
  simp only [borrowedParam, Bool.and_eq_true, beq_iff_eq] at h
  exact h.2

/-- A borrowed environment is in no frame. -/
theorem borrowedEnv_not_saved : ∀ e ∈ edgesSeq body, ∀ v ∈ borrowedEnv m f body, v ∉ e.saved := by
  intro e he v hv hsaved
  simp only [borrowedEnv, Finset.mem_filter] at hv
  exact hv.2.2 (ownedEnv_eq_some.mpr ⟨hv.2.1, head_of_borrowedParam hv.2.1, hv.1, e, he, hsaved⟩)

/-- The start of a function: the scope, and one reference for each parameter but a borrowed one. -/
theorem start_ready (hp : f.params.Nodup) (hs : ScopedSeq f ⟨f.params.toFinset, ∅, false, false⟩ body) :
    Ready f (borrowedEnv m f body) (fun _ => none) .start ⟨f.params.toFinset, ∅, false, false⟩
      (ownedParams m f body) (Check.start f) none none := by
  have within := liveSeq_within (m := m) start_within body hs
  refine
    { yields := by simp
      loops := by simp
      labels := by simp
      exits := by simp
      within := start_within
      nodup := hp.filter _
      scope := ?_
      inScope := ?_
      exact := ⟨Finset.empty_subset _, Finset.empty_subset _, by simp, by simp [RcCtx.start, LiveCtx.start]⟩
      env := (Finset.filter_subset _ _).trans within
      apart := ?_ }
  · ext v
    simp [Check.start, Scope.mem_refs]
  · intro v hv
    rcases mem_ownedParams.mp hv with ⟨hv, hc, -⟩ | hv
    · exact Scope.mem_refs.mpr ⟨List.mem_toFinset.mpr hv, hc⟩
    · exact within (ownedEnv_eq_some.mp hv).2.2.1
  · refine Finset.disjoint_left.mpr fun v hv he => ?_
    simp only [borrowedEnv, Finset.mem_filter] at he
    rcases mem_ownedParams.mp hv with ⟨-, -, hb⟩ | hv
    · simp [hb] at he
    · exact he.2.2 hv

theorem start_live (hs : ScopedSeq f ⟨f.params.toFinset, ∅, false, false⟩ body) :
    liveSeq (.counted m f) .start body ⊆ ownedParams m f body ∪ borrowedEnv m f body := by
  intro v hv
  have hrefs := Scope.mem_refs.mp (liveSeq_within start_within body hs hv)
  simp only [Finset.mem_union, mem_ownedParams, borrowedEnv, Finset.mem_filter]
  have : v ∈ f.params := by simpa using hrefs.1
  cases hb : borrowedParam f v <;> simp_all
  tauto

/-- The `dup` at the start makes the environment owned. -/
theorem start_tokens :
    checkStmts m f (Check.start f) (paramTokens f) none ((ownedEnv m f body).toList.map .dup) =
      (some (ownTokens (ownedParams m f body)), Check.start f) := by
  rw [checkStmts_dups]
  congr 2
  funext v
  by_cases henv : ownedEnv m f body = some v
  · have hb := (ownedEnv_eq_some.mp henv).1
    rw [ownTokens_of_mem (mem_ownedParams.mpr (.inr henv)), henv]
    simp [paramTokens, hb]
  · have count : (ownedEnv m f body).toList.count v = 0 :=
      List.count_eq_zero_of_not_mem fun hv => henv (Option.mem_toList.mp hv)
    rw [count, Nat.add_zero]
    simp [paramTokens, ownTokens, mem_ownedParams, henv]

end

theorem rcBody_balanced {body : Seq} (hp : f.params.Nodup)
    (hs : ScopedSeq f ⟨f.params.toFinset, ∅, false, false⟩ body)
    (he : EdgesSeq .all (SavesExactly m f) .start body) :
    (checkSeq m f (Check.start f) (paramTokens f) [] none none (rcBody m f body)).errors = [] := by
  have edges := (refs_liveSeq body hs he).2
  rw [start_refs] at edges
  have run := seq_balanced (fun v hv => (Finset.mem_filter.mp hv).2.1) body (start_ready hp hs) hs edges
    borrowedEnv_not_saved (start_live hs)
  rw [rcBody]
  rcases hrc : rcSeq m f .start (ownedParams m f body) body with ⟨stmts, term⟩
  rw [hrc] at run
  simp only [consStmts, checkSeq, Check.defineAll, List.foldl_nil, checkStmts_append _ _ _ (List.map _ _),
    start_tokens]
  exact run.errors

theorem eraseSeq_rcBody {body : Seq} {Γ : Scope} (hs : ScopedSeq f Γ body) : eraseSeq (rcBody m f body) = body := by
  have erased : eraseSeq (rcSeq m f .start (ownedParams m f body) body) = body := eraseSeq_rcSeq body hs
  rw [rcBody]
  rcases hrc : rcSeq m f .start (ownedParams m f body) body with ⟨stmts, term⟩
  rw [hrc] at erased
  simpa only [consStmts, eraseSeq, eraseStmts_append, eraseStmts_dups, List.nil_append] using erased

/-- A module the verifier accepts, with the suspension edges of the state machines, is balanced once
`dup` and `drop` are inserted, and they are all that is inserted. -/
theorem insertRc_balanced (m : Module) (accepted : Accepted m) (suspended : Suspended m) :
    (∀ f ∈ (insertRc m).functions, check (insertRc m) f = []) ∧ eraseRc (insertRc m) = m := by
  constructor
  · intro f hf
    obtain ⟨g, hg, rfl⟩ := List.mem_map.mp hf
    cases hb : g.body with
    | none => simp [check]
    | some body =>
        have verified := accepted g hg body hb
        simp only [Option.map_some, check_insertRc]
        exact rcBody_balanced verified.params verified.inScope (suspended g hg body hb)
  · have same : ∀ f ∈ m.functions,
        { f with body := (f.body.map (rcBody m f)).map eraseSeq } = f := by
      intro f hf
      cases hb : f.body with
      | none => rw [Option.map_none, Option.map_none, ← hb]
      | some body =>
          rw [Option.map_some, Option.map_some, eraseSeq_rcBody (accepted f hf body hb).inScope, ← hb]
    rcases m with ⟨functions⟩
    simp only [eraseRc, insertRc, List.map_map, Module.mk.injEq]
    exact (List.map_congr_left same).trans (List.map_id _)

/-- `f(x, y)` calls `g(x)`, which may suspend, and returns the result with `y`; the frame of the call
holds `saved`. -/
def pairWith (saved : List VarId) : Function where
  name := "f"
  params := [0, 1]
  suspends := true
  external := false
  env := false
  body := some (.mk
    [.let (some 2) (.call (.direct 1) [.var 0] true) none none (some ⟨0, saved⟩),
     .let (some 3) (.tuple [.var 2, .var 1]) none none none]
    (.return (some (.var 3))))
  vars := [⟨"x", .ref⟩, ⟨"y", .ref⟩, ⟨"r", .ref⟩, ⟨"pair", .ref⟩]

def passOn : Function where
  name := "g"
  params := [0]
  suspends := true
  external := false
  env := false
  body := some (.mk [] (.return (some (.var 0))))
  vars := [⟨"x", .ref⟩]

def callAndPair (saved : List VarId) : Module := ⟨[pairWith saved, passOn]⟩

theorem savedVars_pairWith (saved : List VarId) (live : Finset VarId) :
    savedVars (callAndPair saved) (pairWith saved) live (.call (.direct 1) [.var 0] true) = live := by
  have : borrowed (callAndPair saved) (pairWith saved) (.call (.direct 1) [.var 0] true) = [] := rfl
  simp [savedVars, this]

theorem callAndPair_accepted (saved : List VarId) (h : 1 ∈ saved) (hs : ∀ v ∈ saved, v = 0 ∨ v = 1) :
    Accepted (callAndPair saved) := by
  intro f hf body hb
  simp only [callAndPair, List.mem_cons, List.not_mem_nil, or_false] at hf
  rcases hf with rfl | rfl <;> obtain rfl := Option.some.inj hb
  · refine ⟨by simp [pairWith], ?_, ?_⟩
    · simpa [pairWith, ScopedSeq, ScopedStmts, ScopedStmt, ScopedTerm, ScopedFail, ScopedOption, Scope.has,
        Scope.fresh, Scope.define, Value.vars, Operand.var?, Stmt.dst, termOperands] using hs
    · have needed : ({2, 1} : Finset VarId) \ {2} = {1} := by decide
      simpa [EdgesSeq, EdgesStmts, EdgesStmt, EdgesFail, EdgesOption, SavesNeeded, savedVars_pairWith, liveStmts,
        liveStmt, liveTerm, liveFail, liveOption, Uses.all, Value.vars, Operand.var?, eraseDst, termOperands,
        needed] using h
  · refine ⟨by simp [passOn], ?_, ?_⟩
    · simp [passOn, ScopedSeq, ScopedStmts, ScopedTerm, Scope.has, Operand.var?, termOperands]
    · simp [EdgesSeq, EdgesStmts]

theorem callAndPair_suspended : Suspended (callAndPair [1]) := by
  intro f hf body hb
  simp only [callAndPair, List.mem_cons, List.not_mem_nil, or_false] at hf
  rcases hf with rfl | rfl <;> obtain rfl := Option.some.inj hb
  · have needed : ({1} : Finset VarId) = {2, 1} \ {2} := by decide
    simpa [EdgesSeq, EdgesStmts, EdgesStmt, EdgesFail, EdgesOption, SavesExactly, savedVars_pairWith, liveStmts,
      liveStmt, liveTerm, liveFail, liveOption, Uses.all, Value.vars, Operand.var?, eraseDst, termOperands]
      using needed
  · simp [EdgesSeq, EdgesStmts]

theorem insertRc_balanced_pair :
    (Accepted (callAndPair [1]) ∧ Suspended (callAndPair [1])) ∧
      (∀ f ∈ (insertRc (callAndPair [1])).functions, check (insertRc (callAndPair [1])) f = []) ∧
      eraseRc (insertRc (callAndPair [1])) = callAndPair [1] := by
  have accepted : Accepted (callAndPair [1]) := callAndPair_accepted [1] (by simp) (by simp)
  exact ⟨⟨accepted, callAndPair_suspended⟩, insertRc_balanced _ accepted callAndPair_suspended⟩

/-- The verifier also accepts an edge that saves more than is needed after it: here `x`, whose only
reference the call consumes. -/
theorem insertRc_unbalanced :
    Accepted (callAndPair [0, 1]) ∧
      ¬ ∀ f ∈ (insertRc (callAndPair [0, 1])).functions, check (insertRc (callAndPair [0, 1])) f = [] := by
  refine ⟨callAndPair_accepted [0, 1] (by simp) (by simp), fun balanced => ?_⟩
  have messages : (insertRc (callAndPair [0, 1])).functions.map (check (insertRc (callAndPair [0, 1]))) =
      [["a suspension edge saves x%0, which owns no reference"], []] := by decide +kernel
  rw [List.map_congr_left balanced] at messages
  simp [insertRc, callAndPair] at messages

end Emela.Lir
