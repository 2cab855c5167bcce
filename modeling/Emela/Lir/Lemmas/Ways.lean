import Emela.Lir.Meaning

/-!
# The ways out of code with implicit defects

What holds of the ways out of the parts of a statement holds of the ways out of the statement. Code leaves
by the ways its scope allows: a `break` goes to an enclosing block, a `recur` to an enclosing loop, and a
cleanup is left only at its end or with a defect.
-/

namespace Emela.Lir.Implicit

section
variable {V X S : Type} {P Q : WayOut V X → Prop}

/-- Every way out of the sequence meets `P`. -/
def Exits (P : WayOut V X → Prop) (o : Option (WayOut V X × S)) : Prop := ∀ e s, o = some (e, s) → P e

/-- Every way out of the statement meets `P`. -/
def StepExits (P : WayOut V X → Prop) (o : Option (Step V X × S)) : Prop := ∀ e s, o = some (.exit e, s) → P e

theorem join_exits {o : Option (WayOut V X × S)} (h : Exits P o) (dst : Option VarId) (ρ : Env V)
    {g : WayOut V X → WayOut V X} (hg : ∀ e, P e → Q (g e)) :
    StepExits Q (o.bind fun r => (join dst ρ (g r.1)).map (·, r.2)) := by
  intro e s hs
  simp only [Option.bind_eq_some_iff, Option.map_eq_some_iff, Prod.mk.injEq] at hs
  obtain ⟨⟨e', s'⟩, ho, step, hj, rfl, rfl⟩ := hs
  have he : Q (g e') := hg e' (h e' s' ho)
  unfold join at hj
  split at hj
  · simp at hj
  · cases hj
    exact he

theorem iterate_exits {body : List V → S → Option (WayOut V X × S)} (h : ∀ vs s, Exits P (body vs s))
    (hQ : ∀ e, P e → (∀ vs, e ≠ .recur vs) → Q e) : ∀ n vs s, Exits Q (iterate body n vs s)
  | 0, _, _ => by simp [Exits, iterate]
  | n + 1, vs, s => by
      intro e s' hs
      simp only [iterate, Option.bind_eq_some_iff] at hs
      obtain ⟨⟨e1, s1⟩, hb, hr⟩ := hs
      have h1 := hQ e1 (h vs s e1 s1 hb)
      cases e1 with
      | recur vs' => exact iterate_exits h hQ n vs' s1 e s' hr
      | _ =>
          cases hr
          exact h1 fun _ hc => nomatch hc

end

/-! ## Scopes -/

section
variable {V D : Type}

/-- The way out is one the scope allows. -/
def Allowed (Γ : Scope) : WayOut V D → Prop
  | .yield _ | .raise _ => True
  | .return _ | .fail _ => Γ.leaves = true
  | .break l _ => l ∈ Γ.labels
  | .recur _ => Γ.inLoop = true

theorem Allowed.caught {Γ : Scope} {label : LabelId} {e : WayOut V D} (h : Allowed (Γ.block label) e) :
    Allowed Γ (caught label e) := by
  cases e with
  | «break» l v =>
      simp only [Lir.caught]
      split
      · trivial
      · rename_i hl
        exact (Finset.mem_insert.mp h).resolve_left hl
  | _ => exact h

theorem Allowed.loop {Γ : Scope} {vars : List VarId} {e : WayOut V D} (h : Allowed (Γ.loop vars) e)
    (hr : ∀ vs, e ≠ .recur vs) : Allowed Γ e := by
  cases e with
  | recur vs => exact absurd rfl (hr vs)
  | _ => exact h

/-- The body of a `protect` is left by the ways its surroundings allow, and not by a `recur`. -/
theorem Allowed.protect {Γ : Scope} {e : WayOut V D} (h : Allowed Γ.protect e) :
    Allowed Γ e ∧ ∀ vs, e ≠ .recur vs := by
  cases e with
  | recur vs => cases h
  | _ => exact ⟨h, fun _ hc => nomatch hc⟩

/-- A cleanup is left only at its end, or with a defect. -/
theorem Allowed.cleanup {Γ : Scope} {e : WayOut V D} (h : Allowed Γ.cleanup e) :
    (∃ v, e = .yield v) ∨ ∃ d, e = .raise d := by
  cases e with
  | yield v => exact .inl ⟨v, rfl⟩
  | raise d => exact .inr ⟨d, rfl⟩
  | «break» l v => exact absurd h (Finset.notMem_empty l)
  | _ => cases h

end

section
variable {α W D : Type} (R : Runtime α W D) (calls : Calls α W D) (fuel : Nat)

theorem settle_allowed {Γ : Scope} {w : W} {e c e' : WayOut (Val α D) D} (he : Allowed Γ e)
    (h : settle R w e c = some e') : Allowed Γ e' := by
  cases c with
  | yield v =>
      cases h
      exact he
  | raise d =>
      simp only [settle, Option.some.injEq] at h
      subst h
      split <;> trivial
  | _ => cases h

mutual

theorem exits_seq : ∀ {Γ : Scope} (q : Seq) (_ : ScopedSeq Γ q) (ρ : Env (Val α D)) (w : W),
    Exits (Allowed Γ) (runSeq R calls fuel q ρ w)
  | _, .mk stmts term, h, ρ, w => exits_stmts term stmts h ρ w

theorem exits_stmts (term : Term) : ∀ {Γ : Scope} (stmts : List Stmt) (_ : ScopedStmts Γ term stmts)
    (ρ : Env (Val α D)) (w : W), Exits (Allowed Γ) (runStmts R calls fuel term stmts ρ w)
  | _, [], h, ρ, w => by
      intro e w' hr
      obtain ⟨-, h⟩ := h
      cases term <;> simp only [runStmts, runTerm, Option.map_some, Option.map_none, Option.some.injEq, Prod.mk.injEq,
        reduceCtorEq] at hr
      all_goals obtain ⟨rfl, -⟩ := hr; exact h
  | Γ, s :: stmts, h, ρ, w => by
      have hs := exits_stmt s h.1
      have hrest := exits_stmts term stmts h.2
      intro e w' hr
      simp only [runStmts, Option.bind_eq_some_iff] at hr
      obtain ⟨⟨step, w1⟩, h1, hr⟩ := hr
      cases step with
      | next ρ1 => exact hrest ρ1 w1 e w' hr
      | exit e1 =>
          cases hr
          exact hs ρ w e w' h1

theorem exits_stmt : ∀ {Γ : Scope} (s : Stmt) (_ : ScopedStmt Γ s) (ρ : Env (Val α D)) (w : W),
    StepExits (Allowed Γ) (runStmt R calls fuel s ρ w)
  | _, .let dst v onFail, h, ρ, w => by
      intro e w' hr
      simp only [runStmt, runLet, Option.bind_eq_some_iff] at hr
      obtain ⟨⟨out, w1⟩, -, hr⟩ := hr
      cases out with
      | value x => simp at hr
      | fail error =>
          simp only [Option.map_eq_some_iff, Prod.mk.injEq, Step.exit.injEq] at hr
          obtain ⟨edge, hedge, rfl, -⟩ := hr
          have hfail := h.2.2 edge hedge
          cases edge <;> exact hfail
      | defect d =>
          cases hr
          trivial
  | _, .if dst cond then_ else_, h, ρ, w => by
      have hthen := exits_seq then_ h.2.1 ρ w
      have helse := exits_seq else_ h.2.2 ρ w
      intro e w' hr
      simp only [runStmt, Option.bind_eq_some_iff] at hr
      obtain ⟨c, -, hr⟩ := hr
      cases c with
      | true => exact join_exits (g := id) hthen dst ρ (fun _ he => he) e w' (Option.bind_eq_some_iff.mpr hr)
      | false => exact join_exits (g := id) helse dst ρ (fun _ he => he) e w' (Option.bind_eq_some_iff.mpr hr)
  | _, .switch dst on cases default, h, ρ, w =>
      join_exits (g := id) (exits_cases _ (fun ρ w => exits_option default h.2.2 ρ w) cases h.2.1 ρ w) dst ρ
        fun _ he => he
  | Γ, .loop dst vars inits body, h, ρ, w => by
      have hbody : ∀ vs w, Exits (Allowed (Γ.loop vars)) ((defineAll ρ vars vs).bind fun ρ => runSeq R calls fuel body ρ w) := by
        intro vs w e w' hr
        obtain ⟨ρ1, -, hr⟩ := Option.bind_eq_some_iff.mp hr
        exact exits_seq body h.2 ρ1 w e w' hr
      exact join_exits (g := id) (iterate_exits hbody (fun _ => Allowed.loop) fuel _ w) dst ρ fun _ he => he
  | _, .block dst label body, h, ρ, w => join_exits (exits_seq body h ρ w) dst ρ fun _ => Allowed.caught
  | Γ, .protect dst body cleanup, h, ρ, w => by
      have hbody := exits_seq body h.1 ρ
      intro e w' hr
      simp only [runStmt, Option.bind_eq_some_iff] at hr
      obtain ⟨⟨e1, w1⟩, h1, ⟨c, w2⟩, -, e2, h2, hr⟩ := hr
      have he2 : Exits (Allowed Γ) (some (e2, w2)) := fun e s hs => by
        cases hs
        exact settle_allowed R (hbody w e1 w1 h1).protect.1 h2
      exact join_exits (g := id) he2 dst ρ (fun _ he => he) e w' hr

theorem exits_cases {Γ : Scope} (x : Val α D) {otherwise : Env (Val α D) → W → Option (WayOut (Val α D) D × W)}
    (ho : ∀ ρ w, Exits (Allowed Γ) (otherwise ρ w)) :
    ∀ (cases : List (CaseKey × Seq)) (_ : ScopedCases Γ cases) (ρ : Env (Val α D)) (w : W),
      Exits (Allowed Γ) (runCases R calls fuel x otherwise cases ρ w)
  | [], _, ρ, w => ho ρ w
  | (key, body) :: cases, h, ρ, w => by
      have hbody := exits_seq body h.1 ρ w
      have hcases := exits_cases x ho cases h.2 ρ w
      unfold runCases
      split
      · exact hbody
      · exact hcases

theorem exits_option : ∀ {Γ : Scope} (q : Option Seq) (_ : ScopedOption Γ q) (ρ : Env (Val α D)) (w : W),
    Exits (Allowed Γ) (runOption R calls fuel q ρ w)
  | _, none, _, _, _ => by simp [Exits, runOption]
  | _, some body, h, ρ, w => exits_seq body h ρ w

end

end

end Emela.Lir.Implicit
