import Emela.Syntax.Lemmas.Expressions

/-!
# A grouped tree is read back

Every tree that groups by power, with nothing after its anonymous functions, is what the parser makes of its tokens.
So there is one such tree for a sequence of tokens.
-/

namespace Emela.Syntax

open Syntax.Tree

variable {α : Type}

/-! ## A greater depth changes nothing -/

/-- What the first run returns the second returns. -/
def Within {β : Type} (x y : Option β) : Prop := ∀ r, x = some r → y = some r

theorem Within.refl {β : Type} (x : Option β) : Within x x := fun _ h => h

theorem Within.bind {β γ : Type} {x y : Option β} {f g : β → Option γ} (h : Within x y) (hf : ∀ b, Within (f b) (g b)) :
    Within (x.bind f) (y.bind g) := by
  intro r hr
  obtain ⟨b, hb, hr⟩ := Option.bind_eq_some_iff.mp hr
  rw [h b hb]
  exact hf b r hr

structure Deeper (α : Type) (n : Nat) : Prop where
  expr : ∀ p : Parser α, Within (expr n p) (expr (n + 1) p)
  exprBp : ∀ (min : Nat) (p : Parser α), Within (exprBp n min p) (exprBp (n + 1) min p)
  binLoop : ∀ (min : Nat) (lhs : Tree α) (after : Bool) (p : Parser α),
    Within (binLoop n min lhs after p) (binLoop (n + 1) min lhs after p)
  unary : ∀ p : Parser α, Within (unary n p) (unary (n + 1) p)
  primary : ∀ p : Parser α, Within (primary n p) (primary (n + 1) p)

section
variable {n : Nat}

theorem Deeper.expr_succ (ih : Deeper α n) (p : Parser α) : Within (Syntax.expr (n + 1) p) (Syntax.expr (n + 2) p) := by
  rw [Syntax.expr, Syntax.expr]
  split
  · exact (ih.expr _).bind fun _ => .refl _
  · exact (ih.exprBp _ _).bind fun _ => .refl _

theorem Deeper.exprBp_succ (ih : Deeper α n) (min : Nat) (p : Parser α) :
    Within (Syntax.exprBp (n + 1) min p) (Syntax.exprBp (n + 2) min p) := by
  rw [Syntax.exprBp, Syntax.exprBp]
  refine (ih.unary _).bind fun r => ?_
  dsimp only
  split
  · exact .refl _
  · exact ih.binLoop _ _ _ _

theorem Deeper.binLoop_succ (ih : Deeper α n) (min : Nat) (lhs : Tree α) (after : Bool) (p : Parser α) :
    Within (Syntax.binLoop (n + 1) min lhs after p) (Syntax.binLoop (n + 2) min lhs after p) := by
  rw [Syntax.binLoop, Syntax.binLoop]
  split
  · split
    · exact .refl _
    · exact (ih.exprBp _ _).bind fun _ => ih.binLoop _ _ _ _
  · exact .refl _

theorem Deeper.unary_succ (ih : Deeper α n) (p : Parser α) : Within (Syntax.unary (n + 1) p) (Syntax.unary (n + 2) p) := by
  rw [Syntax.unary, Syntax.unary]
  split
  · exact (ih.expr _).bind fun _ => .refl _
  · exact (ih.expr _).bind fun _ => .refl _
  · exact (ih.unary _).bind fun _ => .refl _
  · exact (ih.unary _).bind fun _ => .refl _
  · exact ih.primary _

theorem Deeper.primary_succ (ih : Deeper α n) (p : Parser α) :
    Within (Syntax.primary (n + 1) p) (Syntax.primary (n + 2) p) := by
  rw [Syntax.primary, Syntax.primary]
  split
  · exact .refl _
  · exact .refl _
  · exact (ih.expr _).bind fun _ => .refl _
  · exact .refl _

end

theorem deeper (α : Type) (n : Nat) : Deeper α n := by
  induction n with
  | zero =>
    constructor
    · intro _ _ h
      cases h
    · intro _ _ _ h
      cases h
    · intro _ _ _ _ _ h
      cases h
    · intro _ _ h
      cases h
    · intro _ _ h
      cases h
  | succ n ih => exact ⟨ih.expr_succ, ih.exprBp_succ, ih.binLoop_succ, ih.unary_succ, ih.primary_succ⟩

/-- The run returns `r` at some depth, and then at every greater one. -/
def Gives {β : Type} (run : Nat → Option β) (r : β) : Prop := ∃ n, run n = some r

theorem within_of_le {β : Type} {run : Nat → Option β} (h : ∀ n, Within (run n) (run (n + 1))) {n m : Nat} (hle : n ≤ m) :
    Within (run n) (run m) := by
  induction hle with
  | refl => exact .refl _
  | step _ ih => exact fun r hr => h _ r (ih r hr)

theorem Gives.unique {β : Type} {run : Nat → Option β} (h : ∀ n, Within (run n) (run (n + 1))) {r r' : β}
    (hr : Gives run r) (hr' : Gives run r') : r = r' := by
  obtain ⟨n, hn⟩ := hr
  obtain ⟨m, hm⟩ := hr'
  have h₁ := within_of_le h (Nat.le_max_left n m) r hn
  have h₂ := within_of_le h (Nat.le_max_right n m) r' hm
  exact Option.some.inj (h₁.symm.trans h₂)

/-- Two runs have a depth at which both return. -/
theorem Gives.both {β γ : Type} {run : Nat → Option β} {run' : Nat → Option γ} (h : ∀ n, Within (run n) (run (n + 1)))
    (h' : ∀ n, Within (run' n) (run' (n + 1))) {r : β} {r' : γ} (hr : Gives run r) (hr' : Gives run' r') :
    ∃ n, run n = some r ∧ run' n = some r' := by
  obtain ⟨n, hn⟩ := hr
  obtain ⟨m, hm⟩ := hr'
  exact ⟨max n m, within_of_le h (Nat.le_max_left n m) r hn, within_of_le h' (Nat.le_max_right n m) r' hm⟩

/-! ## Reading back -/

/-- The operators on the way to the last operand. -/
def Tree.spine : Tree α → List Operator
  | binExpr _ k r => k :: r.spine
  | _ => []

theorem Tree.Grouped.le_spine {t : Tree α} (h : t.Grouped) {k : Operator} (hk : t.top = some k) :
    ∀ k' ∈ t.spine, infixPower k ≤ infixPower k' := by
  induction t generalizing k with
  | binExpr l k₁ r _ ihr =>
    obtain ⟨-, hr, -, hgr⟩ := h
    cases hk
    intro k' hk'
    rcases List.mem_cons.mp hk' with rfl | hk'
    · exact Nat.le_refl _
    · cases htop : r.top with
      | none =>
        cases r <;> simp_all [Tree.top, Tree.spine]
      | some k₂ =>
        have := hr k₂ htop
        have := ihr hgr htop k' hk'
        omega
  | _ => cases hk

/-- What may follow the tree: an operator that does not take its last operand, and nothing that an anonymous function
at its end would take. -/
structure Fits (t : Tree α) (ts : List (Token α)) : Prop where
  op : ∀ k rest, ts = .op k :: rest → ∀ k' ∈ t.spine, infixPower k ≤ infixPower k'
  lambda : t.endsInLambda = true → NoOperator ts ∧ NoArms ts

/-- How a tree of each level is read back. -/
def ReadBack (t : Tree α) : Level → Prop
  | .operand => t.top = none ∧ ∀ ts errors, (t.endsInLambda = true → NoOperator ts ∧ NoArms ts) →
      Gives (unary · ⟨t.tokens ++ ts, errors⟩) (t, ⟨ts, errors ++ t.reports⟩)
  | .operators => ∀ min ts errors, (∀ k ∈ t.top, min ≤ infixPower k) → Fits t ts → ∀ r,
      Gives (binLoop · min t t.comparison ⟨ts, errors ++ t.reports⟩) r → Gives (exprBp · min ⟨t.tokens ++ ts, errors⟩) r
  | .arms => ∀ ts errors, NoOperator ts → (t.endsInLambda = true → NoArms ts) →
      Gives (expr · ⟨t.tokens ++ ts, errors⟩) (armsLoop t ts (errors ++ t.reports))
  | .expression => ∀ ts errors, NoOperator ts → NoArms ts →
      Gives (expr · ⟨t.tokens ++ ts, errors⟩) (t, ⟨ts, errors ++ t.reports⟩)

/-- What starts with an operand starts with no keyword. -/
theorem Tree.Is.not_keyword {t : Tree α} {level : Level} (h : t.Is level) (hlevel : level ≠ .expression) (k : Keyword)
    (rest ts : List (Token α)) : t.tokens ++ ts ≠ .keyword k :: rest := by
  induction h generalizing ts with
  | @prefixExpr op _ _ _ => cases op <;> exact fun h => by cases h
  | @lambdaExpr ps _ _ _ => cases ps <;> exact fun h => by cases h
  | single _ ih => exact ih (by decide) ts
  | binExpr _ _ ihl _ =>
    rw [Tree.tokens, List.append_assoc]
    exact ihl (by decide) _
  | operators _ ih => exact ih (by decide) ts
  | armsExpr _ ih =>
    rw [Tree.tokens, List.append_assoc]
    exact ih (by decide) _
  | expression => exact absurd rfl hlevel
  | keywordExpr => exact absurd rfl hlevel
  | _ => exact fun h => by cases h

theorem expr_eq_operators {n : Nat} {p : Parser α} (h : ∀ k rest, p.tokens ≠ .keyword k :: rest) :
    expr (n + 1) p = (exprBp n 0 p).bind fun (lhs, p) => match lhs with
      | .missing => some (.missing, p)
      | lhs => some (armsLoop lhs p.tokens p.errors) := by
  rw [expr]
  split
  · next h' => exact absurd h' (h _ _)
  · rfl

/-- A loop that stops at once. -/
theorem binLoop_stop {n min : Nat} {lhs : Tree α} {after : Bool} {p : Parser α}
    (h : ∀ k rest, p.tokens = .op k :: rest → infixPower k < min) : binLoop (n + 1) min lhs after p = some (lhs, p) := by
  rw [binLoop]
  split
  · next k rest hk => rw [if_pos (h k rest hk)]
  · rfl

theorem gives_operand {t : Tree α} {p p' : Parser α} (h : Gives (unary · p) (t, p')) (hne : t ≠ .missing) {min : Nat}
    {r : Tree α × Parser α} (hr : Gives (binLoop · min t false p') r) : Gives (exprBp · min p) r := by
  obtain ⟨n, hn, hn'⟩ := Gives.both (fun n => (deeper α n).unary p) (fun n => (deeper α n).binLoop min t false p') h hr
  refine ⟨n + 1, ?_⟩
  dsimp only at hn hn' ⊢
  rw [exprBp, hn, Option.bind_eq_bind, Option.bind_some]
  dsimp only
  split
  · exact absurd rfl hne
  · exact hn'

theorem gives_expr {t : Tree α} {p p' : Parser α} (hkeyword : ∀ k rest, p.tokens ≠ .keyword k :: rest)
    (h : Gives (exprBp · 0 p) (t, p')) (hne : t ≠ .missing) : Gives (expr · p) (armsLoop t p'.tokens p'.errors) := by
  obtain ⟨n, hn⟩ := h
  refine ⟨n + 1, ?_⟩
  dsimp only at hn ⊢
  rw [expr_eq_operators hkeyword, hn, Option.bind_some]
  dsimp only
  split
  · exact absurd rfl hne
  · rfl

theorem readBack {t : Tree α} {level : Level} (h : t.Is level) (hgrouped : t.Grouped) (hlast : t.LambdasLast) :
    ReadBack t level := by
  induction h with
  | operand => exact ⟨rfl, fun ts errors _ => ⟨2, by simp [unary, primary, Tree.tokens, Tree.reports]⟩⟩
  | block => exact ⟨rfl, fun ts errors _ => ⟨2, by simp [unary, primary, Tree.tokens, Tree.reports]⟩⟩
  | @prefixExpr op t _ ih =>
    refine ⟨rfl, fun ts errors hend => ?_⟩
    obtain ⟨n, hn⟩ := (ih hgrouped hlast).2 ts errors hend
    refine ⟨n + 1, ?_⟩
    cases op <;> simp [unary, Tree.tokens, prefixToken, hn, Tree.reports]
  | @lambdaExpr ps t _ ih =>
    refine ⟨rfl, fun ts errors hend => ?_⟩
    obtain ⟨n, hn⟩ := ih hgrouped hlast ts errors (hend rfl).1 (hend rfl).2
    refine ⟨n + 1, ?_⟩
    cases ps <;> simp [unary, Tree.tokens, paramsToken, hn, Tree.reports]
  | @single t his ih =>
    intro min ts errors _ hfits r hr
    obtain ⟨htop, hread⟩ := ih hgrouped hlast
    have hcomparison : t.comparison = false := by rw [Tree.comparison, htop]; rfl
    rw [hcomparison] at hr
    exact gives_operand (hread ts errors hfits.lambda) his.ne_missing hr
  | @binExpr l k r hl hr ihl ihr =>
    intro min ts errors hmin hfits res hres
    obtain ⟨hgl, hgr, hgroupedl, hgroupedr⟩ := hgrouped
    obtain ⟨hlambda, hlastl, hlastr⟩ := hlast
    have hmink := hmin k rfl
    rw [Tree.tokens, List.append_assoc, List.cons_append]
    apply ihl hgroupedl hlastl
    · exact fun k' hk' => Nat.le_trans hmink (hgl k' hk')
    · refine ⟨fun k₁ rest h k' hk' => ?_, fun h => absurd h (by simp [hlambda])⟩
      cases h
      cases htop : l.top with
      | none => cases l <;> simp_all [Tree.top, Tree.spine]
      | some k₂ => exact Nat.le_trans (hgl k₂ htop) (hgroupedl.le_spine htop k' hk')
    · -- the right operand ends where the loop goes on
      have hright := ihr hgroupedr hlastr (infixPower k + 1) ts
        (errors ++ l.reports ++ if isComparison k && l.comparison then [.chainedComparison] else []) (fun k' hk' => hgr k' hk')
        ⟨fun k₁ rest h k' hk' => hfits.op k₁ rest h k' (List.mem_cons_of_mem _ hk'), hfits.lambda⟩ _
        ⟨1, binLoop_stop fun k₁ rest h => Nat.lt_succ_of_le (hfits.op k₁ rest h k List.mem_cons_self)⟩
      obtain ⟨n, hn, hn'⟩ := Gives.both (fun n => (deeper α n).exprBp _ _) (fun n => (deeper α n).binLoop _ _ _ _) hright hres
      refine ⟨n + 1, ?_⟩
      dsimp only at hn hn' ⊢
      rw [binLoop]
      dsimp only
      have hcomparison : (Tree.binExpr l k r).comparison = isComparison k := rfl
      rw [hcomparison] at hn'
      rw [if_neg (by omega), hn]
      simpa [Tree.reports] using hn'
  | @operators t his ih =>
    intro ts errors hop harms
    have hrun := ih hgrouped hlast 0 ts errors (fun _ _ => Nat.zero_le _)
      ⟨fun k rest h => absurd h (hop k rest), fun h => ⟨hop, harms h⟩⟩ _ ⟨1, binLoop_stop fun k rest h => absurd h (hop k rest)⟩
    exact gives_expr (fun k rest => his.not_keyword (by decide) k rest ts) hrun his.ne_missing
  | @armsExpr k t a his ih =>
    intro ts errors hop harms
    rw [Tree.tokens, List.append_assoc]
    have hrun := ih hgrouped hlast.2 (.arms k :: .braces a :: ts) errors (fun _ _ h => by cases h)
      fun h => absurd h (by simp [hlast.1])
    exact hrun
  | @expression t his ih =>
    intro ts errors hop harms
    have hrun := ih hgrouped hlast ts errors hop fun _ => harms
    rwa [armsLoop_noArms harms] at hrun
  | @keywordExpr k t _ ih =>
    intro ts errors hop harms
    obtain ⟨n, hn⟩ := ih hgrouped hlast ts errors hop harms
    refine ⟨n + 1, ?_⟩
    simp [expr, Tree.tokens, hn, Tree.reports]

end Emela.Syntax
