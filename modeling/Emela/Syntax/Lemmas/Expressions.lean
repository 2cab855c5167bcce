import Emela.Syntax.Expressions

/-!
# What the parser returns

For a sequence of operands and operators the result of each function of the parser is a tree of its level that spells
the tokens read. The step lemma is by induction on the depth, for the five functions together.
-/

namespace Emela.Syntax

open Syntax.Tree

variable {α : Type}

/-! ## Sequences -/

/-- What the parser is about to read, or has read. -/
inductive Mode where
  | operand | body | have | after

/-- No binary operator follows. -/
def NoOperator (ts : List (Token α)) : Prop := ∀ k rest, ts ≠ .op k :: rest

/-- Neither `escape` nor `match` follows. -/
def NoArms (ts : List (Token α)) : Prop := ∀ k rest, ts ≠ .arms k :: rest

/-- The tokens are a sequence of operands and operators, followed by `rest`, at a place inside `d` anonymous functions
whose bodies can still go on. -/
inductive Reads (rest : List (Token α)) : Nat → Mode → List (Token α) → Prop where
  | operand {d a ts} : Reads rest d .have ts → Reads rest d .operand (.operand a :: ts)
  | block {d a ts} : Reads rest d .have ts → Reads rest d .operand (.braces a :: ts)
  | prefixOp {d op ts} : Reads rest d .operand ts → Reads rest d .operand (prefixToken op :: ts)
  | lambda {d ps ts} : Reads rest (d + 1) .body ts → Reads rest d .operand (paramsToken ps :: ts)
  | keyword {d k ts} : Reads rest d .body ts → Reads rest d .body (.keyword k :: ts)
  | body {d ts} : Reads rest d .operand ts → Reads rest d .body ts
  | op {d k ts} : Reads rest d .operand ts → Reads rest d .have (.op k :: ts)
  | arms {d k a ts} : Reads rest (d + 1) .after ts → Reads rest (d + 1) .have (.arms k :: .braces a :: ts)
  | stop {d} : NoOperator rest → (0 < d → NoArms rest) → Reads rest d .have rest
  | more {d k a ts} : Reads rest (d + 1) .after ts → Reads rest (d + 1) .after (.arms k :: .braces a :: ts)
  | close {d k ts} : Reads rest d .operand ts → Reads rest (d + 1) .after (.op k :: ts)
  | stopAfter {d} : NoOperator rest → NoArms rest → Reads rest (d + 1) .after rest

/-- After the arms of a body, the place is also one after an operand of the expression around. -/
theorem Reads.have_of_after {rest ts : List (Token α)} {d : Nat} (h : Reads rest (d + 1) .after ts) (harms : NoArms ts) :
    Reads rest d .have ts := by
  cases h with
  | more h => exact absurd rfl (harms _ _)
  | close h => exact .op h
  | stopAfter hop harms => exact .stop hop fun _ => harms

/-! ## Arms before an operator -/

/-- The tokens end with the arms of an `escape` or a `match`. -/
def EndsInArms (ts : List (Token α)) : Prop := ∃ front k a, ts = front ++ [.arms k, .braces a]

/-- A binary operator follows the arms of an `escape` or a `match`. -/
def ArmsThenOp (ts : List (Token α)) : Prop := ∃ front k a k' back, ts = front ++ .arms k :: .braces a :: .op k' :: back

theorem ArmsThenOp.append_left {ts : List (Token α)} (h : ArmsThenOp ts) (front : List (Token α)) :
    ArmsThenOp (front ++ ts) := by
  obtain ⟨front', k, a, k', back, rfl⟩ := h
  exact ⟨front ++ front', k, a, k', back, by simp⟩

theorem ArmsThenOp.append_right {ts : List (Token α)} (h : ArmsThenOp ts) (back : List (Token α)) :
    ArmsThenOp (ts ++ back) := by
  obtain ⟨front, k, a, k', back', rfl⟩ := h
  exact ⟨front, k, a, k', back' ++ back, by simp⟩

theorem ArmsThenOp.cons {ts : List (Token α)} (h : ArmsThenOp ts) (t : Token α) : ArmsThenOp (t :: ts) :=
  h.append_left [t]

theorem EndsInArms.cons {ts : List (Token α)} (h : EndsInArms ts) (t : Token α) : EndsInArms (t :: ts) := by
  obtain ⟨front, k, a, rfl⟩ := h
  exact ⟨t :: front, k, a, rfl⟩

theorem EndsInArms.append_left {ts : List (Token α)} (h : EndsInArms ts) (front : List (Token α)) :
    EndsInArms (front ++ ts) := by
  obtain ⟨front', k, a, rfl⟩ := h
  exact ⟨front ++ front', k, a, by simp⟩

theorem EndsInArms.then_op {ts : List (Token α)} (h : EndsInArms ts) (k : Operator) (back : List (Token α)) :
    ArmsThenOp (ts ++ .op k :: back) := by
  obtain ⟨front, k', a, rfl⟩ := h
  exact ⟨front, k', a, k, back, by simp⟩

/-! ## Results -/

/-- The tree spells the tokens read between the two states. -/
structure Spells (level : Level) (p : Parser α) (t : Tree α) (p' : Parser α) : Prop where
  is : t.Is level
  tokens : t.tokens ++ p'.tokens = p.tokens
  grouped : t.Grouped
  errors : p'.errors = p.errors ++ t.reports
  last : t.LambdasLast ∨ ArmsThenOp t.tokens

/-- What can follow an anonymous function: a binary operator only after arms. -/
structure Closing (t : Tree α) (ts : List (Token α)) : Prop where
  arms : NoArms ts
  op : ∀ k rest, ts = .op k :: rest → EndsInArms t.tokens

theorem Tree.Is.ne_missing {level : Level} {t : Tree α} (h : t.Is level) : t ≠ .missing := by
  induction h <;> simp_all

theorem Tree.Is.operand_top {t : Tree α} (h : t.Is .operand) : t.top = none := by
  cases h <;> rfl

/-! ## The loop over arms -/

/-- `escape` and `match` after the first of them. -/
theorem armsLoop_after {rest ts : List (Token α)} {d : Nat} {p : Parser α} {lhs t : Tree α} {errors : List Error}
    {p' : Parser α} (hlhs : Spells .arms p lhs ⟨ts, errors⟩) (hends : EndsInArms lhs.tokens)
    (hlambda : lhs.endsInLambda = false) (hts : Reads rest (d + 1) .after ts)
    (hrun : armsLoop lhs ts errors = (t, p')) :
    Spells .arms p t p' ∧ EndsInArms t.tokens ∧ NoArms p'.tokens ∧ Reads rest (d + 1) .after p'.tokens := by
  fun_induction armsLoop lhs ts errors with
  | case1 lhs errors k a ts ih =>
    cases hts with
    | more hts =>
      refine ih ?_ ⟨lhs.tokens, _, _, rfl⟩ rfl hts hrun
      refine ⟨.armsExpr hlhs.is, ?_, hlhs.grouped, hlhs.errors, ?_⟩
      · rw [← hlhs.tokens]
        simp [Tree.tokens]
      · exact hlhs.last.imp (fun h => ⟨hlambda, h⟩) fun h => h.append_right _
    | stopAfter _ harms => exact absurd rfl (harms _ _)
  | case2 lhs errors k ts hnot ih =>
    cases hts with
    | more hts => exact absurd rfl (hnot _ _)
    | stopAfter _ harms => exact absurd rfl (harms _ _)
  | case3 lhs ts errors hnot hnot' =>
    cases hrun
    exact ⟨hlhs, hends, fun k rest h => hnot' k rest h, hts⟩

/-! ## The step lemma -/

/-- What the functions of the parser return at a depth. -/
structure Sound (rest : List (Token α)) (n : Nat) : Prop where
  expr : ∀ {d : Nat} {p p' : Parser α} {t : Tree α}, Reads rest (d + 1) .body p.tokens → expr n p = some (t, p') →
    Spells .expression p t p' ∧ Reads rest d .have p'.tokens ∧ Closing t p'.tokens
  exprBp : ∀ {d min : Nat} {p p' : Parser α} {t : Tree α}, Reads rest d .operand p.tokens →
    exprBp n min p = some (t, p') →
    Spells .operators p t p' ∧ Reads rest d .have p'.tokens ∧
      (∀ k rest', p'.tokens = .op k :: rest' → infixPower k < min) ∧ (∀ k ∈ t.top, min ≤ infixPower k) ∧
      (t.endsInLambda = true → Closing t p'.tokens)
  binLoop : ∀ {d min : Nat} {p₀ p p' : Parser α} {lhs t : Tree α}, Spells .operators p₀ lhs p →
    Reads rest d .have p.tokens → (∀ k ∈ lhs.top, min ≤ infixPower k) →
    (∀ k rest', p.tokens = .op k :: rest' → ∀ k' ∈ lhs.top, infixPower k ≤ infixPower k') →
    (lhs.endsInLambda = true → Closing lhs p.tokens) → binLoop n min lhs lhs.comparison p = some (t, p') →
    Spells .operators p₀ t p' ∧ Reads rest d .have p'.tokens ∧
      (∀ k rest', p'.tokens = .op k :: rest' → infixPower k < min) ∧ (∀ k ∈ t.top, min ≤ infixPower k) ∧
      (t.endsInLambda = true → Closing t p'.tokens)
  unary : ∀ {d : Nat} {p p' : Parser α} {t : Tree α}, Reads rest d .operand p.tokens → unary n p = some (t, p') →
    Spells .operand p t p' ∧ Reads rest d .have p'.tokens ∧ (t.endsInLambda = true → Closing t p'.tokens)

theorem Closing.cons {t t' : Tree α} {ts : List (Token α)} (h : Closing t ts) (tok : Token α)
    (htokens : t'.tokens = tok :: t.tokens) : Closing t' ts :=
  ⟨h.arms, fun k rest hop => htokens ▸ (h.op k rest hop).cons tok⟩

section
variable {rest : List (Token α)} {n d min : Nat} {p₀ p p' : Parser α} {lhs t : Tree α}

/-- Where an operand is to be read, `expr` reads operators. -/
theorem expr_operators (hp : Reads rest d .operand p.tokens) :
    Syntax.expr (n + 1) p = (Syntax.exprBp n 0 p).bind fun (lhs, p) => match lhs with
      | .missing => some (.missing, p)
      | lhs => some (armsLoop lhs p.tokens p.errors) := by
  obtain ⟨tokens, errors⟩ := p
  cases hp with
  | operand => rfl
  | block => rfl
  | @prefixOp _ op => cases op <;> rfl
  | @lambda _ ps => cases ps <;> rfl

theorem armsLoop_noArms {ts : List (Token α)} (h : NoArms ts) (lhs : Tree α) (errors : List Error) :
    armsLoop lhs ts errors = (lhs, ⟨ts, errors⟩) := by
  fun_cases armsLoop lhs ts errors with
  | case1 => exact absurd rfl (h _ _)
  | case2 => exact absurd rfl (h _ _)
  | case3 => rfl

theorem Sound.expr_succ (ih : Sound rest n) (hp : Reads rest (d + 1) .body p.tokens)
    (hrun : Syntax.expr (n + 1) p = some (t, p')) :
    Spells .expression p t p' ∧ Reads rest d .have p'.tokens ∧ Closing t p'.tokens := by
  obtain ⟨tokens, errors⟩ := p
  cases hp with
  | @keyword _ k ts hp =>
    simp only [Syntax.expr, Option.pure_def, Option.bind_eq_bind, Option.bind_eq_some_iff] at hrun
    obtain ⟨⟨t₁, p₁⟩, hbody, hrun⟩ := hrun
    cases hrun
    obtain ⟨hspells, hreads, hclosing⟩ := ih.expr hp hbody
    refine ⟨⟨.keywordExpr hspells.is, ?_, hspells.grouped, hspells.errors, ?_⟩, hreads, hclosing.cons _ rfl⟩
    · exact congrArg _ hspells.tokens
    · exact hspells.last.imp id fun h => h.cons _
  | body hp =>
    rw [expr_operators hp, Option.bind_eq_some_iff] at hrun
    obtain ⟨⟨t₁, p₁⟩, hoperators, hrun⟩ := hrun
    obtain ⟨hspells, hreads, hop, -, hclosing⟩ := ih.exprBp hp hoperators
    dsimp only at hrun
    split at hrun
    · exact absurd rfl hspells.is.ne_missing
    rw [Option.some.injEq] at hrun
    have harms : Spells .arms ⟨tokens, errors⟩ t₁ p₁ :=
      ⟨.operators hspells.is, hspells.tokens, hspells.grouped, hspells.errors, hspells.last⟩
    obtain ⟨tokens₁, errors₁⟩ := p₁
    have hnop : NoOperator tokens₁ := fun k rest' h => absurd (hop k rest' h) (Nat.not_lt_zero _)
    generalize hd : d + 1 = e at hreads
    cases hreads with
    | op => exact absurd rfl (hnop _ _)
    | @arms _ k a ts hts =>
      cases hd
      rw [armsLoop] at hrun
      have hlambda : t₁.endsInLambda = false := by
        rw [← Bool.not_eq_true]
        exact fun h => absurd rfl ((hclosing h).arms _ _)
      have hfirst : Spells .arms ⟨tokens, errors⟩ (.armsExpr k t₁ (some a)) ⟨ts, errors₁⟩ := by
        refine ⟨.armsExpr harms.is, ?_, harms.grouped, harms.errors, ?_⟩
        · rw [← harms.tokens]
          simp [Tree.tokens]
        · exact harms.last.imp (fun h => ⟨hlambda, h⟩) fun h => h.append_right _
      obtain ⟨hspells', hends, hnarms, hafter⟩ := armsLoop_after hfirst ⟨t₁.tokens, _, _, rfl⟩ rfl hts hrun
      refine ⟨⟨.expression hspells'.is, hspells'.tokens, hspells'.grouped, hspells'.errors, hspells'.last⟩,
        hafter.have_of_after hnarms, hnarms, fun _ _ _ => hends⟩
    | stop _ hnarms =>
      have hnarms := hnarms (by omega)
      rw [armsLoop_noArms hnarms] at hrun
      cases hrun
      exact ⟨⟨.expression harms.is, harms.tokens, harms.grouped, harms.errors, harms.last⟩, .stop hnop fun _ => hnarms,
        hnarms, fun k rest' h => absurd h (hnop k rest')⟩

theorem Sound.unary_succ (ih : Sound rest n) (hp : Reads rest d .operand p.tokens)
    (hrun : Syntax.unary (n + 1) p = some (t, p')) :
    Spells .operand p t p' ∧ Reads rest d .have p'.tokens ∧ (t.endsInLambda = true → Closing t p'.tokens) := by
  obtain ⟨tokens, errors⟩ := p
  cases hp with
  | operand hp =>
    obtain ⟨n, rfl⟩ : ∃ m, n = m + 1 := by
      cases n with
      | zero => cases hrun
      | succ m => exact ⟨m, rfl⟩
    cases hrun
    exact ⟨⟨.operand, rfl, trivial, (List.append_nil _).symm, .inl trivial⟩, hp, fun h => by cases h⟩
  | block hp =>
    obtain ⟨n, rfl⟩ : ∃ m, n = m + 1 := by
      cases n with
      | zero => cases hrun
      | succ m => exact ⟨m, rfl⟩
    cases hrun
    exact ⟨⟨.block, rfl, trivial, (List.append_nil _).symm, .inl trivial⟩, hp, fun h => by cases h⟩
  | @prefixOp _ op ts hp =>
    have hstep : Syntax.unary (n + 1) ⟨prefixToken op :: ts, errors⟩ =
        (Syntax.unary n ⟨ts, errors⟩).bind fun (t, p) => some (.prefixExpr op t, p) := by
      cases op <;> rfl
    rw [hstep, Option.bind_eq_some_iff] at hrun
    obtain ⟨⟨t₁, p₁⟩, hinner, hrun⟩ := hrun
    cases hrun
    obtain ⟨hspells, hreads, hclosing⟩ := ih.unary hp hinner
    refine ⟨⟨.prefixExpr hspells.is, congrArg _ hspells.tokens, hspells.grouped, hspells.errors, ?_⟩, hreads,
      fun h => (hclosing h).cons _ rfl⟩
    exact hspells.last.imp id fun h => h.cons _
  | @lambda _ ps ts hp =>
    have hstep : Syntax.unary (n + 1) ⟨paramsToken ps :: ts, errors⟩ =
        (Syntax.expr n ⟨ts, errors⟩).bind fun (t, p) => some (.lambdaExpr ps t, p) := by
      cases ps <;> rfl
    rw [hstep, Option.bind_eq_some_iff] at hrun
    obtain ⟨⟨t₁, p₁⟩, hbody, hrun⟩ := hrun
    cases hrun
    obtain ⟨hspells, hreads, hclosing⟩ := ih.expr hp hbody
    refine ⟨⟨.lambdaExpr hspells.is, congrArg _ hspells.tokens, hspells.grouped, hspells.errors, ?_⟩, hreads,
      fun _ => hclosing.cons _ rfl⟩
    exact hspells.last.imp id fun h => h.cons _

theorem Sound.exprBp_succ (ih : Sound rest n) (hp : Reads rest d .operand p.tokens)
    (hrun : Syntax.exprBp (n + 1) min p = some (t, p')) :
    Spells .operators p t p' ∧ Reads rest d .have p'.tokens ∧
      (∀ k rest', p'.tokens = .op k :: rest' → infixPower k < min) ∧ (∀ k ∈ t.top, min ≤ infixPower k) ∧
      (t.endsInLambda = true → Closing t p'.tokens) := by
  rw [Syntax.exprBp, Option.bind_eq_bind, Option.bind_eq_some_iff] at hrun
  obtain ⟨⟨lhs, p₁⟩, hunary, hrun⟩ := hrun
  obtain ⟨hspells, hreads, hclosing⟩ := ih.unary hp hunary
  dsimp only at hrun
  split at hrun
  · exact absurd rfl hspells.is.ne_missing
  have htop := hspells.is.operand_top
  have hcomparison : lhs.comparison = false := by rw [Tree.comparison, htop]; rfl
  rw [← hcomparison] at hrun
  refine ih.binLoop ⟨.single hspells.is, hspells.tokens, hspells.grouped, hspells.errors, hspells.last⟩ hreads ?_ ?_
    hclosing hrun
  · simp [htop]
  · simp [htop]

theorem Sound.binLoop_succ (ih : Sound rest n) (hlhs : Spells .operators p₀ lhs p) (hp : Reads rest d .have p.tokens)
    (hmin : ∀ k ∈ lhs.top, min ≤ infixPower k)
    (hnext : ∀ k rest', p.tokens = .op k :: rest' → ∀ k' ∈ lhs.top, infixPower k ≤ infixPower k')
    (hclosing : lhs.endsInLambda = true → Closing lhs p.tokens)
    (hrun : Syntax.binLoop (n + 1) min lhs lhs.comparison p = some (t, p')) :
    Spells .operators p₀ t p' ∧ Reads rest d .have p'.tokens ∧
      (∀ k rest', p'.tokens = .op k :: rest' → infixPower k < min) ∧ (∀ k ∈ t.top, min ≤ infixPower k) ∧
      (t.endsInLambda = true → Closing t p'.tokens) := by
  obtain ⟨tokens, errors⟩ := p
  rw [Syntax.binLoop] at hrun
  split at hrun
  · next k ts htokens =>
    dsimp only at htokens hp hnext hclosing
    subst htokens
    split at hrun
    · next hlt =>
      cases hrun
      refine ⟨hlhs, hp, fun k' rest' h => ?_, hmin, hclosing⟩
      cases h
      exact hlt
    · next hge =>
      have hts : Reads rest d .operand ts := by
        generalize htokens : Token.op k :: ts = tokens at hp
        cases hp with
        | op h =>
          cases htokens
          exact h
        | arms => cases htokens
        | stop hnop => exact absurd htokens.symm (hnop _ _)
      rw [Option.bind_eq_bind, Option.bind_eq_some_iff] at hrun
      obtain ⟨⟨r, p₁⟩, hright, hrun⟩ := hrun
      obtain ⟨hspells, hreads, hstop, htop, hclosing'⟩ := ih.exprBp hts hright
      have hcomparison : isComparison k = (Tree.binExpr lhs k r).comparison := rfl
      dsimp only at hrun
      rw [hcomparison] at hrun
      refine ih.binLoop ?_ hreads ?_ ?_ ?_ hrun
      · refine ⟨.binExpr hlhs.is hspells.is, ?_, ?_, ?_, ?_⟩
        · rw [← hlhs.tokens]
          simp only [Tree.tokens, List.append_assoc, List.cons_append]
          rw [hspells.tokens]
        · exact ⟨hnext k ts rfl, fun k' hk' => htop k' hk', hlhs.grouped, hspells.grouped⟩
        · rw [hspells.errors]
          have herrors : errors = p₀.errors ++ lhs.reports := hlhs.errors
          rw [herrors]
          simp only [Tree.reports, List.append_assoc]
        · by_cases hlambda : lhs.endsInLambda = true
          · right
            exact ((hclosing hlambda).op k ts rfl).then_op k _
          · rcases hlhs.last with h | h
            · refine hspells.last.imp (fun h' => ⟨by simpa using hlambda, h, h'⟩) fun h' => ?_
              exact (h'.cons _).append_left _
            · exact .inr (h.append_right _)
      · intro k' hk'
        cases hk'
        omega
      · intro k' rest' h k'' hk''
        cases hk''
        have := hstop k' rest' h
        omega
      · intro h
        have hr := hclosing' h
        exact ⟨hr.arms, fun k' rest' hop => ((hr.op k' rest' hop).cons _).append_left _⟩
  · next hnot =>
    cases hrun
    exact ⟨hlhs, hp, fun k rest' h => absurd h (hnot k rest'), hmin, hclosing⟩

end

theorem sound (rest : List (Token α)) (n : Nat) : Sound rest n := by
  induction n with
  | zero =>
    constructor
    · intro _ _ _ _ _ h
      cases h
    · intro _ _ _ _ _ _ h
      cases h
    · intro _ _ _ _ _ _ _ _ _ _ _ _ h
      cases h
    · intro _ _ _ _ _ h
      cases h
  | succ n ih => exact ⟨ih.expr_succ, ih.exprBp_succ, ih.binLoop_succ, ih.unary_succ⟩

/-! ## Every run ends -/

theorem Parser.errRecover_length (p : Parser α) : p.errRecover.tokens.length ≤ p.tokens.length := by
  unfold Parser.errRecover
  split
  · exact Nat.le_refl _
  · exact Nat.le_refl _
  · next h =>
    rw [h]
    exact Nat.le_succ _

theorem armList_length (p : Parser α) : (armList p).2.tokens.length ≤ p.tokens.length := by
  unfold armList
  split
  · next h =>
    rw [h]
    exact Nat.le_succ _
  · exact Nat.le_refl _

theorem armsLoop_length (lhs : Tree α) (ts : List (Token α)) (errors : List Error) :
    (armsLoop lhs ts errors).2.tokens.length ≤ ts.length := by
  fun_induction armsLoop lhs ts errors with
  | case1 _ _ _ _ _ ih => exact Nat.le_trans ih (by simp only [List.length_cons]; omega)
  | case2 _ _ _ _ _ ih => exact Nat.le_trans ih (by simp only [List.length_cons]; omega)
  | case3 => exact Nat.le_refl _

/-- The run returns, with no more tokens than before. -/
def Returns (run : Option (Tree α × Parser α)) (p : Parser α) : Prop :=
  ∃ t p', run = some (t, p') ∧ p'.tokens.length ≤ p.tokens.length

theorem Returns.bind {run : Option (Tree α × Parser α)} {p₀ p : Parser α} {f : Tree α × Parser α → Option (Tree α × Parser α)}
    (h : Returns run p₀) (hf : ∀ t p', p'.tokens.length ≤ p₀.tokens.length → Returns (f (t, p')) p) :
    Returns (run.bind f) p := by
  obtain ⟨t, p', rfl, hle⟩ := h
  exact hf t p' hle

/-- The depths from which the functions return. -/
structure Total (α : Type) (n : Nat) : Prop where
  expr : ∀ p : Parser α, 4 * p.tokens.length + 4 ≤ n → Returns (expr n p) p
  exprBp : ∀ (min : Nat) (p : Parser α), 4 * p.tokens.length + 3 ≤ n → Returns (exprBp n min p) p
  binLoop : ∀ (min : Nat) (lhs : Tree α) (after : Bool) (p : Parser α), 4 * p.tokens.length + 2 ≤ n →
    Returns (binLoop n min lhs after p) p
  unary : ∀ p : Parser α, 4 * p.tokens.length + 2 ≤ n → Returns (unary n p) p
  primary : ∀ p : Parser α, 4 * p.tokens.length + 1 ≤ n → Returns (primary n p) p

section
variable {n : Nat} {p : Parser α}

theorem Total.expr_succ (ih : Total α n) (hn : 4 * p.tokens.length + 4 ≤ n + 1) : Returns (Syntax.expr (n + 1) p) p := by
  rw [Syntax.expr]
  split
  · next k rest h =>
    rw [h, List.length_cons] at hn
    refine (ih.expr { p with tokens := rest } (by dsimp only; omega)).bind fun t p' hle => ⟨_, p', rfl, ?_⟩
    rw [h]
    exact Nat.le_trans hle (Nat.le_succ _)
  · refine (ih.exprBp 0 p (by omega)).bind fun t p' hle => ?_
    dsimp only
    split
    · exact ⟨_, p', rfl, hle⟩
    · exact ⟨_, _, rfl, Nat.le_trans (armsLoop_length _ _ _) hle⟩

theorem Total.exprBp_succ (ih : Total α n) (min : Nat) (hn : 4 * p.tokens.length + 3 ≤ n + 1) :
    Returns (Syntax.exprBp (n + 1) min p) p := by
  rw [Syntax.exprBp]
  refine (ih.unary p (by omega)).bind fun t p' hle => ?_
  dsimp only
  split
  · exact ⟨_, p', rfl, hle⟩
  · obtain ⟨t', p'', hrun, hle'⟩ := ih.binLoop min t false p' (by omega)
    exact ⟨t', p'', hrun, Nat.le_trans hle' hle⟩

theorem Total.binLoop_succ (ih : Total α n) (min : Nat) (lhs : Tree α) (after : Bool)
    (hn : 4 * p.tokens.length + 2 ≤ n + 1) : Returns (Syntax.binLoop (n + 1) min lhs after p) p := by
  rw [Syntax.binLoop]
  split
  · next k rest h =>
    split
    · exact ⟨_, p, rfl, Nat.le_refl _⟩
    · rw [h, List.length_cons] at hn
      refine (ih.exprBp _ _ (by dsimp only; omega)).bind fun t p' hle => ?_
      dsimp only at hle ⊢
      obtain ⟨t', p'', hrun, hle'⟩ := ih.binLoop min (.binExpr lhs k t) (isComparison k) p' (by omega)
      refine ⟨t', p'', hrun, ?_⟩
      rw [h, List.length_cons]
      omega
  · exact ⟨_, p, rfl, Nat.le_refl _⟩

theorem Total.unary_succ (ih : Total α n) (hn : 4 * p.tokens.length + 2 ≤ n + 1) : Returns (Syntax.unary (n + 1) p) p := by
  have hcons : ∀ {tok rest}, p.tokens = tok :: rest → ∀ {run} (f : Tree α → Tree α),
      Returns run { p with tokens := rest } → Returns (run.bind fun (t, p) => some (f t, p)) p := by
    intro tok rest h run f hrun
    refine hrun.bind fun t p' hle => ⟨_, p', rfl, ?_⟩
    rw [h]
    exact Nat.le_trans hle (Nat.le_succ _)
  have hlen : ∀ {tok rest}, p.tokens = tok :: rest → 4 * rest.length + 5 ≤ n := by
    intro tok rest h
    rw [h, List.length_cons] at hn
    omega
  rw [Syntax.unary]
  split
  · next h => exact hcons h _ (ih.expr _ (by have := hlen h; dsimp only; omega))
  · next h => exact hcons h _ (ih.expr _ (by have := hlen h; dsimp only; omega))
  · next h => exact hcons h _ (ih.unary _ (by have := hlen h; dsimp only; omega))
  · next h => exact hcons h _ (ih.unary _ (by have := hlen h; dsimp only; omega))
  · exact ih.primary p (by omega)

theorem Total.primary_succ (ih : Total α n) (hn : 4 * p.tokens.length + 1 ≤ n + 1) :
    Returns (Syntax.primary (n + 1) p) p := by
  have hle : ∀ {tok rest}, p.tokens = tok :: rest → rest.length ≤ p.tokens.length := by
    intro tok rest h
    rw [h]
    exact Nat.le_succ _
  rw [Syntax.primary]
  split
  · next h => exact ⟨_, _, rfl, hle h⟩
  · next h => exact ⟨_, _, rfl, hle h⟩
  · next rest h =>
    have hle' := hle h
    rw [h, List.length_cons] at hn
    refine (ih.expr _ (by dsimp only; omega)).bind fun t p' hle => ⟨_, _, rfl, ?_⟩
    exact Nat.le_trans (armList_length p') (Nat.le_trans hle hle')
  · exact ⟨_, _, rfl, p.errRecover_length⟩

end

theorem total (α : Type) (n : Nat) : Total α n := by
  induction n with
  | zero => constructor <;> intros <;> omega
  | succ n ih =>
    exact ⟨fun _ => ih.expr_succ, fun min _ => ih.exprBp_succ min, fun min lhs after _ => ih.binLoop_succ min lhs after,
      fun _ => ih.unary_succ, fun _ => ih.primary_succ⟩

end Emela.Syntax
