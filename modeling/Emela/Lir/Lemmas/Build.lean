import Emela.Lir.Implicit

/-!
# What rebuilding leaves as it was

Rebuilding code only adds variables and labels to the function, and changes the copy of a variable or
label the copier has seen only where the code defines it: in the code itself, or in a cleanup of the
stack, of which any number of copies is made.
-/

namespace Emela.Lir.Implicit

/-- The function being built has grown, and the copies made before still stand, apart from those of the
variables `X` and the labels `L`. -/
structure Build.Extends (X : Set VarId) (L : Set LabelId) (b b' : Build) : Prop where
  vars : b.vars.length ≤ b'.vars.length
  labels : b.labels ≤ b'.labels
  varMap : ∀ v ∉ X, ∀ t, b.varMap v = some t → b'.varMap v = some t
  labelMap : ∀ l ∉ L, ∀ t, b.labelMap l = some t → b'.labelMap l = some t
  depth : ∀ l ∉ L, b'.depth l = b.depth l

namespace Build.Extends

variable {X X' : Set VarId} {L L' : Set LabelId} {b b' b'' : Build}

theorem refl : Extends X L b b := ⟨le_rfl, le_rfl, fun _ _ _ h => h, fun _ _ _ h => h, fun _ _ => rfl⟩

theorem trans (h : Extends X L b b') (h' : Extends X L b' b'') : Extends X L b b'' :=
  ⟨h.vars.trans h'.vars, h.labels.trans h'.labels,
    fun v hv t ht => h'.varMap v hv t (h.varMap v hv t ht),
    fun l hl t ht => h'.labelMap l hl t (h.labelMap l hl t ht),
    fun l hl => (h'.depth l hl).trans (h.depth l hl)⟩

theorem mono (h : Extends X L b b') (hX : X ⊆ X') (hL : L ⊆ L') : Extends X' L' b b' :=
  ⟨h.vars, h.labels, fun v hv => h.varMap v fun hc => hv (hX hc), fun l hl => h.labelMap l fun hc => hl (hL hc),
    fun l hl => h.depth l fun hc => hl (hL hc)⟩

/-! ## The copier -/

theorem alloc (d : VarData) : Extends X L b (b.alloc d) :=
  ⟨by simp [Build.alloc], le_rfl, fun _ _ _ h => h, fun _ _ _ h => h, fun _ _ => rfl⟩

theorem allocLabel : Extends X L b b.allocLabel :=
  ⟨le_rfl, by simp [Build.allocLabel], fun _ _ _ h => h, fun _ _ _ h => h, fun _ _ => rfl⟩

theorem label (l : LabelId) : Extends X L b (b.label l) := by
  unfold Build.label
  split
  · exact refl
  · rename_i hl
    refine ⟨le_rfl, by simp [Build.allocLabel], fun _ _ _ h => h, fun x _ t ht => ?_, fun _ _ => rfl⟩
    have hx : x ≠ l := fun hx => by simp [hx, hl] at ht
    simpa [Function.update_of_ne hx] using ht

theorem block {l : LabelId} (hl : l ∈ L) (n : Nat) : Extends X L b (b.block l n) := by
  refine ⟨le_rfl, by simp [Build.block, Build.allocLabel], fun _ _ _ h => h, fun x hx t ht => ?_, fun x hx => ?_⟩
  · have hne : x ≠ l := fun h => hx (h ▸ hl)
    simpa [Build.block, Function.update_of_ne hne] using ht
  · have hne : x ≠ l := fun h => hx (h ▸ hl)
    simp [Build.block, Function.update_of_ne hne]

variable (src : List VarData)

theorem fresh {v : VarId} (hv : v ∈ X) : Extends X L b (b.fresh src v) := by
  refine ⟨by simp [Build.fresh, Build.alloc], le_rfl, fun x hx t ht => ?_, fun _ _ _ h => h, fun _ _ => rfl⟩
  have hne : x ≠ v := fun h => hx (h ▸ hv)
  simpa [Build.fresh, Function.update_of_ne hne] using ht

theorem freshAll {vs : List VarId} (hv : ∀ v ∈ vs, v ∈ X) : Extends X L b (b.freshAll src vs) := by
  induction vs generalizing b with
  | nil => exact refl
  | cons v vs ih =>
      exact (fresh src (hv v List.mem_cons_self)).trans (ih fun x hx => hv x (List.mem_cons_of_mem _ hx))

theorem var (v : VarId) : Extends X L b (b.var src v) := by
  unfold Build.var
  split
  · exact refl
  · rename_i hv
    refine ⟨by simp [Build.fresh, Build.alloc], le_rfl, fun x _ t ht => ?_, fun _ _ _ h => h, fun _ _ => rfl⟩
    have hne : x ≠ v := fun h => by simp [h, hv] at ht
    simpa [Build.fresh, Function.update_of_ne hne] using ht

theorem see (vs : List VarId) : Extends X L b (b.see src vs) := by
  induction vs generalizing b with
  | nil => exact refl
  | cons v vs ih => exact (var src v).trans ih

theorem seeOperands (os : List Operand) : Extends X L b (b.seeOperands src os) := see src _

end Build.Extends

/-! ## Ways out -/

/-- What a region of the stack rebuilds leaves the copies as they are, apart from those of `X` and `L`. -/
def Encl.Extends (X : Set VarId) (L : Set LabelId) : Encl → Prop
  | .protect run => ∀ d b, Build.Extends X L b (run d b).2
  | .stash _ => True

section
variable {X : Set VarId} {L : Set LabelId} {stack : List Encl}

theorem exit_extends (h : ∀ e ∈ stack, e.Extends X L) (unwind : Bool) (start : Nat) (b : Build) :
    Build.Extends X L b (exit unwind start stack b).2 := by
  induction stack generalizing b with
  | nil => exact .refl
  | cons e stack ih =>
      have hrest := ih fun e he => h e (List.mem_cons_of_mem _ he)
      have he := h e List.mem_cons_self
      unfold exit
      split
      · exact .refl
      · cases e with
        | protect run =>
            cases unwind with
            | true => exact ((Build.Extends.alloc _).trans (.allocLabel)).trans ((he _ _).trans (hrest _))
            | false => exact Build.Extends.allocLabel.trans ((he _ _).trans (hrest _))
        | stash d => exact hrest b

theorem landing_extends (h : ∀ e ∈ stack, e.Extends X L) (edge : OnFail) (b : Build) :
    Build.Extends X L b (landing stack edge b).2 := by
  cases edge with
  | «break» l => exact (Build.Extends.alloc _).trans ((Build.Extends.label l).trans (exit_extends h ..))
  | propagate => exact (Build.Extends.alloc _).trans (exit_extends h ..)

theorem explicitFail_extends (h : ∀ e ∈ stack, e.Extends X L) (onFail : Option OnFail) (b : Build) :
    Build.Extends X L b (explicitFail stack onFail b).2 := by
  cases onFail with
  | some edge => exact landing_extends h edge b
  | none => exact .refl

theorem explicitDefect_extends (flags : List Bool) (h : ∀ e ∈ stack, e.Extends X L) (v : Value) (b : Build) :
    Build.Extends X L b (explicitDefect flags stack v b).2 := by
  unfold explicitDefect
  split
  · exact exit_extends h ..
  · exact .refl

variable (src : List VarData)

theorem zeroTest_extends (h : ∀ e ∈ stack, e.Extends X L) (ty : PrimTy) (divisor : Operand) (b : Build) :
    Build.Extends X L b (zeroTest src stack ty divisor b).2 :=
  (Build.Extends.seeOperands src _).trans ((Build.Extends.alloc _).trans (exit_extends h ..))

theorem explicitTest_extends (h : ∀ e ∈ stack, e.Extends X L) (v : Value) (b : Build) :
    Build.Extends X L b (explicitTest src stack v b).2 := by
  unfold explicitTest
  split
  · split
    · split
      · exact zeroTest_extends src h ..
      · exact .refl
    · exact .refl
  · exact .refl

theorem explicitTerm_extends (h : ∀ e ∈ stack, e.Extends X L) (top : Bool) (term : Term) (b : Build) :
    Build.Extends X L b (explicitTerm src stack top term b).2 := by
  have hsee : Build.Extends X L b (b.seeOperands src term.operands) := .seeOperands src _
  cases term with
  | yield v =>
      cases top with
      | true => exact hsee.trans (exit_extends h ..)
      | false => exact hsee
  | «return» v => exact hsee.trans (exit_extends h ..)
  | fail v => exact hsee.trans (exit_extends h ..)
  | «break» l v => exact hsee.trans ((Build.Extends.label l).trans (exit_extends h ..))
  | recur args => exact hsee
  | defect msg location => exact hsee.trans (exit_extends h ..)
  | unreachable => exact hsee

variable (flags : List Bool)

theorem explicitLet_extends (h : ∀ e ∈ stack, e.Extends X L) {dst : Option VarId} (hdst : ∀ d ∈ dst, d ∈ X)
    (v : Value) (onFail : Option OnFail) (b : Build) :
    Build.Extends X L b (explicitLet src flags stack dst v onFail b).2 := by
  have htest := (explicitTest_extends src h v b).trans (.see src v.vars)
  exact htest.trans ((explicitFail_extends h onFail _).trans ((explicitDefect_extends flags h _ _).trans
    (.freshAll src fun d hd => hdst d (Option.mem_toList.mp hd))))

end

/-! ## Code -/

section
variable (src : List VarData) (flags : List Bool)

mutual

theorem explicitSeq_extends {X : Set VarId} {L : Set LabelId} {stack : List Encl} (h : ∀ e ∈ stack, e.Extends X L)
    (top : Bool) : ∀ (q : Seq) (_ : ∀ v ∈ defsSeq q, v ∈ X) (_ : ∀ l ∈ labelsSeq q, l ∈ L) (b : Build),
      Build.Extends X L b (explicitSeq src flags stack top q b).2
  | .mk stmts term, hX, hL, b => explicitStmts_extends h top term stmts hX hL b

theorem explicitStmts_extends {X : Set VarId} {L : Set LabelId} {stack : List Encl} (h : ∀ e ∈ stack, e.Extends X L)
    (top : Bool) (term : Term) :
    ∀ (stmts : List Stmt) (_ : ∀ v ∈ defsStmts stmts, v ∈ X) (_ : ∀ l ∈ labelsStmts stmts, l ∈ L) (b : Build),
      Build.Extends X L b (explicitStmts src flags stack top term stmts b).2
  | [], _, _, b => explicitTerm_extends src h top term b
  | s :: stmts, hX, hL, b => by
      simp only [defsStmts, labelsStmts, List.mem_append, or_imp, forall_and] at hX hL
      exact (explicitStmt_extends h s hX.1 hL.1 b).trans (explicitStmts_extends h top term stmts hX.2 hL.2 _)

theorem explicitStmt_extends {X : Set VarId} {L : Set LabelId} {stack : List Encl} (h : ∀ e ∈ stack, e.Extends X L) :
    ∀ (s : Stmt) (_ : ∀ v ∈ defsStmt s, v ∈ X) (_ : ∀ l ∈ labelsStmt s, l ∈ L) (b : Build),
      Build.Extends X L b (explicitStmt src flags stack s b).2
  | .let dst v onFail, hX, _, b =>
      explicitLet_extends src flags h (fun d hd => hX d (Option.mem_toList.mpr hd)) v onFail b
  | .if dst cond then_ else_, hX, hL, b => by
      simp only [defsStmt, labelsStmt, List.mem_append, or_imp, forall_and] at hX hL
      exact (Build.Extends.seeOperands src _).trans ((explicitSeq_extends h false then_ hX.1.1 hL.1 _).trans
        ((explicitSeq_extends h false else_ hX.1.2 hL.2 _).trans (.freshAll src hX.2)))
  | .switch dst on cases default, hX, hL, b => by
      simp only [defsStmt, labelsStmt, List.mem_append, or_imp, forall_and] at hX hL
      exact (Build.Extends.see src _).trans ((explicitCases_extends h cases hX.1.1 hL.1 _).trans
        ((explicitOption_extends h default hX.1.2 hL.2 _).trans (.freshAll src hX.2)))
  | .loop dst vars inits body, hX, hL, b => by
      simp only [defsStmt, labelsStmt, List.mem_append, or_imp, forall_and] at hX hL
      exact (Build.Extends.seeOperands src _).trans ((Build.Extends.freshAll src hX.1.1).trans
        ((explicitSeq_extends h false body hX.1.2 hL _).trans (.freshAll src hX.2)))
  | .block dst label body, hX, hL, b => by
      simp only [defsStmt, labelsStmt, List.mem_append, or_imp, forall_and, List.mem_cons, forall_eq] at hX hL
      exact (Build.Extends.block hL.1 _).trans
        ((explicitSeq_extends h false body hX.1 hL.2 _).trans (.freshAll src hX.2))
  | .protect dst body cleanup, hX, hL, b => by
      simp only [defsStmt, labelsStmt, List.mem_append, or_imp, forall_and] at hX hL
      have hrun : ∀ e ∈ Encl.protect (fun d => explicitSeq src flags ((d.map Encl.stash).toList ++ stack) false
          cleanup) :: stack, e.Extends X L := by
        intro e he
        rcases List.mem_cons.mp he with rfl | he
        · intro d b
          refine explicitSeq_extends ?_ false cleanup hX.1.2 hL.2 b
          intro e he
          cases d with
          | none => exact h e he
          | some d =>
              rcases List.mem_cons.mp he with rfl | he
              · exact trivial
              · exact h e he
        · exact h e he
      exact (explicitSeq_extends hrun true body hX.1.1 hL.1 _).trans
        (Build.Extends.allocLabel.trans (.freshAll src hX.2))

theorem explicitCases_extends {X : Set VarId} {L : Set LabelId} {stack : List Encl} (h : ∀ e ∈ stack, e.Extends X L) :
    ∀ (cases : List (CaseKey × Seq)) (_ : ∀ v ∈ defsCases cases, v ∈ X) (_ : ∀ l ∈ labelsCases cases, l ∈ L)
      (b : Build), Build.Extends X L b (explicitCases src flags stack cases b).2
  | [], _, _, _ => .refl
  | (_, body) :: cases, hX, hL, b => by
      simp only [defsCases, labelsCases, List.mem_append, or_imp, forall_and] at hX hL
      exact (explicitSeq_extends h false body hX.1 hL.1 b).trans (explicitCases_extends h cases hX.2 hL.2 _)

theorem explicitOption_extends {X : Set VarId} {L : Set LabelId} {stack : List Encl} (h : ∀ e ∈ stack, e.Extends X L) :
    ∀ (q : Option Seq) (_ : ∀ v ∈ defsOption q, v ∈ X) (_ : ∀ l ∈ labelsOption q, l ∈ L) (b : Build),
      Build.Extends X L b (explicitOption src flags stack q b).2
  | none, _, _, _ => .refl
  | some body, hX, hL, b => explicitSeq_extends h false body hX hL b

end

/-- The copies of a cleanup, as the stack holds them. -/
def copies (stack : List Encl) (cleanup : Seq) (d : Option VarId) : Build → Lir.Seq × Build :=
  explicitSeq src flags ((d.map Encl.stash).toList ++ stack) false cleanup

theorem copies_extends {X : Set VarId} {L : Set LabelId} {stack : List Encl} (h : ∀ e ∈ stack, e.Extends X L)
    {cleanup : Seq} (hX : ∀ v ∈ defsSeq cleanup, v ∈ X) (hL : ∀ l ∈ labelsSeq cleanup, l ∈ L) :
    (Encl.protect (copies src flags stack cleanup)).Extends X L := by
  intro d b
  refine explicitSeq_extends src flags ?_ false cleanup hX hL b
  intro e he
  cases d with
  | none => exact h e he
  | some d =>
      rcases List.mem_cons.mp he with rfl | he
      · exact trivial
      · exact h e he

end

end Emela.Lir.Implicit
