import Emela.Lir.Lemmas.Build
import Emela.Lir.Lemmas.Ways

/-!
# Leaving the enclosing regions

What a way out does to the regions it leaves, in terms of what their cleanups mean, and that the code put
on the way out does it.
-/

namespace Emela.Lir.Implicit

variable {α W D : Type} (R : Runtime α W D)

/-! ## What is done on the way out -/

/-- A region of the stack: a `protect`, with what its cleanup does, or a cleanup under way with a defect. -/
inductive Region (α W D : Type) where
  | protect (cleanup : W → Option (WayOut (Val α D) D × W))
  | stash (first : D)

/-- All the regions are left with a defect: each cleanup runs once, innermost first, and its defects become
notes. -/
def unwind : List (Region α W D) → D → W → Option (D × W)
  | [], d, w => some (d, w)
  | .protect c :: regions, first, w => (c w).bind fun
      | (.yield _, w) => unwind regions first w
      | (.raise later, w) => unwind regions (R.note w first later) w
      | _ => none
  | .stash first :: regions, later, w => unwind regions (R.note w first later) w

/-- The innermost regions are left without a defect: each cleanup runs once, innermost first. A defect of one
leaves the rest with it. -/
def leave : Nat → List (Region α W D) → W → Option (Option D × W)
  | 0, _, w => some (none, w)
  | n + 1, .protect c :: regions, w => (c w).bind fun
      | (.yield _, w) => leave n regions w
      | (.raise d, w) => (unwind R regions d w).map fun r => (some r.1, r.2)
      | _ => none
  | _ + 1, _, _ => none

/-- Where the labels in scope went: the label of the new block, and the depth of the stack there. -/
structure Target where
  label : LabelId → LabelId
  depth : LabelId → Nat

/-- A way out that leaves the innermost regions. -/
def leaving (n : Nat) (regions : List (Region α W D)) (e : WayOut (Val α D) Unit) (w : W) :
    Option (WayOut (Val α D) Unit × (W × Option D)) :=
  (leave R n regions w).map fun
    | (none, w) => (e, (w, none))
    | (some d, w) => (.raise (), (w, some d))

/-- The way out of the rebuilt code for one of the source. `top`: a `yield` leaves the innermost region. -/
def left (τ : Target) (regions : List (Region α W D)) (top : Bool) (w : W) :
    WayOut (Val α D) D → Option (WayOut (Val α D) Unit × (W × Option D))
  | .yield v => leaving R (if top then 1 else 0) regions (.yield v) w
  | .return v => leaving R regions.length regions (.return v) w
  | .fail v => leaving R regions.length regions (.fail v) w
  | .break l v => leaving R (regions.length - τ.depth l) regions (.break (τ.label l) v) w
  | .recur vs => leaving R 0 regions (.recur vs) w
  | .raise d => (unwind R regions d w).map fun r => (.raise (), (r.2, some r.1))

@[simp] theorem leave_zero (regions : List (Region α W D)) (w : W) : leave R 0 regions w = some (none, w) := by
  cases regions with
  | nil => rfl
  | cons r regions => cases r <;> rfl

@[simp] theorem leaving_zero (regions : List (Region α W D)) (e : WayOut (Val α D) Unit) (w : W) :
    leaving R 0 regions e w = some (e, (w, none)) := by
  simp [leaving]

/-! ## Running code -/

section
variable (calls : Calls α W D) (fuel : Nat)

/-- After a statement, the rest of the sequence. -/
def andThen (rest : Env (Val α D) → W × Option D → Option (WayOut (Val α D) Unit × (W × Option D))) :
    Step (Val α D) Unit × (W × Option D) → Option (WayOut (Val α D) Unit × (W × Option D))
  | (.next ρ, s) => rest ρ s
  | (.exit e, s) => some (e, s)

theorem runSeq_nil (term : Lir.Term) (ρ : Env (Val α D)) (s : W × Option D) :
    Explicit.runSeq R calls fuel (.mk [] term) ρ s = (Explicit.runTerm R ρ term).map (·, s) := rfl

theorem runSeq_cons (stmt : Lir.Stmt) (stmts : List Lir.Stmt) (term : Lir.Term) (ρ : Env (Val α D))
    (s : W × Option D) :
    Explicit.runSeq R calls fuel (.mk (stmt :: stmts) term) ρ s =
      (Explicit.runStmt R calls fuel stmt ρ s).bind
        (andThen (Explicit.runSeq R calls fuel (.mk stmts term))) := by
  simp only [Explicit.runSeq, Explicit.runStmts, Option.bind_assoc]
  refine Option.bind_congr fun r _ => ?_
  rcases r with ⟨ρ | e, s⟩ <;> rfl

theorem runSeq_append (a stmts : List Lir.Stmt) (term : Lir.Term) (ρ : Env (Val α D)) (s : W × Option D) :
    Explicit.runSeq R calls fuel (.mk (a ++ stmts) term) ρ s =
      (Explicit.runStmts R calls fuel a ρ s).bind (andThen (Explicit.runSeq R calls fuel (.mk stmts term))) := by
  induction a generalizing ρ s with
  | nil => rfl
  | cons stmt a ih =>
      rw [List.cons_append, runSeq_cons, Explicit.runStmts, Option.bind_assoc]
      refine Option.bind_congr fun r _ => ?_
      rcases r with ⟨ρ | e, s⟩
      · exact ih ρ s
      · rfl

/-! ## Regions that stand -/

/-- The copies of the variables in scope still stand, and hold what they held. -/
structure Later (Γ : Finset VarId) (b : Build) (ρ : Env (Val α D)) (b' : Build) (ρ' : Env (Val α D)) : Prop where
  vars : b.vars.length ≤ b'.vars.length
  varMap : ∀ v ∈ Γ, ∀ t, b.varMap v = some t → b'.varMap v = some t
  holds : ∀ t < b.vars.length, ρ' t = ρ t

/-- The region of a defect under way. -/
def stashed (stash : Option (VarId × D)) : List (Region α W D) := (stash.map fun s => Region.stash s.2).toList

/-- The cleanup rebuilt anywhere later does what it means, with the defect under way in its variable. -/
structure Runs (Γ : Finset VarId) (b : Build) (ρ : Env (Val α D)) (run : Option VarId → Build → Lir.Seq × Build)
    (c : W → Option (WayOut (Val α D) D × W)) (regions : List (Region α W D)) : Prop where
  clean : ∀ w e w', c w = some (e, w') → (∃ v, e = .yield v) ∨ ∃ d, e = .raise d
  run : ∀ b' ρ', Later Γ b ρ b' ρ' → ∀ stash : Option (VarId × D),
    (∀ s ∈ stash, s.1 < b'.vars.length ∧ ρ' s.1 = .defect s.2) → ∀ τ w,
      Explicit.runSeq R calls fuel (run (stash.map Prod.fst) b').1 ρ' (w, none) =
        (c w).bind fun r => left R τ (stashed stash ++ regions) false r.2 r.1

/-- The stack stands for the regions. -/
def Stacked (Γ : Finset VarId) (b : Build) (ρ : Env (Val α D)) : List Encl → List (Region α W D) → Prop
  | [], [] => True
  | .protect run :: stack, .protect c :: regions => Runs R calls fuel Γ b ρ run c regions ∧ Stacked Γ b ρ stack regions
  | .stash d :: stack, .stash first :: regions =>
      (d < b.vars.length ∧ ρ d = .defect first) ∧ Stacked Γ b ρ stack regions
  | _, _ => False

end

variable {R} {calls : Calls α W D} {fuel : Nat}

namespace Later

variable {Γ Γ' : Finset VarId} {b b' b'' : Build} {ρ ρ' ρ'' : Env (Val α D)}

theorem refl : Later Γ b ρ b ρ := ⟨le_rfl, fun _ _ _ h => h, fun _ _ => rfl⟩

theorem trans (h : Later Γ b ρ b' ρ') (h' : Later Γ' b' ρ' b'' ρ'') (hΓ : Γ ⊆ Γ') : Later Γ b ρ b'' ρ'' :=
  ⟨h.vars.trans h'.vars, fun v hv t ht => h'.varMap v (hΓ hv) t (h.varMap v hv t ht),
    fun t ht => (h'.holds t (ht.trans_le h.vars)).trans (h.holds t ht)⟩

theorem of_extends {X : Set VarId} {L : Set LabelId} (h : Build.Extends X L b b') (hX : ∀ v ∈ Γ, v ∉ X) :
    Later Γ b ρ b' ρ :=
  ⟨h.vars, fun v hv => h.varMap v (hX v hv), fun _ _ => rfl⟩

/-- A new variable gets a value. -/
theorem update {t : VarId} (ht : b.vars.length ≤ t) (x : Val α D) : Later Γ b ρ b (Function.update ρ t x) :=
  ⟨le_rfl, fun _ _ _ h => h, fun _ ht' => Function.update_of_ne (ht'.trans_le ht).ne ..⟩

end Later

theorem Runs.later {Γ Γ' : Finset VarId} {b b' : Build} {ρ ρ' : Env (Val α D)}
    {run : Option VarId → Build → Lir.Seq × Build} {c : W → Option (WayOut (Val α D) D × W)}
    {regions : List (Region α W D)} (h : Runs R calls fuel Γ b ρ run c regions) (hl : Later Γ b ρ b' ρ') (hΓ : Γ ⊆ Γ') :
    Runs R calls fuel Γ' b' ρ' run c regions :=
  ⟨h.clean, fun b'' ρ'' hl' => h.run b'' ρ'' (hl.trans hl' hΓ)⟩

theorem Stacked.later {Γ Γ' : Finset VarId} {b b' : Build} {ρ ρ' : Env (Val α D)} {stack : List Encl}
    {regions : List (Region α W D)} (h : Stacked R calls fuel Γ b ρ stack regions) (hl : Later Γ b ρ b' ρ')
    (hΓ : Γ ⊆ Γ') : Stacked R calls fuel Γ' b' ρ' stack regions := by
  induction stack generalizing regions with
  | nil =>
      cases regions with
      | nil => trivial
      | cons r regions => exact h
  | cons e stack ih =>
      cases regions with
      | nil => cases e <;> exact h
      | cons r regions =>
          cases e <;> cases r
          · exact ⟨h.1.later hl hΓ, ih h.2⟩
          · exact h
          · exact h
          · exact ⟨⟨h.1.1.trans_le hl.vars, (hl.holds _ h.1.1).trans h.1.2⟩, ih h.2⟩

theorem Stacked.length_eq {Γ : Finset VarId} {b : Build} {ρ : Env (Val α D)} {stack : List Encl}
    {regions : List (Region α W D)} (h : Stacked R calls fuel Γ b ρ stack regions) : stack.length = regions.length := by
  induction stack generalizing regions with
  | nil =>
      cases regions with
      | nil => rfl
      | cons r regions => exact h.elim
  | cons e stack ih =>
      cases regions with
      | nil => cases e <;> exact h.elim
      | cons r regions =>
          cases e <;> cases r
          · exact congrArg (· + 1) (ih h.2)
          · exact h.elim
          · exact h.elim
          · exact congrArg (· + 1) (ih h.2)

/-! ## The code on the way out -/

section
variable {Γ : Finset VarId} {X : Set VarId} {L : Set LabelId}

theorem cleanup_runs {b b' : Build} {ρ ρ' : Env (Val α D)} {run : Option VarId → Build → Lir.Seq × Build}
    {c : W → Option (WayOut (Val α D) D × W)} {regions : List (Region α W D)}
    (h : Runs R calls fuel Γ b ρ run c regions) (hl : Later Γ b ρ b' ρ') (stash : Option (VarId × D))
    (hs : ∀ s ∈ stash, s.1 < b'.vars.length ∧ ρ' s.1 = .defect s.2) (w : W) :
    Explicit.runStmt R calls fuel (cleanup (run (stash.map Prod.fst)) b').1 ρ' (w, none) =
      (c w).bind fun
        | (.yield _, w) => some (.next ρ', (w, none))
        | (.raise d, w) => (unwind R (stashed stash ++ regions) d w).map fun r => (.exit (.raise ()), (r.2, some r.1))
        | _ => none := by
  have hlabel : Later Γ b ρ b'.allocLabel ρ' :=
    hl.trans (Later.of_extends (Build.Extends.allocLabel (X := ∅) (L := ∅)) (by simp)) (Finset.Subset.refl Γ)
  simp only [cleanup, Explicit.runStmt]
  rw [h.run _ _ hlabel stash hs ⟨id, id⟩ w, Option.bind_assoc]
  refine Option.bind_congr fun r hr => ?_
  rcases r with ⟨e, w'⟩
  rcases h.clean w e w' hr with ⟨v, rfl⟩ | ⟨d, rfl⟩
  · simp [left, caught, join, define]
  · cases hu : unwind R (stashed stash ++ regions) d w' <;> simp [left, hu, caught, join]

theorem take_run (x : VarId) (ρ : Env (Val α D)) (w : W) (d : D) :
    Explicit.runStmt R calls fuel (runtime (some x) .defectTake []) ρ (w, some d) =
      some (.next (Function.update ρ x (.defect d)), (w, none)) := rfl

theorem resume_run {x : VarId} {ρ : Env (Val α D)} {first : D} (hx : ρ x = .defect first) (w : W) (pending : Option D) :
    Explicit.runStmt R calls fuel (runtime none .defectResume [.var x]) ρ (w, pending) =
      some (.next ρ, (w, some (Explicit.resume R w first pending))) := by
  simp [runtime, Explicit.runStmt, Explicit.runSlot, Runtime.operand, hx]

/-- With a defect pending, the code put on the way out does what leaving all the regions does. -/
theorem unwind_exit (hX : ∀ v ∈ Γ, v ∉ X) {stack : List Encl} {regions : List (Region α W D)} {b : Build}
    {ρ : Env (Val α D)} (hst : Stacked R calls fuel Γ b ρ stack regions) (hext : ∀ e ∈ stack, e.Extends X L)
    (w : W) (d : D) :
    Explicit.runSeq R calls fuel (.mk (exit true 0 stack b).1 .unwind) ρ (w, some d) =
      (unwind R regions d w).map fun r => (.raise (), (r.2, some r.1)) := by
  induction stack generalizing regions b ρ w d with
  | nil =>
      cases regions with
      | nil => rfl
      | cons r regions => exact hst.elim
  | cons e stack ih =>
      cases regions with
      | nil => cases e <;> exact hst.elim
      | cons r regions =>
          cases e with
          | protect run =>
              cases r with
              | stash first => exact hst.elim
              | protect c =>
                  let x := b.vars.length
                  let ρ' := Function.update ρ x (.defect d)
                  let b' := b.alloc ⟨"defect", .ref⟩
                  have hx : ρ' x = .defect d := Function.update_self ..
                  have hlt : x < b'.vars.length := by simp [x, b', Build.alloc]
                  have hl : Later Γ b ρ b' ρ' :=
                    (Later.update le_rfl _).trans (Later.of_extends (Build.Extends.alloc (X := X) (L := L) _) hX)
                      (Finset.Subset.refl Γ)
                  have hrest := hl.trans (Later.of_extends (Build.Extends.allocLabel.trans
                    (hext _ List.mem_cons_self (some x) b'.allocLabel)) hX) (Finset.Subset.refl Γ)
                  have hclean : Explicit.runStmt R calls fuel (cleanup (run (some x)) b').1 ρ' (w, none) = _ :=
                    cleanup_runs hst.1 hl (some (x, d)) (by simp [hx, hlt]) w
                  simp only [exit, Nat.not_lt_zero, if_false, if_true]
                  rw [runSeq_cons, take_run, Option.bind_some, andThen, runSeq_cons, hclean, unwind, Option.bind_assoc,
                    Option.map_bind]
                  refine Option.bind_congr fun r hr => ?_
                  rcases r with ⟨e, w'⟩
                  rcases hst.1.clean w e w' hr with ⟨v, rfl⟩ | ⟨later, rfl⟩
                  · simp only [Option.bind_some, andThen, Function.comp_apply]
                    rw [runSeq_cons, resume_run hx, Option.bind_some, andThen, Explicit.resume]
                    exact ih (hst.2.later hrest (Finset.Subset.refl Γ)) (fun e he => hext e (List.mem_cons_of_mem _ he)) w' d
                  · cases hu : unwind R regions (R.note w' d later) w' <;>
                      simp [stashed, unwind, hu, andThen]
          | stash x =>
              cases r with
              | protect c => exact hst.elim
              | stash first =>
                  simp only [exit, Nat.not_lt_zero, if_false]
                  rw [runSeq_cons, resume_run hst.1.2, Option.bind_some, andThen, Explicit.resume]
                  exact ih hst.2 (fun e he => hext e (List.mem_cons_of_mem _ he)) w (R.note w first d)

/-- Only `protect`s are left. -/
def Protects (stack : List Encl) : Prop := ∀ e ∈ stack, ∃ run, e = .protect run

/-- The code put on the way out does what leaving the innermost regions does. -/
theorem leave_exit (hX : ∀ v ∈ Γ, v ∉ X) {n : Nat} {stack : List Encl} {regions : List (Region α W D)} {b : Build}
    {ρ : Env (Val α D)} (hst : Stacked R calls fuel Γ b ρ stack regions) (hext : ∀ e ∈ stack, e.Extends X L)
    (hn : n ≤ stack.length) (hp : Protects (stack.take n)) (term : Lir.Term) (w : W) :
    Explicit.runSeq R calls fuel (.mk (exit false (stack.length - n) stack b).1 term) ρ (w, none) =
      (leave R n regions w).bind fun
        | (none, w) => (Explicit.runTerm R ρ term).map (·, (w, none))
        | (some d, w) => some (.raise (), (w, some d)) := by
  induction stack generalizing regions b w n with
  | nil =>
      obtain rfl : n = 0 := Nat.le_zero.mp hn
      simp [exit, runSeq_nil]
  | cons e stack ih =>
      cases n with
      | zero => simp [exit, runSeq_nil]
      | succ n =>
          obtain ⟨run, rfl⟩ := hp e (by simp)
          have hp' : Protects (stack.take n) := fun e he => hp e (by simp [he])
          cases regions with
          | nil => exact hst.elim
          | cons r regions =>
              cases r with
              | stash first => exact hst.elim
              | protect c =>
                  have hl : Later Γ b ρ b ρ := .refl
                  have hrest := hl.trans (Later.of_extends (ρ := ρ) (Build.Extends.allocLabel.trans
                    (hext _ List.mem_cons_self none b.allocLabel)) hX) (Finset.Subset.refl Γ)
                  have hclean : Explicit.runStmt R calls fuel (cleanup (run none) b).1 ρ (w, none) = _ :=
                    cleanup_runs hst.1 hl none (by simp) w
                  have hlt : ¬ stack.length < stack.length + 1 - (n + 1) := by omega
                  have hsub : stack.length + 1 - (n + 1) = stack.length - n := by omega
                  simp only [exit, List.length_cons, hlt, if_false, Bool.false_eq_true]
                  rw [runSeq_cons, hclean, leave, Option.bind_assoc, Option.bind_assoc]
                  refine Option.bind_congr fun r hr => ?_
                  rcases r with ⟨e, w'⟩
                  rcases hst.1.clean w e w' hr with ⟨v, rfl⟩ | ⟨d, rfl⟩
                  · simp only [Option.bind_some, andThen, hsub]
                    exact ih (hst.2.later hrest (Finset.Subset.refl Γ)) (fun e he => hext e (List.mem_cons_of_mem _ he))
                      (by simpa using hn) hp' w'
                  · cases hu : unwind R regions d w' <;> simp [stashed, hu, andThen]

end

end Emela.Lir.Implicit
