import Emela.Match.Compile

/-!
# What rows mean

A row stands for an arm whose pattern is partly looked at: it matches when its tests do, and binds what
they bind and what it has bound before. Running rows is trying them in order.
-/

namespace Emela.Match

variable {Expr W O : Type} {sem : Exprs Expr W O} {arms : List (Arm Expr)}

def occVal (ρ : Store) (occ : Occ) : Option Val :=
  match occ.var with
  | some x => ρ x
  | none => some (.const .unit)

def PatRef.toPat : PatRef → Pat
  | .pat p => p
  | .list elems rest => .list elems rest

/-- Two conditions in a row, with what both bind. -/
def both {α : Type} (a b : Option (List α)) : Option (List α) := do
  let xs ← a
  let ys ← b
  return xs ++ ys

def testBindings (ρ : Store) (test : Occ × PatRef) : Option (List (Local × Option Val)) :=
  ((occVal ρ test.1).bind test.2.toPat.bindings).map heldAll

/-- What the tests bind, if they all succeed. -/
def testsBindings (ρ : Store) : List (Occ × PatRef) → Option (List (Local × Option Val))
  | [] => some []
  | test :: tests => both (testBindings ρ test) (testsBindings ρ tests)

def rowBindings (ρ : Store) (row : Row) : Option (List (Local × Option Val)) :=
  both (testsBindings ρ row.tests) (some (row.binds.vals ρ))

/-- The rows in order; `others` if none matches. -/
def runRows (sem : Exprs Expr W O) (arms : List (Arm Expr)) (ρ : Store) (others : W → Res O × W) :
    List Row → W → Res O × W
  | [], w => others w
  | row :: rows, w =>
      match rowBindings ρ row, arms[row.arm]? with
      | some bs, some a => runArm sem row.arm a (bindEnv bs) (runRows sem arms ρ others rows) w
      | _, _ => runRows sem arms ρ others rows w

/-! ## Trying rows -/

theorem runRows_append (ρ : Store) (others : W → Res O × W) (rows rows' : List Row) (w : W) :
    runRows sem arms ρ others (rows ++ rows') w =
      runRows sem arms ρ (fun w => runRows sem arms ρ others rows' w) rows w := by
  induction rows generalizing w with
  | nil => rfl
  | cons row rows ih =>
      simp only [List.cons_append, runRows]
      have : runRows sem arms ρ others (rows ++ rows') =
          runRows sem arms ρ (fun w => runRows sem arms ρ others rows' w) rows := funext ih
      rw [this]

theorem runArm_map {f : Res O × W → Res O × W} (hf : ∀ o w, f (.done o, w) = (.done o, w)) (i : Nat)
    (a : Arm Expr) (env : Env) (others : W → Res O × W) (w : W) :
    f (runArm sem i a env others w) = runArm sem i a env (fun w => f (others w)) w := by
  unfold runArm
  cases a.guard with
  | none => exact hf _ _
  | some g =>
      rcases hr : sem.guard g env w with ⟨o | b, w'⟩
      all_goals simp only [hr]
      · exact hf o w'
      · cases b with
        | true => exact hf _ _
        | false => rfl

/-- What is done with the result of rows is done with that of the others. -/
theorem runRows_map {f : Res O × W → Res O × W} (hf : ∀ o w, f (.done o, w) = (.done o, w)) (ρ : Store)
    (others : W → Res O × W) (rows : List Row) (w : W) :
    f (runRows sem arms ρ others rows w) = runRows sem arms ρ (fun w => f (others w)) rows w := by
  induction rows generalizing w with
  | nil => rfl
  | cons row rows ih =>
      simp only [runRows]
      split
      · rw [runArm_map hf]
        congr
        exact funext ih
      · exact ih w

/-! ## Bindings in another order -/

theorem find?_perm {bs cs : List (Local × Option Val)} (h : bs.Perm cs) (nodup : (bs.map Prod.fst).Nodup)
    (l : Local) : bs.find? (·.1 == l) = cs.find? (·.1 == l) := by
  induction h with
  | nil => rfl
  | cons b _ ih =>
      rw [List.map_cons, List.nodup_cons] at nodup
      simp only [List.find?_cons, ih nodup.2]
  | swap a b bs =>
      simp only [List.map_cons, List.nodup_cons, List.mem_cons, not_or] at nodup
      simp only [List.find?_cons]
      cases ha : a.1 == l <;> cases hb : b.1 == l <;> simp_all
  | trans h₁ _ ih₁ ih₂ => rw [ih₁ nodup, ih₂ ((h₁.map Prod.fst).nodup_iff.mp nodup)]

theorem bindEnv_perm {bs cs : List (Local × Option Val)} (h : bs.Perm cs) (nodup : (bs.map Prod.fst).Nodup) :
    bindEnv bs = bindEnv cs := by
  funext l
  have perm : bs.reverse.Perm cs.reverse := (bs.reverse_perm.trans h).trans cs.reverse_perm.symm
  have : (bs.reverse.map Prod.fst).Nodup := by
    rw [List.map_reverse]
    exact List.nodup_reverse.mpr nodup
  rw [bindEnv, bindEnv, find?_perm perm this]

/-- The row binds each local once. -/
def Linear (ρ : Store) (row : Row) : Prop := ∀ bs, rowBindings ρ row = some bs → (bs.map Prod.fst).Nodup

/-- The same bindings, in some order. -/
inductive Same {α : Type} : Option (List α) → Option (List α) → Prop where
  | none : Same none none
  | some {xs ys} : xs.Perm ys → Same (some xs) (some ys)

@[simp]
theorem both_none_left {α : Type} (b : Option (List α)) : both none b = none := rfl

@[simp]
theorem both_none_right {α : Type} (a : Option (List α)) : both a none = none := by
  cases a <;> rfl

@[simp]
theorem both_some {α : Type} (xs ys : List α) : both (some xs) (some ys) = some (xs ++ ys) := rfl

@[simp]
theorem both_nil_left {α : Type} (b : Option (List α)) : both (some []) b = b := by
  cases b <;> rfl

theorem both_assoc {α : Type} (a b c : Option (List α)) : both (both a b) c = both a (both b c) := by
  cases a <;> cases b <;> cases c <;> simp

theorem Same.refl {α : Type} (a : Option (List α)) : Same a a := by
  cases a with
  | none => exact .none
  | some xs => exact .some (.refl xs)

theorem Same.symm {α : Type} {a b : Option (List α)} (h : Same a b) : Same b a := by
  cases h with
  | none => exact .none
  | some perm => exact .some perm.symm

theorem Same.trans {α : Type} {a b c : Option (List α)} (h : Same a b) (h' : Same b c) : Same a c := by
  cases h with
  | none => exact h'
  | some perm =>
      cases h' with
      | some perm' => exact .some (perm.trans perm')

theorem Same.both {α : Type} {a b c d : Option (List α)} (h : Same a b) (h' : Same c d) :
    Same (both a c) (both b d) := by
  cases h with
  | none => exact .none
  | some perm =>
      cases h' with
      | none => exact .none
      | some perm' => exact .some (perm.append perm')

theorem both_comm {α : Type} (a b : Option (List α)) : Same (both a b) (both b a) := by
  cases a with
  | none => exact (both_none_right b).symm ▸ .none
  | some xs =>
      cases b with
      | none => exact .none
      | some ys => exact .some List.perm_append_comm

theorem Same.elim {α : Type} {a b : Option (List α)} (h : Same a b) :
    (a = .none ∧ b = .none) ∨ ∃ xs ys, a = .some xs ∧ b = .some ys ∧ xs.Perm ys := by
  cases h with
  | none => exact .inl ⟨rfl, rfl⟩
  | some perm => exact .inr ⟨_, _, rfl, rfl, perm⟩

/-- `rows'` are `rows` with their tests looked at further, without some that do not match. -/
inductive Refines (ρ ρ' : Store) : List Row → List Row → Prop where
  | nil : Refines ρ ρ' [] []
  | keep {row row' rows rows'} : row'.arm = row.arm → Same (rowBindings ρ row) (rowBindings ρ' row') →
      Refines ρ ρ' rows rows' → Refines ρ ρ' (row :: rows) (row' :: rows')
  | skip {row rows rows'} : rowBindings ρ row = none → Refines ρ ρ' rows rows' → Refines ρ ρ' (row :: rows) rows'

theorem Refines.runRows {ρ ρ' : Store} {rows rows' : List Row} (h : Refines ρ ρ' rows rows')
    (linear : ∀ row ∈ rows, Linear ρ row) (others : W → Res O × W) (w : W) :
    runRows sem arms ρ others rows w = runRows sem arms ρ' others rows' w := by
  induction h generalizing w with
  | nil => rfl
  | @keep row row' rows rows' harm hsame _ ih =>
      have ih := funext (ih fun row hrow => linear row (List.mem_cons_of_mem _ hrow))
      simp only [Match.runRows, harm, ih]
      rcases hsame.elim with ⟨hb, hb'⟩ | ⟨bs, cs, hb, hb', perm⟩
      · simp only [hb, hb']
      · rw [hb, hb']
        cases arms[row.arm]? with
        | none => rfl
        | some a => simp only [bindEnv_perm perm (linear row (by simp) bs hb)]
  | skip hnone _ ih =>
      simp only [Match.runRows, hnone]
      exact ih (fun row hrow => linear row (List.mem_cons_of_mem _ hrow)) w

theorem Refines.linear {ρ ρ' : Store} {rows rows' : List Row} (h : Refines ρ ρ' rows rows')
    (linear : ∀ row ∈ rows, Linear ρ row) : ∀ row ∈ rows', Linear ρ' row := by
  induction h with
  | nil => simp
  | @keep row row' rows rows' harm hsame _ ih =>
      intro r hr
      rcases List.mem_cons.mp hr with rfl | hr
      · intro cs hcs
        rcases hsame.elim with ⟨_, hb'⟩ | ⟨xs, ys, hb, hb', perm⟩
        · rw [hb'] at hcs
          cases hcs
        · rw [hb'] at hcs
          cases hcs
          exact (perm.map Prod.fst).nodup_iff.mp (linear row (by simp) xs hb)
      · exact ih (fun row hrow => linear row (List.mem_cons_of_mem _ hrow)) r hr
  | skip _ _ ih => exact ih fun row hrow => linear row (List.mem_cons_of_mem _ hrow)

end Emela.Match
