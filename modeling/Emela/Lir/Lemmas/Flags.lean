import Emela.Lir.Meaning
import Emela.Lir.Lemmas.Ways

/-!
# Which functions come back with a defect

The flags the analysis ends with are closed under calls, so that a function without the flag never comes
back with a defect.
-/

namespace Emela.Lir.Implicit

/-! ## The fixpoint -/

/-- More flags are set. -/
def Sets (a b : List Bool) : Prop := List.Forall₂ (· ≤ ·) a b

namespace Sets

variable {a b c : List Bool}

theorem refl : Sets a a := List.forall₂_refl a

theorem trans (h : Sets a b) (h' : Sets b c) : Sets a c := by
  induction h generalizing c with
  | nil => exact h'
  | cons hx _ ih =>
      cases h' with
      | cons hy ht => exact .cons (hx.trans hy) (ih ht)

theorem antisymm (h : Sets a b) (h' : Sets b a) : a = b := by
  induction h with
  | nil => rfl
  | cons hx _ ih =>
      cases h' with
      | cons hy ht => rw [le_antisymm hx hy, ih ht]

theorem set (a : List Bool) (i : Nat) : Sets a (a.set i true) := by
  induction a generalizing i with
  | nil => exact .nil
  | cons x a ih =>
      cases i with
      | zero => exact .cons (Bool.le_true x) refl
      | succ i => exact .cons le_rfl (ih i)

theorem getD (h : Sets a b) {i : Nat} (hi : a.getD i false = true) : b.getD i false = true := by
  induction h generalizing i with
  | nil => exact hi
  | cons hx _ ih =>
      cases i with
      | zero => exact Bool.eq_true_of_true_le ((show _ = true from hi) ▸ hx)
      | succ i => exact ih hi

/-- Where they differ, fewer flags are left to set. -/
theorem count (h : Sets a b) : a = b ∨ b.count false < a.count false := by
  induction h with
  | nil => exact .inl rfl
  | @cons x y a b hx _ ih =>
      cases x with
      | false =>
          cases y with
          | false => rcases ih with rfl | ih <;> simp_all
          | true => rcases ih with rfl | ih <;> simp_all; omega
      | true =>
          obtain rfl : y = true := Bool.eq_true_of_true_le hx
          rcases ih with rfl | ih <;> simp_all

end Sets

section
variable (visits : List Visit)

theorem mark_sets (flags : List Bool) (i : Nat) : Sets flags (mark visits flags i) := by
  unfold mark
  split
  · exact .set flags i
  · exact .refl

theorem marks_sets (is : List Nat) (flags : List Bool) : Sets flags (is.foldl (mark visits) flags) := by
  induction is generalizing flags with
  | nil => exact .refl
  | cons i is ih => exact (mark_sets visits flags i).trans (ih _)

/-- Flags that a sweep does not change, no step changes. -/
theorem mark_eq_of_marks {is : List Nat} {flags : List Bool} (h : is.foldl (mark visits) flags = flags) :
    ∀ i ∈ is, mark visits flags i = flags := by
  induction is with
  | nil => simp
  | cons i is ih =>
      have hi : mark visits flags i = flags :=
        Sets.antisymm (h.subst (motive := Sets (mark visits flags i)) (marks_sets visits is _)) (mark_sets visits flags i)
      rw [List.foldl_cons, hi] at h
      rintro j (- | ⟨-, hj⟩)
      · exact hi
      · exact ih h j hj

theorem fixpoint_sets (fuel : Nat) (flags : List Bool) : Sets flags (fixpoint visits fuel flags) := by
  induction fuel generalizing flags with
  | zero => exact .refl
  | succ fuel ih =>
      unfold fixpoint
      split
      · exact .refl
      · exact (marks_sets visits _ flags).trans (ih _)

/-- Enough sweeps find the fixpoint. -/
theorem sweep_fixpoint (fuel : Nat) (flags : List Bool) (h : flags.count false ≤ fuel) :
    sweep visits (fixpoint visits fuel flags) = fixpoint visits fuel flags := by
  induction fuel generalizing flags with
  | zero =>
      rcases (marks_sets visits (List.range visits.length) flags).count with he | hlt
      · exact he.symm
      · omega
  | succ fuel ih =>
      unfold fixpoint
      split
      · assumption
      · rename_i hne
        rcases (marks_sets visits (List.range visits.length) flags).count with he | hlt
        · exact absurd he.symm hne
        · exact ih _ (by unfold sweep; omega)

end

/-- The code visited raises no defect by itself, and calls only functions that come back with none. -/
def Silent (flags : List Bool) (v : Visit) : Prop :=
  v.raises = false ∧ ∀ g ∈ v.callees, flags.getD g false = false

theorem silent_and {flags : List Bool} {a b : Visit} : Silent flags (a.and b) ↔ Silent flags a ∧ Silent flags b := by
  simp only [Silent, Visit.and, Bool.or_eq_false_iff, List.mem_append, or_imp, forall_and]
  tauto

/-- What is found in a function without the flag. -/
theorem analyse_silent {m : Module} {i : FnId} {f : Function} (hf : m.functions[i]? = some f)
    (hi : (analyse m).getD i false = false) : Silent (analyse m) (visitFunction f) := by
  let visits := m.functions.map visitFunction
  have hlen : visits.length = m.functions.length := List.length_map ..
  have hcount : (visits.map Visit.raises).count false ≤ visits.length :=
    List.count_le_length.trans (List.length_map ..).le
  have hstart : Sets (visits.map Visit.raises) (analyse m) := fixpoint_sets visits _ _
  have hv : visits[i]? = some (visitFunction f) := by simp [visits, hf]
  refine ⟨?_, fun g hg => ?_⟩
  · by_contra hraises
    have hget : (visits.map Visit.raises).getD i false = true := by simpa [hv] using hraises
    rw [hstart.getD hget] at hi
    cases hi
  · by_contra hg'
    have hany : ((visits.getD i .none).callees.any ((analyse m).getD · false)) = true := by
      simp only [List.getD_eq_getElem?_getD, hv, Option.getD_some, List.any_eq_true]
      exact ⟨g, hg, by simpa [List.getD_eq_getElem?_getD] using hg'⟩
    have hlt : i < visits.length := (List.getElem?_eq_some_iff.mp hv).1
    have hmark : mark visits (analyse m) i = analyse m :=
      mark_eq_of_marks visits (sweep_fixpoint visits visits.length _ hcount) i (List.mem_range.mpr hlt)
    rw [mark, if_pos hany] at hmark
    have hlength : (analyse m).length = visits.length := (hstart.length_eq.symm.trans (List.length_map ..))
    have htrue : ((analyse m).set i true).getD i false = true := by
      simp [List.getD_eq_getElem?_getD, hlength, hlt]
    rw [hmark, hi] at htrue
    cases htrue

/-! ## Defects of values -/

section
variable {α W D : Type} (R : Runtime α W D) {calls : Calls α W D} {flags : List Bool}

/-- Only flagged functions come back with a defect. -/
def Quiet (flags : List Bool) (calls : Calls α W D) : Prop :=
  ∀ f args w d w', calls f args w = some (.defect d, w') → flags.getD f false = true

/-- A divisor that is not tested is not zero. -/
theorem divisor_ne_zero {op : PrimOp} {ty : PrimTy} {args : List Operand} {ρ : Env (Val α D)}
    (hd : divides op ty = true) (hn : needsZeroTest op ty args = false) :
    Runtime.divisor (args.map (R.operand ρ)) ≠ some 0 := by
  simp only [needsZeroTest, hd, Bool.true_and, Bool.not_eq_false'] at hn
  rcases args with _ | ⟨a, _ | ⟨b, args⟩⟩
  · simp [Runtime.divisor]
  · simp [Runtime.divisor]
  · simp only [List.getElem?_cons_succ, List.getElem?_cons_zero] at hn
    unfold nonzero at hn
    split at hn
    · rename_i n hb
      cases hb
      simpa [Runtime.divisor, Runtime.operand, Runtime.constant] using hn
    · rename_i n hb
      cases hb
      simpa [Runtime.divisor, Runtime.operand, Runtime.constant] using hn
    · cases hn

theorem value_defect (hq : Quiet flags calls) {ρ : Env (Val α D)} {v : Value} {w w' : W} {d : D}
    (h : R.value calls ρ v w = some (.defect d, w')) : mayDefect flags v = true := by
  have hexec : R.exec calls (v.rename fun _ => 0) (v.vars.map ρ) w = some (.defect d, w') →
      mayDefectWithoutFlags v = true := fun h => by
    simpa only [mayDefectWithoutFlags_rename] using R.exec_defect _ _ _ _ _ _ h
  cases v with
  | prim op ty args =>
      simp only [Runtime.value, Option.map_eq_some_iff] at h
      obtain ⟨x, -, hx⟩ := h
      cases hx
  | call callee args suspends =>
      cases callee with
      | direct f => exact hq f _ _ _ _ h
      | indirect v => rfl
      | op handler effect index => rfl
  | _ => exact hexec h

theorem silent_value (hq : Quiet flags calls) {v : Value} (hv : Silent flags (visitValue v)) (ρ : Env (Val α D))
    (w : W) (d : D) (w' : W) : value R calls ρ v w ≠ some (.defect d, w') := by
  have hzero : dividesByZero R ρ v = false := by
    cases v with
    | prim op ty args =>
        simp only [dividesByZero, Bool.and_eq_false_imp, decide_eq_false_iff_not]
        exact fun hd => divisor_ne_zero R hd hv.1
    | _ => rfl
  have hmay : mayDefect flags v = false := by
    cases v with
    | call callee args suspends =>
        cases callee with
        | direct f => exact hv.2 f (List.mem_singleton.mpr rfl)
        | indirect v => exact hv.1
        | op handler effect index => exact hv.1
    | prim op ty args => rfl
    | _ => exact hv.1
  intro h
  rw [value, hzero, if_neg Bool.false_ne_true] at h
  rw [value_defect R hq h] at hmay
  cases hmay

/-! ## Defects of code -/

/-- The way out is no defect. -/
def Calm {V X : Type} (e : WayOut V X) : Prop := ∀ d, e ≠ .raise d

theorem Calm.caught {V X : Type} {label : LabelId} {e : WayOut V X} (he : Calm e) : Calm (caught label e) := by
  cases e with
  | «break» l v =>
      intro d
      simp only [Lir.caught]
      split <;> rintro ⟨⟩
  | raise d => exact absurd rfl (he d)
  | _ => rintro _ ⟨⟩

theorem Calm.settle {w : W} {e c e' : WayOut (Val α D) D} (he : Calm e) (hc : Calm c)
    (h : settle R w e c = some e') : Calm e' := by
  cases c with
  | yield v =>
      cases h
      exact he
  | raise d => exact absurd rfl (hc d)
  | _ => cases h

variable (fuel : Nat)

mutual

theorem silentSeq (hq : Quiet flags calls) :
    ∀ (q : Seq) (_ : Silent flags (visitSeq q)) (ρ : Env (Val α D)) (w : W), Exits Calm (runSeq R calls fuel q ρ w)
  | .mk stmts term, h, ρ, w => silentStmts hq term (silent_and.mp h).2 stmts (silent_and.mp h).1 ρ w

theorem silentStmts (hq : Quiet flags calls) (term : Term) (ht : Silent flags (visitTerm term)) :
    ∀ (stmts : List Stmt) (_ : Silent flags (visitStmts stmts)) (ρ : Env (Val α D)) (w : W),
      Exits Calm (runStmts R calls fuel term stmts ρ w)
  | [], _, ρ, w => by
      rintro e w' hr d rfl
      cases term with
      | defect msg location => cases ht.1
      | _ => simp [runStmts, runTerm] at hr
  | s :: stmts, h, ρ, w => by
      have hs := silentStmt hq s (silent_and.mp h).1
      have hrest := silentStmts hq term ht stmts (silent_and.mp h).2
      intro e w' hr
      simp only [runStmts, Option.bind_eq_some_iff] at hr
      obtain ⟨⟨step, w1⟩, h1, hr⟩ := hr
      cases step with
      | next ρ1 => exact hrest ρ1 w1 e w' hr
      | exit e1 =>
          cases hr
          exact hs ρ w e w' h1

theorem silentStmt (hq : Quiet flags calls) :
    ∀ (s : Stmt) (_ : Silent flags (visitStmt s)) (ρ : Env (Val α D)) (w : W),
      StepExits Calm (runStmt R calls fuel s ρ w)
  | .let dst v onFail, h, ρ, w => by
      rintro e w' hr d rfl
      simp only [runStmt, runLet, Option.bind_eq_some_iff] at hr
      obtain ⟨⟨out, w1⟩, h1, hr⟩ := hr
      cases out with
      | value x => simp at hr
      | fail error =>
          simp only [Option.map_eq_some_iff, Prod.mk.injEq, Step.exit.injEq] at hr
          obtain ⟨edge, -, hr, -⟩ := hr
          cases edge <;> cases hr
      | defect d' => exact silent_value R hq h ρ w d' w1 h1
  | .if dst cond then_ else_, h, ρ, w => by
      have hthen := silentSeq hq then_ (silent_and.mp h).1 ρ w
      have helse := silentSeq hq else_ (silent_and.mp h).2 ρ w
      intro e w' hr
      simp only [runStmt, Option.bind_eq_some_iff] at hr
      obtain ⟨c, -, hr⟩ := hr
      cases c with
      | true => exact join_exits (g := id) hthen dst ρ (fun _ he => he) e w' (Option.bind_eq_some_iff.mpr hr)
      | false => exact join_exits (g := id) helse dst ρ (fun _ he => he) e w' (Option.bind_eq_some_iff.mpr hr)
  | .switch dst on cases default, h, ρ, w =>
      join_exits (g := id) (silentCases hq _ (fun ρ w => silentOption hq default (silent_and.mp h).2 ρ w) cases
        (silent_and.mp h).1 ρ w) dst ρ fun _ he => he
  | .loop dst vars inits body, h, ρ, w => by
      have hbody : ∀ vs w, Exits Calm ((defineAll ρ vars vs).bind fun ρ => runSeq R calls fuel body ρ w) := by
        intro vs w e w' hr
        obtain ⟨ρ1, -, hr⟩ := Option.bind_eq_some_iff.mp hr
        exact silentSeq hq body h ρ1 w e w' hr
      exact join_exits (g := id) (iterate_exits hbody (fun _ he _ => he) fuel _ w) dst ρ fun _ he => he
  | .block dst label body, h, ρ, w => join_exits (silentSeq hq body h ρ w) dst ρ fun _ => Calm.caught
  | .protect dst body cleanup, h, ρ, w => by
      have hbody := silentSeq hq body (silent_and.mp h).1 ρ
      have hcleanup := silentSeq hq cleanup (silent_and.mp h).2 ρ
      intro e w' hr
      simp only [runStmt, Option.bind_eq_some_iff] at hr
      obtain ⟨⟨e1, w1⟩, h1, ⟨c, w2⟩, h2, e2, h3, hr⟩ := hr
      have he2 : Exits Calm (some (e2, w2)) := fun e s hs => by
        cases hs
        exact (hbody w e1 w1 h1).settle R (hcleanup w1 c w2 h2) h3
      exact join_exits (g := id) he2 dst ρ (fun _ he => he) e w' hr

theorem silentCases (hq : Quiet flags calls) (x : Val α D)
    {otherwise : Env (Val α D) → W → Option (WayOut (Val α D) D × W)} (ho : ∀ ρ w, Exits Calm (otherwise ρ w)) :
    ∀ (cases : List (CaseKey × Seq)) (_ : Silent flags (visitCases cases)) (ρ : Env (Val α D)) (w : W),
      Exits Calm (runCases R calls fuel x otherwise cases ρ w)
  | [], _, ρ, w => ho ρ w
  | (key, body) :: cases, h, ρ, w => by
      have hbody := silentSeq hq body (silent_and.mp h).1 ρ w
      have hcases := silentCases hq x ho cases (silent_and.mp h).2 ρ w
      unfold runCases
      split
      · exact hbody
      · exact hcases

theorem silentOption (hq : Quiet flags calls) :
    ∀ (q : Option Seq) (_ : Silent flags (visitOption q)) (ρ : Env (Val α D)) (w : W),
      Exits Calm (runOption R calls fuel q ρ w)
  | none, _, _, _ => by simp [Exits, runOption]
  | some body, h, ρ, w => silentSeq hq body h ρ w

end

/-- A function without the flag never comes back with a defect. -/
theorem call_quiet (m : Module) : ∀ fuel, Quiet (analyse m) (call R m fuel)
  | 0 => fun _ _ _ _ _ h => by cases h
  | fuel + 1 => by
      intro i args w d w' h
      simp only [call, Option.bind_eq_some_iff] at h
      obtain ⟨f, hf, h⟩ := h
      by_contra hi
      have hsilent := analyse_silent hf (Bool.eq_false_iff.mpr hi)
      unfold visitFunction at hsilent
      unfold runFunction at h
      split at hsilent
      · cases hsilent.1
      · rename_i body hbody
        obtain ⟨hraises, hcallees⟩ := hsilent
        simp only [Bool.or_eq_false_iff] at hraises
        simp only [hbody, hraises.1.2, Bool.false_eq_true, ↓reduceIte, Option.bind_eq_some_iff,
          Option.map_eq_some_iff, Prod.mk.injEq] at h
        obtain ⟨ρ, -, ⟨e, w1⟩, hrun, out, hout, rfl, rfl⟩ := h
        have hcalm := silentSeq R fuel (call_quiet m fuel) body ⟨hraises.2, hcallees⟩ ρ w
        cases e with
        | raise d' => exact hcalm _ w1 hrun d' rfl
        | _ => cases hout

end

end Emela.Lir.Implicit
