import Emela.Lir.Lemmas.RcCheck
import Emela.Lir.Paths

/-!
# The references held along a path

Each event is judged with the references held before it, and these are the references made less those
taken.
-/

namespace Emela.Lir

variable {f : Function}

/-- The references after the event. -/
def Event.run (h : Tokens) : Event → Tokens
  | .define v owned => Function.update h v (if owned then 1 else 0)
  | .dup v | .restore v => Function.update h v (h v + 1)
  | .consume v => Function.update h v (h v - 1)
  | .borrow _ | .exit => h

/-- The event can happen with the references held. -/
def Event.Allowed (f : Function) (h : Tokens) : Event → Prop
  | .define v _ => h v = 0
  | .dup _ | .restore _ => True
  | .consume v => 0 < h v
  | .borrow v => borrowedParam f v = true ∨ 0 < h v
  | .exit => ∀ v, h v = 0

/-- The references after the events. -/
def held (h : Tokens) (tr : List Event) : Tokens := tr.foldl Event.run h

/-- Every event is allowed where it happens. -/
def Safe (f : Function) (h : Tokens) : List Event → Prop
  | [] => True
  | e :: tr => e.Allowed f h ∧ Safe f (e.run h) tr

@[simp] theorem held_nil (h : Tokens) : held h [] = h := rfl

@[simp] theorem held_cons (h : Tokens) (e : Event) (tr : List Event) : held h (e :: tr) = held (e.run h) tr := rfl

@[simp] theorem held_append (h : Tokens) (a b : List Event) : held h (a ++ b) = held (held h a) b := List.foldl_append

@[simp] theorem Safe.nil (h : Tokens) : Safe f h [] := trivial

theorem Safe.append_iff {h : Tokens} {a b : List Event} : Safe f h (a ++ b) ↔ Safe f h a ∧ Safe f (held h a) b := by
  induction a generalizing h with
  | nil => simp
  | cons e a ih => simp only [List.cons_append, Safe, ih, held_cons, and_assoc]

theorem Safe.append {h : Tokens} {a b : List Event} (ha : Safe f h a) (hb : Safe f (held h a) b) :
    Safe f h (a ++ b) := Safe.append_iff.mpr ⟨ha, hb⟩

/-! ## What is held is what was made and not taken -/

theorem made_cons (v : VarId) (e : Event) (tr : List Event) : made v (e :: tr) = made v [e] + made v tr := by
  simp only [made, List.count_cons, List.count_nil]
  omega

theorem taken_cons (v : VarId) (e : Event) (tr : List Event) : taken v (e :: tr) = taken v [e] + taken v tr := by
  simp only [taken, List.count_cons, List.count_nil]
  omega

/-- An allowed event changes the references by what it makes and takes. -/
theorem Event.run_eq {h : Tokens} {e : Event} (he : e.Allowed f h) (v : VarId) :
    e.run h v + taken v [e] = h v + made v [e] := by
  cases e with
  | define x owned =>
      have hx : h x = 0 := he
      by_cases hv : v = x
      · subst hv
        cases owned <;> simp [Event.run, made, taken, hx]
      · simp [Event.run, made, taken, hv, Ne.symm hv]
  | consume x =>
      have hx : 0 < h x := he
      by_cases hv : v = x
      · subst hv
        simp [Event.run, made, taken]
        omega
      · simp [Event.run, made, taken, hv, Ne.symm hv]
  | dup x | restore x =>
      by_cases hv : v = x
      · subst hv
        simp [Event.run, made, taken]
      · simp [Event.run, made, taken, hv, Ne.symm hv]
  | borrow | exit => simp [Event.run, made, taken]

theorem Safe.held_eq {h : Tokens} {tr : List Event} (hs : Safe f h tr) (v : VarId) :
    held h tr v + taken v tr = h v + made v tr := by
  induction tr generalizing h with
  | nil => simp [made, taken]
  | cons e tr ih =>
      have first := Event.run_eq hs.1 v
      have rest := ih hs.2
      rw [held_cons, taken_cons, made_cons]
      omega

/-- On a path that starts with no references every event is right. -/
theorem Safe.right {pre post : List Event} {e : Event} (hs : Safe f (fun _ => 0) (pre ++ e :: post)) :
    e.Right f pre := by
  obtain ⟨hpre, he, -⟩ := Safe.append_iff.mp hs
  have balance : ∀ v, held (fun _ => 0) pre v + taken v pre = made v pre := by
    intro v
    rw [hpre.held_eq, Nat.zero_add]
  cases e with
  | define v owned =>
      have : held (fun _ => 0) pre v = 0 := he
      have := balance v
      simp only [Event.Right]
      omega
  | dup | restore => trivial
  | consume v =>
      have : 0 < held (fun _ => 0) pre v := he
      have := balance v
      simp only [Event.Right]
      omega
  | borrow v =>
      have := balance v
      rcases he with he | he
      · exact .inl he
      · exact .inr (by omega)
  | exit =>
      intro v
      have : held (fun _ => 0) pre v = 0 := he v
      have := balance v
      omega

/-! ## The events of values and definitions -/

theorem safe_consume {h : Tokens} {vs : List VarId} (hv : ∀ v, vs.count v ≤ h v) :
    Safe f h (vs.map .consume) ∧ held h (vs.map .consume) = fun v => h v - vs.count v := by
  induction vs generalizing h with
  | nil => simp
  | cons v vs ih =>
      have pos : 0 < h v := by
        have := hv v
        rw [List.count_cons_self] at this
        omega
      have rest : ∀ x, vs.count x ≤ Event.run h (.consume v) x := by
        intro x
        have := hv x
        by_cases hx : x = v
        · subst hx
          rw [List.count_cons_self] at this
          simp [Event.run]
          omega
        · rw [List.count_cons_of_ne (Ne.symm hx)] at this
          simpa [Event.run, hx] using this
      obtain ⟨hs, heq⟩ := ih rest
      refine ⟨⟨pos, hs⟩, ?_⟩
      rw [List.map_cons, held_cons, heq]
      funext x
      by_cases hx : x = v
      · subst hx
        rw [List.count_cons_self]
        simp [Event.run]
        omega
      · rw [List.count_cons_of_ne (Ne.symm hx)]
        simp [Event.run, hx]

theorem safe_borrow {h : Tokens} {vs : List VarId} (hv : ∀ v ∈ vs, borrowedParam f v = true ∨ 0 < h v) :
    Safe f h (vs.map .borrow) ∧ held h (vs.map .borrow) = h := by
  induction vs with
  | nil => simp
  | cons v vs ih =>
      obtain ⟨hs, heq⟩ := ih fun x hx => hv x (List.mem_cons_of_mem _ hx)
      exact ⟨⟨hv v (by simp), hs⟩, heq⟩

theorem safe_restore (h : Tokens) (vs : List VarId) :
    Safe f h (vs.map .restore) ∧ held h (vs.map .restore) = fun v => h v + vs.count v := by
  induction vs generalizing h with
  | nil => simp
  | cons v vs ih =>
      obtain ⟨hs, heq⟩ := ih (Event.run h (.restore v))
      refine ⟨⟨trivial, hs⟩, ?_⟩
      rw [List.map_cons, held_cons, heq]
      funext x
      by_cases hx : x = v
      · subst hx
        rw [List.count_cons_self]
        simp [Event.run]
        omega
      · rw [List.count_cons_of_ne (Ne.symm hx)]
        simp [Event.run, hx]

/-- Variables defined where they hold nothing, as the check defines them. -/
theorem safe_define {t : Tokens} {vs : List VarId} {owned : Bool} (c : Check) (hn : vs.Nodup)
    (hv : ∀ v ∈ vs, counted f v = true → t v = 0) :
    Safe f t (defineEvents f vs owned) ∧
      c.defineAll f t (vs.map (·, if owned then 1 else 0)) =
        (held t (defineEvents f vs owned), { c with scope := c.scope ++ vs.filter (counted f) }) := by
  induction vs generalizing c t with
  | nil => simp [defineEvents, Check.defineAll]
  | cons v vs ih =>
      rw [List.nodup_cons] at hn
      have step : c.defineAll f t ((v :: vs).map (·, if owned then 1 else 0)) =
          (c.define f t v (if owned then 1 else 0)).2.defineAll f (c.define f t v (if owned then 1 else 0)).1
            (vs.map (·, if owned then 1 else 0)) := rfl
      rw [step]
      by_cases hc : counted f v = true
      · have rest : ∀ x ∈ vs, counted f x = true → Event.run t (.define v owned) x = 0 := by
          intro x hx hxc
          have hne : x ≠ v := fun h => hn.1 (h ▸ hx)
          rw [Event.run, Function.update_of_ne hne]
          exact hv x (List.mem_cons_of_mem _ hx) hxc
        obtain ⟨hs, heq⟩ := ih { c with scope := c.scope ++ [v] } hn.2 rest
        have events : defineEvents f (v :: vs) owned = .define v owned :: defineEvents f vs owned := by
          simp [defineEvents, hc]
        rw [events, Check.define_eq hc]
        refine ⟨⟨hv v (by simp) hc, hs⟩, ?_⟩
        rw [held_cons]
        simpa [hc, Event.run] using heq
      · have hc : counted f v = false := by simpa using hc
        have events : defineEvents f (v :: vs) owned = defineEvents f vs owned := by simp [defineEvents, hc]
        rw [events, Check.define_uncounted hc]
        simpa [hc] using ih c hn.2 fun x hx => hv x (List.mem_cons_of_mem _ hx)

end Emela.Lir
