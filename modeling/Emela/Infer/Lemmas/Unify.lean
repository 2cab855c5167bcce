import Emela.Infer.Lemmas.Free
import Emela.Infer.Table

/-!
# What unification preserves

Bindings end: a variable is bound only to a type it does not occur in. With that, what a unification preserves is what
uniting two variables and binding one preserve.
-/

namespace Emela.Infer

open UnificationTable LawfulTable InferCtx

variable {T : Type}

/-! ## Bindings that end -/

section
variable [UnificationTable T]

inductive Ends (t : T) : Ty → Prop where
  | free {v : TyVar} : probeValue t v = none → Ends t (.var v)
  | value {v : TyVar} {ty : Ty} : probeValue t v = some ty → Ends t ty → Ends t (.var v)
  | parts {ty : Ty} : (∀ v, ty ≠ .var v) → (∀ child ∈ ty.children, Ends t child) → Ends t ty

variable {t t' : T} {k : Nat} {v : TyVar} {ty : Ty}

/-- A type of keys ends where the keys do. -/
theorem Ends.of_keys (h : ∀ v < k, Ends t (.var v)) (hty : ty.Keyed k) : Ends t ty := by
  induction hty with
  | @mk ty hvars _ ih =>
    by_cases hvar : ∃ v, ty = .var v
    · obtain ⟨v, rfl⟩ := hvar
      exact h v (hvars v rfl)
    · exact .parts (fun v heq => hvar ⟨v, heq⟩) ih

/-- Another table with the same values. -/
theorem Ends.of_values (hvalues : ∀ v < k, ∀ ty, probeValue t v = some ty → ty.Keyed k)
    (heq : ∀ v < k, probeValue t' v = probeValue t v) (h : Ends t ty) (hty : ty.Keyed k) : Ends t' ty := by
  induction h with
  | @free v hprobe => exact .free ((heq v (hty.self v rfl)).trans hprobe)
  | @value v ty hprobe _ ih =>
    have hv := hty.self v rfl
    exact .value ((heq v hv).trans hprobe) (ih (hvalues v hv ty hprobe))
  | parts hvar _ ih => exact .parts hvar fun child hchild => ih child hchild (hty.child hchild)

theorem FreeIn.value {w : TyVar} (hprobe : probeValue t w = some ty) (h : FreeIn t v ty) : FreeIn t v (.var w) := by
  have hstep : ∀ {n : Nat} {z : Ty}, shallowResolve t n ty = some z → shallowResolve t (n + 1) (.var w) = some z := by
    intro n z hz
    rw [shallowResolve, hprobe]
    exact hz
  cases h with
  | var hz => exact .var (hstep hz)
  | child hz hchild h => exact .child (hstep hz) hchild h

theorem anyM_false {α : Type} {f : α → Option Bool} {xs : List α} (h : xs.anyM f = some false) :
    ∀ x ∈ xs, f x = some false := by
  induction xs with
  | nil => simp
  | cons x xs ih =>
    rw [List.anyM] at h
    obtain ⟨b, hb, h⟩ := Option.bind_eq_some_iff.mp h
    cases b with
    | true => cases h
    | false => exact List.forall_mem_cons.mpr ⟨hb, ih h⟩

variable [LawfulTable T]

/-- What `occurs` finds. -/
theorem not_freeIn_of_occurs {n : Nat} (hv : v < len t) (h : occurs t v n ty = some false) : ¬FreeIn t (find t v) ty := by
  induction n generalizing ty with
  | zero => cases h
  | succ n ih =>
    rw [occurs] at h
    obtain ⟨z, hz, h⟩ := Option.bind_eq_some_iff.mp h
    intro hfree
    cases hfree with
    | var hz' =>
      obtain rfl := shallowResolve_unique hz hz'
      have hne := Option.some.inj h
      rw [find_find t v hv, beq_self_eq_true] at hne
      cases hne
    | child hz' hchild hfree =>
      obtain rfl := shallowResolve_unique hz hz'
      have hchildren : z.children.anyM (occurs t v n) = some false := by
        cases z with
        | var w => cases hchild
        | _ => exact h
      exact ih (anyM_false hchildren _ hchild) hfree

/-- A type the variable does not occur in, where the variable is given a value. -/
theorem Ends.of_not_freeIn {s : Ty} (hv : v < len t) (hprobe : probeValue t v = none)
    (hvalues : ∀ v < len t, ∀ ty, probeValue t v = some ty → ty.Keyed (len t)) (h : Ends t ty) (hty : ty.Keyed (len t))
    (hfree : ¬FreeIn t (find t v) ty) : Ends (unionValue t v s) ty := by
  have hstays : ∀ w < len t, find t w ≠ find t v → probeValue (unionValue t v s) w = probeValue t w := by
    intro w hw hne
    rw [probe_unionValue t v w s hv hw hprobe, if_neg hne]
  induction h with
  | @free w hw =>
    have hlt : w < len t := hty.self w rfl
    apply Ends.free
    rw [hstays w hlt, hw]
    intro heq
    apply hfree
    apply FreeIn.var (n := 1)
    rw [shallowResolve, hw, heq]
  | @value w ty hw _ ih =>
    have hlt : w < len t := hty.self w rfl
    refine Ends.value (?_ : probeValue _ w = some ty) ?_
    · rw [hstays w hlt, hw]
      intro heq
      rw [← probe_find t w hlt, heq, probe_find t v hv, hprobe] at hw
      cases hw
    · exact ih (hvalues w hlt ty hw) fun h => hfree (h.value hw)
  | @parts ty hvar _ ih =>
    have hself : shallowResolve t 1 ty = some ty := by
      cases ty with
      | var v => exact absurd rfl (hvar v)
      | _ => rfl
    exact .parts hvar fun child hchild => ih child hchild (hty.child hchild) fun h => hfree (.child hself hchild h)

end

/-! ## Sound contexts -/

theorem bufferRows_table (kind : SetKind) (e a : Row) (variance : Variance) (c : InferCtx T) :
    (c.bufferRows kind e a variance).table = c.table ∧ (c.bufferRows kind e a variance).intVars = c.intVars := by
  unfold bufferRows
  split
  · exact ⟨rfl, rfl⟩
  · cases variance <;> exact ⟨rfl, rfl⟩

section
variable [UnificationTable T]

/-- The context knows of this many keys, and their bindings end. -/
structure Sound (k : Nat) (c : InferCtx T) : Prop where
  len_eq : len c.table = k
  keyed : c.Keyed
  ends : ∀ v < k, Ends c.table (.var v)

variable {k : Nat} {c d : InferCtx T} {x y v : TyVar} {ty : Ty}

theorem Sound.of_eq (h : Sound k c) (htable : d.table = c.table) (hint : ∀ w ∈ d.intVars, w < k) : Sound k d := by
  obtain ⟨hlen, hkeyed, hends⟩ := h
  constructor
  · rw [htable, hlen]
  · constructor
    · rw [htable, hlen]
      exact hint
    · rw [htable]
      exact hkeyed.values
  · rw [htable]
    exact hends

theorem Sound.intVars (h : Sound k c) : ∀ w ∈ c.intVars, w < k := by
  rw [← h.len_eq]
  exact h.keyed.intVars

theorem Sound.bufferRows (h : Sound k c) (kind : SetKind) (e a : Row) (variance : Variance) :
    Sound k (c.bufferRows kind e a variance) := by
  obtain ⟨htable, hint⟩ := bufferRows_table kind e a variance c
  apply h.of_eq htable
  rw [hint]
  exact h.intVars

variable [LawfulTable T]

theorem Sound.unionVars (h : Sound k c) (hx : x < k) (hy : y < k) (hpx : probeValue c.table x = none)
    (hpy : probeValue c.table y = none) : Sound k (c.unionVars x y) := by
  obtain ⟨rfl, hkeyed, hends⟩ := h
  have hlen : len (union c.table x y) = len c.table := len_union c.table x y
  have hprobe : ∀ v < len c.table, probeValue (union c.table x y) v = probeValue c.table v :=
    fun v hv => probe_union c.table x y v hx hy hv hpx hpy
  constructor
  · exact hlen
  · constructor
    · intro w hw
      change w < len (union c.table x y)
      simp only [InferCtx.unionVars] at hw
      split at hw
      · rcases List.mem_append.mp hw with hw | hw
        · rw [hlen]
          exact hkeyed.intVars w hw
        · obtain rfl := List.mem_singleton.mp hw
          apply find_lt
          rwa [hlen]
      · rw [hlen]
        exact hkeyed.intVars w hw
    · intro v hv ty hty
      change v < len (union c.table x y) at hv
      change ty.Keyed (len (union c.table x y))
      rw [hlen] at hv ⊢
      exact hkeyed.values v hv ty ((hprobe v hv).symm.trans hty)
  · intro v hv
    exact (hends v hv).of_values hkeyed.values hprobe (.var hv)

theorem Sound.bindVar {n : Nat} (h : Sound k c) (hv : v < k) (hpv : probeValue c.table v = none) (hty : ty.Keyed k)
    (hoccurs : occurs c.table v n ty = some false) : Sound k { c with table := unionValue c.table v ty } := by
  obtain ⟨rfl, hkeyed, hends⟩ := h
  have hlen : len (unionValue c.table v ty) = len c.table := len_unionValue c.table v ty
  have hprobe : ∀ w < len c.table, probeValue (unionValue c.table v ty) w =
      if find c.table w = find c.table v then some ty else probeValue c.table w :=
    fun w hw => probe_unionValue c.table v w ty hv hw hpv
  have hvalue : Ends (unionValue c.table v ty) ty := Ends.of_not_freeIn hv hpv hkeyed.values (.of_keys hends hty) hty
    (not_freeIn_of_occurs hv hoccurs)
  constructor
  · exact hlen
  · constructor
    · change ∀ w ∈ c.intVars, w < len (unionValue c.table v ty)
      rw [hlen]
      exact hkeyed.intVars
    · intro w hw s hs
      change w < len (unionValue c.table v ty) at hw
      change s.Keyed (len (unionValue c.table v ty))
      change probeValue (unionValue c.table v ty) w = some s at hs
      rw [hlen] at hw ⊢
      rw [hprobe w hw] at hs
      split at hs
      · cases hs
        exact hty
      · exact hkeyed.values w hw s hs
  · intro w hw
    have hold : Ends c.table (.var w) := hends w hw
    have hkey : (Ty.var w).Keyed (len c.table) := .var hw
    generalize Ty.var w = s at hold hkey
    change Ends (unionValue c.table v ty) s
    induction hold with
    | @free w hpw =>
      have heq := hprobe w (hkey.self w rfl)
      split at heq
      · exact .value heq hvalue
      · exact .free (heq.trans hpw)
    | @value w s hpw _ ih =>
      have hlt : w < len c.table := hkey.self w rfl
      have heq := hprobe w hlt
      split at heq
      · exact .value heq hvalue
      · exact .value (heq.trans hpw) (ih (hkeyed.values w hlt s hpw))
    | parts hvar _ ih => exact .parts hvar fun child hchild => ih child hchild (hkey.child hchild)

end

/-! ## The induction -/

/-- What holds of the context a step leads to, also where it failed. -/
def Leads (P : InferCtx T → Prop) (o : Option (Outcome T)) : Prop := ∀ r d, o = some (r, d) → P d

section
variable {P : InferCtx T → Prop} {c : InferCtx T} {o : Option (Outcome T)}

theorem Leads.none : Leads P (Option.none : Option (Outcome T)) := by
  intro r d h
  cases h

theorem Leads.some {r : Except TypeErrorKind Unit} (h : P c) : Leads P (Option.some (r, c)) := by
  intro r' d heq
  cases heq
  exact h

theorem Leads.andThen {f : InferCtx T → Option (Outcome T)} (h : Leads P o) (hf : ∀ c, P c → Leads P (f c)) :
    Leads P (andThen o f) := by
  match o with
  | .none => exact .none
  | .some (.error kind, d) => exact h
  | .some (.ok (), d) => exact hf d (h _ d rfl)

theorem leads_unifyEach {f : Ty → Ty → InferCtx T → Option (Outcome T)} {xs ys : List Ty}
    (h : ∀ x y, (x, y) ∈ xs.zip ys → ∀ c, P c → Leads P (f x y c)) (hc : P c) : Leads P (unifyEach f xs ys c) := by
  induction xs generalizing ys c with
  | nil => exact .some hc
  | cons x xs ih =>
    cases ys with
    | nil => exact .some hc
    | cons y ys =>
      apply (h x y List.mem_cons_self c hc).andThen
      intro d hd
      exact ih (fun x y hxy => h x y (List.mem_cons_of_mem _ hxy)) hd

end

section
variable [UnificationTable T]

/-- The relation holds of the types the recursion comes to, and uniting and binding related variables keeps `I`. -/
structure Preserved (k : Nat) (R : Ty → Ty → Prop) (I : InferCtx T → Prop) : Prop where
  keyed : ∀ {x y : Ty}, R x y → x.Keyed k ∧ y.Keyed k
  symm : ∀ {x y : Ty}, R x y → R y x
  parts : ∀ {x y p q : Ty}, R x y → (p, q) ∈ x.parts y → R p q
  value : ∀ {c : InferCtx T} {v : TyVar} {ty y : Ty}, Sound k c → I c → R (.var v) y → probeValue c.table v = some ty →
    R ty y
  find : ∀ {c : InferCtx T} {v : TyVar} {y : Ty}, Sound k c → I c → R (.var v) y → R (.var (find c.table v)) y
  union : ∀ {c : InferCtx T} {x y : TyVar}, Sound k c → I c → R (.var x) (.var y) → probeValue c.table x = none →
    probeValue c.table y = none → I (c.unionVars x y)
  bind : ∀ {c : InferCtx T} {v : TyVar} {ty : Ty}, Sound k c → I c → R (.var v) ty → probeValue c.table v = none →
    I { c with table := unionValue c.table v ty }
  buffer : ∀ {c : InferCtx T} (kind : SetKind) (e a : Row) (variance : Variance), I c → I (c.bufferRows kind e a variance)

variable {k : Nat} {R : Ty → Ty → Prop} {I : InferCtx T → Prop} {c : InferCtx T}

theorem Preserved.bufferRows (h : Preserved k R I) (kind : SetKind) (e a : Row) (variance : Variance)
    (hc : Sound k c ∧ I c) : Sound k (c.bufferRows kind e a variance) ∧ I (c.bufferRows kind e a variance) :=
  ⟨hc.1.bufferRows kind e a variance, h.buffer kind e a variance hc.2⟩

variable [LawfulTable T]

theorem Preserved.shallow (h : Preserved k R I) (hs : Sound k c) (hI : I c) {n : Nat} {x y z : Ty} (hR : R x y)
    (hz : shallowResolve c.table n x = some z) : R z y ∧ ∀ v, z = .var v → probeValue c.table v = none := by
  induction n generalizing x with
  | zero => cases hz
  | succ n ih =>
    cases x with
    | var v =>
      have hv : v < len c.table := hs.len_eq ▸ (h.keyed hR).1.self v rfl
      rw [shallowResolve] at hz
      cases hprobe : probeValue c.table v with
      | some bound =>
        simp only [hprobe] at hz
        exact ih (h.value hs hI hR hprobe) hz
      | none =>
        simp only [hprobe] at hz
        obtain rfl := Option.some.inj hz
        refine ⟨h.find hs hI hR, ?_⟩
        rintro w ⟨⟩
        exact (probe_find c.table v hv).trans hprobe
    | _ =>
      obtain rfl := Option.some.inj hz
      exact ⟨hR, fun v heq => by cases heq⟩

theorem Preserved.unifyVar (h : Preserved k R I) (hs : Sound k c) (hI : I c) (n : Nat) {v : TyVar} {ty e a : Ty}
    (hR : R (.var v) ty) (hprobe : probeValue c.table v = none) :
    Leads (fun d => Sound k d ∧ I d) (c.unifyVar n v ty e a) := by
  obtain ⟨hv, hty⟩ := h.keyed hR
  unfold InferCtx.unifyVar
  split
  · exact .some ⟨hs, hI⟩
  · unfold InferCtx.bindVar
    cases hoccurs : occurs c.table v n ty with
    | none => exact .none
    | some found =>
      cases found with
      | true => exact .some ⟨hs, hI⟩
      | false => exact .some ⟨hs.bindVar (hv.self v rfl) hprobe hty hoccurs, h.bind hs hI hR hprobe⟩

/-- The step lemma. -/
theorem Preserved.unifyInner (h : Preserved k R I) (n : Nat) {expected actual : Ty} (variance : Variance)
    (hc : Sound k c ∧ I c) (hstart : R expected actual) :
    Leads (fun d => Sound k d ∧ I d) (c.unifyInner n expected actual variance) := by
  induction n generalizing expected actual variance c with
  | zero => exact .none
  | succ n ih =>
    rw [InferCtx.unifyInner]
    cases he : shallowResolve c.table (n + 1) expected with
    | none => exact .none
    | some e =>
      cases ha : shallowResolve c.table (n + 1) actual with
      | none => exact .none
      | some a =>
        obtain ⟨hleft, hpe⟩ := h.shallow hc.1 hc.2 hstart he
        obtain ⟨hright, hpa⟩ := h.shallow hc.1 hc.2 (h.symm hleft) ha
        have hR := h.symm hright
        clear he ha hleft hright
        simp only [Option.bind_eq_bind, Option.bind_some]
        -- The parts of two types of one constructor.
        have each : ∀ {xs ys : List Ty} (variance : Variance), (∀ p q, (p, q) ∈ xs.zip ys → (p, q) ∈ e.parts a) →
            Leads (fun d => Sound k d ∧ I d) (unifyEach (fun x y => InferCtx.unifyInner n x y variance) xs ys c) := by
          intro xs ys variance hparts
          refine leads_unifyEach (fun p q hpq d hd => ?_) hc
          exact ih variance hd (h.parts hR (hparts p q hpq))
        cases e <;> cases a
        case var.var x y =>
          have hx := (h.keyed hR).1.self x rfl
          have hy := (h.keyed hR).2.self y rfl
          exact .some ⟨hc.1.unionVars hx hy (hpe x rfl) (hpa y rfl), h.union hc.1 hc.2 hR (hpe x rfl) (hpa y rfl)⟩
        case cap.cap d xs d' ys =>
          dsimp only
          split
          · next heq => exact each .inv fun p q hpq => by rwa [Ty.parts, if_pos heq]
          · exact .some hc
        case fn.fn ps r fails uses qs s fails' uses' =>
          dsimp only
          split
          · next heq =>
            have hparts : (Ty.fn ps r fails uses).parts (.fn qs s fails' uses') = ps.zip qs ++ [(r, s)] := if_pos heq
            apply Leads.andThen
            · apply (each variance.flip fun p q hpq => hparts ▸ List.mem_append_left _ hpq).andThen
              intro d hd
              exact ih variance hd (h.parts hR (hparts ▸ List.mem_append_right _ List.mem_cons_self))
            · intro d hd
              exact .some (h.bufferRows _ _ _ _ (h.bufferRows _ _ _ _ hd))
          · exact .some hc
        case tuple.tuple xs ys =>
          dsimp only
          split
          · next heq => exact each variance fun p q hpq => by rwa [Ty.parts, if_pos heq]
          · exact .some hc
        case named.named d xs d' ys =>
          dsimp only
          split
          · next heq => exact each .inv fun p q hpq => by rwa [Ty.parts, if_pos heq]
          · exact .some hc
        case list.list x y => exact ih variance hc (h.parts hR List.mem_cons_self)
        case set.set k x l y =>
          dsimp only
          split
          · exact .some (h.bufferRows _ _ _ _ hc)
          · exact .some hc
        all_goals first
          | exact .some hc
          | exact h.unifyVar hc.1 hc.2 _ hR (hpe _ rfl)
          | exact h.unifyVar hc.1 hc.2 _ (h.symm hR) (hpa _ rfl)
          | (dsimp only; split <;> exact .some hc)

end

end Emela.Infer
