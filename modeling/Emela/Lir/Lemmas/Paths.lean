import Emela.Lir.Lemmas.Extends
import Emela.Lir.Lemmas.Held

/-!
# A check without messages

Where the check finds nothing, its tokens are the references held on every path: each event is allowed,
and each way out of the code brings the references that the check expects at its join point.
-/

namespace Emela.Lir

variable {m : Module} {f : Function}

/-! ## Parts of statements -/

theorem Check.error_ne (c : Check) (message : String) : (c.error message).errors ≠ [] := by simp [Check.error]

theorem takeAll_ok {what : String} {c : Check} {t : Tokens} {vs : List VarId}
    (h : (c.takeAll f what t vs).2.errors = []) :
    c.takeAll f what t vs = (fun v => t v - vs.count v, c) ∧ ∀ v, vs.count v ≤ t v := by
  have enough : ∀ v, vs.count v ≤ t v := by
    induction vs generalizing c t with
    | nil => simp
    | cons v vs ih =>
        have first : c.takeAll f what t (v :: vs) =
            (Check.take f what (t, c) v).2.takeAll f what (Check.take f what (t, c) v).1 vs := rfl
        rw [first] at h
        have before := (extends_takeAll (L := ∅) _ _ _ _).errors h
        by_cases hv : t v = 0
        · rw [Check.take, if_pos hv] at before
          exact absurd before (c.error_ne _)
        · rw [Check.take, if_neg hv] at h
          have rest : ∀ x, vs.count x ≤ Function.update t v (t v - 1) x := ih h
          intro x
          have := rest x
          by_cases hx : x = v
          · subst hx
            rw [Function.update_self] at this
            rw [List.count_cons_self]
            omega
          · rw [Function.update_of_ne hx] at this
            rwa [List.count_cons_of_ne (Ne.symm hx)]
  exact ⟨Check.takeAll_eq enough, enough⟩

theorem borrow_ok {c : Check} {t : Tokens} {vs : List VarId} (h : (vs.foldl (Check.borrow f t) c).errors = []) :
    ∀ v ∈ vs, borrowedParam f v = true ∨ 0 < t v := by
  induction vs generalizing c with
  | nil => simp
  | cons v vs ih =>
      rw [List.foldl_cons] at h
      have before := (extends_foldl (L := ∅) (extends_borrow (f := f) t) _ _).errors h
      have first : borrowedParam f v = true ∨ 0 < t v := by
        by_contra hv
        rw [not_or, Bool.not_eq_true, Nat.not_lt] at hv
        rw [Check.borrow, if_pos (by simp [hv.1]; omega)] at before
        exact absurd before (c.error_ne _)
      intro x hx
      rcases List.mem_cons.mp hx with rfl | hx
      · exact first
      · exact ih h x hx

theorem leave_ok {c : Check} {t : Tokens} {vs : List VarId} (h : (vs.foldl (Check.leave f t) c).errors = []) :
    ∀ v ∈ vs, t v = 0 := by
  induction vs generalizing c with
  | nil => simp
  | cons v vs ih =>
      rw [List.foldl_cons] at h
      have before := (extends_foldl (L := ∅) (extends_leave (f := f) t) _ _).errors h
      have first : t v = 0 := by
        by_contra hv
        rw [Check.leave, if_pos hv] at before
        exact absurd before (c.error_ne _)
      intro x hx
      rcases List.mem_cons.mp hx with rfl | hx
      · exact first
      · exact ih h x hx

/-- An edge out of the function leaves no reference. -/
theorem deliver_out_ok {c : Check} {t : Tokens} (h : (c.deliver f none t).errors = []) : ∀ v ∈ c.scope, t v = 0 := by
  apply leave_ok (f := f) (c := c)
  simpa [Check.deliver, Check.mark] using h

/-! ## Join points -/

/-- The references come to the join point, where the check expects them. -/
def Check.Arrives (c : Check) (scope : List VarId) (i : Nat) (h : Tokens) : Prop :=
  ∃ s, c.slots[i]? = some s ∧ s.mark ≤ scope.length ∧ s.expected = some ((scope.take s.mark).map h) ∧
    ∀ v, v ∉ scope.take s.mark → h v = 0

theorem eq_of_no_difference {vs : List VarId} {x y : List Nat} (hx : x.length = vs.length) (hy : y.length = vs.length)
    (h : ∀ p ∈ vs.zip (x.zip y), p.2.1 = p.2.2) : x = y := by
  induction vs generalizing x y with
  | nil => simp_all
  | cons v vs ih =>
      obtain ⟨a, x, rfl⟩ := List.exists_cons_of_length_eq_add_one hx
      obtain ⟨b, y, rfl⟩ := List.exists_cons_of_length_eq_add_one hy
      rw [List.zip_cons_cons, List.zip_cons_cons, List.forall_mem_cons] at h
      rw [ih (by simpa using hx) (by simpa using hy) h.2, show a = b from h.1]

theorem deliver_ok {c : Check} {t : Tokens} {i : Nat} (hl : c.Leads (some i)) (ht : ∀ v, v ∉ c.scope → t v = 0)
    (h : (c.deliver f (some i) t).errors = []) : (c.deliver f (some i) t).Arrives c.scope i t := by
  obtain ⟨i, s, hi, hs, hmark, hfits⟩ := hl
  obtain rfl := Option.some.inj hi
  obtain ⟨mark, expected⟩ := s
  have same := foldl_leave_slots (f := f) c t (c.scope.drop (c.mark (some i)))
  have hm : c.mark (some i) = mark := by simp [Check.mark, hs]
  simp only [Check.deliver, hm] at h same ⊢
  have left : ((c.scope.drop mark).foldl (Check.leave f t) c).errors = [] → ∀ v, v ∉ c.scope.take mark → t v = 0 := by
    intro hleft v hv
    by_cases hin : v ∈ c.scope
    · rw [← List.take_append_drop mark c.scope, List.mem_append] at hin
      exact leave_ok hleft v (hin.resolve_left hv)
    · exact ht v hin
  generalize (c.scope.drop mark).foldl (Check.leave f t) c = c' at h same left ⊢
  rw [← same] at hs
  simp only [hs] at h ⊢
  have lt := (List.getElem?_eq_some_iff.mp hs).1
  cases expected with
  | none => exact ⟨⟨mark, some ((c.scope.take mark).map t)⟩, by simp [lt], hmark, rfl, left h⟩
  | some x =>
      simp only at h ⊢
      have differ : ∀ p : VarId × Nat × Nat → Bool, (∀ r, p r = (r.2.1 != r.2.2)) →
          ((c.scope.take mark).zip (x.zip ((c.scope.take mark).map t))).filter p =
            ((c.scope.take mark).zip (x.zip ((c.scope.take mark).map t))).filter fun r => r.2.1 != r.2.2 :=
        fun p hp => congrArg (List.filter · _) (funext hp)
      rw [differ _ fun _ => rfl] at h ⊢
      have none_differ : ((c.scope.take mark).zip (x.zip ((c.scope.take mark).map t))).filter
          (fun r => r.2.1 != r.2.2) = [] := by
        by_contra hne
        obtain ⟨p, ps, hp⟩ := List.exists_cons_of_ne_nil hne
        rw [hp, List.foldl_cons] at h
        have before := (extends_foldl (L := ∅) (fun c x => extends_error c _) _ _).errors h
        exact absurd before (c'.error_ne _)
      have hx : x = (c.scope.take mark).map t := by
        refine eq_of_no_difference (?_ : x.length = (c.scope.take mark).length) ?_ ?_
        · rw [hfits x rfl, List.length_take]
          exact (min_eq_left hmark).symm
        · rw [List.length_map]
        · simpa using List.filter_eq_nil_iff.mp none_differ
      rw [none_differ] at h ⊢
      exact ⟨⟨mark, some x⟩, hs, hmark, congrArg some hx, left h⟩

section
variable {Γ : Scope} {L : Finset LabelId} {vs ws : List VarId} {c c' c'' : Check} {h : Tokens} {i : Nat}
  {yieldTo head : Option Nat} {flow : Flow}

theorem Check.Arrives.extends {scope : List VarId} (ha : c.Arrives scope i h) (hx : Check.Extends L vs c c') :
    c'.Arrives scope i h := by
  obtain ⟨s, hs, hmark, hexp, hout⟩ := ha
  obtain ⟨s', hs', hss⟩ := hx.slots i s hs
  refine ⟨s', hs', ?_, ?_, ?_⟩
  · rwa [hss.mark]
  · rw [hss.mark]
    exact hss.expected _ hexp
  · rwa [hss.mark]

/-- What comes to an enclosing join point from an inner scope. -/
theorem Check.Arrives.outer (ha : c'.Arrives (c.scope ++ vs) i h) (hl : c.Leads (some i))
    (hx : Check.Extends L ws c c') : c'.Arrives c.scope i h := by
  obtain ⟨s, hs, -, hexp, hout⟩ := ha
  obtain ⟨j, s₀, hj, hs₀, hmark, -⟩ := hl
  obtain rfl := Option.some.inj hj
  obtain ⟨s', hs', hss⟩ := hx.slots i s₀ hs₀
  rw [hs] at hs'
  obtain rfl := Option.some.inj hs'
  rw [← hss.mark] at hmark
  rw [List.take_append_of_le_length hmark] at hexp hout
  exact ⟨s, hs, hmark, hexp, hout⟩

/-- The references come to where the flow goes, from code checked from `c`. -/
def Check.Lands (c' c : Check) (Γ : Scope) (yieldTo head : Option Nat) (h : Tokens) : Flow → Prop
  | .next => False
  | .yield => Γ.yields = true ∧ ∃ i, yieldTo = some i ∧ c'.Arrives c.scope i h
  | .break label => label ∈ Γ.labels ∧ ∃ i, c.labels label = some i ∧ c'.Arrives c.scope i h
  | .recur => Γ.inLoop = true ∧ ∃ i, head = some i ∧ c'.Arrives c.scope i h
  | .exit | .cut => True

theorem Check.Lands.extends (hl : c'.Lands c Γ yieldTo head h flow) (hx : Check.Extends L vs c' c'') :
    c''.Lands c Γ yieldTo head h flow := by
  cases flow with
  | next => exact hl
  | yield | «break» | recur =>
      obtain ⟨hΓ, i, hi, ha⟩ := hl
      exact ⟨hΓ, i, hi, ha.extends hx⟩
  | exit | cut => trivial

/-- The same from an outer scope. -/
theorem Check.Lands.outer (hl : c''.Lands c' Γ yieldTo head h flow) (he : c.Encloses Γ yieldTo head)
    (hx : Check.Extends Γ.labels vs c c') (hx' : Check.Extends L ws c c'') : c''.Lands c Γ yieldTo head h flow := by
  cases flow with
  | next => exact hl
  | yield =>
      obtain ⟨hΓ, i, rfl, ha⟩ := hl
      rw [hx.scope] at ha
      exact ⟨hΓ, i, rfl, ha.outer (he.yields hΓ) hx'⟩
  | «break» label =>
      obtain ⟨hΓ, i, hi, ha⟩ := hl
      rw [hx.scope] at ha
      rw [hx.labels label hΓ] at hi
      exact ⟨hΓ, i, hi, ha.outer (hi ▸ he.labels label hΓ) hx'⟩
  | recur =>
      obtain ⟨hΓ, i, rfl, ha⟩ := hl
      rw [hx.scope] at ha
      exact ⟨hΓ, i, rfl, ha.outer (he.loops hΓ) hx'⟩
  | exit | cut => trivial

theorem Check.Lands.congr {Γ' : Scope} (hl : c'.Lands c Γ' yieldTo head h flow) (hy : Γ'.yields = Γ.yields)
    (hb : Γ'.labels = Γ.labels) (hr : Γ'.inLoop = Γ.inLoop) : c'.Lands c Γ yieldTo head h flow := by
  cases flow with
  | yield => exact ⟨hy ▸ hl.1, hl.2⟩
  | «break» => exact ⟨hb ▸ hl.1, hl.2⟩
  | recur => exact ⟨hr ▸ hl.1, hl.2⟩
  | next | exit | cut => exact hl

theorem Check.Lands.from (hl : c''.Lands c' Γ yieldTo head h flow) (hs : c'.scope = c.scope)
    (hb : ∀ l ∈ Γ.labels, c'.labels l = c.labels l) : c''.Lands c Γ yieldTo head h flow := by
  cases flow with
  | yield | recur => exact ⟨hl.1, hs ▸ hl.2⟩
  | «break» label => exact ⟨hl.1, hb label hl.1 ▸ hs ▸ hl.2⟩
  | next | exit | cut => exact hl

/-- Out of a block, a `break` to it yields. -/
theorem Check.Lands.of_block {label : LabelId} {i : Nat}
    (hl : c'.Lands { c.newSlot with labels := Function.update c.labels label (some i) } (Γ.block label) (some i) head h
      flow) : c'.Lands c Γ.arm (some i) head h (blockFlow label flow) := by
  cases flow with
  | «break» l =>
      obtain ⟨hlabel, j, hj, ha⟩ := hl
      by_cases hll : l = label
      · subst hll
        have hj : Function.update c.labels l (some i) l = some j := hj
        rw [Function.update_self] at hj
        rw [blockFlow, if_pos rfl]
        exact ⟨rfl, j, hj, ha⟩
      · have hj : Function.update c.labels label (some i) l = some j := hj
        rw [Function.update_of_ne hll] at hj
        rw [blockFlow, if_neg (by simpa using hll)]
        exact ⟨Finset.mem_of_mem_insert_of_ne hlabel hll, j, hj, ha⟩
  | next | yield | recur | exit | cut => exact hl

/-- Outside any loop nothing recurs. -/
theorem Check.Lands.of_none (hl : c'.Lands c Γ yieldTo none h flow) : c'.Lands c Γ yieldTo head h flow := by
  cases flow with
  | recur =>
      obtain ⟨-, i, hi, -⟩ := hl
      exact absurd hi (by simp)
  | _ => exact hl

/-- From a landing, which does not yield. -/
theorem Check.Lands.of_landing (hl : c'.Lands c Γ.landing none head h flow) : c'.Lands c Γ yieldTo head h flow := by
  cases flow with
  | yield => exact absurd hl.1 (by simp [Scope.landing])
  | _ => exact hl

/-- From an arm, whose `yield` the statement takes. -/
theorem Check.Lands.of_arm (hl : c'.Lands c Γ.arm yieldTo head h flow) (hy : flow ≠ .yield) :
    c'.Lands c Γ.landing none head h flow := by
  cases flow with
  | yield => exact absurd rfl hy
  | _ => exact hl

end

/-! ## States -/

/-- The tokens are those of the variables in scope. -/
structure Check.Frame (f : Function) (Γ : Scope) (c : Check) (t : Tokens) (yieldTo head : Option Nat) : Prop where
  encloses : c.Encloses Γ yieldTo head
  scope : ∀ v, v ∈ c.scope ↔ v ∈ Γ.vars ∧ counted f v = true
  tokens : ∀ v, v ∉ c.scope → t v = 0

section
variable {Γ : Scope} {L : Finset LabelId} {c c' : Check} {t : Tokens} {yieldTo head : Option Nat}

theorem Check.Frame.extends (h : c.Frame f Γ t yieldTo head) (hx : Check.Extends Γ.labels [] c c') :
    c'.Frame f Γ t yieldTo head where
  encloses := h.encloses.extends hx
  scope v := by rw [hx.scope, List.append_nil, h.scope]
  tokens v := by
    rw [hx.scope, List.append_nil]
    exact h.tokens v

theorem Check.Frame.take (h : c.Frame f Γ t yieldTo head) (vs : List VarId) :
    c.Frame f Γ (fun v => t v - vs.count v) yieldTo head :=
  { h with tokens := fun v hv => by rw [h.tokens v hv, Nat.zero_sub] }

/-- New variables hold nothing. -/
theorem Check.Frame.fresh (h : c.Frame f Γ t yieldTo head) {vs : List VarId} (hf : Γ.fresh vs) :
    ∀ v ∈ vs, counted f v = true → t v = 0 := by
  intro v hv _
  exact h.tokens v fun hin => hf.2 v hv ((h.scope v).mp hin).1

/-- The state once new variables are defined, which the path defines too. -/
theorem Check.Frame.define (h : c.Frame f Γ t yieldTo head) {vs : List VarId} (owned : Bool) (hf : Γ.fresh vs) :
    Safe f t (defineEvents f vs owned) ∧
      c.defineAll f t (vs.map (·, if owned then 1 else 0)) =
        (held t (defineEvents f vs owned), { c with scope := c.scope ++ vs.filter (counted f) }) ∧
      Check.Frame f { Γ with vars := Γ.vars ∪ vs.toFinset } { c with scope := c.scope ++ vs.filter (counted f) }
        (held t (defineEvents f vs owned)) yieldTo head := by
  obtain ⟨safe, heq⟩ : _ ∧ c.defineAll f t (vs.map (·, if owned then 1 else 0)) = _ :=
    safe_define c hf.1 (h.fresh hf)
  refine ⟨safe, heq, ?_⟩
  have defined := extends_defineAll (L := Γ.labels) (f := f) c t (vs.map (·, if owned then 1 else 0))
  rw [heq] at defined
  have encloses := h.encloses.extends defined
  exact
    { encloses := { encloses with }
      scope := fun v => by
        simp only [List.mem_append, List.mem_filter, h.scope, Finset.mem_union, List.mem_toFinset]
        tauto
      tokens := fun v hv => by
        simp only [List.mem_append, List.mem_filter, not_or, not_and] at hv
        have made : made v (defineEvents f vs owned) = 0 := by
          have hdef : ∀ e ∈ defineEvents f vs owned, ∃ x ∈ vs, counted f x = true ∧ e = .define x owned := by
            simp only [defineEvents, List.mem_map, List.mem_filter]
            rintro e ⟨x, ⟨hx, hc⟩, rfl⟩
            exact ⟨x, hx, hc, rfl⟩
          simp only [Emela.Lir.made, Nat.add_eq_zero_iff, List.count_eq_zero]
          refine ⟨⟨fun hin => ?_, fun hin => ?_⟩, fun hin => ?_⟩
          · obtain ⟨x, hx, hc, heq⟩ := hdef _ hin
            obtain ⟨rfl, -⟩ := Event.define.inj heq
            exact hv.2 hx hc
          · obtain ⟨x, -, -, heq⟩ := hdef _ hin
            cases heq
          · obtain ⟨x, -, -, heq⟩ := hdef _ hin
            cases heq
        have balance := safe.held_eq v
        rw [h.tokens v hv.1, made] at balance
        omega }

end

/-! ## Terminators -/

section
variable {Γ : Scope} {L : Finset LabelId} {c c' : Check} {t : Tokens} {yieldTo head : Option Nat} {tr : List Event}
  {flow : Flow}

theorem Check.Frame.deliver (h : c.Frame f Γ t yieldTo head) {i : Nat} (hl : c.Leads (some i))
    (he : (c.deliver f (some i) t).errors = []) : (c.deliver f (some i) t).Arrives c.scope i t :=
  deliver_ok hl h.tokens he

/-- A terminator, once its values are taken. -/
theorem jump_sound (h : c.Frame f Γ t yieldTo head) {term : Term} (hs : ScopedTerm Γ term)
    (he : (c.jump f t yieldTo head term).errors = [])
    (hp : TermPath f term (termEvents f term ++ tr) flow) :
    Safe f t tr ∧ (c.jump f t yieldTo head term).Lands c Γ yieldTo head (held t tr) flow := by
  -- an edge out of the function
  have leaves : ∀ {c' : Check}, c' = c.deliver f none t → c'.errors = [] → tr = [.exit] → flow = .exit →
      Safe f t tr ∧ c'.Lands c Γ yieldTo head (held t tr) flow := by
    rintro c' rfl he rfl rfl
    refine ⟨⟨fun v => ?_, trivial⟩, trivial⟩
    by_cases hv : v ∈ c.scope
    · exact deliver_out_ok he v hv
    · exact h.tokens v hv
  have same : ∀ {xs : List Event}, termEvents f term ++ tr = termEvents f term ++ xs → tr = xs :=
    fun h => List.append_cancel_left h
  cases term with
  | yield v =>
      obtain rfl := same (hp.1.trans (List.append_nil _).symm)
      obtain rfl := hp.2
      have leads := h.encloses.yields hs.2
      obtain ⟨i, s, rfl, -⟩ := id leads
      exact ⟨trivial, hs.2, i, rfl, h.deliver leads he⟩
  | «break» label v =>
      obtain rfl := same (hp.1.trans (List.append_nil _).symm)
      obtain rfl := hp.2
      have leads := h.encloses.labels label hs.2
      obtain ⟨i, s, hi, -⟩ := id leads
      rw [hi] at leads
      simp only [Check.jump, hi] at he ⊢
      exact ⟨trivial, hs.2, i, hi, h.deliver leads he⟩
  | recur args =>
      obtain rfl := same (hp.1.trans (List.append_nil _).symm)
      obtain rfl := hp.2
      have leads := h.encloses.loops hs.2
      obtain ⟨i, s, rfl, -⟩ := id leads
      exact ⟨trivial, hs.2, i, rfl, h.deliver leads he⟩
  | «return» | fail | unwind => exact leaves rfl he (same hp.1) hp.2
  | unreachable => exact hp.elim

theorem TermPath.events {term : Term} (hp : TermPath f term tr flow) : ∃ tr', tr = termEvents f term ++ tr' := by
  cases term with
  | yield | «break» | recur => exact ⟨[], hp.1.trans (List.append_nil _).symm⟩
  | «return» | fail | unwind => exact ⟨[.exit], hp.1⟩
  | unreachable => exact hp.elim

theorem term_sound (h : c.Frame f Γ t yieldTo head) {term : Term} (hs : ScopedTerm Γ term)
    (he : (c.term f t yieldTo head term).errors = []) (hp : TermPath f term tr flow) :
    Safe f t tr ∧ (c.term f t yieldTo head term).Lands c Γ yieldTo head (held t tr) flow := by
  rw [term_eq] at he ⊢
  have taken := extends_takeAll (L := Γ.labels) (f := f) "the terminator consumes" c t (termConsumes f term)
  obtain ⟨heq, enough⟩ := takeAll_ok ((extends_jump (h.encloses.extends taken) _ hs).errors he)
  rw [heq] at he ⊢
  obtain ⟨tr, rfl⟩ := hp.events
  obtain ⟨safe, hheld⟩ := safe_consume (f := f) enough
  obtain ⟨rest, lands⟩ := jump_sound (h.take _) hs he hp
  rw [held_append, termEvents, hheld]
  exact ⟨safe.append (hheld ▸ rest), lands⟩

end

/-! ## Values -/

section
variable {Γ : Scope} {c : Check} {t : Tokens} {yieldTo head : Option Nat}

theorem value_sound {value : Value} (he : ((borrowed m f value).foldl
      (Check.borrow f (c.takeAll f "a consuming use of" t (consumed m f value)).1)
      (c.takeAll f "a consuming use of" t (consumed m f value)).2).errors = []) :
    Safe f t (valueEvents m f value) ∧
      c.takeAll f "a consuming use of" t (consumed m f value) = (held t (valueEvents m f value), c) ∧
      (borrowed m f value).foldl (Check.borrow f (held t (valueEvents m f value))) c = c ∧
      held t (valueEvents m f value) = fun v => t v - (consumed m f value).count v := by
  have taken := (extends_foldl (L := ∅) (extends_borrow (f := f) _) _ _).errors he
  obtain ⟨heq, enough⟩ := takeAll_ok taken
  rw [heq] at he ⊢
  have borrows := borrow_ok he
  obtain ⟨safe, hheld⟩ := safe_consume (f := f) enough
  obtain ⟨safe', hheld'⟩ := safe_borrow borrows
  rw [valueEvents, held_append, hheld, hheld']
  refine ⟨safe.append (hheld ▸ safe'), rfl, ?_, rfl⟩
  apply Check.borrow_eq
  intro v hv
  rcases borrows v hv with hb | hb
  · exact .inr hb
  · exact .inl hb

/-- At a suspension edge every reference is one that the frame keeps. -/
theorem suspended_ok {onSuspend : Option Suspend} (h : c.Frame f Γ t yieldTo head)
    (he : (c.suspended f t onSuspend).errors = []) :
    c.suspended f t onSuspend = c ∧ ∀ edge ∈ onSuspend, ∀ v, t v = (suspendSaved f (some edge)).count v := by
  cases onSuspend with
  | none => exact ⟨rfl, by simp⟩
  | some edge =>
      rw [Check.suspended] at he ⊢
      obtain ⟨heq, enough⟩ := takeAll_ok ((extends_deliver (L := ∅) _ (.inl rfl)).errors he)
      rw [heq] at he ⊢
      have left := deliver_out_ok he
      refine ⟨Check.deliver_out left, ?_⟩
      intro edge' hedge v
      obtain rfl := Option.some.inj hedge
      have enough := enough v
      by_cases hv : v ∈ c.scope
      · have : t v - (suspendSaved f (some edge)).count v = 0 := left v hv
        omega
      · have := h.tokens v hv
        omega

theorem suspend_sound {edge : Suspend} (ht : ∀ v, t v = (suspendSaved f (some edge)).count v) :
    Safe f t (suspendEvents f edge) ∧ held t (suspendEvents f edge) = fun _ => 0 := by
  obtain ⟨safe, hheld⟩ := safe_consume (f := f) (fun v => (ht v).ge)
  have left : (fun v => t v - (suspendSaved f (some edge)).count v) = fun _ => 0 := by
    funext v
    rw [ht v, Nat.sub_self]
  rw [left] at hheld
  rw [suspendEvents, held_append, hheld]
  exact ⟨safe.append ⟨fun v => congrFun hheld v, trivial⟩, rfl⟩

/-- A value that comes back, suspended or not, holds what it held. -/
theorem resumes_sound {onSuspend : Option Suspend} {tr : List Event}
    (ht : ∀ edge ∈ onSuspend, ∀ v, t v = (suspendSaved f (some edge)).count v) (hr : Resumes f onSuspend tr) :
    Safe f t tr ∧ held t tr = t := by
  rcases hr with rfl | ⟨edge, hedge, rfl⟩
  · exact ⟨trivial, rfl⟩
  · obtain ⟨safe, hheld⟩ := suspend_sound (f := f) (ht edge hedge)
    obtain ⟨safe', hheld'⟩ := safe_restore (f := f) (fun _ => 0) (suspendSaved f (some edge))
    rw [resumeEvents, held_append, hheld, hheld']
    refine ⟨safe.append (hheld ▸ safe'), ?_⟩
    funext v
    rw [Nat.zero_add, ht edge hedge v]

end

/-! ## Statements -/

/-- Where a statement goes: on with the references held, or out of the code around it. -/
structure Goes (r : Option Tokens × Check) (c : Check) (Γ : Scope) (head : Option Nat) (h : Tokens) (flow : Flow) :
    Prop where
  next : flow = .next → r.1 = some h ∧ ∀ v, v ∉ r.2.scope → h v = 0
  leaves : flow ≠ .next → r.2.Lands c Γ.landing none head h flow

section
variable {Γ : Scope} {L : Finset LabelId} {c c' : Check} {t u : Tokens} {yieldTo head : Option Nat}

theorem Check.Frame.arm (h : c.Frame f Γ t yieldTo head) {slot : Option Nat} (hs : c.Leads slot) :
    c.Frame f Γ.arm t slot head :=
  { h with encloses := h.encloses.arm hs }

theorem Check.Frame.landing (h : c.Frame f Γ t yieldTo head) : c.Frame f Γ.landing t none head :=
  { h with encloses := h.encloses.landing }

theorem Check.Lands.rescope {Γ : Scope} {h : Tokens} {flow : Flow} (hl : c'.Lands c Γ yieldTo head h flow)
    (scope : List VarId) : Check.Lands { c' with scope := scope } c Γ yieldTo head h flow := by
  cases flow <;> exact hl

theorem foldl_update_zip (vs : List VarId) (t u : Tokens) :
    (vs.zip (vs.map u)).foldl (fun t (p : VarId × Nat) => Function.update t p.1 p.2) t =
      fun v => if v ∈ vs then u v else t v := by
  induction vs generalizing t with
  | nil => simp
  | cons x vs ih =>
      rw [List.map_cons, List.zip_cons_cons, List.foldl_cons, ih]
      funext v
      by_cases hv : v ∈ vs
      · simp [hv]
      · by_cases hx : v = x
        · subst hx
          simp [hv]
        · simp [hv, hx]

/-- After a join point the references are those that came to it. -/
theorem joined_eq (h : c.Frame f Γ t yieldTo head) (hx : Check.Extends Γ.labels [] c c') {i : Nat}
    (hi : ∀ s, c'.slots[i]? = some s → s.mark = c.scope.length) (ha : c'.Arrives c.scope i u) :
    c'.joined i t = some u ∧ ∀ v, v ∉ c.scope → u v = 0 := by
  obtain ⟨s, hs, -, hexp, hout⟩ := ha
  have scope : c'.scope = c.scope := by simpa using hx.scope
  rw [hi s hs, List.take_length] at hexp hout
  have joined : c'.joined i t =
      some ((c.scope.zip (c.scope.map u)).foldl (fun t (p : VarId × Nat) => Function.update t p.1 p.2) t) := by
    obtain ⟨mark, expected⟩ := s
    obtain rfl : mark = c.scope.length := hi _ hs
    obtain rfl : expected = _ := hexp
    simp only [Check.joined, hs, scope, List.take_length]
  refine ⟨?_, hout⟩
  rw [joined, foldl_update_zip]
  congr 1
  funext v
  split
  · rfl
  · rw [hout v ‹_›, h.tokens v ‹_›]

theorem after_eq {t u : Tokens} {i : Nat} (h : c.joined i t = some u) (dst : Option VarId) :
    c.after f i t dst =
      (some (c.defineAll f u (dst.toList.map (·, if true then 1 else 0))).1,
        (c.defineAll f u (dst.toList.map (·, if true then 1 else 0))).2) := by
  simp only [Check.after, h]
  cases dst <;> rfl

/-- The slot of a statement stays at its scope. -/
theorem Check.Extends.newSlot {vs : List VarId} (hx : Check.Extends L vs c.newSlot c') :
    ∀ s, c'.slots[c.slots.length]? = some s → s.mark = c.scope.length := by
  intro s hs
  obtain ⟨s', hs', hss⟩ := hx.slots c.slots.length ⟨c.scope.length, none⟩ (by simp [Check.newSlot])
  rw [hs] at hs'
  obtain rfl := Option.some.inj hs'
  exact hss.mark

/-- After an arm the statement is done, or control leaves it. -/
theorem after_goes (h : c.Frame f Γ t yieldTo head) (hx : Check.Extends Γ.labels [] c.newSlot c') {dst : Option VarId}
    (hf : Γ.fresh dst.toList) {flow : Flow} (hl : c'.Lands c Γ.arm (some c.slots.length) head u flow) :
    Safe f u (joinEvents f dst flow) ∧
      Goes (c'.after f c.slots.length t dst) c Γ head (held u (joinEvents f dst flow)) (joinFlow flow) := by
  have whole : Check.Extends Γ.labels [] c c' := (extends_slots c _).then hx
  have leaves : flow ≠ .yield → joinFlow flow = flow → joinEvents f dst flow = [] →
      Safe f u (joinEvents f dst flow) ∧
        Goes (c'.after f c.slots.length t dst) c Γ head (held u (joinEvents f dst flow)) (joinFlow flow) := by
    intro hy hjoin hevents
    obtain ⟨vs, after, -⟩ := extends_after (f := f) (L := Γ.labels) c' c.slots.length t dst
    rw [hjoin, hevents]
    refine ⟨trivial, fun hn => ?_, fun _ => (hl.of_arm hy).extends after⟩
    subst hn
    exact hl.elim
  cases flow with
  | next => exact hl.elim
  | yield =>
      obtain ⟨-, j, hj, ha⟩ := hl
      obtain rfl := Option.some.inj hj
      obtain ⟨joined, hout⟩ := joined_eq h whole hx.newSlot ha
      have frame : c'.Frame f Γ u yieldTo head :=
        { h.extends whole with
          tokens := fun v hv => hout v (by simpa [whole.scope] using hv) }
      obtain ⟨safe, heq, defined⟩ := frame.define true hf
      have after := after_eq (f := f) joined dst
      rw [heq] at after
      rw [after]
      exact ⟨safe, fun _ => ⟨rfl, defined.tokens⟩, fun hn => absurd rfl hn⟩
  | «break» | recur | exit | cut => exact leaves (by simp) rfl rfl

/-- The arms of a statement, and then its end. -/
theorem arms_goes (h : c.Frame f Γ t yieldTo head) {dst : Option VarId} (hf : Γ.fresh dst.toList)
    (hx : Check.Extends Γ.labels [] c.newSlot c') (he : (c'.after f c.slots.length t dst).2.errors = [])
    {tr : List Event} {flow : Flow}
    (arm : c'.errors = [] → Safe f t tr ∧ c'.Lands c Γ.arm (some c.slots.length) head (held t tr) flow) :
    Safe f t (tr ++ joinEvents f dst flow) ∧
      Goes (c'.after f c.slots.length t dst) c Γ head (held t (tr ++ joinEvents f dst flow)) (joinFlow flow) := by
  obtain ⟨vs, after, -⟩ := extends_after (f := f) (L := Γ.labels) c' c.slots.length t dst
  obtain ⟨safe, lands⟩ := arm (after.errors he)
  obtain ⟨safe', goes⟩ := after_goes h hx hf lands
  rw [held_append]
  exact ⟨safe.append safe', goes⟩

theorem scrutinee_ok {v : VarId} (he : (if counted f v then c.borrow f t v else c).errors = []) :
    (if counted f v then c.borrow f t v else c) = c ∧ Safe f t (([v].filter (counted f)).map .borrow) ∧
      held t (([v].filter (counted f)).map .borrow) = t := by
  have same : (if counted f v then c.borrow f t v else c) = ([v].filter (counted f)).foldl (Check.borrow f t) c := by
    cases hv : counted f v <;> simp [hv]
  rw [same] at he ⊢
  have borrows := borrow_ok he
  refine ⟨Check.borrow_eq fun x hx => ?_, safe_borrow borrows⟩
  rcases borrows x hx with hb | hb
  · exact .inr hb
  · exact .inl hb

theorem checkSeq_nil (c : Check) (t : Tokens) (yieldTo head : Option Nat) (s : Seq) :
    checkSeq m f c t [] yieldTo head s =
      { runSeq m f c t yieldTo head s with
        scope := (runSeq m f c t yieldTo head s).scope.take c.scope.length } := checkSeq_mk c t [] yieldTo head s

/-- What is shown of a sequence. -/
def Sound (m : Module) (f : Function) (s : Seq) : Prop :=
  ∀ {Γ : Scope} {c : Check} {t : Tokens} {yieldTo head : Option Nat} {tr : List Event} {flow : Flow},
    c.Frame f Γ t yieldTo head → CountedSeq f Γ s → (runSeq m f c t yieldTo head s).errors = [] →
      SeqPath m f s tr flow →
        Safe f t tr ∧ (runSeq m f c t yieldTo head s).Lands c Γ yieldTo head (held t tr) flow

theorem Sound.arm {body : Seq} (ih : Sound m f body) (h : c.Frame f Γ t yieldTo head) (hs : CountedSeq f Γ body)
    (he : (checkSeq m f c t [] yieldTo head body).errors = []) {tr : List Event} {flow : Flow}
    (hp : SeqPath m f body tr flow) :
    Safe f t tr ∧ (checkSeq m f c t [] yieldTo head body).Lands c Γ yieldTo head (held t tr) flow := by
  rw [checkSeq_nil] at he ⊢
  obtain ⟨safe, lands⟩ := ih h hs he hp
  exact ⟨safe, lands.rescope _⟩

/-- A failure landing, entered owning its error. -/
theorem Sound.fail {e : VarId} {body : Seq} (ih : Sound m f body) (h : c.Frame f Γ t yieldTo head)
    (hs : CountedFail f Γ (some (e, body))) (he : (checkFail m f c t head (some (e, body))).errors = [])
    {tr : List Event} {flow : Flow} (hp : FailPath m f (some (e, body)) tr flow) :
    Safe f t tr ∧ (checkFail m f c t head (some (e, body))).Lands c Γ.landing none head (held t tr) flow := by
  have whole := extends_fail (m := m) (f := f) h.encloses rfl t (some (e, body)) hs
  obtain ⟨-, hfresh, hbody⟩ := hs
  obtain ⟨tr, hp, rfl⟩ := hp
  have defined := extends_defineAll (L := Γ.landing.labels) (f := f) c t [(e, 1)]
  obtain ⟨safe, heq, frame⟩ := h.landing.define true hfresh
  have heq : c.defineAll f t [(e, 1)] = _ := heq
  rw [heq] at defined
  simp only [checkFail, checkSeq_mk, heq] at he whole ⊢
  obtain ⟨safe', lands⟩ := ih (Γ := Γ.landing.define (some e)) frame hbody he hp
  rw [held_append]
  refine ⟨safe.append safe', ?_⟩
  have lands := lands.rescope ((runSeq m f { c with scope := c.scope ++ [e].filter (counted f) }
    (held t (defineEvents f [e] true)) none head body).scope.take c.scope.length)
  exact Check.Lands.outer (lands.congr rfl rfl rfl) h.landing.encloses defined whole

/-- The references that come to a loop head are those at the loop's start. -/
theorem headSlot_arrives (ht : ∀ v, v ∉ c.scope → t v = 0) {vs : List VarId}
    (hx : Check.Extends L vs (c.headSlot t) c') (ha : c'.Arrives c.scope c.slots.length u) : u = t := by
  obtain ⟨s, hs, -, hexp, hout⟩ := ha
  obtain ⟨s', hs', hss⟩ := hx.slots c.slots.length ⟨c.scope.length, some (c.scope.map t)⟩ (by simp [Check.headSlot])
  rw [hs] at hs'
  obtain rfl := Option.some.inj hs'
  have hmark : s.mark = c.scope.length := hss.mark
  rw [hmark, List.take_length] at hexp hout
  have same := Option.some.inj ((hss.expected _ rfl).symm.trans hexp)
  funext v
  by_cases hv : v ∈ c.scope
  · exact (List.map_inj_left.mp same v hv).symm
  · rw [hout v hv, ht v hv]

/-- Any number of iterations, each from the references at the loop's start. -/
theorem Sound.loop {vars : List VarId} {body : Seq} (ih : Sound m f body) {exit : Option Nat}
    (h : c.Frame f Γ t yieldTo head) (hexit : (c.headSlot t).Leads exit) (hf : Γ.fresh vars)
    (hs : CountedSeq f (Γ.loop vars) body)
    (he : (checkSeq m f (c.headSlot t) t (vars.map (·, 1)) exit (some c.slots.length) body).errors = [])
    {tr : List Event} {flow : Flow} (hp : LoopPath f vars (SeqPath m f body) tr flow) :
    Safe f t tr ∧ (checkSeq m f (c.headSlot t) t (vars.map (·, 1)) exit (some c.slots.length) body).Lands c Γ.arm exit
      none (held t tr) flow := by
  have atHead : Check.Extends Γ.labels [] c (c.headSlot t) := extends_slots c _
  have encloses : (c.headSlot t).Encloses { Γ with inLoop := true, yields := true } exit (some c.slots.length) :=
    { (h.encloses.extends atHead).loop hexit (c.headSlot_leads t) vars with }
  have start : (c.headSlot t).Frame f { Γ with inLoop := true, yields := true } t exit (some c.slots.length) :=
    { encloses := encloses
      scope := h.scope
      tokens := h.tokens }
  obtain ⟨safe, heq, frame⟩ := start.define true hf
  have heq : (c.headSlot t).defineAll f t (vars.map (·, 1)) = _ := heq
  have defined := extends_defineAll (L := Γ.labels) (f := f) (c.headSlot t) t (vars.map (·, 1))
  obtain ⟨vs, run⟩ := extends_seq (m := m) frame.encloses rfl (held t (defineEvents f vars true)) body hs
  rw [checkSeq_mk] at he ⊢
  rw [heq] at he defined ⊢
  have whole := defined.trans run
  simp only at he run whole ⊢
  generalize hr : runSeq m f { c.headSlot t with scope := (c.headSlot t).scope ++ vars.filter (counted f) }
    (held t (defineEvents f vars true)) exit (some c.slots.length) body = r at he run whole ⊢
  -- one iteration
  have step : ∀ {tr flow}, SeqPath m f body tr flow →
      Safe f t (defineEvents f vars true ++ tr) ∧
        r.Lands (c.headSlot t) { Γ with inLoop := true, yields := true } exit (some c.slots.length)
          (held t (defineEvents f vars true ++ tr)) flow := by
    intro tr flow hp
    subst hr
    obtain ⟨safe', lands⟩ := ih (Γ := Γ.loop vars) frame hs he hp
    rw [held_append]
    exact ⟨safe.append safe', Check.Lands.outer (lands.congr rfl rfl rfl) encloses defined whole⟩
  induction hp with
  | leave hbody hflow =>
      obtain ⟨safe', lands⟩ := step hbody
      refine ⟨safe', Check.Lands.rescope ?_ _⟩
      rename_i flow
      cases flow with
      | recur => exact absurd rfl hflow
      | _ => exact lands
  | again hbody hloop ihl =>
      obtain ⟨safe', -, i, hi, ha⟩ := step hbody
      obtain rfl := Option.some.inj hi
      have back := headSlot_arrives h.tokens whole ha
      obtain ⟨rest, lands⟩ := ihl
      rw [held_append, back]
      exact ⟨safe'.append (back.symm ▸ rest), lands⟩

end

/-! ## Code -/

section
variable {Γ : Scope} {c : Check} {t : Tokens} {yieldTo head : Option Nat} {tr : List Event} {flow : Flow}

/-- A `let` once its uses are checked: it comes back, lands or stays suspended. -/
theorem let_goes {dst : Option VarId} {value : Value} {onFail : Option (VarId × Seq)} {onDefect : Option Seq}
    {onSuspend : Option Suspend} (h : c.Frame f Γ t yieldTo head) (hf : Γ.fresh dst.toList)
    (hfail : CountedFail f Γ onFail) (hdefect : CountedOption f Γ.landing onDefect)
    (he : (checkLands m f c t head onFail onDefect onSuspend).errors = [])
    (fails : ∀ {tr flow}, (checkFail m f c t head onFail).errors = [] → FailPath m f onFail tr flow →
      Safe f t tr ∧ (checkFail m f c t head onFail).Lands c Γ.landing none head (held t tr) flow)
    (defects : ∀ {tr flow} {c : Check}, c.Frame f Γ.landing t none head →
      (checkOption m f c t none head onDefect).errors = [] → OptionPath m f onDefect tr flow →
        Safe f t tr ∧ (checkOption m f c t none head onDefect).Lands c Γ.landing none head (held t tr) flow)
    (hp : (∃ edge ∈ onSuspend, tr = suspendEvents f edge ∧ flow = .exit) ∨
      ∃ s, Resumes f onSuspend s ∧
        (tr = s ++ defineEvents f dst.toList !isView f value ∧ flow = .next ∨
          ∃ a, (FailPath m f onFail a flow ∨ OptionPath m f onDefect a flow) ∧ tr = s ++ a)) :
    Safe f t tr ∧
      Goes (some ((checkLands m f c t head onFail onDefect onSuspend).defineAll f t
          (dst.toList.map (·, if !isView f value then 1 else 0))).1,
        ((checkLands m f c t head onFail onDefect onSuspend).defineAll f t
          (dst.toList.map (·, if !isView f value then 1 else 0))).2) c Γ head (held t tr) flow := by
  rw [checkLands] at he ⊢
  have before := extends_suspended (L := Γ.labels) (f := f) c t onSuspend
  have first := extends_fail (m := m) (f := f) (h.encloses.extends before) rfl t onFail hfail
  have second := extends_option (m := m) (f := f) (h.encloses.extends (before.then first)).landing rfl t onDefect
    hdefect
  obtain ⟨heq, ht⟩ := suspended_ok h (first.errors (second.errors he))
  rw [heq] at he first second ⊢
  have whole : Check.Extends Γ.labels [] c _ := first.then second
  obtain ⟨safeDst, define, frame⟩ := (h.extends whole).define (!isView f value) hf
  have leaves : ∀ {a : List Event}, FailPath m f onFail a flow ∨ OptionPath m f onDefect a flow →
      Safe f t a ∧ (checkOption m f (checkFail m f c t head onFail) t none head onDefect).Lands c Γ.landing none head
        (held t a) flow := by
    rintro a (hp | hp)
    · obtain ⟨safe, lands⟩ := fails (second.errors he) hp
      exact ⟨safe, lands.extends second⟩
    · obtain ⟨safe, lands⟩ := defects (h.extends first).landing he hp
      exact ⟨safe, lands.outer h.landing.encloses first whole⟩
  have not_next : ∀ {a : List Event}, FailPath m f onFail a flow ∨ OptionPath m f onDefect a flow → flow ≠ .next := by
    rintro a hp rfl
    exact (leaves hp).2.elim
  rw [define]
  rcases hp with ⟨edge, hedge, rfl, rfl⟩ | ⟨s, hs, ⟨rfl, rfl⟩ | ⟨a, hp, rfl⟩⟩
  · exact ⟨(suspend_sound (ht edge hedge)).1, by simp, fun _ => trivial⟩
  · obtain ⟨safe, hheld⟩ := resumes_sound ht hs
    rw [held_append, hheld]
    exact ⟨safe.append (hheld.symm ▸ safeDst), fun _ => ⟨rfl, frame.tokens⟩, fun hn => absurd rfl hn⟩
  · obtain ⟨safe, hheld⟩ := resumes_sound ht hs
    obtain ⟨safe', lands⟩ := leaves hp
    rw [held_append, hheld]
    refine ⟨safe.append (hheld.symm ▸ safe'), fun hn => absurd hn (not_next hp), fun _ => ?_⟩
    have defined := extends_defineAll (L := Γ.labels) (f := f)
      (checkOption m f (checkFail m f c t head onFail) t none head onDefect) t
      (dst.toList.map (·, if !isView f value then 1 else 0))
    rw [define] at defined
    exact lands.extends defined

end

theorem let_path {dst : Option VarId} {value : Value} {onFail : Option (VarId × Seq)} {onDefect : Option Seq}
    {onSuspend : Option Suspend} {tr : List Event} {flow : Flow}
    (hp : StmtPath m f (.let dst value onFail onDefect onSuspend) tr flow) :
    ∃ b, tr = valueEvents m f value ++ b ∧
      ((∃ edge ∈ onSuspend, b = suspendEvents f edge ∧ flow = .exit) ∨
        ∃ s, Resumes f onSuspend s ∧
          (b = s ++ defineEvents f dst.toList !isView f value ∧ flow = .next ∨
            ∃ a, (FailPath m f onFail a flow ∨ OptionPath m f onDefect a flow) ∧ b = s ++ a)) := by
  rcases hp with ⟨edge, hedge, rfl, rfl⟩ | ⟨s, hs, ⟨rfl, rfl⟩ | ⟨a, hp, rfl⟩⟩
  · exact ⟨_, rfl, .inl ⟨edge, hedge, rfl, rfl⟩⟩
  · exact ⟨_, rfl, .inr ⟨s, hs, .inl ⟨rfl, rfl⟩⟩⟩
  · exact ⟨_, rfl, .inr ⟨s, hs, .inr ⟨a, hp, rfl⟩⟩⟩

mutual

theorem seq_sound : (s : Seq) → Sound m f s
  | .mk stmts term => by
      intro h hs he hp
      exact stmts_sound h stmts hs he hp

theorem stmts_sound {Γ : Scope} {c : Check} {t : Tokens} {yieldTo head : Option Nat} {tr : List Event} {flow : Flow}
    {term : Term} (h : c.Frame f Γ t yieldTo head) :
    (stmts : List Stmt) → CountedStmts f Γ term stmts →
      (runSeq m f c t yieldTo head (.mk stmts term)).errors = [] → StmtsPath m f term stmts tr flow →
        Safe f t tr ∧ (runSeq m f c t yieldTo head (.mk stmts term)).Lands c Γ yieldTo head (held t tr) flow
  | [], hs, he, hp => by
      rcases hp with ⟨rfl, rfl⟩ | hp
      · exact ⟨trivial, trivial⟩
      · exact term_sound h hs he hp
  | s :: stmts, hs, he, hp => by
      obtain ⟨hs, hf, hrest⟩ := hs
      obtain ⟨vs, first, hvs⟩ := extends_stmt (m := m) h.encloses t s hs
      have sound : ∀ {tr : List Event} {flow : Flow}, (checkStmt m f c t head s).2.errors = [] →
          StmtPath m f s tr flow → Safe f t tr ∧ Goes (checkStmt m f c t head s) c Γ head (held t tr) flow :=
        fun he hp => stmt_sound h s hs hf he hp
      rw [runSeq_cons] at he ⊢
      generalize checkStmt m f c t head s = r at first hvs sound he ⊢
      obtain ⟨_ | t', c'⟩ := r
      · -- no edge reaches the end of the statement
        rcases hp with ⟨rfl, rfl⟩ | ⟨hp, hflow⟩ | ⟨a, b, hp, -, -⟩
        · exact ⟨trivial, trivial⟩
        · obtain ⟨safe, goes⟩ := sound he hp
          exact ⟨safe, (goes.leaves hflow).of_landing⟩
        · exact absurd ((sound he hp).2.next rfl).1 (by simp)
      · have encloses : c'.Encloses (Γ.define s.dst) yieldTo head := { h.encloses.extends first with }
        obtain ⟨ws, rest⟩ := extends_stmts (m := m) encloses rfl t' term stmts hrest
        have rest : Check.Extends Γ.labels ws c' (runSeq m f c' t' yieldTo head (.mk stmts term)) := rest
        rcases hp with ⟨rfl, rfl⟩ | ⟨hp, hflow⟩ | ⟨a, b, hp, hq, rfl⟩
        · exact ⟨trivial, trivial⟩
        · obtain ⟨safe, goes⟩ := sound (rest.errors he) hp
          exact ⟨safe, (goes.leaves hflow).of_landing.extends rest⟩
        · obtain ⟨safe, goes⟩ := sound (rest.errors he) hp
          obtain ⟨hheld, hout⟩ := goes.next rfl
          obtain rfl := Option.some.inj hheld
          have frame : c'.Frame f (Γ.define s.dst) (held t a) yieldTo head :=
            { encloses := encloses
              scope := fun v => by
                rw [first.scope, hvs rfl]
                simp only [List.mem_append, h.scope, List.mem_filter, Option.mem_toList, Scope.define,
                  Finset.mem_union, Option.mem_toFinset]
                tauto
              tokens := hout }
          obtain ⟨safe', lands⟩ := stmts_sound frame stmts hrest he hq
          rw [held_append]
          exact ⟨safe.append safe', Check.Lands.outer (lands.congr rfl rfl rfl) h.encloses first (first.trans rest)⟩

theorem stmt_sound {Γ : Scope} {c : Check} {t : Tokens} {yieldTo head : Option Nat} {tr : List Event} {flow : Flow}
    (h : c.Frame f Γ t yieldTo head) :
    (s : Stmt) → CountedStmt f Γ s → Γ.fresh s.dst.toList → (checkStmt m f c t head s).2.errors = [] →
      StmtPath m f s tr flow → Safe f t tr ∧ Goes (checkStmt m f c t head s) c Γ head (held t tr) flow
  | .let dst value onFail onDefect onSuspend, hs, hf, he, hp => by
      obtain ⟨-, hfail, hdefect, -⟩ := hs
      obtain ⟨b, rfl, hb⟩ := let_path hp
      have taken := extends_takeAll (L := Γ.labels) (f := f) "a consuming use of" c t (consumed m f value)
      have ok : ((borrowed m f value).foldl
          (Check.borrow f (c.takeAll f "a consuming use of" t (consumed m f value)).1)
          (c.takeAll f "a consuming use of" t (consumed m f value)).2).errors = [] → _ := value_sound
      generalize htake : c.takeAll f "a consuming use of" t (consumed m f value) = r at taken ok
      obtain ⟨t₁, c₁⟩ := r
      rw [checkStmt_let head dst onFail onDefect onSuspend htake] at he ⊢
      have borrows := taken.then (extends_foldl (extends_borrow (f := f) t₁) c₁ (borrowed m f value))
      have lands := extends_checkLands (m := m) (h.encloses.extends borrows) t₁ hfail hdefect onSuspend
      have landed := (extends_defineAll (L := Γ.labels) _ _ _).errors he
      obtain ⟨safe, heq, hborrow, hheld⟩ := ok (lands.errors landed)
      obtain ⟨rfl, rfl⟩ := Prod.mk.inj heq
      simp only [hborrow] at landed ⊢
      have frame := h.take (consumed m f value)
      rw [← hheld] at frame
      obtain ⟨safe', goes⟩ := let_goes frame hf hfail hdefect landed (fail_sound frame onFail hfail)
        (fun h => option_sound h onDefect hdefect) hb
      rw [held_append]
      exact ⟨safe.append safe', goes⟩
  | .dup v, hs, hf, he, hp => by
      obtain ⟨rfl, rfl⟩ := hp
      rw [checkStmt_dup]
      refine ⟨⟨trivial, trivial⟩, fun _ => ⟨rfl, fun x hx => ?_⟩, fun hn => absurd rfl hn⟩
      have hv : v ∈ c.scope := (h.scope v).mpr ⟨hs.1 v (by simp), hs.2⟩
      have hne : x ≠ v := fun hxv => hx (hxv ▸ hv)
      rw [held_cons, held_nil, Event.run, Function.update_of_ne hne]
      exact h.tokens x hx
  | .drop v, hs, hf, he, hp => by
      obtain ⟨rfl, rfl⟩ := hp
      simp only [checkStmt] at he ⊢
      obtain ⟨heq, enough⟩ := takeAll_ok he
      obtain ⟨safe, hheld⟩ := safe_consume (f := f) enough
      have hheld : held t [.consume v] = fun x => t x - [v].count x := hheld
      rw [heq, hheld]
      exact ⟨safe, fun _ => ⟨rfl, (h.take [v]).tokens⟩, fun hn => absurd rfl hn⟩
  | .if dst cond then_ else_, hs, hf, he, hp => by
      obtain ⟨-, hcond, hthen, helse⟩ := hs
      obtain ⟨a, g, hp, rfl, rfl⟩ := hp
      have uncounted : operandVars f [cond] = [] := by
        rw [List.eq_nil_iff_forall_not_mem]
        intro v hv
        have hc : cond.var? = some v := by simpa using (mem_operandVars.mp hv).1
        have := hcond v hc
        simp [counted_of_mem_operandVars hv] at this
      simp only [checkStmt] at he ⊢
      have slot : Check.Extends Γ.labels [] c c.newSlot := extends_slots c _
      have inner := (h.extends slot).arm c.newSlot_leads
      have first := extends_checkSeq _ t [] _ _ (extends_seq (m := m) inner.encloses rfl t then_ hthen)
      have second := extends_checkSeq _ t [] _ _
        (extends_seq (m := m) (inner.extends first).encloses rfl t else_ helse)
      rw [uncounted, List.map_nil, List.nil_append]
      refine arms_goes h hf (first.then second) he fun arms => ?_
      rcases hp with hp | hp
      · obtain ⟨safe, lands⟩ := Sound.arm (seq_sound then_) inner hthen (second.errors arms) hp
        exact ⟨safe, (lands.extends second).from rfl fun _ _ => rfl⟩
      · obtain ⟨safe, lands⟩ := Sound.arm (seq_sound else_) (inner.extends first) helse arms hp
        exact ⟨safe, (lands.outer inner.encloses first (first.then second)).from rfl fun _ _ => rfl⟩
  | .switch dst on cases default, hs, hf, he, hp => by
      obtain ⟨-, hcases, hdefault⟩ := hs
      obtain ⟨a, g, hp, rfl, rfl⟩ := hp
      simp only [checkStmt] at he ⊢
      have scrutinee : Check.Extends Γ.labels [] c (if counted f on.var then c.borrow f t on.var else c) := by
        split
        · exact extends_borrow ..
        · exact .refl c
      have ok := scrutinee_ok (f := f) (c := c) (t := t) (v := on.var)
      generalize (if counted f on.var then c.borrow f t on.var else c) = c₁ at scrutinee ok he ⊢
      have slot : Check.Extends Γ.labels [] c₁ c₁.newSlot := extends_slots c₁ _
      have inner := (h.extends (scrutinee.then slot)).arm c₁.newSlot_leads
      have first := extends_cases (m := m) inner.encloses rfl t cases hcases
      have second := extends_option (m := m) (inner.extends first).encloses rfl t default hdefault
      have arms := first.then second
      obtain ⟨vs, after, -⟩ := extends_after (f := f) (L := Γ.labels) _ c₁.slots.length t dst
      obtain ⟨rfl, safeOn, heldOn⟩ := ok (slot.errors (arms.errors (after.errors he)))
      obtain ⟨safe, goes⟩ := arms_goes h hf arms he fun arms => by
        rcases hp with hp | hp
        · obtain ⟨safe, lands⟩ := cases_sound inner cases hcases (second.errors arms) hp
          exact ⟨safe, (lands.extends second).from rfl fun _ _ => rfl⟩
        · obtain ⟨safe, lands⟩ := option_sound (inner.extends first) default hdefault arms hp
          exact ⟨safe, (lands.outer inner.encloses first (first.then second)).from rfl fun _ _ => rfl⟩
      rw [held_append, heldOn]
      exact ⟨safeOn.append (heldOn.symm ▸ safe), goes⟩
  | .block dst label body, hs, hf, he, hp => by
      obtain ⟨hlabel, hbody⟩ := hs
      obtain ⟨a, g, hp, rfl, rfl⟩ := hp
      simp only [checkStmt] at he ⊢
      have slot : Check.Extends Γ.labels [] c c.newSlot := extends_slots c _
      have labelled := extends_label (L := Γ.labels) c.newSlot (some c.slots.length) hlabel
      have inner : Check.Frame f (Γ.block label) _ t (some c.slots.length) head :=
        { encloses := (h.encloses.extends slot).block c.newSlot_leads label
          scope := h.scope
          tokens := h.tokens }
      have arm := extends_checkSeq _ t [] _ _ (extends_seq (m := m) inner.encloses rfl t body hbody)
      refine arms_goes h hf (labelled.then (arm.mono (Finset.subset_insert label Γ.labels))) he fun he => ?_
      obtain ⟨safe, lands⟩ := Sound.arm (seq_sound body) inner hbody he hp
      exact ⟨safe, lands.of_block⟩
  | .loop dst vars inits body, hs, hf, he, hp => by
      obtain ⟨-, hvars, hbody⟩ := hs
      obtain ⟨a, g, hp, rfl, rfl⟩ := hp
      have taken := extends_takeAll (L := Γ.labels) (f := f) "a loop's initial value consumes" c t (operandVars f inits)
      have ok : (c.takeAll f "a loop's initial value consumes" t (operandVars f inits)).2.errors = [] → _ := takeAll_ok
      generalize htake : c.takeAll f "a loop's initial value consumes" t (operandVars f inits) = r at taken ok
      obtain ⟨t₁, c₁⟩ := r
      rw [checkStmt_loop head dst vars body htake] at he ⊢
      have exit : Check.Extends Γ.labels [] c₁ c₁.newSlot := extends_slots _ _
      have atHead : Check.Extends Γ.labels [] c₁.newSlot (c₁.newSlot.headSlot t₁) := extends_slots _ _
      have leads := c₁.newSlot_leads.extends atHead
      have inner := (h.encloses.extends (taken.then (exit.then atHead))).loop leads (c₁.newSlot.headSlot_leads t₁) vars
      have defined := extends_defineAll (L := Γ.labels) (f := f) (c₁.newSlot.headSlot t₁) t₁ (vars.map (·, 1))
      have arm := atHead.then (extends_checkSeq _ t₁ (vars.map (·, 1)) _ _
        (extends_seq (m := m) (inner.extends defined) rfl _ body hbody))
      obtain ⟨vs, after, -⟩ := extends_after (f := f) (L := Γ.labels) _ c₁.slots.length t₁ dst
      obtain ⟨heq, enough⟩ := ok (exit.errors (arm.errors (after.errors he)))
      obtain ⟨rfl, rfl⟩ := Prod.mk.inj heq
      obtain ⟨safe, hheld⟩ := safe_consume (f := f) enough
      have frame := h.take (operandVars f inits)
      obtain ⟨safe', goes⟩ := arms_goes frame hf arm he fun he => by
        obtain ⟨safe, lands⟩ := Sound.loop (seq_sound body) (frame.extends exit) leads hvars hbody he hp
        exact ⟨safe, (lands.from rfl fun _ _ => rfl).of_none⟩
      rw [held_append, hheld]
      exact ⟨safe.append (hheld ▸ safe'), goes⟩

theorem option_sound {Γ : Scope} {c : Check} {t : Tokens} {yieldTo head : Option Nat} {tr : List Event} {flow : Flow}
    (h : c.Frame f Γ t yieldTo head) :
    (o : Option Seq) → CountedOption f Γ o → (checkOption m f c t yieldTo head o).errors = [] →
      OptionPath m f o tr flow →
        Safe f t tr ∧ (checkOption m f c t yieldTo head o).Lands c Γ yieldTo head (held t tr) flow
  | none, _, _, hp => hp.elim
  | some body, hs, he, hp => by
      simp only [checkOption] at he ⊢
      exact Sound.arm (seq_sound body) h hs he hp

theorem fail_sound {Γ : Scope} {c : Check} {t : Tokens} {yieldTo head : Option Nat} {tr : List Event} {flow : Flow}
    (h : c.Frame f Γ t yieldTo head) :
    (o : Option (VarId × Seq)) → CountedFail f Γ o → (checkFail m f c t head o).errors = [] →
      FailPath m f o tr flow →
        Safe f t tr ∧ (checkFail m f c t head o).Lands c Γ.landing none head (held t tr) flow
  | none, _, _, hp => hp.elim
  | some (_, body), hs, he, hp => Sound.fail (seq_sound body) h hs he hp

theorem cases_sound {Γ : Scope} {c : Check} {t : Tokens} {yieldTo head : Option Nat} {tr : List Event} {flow : Flow}
    (h : c.Frame f Γ t yieldTo head) :
    (cases : List (CaseKey × Seq)) → CountedCases f Γ cases → (checkCases m f c t yieldTo head cases).errors = [] →
      CasesPath m f cases tr flow →
        Safe f t tr ∧ (checkCases m f c t yieldTo head cases).Lands c Γ yieldTo head (held t tr) flow
  | [], _, _, hp => hp.elim
  | (_, body) :: cases, hs, he, hp => by
      simp only [checkCases] at he ⊢
      have first := extends_checkSeq _ t [] _ _ (extends_seq (m := m) h.encloses rfl t body hs.1)
      have rest := extends_cases (m := m) (h.encloses.extends first) rfl t cases hs.2
      rcases hp with hp | hp
      · obtain ⟨safe, lands⟩ := Sound.arm (seq_sound body) h hs.1 (rest.errors he) hp
        exact ⟨safe, lands.extends rest⟩
      · obtain ⟨safe, lands⟩ := cases_sound (h.extends first) cases hs.2 he hp
        exact ⟨safe, lands.outer h.encloses first (first.then rest)⟩

end

end Emela.Lir
