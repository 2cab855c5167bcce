import Emela.Derive.Lemmas.Structural

/-!
# The two comparisons of a derived Eq

A derived Eq that reaches no written impl compares its values as a whole, with `$eq`. This is what comparing them field
by field gives, save for one object compared with itself that has a NaN among its fields.
-/

namespace Emela.Derive

open Lir (CtorRef EnumId)
open Match (Local Pat Ty)

variable {m : Module} {st : Ty → Bool} {f : FnId} {env : Env} {x y b next : Local} {id : EnumId} {args : List Ty}
  {tys tys' : List Ty} {vs ws : List JsVal} {i j k n o o' : Nat}

/-- The locals of the two lists of a constructor's fields differ from each other. -/
theorem binds_disjoint (h : x ∈ binds tys next) : x ∉ binds tys (next + tys.length) := by
  simp only [binds, List.mem_range'_1] at h ⊢
  omega

theorem binds_new (h : x < next) (l : Nat) : x ∉ binds tys (next + l) := by
  have hlt : @LT.lt Nat _ x next := h
  simp only [binds, List.mem_range'_1]
  omega

/-- The arms from the constructor `k` on, on a value of constructor `i` and one of constructor `j`. -/
theorem eqArms_eval {variants : List (List Ty)} (hst : ∀ t ∈ (m.variantsOf id args).flatten, st t = true)
    (hall : ∀ l, variants[l]? = (m.variantsOf id args)[k + l]?) (hki : k ≤ i)
    (hi : (m.variantsOf id args)[i]? = some tys) (hvs : List.Forall₂ (Represents m) tys vs)
    (hj : (m.variantsOf id args)[j]? = some tys') (hws : List.Forall₂ (Represents m) tys' ws)
    (hb : env b = some (ctorObject m id j o' ws)) (hbn : b < next) :
    jsArms m env (ctorObject m id i o vs) (eqArms st f id (1 < (m.variantsOf id args).length) b k variants next).1 =
      some (.bool (i == j && JsVal.eqAll vs ws)) := by
  have hlength : (m.variantsOf id args).length = (m.variants id).length := by simp [Module.variantsOf]
  have many : ∀ {a c : Nat} {us us' : List Ty}, (m.variantsOf id args)[a]? = some us →
      (m.variantsOf id args)[c]? = some us' → a ≠ c → 1 < (m.variants id).length := fun ha hc hac => by
    have h₁ := (List.getElem?_eq_some_iff.mp ha).1
    have h₂ := (List.getElem?_eq_some_iff.mp hc).1
    omega
  induction variants generalizing k next with
  | nil =>
    have hnone := hall (i - k)
    rw [Nat.add_sub_cancel' hki, hi] at hnone
    cases hnone
  | cons us variants ih =>
    have hk : (m.variantsOf id args)[k]? = some us := (hall 0).symm
    simp only [eqArms, jsArms]
    by_cases heq : k = i
    · subst heq
      obtain rfl : us = tys := Option.some.inj (hk.symm.trans hi)
      have hbx : b ∉ binds us next := binds_new hbn 0
      rw [jsPattern_same hi hvs.length_eq (by simp [binds, hvs.length_eq])]
      simp only [Option.bind_eq_bind, Option.bind_some, jsEval, bindAll_other hbx, hb, jsArms]
      by_cases hkj : k = j
      · subst hkj
        obtain rfl : us = tys' := Option.some.inj (hi.symm.trans hj)
        rw [jsPattern_same hj hws.length_eq (by simp [binds, hws.length_eq])]
        simp only [Option.bind_some, beq_self_eq_true, Bool.true_and]
        have hx : List.Forall₂ (fun x v => env.bindAll ((binds us next).zip vs) x = some v) (binds us next) vs :=
          bindAll_zip List.nodup_range' (by simp [binds, hvs.length_eq])
        refine eqVals_eval (fun t ht => hst t (List.mem_flatten_of_mem (List.mem_of_getElem? hi) ht)) hvs hws
          (bindAll_keep hx fun x => binds_disjoint) ?_
        exact bindAll_zip List.nodup_range' (by simp [binds, hws.length_eq])
      · have hm := many hk hj hkj
        rw [jsPattern_other hm (Ne.symm hkj), hlength, decide_eq_true hm]
        simp [jsArms, Module.jsPattern, jsEval, jsLit, hkj]
    · have hm := many hi hk (Ne.symm heq)
      rw [jsPattern_other hm (Ne.symm heq)]
      simp only [Option.bind_eq_bind, Option.bind_some]
      refine ih (k := k + 1) (fun l => ?_) (by omega) ?_
      · rw [Nat.add_assoc, Nat.add_comm 1 l]
        exact hall (l + 1)
      · exact Nat.lt_of_lt_of_le hbn (Nat.le_trans (Nat.le_add_right _ _) (le_eqVals _ _ _ _))

/-! ## Fields by themselves and values as a whole -/

/-- A field of the object is NaN. -/
def NanField (m : Module) (id : EnumId) (args : List Ty) (v : JsVal) : Prop :=
  ∃ k tys i x, (m.variantsOf id args)[k]? = some tys ∧ i < tys.length ∧ v.own "$tag" = some (m.tag ⟨id, k⟩) ∧
    v.own (m.fieldKey ⟨id, k⟩ i) = some (.number x) ∧ x.isNan = true

/-- Only a NaN is not equal to itself. -/
theorem eqTree_self (v : JsVal) : v.eqTree v = false ↔ ∃ x, v = .number x ∧ x.isNan = true := by
  cases v <;> simp [JsVal.eqTree, JsVal.strictEq, F64.eq]

theorem eqAll_self (vs : List JsVal) : JsVal.eqAll vs vs = false ↔ ∃ x, .number x ∈ vs ∧ x.isNan = true := by
  induction vs with
  | nil => simp [JsVal.eqAll]
  | cons v vs ih =>
    rw [JsVal.eqAll, Bool.and_eq_false_iff, eqTree_self, ih]
    constructor
    · rintro (⟨x, rfl, hx⟩ | ⟨x, hm, hx⟩)
      · exact ⟨x, List.mem_cons_self, hx⟩
      · exact ⟨x, List.mem_cons_of_mem _ hm, hx⟩
    · rintro ⟨x, hm, hx⟩
      rcases List.mem_cons.mp hm with rfl | hm
      · exact .inl ⟨x, rfl, hx⟩
      · exact .inr ⟨x, hm, hx⟩

theorem variants_length : (m.variantsOf id args).length = (m.variants id).length := by
  simp [Module.variantsOf]

theorem two_variants (hi : (m.variantsOf id args)[i]? = some tys) (hj : (m.variantsOf id args)[j]? = some tys')
    (hne : i ≠ j) : 1 < (m.variants id).length := by
  have h₁ := (List.getElem?_eq_some_iff.mp hi).1
  have h₂ := (List.getElem?_eq_some_iff.mp hj).1
  rw [variants_length] at h₁ h₂
  omega

theorem tag_inj (hi : (m.variantsOf id args)[i]? = some tys) (hj : (m.variantsOf id args)[j]? = some tys')
    (h : m.tag ⟨id, i⟩ = m.tag ⟨id, j⟩) : i = j := by
  by_contra hne
  have hmany := two_variants hi hj hne
  have hself : (m.tag ⟨id, i⟩).strictEq (.int i) = true := (tag_strictEq hmany).trans (by simp)
  rw [h, tag_strictEq hmany, decide_eq_true_eq] at hself
  exact hne hself.symm

theorem nanField_iff (hi : (m.variantsOf id args)[i]? = some tys) (hvs : tys.length = vs.length) :
    NanField m id args (ctorObject m id i o vs) ↔ ∃ x, .number x ∈ vs ∧ x.isNan = true := by
  constructor
  · rintro ⟨k, us, l, x, hk, hl, htag, hx, hnan⟩
    rw [own_tag, Option.some.injEq] at htag
    obtain rfl := tag_inj hi hk htag
    obtain rfl : tys = us := Option.some.inj (hi.symm.trans hk)
    rw [hvs] at hl
    have hv : vs[l]? = some vs[l] := List.getElem?_eq_getElem hl
    rw [own_field hi hvs hv, Option.some.injEq] at hx
    exact ⟨x, hx ▸ List.getElem_mem hl, hnan⟩
  · rintro ⟨x, hm, hnan⟩
    obtain ⟨l, hl, hx⟩ := List.mem_iff_getElem.mp hm
    exact ⟨i, tys, l, x, hi, hvs ▸ hl, own_tag, own_field hi hvs (hx ▸ List.getElem?_eq_getElem hl), hnan⟩

theorem eqProps_fields {v : JsVal} : ∀ {keys : List String} {vs ws : List JsVal}, keys.length = vs.length →
    vs.length = ws.length → (∀ (l : Nat) k w, keys[l]? = some k → ws[l]? = some w → v.own k = some w) →
    JsVal.eqProps v keys vs = JsVal.eqAll vs ws
  | [], [], [], _, _, _ => by simp [JsVal.eqProps, JsVal.eqAll]
  | k :: keys, u :: vs, w :: ws, hk, hl, h => by
    have head := h 0 k w rfl rfl
    have rest : JsVal.eqProps v keys vs = JsVal.eqAll vs ws :=
      eqProps_fields (by simpa using hk) (by simpa using hl) fun l => h (l + 1)
    simp [JsVal.eqProps, JsVal.eqAll, head, rest]

theorem tag_eqTree (k : Nat) : (m.tag ⟨id, k⟩).eqTree (m.tag ⟨id, k⟩) = true := by
  unfold Module.tag
  split <;> simp [JsVal.eqTree, JsVal.strictEq]

/-- Two objects are compared by their constructors and fields. -/
theorem eqTree_objects (hi : (m.variantsOf id args)[i]? = some tys) (hvs : tys.length = vs.length)
    (hj : (m.variantsOf id args)[j]? = some tys') (hws : tys'.length = ws.length) (ho : o ≠ o') :
    (ctorObject m id i o vs).eqTree (ctorObject m id j o' ws) = (i == j && JsVal.eqAll vs ws) := by
  have apart : (ctorObject m id i o vs).strictEq (ctorObject m id j o' ws) = false := by
    simpa [ctorObject, JsVal.strictEq] using ho
  have parts : (ctorObject m id i o vs).eqTree (ctorObject m id j o' ws) = (vs.length == ws.length &&
      JsVal.eqProps (ctorObject m id j o' ws) (m.keysOf ⟨id, i⟩ vs.length) (m.tag ⟨id, i⟩ :: vs)) := by
    have whole := JsVal.eqTree_object o (m.keysOf ⟨id, i⟩ vs.length) (m.tag ⟨id, i⟩ :: vs) (ctorObject m id j o' ws)
    change (ctorObject m id i o vs).eqTree _ = ((ctorObject m id i o vs).strictEq _ || _) at whole
    rw [whole, apart, Bool.false_or]
    simp [ctorObject, JsVal.isObject, JsVal.keyCount, Module.keysOf]
  rw [parts]
  by_cases hij : i = j
  · subst hij
    obtain rfl : tys = tys' := Option.some.inj (hi.symm.trans hj)
    have hlen : vs.length = ws.length := hvs.symm.trans hws
    have props : JsVal.eqProps (ctorObject m id i o' ws) (m.keysOf ⟨id, i⟩ vs.length) (m.tag ⟨id, i⟩ :: vs) =
        JsVal.eqAll (m.tag ⟨id, i⟩ :: vs) (m.tag ⟨id, i⟩ :: ws) := by
      refine eqProps_fields (by simp [Module.keysOf]) (by simp [hlen]) fun l k w hk hw => ?_
      rw [hlen] at hk
      exact lookup_of_nodup (hws ▸ keysOf_nodup hj) hk hw
    rw [props]
    simp [JsVal.eqAll, tag_eqTree, hlen]
  · have hmany := two_variants hi hj hij
    have tags : (m.tag ⟨id, i⟩).eqTree (m.tag ⟨id, j⟩) = false := by
      have herr : m.isError id ≠ true := fun he => by
        have := m.error_one id he
        omega
      simp [Module.tag, herr, JsVal.eqTree, JsVal.strictEq, hij]
    simp [Module.keysOf, JsVal.eqProps, own_tag, tags, hij]

/-- What comparing field by field computes. -/
theorem eqEnum_eval (hst : m.Decides st) (hn : m.structural n (.enum id args) [] = some true)
    (hi : (m.variantsOf id args)[i]? = some tys) (hvs : List.Forall₂ (Represents m) tys vs)
    (hj : (m.variantsOf id args)[j]? = some tys') (hws : List.Forall₂ (Represents m) tys' ws)
    (ha : env x = some (ctorObject m id i o vs)) (hb : env b = some (ctorObject m id j o' ws)) (hbn : b < next) :
    jsEval m env (eqEnum st f m id args x b next) = some (.bool (i == j && JsVal.eqAll vs ws)) := by
  obtain ⟨R, hmem, hR⟩ := exists_parts hn
  have fields : ∀ t ∈ (m.variantsOf id args).flatten, st t = true := fun t ht => by
    obtain ⟨ts, hts, hparts⟩ := hR _ hmem
    rw [Module.parts, Option.ite_none_left_eq_some] at hts
    obtain ⟨-, hts⟩ := hts
    refine hst.part hR ((hparts t ?_).resolve_right List.not_mem_nil)
    rw [← Option.some.inj hts]
    simpa [Module.variantsOf, List.mem_flatten, List.mem_flatMap] using ht
  have arms := @eqArms_eval m st f env b next id args tys tys' vs ws i j 0 o o' _ fields (fun l => by rw [Nat.zero_add])
    (Nat.zero_le i) hi hvs hj hws hb hbn
  have hne : (eqArms st f id (decide (1 < (m.variantsOf id args).length)) b 0 (m.variantsOf id args) next).1.isEmpty =
      false := by
    cases hv : (eqArms st f id (decide (1 < (m.variantsOf id args).length)) b 0 (m.variantsOf id args) next).1 with
    | nil =>
      rw [hv] at arms
      cases arms
    | cons => rfl
  rw [eqEnum]
  simp only [hne, Bool.false_eq_true, if_false]
  rw [jsEval, jsEval, ha]
  exact arms

/-- A derived Eq that compares its values as a whole gives what comparing them field by field gives, exactly where the
two are not one object with a NaN among its fields. -/
theorem derivedEq_choice {v w : JsVal} {heap : Nat → JsVal} (hst : m.Decides st)
    (hn : m.structural n (.enum id args) [] = some true) (hv : Represents m (.enum id args) v)
    (hw : Represents m (.enum id args) w) (hvh : InHeap heap v) (hwh : InHeap heap w) (ha : env x = some v)
    (hb : env b = some w) (hbn : b < next) :
    jsEval m env (derivedEq st f m id args x b next) = jsEval m env (eqEnum st f m id args x b next) ↔
      ¬ (v.strictEq w = true ∧ NanField m id args v) := by
  have whole : jsEval m env (derivedEq st f m id args x b next) = some (.bool (v.eqTree w)) := by
    rw [derivedEq, hst n _ _ hn, if_pos rfl]
    simp [jsEval, ha, hb, jsBinary, JsVal.eq_eq]
  cases hv with
  | @enum _ i _ tys o vs hi hvs =>
    cases hw with
    | @enum _ j _ tys' o' ws hj hws =>
      rw [hvs.length_eq] at hvh ha whole ⊢
      rw [hws.length_eq] at hwh hb whole ⊢
      change env x = some (ctorObject m id i o vs) at ha
      change env b = some (ctorObject m id j o' ws) at hb
      change jsEval m env (derivedEq st f m id args x b next) =
        some (.bool ((ctorObject m id i o vs).eqTree (ctorObject m id j o' ws))) at whole
      change _ ↔ ¬((ctorObject m id i o vs).strictEq (ctorObject m id j o' ws) = true ∧
        NanField m id args (ctorObject m id i o vs))
      rw [whole, eqEnum_eval hst hn hi hvs hj hws ha hb hbn, nanField_iff hi hvs.length_eq]
      by_cases ho : o = o'
      · subst ho
        obtain ⟨rfl, rfl⟩ : i = j ∧ vs = ws := by
          have hsame : ctorObject m id i o vs = ctorObject m id j o ws := by
            cases hvh with
            | object hh _ =>
              cases hwh with
              | object hh' _ => exact hh.symm.trans hh'
              | other h => cases h
            | other h => cases h
          simp only [ctorObject, JsVal.object.injEq, List.cons.injEq] at hsame
          exact ⟨tag_inj hi hj hsame.2.2.1, hsame.2.2.2⟩
        have hself : (ctorObject m id i o vs).strictEq (ctorObject m id i o vs) = true := by
          simp [ctorObject, JsVal.strictEq]
        have hwhole : (ctorObject m id i o vs).eqTree (ctorObject m id i o vs) = true := by
          simp [ctorObject, JsVal.eqTree, JsVal.strictEq]
        rw [hwhole, hself, ← eqAll_self]
        cases JsVal.eqAll vs vs <;> simp
      · rw [eqTree_objects hi hvs.length_eq hj hws.length_eq ho]
        simp [ctorObject, JsVal.strictEq, ho]

/-! ## A NaN -/

/-- The module with `enum P { P(Float) }`. -/
def nanModule : Module where
  variants _ := [[.float]]
  name _ := "P"
  enumName _ := "P"
  external _ := false
  labels _ := none
  labels_fields _ _ h := by cases h
  isError _ := false
  descriptor _ := 0
  error_one _ h := by cases h
  isAny _ := false
  written _ := false

/-- `P(nan)`. -/
def nanValue : JsVal := .object 0 ["$tag", "$0"] [.int 0, .number 0x7ff8000000000000#64]

theorem nanValue_represents : Represents nanModule (.enum 0 []) nanValue :=
  @Represents.enum nanModule 0 0 [] [.float] 0 [.number 0x7ff8000000000000#64] rfl (.cons .float .nil)

theorem nanValue_inHeap : InHeap (fun _ => nanValue) nanValue := by
  refine .object rfl fun v hv => .other ?_
  simp only [List.mem_cons, List.not_mem_nil, or_false] at hv
  rcases hv with rfl | rfl <;> rfl

theorem nanModule_structural : nanModule.structural 2 (.enum 0 []) [] = some true := by decide

/-- `p == p` for `p` the value `P(nan)`: True as a whole, and False field by field. -/
theorem derivedEq_nan : ∃ st, nanModule.Decides st ∧
    jsEval nanModule (fun _ => some nanValue) (derivedEq st 0 nanModule 0 [] 0 1 2) = some (.bool true) ∧
    jsEval nanModule (fun _ => some nanValue) (eqEnum st 0 nanModule 0 [] 0 1 2) = some (.bool false) := by
  obtain ⟨st, hst⟩ := exists_decides nanModule
  refine ⟨st, hst, ?_, ?_⟩
  · rw [derivedEq, hst 2 _ _ nanModule_structural, if_pos rfl]
    simp [jsEval, jsBinary, JsVal.eq_eq, nanValue, JsVal.eqTree, JsVal.strictEq]
  · have hvs : List.Forall₂ (Represents nanModule) [.float] [.number 0x7ff8000000000000#64] := .cons .float .nil
    have heval := @eqEnum_eval nanModule st 0 (fun _ => some nanValue) 0 1 2 0 [] [.float] [.float] _ _ 0 0 2 0 0 hst
      nanModule_structural rfl hvs rfl hvs rfl rfl (by decide)
    rw [heval]
    simp only [Option.some.injEq, JsVal.bool.injEq]
    decide

theorem derivedEq_choice_nan : ∃ st, nanModule.Decides st ∧
    (jsEval nanModule (fun _ => some nanValue) (derivedEq st 0 nanModule 0 [] 0 1 2) =
        jsEval nanModule (fun _ => some nanValue) (eqEnum st 0 nanModule 0 [] 0 1 2) ↔
      ¬ (nanValue.strictEq nanValue = true ∧ NanField nanModule 0 [] nanValue)) := by
  obtain ⟨st, hst⟩ := exists_decides nanModule
  exact ⟨st, hst, derivedEq_choice hst nanModule_structural nanValue_represents nanValue_represents nanValue_inHeap
    nanValue_inHeap rfl rfl (by decide)⟩

end Emela.Derive
