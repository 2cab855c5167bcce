import Emela.Derive.Js
import Mathlib

/-!
# Types compared by their structure

A type that is compared by its structure has finitely many parts, and each is compared so too. Then what the field-by-field
comparison of a derived Eq computes in JS.
-/

namespace Emela.Derive

open Match (Ty)

section
variable {m : Module} {n : Nat} {ty t : Ty} {ts seen : List Ty}

theorem structuralAll_true {s : Ty → Option Bool} : structuralAll s ts = some true ↔ ∀ t ∈ ts, s t = some true := by
  induction ts with
  | nil => simp [structuralAll]
  | cons t ts ih =>
    rw [structuralAll, List.forall_mem_cons, ← ih]
    cases h : s t with
    | none => simp
    | some b => cases b <;> simp

/-- Types whose parts are among them or among `seen`. -/
def ClosedBut (m : Module) (seen : List Ty) (R : Finset Ty) : Prop :=
  ∀ t ∈ R, ∃ ts, m.parts t = some ts ∧ ∀ u ∈ ts, u ∈ R ∨ u ∈ seen

theorem ClosedBut.biUnion {ι : Type} [DecidableEq ι] {l : Finset ι} {F : ι → Finset Ty}
    (h : ∀ i ∈ l, ClosedBut m seen (F i)) : ClosedBut m seen (l.biUnion F) := by
  intro t ht
  obtain ⟨i, hi, ht⟩ := Finset.mem_biUnion.mp ht
  obtain ⟨ts, hts, hparts⟩ := h i hi t ht
  exact ⟨ts, hts, fun u hu => (hparts u hu).imp_left fun hu => Finset.mem_biUnion.mpr ⟨i, hi, hu⟩⟩

theorem exists_closedBut (h : m.structural n ty seen = some true) :
    ∃ R : Finset Ty, (ty ∈ R ∨ ty ∈ seen) ∧ ClosedBut m seen R := by
  induction n generalizing ty seen with
  | zero => cases h
  | succ n ih =>
    rw [Module.structural] at h
    split at h
    · next hseen => exact ⟨∅, .inr hseen, fun t ht => absurd ht (Finset.notMem_empty t)⟩
    · next hseen =>
      split at h
      · cases h
      · next ts hts =>
        have part : ∀ t ∈ ts, ∃ R : Finset Ty, (t ∈ R ∨ t ∈ ty :: seen) ∧ ClosedBut m (ty :: seen) R :=
          fun t ht => ih (structuralAll_true.mp h t ht)
        choose! F hmem hclosed using part
        have hall : ClosedBut m (ty :: seen) (ts.toFinset.biUnion F) :=
          ClosedBut.biUnion fun t ht => hclosed t (List.mem_toFinset.mp ht)
        refine ⟨insert ty (ts.toFinset.biUnion F), .inl (Finset.mem_insert_self _ _), fun t ht => ?_⟩
        have sort : ∀ u, u ∈ ts.toFinset.biUnion F ∨ u ∈ ty :: seen →
            u ∈ insert ty (ts.toFinset.biUnion F) ∨ u ∈ seen := by
          rintro u (hu | hu)
          · exact .inl (Finset.mem_insert_of_mem hu)
          · rcases List.mem_cons.mp hu with rfl | hu
            · exact .inl (Finset.mem_insert_self _ _)
            · exact .inr hu
        rcases Finset.mem_insert.mp ht with rfl | ht
        · refine ⟨ts, hts, fun u hu => sort u ((hmem u hu).imp_left fun hR => ?_)⟩
          exact Finset.mem_biUnion.mpr ⟨u, List.mem_toFinset.mpr hu, hR⟩
        · obtain ⟨us, hus, hparts⟩ := hall t ht
          exact ⟨us, hus, fun u hu => sort u (hparts u hu)⟩

/-- On types whose parts are among them, `structural` finds all of them and returns. -/
theorem structural_of_closed {R : Finset Ty} (hR : ClosedBut m [] R) (hty : ty ∈ R)
    (hn : (R \ seen.toFinset).card < n) : m.structural n ty seen = some true := by
  induction n generalizing ty seen with
  | zero => omega
  | succ n ih =>
    rw [Module.structural]
    split
    · rfl
    · next hseen =>
      obtain ⟨ts, hts, hparts⟩ := hR ty hty
      rw [hts]
      refine structuralAll_true.mpr fun t ht => ih ((hparts t ht).resolve_right List.not_mem_nil) ?_
      have hlt : (R \ (ty :: seen).toFinset).card < (R \ seen.toFinset).card := by
        apply Finset.card_lt_card
        rw [Finset.ssubset_iff_of_subset]
        · exact ⟨ty, by simp [hty, hseen], by simp⟩
        · exact Finset.sdiff_subset_sdiff (Finset.Subset.refl R) (by simp)
      omega

/-- The type with its parts, the parts of these and so on. -/
theorem exists_parts (h : m.structural n ty [] = some true) :
    ∃ R : Finset Ty, ty ∈ R ∧ ClosedBut m [] R := by
  obtain ⟨R, hty, hR⟩ := exists_closedBut h
  exact ⟨R, hty.resolve_right List.not_mem_nil, hR⟩

/-- A part of a type that is compared by its structure is compared so too. -/
theorem Module.Decides.part {st : Ty → Bool} (hst : m.Decides st) {R : Finset Ty} (hR : ClosedBut m [] R) (ht : t ∈ R) :
    st t = true := by
  refine hst ((R \ (∅ : Finset Ty)).card + 1) t true (structural_of_closed hR ht ?_)
  simp

/-! ## The fuel -/

theorem structuralAll_mono {s s' : Ty → Option Bool} {b : Bool} (h : ∀ t ∈ ts, ∀ b, s t = some b → s' t = some b)
    (hs : structuralAll s ts = some b) : structuralAll s' ts = some b := by
  induction ts with
  | nil => exact hs
  | cons t ts ih =>
    obtain ⟨ht, hts⟩ := List.forall_mem_cons.mp h
    obtain ⟨c, hc, hs⟩ := Option.bind_eq_some_iff.mp hs
    rw [structuralAll, ht c hc, Option.bind_some]
    cases c with
    | false => exact hs
    | true => exact ih hts hs

theorem structural_mono {k : Nat} {b : Bool} (hk : n ≤ k) (h : m.structural n ty seen = some b) :
    m.structural k ty seen = some b := by
  induction n generalizing ty seen k b with
  | zero => cases h
  | succ n ih =>
    obtain ⟨k, rfl⟩ : ∃ l, k = l + 1 := ⟨k - 1, by omega⟩
    rw [Module.structural] at h ⊢
    split at h
    · next hseen => rw [if_pos hseen]; exact h
    · next hseen =>
      rw [if_neg hseen]
      cases hp : m.parts ty with
      | none => simpa [hp] using h
      | some ts =>
        simp only [hp] at h ⊢
        exact structuralAll_mono (fun t _ b ht => ih (by omega) ht) h

/-- Some function tells what `structural` returns where it returns. -/
theorem exists_decides (m : Module) : ∃ st, m.Decides st := by
  classical
  refine ⟨fun ty => decide (∃ n, m.structural n ty [] = some true), fun n ty b h => ?_⟩
  cases b with
  | true => exact decide_eq_true ⟨n, h⟩
  | false =>
    refine decide_eq_false fun ⟨k, hk⟩ => ?_
    have h₁ := structural_mono (Nat.le_max_left n k) h
    rw [structural_mono (Nat.le_max_right n k) hk] at h₁
    cases h₁

end

/-! ## The derived comparison in JS -/

open Lir (CtorRef EnumId)
open Match (Local Pat Ty)

variable {m : Module} {st : Ty → Bool} {f : FnId} {env : Env} {x y next : Local} {ty : Ty} {v w : JsVal}
  {vs ws : List JsVal} {xs ys : List Local} {tys : List Ty}

/-! ## Locals -/

theorem bindAll_of_notMem : ∀ {bs : List (Local × JsVal)} {env : Env} {l : Local}, l ∉ bs.map Prod.fst →
    env.bindAll bs l = env l
  | [], _, _, _ => rfl
  | (k, v) :: bs, env, l, h => by
    rw [List.map_cons, List.mem_cons, not_or] at h
    rw [Env.bindAll, bindAll_of_notMem h.2, Env.bind, if_neg h.1]

theorem bindAll_zip : ∀ {xs : List Local} {vs : List JsVal} {env : Env}, xs.Nodup → xs.length = vs.length →
    List.Forall₂ (fun x v => env.bindAll (xs.zip vs) x = some v) xs vs
  | [], [], _, _, _ => .nil
  | x :: xs, v :: vs, env, hn, hl => by
    obtain ⟨hx, hn⟩ := List.nodup_cons.mp hn
    have hl : xs.length = vs.length := by simpa using hl
    refine .cons ?_ (bindAll_zip hn hl)
    have hnot : x ∉ (xs.zip vs).map Prod.fst := by
      rw [List.map_fst_zip hl.le]
      exact hx
    rw [List.zip_cons_cons, Env.bindAll, bindAll_of_notMem hnot, Env.bind, if_pos rfl]

theorem bindAll_other (hx : x ∉ xs) : env.bindAll (xs.zip vs) x = env x :=
  bindAll_of_notMem fun h => by
    obtain ⟨p, hp, rfl⟩ := List.mem_map.mp h
    exact hx (List.of_mem_zip hp).1

/-- What is bound stays so under new locals. -/
theorem bindAll_keep (h : List.Forall₂ (fun x v => env x = some v) xs vs) (hnew : ∀ x ∈ xs, x ∉ ys) :
    List.Forall₂ (fun x v => env.bindAll (ys.zip ws) x = some v) xs vs := by
  induction h with
  | nil => exact .nil
  | cons hx _ ih =>
    obtain ⟨hnot, hnew⟩ := List.forall_mem_cons.mp hnew
    exact .cons ((bindAll_other hnot).trans hx) (ih hnew)

theorem bindFields_binds {get : Nat → JsVal} : ∀ {i : Nat} {xs : List Local} {vs : List JsVal}, xs.length = vs.length →
    (∀ j v, vs[j]? = some v → get (i + j) = v) → bindFields get i (xs.map .bind) = some (xs.zip vs)
  | _, [], [], _, _ => rfl
  | i, x :: xs, v :: vs, hl, h => by
    have rest : bindFields get (i + 1) (xs.map .bind) = some (xs.zip vs) := by
      refine bindFields_binds (by simpa using hl) fun j v hv => ?_
      rw [Nat.add_right_comm]
      exact h (j + 1) v (by simpa using hv)
    have head : get i = v := h 0 v rfl
    simp [bindFields, bindPat, rest, head]

/-! ## The counter of locals -/

mutual

theorem le_eqVal : ∀ (ty : Ty) (x y next : Local), next ≤ (eqVal st f ty x y next).2
  | .tuple ts, x, y, next => by
    rw [eqVal]
    split
    · exact Nat.le_refl _
    · exact Nat.le_trans (Nat.le_add_right _ _) (le_eqVals ts _ _ _)
  | .unit, _, _, _ | .never, _, _, _ | .int, _, _, _ | .int64, _, _, _ | .float, _, _, _ | .bool, _, _, _
  | .string, _, _, _ => by simp [eqVal]
  | .list _, _, _, _ | .enum _ _, _, _, _ | .param _, _, _, _ | .other _, _, _, _ => by
    rw [eqVal]
    · split <;> exact Nat.le_refl _
    all_goals simp

theorem le_eqVals : ∀ (tys : List Ty) (xs ys : List Local) (next : Local), next ≤ (eqVals st f tys xs ys next).2
  | [], _, _, _ | _ :: _, [], _, _ | _ :: _, _ :: _, [], _ => by simp [eqVals]
  | t :: ts, x :: xs, y :: ys, next => by
    rw [eqVals]
    exact Nat.le_trans (le_eqVal t x y next) (le_eqVals ts xs ys _)

end

/-! ## One field -/

theorem eqVal_eval (hst : st ty = true) (hv : Represents m ty v) (hw : Represents m ty w) (hx : env x = some v)
    (hy : env y = some w) : jsEval m env (eqVal st f ty x y next).1 = some (.bool (v.eqTree w)) := by
  have whole : jsEval m env (.binary .eq .structural (.var x) (.var y)) = some (.bool (v.eqTree w)) := by
    simp [jsEval, hx, hy, jsBinary, JsVal.eq_eq]
  have direct (op : OpTy) (hop : op ≠ .structural) (ho : v.isObject = false) :
      jsEval m env (.binary .eq op (.var x) (.var y)) = some (.bool (v.eqTree w)) := by
    rw [JsVal.eqTree_of_not_object ho]
    cases op <;> simp_all [jsEval, jsBinary]
  cases hv with
  | int => simpa [eqVal] using direct .int (by decide) rfl
  | int64 => simpa [eqVal] using direct .int64 (by decide) rfl
  | float => simpa [eqVal] using direct .float (by decide) rfl
  | bool => simpa [eqVal] using direct .bool (by decide) rfl
  | string => simpa [eqVal] using direct .string (by decide) rfl
  | unit =>
    cases hw
    simp [eqVal, jsEval, jsLit, JsVal.eqTree, JsVal.strictEq]
  | nil => simpa [eqVal, hst] using whole
  | cons => simpa [eqVal, hst] using whole
  | tuple => simpa [eqVal, hst] using whole
  | enum => simpa [eqVal, hst] using whole
  | any => simpa [eqVal, hst] using whole

/-! ## The fields of a constructor -/

theorem andAll_eval : ∀ {es : List Expr} {bs : List Bool},
    List.Forall₂ (fun e b => jsEval m env e = some (.bool b)) es bs → jsEval m env (andAll es) = some (.bool (bs.all id))
  | [], _, .nil => by simp [andAll, jsEval, jsLit]
  | [e], _, .cons he .nil => by simpa [andAll] using he
  | e :: e' :: es, b :: bs, .cons he hes => by
    have rest := andAll_eval hes
    cases b <;> simp [andAll, jsEval, he, rest]

theorem eqVals_eval (hst : ∀ t ∈ tys, st t = true) (hv : List.Forall₂ (Represents m) tys vs)
    (hw : List.Forall₂ (Represents m) tys ws) (hx : List.Forall₂ (fun x v => env x = some v) xs vs)
    (hy : List.Forall₂ (fun y w => env y = some w) ys ws) :
    jsEval m env (andAll (eqVals st f tys xs ys next).1) = some (.bool (JsVal.eqAll vs ws)) := by
  have bools : ∀ {tys : List Ty} {vs ws : List JsVal} {xs ys : List Local} {next : Local}, (∀ t ∈ tys, st t = true) →
      List.Forall₂ (Represents m) tys vs → List.Forall₂ (Represents m) tys ws →
      List.Forall₂ (fun x v => env x = some v) xs vs → List.Forall₂ (fun y w => env y = some w) ys ws →
      List.Forall₂ (fun e b => jsEval m env e = some (.bool b)) (eqVals st f tys xs ys next).1
        (List.zipWith JsVal.eqTree vs ws) := by
    intro tys vs ws xs ys next hst hv hw hx hy
    induction hv generalizing ws xs ys next with
    | nil =>
      cases hw
      cases hx
      simp [eqVals]
    | cons hv hvs ih =>
      cases hw with
      | cons hw hws =>
        cases hx with
        | cons hx hxs =>
          cases hy with
          | cons hy hys =>
            obtain ⟨ht, hts⟩ := List.forall_mem_cons.mp hst
            simp only [eqVals, List.zipWith_cons_cons]
            exact .cons (eqVal_eval ht hv hw hx hy) (ih hts hws hxs hys)
  have all : ∀ (vs ws : List JsVal), (List.zipWith JsVal.eqTree vs ws).all id = JsVal.eqAll vs ws := by
    intro vs
    induction vs with
    | nil => simp [JsVal.eqAll]
    | cons v vs ih =>
      intro ws
      cases ws <;> simp [JsVal.eqAll, ih]
  rw [andAll_eval (bools hst hv hw hx hy), all]

/-! ## The objects of constructors -/

theorem lookup_of_nodup : ∀ {keys : List String} {vals : List JsVal} {j : Nat} {k : String} {v : JsVal}, keys.Nodup →
    keys[j]? = some k → vals[j]? = some v → JsVal.lookup k keys vals = some v
  | [], _, _, _, _, _, h, _ => by simp at h
  | _ :: _, [], _, _, _, _, _, h => by simp at h
  | key :: keys, v :: vals, 0, k, w, _, hk, hv => by
    obtain rfl : key = k := by simpa using hk
    obtain rfl : v = w := by simpa using hv
    simp [JsVal.lookup]
  | key :: keys, v :: vals, j + 1, k, w, hn, hk, hv => by
    obtain ⟨hkey, hn⟩ := List.nodup_cons.mp hn
    rw [List.getElem?_cons_succ] at hk hv
    have hne : key ≠ k := fun he => hkey (he ▸ List.mem_of_getElem? hk)
    rw [JsVal.lookup, if_neg hne]
    exact lookup_of_nodup hn hk hv

section
variable {id : EnumId} {args : List Ty} {k i j : Nat} {obj : Nat}

/-- The object of a value of the constructor. -/
def ctorObject (m : Module) (id : EnumId) (k obj : Nat) (vs : List JsVal) : JsVal :=
  .object obj (m.keysOf ⟨id, k⟩ vs.length) (m.tag ⟨id, k⟩ :: vs)

theorem variantsOf_fields (hk : (m.variantsOf id args)[k]? = some tys) :
    ((m.variants id)[k]?.getD []).length = tys.length := by
  rw [Module.variantsOf, List.getElem?_map, Option.map_eq_some_iff] at hk
  obtain ⟨us, hus, rfl⟩ := hk
  simp [hus]

theorem fieldKey_labels {names : List String} (hl : m.labels ⟨id, k⟩ = some names) (hi : i < names.length) :
    m.fieldKey ⟨id, k⟩ i = names[i] := by
  simp [Module.fieldKey, hl, hi]

theorem keysOf_nodup (hk : (m.variantsOf id args)[k]? = some tys) : (m.keysOf ⟨id, k⟩ tys.length).Nodup := by
  rw [Module.keysOf, List.nodup_cons]
  cases hl : m.labels ⟨id, k⟩ with
  | none =>
    have key : ∀ i, m.fieldKey ⟨id, k⟩ i = "$" ++ Nat.repr i := fun i => by
      simp only [Module.fieldKey, hl]
      rfl
    constructor
    · intro hm
      obtain ⟨i, -, hi⟩ := List.mem_map.mp hm
      rw [key, String.ext_iff, String.toList_append] at hi
      have digit : ∀ c ∈ (Nat.repr i).toList, c.isDigit := fun c hc => by
        rw [Nat.toList_repr] at hc
        exact Nat.isDigit_of_mem_toDigits (by decide) (by decide) hc
      have hmem : 't' ∈ (Nat.repr i).toList := by
        have := List.append_cancel_left hi
        rw [this]
        decide
      exact absurd (digit 't' hmem) (by decide)
    · refine List.Nodup.map (fun i j hij => ?_) List.nodup_range
      rw [key, key, String.ext_iff, String.toList_append, String.toList_append] at hij
      exact Nat.repr_injective (String.ext_iff.mpr (List.append_cancel_left hij))
  | some names =>
    obtain ⟨hlen, hnodup, htag⟩ := m.labels_fields _ _ hl
    rw [variantsOf_fields hk] at hlen
    have key : (List.range tys.length).map (m.fieldKey ⟨id, k⟩) = names := by
      apply List.ext_getElem (by simp [hlen])
      intro i h₁ h₂
      simp [fieldKey_labels hl h₂]
    rw [key]
    exact ⟨htag, hnodup⟩

theorem own_tag : (ctorObject m id k obj vs).own "$tag" = some (m.tag ⟨id, k⟩) := by
  simp [ctorObject, JsVal.own, Module.keysOf, JsVal.lookup]

theorem own_field (hk : (m.variantsOf id args)[k]? = some tys) (hl : tys.length = vs.length) (hv : vs[j]? = some v) :
    (ctorObject m id k obj vs).own (m.fieldKey ⟨id, k⟩ j) = some v := by
  have hj : j < vs.length := (List.getElem?_eq_some_iff.mp hv).1
  apply lookup_of_nodup (j := j + 1)
  · rw [← hl]
    exact keysOf_nodup hk
  · simp [Module.keysOf, hj]
  · simpa using hv

theorem tag_strictEq (hmany : 1 < (m.variants id).length) : (m.tag ⟨id, k⟩).strictEq (.int i) = decide (k = i) := by
  have herr : m.isError id ≠ true := fun he => by
    have := m.error_one id he
    omega
  by_cases hki : k = i <;> simp [Module.tag, herr, JsVal.strictEq, hki]

theorem jsPattern_same (hk : (m.variantsOf id args)[k]? = some tys) (hl : tys.length = vs.length)
    (hxs : xs.length = vs.length) :
    m.jsPattern (ctorObject m id k obj vs) (ctorPat ⟨id, k⟩ xs) = some (some (xs.zip vs)) := by
  have fields : bindFields (fun i => ((ctorObject m id k obj vs).own (m.fieldKey ⟨id, k⟩ i)).getD .undefined) 0
      (xs.map .bind) = some (xs.zip vs) := by
    refine bindFields_binds hxs fun j v hv => ?_
    rw [Nat.zero_add, own_field hk hl hv, Option.getD_some]
  rw [ctorPat, Module.jsPattern, if_neg, fields, Option.map_some]
  rintro ⟨hmany, htag⟩
  rw [own_tag, Option.getD_some] at htag
  exact htag ((tag_strictEq hmany).trans (by simp))

theorem jsPattern_other (hmany : 1 < (m.variants id).length) (hne : k ≠ i) :
    m.jsPattern (ctorObject m id k obj vs) (ctorPat ⟨id, i⟩ xs) = some none := by
  rw [ctorPat, Module.jsPattern, if_pos]
  refine ⟨hmany, ?_⟩
  rw [own_tag, Option.getD_some, tag_strictEq hmany]
  simpa using hne

end

end Emela.Derive
