import Emela.Types.Exhaustiveness

/-!
# Splitting a column

The constructors of a column partition the values of its type, and a pattern of the column matches a
value exactly when it covers the value's constructor and its specialization matches the fields.
-/

namespace Emela.Types

variable {T : Type} {table : CtorTable T} {prim : T → Value → Prop}

/-! ## Literals -/

def Lit.canon : Lit → Lit
  | .float x => .float x.canon
  | l => l

theorem Lit.eq_iff (a b : Lit) : a.eq b = true ↔ a.canon = b.canon := by
  cases a <;> cases b <;> simp [Lit.eq, Lit.canon, ← F64.eq_or_nan_iff]

theorem Lit.eq_refl (a : Lit) : a.eq a = true := (Lit.eq_iff a a).mpr rfl

theorem Lit.eq_congr {a b : Lit} (h : a.eq b = true) (c : Lit) : c.eq a = c.eq b := by
  rw [Bool.eq_iff_iff, Lit.eq_iff, Lit.eq_iff, (Lit.eq_iff a b).mp h]

/-! ## Element-wise matching -/

theorem matchesElems_append {ps qs : List Pat} {vs ws : List Value} (h : ps.length = vs.length) :
    matchesElems (ps ++ qs) (vs ++ ws) = (matchesElems ps vs && matchesElems qs ws) := by
  induction ps generalizing vs with
  | nil =>
    cases vs with
    | nil => simp [matchesElems]
    | cons v vs => cases h
  | cons p ps ih =>
    cases vs with
    | nil => cases h
    | cons v vs => simp [matchesElems, ih (by simpa using h), Bool.and_assoc]

theorem matchesElems_wild {n : Nat} {vs : List Value} (h : n ≤ vs.length) :
    matchesElems (List.replicate n .wild) vs = true := by
  induction n generalizing vs with
  | zero => simp [matchesElems]
  | succ n ih =>
    cases vs with
    | nil => simp at h
    | cons v vs => simp [List.replicate_succ, matchesElems, Pat.matches, ih (by simpa using h)]

/-- Matching reads as many values as there are patterns. -/
theorem matchesElems_take {ps : List Pat} {vs : List Value} {n : Nat} (h : ps.length ≤ n) :
    matchesElems ps (vs.take n) = matchesElems ps vs := by
  induction ps generalizing vs n with
  | nil => simp [matchesElems]
  | cons p ps ih =>
    obtain ⟨n, rfl⟩ : ∃ m, n = m + 1 := ⟨n - 1, by simp at h; omega⟩
    cases vs with
    | nil => simp
    | cons v vs => simp [matchesElems, ih (by simpa using h)]

theorem matchesElems_fillSlots {ps : List Pat} {vs : List Value} (h : ps.length ≤ vs.length) :
    matchesElems (fillSlots vs.length ps) vs = matchesElems ps vs := by
  have hsplit := List.take_append_drop ps.length vs
  rw [fillSlots, List.take_of_length_le h, ← hsplit, matchesElems_append (by simp [h]),
    matchesElems_wild (by simp), Bool.and_true, hsplit, matchesElems_take (Nat.le_refl _)]

theorem matchesElems_iff {ps : List Pat} {vs : List Value} (h : ps.length = vs.length) :
    matchesElems ps vs = true ↔ ∀ (i : Nat) (p : Pat) (v : Value), ps[i]? = some p → vs[i]? = some v → p.matches v = true := by
  induction ps generalizing vs with
  | nil => simp [matchesElems]
  | cons p ps ih =>
    cases vs with
    | nil => cases h
    | cons v vs =>
      simp only [matchesElems, Bool.and_eq_true, ih (by simpa using h)]
      constructor
      · rintro ⟨hp, hps⟩ i p' v' hp' hv'
        cases i with
        | zero => simp only [List.getElem?_cons_zero, Option.some.injEq] at hp' hv'; rwa [← hp', ← hv']
        | succ i => exact hps i p' v' (by simpa using hp') (by simpa using hv')
      · intro hall
        exact ⟨hall 0 p v rfl rfl, fun i p' v' hp' hv' =>
          hall (i + 1) p' v' (by simpa using hp') (by simpa using hv')⟩

theorem matchesFields_iff {fields : List (Nat × Pat)} {args : List Value} :
    matchesFields fields args = true ↔
      ∀ f ∈ fields, ∃ v, args[f.1]? = some v ∧ f.2.matches v = true := by
  induction fields with
  | nil => simp [matchesFields]
  | cons f fields ih =>
    obtain ⟨i, p⟩ := f
    simp [matchesFields, ih, Option.any_eq_true]

/-! ## The fields of a constructor pattern -/

theorem length_setFields (fields : List (Nat × Pat)) (out : List Pat) :
    (fields.foldl (fun out f => out.set f.1 f.2) out).length = out.length := by
  induction fields generalizing out with
  | nil => rfl
  | cons f fields ih => simp [ih]

theorem getElem?_setFields_of_not_mem {fields : List (Nat × Pat)} {i : Nat} (out : List Pat)
    (h : i ∉ fields.map Prod.fst) :
    (fields.foldl (fun out f => out.set f.1 f.2) out)[i]? = out[i]? := by
  induction fields generalizing out with
  | nil => rfl
  | cons f fields ih =>
    simp only [List.map_cons, List.mem_cons, not_or] at h
    rw [List.foldl_cons, ih _ h.2, List.getElem?_set_ne (Ne.symm h.1)]

theorem getElem?_setFields_of_mem {fields : List (Nat × Pat)} {f : Nat × Pat} {out : List Pat}
    (hnd : (fields.map Prod.fst).Nodup) (hf : f ∈ fields) (hlt : f.1 < out.length) :
    (fields.foldl (fun out f => out.set f.1 f.2) out)[f.1]? = some f.2 := by
  induction fields generalizing out with
  | nil => cases hf
  | cons g fields ih =>
    simp only [List.map_cons, List.nodup_cons] at hnd
    rw [List.foldl_cons]
    rcases List.mem_cons.mp hf with rfl | hf
    · rw [getElem?_setFields_of_not_mem _ hnd.1, List.getElem?_set_self hlt]
    · exact ih hnd.2 hf (by simpa using hlt)

/-- A field of the filled row is a field written or a wildcard. -/
theorem getElem?_setFields {fields : List (Nat × Pat)} {n i : Nat} {p : Pat}
    (hnd : (fields.map Prod.fst).Nodup)
    (h : (fields.foldl (fun out f => out.set f.1 f.2) (List.replicate n .wild))[i]? = some p) :
    p = .wild ∨ (i, p) ∈ fields := by
  have hi : i < n := by
    have := (List.getElem?_eq_some_iff.mp h).1
    rwa [length_setFields, List.length_replicate] at this
  by_cases hmem : i ∈ fields.map Prod.fst
  · obtain ⟨f, hf, rfl⟩ := List.mem_map.mp hmem
    rw [getElem?_setFields_of_mem hnd hf (by simpa using hi)] at h
    obtain rfl : f.2 = p := by simpa using h
    exact .inr hf
  · rw [getElem?_setFields_of_not_mem _ hmem, List.getElem?_replicate, if_pos hi] at h
    exact .inl (by simpa using h.symm)

theorem matchesElems_setFields {fields : List (Nat × Pat)} {args : List Value}
    (hnd : (fields.map Prod.fst).Nodup) (hlt : ∀ f ∈ fields, f.1 < args.length) :
    matchesElems (fields.foldl (fun out f => out.set f.1 f.2) (List.replicate args.length .wild)) args =
      matchesFields fields args := by
  rw [Bool.eq_iff_iff, matchesFields_iff, matchesElems_iff (by simp [length_setFields])]
  constructor
  · intro h f hf
    have hlt' := hlt f hf
    exact ⟨args[f.1], List.getElem?_eq_getElem hlt', h f.1 f.2 _
      (getElem?_setFields_of_mem hnd hf (by simpa using hlt')) (List.getElem?_eq_getElem hlt')⟩
  · intro h i p v hp hv
    rcases getElem?_setFields hnd hp with rfl | hmem
    · simp [Pat.matches]
    · obtain ⟨w, hw, hmatch⟩ := h _ hmem
      obtain rfl : w = v := by simpa [hw] using hv
      exact hmatch

/-! ## Columns -/

theorem le_listBound {heads : List Pat} {ps : List Pat} {rest : Bool} (h : .list ps rest ∈ heads) :
    (if rest then ps.length else ps.length + 1) ≤ listBound heads := by
  have hfold : ∀ (f : Nat → Pat → Nat) (hf : ∀ n p, n ≤ f n p)
      (hps : ∀ n, (if rest then ps.length else ps.length + 1) ≤ f n (.list ps rest)) (acc : Nat),
      acc ≤ heads.foldl f acc ∧
        (.list ps rest ∈ heads → (if rest then ps.length else ps.length + 1) ≤ heads.foldl f acc) := by
    intro f hf hps
    clear h
    induction heads with
    | nil => simp
    | cons p heads ih =>
      intro acc
      simp only [List.foldl_cons, List.mem_cons]
      obtain ⟨hacc, hmem⟩ := ih (f acc p)
      refine ⟨(hf acc p).trans hacc, ?_⟩
      rintro (rfl | h)
      · exact (hps acc).trans hacc
      · exact hmem h
  refine (hfold _ ?_ (fun n => le_max_right _ _) 0).2 h
  intro n p
  cases p with
  | list ps' rest' => exact le_max_left _ _
  | _ => exact le_rfl

theorem columnLits_spec (heads : List Pat) :
    (∀ l ∈ columnLits heads, .lit l ∈ heads) ∧
      ∀ l, .lit l ∈ heads → ∃ l' ∈ columnLits heads, l.eq l' = true := by
  unfold columnLits
  induction heads using List.reverseRecOn with
  | nil => simp
  | append_singleton heads p ih =>
    obtain ⟨hin, hall⟩ := ih
    rw [List.foldl_append, List.foldl_cons, List.foldl_nil]
    generalize heads.foldl _ [] = lits at hin hall ⊢
    have hold : ∀ l ∈ lits, Pat.lit l ∈ heads ++ [p] := fun l h => by simp [hin l h]
    cases p with
    | lit a =>
      simp only
      split
      · rename_i hany
        obtain ⟨l', hl', heq⟩ := List.any_eq_true.mp hany
        refine ⟨hold, fun l hl => ?_⟩
        rcases List.mem_append.mp hl with h | h
        · exact hall l h
        · obtain rfl : l = a := by simpa using h
          exact ⟨l', hl', heq⟩
      · refine ⟨fun l hl => ?_, fun l hl => ?_⟩
        · rcases List.mem_append.mp hl with h | h
          · exact hold l h
          · obtain rfl : l = a := by simpa using h
            simp
        · rcases List.mem_append.mp hl with h | h
          · obtain ⟨l', hl', heq⟩ := hall l h
            exact ⟨l', by simp [hl'], heq⟩
          · obtain rfl : l = a := by simpa using h
            exact ⟨l, by simp, Lit.eq_refl l⟩
    | _ => exact ⟨hold, fun l hl => hall l (by simpa using hl)⟩

/-! ## The constructor of a value -/

/-- The value has the constructor, with the fields. -/
inductive Splits (heads : List Pat) : Ctor → Value → List Value → Prop where
  | variant {i args} : Splits heads (.variant i) (.variant i args) args
  | tuple {vs} : Splits heads .tuple (.tuple vs) vs
  | listFixed {vs} : Splits heads (.listFixed vs.length) (.list vs) vs
  | listAtLeast {vs n} : n ≤ vs.length → Splits heads (.listAtLeast n) (.list vs) (vs.take n)
  | lit {a b} : a.eq b = true → Splits heads (.lit a) (.lit b) []
  | other {v} : (∀ l, .lit l ∈ heads → (Pat.lit l).matches v = false) → Splits heads .other v []

theorem forall₂_replicate_iff {α β : Type} {R : α → β → Prop} {xs : List α} {n : Nat} {b : β} :
    List.Forall₂ R xs (List.replicate n b) ↔ xs.length = n ∧ ∀ x ∈ xs, R x b := by
  induction xs generalizing n with
  | nil => cases n <;> simp [List.replicate_succ]
  | cons x xs ih => cases n <;> simp [List.replicate_succ, ih, and_left_comm]

/-- Every value of the type has one of the constructors of the column. -/
theorem HasType.exists_splits {v : Value} {ty : T} (h : HasType table prim v ty) (heads : List Pat) :
    ∃ ctor ∈ splitCtors (table.shape ty) heads, ∃ fields, Splits heads ctor v fields ∧
      List.Forall₂ (HasType table prim) fields (fieldTys (table.shape ty) ctor) := by
  cases h with
  | prim hshape hv =>
    rw [hshape]
    by_cases hlit : ∃ l, .lit l ∈ heads ∧ (Pat.lit l).matches v = true
    · obtain ⟨l, hl, hm⟩ := hlit
      obtain ⟨l', hl', heq⟩ := (columnLits_spec heads).2 l hl
      cases v with
      | lit b =>
        simp only [Pat.matches] at hm
        refine ⟨.lit l', by simp [splitCtors, hl'], [], .lit ?_, .nil⟩
        rw [Lit.eq_iff] at hm heq ⊢
        rw [← heq, hm]
      | _ => simp [Pat.matches] at hm
    · refine ⟨.other, by simp [splitCtors], [], .other (fun l hl => ?_), .nil⟩
      by_contra hm
      exact hlit ⟨l, hl, by simpa using hm⟩
  | @variant i args _ variants s hshape hi hargs =>
    refine ⟨.variant i, ?_, args, .variant, ?_⟩
    · rw [hshape]
      have := (List.getElem?_eq_some_iff.mp hi).1
      simpa [splitCtors] using this
    · simpa [hshape, fieldTys, hi] using hargs
  | tuple hshape hvs =>
    exact ⟨.tuple, by simp [hshape, splitCtors], _, .tuple, by simpa [hshape, fieldTys] using hvs⟩
  | @list vs _ elem hshape hvs =>
    rw [hshape]
    by_cases hlen : vs.length < listBound heads
    · exact ⟨.listFixed vs.length, by simpa [splitCtors] using hlen, vs, .listFixed,
        forall₂_replicate_iff.mpr ⟨rfl, hvs⟩⟩
    · exact ⟨.listAtLeast (listBound heads), by simp [splitCtors], _, .listAtLeast (by omega),
        forall₂_replicate_iff.mpr ⟨by simp; omega, fun v hv => hvs v (List.mem_of_mem_take hv)⟩⟩

/-- Every constructor of the column has a value with the given fields. -/
theorem exists_hasType_splits {ty : T} {heads : List Pat} {lits : List Lit} {ctor : Ctor} {fields : List Value}
    (hfresh : Fresh table prim lits) (htyped : ∀ p ∈ heads, PatTyped table prim p ty)
    (hlits : ∀ l, .lit l ∈ heads → l ∈ lits) (hc : ctor ∈ splitCtors (table.shape ty) heads)
    (hfields : List.Forall₂ (HasType table prim) fields (fieldTys (table.shape ty) ctor)) :
    ∃ v, HasType table prim v ty ∧ Splits heads ctor v fields := by
  cases hshape : table.shape ty with
  | enum variants =>
    rw [hshape] at hc hfields
    simp only [splitCtors, List.mem_map, List.mem_range] at hc
    obtain ⟨i, hi, rfl⟩ := hc
    have hget := List.getElem?_eq_getElem hi
    simp only [fieldTys, hget, Option.map_some, Option.getD_some] at hfields
    exact ⟨_, .variant hshape hget hfields, .variant⟩
  | tuple tys =>
    rw [hshape] at hc hfields
    simp only [splitCtors, List.mem_singleton] at hc
    subst hc
    exact ⟨_, .tuple hshape hfields, .tuple⟩
  | list elem =>
    rw [hshape] at hc hfields
    simp only [splitCtors, List.mem_append, List.mem_map, List.mem_range, List.mem_singleton] at hc
    rcases hc with ⟨n, hn, rfl⟩ | rfl
    · obtain ⟨rfl, hall⟩ := forall₂_replicate_iff.mp hfields
      exact ⟨_, .list hshape hall, .listFixed⟩
    · obtain ⟨hlen, hall⟩ := forall₂_replicate_iff.mp hfields
      refine ⟨_, .list hshape hall, ?_⟩
      have hs : Splits heads (.listAtLeast (listBound heads)) (.list fields) (fields.take (listBound heads)) :=
        .listAtLeast hlen.ge
      rwa [List.take_of_length_le hlen.le] at hs
  | opaqueTy =>
    rw [hshape] at hc hfields
    simp only [splitCtors, List.mem_append, List.mem_map, List.mem_singleton] at hc
    rcases hc with ⟨l, hl, rfl⟩ | rfl
    · cases hfields
      have := htyped _ ((columnLits_spec heads).1 l hl)
      cases this with
      | lit _ hv => exact ⟨_, .prim hshape hv, .lit (Lit.eq_refl l)⟩
    · cases hfields
      obtain ⟨v, hv, hne⟩ := hfresh ty hshape
      exact ⟨v, .prim hshape hv, .other (fun l hl => hne l (hlits l hl))⟩

/-! ## Specialized patterns -/

theorem length_fillSlots (n : Nat) (ps : List Pat) : (fillSlots n ps).length = n := by
  simp [fillSlots]
  omega

theorem length_specializeHead (head : Pat) (n : Nat) : (specializeHead head n).length = n := by
  cases head with
  | wild => simp [specializeHead]
  | lit l => simp [specializeHead]
  | variant v fields => simp [specializeHead, length_setFields]
  | tuple ps => simp [specializeHead, length_fillSlots]
  | list ps rest => simp [specializeHead, length_fillSlots]

theorem length_fieldTys {shape : TyShape T} {heads : List Pat} {ctor : Ctor}
    (hc : ctor ∈ splitCtors shape heads) : (fieldTys shape ctor).length = arity shape ctor := by
  cases shape with
  | enum variants =>
    simp only [splitCtors, List.mem_map, List.mem_range] at hc
    obtain ⟨i, hi, rfl⟩ := hc
    simp [fieldTys, arity, hi]
  | tuple tys =>
    simp only [splitCtors, List.mem_singleton] at hc
    simp [hc, fieldTys, arity]
  | list elem =>
    simp only [splitCtors, List.mem_append, List.mem_map, List.mem_range, List.mem_singleton] at hc
    rcases hc with ⟨n, -, rfl⟩ | rfl <;> simp [fieldTys, arity]
  | opaqueTy =>
    simp only [splitCtors, List.mem_append, List.mem_map, List.mem_singleton] at hc
    rcases hc with ⟨l, -, rfl⟩ | rfl <;> simp [fieldTys, arity]

theorem matchesElems_of_lt {ps : List Pat} {vs : List Value} (h : vs.length < ps.length) :
    matchesElems ps vs = false := by
  induction ps generalizing vs with
  | nil => simp at h
  | cons p ps ih =>
    cases vs with
    | nil => simp [matchesElems]
    | cons v vs => simp [matchesElems, ih (by simpa using h)]

/-- A pattern of the column matches a value exactly when it covers its constructor and matches its
fields. -/
theorem PatTyped.matches_splits {p : Pat} {ty : T} {heads : List Pat} {ctor : Ctor} {v : Value}
    {fields : List Value} (hp : PatTyped table prim p ty) (hmem : p ∈ heads)
    (hc : ctor ∈ splitCtors (table.shape ty) heads) (hs : Splits heads ctor v fields)
    (hlen : fields.length = arity (table.shape ty) ctor) :
    p.matches v =
      (covers p ctor && matchesElems (specializeHead p (arity (table.shape ty) ctor)) fields) := by
  rw [← hlen]
  cases hp with
  | wild => simp [Pat.matches, covers, specializeHead, matchesElems_wild]
  | @lit l _ hshape _ =>
    rw [hshape] at hc
    cases hs with
    | @lit a b heq =>
      simp [Pat.matches, covers, specializeHead, matchesElems, Lit.eq_congr heq]
    | other hne => simp [covers, hne l hmem]
    | _ => simp [splitCtors] at hc
  | @variant i fs _ variants s hshape hi hnd hlt _ =>
    rw [hshape] at hc hlen
    cases hs with
    | @variant j =>
      simp only [Pat.matches, covers, specializeHead]
      by_cases hij : i = j
      · subst hij
        have hlt' : ∀ f ∈ fs, f.1 < fields.length := fun f hf => by
          rw [hlen]
          simpa [arity, hi] using hlt f hf
        rw [matchesElems_setFields hnd hlt']
      · rw [beq_false_of_ne hij, Bool.false_and, Bool.false_and]
    | _ => simp [splitCtors] at hc
  | @tuple ps _ tys hshape hps =>
    rw [hshape] at hc hlen
    cases hs with
    | tuple =>
      have hps' : ps.length = fields.length := by rw [hlen, hps.length_eq]; rfl
      simp [Pat.matches, covers, specializeHead, hps', matchesElems_fillSlots hps'.le]
    | _ => simp [splitCtors] at hc
  | @list ps rest _ elem hshape _ =>
    rw [hshape] at hc hlen
    have hbound := le_listBound hmem
    cases hs with
    | listFixed =>
      by_cases hle : ps.length ≤ fields.length
      · cases rest <;> simp [Pat.matches, covers, specializeHead, matchesElems_fillSlots hle, hle]
      · have hne : ps.length ≠ fields.length := by omega
        cases rest <;> simp [Pat.matches, covers, matchesElems_of_lt (Nat.lt_of_not_le hle), hle, hne]
    | @listAtLeast vs n hn =>
      obtain rfl : n = listBound heads := by simpa [splitCtors] using hc
      cases rest with
      | false =>
        have hne : ps.length ≠ vs.length := by simp at hbound; omega
        simp [Pat.matches, covers, hne]
      | true =>
        simp only [if_true] at hbound
        have hle : ps.length ≤ (vs.take (listBound heads)).length := by simp; omega
        simp only [Pat.matches, covers, specializeHead, Bool.true_or, Bool.true_and, hbound, decide_true]
        rw [matchesElems_fillSlots hle, matchesElems_take hbound]
    | _ => simp [splitCtors] at hc

theorem mem_fillSlots {n : Nat} {ps : List Pat} {p : Pat} (h : p ∈ fillSlots n ps) : p = .wild ∨ p ∈ ps := by
  rcases List.mem_append.mp h with h | h
  · exact .inr (List.mem_of_mem_take h)
  · exact .inl (List.eq_of_mem_replicate h)

/-- The specialization of a typed pattern has the types of the fields. -/
theorem PatTyped.specialized {p : Pat} {ty : T} {heads : List Pat} {ctor : Ctor}
    (hp : PatTyped table prim p ty) (hc : ctor ∈ splitCtors (table.shape ty) heads)
    (hcov : covers p ctor = true) :
    List.Forall₂ (PatTyped table prim) (specializeHead p (arity (table.shape ty) ctor))
      (fieldTys (table.shape ty) ctor) := by
  have hlen := length_fieldTys hc
  have hget : ∀ (i : Nat) q t, (specializeHead p (arity (table.shape ty) ctor))[i]? = some q →
      (fieldTys (table.shape ty) ctor)[i]? = some t → PatTyped table prim q t := by
    intro i q t hq ht
    cases hp with
    | wild =>
      rw [List.eq_of_mem_replicate (List.mem_of_getElem? hq)]
      exact .wild
    | lit =>
      rw [List.eq_of_mem_replicate (List.mem_of_getElem? hq)]
      exact .wild
    | @variant j fs _ variants s hshape hj hnd hlt htyped =>
      rw [hshape] at hc ht hq
      cases ctor with
      | variant k =>
        obtain rfl : j = k := by simpa [covers] using hcov
        rcases getElem?_setFields hnd hq with rfl | hmem
        · exact .wild
        · exact htyped _ hmem t (by simpa [fieldTys, hj] using ht)
      | _ => simp [splitCtors] at hc
    | @tuple ps _ tys hshape hps =>
      rw [hshape] at hc ht hq
      obtain rfl : ctor = .tuple := by simpa [splitCtors] using hc
      have hfill : specializeHead (.tuple ps) (arity (.tuple tys) .tuple) = ps := by
        have := hps.length_eq
        simp [specializeHead, fillSlots, arity, this]
      rw [hfill] at hq
      obtain ⟨hi, rfl⟩ := List.getElem?_eq_some_iff.mp hq
      obtain ⟨hi', rfl⟩ := List.getElem?_eq_some_iff.mp ht
      exact (List.forall₂_iff_get.mp hps).2 i hi hi'
    | @list ps rest _ elem hshape htyped =>
      rw [hshape] at hc ht hq
      have helem : t = elem := by
        have ht' := List.mem_of_getElem? ht
        cases ctor with
        | listFixed n => exact List.eq_of_mem_replicate ht'
        | listAtLeast n => exact List.eq_of_mem_replicate ht'
        | _ => simp [splitCtors] at hc
      rcases mem_fillSlots (List.mem_of_getElem? hq) with rfl | hmem
      · exact .wild
      · rw [helem]
        exact htyped q hmem
  rw [List.forall₂_iff_get]
  refine ⟨by rw [length_specializeHead, hlen], fun i h₁ h₂ => ?_⟩
  exact hget i _ _ (List.getElem?_eq_getElem h₁) (List.getElem?_eq_getElem h₂)

/-! ## The literals of a specialized pattern -/

theorem lits_of_mem_elems {ps : List Pat} {p : Pat} (h : p ∈ ps) : p.lits ⊆ litsElems ps := by
  induction ps with
  | nil => cases h
  | cons q ps ih =>
    rcases List.mem_cons.mp h with rfl | h
    · simp [litsElems]
    · simp [litsElems, List.subset_append_of_subset_right _ (ih h)]

theorem lits_of_mem_fields {fields : List (Nat × Pat)} {f : Nat × Pat} (h : f ∈ fields) :
    f.2.lits ⊆ litsFields fields := by
  induction fields with
  | nil => cases h
  | cons g fields ih =>
    rcases List.mem_cons.mp h with rfl | h
    · simp [litsFields]
    · simp [litsFields, List.subset_append_of_subset_right _ (ih h)]

theorem mem_setFields {fields : List (Nat × Pat)} {out : List Pat} {p : Pat}
    (h : p ∈ fields.foldl (fun out f => out.set f.1 f.2) out) : p ∈ out ∨ ∃ f ∈ fields, f.2 = p := by
  induction fields generalizing out with
  | nil => exact .inl h
  | cons f fields ih =>
    rcases ih h with h | ⟨g, hg, rfl⟩
    · rcases List.mem_or_eq_of_mem_set h with h | rfl
      · exact .inl h
      · exact .inr ⟨f, by simp, rfl⟩
    · exact .inr ⟨g, by simp [hg], rfl⟩

theorem lits_specializeHead {head p : Pat} {n : Nat} (h : p ∈ specializeHead head n) : p.lits ⊆ head.lits := by
  have hwild : p = .wild → p.lits ⊆ head.lits := by rintro rfl; simp [Pat.lits]
  cases head with
  | wild => exact hwild (List.eq_of_mem_replicate h)
  | lit l => exact hwild (List.eq_of_mem_replicate h)
  | variant v fields =>
    rcases mem_setFields h with h | ⟨f, hf, rfl⟩
    · exact hwild (List.eq_of_mem_replicate h)
    · exact lits_of_mem_fields hf
  | tuple ps =>
    rcases mem_fillSlots h with h | h
    · exact hwild h
    · exact lits_of_mem_elems h
  | list ps rest =>
    rcases mem_fillSlots h with h | h
    · exact hwild h
    · exact lits_of_mem_elems h

end Emela.Types
