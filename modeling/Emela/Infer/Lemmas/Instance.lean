import Mathlib.Data.List.Nodup
import Emela.Infer.Lemmas.Free
import Emela.Infer.Table

/-!
# A type and an instance of its scheme

Unifying the instance with the type only unites each variable made for a quantified variable with that one, and binds
each made for a written parameter to it. So what was bound before stays as it was, and the unification never fails.
-/

namespace Emela.Infer

open UnificationTable LawfulTable InferCtx

/-! ## The arguments of an instance -/

variable {T : Type} [UnificationTable T]

/-- The context after the arguments were made. -/
structure Made (c₀ : InferCtx T) (k : Nat) (tys : List Ty) (c : InferCtx T) : Prop where
  tys : tys.length = k ∧ ∀ j < k, tys[j]? = some (.var (len c₀.table + j))
  size : len c.table = len c₀.table + k
  rep : ∀ v, find c.table v = find c₀.table v
  repNew : ∀ j < k, find c.table (len c₀.table + j) = len c₀.table + j
  probe : ∀ v < len c₀.table, probeValue c.table v = probeValue c₀.table v
  probeNew : ∀ j < k, probeValue c.table (len c₀.table + j) = none
  intVars : c.intVars = c₀.intVars

/-- The argument of a parameter, after the key that is made for it. -/
def InferCtx.freshRow (c : InferCtx T) : ParamKind → Row × InferCtx T
  | .type => ([], c)
  | .set => ([.var c.nextRowVar], c.newRowVar)

theorem made_freshArgs [LawfulTable T] (params : List TyParam) (c₀ : InferCtx T) :
    Made c₀ params.length (freshArgs params c₀).1.1 (freshArgs params c₀).2 := by
  induction params generalizing c₀ with
  | nil => exact ⟨⟨rfl, by simp⟩, rfl, fun _ => rfl, by simp, fun _ _ => rfl, by simp, rfl⟩
  | cons p params ih =>
    obtain ⟨row, c₁, hc₁, hrow⟩ : ∃ row c₁, c₀.freshVar.freshRow p.kind = (row, c₁) ∧
        c₁.table = newKey c₀.table ∧ c₁.intVars = c₀.intVars := by
      cases p.kind <;> exact ⟨_, _, rfl, rfl, rfl⟩
    obtain ⟨⟨hlength, htys⟩, hlen, hfind, hnew, hprobe, hprobeNew, hint⟩ := ih c₁
    have hstep : freshArgs (p :: params) c₀ =
        ((.var (len c₀.table) :: (freshArgs params c₁).1.1, row :: (freshArgs params c₁).1.2),
          (freshArgs params c₁).2) := by
      obtain ⟨name, kind, bounds, traits⟩ := p
      cases kind <;> cases hc₁ <;> rfl
    have hlen₁ : len c₁.table = len c₀.table + 1 := by rw [hrow.1, len_newKey]
    have hfind₁ : ∀ v, find c₁.table v = find c₀.table v := by
      intro v
      rw [hrow.1, find_newKey]
    rw [hstep]
    constructor
    case tys =>
      refine ⟨congrArg (· + 1) hlength, fun j hj => ?_⟩
      cases j with
      | zero => rfl
      | succ j =>
        rw [List.length_cons] at hj
        rw [List.getElem?_cons_succ, htys j (by omega), hlen₁, Nat.add_assoc, Nat.add_comm 1]
    case size =>
      rw [hlen, hlen₁, List.length_cons, Nat.add_assoc, Nat.add_comm 1]
    case rep => exact fun v => (hfind v).trans (hfind₁ v)
    case repNew =>
      intro j hj
      cases j with
      | zero =>
        rw [Nat.add_zero, hfind, hrow.1]
        exact find_new c₀.table
      | succ j =>
        rw [List.length_cons] at hj
        have hj' := hnew j (by omega)
        rwa [hlen₁, Nat.add_assoc, Nat.add_comm 1] at hj'
    case probe =>
      intro v hv
      rw [hprobe v (by omega), hrow.1]
      exact probe_newKey c₀.table v hv
    case probeNew =>
      intro j hj
      cases j with
      | zero =>
        rw [Nat.add_zero, hprobe _ (by omega), hrow.1]
        exact probe_new c₀.table
      | succ j =>
        rw [List.length_cons] at hj
        have hj' := hprobeNew j (by omega)
        rwa [hlen₁, Nat.add_assoc, Nat.add_comm 1] at hj'
    case intVars => exact hint.trans hrow.2

/-! ## During the unification -/

/-- The variable a key stands for: its representative before, or the variable it was made for. -/
def origin (t₀ : T) (map : List (TyVar × Nat)) (v : Nat) : TyVar ⊕ TyVar :=
  if v < len t₀ then .inl (find t₀ v)
  else match map.find? (·.2 == v - len t₀) with
    | some e => .inl e.1
    | none => .inr v

section
variable {t₀ : T} {map : List (TyVar × Nat)} {v j : Nat}

theorem origin_old (hv : v < len t₀) : origin t₀ map v = .inl (find t₀ v) := by rw [origin, if_pos hv]

theorem origin_inr {x : TyVar} (h : origin t₀ map v = .inr x) : x = v := by
  rw [origin] at h
  split at h
  · cases h
  · split at h
    · cases h
    · exact (Sum.inr.inj h).symm

theorem origin_made (hmap : (map.map (·.2)).Nodup) (hmem : (v, j) ∈ map) : origin t₀ map (len t₀ + j) = .inl v := by
  rw [origin, if_neg (by omega), Nat.add_sub_cancel_left]
  cases hfind : map.find? (·.2 == j) with
  | none =>
    have hno := List.find?_eq_none.mp hfind _ hmem
    simp at hno
  | some e =>
    have he := List.mem_of_find?_eq_some hfind
    have hej : e.2 = j := by simpa using List.find?_some hfind
    rw [List.inj_on_of_nodup_map hmap he hmem hej]

theorem origin_written (hmap : ∀ e ∈ map, e.2 ≠ j) : origin t₀ map (len t₀ + j) = .inr (len t₀ + j) := by
  rw [origin, if_neg (by omega), Nat.add_sub_cancel_left]
  cases hfind : map.find? (·.2 == j) with
  | none => rfl
  | some e =>
    have hej : e.2 = j := by simpa using List.find?_some hfind
    exact absurd hej (hmap e (List.mem_of_find?_eq_some hfind))

end

/-- The context during the unification: keys together stand for the same variable, what had a value has it, and the
variables made for the `e` written parameters are alone, without a value or bound to the parameter. -/
structure Follows (c₀ : InferCtx T) (map : List (TyVar × Nat)) (e k : Nat) (c : InferCtx T) : Prop where
  size : len c.table = len c₀.table + k
  le : e ≤ k
  coarse : ∀ v w : Nat, v < len c₀.table → w < len c₀.table →
    find c₀.table v = find c₀.table w → find c.table v = find c.table w
  fine : ∀ v w : Nat, v < len c.table → w < len c.table →
    find c.table v = find c.table w → origin c₀.table map v = origin c₀.table map w
  old : ∀ v : Nat, v < len c₀.table → probeValue c.table v = probeValue c₀.table v
  made : ∀ j < k, e ≤ j → probeValue c.table (len c₀.table + j) = none
  written : ∀ i < e, probeValue c.table (len c₀.table + i) = none ∨
    probeValue c.table (len c₀.table + i) = some (.bound i)
  intVars : ∀ w ∈ c.intVars, w < len c.table ∧
    ∀ i < e, origin c₀.table map w ≠ .inr (len c₀.table + i)

section
variable [LawfulTable T] {c₀ c : InferCtx T} {map : List (TyVar × Nat)} {e k : Nat}

theorem Made.follows {tys : List Ty} (h : Made c₀ k tys c) (hkeyed : c₀.Keyed) (hek : e ≤ k) : Follows c₀ map e k c := by
  constructor
  case size => exact h.size
  case le => exact hek
  case coarse =>
    intro v w _ _ heq
    rwa [h.rep, h.rep]
  case fine =>
    intro v w hv hw heq
    rw [h.size] at hv hw
    rcases Nat.lt_or_ge v (len c₀.table) with hv₀ | hv₀
    · rcases Nat.lt_or_ge w (len c₀.table) with hw₀ | hw₀
      · rw [h.rep, h.rep] at heq
        rw [origin_old hv₀, origin_old hw₀, heq]
      · obtain ⟨j, rfl⟩ := Nat.exists_eq_add_of_le hw₀
        have hlt := find_lt c₀.table v hv₀
        rw [h.repNew j (by omega), h.rep] at heq
        exact absurd heq (Nat.ne_of_lt (Nat.lt_of_lt_of_le hlt (Nat.le_add_right _ _)))
    · obtain ⟨i, rfl⟩ := Nat.exists_eq_add_of_le hv₀
      rcases Nat.lt_or_ge w (len c₀.table) with hw₀ | hw₀
      · have hlt := find_lt c₀.table w hw₀
        rw [h.repNew i (by omega), h.rep] at heq
        exact absurd heq.symm (Nat.ne_of_lt (Nat.lt_of_lt_of_le hlt (Nat.le_add_right _ _)))
      · obtain ⟨j, rfl⟩ := Nat.exists_eq_add_of_le hw₀
        rw [h.repNew i (by omega), h.repNew j (by omega)] at heq
        rw [heq]
  case old => exact h.probe
  case made => exact fun j hj _ => h.probeNew j hj
  case written => exact fun i hi => .inl (h.probeNew i (by omega))
  case intVars =>
    intro w hw
    rw [h.intVars] at hw
    have hlt := hkeyed.intVars w hw
    refine ⟨?_, fun i _ => ?_⟩
    · rw [h.size]
      exact Nat.lt_add_right k hlt
    · rw [origin_old hlt]
      exact Sum.inl_ne_inr

theorem Follows.origin_find (h : Follows c₀ map e k c) {v : Nat} (hv : v < len c.table) :
    origin c₀.table map (find c.table v) = origin c₀.table map v :=
  h.fine _ _ (find_lt c.table v hv) hv (find_find c.table v hv)

/-- Uniting two variables that stand for the same one. -/
theorem Follows.unionVars (h : Follows c₀ map e k c) {x y : Nat} (hx : x < len c.table) (hy : y < len c.table)
    (horigin : origin c₀.table map x = origin c₀.table map y) (hpx : probeValue c.table x = none)
    (hpy : probeValue c.table y = none) : Follows c₀ map e k (c.unionVars x y) := by
  have hlen : len (union c.table x y) = len c.table := len_union c.table x y
  have hprobe : ∀ v : Nat, v < len c.table → probeValue (union c.table x y) v = probeValue c.table v :=
    fun v hv => probe_union c.table x y v hx hy hv hpx hpy
  have hc := h.size
  have hfine : ∀ v w : Nat, v < len c.table → w < len c.table →
      find (union c.table x y) v = find (union c.table x y) w →
        origin c₀.table map v = origin c₀.table map w := by
    intro v w hv hw heq
    rcases (find_union_iff c.table x y v w hx hy hv hw).mp heq with heq | ⟨hvxy, hwxy⟩
    · exact h.fine v w hv hw heq
    · have hof : ∀ u : Nat, u < len c.table → find c.table u = find c.table x ∨ find c.table u = find c.table y →
          origin c₀.table map u = origin c₀.table map x := by
        intro u hu huxy
        rcases huxy with heq | heq
        · exact h.fine u x hu hx heq
        · exact (h.fine u y hu hy heq).trans horigin.symm
      rw [hof v hv hvxy, hof w hw hwxy]
  have hne : (c.isIntVar x || c.isIntVar y) = true → ∀ i < e,
      origin c₀.table map x ≠ .inr (len c₀.table + i) := by
    have hof : ∀ u : Nat, u < len c.table → c.isIntVar u = true → ∀ i < e,
        origin c₀.table map u ≠ .inr (len c₀.table + i) := by
      intro u hu hint
      obtain ⟨w, hw, hwu⟩ := List.any_eq_true.mp hint
      obtain ⟨hlt, hw'⟩ := h.intVars w hw
      rw [h.fine u w hu hlt (by simpa using hwu)]
      exact hw'
    intro hint
    rcases Bool.or_eq_true_iff.mp hint with hint | hint
    · exact hof x hx hint
    · rw [horigin]
      exact hof y hy hint
  constructor
  case size => exact hlen.trans hc
  case le => exact h.le
  case coarse => exact fun v w hv hw heq => find_union c.table x y v w (h.coarse v w hv hw heq)
  case fine =>
    change ∀ v w : Nat, v < len (union c.table x y) → w < len (union c.table x y) → _
    rw [hlen]
    exact hfine
  case old => exact fun v hv => (hprobe v (by omega)).trans (h.old v hv)
  case made => exact fun j hj he => (hprobe _ (by omega)).trans (h.made j hj he)
  case written =>
    intro i hi
    have hle := h.le
    have heq := hprobe (len c₀.table + i) (by omega)
    exact (h.written i hi).imp heq.trans heq.trans
  case intVars =>
    intro w hw
    change w < len (union c.table x y) ∧ _
    rw [hlen]
    simp only [InferCtx.unionVars] at hw
    split at hw
    · next hint =>
      rcases List.mem_append.mp hw with hw | hw
      · exact h.intVars w hw
      · obtain rfl := List.mem_singleton.mp hw
        have hx' : x < len (union c.table x y) := by rwa [hlen]
        have hlt := find_lt _ x hx'
        rw [hlen] at hlt
        refine ⟨hlt, ?_⟩
        rw [hfine _ x hlt hx (find_find _ x hx')]
        exact hne hint
    · exact h.intVars w hw

/-- Binding a variable made for a written parameter to it. -/
theorem Follows.bindVar (h : Follows c₀ map e k c) {i m : Nat} (hi : i < e) (hmap : ∀ p ∈ map, e ≤ p.2)
    (hp : probeValue c.table (len c₀.table + i) = none) :
    ∃ c', c.unifyVar (m + 1) (find c.table (len c₀.table + i)) (.bound i) (.var (find c.table (len c₀.table + i)))
        (.bound i) = some (.ok (), c') ∧ Follows c₀ map e k c' := by
  have hc := h.size
  have hle := h.le
  have hkey : len c₀.table + i < len c.table := by omega
  have horigin : origin c₀.table map (len c₀.table + i) = .inr (len c₀.table + i) :=
    origin_written fun p hpm hpi => by have := hmap p hpm; omega
  have hrep := find_find c.table _ hkey
  have hint : c.isIntVar (find c.table (len c₀.table + i)) = false := by
    refine List.any_eq_false.mpr fun w hw heq => ?_
    obtain ⟨hlt, hne⟩ := h.intVars w hw
    refine hne i hi ?_
    rw [← horigin]
    refine (h.fine _ _ hkey hlt ?_).symm
    rw [← hrep]
    simpa using heq
  have hprobe : ∀ w : Nat, w < len c.table →
      probeValue (unionValue c.table (find c.table (len c₀.table + i)) (.bound i)) w =
        if find c.table w = find c.table (len c₀.table + i) then some (.bound i) else probeValue c.table w := by
    intro w hw
    rw [probe_unionValue _ _ _ _ (find_lt _ _ hkey) hw ((probe_find _ _ hkey).trans hp), hrep]
  have hother : ∀ w : Nat, w < len c.table → origin c₀.table map w ≠ .inr (len c₀.table + i) →
      probeValue (unionValue c.table (find c.table (len c₀.table + i)) (.bound i)) w = probeValue c.table w := by
    intro w hw hne
    rw [hprobe w hw, if_neg fun heq => hne ((h.fine _ _ hw hkey heq).trans horigin)]
  refine ⟨{ c with table := unionValue c.table (find c.table (len c₀.table + i)) (.bound i) }, ?_, ?_⟩
  · rw [unifyVar, hint]
    rfl
  · constructor
    case size => exact (len_unionValue ..).trans hc
    case le => exact hle
    case coarse =>
      intro v w hv hw heq
      change find (unionValue _ _ _) v = find (unionValue _ _ _) w
      rw [find_unionValue, find_unionValue]
      exact h.coarse v w hv hw heq
    case fine =>
      intro v w hv hw heq
      change v < len (unionValue _ _ _) at hv
      change w < len (unionValue _ _ _) at hw
      change find (unionValue _ _ _) v = find (unionValue _ _ _) w at heq
      rw [len_unionValue] at hv hw
      rw [find_unionValue, find_unionValue] at heq
      exact h.fine v w hv hw heq
    case old =>
      intro v hv
      refine (hother v (by omega) ?_).trans (h.old v hv)
      rw [origin_old hv]
      exact Sum.inl_ne_inr
    case made =>
      intro j hj he
      refine (hother (len c₀.table + j) (by omega) fun heq => ?_).trans (h.made j hj he)
      have hsame : len c₀.table + i = len c₀.table + j := origin_inr heq
      omega
    case written =>
      intro j hj
      by_cases hij : j = i
      · subst hij
        exact .inr ((hprobe _ hkey).trans (if_pos rfl))
      · have hne : origin c₀.table map (len c₀.table + j) ≠ .inr (len c₀.table + i) := by
          intro heq
          have hsame : len c₀.table + i = len c₀.table + j := origin_inr heq
          omega
        have heq := hother (len c₀.table + j) (by omega) hne
        exact (h.written j hj).imp heq.trans heq.trans
    case intVars =>
      intro w hw
      change w < len (unionValue _ _ _) ∧ _
      rw [len_unionValue]
      exact h.intVars w hw

/-! ## Following bindings -/

/-- What bindings lead to is what they led to before, a variable to the one it is together with now. -/
theorem Follows.shallowResolve (h : Follows c₀ map e k c) (hkeyed : c₀.Keyed) {n : Nat} {y z : Ty}
    (hy : y.Keyed (len c₀.table)) (hz : shallowResolve c₀.table n y = some z) :
    z.Keyed (len c₀.table) ∧ ((∀ v, z ≠ .var v) → Infer.shallowResolve c.table n y = some z) ∧
      ∀ v, z = .var v → find c₀.table v = v ∧ probeValue c₀.table v = none ∧
        Infer.shallowResolve c.table n y = some (.var (find c.table v)) := by
  induction n generalizing y with
  | zero => cases hz
  | succ n ih =>
    cases y with
    | var w =>
      have hw : w < len c₀.table := hy.self w rfl
      rw [Infer.shallowResolve] at hz ⊢
      rw [h.old w hw]
      cases hprobe : probeValue c₀.table w with
      | some bound =>
        simp only [hprobe] at hz
        exact ih (hkeyed.values w hw bound hprobe) hz
      | none =>
        simp only [hprobe] at hz
        obtain rfl := Option.some.inj hz
        have hlt := find_lt c₀.table w hw
        refine ⟨.mk (by rintro v ⟨⟩; exact hlt) (by simp [Ty.children]), fun hno => absurd rfl (hno _), ?_⟩
        rintro v ⟨⟩
        have hrep := find_find c₀.table w hw
        exact ⟨hrep, (probe_find c₀.table w hw).trans hprobe,
          congrArg (some <| Ty.var ·) (h.coarse _ _ hw hlt hrep.symm)⟩
    | _ =>
      obtain rfl := Option.some.inj hz
      exact ⟨hy, fun _ => rfl, by simp⟩

/-! ## The instance -/

section
variable (tys : List Ty) (rows : List Row) (rowMap : List (RowVar × Nat)) (map)

/-- The instance of what the type is generalized to. -/
def instanceOf (ty : Ty) : Ty := substitute tys rows (replaceVars map rowMap ty)

theorem instance_each (ts : List Ty) :
    substituteEach tys rows (replaceEach map rowMap ts) = ts.map (instanceOf map tys rows rowMap) := by
  induction ts with
  | nil => rfl
  | cons t ts ih =>
    rw [replaceEach, substituteEach, ih]
    rfl

end

/-- The type parameters quantified come after the written ones, each with a variable of its own. -/
structure MapOk (e k : Nat) (map : List (TyVar × Nat)) : Prop where
  written : ∀ p ∈ map, e ≤ p.2
  lt : ∀ p ∈ map, p.2 < k
  nodup : (map.map (·.2)).Nodup

/-- A variable of the type and that of the instance. -/
theorem Follows.unify_var (h : Follows c₀ map e k c) (hmap : MapOk e k map) {tys : List Ty} {rows : List Row}
    {rowMap : List (RowVar × Nat)} (htys : ∀ j < k, tys[j]? = some (.var (len c₀.table + j))) {n m : Nat} {y : Ty}
    {v : TyVar} (hv : v < len c₀.table) (hrep : find c₀.table v = v) (hp : probeValue c₀.table v = none)
    (hy : Infer.shallowResolve c.table n y = some (.var (find c.table v))) (hm : n ≤ m + 1) (variance : Variance) :
    ∃ c', unifyInner (m + 1) (instanceOf map tys rows rowMap (.var v)) y variance c = some (.ok (), c') ∧
      Follows c₀ map e k c' := by
  have hc := h.size
  have hv' : v < len c.table := Nat.lt_of_lt_of_eq (Nat.lt_add_right k hv) hc.symm
  have hpv : probeValue c.table v = none := (h.old v hv).trans hp
  -- The variable of the instance stands for `v`.
  obtain ⟨w, hw, hwv, hpw, hinst⟩ : ∃ w : Nat, w < len c.table ∧
      origin c₀.table map w = origin c₀.table map v ∧ probeValue c.table w = none ∧
      instanceOf map tys rows rowMap (.var v) = .var w := by
    cases hlookup : map.lookup v with
    | none => exact ⟨v, hv', rfl, hpv, by simp [instanceOf, replaceVars, hlookup, substitute]⟩
    | some j =>
      have hmem : (v, j) ∈ map := by
        obtain ⟨before, after, heq, -⟩ := List.lookup_eq_some_iff.mp hlookup
        simp [heq]
      have hj := hmap.lt _ hmem
      refine ⟨len c₀.table + j, by rw [hc]; exact Nat.add_lt_add_left hj _, ?_, h.made j hj (hmap.written _ hmem), ?_⟩
      · rw [origin_made hmap.nodup hmem, origin_old hv, hrep]
      · simp [instanceOf, replaceVars, hlookup, substitute, htys j hj]
  rw [hinst]
  refine ⟨c.unionVars (find c.table w) (find c.table v), ?_, ?_⟩
  · rw [unifyInner, shallowResolve_mono hy hm, Infer.shallowResolve]
    simp only [hpw, Option.bind_eq_bind, Option.bind_some]
  · apply h.unionVars (find_lt _ _ hw) (find_lt _ _ hv')
    · rw [h.origin_find hw, h.origin_find hv', hwv]
    · exact (probe_find _ _ hw).trans hpw
    · exact (probe_find _ _ hv').trans hpv

/-- A written parameter and the variable made for it. -/
theorem Follows.unify_bound (h : Follows c₀ map e k c) (hmap : MapOk e k map) {tys : List Ty} {rows : List Row}
    {rowMap : List (RowVar × Nat)} (htys : ∀ j < k, tys[j]? = some (.var (len c₀.table + j))) {n m i : Nat} {y : Ty}
    (hi : i < e) (hy : Infer.shallowResolve c.table n y = some (.bound i)) (hm : n ≤ m + 2) (variance : Variance) :
    ∃ c', unifyInner (m + 2) (instanceOf map tys rows rowMap (.bound i)) y variance c = some (.ok (), c') ∧
      Follows c₀ map e k c' := by
  have hinst : instanceOf map tys rows rowMap (.bound i) = .var (len c₀.table + i) := by
    simp [instanceOf, replaceVars, substitute, htys i (Nat.lt_of_lt_of_le hi h.le)]
  rw [hinst, unifyInner, shallowResolve_mono hy hm, Infer.shallowResolve]
  rcases h.written i hi with hp | hp
  · obtain ⟨c', hc', hfollows⟩ := h.bindVar (m := m) hi hmap.written hp
    refine ⟨c', ?_, hfollows⟩
    simp only [hp, Option.bind_eq_bind, Option.bind_some]
    exact hc'
  · refine ⟨c, ?_, h⟩
    simp [hp, Infer.shallowResolve]

omit [LawfulTable T] in
/-- The sets of function types and of set arguments are only noted. -/
theorem Follows.bufferRows (h : Follows c₀ map e k c) (kind : SetKind) (expected actual : Row) (variance : Variance) :
    Follows c₀ map e k (c.bufferRows kind expected actual variance) := by
  unfold InferCtx.bufferRows
  split
  · exact h
  · cases variance <;>
      exact ⟨h.size, h.le, h.coarse, h.fine, h.old, h.made, h.written, h.intVars⟩

theorem mapM_forall₂ {α β : Type} {f : α → Option β} {xs : List α} {ys : List β} (h : xs.mapM f = some ys) :
    List.Forall₂ (fun x y => f x = some y) xs ys := by
  induction xs generalizing ys with
  | nil =>
    cases h
    exact .nil
  | cons x xs ih =>
    rw [List.mapM_cons] at h
    obtain ⟨y, hy, h⟩ := Option.bind_eq_some_iff.mp h
    obtain ⟨ys', hys', h⟩ := Option.bind_eq_some_iff.mp h
    obtain rfl := Option.some.inj h
    exact .cons hy (ih hys')

omit [LawfulTable T] in
/-- What holds of two types holds of two lists of them. -/
theorem Follows.unifyEach {f : Ty → Ty → InferCtx T → Option (Outcome T)} {g : Ty → Ty} {R : Ty → Ty → Prop}
    {ys rs : List Ty} (hys : List.Forall₂ R ys rs)
    (hf : ∀ y ∈ ys, ∀ r ∈ rs, R y r → ∀ c, Follows c₀ map e k c →
      ∃ c', f (g r) y c = some (.ok (), c') ∧ Follows c₀ map e k c') (h : Follows c₀ map e k c) :
    ∃ c', Infer.unifyEach f (rs.map g) ys c = some (.ok (), c') ∧ Follows c₀ map e k c' := by
  induction hys generalizing c with
  | nil => exact ⟨c, rfl, h⟩
  | @cons y r ys rs hyr _ ih =>
    obtain ⟨c₁, hc₁, h₁⟩ := hf y List.mem_cons_self r List.mem_cons_self hyr c h
    obtain ⟨c₂, hc₂, h₂⟩ := ih (fun y hy r hr => hf y (List.mem_cons_of_mem _ hy) r (List.mem_cons_of_mem _ hr)) h₁
    refine ⟨c₂, ?_, h₂⟩
    rw [List.map_cons, Infer.unifyEach, hc₁]
    exact hc₂

theorem mapM_length {α β : Type} {f : α → Option β} {xs : List α} {ys : List β} (h : xs.mapM f = some ys) :
    ys.length = xs.length := (mapM_forall₂ h).length_eq.symm

/-- The instance and the type unify. -/
theorem Follows.unify_instance (hkeyed : c₀.Keyed) (hmap : MapOk e k map) {tys : List Ty} {rows : List Row}
    {rowMap : List (RowVar × Nat)} (htys : ∀ j < k, tys[j]? = some (.var (len c₀.table + j))) {n m : Nat} {y r : Ty}
    (hy : y.Keyed (len c₀.table)) (hr : c₀.resolve n y = some r) (hscope : r.Scoped e) (hm : n + 1 ≤ m)
    (variance : Variance) (h : Follows c₀ map e k c) :
    ∃ c', unifyInner m (instanceOf map tys rows rowMap r) y variance c = some (.ok (), c') ∧
      Follows c₀ map e k c' := by
  induction n generalizing y r m variance c with
  | zero => cases hr
  | succ n ih =>
    obtain ⟨m, rfl⟩ := Nat.exists_eq_add_of_le' (Nat.le_trans (Nat.le_add_left 1 _) hm)
    have hnm : n + 1 ≤ m := Nat.le_of_succ_le_succ hm
    rw [resolve] at hr
    obtain ⟨z, hz, hr⟩ := Option.bind_eq_some_iff.mp hr
    obtain ⟨hzk, hother, hvar⟩ := h.shallowResolve hkeyed hy hz
    have hz' : (∀ v, z ≠ .var v) → Infer.shallowResolve c.table (m + 1) y = some z := fun hno =>
      shallowResolve_mono (hother hno) (Nat.le_succ_of_le hnm)
    -- The parts of a type and of its instance, one by one.
    have each : ∀ {ys rs : List Ty}, (∀ y ∈ ys, y.Keyed (len c₀.table)) → (∀ r ∈ rs, r.Scoped e) →
        ys.mapM (c₀.resolve n) = some rs → ∀ (variance : Variance) {c}, Follows c₀ map e k c →
        ∃ c', Infer.unifyEach (fun x y => unifyInner m x y variance) (rs.map (instanceOf map tys rows rowMap)) ys c =
          some (.ok (), c') ∧ Follows c₀ map e k c' := by
      intro ys rs hys hrs hmapM variance c h
      refine Follows.unifyEach (mapM_forall₂ hmapM) (fun y hymem r hrmem hyr c h => ?_) h
      exact ih (hys y hymem) hyr (hrs r hrmem) hnm variance h
    cases z with
    | var v =>
      obtain rfl := Option.some.inj hr
      obtain ⟨hrep, hp, hshallow⟩ := hvar v rfl
      exact h.unify_var hmap htys (hzk.self v rfl) hrep hp hshallow (Nat.le_succ_of_le hnm) variance
    | bound i =>
      obtain rfl := Option.some.inj hr
      obtain ⟨m, rfl⟩ := Nat.exists_eq_add_of_le' (Nat.le_trans (Nat.le_add_left 1 n) hnm)
      exact h.unify_bound hmap htys (hscope.self i rfl) (hz' (by simp)) (Nat.le_refl _) variance
    | prim p =>
      obtain rfl := Option.some.inj hr
      refine ⟨c, ?_, h⟩
      rw [unifyInner, hz' (by simp)]
      simp [instanceOf, replaceVars, substitute, Infer.shallowResolve]
    | never =>
      obtain rfl := Option.some.inj hr
      refine ⟨c, ?_, h⟩
      rw [unifyInner, hz' (by simp)]
      simp [instanceOf, replaceVars, substitute, Infer.shallowResolve]
    | error =>
      obtain rfl := Option.some.inj hr
      refine ⟨c, ?_, h⟩
      rw [unifyInner, hz' (by simp)]
      simp [instanceOf, replaceVars, substitute, Infer.shallowResolve]
    | set kind row =>
      obtain ⟨row', hrow, hr⟩ := Option.bind_eq_some_iff.mp hr
      obtain rfl := Option.some.inj hr
      refine ⟨_, ?_, h.bufferRows kind (substituteRow tys rows (replaceRow map rowMap row' []) []) row variance⟩
      rw [unifyInner, hz' (by simp)]
      simp only [instanceOf, replaceVars, substitute, Infer.shallowResolve, Option.bind_eq_bind, Option.bind_some,
        if_true]
    | list elem =>
      obtain ⟨r, hr', hr⟩ := Option.bind_eq_some_iff.mp hr
      obtain rfl := Option.some.inj hr
      obtain ⟨c', hc', hfollows⟩ := ih (hzk.child (by simp [Ty.children])) hr' (hscope.child (by simp [Ty.children])) hnm
        variance h
      refine ⟨c', ?_, hfollows⟩
      rw [unifyInner, hz' (by simp)]
      exact hc'
    | tuple elems =>
      obtain ⟨rs, hrs, hr⟩ := Option.bind_eq_some_iff.mp hr
      obtain rfl := Option.some.inj hr
      obtain ⟨c', hc', hfollows⟩ := each (fun _ => hzk.child) (fun _ => hscope.child) hrs variance h
      refine ⟨c', ?_, hfollows⟩
      rw [unifyInner, hz' (by simp)]
      simp only [instanceOf, replaceVars, substitute, instance_each, Infer.shallowResolve, Option.bind_eq_bind,
        Option.bind_some, List.length_map, mapM_length hrs, if_true]
      exact hc'
    | named con args =>
      obtain ⟨rs, hrs, hr⟩ := Option.bind_eq_some_iff.mp hr
      obtain rfl := Option.some.inj hr
      obtain ⟨c', hc', hfollows⟩ := each (fun _ => hzk.child) (fun _ => hscope.child) hrs .inv h
      refine ⟨c', ?_, hfollows⟩
      rw [unifyInner, hz' (by simp)]
      simp only [instanceOf, replaceVars, substitute, instance_each, Infer.shallowResolve, Option.bind_eq_bind,
        Option.bind_some, List.length_map, mapM_length hrs, and_self, if_true]
      exact hc'
    | cap d args =>
      obtain ⟨rs, hrs, hr⟩ := Option.bind_eq_some_iff.mp hr
      obtain rfl := Option.some.inj hr
      obtain ⟨c', hc', hfollows⟩ := each (fun _ => hzk.child) (fun _ => hscope.child) hrs .inv h
      refine ⟨c', ?_, hfollows⟩
      rw [unifyInner, hz' (by simp)]
      simp only [instanceOf, replaceVars, substitute, instance_each, Infer.shallowResolve, Option.bind_eq_bind,
        Option.bind_some, List.length_map, mapM_length hrs, and_self, if_true]
      exact hc'
    | fn ps ret fails uses =>
      obtain ⟨rs, hrs, hr⟩ := Option.bind_eq_some_iff.mp hr
      obtain ⟨ret', hret, hr⟩ := Option.bind_eq_some_iff.mp hr
      obtain ⟨fails', -, hr⟩ := Option.bind_eq_some_iff.mp hr
      obtain ⟨uses', -, hr⟩ := Option.bind_eq_some_iff.mp hr
      obtain rfl := Option.some.inj hr
      obtain ⟨c₁, hc₁, h₁⟩ := each (fun p hp => hzk.child (by simp [Ty.children, hp]))
        (fun p hp => hscope.child (by simp [Ty.children, hp])) hrs variance.flip h
      obtain ⟨c₂, hc₂, h₂⟩ := ih (hzk.child (by simp [Ty.children])) hret (hscope.child (by simp [Ty.children])) hnm
        variance h₁
      let inst (row : Row) := substituteRow tys rows (replaceRow map rowMap row []) []
      refine ⟨_, ?_, (h₂.bufferRows .errors (inst fails') fails variance).bufferRows .effects (inst uses') uses variance⟩
      rw [unifyInner, hz' (by simp)]
      simp only [instanceOf, replaceVars, substitute, instance_each, Infer.shallowResolve, Option.bind_eq_bind,
        Option.bind_some, List.length_map, mapM_length hrs, if_true]
      rw [hc₁]
      change andThen (unifyInner m (instanceOf map tys rows rowMap ret') ret variance c₁) _ = _
      rw [hc₂]
      rfl

end

end Emela.Infer
