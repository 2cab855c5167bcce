import Emela.Infer.Lemmas.Reached

/-!
# Variables of integer literals

While a unification is under way, what the table has together or gives a value is what unification makes equal. So where
it makes no variable equal to one of an integer literal, the list of those only grows by ones that were such before.
-/

namespace Emela.Infer

open UnificationTable LawfulTable InferCtx

variable {T : Type}

/-! ## What unification writes -/

/-- The second context differs in the table, the variables of integer literals and the constraints under way. -/
def Keeps (c d : InferCtx T) : Prop := d = { c with table := d.table, intVars := d.intVars, rowBuffer := d.rowBuffer }

theorem Keeps.refl (c : InferCtx T) : Keeps c c := rfl

theorem Keeps.trans {c d e : InferCtx T} (h : Keeps c d) (h' : Keeps d e) : Keeps c e := by
  rw [Keeps] at h h' ⊢
  rw [h', h]

theorem bufferRows_keeps (kind : SetKind) (e a : Row) (variance : Variance) (c : InferCtx T) :
    Keeps c (c.bufferRows kind e a variance) := by
  unfold bufferRows
  split
  · exact .refl c
  · cases variance <;> rfl

/-! ## While a unification is under way -/

variable [UnificationTable T]

/-- The context a unification of these pairs, in the first context, has come to. -/
structure Within (k : Nat) (c₀ : InferCtx T) (pairs : List (Ty × Ty)) (c : InferCtx T) : Prop where
  keeps : Keeps c₀ c
  classes : ∀ v < k, ∀ w < k, find c.table v = find c.table w → Equates c₀.table pairs (.var v) (.var w)
  values : ∀ v < k, ∀ ty, probeValue c.table v = some ty → Equates c₀.table pairs (.var v) ty
  free : ∀ v < k, probeValue c.table v = none → probeValue c₀.table v = none
  more : ∀ w ∈ c₀.intVars, w ∈ c.intVars
  literals : ∀ w ∈ c.intVars, c₀.isIntVar w = true

section
variable {k : Nat} {c₀ c : InferCtx T} {pairs : List (Ty × Ty)} {v x y : TyVar} {ty : Ty}

theorem Within.start (k : Nat) (c₀ : InferCtx T) (pairs : List (Ty × Ty)) : Within k c₀ pairs c₀ where
  keeps := .refl c₀
  classes _ _ _ _ h := .same h
  values _ _ _ h := .value h
  free _ _ h := h
  more _ h := h
  literals _ h := isIntVar_of_mem h

theorem Within.bufferRows (h : Within k c₀ pairs c) (kind : SetKind) (e a : Row) (variance : Variance) :
    Within k c₀ pairs (c.bufferRows kind e a variance) := by
  obtain ⟨hkeeps, hclasses, hvalues, hfree, hmore, hliterals⟩ := h
  obtain ⟨htable, hint⟩ := bufferRows_table kind e a variance c
  constructor
  · exact hkeeps.trans (bufferRows_keeps kind e a variance c)
  · rw [htable]
    exact hclasses
  · rw [htable]
    exact hvalues
  · rw [htable]
    exact hfree
  · rw [hint]
    exact hmore
  · rw [hint]
    exact hliterals

variable [LawfulTable T]

/-- Where one of the variables is one of an integer literal now, each variable they are equal to was one before. -/
theorem Within.isIntVar (h : Within k c₀ pairs c) (hs : Sound k c) (hlen : len c₀.table = k)
    (hapart : c₀.LiteralsApart pairs) (hx : x < k) (hpx : probeValue c.table x = none) (hint : c.isIntVar x = true)
    {r : TyVar} (hr : r < k) (hpr : probeValue c.table r = none)
    (hequal : Equates c₀.table pairs (.var x) (.var r)) : c₀.isIntVar r = true := by
  obtain ⟨w, hw, hfind⟩ := isIntVar_iff.mp hint
  have hwk := hs.intVars w hw
  have hpw : probeValue c.table w = none := by
    rw [← probe_find c.table w (hs.len_eq ▸ hwk), ← hfind, probe_find c.table x (hs.len_eq ▸ hx), hpx]
  have hwr : Equates c₀.table pairs (.var w) (.var r) := (h.classes w hwk x hx hfind.symm).through hequal
  exact hapart w r (hlen ▸ hwk) (hlen ▸ hr) (h.free w hwk hpw) (h.free r hr hpr) hwr (h.literals w hw)

theorem Within.unionVars (h : Within k c₀ pairs c) (hs : Sound k c) (hlen : len c₀.table = k)
    (hapart : c₀.LiteralsApart pairs) (hx : x < k) (hy : y < k) (hpx : probeValue c.table x = none)
    (hpy : probeValue c.table y = none) (hequal : Equates c₀.table pairs (.var x) (.var y)) :
    Within k c₀ pairs (c.unionVars x y) := by
  have hk := hs.len_eq
  have hprobe : ∀ v < k, probeValue (union c.table x y) v = probeValue c.table v :=
    fun v hv => probe_union c.table x y v (hk ▸ hx) (hk ▸ hy) (hk ▸ hv) hpx hpy
  have hclasses : ∀ v < k, ∀ w < k, find (union c.table x y) v = find (union c.table x y) w →
      Equates c₀.table pairs (.var v) (.var w) := by
    have hof : ∀ v < k, find c.table v = find c.table x ∨ find c.table v = find c.table y →
        Equates c₀.table pairs (.var v) (.var x) := by
      intro v hv hvxy
      rcases hvxy with heq | heq
      · exact h.classes v hv x hx heq
      · exact (h.classes v hv y hy heq).through hequal.symm
    intro v hv w hw heq
    rcases (find_union_iff c.table x y v w (hk ▸ hx) (hk ▸ hy) (hk ▸ hv) (hk ▸ hw)).mp heq with heq | ⟨hvxy, hwxy⟩
    · exact h.classes v hv w hw heq
    · exact (hof v hv hvxy).through (hof w hw hwxy).symm
  constructor
  case keeps => exact h.keeps.trans rfl
  case classes => exact hclasses
  case values => exact fun v hv ty hty => h.values v hv ty ((hprobe v hv).symm.trans hty)
  case free => exact fun v hv hpv => h.free v hv ((hprobe v hv).symm.trans hpv)
  case more =>
    intro w hw
    simp only [InferCtx.unionVars]
    split
    · exact List.mem_append_left _ (h.more w hw)
    · exact h.more w hw
  case literals =>
    intro w hw
    simp only [InferCtx.unionVars] at hw
    split at hw
    · next hint =>
      rcases List.mem_append.mp hw with hw | hw
      · exact h.literals w hw
      · obtain rfl := List.mem_singleton.mp hw
        have hlen' : len (union c.table x y) = k := (len_union c.table x y).trans hk
        have hroot : find (union c.table x y) x < k := hlen' ▸ find_lt _ x (hlen'.symm ▸ hx)
        have hfind : find (union c.table x y) (find (union c.table x y) x) = find (union c.table x y) x :=
          find_find _ x (hlen'.symm ▸ hx)
        have hpr : probeValue c.table (find (union c.table x y) x) = none := by
          rw [← hprobe _ hroot, probe_find _ x (hlen'.symm ▸ hx), hprobe x hx, hpx]
        have hrx := hclasses x hx _ hroot hfind.symm
        rcases Bool.or_eq_true_iff.mp hint with hint | hint
        · exact h.isIntVar hs hlen hapart hx hpx hint hroot hpr hrx
        · exact h.isIntVar hs hlen hapart hy hpy hint hroot hpr (hequal.symm.through hrx)
    · exact h.literals w hw

theorem Within.bindVar (h : Within k c₀ pairs c) (hs : Sound k c) (hv : v < k) (hpv : probeValue c.table v = none)
    (hequal : Equates c₀.table pairs (.var v) ty) : Within k c₀ pairs { c with table := unionValue c.table v ty } := by
  have hk := hs.len_eq
  have hprobe : ∀ w < k, probeValue (unionValue c.table v ty) w =
      if find c.table w = find c.table v then some ty else probeValue c.table w :=
    fun w hw => probe_unionValue c.table v w ty (hk ▸ hv) (hk ▸ hw) hpv
  constructor
  case keeps => exact h.keeps.trans rfl
  case classes =>
    intro w hw w' hw' heq
    change find (unionValue c.table v ty) w = find (unionValue c.table v ty) w' at heq
    rw [find_unionValue, find_unionValue] at heq
    exact h.classes w hw w' hw' heq
  case values =>
    intro w hw s hs
    change probeValue (unionValue c.table v ty) w = some s at hs
    rw [hprobe w hw] at hs
    split at hs
    · next heq =>
      cases hs
      exact (h.classes w hw v hv heq).through hequal
    · exact h.values w hw s hs
  case free =>
    intro w hw hpw
    change probeValue (unionValue c.table v ty) w = none at hpw
    rw [hprobe w hw] at hpw
    split at hpw
    · cases hpw
    · exact h.free w hw hpw
  case more => exact h.more
  case literals => exact h.literals

/-- Unifying related types stays within what the pairs make equal. -/
theorem preserved_within (hkeyed : Sound k c₀) (hapart : c₀.LiteralsApart pairs) :
    Preserved k (fun x y => Equates c₀.table pairs x y ∧ x.Keyed k ∧ y.Keyed k) (Within k c₀ pairs) where
  keyed h := h.2
  symm h := ⟨h.1.symm, h.2.2, h.2.1⟩
  parts h hpq := ⟨h.1.parts hpq, h.2.1.child (Ty.mem_parts hpq).1, h.2.2.child (Ty.mem_parts hpq).2⟩
  value hs hI h hty := by
    have hv := h.2.1.self _ rfl
    exact ⟨(hI.values _ hv _ hty).symm.through h.1, preserved_keyed.value hs trivial h.2 hty⟩
  find hs hI h := by
    have hv := h.2.1.self _ rfl
    have hkeys := preserved_keyed.find hs trivial h.2
    have hfind := find_find _ _ (hs.len_eq.symm ▸ hv)
    exact ⟨(hI.classes _ (hkeys.1.self _ rfl) _ hv hfind).through h.1, hkeys⟩
  union hs hI h hpx hpy := hI.unionVars hs hkeyed.len_eq hapart (h.2.1.self _ rfl) (h.2.2.self _ rfl) hpx hpy h.1
  bind hs hI h hpv := hI.bindVar hs (h.2.1.self _ rfl) hpv h.1
  buffer kind e a variance hI := hI.bufferRows kind e a variance

end

/-! ## Failures -/

/-- What is left of a failed step is the context before. -/
theorem Within.restored {k : Nat} {c e : InferCtx T} {pairs : List (Ty × Ty)} (h : Within k c pairs e)
    (hc : c.rowBuffer = []) : Restored c { e with rowBuffer := [], table := c.table } := by
  apply Same.restored
  constructor
  · have hkeeps := h.keeps
    rw [Keeps] at hkeeps
    rw [hkeeps]
    simp only [hc]
  · intro v
    rw [Bool.eq_iff_iff, isIntVar_iff, isIntVar_iff]
    constructor
    · rintro ⟨w, hw, hfind⟩
      obtain ⟨w', hw', hfind'⟩ := isIntVar_iff.mp (h.literals w hw)
      exact ⟨w', hw', hfind.trans hfind'⟩
    · rintro ⟨w, hw, hfind⟩
      exact ⟨w, h.more w hw, hfind⟩

end Emela.Infer
