import Mathlib
import Emela.Pome.SourcePath

/-!
# Semver precedence is a total order of the tags

Numbers have no leading zero, so what a tag says determines the tag: two versions that compare equal are
the same version.
-/

namespace Emela.Pome

open Std

/-! ## Numbers -/

theorem foldl_digits (s : Str) (n : Nat) :
    s.foldl (fun n c => 10 * n + digit c) n = Nat.ofDigits 10 (s.map digit).reverse + 10 ^ s.length * n := by
  induction s generalizing n with
  | nil => simp
  | cons c s ih =>
    simp only [List.foldl_cons, ih, List.map_cons, List.reverse_cons, Nat.ofDigits_append, List.length_reverse,
      List.length_map, Nat.ofDigits_singleton, List.length_cons, pow_succ]
    ring

theorem digit_lt {c : Char} (h : c.isDigit) : digit c < 10 := by
  simp only [Char.isDigit, Bool.and_eq_true, decide_eq_true_eq] at h
  have h9 : c.toNat ≤ '9'.toNat := h.2
  simp only [digit]
  have : '9'.toNat = 57 := rfl
  have : '0'.toNat = 48 := rfl
  omega

theorem digit_injective {c d : Char} (hc : c.isDigit) (hd : d.isDigit) (h : digit c = digit d) : c = d := by
  simp only [Char.isDigit, Bool.and_eq_true, decide_eq_true_eq] at hc hd
  have hc0 : '0'.toNat ≤ c.toNat := hc.1
  have hd0 : '0'.toNat ≤ d.toNat := hd.1
  simp only [digit] at h
  apply Char.ext
  apply UInt32.toNat_inj.mp
  show c.toNat = d.toNat
  omega

theorem map_digit_injective {s t : Str} (hs : ∀ c ∈ s, c.isDigit) (ht : ∀ c ∈ t, c.isDigit)
    (h : s.map digit = t.map digit) : s = t := by
  induction s generalizing t with
  | nil => simpa using h.symm
  | cons c s ih =>
    cases t with
    | nil => simp at h
    | cons d t =>
      obtain ⟨hc, hs⟩ := List.forall_mem_cons.mp hs
      obtain ⟨hd, ht⟩ := List.forall_mem_cons.mp ht
      simp only [List.map_cons, List.cons.injEq] at h
      rw [digit_injective hc hd h.1, ih hs ht h.2]

/-- The digits of the value of a numeral are its characters, but of `0` there are none. -/
theorem digits_of_isNumeric {s : Str} (h : isNumeric s) :
    (∀ c ∈ s, c.isDigit) ∧ s ≠ [] ∧
      Nat.digits 10 (s.foldl (fun n c => 10 * n + digit c) 0) = if s = ['0'] then [] else (s.map digit).reverse := by
  simp only [isNumeric, Bool.and_eq_true, Bool.or_eq_true, Bool.not_eq_true', List.isEmpty_eq_false_iff,
    List.all_eq_true, beq_iff_eq, bne_iff_ne] at h
  obtain ⟨⟨hne, hall⟩, hlead⟩ := h
  refine ⟨hall, hne, ?_⟩
  rw [foldl_digits, Nat.mul_zero, Nat.add_zero]
  split
  · next h0 =>
    subst h0
    simp [digit]
  · next h0 =>
    apply Nat.digits_ofDigits 10 (by decide)
    · intro d hd
      obtain ⟨c, hc, rfl⟩ := List.mem_map.mp (List.mem_reverse.mp hd)
      exact digit_lt (hall c hc)
    · intro hnil
      cases s with
      | nil => exact absurd rfl hne
      | cons c s =>
        have hc : c ≠ '0' := by
          rintro rfl
          exact hlead.elim (fun h => h0 h) fun h => h rfl
        simp only [List.map_cons, List.reverse_cons, ne_eq, List.getLast_append_singleton]
        intro hz
        exact hc (digit_injective (hall c (by simp)) rfl (hz.trans rfl))

theorem num_injective {s t : Str} {n : Nat} (hs : Precedence.num s = some n) (ht : Precedence.num t = some n) :
    s = t := by
  simp only [Precedence.num, parseU64, Option.ite_none_right_eq_some, Option.some.injEq] at hs ht
  obtain ⟨hsn, -, hs⟩ := hs
  obtain ⟨htn, -, ht⟩ := ht
  obtain ⟨hsd, hs0, hsv⟩ := digits_of_isNumeric hsn
  obtain ⟨htd, ht0, htv⟩ := digits_of_isNumeric htn
  rw [hs] at hsv
  rw [ht] at htv
  have hdig := hsv.symm.trans htv
  split at hdig <;> split at hdig
  · next hs ht => rw [hs, ht]
  · simp [ht0] at hdig
  · simp [hs0] at hdig
  · exact map_digit_injective hsd htd (List.reverse_inj.mp hdig)

/-! ## Tags -/

theorem splitOnce_some {sep : Char} {s before after : Str} (h : splitOnce sep s = some (before, after)) :
    s = before ++ sep :: after := by
  have hspan := List.takeWhile_append_dropWhile (p := (· != sep)) (l := s)
  simp only [splitOnce, List.span_eq_takeWhile_dropWhile] at h
  cases hd : s.dropWhile (· != sep) with
  | nil => simp [hd] at h
  | cons c rest =>
    have hc := List.head?_dropWhile_not (· != sep) s
    rw [hd] at h hspan hc
    simp only [Option.some.injEq, Prod.mk.injEq] at h
    obtain ⟨rfl, rfl⟩ := h
    obtain rfl : c = sep := by simpa using hc
    exact hspan.symm

/-- The prerelease as written. -/
def writtenPrerelease : List Str → Str
  | [] => []
  | id :: ids => '-' :: ['.'].intercalate (id :: ids)

theorem written_of_identifiers {pre : Option Str} {ids : List Str} (h : Precedence.identifiers pre = some ids) :
    writtenPrerelease ids = pre.elim [] ('-' :: ·) := by
  cases pre with
  | none =>
    cases h
    rfl
  | some pre =>
    simp only [Precedence.identifiers, Option.ite_none_right_eq_some, Option.some.injEq] at h
    obtain ⟨-, rfl⟩ := h
    have hjoin : ['.'].intercalate (pre.splitOn '.') = pre := List.intercalate_splitOn '.'
    cases hids : pre.splitOn '.' with
    | nil => exact absurd hids (List.splitOn_ne_nil _ _)
    | cons id ids =>
      rw [hids] at hjoin
      simp only [writtenPrerelease, hjoin, Option.elim_some]

theorem written_of_fields {core : Str} {pre : Option Str} {p : Precedence}
    (h : Precedence.fields core pre = some p) :
    ∃ major minor patch, Precedence.num major = some p.major ∧ Precedence.num minor = some p.minor ∧
      Precedence.num patch = some p.patch ∧ core = ['.'].intercalate [major, minor, patch] ∧
      Precedence.identifiers pre = some p.prerelease := by
  unfold Precedence.fields at h
  split at h
  · next major minor patch hcore =>
    have hjoin : ['.'].intercalate (core.splitOn '.') = core := List.intercalate_splitOn '.'
    rw [hcore] at hjoin
    simp only [Option.bind_eq_bind, Option.bind_eq_some_iff, Option.pure_def, Option.some.injEq] at h
    obtain ⟨ids, hids, mj, hmj, mn, hmn, pt, hpt, rfl⟩ := h
    exact ⟨major, minor, patch, hmj, hmn, hpt, hjoin.symm, hids⟩
  · cases h

theorem written_of_parse {input : Str} {p : Precedence} (h : Precedence.parse input = some p) :
    ∃ major minor patch, Precedence.num major = some p.major ∧ Precedence.num minor = some p.minor ∧
      Precedence.num patch = some p.patch ∧
      input = 'v' :: (['.'].intercalate [major, minor, patch] ++ writtenPrerelease p.prerelease) := by
  unfold Precedence.parse at h
  split at h
  · split at h
    · next rest core pre hsplit =>
      obtain ⟨major, minor, patch, hmj, hmn, hpt, hcore, hids⟩ := written_of_fields h
      refine ⟨major, minor, patch, hmj, hmn, hpt, ?_⟩
      rw [splitOnce_some hsplit, hcore, written_of_identifiers hids, Option.elim_some]
    · next rest hsplit =>
      obtain ⟨major, minor, patch, hmj, hmn, hpt, hcore, hids⟩ := written_of_fields h
      refine ⟨major, minor, patch, hmj, hmn, hpt, ?_⟩
      rw [hcore, written_of_identifiers hids, Option.elim_none, List.append_nil]
  · cases h

theorem Precedence.parse_injective {a b : Str} {p : Precedence} (ha : Precedence.parse a = some p)
    (hb : Precedence.parse b = some p) : a = b := by
  obtain ⟨x, y, z, hx, hy, hz, rfl⟩ := written_of_parse ha
  obtain ⟨x', y', z', hx', hy', hz', rfl⟩ := written_of_parse hb
  rw [num_injective hx hx', num_injective hy hy', num_injective hz hz']

theorem Version.ext_precedence {v w : Version} (h : v.toPrecedence = w.toPrecedence) : v = w := by
  obtain ⟨p, a, ha⟩ := v
  obtain ⟨q, b, hb⟩ := w
  obtain rfl : p = q := h
  obtain rfl := Precedence.parse_injective ha hb
  rfl

theorem Version.raw_injective {v w : Version} (h : v.raw = w.raw) : v = w :=
  ext_precedence (Option.some.inj (v.parsed.symm.trans ((congrArg Precedence.parse h).trans w.parsed)))

/-! ## Order -/

/-- Numbers before the others, shorter numbers before longer ones, and then as text. -/
theorem compareId_eq : compareId =
    compareLex (compareOn (!isNumeric ·)) (compareLex (compareOn fun s => if isNumeric s then s.length else 0) compare) := by
  funext x y
  simp only [compareId, compareLex, compareOn]
  cases isNumeric x <;> cases isNumeric y <;> simp <;> rfl

instance : TransCmp compareId := by
  rw [compareId_eq]
  infer_instance

instance : LawfulEqCmp compareId where
  eq_of_compare h := by
    rw [compareId_eq] at h
    simp only [compareLex_eq_eq, LawfulEqOrd.compare_eq_iff_eq] at h
    exact h.2.2

theorem foldr_compareId (a b : List Str) :
    (a.zip b).foldr (fun p rest => (compareId p.1 p.2).then rest) (compare a.length b.length) =
      List.compareLex compareId a b := by
  induction a generalizing b with
  | nil => cases b <;> rfl
  | cons x a ih =>
    cases b with
    | nil => rfl
    | cons y b =>
      rw [List.compareLex_cons_cons, ← ih b]
      simp only [List.zip_cons_cons, List.foldr_cons, List.length_cons, Nat.compare_eq_ite_lt]
      simp

/-- A release is after its prereleases. -/
theorem comparePrerelease_eq :
    comparePrerelease = compareLex (compareOn List.isEmpty) (List.compareLex compareId) := by
  funext a b
  rw [comparePrerelease, foldr_compareId]
  cases a <;> cases b <;> simp [compareLex, compareOn, List.compareLex_nil_nil] <;> rfl

instance : TransCmp comparePrerelease := by
  rw [comparePrerelease_eq]
  infer_instance

instance : LawfulEqCmp comparePrerelease where
  eq_of_compare h := by
    rw [comparePrerelease_eq] at h
    simp only [compareLex_eq_eq] at h
    exact LawfulEqCmp.eq_of_compare h.2

theorem Precedence.cmp_eq : Precedence.cmp =
    compareLex (compareLex (compareOn major) (compareLex (compareOn minor) (compareOn patch)))
      (fun v w => comparePrerelease v.prerelease w.prerelease) := rfl

instance : TransCmp Precedence.cmp := by
  have : TransCmp fun v w : Precedence => comparePrerelease v.prerelease w.prerelease :=
    { eq_swap := (inferInstance : TransCmp comparePrerelease).eq_swap
      isLE_trans := (inferInstance : TransCmp comparePrerelease).isLE_trans }
  rw [Precedence.cmp_eq]
  infer_instance

theorem Precedence.eq_of_cmp {v w : Precedence} (h : v.cmp w = .eq) : v = w := by
  simp only [Precedence.cmp, Ordering.then_eq_eq,
    LawfulEqCmp.compare_eq_iff_eq] at h
  obtain ⟨⟨hmajor, hminor, hpatch⟩, hpre⟩ := h
  cases v
  cases w
  simp_all

instance : TransOrd Version where
  eq_swap := (inferInstance : TransCmp Precedence.cmp).eq_swap
  isLE_trans := (inferInstance : TransCmp Precedence.cmp).isLE_trans

instance : LawfulEqOrd Version where
  compare_self := (inferInstance : ReflCmp Precedence.cmp).compare_self
  eq_of_compare h := Version.ext_precedence (Precedence.eq_of_cmp h)

instance : TransOrd SourcePath where
  eq_swap := (inferInstance : TransOrd Str).eq_swap
  isLE_trans := (inferInstance : TransOrd Str).isLE_trans

instance : LawfulEqOrd SourcePath where
  compare_self := (inferInstance : ReflOrd Str).compare_self
  eq_of_compare {a b} h := by
    cases a
    cases b
    exact congrArg SourcePath.mk (LawfulEqOrd.eq_of_compare h)

end Emela.Pome
