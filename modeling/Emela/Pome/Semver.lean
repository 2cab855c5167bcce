import Emela.Lib.Semver
import Emela.Pome.Lemmas.Version

/-!
# Versions compare as semantic versions

The comparison of `version.rs` is the precedence of Semantic Versioning, whatever the length of the numeric
identifiers, which it compares without reading them as numbers.
-/

namespace Emela.Pome

open Std

/-- `Display for Version`. -/
def Version.display (v : Version) : Str := v.raw

/-- What the version is as a semantic version. -/
def Version.semver (v : Version) : Semver.Version := ⟨v.major, v.minor, v.patch, v.prerelease⟩

/-! ## Identifiers -/

/-- What `Version::parse` takes for an identifier. -/
def IsId (id : Str) : Prop := isNumeric id = true ∨ isAlphanumericId id = true

theorem isNumber_iff {id : Str} (h : IsId id) : Semver.IsNumber id ↔ isNumeric id = true := by
  constructor
  · intro hn
    refine h.resolve_right fun ha => ?_
    simp only [isAlphanumericId, Bool.and_eq_true, List.any_eq_true, Bool.not_eq_true'] at ha
    obtain ⟨c, hc, hdigit⟩ := ha.2
    have := hn c hc
    rw [hdigit] at this
    cases this
  · intro hn c hc
    exact (digits_of_isNumeric hn).1 c hc

theorem head?_of_isNumeric {id : Str} (h : isNumeric id = true) (hlen : 2 ≤ id.length) : id.head? ≠ some '0' := by
  simp only [isNumeric, Bool.and_eq_true, Bool.or_eq_true, beq_iff_eq, bne_iff_ne] at h
  rcases h.2 with rfl | h
  · exact absurd hlen (by decide)
  · exact h

theorem compare_str (a b : Str) : compare a b = .lt ↔ List.Lex (· < ·) a b := by
  have hchar : ∀ c d : Char, compare c d = .lt ↔ c < d := fun c d => compare_lt_iff_lt
  apply Semver.compareLex_eq_lt_iff
  · exact fun c _ d _ => hchar c d
  · exact fun c _ d _ => LawfulEqCmp.compare_eq_iff_eq

/-- Two numbers of any length. -/
theorem numeric_lt {a b : Str} (ha : isNumeric a = true) (hb : isNumeric b = true)
    (h : (compare a.length b.length).then (compare a b) = .lt) : Semver.value a < Semver.value b := by
  have hna := (isNumber_iff (.inl ha)).mpr ha
  have hnb := (isNumber_iff (.inl hb)).mpr hb
  rcases Ordering.then_eq_lt.mp h with hlen | ⟨hlen, htext⟩
  · have hlt : a.length < b.length := Nat.compare_eq_lt.mp hlen
    have hne : 0 < a.length := List.length_pos_iff.mpr (digits_of_isNumeric ha).2.1
    exact Semver.value_lt_of_length hna hnb (head?_of_isNumeric hb (by omega)) hlt
  · exact Semver.value_lt_of_lex hna hnb (Nat.compare_eq_eq.mp hlen) ((compare_str a b).mp htext)

theorem compareId_eq_eq_iff {a b : Str} : compareId a b = .eq ↔ a = b := LawfulEqCmp.compare_eq_iff_eq

theorem compareId_eq_lt_iff {a b : Str} (ha : IsId a) (hb : IsId b) : compareId a b = .lt ↔ Semver.IdLt a b := by
  have hna := isNumber_iff ha
  have hnb := isNumber_iff hb
  have hlt : compareId a b = .lt → Semver.IdLt a b := by
    intro h
    rw [compareId] at h
    split at h
    · next ha hb => exact .numbers (hna.mpr ha) (hnb.mpr hb) (numeric_lt ha hb h)
    · next ha hb => exact .mixed (hna.mpr ha) fun h => by simp [hnb.mp h] at hb
    · cases h
    · next ha hb =>
      exact .texts (fun h => by simp [hna.mp h] at ha) (fun h => by simp [hnb.mp h] at hb) ((compare_str a b).mp h)
  refine ⟨hlt, fun h => ?_⟩
  cases h with
  | numbers ha' hb' hval =>
    have ha := hna.mp ha'
    have hb := hnb.mp hb'
    -- The other two answers would make `b` no larger than `a`.
    cases hc : (compare a.length b.length).then (compare a b) with
    | lt => simp only [compareId, ha, hb, hc]
    | eq =>
      obtain rfl : a = b := LawfulEqCmp.compare_eq_iff_eq.mp (Ordering.then_eq_eq.mp hc).2
      exact absurd hval (Nat.lt_irrefl _)
    | gt =>
      have hswap : (compare b.length a.length).then (compare b a) = .lt := by
        rw [@OrientedCmp.eq_swap _ compare _ b.length, @OrientedCmp.eq_swap _ compare _ b,
          ← Ordering.swap_then, hc]
        rfl
      exact absurd (numeric_lt hb ha hswap) (Nat.lt_asymm hval)
  | texts ha' hb' htext =>
    have ha : isNumeric a = false := by simpa using fun h => ha' (hna.mpr h)
    have hb : isNumeric b = false := by simpa using fun h => hb' (hnb.mpr h)
    simp only [compareId, ha, hb]
    exact (compare_str a b).mpr htext
  | mixed ha' hb' =>
    have ha := hna.mp ha'
    have hb : isNumeric b = false := by simpa using fun h => hb' (hnb.mpr h)
    simp only [compareId, ha, hb]

/-! ## Versions -/

/-- The identifiers of a version are numbers or have a character that is no digit. -/
theorem Version.isId {v : Version} : ∀ id ∈ v.prerelease, IsId id := by
  have hids : ∀ {pre : Option Str} {ids : List Str}, Precedence.identifiers pre = some ids → ∀ id ∈ ids, IsId id := by
    intro pre ids h id hid
    cases pre with
    | none =>
      cases h
      cases hid
    | some pre =>
      simp only [Precedence.identifiers, Option.ite_none_right_eq_some, Option.some.injEq, List.all_eq_true,
        Bool.or_eq_true] at h
      obtain ⟨hall, rfl⟩ := h
      exact hall id hid
  have h := v.parsed
  unfold Precedence.parse at h
  split at h
  · split at h
    all_goals
      obtain ⟨_, _, _, _, _, _, _, h⟩ := written_of_fields h
      exact hids h
  · cases h

theorem comparePrerelease_eq_lt_iff {a b : List Str} (ha : ∀ id ∈ a, IsId id) (hb : ∀ id ∈ b, IsId id) :
    comparePrerelease a b = .lt ↔ (a ≠ [] ∧ b = []) ∨ (a ≠ [] ∧ b ≠ [] ∧ List.Lex Semver.IdLt a b) := by
  have hlex : List.compareLex compareId a b = .lt ↔ List.Lex Semver.IdLt a b :=
    Semver.compareLex_eq_lt_iff (fun x hx y hy => compareId_eq_lt_iff (ha x hx) (hb y hy))
      fun x _ y _ => compareId_eq_eq_iff
  rw [comparePrerelease, foldr_compareId]
  cases a with
  | nil => cases b <;> simp
  | cons x a =>
    cases b with
    | nil => simp
    | cons y b => simpa using hlex

theorem Version.compare_eq_lt_iff {v w : Version} : compare v w = .lt ↔ Semver.Precedes v.semver w.semver := by
  have hpre := comparePrerelease_eq_lt_iff v.isId w.isId
  change Precedence.cmp _ _ = .lt ↔ _
  simp only [Precedence.cmp, Ordering.then_eq_lt, Ordering.then_eq_eq, Nat.compare_eq_lt, Nat.compare_eq_eq, hpre]
  constructor
  · rintro ((h | ⟨hmajor, h | ⟨hminor, h⟩⟩) | ⟨hcore, ⟨hv, hw⟩ | ⟨hv, hw, h⟩⟩)
    · exact .major h
    · exact .minor hmajor h
    · exact .patch hmajor hminor h
    · exact .release hcore hv hw
    · exact .prerelease hcore hv hw h
  · intro h
    cases h with
    | major h => exact .inl (.inl h)
    | minor hmajor h => exact .inl (.inr ⟨hmajor, .inl h⟩)
    | patch hmajor hminor h => exact .inl (.inr ⟨hmajor, .inr ⟨hminor, h⟩⟩)
    | release hcore hv hw => exact .inr ⟨hcore, .inl ⟨hv, hw⟩⟩
    | prerelease hcore hv hw h => exact .inr ⟨hcore, .inr ⟨hv, hw, h⟩⟩

theorem Version.parse_display (v : Version) : Version.parse v.display = .ok v := by
  unfold Version.parse Version.display
  split
  · next parts h =>
    have := v.parsed.symm.trans h
    obtain rfl := Option.some.inj this
    rfl
  · next h => cases v.parsed.symm.trans h

/-- The comparison is a total order, which is that of Semantic Versioning; versions compare equal only if they are the
same, and a version is what its text parses to. -/
theorem Version.compare_semver :
    (∀ v w : Version, compare w v = (compare v w).swap) ∧
    (∀ u v w : Version, compare u v ≠ .gt → compare v w ≠ .gt → compare u w ≠ .gt) ∧
    (∀ v w : Version, compare v w = .lt ↔ Semver.Precedes v.semver w.semver) ∧
    (∀ v w : Version, compare v w = .eq ↔ v = w) ∧
    (∀ v : Version, Version.parse v.display = .ok v) := by
  refine ⟨fun v w => OrientedCmp.eq_swap, fun u v w huv hvw => ?_, fun v w => Version.compare_eq_lt_iff,
    fun v w => LawfulEqCmp.compare_eq_iff_eq, Version.parse_display⟩
  rw [ne_eq, ← Ordering.isLE_iff_ne_gt] at *
  exact TransCmp.isLE_trans huv hvw

end Emela.Pome
