import Mathlib

/-!
# Precedence of semantic versions

Semantic Versioning 2.0.0, section 11. A version is three numbers and the identifiers of its pre-release, of
which a release has none.
-/

namespace Semver

/-! ## Identifiers -/

/-- An identifier of digits only. -/
def IsNumber (id : List Char) : Prop := ∀ c ∈ id, c.isDigit

/-- What digits stand for. -/
def value (id : List Char) : Nat := id.foldl (fun n c => 10 * n + (c.toNat - '0'.toNat)) 0

/-- Numbers compare as numbers and other identifiers as text, and numbers come first. -/
inductive IdLt : List Char → List Char → Prop where
  | numbers {a b} : IsNumber a → IsNumber b → value a < value b → IdLt a b
  | texts {a b} : ¬IsNumber a → ¬IsNumber b → List.Lex (· < ·) a b → IdLt a b
  | mixed {a b} : IsNumber a → ¬IsNumber b → IdLt a b

/-! ## Versions -/

structure Version where
  major : Nat
  minor : Nat
  patch : Nat
  prerelease : List (List Char)

def Version.SameCore (v w : Version) : Prop := v.major = w.major ∧ v.minor = w.minor ∧ v.patch = w.patch

/-- `v` has lower precedence. Pre-releases of one release compare at the first identifier that differs, and the one
with fewer identifiers comes first if there is none. -/
inductive Precedes (v w : Version) : Prop where
  | major : v.major < w.major → Precedes v w
  | minor : v.major = w.major → v.minor < w.minor → Precedes v w
  | patch : v.major = w.major → v.minor = w.minor → v.patch < w.patch → Precedes v w
  | release : v.SameCore w → v.prerelease ≠ [] → w.prerelease = [] → Precedes v w
  | prerelease : v.SameCore w → v.prerelease ≠ [] → w.prerelease ≠ [] → List.Lex IdLt v.prerelease w.prerelease →
      Precedes v w

/-! ## Numbers -/

theorem foldl_value (id : List Char) (n : Nat) :
    id.foldl (fun n c => 10 * n + (c.toNat - '0'.toNat)) n = 10 ^ id.length * n + value id := by
  induction id generalizing n with
  | nil => simp [value]
  | cons c id ih =>
    have hc := ih (c.toNat - '0'.toNat)
    rw [value, List.foldl_cons, List.foldl_cons, ih, Nat.mul_zero, Nat.zero_add, hc, List.length_cons, pow_succ]
    ring

theorem value_cons (c : Char) (id : List Char) : value (c :: id) = (c.toNat - '0'.toNat) * 10 ^ id.length + value id := by
  rw [value, List.foldl_cons, Nat.mul_zero, Nat.zero_add, foldl_value, Nat.mul_comm]

theorem digit_bounds {c : Char} (h : c.isDigit) : '0'.toNat ≤ c.toNat ∧ c.toNat ≤ '0'.toNat + 9 := by
  simp only [Char.isDigit, Bool.and_eq_true, decide_eq_true_eq] at h
  exact ⟨h.1, h.2⟩

theorem value_lt {id : List Char} (h : IsNumber id) : value id < 10 ^ id.length := by
  induction id with
  | nil => decide
  | cons c id ih =>
    have hc := digit_bounds (h c List.mem_cons_self)
    have hid := ih fun d hd => h d (List.mem_cons_of_mem c hd)
    have : (c.toNat - '0'.toNat) * 10 ^ id.length ≤ 9 * 10 ^ id.length := Nat.mul_le_mul_right _ (by omega)
    rw [value_cons, List.length_cons, pow_succ]
    omega

/-- Without a leading zero, a longer number is a larger one. -/
theorem value_lt_of_length {a b : List Char} (ha : IsNumber a) (hb : IsNumber b) (hzero : b.head? ≠ some '0')
    (h : a.length < b.length) : value a < value b := by
  cases b with
  | nil => cases h
  | cons c b =>
    have hc := digit_bounds (hb c List.mem_cons_self)
    have hne : c.toNat ≠ '0'.toNat := fun h => hzero (congrArg some (Char.toNat_inj.mp h))
    have hpow : 10 ^ a.length ≤ 10 ^ b.length := Nat.pow_le_pow_right (by decide) (Nat.lt_succ_iff.mp h)
    have : 1 * 10 ^ b.length ≤ (c.toNat - '0'.toNat) * 10 ^ b.length := Nat.mul_le_mul_right _ (by omega)
    rw [value_cons]
    have := value_lt ha
    omega

/-- Numbers of one length compare as text. -/
theorem value_lt_of_lex {a b : List Char} (ha : IsNumber a) (hb : IsNumber b) (hlen : a.length = b.length)
    (h : List.Lex (· < ·) a b) : value a < value b := by
  induction h with
  | nil => cases hlen
  | @rel c a d b hcd =>
    have hd := digit_bounds (hb d List.mem_cons_self)
    have hc := digit_bounds (ha c List.mem_cons_self)
    have hcd : c.toNat < d.toNat := hcd
    have hlow := value_lt fun e he => ha e (List.mem_cons_of_mem c he)
    have hlen : a.length = b.length := Nat.succ.inj hlen
    have : (c.toNat - '0'.toNat + 1) * 10 ^ a.length ≤ (d.toNat - '0'.toNat) * 10 ^ a.length :=
      Nat.mul_le_mul_right _ (by omega)
    rw [value_cons, value_cons, ← hlen]
    rw [Nat.add_mul, Nat.one_mul] at this
    omega
  | @cons c a b _ ih =>
    have hlen : a.length = b.length := Nat.succ.inj hlen
    have := ih (fun d hd => ha d (List.mem_cons_of_mem c hd)) (fun d hd => hb d (List.mem_cons_of_mem c hd)) hlen
    rw [value_cons, value_cons, hlen]
    omega

/-! ## Comparisons of lists -/

/-- A comparison of lists element by element decides their lexicographic order. -/
theorem compareLex_eq_lt_iff {α : Type*} {cmp : α → α → Ordering} {r : α → α → Prop} {xs ys : List α}
    (hlt : ∀ x ∈ xs, ∀ y ∈ ys, cmp x y = .lt ↔ r x y) (heq : ∀ x ∈ xs, ∀ y ∈ ys, cmp x y = .eq ↔ x = y) :
    List.compareLex cmp xs ys = .lt ↔ List.Lex r xs ys := by
  induction xs generalizing ys with
  | nil =>
    cases ys with
    | nil => simp [List.compareLex_nil_nil]
    | cons y ys => simp [List.compareLex_nil_cons]
  | cons x xs ih =>
    cases ys with
    | nil => simp [List.compareLex_cons_nil]
    | cons y ys =>
      have hxy := hlt x List.mem_cons_self y List.mem_cons_self
      have hxy' := heq x List.mem_cons_self y List.mem_cons_self
      have ih := @ih ys (fun a ha b hb => hlt a (List.mem_cons_of_mem x ha) b (List.mem_cons_of_mem y hb))
        (fun a ha b hb => heq a (List.mem_cons_of_mem x ha) b (List.mem_cons_of_mem y hb))
      rw [List.compareLex_cons_cons, Ordering.then_eq_lt, hxy, hxy', ih]
      constructor
      · rintro (h | ⟨rfl, h⟩)
        · exact .rel h
        · exact .cons h
      · intro h
        cases h with
        | rel h => exact .inl h
        | cons h => exact .inr ⟨rfl, h⟩

end Semver
