import Mathlib

/-!
# Floating-point numbers

The comparison of 64-bit floating-point numbers, on their bits.
-/

namespace Emela

/-- The 64 bits of an `f64`. -/
abbrev F64 := BitVec 64

def F64.isNan (x : F64) : Bool := x.extractLsb' 52 11 == BitVec.allOnes 11 && x.extractLsb' 0 52 != 0#52

def F64.isZero (x : F64) : Bool := x.extractLsb' 0 63 == 0#63

/-- The comparison of `f64`: by value, and a NaN is equal to nothing. -/
def F64.eq (x y : F64) : Bool := !x.isNan && !y.isNan && (x == y || (x.isZero && y.isZero))

theorem F64.eq_iff {x y : F64} :
    x.eq y = true ↔ x.isNan = false ∧ y.isNan = false ∧ (x = y ∨ x.isZero = true ∧ y.isZero = true) := by
  simp [F64.eq, and_assoc]

theorem F64.eq_symm {x y : F64} (h : x.eq y = true) : y.eq x = true := by
  obtain ⟨hx, hy, h⟩ := F64.eq_iff.mp h
  exact F64.eq_iff.mpr ⟨hy, hx, h.imp Eq.symm And.symm⟩

theorem F64.eq_trans {x y z : F64} (hxy : x.eq y = true) (hyz : y.eq z = true) : x.eq z = true := by
  obtain ⟨hx, -, hxy⟩ := F64.eq_iff.mp hxy
  obtain ⟨-, hz, hyz⟩ := F64.eq_iff.mp hyz
  refine F64.eq_iff.mpr ⟨hx, hz, ?_⟩
  rcases hxy with rfl | hxy
  · exact hyz
  · rcases hyz with rfl | hyz
    · exact .inr hxy
    · exact .inr ⟨hxy.1, hyz.2⟩

/-- One representative of the floats that are equal, or both NaN. -/
def F64.canon (x : F64) : F64 :=
  if x.isNan then 0x7ff8000000000000#64 else if x.isZero then 0#64 else x

theorem F64.eq_or_nan_iff (x y : F64) :
    (x.eq y || (x.isNan && y.isNan)) = true ↔ x.canon = y.canon := by
  have hnan : F64.isNan 0x7ff8000000000000#64 = true := by decide
  have hzero : F64.isNan 0#64 = false ∧ F64.isZero 0#64 = true := by decide
  have hne : ∀ {a b : F64}, a.isNan ≠ b.isNan → a ≠ b := by rintro a b h rfl; exact h rfl
  have hne' : ∀ {a b : F64}, a.isZero ≠ b.isZero → a ≠ b := by rintro a b h rfl; exact h rfl
  unfold F64.eq F64.canon
  cases hx : x.isNan <;> cases hy : y.isNan <;> cases zx : x.isZero <;> cases zy : y.isZero <;> simp
  case false.false.false.true => exact iff_of_false (hne' (by simp [zx, zy])) (hne' (by simp [zx, hzero]))
  case false.false.true.false => exact iff_of_false (hne' (by simp [zx, zy])) (hne' (by simp [zy, hzero]))
  all_goals exact hne (by simp [hx, hy, hnan])

end Emela
