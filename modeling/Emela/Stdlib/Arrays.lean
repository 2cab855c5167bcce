import Mathlib
import Emela.Stdlib.Sort

/-!
# Bisection of a sorted array

`lower_bound` and `binary_search` of `array.emel`. The middle of a range is half of the sum of its ends, and `Int`
has 32 bits: what the search visits of an array of more than 2^30 elements decides whether the sum wraps around.
-/

namespace Emela.Stdlib.Arrays

open Std

variable {A : Type} [Ord A] {a : Array A} {value : A} {k l h n j : Nat}

/-! ## The code -/

/-- `Array.size`. -/
def size (a : Array A) : Int32 := Int32.ofNat a.size

/-- `Array.get`. -/
def get (a : Array A) (index : Int32) : Option A := if index < 0 then none else a[index.toNatClampNeg]?

def bisect (a : Array A) (value : A) : Nat → Int32 → Int32 → Option Int32
  | 0, _, _ => none
  | fuel + 1, low, high =>
      if low < high then
        let mid := (low + high) / 2
        match get a mid with
        | some x => if compare x value = .lt then bisect a value fuel (mid + 1) high else bisect a value fuel low mid
        | none => bisect a value fuel low mid
      else some low

/-- `Array.lower_bound`. -/
def lowerBound (a : Array A) (value : A) (fuel : Nat) : Option Int32 := bisect a value fuel 0 (size a)

/-- `Array.binary_search`. -/
def binarySearch [BEq A] (a : Array A) (value : A) (fuel : Nat) : Option (Option Int32) := do
  let i ← lowerBound a value fuel
  match get a i with
  | some x => return if x == value then some i else none
  | none => return none

/-- The arguments of the call that `bisect` ends with. -/
def bisectNext (a : Array A) (value : A) (low high : Int32) : Option (Int32 × Int32) :=
  if low < high then
    let mid := (low + high) / 2
    if (get a mid).any fun x => compare x value == .lt then some (mid + 1, high) else some (low, mid)
  else none

theorem bisect_succ (a : Array A) (value : A) (fuel : Nat) (low high : Int32) :
    bisect a value (fuel + 1) low high = match bisectNext a value low high with
      | some (low, high) => bisect a value fuel low high
      | none => some low := by
  rw [bisect, bisectNext]
  split
  · dsimp only
    cases get a ((low + high) / 2) with
    | none => rfl
    | some x => by_cases hx : compare x value = .lt <;> simp [hx]
  · rfl

/-- The calls of `bisect` that a search makes. -/
inductive Calls (a : Array A) (value : A) : Int32 → Int32 → Prop where
  | start : Calls a value 0 (size a)
  | next {low high low' high'} : Calls a value low high → bisectNext a value low high = some (low', high') →
      Calls a value low' high'

/-! ## What a search is for -/

/-- `lower_bound` has the least index whose element is not less than the value, or the size. No sum of indices
leaves `Int`, each index read is one of the array, and `binary_search` finds an equal element when there is one. -/
structure Finds [BEq A] (a : Array A) (value : A) : Prop where
  least : ∃ N, ∀ fuel ≥ N, ∃ i, lowerBound a value fuel = some i ∧ 0 ≤ i ∧
    IsLeast {j : Nat | j = a.size ∨ ∃ x, a[j]? = some x ∧ compare x value ≠ .lt} i.toNatClampNeg
  fits : ∀ low high, Calls a value low high → low < high →
    (low + high).toInt = low.toInt + high.toInt ∧
      ((low + high) / 2 + 1).toInt = ((low + high) / 2).toInt + 1 ∧ (get a ((low + high) / 2)).isSome
  finds : ∃ N, ∀ fuel ≥ N, ∃ found, binarySearch a value fuel = some found ∧
    (∀ i, found = some i → ∃ x, get a i = some x ∧ x == value) ∧ (found.isSome ↔ ∃ x ∈ a, x == value)

/-- The elements less than the value are the first `k`. -/
structure Rank (a : Array A) (value : A) (k : Nat) : Prop where
  le_size : k ≤ a.size
  below_iff : ∀ i x, a[i]? = some x → (compare x value = .lt ↔ i < k)

theorem Rank.isLeast (hr : Rank a value k) :
    IsLeast {j : Nat | j = a.size ∨ ∃ x, a[j]? = some x ∧ compare x value ≠ .lt} k := by
  constructor
  · rcases Nat.lt_or_eq_of_le hr.le_size with hk | hk
    · refine .inr ⟨a[k], Array.getElem?_eq_getElem hk, fun hx => ?_⟩
      exact Nat.lt_irrefl k ((hr.below_iff k _ (Array.getElem?_eq_getElem hk)).mp hx)
    · exact .inl hk
  · rintro i (rfl | ⟨x, hx, hnot⟩)
    · exact hr.le_size
    · exact Nat.le_of_not_lt fun hi => hnot ((hr.below_iff i x hx).mpr hi)

theorem exists_rank [TransOrd A] (hsorted : Lists.Sorted compare a.toList) (value : A) : ∃ k, Rank a value k := by
  classical
  have hends : ∃ j, j = a.size ∨ ∃ x, a[j]? = some x ∧ compare x value ≠ .lt := ⟨a.size, .inl rfl⟩
  refine ⟨Nat.find hends, Nat.find_min' hends (.inl rfl), fun i x hx => ⟨fun hlt => ?_, fun hi => ?_⟩⟩
  · by_contra hge
    obtain ⟨hin, rfl⟩ := Array.getElem?_eq_some_iff.mp hx
    rcases Nat.find_spec hends with hk | ⟨y, hy, hnot⟩
    · omega
    · obtain ⟨hk, rfl⟩ := Array.getElem?_eq_some_iff.mp hy
      rcases Nat.lt_or_eq_of_le (Nat.le_of_not_lt hge) with hki | hki
      · have hle : (compare a[Nat.find hends] a[i]).isLE :=
          List.pairwise_iff_getElem.mp hsorted _ _ (by simpa using hk) (by simpa using hin) hki
        exact hnot (TransCmp.lt_of_isLE_of_lt hle hlt)
      · exact hnot (by simpa only [hki] using hlt)
  · by_contra hnot
    exact Nat.find_min hends hi (.inr ⟨x, hx, hnot⟩)

/-- The first element that is not less than the value is equal to it when one is. -/
theorem exists_equal_iff [BEq A] [TransOrd A] [LawfulBEqOrd A] (hsorted : Lists.Sorted compare a.toList)
    (hr : Rank a value k) : (∃ x ∈ a, x == value) ↔ a[k]?.any (· == value) := by
  constructor
  · rintro ⟨y, hy, hequal⟩
    obtain ⟨i, hi, rfl⟩ := Array.getElem_of_mem hy
    have heq : compare a[i] value = .eq := LawfulBEqCmp.compare_eq_iff_beq.mpr hequal
    have hge : k ≤ i := Nat.le_of_not_lt fun hlt => by
      have hless := (hr.below_iff i _ (Array.getElem?_eq_getElem hi)).mpr hlt
      rw [heq] at hless
      cases hless
    have hk : k < a.size := Nat.lt_of_le_of_lt hge hi
    have hnot : compare a[k] value ≠ .lt := fun hlt =>
      Nat.lt_irrefl k ((hr.below_iff k _ (Array.getElem?_eq_getElem hk)).mp hlt)
    have hle : (compare a[k] value).isLE := by
      rcases Nat.lt_or_eq_of_le hge with hki | hki
      · have hki' : (compare a[k] a[i]).isLE :=
          List.pairwise_iff_getElem.mp hsorted _ _ (by simpa using hk) (by simpa using hi) hki
        exact TransCmp.isLE_trans hki' (by rw [heq]; rfl)
      · subst hki
        rw [heq]
        rfl
    have hkeq : compare a[k] value = .eq := (Ordering.isLE_iff_eq_lt_or_eq_eq.mp hle).resolve_left hnot
    rw [Array.getElem?_eq_getElem hk]
    exact LawfulBEqCmp.compare_eq_iff_beq.mp hkeq
  · intro hany
    obtain ⟨x, hx, hequal⟩ := (Option.any_eq_true _ _).mp hany
    exact ⟨x, Array.mem_of_getElem? hx, hequal⟩

/-! ## Indices as numbers -/

omit [Ord A] in
theorem get_ofNat (a : Array A) (hl : l < 2 ^ 31) : get a (Int32.ofNat l) = a[l]? := by
  have hle : ¬Int32.ofNat l < 0 := by
    rw [Int32.lt_iff_toInt_lt, Int32.toInt_ofNat_of_lt hl, Int32.toInt_zero]
    omega
  rw [get, if_neg hle, Int32.toNatClampNeg_ofNat_of_lt hl]

/-- A sum that fits has its half in the middle. -/
theorem mid_ofNat (hsum : l + h < 2 ^ 31) : (Int32.ofNat l + Int32.ofNat h) / 2 = Int32.ofNat ((l + h) / 2) := by
  rw [← Int32.ofNat_add]
  apply Int32.toInt.inj
  rw [Int32.toInt_div_of_ne_right _ _ (by decide), Int32.toInt_ofNat_of_lt hsum, Int32.toInt_ofNat_of_lt (by omega)]
  rfl

theorem bisectNext_ofNat (hr : Rank a value k) (hlt : l < h) (hh : h ≤ a.size) (hsum : l + h < 2 ^ 31) :
    bisectNext a value (Int32.ofNat l) (Int32.ofNat h) =
      if (l + h) / 2 < k then some (Int32.ofNat ((l + h) / 2 + 1), Int32.ofNat h)
      else some (Int32.ofNat l, Int32.ofNat ((l + h) / 2)) := by
  have hlow : Int32.ofNat l < Int32.ofNat h := (Int32.ofNat_lt_iff_lt (by omega) (by omega)).mpr hlt
  have hin : (l + h) / 2 < a.size := by omega
  have hget : get a (Int32.ofNat ((l + h) / 2)) = some a[(l + h) / 2] := by
    rw [get_ofNat a (by omega), Array.getElem?_eq_getElem hin]
  rw [bisectNext, if_pos hlow, mid_ofNat hsum]
  simp only [hget, Option.any_some, beq_iff_eq, hr.below_iff _ _ (Array.getElem?_eq_getElem hin), Int32.ofNat_add]
  rfl

theorem bisectNext_ends (hl : l < 2 ^ 31) : bisectNext a value (Int32.ofNat l) (Int32.ofNat l) = none := by
  rw [bisectNext, if_neg]
  rw [Int32.ofNat_lt_iff_lt hl hl]
  exact Nat.lt_irrefl l

/-! ## The right side of the search -/

/-- Where the range starts after `j` elements in the middle that were all less than the value. -/
def rightmost (n j : Nat) : Nat := n + 1 - (n + 1) / 2 ^ j

theorem rightmost_succ (n j : Nat) : rightmost n (j + 1) = n + 1 - (n + 1) / 2 ^ j / 2 := by
  rw [rightmost, Nat.pow_succ, Nat.div_div_eq_div_mul]

theorem rightmost_next (hlt : rightmost n j < n) : (rightmost n j + n) / 2 + 1 = rightmost n (j + 1) := by
  have hle := Nat.div_le_self (n + 1) (2 ^ j)
  rw [rightmost_succ]
  rw [rightmost] at hlt ⊢
  omega

theorem rightmost_le_succ (n j : Nat) : rightmost n j ≤ rightmost n (j + 1) := by
  rw [rightmost_succ, rightmost]
  exact Nat.sub_le_sub_left (Nat.div_le_self _ 2) _

/-- Where the sum of the ends would not fit, the search does not get: the element before is not less than the value. -/
def Room (a : Array A) (value : A) : Prop :=
  ∀ j, rightmost a.size j < a.size → 2 ^ 31 ≤ rightmost a.size j + a.size →
    ∀ x, a[rightmost a.size j - 1]? = some x → compare x value ≠ .lt

theorem Room.lt (hroom : Room a value) (hr : Rank a value k) (hsize : a.size < 2 ^ 31)
    (hlt : rightmost a.size j < a.size) (hsum : 2 ^ 31 ≤ rightmost a.size j + a.size) : k < rightmost a.size j := by
  have hin : rightmost a.size j - 1 < a.size := by omega
  have hnot := hroom j hlt hsum _ (Array.getElem?_eq_getElem hin)
  rw [ne_eq, hr.below_iff _ _ (Array.getElem?_eq_getElem hin)] at hnot
  omega

/-- The ranges of a search in a row: the value belongs in the range, which is on the right side of the array, or has
its end in the left half of `Int`. -/
structure Range (n k l h : Nat) : Prop where
  le_rank : l ≤ k
  rank_le : k ≤ h
  le_size : h ≤ n
  side : h < 2 ^ 30 ∨ h = n ∧ ∃ j, l = rightmost n j

theorem Range.start (hr : Rank a value k) : Range a.size k 0 a.size where
  le_rank := Nat.zero_le k
  rank_le := hr.le_size
  le_size := Nat.le_refl _
  side := .inr ⟨rfl, 0, by simp [rightmost]⟩

theorem Range.sum_lt (hrange : Range a.size k l h) (hroom : Room a value) (hr : Rank a value k)
    (hsize : a.size < 2 ^ 31) (hlt : l < h) : l + h < 2 ^ 31 := by
  rcases hrange.side with hleft | ⟨rfl, j, rfl⟩
  · omega
  · by_contra hsum
    exact Nat.lt_irrefl k (Nat.lt_of_lt_of_le (hroom.lt hr hsize hlt (by omega)) hrange.le_rank)

theorem Range.right (hrange : Range n k l h) (hlt : l < h) (hmid : (l + h) / 2 < k) :
    Range n k ((l + h) / 2 + 1) h where
  le_rank := hmid
  rank_le := hrange.rank_le
  le_size := hrange.le_size
  side := by
    refine hrange.side.imp_right ?_
    rintro ⟨rfl, j, rfl⟩
    exact ⟨rfl, j + 1, rightmost_next hlt⟩

theorem Range.left (hrange : Range n k l h) (hlt : l < h) (hsum : l + h < 2 ^ 31) (hmid : ¬(l + h) / 2 < k) :
    Range n k l ((l + h) / 2) where
  le_rank := hrange.le_rank
  rank_le := Nat.le_of_not_lt hmid
  le_size := by
    have hle := hrange.le_size
    omega
  side := .inl (by omega)

section
variable (hroom : Room a value) (hr : Rank a value k) (hsize : a.size < 2 ^ 31)

include hroom hr hsize

theorem bisect_range {fuel : Nat} (hrange : Range a.size k l h) (hfuel : h - l < fuel) :
    bisect a value fuel (Int32.ofNat l) (Int32.ofNat h) = some (Int32.ofNat k) := by
  induction fuel generalizing l h with
  | zero => exact absurd hfuel (Nat.not_lt_zero _)
  | succ fuel ih =>
    have hle := hrange.le_rank
    have hge := hrange.rank_le
    rw [bisect_succ]
    by_cases hlt : l < h
    · have hsum := hrange.sum_lt hroom hr hsize hlt
      rw [bisectNext_ofNat hr hlt hrange.le_size hsum]
      by_cases hmid : (l + h) / 2 < k
      · rw [if_pos hmid]
        exact ih (hrange.right hlt hmid) (by omega)
      · rw [if_neg hmid]
        exact ih (hrange.left hlt hsum hmid) (by omega)
    · obtain rfl : l = k := by omega
      obtain rfl : l = h := by omega
      have hsize' := hrange.le_size
      rw [bisectNext_ends (by omega)]

theorem calls_range {low high : Int32} (hcalls : Calls a value low high) :
    ∃ l h, low = Int32.ofNat l ∧ high = Int32.ofNat h ∧ Range a.size k l h := by
  induction hcalls with
  | start => exact ⟨0, a.size, rfl, rfl, .start hr⟩
  | next _ hnext ih =>
    obtain ⟨l, h, rfl, rfl, hrange⟩ := ih
    by_cases hlt : l < h
    · have hsum := hrange.sum_lt hroom hr hsize hlt
      rw [bisectNext_ofNat hr hlt hrange.le_size hsum] at hnext
      split at hnext
      · next hmid =>
        cases hnext
        exact ⟨_, _, rfl, rfl, hrange.right hlt hmid⟩
      · next hmid =>
        cases hnext
        exact ⟨_, _, rfl, rfl, hrange.left hlt hsum hmid⟩
    · have hle := hrange.le_rank
      have hge := hrange.rank_le
      have hsize' := hrange.le_size
      obtain rfl : l = h := by omega
      rw [bisectNext_ends (by omega)] at hnext
      cases hnext

theorem lowerBound_eq {fuel : Nat} (hfuel : a.size < fuel) : lowerBound a value fuel = some (Int32.ofNat k) :=
  bisect_range hroom hr hsize (.start hr) (by omega)

theorem calls_fits {low high : Int32} (hcalls : Calls a value low high) (hlow : low < high) :
    (low + high).toInt = low.toInt + high.toInt ∧
      ((low + high) / 2 + 1).toInt = ((low + high) / 2).toInt + 1 ∧ (get a ((low + high) / 2)).isSome := by
  obtain ⟨l, h, rfl, rfl, hrange⟩ := calls_range hroom hr hsize hcalls
  have hle := hrange.le_size
  have hlt : l < h := by
    by_contra hge
    have hle' := hrange.le_rank
    have hge' := hrange.rank_le
    obtain rfl : l = h := by omega
    rw [Int32.lt_iff_toInt_lt] at hlow
    exact Int.lt_irrefl _ hlow
  have hsum := hrange.sum_lt hroom hr hsize hlt
  have hin : (l + h) / 2 < a.size := by omega
  refine ⟨?_, ?_, ?_⟩
  · rw [← Int32.ofNat_add, Int32.toInt_ofNat_of_lt hsum, Int32.toInt_ofNat_of_lt (by omega),
      Int32.toInt_ofNat_of_lt (by omega)]
    rfl
  · rw [mid_ofNat hsum]
    have hone : (1 : Int32) = Int32.ofNat 1 := rfl
    rw [hone, ← Int32.ofNat_add, Int32.toInt_ofNat_of_lt (by omega), Int32.toInt_ofNat_of_lt (by omega)]
    rfl
  · rw [mid_ofNat hsum, get_ofNat a (by omega), Array.getElem?_eq_getElem hin]
    rfl

/-- The element at the rank is equal to the value when one is. -/
theorem binarySearch_eq [BEq A] {fuel : Nat} (hfuel : a.size < fuel) :
    binarySearch a value fuel = some (if a[k]?.any (· == value) then some (Int32.ofNat k) else none) := by
  have hle := hr.le_size
  rw [binarySearch, lowerBound_eq hroom hr hsize hfuel, Option.bind_eq_bind, Option.bind_some, get_ofNat a (by omega)]
  cases a[k]? with
  | none => rfl
  | some x => rfl

theorem finds_of_room [BEq A] [TransOrd A] [LawfulBEqOrd A] (hsorted : Lists.Sorted compare a.toList) :
    Finds a value where
  least := by
    have hle := hr.le_size
    refine ⟨a.size + 1, fun fuel hfuel => ⟨_, lowerBound_eq hroom hr hsize hfuel, ?_, ?_⟩⟩
    · rw [Int32.le_iff_toInt_le, Int32.toInt_ofNat_of_lt (by omega), Int32.toInt_zero]
      omega
    · rw [Int32.toNatClampNeg_ofNat_of_lt (by omega)]
      exact hr.isLeast
  fits _ _ := calls_fits hroom hr hsize
  finds := by
    have hle := hr.le_size
    refine ⟨a.size + 1, fun fuel hfuel => ⟨_, binarySearch_eq hroom hr hsize hfuel, fun i hi => ?_, ?_⟩⟩
    · split at hi
      · next hany =>
        cases hi
        rw [get_ofNat a (by omega)]
        obtain ⟨x, hx, hequal⟩ := (Option.any_eq_true _ _).mp hany
        exact ⟨x, hx, hequal⟩
      · cases hi
    · rw [exists_equal_iff hsorted hr]
      split
      · next hany => simp [hany]
      · next hany => simp [hany]

end

/-! ## A sum that does not fit -/

/-- The search goes right while the elements in the middle are less than the value. -/
theorem calls_rightmost (hr : Rank a value k) (hlt : rightmost a.size j < a.size) (hle : rightmost a.size j ≤ k)
    (hbefore : ∀ i < j, rightmost a.size i + a.size < 2 ^ 31) :
    Calls a value (Int32.ofNat (rightmost a.size j)) (size a) := by
  induction j with
  | zero =>
    have hzero : rightmost a.size 0 = 0 := by simp [rightmost]
    rw [hzero]
    exact .start
  | succ j ih =>
    have hstep := rightmost_le_succ a.size j
    have hlt' : rightmost a.size j < a.size := by omega
    have hnext := bisectNext_ofNat hr hlt' (Nat.le_refl _) (hbefore j (Nat.lt_succ_self j))
    have hmid := rightmost_next hlt'
    rw [if_pos (by omega), hmid] at hnext
    exact .next (ih hlt' (by omega) fun i hi => hbefore i (by omega)) hnext

/-- A search whose indices fit has room. -/
theorem room_of_fits (hr : Rank a value k) (hsize : a.size < 2 ^ 31)
    (hfits : ∀ low high, Calls a value low high → low < high → (low + high).toInt = low.toInt + high.toInt) :
    Room a value := by
  classical
  intro j hlt hsum x hx hless
  have hwraps : ∃ j, 2 ^ 31 ≤ rightmost a.size j + a.size := ⟨j, hsum⟩
  have hfirst := Nat.find_spec hwraps
  have hfirst_le : rightmost a.size (Nat.find hwraps) ≤ rightmost a.size j := by
    exact monotone_nat_of_le_succ (rightmost_le_succ a.size) (Nat.find_min' hwraps hsum)
  have hrank := (hr.below_iff _ x hx).mp hless
  have hcalls : Calls a value (Int32.ofNat (rightmost a.size (Nat.find hwraps))) (size a) := by
    apply calls_rightmost hr (by omega) (by omega)
    intro i hi
    have hnot := Nat.find_min hwraps hi
    omega
  have hlow : Int32.ofNat (rightmost a.size (Nat.find hwraps)) < size a :=
    (Int32.ofNat_lt_iff_lt (by omega) hsize).mpr (by omega)
  have heq := hfits _ _ hcalls hlow
  rw [size, Int32.toInt_ofNat_of_lt (by omega), Int32.toInt_ofNat_of_lt hsize] at heq
  have hmax := (Int32.ofNat (rightmost a.size (Nat.find hwraps)) + Int32.ofNat a.size).toInt_lt
  omega

/-- An array of up to 2^30 elements has room for every search. -/
theorem room_of_size_le (hsize : a.size ≤ 2 ^ 30) (value : A) : Room a value := by
  intro j hlt hsum
  omega

/-- A search finds what it is for where no sum of its indices wraps around: where the elements before the sums that
would are not less than the value. -/
theorem finds_iff_room [BEq A] [TransOrd A] [LawfulBEqOrd A] (hsorted : Lists.Sorted compare a.toList)
    (hsize : a.size < 2 ^ 31) : Finds a value ↔ Room a value := by
  obtain ⟨k, hr⟩ := exists_rank hsorted value
  constructor
  · intro hfinds
    exact room_of_fits hr hsize fun low high hcalls hlow => (hfinds.fits low high hcalls hlow).1
  · exact fun hroom => finds_of_room hroom hr hsize hsorted

theorem finds_iff_room_small : Finds #[1, 3, 3, 5] 3 ∧ lowerBound #[1, 3, 3, 5] 3 4 = some 1 :=
  ⟨(finds_iff_room (by decide) (by decide)).mpr (room_of_size_le (by decide) 3), by decide⟩

/-- 1500000000 elements that are all less than the value: the second sum wraps around. -/
def zeros : Array Nat := Array.replicate 1500000000 0

theorem lowerBound_zeros :
    Lists.Sorted compare zeros.toList ∧ zeros.size < 2 ^ 31 ∧ (∀ x ∈ zeros, compare x 1 = .lt) ∧
      lowerBound zeros 1 3 = some 750000001 ∧ ¬Finds zeros 1 := by
  have hsize : zeros.size = 1500000000 := Array.size_replicate
  have hget : ∀ i < 1500000000, zeros[i]? = some 0 := fun i hi => by rw [zeros, Array.getElem?_replicate, if_pos hi]
  have hsorted : Lists.Sorted compare zeros.toList := by
    rw [zeros, Array.toList_replicate]
    exact List.pairwise_replicate.mpr (.inr (by decide))
  have hmem : ∀ x ∈ zeros, compare x 1 = .lt := by
    intro x hx
    rw [Array.eq_of_mem_replicate hx]
    rfl
  refine ⟨hsorted, by rw [hsize]; decide, hmem, ?_, fun hfinds => ?_⟩
  · have hin : get zeros 750000000 = some 0 := by
      have hindex : (750000000 : Int32).toNatClampNeg = 750000000 := by decide
      rw [get, if_neg (by decide), hindex]
      exact hget 750000000 (by decide)
    have hout : get zeros (-1022483647) = none := by rw [get, if_pos (by decide)]
    have hmid : ((0 : Int32) + 1500000000) / 2 = 750000000 := by decide
    have hwrapped : ((750000001 : Int32) + 1500000000) / 2 = -1022483647 := by decide
    have hfirst : bisectNext zeros 1 0 1500000000 = some (750000001, 1500000000) := by
      rw [bisectNext, if_pos (by decide), hmid]
      dsimp only
      rw [hin]
      rfl
    have hsecond : bisectNext zeros 1 750000001 1500000000 = some (750000001, -1022483647) := by
      rw [bisectNext, if_pos (by decide), hwrapped]
      dsimp only
      rw [hout]
      rfl
    have hthird : bisectNext zeros 1 750000001 (-1022483647) = none := by rw [bisectNext, if_neg (by decide)]
    have hend : size zeros = 1500000000 := by
      rw [size, hsize]
      rfl
    rw [lowerBound, hend, bisect_succ, hfirst]
    dsimp only
    rw [bisect_succ, hsecond]
    dsimp only
    rw [bisect_succ, hthird]
  · obtain ⟨k, hr⟩ := exists_rank hsorted 1
    have hroom := room_of_fits hr (by rw [hsize]; decide) fun low high hcalls hlow =>
      (hfinds.fits low high hcalls hlow).1
    refine hroom 1 ?_ ?_ 0 ?_ rfl
    · rw [hsize]
      decide
    · rw [hsize]
      decide
    · rw [hsize]
      exact hget _ (by decide)

end Emela.Stdlib.Arrays
