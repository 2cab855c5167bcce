import Mathlib

/-!
# What maps use of the core library

`Int` is a 32-bit integer whose arithmetic wraps around.
-/

namespace Emela.Stdlib

variable {A B : Type}

/-! ## Integers -/

theorem bmod_of_fits {n : Int} (h : -2 ^ 31 ≤ n) (h' : n < 2 ^ 31) : n.bmod (2 ^ 32) = n :=
  Int.bmod_eq_of_le (by omega) (by omega)

theorem toInt_add_of_fits {a b : Int32} (h : -2 ^ 31 ≤ a.toInt + b.toInt) (h' : a.toInt + b.toInt < 2 ^ 31) :
    (a + b).toInt = a.toInt + b.toInt := by
  rw [Int32.toInt_add, bmod_of_fits h h']

theorem toInt_sub_of_fits {a b : Int32} (h : -2 ^ 31 ≤ a.toInt - b.toInt) (h' : a.toInt - b.toInt < 2 ^ 31) :
    (a - b).toInt = a.toInt - b.toInt := by
  rw [Int32.toInt_sub, bmod_of_fits h h']

theorem toInt_mul_of_fits {a b : Int32} (h : -2 ^ 31 ≤ a.toInt * b.toInt) (h' : a.toInt * b.toInt < 2 ^ 31) :
    (a * b).toInt = a.toInt * b.toInt := by
  rw [Int32.toInt_mul, bmod_of_fits h h']

/-! ## Lists -/

namespace Lists

def fold (xs : List A) (start : B) (f : B → A → B) : B :=
  match xs with
  | [] => start
  | x :: rest => fold rest (f start x) f

def countOnto : List A → Int32 → Int32
  | [], n => n
  | _ :: rest, n => countOnto rest (n + 1)

def length (xs : List A) : Int32 := countOnto xs 0

def reverseOnto : List A → List A → List A
  | [], acc => acc
  | x :: rest, acc => reverseOnto rest (x :: acc)

def reverse (xs : List A) : List A := reverseOnto xs []

def append (xs ys : List A) : List A := reverseOnto (reverse xs) ys

def map (xs : List A) (f : A → B) : List B := reverse (fold xs [] fun acc x => f x :: acc)

def filter (xs : List A) (f : A → Bool) : List A := reverse (fold xs [] fun acc x => if f x then x :: acc else acc)

def flatten (xss : List (List A)) : List A := fold (reverse xss) [] fun acc xs => append xs acc

def flatMap (xs : List A) (f : A → List B) : List B := flatten (map xs f)

def any : List A → (A → Bool) → Bool
  | [], _ => false
  | x :: rest, f => f x || any rest f

def drop : List A → Int32 → List A
  | [], _ => []
  | x :: rest, n => if n ≤ 0 then x :: rest else drop rest (n - 1)

def filterMapOnto : List A → (A → Option B) → List B → List B
  | [], _, acc => reverse acc
  | x :: rest, f, acc => match f x with
    | some y => filterMapOnto rest f (y :: acc)
    | none => filterMapOnto rest f acc

def filterMap (xs : List A) (f : A → Option B) : List B := filterMapOnto xs f []

def findIndexFrom : List A → (A → Bool) → Int32 → Option Int32
  | [], _, _ => none
  | x :: rest, f, index => if f x then some index else findIndexFrom rest f (index + 1)

def findIndex (xs : List A) (f : A → Bool) : Option Int32 := findIndexFrom xs f 0

/-! ## What they compute -/

@[simp] theorem fold_eq (xs : List A) (start : B) (f : B → A → B) : fold xs start f = xs.foldl f start := by
  induction xs generalizing start with
  | nil => rfl
  | cons x rest ih => exact ih _

theorem countOnto_eq (xs : List A) (n : Int32) : countOnto xs n = n + Int32.ofNat xs.length := by
  induction xs generalizing n with
  | nil => simp [countOnto]
  | cons x rest ih =>
    rw [countOnto, ih, List.length_cons, Int32.ofNat_add, Int32.add_assoc, Int32.add_comm 1]
    rfl

theorem toInt_length (xs : List A) : (length xs).toInt = (xs.length : Int).bmod (2 ^ 32) := by
  rw [length, countOnto_eq, Int32.zero_add]
  exact Int32.toInt_ofNat'

@[simp] theorem reverseOnto_eq (xs acc : List A) : reverseOnto xs acc = xs.reverse ++ acc := by
  induction xs generalizing acc with
  | nil => rfl
  | cons x rest ih => simp [reverseOnto, ih]

@[simp] theorem reverse_eq (xs : List A) : reverse xs = xs.reverse := by simp [reverse]

@[simp] theorem append_eq (xs ys : List A) : append xs ys = xs ++ ys := by simp [append]

@[simp] theorem map_eq (xs : List A) (f : A → B) : map xs f = xs.map f := by simp [map]

theorem foldl_filter (xs : List A) (f : A → Bool) (acc : List A) :
    xs.foldl (fun acc x => if f x then x :: acc else acc) acc = (xs.filter f).reverse ++ acc := by
  induction xs generalizing acc with
  | nil => rfl
  | cons x rest ih =>
    cases hx : f x <;> simp [ih, hx]

@[simp] theorem filter_eq (xs : List A) (f : A → Bool) : filter xs f = xs.filter f := by simp [filter, foldl_filter]

@[simp] theorem flatten_eq (xss : List (List A)) : flatten xss = xss.flatten := by
  induction xss with
  | nil => rfl
  | cons xs xss ih =>
    simp only [flatten, reverse_eq, fold_eq, append_eq, List.foldl_reverse] at ih ⊢
    rw [List.foldr_cons, ih, List.flatten_cons]

@[simp] theorem flatMap_eq (xs : List A) (f : A → List B) : flatMap xs f = xs.flatMap f := by
  simp [flatMap, List.flatMap_def]

theorem filterMapOnto_eq (xs : List A) (f : A → Option B) (acc : List B) :
    filterMapOnto xs f acc = acc.reverse ++ xs.filterMap f := by
  induction xs generalizing acc with
  | nil => simp [filterMapOnto]
  | cons x rest ih => cases hx : f x <;> simp [filterMapOnto, hx, ih]

@[simp] theorem filterMap_eq (xs : List A) (f : A → Option B) : filterMap xs f = xs.filterMap f := by
  simp [filterMap, filterMapOnto_eq]

/-- An index that wraps around is not larger. -/
theorem drop_eq (xs : List A) (n : Int32) : ∃ k, k ≤ n.toNatClampNeg ∧ drop xs n = xs.drop k := by
  induction xs generalizing n with
  | nil => exact ⟨0, Nat.zero_le _, rfl⟩
  | cons x rest ih =>
    rw [drop]
    split
    · exact ⟨0, Nat.zero_le _, rfl⟩
    · next hpos =>
      obtain ⟨k, hk, hdrop⟩ := ih (n - 1)
      refine ⟨k + 1, ?_, hdrop⟩
      rw [Int32.le_iff_toInt_le, Int32.toInt_zero] at hpos
      have hlt := Int32.toInt_lt n
      have hsub : (n - 1).toInt = n.toInt - 1 := toInt_sub_of_fits (by simp; omega) (by simp; omega)
      rw [Int32.toNatClampNeg, hsub] at hk
      rw [Int32.toNatClampNeg]
      omega

end Lists
end Emela.Stdlib
