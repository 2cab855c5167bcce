import Emela.Stdlib.Map

/-!
# Balancing keeps the entries and the weights

The entries do not depend on the sizes, so a rotation never loses one. The weights are right as long as no
multiple of a size overflows.
-/

namespace Emela.Stdlib.Map

variable {K V W : Type} {m inner outer l r x y : Map K V} {key k k' : K} {value v v' : V}

/-! ## Entries -/

theorem toListOnto_eq (m : Map K V) (acc : List (K × V)) : toListOnto m acc = toList m ++ acc := by
  induction m generalizing acc with
  | Empty => rfl
  | Node n key value left right ihl ihr =>
    simp only [toList, toListOnto]
    rw [ihl, ihr, ihl ((key, value) :: toListOnto right []), ihr []]
    simp [toList]

@[simp] theorem toList_empty : (Empty : Map K V).toList = [] := rfl

@[simp] theorem toList_node' (n : Int32) (key : K) (value : V) (left right : Map K V) :
    (Node n key value left right).toList = left.toList ++ (key, value) :: right.toList := by
  rw [toList, toListOnto, toListOnto_eq, toListOnto_eq, List.append_nil]

@[simp] theorem toList_node (key : K) (value : V) (left right : Map K V) :
    (node key value left right).toList = left.toList ++ (key, value) :: right.toList := toList_node' ..

@[simp] theorem toList_rotateLeft (key : K) (value : V) (left : Map K V) (k : K) (v : V) (inner outer : Map K V) :
    (rotateLeft key value left k v inner outer).toList =
      left.toList ++ (key, value) :: (inner.toList ++ (k, v) :: outer.toList) := by
  simp only [rotateLeft]
  split <;> simp

@[simp] theorem toList_rotateRight (k : K) (v : V) (outer inner : Map K V) (key : K) (value : V) (right : Map K V) :
    (rotateRight k v outer inner key value right).toList =
      (outer.toList ++ (k, v) :: inner.toList) ++ (key, value) :: right.toList := by
  simp only [rotateRight]
  split <;> simp

@[simp] theorem toList_balance (key : K) (value : V) (left right : Map K V) :
    (balance key value left right).toList = left.toList ++ (key, value) :: right.toList := by
  simp only [balance]
  split
  · simp
  · split <;> simp

theorem toList_removeMin (key : K) (value : V) (left right : Map K V) :
    ((removeMin key value left right).1, (removeMin key value left right).2.1) ::
      (removeMin key value left right).2.2.toList = left.toList ++ (key, value) :: right.toList := by
  induction left generalizing key value right with
  | Empty => rfl
  | Node n k v ll lr ihl ihr =>
    simp only [removeMin, toList_balance, toList_node', ← ihl k v lr]
    simp

theorem toList_removeMax (key : K) (value : V) (left right : Map K V) :
    (removeMax key value left right).2.2.toList ++
      [((removeMax key value left right).1, (removeMax key value left right).2.1)] =
      left.toList ++ (key, value) :: right.toList := by
  induction right generalizing key value left with
  | Empty => rfl
  | Node n k v rl rr ihl ihr =>
    simp only [removeMax, toList_balance, toList_node', ← ihr k v rl]
    simp

@[simp] theorem toList_glue (left right : Map K V) : (glue left right).toList = left.toList ++ right.toList := by
  cases left with
  | Empty => rfl
  | Node n k v ll lr =>
    cases right with
    | Empty => simp [glue]
    | Node n' k' v' rl rr =>
      simp only [glue]
      split
      · rw [toList_balance, toList_node' n, ← toList_removeMax k v ll lr]
        simp
      · rw [toList_balance, toList_node' n', ← toList_removeMin k' v' rl rr]

@[simp] theorem toList_mapValues (m : Map K V) (f : V → W) :
    (m.mapValues f).toList = m.toList.map fun p => (p.1, f p.2) := by
  induction m with
  | Empty => rfl
  | Node n key value left right ihl ihr => simp [mapValues, ihl, ihr]

/-! ## Weights -/

/-- One key was inserted into or removed from one of two balanced sides. -/
def Near (a b : Nat) : Prop :=
  ∃ a' b', Fair a' b' ∧ (a = a' ∧ b = b' ∨ b = b' ∧ (a = a' + 1 ∨ a + 1 = a') ∨ a = a' ∧ (b = b' + 1 ∨ b + 1 = b'))

theorem Fair.symm {a b : Nat} (h : Fair a b) : Fair b a := by
  unfold Fair at *
  omega

theorem Near.symm {a b : Nat} (h : Near a b) : Near b a := by
  obtain ⟨a', b', hf, h⟩ := h
  exact ⟨b', a', hf.symm, by omega⟩

/-- A node that needs no rotation. -/
theorem Near.fair {a b : Nat} (ha : ¬(a + b > 1 ∧ a > 3 * b)) (hb : ¬(b + a > 1 ∧ b > 3 * a)) : Fair a b := by
  unfold Fair
  omega

theorem Near.single {a i o : Nat} (h : Near a (i + o + 1)) (hio : Fair i o) (hh : i + o + 1 + a > 1)
    (hd : i + o + 1 > 3 * a) (ht : ¬2 * o ≤ i) : Fair a i ∧ Fair (a + i + 1) o := by
  obtain ⟨a', b', hf, h⟩ := h
  unfold Fair at *
  omega

theorem Near.double {a x y o : Nat} (h : Near a (x + y + 1 + o + 1)) (hio : Fair (x + y + 1) o) (hxy : Fair x y)
    (hd : x + y + 1 + o + 1 > 3 * a) (ht : 2 * o ≤ x + y + 1) :
    Fair a x ∧ Fair y o ∧ Fair (a + x + 1) (y + o + 1) := by
  obtain ⟨a', b', hf, h⟩ := h
  unfold Fair at *
  omega

/-- What balancing needs of the two sides, and what it makes. -/
structure Weighted (m : Map K V) : Prop where
  sized : m.Sized
  balanced : m.Balanced

namespace Weighted

theorem size (h : m.Weighted) : m.size.toInt = m.toList.length := by
  cases m with
  | Empty => rfl
  | Node n key value left right => exact h.sized.1

theorem left {n : Int32} (h : (Node n key value l r).Weighted) : l.Weighted := ⟨h.sized.2.1, h.balanced.2.1⟩

theorem right {n : Int32} (h : (Node n key value l r).Weighted) : r.Weighted := ⟨h.sized.2.2, h.balanced.2.2⟩

theorem empty : (Empty : Map K V).Weighted := ⟨trivial, trivial⟩

theorem node (hl : l.Weighted) (hr : r.Weighted) (hf : Fair l.toList.length r.toList.length)
    (hlt : l.toList.length + r.toList.length + 1 < 2 ^ 31) (key : K) (value : V) :
    (node key value l r).Weighted := by
  have hl' := hl.size
  have hr' := hr.size
  have hone : (1 : Int32).toInt = 1 := rfl
  refine ⟨⟨?_, hl.sized, hr.sized⟩, hf, hl.balanced, hr.balanced⟩
  have hadd : (l.size + r.size).toInt = l.size.toInt + r.size.toInt := toInt_add_of_fits (by omega) (by omega)
  rw [toInt_add_of_fits (by omega) (by omega), hadd, hl', hr']
  simp [hone]
  omega

theorem tooHeavy_iff (hl : l.Weighted) (hr : r.Weighted) (hlm : l.toList.length ≤ (2 ^ 31 - 1) / 3)
    (hrm : r.toList.length ≤ (2 ^ 31 - 1) / 3) :
    tooHeavy l r = true ↔ l.toList.length + r.toList.length > 1 ∧ l.toList.length > 3 * r.toList.length := by
  have hl' := hl.size
  have hr' := hr.size
  have hone : (1 : Int32).toInt = 1 := rfl
  have hthree : DELTA.toInt = 3 := rfl
  have hadd : (l.size + r.size).toInt = l.size.toInt + r.size.toInt := toInt_add_of_fits (by omega) (by omega)
  have hmul : (DELTA * r.size).toInt = 3 * r.size.toInt := by
    rw [toInt_mul_of_fits] <;> rw [hthree] <;> omega
  simp only [tooHeavy, Bool.and_eq_true, decide_eq_true_eq, gt_iff_lt, Int32.lt_iff_toInt_lt]
  omega

theorem twice_iff (hi : inner.Weighted) (ho : outer.Weighted) (hlt : outer.toList.length ≤ (2 ^ 31 - 1) / 3) :
    inner.size ≥ RATIO * outer.size ↔ 2 * outer.toList.length ≤ inner.toList.length := by
  have hi' := hi.size
  have ho' := ho.size
  have htwo : RATIO.toInt = 2 := rfl
  have hmul : ( RATIO * outer.size).toInt = 2 * outer.size.toInt := by
    rw [toInt_mul_of_fits] <;> rw [htwo] <;> omega
  simp only [ge_iff_le, Int32.le_iff_toInt_le]
  omega

end Weighted

/-! ## Rotations -/

theorem rotateLeft_twice {n : Int32} (h : (Node n k v x y).size ≥ RATIO * outer.size) :
    rotateLeft key value l k' v' (Node n k v x y) outer = node k v (node key value l x) (node k' v' y outer) := by
  simp [rotateLeft, h]

theorem rotateLeft_once (h : ¬inner.size ≥ RATIO * outer.size) :
    rotateLeft key value l k v inner outer = node k v (node key value l inner) outer := by
  cases inner <;> simp [rotateLeft, h]

theorem rotateRight_twice {n : Int32} (h : (Node n k v y x).size ≥ RATIO * outer.size) :
    rotateRight k' v' outer (Node n k v y x) key value r = node k v (node k' v' outer y) (node key value x r) := by
  simp [rotateRight, h]

theorem rotateRight_once (h : ¬inner.size ≥ RATIO * outer.size) :
    rotateRight k v outer inner key value r = node k v outer (node key value inner r) := by
  cases inner <;> simp [rotateRight, h]

theorem balance_right {n : Int32} (h : tooHeavy (Node n k v inner outer) l = true) :
    balance key value l (Node n k v inner outer) = rotateLeft key value l k v inner outer := by
  simp [balance, h]

theorem balance_left {n : Int32} (hr : tooHeavy r (Node n k v outer inner) = false)
    (h : tooHeavy (Node n k v outer inner) r = true) :
    balance key value (Node n k v outer inner) r = rotateRight k v outer inner key value r := by
  cases r <;> simp [balance, hr, h]

theorem balance_none (hr : tooHeavy r l = false) (hl : tooHeavy l r = false) :
    balance key value l r = node key value l r := by
  cases r <;> cases l <;> simp [balance, hr, hl]

/-- The larger of two siblings, whose parts are `inner` and `outer`, is too heavy. -/
structure Heavy (a : Nat) (inner outer : Map K V) : Prop where
  weighted : inner.Weighted ∧ outer.Weighted
  fair : Fair inner.toList.length outer.toList.length
  le : inner.toList.length + outer.toList.length + 1 ≤ (2 ^ 31 - 1) / 3
  near : Near a (inner.toList.length + outer.toList.length + 1)
  two : inner.toList.length + outer.toList.length + 1 + a > 1
  heavy : inner.toList.length + outer.toList.length + 1 > 3 * a

theorem Heavy.node (h : Heavy l.toList.length inner outer) (ht : 2 * outer.toList.length ≤ inner.toList.length) :
    ∃ n k v x y, inner = Node n k v x y := by
  cases inner with
  | Empty =>
    have htwo := h.two
    have hheavy := h.heavy
    simp only [toList_empty, List.length_nil] at htwo hheavy ht
    omega
  | Node n k v x y => exact ⟨n, k, v, x, y, rfl⟩

theorem Heavy.twice (h : Heavy l.toList.length inner outer)
    (hi : inner.toList.length = x.toList.length + y.toList.length + 1) (hxy : Fair x.toList.length y.toList.length)
    (ht : 2 * outer.toList.length ≤ inner.toList.length) :
    Fair l.toList.length x.toList.length ∧ Fair y.toList.length outer.toList.length ∧
      Fair (l.toList.length + x.toList.length + 1) (y.toList.length + outer.toList.length + 1) := by
  have hn := h.near
  have hio := h.fair
  have hd := h.heavy
  rw [hi] at ht hn hio hd
  exact hn.double hio hxy hd ht

theorem Heavy.once (h : Heavy l.toList.length inner outer) (ht : ¬2 * outer.toList.length ≤ inner.toList.length) :
    Fair l.toList.length inner.toList.length ∧
      Fair (l.toList.length + inner.toList.length + 1) outer.toList.length :=
  h.near.single h.fair h.two h.heavy ht

theorem Weighted.rotateLeft (hl : l.Weighted) (h : Heavy l.toList.length inner outer)
    (hlm : l.toList.length ≤ (2 ^ 31 - 1) / 3) (key k : K) (value v : V) :
    (rotateLeft key value l k v inner outer).Weighted := by
  have hle := h.le
  by_cases ht : 2 * outer.toList.length ≤ inner.toList.length
  · obtain ⟨n, ik, iv, x, y, rfl⟩ := h.node ht
    have hi : (Node n ik iv x y).toList.length = x.toList.length + y.toList.length + 1 := by
      simp [Nat.add_assoc]
    obtain ⟨hlx, hyo, htop⟩ := h.twice hi h.weighted.1.balanced.1 ht
    rw [rotateLeft_twice ((twice_iff h.weighted.1 h.weighted.2 (by omega)).mpr ht)]
    refine (hl.node h.weighted.1.left hlx (by omega) _ _).node (h.weighted.1.right.node h.weighted.2 hyo (by omega) _ _)
      ?_ ?_ _ _
    · simpa [Nat.add_assoc] using htop
    · simp
      omega
  · obtain ⟨hli, htop⟩ := h.once ht
    rw [rotateLeft_once (mt (twice_iff h.weighted.1 h.weighted.2 (by omega)).mp ht)]
    refine (hl.node h.weighted.1 hli (by omega) _ _).node h.weighted.2 ?_ ?_ _ _
    · simpa [Nat.add_assoc] using htop
    · simp
      omega

theorem Weighted.rotateRight (hr : r.Weighted) (h : Heavy r.toList.length inner outer)
    (hrm : r.toList.length ≤ (2 ^ 31 - 1) / 3) (key k : K) (value v : V) :
    (rotateRight k v outer inner key value r).Weighted := by
  have hle := h.le
  by_cases ht : 2 * outer.toList.length ≤ inner.toList.length
  · obtain ⟨n, ik, iv, y, x, rfl⟩ := h.node ht
    have hi : (Node n ik iv y x).toList.length = x.toList.length + y.toList.length + 1 := by
      simp only [toList_node', List.length_append, List.length_cons]
      omega
    obtain ⟨hrx, hyo, htop⟩ := h.twice hi h.weighted.1.balanced.1.symm ht
    rw [rotateRight_twice ((twice_iff h.weighted.1 h.weighted.2 (by omega)).mpr ht)]
    refine (h.weighted.2.node h.weighted.1.left hyo.symm (by omega) _ _).node
      (h.weighted.1.right.node hr hrx.symm (by omega) _ _) ?_ ?_ _ _
    · have hsym := htop.symm
      simp only [toList_node, List.length_append, List.length_cons, ← Nat.add_assoc]
      rwa [Nat.add_comm outer.toList.length, Nat.add_comm x.toList.length]
    · simp
      omega
  · obtain ⟨hri, htop⟩ := h.once ht
    rw [rotateRight_once (mt (twice_iff h.weighted.1 h.weighted.2 (by omega)).mp ht)]
    refine h.weighted.2.node (h.weighted.1.node hr hri.symm (by omega) _ _) ?_ ?_ _ _
    · have hsym := htop.symm
      simp only [toList_node, List.length_append, List.length_cons, ← Nat.add_assoc]
      rwa [Nat.add_comm inner.toList.length]
    · simp
      omega

/-- A node whose sides were balanced before one key was inserted into or removed from one of them. -/
theorem Weighted.balance (hl : l.Weighted) (hr : r.Weighted) (hlm : l.toList.length ≤ (2 ^ 31 - 1) / 3)
    (hrm : r.toList.length ≤ (2 ^ 31 - 1) / 3) (hn : Near l.toList.length r.toList.length) (key : K) (value : V) :
    (balance key value l r).Weighted := by
  have hright := tooHeavy_iff hr hl hrm hlm
  have hleft := tooHeavy_iff hl hr hlm hrm
  cases hrl : tooHeavy r l with
  | true =>
    obtain ⟨htwo, hheavy⟩ := hright.mp hrl
    cases r with
    | Empty => simp at hheavy
    | Node n k v inner outer =>
      have hlen : (Node n k v inner outer).toList.length = inner.toList.length + outer.toList.length + 1 := by
        simp [Nat.add_assoc]
      rw [balance_right hrl]
      rw [hlen] at htwo hheavy hn hrm
      exact hl.rotateLeft ⟨⟨hr.left, hr.right⟩, hr.balanced.1, hrm, hn, htwo, hheavy⟩ hlm key k value v
  | false =>
    cases hlr : tooHeavy l r with
    | true =>
      obtain ⟨htwo, hheavy⟩ := hleft.mp hlr
      cases l with
      | Empty => simp at hheavy
      | Node n k v outer inner =>
        have hlen : (Node n k v outer inner).toList.length = inner.toList.length + outer.toList.length + 1 := by
          simp only [toList_node', List.length_append, List.length_cons]
          omega
        rw [balance_left hrl hlr]
        rw [hlen] at htwo hheavy hn hlm
        exact hr.rotateRight ⟨⟨hl.right, hl.left⟩, hl.balanced.1.symm, hlm, hn.symm, htwo, hheavy⟩ hrm key k value v
    | false =>
      rw [balance_none hrl hlr]
      refine hl.node hr (Near.fair (fun h => ?_) fun h => ?_) (by omega) key value
      · simp [hleft.mpr h] at hlr
      · simp [hright.mpr h] at hrl

end Emela.Stdlib.Map
