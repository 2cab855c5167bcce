import Mathlib.Data.List.Sort
import Mathlib.Data.Prod.Basic

/-!
# Finite maps as lists of pairs in key order

The keys ascend by a lawful `compare`, which may take different keys for equal. So what a list has for a
key is an entry: the pair of the key it keeps and its value.
-/

namespace Assoc

variable {K V W : Type} [Ord K]

/-- Each key is smaller than those after it. -/
def Ascending (l : List (K × V)) : Prop := l.Pairwise fun p q => compare p.1 q.1 = .lt

/-- The entry of a key equal to `key`. -/
def entryAt (key : K) (l : List (K × V)) : Option (K × V) := l.find? fun p => compare key p.1 == .eq

/-- The entry of `key` set. -/
def put (key : K) (value : V) : List (K × V) → List (K × V)
  | [] => [(key, value)]
  | p :: l => match compare key p.1 with
    | .lt => (key, value) :: p :: l
    | .eq => (key, value) :: l
    | .gt => p :: put key value l

/-- The entry of `key` taken away. -/
def erase (key : K) : List (K × V) → List (K × V)
  | [] => []
  | p :: l => match compare key p.1 with
    | .lt => p :: l
    | .eq => l
    | .gt => p :: erase key l

/-- The entries of both. An entry of the first hides one of an equal key. -/
def merge : List (K × V) → List (K × V) → List (K × V)
  | [], ys => ys
  | x :: xs, [] => x :: xs
  | x :: xs, y :: ys => match compare x.1 y.1 with
    | .lt => x :: merge xs (y :: ys)
    | .gt => y :: merge (x :: xs) ys
    | .eq => x :: merge xs ys
termination_by xs ys => xs.length + ys.length

/-- The entries in the order of their keys. -/
def sort (l : List (K × V)) : List (K × V) := l.insertionSort fun p q => (compare p.1 q.1).isLE

section
variable {key a : K} {value b : V} {l r xs ys : List (K × V)} {p q : K × V}

theorem Ascending.tail (h : Ascending (p :: l)) : Ascending l := (List.pairwise_cons.mp h).2

theorem Ascending.head_lt (h : Ascending (p :: l)) (hq : q ∈ l) : compare p.1 q.1 = .lt :=
  (List.pairwise_cons.mp h).1 q hq

theorem put_append_lt (hk : compare key a = .lt) : put key value (l ++ (a, b) :: r) = put key value l ++ (a, b) :: r := by
  induction l with
  | nil => simp [put, hk]
  | cons x l ih => cases hx : compare key x.1 <;> simp [put, hx, ih]

theorem put_of_lt (h : ∀ q ∈ l, compare key q.1 = .lt) : put key value l = (key, value) :: l := by
  cases l with
  | nil => rfl
  | cons x l => simp only [put, h x (by simp)]

theorem put_append_of_gt (hl : ∀ q ∈ l, compare key q.1 = .gt) (r : List (K × V)) :
    put key value (l ++ r) = l ++ put key value r := by
  induction l with
  | nil => rfl
  | cons x l ih =>
    simp only [List.cons_append, put, hl x (by simp)]
    rw [ih fun q hq => hl q (by simp [hq])]

theorem erase_append_lt (hk : compare key a = .lt) : erase key (l ++ (a, b) :: r) = erase key l ++ (a, b) :: r := by
  induction l with
  | nil => simp [erase, hk]
  | cons x l ih => cases hx : compare key x.1 <;> simp [erase, hx, ih]

theorem erase_append_of_gt (hl : ∀ q ∈ l, compare key q.1 = .gt) (r : List (K × V)) :
    erase key (l ++ r) = l ++ erase key r := by
  induction l with
  | nil => rfl
  | cons x l ih =>
    simp only [List.cons_append, erase, hl x (by simp)]
    rw [ih fun q hq => hl q (by simp [hq])]

theorem entryAt_append_of_gt (hl : ∀ q ∈ l, compare key q.1 = .gt) : entryAt key (l ++ r) = entryAt key r := by
  have hnone : entryAt key l = none := List.find?_eq_none.mpr fun q hq => by simp [hl q hq]
  simp only [entryAt] at hnone ⊢
  rw [List.find?_append, hnone, Option.none_or]

theorem erase_sublist (key : K) (l : List (K × V)) : (erase key l).Sublist l := by
  induction l with
  | nil => exact .slnil
  | cons x l ih =>
    cases hx : compare key x.1 with
    | lt => simp [erase, hx]
    | eq => simp [erase, hx]
    | gt => simpa [erase, hx] using ih

theorem ascending_erase (h : Ascending l) : Ascending (erase key l) := h.sublist (erase_sublist key l)

theorem ascending_filter (h : Ascending l) (f : K × V → Bool) : Ascending (l.filter f) := h.sublist List.filter_sublist

theorem ascending_map (h : Ascending l) (f : V → W) : Ascending (l.map fun p => (p.1, f p.2)) := by
  simpa [Ascending, List.pairwise_map] using h

theorem entryAt_map (f : V → W) (k : K) :
    entryAt k (l.map fun p => (p.1, f p.2)) = (entryAt k l).map fun p => (p.1, f p.2) := by
  simp only [entryAt, List.find?_map]
  rfl

theorem length_put (key : K) (value : V) (l : List (K × V)) :
    (put key value l).length = l.length ∨ (put key value l).length = l.length + 1 := by
  induction l with
  | nil => simp [put]
  | cons x l ih => cases hx : compare key x.1 <;> simp [put, hx, ih]

theorem length_erase (key : K) (l : List (K × V)) :
    (erase key l).length = l.length ∨ (erase key l).length + 1 = l.length := by
  induction l with
  | nil => simp [erase]
  | cons x l ih => cases hx : compare key x.1 <;> simp [erase, hx, ih]

theorem sort_perm (l : List (K × V)) : (sort l).Perm l := List.perm_insertionSort _ l

/-! ## Order -/

variable [Std.TransOrd K]

theorem lt_of_gt {a b : K} (h : compare a b = .gt) : compare b a = .lt := Std.OrientedCmp.lt_of_gt h

theorem ascending_append : Ascending (l ++ p :: r) ↔
    Ascending l ∧ Ascending r ∧ (∀ q ∈ l, compare q.1 p.1 = .lt) ∧ ∀ q ∈ r, compare p.1 q.1 = .lt := by
  simp only [Ascending, List.pairwise_append, List.pairwise_cons]
  constructor
  · rintro ⟨hl, ⟨hp, hr⟩, hlr⟩
    exact ⟨hl, hr, fun q hq => hlr q hq p (by simp), hp⟩
  · rintro ⟨hl, hr, hlp, hp⟩
    refine ⟨hl, ⟨hp, hr⟩, fun q hq q' hq' => ?_⟩
    cases hq' with
    | head => exact hlp q hq
    | tail _ hq' => exact Std.TransCmp.lt_trans (hlp q hq) (hp q' hq')

/-- An ascending list has one entry for a key. -/
theorem Ascending.eq_of_eq (h : Ascending l) (hp : p ∈ l) (hq : q ∈ l) (he : compare p.1 q.1 = .eq) : p = q := by
  induction l with
  | nil => cases hp
  | cons x l ih =>
    cases hp with
    | head =>
      cases hq with
      | head => rfl
      | tail _ hq => simp [h.head_lt hq] at he
    | tail _ hp =>
      cases hq with
      | head =>
        have hlt := h.head_lt hp
        simp [Std.OrientedCmp.eq_symm he] at hlt
      | tail _ hq => exact ih h.tail hp hq

theorem Ascending.nodup_keys (h : Ascending l) : (l.map Prod.fst).Nodup := by
  rw [List.Nodup, List.pairwise_map]
  refine h.imp fun {p q} hlt heq => ?_
  rw [heq, Std.ReflOrd.compare_self] at hlt
  cases hlt

/-- The order of an ascending list is a function of its entries. -/
theorem Ascending.eq_of_perm (hx : Ascending xs) (hy : Ascending ys) (h : xs.Perm ys) : xs = ys := by
  apply List.Perm.eq_of_pairwise _ hx hy h
  intro p q _ _ hpq hqp
  have hgt := Std.OrientedCmp.gt_of_lt hpq
  rw [hqp] at hgt
  cases hgt

theorem sort_pairwise (l : List (K × V)) : (sort l).Pairwise fun p q => (compare p.1 q.1).isLE := by
  have : Std.Total fun p q : K × V => ((compare p.1 q.1).isLE : Prop) := by
    constructor
    intro p q
    cases hcompare : compare p.1 q.1 with
    | lt => exact .inl rfl
    | eq => exact .inl rfl
    | gt =>
      rw [Std.OrientedCmp.lt_of_gt hcompare]
      exact .inr rfl
  have : IsTrans (K × V) fun p q => (compare p.1 q.1).isLE := ⟨fun _ _ _ => Std.TransCmp.isLE_trans⟩
  exact List.pairwise_insertionSort _ l

theorem entryAt_eq_some (h : Ascending l) : entryAt key l = some p ↔ p ∈ l ∧ compare key p.1 = .eq := by
  constructor
  · intro hp
    exact ⟨List.mem_of_find?_eq_some hp, by simpa using List.find?_some hp⟩
  · rintro ⟨hp, hk⟩
    cases hq : entryAt key l with
    | none => simpa [hk] using List.find?_eq_none.mp hq p hp
    | some q =>
      have hkq : compare key q.1 = .eq := by simpa using List.find?_some hq
      have hqp : compare q.1 p.1 = .eq := Std.TransCmp.eq_trans (Std.OrientedCmp.eq_symm hkq) hk
      rw [h.eq_of_eq (List.mem_of_find?_eq_some hq) hp hqp]

/-- An ascending list is known by its entries. -/
theorem entryAt_congr {f : K × V → Prop} (h : Ascending l) (hf : ∀ p, p ∈ l ↔ f p) {o : Option (K × V)}
    (ho : ∀ p, o = some p ↔ f p ∧ compare key p.1 = .eq) : entryAt key l = o := by
  apply Option.ext
  intro p
  rw [entryAt_eq_some h, hf, ho]

/-! ## Around a pair -/

theorem gt_of_gt_of_lt {a b c : K} (hab : compare a b = .gt) (hcb : compare c b = .lt) : compare a c = .gt :=
  Std.TransCmp.gt_trans hab (Std.OrientedCmp.gt_of_lt hcb)

theorem gt_of_eq_of_lt {a b c : K} (hab : compare a b = .eq) (hcb : compare c b = .lt) : compare a c = .gt :=
  Std.TransCmp.gt_of_eq_of_gt hab (Std.OrientedCmp.gt_of_lt hcb)

theorem put_append_gt (hl : ∀ q ∈ l, compare q.1 a = .lt) (hk : compare key a = .gt) :
    put key value (l ++ (a, b) :: r) = l ++ (a, b) :: put key value r := by
  rw [put_append_of_gt fun q hq => gt_of_gt_of_lt hk (hl q hq)]
  simp [put, hk]

theorem put_append_eq (hl : ∀ q ∈ l, compare q.1 a = .lt) (hk : compare key a = .eq) :
    put key value (l ++ (a, b) :: r) = l ++ (key, value) :: r := by
  rw [put_append_of_gt fun q hq => gt_of_eq_of_lt hk (hl q hq)]
  simp [put, hk]

theorem erase_append_gt (hl : ∀ q ∈ l, compare q.1 a = .lt) (hk : compare key a = .gt) :
    erase key (l ++ (a, b) :: r) = l ++ (a, b) :: erase key r := by
  rw [erase_append_of_gt fun q hq => gt_of_gt_of_lt hk (hl q hq)]
  simp [erase, hk]

theorem erase_append_eq (hl : ∀ q ∈ l, compare q.1 a = .lt) (hk : compare key a = .eq) :
    erase key (l ++ (a, b) :: r) = l ++ r := by
  rw [erase_append_of_gt fun q hq => gt_of_eq_of_lt hk (hl q hq)]
  simp [erase, hk]

theorem entryAt_append_lt (hr : ∀ q ∈ r, compare a q.1 = .lt) (hk : compare key a = .lt) :
    entryAt key (l ++ (a, b) :: r) = entryAt key l := by
  have hnone : entryAt key ((a, b) :: r) = none := by
    apply List.find?_eq_none.mpr
    intro q hq
    cases hq with
    | head => simp [hk]
    | tail _ hq => simp [Std.TransCmp.lt_trans hk (hr q hq)]
  simp only [entryAt] at hnone ⊢
  rw [List.find?_append, hnone, Option.or_none]

theorem entryAt_append_gt (hl : ∀ q ∈ l, compare q.1 a = .lt) (hk : compare key a = .gt) :
    entryAt key (l ++ (a, b) :: r) = entryAt key r := by
  rw [entryAt_append_of_gt fun q hq => gt_of_gt_of_lt hk (hl q hq)]
  simp [entryAt, hk]

theorem entryAt_append_eq (hl : ∀ q ∈ l, compare q.1 a = .lt) (hk : compare key a = .eq) :
    entryAt key (l ++ (a, b) :: r) = some (a, b) := by
  rw [entryAt_append_of_gt fun q hq => gt_of_eq_of_lt hk (hl q hq)]
  simp [entryAt, hk]

/-! ## What is in the lists -/

theorem mem_put (h : Ascending l) : p ∈ put key value l ↔ p = (key, value) ∨ p ∈ l ∧ compare key p.1 ≠ .eq := by
  induction l with
  | nil => simp [put]
  | cons x l ih =>
    have hlt : ∀ q ∈ l, compare x.1 q.1 = .lt := fun q hq => h.head_lt hq
    cases hx : compare key x.1 with
    | lt =>
      have hne : ∀ q ∈ x :: l, compare key q.1 ≠ .eq := by
        intro q hq
        cases hq with
        | head => simp [hx]
        | tail _ hq => simp [Std.TransCmp.lt_trans hx (hlt q hq)]
      simp only [put, hx, List.mem_cons (a := p) (b := (key, value))]
      constructor
      · exact fun hp => hp.imp_right fun hp => ⟨hp, hne p hp⟩
      · exact fun hp => hp.imp_right And.left
    | eq =>
      have hne : ∀ q ∈ l, compare key q.1 ≠ .eq := fun q hq => by simp [Std.TransCmp.lt_of_eq_of_lt hx (hlt q hq)]
      simp only [put, hx, List.mem_cons]
      constructor
      · exact fun hp => hp.imp_right fun hp => ⟨Or.inr hp, hne p hp⟩
      · rintro (hp | ⟨rfl | hp, hk⟩)
        · exact Or.inl hp
        · exact absurd hx hk
        · exact Or.inr hp
    | gt =>
      simp only [put, hx, List.mem_cons, ih h.tail]
      constructor
      · rintro (rfl | hp | ⟨hp, hk⟩)
        · exact Or.inr ⟨Or.inl rfl, by simp [hx]⟩
        · exact Or.inl hp
        · exact Or.inr ⟨Or.inr hp, hk⟩
      · rintro (hp | ⟨rfl | hp, hk⟩)
        · exact Or.inr (Or.inl hp)
        · exact Or.inl rfl
        · exact Or.inr (Or.inr ⟨hp, hk⟩)

theorem mem_erase (h : Ascending l) : p ∈ erase key l ↔ p ∈ l ∧ compare key p.1 ≠ .eq := by
  induction l with
  | nil => simp [erase]
  | cons x l ih =>
    have hlt : ∀ q ∈ l, compare x.1 q.1 = .lt := fun q hq => h.head_lt hq
    cases hx : compare key x.1 with
    | lt =>
      simp only [erase, hx]
      refine ⟨fun hp => ⟨hp, ?_⟩, And.left⟩
      cases hp with
      | head => simp [hx]
      | tail _ hp => simp [Std.TransCmp.lt_trans hx (hlt p hp)]
    | eq =>
      simp only [erase, hx, List.mem_cons]
      constructor
      · exact fun hp => ⟨Or.inr hp, by simp [Std.TransCmp.lt_of_eq_of_lt hx (hlt p hp)]⟩
      · rintro ⟨rfl | hp, hk⟩
        · exact absurd hx hk
        · exact hp
    | gt =>
      simp only [erase, hx, List.mem_cons, ih h.tail]
      constructor
      · rintro (rfl | ⟨hp, hk⟩)
        · exact ⟨Or.inl rfl, by simp [hx]⟩
        · exact ⟨Or.inr hp, hk⟩
      · rintro ⟨rfl | hp, hk⟩
        · exact Or.inl rfl
        · exact Or.inr ⟨hp, hk⟩

theorem ascending_put (h : Ascending l) : Ascending (put key value l) := by
  induction l with
  | nil => simp [put, Ascending]
  | cons x l ih =>
    have hlt : ∀ q ∈ l, compare x.1 q.1 = .lt := fun q hq => h.head_lt hq
    cases hx : compare key x.1 with
    | lt =>
      simp only [put, hx]
      refine List.pairwise_cons.mpr ⟨fun q hq => ?_, h⟩
      cases hq with
      | head => exact hx
      | tail _ hq => exact Std.TransCmp.lt_trans hx (hlt q hq)
    | eq =>
      simp only [put, hx]
      exact List.pairwise_cons.mpr ⟨fun q hq => Std.TransCmp.lt_of_eq_of_lt hx (hlt q hq), h.tail⟩
    | gt =>
      simp only [put, hx]
      refine List.pairwise_cons.mpr ⟨fun q hq => ?_, ih h.tail⟩
      obtain rfl | ⟨hq, -⟩ := (mem_put h.tail).mp hq
      · exact lt_of_gt hx
      · exact hlt q hq

theorem mem_merge (hx : Ascending xs) (hy : Ascending ys) :
    p ∈ merge xs ys ↔ p ∈ xs ∨ p ∈ ys ∧ ∀ q ∈ xs, compare p.1 q.1 ≠ .eq := by
  fun_induction merge xs ys with
  | case1 ys => simp
  | case2 x xs => simp
  | case3 x xs y ys hc ih =>
    have hne : ∀ q ∈ y :: ys, compare q.1 x.1 ≠ .eq := by
      intro q hq
      cases hq with
      | head => simp [Std.OrientedCmp.gt_of_lt hc]
      | tail _ hq => simp [Std.OrientedCmp.gt_of_lt (Std.TransCmp.lt_trans hc (hy.head_lt hq))]
    simp only [List.mem_cons (a := p), ih hx.tail hy, List.forall_mem_cons]
    rw [← List.mem_cons (a := p) (b := y)]
    constructor
    · rintro (hp | hp | ⟨hp, hk⟩)
      · exact Or.inl (Or.inl hp)
      · exact Or.inl (Or.inr hp)
      · exact Or.inr ⟨hp, hne p hp, hk⟩
    · rintro ((hp | hp) | ⟨hp, -, hk⟩)
      · exact Or.inl hp
      · exact Or.inr (Or.inl hp)
      · exact Or.inr (Or.inr ⟨hp, hk⟩)
  | case4 x xs y ys hc ih =>
    have hne : ∀ q ∈ x :: xs, compare y.1 q.1 ≠ .eq := by
      intro q hq
      cases hq with
      | head => simp [lt_of_gt hc]
      | tail _ hq => simp [Std.TransCmp.lt_trans (lt_of_gt hc) (hx.head_lt hq)]
    simp only [List.mem_cons (b := y), ih hx hy.tail]
    constructor
    · rintro (rfl | hp | ⟨hp, hk⟩)
      · exact Or.inr ⟨Or.inl rfl, hne⟩
      · exact Or.inl hp
      · exact Or.inr ⟨Or.inr hp, hk⟩
    · rintro (hp | ⟨hp | hp, hk⟩)
      · exact Or.inr (Or.inl hp)
      · exact Or.inl hp
      · exact Or.inr (Or.inr ⟨hp, hk⟩)
  | case5 x xs y ys hc ih =>
    have hne : ∀ q ∈ ys, compare q.1 x.1 ≠ .eq := fun q hq => by
      simp [Std.OrientedCmp.gt_of_lt (Std.TransCmp.lt_of_eq_of_lt hc (hy.head_lt hq))]
    simp only [List.mem_cons (a := p), ih hx.tail hy.tail, List.forall_mem_cons]
    constructor
    · rintro (hp | hp | ⟨hp, hk⟩)
      · exact Or.inl (Or.inl hp)
      · exact Or.inl (Or.inr hp)
      · exact Or.inr ⟨Or.inr hp, hne p hp, hk⟩
    · rintro ((hp | hp) | ⟨rfl | hp, hk, hk'⟩)
      · exact Or.inl hp
      · exact Or.inr (Or.inl hp)
      · exact absurd (Std.OrientedCmp.eq_symm hc) hk
      · exact Or.inr (Or.inr ⟨hp, hk'⟩)

theorem ascending_merge (hx : Ascending xs) (hy : Ascending ys) : Ascending (merge xs ys) := by
  fun_induction merge xs ys with
  | case1 ys => exact hy
  | case2 x xs => exact hx
  | case3 x xs y ys hc ih =>
    refine List.pairwise_cons.mpr ⟨fun q hq => ?_, ih hx.tail hy⟩
    obtain hq | ⟨hq, -⟩ := (mem_merge hx.tail hy).mp hq
    · exact hx.head_lt hq
    · cases hq with
      | head => exact hc
      | tail _ hq => exact Std.TransCmp.lt_trans hc (hy.head_lt hq)
  | case4 x xs y ys hc ih =>
    refine List.pairwise_cons.mpr ⟨fun q hq => ?_, ih hx hy.tail⟩
    obtain hq | ⟨hq, -⟩ := (mem_merge hx hy.tail).mp hq
    · cases hq with
      | head => exact lt_of_gt hc
      | tail _ hq => exact Std.TransCmp.lt_trans (lt_of_gt hc) (hx.head_lt hq)
    · exact hy.head_lt hq
  | case5 x xs y ys hc ih =>
    refine List.pairwise_cons.mpr ⟨fun q hq => ?_, ih hx.tail hy.tail⟩
    obtain hq | ⟨hq, -⟩ := (mem_merge hx.tail hy.tail).mp hq
    · exact hx.head_lt hq
    · exact Std.TransCmp.lt_of_eq_of_lt hc (hy.head_lt hq)

theorem length_merge (hx : Ascending xs) (hy : Ascending ys) :
    (merge xs ys).length = xs.length + (ys.filter fun p => (entryAt p.1 xs).isNone).length := by
  have hnodup : ∀ {zs : List (K × V)}, Ascending zs → zs.Nodup := fun h => h.imp fun hlt he => by
    rw [he, Std.ReflOrd.compare_self] at hlt
    cases hlt
  have hdisj : ∀ p ∈ xs, p ∉ ys.filter fun p => (entryAt p.1 xs).isNone := by
    intro p hp hf
    have hnone := (List.mem_filter.mp hf).2
    simp [(entryAt_eq_some hx).mpr ⟨hp, Std.ReflOrd.compare_self⟩] at hnone
  have hperm : (merge xs ys).Perm (xs ++ ys.filter fun p => (entryAt p.1 xs).isNone) := by
    refine (List.perm_ext_iff_of_nodup (hnodup (ascending_merge hx hy)) ?_).mpr fun p => ?_
    · exact List.nodup_append.mpr ⟨hnodup hx, (hnodup hy).filter _, fun p hp q hq he => hdisj p hp (he ▸ hq)⟩
    · simp [mem_merge hx hy, entryAt]
  rw [hperm.length_eq, List.length_append]

omit [Std.TransOrd K] in
/-- Lists one after the other. -/
theorem merge_append (h : ∀ p ∈ xs, ∀ q ∈ ys, compare p.1 q.1 = .lt) : merge xs ys = xs ++ ys := by
  induction xs with
  | nil => simp [merge]
  | cons x xs ih =>
    cases ys with
    | nil => simp [merge]
    | cons y ys =>
      have hxs := ih fun p hp => h p (by simp [hp])
      simp only [merge, h x (by simp) y (by simp), hxs, List.cons_append]

/-! ## What the lists have for a key -/

theorem entryAt_put (h : Ascending l) (k : K) :
    entryAt k (put key value l) = if compare k key = .eq then some (key, value) else entryAt k l := by
  apply entryAt_congr (ascending_put h) fun p => mem_put h
  intro p
  split
  · next hk =>
    constructor
    · rintro ⟨⟩
      exact ⟨Or.inl rfl, hk⟩
    · rintro ⟨rfl | ⟨-, hne⟩, hkp⟩
      · rfl
      · exact absurd (Std.TransCmp.eq_trans (Std.OrientedCmp.eq_symm hk) hkp) hne
  · next hk =>
    rw [entryAt_eq_some h]
    constructor
    · rintro ⟨hp, hkp⟩
      exact ⟨Or.inr ⟨hp, fun he => hk (Std.TransCmp.eq_trans hkp (Std.OrientedCmp.eq_symm he))⟩, hkp⟩
    · rintro ⟨rfl | ⟨hp, -⟩, hkp⟩
      · exact absurd hkp hk
      · exact ⟨hp, hkp⟩

theorem entryAt_erase (h : Ascending l) (k : K) :
    entryAt k (erase key l) = if compare k key = .eq then none else entryAt k l := by
  apply entryAt_congr (ascending_erase h) fun p => mem_erase h
  intro p
  split
  · next hk =>
    constructor
    · rintro ⟨⟩
    · rintro ⟨⟨-, hne⟩, hkp⟩
      exact absurd (Std.TransCmp.eq_trans (Std.OrientedCmp.eq_symm hk) hkp) hne
  · next hk =>
    rw [entryAt_eq_some h]
    constructor
    · rintro ⟨hp, hkp⟩
      exact ⟨⟨hp, fun he => hk (Std.TransCmp.eq_trans hkp (Std.OrientedCmp.eq_symm he))⟩, hkp⟩
    · rintro ⟨⟨hp, -⟩, hkp⟩
      exact ⟨hp, hkp⟩

theorem entryAt_filter (h : Ascending l) (f : K × V → Bool) (k : K) :
    entryAt k (l.filter f) = (entryAt k l).filter f := by
  apply entryAt_congr (ascending_filter h f) fun p => List.mem_filter
  intro p
  rw [Option.filter_eq_some_iff, entryAt_eq_some h]
  exact and_right_comm

theorem entryAt_merge (hx : Ascending xs) (hy : Ascending ys) (k : K) :
    entryAt k (merge xs ys) = (entryAt k xs).or (entryAt k ys) := by
  apply entryAt_congr (ascending_merge hx hy) fun p => mem_merge hx hy
  intro p
  cases hq : entryAt k xs with
  | some q =>
    obtain ⟨hqx, hkq⟩ := (entryAt_eq_some hx).mp hq
    simp only [Option.some_or, Option.some.injEq]
    constructor
    · rintro rfl
      exact ⟨Or.inl hqx, hkq⟩
    · rintro ⟨hp | ⟨-, hne⟩, hkp⟩
      · exact hx.eq_of_eq hqx hp (Std.TransCmp.eq_trans (Std.OrientedCmp.eq_symm hkq) hkp)
      · exact absurd (Std.TransCmp.eq_trans (Std.OrientedCmp.eq_symm hkp) hkq) (hne q hqx)
  | none =>
    have hnone : ∀ q ∈ xs, compare k q.1 ≠ .eq := by simpa [entryAt] using hq
    rw [Option.none_or, entryAt_eq_some hy]
    constructor
    · rintro ⟨hp, hkp⟩
      exact ⟨Or.inr ⟨hp, fun q hqx he => hnone q hqx (Std.TransCmp.eq_trans hkp he)⟩, hkp⟩
    · rintro ⟨hp | ⟨hp, -⟩, hkp⟩
      · exact absurd hkp (hnone p hp)
      · exact ⟨hp, hkp⟩

end
end Assoc
