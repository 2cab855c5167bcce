import Mathlib.Logic.Function.Basic
import Mathlib.Order.Lattice
import Mathlib.Order.Nat

/-!
# Arrays whose elements know their position, and binary heaps in them

An array with a table of the position of each of its elements, so that an element can be taken out of the
middle. The heap operations move a hole through the array and write the element when its place is found.
-/

structure IndexedArray (α : Type) where
  len : Nat
  items : Nat → α
  index : α → Nat

namespace IndexedArray

variable {α κ : Type} [DecidableEq α] {h : IndexedArray α} {a b : α} {i j n : Nat}

def parent (i : Nat) : Nat := (i - 1) / 2

def set (h : IndexedArray α) (i : Nat) (a : α) : IndexedArray α :=
  { h with items := Function.update h.items i a, index := Function.update h.index a i }

def push (h : IndexedArray α) (a : α) : IndexedArray α := { h.set h.len a with len := h.len + 1 }

/-- Moves the hole at `i` towards the root, for the element `a` that goes into it. -/
def upFrom (before : α → α → Bool) (a : α) : Nat → Nat → IndexedArray α → IndexedArray α
  | 0, i, h => h.set i a
  | n + 1, i, h =>
      if 0 < i ∧ before a (h.items (parent i)) then upFrom before a n (parent i) (h.set i (h.items (parent i)))
      else h.set i a

def up (before : α → α → Bool) (i : Nat) (h : IndexedArray α) : IndexedArray α :=
  upFrom before (h.items i) i i h

/-- The child of `i` that comes first. -/
def child (before : α → α → Bool) (i : Nat) (h : IndexedArray α) : Nat :=
  if 2 * i + 2 < h.len ∧ before (h.items (2 * i + 2)) (h.items (2 * i + 1)) then 2 * i + 2 else 2 * i + 1

/-- Moves the hole at `i` towards the leaves, for the element `a` that goes into it. -/
def downFrom (before : α → α → Bool) (a : α) : Nat → Nat → IndexedArray α → IndexedArray α
  | 0, i, h => h.set i a
  | n + 1, i, h =>
      if 2 * i + 1 < h.len ∧ before (h.items (child before i h)) a then
        downFrom before a n (child before i h) (h.set i (h.items (child before i h)))
      else h.set i a

def down (before : α → α → Bool) (i : Nat) (h : IndexedArray α) : IndexedArray α :=
  downFrom before (h.items i) h.len i h

/-- Takes the element at `i` out of a heap: the last element takes its place, and moves down or up. -/
def removeAt (before : α → α → Bool) (i : Nat) (h : IndexedArray α) : IndexedArray α :=
  let last := h.items (h.len - 1)
  let h := { h with len := h.len - 1 }
  if i < h.len then
    let h := (h.set i last).down before i
    h.up before (h.index last)
  else h

/-- Moves the `n` elements after `i` one place to the front. -/
def shift : Nat → Nat → IndexedArray α → IndexedArray α
  | 0, _, h => h
  | n + 1, i, h => shift n (i + 1) (h.set i (h.items (i + 1)))

/-- Takes the element at `i` out, and keeps the order of the others. -/
def dropAt (i : Nat) (h : IndexedArray α) : IndexedArray α :=
  { shift (h.len - 1 - i) i h with len := h.len - 1 }

def Mem (h : IndexedArray α) (a : α) : Prop := ∃ i < h.len, h.items i = a

/-- The table gives each element's position. -/
def Indexed (h : IndexedArray α) : Prop := ∀ i < h.len, h.index (h.items i) = i

/-- No element comes before the one above it. -/
def Ordered [LE κ] (key : α → κ) (h : IndexedArray α) : Prop :=
  ∀ i < h.len, 0 < i → key (h.items (parent i)) ≤ key (h.items i)

/-! ## Writing one place -/

@[simp] theorem set_len : (h.set i a).len = h.len := rfl

@[simp] theorem set_items_self : (h.set i a).items i = a := by
  simp [set]

theorem set_items_of_ne (hj : j ≠ i) : (h.set i a).items j = h.items j := by
  simp [set, hj]

@[simp] theorem set_index_self : (h.set i a).index a = i := by
  simp [set]

theorem set_index_of_ne (hb : b ≠ a) : (h.set i a).index b = h.index b := by
  simp [set, hb]

theorem parent_lt (h : 0 < i) : parent i < i := by
  unfold parent
  omega

omit [DecidableEq α] in
theorem Indexed.inj (hh : h.Indexed) (hi : i < h.len) (hj : j < h.len) (he : h.items i = h.items j) : i = j := by
  rw [← hh i hi, he, hh j hj]

omit [DecidableEq α] in
theorem Indexed.items_index (hh : h.Indexed) (ha : h.Mem a) : h.index a < h.len ∧ h.items (h.index a) = a := by
  obtain ⟨i, hi, rfl⟩ := ha
  rw [hh i hi]
  exact ⟨hi, rfl⟩

/-! ## The hole -/

/-- The elements outside the hole at `i` have their positions, and `a` is not one of them. -/
structure Around (h : IndexedArray α) (i : Nat) (a : α) : Prop where
  lt : i < h.len
  indexed : ∀ j < h.len, j ≠ i → h.index (h.items j) = j
  new : ∀ j < h.len, j ≠ i → h.items j ≠ a

/-- The elements of the array once `a` is in the hole at `i`. -/
def MemAround (h : IndexedArray α) (i : Nat) (a b : α) : Prop := b = a ∨ ∃ j < h.len, j ≠ i ∧ h.items j = b

theorem Around.move (ha : h.Around i a) (hj : j < h.len) (hne : j ≠ i) : (h.set i (h.items j)).Around j a := by
  have hij : i ≠ j := hne.symm
  have apart : ∀ k < h.len, k ≠ i → k ≠ j → h.items k ≠ h.items j := fun k hk hki hkj he =>
    hkj (by rw [← ha.indexed k hk hki, he, ha.indexed j hj hne])
  refine ⟨hj, fun k hk hkj => ?_, fun k hk hkj => ?_⟩
  · by_cases hki : k = i
    · subst hki
      simp
    · rw [set_items_of_ne hki, set_index_of_ne (apart k hk hki hkj)]
      exact ha.indexed k hk hki
  · by_cases hki : k = i
    · subst hki
      simpa using ha.new j hj hne
    · rw [set_items_of_ne hki]
      exact ha.new k hk hki

theorem memAround_move (hi : i < h.len) (hj : j < h.len) (hne : j ≠ i) :
    (h.set i (h.items j)).MemAround j a b ↔ h.MemAround i a b := by
  refine or_congr_right ⟨?_, ?_⟩
  · rintro ⟨k, hk, hkj, rfl⟩
    by_cases hki : k = i
    · subst hki
      exact ⟨j, hj, hne, by simp⟩
    · exact ⟨k, hk, hki, by rw [set_items_of_ne hki]⟩
  · rintro ⟨k, hk, hki, rfl⟩
    by_cases hkj : k = j
    · subst hkj
      exact ⟨i, hi, hne.symm, by simp⟩
    · exact ⟨k, hk, hkj, by rw [set_items_of_ne hki]⟩

theorem Around.set (ha : h.Around i a) : (h.set i a).Indexed := by
  intro j hj
  by_cases hji : j = i
  · subst hji
    simp
  · rw [set_items_of_ne hji, set_index_of_ne (ha.new j hj hji)]
    exact ha.indexed j hj hji

theorem mem_set (hi : i < h.len) : (h.set i a).Mem b ↔ h.MemAround i a b := by
  constructor
  · rintro ⟨j, hj, rfl⟩
    by_cases hji : j = i
    · subst hji
      exact .inl (by simp)
    · exact .inr ⟨j, hj, hji, by rw [set_items_of_ne hji]⟩
  · rintro (rfl | ⟨j, hj, hji, rfl⟩)
    · exact ⟨i, hi, by simp⟩
    · exact ⟨j, hj, by rw [set_items_of_ne hji]⟩

omit [DecidableEq α] in
theorem Indexed.around (hh : h.Indexed) (hi : i < h.len) : h.Around i (h.items i) where
  lt := hi
  indexed j hj _ := hh j hj
  new _ hj hji he := hji (hh.inj hj hi he)

omit [DecidableEq α] in
theorem Indexed.memAround (hi : i < h.len) : h.MemAround i (h.items i) b ↔ h.Mem b := by
  constructor
  · rintro (rfl | ⟨j, hj, _, rfl⟩)
    · exact ⟨i, hi, rfl⟩
    · exact ⟨j, hj, rfl⟩
  · rintro ⟨j, hj, rfl⟩
    by_cases hji : j = i
    · exact .inl (by rw [hji])
    · exact .inr ⟨j, hj, hji, rfl⟩

/-! ## An element at the end -/

@[simp] theorem push_len : (h.push a).len = h.len + 1 := rfl

@[simp] theorem push_items_len : (h.push a).items h.len = a := set_items_self

theorem push_items_of_ne (hj : j ≠ h.len) : (h.push a).items j = h.items j := set_items_of_ne hj

theorem Indexed.push (hh : h.Indexed) (ha : ¬ h.Mem a) :
    (h.push a).Indexed ∧ ∀ b, (h.push a).Mem b ↔ b = a ∨ h.Mem b := by
  have low : ∀ j < (h.push a).len, j ≠ h.len → j < h.len := fun j hj hne => by
    simp only [push_len] at hj
    omega
  refine ⟨fun j hj => ?_, fun b => ⟨?_, ?_⟩⟩
  · by_cases hjl : j = h.len
    · rw [hjl, push_items_len]
      exact set_index_self
    · rw [push_items_of_ne hjl]
      have hne : h.items j ≠ a := fun he => ha ⟨j, low j hj hjl, he⟩
      exact (set_index_of_ne hne).trans (hh j (low j hj hjl))
  · rintro ⟨j, hj, rfl⟩
    by_cases hjl : j = h.len
    · exact .inl (by rw [hjl, push_items_len])
    · exact .inr ⟨j, low j hj hjl, (push_items_of_ne hjl).symm⟩
  · rintro (rfl | ⟨j, hj, rfl⟩)
    · exact ⟨h.len, Nat.lt_succ_self _, push_items_len⟩
    · exact ⟨j, Nat.lt_succ_of_lt hj, push_items_of_ne hj.ne⟩

/-! ## The order around the hole -/

section
variable [LinearOrder κ] {key : α → κ} {before : α → α → Bool}

/-- The order of the elements outside the hole at `i`, and of those below the hole and above it. -/
structure OrderedAround (key : α → κ) (h : IndexedArray α) (i : Nat) : Prop where
  outside : ∀ j < h.len, 0 < j → j ≠ i → parent j ≠ i → key (h.items (parent j)) ≤ key (h.items j)
  across : ∀ j < h.len, 0 < j → 0 < i → parent j = i → key (h.items (parent i)) ≤ key (h.items j)

/-- The element `a` may stand above what is below the hole. -/
def Above (key : α → κ) (h : IndexedArray α) (i : Nat) (a : α) : Prop :=
  ∀ j < h.len, 0 < j → parent j = i → key a ≤ key (h.items j)

theorem OrderedAround.set (ho : h.OrderedAround key i) (ha : h.Above key i a)
    (hp : 0 < i → key (h.items (parent i)) ≤ key a) : (h.set i a).Ordered key := by
  intro j hj hj0
  by_cases hji : j = i
  · subst hji
    rw [set_items_self, set_items_of_ne (parent_lt hj0).ne]
    exact hp hj0
  · rw [set_items_of_ne hji]
    by_cases hpi : parent j = i
    · rw [hpi, set_items_self]
      exact ha j hj hj0 hpi
    · rw [set_items_of_ne hpi]
      exact ho.outside j hj hj0 hji hpi

omit [DecidableEq α] in
theorem OrderedAround.congr (ho : h.OrderedAround key i) {h' : IndexedArray α} (hl : h'.len = h.len)
    (hi : ∀ j, j ≠ i → h'.items j = h.items j) : h'.OrderedAround key i where
  outside j hj hj0 hji hpi := by
    rw [hi _ hpi, hi _ hji]
    exact ho.outside j (hl ▸ hj) hj0 hji hpi
  across j hj hj0 hi0 hpi := by
    have hji : j ≠ i := by
      have := parent_lt hj0
      omega
    rw [hi _ (parent_lt hi0).ne, hi _ hji]
    exact ho.across j (hl ▸ hj) hj0 hi0 hpi

omit [DecidableEq α] in
theorem Ordered.around (ho : h.Ordered key) : h.OrderedAround key i where
  outside j hj hj0 _ _ := ho j hj hj0
  across j hj hj0 hi0 hpi := by
    have hij : i < j := hpi ▸ parent_lt hj0
    calc key (h.items (parent i)) ≤ key (h.items i) := ho i (hij.trans hj) hi0
      _ = key (h.items (parent j)) := by rw [hpi]
      _ ≤ key (h.items j) := ho j hj hj0

/-! ## Moving up -/

theorem OrderedAround.up (ho : h.OrderedAround key i) (hi : i < h.len) (hi0 : 0 < i) :
    (h.set i (h.items (parent i))).OrderedAround key (parent i) := by
  have hp := parent_lt hi0
  refine ⟨fun j hj hj0 hjp hpp => ?_, fun j hj hj0 hp0 hpj => ?_⟩
  · have hji : j ≠ i := fun he => hpp (by rw [he])
    rw [set_items_of_ne hji]
    by_cases hpi : parent j = i
    · rw [hpi, set_items_self]
      exact ho.across j hj hj0 hi0 hpi
    · rw [set_items_of_ne hpi]
      exact ho.outside j hj hj0 hji hpi
  · have hpp := parent_lt hp0
    have root : key (h.items (parent (parent i))) ≤ key (h.items (parent i)) :=
      ho.outside (parent i) (hp.trans hi) hp0 hp.ne (by omega)
    rw [set_items_of_ne (show parent (parent i) ≠ i by omega)]
    by_cases hji : j = i
    · rw [hji, set_items_self]
      exact root
    · rw [set_items_of_ne hji]
      calc key (h.items (parent (parent i))) ≤ key (h.items (parent i)) := root
        _ = key (h.items (parent j)) := by rw [hpj]
        _ ≤ key (h.items j) := ho.outside j hj hj0 hji (by omega)

theorem OrderedAround.above_up (ho : h.OrderedAround key i) (ha : key a < key (h.items (parent i))) (hi0 : 0 < i) :
    (h.set i (h.items (parent i))).Above key (parent i) a := by
  intro j hj hj0 hpj
  by_cases hji : j = i
  · rw [hji, set_items_self]
    exact ha.le
  · rw [set_items_of_ne hji]
    have hp := parent_lt hi0
    calc key a ≤ key (h.items (parent i)) := ha.le
      _ = key (h.items (parent j)) := by rw [hpj]
      _ ≤ key (h.items j) := ho.outside j hj hj0 hji (by omega)

/-- What a heap operation that fills the hole at `i` with `a` leaves. -/
structure Filled (key : α → κ) (h : IndexedArray α) (i : Nat) (a : α) (h' : IndexedArray α) : Prop where
  len : h'.len = h.len
  indexed : h'.Indexed
  mem : ∀ b, h'.Mem b ↔ h.MemAround i a b
  ordered : h'.Ordered key

theorem upFrom_filled (hb : ∀ a b, before a b ↔ key a < key b) (hn : i ≤ n) (ha : h.Around i a)
    (ho : h.OrderedAround key i) (hab : h.Above key i a) : Filled key h i a (upFrom before a n i h) := by
  induction n generalizing i h with
  | zero =>
    have hi : ¬ 0 < i := by omega
    exact ⟨rfl, ha.set, fun _ => mem_set ha.lt, ho.set hab fun h0 => absurd h0 hi⟩
  | succ n ih =>
    rw [upFrom]
    split
    · next hc =>
      obtain ⟨hi0, hlt⟩ := hc
      have hp := parent_lt hi0
      have hpl := hp.trans ha.lt
      have next := ih (i := parent i) (h := h.set i (h.items (parent i))) (by omega) (ha.move hpl hp.ne)
        (ho.up ha.lt hi0) (ho.above_up ((hb _ _).1 hlt) hi0)
      exact ⟨next.len, next.indexed, fun b => (next.mem b).trans (memAround_move ha.lt hpl hp.ne), next.ordered⟩
    · next hc =>
      refine ⟨rfl, ha.set, fun _ => mem_set ha.lt, ho.set hab fun hi0 => ?_⟩
      exact not_lt.1 fun hlt => hc ⟨hi0, (hb _ _).2 hlt⟩

theorem up_filled (hb : ∀ a b, before a b ↔ key a < key b) (hh : h.Indexed) (hi : i < h.len)
    (ho : h.OrderedAround key i) (hab : h.Above key i (h.items i)) :
    Filled key h i (h.items i) (h.up before i) :=
  upFrom_filled hb le_rfl (hh.around hi) ho hab

/-! ## Moving down -/

omit [DecidableEq α] in
theorem child_cases : child before i h = 2 * i + 1 ∨ child before i h = 2 * i + 2 := by
  unfold child
  split <;> simp

omit [DecidableEq α] in
theorem parent_child : parent (child before i h) = i := by
  unfold parent
  rcases (child_cases : child before i h = 2 * i + 1 ∨ child before i h = 2 * i + 2) with hc | hc <;> rw [hc] <;> omega

omit [DecidableEq α] in
theorem lt_child : i < child before i h := by
  rcases (child_cases : child before i h = 2 * i + 1 ∨ child before i h = 2 * i + 2) with hc | hc <;> omega

omit [DecidableEq α] in
theorem child_lt_len (hl : 2 * i + 1 < h.len) : child before i h < h.len := by
  unfold child
  split
  · next hc => exact hc.1
  · exact hl

omit [DecidableEq α] in
theorem child_le (hb : ∀ a b, before a b ↔ key a < key b) (hj : j < h.len) (hj0 : 0 < j) (hp : parent j = i) :
    key (h.items (child before i h)) ≤ key (h.items j) := by
  have hji : j = 2 * i + 1 ∨ j = 2 * i + 2 := by
    unfold parent at hp
    omega
  unfold child
  split
  · next hc =>
    rcases hji with rfl | rfl
    · exact ((hb _ _).1 hc.2).le
    · exact le_rfl
  · next hc =>
    rcases hji with rfl | rfl
    · exact le_rfl
    · exact not_lt.1 fun hlt => hc ⟨hj, (hb _ _).2 hlt⟩

theorem OrderedAround.down (hb : ∀ a b, before a b ↔ key a < key b) (ho : h.OrderedAround key i)
    (hl : 2 * i + 1 < h.len) :
    (h.set i (h.items (child before i h))).OrderedAround key (child before i h) := by
  have hc : child before i h < h.len := child_lt_len hl
  have hic : i < child before i h := lt_child
  have hpc : parent (child before i h) = i := parent_child
  refine ⟨fun j hj hj0 hjc hpj => ?_, fun j hj hj0 _ hpj => ?_⟩
  · by_cases hji : j = i
    · subst hji
      rw [set_items_self, set_items_of_ne (parent_lt hj0).ne]
      exact ho.across _ hc (by omega) hj0 hpc
    · rw [set_items_of_ne hji]
      by_cases hpi : parent j = i
      · rw [hpi, set_items_self]
        exact child_le hb hj hj0 hpi
      · rw [set_items_of_ne hpi]
        exact ho.outside j hj hj0 hji hpi
  · have hcj : child before i h < j := hpj ▸ parent_lt hj0
    rw [hpc, set_items_self, set_items_of_ne (show j ≠ i by omega)]
    calc key (h.items (child before i h)) = key (h.items (parent j)) := by rw [hpj]
      _ ≤ key (h.items j) := ho.outside j hj hj0 (by omega) (by omega)

/-- What moving down leaves: `a` stands at `j`, and may still have to move up. -/
structure Lowered (key : α → κ) (h : IndexedArray α) (i : Nat) (a : α) (h' : IndexedArray α) (j : Nat) : Prop where
  lt : j < h.len
  items : h'.items j = a
  len : h'.len = h.len
  indexed : h'.Indexed
  mem : ∀ b, h'.Mem b ↔ h.MemAround i a b
  ordered : h'.OrderedAround key j
  above : h'.Above key j a

theorem lowered_set (ha : h.Around i a) (ho : h.OrderedAround key i) (hab : h.Above key i a) :
    Lowered key h i a (h.set i a) i where
  lt := ha.lt
  items := set_items_self
  len := rfl
  indexed := ha.set
  mem _ := mem_set ha.lt
  ordered := ho.congr rfl fun _ hj => set_items_of_ne hj
  above j hj hj0 hp := by
    have hij : i < j := hp ▸ parent_lt hj0
    rw [set_items_of_ne hij.ne']
    exact hab j hj hj0 hp

theorem downFrom_lowered (hb : ∀ a b, before a b ↔ key a < key b) (hn : h.len ≤ n + i) (ha : h.Around i a)
    (ho : h.OrderedAround key i) : ∃ j, Lowered key h i a (downFrom before a n i h) j := by
  induction n generalizing i h with
  | zero =>
    have := ha.lt
    omega
  | succ n ih =>
    rw [downFrom]
    split
    · next hc =>
      have hcl : child before i h < h.len := child_lt_len hc.1
      have hic : i < child before i h := lt_child
      obtain ⟨j, next⟩ := ih (i := child before i h) (h := h.set i (h.items (child before i h)))
        (by simp only [set_len]; omega) (ha.move hcl hic.ne') (ho.down hb hc.1)
      exact ⟨j, next.lt, next.items, next.len, next.indexed,
        fun b => (next.mem b).trans (memAround_move ha.lt hcl hic.ne'), next.ordered, next.above⟩
    · next hc =>
      refine ⟨i, lowered_set ha ho fun j hj hj0 hp => ?_⟩
      have hl : 2 * i + 1 < h.len := by
        unfold parent at hp
        omega
      have hnot : ¬ before (h.items (child before i h)) a := fun hlt => hc ⟨hl, hlt⟩
      exact (not_lt.1 fun hlt => hnot ((hb _ _).2 hlt)).trans (child_le hb hj hj0 hp)

/-! ## Heaps -/

/-- The elements are ordered from the root, and each knows its position. -/
structure IsHeap (key : α → κ) (h : IndexedArray α) : Prop where
  ordered : h.Ordered key
  indexed : h.Indexed

omit [DecidableEq α] in
theorem isHeap_empty (hl : h.len = 0) : h.IsHeap key where
  ordered i hi := by omega
  indexed i hi := by omega

omit [DecidableEq α] in
theorem IsHeap.congr (hh : h.IsHeap key) {key' : α → κ} (hk : ∀ a, h.Mem a → key' a = key a) : h.IsHeap key' where
  ordered i hi hi0 := by
    rw [hk _ ⟨i, hi, rfl⟩, hk _ ⟨parent i, (parent_lt hi0).trans hi, rfl⟩]
    exact hh.ordered i hi hi0
  indexed := hh.indexed

omit [DecidableEq α] in
theorem IsHeap.root_le (hh : h.IsHeap key) (ha : h.Mem a) : key (h.items 0) ≤ key a := by
  obtain ⟨i, hi, rfl⟩ := ha
  induction i using Nat.strong_induction_on with
  | _ i ih =>
    by_cases hi0 : 0 < i
    · have hp := parent_lt hi0
      exact (ih _ hp (hp.trans hi)).trans (hh.ordered i hi hi0)
    · rw [show i = 0 by omega]

/-- An element put at the end and moved up. -/
theorem IsHeap.push (hb : ∀ a b, before a b ↔ key a < key b) (hh : h.IsHeap key) (ha : ¬ h.Mem a) :
    ((h.push a).up before h.len).IsHeap key ∧ ∀ b, ((h.push a).up before h.len).Mem b ↔ b = a ∨ h.Mem b := by
  obtain ⟨indexed, mem⟩ := hh.indexed.push ha
  have low : ∀ j < (h.push a).len, j ≠ h.len → j < h.len := fun j hj hne => by
    simp only [push_len] at hj
    omega
  have lowest : ∀ j < (h.push a).len, 0 < j → parent j ≠ h.len := fun j hj hj0 => by
    have := parent_lt hj0
    simp only [push_len] at hj
    omega
  have around : (h.push a).OrderedAround key h.len := by
    refine ⟨fun j hj hj0 hjl hp => ?_, fun j hj hj0 _ hp => absurd hp (lowest j hj hj0)⟩
    rw [push_items_of_ne hjl, push_items_of_ne hp]
    exact hh.ordered j (low j hj hjl) hj0
  have hl : h.len < (h.push a).len := Nat.lt_succ_self h.len
  have filled := up_filled hb indexed hl around fun j hj hj0 hp => absurd hp (lowest j hj hj0)
  exact ⟨⟨filled.ordered, filled.indexed⟩,
    fun b => (filled.mem b).trans ((Indexed.memAround hl).trans (mem b))⟩

/-- An element out of order in its place moves down, and then up from where it came to. -/
theorem refill (hb : ∀ a b, before a b ↔ key a < key b) (hh : h.Indexed) (hi : i < h.len)
    (ho : h.OrderedAround key i) :
    Filled key h i (h.items i) ((h.down before i).up before ((h.down before i).index (h.items i))) := by
  obtain ⟨j, low⟩ := downFrom_lowered hb (show h.len ≤ h.len + i by omega) (hh.around hi) ho
  change Lowered key h i (h.items i) (h.down before i) j at low
  have hj : j < (h.down before i).len := low.len ▸ low.lt
  have place : (h.down before i).index (h.items i) = j := by
    rw [← low.items]
    exact low.indexed j hj
  rw [place]
  have filled := up_filled hb low.indexed hj low.ordered (low.items ▸ low.above)
  exact ⟨filled.len.trans low.len, filled.indexed,
    fun b => (filled.mem b).trans ((Indexed.memAround hj).trans (low.mem b)), filled.ordered⟩

omit [DecidableEq α] in
/-- The heap without its last element. -/
theorem IsHeap.init (hh : h.IsHeap key) : IsHeap key { h with len := h.len - 1 } where
  ordered i hi hi0 := hh.ordered i (by simp only at hi; omega) hi0
  indexed i hi := hh.indexed i (by simp only at hi; omega)

omit [DecidableEq α] in
theorem IsHeap.mem_init (hh : h.IsHeap key) (hl : 0 < h.len) :
    Mem { h with len := h.len - 1 } b ↔ h.Mem b ∧ b ≠ h.items (h.len - 1) := by
  constructor
  · rintro ⟨j, hj, rfl⟩
    simp only at hj
    exact ⟨⟨j, by omega, rfl⟩, fun he => by
      have := hh.indexed.inj (by omega) (by omega) he
      omega⟩
  · rintro ⟨⟨j, hj, rfl⟩, hne⟩
    have hjl : j ≠ h.len - 1 := fun he => hne (by rw [he])
    exact ⟨j, by simp only; omega, rfl⟩

/-- Another element in the place of one. -/
theorem Indexed.replace (hh : h.Indexed) (hi : i < h.len) (ha : ¬ h.Mem a) :
    (h.set i a).Indexed ∧ ∀ b, (h.set i a).Mem b ↔ b = a ∨ (h.Mem b ∧ b ≠ h.items i) := by
  have around : h.Around i a := ⟨hi, fun j hj _ => hh j hj, fun j hj _ he => ha ⟨j, hj, he⟩⟩
  refine ⟨around.set, fun b => (mem_set hi).trans (or_congr_right ⟨?_, ?_⟩)⟩
  · rintro ⟨j, hj, hji, rfl⟩
    exact ⟨⟨j, hj, rfl⟩, fun he => hji (hh.inj hj hi he)⟩
  · rintro ⟨⟨j, hj, rfl⟩, hne⟩
    exact ⟨j, hj, fun he => hne (by rw [he]), rfl⟩

theorem upFrom_len : (upFrom before a n i h).len = h.len := by
  induction n generalizing i h with
  | zero => rfl
  | succ n ih =>
    rw [upFrom]
    split
    · exact ih
    · rfl

theorem downFrom_len : (downFrom before a n i h).len = h.len := by
  induction n generalizing i h with
  | zero => rfl
  | succ n ih =>
    rw [downFrom]
    split
    · exact ih
    · rfl

theorem removeAt_len : (h.removeAt before i).len = h.len - 1 := by
  rw [removeAt]
  split
  · exact upFrom_len.trans downFrom_len
  · rfl

/-- An element taken out of the middle. -/
theorem IsHeap.removeAt (hb : ∀ a b, before a b ↔ key a < key b) (hh : h.IsHeap key) (hi : i < h.len) :
    (h.removeAt before i).IsHeap key ∧ ∀ b, (h.removeAt before i).Mem b ↔ h.Mem b ∧ b ≠ h.items i := by
  have hl : 0 < h.len := by omega
  by_cases hil : i < h.len - 1
  · have fresh : ¬ Mem { h with len := h.len - 1 } (h.items (h.len - 1)) := fun hm => ((hh.mem_init hl).1 hm).2 rfl
    obtain ⟨indexed, mem⟩ := hh.init.indexed.replace hil fresh
    have ordered : (IndexedArray.set { h with len := h.len - 1 } i (h.items (h.len - 1))).OrderedAround key i :=
      hh.init.ordered.around.congr rfl fun j hj => set_items_of_ne hj
    have filled := refill hb indexed hil ordered
    rw [set_items_self] at filled
    rw [show h.removeAt before i = _ from if_pos hil]
    refine ⟨⟨filled.ordered, filled.indexed⟩, fun b => (filled.mem b).trans ?_⟩
    have back := Indexed.memAround (b := b)
      (show i < (IndexedArray.set { h with len := h.len - 1 } i (h.items (h.len - 1))).len from hil)
    rw [set_items_self] at back
    rw [back, mem, hh.mem_init hl]
    constructor
    · rintro (rfl | ⟨⟨hm, -⟩, hne⟩)
      · refine ⟨⟨_, by omega, rfl⟩, fun he => ?_⟩
        have := hh.indexed.inj (by omega) hi he
        omega
      · exact ⟨hm, hne⟩
    · rintro ⟨hm, hne⟩
      by_cases hb : b = h.items (h.len - 1)
      · exact .inl hb
      · exact .inr ⟨⟨hm, hb⟩, hne⟩
  · have hlast : h.len - 1 = i := by omega
    rw [show h.removeAt before i = _ from if_neg hil]
    refine ⟨hh.init, fun b => ?_⟩
    rw [hh.mem_init hl, hlast]

end

/-! ## Taking an element out in order -/

theorem shift_around (ha : h.Around i a) (hn : i + n < h.len) : (shift n i h).Around (i + n) a ∧
    (shift n i h).len = h.len ∧ ∀ b, (shift n i h).MemAround (i + n) a b ↔ h.MemAround i a b := by
  induction n generalizing i h with
  | zero => exact ⟨ha, rfl, fun _ => .rfl⟩
  | succ n ih =>
    have hi : i + 1 < h.len := by omega
    have hne : i + 1 ≠ i := by omega
    obtain ⟨around, len, mem⟩ := ih (ha.move hi hne) (by simp only [set_len]; omega)
    rw [shift, show i + (n + 1) = i + 1 + n by omega]
    exact ⟨around, len, fun b => (mem b).trans (memAround_move ha.lt hi hne)⟩

theorem Indexed.dropAt (hh : h.Indexed) (hi : i < h.len) :
    (h.dropAt i).Indexed ∧ ∀ b, (h.dropAt i).Mem b ↔ h.Mem b ∧ b ≠ h.items i := by
  obtain ⟨around, len, mem⟩ := shift_around (n := h.len - 1 - i) (hh.around hi) (by omega)
  rw [show i + (h.len - 1 - i) = h.len - 1 by omega] at around mem
  have rest : ∀ j, j < h.len - 1 → j < (shift (h.len - 1 - i) i h).len ∧ j ≠ h.len - 1 := by omega
  refine ⟨fun j hj => around.indexed j (rest j hj).1 (rest j hj).2, fun b => ?_⟩
  rw [← Indexed.memAround hi, ← mem b]
  constructor
  · rintro ⟨j, hj, rfl⟩
    exact ⟨.inr ⟨j, (rest j hj).1, (rest j hj).2, rfl⟩, around.new j (rest j hj).1 (rest j hj).2⟩
  · rintro ⟨rfl | ⟨j, hj, hjl, rfl⟩, hne⟩
    · exact absurd rfl hne
    · exact ⟨j, by simp only [IndexedArray.dropAt]; omega, rfl⟩

end IndexedArray
