import Emela.Infer.Context

/-!
# The table of variables

What the library says of the keys of a table, their representatives and their values, and a table that does it.
-/

namespace Emela.Infer

open UnificationTable

/-- The classes of `ena`: a new table has no keys; a new key is alone, without a value; `union` puts two classes together,
`union_value` gives a class a value; and neither does anything else to classes without values. -/
class LawfulTable (T : Type) [UnificationTable T] : Prop where
  len_empty : len (empty : T) = 0
  find_lt : ∀ (t : T) (v : TyVar), v < len t → find t v < len t
  find_find : ∀ (t : T) (v : TyVar), v < len t → find t (find t v) = find t v
  probe_find : ∀ (t : T) (v : TyVar), v < len t → probeValue t (find t v) = probeValue t v
  len_newKey : ∀ t : T, len (newKey t) = len t + 1
  find_new : ∀ t : T, find (newKey t) (len t) = len t
  probe_new : ∀ t : T, probeValue (newKey t) (len t) = none
  probe_newKey : ∀ (t : T) (v : TyVar), v < len t → probeValue (newKey t) v = probeValue t v
  len_union : ∀ (t : T) (x y : TyVar), len (union t x y) = len t
  find_union_iff : ∀ (t : T) (x y v w : TyVar), x < len t → y < len t → v < len t → w < len t →
    (find (union t x y) v = find (union t x y) w ↔ find t v = find t w ∨
      (find t v = find t x ∨ find t v = find t y) ∧ (find t w = find t x ∨ find t w = find t y))
  probe_union : ∀ (t : T) (x y v : TyVar), x < len t → y < len t → v < len t → probeValue t x = none →
    probeValue t y = none → probeValue (union t x y) v = probeValue t v
  len_unionValue : ∀ (t : T) (v : TyVar) (ty : Ty), len (unionValue t v ty) = len t
  probe_unionValue : ∀ (t : T) (v w : TyVar) (ty : Ty), v < len t → w < len t → probeValue t v = none →
    probeValue (unionValue t v ty) w = if find t w = find t v then some ty else probeValue t w

/-! ## A table -/

/-- Each key with its representative, and the values of the representatives. -/
structure Forest where
  len : Nat
  root : TyVar → TyVar
  value : TyVar → Option Ty
  root_lt : ∀ v, v < len → root v < len
  root_root : ∀ v, root (root v) = root v
  root_new : ∀ v, len ≤ v → root v = v
  value_new : ∀ v, len ≤ v → value v = none

namespace Forest

variable {f : Forest} {v x y : TyVar}

def new : Forest := ⟨0, id, fun _ => none, fun _ h => h, fun _ => rfl, fun _ _ => rfl, fun _ _ => rfl⟩

def key (f : Forest) : Forest where
  len := f.len + 1
  root := f.root
  value := f.value
  root_lt v hv := by
    rcases Nat.lt_or_ge v f.len with h | h
    · exact Nat.lt_succ_of_lt (f.root_lt v h)
    · rwa [f.root_new v h]
  root_root := f.root_root
  root_new v hv := f.root_new v (by omega)
  value_new v hv := f.value_new v (by omega)

/-- The representative of `y` becomes that of both, and has the value that one of them had. -/
def unite (f : Forest) (x y : TyVar) : Forest :=
  if h : x < f.len ∧ y < f.len then
    { len := f.len
      root := fun v => if f.root v = f.root x then f.root y else f.root v
      value := fun v => if v = f.root y then (f.value v).or (f.value (f.root x)) else f.value v
      root_lt := fun v hv => by
        split
        · exact f.root_lt y h.2
        · exact f.root_lt v hv
      root_root := fun v => by
        by_cases hv : f.root v = f.root x
        · simp [hv, f.root_root]
        · simp [hv, f.root_root]
      root_new := fun v hv => by
        have hlt := f.root_lt x h.1
        rw [f.root_new v hv, if_neg (Nat.ne_of_gt (Nat.lt_of_lt_of_le hlt hv))]
      value_new := fun v hv => by
        have hlt := f.root_lt y h.2
        rw [if_neg (Nat.ne_of_gt (Nat.lt_of_lt_of_le hlt hv))]
        exact f.value_new v hv }
  else f

def assign (f : Forest) (v : TyVar) (ty : Ty) : Forest :=
  if h : v < f.len then
    { f with
      value := fun w => if w = f.root v then (f.value w).or (some ty) else f.value w
      value_new := fun w hw => by
        have hlt := f.root_lt v h
        rw [if_neg (Nat.ne_of_gt (Nat.lt_of_lt_of_le hlt hw))]
        exact f.value_new w hw }
  else f

instance : UnificationTable Forest where
  empty := new
  len := len
  newKey := key
  find := root
  probeValue f v := f.value (f.root v)
  union := unite
  unionValue := assign
  find_union f x y v w h := by
    unfold unite
    split
    · simp only [h]
    · exact h
  find_unionValue f v w ty := by
    unfold assign
    split <;> rfl
  find_newKey _ _ := rfl

theorem root_unite (hx : x < f.len) (hy : y < f.len) :
    (f.unite x y).root v = if f.root v = f.root x then f.root y else f.root v := by
  rw [unite, dif_pos ⟨hx, hy⟩]

theorem value_unite (hx : x < f.len) (hy : y < f.len) :
    (f.unite x y).value v = if v = f.root y then (f.value v).or (f.value (f.root x)) else f.value v := by
  rw [unite, dif_pos ⟨hx, hy⟩]

instance : LawfulTable Forest where
  len_empty := rfl
  find_lt f v hv := f.root_lt v hv
  find_find f v _ := f.root_root v
  probe_find f v _ := congrArg f.value (f.root_root v)
  len_newKey _ := rfl
  find_new f := f.root_new _ (Nat.le_refl _)
  probe_new f := (congrArg f.value (f.root_new _ (Nat.le_refl _))).trans (f.value_new _ (Nat.le_refl _))
  probe_newKey _ _ _ := rfl
  len_union f x y := by
    change (f.unite x y).len = f.len
    unfold unite
    split <;> rfl
  find_union_iff f x y v w hx hy _ _ := by
    change (f.unite x y).root v = (f.unite x y).root w ↔ _
    rw [root_unite hx hy, root_unite hx hy]
    change _ ↔ f.root v = f.root w ∨ (f.root v = f.root x ∨ f.root v = f.root y) ∧
      (f.root w = f.root x ∨ f.root w = f.root y)
    by_cases hv : f.root v = f.root x
    · by_cases hw : f.root w = f.root x
      · simp [hv, hw]
      · simp only [hv, hw, if_true, if_false, true_or, false_or, true_and]
        constructor
        · exact fun h => .inr h.symm
        · rintro (h | h)
          · exact absurd h.symm hw
          · exact h.symm
    · by_cases hw : f.root w = f.root x
      · simp only [hv, hw, if_true, if_false, true_or, false_or, and_true]
      · simp only [hv, hw, if_false, false_or]
        constructor
        · exact .inl
        · rintro (h | ⟨h, h'⟩)
          · exact h
          · rw [h, h']
  probe_union f x y v hx hy _ hpx hpy := by
    change (f.unite x y).value ((f.unite x y).root v) = f.value (f.root v)
    have hpx' : f.value (f.root x) = none := hpx
    have hpy' : f.value (f.root y) = none := hpy
    rw [root_unite hx hy, value_unite hx hy]
    by_cases hv : f.root v = f.root x
    · simp [hv, hpx', hpy']
    · by_cases hvy : f.root v = f.root y
      · simp [hvy, hpx', hpy']
      · simp [hv, hvy]
  len_unionValue f v ty := by
    change (f.assign v ty).len = f.len
    unfold assign
    split <;> rfl
  probe_unionValue f v w ty hv _ hp := by
    have hp' : f.value (f.root v) = none := hp
    have hv' : v < f.len := hv
    change (f.assign v ty).value ((f.assign v ty).root w) = if f.root w = f.root v then some ty else f.value (f.root w)
    rw [assign, dif_pos hv']
    by_cases hw : f.root w = f.root v
    · simp [hw, hp']
    · simp [hw]

end Forest

end Emela.Infer
