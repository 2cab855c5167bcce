import Mathlib.Data.List.Perm.Basic
import Mathlib.Data.Fintype.List
import Mathlib.Data.Fintype.EquivFin
import Mathlib.Order.WellFounded
import Mathlib.Logic.Function.Basic
import Mathlib.Tactic.Common

/-!
# Reference counts

Nodes hold references to each other in their fields, and some references are held outside. The counts are exact
when the count of a node is the number of the references to it.
-/

namespace RefCount

variable {α : Type} {count count' : α → Nat} {outside outside' held nodes nodes' : List α}
  {fields fields' : α → List α} {x y : α}

/-- What can be reached from outside. -/
inductive Reached (outside : List α) (fields : α → List α) : α → Prop
  | outside {x : α} : x ∈ outside → Reached outside fields x
  | field {x y : α} : Reached outside fields y → x ∈ fields y → Reached outside fields x

/-- A set that has what is held outside and what its own nodes hold has everything that can be reached. -/
theorem Reached.of_closed {P : α → Prop} (h : Reached outside fields x) (ho : ∀ y ∈ outside, P y)
    (hf : ∀ y, P y → ∀ z ∈ fields y, P z) : P x := by
  induction h with
  | outside hx => exact ho _ hx
  | field _ hx ih => exact hf _ ih _ hx

variable [DecidableEq α]

/-- The counts are those of the references held outside and in the fields of the nodes, which are to nodes. -/
structure Exact (count : α → Nat) (outside : List α) (fields : α → List α) (nodes : List α) : Prop where
  count : ∀ x ∈ nodes, count x = outside.count x + (nodes.flatMap fields).count x
  outside : ∀ x ∈ outside, x ∈ nodes
  fields : ∀ y ∈ nodes, ∀ x ∈ fields y, x ∈ nodes

theorem Exact.congr (h : Exact count outside fields nodes) (hn : nodes.Perm nodes') (ho : outside.Perm outside')
    (hc : ∀ x ∈ nodes, count' x = count x) (hf : ∀ x ∈ nodes, fields' x = fields x) :
    Exact count' outside' fields' nodes' where
  count x hx := by
    have hx := hn.mem_iff.mpr hx
    rw [hc x hx, h.count x hx, ho.count_eq, (hn.symm.flatMap_right fields').count_eq]
    rw [List.flatMap_congr fun y hy => hf y hy]
  outside x hx := hn.mem_iff.mp (h.outside x (ho.mem_iff.mpr hx))
  fields y hy x hx := by
    have hy := hn.mem_iff.mpr hy
    exact hn.mem_iff.mp (h.fields y hy x (hf y hy ▸ hx))

theorem Exact.pos_of_outside (h : Exact count outside fields nodes) (hx : x ∈ outside) : 0 < count x := by
  rw [h.count x (h.outside x hx)]
  exact Nat.add_pos_left (List.count_pos_iff.mpr hx) _

theorem Exact.pos_of_field (h : Exact count outside fields nodes) (hy : y ∈ nodes) (hx : x ∈ fields y) : 0 < count x := by
  rw [h.count x (h.fields y hy x hx)]
  exact Nat.add_pos_right _ (List.count_pos_iff.mpr (List.mem_flatMap.mpr ⟨y, hy, hx⟩))

/-- A node whose count is not zero is held outside or by a node. -/
theorem Exact.holder (h : Exact count outside fields nodes) (hx : x ∈ nodes) (hpos : 0 < count x) :
    x ∈ outside ∨ ∃ y ∈ nodes, x ∈ fields y := by
  rw [h.count x hx, Nat.add_pos_iff_pos_or_pos, List.count_pos_iff, List.count_pos_iff, List.mem_flatMap] at hpos
  exact hpos

theorem Exact.reached_mem (h : Exact count outside fields nodes) (hx : Reached outside fields x) : x ∈ nodes :=
  hx.of_closed h.outside h.fields

theorem Exact.reached_pos (h : Exact count outside fields nodes) (hx : Reached outside fields x) : 0 < count x := by
  cases hx with
  | outside hx => exact h.pos_of_outside hx
  | field hy hx => exact h.pos_of_field (h.reached_mem hy) hx

/-- A reference more. -/
theorem Exact.retain (h : Exact count outside fields nodes) (hx : x ∈ nodes) :
    Exact (Function.update count x (count x + 1)) (x :: outside) fields nodes where
  count y hy := by
    by_cases hyx : y = x
    · subst hyx
      rw [Function.update_self, h.count y hy, List.count_cons_self]
      omega
    · rw [Function.update_of_ne hyx, h.count y hy, List.count_cons_of_ne (Ne.symm hyx)]
  outside y hy := by
    rcases List.mem_cons.mp hy with rfl | hy
    · exact hx
    · exact h.outside y hy
  fields := h.fields

/-- A reference less. -/
theorem Exact.drop (h : Exact count (x :: outside) fields nodes) :
    Exact (Function.update count x (count x - 1)) outside fields nodes where
  count y hy := by
    by_cases hyx : y = x
    · subst hyx
      rw [Function.update_self, h.count y hy, List.count_cons_self]
      omega
    · rw [Function.update_of_ne hyx, h.count y hy, List.count_cons_of_ne (Ne.symm hyx)]
  outside y hy := h.outside y (List.mem_cons_of_mem x hy)
  fields := h.fields

theorem count_flatMap_erase (fields : α → List α) (hx : x ∈ nodes) :
    (nodes.flatMap fields).count y = (fields x).count y + ((nodes.erase x).flatMap fields).count y := by
  rw [((List.perm_cons_erase hx).flatMap_right fields).count_eq, List.flatMap_cons, List.count_append]

/-- A node that nothing refers to is taken out, and what it held is held outside. -/
theorem Exact.takeOut (h : Exact count outside fields nodes) (hx : x ∈ nodes) (hzero : count x = 0)
    (hnodup : nodes.Nodup) : Exact count (fields x ++ outside) fields (nodes.erase x) := by
  have gone : ∀ y, 0 < count y → y ∈ nodes → y ∈ nodes.erase x := fun y hy hn =>
    (hnodup.mem_erase_iff).mpr ⟨fun he => Nat.ne_of_gt hy (he ▸ hzero), hn⟩
  refine ⟨fun y hy => ?_, fun y hy => ?_, fun z hz y hy => ?_⟩
  · rw [h.count y (List.mem_of_mem_erase hy), count_flatMap_erase fields hx, List.count_append]
    omega
  · rcases List.mem_append.mp hy with hy | hy
    · exact gone y (h.pos_of_field hx hy) (h.fields x hx y hy)
    · exact gone y (h.pos_of_outside hy) (h.outside y hy)
  · have hz := List.mem_of_mem_erase hz
    exact gone y (h.pos_of_field hz hy) (h.fields z hz y hy)

/-- What is held outside goes into the fields of a node, and what they held is held outside. -/
theorem Exact.exchange (h : Exact count (held ++ outside) fields nodes) (hx : x ∈ nodes) (hnodup : nodes.Nodup) :
    Exact count (fields x ++ outside) (Function.update fields x held) nodes := by
  have apart : ∀ y ∈ nodes.erase x, Function.update fields x held y = fields y := fun y hy =>
    Function.update_of_ne ((hnodup.mem_erase_iff).mp hy).1 ..
  refine ⟨fun y hy => ?_, fun y hy => ?_, fun z hz y hy => ?_⟩
  · rw [h.count y hy, count_flatMap_erase fields hx, count_flatMap_erase (Function.update fields x held) hx,
      List.flatMap_congr apart, Function.update_self, List.count_append, List.count_append]
    omega
  · rcases List.mem_append.mp hy with hy | hy
    · exact h.fields x hx y hy
    · exact h.outside y (List.mem_append_right _ hy)
  · by_cases hzx : z = x
    · subst hzx
      rw [Function.update_self] at hy
      exact h.outside y (List.mem_append_left _ hy)
    · rw [Function.update_of_ne hzx] at hy
      exact h.fields z hz y hy

/-- A new node, held outside. -/
theorem Exact.add (h : Exact count (held ++ outside) fields nodes) (hx : x ∉ nodes) :
    Exact (Function.update count x 1) (x :: outside) (Function.update fields x held) (x :: nodes) := by
  have apart : ∀ y ∈ nodes, y ≠ x := fun y hy he => hx (he ▸ hy)
  have same : nodes.flatMap (Function.update fields x held) = nodes.flatMap fields :=
    List.flatMap_congr fun y hy => Function.update_of_ne (apart y hy) ..
  have none : ∀ l : List α, (∀ y ∈ l, y ∈ nodes) → l.count x = 0 := fun l hl =>
    List.count_eq_zero.mpr fun hm => hx (hl x hm)
  refine ⟨fun y hy => ?_, fun y hy => ?_, fun z hz y hy => ?_⟩
  · rw [List.flatMap_cons, same, Function.update_self, List.count_append]
    by_cases hyx : y = x
    · subst hyx
      rw [Function.update_self, List.count_cons_self, none outside fun z hz => h.outside z (List.mem_append_right _ hz),
        none held fun z hz => h.outside z (List.mem_append_left _ hz), none (nodes.flatMap fields) fun z hz => ?_]
      obtain ⟨w, hw, hz⟩ := List.mem_flatMap.mp hz
      exact h.fields w hw z hz
    · have hy := (List.mem_cons.mp hy).resolve_left hyx
      rw [Function.update_of_ne hyx, h.count y hy, List.count_append, List.count_cons_of_ne (Ne.symm hyx)]
      omega
  · rcases List.mem_cons.mp hy with rfl | hy
    · exact List.mem_cons_self
    · exact List.mem_cons_of_mem x (h.outside y (List.mem_append_right _ hy))
  · apply List.mem_cons_of_mem
    by_cases hzx : z = x
    · subst hzx
      rw [Function.update_self] at hy
      exact h.outside y (List.mem_append_left _ hy)
    · rw [Function.update_of_ne hzx] at hy
      exact h.fields z ((List.mem_cons.mp hz).resolve_left hzx) y hy

/-- The nodes of a part that holds all that is held outside and by itself: the others hold only some of the
references to it. -/
theorem Exact.keep {live dead : List α} (h : Exact count outside fields nodes) (hn : nodes.Perm (live ++ dead))
    (ho : ∀ x ∈ outside, x ∈ live) (hl : ∀ y ∈ live, ∀ x ∈ fields y, x ∈ live) :
    Exact (fun x => count x - (dead.flatMap fields).count x) outside fields live where
  count x hx := by
    rw [h.count x (hn.mem_iff.mpr (List.mem_append_left _ hx)), (hn.flatMap_right fields).count_eq,
      List.flatMap_append, List.count_append]
    omega
  outside := ho
  fields := hl

/-- Where the counts are positive, what cannot be reached is held by something that cannot be reached, so it is
held in a cycle. -/
theorem Exact.reached_of_acyclic (h : Exact count outside fields nodes) (hpos : ∀ x ∈ nodes, 0 < count x)
    (hacyclic : ∀ x, ¬ Relation.TransGen (fun y z => y ∈ nodes ∧ z ∈ fields y) x x) (hx : x ∈ nodes) :
    Reached outside fields x := by
  let below : {y // y ∈ nodes} → {y // y ∈ nodes} → Prop := fun y z =>
    Relation.TransGen (fun y z => y ∈ nodes ∧ z ∈ fields y) y.1 z.1
  have : IsTrans _ below := ⟨fun _ _ _ h₁ h₂ => h₁.trans h₂⟩
  have : Std.Irrefl below := ⟨fun y hy => hacyclic y.1 hy⟩
  have wf : WellFounded below := Finite.wellFounded_of_trans_of_irrefl below
  suffices ∀ y : {y // y ∈ nodes}, Reached outside fields y.1 from this ⟨x, hx⟩
  intro y
  induction y using wf.induction with
  | _ y ih =>
    rcases h.holder y.2 (hpos y.1 y.2) with ho | ⟨z, hz, hy⟩
    · exact .outside ho
    · exact .field (ih ⟨z, hz⟩ (.single ⟨hz, hy⟩)) hy

end RefCount
