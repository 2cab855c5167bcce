import Mathlib.Data.List.Chain
import Mathlib.Data.List.Cycle
import Mathlib.Data.List.Perm.Basic
import Mathlib.Data.Fintype.Basic
import Mathlib.Data.Set.Finite.Basic
import Mathlib.Data.List.Lex
import Mathlib.Order.WellFounded
import Mathlib.Data.Fintype.Order

/-!
# Cycles and orders of a relation

`r a b` is read as "`a` depends on `b`". Cycles as lists, what a traversal that leaves each node after those it depends
on shows, and the first order, lexicographically, in which each node comes after those it depends on.
-/

namespace Digraph

open Relation

variable {α : Type} {r : α → α → Prop} {a b : α} {l l' rest : List α}

/-! ## Cycles -/

/-- Each of the list depends on the next, and the last on the first. -/
def IsCycle (r : α → α → Prop) : List α → Prop
  | [] => False
  | a :: l => (a :: l ++ [a]).IsChain r

theorem transGen_of_isChain : ∀ {l : List α} {a b : α}, (a :: l ++ [b]).IsChain r → TransGen r a b
  | [], _, _, h => .single (by simpa using h)
  | c :: l, a, b, h => by
    rw [List.cons_append, List.cons_append, List.isChain_cons_cons] at h
    exact .head h.1 (transGen_of_isChain h.2)

theorem IsCycle.exists_transGen (h : IsCycle r l) : ∃ a ∈ l, TransGen r a a := by
  cases l with
  | nil => exact h.elim
  | cons a l => exact ⟨a, List.mem_cons_self, transGen_of_isChain h⟩

theorem isCycle_iff : IsCycle r l ↔ l ≠ [] ∧ Cycle.Chain r l := by
  cases l with
  | nil => simp [IsCycle]
  | cons a l => simp [IsCycle, Cycle.chain_coe_cons]

/-- A cycle read from another of its nodes. -/
theorem IsCycle.turn (h : IsCycle r l) {n : Nat} (hn : n ≤ l.length) : IsCycle r (l.drop n ++ l.take n) := by
  rw [← List.rotate_eq_drop_append_take hn]
  obtain ⟨hne, hchain⟩ := isCycle_iff.mp h
  refine isCycle_iff.mpr ⟨fun hnil => hne (List.rotate_eq_nil_iff.mp hnil), ?_⟩
  rwa [Cycle.coe_eq_coe.mpr (List.IsRotated.forall l n)]

/-! ## Leaving nodes after those they depend on -/

/-- The nodes left, the last one first: each depends on earlier ones only. -/
def Finished (r : α → α → Prop) : List α → Prop
  | [] => True
  | v :: l => v ∉ l ∧ (∀ w, r v w → w ∈ l) ∧ Finished r l

theorem Finished.mem_of_rel (h : Finished r l) (ha : a ∈ l) (hr : r a b) : b ∈ l := by
  induction l with
  | nil => cases ha
  | cons v l ih =>
    obtain ⟨-, hv, hl⟩ := h
    rcases List.mem_cons.mp ha with rfl | ha
    · exact List.mem_cons_of_mem _ (hv b hr)
    · exact List.mem_cons_of_mem _ (ih hl ha)

theorem Finished.mem_of_transGen (h : Finished r l) (ha : a ∈ l) (hr : TransGen r a b) : b ∈ l := by
  induction hr with
  | single hr => exact h.mem_of_rel ha hr
  | tail _ hr ih => exact h.mem_of_rel ih hr

/-- No node left is on a cycle. -/
theorem Finished.acyclic (h : Finished r l) (ha : a ∈ l) : ¬ TransGen r a a := by
  induction l with
  | nil => cases ha
  | cons v l ih =>
    obtain ⟨hnew, hv, hl⟩ := h
    rcases List.mem_cons.mp ha with rfl | ha
    · intro hcycle
      obtain ⟨w, hw, hback⟩ := TransGen.head'_iff.mp hcycle
      rcases ReflTransGen.cases_head hback with rfl | _
      · exact hnew (hv _ hw)
      · rcases reflTransGen_iff_eq_or_transGen.mp hback with rfl | hback
        · exact hnew (hv _ hw)
        · exact hnew (hl.mem_of_transGen (hv w hw) hback)
    · exact ih hl ha

/-! ## Strongly connected components -/

/-- The components of what the roots reach, each after every other one it reaches. -/
structure IsComponents (r : α → α → Prop) (roots : List α) (groups : List (List α)) : Prop where
  nodup : groups.flatten.Nodup
  ne_nil : ∀ g ∈ groups, g ≠ []
  mem : ∀ b, b ∈ groups.flatten ↔ ∃ a ∈ roots, ReflTransGen r a b
  component : ∀ g ∈ groups, ∀ a ∈ g, ∀ b, b ∈ g ↔ ReflTransGen r a b ∧ ReflTransGen r b a
  order : groups.Pairwise fun g h => ∀ a ∈ g, ∀ b ∈ h, ¬ ReflTransGen r a b

/-- Groups of nodes left, the last one first: the nodes of each reach each other, and depend on nodes of the group and
of earlier ones only. -/
def Grouped (r : α → α → Prop) : List (List α) → Prop
  | [] => True
  | g :: gs => (g ≠ [] ∧ g.Nodup ∧ (∀ a ∈ g, ∀ b ∈ g, ReflTransGen r a b) ∧ (∀ a ∈ g, a ∉ gs.flatten) ∧
      ∀ a ∈ g, ∀ b, r a b → b ∈ g ∨ b ∈ gs.flatten) ∧ Grouped r gs

section
variable {gs : List (List α)} {g : List α}

theorem Grouped.mem_of_rel (h : Grouped r gs) (ha : a ∈ gs.flatten) (hr : r a b) : b ∈ gs.flatten := by
  induction gs with
  | nil => cases ha
  | cons g gs ih =>
    obtain ⟨⟨-, -, -, -, hg⟩, hgs⟩ := h
    rw [List.flatten_cons, List.mem_append] at ha ⊢
    rcases ha with ha | ha
    · exact hg a ha b hr
    · exact .inr (ih hgs ha)

theorem Grouped.mem_of_reaches (h : Grouped r gs) (ha : a ∈ gs.flatten) (hr : ReflTransGen r a b) :
    b ∈ gs.flatten := by
  induction hr with
  | refl => exact ha
  | tail _ hr ih => exact h.mem_of_rel ih hr

theorem Grouped.nodup (h : Grouped r gs) : gs.flatten.Nodup := by
  induction gs with
  | nil => exact List.nodup_nil
  | cons g gs ih =>
    obtain ⟨⟨-, hnodup, -, hnew, -⟩, hgs⟩ := h
    exact List.nodup_append'.mpr ⟨hnodup, ih hgs, fun a ha ha' => hnew a ha ha'⟩

theorem Grouped.ne_nil (h : Grouped r gs) (hg : g ∈ gs) : g ≠ [] := by
  induction gs with
  | nil => cases hg
  | cons g' gs ih =>
    rcases List.mem_cons.mp hg with rfl | hg
    · exact h.1.1
    · exact ih h.2 hg

/-- What a node of a group reaches is in the group or was left before. -/
theorem Grouped.component (h : Grouped r gs) (hg : g ∈ gs) (ha : a ∈ g) :
    b ∈ g ↔ ReflTransGen r a b ∧ ReflTransGen r b a := by
  induction gs with
  | nil => cases hg
  | cons g' gs ih =>
    rcases List.mem_cons.mp hg with rfl | hg
    · have hall := h
      obtain ⟨⟨-, -, hreach, hnew, -⟩, hgs⟩ := h
      constructor
      · exact fun hb => ⟨hreach a ha b hb, hreach b hb a ha⟩
      · rintro ⟨hab, hba⟩
        have hb : b ∈ (g :: gs).flatten := hall.mem_of_reaches (by simp [ha]) hab
        rw [List.flatten_cons, List.mem_append] at hb
        rcases hb with hb | hb
        · exact hb
        · exact absurd (hgs.mem_of_reaches hb hba) (hnew a ha)
    · exact ih h.2 hg

theorem Grouped.order (h : Grouped r gs) : gs.Pairwise fun g g' => ∀ a ∈ g', ∀ b ∈ g, ¬ ReflTransGen r a b := by
  induction gs with
  | nil => exact .nil
  | cons g gs ih =>
    obtain ⟨⟨-, -, -, hnew, -⟩, hgs⟩ := h
    refine .cons (fun g' hg' a ha b hb hab => ?_) (ih hgs)
    exact hnew b hb (hgs.mem_of_reaches (List.mem_flatten_of_mem hg' ha) hab)

end

/-- The groups left, the first one first, are the components of the roots where these are left and reach the rest. -/
theorem Grouped.isComponents {roots : List α} {groups : List (List α)} (h : Grouped r groups.reverse)
    (hroots : ∀ a ∈ roots, a ∈ groups.flatten) (hreach : ∀ b ∈ groups.flatten, ∃ a ∈ roots, ReflTransGen r a b) :
    IsComponents r roots groups := by
  have hflat : ∀ a, a ∈ groups.reverse.flatten ↔ a ∈ groups.flatten := by simp
  refine ⟨?_, ?_, ?_, ?_, ?_⟩
  · exact ((List.reverse_perm groups).flatten.nodup_iff).mp h.nodup
  · exact fun g hg => h.ne_nil (List.mem_reverse.mpr hg)
  · intro b
    constructor
    · exact hreach b
    · rintro ⟨a, ha, hab⟩
      exact (hflat b).mp (h.mem_of_reaches ((hflat a).mpr (hroots a ha)) hab)
  · exact fun g hg a ha b => h.component (List.mem_reverse.mpr hg) ha
  · exact List.pairwise_reverse.mp h.order

/-! ## The first order -/

/-- An order of the nodes in which each comes after all it depends on. -/
def IsOrder (r : α → α → Prop) (nodes l : List α) : Prop :=
  l.Perm nodes ∧ l.Pairwise fun a b => ¬ r a b

/-- None of the nodes is among those `a` depends on. -/
def Ready (r : α → α → Prop) (nodes : List α) (a : α) : Prop := ∀ b ∈ nodes, ¬ r a b

/-- Without cycles some node depends on no other. -/
theorem exists_ready (hne : rest ≠ []) (hacyclic : ∀ a ∈ rest, ¬ TransGen r a a) : ∃ a ∈ rest, Ready r rest a := by
  classical
  let below (a b : {a // a ∈ rest}) : Prop := TransGen r b.1 a.1
  have : IsTrans _ below := ⟨fun _ _ _ hab hbc => hbc.trans hab⟩
  have : Std.Irrefl below := ⟨fun a => hacyclic a.1 a.2⟩
  have hwf : WellFounded below := Finite.wellFounded_of_trans_of_irrefl below
  obtain ⟨x, hx⟩ := List.exists_mem_of_ne_nil rest hne
  obtain ⟨m, -, hm⟩ := hwf.has_min Set.univ ⟨⟨x, hx⟩, trivial⟩
  exact ⟨m.1, m.2, fun b hb hr => hm ⟨b, hb⟩ trivial (.single hr)⟩

section
variable [DecidableEq α]

/-- What is placed when each time the least of the nodes ready among those left is. -/
inductive Greedy [LE α] (r : α → α → Prop) : List α → List α → Prop where
  | nil : Greedy r [] []
  | cons {a : α} {rest l : List α} (hmem : a ∈ rest) (hready : Ready r rest a)
      (hleast : ∀ b ∈ rest, Ready r rest b → a ≤ b) (hl : Greedy r (rest.erase a) l) : Greedy r rest (a :: l)

theorem Greedy.isOrder [LE α] (h : Greedy r rest l) : IsOrder r rest l := by
  induction h with
  | nil => exact ⟨.nil, .nil⟩
  | cons hmem hready _ _ ih =>
    refine ⟨(ih.1.cons _).trans (List.perm_cons_erase hmem).symm, .cons ?_ ih.2⟩
    intro b hb
    exact hready b (List.mem_of_mem_erase (ih.1.mem_iff.mp hb))

/-- The order found is the first one. -/
theorem Greedy.first [LinearOrder α] (h : Greedy r rest l) (h' : IsOrder r rest l') (hself : ∀ a, ¬ r a a) :
    l = l' ∨ List.Lex (· < ·) l l' := by
  induction h generalizing l' with
  | nil => exact .inl (List.perm_nil.mp h'.1).symm
  | @cons a rest l hmem hready hleast _ ih =>
    obtain ⟨hperm, horder⟩ := h'
    cases l' with
    | nil => exact absurd (hperm.mem_iff.mpr hmem) List.not_mem_nil
    | cons b l' =>
      have hb : b ∈ rest := hperm.mem_iff.mp List.mem_cons_self
      have hbready : Ready r rest b := by
        intro c hc
        rcases List.mem_cons.mp (hperm.mem_iff.mpr hc) with rfl | hc
        · exact hself c
        · exact List.rel_of_pairwise_cons horder hc
      rcases (hleast b hb hbready).lt_or_eq with hlt | rfl
      · exact .inr (.rel hlt)
      · have hrest : IsOrder r (rest.erase a) l' :=
          ⟨List.Perm.cons_inv (hperm.trans (List.perm_cons_erase hmem)), horder.of_cons⟩
        rcases ih hrest with rfl | hlex
        · exact .inl rfl
        · exact .inr (.cons hlex)

end

end Digraph
