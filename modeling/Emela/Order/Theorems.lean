import Emela.Order.Lemmas.Search
import Emela.Order.Lemmas.Supertraits

/-!
# Orders of definitions
-/

namespace Emela.Order

open Digraph Relation
open Infer (Row)

/-- What `init_order` says of entries: it returns; an order exactly when no entry depends on itself through others,
which is then the first one; otherwise a cycle. -/
structure InitOrderRight (entries : List Entry) (deps : List Row) : Prop where
  returns : initOrder entries deps ≠ none
  ok_iff : (∃ order, initOrder entries deps = some (.ok order)) ↔ ∀ i, ¬ TransGen (DependsOn entries deps) i i
  order : ∀ order, initOrder entries deps = some (.ok order) →
    IsOrder (DependsOn entries deps) (List.range entries.length) order ∧
    ∀ order', IsOrder (DependsOn entries deps) (List.range entries.length) order' →
      order = order' ∨ List.Lex (· < ·) order order'
  cycle : ∀ cycle, initOrder entries deps = some (.error cycle) → IsCycle (DependsOn entries deps) cycle

/-- The entries in the first order in which each comes after all it depends on, or a cycle of them. -/
theorem initOrder_right (entries : List Entry) (deps : List Row) : InitOrderRight entries deps := by
  have hedge : Edge (fun i => (List.range entries.length).filter (depends entries deps i ·)) =
      DependsOn entries deps := by
    funext i j
    exact propext edge_iff
  have hbound : ∀ v, ∀ w ∈ (List.range entries.length).filter (depends entries deps v ·), w < entries.length :=
    fun v w hw => List.mem_range.mp (List.mem_filter.mp hw).1
  rcases findCycle_outcome hbound with ⟨c, hfound, hcycle⟩ | ⟨hnone, hacyclic⟩
  · rw [hedge] at hcycle
    have hrun : initOrder entries deps = some (.error c) := by
      simp [initOrder, hfound]
    refine ⟨by simp [hrun], ?_, ?_, ?_⟩
    · obtain ⟨i, -, hi⟩ := hcycle.exists_transGen
      simp only [hrun, Option.some.injEq, reduceCtorEq, exists_false, false_iff]
      exact fun hno => hno i hi
    · simp [hrun]
    · rintro cycle heq
      rw [hrun] at heq
      cases heq
      exact hcycle
  · rw [hedge] at hacyclic
    have hacyclic' : ∀ i, ¬ TransGen (DependsOn entries deps) i i := by
      intro i hi
      obtain ⟨j, -, hj⟩ := TransGen.tail'_iff.mp hi
      exact hacyclic i hj.lt hi
    have hleft : left entries.length (fun _ => false) = List.range entries.length := by
      simp [left]
    obtain ⟨l, hl, hgreedy⟩ := placeAll_greedy hacyclic' entries.length (fun _ => false) []
      (by rw [hleft, List.length_range])
    rw [hleft] at hgreedy
    have hrun : initOrder entries deps = some (.ok l) := by
      simp [initOrder, hnone, hl]
    refine ⟨by simp [hrun], ?_, ?_, ?_⟩
    · simp [hrun, hacyclic']
    · rintro order heq
      rw [hrun] at heq
      cases heq
      exact ⟨hgreedy.isOrder, fun order' h => hgreedy.first h fun _ => not_dependsOn_self⟩
    · simp [hrun]

/-- What the order of inference and the supertraits rest on: the groups are the components of what the nodes reach, in
order and each sorted; each report is of a cycle of supertraits, each trait on a cycle is on a reported one, and without the
supertraits of the reported traits there is no cycle left. -/
theorem components_and_cycles :
    (∀ (nodes : List Infer.DefId) (edges : DefLists), ∃ groups, stronglyConnected nodes edges = some groups ∧
      IsComponents (Points edges) nodes groups ∧ ∀ g ∈ groups, g.Pairwise (· < ·)) ∧
    ∀ (defs : Infer.DefId → Def) (supers : DefLists), ∃ supers' diags cycles,
      checkCycles defs supers = some (supers', diags) ∧ (∀ t, ¬TransGen (Points supers') t t) ∧
      List.Forall₂ (Reports defs supers) cycles diags ∧ supers' = supers.clear cycles.flatten ∧
      ∀ t, TransGen (Points supers) t t → t ∈ cycles.flatten :=
  ⟨stronglyConnected_components, checkCycles_spec⟩

end Emela.Order
