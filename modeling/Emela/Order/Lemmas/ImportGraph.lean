import Mathlib
import Emela.Order.ImportGraph
import Emela.Order.Lemmas.Components

/-!
# The loop without recursion

The explicit work list goes through the states of the recursive search. A finished node lowers the one that is resumed
before its component is popped, where the recursion does so after it: the two touch different parts of the state.
-/

namespace Emela.Order

open Digraph Relation

variable {targets : ModuleId → List ModuleId} {n fuel e : Nat} {s s' t : Tarjan} {v w : ModuleId} {ws : List ModuleId}
  {work : List (ModuleId × Nat)}

/-- The edges of the first `n` nodes as a map. -/
def lists (n : Nat) (targets : ModuleId → List ModuleId) : DefLists := (List.range n).map fun v => (v, targets v)

theorem get_lists (hout : ∀ v, n ≤ v → targets v = []) (v : ModuleId) : (lists n targets).get v = targets v := by
  have hlookup : ∀ l : List Nat, (l.map fun v => (v, targets v)).lookup v = if v ∈ l then some (targets v) else none := by
    intro l
    induction l with
    | nil => rfl
    | cons u l ih =>
      rw [List.map_cons, List.lookup_cons, ih]
      by_cases huv : v = u
      · simp [huv]
      · simp [huv, beq_eq_false_iff_ne.mpr huv]
  rw [DefLists.get, lists, hlookup]
  by_cases hv : v < n
  · simp [hv]
  · simp [hv, hout v (Nat.le_of_not_lt hv)]

namespace Tarjan

/-! ## Turns left -/

/-- The turns of the loop for the nodes not seen yet: one for each and one for each of their edges. -/
def turns (n : Nat) (targets : ModuleId → List ModuleId) (s : Tarjan) : Nat :=
  ((List.range n).map fun v => if s.index v = none then (targets v).length + 1 else 0).sum

theorem sum_map_of_eq_add {l : List Nat} (hl : l.Nodup) (hv : v ∈ l) {f g : Nat → Nat} {d : Nat} (hd : f v = g v + d)
    (hrest : ∀ u, u ≠ v → f u = g u) : (l.map f).sum = (l.map g).sum + d := by
  induction l with
  | nil => cases hv
  | cons u l ih =>
    obtain ⟨hu, hl⟩ := List.nodup_cons.mp hl
    simp only [List.map_cons, List.sum_cons]
    rcases List.mem_cons.mp hv with rfl | hv
    · rw [List.map_congr_left fun w hw => hrest w fun heq => hu (heq ▸ hw), hd]
      omega
    · rw [ih hl hv, hrest u fun heq => hu (heq ▸ hv)]
      omega

theorem turns_enter (hv : v < n) (hnew : s.index v = none) :
    turns n targets s = turns n targets (s.enter v) + ((targets v).length + 1) := by
  apply sum_map_of_eq_add List.nodup_range (List.mem_range.mpr hv)
  · simp [hnew, enter]
  · intro u hu
    simp [enter, hu]

theorem turns_le (s : Tarjan) : turns n targets s ≤ ((List.range n).map fun v => (targets v).length + 1).sum := by
  apply List.sum_le_sum
  intro v _
  split
  · exact Nat.le_refl _
  · exact Nat.zero_le _

/-! ## Single turns -/

theorem lower_index {i : Option Nat} (h : s.lower v i = some t) : t.index = s.index := by
  unfold lower at h
  cases hl : s.low v with
  | none => simp [hl] at h
  | some l =>
    cases i with
    | none => simp [hl] at h
    | some i =>
      simp only [hl, Option.bind_eq_bind, Option.bind_some, Option.some.injEq] at h
      rw [← h]

theorem loop_nil (m : Nat) : loop targets m [] s = some s := by
  cases m <;> rfl

theorem loop_enter (hnew : s.index v = none) (m : Nat) :
    loop targets (m + 1) ((v, 0) :: work) s = loop targets (m + 1) ((v, 0) :: work) (s.enter v) := by
  have hseen : (s.enter v).index v ≠ none := by simp [enter]
  simp only [loop, hnew, hseen, and_self, and_false, if_true, if_false]

/-- A turn at an edge. -/
theorem loop_edge (hv : s.index v ≠ none) (hw : (targets v)[e]? = some w) (m : Nat) :
    loop targets (m + 1) ((v, e) :: work) s =
      if s.index w = none then loop targets m ((w, 0) :: (v, e + 1) :: work) s
      else if s.onStack w then (s.lower v (s.index w)).bind (loop targets m ((v, e + 1) :: work))
      else loop targets m ((v, e + 1) :: work) s := by
  simp only [loop, hv, and_false, if_false, hw]

/-- A turn after the last edge. -/
theorem loop_finish (hv : s.index v ≠ none) (m : Nat) :
    loop targets (m + 1) ((v, (targets v).length) :: work) s = (s.finish v work).bind (loop targets m work) := by
  have hnone : (targets v)[(targets v).length]? = none := List.getElem?_eq_none (Nat.le_refl _)
  simp only [loop, hv, and_false, if_false, hnone]

/-! ## The recursion -/

theorem popComponent_eq {stack stack' group group' : List ModuleId} {onStack onStack' : ModuleId → Bool}
    (h : popGroup v stack onStack group = some (group', stack', onStack')) :
    popComponent v stack onStack group = (group', stack', onStack') := by
  induction stack generalizing onStack group with
  | nil => cases h
  | cons w stack ih =>
    rw [popGroup] at h
    rw [popComponent]
    by_cases hw : w = v
    · simpa [hw] using h
    · simp only [hw, if_false] at h ⊢
      exact ih h

theorem lowerParent_pop {i : Option Nat} (stack : List ModuleId) (onStack : ModuleId → Bool)
    (groups : List (List ModuleId)) :
    lowerParent { s with stack := stack, onStack := onStack, groups := groups } i work =
      (s.lowerParent i work).map fun s => { s with stack := stack, onStack := onStack, groups := groups } := by
  cases work with
  | nil => rfl
  | cons p work =>
    simp only [lowerParent, lower]
    cases s.low p.1 with
    | none => rfl
    | some l =>
      cases i with
      | none => rfl
      | some i => rfl

theorem lowerParent_same {i : Option Nat} (h : s.lowerParent i work = some t) :
    t.stack = s.stack ∧ t.onStack = s.onStack ∧ t.groups = s.groups := by
  cases work with
  | nil =>
    cases h
    exact ⟨rfl, rfl, rfl⟩
  | cons p work =>
    simp only [lowerParent, lower] at h
    cases hl : s.low p.1 with
    | none => simp [hl] at h
    | some l =>
      cases i with
      | none => simp [hl] at h
      | some i =>
        simp only [hl, Option.bind_eq_bind, Option.bind_some, Option.some.injEq] at h
        rw [← h]
        exact ⟨rfl, rfl, rfl⟩

/-- The resumed node is lowered before the component is popped, or after. -/
theorem finish_eq (h : s.leave v = some t) (work : List (ModuleId × Nat)) :
    s.finish v work = t.lowerParent (t.low v) work := by
  unfold leave at h
  cases hl : s.low v with
  | none => simp [hl] at h
  | some l =>
    cases hi : s.index v with
    | none => simp [hl, hi] at h
    | some i =>
      simp only [finish, hl, hi, Option.bind_eq_bind, Option.bind_some] at h ⊢
      by_cases hroot : l = i
      · simp only [hroot, if_true] at h ⊢
        cases hpop : popGroup v s.stack s.onStack [] with
        | none => simp [hpop] at h
        | some popped =>
          obtain ⟨group, stack, onStack⟩ := popped
          simp only [hpop, Option.bind_some, Option.some.injEq] at h
          subst h
          rw [hl, hroot]
          refine Eq.trans ?_ (lowerParent_pop stack onStack _).symm
          cases hlower : s.lowerParent (some i) work with
          | none => rfl
          | some s₁ =>
            obtain ⟨hstack, hon, hgroups⟩ := lowerParent_same hlower
            simp [hstack, hon, hgroups, popComponent_eq hpop]
      · simp only [hroot, if_false, Option.some.injEq] at h ⊢
        subst h
        rw [hl]
        cases s.lowerParent (some l) work <;> rfl

theorem leave_index (h : s.leave v = some t) : t.index = s.index := by
  unfold leave at h
  cases hl : s.low v with
  | none => simp [hl] at h
  | some l =>
    cases hi : s.index v with
    | none => simp [hl, hi] at h
    | some i =>
      simp only [hl, hi, Option.bind_eq_bind, Option.bind_some] at h
      by_cases hroot : l = i
      · simp only [hroot, if_true] at h
        cases hpop : popGroup v s.stack s.onStack [] with
        | none => simp [hpop] at h
        | some popped =>
          simp only [hpop, Option.bind_some, Option.some.injEq] at h
          rw [← h]
      · simp only [hroot, if_false, Option.some.injEq] at h
        rw [h]

/-- A call of the recursion is some turns of the loop, and lowers the node that is resumed. -/
def Simulated (n : Nat) (targets : ModuleId → List ModuleId) (visit : ModuleId → Tarjan → Option Tarjan) : Prop :=
  ∀ v s s', visit v s = some s' → s.index v = none → v < n →
    (∀ u, s.index u ≠ none → s'.index u ≠ none) ∧ s'.index v ≠ none ∧
    ∃ k, k + turns n targets s' ≤ turns n targets s ∧ ∀ m work,
      loop targets (k + m) ((v, 0) :: work) s = (s'.lowerParent (s'.low v) work).bind (loop targets m work)

theorem turns_congr (h : t.index = s.index) : turns n targets t = turns n targets s := by
  rw [turns, turns, h]

theorem visitEach_loop {visit : ModuleId → Tarjan → Option Tarjan} (hvisit : Simulated n targets visit)
    (hin : ∀ w ∈ targets v, w < n) (h : visitEach visit v ws s = some s') (hws : (targets v).drop e = ws)
    (hv : s.index v ≠ none) :
    (∀ u, s.index u ≠ none → s'.index u ≠ none) ∧
    ∃ k, k + turns n targets s' ≤ turns n targets s + ws.length ∧ ∀ m work,
      loop targets (k + m) ((v, e) :: work) s = loop targets m ((v, e + ws.length) :: work) s' := by
  induction ws generalizing e s with
  | nil =>
    cases h
    exact ⟨fun _ hu => hu, 0, by simp, fun m work => by simp⟩
  | cons w ws ih =>
    have hw : (targets v)[e]? = some w := by
      have := congrArg (·[0]?) hws
      simpa using this
    have hrest : (targets v).drop (e + 1) = ws := by
      rw [← List.drop_drop, hws]
      rfl
    -- What is left after the turn at this edge.
    have follow : ∀ {s₁ : Tarjan} {l : Nat}, visitEach visit v ws s₁ = some s' →
        (∀ u, s.index u ≠ none → s₁.index u ≠ none) → l + turns n targets s₁ ≤ turns n targets s →
        (∀ m work, loop targets (l + m + 1) ((v, e) :: work) s = loop targets m ((v, e + 1) :: work) s₁) →
        (∀ u, s.index u ≠ none → s'.index u ≠ none) ∧
        ∃ k, k + turns n targets s' ≤ turns n targets s + (w :: ws).length ∧ ∀ m work,
          loop targets (k + m) ((v, e) :: work) s = loop targets m ((v, e + (w :: ws).length) :: work) s' := by
      intro s₁ l hs₁ hkept hl hturn
      obtain ⟨hkept', k, hk, hloop⟩ := ih hs₁ hrest (hkept v hv)
      refine ⟨fun u hu => hkept' u (hkept u hu), l + k + 1, ?_, fun m work => ?_⟩
      · rw [List.length_cons]
        omega
      · rw [show l + k + 1 + m = l + (k + m) + 1 by omega, hturn, hloop, List.length_cons, Nat.add_right_comm,
          Nat.add_assoc]
    rw [visitEach] at h
    by_cases hnew : s.index w = none
    · simp only [hnew, Option.isNone_none, if_true] at h
      obtain ⟨s₁, hs₁, h⟩ := Option.bind_eq_some_iff.mp h
      obtain ⟨s₂, hs₂, h⟩ := Option.bind_eq_some_iff.mp h
      obtain ⟨hkept, -, l, hl, hloop⟩ := hvisit w s s₁ hs₁ hnew (hin w (List.mem_of_getElem? hw))
      have hindex := lower_index hs₂
      refine follow h (fun u hu => by rw [hindex]; exact hkept u hu) (by rw [turns_congr hindex]; exact hl)
        fun m work => ?_
      rw [loop_edge hv hw, if_pos hnew, hloop, lowerParent, hs₂, Option.bind_some]
    · have hsome : (s.index w).isNone = false := Option.isNone_eq_false_iff.mpr (Option.isSome_iff_ne_none.mpr hnew)
      simp only [hsome, Bool.false_eq_true, if_false] at h
      by_cases hon : s.onStack w
      · simp only [hon, if_true] at h
        obtain ⟨s₁, hs₁, h⟩ := Option.bind_eq_some_iff.mp h
        have hindex := lower_index hs₁
        refine follow h (l := 0) (fun u hu => by rwa [hindex]) (by rw [turns_congr hindex]; omega) fun m work => ?_
        rw [loop_edge hv hw, if_neg hnew, if_pos hon, hs₁, Option.bind_some, Nat.zero_add]
      · simp only [hon, Bool.false_eq_true, if_false] at h
        refine follow h (l := 0) (fun _ hu => hu) (by omega) fun m work => ?_
        rw [loop_edge hv hw, if_neg hnew, if_neg hon, Nat.zero_add]

theorem visit_simulated (hin : ∀ v, ∀ w ∈ targets v, w < n) (hout : ∀ v, n ≤ v → targets v = []) (fuel : Nat) :
    Simulated n targets (visit (lists n targets) fuel) := by
  induction fuel with
  | zero =>
    intro v s s' h
    cases h
  | succ fuel ih =>
    intro v s s' h hnew hv
    rw [visit, get_lists hout] at h
    obtain ⟨s₁, hs₁, hleave⟩ := Option.bind_eq_some_iff.mp h
    have hseen : (s.enter v).index v ≠ none := by simp [enter]
    obtain ⟨hkept, k, hk, hloop⟩ := visitEach_loop (e := 0) ih (hin v) hs₁ (by rw [List.drop_zero]) hseen
    have hindex := leave_index hleave
    refine ⟨fun u hu => ?_, ?_, k + 1, ?_, fun m work => ?_⟩
    · rw [hindex]
      apply hkept
      by_cases huv : u = v
      · rwa [huv]
      · simpa [enter, huv] using hu
    · rw [hindex]
      exact hkept v hseen
    · rw [turns_congr hindex, turns_enter hv hnew]
      omega
    · rw [Nat.add_right_comm, loop_enter hnew, Nat.add_assoc, hloop, Nat.zero_add, loop_finish (hkept v hseen),
        finish_eq hleave]

end Tarjan

theorem tarjanRoots_eq (hin : ∀ v, ∀ w ∈ targets v, w < n) (hout : ∀ v, n ≤ v → targets v = []) {vs : List ModuleId}
    (hvs : ∀ v ∈ vs, v < n) (h : visitNodes (lists n targets) fuel vs s = some s') :
    tarjanRoots targets ((List.range n).map fun v => (targets v).length + 1).sum vs s = some s' := by
  induction vs generalizing s with
  | nil => exact h
  | cons v vs ih =>
    obtain ⟨hv, hvs⟩ := List.forall_mem_cons.mp hvs
    rw [visitNodes] at h
    rw [tarjanRoots]
    by_cases hnew : s.index v = none
    · simp only [hnew, Option.isNone_none, if_true] at h ⊢
      obtain ⟨s₁, hs₁, h⟩ := Option.bind_eq_some_iff.mp h
      obtain ⟨-, -, k, hk, hloop⟩ := Tarjan.visit_simulated hin hout fuel v s s₁ hs₁ hnew hv
      have hle := @Tarjan.turns_le targets n s
      obtain ⟨m, hm⟩ := Nat.exists_eq_add_of_le ((Nat.le_add_right k _).trans (hk.trans hle))
      rw [hm, hloop, Tarjan.lowerParent, Option.bind_some, Tarjan.loop_nil, Option.bind_some, ← hm]
      exact ih hvs h
    · have hsome : (s.index v).isNone = false := Option.isNone_eq_false_iff.mpr (Option.isSome_iff_ne_none.mpr hnew)
      simp only [hsome, Bool.false_eq_true, if_false] at h
      rw [if_neg hnew]
      exact ih hvs h

/-- The components, each after those it imports, with its modules in order. -/
theorem tarjan_components {modules : ModuleMap} {graph : ImportGraph}
    (hin : ∀ v, ∀ w ∈ graph.targets v, w < modules.modules.length)
    (hout : ∀ v, modules.modules.length ≤ v → graph.targets v = []) :
    ∃ components, tarjan modules graph = some components ∧
      IsComponents (fun v w => w ∈ graph.targets v) modules.ids components ∧
      ∀ g ∈ components, g.Pairwise (· < ·) := by
  obtain ⟨groups, hgroups, hcomponents, hsorted⟩ :=
    stronglyConnected_components modules.ids (lists modules.modules.length graph.targets)
  have hpoints : Points (lists modules.modules.length graph.targets) = fun v w => w ∈ graph.targets v := by
    funext v w
    rw [Points, get_lists hout]
  rw [hpoints] at hcomponents
  obtain ⟨s, hs, hs'⟩ := Option.bind_eq_some_iff.mp hgroups
  cases hs'
  refine ⟨s.groups, ?_, hcomponents, hsorted⟩
  have hroots := tarjanRoots_eq hin hout (fun v hv => List.mem_range.mp hv) hs
  simp only [tarjan, ModuleMap.ids, hroots, Option.bind_eq_bind, Option.bind_some]

end Emela.Order
