import Emela.Lib.Digraph
import Emela.Order.InitOrder

/-!
# The search for a cycle

Vertices in progress are the path, and the vertices done can be ordered with each after those it depends on. So a
vertex in progress that is met again closes a cycle, and a search that ends without one has seen that there is none.
-/

namespace Emela.Order

open Digraph Relation

section
variable {edges : Nat → List Nat} {n : Nat} {s s' : Search} {fin fin' : List Nat} {v w : Nat}

/-- The edges as a relation. -/
def Edge (edges : Nat → List Nat) (v w : Nat) : Prop := w ∈ edges v

/-- `fin` are the vertices done, the last one first. -/
structure Search.Inv (edges : Nat → List Nat) (n : Nat) (s : Search) (fin : List Nat) : Prop where
  nodup : s.path.Nodup
  bound : ∀ u ∈ s.path, u < n
  chain : s.path.IsChain (Edge edges)
  inProgress : ∀ u, s.state u = .inProgress ↔ u ∈ s.path
  done : ∀ u, s.state u = .done ↔ u ∈ fin
  finished : Finished (Edge edges) fin

/-- What a part of the search ends with: a cycle, or the same path with more vertices done, `need` among them. -/
inductive Outcome (edges : Nat → List Nat) (n : Nat) (s : Search) (fin need : List Nat) :
    Option (List Nat) × Search → Prop where
  | cycle {c : List Nat} {s' : Search} : IsCycle (Edge edges) c → Outcome edges n s fin need (some c, s')
  | done {s' : Search} {fin' : List Nat} : s'.Inv edges n fin' → s'.path = s.path → fin ⊆ fin' → need ⊆ fin' →
      Outcome edges n s fin need (none, s')

theorem Search.Inv.length_le (h : s.Inv edges n fin) : s.path.length ≤ n := by
  have hsub : s.path ⊆ List.range n := fun u hu => List.mem_range.mpr (h.bound u hu)
  have hle := (h.nodup.subperm hsub).length_le
  rwa [List.length_range] at hle

/-! ## Starting and leaving a vertex -/

theorem Search.Inv.enter (h : s.Inv edges n fin) (hv : v < n) (hstate : s.state v = .unvisited)
    (hlast : ∀ u ∈ s.path.getLast?, Edge edges u v) :
    Search.Inv edges n ⟨Function.update s.state v .inProgress, s.path ++ [v]⟩ fin := by
  have hnew : v ∉ s.path := fun hmem => by simp [(h.inProgress v).mpr hmem] at hstate
  have hnot : v ∉ fin := fun hmem => by simp [(h.done v).mpr hmem] at hstate
  refine ⟨?_, ?_, ?_, ?_, ?_, h.finished⟩
  · exact List.nodup_append'.mpr ⟨h.nodup, List.nodup_singleton v, by simpa using hnew⟩
  · intro u hu
    rcases List.mem_append.mp hu with hu | hu
    · exact h.bound u hu
    · exact List.mem_singleton.mp hu ▸ hv
  · exact List.isChain_append.mpr ⟨h.chain, .singleton v, by simpa using hlast⟩
  · intro u
    rw [List.mem_append, List.mem_singleton, ← h.inProgress]
    by_cases huv : u = v
    · simp [huv]
    · simp [huv]
  · intro u
    rw [← h.done]
    by_cases huv : u = v
    · rw [huv]
      simp [hstate]
    · simp [huv]

theorem Search.Inv.leave {path : List Nat} (h : s.Inv edges n fin) (hpath : s.path = path ++ [v])
    (hedges : edges v ⊆ fin) :
    Search.Inv edges n ⟨Function.update s.state v .done, s.path.dropLast⟩ (v :: fin) := by
  have hdrop : s.path.dropLast = path := by rw [hpath, List.dropLast_concat]
  have hstate : s.state v = .inProgress := (h.inProgress v).mpr (by simp [hpath])
  have hnot : v ∉ fin := fun hmem => by simp [(h.done v).mpr hmem] at hstate
  have hnodup : (path ++ [v]).Nodup := hpath ▸ h.nodup
  have hv : v ∉ path := by
    intro hmem
    exact List.disjoint_of_nodup_append hnodup hmem List.mem_cons_self
  simp only [hdrop]
  refine ⟨hnodup.of_append_left, ?_, ?_, ?_, ?_, hnot, fun w hw => hedges hw, h.finished⟩
  · intro u hu
    exact h.bound u (by simp [hpath, hu])
  · exact (List.isChain_append.mp (hpath ▸ h.chain)).1
  · intro u
    by_cases huv : u = v
    · simp [huv, hv]
    · have hother := h.inProgress u
      rw [hpath] at hother
      simpa [huv] using hother
  · intro u
    by_cases huv : u = v
    · simp [huv]
    · simpa [huv] using h.done u

/-- A vertex in progress closes a cycle with the path from it. -/
theorem Search.Inv.closes {path : List Nat} (h : s.Inv edges n fin) (hpath : s.path = path ++ [v])
    (hw : s.state w = .inProgress) (hedge : Edge edges v w) :
    ∃ start, s.path.idxOf? w = some start ∧ IsCycle (Edge edges) (s.path.drop start) := by
  have hmem : w ∈ s.path := (h.inProgress w).mp hw
  obtain ⟨start, hstart⟩ := Option.isSome_iff_exists.mp (List.isSome_idxOf?.mpr hmem)
  obtain ⟨hlt, hget, -⟩ := List.idxOf?_eq_some_iff.mp hstart
  refine ⟨start, hstart, ?_⟩
  have hdrop : s.path.drop start = w :: s.path.drop (start + 1) := by rw [List.drop_eq_getElem_cons hlt, hget]
  have hlast : ∀ u ∈ (s.path.drop start).getLast?, Edge edges u w := by
    rw [List.getLast?_drop, if_neg (Nat.not_le.mpr hlt), hpath, List.getLast?_concat]
    rintro u ⟨⟩
    exact hedge
  have hchain := List.isChain_append.mpr ⟨h.chain.drop start, .singleton w, by simpa using hlast⟩
  rw [hdrop] at hchain ⊢
  exact hchain

/-! ## The search -/

/-- What a visit of any vertex that `v`, the last of the path, depends on ends with. -/
def Visits (edges : Nat → List Nat) (n : Nat) (visit : Nat → Search → Option (Option (List Nat) × Search))
    (length : Nat) : Prop :=
  ∀ (w : Nat) (s : Search) (fin : List Nat), s.Inv edges n fin → s.path.length = length → w < n →
    s.state w = .unvisited → (∀ u ∈ s.path.getLast?, Edge edges u w) →
    ∃ res, visit w s = some res ∧ Outcome edges n s fin [w] res

theorem visitEach_outcome {visit : Nat → Search → Option (Option (List Nat) × Search)} {path ws : List Nat}
    (hvisit : Visits edges n visit (path.length + 1)) (hinv : s.Inv edges n fin) (hpath : s.path = path ++ [v])
    (hws : ∀ w ∈ ws, w < n ∧ Edge edges v w) :
    ∃ res, visitEach visit ws s = some res ∧ Outcome edges n s fin ws res := by
  induction ws generalizing s fin with
  | nil => exact ⟨_, rfl, .done hinv rfl (List.Subset.refl _) (List.nil_subset _)⟩
  | cons w ws ih =>
    obtain ⟨hw, hedge⟩ := hws w List.mem_cons_self
    have hrest : ∀ u ∈ ws, u < n ∧ Edge edges v u := fun u hu => hws u (List.mem_cons_of_mem _ hu)
    rw [visitEach]
    split
    case h_1 hstate =>
      obtain ⟨start, hstart, hcycle⟩ := hinv.closes hpath hstate hedge
      exact ⟨_, by rw [hstart]; rfl, .cycle hcycle⟩
    case h_2 hstate =>
      have hlast : ∀ u ∈ s.path.getLast?, Edge edges u w := by
        rw [hpath, List.getLast?_concat]
        rintro u ⟨⟩
        exact hedge
      obtain ⟨res, hres, hout⟩ := hvisit w s fin hinv (by simp [hpath]) hw hstate hlast
      rw [hres]
      cases hout with
      | cycle hcycle => exact ⟨_, rfl, .cycle hcycle⟩
      | done hinv' hpath' hfin hneed =>
        obtain ⟨res, hres, hout⟩ := ih hinv' (hpath'.trans hpath) hrest
        refine ⟨res, hres, ?_⟩
        cases hout with
        | cycle hcycle => exact .cycle hcycle
        | done hinv'' hpath'' hfin' hneed' =>
          exact .done hinv'' (hpath''.trans hpath') (List.Subset.trans hfin hfin')
            (List.cons_subset.mpr ⟨hfin' (hneed List.mem_cons_self), hneed'⟩)
    case h_3 hstate =>
      obtain ⟨res, hres, hout⟩ := ih hinv hpath hrest
      refine ⟨res, hres, ?_⟩
      cases hout with
      | cycle hcycle => exact .cycle hcycle
      | done hinv' hpath' hfin hneed =>
        exact .done hinv' hpath' hfin (List.cons_subset.mpr ⟨hfin ((hinv.done w).mp hstate), hneed⟩)

/-- The path has room for as many vertices as there is fuel. -/
theorem visit_outcome (hedges : ∀ v, ∀ w ∈ edges v, w < n) (fuel length : Nat) (hfuel : n ≤ fuel + length) :
    Visits edges n (visit edges fuel) length := by
  induction fuel generalizing length with
  | zero =>
    intro v s fin hinv hlength hv hstate hlast
    have hle := (hinv.enter hv hstate hlast).length_le
    rw [List.length_append, List.length_singleton, hlength] at hle
    omega
  | succ fuel ih =>
    intro v s fin hinv hlength hv hstate hlast
    have henter := hinv.enter hv hstate hlast
    obtain ⟨res, hres, hout⟩ := visitEach_outcome (ih (s.path.length + 1) (by omega)) henter rfl
      (fun w hw => ⟨hedges v w hw, hw⟩)
    rw [visit]
    simp only [hres, Option.bind_eq_bind, Option.bind_some]
    cases hout with
    | cycle hcycle => exact ⟨_, rfl, .cycle hcycle⟩
    | done hinv' hpath' hfin hneed =>
      refine ⟨_, rfl, .done (hinv'.leave hpath' hneed) ?_ ?_ ?_⟩
      · rw [hpath', List.dropLast_concat]
      · exact List.Subset.trans hfin (List.subset_cons_self _ _)
      · exact List.cons_subset.mpr ⟨List.mem_cons_self, List.nil_subset _⟩

/-- The search returns: a cycle, or nothing and then no vertex is on one. -/
theorem findCycleFrom_outcome (hedges : ∀ v, ∀ w ∈ edges v, w < n) {vs : List Nat} (hvs : ∀ v ∈ vs, v < n)
    {state : Nat → Mark} (hinv : Search.Inv edges n ⟨state, []⟩ fin) :
    (∃ c, findCycleFrom n edges vs state = some (some c) ∧ IsCycle (Edge edges) c) ∨
      findCycleFrom n edges vs state = some none ∧ ∀ v ∈ vs ++ fin, ¬ TransGen (Edge edges) v v := by
  induction vs generalizing state fin with
  | nil => exact .inr ⟨rfl, fun v hv => hinv.finished.acyclic hv⟩
  | cons v vs ih =>
    have hrest : ∀ u ∈ vs, u < n := fun u hu => hvs u (List.mem_cons_of_mem _ hu)
    rw [findCycleFrom]
    split
    case isTrue hstate =>
      obtain ⟨res, hres, hout⟩ := visit_outcome hedges n 0 (by simp) v ⟨state, []⟩ fin hinv rfl
        (hvs v List.mem_cons_self) hstate (by simp)
      rw [hres]
      cases hout with
      | cycle hcycle => exact .inl ⟨_, rfl, hcycle⟩
      | @done s' fin' hinv' hpath' hfin hneed =>
        have hempty : s' = ⟨s'.state, []⟩ := by
          have hpath : s'.path = [] := hpath'
          rw [← hpath]
        rw [hempty] at hinv'
        rcases ih hrest hinv' with hfound | ⟨hnone, hacyclic⟩
        · exact .inl hfound
        · refine .inr ⟨hnone, ?_⟩
          intro u hu
          apply hacyclic
          simp only [List.cons_append, List.mem_cons, List.mem_append] at hu ⊢
          rcases hu with rfl | hu | hu
          · exact .inr (hneed List.mem_cons_self)
          · exact .inl hu
          · exact .inr (hfin hu)
    case isFalse hstate =>
      have hv : v ∈ fin := by
        cases h : state v with
        | unvisited => exact absurd h hstate
        | inProgress => exact absurd ((hinv.inProgress v).mp h) List.not_mem_nil
        | done => exact (hinv.done v).mp h
      rcases ih hrest hinv with hfound | ⟨hnone, hacyclic⟩
      · exact .inl hfound
      · refine .inr ⟨hnone, ?_⟩
        intro u hu
        apply hacyclic
        simp only [List.cons_append, List.mem_cons, List.mem_append] at hu ⊢
        rcases hu with rfl | hu
        · exact .inr hv
        · exact hu

theorem findCycle_outcome (hedges : ∀ v, ∀ w ∈ edges v, w < n) :
    (∃ c, findCycle n edges = some (some c) ∧ IsCycle (Edge edges) c) ∨
      findCycle n edges = some none ∧ ∀ v < n, ¬ TransGen (Edge edges) v v := by
  have hinv : Search.Inv edges n ⟨fun _ => .unvisited, []⟩ [] := by
    refine ⟨List.nodup_nil, ?_, .nil, ?_, ?_, trivial⟩ <;> simp
  rcases findCycleFrom_outcome hedges (fun v hv => List.mem_range.mp hv) hinv with hfound | ⟨hnone, hacyclic⟩
  · exact .inl hfound
  · exact .inr ⟨hnone, fun v hv => hacyclic v (by simpa using hv)⟩

end

/-! ## Placing the entries

The loop of `init_order` places the first entry whose dependencies are placed each time. -/

open Infer (Row)

variable {entries : List Entry} {deps : List Row} {done : Nat → Bool} {i j n : Nat}

/-- The dependency relation of the entries. -/
def DependsOn (entries : List Entry) (deps : List Row) (i j : Nat) : Prop := depends entries deps i j = true

theorem DependsOn.lt (h : DependsOn entries deps i j) : j < entries.length := by
  rw [DependsOn, depends] at h
  split at h
  · exact (List.getElem?_eq_some_iff.mp ‹entries[j]? = some _›).1
  · cases h

theorem not_dependsOn_self : ¬ DependsOn entries deps i i := by
  intro h
  rw [DependsOn, depends] at h
  split at h
  · simp at h
  · cases h

theorem edge_iff : Edge (fun i => (List.range entries.length).filter (depends entries deps i ·)) i j ↔
    DependsOn entries deps i j := by
  rw [Edge, List.mem_filter, List.mem_range]
  exact ⟨And.right, fun h => ⟨DependsOn.lt h, h⟩⟩

/-- The entries not placed yet. -/
def left (n : Nat) (done : Nat → Bool) : List Nat := (List.range n).filter (! done ·)

theorem mem_left : i ∈ left n done ↔ i < n ∧ done i = false := by
  simp [left]

theorem left_update (n a : Nat) (done : Nat → Bool) :
    left n (Function.update done a true) = (left n done).erase a := by
  rw [left, left, (List.nodup_range.filter _).erase_eq_filter, List.filter_filter]
  congr 1
  funext i
  by_cases hi : i = a <;> simp [hi]

theorem find_ready {next : Nat}
    (h : (List.range entries.length).find? (fun i => ! done i &&
      (List.range entries.length).all fun j => done j || ! depends entries deps i j) = some next) :
    next ∈ left entries.length done ∧ Ready (DependsOn entries deps) (left entries.length done) next ∧
      ∀ b ∈ left entries.length done, Ready (DependsOn entries deps) (left entries.length done) b → next ≤ b := by
  have hready : ∀ i, i ∈ left entries.length done → ((! done i &&
      (List.range entries.length).all fun j => done j || ! depends entries deps i j) = true ↔
      Ready (DependsOn entries deps) (left entries.length done) i) := by
    intro i hi
    rw [mem_left] at hi
    simp only [hi.2, Bool.not_false, Bool.true_and, List.all_eq_true, List.mem_range, Bool.or_eq_true,
      Bool.not_eq_true', Ready, mem_left, DependsOn, Bool.not_eq_true]
    constructor
    · intro hall b hb
      exact (hall b hb.1).resolve_left (by simp [hb.2])
    · intro hall b hb
      cases hdone : done b with
      | true => exact .inl rfl
      | false => exact .inr (hall b ⟨hb, hdone⟩)
  rw [List.find?_range_eq_some] at h
  obtain ⟨hp, hmem, hfirst⟩ := h
  have hleft : next ∈ left entries.length done := by
    rw [Bool.and_eq_true, Bool.not_eq_true'] at hp
    exact mem_left.mpr ⟨List.mem_range.mp hmem, hp.1⟩
  refine ⟨hleft, (hready next hleft).mp hp, ?_⟩
  intro b hb hbready
  by_contra hlt
  have hno := hfirst b (Nat.lt_of_not_le hlt)
  rw [(hready b hb).mpr hbready] at hno
  cases hno

theorem placeAll_greedy (hacyclic : ∀ i, ¬ TransGen (DependsOn entries deps) i i) (k : Nat) (done : Nat → Bool)
    (order : List Nat) (hk : (left entries.length done).length = k) :
    ∃ l, placeAll entries deps k done order = some (order ++ l) ∧
      Greedy (DependsOn entries deps) (left entries.length done) l := by
  induction k generalizing done order with
  | zero =>
    rw [List.length_eq_zero_iff.mp hk]
    exact ⟨[], by simp [placeAll], .nil⟩
  | succ k ih =>
    have hne : left entries.length done ≠ [] := by
      intro hnil
      simp [hnil] at hk
    obtain ⟨a, ha, hready⟩ := exists_ready hne fun i _ => hacyclic i
    obtain ⟨next, hnext⟩ : ∃ next, (List.range entries.length).find? (fun i => ! done i &&
        (List.range entries.length).all fun j => done j || ! depends entries deps i j) = some next := by
      rw [← Option.isSome_iff_exists, List.find?_isSome]
      rw [mem_left] at ha
      refine ⟨a, List.mem_range.mpr ha.1, ?_⟩
      simp only [ha.2, Bool.not_false, Bool.true_and, List.all_eq_true, List.mem_range, Bool.or_eq_true,
        Bool.not_eq_true']
      intro b hb
      cases hdone : done b with
      | true => exact .inl rfl
      | false => exact .inr (by simpa [DependsOn] using hready b (mem_left.mpr ⟨hb, hdone⟩))
    obtain ⟨hmem, hready, hleast⟩ := find_ready hnext
    have hlength : (left entries.length (Function.update done next true)).length = k := by
      rw [left_update, List.length_erase_of_mem hmem, hk]
      rfl
    obtain ⟨l, hl, hgreedy⟩ := ih _ (order ++ [next]) hlength
    rw [left_update] at hgreedy
    refine ⟨next :: l, ?_, .cons hmem hready hleast hgreedy⟩
    rw [placeAll, hnext]
    simpa using hl

end Emela.Order
