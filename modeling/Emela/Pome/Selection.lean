import Mathlib
import Emela.Pome.Lemmas.Mvs

/-!
# Minimal version selection selects the maxima

The graph is any function from the pairs of path and version to their requirements. It may have cycles;
what the roots reach in it is finite.
-/

namespace Emela.Pome

open Worklist

variable {ε : Type} {graph : Requirements ε} {root : List (SourcePath × Version)}

/-- What the roots reach: the requirements of every reachable version count. -/
abbrev Reached (graph : Requirements ε) (root : List (SourcePath × Version)) (path : SourcePath)
    (version : Version) : Prop :=
  Reach (requirementsOf graph) root (path, version)

/-- The loop ends. -/
theorem buildList_isSome (hfin : {q | Reach (requirementsOf graph) root q}.Finite) :
    ∃ N, ∀ fuel ≥ N, (buildList graph fuel root).isSome := by
  let U := hfin.toFinset
  refine ⟨root.length + pending (requirementsOf graph) U [] + 1, fun fuel hfuel => ?_⟩
  rw [buildList_eq, Option.isSome_map]
  apply visits_isSome (U := U)
  · intro a ha bs hbs b hb
    have hreach : Reach (requirementsOf graph) root a := hfin.mem_toFinset.mp ha
    exact hfin.mem_toFinset.mpr (Reach.step hreach hbs hb)
  · exact fun a ha => hfin.mem_toFinset.mpr (.root ha)
  · omega

/-- An error of the loop is the graph's, at a reachable version. -/
theorem buildList_error {fuel : Nat} {e : ε} (h : buildList graph fuel root = some (.error e)) :
    ∃ path version, Reached graph root path version ∧ graph path version = .error e := by
  rw [buildList_eq] at h
  obtain ⟨r, hr, he⟩ := Option.map_eq_some_iff.mp h
  cases r with
  | error e' =>
    cases he
    obtain ⟨⟨path, version⟩, hreach, he⟩ := visits_error hr
    exact ⟨path, version, hreach, he⟩
  | ok order => cases he

/-- The loop ends with a build list when every reachable version tells its requirements. -/
theorem buildList_ends (hfin : {q | Reach (requirementsOf graph) root q}.Finite)
    (hreqs : ∀ path version, Reached graph root path version → ∃ reqs, graph path version = .ok reqs) :
    ∃ N, ∀ fuel ≥ N, ∃ selected, buildList graph fuel root = some (.ok selected) := by
  obtain ⟨N, hN⟩ := buildList_isSome hfin
  refine ⟨N, fun fuel hfuel => ?_⟩
  obtain ⟨r, hr⟩ := Option.isSome_iff_exists.mp (hN fuel hfuel)
  cases r with
  | error e =>
    obtain ⟨path, version, hreach, he⟩ := buildList_error hr
    obtain ⟨reqs, hok⟩ := hreqs path version hreach
    cases he.symm.trans hok
  | ok selected => exact ⟨selected, hr⟩

/-- The build list has each reachable path once, with the largest version reachable for it, and comes out
the same for every order of the roots and of the requirements. -/
theorem buildList_selects_maxima (hfin : {q | Reach (requirementsOf graph) root q}.Finite)
    (hreqs : ∀ path version, Reached graph root path version → ∃ reqs, graph path version = .ok reqs) :
    ∃ selected : BuildList,
      (∃ N, ∀ fuel ≥ N, buildList graph fuel root = some (.ok selected)) ∧
      (selected.map Prod.fst).Nodup ∧
      (∀ path, path ∈ selected.map Prod.fst ↔ ∃ version, Reached graph root path version) ∧
      (∀ path version, (path, version) ∈ selected →
        Reached graph root path version ∧ ∀ other, Reached graph root path other → other ≤ version) ∧
      ∀ (graph' : Requirements ε) (root' : List (SourcePath × Version)), root.Perm root' →
        (∀ path version reqs, graph path version = .ok reqs →
          ∃ reqs', graph' path version = .ok reqs' ∧ reqs.Perm reqs') →
        ∃ N, ∀ fuel ≥ N, buildList graph' fuel root' = some (.ok selected) := by
  obtain ⟨N, hN⟩ := buildList_ends hfin hreqs
  obtain ⟨selected, hsel⟩ := hN N le_rfl
  have hlargest := buildList_largest hsel
  refine ⟨selected, ⟨N, fun fuel hfuel => ?_⟩, ?_, fun path => ?_, fun path version h => ?_, fun graph' root' hroot hgraph => ?_⟩
  · obtain ⟨selected', hsel'⟩ := hN fuel hfuel
    rw [hsel', hlargest.unique (buildList_largest hsel')]
  · refine List.pairwise_map.mpr (hlargest.ascending.imp fun hlt he => ?_)
    rw [he, Std.ReflOrd.compare_self] at hlt
    cases hlt
  · constructor
    · intro h
      obtain ⟨⟨p, version⟩, hq, rfl⟩ := List.mem_map.mp h
      exact ⟨version, hlargest.mem ((get_eq_some hlargest.ascending).mpr hq)⟩
    · rintro ⟨version, h⟩
      obtain ⟨w, hw⟩ := hlargest.isSome h
      exact List.mem_map.mpr ⟨_, (get_eq_some hlargest.ascending).mp hw, rfl⟩
  · exact hlargest.get_iff.mp ((get_eq_some hlargest.ascending).mpr h)
  · -- The other order reaches the same pairs, and they have one map of largest versions.
    have hsame : ∀ q, Reach (requirementsOf graph') root' q ↔ Reach (requirementsOf graph) root q := by
      intro q
      constructor
      · refine fun h => h.mem_of_closed (fun a ha => .root (hroot.mem_iff.mpr ha)) fun a bs ha hbs b hb => ?_
        obtain ⟨reqs, hok⟩ := hreqs a.1 a.2 ha
        obtain ⟨reqs', hok', hperm⟩ := hgraph a.1 a.2 reqs hok
        cases hok'.symm.trans hbs
        exact .step ha hok (hperm.mem_iff.mpr hb)
      · refine fun h => h.mono (fun a ha => hroot.mem_iff.mp ha) fun a bs hbs => ?_
        obtain ⟨reqs', hok', hperm⟩ := hgraph a.1 a.2 bs hbs
        exact ⟨reqs', hok', fun b hb => hperm.mem_iff.mp hb⟩
    obtain ⟨N', hN'⟩ : ∃ N, ∀ fuel ≥ N, ∃ selected', buildList graph' fuel root' = some (.ok selected') :=
      buildList_ends (hfin.subset fun q hq => (hsame q).mp hq) fun path version h => by
        obtain ⟨reqs, hok⟩ := hreqs path version ((hsame _).mp h)
        obtain ⟨reqs', hok', -⟩ := hgraph path version reqs hok
        exact ⟨reqs', hok'⟩
    refine ⟨N', fun fuel hfuel => ?_⟩
    obtain ⟨selected', hsel'⟩ := hN' fuel hfuel
    rw [hsel', hlargest.unique ((buildList_largest hsel').congr hsame)]

/-! ## Two Pomes that require each other -/

def pathA : SourcePath := ⟨['e', '/', 'a']⟩
def pathB : SourcePath := ⟨['e', '/', 'b']⟩

def v1_9 : Version := ⟨⟨1, 9, 0, []⟩, ['v', '1', '.', '9', '.', '0'], by decide⟩
def v1_10 : Version := ⟨⟨1, 10, 0, []⟩, ['v', '1', '.', '1', '0', '.', '0'], by decide⟩

/-- `a` requires `b`, which requires a later `a`. -/
def mutualGraph : Requirements Unit := fun path _ =>
  if path = pathA then .ok [(pathB, v1_9)] else .ok [(pathA, v1_10)]

theorem reached_mutual {q : SourcePath × Version} (h : Reach (requirementsOf mutualGraph) [(pathA, v1_9)] q) :
    q ∈ [(pathA, v1_9), (pathA, v1_10), (pathB, v1_9)] := by
  refine h.mem_of_closed (S := (· ∈ [(pathA, v1_9), (pathA, v1_10), (pathB, v1_9)])) (by simp) ?_
  intro a bs _ hbs b hb
  simp only [requirementsOf, mutualGraph] at hbs
  split at hbs <;> cases hbs <;> simp_all

/-- The requirement of the version that is not selected counts, and the later `a` is selected. -/
theorem buildList_selects_maxima_mutual :
    ∃ selected : BuildList,
      (∃ N, ∀ fuel ≥ N, buildList mutualGraph fuel [(pathA, v1_9)] = some (.ok selected)) ∧
      (pathA, v1_10) ∈ selected ∧ (pathA, v1_9) ∉ selected := by
  have hfin : {q | Reach (requirementsOf mutualGraph) [(pathA, v1_9)] q}.Finite :=
    (List.finite_toSet [(pathA, v1_9), (pathA, v1_10), (pathB, v1_9)]).subset fun _ => reached_mutual
  obtain ⟨selected, hends, -, hpaths, hmax, -⟩ := buildList_selects_maxima hfin fun path _ _ => by
    simp only [mutualGraph]
    split <;> exact ⟨_, rfl⟩
  have hroot : Reached mutualGraph [(pathA, v1_9)] pathA v1_9 := .root (by simp)
  have hb : Reached mutualGraph [(pathA, v1_9)] pathB v1_9 := .step hroot rfl (by simp)
  have hlater : Reached mutualGraph [(pathA, v1_9)] pathA v1_10 := .step hb rfl (by simp)
  have hnot : (pathA, v1_9) ∉ selected := fun h => by
    have hle : (compare v1_10 v1_9).isLE := (hmax _ _ h).2 _ hlater
    exact absurd hle (by decide)
  obtain ⟨⟨path, version⟩, hq, hpath⟩ := List.mem_map.mp ((hpaths pathA).mpr ⟨_, hroot⟩)
  obtain rfl : path = pathA := hpath
  have hin := reached_mutual (hmax _ _ hq).1
  simp only [List.mem_cons, Prod.mk.injEq, true_and, List.not_mem_nil, or_false] at hin
  obtain rfl | rfl | ⟨hab, -⟩ := hin
  · exact absurd hq hnot
  · exact ⟨selected, hends, hq, hnot⟩
  · exact absurd hab (by decide)

end Emela.Pome
