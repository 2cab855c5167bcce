import Emela.Lib.Worklist
import Emela.Pome.Fetch
import Emela.Pome.Lemmas.Version

/-!
# The build list as a maximum over a traversal

The loop visits the pairs of path and version as a worklist does, and keeps the largest version of each
path among those visited.
-/

namespace Emela.Pome

open Std Worklist

variable {ε : Type} {graph : Requirements ε} {selected selected' : BuildList} {path p : SourcePath}
  {version v w : Version}

/-- The requirements of a pair. -/
def requirementsOf (graph : Requirements ε) (q : SourcePath × Version) : Except ε (List (SourcePath × Version)) :=
  graph q.1 q.2

/-! ## Versions as numbers -/

theorem Version.le_refl (v : Version) : v ≤ v := by
  show (compare v v).isLE
  rw [ReflOrd.compare_self]
  rfl

theorem Version.le_trans {u v w : Version} (h : u ≤ v) (h' : v ≤ w) : u ≤ w := TransCmp.isLE_trans h h'

theorem Version.le_antisymm {v w : Version} (h : v ≤ w) (h' : w ≤ v) : v = w :=
  LawfulEqOrd.eq_of_compare (OrientedCmp.isLE_antisymm h h')

theorem Version.isGE_iff {v w : Version} : (compare v w).isGE ↔ w ≤ v := by
  show _ ↔ (compare w v).isLE
  rw [(OrientedCmp.eq_swap : compare v w = (compare w v).swap), Ordering.isGE_swap]

theorem Version.le_of_not_ge {v w : Version} (h : ¬w ≤ v) : v ≤ w := by
  have h' : ¬(compare v w).isGE := fun hge => h (Version.isGE_iff.mp hge)
  show (compare v w).isLE
  cases hc : compare v w <;> simp_all

/-! ## The largest of each path -/

/-- The map has the largest version of each path of the set. -/
structure Largest (S : SourcePath × Version → Prop) (selected : BuildList) : Prop where
  ascending : Assoc.Ascending selected
  isSome : ∀ {p v}, S (p, v) → ∃ w, selected.get p = some w
  mem : ∀ {p v}, selected.get p = some v → S (p, v)
  max : ∀ {p v w}, selected.get p = some v → S (p, w) → w ≤ v

theorem get_put (h : Assoc.Ascending selected) :
    BuildList.get (Assoc.put path version selected) p = if p = path then some version else selected.get p := by
  simp only [BuildList.get, Assoc.entryAt_put h, LawfulEqOrd.compare_eq_iff_eq]
  split <;> rfl

theorem get_eq_some (h : Assoc.Ascending selected) : selected.get p = some v ↔ (p, v) ∈ selected := by
  simp [BuildList.get, Assoc.entryAt_eq_some h]

theorem Largest.get_iff {S : SourcePath × Version → Prop} (h : Largest S selected) :
    selected.get p = some v ↔ S (p, v) ∧ ∀ w, S (p, w) → w ≤ v := by
  constructor
  · exact fun hv => ⟨h.mem hv, fun w hw => h.max hv hw⟩
  · rintro ⟨hv, hmax⟩
    obtain ⟨w, hw⟩ := h.isSome hv
    rw [hw, Version.le_antisymm (hmax w (h.mem hw)) (h.max hw hv)]

/-- There is one such map. -/
theorem Largest.unique {S : SourcePath × Version → Prop} (h : Largest S selected) (h' : Largest S selected') :
    selected = selected' := by
  have hmem : ∀ q, q ∈ selected ↔ q ∈ selected' := fun q => by
    rw [← get_eq_some h.ascending, ← get_eq_some h'.ascending, h.get_iff, h'.get_iff]
  have hnodup : ∀ {l : BuildList}, Assoc.Ascending l → l.Nodup := fun h => h.imp fun hlt he => by
    rw [he, ReflOrd.compare_self] at hlt
    cases hlt
  refine List.Perm.eq_of_pairwise ?_ h.ascending h'.ascending
    ((List.perm_ext_iff_of_nodup (hnodup h.ascending) (hnodup h'.ascending)).mpr hmem)
  intro q r _ _ hqr hrq
  rw [OrientedCmp.gt_of_lt hqr] at hrq
  cases hrq

theorem Largest.congr {S T : SourcePath × Version → Prop} (h : Largest S selected) (hST : ∀ q, S q ↔ T q) :
    Largest T selected := by
  obtain rfl : S = T := funext fun q => propext (hST q)
  exact h

theorem Largest.nil : Largest (fun _ => False) [] where
  ascending := List.Pairwise.nil
  isSome := False.elim
  mem h := by cases h
  max h := by cases h

/-- A version that is not below the one selected takes its place. -/
theorem Largest.put {S : SourcePath × Version → Prop} (h : Largest S selected)
    (hge : ∀ v, selected.get path = some v → v ≤ version) :
    Largest (fun q => S q ∨ q = (path, version)) (Assoc.put path version selected) where
  ascending := Assoc.ascending_put h.ascending
  isSome {p v} hv := by
    rw [get_put h.ascending]
    split
    · exact ⟨version, rfl⟩
    · next hp => exact hv.elim h.isSome fun he => absurd (congrArg Prod.fst he) hp
  mem {p v} hv := by
    rw [get_put h.ascending] at hv
    split at hv
    · next hp =>
      cases hv
      exact .inr (by rw [hp])
    · exact .inl (h.mem hv)
  max {p v w} hv hw := by
    rw [get_put h.ascending] at hv
    split at hv
    · next hp =>
      cases hv
      subst hp
      obtain hw | hw := hw
      · obtain ⟨u, hu⟩ := h.isSome hw
        exact Version.le_trans (h.max hu hw) (hge u hu)
      · cases hw
        exact Version.le_refl _
    · next hp => exact hw.elim (h.max hv) fun he => absurd (congrArg Prod.fst he) hp

theorem Largest.select {S : SourcePath × Version → Prop} (h : Largest S selected) :
    Largest (fun q => S q ∨ q = (path, version)) (select selected path version) := by
  unfold Pome.select
  cases hcur : selected.get path with
  | none => exact h.put fun v hv => by rw [hcur] at hv; cases hv
  | some current =>
    dsimp only
    split
    · next hge =>
      have hle : version ≤ current := Version.isGE_iff.mp hge
      refine ⟨h.ascending, fun hv => hv.elim h.isSome ?_, fun hv => .inl (h.mem hv), fun hv hw => ?_⟩
      · rintro ⟨⟩
        exact ⟨current, hcur⟩
      · obtain hw | hw := hw
        · exact h.max hv hw
        · cases hw
          cases hcur.symm.trans hv
          exact hle
    · next hlt =>
      refine h.put fun v hv => ?_
      cases hcur.symm.trans hv
      exact Version.le_of_not_ge fun hge => hlt (Version.isGE_iff.mpr hge)

theorem Largest.foldl {S : SourcePath × Version → Prop} (h : Largest S selected) (order : List (SourcePath × Version)) :
    Largest (fun q => S q ∨ q ∈ order) (order.foldl (fun s q => Pome.select s q.1 q.2) selected) := by
  induction order generalizing S selected with
  | nil => exact h.congr fun q => by simp
  | cons q order ih => exact (ih h.select).congr fun r => by simp [or_assoc]

/-! ## The loop is the traversal -/

theorem visited_iff {seen : List (SourcePath × Version)} :
    (path, version.raw) ∈ seen.map (fun q => (q.1, q.2.raw)) ↔ (path, version) ∈ seen := by
  rw [List.mem_map]
  constructor
  · rintro ⟨⟨p, v⟩, hq, he⟩
    simp only [Prod.mk.injEq] at he
    rw [← he.1, ← Version.raw_injective he.2]
    exact hq
  · exact fun h => ⟨_, h, rfl⟩

/-- A pair is looked up by the text of its version, which tells versions apart. -/
theorem buildLoop_eq (fuel : Nat) (selected : BuildList) (seen queue : List (SourcePath × Version)) :
    buildLoop graph fuel selected (seen.map fun q => (q.1, q.2.raw)) queue =
      (visits (requirementsOf graph) fuel seen queue).map fun r =>
        r.map fun order => order.foldl (fun s q => select s q.1 q.2) selected := by
  induction fuel generalizing selected seen queue with
  | zero => rfl
  | succ fuel ih =>
    cases queue with
    | nil => rfl
    | cons q queue =>
      obtain ⟨path, version⟩ := q
      by_cases hs : (path, version) ∈ seen
      · rw [buildLoop, if_pos (visited_iff.mpr hs), visits_seen hs, ih]
      · rw [buildLoop, if_neg fun h => hs (visited_iff.mp h)]
        cases hreqs : graph path version with
        | error e =>
          rw [visits_failed hs (e := e) hreqs]
          rfl
        | ok reqs =>
          rw [visits_new hs (show requirementsOf graph (path, version) = .ok reqs from hreqs)]
          simp only [Option.map_map]
          rw [← List.map_cons (f := fun q : SourcePath × Version => (q.1, q.2.raw)) (a := (path, version)), ih]
          congr 1
          funext r
          cases r <;> rfl

theorem buildList_eq (fuel : Nat) (root : List (SourcePath × Version)) :
    buildList graph fuel root = (visits (requirementsOf graph) fuel [] root).map fun r =>
      r.map fun order => order.foldl (fun s q => select s q.1 q.2) [] :=
  buildLoop_eq fuel [] [] root

/-- What a finished run selects is the largest of what is reached. -/
theorem buildList_largest {fuel : Nat} {root : List (SourcePath × Version)}
    (h : buildList graph fuel root = some (.ok selected)) :
    Largest (Reach (requirementsOf graph) root) selected := by
  rw [buildList_eq, Option.map_eq_some_iff] at h
  obtain ⟨r, hr, hsel⟩ := h
  cases r with
  | error e => cases hsel
  | ok order =>
    cases hsel
    exact (Largest.nil.foldl order).congr fun q => by simp [visits_iff_reach hr]

end Emela.Pome
