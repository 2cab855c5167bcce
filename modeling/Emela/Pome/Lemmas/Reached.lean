import Mathlib
import Emela.Pome.Resolve
import Emela.Pome.Selection

/-!
# What the requirements of a Pome reach

`reached` of `mvs.rs` over a graph that is a function: the least set that has the paths of the roots' own build
list and the requirements of the selected version of each of its paths.
-/

namespace Emela.Pome

open Std Worklist

variable {ε : Type} {graph : Requirements ε} {roots : List (SourcePath × Version)} {selected : BuildList}
  {seen queue built : List SourcePath}

/-- The paths of the roots' own build list. -/
def OwnPaths (graph : Requirements ε) (roots : List (SourcePath × Version)) : Set SourcePath :=
  {path | ∃ version, Reached graph roots path version}

/-- The set has the requirements of the selected version of each of its paths. -/
def ClosedUnder (graph : Requirements ε) (selected : BuildList) (S : Set SourcePath) : Prop :=
  ∀ path ∈ S, ∀ version reqs, selected.get path = some version → graph path version = .ok reqs → ∀ r ∈ reqs, r.1 ∈ S

/-! ## The requirements of one Pome -/

theorem mem_reachMore (reqs : List (SourcePath × Version)) (seen queue : List SourcePath) (p : SourcePath) :
    p ∈ (reachMore reqs seen queue).1 ↔ p ∈ seen ∨ ∃ r ∈ reqs, r.1 = p := by
  induction reqs generalizing seen queue with
  | nil => simp [reachMore]
  | cons r reqs ih =>
    obtain ⟨path, version⟩ := r
    rw [reachMore]
    split
    · next hmem =>
      rw [ih]
      simp only [List.mem_cons, exists_eq_or_imp]
      constructor
      · exact Or.imp_right .inr
      · rintro (h | rfl | h)
        · exact .inl h
        · exact .inl hmem
        · exact .inr h
    · rw [ih]
      simp only [List.mem_cons, exists_eq_or_imp, or_assoc]
      constructor
      · rintro (rfl | h | h)
        · exact .inr (.inl rfl)
        · exact .inl h
        · exact .inr (.inr h)
      · rintro (h | rfl | h)
        · exact .inr (.inl h)
        · exact .inl rfl
        · exact .inr (.inr h)

/-- What is seen and was not before is to do, next to what was. -/
theorem reachMore_queue (reqs : List (SourcePath × Version)) (seen queue : List SourcePath) :
    (∀ p ∈ queue, p ∈ (reachMore reqs seen queue).2) ∧
      (∀ p ∈ (reachMore reqs seen queue).2, p ∈ queue ∨ ∃ r ∈ reqs, r.1 = p) ∧
      ∀ p ∈ (reachMore reqs seen queue).1, p ∈ seen ∨ p ∈ (reachMore reqs seen queue).2 := by
  induction reqs generalizing seen queue with
  | nil => exact ⟨fun p hp => hp, fun p hp => .inl hp, fun p hp => .inl hp⟩
  | cons r reqs ih =>
    obtain ⟨path, version⟩ := r
    rw [reachMore]
    split
    · obtain ⟨hqueue, hmore, hseen⟩ := ih seen queue
      exact ⟨hqueue, fun p hp => (hmore p hp).imp_right fun ⟨r, hr, he⟩ => ⟨r, List.mem_cons_of_mem _ hr, he⟩, hseen⟩
    · obtain ⟨hqueue, hmore, hseen⟩ := ih (path :: seen) (path :: queue)
      refine ⟨fun p hp => hqueue p (List.mem_cons_of_mem _ hp), fun p hp => ?_, fun p hp => ?_⟩
      · rcases hmore p hp with hp | ⟨r, hr, he⟩
        · rcases List.mem_cons.mp hp with rfl | hp
          · exact .inr ⟨_, List.mem_cons_self, rfl⟩
          · exact .inl hp
        · exact .inr ⟨r, List.mem_cons_of_mem _ hr, he⟩
      rcases hseen p hp with hp | hp
      · rcases List.mem_cons.mp hp with rfl | hp
        · exact .inr (hqueue p List.mem_cons_self)
        · exact .inl hp
      · exact .inr hp

/-- Each path goes to the queue at most once. -/
theorem reachMore_length {U : Finset SourcePath} (reqs : List (SourcePath × Version)) (seen queue : List SourcePath)
    (hU : ∀ r ∈ reqs, r.1 ∈ U) :
    (reachMore reqs seen queue).2.length + (U.filter (· ∉ (reachMore reqs seen queue).1)).card =
      queue.length + (U.filter (· ∉ seen)).card := by
  induction reqs generalizing seen queue with
  | nil => rfl
  | cons r reqs ih =>
    obtain ⟨path, version⟩ := r
    obtain ⟨hpath, hU⟩ := List.forall_mem_cons.mp hU
    rw [reachMore]
    split
    · exact ih seen queue hU
    · next hnew =>
      rw [ih (path :: seen) (path :: queue) hU]
      have hsplit : U.filter (· ∉ seen) = insert path (U.filter (· ∉ path :: seen)) := by
        ext q
        simp only [Finset.mem_filter, Finset.mem_insert, List.mem_cons, not_or]
        constructor
        · rintro ⟨hq, hn⟩
          exact (em (q = path)).imp_right fun hne => ⟨hq, hne, hn⟩
        · rintro (rfl | ⟨hq, -, hn⟩)
          · exact ⟨hpath, hnew⟩
          · exact ⟨hq, hn⟩
      rw [hsplit, Finset.card_insert_of_notMem (by simp), List.length_cons]
      omega

/-! ## The loop -/

theorem reachLoopM_cons (fuel : Nat) (path : SourcePath) :
    reachLoopM graph selected (fuel + 1) seen (path :: queue) = match selected.get path with
      | none => reachLoopM graph selected fuel seen queue
      | some version => match graph path version with
        | .error e => .error e
        | .ok reqs => reachLoopM graph selected fuel (reachMore reqs seen queue).1 (reachMore reqs seen queue).2 := by
  rw [reachLoopM]
  cases selected.get path with
  | none => rfl
  | some version =>
    dsimp only
    cases graph path version with
    | error e => rfl
    | ok reqs => rfl

/-- What is seen and not to do any more has its requirements seen. -/
def Settled (graph : Requirements ε) (selected : BuildList) (seen queue : List SourcePath) : Prop :=
  ∀ path ∈ seen, path ∉ queue → ∀ version reqs, selected.get path = some version → graph path version = .ok reqs →
    ∀ r ∈ reqs, r.1 ∈ seen

theorem Settled.next {path : SourcePath} {version : Version} {reqs : List (SourcePath × Version)}
    (h : Settled graph selected seen (path :: queue)) (hversion : selected.get path = some version)
    (hreqs : graph path version = .ok reqs) :
    Settled graph selected (reachMore reqs seen queue).1 (reachMore reqs seen queue).2 := by
  obtain ⟨hqueue, -, hnew⟩ := reachMore_queue reqs seen queue
  intro p hp hdone v rs hv hrs r hr
  rw [mem_reachMore]
  have hseen := (hnew p hp).resolve_right hdone
  by_cases hpath : p = path
  · subst hpath
    cases hversion.symm.trans hv
    cases hreqs.symm.trans hrs
    exact .inr ⟨r, hr, rfl⟩
  · refine .inl (h p hseen (fun hmem => ?_) v rs hv hrs r hr)
    exact (List.mem_cons.mp hmem).elim hpath fun hmem => hdone (hqueue p hmem)

theorem reachLoopM_ok {fuel : Nat} (h : reachLoopM graph selected fuel seen queue = .ok (some built))
    (hsettled : Settled graph selected seen queue) (hqueue : ∀ p ∈ queue, p ∈ seen) :
    (∀ p ∈ seen, p ∈ built) ∧ ClosedUnder graph selected {p | p ∈ built} ∧
      ∀ S : Set SourcePath, (∀ p ∈ seen, p ∈ S) → ClosedUnder graph selected S → ∀ p ∈ built, p ∈ S := by
  induction fuel generalizing seen queue with
  | zero => cases h
  | succ fuel ih =>
    cases queue with
    | nil =>
      cases h
      refine ⟨fun p hp => hp, fun p hp v reqs hv hreqs r hr => ?_, fun S hS _ => hS⟩
      exact hsettled p hp List.not_mem_nil v reqs hv hreqs r hr
    | cons path queue =>
      rw [reachLoopM_cons] at h
      have hpath := hqueue path List.mem_cons_self
      have hrest : ∀ p ∈ queue, p ∈ seen := fun p hp => hqueue p (List.mem_cons_of_mem _ hp)
      split at h
      · next hnone =>
        refine ih h (fun p hp hdone v reqs hv => ?_) hrest
        refine hsettled p hp (fun hmem => ?_) v reqs hv
        rcases List.mem_cons.mp hmem with rfl | hmem
        · rw [hnone] at hv
          cases hv
        · exact hdone hmem
      · next version hversion =>
        split at h
        · cases h
        · next reqs hreqs =>
          obtain ⟨hsub, hclosed, hleast⟩ := ih h (hsettled.next hversion hreqs) fun p hp =>
            (mem_reachMore reqs seen queue p).mpr (((reachMore_queue reqs seen queue).2.1 p hp).imp_left (hrest p))
          refine ⟨fun p hp => hsub p ((mem_reachMore reqs seen queue p).mpr (.inl hp)), hclosed, fun S hS hSclosed => ?_⟩
          refine hleast S (fun p hp => ?_) hSclosed
          rcases (mem_reachMore reqs seen queue p).mp hp with hp | ⟨r, hr, rfl⟩
          · exact hS p hp
          · exact hSclosed path (hS path hpath) version reqs hversion hreqs r hr

/-- In a finite set of paths the loop ends. -/
theorem reachLoopM_ends {U : Finset SourcePath} {fuel : Nat}
    (hU : ∀ p ∈ U, ∀ v reqs, selected.get p = some v → graph p v = .ok reqs → ∀ r ∈ reqs, r.1 ∈ U)
    (hqueue : ∀ p ∈ queue, p ∈ U) (hfuel : queue.length + (U.filter (· ∉ seen)).card < fuel) :
    reachLoopM graph selected fuel seen queue ≠ .ok none := by
  induction fuel generalizing seen queue with
  | zero => exact absurd hfuel (Nat.not_lt_zero _)
  | succ fuel ih =>
    cases queue with
    | nil => exact fun h => by cases h
    | cons path queue =>
      obtain ⟨hpath, hqueue⟩ := List.forall_mem_cons.mp hqueue
      rw [List.length_cons] at hfuel
      rw [reachLoopM_cons]
      split
      · exact ih hqueue (by omega)
      · next version hversion =>
        split
        · exact fun h => by cases h
        · next reqs hreqs =>
          have hin := hU path hpath version reqs hversion hreqs
          apply ih
          · intro p hp
            rcases (reachMore_queue reqs seen queue).2.1 p hp with hp | ⟨r, hr, rfl⟩
            · exact hqueue p hp
            · exact hin r hr
          · rw [reachMore_length reqs seen queue hin]
            omega

/-! ## The set -/

theorem buildListM_eq_ok {fuel : Nat} {list : BuildList} :
    buildListM graph fuel roots = .ok (some list) ↔ buildList graph fuel roots = some (.ok list) := by
  rw [buildListM, buildLoopM_except, buildList]
  cases buildLoop graph fuel [] [] roots with
  | none => simp
  | some r => cases r <;> simp

theorem reachedM_eq_ok {fuel : Nat} :
    reachedM graph fuel roots selected = .ok (some built) ↔ ∃ list, buildList graph fuel roots = some (.ok list) ∧
      reachLoopM graph selected fuel (list.map (·.1)) (list.map (·.1)).reverse = .ok (some built) := by
  simp only [← buildListM_eq_ok]
  rw [reachedM]
  cases hlist : buildListM graph fuel roots with
  | error e => simp [bind, Except.bind]
  | ok r => cases r <;> simp [bind, Except.bind, pure, Except.pure]

theorem ownPaths_eq {fuel : Nat} {list : BuildList} (h : buildList graph fuel roots = some (.ok list)) (p : SourcePath) :
    p ∈ list.map (·.1) ↔ p ∈ OwnPaths graph roots := by
  have hlargest := buildList_largest h
  constructor
  · intro hp
    obtain ⟨⟨p, v⟩, hq, rfl⟩ := List.mem_map.mp hp
    exact ⟨v, hlargest.mem ((get_eq_some hlargest.ascending).mpr hq)⟩
  · rintro ⟨v, hv⟩
    obtain ⟨w, hw⟩ := hlargest.isSome hv
    exact List.mem_map.mpr ⟨_, (get_eq_some hlargest.ascending).mp hw, rfl⟩

/-- What comes back is the least set with the paths of the own build list that is closed. -/
theorem reachedM_isLeast {fuel : Nat} (h : reachedM graph fuel roots selected = .ok (some built)) :
    IsLeast {S | OwnPaths graph roots ⊆ S ∧ ClosedUnder graph selected S} {p | p ∈ built} := by
  obtain ⟨list, hlist, h⟩ := reachedM_eq_ok.mp h
  have hown := ownPaths_eq hlist
  obtain ⟨hsub, hclosed, hleast⟩ := reachLoopM_ok h
    (fun p hp hnot => absurd (List.mem_reverse.mpr hp) hnot) (fun p hp => List.mem_reverse.mp hp)
  refine ⟨⟨fun p hp => hsub p ((hown p).mpr hp), hclosed⟩, fun S hS p hp => ?_⟩
  exact hleast S (fun q hq => hS.1 ((hown q).mp hq)) hS.2 p hp

/-- The selection of a larger set of requirements is closed, and has the paths of the smaller one. -/
theorem selection_closed {all : List (SourcePath × Version)} {fuel : Nat}
    (hselected : buildList graph fuel all = some (.ok selected)) (hsub : ∀ r ∈ roots, r ∈ all) :
    OwnPaths graph roots ⊆ {p | p ∈ selected.map (·.1)} ∧ ClosedUnder graph selected {p | p ∈ selected.map (·.1)} := by
  have hown := ownPaths_eq hselected
  refine ⟨fun p hp => ?_, fun p _ v reqs hv hreqs r hr => ?_⟩
  · obtain ⟨v, hv⟩ := hp
    exact (hown p).mpr ⟨v, hv.mono hsub fun a bs hbs => ⟨bs, hbs, fun b hb => hb⟩⟩
  · exact (hown r.1).mpr ⟨r.2, .step ((buildList_largest hselected).mem hv) hreqs hr⟩

/-- A Pome that the roots need: one of their own build list, or one that the selected version of a needed Pome
requires. -/
inductive Needed (graph : Requirements ε) (roots : List (SourcePath × Version)) (selected : BuildList) :
    SourcePath → Prop where
  | own {path version} : Reached graph roots path version → Needed graph roots selected path
  | required {path version reqs r} : Needed graph roots selected path → selected.get path = some version →
      graph path version = .ok reqs → r ∈ reqs → Needed graph roots selected r.1

theorem needed_isLeast :
    IsLeast {S | OwnPaths graph roots ⊆ S ∧ ClosedUnder graph selected S} {p | Needed graph roots selected p} := by
  refine ⟨⟨fun p hp => ?_, fun p hp v reqs hv hreqs r hr => .required hp hv hreqs hr⟩, fun S hS p hp => ?_⟩
  · obtain ⟨v, hv⟩ := hp
    exact .own hv
  · induction hp with
    | own h => exact hS.1 ⟨_, h⟩
    | required _ hv hreqs hr ih => exact hS.2 _ ih _ _ hv hreqs _ hr

/-- The paths required by the version selected. -/
def requiredPaths (graph : Requirements ε) (q : SourcePath × Version) : List SourcePath :=
  match graph q.1 q.2 with
  | .ok reqs => reqs.map (·.1)
  | .error _ => []

/-- There are no more needed Pomes than those of the own build list and those required by the selection. -/
theorem needed_finite (hfin : {q | Reach (requirementsOf graph) roots q}.Finite) :
    {p | Needed graph roots selected p}.Finite := by
  refine ((hfin.image (·.1)).union (List.finite_toSet (selected.flatMap (requiredPaths graph)))).subset fun p hp => ?_
  cases hp with
  | own h => exact .inl ⟨(p, _), h, rfl⟩
  | @required path _ _ r _ hv hreqs hr =>
    obtain ⟨q, hentry, rfl⟩ := Option.map_eq_some_iff.mp hv
    obtain rfl : path = q.1 := by
      have hpath := List.find?_some hentry
      simpa using hpath
    refine .inr (List.mem_flatMap.mpr ⟨q, List.mem_of_find?_eq_some hentry, ?_⟩)
    rw [requiredPaths, hreqs]
    exact List.mem_map.mpr ⟨r, hr, rfl⟩

/-- An error of the loop is the graph's, at the selected version of a needed Pome. -/
theorem reachLoopM_error {fuel : Nat} {e : ε} (h : reachLoopM graph selected fuel seen queue = .error e)
    (hqueue : ∀ p ∈ queue, Needed graph roots selected p) :
    ∃ path version, Needed graph roots selected path ∧ selected.get path = some version ∧
      graph path version = .error e := by
  induction fuel generalizing seen queue with
  | zero => cases h
  | succ fuel ih =>
    cases queue with
    | nil => cases h
    | cons path queue =>
      obtain ⟨hpath, hqueue⟩ := List.forall_mem_cons.mp hqueue
      rw [reachLoopM_cons] at h
      split at h
      · exact ih h hqueue
      · next version hversion =>
        split at h
        · next e' he =>
          cases h
          exact ⟨path, version, hpath, hversion, he⟩
        · next reqs hreqs =>
          refine ih h fun p hp => ?_
          rcases (reachMore_queue reqs seen queue).2.1 p hp with hp | ⟨r, hr, rfl⟩
          · exact hqueue p hp
          · exact .required hpath hversion hreqs hr

/-- A build list has each path once, so no more than there are needed Pomes. -/
theorem buildList_length_le {fuel : Nat} {list : BuildList} (h : buildList graph fuel roots = some (.ok list))
    (hfin : {p | Needed graph roots selected p}.Finite) : list.length ≤ hfin.toFinset.card := by
  have hnodup : (list.map (·.1)).Nodup := by
    refine List.pairwise_map.mpr ((buildList_largest h).ascending.imp fun hlt he => ?_)
    rw [he, ReflOrd.compare_self] at hlt
    cases hlt
  rw [← List.length_map (f := (·.1)), ← List.toFinset_card_of_nodup hnodup]
  refine Finset.card_le_card fun p hp => ?_
  obtain ⟨v, hv⟩ := (ownPaths_eq h p).mp (List.mem_toFinset.mp hp)
  exact hfin.mem_toFinset.mpr (.own hv)

/-- When the roots reach finitely many versions the loops end: with a set, or with an error of the graph. -/
theorem reachedM_ends (hfin : {q | Reach (requirementsOf graph) roots q}.Finite) :
    ∃ N, ∀ fuel ≥ N, (∃ built, reachedM graph fuel roots selected = .ok (some built)) ∨
      ∃ e path version, reachedM graph fuel roots selected = .error e ∧ graph path version = .error e ∧
        (Reached graph roots path version ∨
          Needed graph roots selected path ∧ selected.get path = some version) := by
  obtain ⟨N, hN⟩ := buildList_isSome hfin
  have hneeded : {p | Needed graph roots selected p}.Finite := needed_finite hfin
  refine ⟨max N (2 * hneeded.toFinset.card + 1), fun fuel hfuel => ?_⟩
  obtain ⟨r, hr⟩ := Option.isSome_iff_exists.mp (hN fuel (by omega))
  cases r with
  | error e =>
    obtain ⟨path, version, hreached, he⟩ := buildList_error hr
    refine .inr ⟨e, path, version, ?_, he, .inl hreached⟩
    rw [reachedM, buildListM, buildLoopM_except]
    rw [buildList] at hr
    rw [hr]
    rfl
  | ok list =>
    have hown : ∀ p ∈ (list.map (·.1)).reverse, Needed graph roots selected p := fun p hp => by
      obtain ⟨v, hv⟩ := (ownPaths_eq hr p).mp (List.mem_reverse.mp hp)
      exact .own hv
    have hends : reachLoopM graph selected fuel (list.map (·.1)) (list.map (·.1)).reverse ≠ .ok none := by
      apply reachLoopM_ends (U := hneeded.toFinset)
      · intro p hp v reqs hv hreqs r hr
        exact hneeded.mem_toFinset.mpr (.required (hneeded.mem_toFinset.mp hp) hv hreqs hr)
      · exact fun p hp => hneeded.mem_toFinset.mpr (hown p hp)
      · have hlength := buildList_length_le hr hneeded
        have hcard := Finset.card_filter_le hneeded.toFinset (· ∉ list.map (·.1))
        rw [List.length_reverse, List.length_map]
        omega
    rcases hloop : reachLoopM graph selected fuel (list.map (·.1)) (list.map (·.1)).reverse with e | _ | built
    · obtain ⟨path, version, hpath, hversion, he⟩ := reachLoopM_error hloop hown
      refine .inr ⟨e, path, version, ?_, he, .inr ⟨hpath, hversion⟩⟩
      rw [reachedM, buildListM_eq_ok.mpr hr]
      exact hloop
    · exact absurd hloop hends
    · exact .inl ⟨built, reachedM_eq_ok.mpr ⟨list, hr, hloop⟩⟩

end Emela.Pome
