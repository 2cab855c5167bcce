import Emela.Order.Lemmas.Components
import Emela.Order.InitOrder

/-!
# The search for a cycle through a trait

The path is one of supertraits, and the supertraits of what was seen and left again were seen. So where the search ends
without `start`, what `start` reaches was seen, and `start` is not among it.
-/

namespace Emela.Order

open Digraph Relation
open Infer (DefId)

variable {supers : DefLists} {start t u : DefId} {path seen order : List DefId}

/-- The state of the search: `seen` without `start`. -/
structure OnPath (supers : DefLists) (start : DefId) (path seen : List DefId) : Prop where
  head : path.head? = some start
  nodup : path.Nodup
  chain : path.IsChain (Points supers)
  onPath : ∀ u ∈ path, u = start ∨ u ∈ seen
  apart : start ∉ seen
  names : ∀ u ∈ seen, u ∈ supers.flatMap (·.2)
  closed : ∀ u ∈ seen, u ∉ path → ∀ w, Points supers u w → w ∈ seen

/-- What a part of the search ends with: a cycle through `start`, or the same path with more traits seen, `need` among them. -/
inductive GoesTo (supers : DefLists) (start : DefId) (path seen need : List DefId) :
    Bool × List DefId × List DefId → Prop where
  | cycle {c seen' : List DefId} : IsCycle (Points supers) c → start ∈ c →
      GoesTo supers start path seen need (true, c, seen')
  | done {seen' : List DefId} : OnPath supers start path seen' → seen ⊆ seen' → need ⊆ seen' →
      GoesTo supers start path seen need (false, path, seen')

theorem Points.mem_supers (h : Points supers t u) : u ∈ supers.flatMap (·.2) := by
  have hmem : u ∈ graphNames [] supers := h.mem_names
  rwa [graphNames, List.nil_append] at hmem

theorem OnPath.length_le (h : OnPath supers start path seen) : path.length ≤ (supers.flatMap (·.2)).length + 1 := by
  have hsub : path ⊆ start :: supers.flatMap (·.2) := by
    intro u hu
    rcases h.onPath u hu with rfl | hu
    · exact List.mem_cons_self
    · exact List.mem_cons_of_mem _ (h.names u hu)
  exact (h.nodup.subperm hsub).length_le

/-- One more supertrait on the path. -/
theorem OnPath.push (h : OnPath supers start path seen) (ht : path.getLast? = some t) (hu : Points supers t u)
    (hstart : u ≠ start) (hnew : u ∉ seen) : OnPath supers start (path ++ [u]) (u :: seen) := by
  have hpath : u ∉ path := fun hmem => (h.onPath u hmem).elim hstart hnew
  constructor
  case head => rw [List.head?_append, h.head, Option.some_or]
  case nodup => exact List.nodup_append'.mpr ⟨h.nodup, List.nodup_singleton u, by simpa using hpath⟩
  case chain =>
    refine List.isChain_append.mpr ⟨h.chain, .singleton u, ?_⟩
    rw [ht]
    simpa using hu
  case onPath =>
    intro w hw
    rcases List.mem_append.mp hw with hw | hw
    · exact (h.onPath w hw).imp_right (List.mem_cons_of_mem _)
    · rw [List.mem_singleton.mp hw]
      exact .inr List.mem_cons_self
  case apart => exact List.not_mem_cons_of_ne_of_not_mem (Ne.symm hstart) h.apart
  case names => exact List.forall_mem_cons.mpr ⟨hu.mem_supers, h.names⟩
  case closed =>
    intro w hw hno x hx
    rw [List.mem_append, List.mem_singleton, not_or] at hno
    rcases List.mem_cons.mp hw with rfl | hw
    · exact absurd rfl hno.2
    · exact List.mem_cons_of_mem _ (h.closed w hw hno.1 x hx)

/-- The last supertrait left again, after its own supertraits. -/
theorem OnPath.pop (h : OnPath supers start (path ++ [u]) seen) (hne : path ≠ [])
    (hu : ∀ w, Points supers u w → w ∈ seen) : OnPath supers start path seen := by
  constructor
  case head =>
    have hhead := h.head
    rwa [List.head?_append_of_ne_nil _ hne] at hhead
  case nodup => exact h.nodup.of_append_left
  case chain => exact (List.isChain_append.mp h.chain).1
  case onPath => exact fun w hw => h.onPath w (List.mem_append_left _ hw)
  case apart => exact h.apart
  case names => exact h.names
  case closed =>
    intro w hw hno x hx
    by_cases hwu : w = u
    · exact hu x (hwu ▸ hx)
    · exact h.closed w hw (by simp [hno, hwu]) x hx

/-- The path closes where `start` is met. -/
theorem OnPath.closes (h : OnPath supers start path seen) (ht : path.getLast? = some t)
    (hstart : Points supers t start) : IsCycle (Points supers) path := by
  cases path with
  | nil => cases ht
  | cons a path =>
    obtain rfl : a = start := Option.some.inj h.head
    refine List.isChain_append.mpr ⟨h.chain, .singleton a, ?_⟩
    rw [ht]
    simpa using hstart

/-- What a call for the last trait of a path ends with. -/
def Goes (supers : DefLists) (start : DefId) (length : Nat)
    (go : DefId → List DefId → List DefId → Option (Bool × List DefId × List DefId)) : Prop :=
  ∀ t path seen, OnPath supers start path seen → path.length = length → path.getLast? = some t →
    ∃ res, go t path seen = some res ∧ GoesTo supers start path seen (supers.get t) res

theorem goEach_goes {go : DefId → List DefId → List DefId → Option (Bool × List DefId × List DefId)}
    (hgo : Goes supers start (path.length + 1) go) (h : OnPath supers start path seen)
    (ht : path.getLast? = some t) {ts : List DefId} (hts : ∀ u ∈ ts, Points supers t u) :
    ∃ res, goEach go start ts path seen = some res ∧ GoesTo supers start path seen ts res := by
  have hne : path ≠ [] := by
    rintro rfl
    cases ht
  induction ts generalizing seen with
  | nil => exact ⟨_, rfl, .done h (List.Subset.refl _) (List.nil_subset _)⟩
  | cons u ts ih =>
    obtain ⟨hu, hrest⟩ := List.forall_mem_cons.mp hts
    rw [goEach]
    split_ifs with hstart hmem
    · exact ⟨_, rfl, .cycle (h.closes ht (hstart ▸ hu)) (List.mem_of_mem_head? h.head)⟩
    · obtain ⟨res, hres, hgoes⟩ := ih h hrest
      refine ⟨res, hres, ?_⟩
      cases hgoes with
      | cycle hcycle hstart => exact .cycle hcycle hstart
      | done hpath hseen hneed => exact .done hpath hseen (List.cons_subset.mpr ⟨hseen hmem, hneed⟩)
    · obtain ⟨res, hres, hgoes⟩ := hgo u _ _ (h.push ht hu hstart hmem) (by simp) List.getLast?_concat
      cases hgoes with
      | cycle hcycle hmem => exact ⟨_, by rw [hres]; rfl, .cycle hcycle hmem⟩
      | done hpath hseen hneed =>
        obtain ⟨res, hres', hgoes⟩ := ih (hpath.pop hne fun w hw => hneed hw) hrest
        refine ⟨res, ?_, ?_⟩
        · rw [hres]
          exact (congrArg (fun p => goEach go start ts p _) List.dropLast_concat).trans hres'
        obtain ⟨hmem, hseen⟩ := List.cons_subset.mp hseen
        cases hgoes with
        | cycle hcycle hstart => exact .cycle hcycle hstart
        | done hpath hseen' hneed' =>
          exact .done hpath (List.Subset.trans hseen hseen') (List.cons_subset.mpr ⟨hseen' hmem, hneed'⟩)

/-- The path has room for as many traits as there is fuel. -/
theorem go_goes (fuel length : Nat) (hfuel : (supers.flatMap (·.2)).length + 1 < fuel + length) :
    Goes supers start length (go supers start fuel) := by
  induction fuel generalizing length with
  | zero =>
    intro t path seen h hlength _
    have hle := h.length_le
    omega
  | succ fuel ih =>
    intro t path seen h hlength ht
    exact goEach_goes (ih _ (by omega)) h ht fun u hu => hu

/-- The search returns: a cycle through `start`, or nothing and then `start` is on none. -/
theorem cycleThrough_spec (supers : DefLists) (start : DefId) :
    (∃ cycle, cycleThrough supers start = some (some cycle) ∧ IsCycle (Points supers) cycle ∧ start ∈ cycle) ∨
      cycleThrough supers start = some none ∧ ¬TransGen (Points supers) start start := by
  have h : OnPath supers start [start] [] := by
    constructor <;> simp
  obtain ⟨res, hres, hgoes⟩ := go_goes _ 1 (Nat.lt_succ_self _) start [start] [] h rfl rfl
  cases hgoes with
  | cycle hcycle hmem => exact .inl ⟨_, by rw [cycleThrough, hres]; rfl, hcycle, hmem⟩
  | @done seen hpath _ hneed =>
    refine .inr ⟨by rw [cycleThrough, hres]; rfl, fun hback => hpath.apart ?_⟩
    obtain ⟨u, hu, hreach⟩ := TransGen.head'_iff.mp hback
    have hall : ∀ w, ReflTransGen (Points supers) u w → w ∈ seen := by
      intro w hw
      induction hw with
      | refl => exact hneed hu
      | @tail x y _ hxy ih =>
        refine hpath.closed x ih (fun hmem => hpath.apart ?_) y hxy
        rwa [← List.mem_singleton.mp hmem]
    exact hall start hreach

/-! ## The reports -/

variable {defs : DefId → Def}

/-- The report names the traits of the cycle, from one of them back to it, at that one. -/
def Reports (defs : DefId → Def) (supers : DefLists) (cycle : List DefId) (d : SupertraitCycle) : Prop :=
  IsCycle (Points supers) cycle ∧ ∃ t ts, (t :: ts).Perm cycle ∧ (t :: ts ++ [t]).IsChain (Points supers) ∧
    d.cycle = (t :: ts ++ [t]).map (fun t => (defs t).name) ∧ d.span = (defs t).span

theorem firstOf_lt {cycle : List DefId} (hne : cycle ≠ []) : firstOf order cycle < cycle.length := by
  rw [firstOf]
  cases hmin : (List.range cycle.length).argmin fun i => (cycle[i]?.bind (order.idxOf? ·)).getD (2 ^ 64 - 1) with
  | none => exact List.length_pos_iff.mpr hne
  | some m => exact List.mem_range.mp (List.argmin_mem hmin)

theorem report_spec {cycle : List DefId} (h : IsCycle (Points supers) cycle) :
    ∃ d, report defs order cycle = some d ∧ Reports defs supers cycle d := by
  have hlt : firstOf order cycle < cycle.length := firstOf_lt (isCycle_iff.mp h).1
  have hturn := h.turn hlt.le
  have hperm : (cycle.drop (firstOf order cycle) ++ cycle.take (firstOf order cycle)).Perm cycle := by
    have hcomm := @List.perm_append_comm _ (cycle.drop (firstOf order cycle)) (cycle.take (firstOf order cycle))
    rwa [List.take_append_drop] at hcomm
  rw [report]
  generalize firstOf order cycle = first at hlt hturn hperm
  have hdrop := List.drop_eq_getElem_cons hlt
  rw [hdrop] at hturn hperm ⊢
  rw [List.getElem?_eq_getElem hlt]
  refine ⟨_, rfl, h, cycle[first], cycle.drop (first + 1) ++ cycle.take first, hperm, hturn, ?_, rfl⟩
  simp only [List.map_append, List.map_cons, List.map_nil, List.cons_append]

/-- The loop over the traits: it finds cycles and reports each, and who is on a cycle is on one found. -/
theorem reportEach_spec {ts : List DefId} {cycles : List (List DefId)} {diags : List SupertraitCycle}
    (hdiags : List.Forall₂ (Reports defs supers) cycles diags) :
    ∃ cycles' diags', reportEach defs supers order ts cycles.flatten diags = some (cycles'.flatten, diags') ∧
      cycles ⊆ cycles' ∧ List.Forall₂ (Reports defs supers) cycles' diags' ∧
      ∀ t ∈ ts, TransGen (Points supers) t t → t ∈ cycles'.flatten := by
  induction ts generalizing cycles diags with
  | nil => exact ⟨cycles, diags, rfl, List.Subset.refl _, hdiags, by simp⟩
  | cons t ts ih =>
    have hmono : ∀ {cycles' : List (List DefId)}, cycles ⊆ cycles' → cycles.flatten ⊆ cycles'.flatten := by
      intro cycles' hsub u hu
      obtain ⟨cycle, hcycle, hmem⟩ := List.mem_flatten.mp hu
      exact List.mem_flatten.mpr ⟨cycle, hsub hcycle, hmem⟩
    rw [reportEach]
    split
    · next hmem =>
      obtain ⟨cs, ds, hrun, hsub, hds, hts⟩ := ih hdiags
      exact ⟨cs, ds, hrun, hsub, hds, List.forall_mem_cons.mpr ⟨fun _ => hmono hsub hmem, hts⟩⟩
    · rcases cycleThrough_spec supers t with ⟨cycle, hcycle, his, hmem⟩ | ⟨hnone, hno⟩
      · obtain ⟨d, hd, hreports⟩ : ∃ d, report defs order cycle = some d ∧ Reports defs supers cycle d :=
          report_spec his
        have hflatten : cycles.flatten ++ cycle = (cycles ++ [cycle]).flatten := by simp
        have hdiags' : List.Forall₂ (Reports defs supers) (cycles ++ [cycle]) (diags ++ [d]) :=
          List.rel_append hdiags (.cons hreports .nil)
        obtain ⟨cs, ds, hrun, hsub, hds, hts⟩ := ih hdiags'
        refine ⟨cs, ds, by simp only [hcycle, hd, hflatten, hrun, Option.bind_eq_bind, Option.bind_some], ?_, hds, ?_⟩
        · exact fun c hc => hsub (List.mem_append_left _ hc)
        · refine List.forall_mem_cons.mpr ⟨fun _ => ?_, hts⟩
          exact List.mem_flatten.mpr ⟨cycle, hsub (List.mem_append_right _ List.mem_cons_self), hmem⟩
      · obtain ⟨cs, ds, hrun, hsub, hds, hts⟩ := ih hdiags
        exact ⟨cs, ds, by simp [hnone, hrun], hsub, hds, List.forall_mem_cons.mpr ⟨fun h => absurd h hno, hts⟩⟩

/-! ## Without the cycles -/

theorem get_clear (supers : DefLists) (reported : List DefId) (t : DefId) :
    (supers.clear reported).get t = if t ∈ reported then [] else supers.get t := by
  induction supers with
  | nil => simp [DefLists.clear, DefLists.get]
  | cons e supers ih =>
    obtain ⟨k, ts⟩ := e
    simp only [DefLists.clear, DefLists.get, List.map_cons] at ih ⊢
    by_cases hkt : t = k
    · subst hkt
      by_cases hmem : t ∈ reported
      · simp [hmem]
      · simp [hmem]
    · have hne : (t == k) = false := by simpa using hkt
      by_cases hmem : k ∈ reported
      · simpa only [if_pos hmem, List.lookup_cons, hne] using ih
      · simpa only [if_neg hmem, List.lookup_cons, hne] using ih

/-- A trait on a cycle has supertraits. -/
theorem mem_keys_of_cycle {t : DefId} (ht : TransGen (Points supers) t t) : t ∈ supers.map (·.1) := by
  obtain ⟨u, hu, -⟩ := TransGen.head'_iff.mp ht
  rw [Points, DefLists.get] at hu
  cases hlookup : supers.lookup t with
  | none => simp [hlookup] at hu
  | some ts =>
    obtain ⟨before, after, rfl, -⟩ := List.lookup_eq_some_iff.mp hlookup
    simp

/-- Cycles are reported, one by one, all that is on a cycle is on one of these, and without the supertraits of what is on
them there is no cycle. -/
theorem checkCycles_spec (defs : DefId → Def) (supers : DefLists) :
    ∃ supers' diags cycles, checkCycles defs supers = some (supers', diags) ∧
      (∀ t, ¬TransGen (Points supers') t t) ∧ List.Forall₂ (Reports defs supers) cycles diags ∧
      supers' = supers.clear cycles.flatten ∧ ∀ t, TransGen (Points supers) t t → t ∈ cycles.flatten := by
  obtain ⟨cycles, diags, hrun, -, hdiags, hts⟩ :=
    @reportEach_spec supers (supers.map (·.1)).mergeSort defs (supers.map (·.1)).mergeSort [] [] .nil
  have hon : ∀ t, TransGen (Points supers) t t → t ∈ cycles.flatten := fun t ht =>
    hts t ((List.mergeSort_perm _ _).mem_iff.mpr (mem_keys_of_cycle ht)) ht
  refine ⟨supers.clear cycles.flatten, diags, cycles, ?_, fun t ht => ?_, hdiags, rfl, hon⟩
  · rw [List.flatten_nil] at hrun
    simp [checkCycles, hrun]
  · have hsub : ∀ u w, Points (supers.clear cycles.flatten) u w → u ∉ cycles.flatten ∧ Points supers u w := by
      intro u w huw
      rw [Points, get_clear] at huw
      split at huw
      · cases huw
      · exact ⟨‹_›, huw⟩
    obtain ⟨u, hu, -⟩ := TransGen.head'_iff.mp ht
    exact (hsub t u hu).1 (hon t (TransGen.mono (fun u w huw => (hsub u w huw).2) _ _ ht))

end Emela.Order
