import Emela.Lib.Digraph
import Emela.Order.InitOrder

/-!
# The groups of the search

Of the definitions on the stack an earlier one reaches every later one, and each reaches one in progress that is
earlier. So where nothing above `v` points below it, what is above `v` is its component.
-/

namespace Emela.Order

open Digraph Relation
open Infer (DefId)

variable {nodes : List DefId} {edges : DefLists} {s s' s₀ : Tarjan} {gray ws done : List DefId} {u v w x y : DefId}

/-! ## Edges -/

/-- The lists of the map as edges. -/
def Points (lists : DefLists) (v w : DefId) : Prop := w ∈ lists.get v

theorem Points.mem_names (h : Points edges v w) : w ∈ graphNames nodes edges := by
  rw [Points, DefLists.get] at h
  cases hlookup : edges.lookup v with
  | none => simp [hlookup] at h
  | some ws =>
    rw [hlookup, Option.getD_some] at h
    obtain ⟨before, after, rfl, -⟩ := List.lookup_eq_some_iff.mp hlookup
    simp [graphNames, h]

theorem mem_names_of_reaches (hu : u ∈ nodes) (h : ReflTransGen (Points edges) u v) : v ∈ graphNames nodes edges := by
  cases h.cases_tail with
  | inl heq => exact List.mem_append_left _ (heq ▸ hu)
  | inr hstep =>
    obtain ⟨x, -, hx⟩ := hstep
    exact hx.mem_names

namespace Tarjan

/-! ## The invariant -/

/-- The definition has an index. -/
def Seen (s : Tarjan) (v : DefId) : Prop := s.index v ≠ none

def num (s : Tarjan) (v : DefId) : Nat := (s.index v).getD 0

/-- `gray` are the definitions in progress, the last one first. -/
structure Inv (nodes : List DefId) (edges : DefLists) (gray : List DefId) (s : Tarjan) : Prop where
  fresh : ∀ u, s.Seen u → s.num u < s.next
  seen : ∀ u, s.Seen u ↔ u ∈ s.stack ∨ u ∈ s.groups.flatten
  onStack : ∀ u, s.onStack u = true ↔ u ∈ s.stack
  falling : s.stack.Pairwise fun a b => s.num b < s.num a
  apart : ∀ u ∈ s.stack, u ∉ s.groups.flatten
  grouped : Grouped (Points edges) s.groups.reverse
  sorted : ∀ g ∈ s.groups, g.Pairwise (· < ·)
  grayNodup : gray.Nodup
  grayStack : gray ⊆ s.stack
  down : ∀ x ∈ s.stack, ∀ y ∈ s.stack, s.num x ≤ s.num y → ReflTransGen (Points edges) x y
  up : ∀ y ∈ s.stack, ∃ x ∈ gray, s.num x ≤ s.num y ∧ ReflTransGen (Points edges) y x
  closed : ∀ x, s.Seen x → x ∉ gray → ∀ y, Points edges x y → s.Seen y
  rooted : ∀ u, s.Seen u → ∃ a ∈ nodes, ReflTransGen (Points edges) a u

/-- What was seen keeps its numbers, and what was not has greater ones. -/
structure Extends (s s' : Tarjan) : Prop where
  index : ∀ u, s.Seen u → s'.index u = s.index u
  low : ∀ u, s.Seen u → s'.low u = s.low u
  later : ∀ u, ¬s.Seen u → s'.Seen u → s.next ≤ s'.num u
  next : s.next ≤ s'.next

theorem Extends.seen (h : s.Extends s') (hu : s.Seen u) : s'.Seen u := by
  rw [Seen, h.index u hu]
  exact hu

theorem Extends.num (h : s.Extends s') (hu : s.Seen u) : s'.num u = s.num u := by
  rw [Tarjan.num, h.index u hu, Tarjan.num]

theorem Extends.trans {t : Tarjan} (h : s.Extends s') (h' : s'.Extends t) : s.Extends t := by
  refine ⟨?_, ?_, fun u hu ht => ?_, Nat.le_trans h.next h'.next⟩
  · exact fun u hu => (h'.index u (h.seen hu)).trans (h.index u hu)
  · exact fun u hu => (h'.low u (h.seen hu)).trans (h.low u hu)
  · by_cases hu' : s'.Seen u
    · rw [h'.num hu']
      exact h.later u hu hu'
    · exact Nat.le_trans h.next (h'.later u hu' ht)

theorem Inv.nodup (h : s.Inv nodes edges gray) : s.stack.Nodup :=
  h.falling.imp fun hlt heq => by simp [heq] at hlt

theorem Inv.grayNames (h : s.Inv nodes edges gray) : gray ⊆ graphNames nodes edges := by
  intro u hu
  obtain ⟨a, ha, hreach⟩ := h.rooted u ((h.seen u).mpr (.inl (h.grayStack hu)))
  exact mem_names_of_reaches ha hreach

theorem Inv.length_gray (h : s.Inv nodes edges gray) : gray.length ≤ (graphNames nodes edges).length :=
  (h.grayNodup.subperm h.grayNames).length_le

/-- The `low` of a definition is no part of the invariant. -/
theorem Inv.withLow (h : s.Inv nodes edges gray) (low : DefId → Option Nat) :
    Inv nodes edges gray { s with low := low } :=
  ⟨h.fresh, h.seen, h.onStack, h.falling, h.apart, h.grouped, h.sorted, h.grayNodup, h.grayStack, h.down, h.up,
    h.closed, h.rooted⟩

/-! ## Starting with a definition -/

theorem seen_enter : (s.enter v).Seen u ↔ u = v ∨ s.Seen u := by
  by_cases huv : u = v
  · simp [Seen, enter, huv]
  · simp [Seen, enter, huv]

theorem num_enter_self : (s.enter v).num v = s.next := by simp [num, enter]

theorem extends_enter (hv : ¬s.Seen v) : s.Extends (s.enter v) := by
  have hne : ∀ u, s.Seen u → u ≠ v := fun u hu heq => hv (heq ▸ hu)
  refine ⟨?_, ?_, fun u hu henter => ?_, Nat.le_succ _⟩
  · exact fun u hu => Function.update_of_ne (hne u hu) _ _
  · exact fun u hu => Function.update_of_ne (hne u hu) _ _
  · obtain rfl := (seen_enter.mp henter).resolve_right hu
    exact Nat.le_of_eq num_enter_self.symm

theorem Inv.enter (h : s.Inv nodes edges gray) (hv : ¬s.Seen v) (hroot : ∃ a ∈ nodes, ReflTransGen (Points edges) a v)
    (hgray : ∀ g ∈ gray, ReflTransGen (Points edges) g v) : (s.enter v).Inv nodes edges (v :: gray) := by
  have hext := extends_enter hv
  have hself : (s.enter v).num v = s.next := num_enter_self
  have hseen : ∀ u ∈ s.stack, s.Seen u := fun u hu => (h.seen u).mpr (.inl hu)
  have hnum : ∀ u ∈ s.stack, (s.enter v).num u = s.num u := fun u hu => hext.num (hseen u hu)
  have hlt : ∀ u ∈ s.stack, s.num u < s.next := fun u hu => h.fresh u (hseen u hu)
  have hnew : v ∉ s.stack := fun hmem => hv (hseen v hmem)
  constructor
  case fresh =>
    intro u hu
    rcases seen_enter.mp hu with rfl | hu
    · rw [hself]
      exact Nat.lt_succ_self _
    · rw [hext.num hu]
      exact Nat.lt_succ_of_lt (h.fresh u hu)
  case seen =>
    intro u
    rw [seen_enter, h.seen u]
    simp [Tarjan.enter, or_assoc]
  case onStack =>
    intro u
    have hold := h.onStack u
    by_cases huv : u = v
    · simp [Tarjan.enter, huv]
    · simpa [Tarjan.enter, huv] using hold
  case falling =>
    refine .cons (fun u hu => ?_) ?_
    · rw [hnum u hu, hself]
      exact hlt u hu
    · exact h.falling.imp_of_mem fun ha hb hab => by rwa [hnum _ ha, hnum _ hb]
  case apart =>
    intro u hu
    rcases List.mem_cons.mp hu with rfl | hu
    · exact fun hmem => hv ((h.seen u).mpr (.inr hmem))
    · exact h.apart u hu
  case grouped => exact h.grouped
  case sorted => exact h.sorted
  case grayNodup => exact List.nodup_cons.mpr ⟨fun hmem => hnew (h.grayStack hmem), h.grayNodup⟩
  case grayStack => exact List.cons_subset_cons v h.grayStack
  case down =>
    intro x hx y hy hle
    rcases List.mem_cons.mp hx with rfl | hx'
    · rcases List.mem_cons.mp hy with rfl | hy'
      · exact .refl
      · rw [hself, hnum y hy'] at hle
        exact absurd (hlt y hy') (Nat.not_lt.mpr hle)
    · rcases List.mem_cons.mp hy with rfl | hy'
      · obtain ⟨g, hg, -, hxg⟩ := h.up x hx'
        exact hxg.trans (hgray g hg)
      · rw [hnum x hx', hnum y hy'] at hle
        exact h.down x hx' y hy' hle
  case up =>
    intro y hy
    rcases List.mem_cons.mp hy with rfl | hy
    · exact ⟨y, List.mem_cons_self, Nat.le_refl _, .refl⟩
    · obtain ⟨x, hx, hle, hreach⟩ := h.up y hy
      refine ⟨x, List.mem_cons_of_mem _ hx, ?_, hreach⟩
      rwa [hnum x (h.grayStack hx), hnum y hy]
  case closed =>
    intro x hx hno y hxy
    rw [List.mem_cons, not_or] at hno
    have hx' := (seen_enter.mp hx).resolve_left hno.1
    exact seen_enter.mpr (.inr (h.closed x hx' hno.2 y hxy))
  case rooted =>
    intro u hu
    rcases seen_enter.mp hu with rfl | hu
    · exact hroot
    · exact h.rooted u hu

/-! ## In the loop of a definition -/

/-- What `low` says of `v`: it is the number of a definition that `v` reaches, and no greater than those that what was
put on the stack above `stack` points to below. -/
structure LowIs (edges : DefLists) (stack : List DefId) (v : DefId) (points : DefId → DefId → Prop) (s : Tarjan)
    (l : Nat) : Prop where
  low : s.low v = some l
  le : l ≤ s.num v
  reaches : v ∈ s.stack → ∃ y ∈ s.stack, s.num y = l ∧ ReflTransGen (Points edges) v y
  crosses : ∀ x ∈ s.stack, x ∉ stack → ∀ y ∈ stack, points x y → l ≤ s.num y

/-- The loop of `v`, started at `s₀`, has gone over `done`. -/
structure Scan (nodes : List DefId) (edges : DefLists) (gray : List DefId) (v : DefId) (s₀ : Tarjan)
    (done : List DefId) (s : Tarjan) : Prop where
  inv : s.Inv nodes edges (v :: gray)
  ext : s₀.Extends s
  stack : ∃ above, s.stack = above ++ v :: s₀.stack
  low : ∃ l, LowIs edges s₀.stack v (fun x y => Points edges x y ∧ (x = v → y ∈ done)) s l
  done : ∀ w ∈ done, s.Seen w

/-- The visit of `v`, started at `s₀`, has ended. -/
structure Visited (nodes : List DefId) (edges : DefLists) (gray : List DefId) (v : DefId) (s₀ s : Tarjan) : Prop where
  inv : s.Inv nodes edges gray
  ext : s₀.Extends s
  stack : ∃ above, s.stack = above ++ s₀.stack
  seen : s.Seen v
  low : ∃ l, LowIs edges s₀.stack v (Points edges) s l ∧ (v ∉ s.stack → l = s.num v)

theorem Scan.start (h : s.Inv nodes edges gray) (hv : ¬s.Seen v)
    (hroot : ∃ a ∈ nodes, ReflTransGen (Points edges) a v)
    (hgray : ∀ g ∈ gray, ReflTransGen (Points edges) g v) : Scan nodes edges gray v s [] (s.enter v) := by
  have hnum : (s.enter v).num v = s.next := num_enter_self
  refine ⟨h.enter hv hroot hgray, extends_enter hv, ⟨[], rfl⟩, ⟨s.next, ?_⟩, by simp⟩
  constructor
  · simp [Tarjan.enter]
  · exact Nat.le_of_eq hnum.symm
  · exact fun _ => ⟨v, List.mem_cons_self, hnum, .refl⟩
  · intro x hx hnew y _ hxy
    rcases List.mem_cons.mp hx with rfl | hx
    · exact absurd (hxy.2 rfl) List.not_mem_nil
    · exact absurd hx hnew

/-- Lowering `v` by the number of a definition that it reaches. -/
theorem Scan.lower {l i : Nat} (inv : s.Inv nodes edges (v :: gray)) (ext : s₀.Extends s)
    (stack : ∃ above, s.stack = above ++ v :: s₀.stack) (hv : ¬s₀.Seen v) (hlow : s.low v = some l)
    (hle : l ≤ s.num v) (hl : ∃ y ∈ s.stack, s.num y = l ∧ ReflTransGen (Points edges) v y)
    (hi : i < l → ∃ y ∈ s.stack, s.num y = i ∧ ReflTransGen (Points edges) v y)
    (hcross : ∀ x ∈ s.stack, x ∉ s₀.stack → ∀ y ∈ s₀.stack, Points edges x y → (x = v → y ∈ done) →
      min l i ≤ s.num y) (hdone : ∀ w ∈ done, s.Seen w) :
    ∃ s', s.lower v (some i) = some s' ∧ Scan nodes edges gray v s₀ done s' := by
  refine ⟨{ s with low := Function.update s.low v (some (min l i)) }, by rw [Tarjan.lower, hlow]; rfl, inv.withLow _,
    ⟨ext.index, fun u hu => ?_, ext.later, ext.next⟩, stack, ⟨min l i, ?_⟩, hdone⟩
  · have huv : u ≠ v := fun heq => hv (heq ▸ hu)
    exact (Function.update_of_ne huv _ _).trans (ext.low u hu)
  · constructor
    · exact Function.update_self ..
    · exact Nat.le_trans (Nat.min_le_left l i) hle
    · intro _
      rcases Nat.lt_or_ge i l with hlt | hge
      · rw [Nat.min_eq_right hlt.le]
        exact hi hlt
      · rw [Nat.min_eq_left hge]
        exact hl
    · exact fun x hx hnew y hy hxy => hcross x hx hnew y hy hxy.1 hxy.2

/-- What a call for a definition that those in progress reach ends with. -/
def Visits (nodes : List DefId) (edges : DefLists) (gray : List DefId)
    (visit : DefId → Tarjan → Option Tarjan) : Prop :=
  ∀ (w : DefId) (s : Tarjan), s.Inv nodes edges gray → ¬s.Seen w →
    (∃ a ∈ nodes, ReflTransGen (Points edges) a w) → (∀ g ∈ gray, ReflTransGen (Points edges) g w) →
    ∃ s', visit w s = some s' ∧ Visited nodes edges gray w s s'

/-- An edge to a definition not seen before: it is visited, and lowers `v` where it reaches below. -/
theorem Scan.unseen (h : Scan nodes edges gray v s₀ done s) (hv : ¬s₀.Seen v) (hw : ¬s.Seen w)
    (hvw : Points edges v w) (hvisited : Visited nodes edges (v :: gray) w s s') :
    ∃ t, s'.lower v (s'.low w) = some t ∧ Scan nodes edges gray v s₀ (w :: done) t := by
  obtain ⟨above, hstack⟩ := h.stack
  obtain ⟨new, hnew⟩ := hvisited.stack
  obtain ⟨l, hl⟩ := h.low
  obtain ⟨i, hi, hpopped⟩ := hvisited.low
  have hsv : v ∈ s.stack := by simp [hstack]
  have hseen : ∀ u ∈ s.stack, s.Seen u := fun u hu => (h.inv.seen u).mpr (.inl hu)
  have hnum : ∀ u ∈ s.stack, s'.num u = s.num u := fun u hu => hvisited.ext.num (hseen u hu)
  have hmem : ∀ u ∈ s.stack, u ∈ s'.stack := fun u hu => by rw [hnew]; exact List.mem_append_right _ hu
  have hold : ∀ u ∈ s₀.stack, u ∈ s.stack := fun u hu => by simp [hstack, hu]
  have hlater : s.num v < s'.num w :=
    Nat.lt_of_lt_of_le (h.inv.fresh v (hseen v hsv)) (hvisited.ext.later w hw hvisited.seen)
  rw [hi.low]
  apply Scan.lower hvisited.inv (h.ext.trans hvisited.ext) ⟨new ++ above, by simp [hnew, hstack]⟩ hv
    ((hvisited.ext.low v (hseen v hsv)).trans hl.low)
  · rw [hnum v hsv]
    exact hl.le
  · obtain ⟨y, hy, hly, hreach⟩ := hl.reaches hsv
    exact ⟨y, hmem y hy, (hnum y hy).trans hly, hreach⟩
  · intro hlt
    by_cases hws : w ∈ s'.stack
    · obtain ⟨y, hy, hiy, hreach⟩ := hi.reaches hws
      exact ⟨y, hy, hiy, .head hvw hreach⟩
    · -- The component of `w` was popped: its number is greater than that of `v`.
      have hle := Nat.lt_of_lt_of_le hlt hl.le
      rw [hpopped hws] at hle
      exact absurd hlater (Nat.lt_asymm hle)
  · intro x hx hxnew y hy hxy hxv
    rw [hnum y (hold y hy)]
    by_cases hxs : x ∈ s.stack
    · by_cases hyw : x = v ∧ y = w
      · obtain ⟨rfl, rfl⟩ := hyw
        exact absurd (hseen y (hold y hy)) hw
      · apply Nat.le_trans (Nat.min_le_left l i)
        apply hl.crosses x hxs hxnew y hy ⟨hxy, fun heq => ?_⟩
        exact (List.mem_cons.mp (hxv heq)).resolve_left fun hyeq => hyw ⟨heq, hyeq⟩
    · apply Nat.le_trans (Nat.min_le_right l i)
      rw [← hnum y (hold y hy)]
      exact hi.crosses x hx hxs y (hold y hy) hxy
  · intro u hu
    rcases List.mem_cons.mp hu with rfl | hu
    · exact hvisited.seen
    · exact hvisited.ext.seen (h.done u hu)

theorem Seen.index (h : s.Seen u) : s.index u = some (s.num u) := by
  obtain ⟨i, hi⟩ := Option.ne_none_iff_exists'.mp h
  rw [Tarjan.num, hi, Option.getD_some]

/-- An edge to a definition on the stack. -/
theorem Scan.onStack (h : Scan nodes edges gray v s₀ done s) (hv : ¬s₀.Seen v) (hw : w ∈ s.stack)
    (hvw : Points edges v w) : ∃ t, s.lower v (s.index w) = some t ∧ Scan nodes edges gray v s₀ (w :: done) t := by
  obtain ⟨above, hstack⟩ := h.stack
  obtain ⟨l, hl⟩ := h.low
  have hseen : s.Seen w := (h.inv.seen w).mpr (.inl hw)
  rw [hseen.index]
  apply Scan.lower h.inv h.ext ⟨above, hstack⟩ hv hl.low hl.le (hl.reaches (by simp [hstack]))
  · exact fun _ => ⟨w, hw, rfl, .single hvw⟩
  · intro x hx hnew y hy hxy hxv
    by_cases hyw : x = v ∧ y = w
    · rw [hyw.2]
      exact Nat.min_le_right _ _
    · apply Nat.le_trans (Nat.min_le_left _ _)
      apply hl.crosses x hx hnew y hy ⟨hxy, fun heq => ?_⟩
      exact (List.mem_cons.mp (hxv heq)).resolve_left fun hyeq => hyw ⟨heq, hyeq⟩
  · exact List.forall_mem_cons.mpr ⟨hseen, h.done⟩

/-- An edge to a definition of a group that has been popped. -/
theorem Scan.popped (h : Scan nodes edges gray v s₀ done s) (hseen : s.Seen w) (hw : w ∉ s.stack) :
    Scan nodes edges gray v s₀ (w :: done) s := by
  obtain ⟨above, hstack⟩ := h.stack
  obtain ⟨l, hl⟩ := h.low
  refine ⟨h.inv, h.ext, h.stack, ⟨l, hl.low, hl.le, hl.reaches, ?_⟩, List.forall_mem_cons.mpr ⟨hseen, h.done⟩⟩
  intro x hx hnew y hy hxy
  refine hl.crosses x hx hnew y hy ⟨hxy.1, fun heq => ?_⟩
  refine (List.mem_cons.mp (hxy.2 heq)).resolve_left fun hyw => hw ?_
  rw [← hyw, hstack]
  exact List.mem_append_right _ (List.mem_cons_of_mem _ hy)

/-- The loop over the edges. -/
theorem visitEach_scan {visit : DefId → Tarjan → Option Tarjan} (hvisit : Visits nodes edges (v :: gray) visit)
    (hv : ¬s₀.Seen v) (hroot : ∃ a ∈ nodes, ReflTransGen (Points edges) a v)
    (hgray : ∀ g ∈ gray, ReflTransGen (Points edges) g v) (hws : ∀ w ∈ ws, Points edges v w)
    (h : Scan nodes edges gray v s₀ done s) :
    ∃ s' done', visitEach visit v ws s = some s' ∧ Scan nodes edges gray v s₀ done' s' ∧ ws ++ done ⊆ done' := by
  induction ws generalizing s done with
  | nil => exact ⟨s, done, rfl, h, List.Subset.refl _⟩
  | cons w ws ih =>
    have hvw := hws w List.mem_cons_self
    have hrest : ∀ u ∈ ws, Points edges v u := fun u hu => hws u (List.mem_cons_of_mem _ hu)
    have hsub : ∀ {done'}, ws ++ w :: done ⊆ done' → w :: ws ++ done ⊆ done' := by
      intro done' hsub u hu
      exact hsub (List.perm_middle.mem_iff.mpr hu)
    rw [visitEach]
    split
    · next hw =>
      have hw' : ¬s.Seen w := fun hseen => hseen (Option.isNone_iff_eq_none.mp hw)
      have hrootw : ∃ a ∈ nodes, ReflTransGen (Points edges) a w := by
        obtain ⟨a, ha, hav⟩ := hroot
        exact ⟨a, ha, hav.tail hvw⟩
      have hgrayw : ∀ g ∈ v :: gray, ReflTransGen (Points edges) g w :=
        List.forall_mem_cons.mpr ⟨.single hvw, fun g hg => (hgray g hg).tail hvw⟩
      obtain ⟨s', hs', hvisited⟩ := hvisit w s h.inv hw' hrootw hgrayw
      obtain ⟨t, ht, hscan⟩ := h.unseen hv hw' hvw hvisited
      obtain ⟨r, done', hr, hscan', hdone⟩ := ih hrest hscan
      exact ⟨r, done', by simp [hs', ht, hr], hscan', hsub hdone⟩
    · next hw =>
      have hw' : s.Seen w := fun hnone => hw (Option.isNone_iff_eq_none.mpr hnone)
      split
      · next hon =>
        obtain ⟨t, ht, hscan⟩ := h.onStack hv ((h.inv.onStack w).mp hon) hvw
        obtain ⟨r, done', hr, hscan', hdone⟩ := ih hrest hscan
        exact ⟨r, done', by simp [ht, hr], hscan', hsub hdone⟩
      · next hon =>
        have hscan := h.popped hw' fun hmem => hon ((h.inv.onStack w).mpr hmem)
        obtain ⟨r, done', hr, hscan', hdone⟩ := ih hrest hscan
        exact ⟨r, done', hr, hscan', hsub hdone⟩

/-! ## Leaving a definition -/

theorem popGroup_eq {above rest : List DefId} (hv : v ∉ above) (onStack : DefId → Bool) (group : List DefId) :
    ∃ onStack', popGroup v (above ++ v :: rest) onStack group = some (group ++ (above ++ [v]), rest, onStack') ∧
      ∀ u, onStack' u = true ↔ onStack u = true ∧ u ∉ above ++ [v] := by
  induction above generalizing onStack group with
  | nil =>
    refine ⟨Function.update onStack v false, by simp [popGroup], fun u => ?_⟩
    by_cases huv : u = v
    · simp [huv]
    · simp [huv]
  | cons w above ih =>
    rw [List.mem_cons, not_or] at hv
    obtain ⟨onStack', hpop, hon⟩ := ih hv.2 (Function.update onStack w false) (group ++ [w])
    refine ⟨onStack', ?_, fun u => ?_⟩
    · simp [popGroup, Ne.symm hv.1, hpop]
    · rw [hon]
      by_cases huw : u = w
      · simp [huw]
      · simp [huw]

section
variable {l : Nat} (h₀ : s₀.Inv nodes edges gray) (h : Scan nodes edges gray v s₀ done s) (hv : ¬s₀.Seen v)
  (hdone : ∀ w, Points edges v w → w ∈ done) (hl : LowIs edges s₀.stack v (Points edges) s l)
include h₀ h hv hdone hl

omit h₀ in
/-- Where `v` reaches below, it stays on the stack. -/
theorem Scan.stays (hlt : l < s.num v) : Visited nodes edges gray v s₀ s := by
  obtain ⟨above, hstack⟩ := h.stack
  have hvs : v ∈ s.stack := by simp [hstack]
  refine ⟨?_, h.ext, ⟨above ++ [v], by simp [hstack]⟩, (h.inv.seen v).mpr (.inl hvs), l, hl, absurd hvs⟩
  have hgray := List.nodup_cons.mp h.inv.grayNodup
  refine { h.inv with grayNodup := hgray.2, grayStack := ?_, up := ?_, closed := ?_ }
  · exact fun u hu => h.inv.grayStack (List.mem_cons_of_mem _ hu)
  · intro y hy
    obtain ⟨x, hx, hle, hreach⟩ := h.inv.up y hy
    rcases List.mem_cons.mp hx with rfl | hx
    · -- From `v` on to what it reaches below, which reaches one in progress that is not `v`.
      obtain ⟨z, hz, hlz, hxz⟩ := hl.reaches hvs
      obtain ⟨g, hg, hgz, hzg⟩ := h.inv.up z hz
      have hlt' : s.num g < s.num x := by omega
      refine ⟨g, ?_, by omega, hreach.trans (hxz.trans hzg)⟩
      exact (List.mem_cons.mp hg).resolve_left fun heq => by simp [heq] at hlt'
    · exact ⟨x, hx, hle, hreach⟩
  · intro x hx hno y hxy
    by_cases hxv : x = v
    · exact h.done y (hdone y (hxv ▸ hxy))
    · exact h.inv.closed x hx (by simp [hxv, hno]) y hxy

/-- Where `v` reaches nothing below, what is above it on the stack is its component. -/
theorem Scan.component {above : List DefId} (hstack : s.stack = above ++ v :: s₀.stack) (hroot : l = s.num v) :
    Grouped (Points edges) ((above ++ [v]).mergeSort :: s.groups.reverse) := by
  have hnodup := h.inv.nodup
  have hfalling := h.inv.falling
  rw [hstack] at hnodup hfalling
  have hv' := (List.nodup_cons.mp (List.nodup_append'.mp hnodup).2.1).1
  have hdisjoint : ∀ u ∈ above ++ [v], u ∉ s₀.stack := by
    intro u hu hmem
    rcases List.mem_append.mp hu with hu | hu
    · exact (List.nodup_append'.mp hnodup).2.2 hu (List.mem_cons_of_mem _ hmem)
    · exact hv' (List.mem_singleton.mp hu ▸ hmem)
  have hon : ∀ u ∈ above ++ [v], u ∈ s.stack := by
    intro u hu
    rw [hstack, List.append_cons]
    exact List.mem_append_left _ hu
  have hsplit : ∀ u, u ∈ s.stack → u ∈ above ++ [v] ∨ u ∈ s₀.stack := by
    intro u hu
    rw [hstack, List.append_cons] at hu
    exact List.mem_append.mp hu
  have hbelow : ∀ y ∈ s₀.stack, s.num y < s.num v :=
    (List.pairwise_cons.mp (List.pairwise_append.mp hfalling).2.1).1
  -- Nothing of the group points below it.
  have hstep : ∀ x ∈ above ++ [v], ∀ y, Points edges x y → y ∈ above ++ [v] ∨ y ∈ s.groups.flatten := by
    intro x hx y hxy
    have hy : s.Seen y := by
      by_cases hxv : x = v
      · exact h.done y (hdone y (hxv ▸ hxy))
      · have hgray : x ∉ v :: gray := by
          rw [List.mem_cons, not_or]
          exact ⟨hxv, fun hmem => hdisjoint x hx (h₀.grayStack hmem)⟩
        exact h.inv.closed x ((h.inv.seen x).mpr (.inl (hon x hx))) hgray y hxy
    rcases (h.inv.seen y).mp hy with hy | hy
    · refine .inl ((hsplit y hy).resolve_right fun hmem => ?_)
      have hle := hl.crosses x (hon x hx) (hdisjoint x hx) y hmem hxy
      have hlt := hbelow y hmem
      omega
    · exact .inr hy
  have hreaches : ∀ x ∈ above ++ [v], ∀ y, ReflTransGen (Points edges) x y →
      y ∈ above ++ [v] ∨ y ∈ s.groups.flatten := by
    intro x hx y hxy
    induction hxy with
    | refl => exact .inl hx
    | tail _ hyz ih =>
      rcases ih with hy | hy
      · exact hstep _ hy _ hyz
      · right
        have hmem := h.inv.grouped.mem_of_rel (by simpa using hy) hyz
        simpa using hmem
  have hvs : v ∈ above ++ [v] := List.mem_append_right _ List.mem_cons_self
  have hfrom : ∀ x ∈ above ++ [v], ReflTransGen (Points edges) v x := by
    intro x hx
    apply h.inv.down v (hon v hvs) x (hon x hx)
    rcases List.mem_append.mp hx with hx | hx
    · exact ((List.pairwise_append.mp hfalling).2.2 x hx v List.mem_cons_self).le
    · rw [List.mem_singleton.mp hx]
  have hto : ∀ x ∈ above ++ [v], ReflTransGen (Points edges) x v := by
    intro x hx
    obtain ⟨g, hg, -, hxg⟩ := h.inv.up x (hon x hx)
    rcases List.mem_cons.mp hg with rfl | hg
    · exact hxg
    · have hg' := h₀.grayStack hg
      rcases hreaches x hx g hxg with hmem | hmem
      · exact absurd hg' (hdisjoint g hmem)
      · refine absurd hmem (h.inv.apart g ?_)
        rw [hstack]
        exact List.mem_append_right _ (List.mem_cons_of_mem _ hg')
  have hperm := List.mergeSort_perm (above ++ [v]) fun a b => decide (a ≤ b)
  refine ⟨⟨?_, ?_, ?_, ?_, ?_⟩, h.inv.grouped⟩
  · exact fun hnil => List.not_mem_nil (hnil ▸ hperm.mem_iff.mpr hvs)
  · rw [hperm.nodup_iff]
    rw [List.append_cons] at hnodup
    exact hnodup.of_append_left
  · exact fun a ha b hb => (hto a (hperm.mem_iff.mp ha)).trans (hfrom b (hperm.mem_iff.mp hb))
  · intro a ha hmem
    exact h.inv.apart a (hon a (hperm.mem_iff.mp ha)) (by simpa using hmem)
  · intro a ha b hab
    rcases hstep a (hperm.mem_iff.mp ha) b hab with hb | hb
    · exact .inl (hperm.mem_iff.mpr hb)
    · exact .inr (by simpa using hb)

/-- Where `v` reaches nothing below, its component is popped. -/
theorem Scan.pops (hroot : l = s.num v) {above : List DefId} (hstack : s.stack = above ++ v :: s₀.stack)
    {onStack : DefId → Bool} (hon : ∀ u, onStack u = true ↔ s.onStack u = true ∧ u ∉ above ++ [v]) :
    Visited nodes edges gray v s₀
      { s with stack := s₀.stack, onStack := onStack, groups := s.groups ++ [(above ++ [v]).mergeSort] } := by
  have hgrouped := h.component h₀ hv hdone hl hstack hroot
  have hnodup := h.inv.nodup
  have hfalling := h.inv.falling
  have hperm := List.mergeSort_perm (above ++ [v]) fun a b => decide (a ≤ b)
  have hstack' : s.stack = above ++ [v] ++ s₀.stack := by rw [hstack, List.append_cons]
  rw [hstack'] at hnodup hfalling
  have hapart := (List.nodup_append'.mp hnodup).2.2
  have hmem : ∀ {u}, u ∈ s.stack ↔ u ∈ above ++ [v] ∨ u ∈ s₀.stack := by
    intro u
    rw [hstack', List.mem_append]
  have hflat : ∀ u, u ∈ (s.groups ++ [(above ++ [v]).mergeSort]).flatten ↔
      u ∈ s.groups.flatten ∨ u ∈ above ++ [v] := by
    intro u
    simp only [List.flatten_append, List.flatten_cons, List.flatten_nil, List.append_nil, List.mem_append,
      hperm.mem_iff]
  have hold : ∀ u ∈ s₀.stack, u ∈ s.stack := fun u hu => hmem.mpr (.inr hu)
  have hvs : v ∈ s.stack := hmem.mpr (.inl (by simp))
  refine ⟨?_, ⟨h.ext.index, h.ext.low, h.ext.later, h.ext.next⟩, ⟨[], rfl⟩, (h.inv.seen v).mpr (.inl hvs), l, ⟨hl.low, hl.le, ?_, ?_⟩, fun _ => hroot⟩
  · constructor
    case fresh => exact h.inv.fresh
    case seen =>
      intro u
      refine (h.inv.seen u).trans ?_
      rw [hmem, hflat]
      tauto
    case onStack =>
      intro u
      rw [hon u, h.inv.onStack u, hmem]
      constructor
      · exact fun hu => hu.1.resolve_left hu.2
      · exact fun hu => ⟨.inr hu, fun hnew => hapart hnew hu⟩
    case falling => exact (List.pairwise_append.mp hfalling).2.1
    case apart =>
      intro u hu hgroup
      rcases (hflat u).mp hgroup with hgroup | hnew
      · exact h.inv.apart u (hold u hu) hgroup
      · exact hapart hnew hu
    case grouped => simpa using hgrouped
    case sorted =>
      intro g hg
      rcases List.mem_append.mp hg with hg | hg
      · exact h.inv.sorted g hg
      · rw [List.mem_singleton.mp hg]
        have hle := @List.pairwise_mergeSort Nat (fun a b => decide (a ≤ b))
          (by simpa using fun a b c => Nat.le_trans) (by simpa using Nat.le_total) (above ++ [v])
        have hne := hperm.nodup_iff.mpr hnodup.of_append_left
        exact hle.and hne |>.imp fun hab => Nat.lt_of_le_of_ne (by simpa using hab.1) hab.2
    case grayNodup => exact h₀.grayNodup
    case grayStack => exact h₀.grayStack
    case down => exact fun x hx y hy hle => h.inv.down x (hold x hx) y (hold y hy) hle
    case up =>
      intro y hy
      obtain ⟨x, hx, hle, hreach⟩ := h.inv.up y (hold y hy)
      refine ⟨x, (List.mem_cons.mp hx).resolve_left fun heq => ?_, hle, hreach⟩
      have hlt := (List.pairwise_append.mp hfalling).2.2 v (by simp) y hy
      rw [heq] at hle
      omega
    case closed =>
      intro x hx hno y hxy
      by_cases hxv : x = v
      · exact h.done y (hdone y (hxv ▸ hxy))
      · exact h.inv.closed x hx (by simp [hxv, hno]) y hxy
    case rooted => exact h.inv.rooted
  · exact fun hmem => absurd hmem (hapart (by simp))
  · exact fun x hx hnew => absurd hx hnew

end

theorem Scan.leave (h₀ : s₀.Inv nodes edges gray) (h : Scan nodes edges gray v s₀ done s) (hv : ¬s₀.Seen v)
    (hdone : ∀ w, Points edges v w → w ∈ done) :
    ∃ s', s.leave v = some s' ∧ Visited nodes edges gray v s₀ s' := by
  obtain ⟨above, hstack⟩ := h.stack
  obtain ⟨l, hl⟩ := h.low
  have hl' : LowIs edges s₀.stack v (Points edges) s l :=
    ⟨hl.low, hl.le, hl.reaches, fun x hx hnew y hy hxy =>
      hl.crosses x hx hnew y hy ⟨hxy, fun heq => hdone y (heq ▸ hxy)⟩⟩
  have hseen : s.Seen v := (h.inv.seen v).mpr (.inl (by simp [hstack]))
  by_cases hroot : l = s.num v
  · have hnew : v ∉ above := by
      intro hmem
      have hnodup := h.inv.nodup
      rw [hstack] at hnodup
      exact (List.nodup_append'.mp hnodup).2.2 hmem List.mem_cons_self
    obtain ⟨onStack, hpop, hon⟩ := @popGroup_eq v above s₀.stack hnew s.onStack []
    refine ⟨_, ?_, h.pops h₀ hv hdone hl' hroot hstack hon⟩
    simp [Tarjan.leave, hl.low, hseen.index, hroot, hstack, hpop]
  · refine ⟨s, ?_, h.stays hv hdone hl' (Nat.lt_of_le_of_ne hl.le hroot)⟩
    simp [Tarjan.leave, hl.low, hseen.index, hroot]

/-! ## The search -/

/-- Those in progress have room for as many definitions as there is fuel. -/
theorem visit_visits (fuel : Nat) (hfuel : (graphNames nodes edges).length ≤ fuel + gray.length) :
    Visits nodes edges gray (visit edges fuel) := by
  induction fuel generalizing gray with
  | zero =>
    intro v s h hv hroot hgray
    have hle := (h.enter hv hroot hgray).length_gray
    rw [List.length_cons] at hle
    omega
  | succ fuel ih =>
    intro v s h hv hroot hgray
    have hvisit : Visits nodes edges (v :: gray) (visit edges fuel) := ih (by rw [List.length_cons]; omega)
    obtain ⟨s', done, hs', hscan, hdone⟩ := visitEach_scan hvisit hv hroot hgray (fun w hw => hw)
      (Scan.start h hv hroot hgray)
    obtain ⟨t, ht, hvisited⟩ := hscan.leave h hv fun w hw => hdone (List.mem_append_left _ hw)
    exact ⟨t, by simp [visit, hs', ht], hvisited⟩

/-- The loop over the nodes leaves nothing in progress. -/
theorem visitNodes_inv {vs : List DefId} (hvs : vs ⊆ nodes) (h : s.Inv nodes edges []) :
    ∃ s', visitNodes edges (graphNames nodes edges).length vs s = some s' ∧ s'.Inv nodes edges [] ∧
      s.Extends s' ∧ ∀ v ∈ vs, s'.Seen v := by
  induction vs generalizing s with
  | nil => exact ⟨s, rfl, h, ⟨fun _ _ => rfl, fun _ _ => rfl, fun _ hu hu' => absurd hu' hu, Nat.le_refl _⟩, by simp⟩
  | cons v vs ih =>
    obtain ⟨hv, hvs⟩ := List.cons_subset.mp hvs
    rw [visitNodes]
    split
    · rename_i hnone
      have hnew : ¬s.Seen v := fun hseen => hseen (Option.isNone_iff_eq_none.mp hnone)
      have hvisit : Visits nodes edges [] (visit edges (graphNames nodes edges).length) := visit_visits _ (by simp)
      obtain ⟨t, ht, hvisited⟩ := hvisit v s h hnew ⟨v, hv, .refl⟩ (by simp)
      obtain ⟨s', hs', hinv, hext, hseen⟩ := ih hvs hvisited.inv
      refine ⟨s', by simp [ht, hs'], hinv, hvisited.ext.trans hext, List.forall_mem_cons.mpr ⟨?_, hseen⟩⟩
      exact hext.seen hvisited.seen
    · rename_i hsome
      have hold : s.Seen v := fun hnone => hsome (Option.isNone_iff_eq_none.mpr hnone)
      obtain ⟨s', hs', hinv, hext, hseen⟩ := ih hvs h
      exact ⟨s', hs', hinv, hext, List.forall_mem_cons.mpr ⟨hext.seen hold, hseen⟩⟩

end Tarjan

/-- The groups are the components of what the nodes reach, in order, and each is sorted. -/
theorem stronglyConnected_components (nodes : List DefId) (edges : DefLists) :
    ∃ groups, stronglyConnected nodes edges = some groups ∧ IsComponents (Points edges) nodes groups ∧
      ∀ g ∈ groups, g.Pairwise (· < ·) := by
  have hstart : Tarjan.Inv nodes edges [] ⟨fun _ => none, fun _ => none, fun _ => false, [], 0, []⟩ := by
    constructor <;> simp [Tarjan.Seen, Grouped]
  obtain ⟨s, hs, hinv, -, hseen⟩ := Tarjan.visitNodes_inv (List.Subset.refl _) hstart
  have hstack : s.stack = [] := by
    by_contra hne
    obtain ⟨y, hy⟩ := List.exists_mem_of_ne_nil _ hne
    obtain ⟨x, hx, -⟩ := hinv.up y hy
    cases hx
  have hflat : ∀ u, s.Seen u ↔ u ∈ s.groups.flatten := by
    intro u
    simp [hinv.seen u, hstack]
  refine ⟨s.groups, by simp [stronglyConnected, hs], hinv.grouped.isComponents ?_ ?_, hinv.sorted⟩
  · exact fun v hv => (hflat v).mp (hseen v hv)
  · exact fun u hu => hinv.rooted u ((hflat u).mpr hu)

end Emela.Order
