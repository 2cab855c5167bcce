import Emela.Lib.Digraph

/-!
# The shortest cycle through a node

A breadth-first search along the successors of each node that stops at the first edge back to where it started. It finds
a cycle of least length among the nodes it is kept to, if there is one.
-/

namespace BreadthFirst

open Digraph

variable {α : Type} [DecidableEq α]

/-- The nodes seen and where from, and those not looked at yet. -/
structure Search (α : Type) where
  parent : α → Option α
  queue : List α

/-- The nodes from `v` back to the start by the parents; nothing where a parent is missing. -/
def trace (parent : α → Option α) (start : α) : Nat → α → Option (List α)
  | 0, _ => none
  | n + 1, v => if v = start then some [v] else (parent v).bind fun p => (trace parent start n p).map (v :: ·)

/-- The successors of `node`, up to one that is the start: whether there is one. -/
def scan (inside : α → Bool) (start node : α) : List α → Search α → Bool × Search α
  | [], s => (false, s)
  | t :: ts, s =>
      if t = start then (true, s)
      else if inside t ∧ s.parent t = none then
        scan inside start node ts ⟨Function.update s.parent t (some node), s.queue ++ [t]⟩
      else scan inside start node ts s

/-- Nothing where the queue is empty, a parent is missing or the fuel runs out. -/
def cycleLoop (next : α → List α) (inside : α → Bool) (start : α) (fuel : Nat) : Nat → Search α → Option (List α)
  | 0, _ => none
  | n + 1, s =>
      match s.queue with
      | [] => none
      | node :: queue =>
          match scan inside start node (next node) { s with queue := queue } with
          | (true, s) => (trace s.parent start fuel node).map List.reverse
          | (false, s) => cycleLoop next inside start fuel n s

/-- The cycle found, from the start on. -/
def cycle (next : α → List α) (inside : α → Bool) (start : α) (fuel : Nat) : Option (List α) :=
  cycleLoop next inside start fuel fuel ⟨fun _ => none, [start]⟩

variable {next : α → List α} {inside : α → Bool} {start node v w : α} {ts new done : List α} {s s' : Search α}
  {depth : α → Nat} {n fuel : Nat} {found : Bool}

/-! ## The successors of one node -/

/-- What looking at the successors `ts` does: `new` are those seen for the first time. -/
structure Scanned (inside : α → Bool) (start node : α) (ts : List α) (s : Search α) (new : List α) (found : Bool)
    (s' : Search α) : Prop where
  queue : s'.queue = s.queue ++ new
  nodup : new.Nodup
  fresh : ∀ t ∈ new, t ∈ ts ∧ inside t = true ∧ s.parent t = none ∧ t ≠ start
  parent : ∀ t, s'.parent t = if t ∈ new then some node else s.parent t
  back : found = true → start ∈ ts
  rest : found = false → start ∉ ts ∧ ∀ t ∈ ts, inside t = true → s'.parent t ≠ none

theorem scan_scanned : ∃ new, Scanned inside start node ts s new (scan inside start node ts s).1
    (scan inside start node ts s).2 := by
  induction ts generalizing s with
  | nil => exact ⟨[], by simp [scan], .nil, by simp, by simp [scan], by simp [scan], by simp⟩
  | cons t ts ih =>
    rw [scan]
    split
    · next ht => exact ⟨[], by simp, .nil, by simp, by simp, fun _ => ht ▸ List.mem_cons_self, by simp⟩
    · next ht =>
      split
      · next hnew =>
        obtain ⟨new, h⟩ := ih (s := ⟨Function.update s.parent t (some node), s.queue ++ [t]⟩)
        have apart : ∀ u ∈ new, u ≠ t := fun u hu he => by
          have := (h.fresh u hu).2.2.1
          simp [he] at this
        refine ⟨t :: new, by simp [h.queue], List.nodup_cons.mpr ⟨fun hm => apart t hm rfl, h.nodup⟩, ?_, fun u => ?_,
          fun hf => List.mem_cons_of_mem _ (h.back hf), fun hf => ?_⟩
        · intro u hu
          rcases List.mem_cons.mp hu with rfl | hu
          · exact ⟨List.mem_cons_self, hnew.1, hnew.2, ht⟩
          · obtain ⟨hmem, hin, hpar, hne⟩ := h.fresh u hu
            dsimp only at hpar
            rw [Function.update_of_ne (apart u hu)] at hpar
            exact ⟨List.mem_cons_of_mem _ hmem, hin, hpar, hne⟩
        · rw [h.parent u]
          by_cases hu : u ∈ new
          · simp [hu]
          · by_cases hut : u = t
            · simp [hut]
            · simp [hu, hut]
        · obtain ⟨hstart, hall⟩ := h.rest hf
          refine ⟨by simp [Ne.symm ht, hstart], fun u hu hin => ?_⟩
          rcases List.mem_cons.mp hu with rfl | hu
          · rw [h.parent]
            split <;> simp
          · exact hall u hu hin
      · next hold =>
        obtain ⟨new, h⟩ := ih (s := s)
        refine ⟨new, h.queue, h.nodup, fun u hu => ?_, h.parent, fun hf => List.mem_cons_of_mem _ (h.back hf), fun hf => ?_⟩
        · obtain ⟨hmem, hrest⟩ := h.fresh u hu
          exact ⟨List.mem_cons_of_mem _ hmem, hrest⟩
        · obtain ⟨hstart, hall⟩ := h.rest hf
          refine ⟨by simp [Ne.symm ht, hstart], fun u hu hin => ?_⟩
          rcases List.mem_cons.mp hu with rfl | hu
          · have hsome : s.parent u ≠ none := fun hn => hold ⟨hin, hn⟩
            rw [h.parent]
            split
            · simp
            · exact hsome
          · exact hall u hu hin

/-! ## The tree of parents -/

/-- Each node but the start is one deeper than its parent, and leads from it. -/
structure Tree (next : α → List α) (inside : α → Bool) (start : α) (depth : α → Nat) (parent : α → Option α) : Prop where
  root : parent start = none
  depth_root : depth start = 0
  step : ∀ v p, parent v = some p → v ∈ next p ∧ inside v = true ∧ depth v = depth p + 1 ∧ (p = start ∨ parent p ≠ none)

theorem Tree.trace {parent : α → Option α} (h : Tree next inside start depth parent)
    (hv : v = start ∨ parent v ≠ none) (hn : depth v < n) :
    ∃ l, trace parent start n v = some (v :: l) ∧ l.length = depth v ∧ (∀ x ∈ v :: l, x = start ∨ inside x = true) ∧
      (v :: l).reverse.IsChain (fun a b => b ∈ next a) ∧ (v :: l).reverse.head? = some start := by
  induction n generalizing v with
  | zero => omega
  | succ n ih =>
    rw [BreadthFirst.trace]
    split
    · next hs =>
      subst hs
      exact ⟨[], rfl, h.depth_root.symm, by simp, by simp, by simp⟩
    · next hs =>
      cases hp : parent v with
      | none => exact absurd hp (hv.resolve_left hs)
      | some p =>
        obtain ⟨hnext, hin, hdepth, hpar⟩ := h.step v p hp
        obtain ⟨l, hl, hlen, hmem, hchain, hhead⟩ := ih hpar (by omega)
        refine ⟨p :: l, by simp [hl], by simp [hlen, hdepth], ?_, ?_, ?_⟩
        · intro x hx
          rcases List.mem_cons.mp hx with rfl | hx
          · exact .inr hin
          · exact hmem x hx
        · rw [List.reverse_cons, List.isChain_append]
          refine ⟨hchain, by simp, ?_⟩
          simpa using hnext
        · rw [List.reverse_cons, List.head?_append, hhead]
          rfl

/-! ## The search -/

/-- What holds before a node is taken from the queue: `done` are those taken before. -/
structure Inv (next : α → List α) (inside : α → Bool) (start : α) (done : List α) (depth : α → Nat) (s : Search α) :
    Prop where
  tree : Tree next inside start depth s.parent
  start_mem : start ∈ done ++ s.queue
  nodup : (done ++ s.queue).Nodup
  seen : ∀ v, v ≠ start → (s.parent v ≠ none ↔ v ∈ done ++ s.queue)
  closed : ∀ v ∈ done, start ∉ next v ∧ ∀ w ∈ next v, inside w = true → w ∈ done ++ s.queue ∧ depth w ≤ depth v + 1
  near : ∀ v ∈ done, ∀ w ∈ s.queue, depth v ≤ depth w
  sorted : s.queue.Pairwise fun v w => depth v ≤ depth w
  last : ∀ v ∈ s.queue, ∀ w ∈ s.queue, depth w ≤ depth v + 1
  bound : ∀ v ∈ done ++ s.queue, depth v ≤ done.length

omit [DecidableEq α] in
theorem Inv.seen_of_mem (h : Inv next inside start done depth s) (hv : v ∈ done ++ s.queue) :
    v = start ∨ s.parent v ≠ none :=
  or_iff_not_imp_left.mpr fun hne => (h.seen v hne).mpr hv

omit [DecidableEq α] in
theorem inv_start : Inv next inside start [] (fun _ => 0) ⟨fun _ => none, [start]⟩ where
  tree := ⟨rfl, rfl, fun _ _ h => by cases h⟩
  start_mem := by simp
  nodup := by simp
  seen v hv := by simp [hv]
  closed v hv := by cases hv
  near v hv := by cases hv
  sorted := List.pairwise_singleton _ _
  last v _ w _ := Nat.zero_le _
  bound v _ := Nat.le_refl 0

theorem Inv.old {queue : List α} (h : Inv next inside start done depth s)
    (hs : Scanned inside start node ts { s with queue := queue } new found s') (hv : v ∈ done ++ s.queue) : v ∉ new :=
  fun hm => by
    obtain ⟨-, -, hnone, hne⟩ := hs.fresh v hm
    exact (h.seen v hne).mpr hv hnone

theorem Inv.tree_scanned {queue : List α} (h : Inv next inside start done depth s) (hnode : node ∈ done ++ s.queue)
    (hs : Scanned inside start node (next node) { s with queue := queue } new found s') :
    Tree next inside start (fun v => if v ∈ new then depth node + 1 else depth v) s'.parent := by
  have hnew : node ∉ new := h.old hs hnode
  refine ⟨?_, ?_, fun v p hp => ?_⟩
  · rw [hs.parent, if_neg (h.old hs h.start_mem)]
    exact h.tree.root
  · simp only [if_neg (h.old hs h.start_mem), h.tree.depth_root]
  · rw [hs.parent] at hp
    split at hp
    · next hv =>
      cases hp
      obtain ⟨hmem, hin, -, -⟩ := hs.fresh v hv
      refine ⟨hmem, hin, by simp [hv, hnew], ?_⟩
      rw [hs.parent, if_neg hnew]
      exact h.seen_of_mem hnode
    · next hv =>
      obtain ⟨hmem, hin, hdepth, hpar⟩ := h.tree.step v p hp
      have hpold : p ∉ new := by
        rcases hpar with rfl | hpar
        · exact h.old hs h.start_mem
        · exact fun hm => hpar (hs.fresh p hm).2.2.1
      refine ⟨hmem, hin, by simp [hv, hpold, hdepth], ?_⟩
      rwa [hs.parent, if_neg hpold]

/-- The node taken from the queue and its new successors, one deeper. -/
theorem Inv.advance {queue : List α} (h : Inv next inside start done depth s) (hq : s.queue = node :: queue)
    (hs : Scanned inside start node (next node) { s with queue := queue } new false s') :
    Inv next inside start (done ++ [node]) (fun v => if v ∈ new then depth node + 1 else depth v) s' := by
  have hold : ∀ v ∈ done ++ s.queue, v ∉ new := fun v hv => h.old hs hv
  have hnode : node ∉ new := hold node (by simp [hq])
  have mem : ∀ v, v ∈ done ++ [node] ++ s'.queue ↔ v ∈ done ++ s.queue ∨ v ∈ new := fun v => by
    simp only [hs.queue, hq, List.mem_append, List.mem_cons, List.not_mem_nil, or_false]
    tauto
  obtain ⟨hback, hall⟩ := hs.rest rfl
  have hdone : ∀ v ∈ done, v ∉ new := fun v hv => hold v (List.mem_append_left _ hv)
  have hqueue : ∀ v ∈ queue, v ∉ new := fun v hv => hold v (by simp [hq, hv])
  have hhead : ∀ v ∈ queue, depth node ≤ depth v := by
    have hsorted := h.sorted
    rw [hq] at hsorted
    exact (List.pairwise_cons.mp hsorted).1
  have htail : ∀ v ∈ queue, depth v ≤ depth node + 1 := fun v hv => h.last node (by simp [hq]) v (by simp [hq, hv])
  have hnear : ∀ v ∈ done, depth v ≤ depth node := fun v hv => h.near v hv node (by simp [hq])
  refine ⟨h.tree_scanned (by simp [hq]) hs, ?_, ?_, fun v hv => ?_, fun v hv => ?_, fun v hv w hw => ?_, ?_,
    fun v hv w hw => ?_, fun v hv => ?_⟩
  · exact (mem start).mpr (.inl h.start_mem)
  · have hnodup := h.nodup
    rw [hq, List.append_cons] at hnodup
    rw [hs.queue, ← List.append_assoc]
    refine List.nodup_append'.mpr ⟨hnodup, hs.nodup, fun v hv hm => ?_⟩
    exact hold v (by rw [hq, List.append_cons]; exact hv) hm
  · rw [mem, hs.parent, ← h.seen v hv]
    split
    · next hm => simp [hm]
    · next hm => simp [hm]
  · have hvold : v ∉ new := by
      rcases List.mem_append.mp hv with hv | hv
      · exact hold v (List.mem_append_left _ hv)
      · exact List.mem_singleton.mp hv ▸ hnode
    simp only [if_neg hvold]
    rcases List.mem_append.mp hv with hv | hv
    · obtain ⟨hst, hcl⟩ := h.closed v hv
      refine ⟨hst, fun w hw hin => ?_⟩
      obtain ⟨hmem, hd⟩ := hcl w hw hin
      rw [if_neg (hold w hmem)]
      exact ⟨(mem w).mpr (.inl hmem), hd⟩
    · obtain rfl := List.mem_singleton.mp hv
      refine ⟨hback, fun w hw hin => ?_⟩
      by_cases hm : w ∈ new
      · exact ⟨(mem w).mpr (.inr hm), by simp [hm]⟩
      · have hpar := hall w hw hin
        rw [hs.parent, if_neg hm] at hpar
        have hwne : w ≠ start := fun he => hback (he ▸ hw)
        have hwmem := (h.seen w hwne).mp hpar
        rw [if_neg hm]
        refine ⟨(mem w).mpr (.inl hwmem), ?_⟩
        rw [hq] at hwmem
        rcases List.mem_append.mp hwmem with hw | hw
        · exact Nat.le_succ_of_le (hnear w hw)
        · rcases List.mem_cons.mp hw with rfl | hw
          · exact Nat.le_succ _
          · exact htail w hw
  · rw [hs.queue] at hw
    have hle : depth v ≤ depth node := by
      rcases List.mem_append.mp hv with hv | hv
      · exact hnear v hv
      · rw [List.mem_singleton.mp hv]
    have hvold : v ∉ new := by
      rcases List.mem_append.mp hv with hv | hv
      · exact hdone v hv
      · exact List.mem_singleton.mp hv ▸ hnode
    simp only [if_neg hvold]
    rcases List.mem_append.mp hw with hw | hw
    · rw [if_neg (hqueue w hw)]
      exact hle.trans (hhead w hw)
    · rw [if_pos hw]
      exact Nat.le_succ_of_le hle
  · rw [hs.queue]
    have hsorted := h.sorted
    rw [hq] at hsorted
    refine List.pairwise_append.mpr ⟨?_, ?_, fun v hv w hw => ?_⟩
    · refine (List.pairwise_cons.mp hsorted).2.imp_of_mem fun hv hw hle => ?_
      simpa only [if_neg (hqueue _ hv), if_neg (hqueue _ hw)] using hle
    · exact List.pairwise_of_forall_mem_list fun v hv w hw => by simp [hv, hw]
    · simpa only [if_neg (hqueue v hv), if_pos hw] using htail v hv
  · rw [hs.queue] at hv hw
    have low : depth node ≤ if v ∈ new then depth node + 1 else depth v := by
      split
      · exact Nat.le_succ _
      · next hm => exact hhead v ((List.mem_append.mp hv).resolve_right hm)
    have high : (if w ∈ new then depth node + 1 else depth w) ≤ depth node + 1 := by
      split
      · exact Nat.le_refl _
      · next hm => exact htail w ((List.mem_append.mp hw).resolve_right hm)
    exact high.trans (Nat.succ_le_succ low)
  · rw [List.length_append, List.length_singleton]
    rcases (mem v).mp hv with hv | hv
    · simp only [if_neg (hold v hv)]
      exact Nat.le_succ_of_le (h.bound v hv)
    · simp only [if_pos hv]
      exact Nat.succ_le_succ (h.bound node (by simp [hq]))

/-! ## The cycle -/

omit [DecidableEq α] in
/-- A walk back to the start from a node seen leaves the nodes taken through one in the queue. -/
theorem Inv.leaves (h : Inv next inside start done depth s) {l : List α} (hv : v ∈ done ++ s.queue)
    (hchain : (v :: l ++ [start]).IsChain fun a b => b ∈ next a) (hin : ∀ x ∈ l, inside x = true) :
    ∃ w ∈ s.queue, depth w ≤ depth v + l.length := by
  induction l generalizing v with
  | nil =>
    rcases List.mem_append.mp hv with hv | hv
    · exact absurd (by simpa using hchain) (h.closed v hv).1
    · exact ⟨v, hv, Nat.le_refl _⟩
  | cons z l ih =>
    rcases List.mem_append.mp hv with hv | hv
    · rw [List.cons_append, List.cons_append, List.isChain_cons_cons] at hchain
      obtain ⟨hz, hrest⟩ := List.forall_mem_cons.mp hin
      obtain ⟨hmem, hd⟩ := (h.closed v hv).2 z hchain.1 hz
      obtain ⟨w, hw, hle⟩ := ih hmem hchain.2 hrest
      exact ⟨w, hw, by simp only [List.length_cons]; omega⟩
    · exact ⟨v, hv, Nat.le_add_right _ _⟩

/-- A cycle through the start of least length, among the nodes the search is kept to. -/
structure Shortest (next : α → List α) (inside : α → Bool) (start : α) (c : List α) : Prop where
  cycle : IsCycle (fun a b => b ∈ next a) c
  head : c.head? = some start
  inside : ∀ x ∈ c, x = start ∨ inside x = true
  least : ∀ c', IsCycle (fun a b => b ∈ next a) c' → c'.head? = some start → c.length ≤ c'.length

omit [DecidableEq α] in
/-- A cycle through the start leaves the nodes taken, too. -/
theorem Inv.leaves_cycle (h : Inv next inside start done depth s) {c : List α} (hc : IsCycle (fun a b => b ∈ next a) c)
    (hhead : c.head? = some start) (hin : ∀ x ∈ c.tail, inside x = true) : ∃ w ∈ s.queue, depth w + 1 ≤ c.length := by
  cases c with
  | nil => exact hc.elim
  | cons a l =>
    obtain rfl : a = start := by simpa using hhead
    obtain ⟨w, hw, hle⟩ := h.leaves h.start_mem hc hin
    rw [h.tree.depth_root] at hle
    exact ⟨w, hw, by simp only [List.length_cons]; omega⟩

omit [DecidableEq α] in
theorem Inv.length_done (h : Inv next inside start done depth s) {nodes : List α}
    (hnodes : ∀ v, v = start ∨ inside v = true → v ∈ nodes) : done.length ≤ nodes.length := by
  have hnodup : done.Nodup := h.nodup.sublist (List.sublist_append_left _ _)
  refine (hnodup.subperm fun v hv => hnodes v ?_).length_le
  refine (h.seen_of_mem (List.mem_append_left _ hv)).imp_right fun hp => ?_
  obtain ⟨p, hp⟩ := Option.ne_none_iff_exists'.mp hp
  exact (h.tree.step v p hp).2.1

theorem Inv.cycleLoop (h : Inv next inside start done depth s) (hn : n + done.length = fuel) {nodes : List α}
    (hnodes : ∀ v, v = start ∨ inside v = true → v ∈ nodes) (hfuel : nodes.length < fuel)
    (hin : ∀ c, IsCycle (fun a b => b ∈ next a) c → c.head? = some start → ∀ x ∈ c.tail, inside x = true)
    (hex : ∃ c, IsCycle (fun a b => b ∈ next a) c ∧ c.head? = some start) :
    ∃ c, cycleLoop next inside start fuel n s = some c ∧ Shortest next inside start c := by
  induction n generalizing done depth s with
  | zero =>
    have hdone := h.length_done hnodes
    omega
  | succ n ih =>
    cases hq : s.queue with
    | nil =>
      obtain ⟨c, hc, hhead⟩ := hex
      obtain ⟨w, hw, -⟩ := h.leaves_cycle hc hhead (hin c hc hhead)
      rw [hq] at hw
      cases hw
    | cons node queue =>
      have hmem : node ∈ done ++ s.queue := by simp [hq]
      obtain ⟨new, hs⟩ : ∃ new, Scanned inside start node (next node) { s with queue := queue } new
        (scan inside start node (next node) { s with queue := queue }).1
        (scan inside start node (next node) { s with queue := queue }).2 := scan_scanned
      rw [BreadthFirst.cycleLoop, hq]
      dsimp only
      rcases hscan : scan inside start node (next node) { s with queue := queue } with ⟨found, s'⟩
      rw [hscan] at hs
      cases found with
      | true =>
        dsimp only at hs ⊢
        have hbound := h.bound node hmem
        have hdone := h.length_done hnodes
        have hlt : (if node ∈ new then depth node + 1 else depth node) < fuel := by
          rw [if_neg (h.old hs hmem)]
          omega
        have hpar : node = start ∨ s'.parent node ≠ none := by
          rw [hs.parent, if_neg (h.old hs hmem)]
          exact h.seen_of_mem hmem
        obtain ⟨l, hl, hlen, hinside, hchain, hhead⟩ := (h.tree_scanned hmem hs).trace hpar hlt
        rw [if_neg (h.old hs hmem)] at hlen
        refine ⟨(node :: l).reverse, by rw [hl, Option.map_some], ?_, hhead, fun x hx => hinside x (List.mem_reverse.mp hx),
          fun c hc hhead => ?_⟩
        · obtain ⟨rest, hrest⟩ := List.head?_eq_some_iff.mp hhead
          have hback : ((node :: l).reverse ++ [start]).IsChain fun a b => b ∈ next a := by
            refine List.isChain_append.mpr ⟨hchain, List.isChain_singleton _, ?_⟩
            simpa using hs.back rfl
          rw [hrest] at hback ⊢
          exact hback
        · obtain ⟨w, hw, hle⟩ := h.leaves_cycle hc hhead (hin c hc hhead)
          have hsorted := h.sorted
          rw [hq] at hw hsorted
          have hmin : depth node ≤ depth w := by
            rcases List.mem_cons.mp hw with rfl | hw
            · exact Nat.le_refl _
            · exact (List.pairwise_cons.mp hsorted).1 w hw
          rw [List.length_reverse, List.length_cons, hlen]
          omega
      | false => exact ih (h.advance hq hs) (by simp; omega)

/-- The search finds a shortest cycle through the start where there is one. -/
theorem cycle_shortest {nodes : List α} (hnodes : ∀ v, v = start ∨ inside v = true → v ∈ nodes)
    (hfuel : nodes.length < fuel)
    (hin : ∀ c, IsCycle (fun a b => b ∈ next a) c → c.head? = some start → ∀ x ∈ c.tail, inside x = true)
    (hex : ∃ c, IsCycle (fun a b => b ∈ next a) c ∧ c.head? = some start) :
    ∃ c, cycle next inside start fuel = some c ∧ Shortest next inside start c :=
  inv_start.cycleLoop (Nat.add_zero _) hnodes hfuel hin hex

end BreadthFirst
