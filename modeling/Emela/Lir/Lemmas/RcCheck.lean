import Emela.Lir.Lemmas.Rc
import Emela.Lir.RcCheck

/-!
# Facts about the balance check

What the check does with the statements the rewrite adds, where the references are one for each owned
variable and none for the others.
-/

namespace Emela.Lir

variable {m : Module} {f : Function}

/-- One reference for each owned variable. -/
def ownTokens (owned : Finset VarId) : Tokens := fun v => if v ∈ owned then 1 else 0

theorem ownTokens_of_mem {owned : Finset VarId} {v : VarId} (h : v ∈ owned) : ownTokens owned v = 1 := if_pos h

theorem ownTokens_of_notMem {owned : Finset VarId} {v : VarId} (h : v ∉ owned) : ownTokens owned v = 0 := if_neg h

theorem update_ownTokens (owned : Finset VarId) (v : VarId) :
    Function.update (ownTokens owned) v 1 = ownTokens (insert v owned) := by
  funext x
  by_cases hx : x = v
  · simp [hx, ownTokens]
  · simp [hx, ownTokens]

theorem update_ownTokens_zero {owned : Finset VarId} {v : VarId} (h : v ∉ owned) :
    Function.update (ownTokens owned) v 0 = ownTokens owned := by
  rw [← ownTokens_of_notMem h, Function.update_eq_self]

/-! ## Statements in a row -/

theorem checkStmts_append (c : Check) (t : Tokens) (head : Option Nat) (xs ys : List Stmt) :
    checkStmts m f c t head (xs ++ ys) =
      match checkStmts m f c t head xs with
      | (some t, c) => checkStmts m f c t head ys
      | (none, c) => (none, c) := by
  induction xs generalizing c t with
  | nil => simp [checkStmts]
  | cons s xs ih =>
      simp only [List.cons_append, checkStmts]
      rcases checkStmt m f c t head s with ⟨_ | t, c⟩
      · rfl
      · exact ih c t

theorem checkStmts_one (c : Check) (t : Tokens) (head : Option Nat) (s : Stmt) :
    checkStmts m f c t head [s] = checkStmt m f c t head s := by
  simp only [checkStmts]
  rcases checkStmt m f c t head s with ⟨_ | t, c⟩ <;> rfl

theorem checkStmt_dup (c : Check) (t : Tokens) (head : Option Nat) (v : VarId) :
    checkStmt m f c t head (.dup v) = (some (Function.update t v (t v + 1)), c) := by simp only [checkStmt]

theorem checkStmts_dups (c : Check) (t : Tokens) (head : Option Nat) (vs : List VarId) :
    checkStmts m f c t head (vs.map .dup) = (some fun v => t v + vs.count v, c) := by
  induction vs generalizing t with
  | nil => simp [checkStmts]
  | cons v vs ih =>
      simp only [List.map_cons, checkStmts, checkStmt_dup, ih]
      congr 2
      funext x
      by_cases hx : x = v
      · subst hx
        simp
        omega
      · simp [Function.update_of_ne hx, List.count_cons_of_ne (Ne.symm hx)]

theorem Check.takeAll_eq {what : String} {c : Check} {t : Tokens} {vs : List VarId}
    (h : ∀ v, vs.count v ≤ t v) : c.takeAll f what t vs = (fun v => t v - vs.count v, c) := by
  induction vs generalizing t with
  | nil => simp [Check.takeAll]
  | cons v vs ih =>
      have pos : t v ≠ 0 := by
        have := h v
        rw [List.count_cons_self] at this
        omega
      have step : c.takeAll f what t (v :: vs) = c.takeAll f what (Function.update t v (t v - 1)) vs := by
        simp [Check.takeAll, Check.take, pos]
      rw [step, ih]
      · congr 1
        funext x
        by_cases hx : x = v
        · subst hx
          simp
          omega
        · simp [Function.update_of_ne hx, List.count_cons_of_ne (Ne.symm hx)]
      · intro x
        have := h x
        by_cases hx : x = v
        · subst hx
          rw [List.count_cons_self] at this
          simp
          omega
        · rwa [List.count_cons_of_ne (Ne.symm hx), ← Function.update_of_ne hx (t v - 1) t] at this

theorem checkStmts_dropList {c : Check} {t : Tokens} {head : Option Nat} {vs : List VarId}
    (h : ∀ v, vs.count v ≤ t v) :
    checkStmts m f c t head (vs.map .drop) = (some fun v => t v - vs.count v, c) := by
  induction vs generalizing t with
  | nil => simp [checkStmts]
  | cons v vs ih =>
      have one : ∀ x, [v].count x ≤ t x := fun x =>
        le_trans (List.Sublist.count_le x (List.Sublist.cons_cons v (List.nil_sublist vs))) (h x)
      simp only [List.map_cons, checkStmts, checkStmt, Check.takeAll_eq one]
      rw [ih]
      · congr 2
        funext x
        rw [Nat.sub_sub, ← List.count_append]
        rfl
      · intro x
        have := h x
        rw [← List.singleton_append, List.count_append] at this
        omega

/-- Dropping variables that own one reference. -/
theorem checkStmts_drops {c : Check} {t : Tokens} {head : Option Nat} {dead : Finset VarId}
    (h : ∀ v ∈ dead, 1 ≤ t v) :
    checkStmts m f c t head (drops dead) = (some fun v => t v - ownTokens dead v, c) := by
  have count : ∀ v, (dead.sort (· ≤ ·)).count v = ownTokens dead v := by
    intro v
    rw [(dead.sort_nodup (· ≤ ·)).count]
    simp [ownTokens]
  rw [drops, checkStmts_dropList]
  · simp only [count]
  · intro v
    rw [count, ownTokens]
    split
    · exact h v ‹_›
    · exact Nat.zero_le _

/-! ## Consuming -/

theorem count_flatMap_replicate {g : VarId → Nat} {vs : List VarId} (h : vs.Nodup) (v : VarId) :
    (vs.flatMap fun x => List.replicate (g x) x).count v = if v ∈ vs then g v else 0 := by
  induction vs with
  | nil => simp
  | cons x vs ih =>
      rw [List.nodup_cons] at h
      simp only [List.flatMap_cons, List.count_append, ih h.2, List.count_replicate]
      by_cases hx : x = v
      · subst hx
        simp [h.1]
      · simp [hx, Ne.symm hx]

theorem nodup_eraseDups : (vs : List VarId) → vs.eraseDups.Nodup
  | [] => by simp
  | v :: vs => by
      rw [List.eraseDups_cons, List.nodup_cons]
      refine ⟨?_, nodup_eraseDups _⟩
      simp [List.mem_eraseDups]
termination_by vs => vs.length
decreasing_by simpa using Nat.lt_succ_of_le (List.length_filter_le _ _)

theorem count_consumeDups (owned keep : Finset VarId) (consumed : List VarId) (v : VarId) :
    (consumeDups owned keep consumed).count v =
      if v ∈ owned ∧ v ∉ keep then consumed.count v - 1 else consumed.count v := by
  rw [consumeDups, count_flatMap_replicate (nodup_eraseDups _)]
  by_cases hv : v ∈ consumed
  · simp [hv]
  · simp [hv, List.count_eq_zero_of_not_mem hv]

/-- The references with the `dup`s for `consumed`, less those consumed. -/
theorem consume_tokens {owned keep : Finset VarId} {consumed : List VarId} :
    (fun v => ownTokens owned v + (consumeDups owned keep consumed).count v - consumed.count v) =
      ownTokens (consumeOwned owned keep consumed) := by
  funext v
  rw [count_consumeDups]
  simp only [ownTokens, consumeOwned, Finset.mem_sdiff, List.mem_toFinset, not_and, not_not]
  by_cases hc : v ∈ consumed
  · have pos := List.count_pos_iff.mpr hc
    by_cases ho : v ∈ owned <;> by_cases hk : v ∈ keep <;> simp [ho, hk, hc]
  · simp [hc, List.count_eq_zero_of_not_mem hc]

theorem consume_enough {owned keep : Finset VarId} {consumed : List VarId} (v : VarId) :
    consumed.count v ≤ ownTokens owned v + (consumeDups owned keep consumed).count v := by
  rw [count_consumeDups]
  by_cases ho : v ∈ owned <;> by_cases hk : v ∈ keep <;> simp [ho, hk, ownTokens]
  omega

/-! ## Leaving -/

theorem Check.borrow_eq {c : Check} {t : Tokens} {vs : List VarId}
    (h : ∀ v ∈ vs, 1 ≤ t v ∨ borrowedParam f v = true) : vs.foldl (Check.borrow f t) c = c := by
  induction vs with
  | nil => rfl
  | cons v vs ih =>
      have first : Check.borrow f t c v = c := by
        rw [Check.borrow, if_neg]
        rcases h v (by simp) with h | h
        · omega
        · simp [h]
      rw [List.foldl_cons, first]
      exact ih fun v hv => h v (List.mem_cons_of_mem _ hv)

theorem Check.leave_eq {c : Check} {t : Tokens} {vs : List VarId} (h : ∀ v ∈ vs, t v = 0) :
    vs.foldl (Check.leave f t) c = c := by
  induction vs with
  | nil => rfl
  | cons v vs ih =>
      rw [List.foldl_cons, show Check.leave f t c v = c by simp [Check.leave, h v]]
      exact ih fun v hv => h v (List.mem_cons_of_mem _ hv)

theorem Check.deliver_out {c : Check} {t : Tokens} (h : ∀ v ∈ c.scope, t v = 0) : c.deliver f none t = c := by
  have left : c.scope.foldl (Check.leave f t) c = c := Check.leave_eq h
  simpa [Check.deliver, Check.mark] using left

/-! ## Sequences -/

theorem Check.define_eq {c : Check} {t : Tokens} {n : Nat} {v : VarId} (h : counted f v = true) :
    c.define f t v n = (Function.update t v n, { c with scope := c.scope ++ [v] }) := if_pos h

theorem Check.define_uncounted {c : Check} {t : Tokens} {n : Nat} {v : VarId} (h : counted f v = false) :
    c.define f t v n = (t, c) := by
  simp [Check.define, h]

/-- Variables defined with one reference each. -/
theorem Check.defineAll_eq {c : Check} {owned : Finset VarId} (vs : List VarId) :
    c.defineAll f (ownTokens owned) (vs.map (·, 1)) =
      (ownTokens (owned ∪ (vs.filter (counted f)).toFinset),
        { c with scope := c.scope ++ vs.filter (counted f) }) := by
  induction vs generalizing c owned with
  | nil => simp [Check.defineAll]
  | cons v vs ih =>
      have step : c.defineAll f (ownTokens owned) ((v :: vs).map (·, 1)) =
          (c.define f (ownTokens owned) v 1).2.defineAll f (c.define f (ownTokens owned) v 1).1 (vs.map (·, 1)) :=
        rfl
      rw [step]
      by_cases hv : counted f v = true
      · rw [Check.define_eq hv, update_ownTokens, ih]
        simp [hv, Finset.insert_union]
      · rw [Check.define_uncounted (by simpa using hv), ih]
        simp [hv]

/-- The check of a sequence once the variables at its start are defined. -/
def runSeq (m : Module) (f : Function) (c : Check) (t : Tokens) (yieldTo head : Option Nat) : Seq → Check
  | .mk stmts term =>
      match checkStmts m f c t head stmts with
      | (some t, c) => c.term f t yieldTo head term
      | (none, c) => c

theorem checkSeq_eq {c : Check} {owned : Finset VarId} {vs : List VarId} {yieldTo head : Option Nat} (s : Seq) :
    checkSeq m f c (ownTokens owned) (vs.map (·, 1)) yieldTo head s =
      { runSeq m f { c with scope := c.scope ++ vs.filter (counted f) }
          (ownTokens (owned ∪ (vs.filter (counted f)).toFinset)) yieldTo head s with
        scope := (runSeq m f { c with scope := c.scope ++ vs.filter (counted f) }
          (ownTokens (owned ∪ (vs.filter (counted f)).toFinset)) yieldTo head s).scope.take c.scope.length } := by
  cases s with
  | mk stmts term =>
      rw [checkSeq, Check.defineAll_eq]
      rfl

/-! ## The module -/

section
variable {m' : Module} {b : Option Seq}

mutual

/-- The check of a sequence does not depend on the body of its function, nor on the module but for
what the values consume and borrow. -/
theorem checkSeq_congr (hc : consumed m' { f with body := b } = consumed m f)
    (hb : borrowed m' { f with body := b } = borrowed m f) (c : Check) (t : Tokens)
    (defs : List (VarId × Nat)) (yieldTo head : Option Nat) :
    (s : Seq) → checkSeq m' { f with body := b } c t defs yieldTo head s = checkSeq m f c t defs yieldTo head s
  | .mk stmts term => by
      simp only [checkSeq, checkStmts_congr hc hb _ _ _ stmts]
      rfl

theorem checkStmts_congr (hc : consumed m' { f with body := b } = consumed m f)
    (hb : borrowed m' { f with body := b } = borrowed m f) (c : Check) (t : Tokens) (head : Option Nat) :
    (stmts : List Stmt) → checkStmts m' { f with body := b } c t head stmts = checkStmts m f c t head stmts
  | [] => by simp only [checkStmts]
  | s :: stmts => by
      simp only [checkStmts, checkStmt_congr hc hb c t head s]
      rcases checkStmt m f c t head s with ⟨_ | t, c⟩
      · rfl
      · exact checkStmts_congr hc hb c t head stmts

theorem checkStmt_congr (hc : consumed m' { f with body := b } = consumed m f)
    (hb : borrowed m' { f with body := b } = borrowed m f) (c : Check) (t : Tokens) (head : Option Nat) :
    (s : Stmt) → checkStmt m' { f with body := b } c t head s = checkStmt m f c t head s
  | .let dst value onFail onDefect onSuspend => by
      simp only [checkStmt, hc, hb, fun c t => checkFail_congr hc hb c t head onFail,
        fun c t => checkOption_congr hc hb c t none head onDefect]
      rfl
  | .dup _ => by simp only [checkStmt]
  | .drop _ => by
      simp only [checkStmt]
      rfl
  | .if dst cond then_ else_ => by
      simp only [checkStmt, fun c y => checkSeq_congr hc hb c t [] y head then_,
        fun c y => checkSeq_congr hc hb c t [] y head else_]
      rfl
  | .switch dst on cases default => by
      simp only [checkStmt, fun c y => checkCases_congr hc hb c t y head cases,
        fun c y => checkOption_congr hc hb c t y head default]
      rfl
  | .block dst label body => by
      simp only [checkStmt, fun c y => checkSeq_congr hc hb c t [] y head body]
      rfl
  | .loop dst vars inits body => by
      simp only [checkStmt, fun c t defs y head => checkSeq_congr hc hb c t defs y head body]
      rfl

theorem checkFail_congr (hc : consumed m' { f with body := b } = consumed m f)
    (hb : borrowed m' { f with body := b } = borrowed m f) (c : Check) (t : Tokens) (head : Option Nat) :
    (o : Option (VarId × Seq)) → checkFail m' { f with body := b } c t head o = checkFail m f c t head o
  | none => by simp only [checkFail]
  | some (e, body) => by simp only [checkFail, checkSeq_congr hc hb c t [(e, 1)] none head body]

theorem checkOption_congr (hc : consumed m' { f with body := b } = consumed m f)
    (hb : borrowed m' { f with body := b } = borrowed m f) (c : Check) (t : Tokens) (yieldTo head : Option Nat) :
    (o : Option Seq) → checkOption m' { f with body := b } c t yieldTo head o = checkOption m f c t yieldTo head o
  | none => by simp only [checkOption]
  | some body => by simp only [checkOption, checkSeq_congr hc hb c t [] yieldTo head body]

theorem checkCases_congr (hc : consumed m' { f with body := b } = consumed m f)
    (hb : borrowed m' { f with body := b } = borrowed m f) (c : Check) (t : Tokens) (yieldTo head : Option Nat) :
    (cases : List (CaseKey × Seq)) →
      checkCases m' { f with body := b } c t yieldTo head cases = checkCases m f c t yieldTo head cases
  | [] => by simp only [checkCases]
  | (_, body) :: cases => by
      simp only [checkCases, checkSeq_congr hc hb c t [] yieldTo head body]
      exact checkCases_congr hc hb _ t yieldTo head cases

end

end

/-! ## Where control leaves

An exit of a sequence is a join point of the check: the end of an enclosing statement or a loop head.
The rewrite brings to it the references of its target on every edge. -/

/-- A join point: the scope at its statement, the owned variables wanted there and the live ones. -/
structure Exit where
  scope : List VarId
  target : Finset VarId
  live : Finset VarId

/-- No edge has come to the slot of the exit, or edges that brought its target. -/
def Exit.Kept (x : Exit) (c : Check) (i : Nat) : Prop :=
  ∃ slot, c.slots[i]? = some slot ∧ slot.mark = x.scope.length ∧
    ∀ e ∈ slot.expected, e = x.scope.map (ownTokens x.target)

def Reached (c : Check) (i : Nat) : Prop := ∃ slot, c.slots[i]? = some slot ∧ slot.expected ≠ none

abbrev Exits := Nat → Option Exit

/-- What a part of the check leaves as it is, `live` being live at its start: no error is added, the
scope grows, and an exit is reached only if what is live there is live at the start. -/
structure Runs (X : Exits) (labels : Finset LabelId) (live : Finset VarId) (c c' : Check) : Prop where
  errors : c'.errors = c.errors
  scope : c.scope <+: c'.scope
  labels : ∀ l ∈ labels, c'.labels l = c.labels l
  kept : ∀ i x, X i = some x → x.Kept c i → x.Kept c' i
  reached : ∀ i x, X i = some x → Reached c' i → Reached c i ∨ x.live ⊆ live

section
variable {X : Exits} {labels : Finset LabelId} {live live' : Finset VarId} {c c' c'' : Check}

theorem Runs.refl : Runs X labels live c c where
  errors := rfl
  scope := List.prefix_rfl
  labels _ _ := rfl
  kept _ _ _ h := h
  reached _ _ _ h := .inl h

theorem Runs.trans (h : Runs X labels live c c') (h' : Runs X labels live c' c'') : Runs X labels live c c'' where
  errors := h'.errors.trans h.errors
  scope := h.scope.trans h'.scope
  labels l hl := (h'.labels l hl).trans (h.labels l hl)
  kept i x hx hk := h'.kept i x hx (h.kept i x hx hk)
  reached i x hx hr := by
    rcases h'.reached i x hx hr with hr | hr
    · exact h.reached i x hx hr
    · exact .inr hr

theorem Runs.mono (h : Runs X labels live c c')
    (hl : ∀ i x, X i = some x → x.live ⊆ live → x.live ⊆ live') : Runs X labels live' c c' where
  errors := h.errors
  scope := h.scope
  labels := h.labels
  kept := h.kept
  reached i x hx hr := (h.reached i x hx hr).imp_right (hl i x hx)

theorem Runs.subset (h : Runs X labels live c c') (hl : live ⊆ live') : Runs X labels live' c c' :=
  h.mono fun _ _ _ hx => hx.trans hl

/-- The scope alone has no part in the exits. -/
theorem Runs.withScope (h : Runs X labels live c c') (scope : List VarId) (hs : c.scope <+: scope) :
    Runs X labels live c { c' with scope := scope } where
  errors := h.errors
  scope := hs
  labels := h.labels
  kept := h.kept
  reached := h.reached

end

/-! ## Delivering -/

section
variable {X : Exits} {labels : Finset LabelId} {live : Finset VarId} {c : Check}

/-- An edge that brings the target of an exit. -/
theorem Runs.deliver {i : Nat} {x : Exit} (hX : X i = some x) (kept : x.Kept c i) (outer : x.scope <+: c.scope)
    (nodup : c.scope.Nodup) (inner : ∀ v ∈ x.target, v ∈ x.scope) (hl : x.live ⊆ live) :
    Runs X labels live c (c.deliver f (some i) (ownTokens x.target)) := by
  obtain ⟨⟨mark, expected⟩, hslot, hmark, hexpected⟩ := kept
  dsimp only at hmark hexpected
  subst hmark
  obtain ⟨rest, hrest⟩ := outer
  have hm : c.mark (some i) = x.scope.length := by simp [Check.mark, hslot]
  have left : ∀ v ∈ c.scope.drop x.scope.length, ownTokens x.target v = 0 := by
    intro v hv
    rw [← hrest, List.drop_left] at hv
    apply ownTokens_of_notMem
    intro ht
    rw [← hrest] at nodup
    exact (List.nodup_append.mp nodup).2.2 v (inner v ht) v hv rfl
  have taken : c.scope.take x.scope.length = x.scope := by rw [← hrest, List.take_left]
  cases expected with
  | none =>
      have eq : c.deliver f (some i) (ownTokens x.target) =
          { c with slots := c.slots.set i ⟨x.scope.length, some (x.scope.map (ownTokens x.target))⟩ } := by
        simp only [Check.deliver, hm, Check.leave_eq left, hslot, taken]
      rw [eq]
      refine ⟨rfl, List.prefix_rfl, fun _ _ => rfl, fun j y hy hk => ?_, fun j y hy hr => ?_⟩
      · by_cases hj : i = j
        · subst hj
          obtain rfl : x = y := Option.some.inj (hX.symm.trans hy)
          refine ⟨⟨x.scope.length, some (x.scope.map (ownTokens x.target))⟩, ?_, rfl, by simp⟩
          simp [(List.getElem?_eq_some_iff.mp hslot).1]
        · simpa [Exit.Kept, List.getElem?_set, hj] using hk
      · by_cases hj : i = j
        · subst hj
          obtain rfl : x = y := Option.some.inj (hX.symm.trans hy)
          exact .inr hl
        · exact .inl (by simpa [Reached, List.getElem?_set, hj] using hr)
  | some e =>
      obtain rfl : e = x.scope.map (ownTokens x.target) := hexpected e rfl
      have differ : ∀ (p : VarId × Nat × Nat → Bool) (hp : ∀ v a, p (v, a, a) = false) (vs : List VarId),
          (vs.zip ((vs.map (ownTokens x.target)).zip (vs.map (ownTokens x.target)))).filter p = [] := by
        intro p hp vs
        induction vs with
        | nil => rfl
        | cons v vs ih => simpa [hp] using ih
      have eq : c.deliver f (some i) (ownTokens x.target) = c := by
        simp only [Check.deliver, hm, Check.leave_eq left, hslot, taken]
        rw [differ _ (by simp), List.foldl_nil]
      rw [eq]
      exact Runs.refl

end

end Emela.Lir
