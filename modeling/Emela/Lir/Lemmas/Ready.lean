import Emela.Lir.Lemmas.RcCheck

/-!
# States of the check

The states of the check that are states of the rewrite: the tokens are one for each owned variable, and
the join points are those of the enclosing statements. `E` are the variables that are live without being
owned: the environment, when the function borrows it.
-/

namespace Emela.Lir

variable {m : Module} {f : Function}

/-- The exit stands in the check: the variables live there are outer ones, its target is live and
apart from `E`, and no edge brought anything else. -/
structure Exit.At (E : Finset VarId) (c : Check) (i : Nat) (x : Exit) : Prop where
  outer : x.scope <+: c.scope
  target : x.target ⊆ x.live
  live : ∀ v ∈ x.live, v ∈ x.scope
  apart : Disjoint x.target E
  kept : x.Kept c i

/-- The slot is that of an exit with the target and the live variables. -/
def Leads (X : Exits) (slot : Option Nat) (target live : Finset VarId) : Prop :=
  ∃ i x, slot = some i ∧ X i = some x ∧ x.target = target ∧ x.live = live

/-- The state of the check is that of the rewrite. -/
structure Ready (f : Function) (E : Finset VarId) (X : Exits) (ctx : RcCtx) (Γ : Scope) (owned : Finset VarId)
    (c : Check) (yieldTo head : Option Nat) : Prop where
  yields : Γ.yields = true → Leads X yieldTo ctx.yieldTarget ctx.live.yieldLive
  loops : Γ.inLoop = true → Leads X head (ctx.loopTarget.getD ∅) (ctx.live.head.getD ∅)
  labels : ∀ l ∈ Γ.labels, Leads X (c.labels l) (ctx.labelTarget l) (ctx.live.afterLabel l)
  exits : ∀ i x, X i = some x → x.At E c i
  within : ctx.live.Within (Γ.refs f)
  nodup : c.scope.Nodup
  scope : c.scope.toFinset = Γ.refs f
  inScope : owned ⊆ Γ.refs f
  exact : ctx.Exact Γ owned
  env : E ⊆ Γ.refs f
  apart : Disjoint owned E

section
variable {E : Finset VarId} {X : Exits} {ctx : RcCtx} {Γ : Scope} {owned : Finset VarId} {c : Check}
  {yieldTo head : Option Nat}

theorem Ready.target_subset (h : Ready f E X ctx Γ owned c yieldTo head) {slot : Option Nat}
    {target live : Finset VarId} (hX : Leads X slot target live) (hl : live ⊆ owned ∪ E) : target ⊆ owned := by
  obtain ⟨i, x, -, hx, rfl, rfl⟩ := hX
  have at_i := h.exits i x hx
  intro v hv
  rcases Finset.mem_union.mp (hl (at_i.target hv)) with ho | he
  · exact ho
  · exact absurd he (Finset.disjoint_left.mp at_i.apart hv)

theorem Ready.deliver (h : Ready f E X ctx Γ owned c yieldTo head) {slot : Option Nat}
    {target live live' : Finset VarId} (hX : Leads X slot target live) (hl : live ⊆ live') :
    Runs X Γ.labels live' c (c.deliver f slot (ownTokens target)) := by
  obtain ⟨i, x, rfl, hx, rfl, rfl⟩ := hX
  have at_i := h.exits i x hx
  exact Runs.deliver hx at_i.kept at_i.outer h.nodup (fun v hv => at_i.live v (at_i.target hv)) hl

/-! ## States -/

theorem Ready.shrink (h : Ready f E X ctx Γ owned c yieldTo head) {owned' : Finset VarId} (ho : owned' ⊆ owned) :
    Ready f E X ctx Γ owned' c yieldTo head :=
  { h with
    inScope := ho.trans h.inScope
    exact := h.exact.mono rfl fun _ hv => .inl (ho hv)
    apart := h.apart.mono_left ho }

theorem Ready.runs (h : Ready f E X ctx Γ owned c yieldTo head) {c' : Check} {live : Finset VarId}
    (hr : Runs X Γ.labels live c c') (hs : c'.scope = c.scope) : Ready f E X ctx Γ owned c' yieldTo head :=
  { h with
    labels := fun l hl => by
      rw [hr.labels l hl]
      exact h.labels l hl
    exits := fun i x hx =>
      let old := h.exits i x hx
      ⟨hs ▸ old.outer, old.target, old.live, old.apart, hr.kept i x hx old.kept⟩
    nodup := hs ▸ h.nodup
    scope := hs ▸ h.scope }

/-- The state once new variables are defined. -/
theorem Ready.define (h : Ready f E X ctx Γ owned c yieldTo head) (Γ' : Scope) (vs : List VarId)
    {owned' : Finset VarId} (hrefs : Γ'.refs f = Γ.refs f ∪ vs.toFinset) (hlabels : Γ'.labels = Γ.labels)
    (hloop : Γ'.inLoop = Γ.inLoop) (hyields : Γ'.yields = Γ.yields) (nodup : vs.Nodup)
    (fresh : ∀ v ∈ vs, v ∉ Γ.refs f) (ho : owned' ⊆ owned ∪ vs.toFinset) :
    Ready f E X ctx Γ' owned' { c with scope := c.scope ++ vs } yieldTo head where
  yields hy := h.yields (hyields ▸ hy)
  loops hl := h.loops (hloop ▸ hl)
  labels l hl := h.labels l (hlabels ▸ hl)
  exits i x hx :=
    let old := h.exits i x hx
    ⟨old.outer.trans (List.prefix_append ..), old.target, old.live, old.apart, old.kept⟩
  within := h.within.mono (hrefs ▸ Finset.subset_union_left)
  nodup := by
    refine List.nodup_append.mpr ⟨h.nodup, nodup, fun v hv w hw hvw => ?_⟩
    subst hvw
    exact fresh v hw (h.scope ▸ List.mem_toFinset.mpr hv)
  scope := by rw [List.toFinset_append, h.scope, hrefs]
  inScope := by
    rw [hrefs]
    exact ho.trans (Finset.union_subset_union_left h.inScope)
  exact := h.exact.mono hyields fun v hv => by
    rcases Finset.mem_union.mp (ho hv) with hv | hv
    · exact .inl hv
    · have hv := fresh v (List.mem_toFinset.mp hv)
      exact .inr ⟨fun hy => hv (h.within.yieldLive hy), fun hh => hv (h.within.head hh)⟩
  env := hrefs ▸ h.env.trans Finset.subset_union_left
  apart := by
    refine Finset.disjoint_of_subset_left ho (Finset.disjoint_union_left.mpr ⟨h.apart, ?_⟩)
    exact Finset.disjoint_left.mpr fun v hv he => fresh v (List.mem_toFinset.mp hv) (h.env he)

/-- The state in a landing, which does not yield. -/
theorem Ready.landing (h : Ready f E X ctx Γ owned c yieldTo head) :
    Ready f E X { ctx with yieldTarget := ∅ } Γ.landing owned c none head :=
  { h with
    yields := fun hy => absurd hy (by simp [Scope.landing])
    exact := ⟨Finset.empty_subset _, h.exact.loopTarget, fun hy => absurd hy (by simp [Scope.landing]),
      h.exact.loops⟩ }

/-! ## Join points -/

theorem Exit.Kept.lt {x : Exit} {i : Nat} (h : x.Kept c i) : i < c.slots.length := by
  obtain ⟨slot, hs, -⟩ := h
  exact (List.getElem?_eq_some_iff.mp hs).1

theorem Ready.lt (h : Ready f E X ctx Γ owned c yieldTo head) {i : Nat} {x : Exit} (hx : X i = some x) :
    i < c.slots.length := (h.exits i x hx).kept.lt

theorem Ready.leads_update (h : Ready f E X ctx Γ owned c yieldTo head) {x : Exit} {slot : Option Nat}
    {target live : Finset VarId} (hX : Leads X slot target live) :
    Leads (Function.update X c.slots.length (some x)) slot target live := by
  obtain ⟨i, y, hi, hy, hty⟩ := hX
  exact ⟨i, y, hi, by rw [Function.update_of_ne (Nat.ne_of_lt (h.lt hy)), hy], hty⟩

/-- The state with a new join point. -/
theorem Ready.newExit (h : Ready f E X ctx Γ owned c yieldTo head) (x : Exit) (slot : Slot)
    (hs : x.scope = c.scope) (ht : x.target ⊆ x.live) (hl : x.live ⊆ Γ.refs f) (ha : Disjoint x.target E)
    (hk : x.Kept { c with slots := c.slots ++ [slot] } c.slots.length) :
    Ready f E (Function.update X c.slots.length (some x)) ctx Γ owned { c with slots := c.slots ++ [slot] }
      yieldTo head :=
  { h with
    yields := fun hy => h.leads_update (h.yields hy)
    loops := fun hl => h.leads_update (h.loops hl)
    labels := fun l hl => h.leads_update (h.labels l hl)
    exits := fun i y hy => by
      by_cases hi : i = c.slots.length
      · subst hi
        rw [Function.update_self, Option.some.injEq] at hy
        subst hy
        refine ⟨hs ▸ List.prefix_rfl, ht, fun v hv => ?_, ha, hk⟩
        rw [hs, ← List.mem_toFinset, h.scope]
        exact hl hv
      · rw [Function.update_of_ne hi] at hy
        have old := h.exits i y hy
        refine ⟨old.outer, old.target, old.live, old.apart, ?_⟩
        obtain ⟨slot, hslot, hheld⟩ := old.kept
        exact ⟨slot, by simpa [List.getElem?_append, old.kept.lt] using hslot, hheld⟩ }

theorem Ready.yielding (h : Ready f E X ctx Γ owned c yieldTo head) {i : Nat} {target live : Finset VarId}
    (hX : Leads X (some i) target live) (hl : live ⊆ Γ.refs f) (ht : target ⊆ live)
    (ho : ∀ v ∈ owned, v ∈ live → v ∈ target) :
    Ready f E X { ctx with live := { ctx.live with yieldLive := live }, yieldTarget := target } Γ.arm owned c
      (some i) head :=
  { h with
    yields := fun _ => hX
    within := h.within.yields hl
    exact := ⟨ht, h.exact.loopTarget, fun _ => ho, h.exact.loops⟩ }

theorem Ready.looping (h : Ready f E X ctx Γ owned c yieldTo head) {j : Nat} {target live : Finset VarId}
    (hX : Leads X (some j) target live) (hl : live ⊆ Γ.refs f) (ht : target ⊆ live)
    (ho : ∀ v ∈ owned, v ∈ live → v ∈ target) :
    Ready f E X { ctx with live := { ctx.live with head := some live }, loopTarget := some target }
      { Γ with inLoop := true } owned c yieldTo (some j) :=
  { h with
    loops := fun _ => hX
    within := h.within.loops hl
    exact := ⟨h.exact.yieldTarget, ht, h.exact.yields, ho⟩ }

theorem Ready.labelling (h : Ready f E X ctx Γ owned c yieldTo head) (label : LabelId) {i : Nat}
    {target live : Finset VarId} (hX : Leads X (some i) target live) (hl : live ⊆ Γ.refs f) :
    Ready f E X
      { ctx with
        live := { ctx.live with afterLabel := Function.update ctx.live.afterLabel label live }
        labelTarget := Function.update ctx.labelTarget label target }
      { Γ with labels := insert label Γ.labels } owned
      { c with labels := Function.update c.labels label (some i) } yieldTo head :=
  { h with
    labels := fun l hlabel => by
      by_cases hll : l = label
      · subst hll
        simpa using hX
      · simp only [Function.update_of_ne hll]
        exact h.labels l (Finset.mem_of_mem_insert_of_ne hlabel hll)
    within := by
      refine ⟨h.within.yieldLive, h.within.head, fun l => ?_⟩
      by_cases hll : l = label
      · subst hll
        simp only [Function.update_self]
        exact hl
      · simp only [Function.update_of_ne hll]
        exact h.within.afterLabel l
    exits := fun i x hx =>
      let old := h.exits i x hx
      ⟨old.outer, old.target, old.live, old.apart, old.kept⟩
    exact := ⟨h.exact.yieldTarget, h.exact.loopTarget, h.exact.yields, h.exact.loops⟩ }

/-! ## Nested sequences -/

variable {labels : Finset LabelId} {live : Finset VarId} {c' : Check}

/-- A join point made on the way is not one of the exits before it. -/
theorem Runs.pop {x : Exit} {slot : Slot} (hX : ∀ i y, X i = some y → i < c.slots.length)
    (h : Runs (Function.update X c.slots.length (some x)) labels live { c with slots := c.slots ++ [slot] } c') :
    Runs X labels live c c' where
  errors := h.errors
  scope := h.scope
  labels := h.labels
  kept i y hy hk := by
    apply h.kept i y
    · rw [Function.update_of_ne (Nat.ne_of_lt (hX i y hy)), hy]
    · obtain ⟨slot, hslot, hheld⟩ := id hk
      exact ⟨slot, by simpa [List.getElem?_append, hk.lt] using hslot, hheld⟩
  reached i y hy hr := by
    have hi := hX i y hy
    rw [← Function.update_of_ne (Nat.ne_of_lt hi) (some x) X] at hy
    refine (h.reached i y hy hr).imp_left fun ⟨slot, hslot, he⟩ => ⟨slot, ?_, he⟩
    simpa [List.getElem?_append, hi] using hslot

theorem Runs.unlabel {label : LabelId} {slot : Option Nat} (hl : label ∉ labels)
    (h : Runs X (insert label labels) live { c with labels := Function.update c.labels label slot } c') :
    Runs X labels live c c' where
  errors := h.errors
  scope := h.scope
  labels l hlabel := by
    have hne : l ≠ label := fun e => hl (e ▸ hlabel)
    rw [h.labels l (Finset.mem_insert_of_mem hlabel)]
    exact Function.update_of_ne hne _ _
  kept := h.kept
  reached := h.reached

/-- The check of a nested sequence, at whose start variables are defined. -/
theorem Runs.defining (vs : List VarId) {s : Seq}
    (h : Runs X labels live { c with scope := c.scope ++ vs.filter (counted f) }
      (runSeq m f { c with scope := c.scope ++ vs.filter (counted f) }
        (ownTokens (owned ∪ (vs.filter (counted f)).toFinset)) yieldTo head s)) :
    Runs X labels live c (checkSeq m f c (ownTokens owned) (vs.map (·, 1)) yieldTo head s) ∧
      (checkSeq m f c (ownTokens owned) (vs.map (·, 1)) yieldTo head s).scope = c.scope := by
  have restored : (runSeq m f { c with scope := c.scope ++ vs.filter (counted f) }
      (ownTokens (owned ∪ (vs.filter (counted f)).toFinset)) yieldTo head s).scope.take c.scope.length = c.scope := by
    obtain ⟨rest, hrest⟩ := h.scope
    rw [← hrest, List.append_assoc, List.take_left]
  rw [checkSeq_eq, restored]
  refine ⟨?_, rfl⟩
  exact ⟨h.errors, List.prefix_rfl, h.labels, h.kept, h.reached⟩

theorem Runs.nested {s : Seq} (h : Runs X labels live c (runSeq m f c (ownTokens owned) yieldTo head s)) :
    Runs X labels live c (checkSeq m f c (ownTokens owned) [] yieldTo head s) ∧
      (checkSeq m f c (ownTokens owned) [] yieldTo head s).scope = c.scope := by
  apply Runs.defining []
  simpa using h

/-! ## The end of a compound statement -/

theorem joined_tokens (g t : Tokens) (vs : List VarId) :
    (vs.zip (vs.map g)).foldl (fun t (v, n) => Function.update t v n) t = fun v => if v ∈ vs then g v else t v := by
  induction vs generalizing t with
  | nil => simp
  | cons v vs ih =>
      simp only [List.map_cons, List.zip_cons_cons, List.foldl_cons, ih]
      funext x
      by_cases hx : x = v
      · subst hx
        simp
      · simp [hx]

/-- What the check of a statement with destination `dst` ends in: no errors, and where control goes on,
the tokens of `owned` and enough of them for what is live. -/
structure Ends (f : Function) (E : Finset VarId) (X : Exits) (labels : Finset LabelId) (live : Finset VarId)
    (c : Check) (dst : Option VarId) (recorded owned : Finset VarId) (r : Option Tokens × Check) : Prop where
  runs : Runs X labels live c r.2
  tokens : ∀ t, r.1 = some t → t = ownTokens owned
  scope : ∀ t, r.1 = some t → r.2.scope = c.scope ++ (countedDst f dst).toList
  enough : ∀ t, r.1 = some t → recorded ⊆ owned ∪ E
  on : ∀ t, r.1 = some t → eraseDst recorded dst ⊆ live

theorem Ends.subset {E live' recorded : Finset VarId} {dst : Option VarId} {r : Option Tokens × Check}
    (h : Ends f E X labels live c dst recorded owned r) (hl : live ⊆ live') :
    Ends f E X labels live' c dst recorded owned r :=
  { h with runs := h.runs.subset hl, on := fun t ht => (h.on t ht).trans hl }

theorem Check.define_dst {t : Tokens} {n : Nat} {d : VarId} :
    (c.define f t d n).2 = { c with scope := c.scope ++ (countedDst f (some d)).toList } := by
  by_cases hd : counted f d = true
  · simp [countedDst, Option.filter, hd, Check.define_eq hd]
  · simp [countedDst, Option.filter, hd, Check.define_uncounted (by simpa using hd)]

theorem Check.define_tokens {t : Tokens} {n : Nat} {d : VarId} :
    (c.define f t d n).1 = (countedDst f (some d)).elim t fun d => Function.update t d n := by
  by_cases hd : counted f d = true
  · simp [countedDst, Option.filter, hd, Check.define_eq hd]
  · simp [countedDst, Option.filter, hd, Check.define_uncounted (by simpa using hd)]

theorem Check.define_owned {d : VarId} :
    (c.define f (ownTokens owned) d 1).1 = ownTokens (owned ∪ (countedDst f (some d)).toFinset) := by
  rw [Check.define_tokens]
  cases countedDst f (some d) with
  | none => simp
  | some d => simp [update_ownTokens]

theorem Ends.after {target recorded : Finset VarId} {dst : Option VarId} {i : Nat}
    (h : Runs X labels live c c') (hs : c'.scope = c.scope) (hX : X i = some ⟨c.scope, target, eraseDst recorded dst⟩)
    (hk : Exit.Kept ⟨c.scope, target, eraseDst recorded dst⟩ c i) (new : ¬ Reached c i)
    (ho : ∀ v ∈ owned, v ∈ c.scope) (ht : target ⊆ owned)
    (hl : eraseDst recorded dst ⊆ live → eraseDst recorded dst ⊆ target ∪ E) (hc : ∀ v ∈ recorded, counted f v = true) :
    Ends f E X labels live c dst recorded (target ∪ (countedDst f dst).toFinset)
      (c'.after f i (ownTokens owned) dst) := by
  obtain ⟨⟨mark, expected⟩, hslot, hmark, hexpected⟩ := h.kept i _ hX hk
  dsimp only at hmark hexpected
  subst hmark
  cases expected with
  | none =>
      have eq : c'.after f i (ownTokens owned) dst = (none, c') := by simp [Check.after, Check.joined, hslot]
      rw [eq]
      exact ⟨h, by simp, by simp, by simp, by simp⟩
  | some e =>
      obtain rfl := hexpected e rfl
      have joined : c'.joined i (ownTokens owned) = some (ownTokens target) := by
        simp only [Check.joined, hslot, hs, List.take_length, joined_tokens, Option.some.injEq]
        funext v
        by_cases hv : v ∈ c.scope
        · simp [hv]
        · have : v ∉ owned := fun h => hv (ho v h)
          simp [hv, ownTokens_of_notMem this, ownTokens_of_notMem fun h => this (ht h)]
      have eq : c'.after f i (ownTokens owned) dst =
          (some (ownTokens (target ∪ (countedDst f dst).toFinset)),
            { c' with scope := c'.scope ++ (countedDst f dst).toList }) := by
        simp only [Check.after, joined]
        cases dst with
        | none => simp [countedDst]
        | some d => simp only [Check.define_owned, Check.define_dst]
      rw [eq]
      have on : eraseDst recorded dst ⊆ live := (h.reached i _ hX ⟨_, hslot, by simp⟩).resolve_left new
      have live_on := hl on
      refine ⟨h.withScope _ (hs ▸ List.prefix_append ..), by simp, by simp [hs], fun _ _ v hv => ?_, fun _ _ => on⟩
      by_cases hd : v ∈ dst
      · have : v ∈ countedDst f dst := Option.filter_eq_some_iff.mpr ⟨hd, hc v hv⟩
        simp [this]
      · have := live_on (mem_eraseDst.mpr ⟨hv, hd⟩)
        simp only [Finset.mem_union] at this ⊢
        tauto

end

end Emela.Lir
