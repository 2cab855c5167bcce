import Emela.Lir.Lemmas.Live
import Emela.Lir.LiveOn

/-!
# Liveness on the tree

What the walk over the arenas computes, read off the tree it walks: each nested sequence adds what is
live at its start, and a loop what is live at its head.
-/

namespace Emela.Lir.Arena

/-- No construct of the Flow IR alone: no closure, no `protect`, and no failure edge that breaks. -/
def Stmt.Explicit (s : Stmt) : Prop :=
  s.target = none ∧ ∀ n ∈ s.nested, n.role = .arm ∨ n.role = .loop ∨ n.role = .landing

def liveTerm (lc : LiveCtx) (t : Term) : Finset VarId :=
  (match t with
    | .yield _ => lc.yieldLive
    | .break label _ => lc.afterLabel label
    | .recur _ => lc.head.getD ∅
    | _ => ∅) ∪ t.uses.toFinset

/-- The context of a nested sequence, with what is live after its statement and at its own head. -/
def enterLive (lc : LiveCtx) (after head : Finset VarId) (n : Nested) : LiveCtx :=
  match n.role with
  | .arm => ⟨after, lc.head, n.label.elim lc.afterLabel fun l => Function.update lc.afterLabel l after⟩
  | .loop => ⟨after, some head, lc.afterLabel⟩
  | _ => lc

mutual

/-- The live variables at the start of the sequence. -/
def liveSeq (lc : LiveCtx) : SeqTree → Finset VarId
  | .mk _ term stmts => liveStmts lc term stmts

def liveStmts (lc : LiveCtx) (term : Term) : List StmtTree → Finset VarId
  | [] => liveTerm lc term
  | t :: ts => liveStmt lc t (liveStmts lc term ts)

def liveStmt (lc : LiveCtx) : StmtTree → Finset VarId → Finset VarId
  | .mk _ stmt subs, after =>
      (if stmt.falls then eraseDst after stmt.dst else ∅) ∪
        liveNested lc (eraseDst after stmt.dst) stmt.nested subs ∪ stmt.reads.toFinset

/-- What the nested sequences need when they are entered; for a loop, at its head. -/
def liveNested (lc : LiveCtx) (after : Finset VarId) : List Nested → List SeqTree → Finset VarId
  | n :: ns, t :: ts =>
      (liveSeq (enterLive lc after ∅ n) t \ n.binds.toFinset) ∪ liveNested lc after ns ts
  | _, _ => ∅

end

/-- What is live at the head of a nested sequence. -/
def liveHead (lc : LiveCtx) (after : Finset VarId) (n : Nested) (t : SeqTree) : Finset VarId :=
  liveSeq (enterLive lc after ∅ n) t \ n.binds.toFinset

/-- What is live on after a `let`. -/
def liveAfter (lc : LiveCtx) (after : Finset VarId) (stmt : Stmt) (subs : List SeqTree) : Finset VarId :=
  (if stmt.falls then eraseDst after stmt.dst else ∅) ∪
    liveNested lc (eraseDst after stmt.dst) stmt.nested subs

/-! ## Growth -/

/-- The context `lc'` has at most `extra` more than `lc` at each way out. -/
structure LiveLe (extra : Finset VarId) (lc' lc : LiveCtx) : Prop where
  yields : lc'.yieldLive ⊆ lc.yieldLive ∪ extra
  head : lc'.head.getD ∅ ⊆ lc.head.getD ∅ ∪ extra
  labels : ∀ l, lc'.afterLabel l ⊆ lc.afterLabel l ∪ extra

variable {extra : Finset VarId}

theorem eraseDst_grows {a a' : Finset VarId} (h : a' ⊆ a ∪ extra) (dst : Option VarId) :
    eraseDst a' dst ⊆ eraseDst a dst ∪ extra := by
  intro v hv
  simp only [eraseDst, Finset.mem_sdiff, Finset.mem_union] at hv ⊢
  rcases Finset.mem_union.mp (h hv.1) with ha | he
  · exact .inl ⟨ha, hv.2⟩
  · exact .inr he

theorem LiveLe.enter {lc lc' : LiveCtx} (h : LiveLe extra lc' lc) {a b x y : Finset VarId} (ha : b ⊆ a ∪ extra)
    (hx : y ⊆ x ∪ extra) (n : Nested) : LiveLe extra (enterLive lc' b y n) (enterLive lc a x n) := by
  rcases n with ⟨role, binds, label, body⟩
  cases role with
  | arm =>
      refine ⟨ha, h.head, ?_⟩
      intro l
      cases label with
      | none => exact h.labels l
      | some b =>
          by_cases hl : l = b
          · simpa [enterLive, hl] using ha
          · simpa [enterLive, hl] using h.labels l
  | loop => exact ⟨ha, hx, h.labels⟩
  | landing => exact h
  | protect => exact h
  | cleanup => exact h
  | closure => exact h

theorem liveTerm_grows {lc lc' : LiveCtx} (h : LiveLe extra lc' lc) (t : Term) : liveTerm lc' t ⊆ liveTerm lc t ∪ extra := by
  have base : ∀ a a' u : Finset VarId, a' ⊆ a ∪ extra → a' ∪ u ⊆ a ∪ u ∪ extra := by
    intro a a' u hsub v hv
    have := @hsub v
    simp only [Finset.mem_union] at hv this ⊢
    tauto
  cases t with
  | yield => exact base _ _ _ h.yields
  | «break» l _ => exact base _ _ _ (h.labels l)
  | recur => exact base _ _ _ h.head
  | _ => exact base _ _ _ Finset.subset_union_left

mutual

/-- What is live at the start of a sequence grows by no more than what is live at its ways out. -/
theorem liveSeq_grows {lc lc' : LiveCtx} (h : LiveLe extra lc' lc) : (t : SeqTree) → liveSeq lc' t ⊆ liveSeq lc t ∪ extra
  | .mk _ term stmts => by
      simp only [liveSeq]
      exact liveStmts_grows h term stmts

theorem liveStmts_grows {lc lc' : LiveCtx} (h : LiveLe extra lc' lc) (term : Term) :
    (ts : List StmtTree) → liveStmts lc' term ts ⊆ liveStmts lc term ts ∪ extra
  | [] => by
      simp only [liveStmts]
      exact liveTerm_grows h term
  | t :: ts => by
      simp only [liveStmts]
      exact liveStmt_grows h t (liveStmts_grows h term ts)

theorem liveStmt_grows {lc lc' : LiveCtx} (h : LiveLe extra lc' lc) {a a' : Finset VarId} :
    (t : StmtTree) → a' ⊆ a ∪ extra → liveStmt lc' t a' ⊆ liveStmt lc t a ∪ extra
  | .mk _ stmt subs, ha => by
      have after := eraseDst_grows ha stmt.dst
      have inner := liveNested_grows h after stmt.nested subs
      intro v hv
      have hafter := @after v
      have hinner := @inner v
      simp only [liveStmt, Finset.mem_union] at hv hinner hafter ⊢
      by_cases hf : stmt.falls = true
      · rw [if_pos hf] at hv ⊢
        tauto
      · rw [if_neg hf] at hv ⊢
        tauto

theorem liveNested_grows {lc lc' : LiveCtx} (h : LiveLe extra lc' lc) {a a' : Finset VarId} (ha : a' ⊆ a ∪ extra) :
    (ns : List Nested) → (ts : List SeqTree) →
      liveNested lc' a' ns ts ⊆ liveNested lc a ns ts ∪ extra
  | n :: ns, t :: ts => by
      have first := liveSeq_grows (h.enter ha (x := ∅) (Finset.empty_subset _) n) t
      have rest := liveNested_grows h ha ns ts
      intro v hv
      have hfirst := @first v
      have hrest := @rest v
      simp only [liveNested, Finset.mem_union, Finset.mem_sdiff] at hv hfirst hrest ⊢
      tauto
  | [], _ => by simp [liveNested]
  | _ :: _, [] => by simp [liveNested]

end

/-! ## The fixpoint at a head -/

theorem LiveLe.refl (extra : Finset VarId) (lc : LiveCtx) : LiveLe extra lc lc :=
  ⟨Finset.subset_union_left, Finset.subset_union_left, fun _ => Finset.subset_union_left⟩

/-- What is live at a head does not change when it is taken for live there. -/
theorem liveHead_fixed (lc : LiveCtx) (after : Finset VarId) (n : Nested) (t : SeqTree) :
    liveSeq (enterLive lc after (liveHead lc after n t) n) t \ n.binds.toFinset = liveHead lc after n t := by
  apply subset_antisymm
  · have := liveSeq_grows ((LiveLe.refl (liveHead lc after n t) lc).enter
      (a := after) (x := ∅) Finset.subset_union_left (Finset.subset_union_right) n) t
    intro v hv
    have hv' := Finset.mem_sdiff.mp hv
    rcases Finset.mem_union.mp (this hv'.1) with h | h
    · exact Finset.mem_sdiff.mpr ⟨h, hv'.2⟩
    · exact h
  · have := liveSeq_grows ((LiveLe.refl ∅ lc).enter (a := after) (b := after)
      (x := liveHead lc after n t) (y := ∅) Finset.subset_union_left (Finset.empty_subset _) n) t
    rw [Finset.union_empty] at this
    exact Finset.sdiff_subset_sdiff this subset_rfl

/-! ## The walk computes what is live on the tree

A statement's walk visits its nested sequences in order; on a tree whose nodes each stand in one place,
with its blocks in scope, it returns what is live there and leaves for each `let` what is live after it. -/

/-! ## Steps of a walk -/

theorem Walk.bind_eq {σ α β : Type} {m : Walk σ α} {g : α → Walk σ β} {st st' : σ} {a : α}
    (h : m st = some (a, st')) : (m >>= g) st = g a st' := by
  change (m st).bind (fun p => g p.1 p.2) = g a st'
  rw [h]
  rfl

theorem Walk.get_some {σ α β : Type} {o : Option α} {a : α} (h : o = some a) (g : α → Walk σ β) :
    (Walk.get o >>= g) = g a := by
  subst h
  rfl

theorem Walk.modify_bind {σ β : Type} (u : σ → σ) (g : PUnit → Walk σ β) (st : σ) :
    ((modify u : Walk σ PUnit) >>= g) st = g ⟨⟩ (u st) := rfl

/-! ## The walk of a statement, uniformly -/

section
variable (f : Function) (limit fuel : Nat) (after yieldLive : Finset VarId) (head : Option (Finset VarId))

/-- Records what is live after a block that is entered. -/
def Live.opened : Option LabelId → Walk Live PUnit
  | some l => modify (Live.enterBlock l after)
  | none => pure ⟨⟩

/-- The walk of one nested sequence. -/
def Live.entered (n : Nested) : Walk Live (Finset VarId) :=
  match n.role with
  | .arm => do
      Live.opened after n.label
      let l ← Live.seq f limit fuel n.body after head
      pure (l \ n.binds.toFinset)
  | .loop => Live.rounds (fun h => do
      let l ← Live.seq f limit fuel n.body after (some h)
      pure (l \ n.binds.toFinset)) limit ∅
  | _ => do
      let l ← Live.seq f limit fuel n.body yieldLive head
      pure (l \ n.binds.toFinset)

def Live.visited : List Nested → Walk Live (Finset VarId)
  | [] => pure ∅
  | n :: ns => do
      let l ← Live.entered f limit fuel after yieldLive head n
      let r ← Live.visited ns
      pure (l ∪ r)

/-- Only a `let` is recorded. -/
def Live.recorded (s : StmtId) (on : Finset VarId) : Stmt → Walk Live PUnit
  | .let .. => modify (Live.record s on)
  | _ => pure ⟨⟩

theorem mapM_arms {β : Type} (cases : List (CaseKey × SeqId)) (k : Finset VarId → Walk Live β) :
    (cases.mapM (fun c => Live.seq f limit fuel c.2 after head) >>= fun ls => k (ls.foldr (· ∪ ·) ∅)) =
      Live.visited f limit fuel after yieldLive head (cases.map fun c => ⟨.arm, [], none, c.2⟩) >>= k := by
  induction cases generalizing k with
  | nil => simp [Live.visited]
  | cons c cs ih =>
      have step := fun l => ih (fun r => k (l ∪ r))
      simp only [List.mapM_cons, List.map_cons, Live.visited, Live.entered, Live.opened, bind_assoc, pure_bind,
        List.foldr_cons, List.toFinset_nil, Finset.sdiff_empty]
      simp only [step]

theorem visited_append (ns ms : List Nested) :
    Live.visited f limit fuel after yieldLive head (ns ++ ms) = (do
      let l ← Live.visited f limit fuel after yieldLive head ns
      let r ← Live.visited f limit fuel after yieldLive head ms
      pure (l ∪ r)) := by
  induction ns with
  | nil => simp only [List.nil_append, Live.visited, pure_bind, Finset.empty_union, bind_pure]
  | cons n ns ih =>
      simp only [List.cons_append, Live.visited, ih, bind_assoc, pure_bind, Finset.union_assoc]

end

/-- A statement's walk: its nested sequences, then what is live on after it and what it reads. -/
theorem stmt_eq {f : Function} {limit fuel : Nat} {s : StmtId} {stmt : Stmt} (hs : f.stmts[s]? = some stmt)
    (he : stmt.Explicit) (after yieldLive : Finset VarId) (head : Option (Finset VarId)) :
    Live.stmt f limit (fuel + 1) s after yieldLive head = (do
      let l ← Live.visited f limit fuel (eraseDst after stmt.dst) yieldLive head stmt.nested
      Live.recorded s ((if stmt.falls then eraseDst after stmt.dst else ∅) ∪ l) stmt
      pure ((if stmt.falls then eraseDst after stmt.dst else ∅) ∪ l ∪ stmt.reads.toFinset)) := by
  rw [Live.stmt, Walk.get_some hs]
  cases stmt with
  | «let» dst value onFail onDefect onSuspend =>
      have noClosure : value.nested = [] := by
        cases value with
        | heap => rfl
        | fnRef => rfl
        | closure params captures body suspends =>
            have := he.2 ⟨.closure, params, none, body⟩ (List.mem_append_left _ (List.mem_append_left _ (by
              simp [Value.nested])))
            simp at this
      cases onFail with
      | none =>
          cases onDefect <;>
            simp [Stmt.nested, noClosure, Live.visited, Live.entered, Live.recorded, Stmt.falls, Stmt.reads, Stmt.dst]
      | some edge =>
          cases edge with
          | «break» l => exact absurd he.1 (by simp [Stmt.target, OnFail.target])
          | propagate =>
              cases onDefect <;>
                simp [Stmt.nested, noClosure, OnFail.nested, Live.visited, Live.entered, Live.recorded, Stmt.falls,
                  Stmt.reads, Stmt.dst]
          | handle error body =>
              cases onDefect <;>
                simp [Stmt.nested, noClosure, OnFail.nested, Live.visited, Live.entered, Live.recorded, Stmt.falls,
                  Stmt.reads, Stmt.dst, Finset.union_assoc]
  | «if» dst cond then_ else_ =>
      cases h : cond.var? <;>
        simp [Stmt.nested, Live.visited, Live.entered, Live.opened, Live.recorded, Stmt.falls, Stmt.reads, Stmt.dst, h]
  | switch dst on cases default =>
      simp only [Stmt.nested, visited_append, Live.recorded, Stmt.falls, Stmt.reads, Stmt.dst, bind_assoc, pure_bind]
      cases default with
      | none =>
          rw [mapM_arms f limit fuel _ yieldLive head cases fun l => pure (l ∪ ∅ ∪ {on.var})]
          simp [Live.visited]
      | some body =>
          rw [mapM_arms f limit fuel _ yieldLive head cases fun l => do
            let r ← Live.seq f limit fuel body (eraseDst after dst) head
            pure (l ∪ r ∪ {on.var})]
          simp [Live.visited, Live.entered, Live.opened]
  | loop dst vars inits body =>
      simp [Stmt.nested, Live.visited, Live.entered, Live.recorded, Stmt.falls, Stmt.reads, Stmt.dst]
  | block dst label body =>
      simp [Stmt.nested, Live.visited, Live.entered, Live.opened, Live.recorded, Stmt.falls, Stmt.reads, Stmt.dst]
  | protect dst body cleanup => simpa using he.2 _ (List.mem_cons_self ..)
  | dup v => simp [Stmt.nested, Live.visited, Live.recorded, Stmt.falls, Stmt.reads, Stmt.dst]
  | drop v => simp [Stmt.nested, Live.visited, Live.recorded, Stmt.falls, Stmt.reads, Stmt.dst]

/-! ## What a walk leaves behind -/

/-- Only the tables of what the code introduces have changed. -/
structure Kept (L : List Node) (st st' : Live) : Prop where
  labels : ∀ l, Node.label l ∉ L → st'.afterLabel l = st.afterLabel l
  lets : ∀ s, Node.stmt s ∉ L → st'.liveOn s = st.liveOn s

theorem Kept.refl (L : List Node) (st : Live) : Kept L st st := ⟨fun _ _ => rfl, fun _ _ => rfl⟩

theorem Kept.trans {L M : List Node} {st st' st'' : Live} (h : Kept L st st') (h' : Kept M st' st'') :
    Kept (L ++ M) st st'' := by
  constructor
  · intro l hl
    rw [List.mem_append, not_or] at hl
    rw [h'.labels l hl.2, h.labels l hl.1]
  · intro s hs
    rw [List.mem_append, not_or] at hs
    rw [h'.lets s hs.2, h.lets s hs.1]

theorem Kept.mono {L M : List Node} {st st' : Live} (h : Kept L st st') (hsub : L ⊆ M) : Kept M st st' :=
  ⟨fun l hl => h.labels l fun hm => hl (hsub hm), fun s hs => h.lets s fun hm => hs (hsub hm)⟩

section
variable (on : StmtId → Option (Finset VarId))

mutual

/-- For each `let` of the sequence, the table says what is live after it. -/
def RecordedSeq (lc : LiveCtx) : SeqTree → Prop
  | .mk _ term stmts => RecordedStmts lc term stmts

def RecordedStmts (lc : LiveCtx) (term : Term) : List StmtTree → Prop
  | [] => True
  | t :: ts => RecordedStmt lc (liveStmts lc term ts) t ∧ RecordedStmts lc term ts

def RecordedStmt (lc : LiveCtx) (after : Finset VarId) : StmtTree → Prop
  | .mk id stmt subs =>
      (∀ dst value onFail onDefect edge, stmt = .let dst value onFail onDefect edge →
        on id = some (liveAfter lc after stmt subs)) ∧
        RecordedNested lc (eraseDst after stmt.dst) stmt.nested subs

def RecordedNested (lc : LiveCtx) (after : Finset VarId) : List Nested → List SeqTree → Prop
  | n :: ns, t :: ts =>
      RecordedSeq (enterLive lc after (liveHead lc after n t) n) t ∧ RecordedNested lc after ns ts
  | _, _ => True

end

end

section
variable {on on' : StmtId → Option (Finset VarId)}

mutual

/-- It matters only what the table says of the statements of the sequence. -/
theorem recordedSeq_congr {lc : LiveCtx} : (t : SeqTree) → (∀ s, Node.stmt s ∈ t.nodes → on' s = on s) →
    RecordedSeq on lc t → RecordedSeq on' lc t
  | .mk _ term stmts, heq, h => by
      simp only [RecordedSeq] at h ⊢
      simp only [SeqTree.nodes, List.mem_append] at heq
      exact recordedStmts_congr stmts (fun s hs => heq s (.inl hs)) h

theorem recordedStmts_congr {lc : LiveCtx} {term : Term} : (ts : List StmtTree) →
    (∀ s, Node.stmt s ∈ stmtsNodes ts → on' s = on s) → RecordedStmts on lc term ts → RecordedStmts on' lc term ts
  | [], _, _ => by simp only [RecordedStmts]
  | t :: ts, heq, h => by
      simp only [RecordedStmts] at h ⊢
      simp only [stmtsNodes, List.mem_append] at heq
      exact ⟨recordedStmt_congr t (fun s hs => heq s (.inl hs)) h.1,
        recordedStmts_congr ts (fun s hs => heq s (.inr hs)) h.2⟩

theorem recordedStmt_congr {lc : LiveCtx} {after : Finset VarId} : (t : StmtTree) →
    (∀ s, Node.stmt s ∈ t.nodes → on' s = on s) → RecordedStmt on lc after t → RecordedStmt on' lc after t
  | .mk id stmt subs, heq, h => by
      simp only [RecordedStmt] at h ⊢
      simp only [StmtTree.nodes, List.mem_append] at heq
      constructor
      · intro dst value onFail onDefect edge hlet
        rw [heq id (.inr (List.mem_singleton_self _))]
        exact h.1 dst value onFail onDefect edge hlet
      · exact recordedNested_congr stmt.nested subs (fun s hs => heq s (.inl (.inl hs))) h.2

theorem recordedNested_congr {lc : LiveCtx} {after : Finset VarId} : (ns : List Nested) → (ts : List SeqTree) →
    (∀ s, Node.stmt s ∈ nestedNodes ns ts → on' s = on s) → RecordedNested on lc after ns ts →
      RecordedNested on' lc after ns ts
  | n :: ns, t :: ts, heq, h => by
      simp only [RecordedNested] at h ⊢
      simp only [nestedNodes, List.mem_append] at heq
      exact ⟨recordedSeq_congr t (fun s hs => heq s (.inl (.inr hs))) h.1,
        recordedNested_congr ns ts (fun s hs => heq s (.inr hs)) h.2⟩
  | [], _, _, _ => by simp only [RecordedNested]
  | _ :: _, [], _, _ => by simp only [RecordedNested]

end

end

/-! ## The walk on a tree -/

/-- The table of the blocks holds the context for those in scope. -/
def Agrees (labels : Finset LabelId) (lc : LiveCtx) (st : Live) : Prop :=
  ∀ l ∈ labels, (st.afterLabel l).getD ∅ = lc.afterLabel l

theorem Agrees.kept {labels : Finset LabelId} {lc : LiveCtx} {st st' : Live} {L : List Node}
    (h : Agrees labels lc st) (hk : Kept L st st') (hl : ∀ l ∈ labels, Node.label l ∉ L) :
    Agrees labels lc st' := by
  intro l hmem
  rw [hk.labels l (hl l hmem)]
  exact h l hmem

section
variable {f : Function} {limit fuel : Nat}

/-- The walk of the sequence returns what is live at its start. -/
def RunsSeq (f : Function) (limit fuel : Nat) (t : SeqTree) : Prop :=
  ∀ (Γ : Scope) (lc : LiveCtx) (st : Live), ScopedSeq Γ t → (∀ l ∈ Γ.labels, Node.label l ∉ t.nodes) →
    Agrees Γ.labels lc st →
    ∃ st', Live.seq f limit fuel t.id lc.yieldLive lc.head st = some (liveSeq lc t, st') ∧
      Kept t.nodes st st' ∧ RecordedSeq st'.liveOn lc t

/-- At a head the second round finds nothing new. -/
theorem rounds_run (hlimit : 2 ≤ limit) {round : Finset VarId → Walk Live (Finset VarId)} {F : Finset VarId → Finset VarId}
    {L : List Node} {P : Finset VarId → Live → Prop} (fixed : F (F ∅) = F ∅) {st : Live}
    (hround : ∀ h st', Kept L st st' → ∃ st'', round h st' = some (F h, st'') ∧ Kept L st st'' ∧ P h st'') :
    ∃ st', Live.rounds round limit ∅ st = some (F ∅, st') ∧ Kept L st st' ∧ P (F ∅) st' := by
  obtain ⟨k, rfl⟩ : ∃ k, limit = k + 2 := ⟨limit - 2, by omega⟩
  obtain ⟨st₁, run₁, kept₁, holds₁⟩ := hround ∅ st (Kept.refl L st)
  by_cases h : F ∅ = ∅
  · refine ⟨st₁, ?_, kept₁, by rwa [h]⟩
    rw [Live.rounds, Walk.bind_eq run₁, if_pos h, h]
    rfl
  · obtain ⟨st₂, run₂, kept₂, holds₂⟩ := hround (F ∅) st₁ kept₁
    refine ⟨st₂, ?_, kept₂, holds₂⟩
    rw [Live.rounds, Walk.bind_eq run₁, if_neg h, Live.rounds, Walk.bind_eq run₂, if_pos fixed]
    rfl

/-- A nested sequence of a statement with explicit control. -/
def Entered (n : Nested) : Prop := n.role = .arm ∨ n.role = .loop ∨ n.role = .landing

theorem Kept.both {L : List Node} {st st' st'' : Live} (h : Kept L st st') (h' : Kept L st' st'') :
    Kept L st st'' := (h.trans h').mono (List.append_subset.mpr ⟨fun _ => id, fun _ => id⟩)

theorem Agrees.congr {labels : Finset LabelId} {lc lc' : LiveCtx} {st : Live} (h : Agrees labels lc st)
    (heq : lc'.afterLabel = lc.afterLabel) : Agrees labels lc' st := by
  intro l hl
  rw [heq]
  exact h l hl

theorem entered_run (hlimit : 2 ≤ limit) {n : Nested} {t : SeqTree} (run : RunsSeq f limit fuel t) {Γ : Scope}
    {lc : LiveCtx} (after : Finset VarId) {st : Live} (hn : Entered n) (hbody : n.body = t.id)
    (hscope : ScopedSeq (enter Γ n) t) (hfresh : ∀ l ∈ Γ.labels, Node.label l ∉ n.nodes ++ t.nodes)
    (hnodup : (n.nodes ++ t.nodes).Nodup) (hst : Agrees Γ.labels lc st) :
    ∃ st', Live.entered f limit fuel after lc.yieldLive lc.head n st = some (liveHead lc after n t, st') ∧
      Kept (n.nodes ++ t.nodes) st st' ∧
      RecordedSeq st'.liveOn (enterLive lc after (liveHead lc after n t) n) t := by
  have outer : ∀ l ∈ Γ.labels, Node.label l ∉ t.nodes := fun l hl hm =>
    hfresh l hl (List.mem_append_right _ hm)
  have fixed := liveHead_fixed lc after n t
  have widen : t.nodes ⊆ n.nodes ++ t.nodes := List.subset_append_right ..
  rcases n with ⟨role, binds, label, body⟩
  subst hbody
  rcases hn with h | h | h <;> subst h
  · -- an arm: the block it is, if any, is entered first
    cases label with
    | none =>
        have hst' : Agrees (enter Γ ⟨.arm, binds, none, t.id⟩).labels
            (enterLive lc after ∅ ⟨.arm, binds, none, t.id⟩) st := by
          intro l hl
          simpa [enterLive] using hst l (by simpa [enter] using hl)
        obtain ⟨st', hrun, hkept, hrec⟩ := run _ _ _ hscope (by simpa [enter] using outer) hst'
        refine ⟨st', ?_, hkept.mono widen, hrec⟩
        simp only [Live.entered, Live.opened, pure_bind]
        exact (Walk.bind_eq hrun).trans rfl
    | some b =>
        have hb : Node.label b ∉ t.nodes := by
          have := hnodup
          simp only [Nested.nodes, Option.toList_some, List.map_cons, List.map_nil, List.cons_append,
            List.nodup_cons, List.mem_append, not_or] at this
          exact this.1.2
        have hst' : Agrees (enter Γ ⟨.arm, binds, some b, t.id⟩).labels
            (enterLive lc after ∅ ⟨.arm, binds, some b, t.id⟩) (st.enterBlock b after) := by
          intro l hl
          by_cases hlb : l = b
          · simp [Live.enterBlock, enterLive, hlb]
          · have hmem : l ∈ Γ.labels := by simpa [enter, hlb] using hl
            simpa [Live.enterBlock, enterLive, hlb] using hst l hmem
        have hfresh' : ∀ l ∈ (enter Γ ⟨.arm, binds, some b, t.id⟩).labels, Node.label l ∉ t.nodes := by
          intro l hl
          simp only [enter, Finset.mem_union, Option.mem_toFinset, Option.mem_def, Option.some.injEq] at hl
          rcases hl with hl | rfl
          · exact outer l hl
          · exact hb
        obtain ⟨st', hrun, hkept, hrec⟩ := run _ _ _ hscope hfresh' hst'
        refine ⟨st', ?_, ⟨?_, ?_⟩, hrec⟩
        · simp only [Live.entered, Live.opened, Walk.modify_bind]
          exact (Walk.bind_eq hrun).trans rfl
        · intro l hl
          simp only [Nested.nodes, List.mem_append, Option.toList_some, List.map_cons, List.map_nil,
            List.mem_singleton, Node.label.injEq, not_or] at hl
          rw [hkept.labels l hl.2]
          exact Function.update_of_ne hl.1.1 _ _
        · intro s hs
          rw [List.mem_append, not_or] at hs
          rw [hkept.lets s hs.2]
          rfl
  · -- a loop: rounds from nothing live at its head
    have each : ∀ h st', Kept (Nested.nodes ⟨.loop, binds, label, t.id⟩ ++ t.nodes) st st' →
        ∃ st'', (do
            let l ← Live.seq f limit fuel t.id after (some h)
            pure (l \ binds.toFinset)) st' =
              some (liveSeq (enterLive lc after h ⟨.loop, binds, label, t.id⟩) t \ binds.toFinset, st'') ∧
          Kept (Nested.nodes ⟨.loop, binds, label, t.id⟩ ++ t.nodes) st st'' ∧
          RecordedSeq st''.liveOn (enterLive lc after h ⟨.loop, binds, label, t.id⟩) t := by
      intro h st' hk
      have hst' : Agrees (enter Γ ⟨.loop, binds, label, t.id⟩).labels
          (enterLive lc after h ⟨.loop, binds, label, t.id⟩) st' := (hst.kept hk hfresh).congr rfl
      obtain ⟨st'', hrun, hkept, hrec⟩ := run _ _ _ hscope outer hst'
      exact ⟨st'', (Walk.bind_eq hrun).trans rfl, hk.both (hkept.mono widen), hrec⟩
    exact rounds_run hlimit fixed each
  · -- a landing: its ways out are those of the sequence around the statement
    have hst' : Agrees (enter Γ ⟨.landing, binds, label, t.id⟩).labels lc st := hst
    obtain ⟨st', hrun, hkept, hrec⟩ := run _ lc _ hscope outer hst'
    exact ⟨st', (Walk.bind_eq hrun).trans rfl, hkept.mono widen, hrec⟩

theorem visited_run (hlimit : 2 ≤ limit) {Γ : Scope} {lc : LiveCtx} (after : Finset VarId) (ns : List Nested) :
    ∀ (ts : List SeqTree) (st : Live), (∀ t ∈ ts, RunsSeq f limit fuel t) → (∀ n ∈ ns, Entered n) →
      ns.map Nested.body = ts.map SeqTree.id → ScopedNested Γ ns ts →
      (∀ l ∈ Γ.labels, Node.label l ∉ nestedNodes ns ts) → (nestedNodes ns ts).Nodup → Agrees Γ.labels lc st →
      ∃ st', Live.visited f limit fuel after lc.yieldLive lc.head ns st = some (liveNested lc after ns ts, st') ∧
        Kept (nestedNodes ns ts) st st' ∧ RecordedNested st'.liveOn lc after ns ts := by
  induction ns with
  | nil =>
      intro ts st _ _ hids _ _ _ _
      cases ts with
      | nil => exact ⟨st, by simp only [Live.visited, liveNested]; rfl, Kept.refl _ st, by simp only [RecordedNested]⟩
      | cons => cases hids
  | cons n ns ih =>
      intro ts st hruns hns hids hscope hfresh hnodup hst
      cases ts with
      | nil => cases hids
      | cons t ts =>
          simp only [List.map_cons, List.cons.injEq] at hids
          simp only [ScopedNested] at hscope
          simp only [nestedNodes] at hfresh hnodup
          have hfirst : ∀ l ∈ Γ.labels, Node.label l ∉ n.nodes ++ t.nodes := fun l hl hm =>
            hfresh l hl (List.mem_append_left _ hm)
          have hrest : ∀ l ∈ Γ.labels, Node.label l ∉ nestedNodes ns ts := fun l hl hm =>
            hfresh l hl (List.mem_append_right _ hm)
          rw [List.nodup_append'] at hnodup
          obtain ⟨st₁, run₁, kept₁, rec₁⟩ := entered_run hlimit (hruns t (List.mem_cons_self ..)) after
            (hns n (List.mem_cons_self ..)) hids.1 hscope.1 hfirst hnodup.1 hst
          obtain ⟨st₂, run₂, kept₂, rec₂⟩ := ih ts st₁ (fun u hu => hruns u (List.mem_cons_of_mem _ hu))
            (fun m hm => hns m (List.mem_cons_of_mem _ hm)) hids.2 hscope.2 hrest hnodup.2.1
            (hst.kept kept₁ hfirst)
          refine ⟨st₂, ?_, kept₁.trans kept₂, ?_⟩
          · simp only [Live.visited, liveNested]
            rw [Walk.bind_eq run₁, Walk.bind_eq run₂]
            rfl
          · simp only [RecordedNested]
            refine ⟨recordedSeq_congr t ?_ rec₁, rec₂⟩
            intro s hs
            exact kept₂.lets s fun hm => hnodup.2.2 (List.mem_append_right _ hs) hm

/-- Whether the statement is a `let`. -/
def Stmt.isLet : Stmt → Bool
  | .let .. => true
  | _ => false

/-- The terminator of a sequence in scope breaks to a block in scope. -/
theorem scopedStmts_target {Γ : Scope} {term : Term} (ts : List StmtTree) (h : ScopedStmts Γ term ts) :
    ∀ l ∈ term.target, l ∈ Γ.labels := by
  induction ts generalizing Γ with
  | nil =>
      simp only [ScopedStmts, ScopedTerm] at h
      exact h.2.1
  | cons t ts ih =>
      simp only [ScopedStmts] at h
      have rest := ih h.2
      exact rest

theorem nestedNodes_nodup {ns : List Nested} {ts : List SeqTree} (hids : ns.map Nested.body = ts.map SeqTree.id)
    (h : (nestedNodes ns ts).Nodup) : ∀ t ∈ ts, t.nodes.Nodup := by
  induction ts generalizing ns with
  | nil => simp
  | cons t ts ih =>
      cases ns with
      | nil => cases hids
      | cons n ns =>
          simp only [List.map_cons, List.cons.injEq] at hids
          simp only [nestedNodes, List.nodup_append'] at h
          intro u hu
          rcases List.mem_cons.mp hu with rfl | hu
          · exact h.1.2.1
          · exact ih hids.2 h.2.1 u hu

mutual

theorem runs_seq (hlimit : 2 ≤ limit) : (t : SeqTree) → (fuel : Nat) → t.size ≤ fuel → StoresSeq f t →
    t.nodes.Nodup → (∀ s ∈ t.all, s.Explicit) → RunsSeq f limit fuel t
  | .mk id term stmts, fuel, hsize, hstored, hnodup, hall => by
      intro Γ lc st hscope hfresh hst
      obtain ⟨fuel, rfl⟩ : ∃ k, fuel = k + 1 := ⟨fuel - 1, by simp only [SeqTree.size] at hsize; omega⟩
      simp only [SeqTree.size, Nat.add_le_add_iff_right] at hsize
      simp only [StoresSeq] at hstored
      simp only [SeqTree.nodes, List.nodup_append'] at hnodup
      simp only [SeqTree.all] at hall
      simp only [ScopedSeq] at hscope
      simp only [SeqTree.nodes, List.mem_append, not_or] at hfresh
      obtain ⟨st', hrun, hkept, hrec⟩ := runs_stmts hlimit stmts fuel hsize hstored.2 hnodup.1 hall Γ lc term st
        hscope (fun l hl => (hfresh l hl).1) hst
      refine ⟨st', ?_, hkept.mono (List.subset_append_left ..), by simpa only [RecordedSeq] using hrec⟩
      -- what the terminator needs is read off the table before the statements are visited
      have hterm : Live.termBase lc.yieldLive lc.head st term ∪ term.uses.toFinset = liveTerm lc term := by
        have := scopedStmts_target stmts hscope
        cases term with
        | «break» l v =>
            simp only [Live.termBase, liveTerm]
            rw [hst l (this l rfl)]
        | _ => rfl
      have hget : ∀ g : Live → Walk Live (Finset VarId), ((get : Walk Live Live) >>= g) st = g st st := fun _ => rfl
      simp only [SeqTree.id, Live.seq, liveSeq]
      rw [Walk.get_some hstored.1, hget, hterm]
      exact hrun

theorem runs_stmts (hlimit : 2 ≤ limit) : (ts : List StmtTree) → (fuel : Nat) → stmtsSize ts ≤ fuel →
    StoresStmts f ts → (stmtsNodes ts).Nodup → (∀ s ∈ stmtsAll ts, s.Explicit) →
    ∀ (Γ : Scope) (lc : LiveCtx) (term : Term) (st : Live), ScopedStmts Γ term ts →
      (∀ l ∈ Γ.labels, Node.label l ∉ stmtsNodes ts) → Agrees Γ.labels lc st →
      ∃ st', (ts.map StmtTree.id).foldrM (fun s live => Live.stmt f limit fuel s live lc.yieldLive lc.head)
          (liveTerm lc term) st = some (liveStmts lc term ts, st') ∧
        Kept (stmtsNodes ts) st st' ∧ RecordedStmts st'.liveOn lc term ts
  | [], _, _, _, _, _ => by
      intro Γ lc term st _ _ _
      exact ⟨st, by simp only [liveStmts]; rfl, Kept.refl _ st, by simp only [RecordedStmts]⟩
  | t :: ts, fuel, hsize, hstored, hnodup, hall => by
      intro Γ lc term st hscope hfresh hst
      simp only [stmtsSize] at hsize
      simp only [StoresStmts] at hstored
      simp only [stmtsNodes] at hnodup hfresh
      simp only [stmtsAll, List.mem_append] at hall
      simp only [ScopedStmts] at hscope
      rw [List.nodup_append'] at hnodup
      -- the statements are visited from the last one
      obtain ⟨st₁, run₁, kept₁, rec₁⟩ := runs_stmts hlimit ts fuel (by omega) hstored.2 hnodup.2.1
        (fun s hs => hall s (.inr hs)) (Γ.define t.stmt.dst) lc term st hscope.2
        (fun l hl hm => hfresh l hl (List.mem_append_right _ hm)) hst
      have hst₁ : Agrees Γ.labels lc st₁ := hst.kept kept₁ fun l hl hm => hfresh l hl (List.mem_append_right _ hm)
      obtain ⟨st₂, run₂, kept₂, rec₂⟩ := runs_stmt hlimit t fuel (by omega) hstored.1 hnodup.1
        (fun s hs => hall s (.inl hs)) Γ lc (liveStmts lc term ts) st₁ hscope.1
        (fun l hl hm => hfresh l hl (List.mem_append_left _ hm)) hst₁
      refine ⟨st₂, ?_, (kept₁.trans kept₂).mono ?_, ?_⟩
      · simp only [List.map_cons, List.foldrM_cons, liveStmts]
        rw [Walk.bind_eq run₁, run₂]
      · intro n hn
        simp only [stmtsNodes, List.mem_append] at hn ⊢
        exact hn.symm
      · simp only [RecordedStmts]
        refine ⟨rec₂, recordedStmts_congr ts ?_ rec₁⟩
        intro s hs
        exact kept₂.lets s fun hm => hnodup.2.2 hm hs

theorem runs_stmt (hlimit : 2 ≤ limit) : (t : StmtTree) → (fuel : Nat) → t.size ≤ fuel → StoresStmt f t →
    t.nodes.Nodup → (∀ s ∈ t.all, s.Explicit) →
    ∀ (Γ : Scope) (lc : LiveCtx) (after : Finset VarId) (st : Live), ScopedStmt Γ t →
      (∀ l ∈ Γ.labels, Node.label l ∉ t.nodes) → Agrees Γ.labels lc st →
      ∃ st', Live.stmt f limit fuel t.id after lc.yieldLive lc.head st = some (liveStmt lc t after, st') ∧
        Kept t.nodes st st' ∧ RecordedStmt st'.liveOn lc after t
  | .mk id stmt subs, fuel, hsize, hstored, hnodup, hall => by
      intro Γ lc after st hscope hfresh hst
      obtain ⟨fuel, rfl⟩ : ∃ k, fuel = k + 1 := ⟨fuel - 1, by simp only [StmtTree.size] at hsize; omega⟩
      simp only [StmtTree.size, Nat.add_le_add_iff_right] at hsize
      simp only [StoresStmt] at hstored
      simp only [StmtTree.nodes] at hnodup hfresh ⊢
      simp only [StmtTree.all, List.mem_cons] at hall
      simp only [ScopedStmt] at hscope
      have explicit := hall stmt (.inl rfl)
      rw [List.append_assoc, List.nodup_append'] at hnodup
      have hsubs := runs_subs hlimit subs fuel hsize hstored.2.2 (nestedNodes_nodup hstored.2.1 hnodup.1)
        fun s hs => hall s (.inr hs)
      obtain ⟨st', hrun, hkept, hrec⟩ := visited_run hlimit (eraseDst after stmt.dst) stmt.nested subs st
        hsubs explicit.2 hstored.2.1 hscope.2.2.2
        (fun l hl hm => hfresh l hl (by simp [hm])) hnodup.1 hst
      have hown : Node.stmt id ∉ nestedNodes stmt.nested subs := fun hm =>
        hnodup.2.2 hm (by simp)
      refine ⟨if stmt.isLet then st'.record id (liveAfter lc after stmt subs) else st', ?_, ?_, ?_⟩
      · simp only [StmtTree.id, stmt_eq hstored.1 explicit, liveStmt]
        rw [Walk.bind_eq hrun]
        cases stmt <;> rfl
      · split
        · constructor
          · intro l hl
            exact hkept.labels l fun hm => hl (by simp [hm])
          · intro s hs
            simp only [List.mem_append, List.mem_singleton, Node.stmt.injEq, not_or] at hs
            change Function.update st'.liveOn id _ s = _
            rw [Function.update_of_ne hs.2]
            exact hkept.lets s hs.1.1
        · exact hkept.mono fun n hn => by simp [hn]
      · simp only [RecordedStmt]
        constructor
        · intro dst value onFail onDefect edge hlet
          subst hlet
          simp [Stmt.isLet, Live.record]
        · refine recordedNested_congr stmt.nested subs ?_ hrec
          intro s hs
          have hne : s ≠ id := by
            rintro rfl
            exact hown hs
          split
          · exact Function.update_of_ne hne _ _
          · rfl

theorem runs_subs (hlimit : 2 ≤ limit) : (ts : List SeqTree) → (fuel : Nat) → subsSize ts ≤ fuel → StoresSubs f ts →
    (∀ t ∈ ts, t.nodes.Nodup) → (∀ s ∈ subsAll ts, s.Explicit) → ∀ t ∈ ts, RunsSeq f limit fuel t
  | [], _, _, _, _, _ => by simp
  | t :: ts, fuel, hsize, hstored, hnodup, hall => by
      simp only [subsSize] at hsize
      simp only [StoresSubs] at hstored
      simp only [subsAll, List.mem_append] at hall
      have first := runs_seq hlimit t fuel (by omega) hstored.1 (hnodup t (List.mem_cons_self ..))
        fun s hs => hall s (.inl hs)
      have rest := runs_subs hlimit ts fuel (by omega) hstored.2 (fun w hw => hnodup w (List.mem_cons_of_mem _ hw))
        fun s hs => hall s (.inr hs)
      intro u hu
      rcases List.mem_cons.mp hu with h | h
      · exact h ▸ first
      · exact rest u h

end

end

end Emela.Lir.Arena
