import Emela.Lir.Lemmas.AlphaScope
import Emela.Lir.Liveness

/-!
# Copies are alpha-equivalent

`clone_seq` and `compact` on a function the verifier accepts: the copy is the same code with names of its
own, so that each variable and label is still defined once and no node stands in two places. The
`Cloner` leaves the failure edges of the Flow IR as they are, which is right only for blocks it does not
copy, and it does not copy closures.
-/

namespace Emela.Lir.Arena

open Renaming

/-! ## Sequences of a body -/

/-- The sequence stands somewhere in the tree. -/
inductive Within (root : SeqTree) : SeqTree → Prop where
  | self : Within root root
  | nested {t sub : SeqTree} {u : StmtTree} : Within root t → u ∈ t.stmts → sub ∈ u.subs → Within root sub

/-- What a sequence of a verified body has: the names in scope where it stands are defined outside it. -/
structure Placed (f : Function) (S : Scope) (t : SeqTree) : Prop where
  stored : StoresSeq f t
  inScope : ScopedSeq S t
  once : t.nodes.Nodup
  inArena : ∀ n ∈ t.nodes, f.has n
  vars : ∀ v ∈ S.vars, f.has (.var v) ∧ Node.var v ∉ t.nodes
  labels : ∀ l ∈ S.labels, f.has (.label l) ∧ Node.label l ∉ t.nodes

variable {f g : Function}

/-- The scope of a statement among others has in addition what those before it define. -/
theorem scopedStmts_split {S : Scope} {term : Term} {u : StmtTree} {post : List StmtTree} (pre : List StmtTree)
    (h : ScopedStmts S term (pre ++ u :: post)) :
    ∃ S', ScopedStmt S' u ∧ S'.labels = S.labels ∧
      ∀ v ∈ S'.vars, v ∈ S.vars ∨ Node.var v ∈ stmtsNodes pre := by
  induction pre generalizing S with
  | nil =>
      simp only [List.nil_append, ScopedStmts] at h
      exact ⟨S, h.1, rfl, fun v hv => .inl hv⟩
  | cons t pre ih =>
      simp only [List.cons_append, ScopedStmts] at h
      obtain ⟨S', hu, hlabels, hvars⟩ := ih h.2
      refine ⟨S', hu, hlabels, ?_⟩
      intro v hv
      simp only [stmtsNodes, List.mem_append]
      rcases hvars v hv with hs | hs
      · simp only [Scope.define, Finset.mem_union, Option.mem_toFinset, Option.mem_def] at hs
        rcases hs with hs | hs
        · exact .inl hs
        · refine .inr (.inl ?_)
          rw [StmtTree.nodes_eq]
          simp [hs]
      · exact .inr (.inr hs)

theorem stmtsNodes_append (ts us : List StmtTree) : stmtsNodes (ts ++ us) = stmtsNodes ts ++ stmtsNodes us := by
  induction ts with
  | nil => simp [stmtsNodes]
  | cons t ts ih => simp [stmtsNodes, ih]

theorem Placed.nested {S : Scope} {t sub : SeqTree} {u : StmtTree} (h : Placed f S t) (hu : u ∈ t.stmts)
    (hsub : sub ∈ u.subs) : ∃ S', Placed f S' sub := by
  obtain ⟨pre, post, hsplit⟩ := List.append_of_mem hu
  obtain ⟨ts, us, hts⟩ := List.append_of_mem hsub
  have stored := (storesSeq_iff.mp h.stored).2 u hu
  have hids := (storesStmt_iff.mp stored).2.1
  rw [hts, List.map_append, List.map_cons] at hids
  obtain ⟨ns, rest, hns, hbodies, hrest⟩ := List.map_eq_append_iff.mp hids
  obtain ⟨n, ms, rfl, hn, -⟩ := List.map_eq_cons_iff.mp hrest
  have hlen : ns.length = ts.length := by simpa using congrArg List.length hbodies
  have hscope : ScopedStmts S t.term (pre ++ u :: post) := by
    have := h.inScope
    rcases t with ⟨id, term, stmts⟩
    simp only [ScopedSeq] at this
    simp only [SeqTree.stmts] at hsplit
    rwa [hsplit] at this
  obtain ⟨S', hscoped, hlabels, hvars⟩ := scopedStmts_split pre hscope
  have hnested : ScopedNested S' (ns ++ n :: ms) (ts ++ sub :: us) := by
    rcases u with ⟨id, stmt, subs⟩
    simp only [ScopedStmt] at hscoped
    simp only [StmtTree.subs] at hts
    simp only [StmtTree.stmt] at hns
    rw [hns, hts] at hscoped
    exact hscoped.2.2.2
  obtain ⟨-, hinner⟩ := scopedNested_append hlen hnested
  simp only [ScopedNested] at hinner
  have nodes : t.nodes = stmtsNodes pre ++ ((nestedNodes ns ts ++ (n.nodes ++ sub.nodes ++ nestedNodes ms us) ++
      u.stmt.dst.toList.map .var ++ [.stmt u.id]) ++ stmtsNodes post) ++ [.seq t.id] := by
    rw [SeqTree.nodes_eq, hsplit, stmtsNodes_append]
    simp only [stmtsNodes]
    rw [StmtTree.nodes_eq, hns, hts, nestedNodes_append hlen]
    simp only [nestedNodes]
  have hsubset : ∀ m ∈ sub.nodes, m ∈ t.nodes := by
    intro m hm
    rw [nodes]
    simp [hm]
  have once := h.once
  rw [nodes] at once
  refine ⟨enter S' n, (storesStmt_iff.mp stored).2.2 sub hsub, hinner.1, ?_, fun m hm => h.inArena m (hsubset m hm),
    ?_, ?_⟩
  · have := once
    simp only [List.nodup_append'] at this
    exact this.1.2.1.1.1.1.2.1.1.2.1
  · intro v hv
    rw [enter_vars, Finset.mem_union, List.mem_toFinset] at hv
    have bound : Node.var v ∈ stmtsNodes pre ∨ Node.var v ∈ n.nodes →
        f.has (.var v) ∧ Node.var v ∉ sub.nodes := by
      intro hb
      constructor
      · refine h.inArena _ ?_
        rw [nodes]
        rcases hb with hb | hb <;> simp [hb]
      · intro hm
        simp only [List.nodup_append'] at once
        rcases hb with hb | hb
        · exact once.1.2.2 hb (by simp [hm])
        · exact once.1.2.1.1.1.1.2.1.1.2.2 hb hm
    rcases hv with hv | hv
    · rcases hvars v hv with hs | hs
      · exact ⟨(h.vars v hs).1, fun hm => (h.vars v hs).2 (hsubset _ hm)⟩
      · exact bound (.inl hs)
    · exact bound (.inr (by simp [Nested.nodes, hv]))
  · intro l hl
    have hl := Finset.mem_union.mp (enter_labels S' n hl)
    rcases hl with hl | hl
    · rw [hlabels] at hl
      exact ⟨(h.labels l hl).1, fun hm => (h.labels l hl).2 (hsubset _ hm)⟩
    · have hmem : Node.label l ∈ n.nodes := by
        have : n.label = some l := by simpa using hl
        simp [Nested.nodes, this]
      constructor
      · refine h.inArena _ ?_
        rw [nodes]
        simp [hmem]
      · intro hm
        simp only [List.nodup_append'] at once
        exact once.1.2.1.1.1.1.2.1.1.2.2 hmem hm

theorem Within.placed {body t : SeqTree} (hf : Verified f body) (h : Within body t) : ∃ S, Placed f S t := by
  induction h with
  | self =>
      obtain ⟨-, hbody, hdisjoint⟩ := List.nodup_append'.mp hf.once
      refine ⟨_, hf.stored, hf.inScope, hbody, fun n hn => hf.inArena n (List.mem_append_right _ hn), ?_, by simp⟩
      intro v hv
      have hmem : Node.var v ∈ f.params.map Node.var := List.mem_map_of_mem (List.mem_toFinset.mp hv)
      exact ⟨hf.inArena _ (List.mem_append_left _ hmem), fun hm => hdisjoint hmem hm⟩
  | nested _ hu hsub ih =>
      obtain ⟨S, hS⟩ := ih
      exact hS.nested hu hsub

/-! ## Failure edges -/

mutual

/-- The block that a failure edge leaves is around the sequence or in it. -/
theorem targets_seq (f : Function) : (t : SeqTree) → StoresSeq f t → ∀ {S : Scope}, ScopedSeq S t →
    ∀ s ∈ t.all, ∀ l ∈ s.target, l ∈ S.labels ∨ Node.label l ∈ t.nodes
  | .mk id term stmts, hstored => by
      intro hs s hmem l hl
      simp only [StoresSeq] at hstored
      simp only [ScopedSeq] at hs
      simp only [SeqTree.all] at hmem
      simp only [SeqTree.nodes, List.mem_append]
      exact (targets_stmts f stmts hstored.2 hs s hmem l hl).imp_right .inl

theorem targets_stmts (f : Function) : (ts : List StmtTree) → StoresStmts f ts → ∀ {S : Scope} {term : Term},
    ScopedStmts S term ts → ∀ s ∈ stmtsAll ts, ∀ l ∈ s.target, l ∈ S.labels ∨ Node.label l ∈ stmtsNodes ts
  | [], _ => by
      intro _ s hmem
      simp [stmtsAll] at hmem
  | t :: ts, hstored => by
      intro hs s hmem l hl
      simp only [StoresStmts] at hstored
      simp only [ScopedStmts] at hs
      simp only [stmtsAll, List.mem_append] at hmem
      simp only [stmtsNodes, List.mem_append]
      rcases hmem with hmem | hmem
      · exact (targets_stmt f t hstored.1 hs.1 s hmem l hl).imp_right .inl
      · have rest := targets_stmts f ts hstored.2 hs.2 s hmem l hl
        exact rest.imp (by simp [Scope.define]) .inr

theorem targets_stmt (f : Function) : (t : StmtTree) → StoresStmt f t → ∀ {S : Scope}, ScopedStmt S t →
    ∀ s ∈ t.all, ∀ l ∈ s.target, l ∈ S.labels ∨ Node.label l ∈ t.nodes
  | .mk id stmt subs, hstored => by
      intro hs s hmem l hl
      simp only [StoresStmt] at hstored
      simp only [ScopedStmt] at hs
      simp only [StmtTree.all, List.mem_cons] at hmem
      simp only [StmtTree.nodes, List.mem_append]
      rcases hmem with rfl | hmem
      · exact .inl (hs.2.2.1 l hl)
      · exact (targets_nested f subs stmt.nested hstored.2.1 hstored.2.2 hs.2.2.2 s hmem l hl).imp_right
          fun h => .inl (.inl h)

theorem targets_nested (f : Function) : (ts : List SeqTree) → (ns : List Nested) →
    ns.map Nested.body = ts.map SeqTree.id → StoresSubs f ts → ∀ {S : Scope}, ScopedNested S ns ts →
    ∀ s ∈ subsAll ts, ∀ l ∈ s.target, l ∈ S.labels ∨ Node.label l ∈ nestedNodes ns ts
  | [], ns, _, _ => by
      intro _ s hmem
      simp [subsAll] at hmem
  | t :: ts, ns, hids, hstored => by
      intro hs s hmem l hl
      obtain ⟨n, ms, rfl, hn, hms⟩ := List.map_eq_cons_iff.mp hids
      simp only [StoresSubs] at hstored
      simp only [ScopedNested] at hs
      simp only [subsAll, List.mem_append] at hmem
      simp only [nestedNodes, List.mem_append]
      rcases hmem with hmem | hmem
      · rcases targets_seq f t hstored.1 hs.1 s hmem l hl with h | h
        · rcases Finset.mem_union.mp (enter_labels _ n h) with h | h
          · exact .inl h
          · have : n.label = some l := by simpa using h
            exact .inr (.inl (.inl (by simp [Nested.nodes, this])))
        · exact .inr (.inl (.inr h))
      · exact (targets_nested f ts ms hms hstored.2 hs.2 s hmem l hl).imp_right .inr

end

/-! ## The copy inside a function -/

/-- The sequence has no closure, and no failure edge that stays in it: the code of a stage on which
defects are explicit. -/
def Clonable (t : SeqTree) : Prop :=
  ∀ s ∈ t.all, (∀ l ∈ s.target, Node.label l ∉ t.nodes) ∧ ∀ n ∈ s.nested, n.role ≠ .closure

/-- A copy with names of its own, in a function that otherwise stays as it is. Names that are free in the
sequence stand for themselves, so the copy can stand where the original stands. -/
structure ClonedAs (f g : Function) (t u : SeqTree) : Prop where
  grown : Grown f g
  stored : StoresSeq g u
  alpha : AlphaSeq f g ⟨[], []⟩ t u
  fresh : Fresh f g u.nodes
  added : ∀ n, g.has n → f.has n ∨ n ∈ u.nodes
  inScope : ∀ S, ScopedSeq S t → ScopedSeq S u

theorem Renamed.refl (S : Scope) : Renamed ⟨[], []⟩ S S :=
  ⟨fun _ _ h hx => h ▸ hx, fun _ _ h hl => h ▸ hl, rfl, rfl⟩

theorem Placed.cloned {S : Scope} {t : SeqTree} (h : Placed f S t) (ht : Clonable t) :
    ∃ g u, cloneSeq f t.id = some (u.id, g) ∧ ClonedAs f g t u := by
  let J : Job := ⟨f, .clone, (· ∈ S.vars), (· ∈ S.labels), f.vars.length, f.labels.length, by simp⟩
  have takes : ∀ s ∈ t.all, Takes J s := by
    intro s hs _
    refine ⟨fun l hl => ?_, (ht s hs).2⟩
    exact (targets_seq f t h.stored h.inScope s hs l hl).resolve_right ((ht s hs).1 l hl)
  have ready : Ready J S ⟨[], []⟩ ⟨f, fun _ => none, fun _ => none⟩ t.nodes :=
    { source := Grown.refl f
      vars := .start (fun v hv => (h.vars v hv).1) _
      labels := .start (fun l hl => (h.labels l hl).1) _
      varsFrom := le_rfl
      labelsFrom := le_rfl
      scopeVars := fun _ hv => .inr hv
      scopeLabels := fun _ hl => .inr hl
      newVars := fun v hv => ⟨by simp, fun hout => (h.vars v hout).2 hv⟩
      newLabels := fun l hl => ⟨by simp, fun hout => (h.labels l hout).2 hl⟩
      inArena := h.inArena
      once := h.once }
  obtain ⟨u, T, hrun, hcopied, hstored, halpha⟩ := copies_seq J t f.depth (size_le h.stored h.inArena h.once)
    h.stored takes S _ _ ready h.inScope
  refine ⟨T.out, u, ?_, hcopied.grown, hstored, halpha, hcopied.fresh, hcopied.all, ?_⟩
  · exact congrArg (Option.map fun r => (r.1, r.2.out)) hrun
  · intro S' hs
    exact alpha_scopedSeq f T.out t u halpha (.refl S') hs

/-- Any sequence of a verified function is copied, and with the copy each variable and label is still
defined once and no node stands in two places. -/
theorem clone_seq_copies {body t : SeqTree} (hf : Verified f body) (hwithin : Within body t) (ht : Clonable t) :
    ∃ g u, cloneSeq f t.id = some (u.id, g) ∧ ClonedAs f g t u ∧
      (f.params.map Node.var ++ body.nodes ++ u.nodes).Nodup := by
  obtain ⟨S, hS⟩ := hwithin.placed hf
  obtain ⟨g, u, hrun, hu⟩ := hS.cloned ht
  refine ⟨g, u, hrun, hu, ?_⟩
  rw [List.nodup_append']
  exact ⟨hf.once, hu.fresh.once, fun n hn hm => (hu.fresh.isNew n hm).1 (hf.inArena n hn)⟩

/-- The body of the loop, which reads the parameter `1` and the loop variable. -/
def sumLoopBody : SeqTree :=
  .mk 0 (.recur [.var 3]) [.mk 0 (.let (some 3) (.heap (.prim .add .i32 [.var 2, .var 1])) none none none) []]

theorem sumLoop_clone : ∃ g u, cloneSeq sumLoop 0 = some (u.id, g) ∧ ClonedAs sumLoop g sumLoopBody u ∧
    (sumLoop.params.map Node.var ++ sumLoopTree.nodes ++ u.nodes).Nodup :=
  clone_seq_copies (t := sumLoopBody) sumLoop_verified
    (.nested .self (List.mem_singleton_self _) (List.mem_singleton_self _))
    (by simp [Clonable, sumLoopBody, SeqTree.all, stmtsAll, StmtTree.all, subsAll, Stmt.target, Stmt.nested,
      Value.nested])

/-! ## The copy of a function -/

/-- A function with the same code, whose arenas hold what the code reaches and nothing else. -/
structure CompactedAs (f g : Function) (body u : SeqTree) : Prop where
  header : emptyLike g = emptyLike f
  params : List.Forall₂ (Like f g) (f.params.map .var) (g.params.map .var)
  alpha : AlphaSeq f g ⟨f.params.zip g.params, []⟩ body u
  reached : ∀ n, g.has n ↔ n ∈ g.params.map Node.var ++ u.nodes

/-- The parameters, each with its copy, are what is in scope in the body. -/
theorem Renamed.params {ps qs : List VarId} (hlen : ps.length = qs.length) :
    Renamed ⟨ps.zip qs, []⟩ ⟨ps.toFinset, ∅, false, false⟩ ⟨qs.toFinset, ∅, false, false⟩ where
  vars x y hxy hx := by
    rw [List.mem_toFinset] at hx ⊢
    have hbind : Matches (ps.zip qs ++ []) x y := by rwa [List.append_nil]
    exact (matches_bind hlen hbind).resolve_right fun h => h.1 hx
  labels _ l _ hl := absurd hl (Finset.notMem_empty _)
  inLoop := rfl
  yields := rfl

/-- The copy of a verified function is verified, and its code the same. -/
theorem compact_copies {body : SeqTree} (hf : Verified f body) :
    ∃ g u, compact f = some g ∧ Verified g u ∧ CompactedAs f g body u := by
  obtain ⟨hparams, hbody, hdisjoint⟩ := List.nodup_append'.mp hf.once
  have bodyInArena : ∀ n ∈ body.nodes, f.has n := fun n hn => hf.inArena n (List.mem_append_right _ hn)
  let J : Job := ⟨f, .into f, fun _ => False, fun _ => False, 0, 0, by simp⟩
  let S : Scope := ⟨∅, ∅, false, false⟩
  have ready : Ready J S ⟨[], []⟩ ⟨emptyLike f, fun _ => none, fun _ => none⟩ (f.params.map .var ++ body.nodes) :=
    { source := Grown.refl f
      vars := .start (fun _ hv => hv.elim) _
      labels := .start (fun _ hl => hl.elim) _
      varsFrom := le_rfl
      labelsFrom := le_rfl
      scopeVars := fun v hv => absurd hv (Finset.notMem_empty v)
      scopeLabels := fun l hl => absurd hl (Finset.notMem_empty l)
      newVars := fun _ _ => ⟨by simp, not_false⟩
      newLabels := fun _ _ => ⟨by simp, not_false⟩
      inArena := hf.inArena
      once := hf.once }
  obtain ⟨params, T, runParams, hlen, hcopied, hlike, ready'⟩ := ready.binds_run
  have hscope : ScopedSeq { S with vars := S.vars ∪ f.params.toFinset } body := by
    simpa [S] using hf.inScope
  obtain ⟨u, T', runBody, hcopied', hstored, halpha⟩ := copies_seq J body f.depth
    (size_le hf.stored bodyInArena hbody) hf.stored (fun _ _ h => by cases h) _ _ _ ready' hscope
  have same : Continues T'.out { T'.out with params := params, body := some u.id } :=
    ⟨List.prefix_refl _, List.prefix_refl _, List.prefix_refl _, List.prefix_refl _⟩
  have hboth := hcopied.trans hcopied'
  have halpha' := alphaSeq_grown same body (by simpa using halpha)
  refine ⟨{ T'.out with params := params, body := some u.id }, u, ?run, ?verified, ?compacted⟩
  case run =>
    have hmap : f.body.mapM ((Copier.into f).seq f.depth) T = some (some u.id, T') := by
      rw [hf.entry, Option.mapM_some, map_eq_pure_bind]
      exact (Walk.bind_eq runBody).trans rfl
    have hmapParams : f.params.mapM (Copier.into f).fresh ⟨emptyLike f, fun _ => none, fun _ => none⟩ =
        some (params, T) := runParams
    simp only [compact, hmapParams, Option.bind_eq_bind, Option.bind_some, hmap]
    rfl
  case verified =>
    exact ⟨rfl, same.storesSeq u hstored, fun n hn => same.has (hboth.fresh.isNew n hn).2, hboth.fresh.once,
      alpha_scopedSeq f _ body u halpha' (.params hlen.symm) hf.inScope⟩
  case compacted =>
    refine ⟨?_, likes_grown (hcopied'.grown.toContinues.trans same) hlike, halpha', ?_⟩
    · exact congrArg (fun h => { h with params := [], body := none }) hboth.grown.header
    · intro n
      constructor
      · intro hn
        have hold : ¬ (emptyLike f).has n := by cases n <;> simp [Function.has, emptyLike]
        exact (hboth.all n (by cases n <;> exact hn)).resolve_left hold
      · exact fun hn => same.has (hboth.fresh.isNew n hn).2

theorem sumLoop_compact : ∃ g u, compact sumLoop = some g ∧ Verified g u ∧ CompactedAs sumLoop g sumLoopTree u :=
  compact_copies sumLoop_verified

end Emela.Lir.Arena
