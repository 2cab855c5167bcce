import Emela.Lir.Lemmas.CopyStmt

/-!
# The copy of a tree

A copier at work has a table that pairs the names in scope with new ones. From there it copies any tree in
scope: the copy is alpha-equivalent, and all it introduces is new.
-/

namespace Emela.Lir.Arena

open Renaming

/-- What is copied: code of a function, with the names defined around it. The copier into another
function takes code without any. -/
structure Job where
  fn : Function
  copier : Copier
  outerVar : VarId → Prop
  outerLabel : LabelId → Prop
  varsFrom : Nat
  labelsFrom : Nat
  closed : ∀ src, copier = .into src → (∀ v, ¬ outerVar v) ∧ ∀ l, ¬ outerLabel l

variable {J : Job}

/-- The copier can go on with code that introduces `L`, in the scope `S`, whose names are paired with
their copies. -/
structure Ready (J : Job) (S : Scope) (Γ : Pairs) (T : Tables) (L : List Node) : Prop where
  source : Grown J.fn (J.copier.source T)
  vars : Paired Γ.vars T.vars J.outerVar J.varsFrom T.out.vars.length
  labels : Paired Γ.labels T.labels J.outerLabel J.labelsFrom T.out.labels.length
  varsFrom : J.varsFrom ≤ T.out.vars.length
  labelsFrom : J.labelsFrom ≤ T.out.labels.length
  scopeVars : ∀ v ∈ S.vars, v ∈ Γ.vars.map Prod.fst ∨ J.outerVar v
  scopeLabels : ∀ l ∈ S.labels, l ∈ Γ.labels.map Prod.fst ∨ J.outerLabel l
  newVars : ∀ v, Node.var v ∈ L → v ∉ Γ.vars.map Prod.fst ∧ ¬ J.outerVar v
  newLabels : ∀ l, Node.label l ∈ L → l ∉ Γ.labels.map Prod.fst ∧ ¬ J.outerLabel l
  inArena : ∀ n ∈ L, J.fn.has n
  once : L.Nodup

namespace Ready

variable {S : Scope} {Γ : Pairs} {T T' : Tables} {L L' M : List Node}

/-- Part of the code. -/
theorem left (h : Ready J S Γ T (L ++ L')) : Ready J S Γ T L :=
  { h with
    newVars := fun v hv => h.newVars v (List.mem_append_left _ hv)
    newLabels := fun l hl => h.newLabels l (List.mem_append_left _ hl)
    inArena := fun n hn => h.inArena n (List.mem_append_left _ hn)
    once := (List.nodup_append'.mp h.once).1 }

/-- Once the first part is copied, the rest can be. -/
theorem copied (h : Ready J S Γ T (L ++ L')) (hc : Copied T T' L M) : Ready J S Γ T' L' where
  source := J.copier.source_grown h.source hc.grown
  vars := by
    refine h.vars.step ?_ ?_ hc.grown.vars.length_le
    · intro x hx
      exact hc.vars x fun hm => (h.newVars x (List.mem_append_left _ hm)).1 hx
    · intro x hx
      exact hc.vars x fun hm => (h.newVars x (List.mem_append_left _ hm)).2 hx
  labels := by
    refine h.labels.step ?_ ?_ hc.grown.labels.length_le
    · intro x hx
      exact hc.labels x fun hm => (h.newLabels x (List.mem_append_left _ hm)).1 hx
    · intro x hx
      exact hc.labels x fun hm => (h.newLabels x (List.mem_append_left _ hm)).2 hx
  varsFrom := h.varsFrom.trans hc.grown.vars.length_le
  labelsFrom := h.labelsFrom.trans hc.grown.labels.length_le
  scopeVars := h.scopeVars
  scopeLabels := h.scopeLabels
  newVars v hv := h.newVars v (List.mem_append_right _ hv)
  newLabels l hl := h.newLabels l (List.mem_append_right _ hl)
  inArena n hn := h.inArena n (List.mem_append_right _ hn)
  once := (List.nodup_append'.mp h.once).2.1

/-! ## Names in scope -/

theorem see_run (h : Ready J S Γ T L) {v : VarId} (hv : v ∈ S.vars) : J.copier.see v T = some (⟨⟩, T) := by
  cases hK : J.copier with
  | into src =>
      obtain ⟨p, hp, rfl⟩ := List.mem_map.mp ((h.scopeVars v hv).resolve_right ((J.closed src hK).1 v))
      simp only [Copier.see]
      rw [get_bind_apply, h.vars.bound p hp]
      rfl
  | clone => rfl

theorem seeAll_run (h : Ready J S Γ T L) {vs : List VarId} (hvs : S.has vs) :
    J.copier.seeAll vs T = some (T, T) := by
  have each : vs.forM J.copier.see T = some (⟨⟩, T) := by
    induction vs with
    | nil => rfl
    | cons v vs ih =>
        change (J.copier.see v >>= fun _ => vs.forM J.copier.see) T = _
        rw [Walk.bind_eq (h.see_run (hvs v (List.mem_cons_self ..)))]
        exact ih fun w hw => hvs w (List.mem_cons_of_mem _ hw)
  exact (Walk.bind_eq each).trans rfl

theorem seeLabel_run (h : Ready J S Γ T L) {l : LabelId} (hl : l ∈ S.labels) :
    J.copier.seeLabel l T = some (⟨⟩, T) := by
  cases hK : J.copier with
  | into src =>
      obtain ⟨p, hp, rfl⟩ := List.mem_map.mp ((h.scopeLabels l hl).resolve_right ((J.closed src hK).2 l))
      simp only [Copier.seeLabel]
      rw [get_bind_apply, h.labels.bound p hp]
      rfl
  | clone => rfl

theorem sameVars (h : Ready J S Γ T L) {vs : List VarId} (hvs : S.has vs) : SameVars Γ vs (vs.map T.sub) := by
  rw [SameVars, List.forall₂_map_right_iff, List.forall₂_same]
  intro v hv
  exact h.vars.matches_getD (h.scopeVars v (hvs v hv))

theorem matchesLabel (h : Ready J S Γ T L) {l : LabelId} (hl : l ∈ S.labels) :
    Matches Γ.labels l (T.subLabel l) :=
  h.labels.matches_getD (h.scopeLabels l hl)

/-- A failure edge goes to the copy of its block. -/
theorem edge_run (h : Ready J S Γ T L) {l : LabelId} (hl : l ∈ S.labels) (hK : J.copier = .clone → J.outerLabel l) :
    J.copier.edge l T = some (T.subLabel l, T) := by
  cases hc : J.copier with
  | into src =>
      have hsee := h.seeLabel_run hl
      rw [hc] at hsee
      simp only [Copier.edge]
      rw [Walk.bind_eq hsee]
      rfl
  | clone =>
      have hfree := (h.labels.free l (hK hc)).2.1
      simp [Copier.edge, Tables.subLabel, hfree]
      rfl

theorem target_run (h : Ready J S Γ T L) {o : Option LabelId} (ho : ∀ l ∈ o, l ∈ S.labels)
    (hK : J.copier = .clone → ∀ l ∈ o, J.outerLabel l) :
    o.mapM J.copier.edge T = some (o.map T.subLabel, T) ∧ SameLabels Γ o.toList (o.map T.subLabel).toList := by
  cases o with
  | none => exact ⟨rfl, .nil⟩
  | some l =>
      have hrun := h.edge_run (ho l rfl) fun hc => hK hc l rfl
      constructor
      · simp only [Option.mapM_some, map_eq_pure_bind]
        rw [Walk.bind_eq hrun]
        rfl
      · exact .cons (h.matchesLabel (ho l rfl)) .nil

theorem saved_run (h : Ready J S Γ T L) {vs : List VarId} (hvs : S.has vs) :
    copySaved J.copier vs T = some (vs.map T.sub, T) :=
  (Walk.bind_eq (h.seeAll_run hvs)).trans rfl

/-- A terminator. -/
theorem term_run (h : Ready J S Γ T L) {t : Term} (ht : ScopedTerm S t) :
    J.copier.term t T = some (t.rename T.sub T.subLabel, T) := by
  have labels : t.target.toList.forM J.copier.seeLabel T = some (⟨⟩, T) := by
    cases htarget : t.target with
    | none => rfl
    | some l =>
        change (J.copier.seeLabel l >>= fun _ => (pure PUnit.unit : Copying PUnit)) T = _
        rw [Walk.bind_eq (h.seeLabel_run (ht.2.1 l htarget))]
        rfl
  rw [Copier.term, Walk.bind_eq labels, Walk.bind_eq (h.seeAll_run ht.1)]
  rfl

/-! ## New names -/

theorem weaken (h : Ready J S Γ T L) {S' : Scope} (hv : S'.vars ⊆ S.vars) (hl : S'.labels ⊆ S.labels) :
    Ready J S' Γ T L :=
  { h with
    scopeVars := fun v hm => h.scopeVars v (hv hm)
    scopeLabels := fun l hm => h.scopeLabels l (hl hm) }

/-- Variables are defined. -/
theorem binds_run {vs : List VarId} (h : Ready J S Γ T (vs.map .var ++ L)) :
    ∃ ns T', vs.mapM J.copier.fresh T = some (ns, T') ∧ ns.length = vs.length ∧
      Copied T T' (vs.map .var) (ns.map .var) ∧
      List.Forall₂ (Like J.fn T'.out) (vs.map .var) (ns.map .var) ∧
      Ready J { S with vars := S.vars ∪ vs.toFinset } { Γ with vars := vs.zip ns ++ Γ.vars } T' L := by
  have hnodup : vs.Nodup := by
    refine List.Nodup.of_map _ (List.nodup_append'.mp h.once).1
  have hin : ∀ v ∈ vs, v < J.fn.vars.length := fun v hv =>
    h.inArena (.var v) (List.mem_append_left _ (List.mem_map_of_mem hv))
  have hnew : ∀ v ∈ vs, v ∉ Γ.vars.map Prod.fst ∧ ¬ J.outerVar v := fun v hv =>
    h.newVars v (List.mem_append_left _ (List.mem_map_of_mem hv))
  obtain ⟨ns, T', hrun, hb⟩ := freshAll_run h.source hin hnodup
  have hlen : ns.length = vs.length := by rw [hb.ids, List.length_range']
  have rest := h.copied hb.copied
  refine ⟨ns, T', hrun, hlen, hb.copied, hb.like, { rest with
    vars := ?_
    scopeVars := ?_
    newVars := ?_ }⟩
  · have hpairs := h.vars.extend hnodup h.varsFrom hnew (hb.ids ▸ hb.table)
      fun x hx => hb.copied.vars x (by simpa using hx)
    rw [← hb.ids] at hpairs
    rw [hb.length]
    exact hpairs
  · intro v hv
    simp only [List.map_append, List.map_fst_zip hlen.ge, List.mem_append]
    rcases Finset.mem_union.mp hv with hv | hv
    · rcases h.scopeVars v hv with hs | hs
      · exact .inl (.inr hs)
      · exact .inr hs
    · exact .inl (.inl (List.mem_toFinset.mp hv))
  · intro v hv
    simp only [List.map_append, List.map_fst_zip hlen.ge, List.mem_append, not_or]
    have := rest.newVars v hv
    refine ⟨⟨?_, this.1⟩, this.2⟩
    intro hvs
    exact (List.nodup_append'.mp h.once).2.2 (List.mem_map_of_mem hvs) hv

/-- What a statement defines. -/
theorem dst_run {d : Option VarId} (h : Ready J S Γ T (d.toList.map .var ++ L)) :
    ∃ e T', d.mapM J.copier.fresh T = some (e, T') ∧ e.isSome = d.isSome ∧
      Copied T T' (d.toList.map .var) (e.toList.map .var) ∧
      List.Forall₂ (Like J.fn T'.out) (d.toList.map .var) (e.toList.map .var) ∧
      Ready J (S.define d) (Γ.define d e) T' L := by
  cases d with
  | none =>
      refine ⟨none, T, rfl, rfl, Copied.refl T, .nil, ?_⟩
      simpa [Scope.define, Pairs.define] using h
  | some v =>
      obtain ⟨ns, T', hrun, hlen, hc, hlike, hready⟩ := h.binds_run
      obtain ⟨n, rfl⟩ := List.length_eq_one_iff.mp hlen
      refine ⟨some n, T', ?_, rfl, hc, hlike, ?_⟩
      · obtain ⟨data, hdata⟩ : ∃ data, J.fn.vars[v]? = some data :=
          ⟨_, List.getElem?_eq_getElem (h.inArena (.var v) (List.mem_append_left _ (by simp)))⟩
        have hfresh := fresh_eq (prefix_getElem? h.source.vars hdata)
        have hlist : [v].mapM J.copier.fresh T = some ([T.out.vars.length], T.bindVar v data) := by
          rw [List.mapM_cons, Walk.bind_eq hfresh]
          rfl
        obtain ⟨hn, rfl⟩ := Prod.mk.inj (Option.some.inj (hrun.symm.trans hlist))
        obtain rfl := (List.cons.inj hn).1
        simp only [Option.mapM_some, map_eq_pure_bind]
        rw [Walk.bind_eq hfresh]
        rfl
      · exact hready.weaken (by simp [Scope.define]) (by simp [Scope.define])

/-- The label of a block is defined. -/
theorem label_run {o : Option LabelId} (h : Ready J S Γ T (o.toList.map .label ++ L)) :
    ∃ m T', o.mapM J.copier.freshLabel T = some (m, T') ∧ m.isSome = o.isSome ∧
      Copied T T' (o.toList.map .label) (m.toList.map .label) ∧
      List.Forall₂ (Like J.fn T'.out) (o.toList.map .label) (m.toList.map .label) ∧
      Ready J { S with labels := S.labels ∪ o.toFinset }
        { Γ with labels := o.toList.zip m.toList ++ Γ.labels } T' L := by
  cases o with
  | none =>
      refine ⟨none, T, rfl, rfl, Copied.refl T, .nil, ?_⟩
      simpa using h
  | some b =>
      have hb := h.newLabels b (List.mem_append_left _ (by simp))
      obtain ⟨d, hd⟩ : ∃ d, J.fn.labels[b]? = some d :=
        ⟨_, List.getElem?_eq_getElem (h.inArena (.label b) (List.mem_append_left _ (by simp)))⟩
      have hc := T.bindLabel_copied b d
      have rest := h.copied hc
      refine ⟨some T.out.labels.length, T.bindLabel b d, ?_, rfl, hc, ?_, { rest with
        labels := ?_
        scopeLabels := ?_
        newLabels := ?_ }⟩
      · simp only [Option.mapM_some, map_eq_pure_bind]
        rw [Walk.bind_eq (freshLabel_eq (prefix_getElem? h.source.labels hd))]
        rfl
      · exact .cons ⟨d, hd, by simp [Tables.bindLabel]⟩ .nil
      · have hpairs : Paired ([b].zip (List.range' T.out.labels.length [b].length) ++ Γ.labels)
            (T.bindLabel b d).labels J.outerLabel J.labelsFrom (T.out.labels.length + [b].length) :=
          h.labels.extend (List.nodup_singleton b) h.labelsFrom (by simpa using hb) (by simp [Tables.bindLabel])
            fun x hx => hc.labels x (by simpa using hx)
        simpa [Tables.bindLabel] using hpairs
      · intro l hl
        simp only [Option.toList_some, List.zip_cons_cons, List.zip_nil_right, List.cons_append, List.nil_append,
          List.map_cons, List.mem_cons]
        simp only [Finset.mem_union, Option.mem_toFinset, Option.mem_def, Option.some.injEq] at hl
        rcases hl with hl | rfl
        · rcases h.scopeLabels l hl with hs | hs
          · exact .inl (.inr hs)
          · exact .inr hs
        · exact .inl (.inl rfl)
      · intro l hl
        simp only [Option.toList_some, List.zip_cons_cons, List.zip_nil_right, List.cons_append, List.nil_append,
          List.map_cons, List.mem_cons, not_or]
        have := rest.newLabels l hl
        refine ⟨⟨?_, this.1⟩, this.2⟩
        rintro rfl
        exact (List.nodup_append'.mp h.once).2.2 (by simp) hl

end Ready

/-! ## Nested sequences -/

/-- The copier copies the sequence wherever it is in scope. -/
def CopiesSeq (J : Job) (fuel : Nat) (t : SeqTree) : Prop :=
  ∀ (S : Scope) (Γ : Pairs) (T : Tables), Ready J S Γ T t.nodes → ScopedSeq S t →
    ∃ u T', J.copier.seq fuel t.id T = some (u.id, T') ∧ Copied T T' t.nodes u.nodes ∧ StoresSeq T'.out u ∧
      AlphaSeq J.fn T'.out Γ t u

section
variable {S : Scope} {Γ : Pairs} {T : Tables} {L : List Node} {fuel : Nat}

theorem enter_vars (S : Scope) (n : Nested) : (enter S n).vars = S.vars ∪ n.binds.toFinset := by
  simp only [enter]
  split <;> rfl

theorem enter_labels (S : Scope) (n : Nested) : (enter S n).labels ⊆ S.labels ∪ n.label.toFinset := by
  simp only [enter]
  split
  · exact subset_rfl
  · exact Finset.subset_union_left
  · exact Finset.subset_union_left
  · exact Finset.subset_union_left
  · exact Finset.empty_subset _
  · exact Finset.empty_subset _

theorem nested_run {n : Nested} {t : SeqTree} (ht : CopiesSeq J fuel t) (hbody : n.body = t.id)
    (h : Ready J S Γ T (n.nodes ++ t.nodes ++ L)) (hs : ScopedSeq (enter S n) t) :
    ∃ m u T', copyNested J.copier fuel n T = some (m, T') ∧ m.body = u.id ∧ Shaped n m ∧
      Copied T T' (n.nodes ++ t.nodes) (m.nodes ++ u.nodes) ∧ StoresSeq T'.out u ∧
      List.Forall₂ (Like J.fn T'.out) n.nodes m.nodes ∧ AlphaSeq J.fn T'.out (Γ.enter n m) t u := by
  have h₀ : Ready J S Γ T (n.label.toList.map .label ++ (n.binds.map .var ++ (t.nodes ++ L))) := by
    simpa only [Nested.nodes, List.append_assoc] using h
  obtain ⟨label, T₁, run₁, some₁, copied₁, like₁, ready₁⟩ := h₀.label_run
  obtain ⟨binds, T₂, run₂, len₂, copied₂, like₂, ready₂⟩ := ready₁.binds_run
  have inner : Ready J (enter S n) (Γ.enter n ⟨n.role, binds, label, 0⟩) T₂ (t.nodes ++ L) :=
    ready₂.weaken (by rw [enter_vars]) (enter_labels S n)
  obtain ⟨u, T₃, run₃, copied₃, stored, alpha⟩ := ht _ _ _ inner.left hs
  refine ⟨⟨n.role, binds, label, u.id⟩, u, T₃, ?_, rfl, ⟨rfl, len₂, some₁⟩, ?_, stored, ?_, alpha⟩
  · rw [copyNested, Walk.bind_eq run₁, Walk.bind_eq run₂, hbody, Walk.bind_eq run₃]
    rfl
  · exact (copied₁.trans copied₂).trans copied₃
  · have first := likes_grown (copied₂.grown.trans copied₃.grown).toContinues like₁
    have second := likes_grown copied₃.grown.toContinues like₂
    exact List.rel_append first second

theorem nestedNodes_append {ns ms : List Nested} {ts us : List SeqTree} (hlen : ns.length = ts.length) :
    nestedNodes (ns ++ ms) (ts ++ us) = nestedNodes ns ts ++ nestedNodes ms us := by
  induction ns generalizing ts with
  | nil =>
      obtain rfl : ts = [] := List.eq_nil_of_length_eq_zero hlen.symm
      simp [nestedNodes]
  | cons n ns ih =>
      cases ts with
      | nil => cases hlen
      | cons t ts => simp [nestedNodes, ih (by simpa using hlen)]

theorem scopedNested_append {ns ms : List Nested} {ts us : List SeqTree} (hlen : ns.length = ts.length)
    (h : ScopedNested S (ns ++ ms) (ts ++ us)) : ScopedNested S ns ts ∧ ScopedNested S ms us := by
  induction ns generalizing ts with
  | nil =>
      obtain rfl : ts = [] := List.eq_nil_of_length_eq_zero hlen.symm
      exact ⟨by simp only [ScopedNested], h⟩
  | cons n ns ih =>
      cases ts with
      | nil => cases hlen
      | cons t ts =>
          simp only [List.cons_append, ScopedNested] at h ⊢
          obtain ⟨first, rest⟩ := ih (by simpa using hlen) h.2
          exact ⟨⟨h.1, first⟩, rest⟩

theorem alphaNested_append {f g : Function} {ns ns' ms ms' : List Nested} {ts ts' us us' : List SeqTree}
    (h : AlphaNested f g Γ ns ts ms us) (h' : AlphaNested f g Γ ns' ts' ms' us') :
    AlphaNested f g Γ (ns ++ ns') (ts ++ ts') (ms ++ ms') (us ++ us') := by
  induction ns generalizing ts ms us with
  | nil =>
      simp only [AlphaNested] at h
      obtain ⟨-, rfl, rfl, rfl⟩ := h
      exact h'
  | cons n ns ih =>
      cases ts with
      | nil => simp [AlphaNested] at h
      | cons t ts =>
          simp only [AlphaNested] at h
          obtain ⟨m, ms, u, us, rfl, rfl, hn, hu, hrest⟩ := h
          simp only [List.cons_append, AlphaNested]
          exact ⟨m, _, u, _, rfl, rfl, hn, hu, ih hrest⟩

/-- Sequences are copied one after another. -/
theorem copyAll_run (ns : List Nested) : ∀ {T : Tables} (ts : List SeqTree), (∀ t ∈ ts, CopiesSeq J fuel t) →
    ns.map Nested.body = ts.map SeqTree.id → Ready J S Γ T (nestedNodes ns ts ++ L) → ScopedNested S ns ts →
    ∃ ms us T', ns.mapM (copyNested J.copier fuel) T = some (ms, T') ∧ ms.map Nested.body = us.map SeqTree.id ∧
      AllShaped ns ms ∧ Copied T T' (nestedNodes ns ts) (nestedNodes ms us) ∧ (∀ u ∈ us, StoresSeq T'.out u) ∧
      AlphaNested J.fn T'.out Γ ns ts ms us := by
  induction ns with
  | nil =>
      intro T ts _ hids _ _
      cases ts with
      | nil => exact ⟨[], [], T, rfl, rfl, .nil, Copied.refl T, by simp, by simp [AlphaNested]⟩
      | cons => cases hids
  | cons n ns ih =>
      intro T ts hts hids h hs
      cases ts with
      | nil => cases hids
      | cons t ts =>
          simp only [List.map_cons, List.cons.injEq] at hids
          simp only [ScopedNested] at hs
          have h₀ : Ready J S Γ T (n.nodes ++ t.nodes ++ (nestedNodes ns ts ++ L)) := by
            simpa only [nestedNodes, List.append_assoc] using h
          obtain ⟨m, u, T₁, run₁, body₁, shaped₁, copied₁, stored₁, like₁, alpha₁⟩ :=
            nested_run (hts t (List.mem_cons_self ..)) hids.1 h₀ hs.1
          obtain ⟨ms, us, T₂, run₂, bodies₂, shaped₂, copied₂, stored₂, alpha₂⟩ :=
            ih ts (fun w hw => hts w (List.mem_cons_of_mem _ hw)) hids.2 (h₀.copied copied₁) hs.2
          refine ⟨m :: ms, u :: us, T₂, ?_, ?_, .cons shaped₁ shaped₂, ?_, ?_, ?_⟩
          · rw [List.mapM_cons, Walk.bind_eq run₁, Walk.bind_eq run₂]
            rfl
          · rw [List.map_cons, List.map_cons, body₁, bodies₂]
          · simpa only [nestedNodes] using copied₁.trans copied₂
          · intro w hw
            rcases List.mem_cons.mp hw with rfl | hw
            · exact copied₂.grown.storesSeq _ stored₁
            · exact stored₂ w hw
          · simp only [AlphaNested]
            exact ⟨m, ms, u, us, rfl, rfl, likes_grown copied₂.grown.toContinues like₁,
              alphaSeq_grown copied₂.grown.toContinues t alpha₁, alpha₂⟩

/-! ## Statements -/

/-- What a suspension edge saves is renamed alike before and after the landing is copied. -/
theorem inOrder_run {vs : List VarId} {ns : List Nested} {ts : List SeqTree} (hts : ∀ t ∈ ts, CopiesSeq J fuel t)
    (hids : ns.map Nested.body = ts.map SeqTree.id) (h : Ready J S Γ T (nestedNodes ns ts ++ L))
    (hs : ScopedNested S ns ts) (hvs : S.has vs) :
    ∃ saved ms us T', J.copier.inOrder (copySaved J.copier vs) (ns.mapM (copyNested J.copier fuel)) T =
        some ((saved, ms), T') ∧ saved.length = vs.length ∧ SameVars Γ vs saved ∧
      ms.map Nested.body = us.map SeqTree.id ∧ AllShaped ns ms ∧
      Copied T T' (nestedNodes ns ts) (nestedNodes ms us) ∧ (∀ u ∈ us, StoresSeq T'.out u) ∧
      AlphaNested J.fn T'.out Γ ns ts ms us := by
  obtain ⟨ms, us, T', hrun, hrest⟩ := copyAll_run ns ts hts hids h hs
  have early := h.saved_run hvs
  have after : Ready J S Γ T' L := h.copied hrest.2.2.1
  have late := after.saved_run hvs
  cases hK : J.copier with
  | into src =>
      rw [hK] at late hrun
      refine ⟨vs.map T'.sub, ms, us, T', ?_, List.length_map .., after.sameVars hvs, hrest⟩
      simp only [Copier.inOrder]
      rw [Walk.bind_eq hrun, Walk.bind_eq late]
      rfl
  | clone =>
      rw [hK] at early hrun
      refine ⟨vs.map T.sub, ms, us, T', ?_, List.length_map .., h.sameVars hvs, hrest⟩
      simp only [Copier.inOrder]
      rw [Walk.bind_eq early, Walk.bind_eq hrun]
      rfl

/-- A statement that is stored last. -/
theorem pushStmt_copied (T : Tables) (s : Stmt) (L : List Node) :
    ∃ T', pushStmt s T = some (T.out.stmts.length, T') ∧ Copied T T' L [.stmt T.out.stmts.length] ∧
      T'.out.stmts[T.out.stmts.length]? = some s := by
  refine ⟨_, rfl, ⟨⟨⟨List.prefix_refl _, List.prefix_append .., List.prefix_refl _, List.prefix_refl _⟩, rfl⟩,
    fun _ _ => rfl, fun _ _ => rfl, ⟨List.nodup_singleton _, ?new⟩, ?all⟩, ?stored⟩
  case new => simp [Function.has]
  case all =>
    intro n
    cases n <;> simp [Function.has, Nat.le_iff_lt_or_eq]
  case stored => simp

theorem pushSeq_copied (T : Tables) (s : Seq) (L : List Node) :
    ∃ T', pushSeq s T = some (T.out.seqs.length, T') ∧ Copied T T' L [.seq T.out.seqs.length] ∧
      T'.out.seqs[T.out.seqs.length]? = some s := by
  refine ⟨_, rfl, ⟨⟨⟨List.prefix_refl _, List.prefix_refl _, List.prefix_append .., List.prefix_refl _⟩, rfl⟩,
    fun _ _ => rfl, fun _ _ => rfl, ⟨List.nodup_singleton _, ?new⟩, ?all⟩, ?stored⟩
  case new => simp [Function.has]
  case all =>
    intro n
    cases n <;> simp [Function.has, Nat.le_iff_lt_or_eq]
  case stored => simp

theorem split_subs {ns ms : List Nested} {ts : List SeqTree} (h : (ns ++ ms).map Nested.body = ts.map SeqTree.id) :
    ∃ us vs, ts = us ++ vs ∧ ns.map Nested.body = us.map SeqTree.id ∧ ms.map Nested.body = vs.map SeqTree.id ∧
      ns.length = us.length := by
  rw [List.map_append] at h
  obtain ⟨us, vs, rfl, hus, hvs⟩ := List.append_eq_map_iff.mp h
  refine ⟨us, vs, rfl, hus.symm, hvs.symm, ?_⟩
  simpa using (congrArg List.length hus).symm

/-- What it copies of its statements a copier takes. -/
def Takes (J : Job) (s : Stmt) : Prop := J.copier.Admits J.outerLabel s

theorem stmt_run {id : StmtId} {s : Stmt} {ts : List SeqTree} (hts : ∀ t ∈ ts, CopiesSeq J fuel t)
    (hstored : J.fn.stmts[id]? = some s) (hids : s.nested.map Nested.body = ts.map SeqTree.id) (htakes : Takes J s)
    (h : Ready J S Γ T ((StmtTree.mk id s ts).nodes ++ L)) (hs : ScopedStmt S (.mk id s ts)) :
    ∃ u T', J.copier.stmt (fuel + 1) id T = some (u.id, T') ∧ Copied T T' (StmtTree.mk id s ts).nodes u.nodes ∧
      StoresStmt T'.out u ∧ AlphaStmt J.fn T'.out Γ (.mk id s ts) u ∧
      List.Forall₂ (Like J.fn T'.out) (s.dst.toList.map .var) (u.stmt.dst.toList.map .var) ∧
      Ready J (S.define s.dst) (Γ.define s.dst u.stmt.dst) T' L := by
  simp only [ScopedStmt] at hs
  obtain ⟨hreads, hsaved, htarget, hnested⟩ := hs
  rw [Stmt.nested_eq] at hids hnested
  obtain ⟨ts₁, rest, rfl, hids₁, hrest, hlen₁⟩ := split_subs hids
  obtain ⟨ts₂, ts₃, rfl, hids₂, hids₃, hlen₂⟩ := split_subs hrest
  obtain ⟨hs₁, hs₂₃⟩ := scopedNested_append hlen₁ hnested
  obtain ⟨hs₂, hs₃⟩ := scopedNested_append hlen₂ hs₂₃
  have h₀ : Ready J S Γ T (nestedNodes s.inner ts₁ ++ (nestedNodes s.atFail ts₂ ++ (nestedNodes s.atDefect ts₃ ++
      (s.dst.toList.map .var ++ ([.stmt id] ++ L))))) := by
    rw [StmtTree.nodes, Stmt.nested_eq, nestedNodes_append hlen₁, nestedNodes_append hlen₂] at h
    simpa only [List.append_assoc] using h
  -- the walk: what it reads, its sequences in three parts, what it saves, what it defines
  have hread := h₀.seeAll_run hreads
  obtain ⟨ns, us₁, T₁, run₁, bodies₁, shaped₁, copied₁, stored₁, alpha₁⟩ :=
    copyAll_run s.inner ts₁ (fun t ht => hts t (by simp [ht])) hids₁ h₀ hs₁
  have h₁ := h₀.copied copied₁
  obtain ⟨hedge, labels⟩ := h₁.target_run htarget fun hc => (htakes hc).1
  obtain ⟨hs', us₂, T₂, run₂, bodies₂, shaped₂, copied₂, stored₂, alpha₂⟩ :=
    copyAll_run s.atFail ts₂ (fun t ht => hts t (by simp [ht])) hids₂ h₁ hs₂
  have h₂ := h₁.copied copied₂
  obtain ⟨saved, ls, us₃, T₃, run₃, savedLen, savedVars, bodies₃, shaped₃, copied₃, stored₃, alpha₃⟩ :=
    inOrder_run (fun t ht => hts t (by simp [ht])) hids₃ h₂ hs₃ hsaved
  have h₃ := h₂.copied copied₃
  obtain ⟨dst, T₄, run₄, dstSome, copied₄, like, h₄⟩ := h₃.dst_run
  obtain ⟨T₅, run₅, copied₅, stored₅⟩ :=
    pushStmt_copied T₄ (s.rebuild T.sub (s.target.map T₁.subLabel) saved ns hs' ls dst) [.stmt id]
  have built : Rebuilt s (s.rebuild T.sub (s.target.map T₁.subLabel) saved ns hs' ls dst) T.sub
      (s.target.map T₁.subLabel) saved (ns ++ (hs' ++ ls)) dst :=
    rebuild_rebuilt shaped₁ shaped₂ shaped₃ (by simp) savedLen dstSome
  have hlen₁' : ns.length = us₁.length := by simpa using congrArg List.length bodies₁
  have hlen₂' : hs'.length = us₂.length := by simpa using congrArg List.length bodies₂
  refine ⟨.mk T₄.out.stmts.length (s.rebuild T.sub (s.target.map T₁.subLabel) saved ns hs' ls dst)
    (us₁ ++ (us₂ ++ us₃)), T₅, ?_, ?_, ?_, ?_, ?_, ?_⟩
  · rw [stmt_run_eq (prefix_getElem? h.source.stmts hstored) fun hc => (htakes hc).2, copyStmt,
      Walk.bind_eq hread, Walk.bind_eq run₁, Walk.bind_eq hedge, Walk.bind_eq run₂, Walk.bind_eq run₃,
      Walk.bind_eq run₄, run₅]
    rfl
  · have all := copied₁.trans (copied₂.trans (copied₃.trans (copied₄.trans copied₅)))
    rw [StmtTree.nodes, StmtTree.nodes, Stmt.nested_eq, nestedNodes_append hlen₁, nestedNodes_append hlen₂,
      built.nested, nestedNodes_append hlen₁', nestedNodes_append hlen₂', built.dst]
    simpa only [List.append_assoc] using all
  · simp only [StoresStmt, built.nested, List.map_append, bodies₁, bodies₂, bodies₃, storesSubs_iff]
    refine ⟨stored₅, trivial, ?_⟩
    have tail := copied₄.grown.trans copied₅.grown
    intro u hu
    rcases List.mem_append.mp hu with hu | hu
    · exact ((copied₂.grown.trans copied₃.grown).trans tail).storesSeq u (stored₁ u hu)
    · rcases List.mem_append.mp hu with hu | hu
      · exact (copied₃.grown.trans tail).storesSeq u (stored₂ u hu)
      · exact tail.storesSeq u (stored₃ u hu)
  · have tail := copied₄.grown.trans copied₅.grown
    have nested := alphaNested_append
      (alphaNested_grown ((copied₂.grown.trans copied₃.grown).trans tail).toContinues _ _ alpha₁)
      (alphaNested_append (alphaNested_grown (copied₃.grown.trans tail).toContinues _ _ alpha₂)
        (alphaNested_grown tail.toContinues _ _ alpha₃))
    simp only [AlphaStmt, StmtTree.stmt, StmtTree.subs, built.blank, built.reads, built.saved, built.target,
      built.nested]
    refine ⟨trivial, h₀.sameVars hreads, savedVars, labels, ?_⟩
    rw [Stmt.nested_eq]
    exact nested
  · simp only [StmtTree.stmt, built.dst]
    exact likes_grown copied₅.grown.toContinues like
  · simp only [StmtTree.stmt, built.dst]
    exact h₄.copied copied₅

end

/-! ## Trees -/

mutual

/-- Any tree in scope is copied. -/
theorem copies_seq (J : Job) : (t : SeqTree) → (fuel : Nat) → t.size ≤ fuel → StoresSeq J.fn t →
    (∀ s ∈ t.all, Takes J s) → CopiesSeq J fuel t
  | .mk id term stmts, fuel, hsize, hstored, htakes => by
      intro S Γ T h hs
      obtain ⟨fuel, rfl⟩ : ∃ k, fuel = k + 1 := ⟨fuel - 1, by simp only [SeqTree.size] at hsize; omega⟩
      simp only [SeqTree.size, Nat.add_le_add_iff_right] at hsize
      simp only [StoresSeq] at hstored
      simp only [SeqTree.all] at htakes
      simp only [ScopedSeq] at hs
      simp only [SeqTree.nodes] at h ⊢
      obtain ⟨us, T₁, term', run₁, run₂, copied, stored, alpha⟩ :=
        copies_stmts J stmts fuel hsize hstored.2 htakes S Γ T term [.seq id] h hs
      obtain ⟨T₂, run₃, copied', stored'⟩ := pushSeq_copied T₁ ⟨us.map StmtTree.id, term'⟩ [.seq id]
      refine ⟨.mk T₁.out.seqs.length term' us, T₂, ?_, copied.trans copied', ?_, ?_⟩
      · simp only [SeqTree.id, Copier.seq]
        rw [get_bind_apply, Walk.get_some (prefix_getElem? h.source.seqs hstored.1), Walk.bind_eq run₁,
          Walk.bind_eq run₂, run₃]
      · simp only [StoresSeq]
        exact ⟨stored', copied'.grown.storesStmts us stored⟩
      · simp only [AlphaSeq, SeqTree.term, SeqTree.stmts]
        exact alphaStmts_grown copied'.grown.toContinues stmts alpha

theorem copies_stmts (J : Job) : (ts : List StmtTree) → (fuel : Nat) → stmtsSize ts ≤ fuel → StoresStmts J.fn ts →
    (∀ s ∈ stmtsAll ts, Takes J s) → ∀ (S : Scope) (Γ : Pairs) (T : Tables) (term : Term) (L : List Node),
      Ready J S Γ T (stmtsNodes ts ++ L) → ScopedStmts S term ts →
      ∃ us T' term', (ts.map StmtTree.id).mapM (J.copier.stmt fuel) T = some (us.map StmtTree.id, T') ∧
        J.copier.term term T' = some (term', T') ∧ Copied T T' (stmtsNodes ts) (stmtsNodes us) ∧
        StoresStmts T'.out us ∧ AlphaStmts J.fn T'.out Γ term term' ts us
  | [], _, _, _, _ => by
      intro S Γ T term L h hs
      simp only [ScopedStmts] at hs
      refine ⟨[], T, _, rfl, h.term_run hs, Copied.refl T, by simp only [StoresStmts], ?_⟩
      simp only [AlphaStmts, Term.rename_blank, Term.rename_uses, Term.rename_target]
      refine ⟨trivial, trivial, h.sameVars hs.1, ?_⟩
      cases htarget : term.target with
      | none => exact .nil
      | some l => exact .cons (h.matchesLabel (hs.2.1 l htarget)) .nil
  | t :: ts, fuel, hsize, hstored, htakes => by
      intro S Γ T term L h hs
      simp only [stmtsSize] at hsize
      simp only [StoresStmts] at hstored
      simp only [stmtsAll, List.mem_append] at htakes
      simp only [ScopedStmts] at hs
      simp only [stmtsNodes, List.append_assoc] at h
      obtain ⟨u, T₁, run₁, copied₁, stored₁, alpha₁, like₁, ready₁⟩ := copies_stmt J t fuel (by omega) hstored.1
        (fun s hs => htakes s (.inl hs)) S Γ T _ h hs.1
      obtain ⟨us, T₂, term', run₂, hterm, copied₂, stored₂, alpha₂⟩ := copies_stmts J ts fuel (by omega) hstored.2
        (fun s hs => htakes s (.inr hs)) _ _ T₁ term L ready₁ hs.2
      refine ⟨u :: us, T₂, term', ?_, hterm, ?_, ?_, ?_⟩
      · rw [List.map_cons, List.mapM_cons, Walk.bind_eq run₁, Walk.bind_eq run₂]
        rfl
      · simpa only [stmtsNodes] using copied₁.trans copied₂
      · simp only [StoresStmts]
        exact ⟨copied₂.grown.storesStmt u stored₁, stored₂⟩
      · simp only [AlphaStmts]
        exact ⟨u, us, rfl, alphaStmt_grown copied₂.grown.toContinues t alpha₁, likes_grown copied₂.grown.toContinues like₁, alpha₂⟩

theorem copies_stmt (J : Job) : (t : StmtTree) → (fuel : Nat) → t.size ≤ fuel → StoresStmt J.fn t →
    (∀ s ∈ t.all, Takes J s) → ∀ (S : Scope) (Γ : Pairs) (T : Tables) (L : List Node),
      Ready J S Γ T (t.nodes ++ L) → ScopedStmt S t →
      ∃ u T', J.copier.stmt fuel t.id T = some (u.id, T') ∧ Copied T T' t.nodes u.nodes ∧ StoresStmt T'.out u ∧
        AlphaStmt J.fn T'.out Γ t u ∧
        List.Forall₂ (Like J.fn T'.out) (t.stmt.dst.toList.map .var) (u.stmt.dst.toList.map .var) ∧
        Ready J (S.define t.stmt.dst) (Γ.define t.stmt.dst u.stmt.dst) T' L
  | .mk id stmt subs, fuel, hsize, hstored, htakes => by
      intro S Γ T L h hs
      obtain ⟨fuel, rfl⟩ : ∃ k, fuel = k + 1 := ⟨fuel - 1, by simp only [StmtTree.size] at hsize; omega⟩
      simp only [StmtTree.size, Nat.add_le_add_iff_right] at hsize
      simp only [StoresStmt] at hstored
      simp only [StmtTree.all, List.mem_cons] at htakes
      have hsubs := copies_subs J subs fuel hsize hstored.2.2 fun s hs => htakes s (.inr hs)
      exact stmt_run hsubs hstored.1 hstored.2.1 (htakes stmt (.inl rfl)) h hs

theorem copies_subs (J : Job) : (ts : List SeqTree) → (fuel : Nat) → subsSize ts ≤ fuel → StoresSubs J.fn ts →
    (∀ s ∈ subsAll ts, Takes J s) → ∀ t ∈ ts, CopiesSeq J fuel t
  | [], _, _, _, _ => by simp
  | t :: ts, fuel, hsize, hstored, htakes => by
      simp only [subsSize] at hsize
      simp only [StoresSubs] at hstored
      simp only [subsAll, List.mem_append] at htakes
      have first := copies_seq J t fuel (by omega) hstored.1 fun s hs => htakes s (.inl hs)
      have rest := copies_subs J ts fuel (by omega) hstored.2 fun s hs => htakes s (.inr hs)
      intro u hu
      rcases List.mem_cons.mp hu with h | h
      · exact h ▸ first
      · exact rest u h

end

end Emela.Lir.Arena
