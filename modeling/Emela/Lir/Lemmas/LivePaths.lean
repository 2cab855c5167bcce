import Emela.Lir.LiveOn
import Emela.Lir.Arena
import Emela.Lir.Lemmas.LiveTree

/-!
# Liveness and paths

What the analysis finds live is what some path uses: every variable found reaches a use, by induction on
the tree, and every use is found along the path to it, since what is live at a point covers what is live
where control goes on.
-/

namespace Emela.Lir.Arena

variable {f : Function}

/-! ## Points of a stored sequence -/

theorem stmtAt_stored {t : SeqTree} (h : StoresSeq f t) {pre post : List StmtTree} {u : StmtTree}
    (hsplit : t.stmts = pre ++ u :: post) (σ : List Frame) : stmtAt f ⟨t.id, pre.length, σ⟩ = some u.stmt := by
  rw [storesSeq_iff] at h
  have hu := (storesStmt_iff.mp (h.2 u (by simp [hsplit]))).1
  simp [stmtAt, h.1, hsplit, hu]

theorem stmtAt_split {t : SeqTree} (h : StoresSeq f t) {k : Nat} {σ : List Frame} {s : Stmt}
    (hs : stmtAt f ⟨t.id, k, σ⟩ = some s) :
    ∃ pre u post, t.stmts = pre ++ u :: post ∧ pre.length = k ∧ u.stmt = s := by
  rw [storesSeq_iff] at h
  simp only [stmtAt, h.1, Option.bind_some, List.getElem?_map] at hs
  cases hu : t.stmts[k]? with
  | none => simp [hu] at hs
  | some u =>
      obtain ⟨hk, huk⟩ := List.getElem?_eq_some_iff.mp hu
      have hstored := (storesStmt_iff.mp (h.2 u (huk ▸ List.getElem_mem hk))).1
      simp only [hu, Option.map_some, Option.bind_some, hstored, Option.some.injEq] at hs
      refine ⟨t.stmts.take k, u, t.stmts.drop (k + 1), ?_, by simp; omega, hs⟩
      rw [← huk, List.getElem_cons_drop, List.take_append_drop]

theorem termAt_stored {t : SeqTree} (h : StoresSeq f t) (σ : List Frame) :
    termAt f ⟨t.id, t.stmts.length, σ⟩ = some t.term := by
  simp [termAt, (storesSeq_iff.mp h).1]

theorem termAt_split {t : SeqTree} (h : StoresSeq f t) {k : Nat} {σ : List Frame} {term : Term}
    (ht : termAt f ⟨t.id, k, σ⟩ = some term) : k = t.stmts.length ∧ term = t.term := by
  simp only [termAt, (storesSeq_iff.mp h).1, Option.bind_some, List.length_map] at ht
  split at ht
  · exact ⟨‹_›, by simpa using ht.symm⟩
  · cases ht

/-! ## What is found live reaches a use -/

/-- The variable is used where the way out goes, unless it is redefined on the way. -/
def UsedAfter (f : Function) (v : VarId) (way : Option Landing) : Prop :=
  ∃ q vs, way = some (q, vs) ∧ v ∉ vs ∧ Reaches f v q

/-- What the context takes for live at its ways out is used there. -/
structure Sound (f : Function) (v : VarId) (σ : List Frame) (lc : LiveCtx) : Prop where
  yields : v ∈ lc.yieldLive → UsedAfter f v (yieldTo σ)
  head : v ∈ lc.head.getD ∅ → UsedAfter f v (recurTo σ)
  labels : ∀ l, v ∈ lc.afterLabel l → UsedAfter f v (breakTo l σ)

theorem Sound.start (v : VarId) : Sound f v [] .start :=
  ⟨by simp [LiveCtx.start], by simp [LiveCtx.start], by simp [LiveCtx.start]⟩

theorem Sound.enter {v : VarId} {σ : List Frame} {lc : LiveCtx} (h : Sound f v σ lc) (fr : Frame)
    {after head : Finset VarId} (hn : Entered fr.nested)
    (hafter : v ∈ after → UsedAfter f v (some (fr.after σ)))
    (hhead : fr.nested.role = .loop → v ∈ head →
      UsedAfter f v (some (⟨fr.nested.body, 0, fr :: σ⟩, fr.nested.binds))) :
    Sound f v (fr :: σ) (enterLive lc after head fr.nested) := by
  rcases fr with ⟨q, k, dst, ⟨role, binds, label, body⟩⟩
  rcases hn with hr | hr | hr <;> simp only at hr <;> subst hr
  · refine ⟨hafter, h.head, ?_⟩
    intro l hl
    cases label with
    | none => simpa [breakTo] using h.labels l hl
    | some b =>
        by_cases hlb : l = b
        · subst hlb
          simp only [enterLive, Option.elim_some, Function.update_self] at hl
          simpa [breakTo] using hafter hl
        · have hne : ¬ (some b = some l) := fun he => hlb (Option.some.inj he).symm
          simp only [enterLive, Option.elim_some, Function.update_of_ne hlb] at hl
          simpa [breakTo, hne] using h.labels l hl
  · exact ⟨hafter, hhead rfl, h.labels⟩
  · exact ⟨h.yields, h.head, h.labels⟩

/-- What the terminator leaves live is used after it or by it. -/
theorem liveTerm_sound {v : VarId} {t : SeqTree} (hs : StoresSeq f t) {σ : List Frame} {lc : LiveCtx}
    (h : Sound f v σ lc) (hv : v ∈ liveTerm lc t.term) : Reaches f v ⟨t.id, t.stmts.length, σ⟩ := by
  have hterm := termAt_stored hs σ
  have out : UsedAfter f v (termTo σ t.term) → Reaches f v ⟨t.id, t.stmts.length, σ⟩ := by
    rintro ⟨q, vs, hway, hvs, hq⟩
    exact .step (.leave hterm hway) hvs hq
  rcases Finset.mem_union.mp hv with hbase | huse
  · cases ht : t.term with
    | yield w =>
        apply out
        rw [ht] at hbase ⊢
        exact h.yields hbase
    | «break» l w =>
        apply out
        rw [ht] at hbase ⊢
        exact h.labels l hbase
    | recur args =>
        apply out
        rw [ht] at hbase ⊢
        exact h.head hbase
    | _ => simp [ht] at hbase
  · exact .use (.inr ⟨t.term, hterm, List.mem_toFinset.mp huse⟩)

mutual

theorem liveSeq_sound {v : VarId} {σ : List Frame} {lc : LiveCtx} : (t : SeqTree) → StoresSeq f t →
    (∀ s ∈ t.all, s.Explicit) → Sound f v σ lc → v ∈ liveSeq lc t → Reaches f v ⟨t.id, 0, σ⟩
  | .mk id term stmts, hs, hall, h, hv => by
      simp only [liveSeq] at hv
      simp only [SeqTree.all] at hall
      exact liveStmts_sound stmts (.mk id term stmts) hs [] rfl hall h hv

theorem liveStmts_sound {v : VarId} {σ : List Frame} {lc : LiveCtx} : (ts : List StmtTree) → (t : SeqTree) →
    StoresSeq f t → (pre : List StmtTree) → t.stmts = pre ++ ts → (∀ s ∈ stmtsAll ts, s.Explicit) →
      Sound f v σ lc → v ∈ liveStmts lc t.term ts → Reaches f v ⟨t.id, pre.length, σ⟩
  | [], t, hs, pre, hsplit, _, h, hv => by
      simp only [liveStmts] at hv
      have := liveTerm_sound hs h hv
      rwa [hsplit, List.append_nil] at this
  | u :: ts, t, hs, pre, hsplit, hall, h, hv => by
      simp only [liveStmts] at hv
      simp only [stmtsAll, List.mem_append] at hall
      have rest := liveStmts_sound (v := v) ts t hs (pre ++ [u]) (by simp [hsplit]) (fun s hs => hall s (.inr hs)) h
      rw [List.length_append] at rest
      have hu := (storesSeq_iff.mp hs).2 u (by simp [hsplit])
      exact liveStmt_sound u hu (stmtAt_stored hs hsplit σ) (fun s hs => hall s (.inl hs)) h rest hv

theorem liveStmt_sound {v : VarId} {σ : List Frame} {lc : LiveCtx} {q : SeqId} {k : Nat} {after : Finset VarId} :
    (u : StmtTree) → StoresStmt f u → stmtAt f ⟨q, k, σ⟩ = some u.stmt → (∀ s ∈ u.all, s.Explicit) →
      Sound f v σ lc → (v ∈ after → Reaches f v ⟨q, k + 1, σ⟩) → v ∈ liveStmt lc u after →
      Reaches f v ⟨q, k, σ⟩
  | .mk id stmt subs, hu, hat, hall, h, hafter, hv => by
      simp only [StmtTree.stmt] at hat
      simp only [StoresStmt] at hu
      simp only [StmtTree.all, List.mem_cons] at hall
      simp only [liveStmt, Finset.mem_union] at hv
      have explicit := (hall stmt (.inl rfl)).2
      rcases hv with (hfall | hnested) | hread
      · by_cases hf : stmt.falls = true
        · rw [if_pos hf] at hfall
          simp only [eraseDst, Finset.mem_sdiff, Option.mem_toFinset] at hfall
          refine .step (.fall hat hf) ?_ (hafter hfall.1)
          simpa using hfall.2
        · simp [hf] at hfall
      · obtain ⟨n, hn, hbind, hreach⟩ := liveNested_sound subs stmt.nested q k stmt.dst hu.2.1 hu.2.2
          (fun s hs => hall s (.inr hs)) explicit h (fun hv => by
            simp only [eraseDst, Finset.mem_sdiff, Option.mem_toFinset] at hv
            exact ⟨_, _, rfl, by simpa using hv.2, hafter hv.1⟩) hnested
        refine .step (.enter hat hn ?_) hbind hreach
        rcases explicit n hn with hr | hr | hr <;> simp [hr]
      · exact .use (.inl ⟨stmt, hat, List.mem_toFinset.mp hread⟩)

theorem liveNested_sound {v : VarId} {σ : List Frame} {lc : LiveCtx} {after : Finset VarId} :
    (ts : List SeqTree) → (ns : List Nested) → (q : SeqId) → (k : Nat) → (dst : Option VarId) →
      ns.map Nested.body = ts.map SeqTree.id → StoresSubs f ts → (∀ s ∈ subsAll ts, s.Explicit) →
      (∀ n ∈ ns, Entered n) → Sound f v σ lc →
      (v ∈ after → UsedAfter f v (some ((⟨q, k + 1, σ⟩ : Point), dst.toList))) → v ∈ liveNested lc after ns ts →
      ∃ n ∈ ns, v ∉ n.binds ∧ Reaches f v ⟨n.body, 0, ⟨q, k + 1, dst, n⟩ :: σ⟩
  | [], ns, _, _, _, _, _, _, _, _, _, hv => by cases ns <;> simp [liveNested] at hv
  | t :: ts, [], _, _, _, hids, _, _, _, _, _, _ => by cases hids
  | t :: ts, n :: ns, q, k, dst, hids, hs, hall, hns, h, hafter, hv => by
      simp only [List.map_cons, List.cons.injEq] at hids
      simp only [StoresSubs] at hs
      simp only [subsAll, List.mem_append] at hall
      simp only [liveNested, Finset.mem_union, Finset.mem_sdiff, List.mem_toFinset] at hv
      rcases hv with hfirst | hrest
      · refine ⟨n, List.mem_cons_self .., hfirst.2, ?_⟩
        have inner : Sound f v (⟨q, k + 1, dst, n⟩ :: σ) (enterLive lc after ∅ n) :=
          h.enter ⟨q, k + 1, dst, n⟩ (hns n (List.mem_cons_self ..)) hafter (fun _ hv => by simp at hv)
        rw [hids.1]
        exact liveSeq_sound t hs.1 (fun s hs => hall s (.inl hs)) inner hfirst.1
      · obtain ⟨m, hm, found⟩ := liveNested_sound ts ns q k dst hids.2 hs.2 (fun s hs => hall s (.inr hs))
          (fun m hm => hns m (List.mem_cons_of_mem _ hm)) h hafter hrest
        exact ⟨m, List.mem_cons_of_mem _ hm, found⟩

end

/-- What is found live on after a `let` is used on some path on from it. -/
theorem liveAfter_sound {v : VarId} {σ : List Frame} {lc : LiveCtx} {t : SeqTree} (hs : StoresSeq f t)
    (hall : ∀ s ∈ t.all, s.Explicit) (h : Sound f v σ lc) {pre post : List StmtTree} {u : StmtTree}
    (hsplit : t.stmts = pre ++ u :: post) (hv : v ∈ liveAfter lc (liveStmts lc t.term post) u.stmt u.subs) :
    LiveOn f v ⟨t.id, pre.length, σ⟩ := by
  have hat := stmtAt_stored hs hsplit σ
  have hu := storesStmt_iff.mp ((storesSeq_iff.mp hs).2 u (by simp [hsplit]))
  have hmem : ∀ w ∈ t.stmts, ∀ s ∈ w.all, s ∈ t.all := fun w hw s hws => by
    rw [SeqTree.all_eq]
    exact mem_stmtsAll.mpr ⟨w, hw, hws⟩
  have explicit := (hall u.stmt (hmem u (by simp [hsplit]) _ (by simp [StmtTree.all_eq]))).2
  have rest : v ∈ liveStmts lc t.term post → Reaches f v ⟨t.id, pre.length + 1, σ⟩ := by
    intro hv
    have := liveStmts_sound (σ := σ) post t hs (pre ++ [u]) (by simp [hsplit])
      (fun s hs => by
        obtain ⟨w, hw, hws⟩ := mem_stmtsAll.mp hs
        exact hall s (hmem w (by simp [hsplit, hw]) s hws)) h hv
    simpa using this
  rcases Finset.mem_union.mp hv with hfall | hnested
  · by_cases hf : u.stmt.falls = true
    · rw [if_pos hf] at hfall
      simp only [eraseDst, Finset.mem_sdiff, Option.mem_toFinset] at hfall
      exact ⟨_, _, .fall hat hf, by simpa using hfall.2, rest hfall.1⟩
    · simp [hf] at hfall
  · obtain ⟨n, hn, hbind, hreach⟩ := liveNested_sound u.subs u.stmt.nested t.id pre.length u.stmt.dst hu.2.1
      (storesSubs_iff.mpr hu.2.2)
      (fun s hs => hall s (hmem u (by simp [hsplit]) s (by
        rw [StmtTree.all_eq]
        exact List.mem_cons_of_mem _ hs))) explicit h (fun hv => by
        simp only [eraseDst, Finset.mem_sdiff, Option.mem_toFinset] at hv
        exact ⟨_, _, rfl, by simpa using hv.2, rest hv.1⟩) hnested
    refine ⟨_, _, .enter hat hn ?_, hbind, hreach⟩
    rcases explicit n hn with hr | hr | hr <;> simp [hr]

/-! ## Every use is found -/

/-- The part of the tree the analysis is at, with the statements around it. -/
inductive Visits (root : SeqTree) : List Frame → LiveCtx → SeqTree → Prop where
  | root : Visits root [] .start root
  | nested {σ : List Frame} {lc : LiveCtx} {t sub : SeqTree} {pre post : List StmtTree} {u : StmtTree}
      {n : Nested} {ns ms : List Nested} {ts us : List SeqTree} : Visits root σ lc t →
      t.stmts = pre ++ u :: post → u.stmt.nested = ns ++ n :: ms → u.subs = ts ++ sub :: us →
      ns.length = ts.length →
      Visits root (⟨t.id, pre.length + 1, u.stmt.dst, n⟩ :: σ)
        (enterLive lc (eraseDst (liveStmts lc t.term post) u.stmt.dst)
          (liveHead lc (eraseDst (liveStmts lc t.term post) u.stmt.dst) n sub) n) sub

/-- What the analysis finds live at a point of the sequence. -/
def liveFrom (lc : LiveCtx) (t : SeqTree) (k : Nat) : Finset VarId := liveStmts lc t.term (t.stmts.drop k)

variable {root : SeqTree}

theorem Visits.stored {σ : List Frame} {lc : LiveCtx} {t : SeqTree} (h : Visits root σ lc t)
    (hs : StoresSeq f root) : StoresSeq f t := by
  induction h with
  | root => exact hs
  | @nested σ lc t sub pre post u n ns ms ts us _ hsplit hns hts _ ih =>
      have hu := storesStmt_iff.mp ((storesSeq_iff.mp ih).2 u (by simp [hsplit]))
      exact hu.2.2 sub (by simp [hts])

theorem Visits.explicit {σ : List Frame} {lc : LiveCtx} {t : SeqTree} (h : Visits root σ lc t)
    (hall : ∀ s ∈ root.all, s.Explicit) : ∀ s ∈ t.all, s.Explicit := by
  induction h with
  | root => exact hall
  | @nested σ lc t sub pre post u n ns ms ts us _ hsplit hns hts _ ih =>
      intro s hs
      apply ih
      rw [SeqTree.all_eq, mem_stmtsAll]
      refine ⟨u, by simp [hsplit], ?_⟩
      rw [StmtTree.all_eq]
      exact List.mem_cons_of_mem _ (mem_subsAll.mpr ⟨sub, by simp [hts], hs⟩)

/-- What is live in a nested sequence when it is entered is live on after what its statement reads. -/
theorem mem_liveNested {lc : LiveCtx} {after : Finset VarId} {n : Nested} {ms : List Nested} {sub : SeqTree}
    {us : List SeqTree} {v : VarId} (hv : v ∈ liveHead lc after n sub) :
    ∀ (ns : List Nested) (ts : List SeqTree), ns.length = ts.length →
      v ∈ liveNested lc after (ns ++ n :: ms) (ts ++ sub :: us) := by
  intro ns
  induction ns with
  | nil =>
      intro ts hlen
      obtain rfl : ts = [] := List.eq_nil_of_length_eq_zero hlen.symm
      simp only [List.nil_append, liveNested]
      exact Finset.mem_union_left _ hv
  | cons m ns ih =>
      intro ts hlen
      cases ts with
      | nil => cases hlen
      | cons t ts =>
          simp only [List.cons_append, liveNested]
          exact Finset.mem_union_right _ (ih ts (by simpa using hlen))

/-- What is live where a way out goes is live for the context, unless it is defined on the way. -/
def Covered (root : SeqTree) (way : Option Landing) (live : Finset VarId) : Prop :=
  ∀ q vs, way = some (q, vs) → ∃ lc t, Visits root q.stack lc t ∧ t.id = q.seq ∧
    ∀ v, v ∉ vs → v ∈ liveFrom lc t q.index → v ∈ live

structure Covers (root : SeqTree) (σ : List Frame) (lc : LiveCtx) : Prop where
  yields : Covered root (yieldTo σ) lc.yieldLive
  head : Covered root (recurTo σ) (lc.head.getD ∅)
  labels : ∀ l, Covered root (breakTo l σ) (lc.afterLabel l)

theorem drop_split {α : Type} {l pre post : List α} {u : α} (h : l = pre ++ u :: post) :
    l.drop (pre.length + 1) = post := by
  subst h
  rw [List.append_cons, List.drop_left' (by simp)]

theorem Visits.covers {σ : List Frame} {lc : LiveCtx} {t : SeqTree} (h : Visits root σ lc t)
    (hs : StoresSeq f root) : Covers root σ lc := by
  induction h with
  | root => exact ⟨by simp [Covered, yieldTo], by simp [Covered, recurTo], by simp [Covered, breakTo]⟩
  | @nested σ lc t sub pre post u n ns ms ts us hv hsplit hns hts hlen ih =>
      have inner := hv.nested hsplit hns hts hlen
      have hbody : n.body = sub.id := by
        have hu := (storesStmt_iff.mp ((storesSeq_iff.mp (hv.stored hs)).2 u (by simp [hsplit]))).2.1
        rw [hns, hts, List.map_append, List.map_append] at hu
        have := (List.append_inj hu (by simpa using hlen)).2
        simpa using (List.cons.inj this).1
      have after : Covered root (some ((⟨t.id, pre.length + 1, u.stmt.dst, n⟩ : Frame).after σ))
          (eraseDst (liveStmts lc t.term post) u.stmt.dst) := by
        intro q vs hq
        obtain ⟨rfl, rfl⟩ := Prod.mk.inj (Option.some.inj hq)
        refine ⟨lc, t, hv, rfl, ?_⟩
        intro v hvs hlive
        rw [liveFrom, drop_split hsplit] at hlive
        simp only [eraseDst, Finset.mem_sdiff, Option.mem_toFinset]
        exact ⟨hlive, by simpa using hvs⟩
      have again : Covered root (some ((⟨n.body, 0, ⟨t.id, pre.length + 1, u.stmt.dst, n⟩ :: σ⟩ : Point), n.binds))
          (liveHead lc (eraseDst (liveStmts lc t.term post) u.stmt.dst) n sub) := by
        intro q vs hq
        obtain ⟨rfl, rfl⟩ := Prod.mk.inj (Option.some.inj hq)
        refine ⟨_, sub, inner, hbody.symm, ?_⟩
        intro v hvs hlive
        rw [← liveHead_fixed]
        refine Finset.mem_sdiff.mpr ⟨?_, by simpa using hvs⟩
        rcases sub with ⟨id, term, stmts⟩
        simpa [liveFrom, liveSeq, SeqTree.term, SeqTree.stmts] using hlive
      rcases n with ⟨role, binds, label, body⟩
      cases role with
      | arm =>
          refine ⟨after, ih.head, ?_⟩
          intro l
          cases label with
          | none => simpa [breakTo, enterLive] using ih.labels l
          | some b =>
              by_cases hl : l = b
              · subst hl
                simpa [breakTo, enterLive] using after
              · have hne : ¬ (some b = some l) := fun he => hl (Option.some.inj he).symm
                simpa [breakTo, enterLive, hne, Function.update_of_ne hl] using ih.labels l
      | loop => exact ⟨after, again, ih.labels⟩
      | landing => exact ⟨ih.yields, ih.head, ih.labels⟩
      | protect => exact ⟨by simp [Covered, yieldTo], by simp [Covered, recurTo], by simp [Covered, breakTo]⟩
      | cleanup => exact ⟨by simp [Covered, yieldTo], by simp [Covered, recurTo], by simp [Covered, breakTo]⟩
      | closure => exact ⟨by simp [Covered, yieldTo], by simp [Covered, recurTo], by simp [Covered, breakTo]⟩

/-- Where a nested sequence of a statement stands among them. -/
theorem nested_split {u : StmtTree} (hu : StoresStmt f u) {n : Nested} (hn : n ∈ u.stmt.nested) :
    ∃ ns ms ts sub us, u.stmt.nested = ns ++ n :: ms ∧ u.subs = ts ++ sub :: us ∧ ns.length = ts.length ∧
      n.body = sub.id := by
  obtain ⟨ns, ms, hsplit⟩ := List.append_of_mem hn
  have hids := (storesStmt_iff.mp hu).2.1
  rw [hsplit, List.map_append, List.map_cons] at hids
  obtain ⟨ts, rest, hsubs, hts, hrest⟩ := List.append_eq_map_iff.mp hids
  cases rest with
  | nil => cases hrest
  | cons sub us =>
      simp only [List.map_cons, List.cons.injEq] at hrest
      have hlen := congrArg List.length hts
      simp only [List.length_map] at hlen
      exact ⟨ns, ms, ts, sub, us, hsplit, hsubs, hlen.symm, hrest.1.symm⟩

/-- What is live on past the reads at a point: after a statement, or where a terminator goes. -/
def LiveBeyond (lc : LiveCtx) (t : SeqTree) (k : Nat) (v : VarId) : Prop :=
  (∃ pre u post, t.stmts = pre ++ u :: post ∧ pre.length = k ∧
      v ∈ liveAfter lc (liveStmts lc t.term post) u.stmt u.subs) ∨
    (k = t.stmts.length ∧ v ∈ liveTerm lc t.term)

theorem LiveBeyond.liveFrom {lc : LiveCtx} {t : SeqTree} {k : Nat} {v : VarId} (h : LiveBeyond lc t k v) :
    v ∈ liveFrom lc t k := by
  rcases h with ⟨pre, u, post, hsplit, rfl, hv⟩ | ⟨rfl, hv⟩
  · have hdrop : t.stmts.drop pre.length = u :: post := by
      rw [hsplit, List.drop_left]
    rcases u with ⟨id, stmt, subs⟩
    rw [Arena.liveFrom, hdrop]
    simp only [liveStmts, liveStmt]
    exact Finset.mem_union_left _ hv
  · simpa only [Arena.liveFrom, List.drop_length, liveStmts] using hv

/-- What is live where a step leads is live beyond the point it starts from. -/
theorem step_covered (hs : StoresSeq f root) (hall : ∀ s ∈ root.all, s.Explicit) {σ : List Frame} {lc : LiveCtx}
    {t : SeqTree} (hv : Visits root σ lc t) {k : Nat} {vs : List VarId} {q : Point}
    (hstep : Step f ⟨t.id, k, σ⟩ vs q) :
    ∃ lc' t', Visits root q.stack lc' t' ∧ t'.id = q.seq ∧
      ∀ v, v ∉ vs → v ∈ liveFrom lc' t' q.index → LiveBeyond lc t k v := by
  have stored := hv.stored hs
  cases hstep with
  | @enter s n hat hn hrole =>
      obtain ⟨pre, u, post, hsplit, rfl, rfl⟩ := stmtAt_split stored hat
      have hu := (storesSeq_iff.mp stored).2 u (by simp [hsplit])
      obtain ⟨ns, ms, ts, sub, us, hns, hts, hlen, hbody⟩ := nested_split hu hn
      refine ⟨_, sub, hv.nested hsplit hns hts hlen, hbody.symm, ?_⟩
      intro v hvs hlive
      refine .inl ⟨pre, u, post, hsplit, rfl, Finset.mem_union_right _ ?_⟩
      rw [hns, hts]
      refine mem_liveNested ?_ ns ts hlen
      rw [← liveHead_fixed]
      refine Finset.mem_sdiff.mpr ⟨?_, by simpa using hvs⟩
      rcases sub with ⟨id, term, stmts⟩
      simpa [Arena.liveFrom, liveSeq, SeqTree.term, SeqTree.stmts] using hlive
  | @fall s hat hfall =>
      obtain ⟨pre, u, post, hsplit, rfl, rfl⟩ := stmtAt_split stored hat
      refine ⟨lc, t, hv, rfl, ?_⟩
      intro v hvs hlive
      rw [Arena.liveFrom, drop_split hsplit] at hlive
      refine .inl ⟨pre, u, post, hsplit, rfl, Finset.mem_union_left _ ?_⟩
      rw [if_pos hfall]
      simp only [eraseDst, Finset.mem_sdiff, Option.mem_toFinset]
      exact ⟨hlive, by simpa using hvs⟩
  | @failed _ s l _ hat htarget _ =>
      obtain ⟨pre, u, post, hsplit, rfl, rfl⟩ := stmtAt_split stored hat
      have hmem : u.stmt ∈ t.all := by
        rw [SeqTree.all_eq]
        exact mem_stmtsAll.mpr ⟨u, by simp [hsplit], by simp [StmtTree.all_eq]⟩
      rw [(hv.explicit hall u.stmt hmem).1] at htarget
      cases htarget
  | @leave _ term _ hat hway =>
      obtain ⟨rfl, rfl⟩ := termAt_split stored hat
      have covers := hv.covers hs
      have reach : ∀ live, Covered root (termTo σ t.term) live → live ⊆ liveTerm lc t.term →
          ∃ lc' t', Visits root q.stack lc' t' ∧ t'.id = q.seq ∧
            ∀ v, v ∉ vs → v ∈ Arena.liveFrom lc' t' q.index → LiveBeyond lc t t.stmts.length v := by
        intro live hcov hsub
        obtain ⟨lc', t', hvisit, hid, hlive⟩ := hcov q vs hway
        exact ⟨lc', t', hvisit, hid, fun v hvs h => .inr ⟨rfl, hsub (hlive v hvs h)⟩⟩
      cases ht : t.term with
      | yield w =>
          apply reach lc.yieldLive <;> rw [ht]
          · exact covers.yields
          · exact Finset.subset_union_left
      | «break» l w =>
          apply reach (lc.afterLabel l) <;> rw [ht]
          · exact covers.labels l
          · exact Finset.subset_union_left
      | recur args =>
          apply reach (lc.head.getD ∅) <;> rw [ht]
          · exact covers.head
          · exact Finset.subset_union_left
      | _ => simp [ht, termTo] at hway

/-- A variable some path uses is found live all along the path. -/
theorem Reaches.found (hs : StoresSeq f root) (hall : ∀ s ∈ root.all, s.Explicit) {v : VarId} {p : Point}
    (h : Reaches f v p) : ∀ {lc : LiveCtx} {t : SeqTree}, Visits root p.stack lc t → t.id = p.seq →
      v ∈ liveFrom lc t p.index := by
  induction h with
  | @use p huse =>
      intro lc t hv hid
      rcases p with ⟨q, k, σ⟩
      subst hid
      have stored := hv.stored hs
      rcases huse with ⟨s, hat, hread⟩ | ⟨term, hat, hread⟩
      · obtain ⟨pre, u, post, hsplit, rfl, rfl⟩ := stmtAt_split stored hat
        have hdrop : t.stmts.drop pre.length = u :: post := by
          rw [hsplit, List.drop_left]
        rcases u with ⟨id, stmt, subs⟩
        rw [liveFrom, hdrop]
        simp only [liveStmts, liveStmt]
        exact Finset.mem_union_right _ (List.mem_toFinset.mpr hread)
      · obtain ⟨rfl, rfl⟩ := termAt_split stored hat
        simp only [liveFrom, List.drop_length, liveStmts]
        exact Finset.mem_union_right _ (List.mem_toFinset.mpr hread)
  | @step p q vs hstep hvs _ ih =>
      intro lc t hv hid
      rcases p with ⟨s, k, σ⟩
      subst hid
      obtain ⟨lc', t', hvisit, hid', hcov⟩ := step_covered hs hall hv hstep
      exact (hcov v hvs (ih hvisit hid')).liveFrom

/-- What some path on from a `let` uses is found live on after it. -/
theorem liveOn_found (hs : StoresSeq f root) (hall : ∀ s ∈ root.all, s.Explicit) {v : VarId} {σ : List Frame}
    {lc : LiveCtx} {t : SeqTree} (hv : Visits root σ lc t) {pre post : List StmtTree} {u : StmtTree}
    (hsplit : t.stmts = pre ++ u :: post) (h : LiveOn f v ⟨t.id, pre.length, σ⟩) :
    v ∈ liveAfter lc (liveStmts lc t.term post) u.stmt u.subs := by
  obtain ⟨vs, q, hstep, hvs, hreach⟩ := h
  obtain ⟨lc', t', hvisit, hid, hcov⟩ := step_covered hs hall hv hstep
  rcases hcov v hvs (hreach.found hs hall hvisit hid) with ⟨pre', u', post', hsplit', hlen, hlive⟩ | ⟨hlen, -⟩
  · rw [hsplit] at hsplit'
    obtain ⟨-, hrest⟩ := List.append_inj hsplit' hlen.symm
    obtain ⟨rfl, rfl⟩ := List.cons.inj hrest
    exact hlive
  · rw [hsplit] at hlen
    simp at hlen

/-! ## The table -/

theorem Visits.sound (hs : StoresSeq f root) (hall : ∀ s ∈ root.all, s.Explicit) (v : VarId) {σ : List Frame}
    {lc : LiveCtx} {t : SeqTree} (h : Visits root σ lc t) : Sound f v σ lc := by
  induction h with
  | root => exact Sound.start v
  | @nested σ lc t sub pre post u n ns ms ts us hv hsplit hns hts hlen ih =>
      have stored := hv.stored hs
      have explicit := hv.explicit hall
      have hmem : ∀ w ∈ t.stmts, ∀ s ∈ w.all, s ∈ t.all := fun w hw s hws => by
        rw [SeqTree.all_eq]
        exact mem_stmtsAll.mpr ⟨w, hw, hws⟩
      have hn : Entered n := (explicit u.stmt (hmem u (by simp [hsplit]) _ (by simp [StmtTree.all_eq]))).2 n
        (by simp [hns])
      have hbody : n.body = sub.id := by
        have hu := (storesStmt_iff.mp ((storesSeq_iff.mp stored).2 u (by simp [hsplit]))).2.1
        rw [hns, hts, List.map_append, List.map_append] at hu
        have := (List.append_inj hu (by simpa using hlen)).2
        simpa using (List.cons.inj this).1
      have after : v ∈ eraseDst (liveStmts lc t.term post) u.stmt.dst →
          UsedAfter f v (some ((⟨t.id, pre.length + 1, u.stmt.dst, n⟩ : Frame).after σ)) := by
        intro hlive
        simp only [eraseDst, Finset.mem_sdiff, Option.mem_toFinset] at hlive
        refine ⟨_, _, rfl, by simpa using hlive.2, ?_⟩
        have := liveStmts_sound (σ := σ) post t stored (pre ++ [u]) (by simp [hsplit])
          (fun s hs => by
            obtain ⟨w, hw, hws⟩ := mem_stmtsAll.mp hs
            exact explicit s (hmem w (by simp [hsplit, hw]) s hws)) ih hlive.1
        simpa using this
      refine ih.enter ⟨t.id, pre.length + 1, u.stmt.dst, n⟩ hn after ?_
      intro _ hhead
      have hhead := Finset.mem_sdiff.mp hhead
      refine ⟨_, _, rfl, by simpa using hhead.2, ?_⟩
      rw [hbody]
      have subExplicit := (hv.nested hsplit hns hts hlen).explicit hall
      exact liveSeq_sound sub ((hv.nested hsplit hns hts hlen).stored hs) subExplicit
        (ih.enter ⟨t.id, pre.length + 1, u.stmt.dst, n⟩ hn after fun _ hv => by simp at hv) hhead.1

theorem recordedStmts_split {on : StmtId → Option (Finset VarId)} {lc : LiveCtx} {term : Term} {u : StmtTree}
    {post : List StmtTree} (pre : List StmtTree) (h : RecordedStmts on lc term (pre ++ u :: post)) :
    RecordedStmt on lc (liveStmts lc term post) u := by
  induction pre with
  | nil =>
      simp only [List.nil_append, RecordedStmts] at h
      exact h.1
  | cons t pre ih =>
      simp only [List.cons_append, RecordedStmts] at h
      exact ih h.2

theorem recordedNested_split {on : StmtId → Option (Finset VarId)} {lc : LiveCtx} {after : Finset VarId}
    {n : Nested} {ms : List Nested} {sub : SeqTree} {us : List SeqTree} (ns : List Nested) :
    ∀ ts : List SeqTree, ns.length = ts.length → RecordedNested on lc after (ns ++ n :: ms) (ts ++ sub :: us) →
      RecordedSeq on (enterLive lc after (liveHead lc after n sub) n) sub := by
  induction ns with
  | nil =>
      intro ts hlen h
      obtain rfl : ts = [] := List.eq_nil_of_length_eq_zero hlen.symm
      simp only [List.nil_append, RecordedNested] at h
      exact h.1
  | cons m ns ih =>
      intro ts hlen h
      cases ts with
      | nil => cases hlen
      | cons t ts =>
          simp only [List.cons_append, RecordedNested] at h
          exact ih ts (by simpa using hlen) h.2

theorem Visits.recorded {on : StmtId → Option (Finset VarId)} (hrec : RecordedSeq on .start root) {σ : List Frame}
    {lc : LiveCtx} {t : SeqTree} (h : Visits root σ lc t) : RecordedStmts on lc t.term t.stmts := by
  have seq : ∀ {lc : LiveCtx} {t : SeqTree}, RecordedSeq on lc t → RecordedStmts on lc t.term t.stmts := by
    intro lc t h
    rcases t with ⟨id, term, stmts⟩
    simpa only [RecordedSeq, SeqTree.term, SeqTree.stmts] using h
  induction h with
  | root => exact seq hrec
  | @nested σ lc t sub pre post u n ns ms ts us hv hsplit hns hts hlen ih =>
      apply seq
      rw [hsplit] at ih
      have hu := recordedStmts_split pre ih
      rcases u with ⟨id, stmt, subs⟩
      simp only [RecordedStmt] at hu
      simp only [StmtTree.stmt] at hns
      simp only [StmtTree.subs] at hts
      rw [hns, hts] at hu
      exact recordedNested_split ns ts hlen hu.2

/-- The analysis visits every sequence of the function. -/
theorem Occurs.visited (hentry : f.body = some root.id) (hs : StoresSeq f root) {σ : List Frame} {q : SeqId}
    (h : Occurs f σ q) : ∃ lc t, Visits root σ lc t ∧ t.id = q := by
  induction h with
  | @body b hb =>
      rw [hentry] at hb
      exact ⟨_, root, .root, Option.some.inj hb⟩
  | @nested σ q k s n _ hat hn hrole ih =>
      obtain ⟨lc, t, hv, rfl⟩ := ih
      obtain ⟨pre, u, post, hsplit, rfl, rfl⟩ := stmtAt_split (hv.stored hs) hat
      have hu := (storesSeq_iff.mp (hv.stored hs)).2 u (by simp [hsplit])
      obtain ⟨ns, ms, ts, sub, us, hns, hts, hlen, hbody⟩ := nested_split hu hn
      exact ⟨_, sub, hv.nested hsplit hns hts hlen, hbody.symm⟩

/-- A table recorded by the analysis holds what the paths say. -/
theorem recorded_liveTable (hentry : f.body = some root.id) (hs : StoresSeq f root)
    (hall : ∀ s ∈ root.all, s.Explicit) {on : StmtId → Option (Finset VarId)} (hrec : RecordedSeq on .start root) :
    LiveTable f on := by
  intro σ q seq k id dst value onFail onDefect edge hocc hseq hid hstmt
  obtain ⟨lc, t, hv, rfl⟩ := hocc.visited hentry hs
  have stored := hv.stored hs
  have hat : stmtAt f ⟨t.id, k, σ⟩ = some (.let dst value onFail onDefect edge) := by
    simp [stmtAt, hseq, hid, hstmt]
  obtain ⟨pre, u, post, hsplit, rfl, hu⟩ := stmtAt_split stored hat
  have hid' : u.id = id := by
    rw [(storesSeq_iff.mp stored).1] at hseq
    obtain rfl := Option.some.inj hseq
    simpa [hsplit] using hid
  have hrecorded := hv.recorded hrec
  rw [hsplit] at hrecorded
  have hon := recordedStmts_split pre hrecorded
  refine ⟨liveAfter lc (liveStmts lc t.term post) u.stmt u.subs, ?_, ?_⟩
  · rcases u with ⟨i, stmt, subs⟩
    simp only [StmtTree.stmt] at hu
    simp only [StmtTree.id] at hid'
    subst hu hid'
    simp only [RecordedStmt] at hon
    exact hon.1 dst value onFail onDefect edge rfl
  · intro v
    constructor
    · exact liveAfter_sound stored (hv.explicit hall) (hv.sound hs hall v) hsplit
    · exact liveOn_found hs hall hv hsplit

end Emela.Lir.Arena
