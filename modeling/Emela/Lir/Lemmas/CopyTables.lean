import Emela.Lir.Alpha
import Emela.Lir.Copy
import Emela.Lir.Arena
import Emela.Lir.Lemmas.LiveTree

/-!
# Growing arenas

A copier only adds to the arenas. What they held stays where it was, and what it adds is new.
-/

namespace Emela.Lir.Arena

/-- The arenas of `g` continue those of `f`. -/
structure Continues (f g : Function) : Prop where
  vars : f.vars <+: g.vars
  stmts : f.stmts <+: g.stmts
  seqs : f.seqs <+: g.seqs
  labels : f.labels <+: g.labels

/-- Nothing but the arenas differs. -/
structure Grown (f g : Function) : Prop extends Continues f g where
  header : { g with vars := f.vars, stmts := f.stmts, seqs := f.seqs, labels := f.labels } = f

variable {f g h : Function}

theorem Continues.trans (hfg : Continues f g) (hgh : Continues g h) : Continues f h :=
  ⟨hfg.vars.trans hgh.vars, hfg.stmts.trans hgh.stmts, hfg.seqs.trans hgh.seqs, hfg.labels.trans hgh.labels⟩

theorem Grown.refl (f : Function) : Grown f f :=
  ⟨⟨List.prefix_refl _, List.prefix_refl _, List.prefix_refl _, List.prefix_refl _⟩, rfl⟩

theorem Grown.trans (hfg : Grown f g) (hgh : Grown g h) : Grown f h where
  toContinues := hfg.toContinues.trans hgh.toContinues
  header := by
    have : { h with vars := f.vars, stmts := f.stmts, seqs := f.seqs, labels := f.labels } =
        { { h with vars := g.vars, stmts := g.stmts, seqs := g.seqs, labels := g.labels } with
          vars := f.vars, stmts := f.stmts, seqs := f.seqs, labels := f.labels } := rfl
    rw [this, hgh.header, hfg.header]

theorem prefix_getElem? {α : Type} {l m : List α} (h : l <+: m) {i : Nat} {a : α} (ha : l[i]? = some a) :
    m[i]? = some a := by
  obtain ⟨t, rfl⟩ := h
  obtain ⟨hi, -⟩ := List.getElem?_eq_some_iff.mp ha
  rw [List.getElem?_append_left hi, ha]

theorem Continues.has (hfg : Continues f g) {n : Node} (hn : f.has n) : g.has n := by
  cases n with
  | var v => exact lt_of_lt_of_le hn hfg.vars.length_le
  | label l => exact lt_of_lt_of_le hn hfg.labels.length_le
  | stmt id => exact lt_of_lt_of_le hn hfg.stmts.length_le
  | seq id => exact lt_of_lt_of_le hn hfg.seqs.length_le

/-! ## What the arenas hold -/

mutual

theorem Continues.storesSeq (hfg : Continues f g) : (t : SeqTree) → StoresSeq f t → StoresSeq g t
  | .mk id term stmts, h => by
      simp only [StoresSeq] at h ⊢
      exact ⟨prefix_getElem? hfg.seqs h.1, hfg.storesStmts stmts h.2⟩

theorem Continues.storesStmts (hfg : Continues f g) : (ts : List StmtTree) → StoresStmts f ts → StoresStmts g ts
  | [], _ => by simp only [StoresStmts]
  | t :: ts, h => by
      simp only [StoresStmts] at h ⊢
      exact ⟨hfg.storesStmt t h.1, hfg.storesStmts ts h.2⟩

theorem Continues.storesStmt (hfg : Continues f g) : (t : StmtTree) → StoresStmt f t → StoresStmt g t
  | .mk id stmt subs, h => by
      simp only [StoresStmt] at h ⊢
      exact ⟨prefix_getElem? hfg.stmts h.1, h.2.1, hfg.storesSubs subs h.2.2⟩

theorem Continues.storesSubs (hfg : Continues f g) : (ts : List SeqTree) → StoresSubs f ts → StoresSubs g ts
  | [], _ => by simp only [StoresSubs]
  | t :: ts, h => by
      simp only [StoresSubs] at h ⊢
      exact ⟨hfg.storesSeq t h.1, hfg.storesSubs ts h.2⟩

end

theorem Like.grown (hgh : Continues g h) {m n : Node} (hl : Like f g m n) : Like f h m n := by
  cases m with
  | var x =>
      cases n with
      | var y =>
          obtain ⟨d, hx, hy⟩ := hl
          exact ⟨d, hx, prefix_getElem? hgh.vars hy⟩
      | _ => cases hl
  | label l =>
      cases n with
      | label m =>
          obtain ⟨d, hl, hm⟩ := hl
          exact ⟨d, hl, prefix_getElem? hgh.labels hm⟩
      | _ => cases hl
  | _ => cases n <;> cases hl

theorem likes_grown (hgh : Continues g h) {ms ns : List Node} (hl : List.Forall₂ (Like f g) ms ns) :
    List.Forall₂ (Like f h) ms ns := hl.imp fun _ _ h => h.grown hgh

mutual

theorem alphaSeq_grown (hgh : Continues g h) : (t : SeqTree) → ∀ {Γ : Pairs} {u : SeqTree},
    AlphaSeq f g Γ t u → AlphaSeq f h Γ t u
  | .mk id term stmts => by
      intro ha
      simp only [AlphaSeq] at ha ⊢
      exact alphaStmts_grown hgh stmts ha

theorem alphaStmts_grown (hgh : Continues g h) : (ts : List StmtTree) → ∀ {Γ : Pairs} {term term' : Term}
    {us : List StmtTree}, AlphaStmts f g Γ term term' ts us → AlphaStmts f h Γ term term' ts us
  | [] => by
      intro ha
      simp only [AlphaStmts] at ha ⊢
      exact ha
  | t :: ts => by
      intro ha
      simp only [AlphaStmts] at ha ⊢
      obtain ⟨u, us, rfl, hu, hdst, hus⟩ := ha
      exact ⟨u, us, rfl, alphaStmt_grown hgh t hu, likes_grown hgh hdst, alphaStmts_grown hgh ts hus⟩

theorem alphaStmt_grown (hgh : Continues g h) : (t : StmtTree) → ∀ {Γ : Pairs} {u : StmtTree},
    AlphaStmt f g Γ t u → AlphaStmt f h Γ t u
  | .mk id stmt subs => by
      intro ha
      simp only [AlphaStmt] at ha ⊢
      exact ⟨ha.1, ha.2.1, ha.2.2.1, ha.2.2.2.1, alphaNested_grown hgh subs stmt.nested ha.2.2.2.2⟩

theorem alphaNested_grown (hgh : Continues g h) : (ts : List SeqTree) → (ns : List Nested) → ∀ {Γ : Pairs}
    {ms : List Nested} {us : List SeqTree}, AlphaNested f g Γ ns ts ms us → AlphaNested f h Γ ns ts ms us
  | [], ns => by
      intro ha
      cases ns <;> simpa only [AlphaNested] using ha
  | t :: ts, ns => by
      intro ha
      cases ns with
      | nil => simpa only [AlphaNested] using ha
      | cons n ns =>
          simp only [AlphaNested] at ha ⊢
          obtain ⟨m, ms, u, us, rfl, rfl, hn, hu, hus⟩ := ha
          exact ⟨m, ms, u, us, rfl, rfl, likes_grown hgh hn, alphaSeq_grown hgh t hu,
            alphaNested_grown hgh ts ns hus⟩

end

/-! ## What is new -/

/-- The nodes are in `g` and not in `f`, each once. -/
structure Fresh (f g : Function) (L : List Node) : Prop where
  once : L.Nodup
  isNew : ∀ n ∈ L, ¬ f.has n ∧ g.has n

theorem Fresh.nil (f g : Function) : Fresh f g [] := ⟨List.nodup_nil, by simp⟩

theorem Fresh.append {L M : List Node} (hL : Fresh f g L) (hM : Fresh g h M) (hfg : Grown f g) (hgh : Grown g h) :
    Fresh f h (L ++ M) where
  once := by
    rw [List.nodup_append']
    exact ⟨hL.once, hM.once, fun n hl hm => (hM.isNew n hm).1 (hL.isNew n hl).2⟩
  isNew n hn := by
    rcases List.mem_append.mp hn with hl | hm
    · exact ⟨(hL.isNew n hl).1, hgh.has (hL.isNew n hl).2⟩
    · exact ⟨fun hf => (hM.isNew n hm).1 (hfg.has hf), (hM.isNew n hm).2⟩

/-- Part of a copy: what introduces `L` has been copied as what introduces `M`. -/
structure Copied (T T' : Tables) (L M : List Node) : Prop where
  grown : Grown T.out T'.out
  vars : ∀ x, Node.var x ∉ L → T'.vars x = T.vars x
  labels : ∀ l, Node.label l ∉ L → T'.labels l = T.labels l
  fresh : Fresh T.out T'.out M
  all : ∀ n, T'.out.has n → T.out.has n ∨ n ∈ M

theorem Copied.refl (T : Tables) : Copied T T [] [] :=
  ⟨Grown.refl _, fun _ _ => rfl, fun _ _ => rfl, Fresh.nil _ _, fun _ h => .inl h⟩

theorem Copied.trans {T T' T'' : Tables} {L M L' M' : List Node} (hc : Copied T T' L M) (hc' : Copied T' T'' L' M') :
    Copied T T'' (L ++ L') (M ++ M') where
  grown := hc.grown.trans hc'.grown
  vars x hx := by
    rw [List.mem_append, not_or] at hx
    rw [hc'.vars x hx.2, hc.vars x hx.1]
  labels l hl := by
    rw [List.mem_append, not_or] at hl
    rw [hc'.labels l hl.2, hc.labels l hl.1]
  fresh := hc.fresh.append hc'.fresh hc.grown hc'.grown
  all n hn := by
    rw [List.mem_append]
    rcases hc'.all n hn with hn | hn
    · exact (hc.all n hn).imp_right .inl
    · exact .inr (.inr hn)

/-! ## New variables and labels -/

section
variable {K : Copier} {T : Tables}

theorem Copier.source_grown {T' : Tables} (hs : Grown f (K.source T)) (hg : Grown T.out T'.out) :
    Grown f (K.source T') := by
  cases K with
  | into src => exact hs
  | clone => exact hs.trans hg

def Tables.bindVar (T : Tables) (v : VarId) (d : VarData) : Tables :=
  { T with
    out := { T.out with vars := T.out.vars ++ [d] }
    vars := Function.update T.vars v (some T.out.vars.length) }

def Tables.bindLabel (T : Tables) (l : LabelId) (d : LabelData) : Tables :=
  { T with
    out := { T.out with labels := T.out.labels ++ [d] }
    labels := Function.update T.labels l (some T.out.labels.length) }

theorem fresh_eq {v : VarId} {d : VarData} (hd : (K.source T).vars[v]? = some d) :
    K.fresh v T = some (T.out.vars.length, T.bindVar v d) := by
  have : K.fresh v T = (Walk.get (K.source T).vars[v]? >>= fun d => do
      set (T.bindVar v d)
      pure T.out.vars.length) T := rfl
  rw [this, hd]
  rfl

theorem freshLabel_eq {l : LabelId} {d : LabelData} (hd : (K.source T).labels[l]? = some d) :
    K.freshLabel l T = some (T.out.labels.length, T.bindLabel l d) := by
  have : K.freshLabel l T = (Walk.get (K.source T).labels[l]? >>= fun d => do
      set (T.bindLabel l d)
      pure T.out.labels.length) T := rfl
  rw [this, hd]
  rfl

theorem Tables.bindVar_copied (T : Tables) (v : VarId) (d : VarData) :
    Copied T (T.bindVar v d) [.var v] [.var T.out.vars.length] where
  grown := ⟨⟨List.prefix_append .., List.prefix_refl _, List.prefix_refl _, List.prefix_refl _⟩, rfl⟩
  vars x hx := Function.update_of_ne (by simpa using hx) _ _
  labels _ _ := rfl
  fresh := ⟨List.nodup_singleton _, by simp [Function.has, Tables.bindVar]⟩
  all n := by cases n <;> simp [Function.has, Tables.bindVar, Nat.le_iff_lt_or_eq]

theorem Tables.bindLabel_copied (T : Tables) (l : LabelId) (d : LabelData) :
    Copied T (T.bindLabel l d) [.label l] [.label T.out.labels.length] where
  grown := ⟨⟨List.prefix_refl _, List.prefix_refl _, List.prefix_refl _, List.prefix_append ..⟩, rfl⟩
  vars _ _ := rfl
  labels x hx := Function.update_of_ne (by simpa using hx) _ _
  fresh := ⟨List.nodup_singleton _, by simp [Function.has, Tables.bindLabel]⟩
  all n := by cases n <;> simp [Function.has, Tables.bindLabel, Nat.le_iff_lt_or_eq]

/-- Variables given the next IDs. -/
structure Bound (f : Function) (T T' : Tables) (vs : List VarId) (ns : List VarId) : Prop where
  ids : ns = List.range' T.out.vars.length vs.length
  copied : Copied T T' (vs.map .var) (ns.map .var)
  table : ∀ p ∈ vs.zip ns, T'.vars p.1 = some p.2
  labels : T'.labels = T.labels
  length : T'.out.vars.length = T.out.vars.length + vs.length
  like : List.Forall₂ (Like f T'.out) (vs.map .var) (ns.map .var)

theorem freshAll_run (hs : Grown f (K.source T)) {vs : List VarId} (hin : ∀ v ∈ vs, v < f.vars.length)
    (hnodup : vs.Nodup) : ∃ ns T', vs.mapM K.fresh T = some (ns, T') ∧ Bound f T T' vs ns := by
  induction vs generalizing T with
  | nil => exact ⟨[], T, rfl, rfl, Copied.refl T, by simp, rfl, by simp, .nil⟩
  | cons v vs ih =>
      rw [List.nodup_cons] at hnodup
      obtain ⟨d, hd⟩ : ∃ d, f.vars[v]? = some d := ⟨_, List.getElem?_eq_getElem (hin v (List.mem_cons_self ..))⟩
      have first := T.bindVar_copied v d
      obtain ⟨ns, T', hrun, rest⟩ := ih (K.source_grown hs first.grown) (fun w hw => hin w (List.mem_cons_of_mem _ hw))
        hnodup.2
      have hlen : (T.bindVar v d).out.vars.length = T.out.vars.length + 1 := by simp [Tables.bindVar]
      refine ⟨T.out.vars.length :: ns, T', ?_, ?_, first.trans rest.copied, ?_, rest.labels, ?_, ?_⟩
      · rw [List.mapM_cons, Walk.bind_eq (fresh_eq (prefix_getElem? hs.vars hd)), Walk.bind_eq hrun]
        rfl
      · rw [rest.ids, hlen, List.length_cons, List.range'_succ]
      · intro p hp
        rw [List.zip_cons_cons] at hp
        rcases List.mem_cons.mp hp with rfl | hp
        · rw [rest.copied.vars v (by simpa using hnodup.1)]
          exact Function.update_self ..
        · exact rest.table p hp
      · rw [rest.length, hlen, List.length_cons]
        omega
      · refine .cons ⟨d, hd, ?_⟩ rest.like
        refine prefix_getElem? rest.copied.grown.vars ?_
        simp [Tables.bindVar]

end

end Emela.Lir.Arena
