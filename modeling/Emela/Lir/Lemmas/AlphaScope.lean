import Emela.Lir.Lemmas.CopyRun

/-!
# Scopes of alpha-equivalent code

What is in scope in a piece of code is in scope, under its counterpart's name, in any code that is
alpha-equivalent to it. So the verifier finds nothing to say of a copy.
-/

namespace Emela.Lir.Arena

open Renaming

/-- The names in scope have their counterparts in scope. -/
structure Renamed (Γ : Pairs) (S S' : Scope) : Prop where
  vars : ∀ x y, Matches Γ.vars x y → x ∈ S.vars → y ∈ S'.vars
  labels : ∀ l m, Matches Γ.labels l m → l ∈ S.labels → m ∈ S'.labels
  inLoop : S'.inLoop = S.inLoop
  yields : S'.yields = S.yields

/-! ## What statements without names tell -/

/-- A nested sequence as far as scopes depend on it, without names. -/
def Nested.shape (n : Nested) : Role × Nat × Nat := (n.role, n.binds.length, n.label.toList.length)

theorem Value.blank_shapes (v : Value) : v.blank.nested.map Nested.shape = v.nested.map Nested.shape := by
  cases v <;> simp [Value.blank, Value.nested, Nested.shape]

theorem OnFail.blank_shapes (o : OnFail) : o.blank.nested.map Nested.shape = o.nested.map Nested.shape := by
  cases o <;> simp [OnFail.blank, OnFail.nested, Nested.shape]

theorem Stmt.blank_shapes (s : Stmt) : s.blank.nested.map Nested.shape = s.nested.map Nested.shape := by
  cases s with
  | «let» dst value onFail onDefect onSuspend =>
      simp only [Stmt.blank, Stmt.nested, List.map_append, Value.blank_shapes]
      cases onFail <;> cases onDefect <;> simp [OnFail.blank_shapes, Nested.shape]
  | «switch» dst on cases default =>
      cases default <;> simp [Stmt.blank, Stmt.nested, Nested.shape, Function.comp_def]
  | _ => simp [Stmt.blank, Stmt.nested, Nested.shape]

theorem Stmt.shapes_eq {s u : Stmt} (h : s.blank = u.blank) :
    s.nested.map Nested.shape = u.nested.map Nested.shape := by
  rw [← s.blank_shapes, ← u.blank_shapes, h]

/-- Only an arm is a block. -/
theorem Stmt.nested_label (s : Stmt) : ∀ n ∈ s.nested, n.role ≠ .arm → n.label = none := by
  cases s with
  | «let» dst value onFail onDefect onSuspend =>
      have hvalue : ∀ n ∈ value.nested, n.label = none := by cases value <;> simp [Value.nested]
      have hfail : ∀ o : OnFail, ∀ n ∈ o.nested, n.label = none := by
        intro o
        cases o <;> simp [OnFail.nested]
      intro n hn _
      simp only [Stmt.nested, List.mem_append, List.mem_flatMap, List.mem_map] at hn
      rcases hn with (hn | ⟨o, -, hn⟩) | ⟨body, -, rfl⟩
      · exact hvalue n hn
      · exact hfail o n hn
      · rfl
  | «switch» dst on cases default =>
      intro n hn hrole
      simp only [Stmt.nested, List.mem_append, List.mem_map] at hn
      rcases hn with ⟨_, -, rfl⟩ | ⟨_, -, rfl⟩ <;> rfl
  | block dst label body => simp [Stmt.nested]
  | _ => simp [Stmt.nested]

namespace Renamed

variable {Γ : Pairs} {S S' : Scope}

theorem has (h : Renamed Γ S S') {xs ys : List VarId} (hsame : SameVars Γ xs ys) (hxs : S.has xs) : S'.has ys := by
  induction hsame with
  | nil => simp [Scope.has]
  | cons hxy _ ih =>
      intro v hv
      rcases List.mem_cons.mp hv with rfl | hv
      · exact h.vars _ _ hxy (hxs _ (List.mem_cons_self ..))
      · exact ih (fun w hw => hxs w (List.mem_cons_of_mem _ hw)) v hv

theorem target (h : Renamed Γ S S') {o o' : Option LabelId} (hsame : SameLabels Γ o.toList o'.toList)
    (ho : ∀ l ∈ o, l ∈ S.labels) : ∀ l ∈ o', l ∈ S'.labels := by
  intro m hm
  cases o with
  | none =>
      rw [Option.toList_none, SameLabels, List.forall₂_nil_left_iff] at hsame
      simp_all
  | some l =>
      obtain rfl : o' = some m := hm
      have hlm : Matches Γ.labels l m := by simpa [SameLabels] using hsame
      exact h.labels l m hlm (ho l rfl)

theorem define (h : Renamed Γ S S') {d e : Option VarId} (hlen : d.toList.length = e.toList.length) :
    Renamed (Γ.define d e) (S.define d) (S'.define e) where
  vars x y hxy hx := by
    simp only [Scope.define, Finset.mem_union, Option.mem_toFinset] at hx ⊢
    rcases matches_bind hlen hxy with hy | ⟨hxs, hxy⟩
    · exact .inr (by simpa using hy)
    · rcases hx with hx | hx
      · exact .inl (h.vars x y hxy hx)
      · exact absurd (by simpa using hx) hxs
  labels := h.labels
  inLoop := h.inLoop
  yields := h.yields

theorem enter (h : Renamed Γ S S') {n m : Nested} (hshape : n.shape = m.shape)
    (hn : n.role ≠ .arm → n.label = none) :
    Renamed (Γ.enter n m) (enter S n) (enter S' m) := by
  simp only [Nested.shape, Prod.mk.injEq] at hshape
  obtain ⟨hrole, hbinds, hlabel⟩ := hshape
  have hvars : ∀ x y, Matches (Γ.enter n m).vars x y → x ∈ S.vars ∪ n.binds.toFinset →
      y ∈ S'.vars ∪ m.binds.toFinset := by
    intro x y hxy hx
    simp only [Finset.mem_union, List.mem_toFinset] at hx ⊢
    rcases matches_bind hbinds hxy with hy | ⟨hxs, hxy⟩
    · exact .inr hy
    · exact .inl (h.vars x y hxy (hx.resolve_right hxs))
  have hlabels : ∀ l l', Matches (Γ.enter n m).labels l l' → l ∈ S.labels ∪ n.label.toFinset →
      l' ∈ S'.labels ∪ m.label.toFinset := by
    intro l l' hl hmem
    simp only [Finset.mem_union, Option.mem_toFinset] at hmem ⊢
    rcases matches_bind hlabel hl with hm | ⟨hn, hl⟩
    · exact .inr (by simpa using hm)
    · exact .inl (h.labels l l' hl (hmem.resolve_right (by simpa using hn)))
  have hunder : n.role ≠ .arm → ∀ l l', Matches (Γ.enter n m).labels l l' → l ∈ S.labels → l' ∈ S'.labels := by
    intro hne l l' hl hmem
    have hm : m.label = none := by simpa [hn hne] using hlabel.symm
    have := hlabels l l' hl (Finset.mem_union_left _ hmem)
    simpa [hm] using this
  cases hcase : n.role with
  | arm =>
      simp only [Arena.enter, ← hrole, hcase]
      exact ⟨hvars, hlabels, h.inLoop, rfl⟩
  | loop =>
      simp only [Arena.enter, ← hrole, hcase]
      exact ⟨hvars, hunder (by simp [hcase]), rfl, rfl⟩
  | landing =>
      simp only [Arena.enter, ← hrole, hcase]
      exact ⟨hvars, hunder (by simp [hcase]), h.inLoop, rfl⟩
  | protect =>
      simp only [Arena.enter, ← hrole, hcase]
      exact ⟨hvars, hunder (by simp [hcase]), rfl, rfl⟩
  | cleanup =>
      simp only [Arena.enter, ← hrole, hcase]
      exact ⟨hvars, fun l m _ hl => absurd hl (Finset.notMem_empty l), rfl, rfl⟩
  | closure =>
      simp only [Arena.enter, ← hrole, hcase]
      exact ⟨hvars, fun l m _ hl => absurd hl (Finset.notMem_empty l), rfl, rfl⟩

/-- A terminator. -/
theorem term (h : Renamed Γ S S') {t u : Term} (hblank : t.blank = u.blank) (huses : SameVars Γ t.uses u.uses)
    (htarget : SameLabels Γ t.target.toList u.target.toList) (ht : ScopedTerm S t) : ScopedTerm S' u := by
  refine ⟨h.has huses ht.1, h.target htarget ht.2.1, ?_⟩
  have hscope := ht.2.2
  cases t with
  | yield v =>
      cases u with
      | yield w => exact h.yields.trans hscope
      | _ => cases hblank
  | recur args =>
      cases u with
      | recur args' => exact h.inLoop.trans hscope
      | _ => cases hblank
  | _ => cases u <;> trivial

end Renamed

/-! ## The code -/

section
variable (f g : Function)

mutual

theorem alpha_scopedSeq : (t : SeqTree) → ∀ {Γ : Pairs} {S S' : Scope} (u : SeqTree), AlphaSeq f g Γ t u →
    Renamed Γ S S' → ScopedSeq S t → ScopedSeq S' u
  | .mk id term stmts => by
      intro u ha h hs
      rcases u with ⟨id', term', stmts'⟩
      simp only [AlphaSeq, SeqTree.term, SeqTree.stmts] at ha
      simp only [ScopedSeq] at hs ⊢
      exact alpha_scopedStmts stmts ha h hs

theorem alpha_scopedStmts : (ts : List StmtTree) → ∀ {Γ : Pairs} {S S' : Scope} {term term' : Term}
    {us : List StmtTree}, AlphaStmts f g Γ term term' ts us → Renamed Γ S S' → ScopedStmts S term ts →
    ScopedStmts S' term' us
  | [] => by
      intro ha h hs
      simp only [AlphaStmts] at ha
      obtain ⟨rfl, hblank, huses, htarget⟩ := ha
      simp only [ScopedStmts] at hs ⊢
      exact h.term hblank huses htarget hs
  | t :: ts => by
      intro ha h hs
      simp only [AlphaStmts] at ha
      obtain ⟨u, us, rfl, hu, hdst, hus⟩ := ha
      simp only [ScopedStmts] at hs ⊢
      exact ⟨alpha_scopedStmt t u hu h hs.1, alpha_scopedStmts ts hus (h.define (by simpa using hdst.length_eq)) hs.2⟩

theorem alpha_scopedStmt : (t : StmtTree) → ∀ {Γ : Pairs} {S S' : Scope} (u : StmtTree), AlphaStmt f g Γ t u →
    Renamed Γ S S' → ScopedStmt S t → ScopedStmt S' u
  | .mk id stmt subs => by
      intro u ha h hs
      rcases u with ⟨id', stmt', subs'⟩
      simp only [AlphaStmt, StmtTree.stmt, StmtTree.subs] at ha
      obtain ⟨hblank, hreads, hsaved, htarget, hnested⟩ := ha
      simp only [ScopedStmt] at hs ⊢
      exact ⟨h.has hreads hs.1, h.has hsaved hs.2.1, h.target htarget hs.2.2.1,
        alpha_scopedNested subs stmt.nested stmt'.nested hnested (Stmt.shapes_eq hblank) stmt.nested_label h
          hs.2.2.2⟩

theorem alpha_scopedNested : (ts : List SeqTree) → (ns ms : List Nested) → ∀ {Γ : Pairs} {S S' : Scope}
    {us : List SeqTree}, AlphaNested f g Γ ns ts ms us → ns.map Nested.shape = ms.map Nested.shape →
    (∀ n ∈ ns, n.role ≠ .arm → n.label = none) → Renamed Γ S S' → ScopedNested S ns ts → ScopedNested S' ms us
  | [], ns, ms => by
      intro ha _ _ _ _
      cases ns <;> (simp only [AlphaNested] at ha; obtain ⟨-, -, rfl, rfl⟩ := ha; simp only [ScopedNested])
  | t :: ts, ns, ms => by
      intro ha hshapes hlabel h hs
      cases ns with
      | nil => simp [AlphaNested] at ha
      | cons n ns =>
          simp only [AlphaNested] at ha
          obtain ⟨m, ms, u, us, rfl, rfl, -, hu, hus⟩ := ha
          simp only [List.map_cons, List.cons.injEq] at hshapes
          simp only [ScopedNested] at hs ⊢
          exact ⟨alpha_scopedSeq t u hu (h.enter hshapes.1 (hlabel n (List.mem_cons_self ..))) hs.1,
            alpha_scopedNested ts ns ms hus hshapes.2 (fun n hn => hlabel n (List.mem_cons_of_mem _ hn)) h hs.2⟩

end

end

end Emela.Lir.Arena
