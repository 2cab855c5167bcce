import Emela.Match.Lemmas.Specialize

/-!
# How often bodies are lowered

Each row ends in at most one branch of a tree, so the body of an arm is in the code at most as often as
the arm is among the rows. Nothing is assumed of the rows here.
-/

namespace Emela.Match

open Lir (VarId EnumId CtorRef LabelId Const)

variable {Expr : Type}

/-- What the lowering has is still there. -/
structure Grown (s s' : Lower Expr) : Prop where
  vars : s.vars <+: s'.vars
  cache : s.cache <+: s'.cache
  stmts : s.stmts <+: s'.stmts

theorem Grown.refl (s : Lower Expr) : Grown s s := ⟨List.prefix_refl _, List.prefix_refl _, List.prefix_refl _⟩

theorem Grown.trans {s s' s'' : Lower Expr} (h : Grown s s') (h' : Grown s' s'') : Grown s s'' :=
  ⟨h.vars.trans h'.vars, h.cache.trans h'.cache, h.stmts.trans h'.stmts⟩

theorem stmtsBodies_append (a b : List (Stmt Expr)) : stmtsBodies (a ++ b) = stmtsBodies a ++ stmtsBodies b := by
  induction a with
  | nil => rfl
  | cons stmt a ih => simp only [List.cons_append, stmtsBodies, ih, List.append_assoc]

/-- Statements are added that hold the body of arm `i` at most `n i` times. -/
structure Adds (n : Nat → Nat) (s s' : Lower Expr) : Prop where
  grown : Grown s s'
  count : ∀ i, (stmtsBodies s'.stmts).count i ≤ (stmtsBodies s.stmts).count i + n i

/-- Statements without bodies are added. -/
abbrev Reads (s s' : Lower Expr) : Prop := Adds (fun _ => 0) s s'

section
variable {m n : Nat → Nat} {s s' s'' : Lower Expr}

theorem Reads.refl (s : Lower Expr) : Reads s s := ⟨.refl s, fun _ => Nat.le_refl _⟩

theorem Adds.trans (h : Adds m s s') (h' : Adds n s' s'') : Adds (fun i => m i + n i) s s'' where
  grown := h.grown.trans h'.grown
  count i := by
    have := h.count i
    have := h'.count i
    omega

theorem Adds.mono (h : Adds m s s') (hn : ∀ i, m i ≤ n i) : Adds n s s' :=
  ⟨h.grown, fun i => Nat.le_trans (h.count i) (Nat.add_le_add_left (hn i) _)⟩

theorem Reads.adds (h : Reads s s') (h' : Adds n s' s'') : Adds n s s'' :=
  (h.trans h').mono fun _ => Nat.le_of_eq (Nat.zero_add _)

theorem Reads.trans (h : Reads s s') (h' : Reads s' s'') : Reads s s'' := h.adds h'

theorem push_adds (s : Lower Expr) (stmt : Stmt Expr) : Adds (fun i => (stmtBodies stmt).count i) s (s.push stmt) where
  grown := ⟨List.prefix_refl _, List.prefix_refl _, List.prefix_append _ _⟩
  count i := by
    simp [Lower.push, stmtsBodies_append, stmtsBodies]

theorem var_reads (s : Lower Expr) (ty : Ty) : Reads s (s.var ty).2 :=
  ⟨⟨List.prefix_append _ _, List.prefix_refl _, List.prefix_refl _⟩, fun _ => Nat.le_refl _⟩

theorem assign_reads (s : Lower Expr) (ty : Ty) (value : Lir.Value) : Reads s (s.assign ty value).2 :=
  (var_reads s ty).trans ((push_adds _ (.let _ value)).mono fun _ => Nat.le_refl _)

theorem error_reads (s : Lower Expr) (message : String) : Reads s (s.error message) :=
  ⟨⟨List.prefix_refl _, List.prefix_refl _, List.prefix_refl _⟩, fun _ => Nat.le_refl _⟩

theorem read_reads (s : Lower Expr) (key : Key) (ty : Ty) (value : Lir.Value) : Reads s (s.read key ty value).2 := by
  unfold Lower.read
  split
  · exact .refl s
  · split
    · exact .refl s
    · refine (assign_reads s ty value).trans ⟨⟨List.prefix_refl _, List.prefix_append _ _, List.prefix_refl _⟩, ?_⟩
      exact fun _ => Nat.le_refl _

end

/-! ## Rows -/

mutual

theorem normalizePat_reads (p : Pat) (s : Lower Expr) (occ : Occ) (row : Row) :
    (normalizePat s occ row p).1.arm = row.arm ∧ Reads s (normalizePat s occ row p).2 := by
  cases p with
  | wild | bind | ctor => exact ⟨rfl, .refl s⟩
  | lit l => cases l <;> exact ⟨rfl, .refl s⟩
  | tuple ps =>
      rw [normalizePat]
      split
      · exact normalizeElems_reads ps s occ _ 0 row
      · exact ⟨rfl, error_reads s _⟩
  | list elems rest =>
      rw [normalizePat]
      exact normalizeList_reads rest s occ row elems

theorem normalizeElems_reads (ps : List Pat) (s : Lower Expr) (occ : Occ) (ts : List Ty) (i : Nat) (row : Row) :
    (normalizeElems s occ ts i row ps).1.arm = row.arm ∧ Reads s (normalizeElems s occ ts i row ps).2 := by
  cases ps with
  | nil => exact ⟨rfl, .refl s⟩
  | cons p ps =>
      by_cases hwild : p = .wild
      · subst hwild
        rw [normalizeElems]
        exact normalizeElems_reads ps s occ ts (i + 1) row
      · rw [normalizeElems_cons _ _ _ _ _ hwild]
        have hread : Reads s (occ.var.elim (none, s) fun base =>
            s.read (.tuple base i) (ts.getD i .never) (.tupleGet base i)).2 := by
          cases occ.var with
          | none => exact .refl s
          | some base => exact read_reads s _ _ _
        obtain ⟨harm, hp⟩ := normalizePat_reads p _ ⟨_, ts.getD i .never⟩ row
        obtain ⟨harm', hps⟩ := normalizeElems_reads ps _ occ ts (i + 1) _
        exact ⟨harm'.trans harm, (hread.trans hp).trans hps⟩

theorem normalizeList_reads (rest : Option Pat) (s : Lower Expr) (occ : Occ) (row : Row) (elems : List Pat) :
    (normalizeList s occ row elems rest).1.arm = row.arm ∧ Reads s (normalizeList s occ row elems rest).2 := by
  cases rest with
  | none => exact ⟨rfl, .refl s⟩
  | some r =>
      rw [normalizeList]
      split
      · exact normalizePat_reads r s occ row
      · exact ⟨rfl, .refl s⟩

end

theorem normalizeTests_reads (tests : List (Occ × PatRef)) (s : Lower Expr) (row : Row) :
    (tests.foldl (fun (row, s) (occ, p) => normalize s occ p row) (row, s)).1.arm = row.arm ∧
      Reads s (tests.foldl (fun (row, s) (occ, p) => normalize s occ p row) (row, s)).2 := by
  induction tests generalizing s row with
  | nil => exact ⟨rfl, .refl s⟩
  | cons t tests ih =>
      obtain ⟨occ, p⟩ := t
      have h : (normalize s occ p row).1.arm = row.arm ∧ Reads s (normalize s occ p row).2 := by
        cases p with
        | pat p => exact normalizePat_reads p s occ row
        | list elems rest => exact normalizeList_reads rest s occ row elems
      obtain ⟨harm, hreads⟩ := ih (normalize s occ p row).2 (normalize s occ p row).1
      exact ⟨harm.trans h.1, h.2.trans hreads⟩

theorem normalizeRows_reads (rows : List Row) (s : Lower Expr) :
    (normalizeRows s rows).1.map Row.arm = rows.map Row.arm ∧ Reads s (normalizeRows s rows).2 := by
  induction rows generalizing s with
  | nil => exact ⟨rfl, .refl s⟩
  | cons row rows ih =>
      obtain ⟨harm, hrow⟩ := normalizeTests_reads row.tests s { row with tests := [] }
      obtain ⟨harms, hrows⟩ := ih (normalizeRow s row).2
      exact ⟨List.cons_eq_cons.mpr ⟨harm, harms⟩, hrow.trans hrows⟩

theorem fieldTests_reads (ps : List Pat) (s : Lower Expr) (v : VarId) (ctor : CtorRef) (tys : List Ty) (i : Nat) :
    Reads s (fieldTests s v ctor tys i ps).2 := by
  induction ps generalizing s i with
  | nil => exact .refl s
  | cons p ps ih =>
      by_cases hwild : p = .wild
      · subst hwild
        exact ih s (i + 1)
      · rw [fieldTests_cons _ _ _ _ _ hwild]
        exact (read_reads s _ _ _).trans (ih _ (i + 1))

theorem takeTest_arm {row left : Row} {v : VarId} {p : PatRef} (h : takeTest row v = some (p, left)) :
    left.arm = row.arm := by
  obtain ⟨i, _, h⟩ := Option.bind_eq_some_iff.mp h
  obtain ⟨t, _, h⟩ := Option.map_eq_some_iff.mp h
  cases h
  rfl

theorem dropTest_arm (row : Row) (v : VarId) : (dropTest row v).arm = row.arm := by
  unfold dropTest
  cases h : takeTest row v with
  | none => rfl
  | some t => exact takeTest_arm h

theorem specializeCtor_reads (core : Core) (s : Lower Expr) (v : VarId) (ctor : CtorRef) (args : List Ty) (row : Row) :
    (specializeCtor core s v ctor args row).1.arm = row.arm ∧ Reads s (specializeCtor core s v ctor args row).2 := by
  unfold specializeCtor
  split
  · rename_i h
    have harm := takeTest_arm h
    exact ⟨harm, fieldTests_reads _ _ _ _ _ _⟩
  · rename_i h
    exact ⟨takeTest_arm h, .refl s⟩
  · exact ⟨rfl, .refl s⟩

theorem specializeRows_reads (core : Core) (rows : List Row) (s : Lower Expr) (v : VarId) (ctor : CtorRef)
    (args : List Ty) :
    (specializeRows core s v ctor args rows).1.map Row.arm = rows.map Row.arm ∧
      Reads s (specializeRows core s v ctor args rows).2 := by
  induction rows generalizing s with
  | nil => exact ⟨rfl, .refl s⟩
  | cons row rows ih =>
      obtain ⟨harm, hrow⟩ := specializeCtor_reads core s v ctor args row
      obtain ⟨harms, hrows⟩ := ih (specializeCtor core s v ctor args row).2
      exact ⟨List.cons_eq_cons.mpr ⟨harm, harms⟩, hrow.trans hrows⟩

/-- Whether the row tests `v` for a list with an element. -/
def isConsTest (v : VarId) (row : Row) : Bool :=
  match row.testOn v with
  | some (.list (_ :: _) _) => true
  | _ => false

theorem consRows_reads (rows : List Row) (s : Lower Expr) (v : VarId) (elem : Ty) :
    (consRows s v elem rows).1.map Row.arm = (rows.filter (isConsTest v)).map Row.arm ∧
      Reads s (consRows s v elem rows).2 := by
  induction rows generalizing s with
  | nil => exact ⟨rfl, .refl s⟩
  | cons row rows ih =>
      unfold consRows
      split
      · rename_i first more rest hp
        rw [List.filter_cons_of_pos (by simp [isConsTest, hp])]
        obtain ⟨harms, hrows⟩ := ih ((s.read (.head v) elem (.listHead v)).2.read (.tail v) (.list elem) (.listTail v)).2
        exact ⟨List.cons_eq_cons.mpr ⟨dropTest_arm row v, harms⟩, ((read_reads s _ _ _).trans (read_reads _ _ _ _)).trans hrows⟩
      · rename_i hp
        have : isConsTest v row = false := by
          unfold isConsTest
          split
          · rename_i h
            exact absurd h (hp _ _ _)
          · rfl
        rw [List.filter_cons_of_neg (by simp [this])]
        exact ih s

/-! ## Rows that go to one case each -/

/-- How many of the rows are of the arm. -/
def armCount (i : Nat) (rows : List Row) : Nat := (rows.map Row.arm).count i

theorem armCount_append (i : Nat) (rows rows' : List Row) :
    armCount i (rows ++ rows') = armCount i rows + armCount i rows' := by
  simp [armCount]

theorem armCount_cons (i : Nat) (row : Row) (rows : List Row) :
    armCount i (row :: rows) = armCount i rows + if row.arm = i then 1 else 0 := by
  simp [armCount, List.count_cons]

theorem sum_ite_le_one {κ : Type} {p : κ → Bool} {keys : List κ}
    (h : keys.Pairwise fun a b => p a = true → p b = false) : (keys.map fun k => if p k then 1 else 0).sum ≤ 1 := by
  induction keys with
  | nil => simp
  | cons a keys ih =>
      rw [List.pairwise_cons] at h
      rw [List.map_cons, List.sum_cons]
      cases ha : p a with
      | false => simpa using ih h.2
      | true =>
          have : keys.map (fun k => if p k then 1 else 0) = keys.map fun _ => 0 :=
            List.map_congr_left fun b hb => by simp [h.1 b hb ha]
          simp [this]

/-- Rows that are selected by at most one key each are counted at most once. -/
theorem sum_armCount_le {κ : Type} (sel : κ → Row → Bool) (keys : List κ) (i : Nat) (rows : List Row)
    (h : keys.Pairwise fun a b => ∀ row, sel a row = true → sel b row = false) :
    (keys.map fun k => armCount i (rows.filter (sel k))).sum ≤ armCount i rows := by
  induction rows with
  | nil => simp [armCount]
  | cons row rows ih =>
      have hrow : ∀ k, armCount i ((row :: rows).filter (sel k)) =
          armCount i (rows.filter (sel k)) + if sel k row && row.arm == i then 1 else 0 := by
        intro k
        cases hk : sel k row <;> simp [hk, armCount_cons]
      have hone : (keys.map fun k => if sel k row && row.arm == i then 1 else 0).sum ≤ if row.arm = i then 1 else 0 := by
        by_cases harm : row.arm = i
        · simpa [harm] using sum_ite_le_one (h.imp fun hab => hab row)
        · simp [harm]
      rw [armCount_cons]
      simp only [hrow, List.sum_map_add]
      omega

theorem constEq_symm {a b : Const} (h : constEq a b = true) : constEq b a = true := by
  cases a <;> cases b <;> simp only [constEq, beq_iff_eq, Bool.false_eq_true] at h ⊢
  case float.float => exact F64.eq_symm h
  all_goals exact h.symm

theorem constEq_trans {a b c : Const} (h : constEq a b = true) (h' : constEq b c = true) : constEq a c = true := by
  cases a <;> cases b <;> simp only [constEq, Bool.false_eq_true] at h
  all_goals cases c <;> simp only [constEq, beq_iff_eq, Bool.false_eq_true] at h h' ⊢
  case float.float.float => exact F64.eq_trans h h'
  all_goals exact h.trans h'

/-- The literals of the rows are all different. -/
theorem litsOf_pairwise (v : VarId) (rows : List Row) :
    (litsOf v rows).Pairwise fun a b => constEq a b = false := by
  suffices ∀ consts lits : List Const, lits.Pairwise (fun a b => constEq a b = false) →
      (consts.foldl (fun lits c => if lits.any (constEq · c) then lits else lits ++ [c]) lits).Pairwise
        fun a b => constEq a b = false from this _ [] .nil
  intro consts
  induction consts with
  | nil => exact fun _ h => h
  | cons c consts ih =>
      intro lits h
      refine ih _ ?_
      beta_reduce
      split
      · exact h
      · rename_i hany
        rw [List.pairwise_append]
        refine ⟨h, by simp, ?_⟩
        intro a ha b hb
        cases List.mem_singleton.mp hb
        simp only [List.any_eq_true, not_exists, not_and, Bool.not_eq_true] at hany
        exact hany a ha

theorem litRows_pairwise (v : VarId) (rows : List Row) :
    (litsOf v rows).Pairwise fun a b => ∀ row : Row,
      (litOf v row).any (constEq · a) = true → (litOf v row).any (constEq · b) = false := by
  refine (litsOf_pairwise v rows).imp fun {a b} hab row ha => ?_
  cases hlit : litOf v row with
  | none => rfl
  | some c =>
      rw [hlit] at ha
      by_contra hb
      have := constEq_trans (constEq_symm ha) (Bool.of_not_eq_false hb)
      rw [hab] at this
      cases this

theorem variants_pairwise {ks : List Nat} (h : ks.Nodup) (v : VarId) :
    ks.Pairwise fun a b => ∀ row, (variantOf v row == some a) = true → (variantOf v row == some b) = false := by
  refine h.imp fun {a b} hab row ha => ?_
  rw [beq_iff_eq] at ha
  simpa [ha] using hab

/-! ## Trees -/

/-- A tree is added whose bodies are those of the rows, each at most once. -/
structure Tree (rows : List Row) (s : Lower Expr) (r : Term Expr × Lower Expr) : Prop where
  grown : Grown s r.2
  count : ∀ i, (stmtsBodies r.2.stmts).count i + (termBodies r.1).count i ≤
    (stmtsBodies s.stmts).count i + armCount i rows

/-- A nested sequence has been built. -/
structure Nested (s s' : Lower Expr) : Prop where
  vars : s.vars <+: s'.vars
  cache : s'.cache = s.cache
  stmts : s'.stmts = s.stmts

section
variable {s s' s'' : Lower Expr} {rows rows' : List Row} {r : Term Expr × Lower Expr} {n : Nat → Nat}

theorem Nested.refl (s : Lower Expr) : Nested s s := ⟨List.prefix_refl _, rfl, rfl⟩

theorem Nested.trans (h : Nested s s') (h' : Nested s' s'') : Nested s s'' :=
  ⟨h.vars.trans h'.vars, h'.cache.trans h.cache, h'.stmts.trans h.stmts⟩

theorem Nested.reads (h : Nested s s') : Reads s s' where
  grown := ⟨h.vars, h.cache ▸ List.prefix_refl _, h.stmts ▸ List.prefix_refl _⟩
  count i := by rw [h.stmts, Nat.add_zero]

theorem nested_nested {act : Lower Expr → Term Expr × Lower Expr} (h : Grown { s with stmts := [] } (act { s with stmts := [] }).2) :
    Nested s (s.nested act).2 where
  vars := h.vars
  cache := by
    obtain ⟨more, hmore⟩ := h.cache
    simp only [Lower.nested, ← hmore, List.take_left]
  stmts := rfl

theorem nested_count {act : Lower Expr → Term Expr × Lower Expr} (h : Tree rows { s with stmts := [] } (act { s with stmts := [] }))
    (i : Nat) : (seqBodies (s.nested act).1).count i ≤ armCount i rows := by
  have := h.count i
  simp only [stmtsBodies, List.count_nil, Nat.zero_add] at this
  simpa [Lower.nested, seqBodies] using this

/-- What is read before a tree, and the rows it is for. -/
theorem Tree.after (h : Reads s s') (harms : ∀ i, armCount i rows' ≤ armCount i rows) (tree : Tree rows' s' r) :
    Tree rows s r where
  grown := h.grown.trans tree.grown
  count i := by
    have := h.count i
    have := harms i
    have := tree.count i
    omega

theorem termBodies_failExit (fail : Option LabelId) : termBodies (failExit fail : Term Expr) = [] := by
  cases fail <;> rfl

/-- Statements that hold the bodies of the rows, and nothing after them. -/
theorem Adds.tree (h : Adds n s s') (hn : ∀ i, n i ≤ armCount i rows) {term : Term Expr} (hterm : termBodies term = []) :
    Tree rows s (term, s') where
  grown := h.grown
  count i := by
    have := h.count i
    have := hn i
    simp only [hterm, List.count_nil]
    omega

end

/-! ## The tree of `compile` -/

section
variable {core : Core} {compile : List Row → Option LabelId → Lower Expr → Term Expr × Lower Expr}

/-- The tree of the rows with constructor `k`. -/
def ctorTree (core : Core) (compile : List Row → Option LabelId → Lower Expr → Term Expr × Lower Expr) (v : VarId)
    (id : EnumId) (args : List Ty) (rows : List Row) (fail : Option LabelId) (k : Nat) (s : Lower Expr) :
    Term Expr × Lower Expr :=
  let r := specializeRows core s v ⟨id, k⟩ args (rows.filter fun row => variantOf v row == some k)
  compile r.1 fail r.2

theorem enumCases_cons (v : VarId) (id : EnumId) (args : List Ty) (rows : List Row) (fail : Option LabelId) (k : Nat)
    (ks : List Nat) (s : Lower Expr) :
    enumCases core compile v id args rows fail (k :: ks) s =
      let body := s.nested (ctorTree core compile v id args rows fail k)
      let cases := enumCases core compile v id args rows fail ks body.2
      ((.variant k, body.1) :: cases.1, cases.2) := rfl

theorem ctorTree_tree (core : Core) (hrec : ∀ rows fail s, Tree rows s (compile rows fail s)) (v : VarId) (id : EnumId)
    (args : List Ty) (rows : List Row) (fail : Option LabelId) (k : Nat) (s : Lower Expr) :
    Tree (rows.filter fun row => variantOf v row == some k) s (ctorTree core compile v id args rows fail k s) := by
  obtain ⟨harms, hreads⟩ :=
    specializeRows_reads core (rows.filter fun row => variantOf v row == some k) s v ⟨id, k⟩ args
  exact .after hreads (fun i => by rw [armCount, harms]; rfl) (hrec _ _ _)

theorem enumCases_bodies (hrec : ∀ rows fail s, Tree rows s (compile rows fail s)) (v : VarId) (id : EnumId)
    (args : List Ty) (rows : List Row) (fail : Option LabelId) (ks : List Nat) (s : Lower Expr) :
    Nested s (enumCases core compile v id args rows fail ks s).2 ∧
      ∀ i, (casesBodies (enumCases core compile v id args rows fail ks s).1).count i ≤
        (ks.map fun k => armCount i (rows.filter fun row => variantOf v row == some k)).sum := by
  induction ks generalizing s with
  | nil => exact ⟨.refl s, fun i => by simp [enumCases, casesBodies]⟩
  | cons k ks ih =>
      have tree := ctorTree_tree core hrec v id args rows fail k { s with stmts := [] }
      obtain ⟨hnested, hcount⟩ := ih (s.nested (ctorTree core compile v id args rows fail k)).2
      rw [enumCases_cons]
      refine ⟨(nested_nested tree.grown).trans hnested, fun i => ?_⟩
      have := hcount i
      have := nested_count tree i
      simp only [casesBodies, List.count_append, List.map_cons, List.sum_cons]
      omega

theorem litRows_arms (v : VarId) (lit : Const) (rows : List Row) (i : Nat) :
    armCount i (litRows v lit rows) = armCount i (rows.filter fun row => (litOf v row).any (constEq · lit)) := by
  simp only [armCount, litRows, List.map_map]
  congr 2
  funext row
  exact dropTest_arm row v

theorem litCases_bodies (hrec : ∀ rows fail s, Tree rows s (compile rows fail s)) (v : VarId) (rows : List Row)
    (fail : Option LabelId) (lits : List Const) (s : Lower Expr) :
    Nested s (litCases compile v rows fail lits s).2 ∧
      ∀ i, (casesBodies (litCases compile v rows fail lits s).1).count i ≤
        (lits.map fun lit => armCount i (litRows v lit rows)).sum := by
  induction lits generalizing s with
  | nil => exact ⟨.refl s, fun i => by simp [litCases, casesBodies]⟩
  | cons lit lits ih =>
      rw [litCases]
      have tree := hrec (litRows v lit rows) fail { s with stmts := [] }
      obtain ⟨hnested, hcount⟩ := ih (s.nested (compile (litRows v lit rows) fail)).2
      refine ⟨(nested_nested tree.grown).trans hnested, fun i => ?_⟩
      have := hcount i
      have := nested_count tree i
      simp only [casesBodies, List.count_append, List.map_cons, List.sum_cons]
      omega

theorem stmtBodies_if_empty (c : VarId) (then_ : Seq Expr) : stmtBodies (.if c then_ emptySeq) = seqBodies then_ := by
  simp [stmtBodies, emptySeq, seqBodies, stmtsBodies, termBodies]

theorem litTests_bodies (hrec : ∀ rows fail s, Tree rows s (compile rows fail s)) (v : VarId) (pty : Lir.PrimTy)
    (rows : List Row) (fail : Option LabelId) (lits : List Const) (s : Lower Expr) :
    Adds (fun i => (lits.map fun lit => armCount i (litRows v lit rows)).sum) s
      (litTests compile v pty rows fail lits s) := by
  induction lits generalizing s with
  | nil => exact Reads.refl s
  | cons lit lits ih =>
      rw [litTests]
      let s₁ := (s.assign .bool (.prim .eq pty [.var v, .const lit])).2
      have tree := hrec (litRows v lit rows) fail { s₁ with stmts := [] }
      have hbefore := (assign_reads s .bool (.prim .eq pty [.var v, .const lit])).trans (nested_nested tree.grown).reads
      refine (hbefore.adds ((push_adds _ _).trans (ih _))).mono fun i => ?_
      have := nested_count tree i
      rw [stmtBodies_if_empty, List.map_cons, List.sum_cons]
      exact Nat.add_le_add_right this _

theorem filter_drop_arms (v : VarId) (sel : Row → Bool) (rows : List Row) (i : Nat) :
    armCount i ((rows.filter sel).map (dropTest · v)) = armCount i (rows.filter sel) := by
  simp only [armCount, List.map_map]
  congr 2
  funext row
  exact dropTest_arm row v

/-- Two branches for rows that go to one of them. -/
theorem armCount_two {sel sel' : Row → Bool} (h : ∀ row, sel row = true → sel' row = false) (i : Nat) (rows : List Row) :
    armCount i (rows.filter sel) + armCount i (rows.filter sel') ≤ armCount i rows := by
  have := sum_armCount_le (fun b => cond b sel sel') [true, false] i rows (by simpa using h)
  simpa using this

theorem if_tree {then_ else_ : Seq Expr} {s s' : Lower Expr} {rows rows₁ rows₂ : List Row} {c : VarId} {term : Term Expr}
    (h : Reads s s') (hthen : ∀ i, (seqBodies then_).count i ≤ armCount i rows₁)
    (helse : ∀ i, (seqBodies else_).count i ≤ armCount i rows₂)
    (hrows : ∀ i, armCount i rows₁ + armCount i rows₂ ≤ armCount i rows) (hterm : termBodies term = []) :
    Tree rows s (term, s'.push (.if c then_ else_)) := by
  refine (h.adds (push_adds s' _)).tree (fun i => ?_) hterm
  have := hthen i
  have := helse i
  have := hrows i
  simp only [stmtBodies, List.count_append]
  omega

/-- The tree of the rows for lists with an element. -/
def consTree (compile : List Row → Option LabelId → Lower Expr → Term Expr × Lower Expr) (v : VarId) (elem : Ty)
    (rows : List Row) (fail : Option LabelId) (s : Lower Expr) : Term Expr × Lower Expr :=
  compile (consRows s v elem rows).1 fail (consRows s v elem rows).2

theorem consTree_tree (hrec : ∀ rows fail s, Tree rows s (compile rows fail s)) (v : VarId) (elem : Ty)
    (rows : List Row) (fail : Option LabelId) (s : Lower Expr) :
    Tree (rows.filter (isConsTest v)) s (consTree compile v elem rows fail s) := by
  obtain ⟨harms, hreads⟩ := consRows_reads rows s v elem
  exact .after hreads (fun i => by rw [armCount, harms]; rfl) (hrec _ _ _)

theorem switchOn_bool (v : VarId) (rows : List Row) (fail : Option LabelId) (s : Lower Expr) :
    switchOn core compile v .bool rows fail s =
      let then_ := s.nested (compile (boolRows v true rows) fail)
      let else_ := then_.2.nested (compile (boolRows v false rows) fail)
      (.unreachable, else_.2.push (.if v then_.1 else_.1)) := rfl

theorem switchOn_list (v : VarId) (elem : Ty) (rows : List Row) (fail : Option LabelId) (s : Lower Expr) :
    switchOn core compile v (.list elem) rows fail s =
      let empty := s.assign .bool (.listIsEmpty v)
      let then_ := empty.2.nested (compile ((rows.filter (isEmptyTest v)).map (dropTest · v)) fail)
      let else_ := then_.2.nested (consTree compile v elem rows fail)
      (.unreachable, else_.2.push (.if empty.1 then_.1 else_.1)) := rfl

theorem boolRows_sel (v : VarId) (b : Bool) : ∃ sel : Row → Bool, (∀ rows, boolRows v b rows = (rows.filter sel).map (dropTest · v)) ∧
    ∀ row, sel row = true ↔ row.testOn v = some (.pat (.lit (.bool b))) := by
  refine ⟨_, fun _ => rfl, fun row => ?_⟩
  split
  · rename_i x h
    rw [h]
    simp
  · rename_i h
    simp only [Bool.false_eq_true, false_iff]
    exact h b

theorem switchOn_tree (hrec : ∀ rows fail s, Tree rows s (compile rows fail s)) (v : VarId) (ty : Ty) (rows : List Row)
    (fail : Option LabelId) (s : Lower Expr) : Tree rows s (switchOn core compile v ty rows fail s) := by
  have hfail : Tree rows s (failExit fail, s.error ("a pattern test on a value of type " ++ core.name ty)) :=
    (error_reads s _).tree (fun _ => Nat.zero_le _) (termBodies_failExit fail)
  have hlits : ∀ i, ((litsOf v rows).map fun lit => armCount i (litRows v lit rows)).sum ≤ armCount i rows := by
    intro i
    simp only [litRows_arms]
    exact sum_armCount_le _ _ i rows (litRows_pairwise v rows)
  have hswitch : Tree rows s (.unreachable, (litCases compile v rows fail (litsOf v rows) s).2.push
      (.switch (.lit v) (litCases compile v rows fail (litsOf v rows) s).1 (some (.mk [] (failExit fail))))) := by
    obtain ⟨hnested, hcount⟩ := litCases_bodies hrec v rows fail (litsOf v rows) s
    refine (hnested.reads.adds (push_adds _ _)).tree (fun i => ?_) rfl
    simp only [stmtBodies, defaultBodies, seqBodies, stmtsBodies, termBodies_failExit, List.append_nil]
    exact (hcount i).trans (hlits i)
  cases ty with
  | enum id args =>
      simp only [switchOn]
      split
      · obtain ⟨harms, hreads⟩ := specializeRows_reads core rows s v ⟨id, 0⟩ args
        exact .after hreads (fun i => by rw [armCount, harms]; rfl) (hrec _ _ _)
      · obtain ⟨hnested, hcount⟩ := enumCases_bodies hrec v id args rows fail
          ((rows.filterMap (variantOf v)).insertionSort (· ≤ ·)).dedup s
        refine (hnested.reads.adds (push_adds _ _)).tree (fun i => ?_) rfl
        have hdefault : ∀ b : Bool, defaultBodies (if b then some (.mk [] (failExit fail : Term Expr)) else none) = [] := by
          intro b
          cases b <;> simp [defaultBodies, seqBodies, stmtsBodies, termBodies_failExit]
        have := hdefault (decide (((rows.filterMap (variantOf v)).insertionSort (· ≤ ·)).dedup.length < (core.variants id).length))
        simp only [decide_eq_true_eq] at this
        simp only [stmtBodies, this, List.append_nil]
        exact (hcount i).trans (sum_armCount_le _ _ i rows (variants_pairwise (List.nodup_dedup _) v))
  | bool =>
      rw [switchOn_bool]
      obtain ⟨selT, hrowsT, hselT⟩ := boolRows_sel v true
      obtain ⟨selF, hrowsF, hselF⟩ := boolRows_sel v false
      have treeT := hrec (boolRows v true rows) fail { s with stmts := [] }
      let s₁ := (s.nested (compile (boolRows v true rows) fail)).2
      have treeF := hrec (boolRows v false rows) fail { s₁ with stmts := [] }
      refine if_tree ((nested_nested treeT.grown).trans (nested_nested treeF.grown)).reads (nested_count treeT)
        (nested_count treeF) (fun i => ?_) rfl
      rw [hrowsT, hrowsF, filter_drop_arms, filter_drop_arms]
      refine armCount_two (fun row h => ?_) i rows
      rw [Bool.eq_false_iff]
      intro h'
      rw [hselF, (hselT row).mp h] at h'
      cases h'
  | int => exact hswitch
  | int64 => exact hswitch
  | string => exact (litTests_bodies hrec v .string rows fail (litsOf v rows) s).tree hlits (termBodies_failExit fail)
  | float => exact (litTests_bodies hrec v .f64 rows fail (litsOf v rows) s).tree hlits (termBodies_failExit fail)
  | list elem =>
      rw [switchOn_list]
      let s₁ := (s.assign .bool (.listIsEmpty v)).2
      have treeT := hrec ((rows.filter (isEmptyTest v)).map (dropTest · v)) fail { s₁ with stmts := [] }
      let s₂ := (s₁.nested (compile ((rows.filter (isEmptyTest v)).map (dropTest · v)) fail)).2
      have treeF := consTree_tree hrec v elem rows fail { s₂ with stmts := [] }
      refine if_tree ((assign_reads s _ _).trans ((nested_nested treeT.grown).trans (nested_nested treeF.grown)).reads)
        (nested_count treeT) (nested_count treeF) (fun i => ?_) rfl
      rw [filter_drop_arms]
      refine armCount_two (fun row h => ?_) i rows
      unfold isEmptyTest at h
      unfold isConsTest
      split at h
      · rename_i h'
        rw [h']
      · cases h
  | unit | never | tuple | param | other => exact hfail

end

section
variable (core : Core) (diverges : Expr → Bool) (arms : List (Arm Expr))

theorem compile_tree (fuel : Nat) (rows : List Row) (fail : Option LabelId) (s : Lower Expr) :
    Tree rows s (compile core diverges arms fuel rows fail s) := by
  induction fuel generalizing rows fail s with
  | zero => exact (Reads.refl s).tree (fun _ => Nat.zero_le _) rfl
  | succ fuel ih =>
      obtain ⟨harms, hreads⟩ := normalizeRows_reads rows s
      suffices Tree (normalizeRows s rows).1 (normalizeRows s rows).2 (compile core diverges arms (fuel + 1) rows fail s) from
        .after hreads (fun i => by rw [armCount, harms]; rfl) this
      rw [compile]
      generalize normalizeRows s rows = r
      obtain ⟨rows, s⟩ := r
      cases rows with
      | nil => exact (Reads.refl s).tree (fun _ => Nat.zero_le _) (termBodies_failExit fail)
      | cons first later =>
          obtain ⟨tests, binds, arm⟩ := first
          cases tests with
          | nil =>
              dsimp only
              split
              · exact (Reads.refl s).tree (fun _ => Nat.zero_le _) rfl
              · split
                · refine ⟨.refl s, fun i => ?_⟩
                  simp [termBodies, armCount_cons, List.count_cons]
                · split
                  · exact (Reads.refl s).tree (fun _ => Nat.zero_le _) rfl
                  · rename_i a _ _ g _ _
                    -- The guard, the body under it, and the later rows.
                    let s₁ := (s.var .bool).2.push (.guard (s.var .bool).1 g binds)
                    have hguard : Reads s s₁ :=
                      (var_reads s .bool).trans ((push_adds _ (.guard _ g binds)).mono fun _ => Nat.le_refl _)
                    have hif := push_adds s₁ (.if (s.var .bool).1 (.mk [] (.body arm a.body binds)) emptySeq)
                    have hbefore := hguard.adds hif
                    have htree := ih later fail (s₁.push (.if (s.var .bool).1 (.mk [] (.body arm a.body binds)) emptySeq))
                    refine ⟨hbefore.grown.trans htree.grown, fun i => ?_⟩
                    have hb := hbefore.count i
                    have ht := htree.count i
                    simp only [stmtBodies_if_empty, seqBodies, stmtsBodies, termBodies, List.nil_append,
                      List.count_singleton, beq_iff_eq] at hb
                    rw [armCount_cons]
                    exact ht.trans (by dsimp only; omega)
          | cons test tests =>
              dsimp only
              split
              · exact (error_reads s _).tree (fun _ => Nat.zero_le _) (termBodies_failExit fail)
              · rename_i v _
                generalize hrows : (⟨test :: tests, binds, arm⟩ :: later : List Row) = rows
                have hsplit := List.takeWhile_append_dropWhile (p := fun r : Row => (r.testOn v).isSome) (l := rows)
                split
                · rename_i hempty
                  have : rows.takeWhile (fun r : Row => (r.testOn v).isSome) = rows := by
                    rw [List.isEmpty_iff.mp hempty, List.append_nil] at hsplit
                    exact hsplit
                  rw [this]
                  exact switchOn_tree ih v test.1.ty rows fail s
                · let s₀ := s.label.2
                  let block := rows.takeWhile fun r : Row => (r.testOn v).isSome
                  let act := switchOn core (compile core diverges arms fuel) v test.1.ty block (some s.label.1)
                  have tree : Tree block { s₀ with stmts := [] } (act { s₀ with stmts := [] }) :=
                    switchOn_tree ih v test.1.ty block _ _
                  have hlabel : Reads s s₀ := ⟨⟨List.prefix_refl _, List.prefix_refl _, List.prefix_refl _⟩, fun _ => Nat.le_refl _⟩
                  have hblock := (hlabel.trans (nested_nested tree.grown).reads).adds (push_adds _ (.block s.label.1 (s₀.nested act).1))
                  have hrest := ih (rows.dropWhile fun r : Row => (r.testOn v).isSome) fail
                    ((s₀.nested act).2.push (.block s.label.1 (s₀.nested act).1))
                  refine ⟨hblock.grown.trans hrest.grown, fun i => ?_⟩
                  have hb := hblock.count i
                  have hr := hrest.count i
                  have hn := nested_count tree i
                  have hcount := armCount_append i block (rows.dropWhile fun r : Row => (r.testOn v).isSome)
                  rw [hsplit] at hcount
                  simp only [stmtBodies] at hb
                  exact hr.trans (by omega)

end

end Emela.Match
