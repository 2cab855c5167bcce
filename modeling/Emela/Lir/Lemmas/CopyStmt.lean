import Emela.Lir.Lemmas.CopyTables
import Emela.Lir.Meaning

/-!
# A statement's copy, uniformly

Every statement is copied in the same order: what it reads is renamed, its sequences are copied with what
they bind, and last comes what it defines.
-/

namespace Emela.Lir.Arena

/-! ## The parts of a statement -/

/-- The sequences copied before the failure edge, at it, and after it. -/
def Stmt.inner : Stmt → List Nested
  | .let _ value _ _ _ => value.nested
  | .switch _ _ cases _ => cases.map fun c => ⟨.arm, [], none, c.2⟩
  | s => s.nested

def Stmt.atFail : Stmt → List Nested
  | .let _ _ onFail _ _ => onFail.toList.flatMap OnFail.nested
  | .switch _ _ _ default => default.toList.map (⟨.arm, [], none, ·⟩)
  | _ => []

def Stmt.atDefect : Stmt → List Nested
  | .let _ _ _ onDefect _ => onDefect.toList.map (⟨.landing, [], none, ·⟩)
  | _ => []

theorem Stmt.nested_eq (s : Stmt) : s.nested = s.inner ++ (s.atFail ++ s.atDefect) := by
  cases s <;> simp [Stmt.nested, Stmt.inner, Stmt.atFail, Stmt.atDefect]

/-! ## Put together again -/

def Value.rebuild (σ : VarId → VarId) (ns : List Nested) : Value → Value
  | .heap v => .heap (v.rename σ)
  | .fnRef g => .fnRef g
  | .closure _ captures _ suspends =>
      .closure (ns.flatMap Nested.binds) (captures.map σ) ((ns.head?.map Nested.body).getD 0) suspends

def OnFail.rebuild (l : Option LabelId) (hs : List Nested) : OnFail → OnFail
  | .break _ => .break (l.getD 0)
  | .propagate => .propagate
  | .handle _ _ => .handle ((hs.flatMap Nested.binds).head?.getD 0) ((hs.head?.map Nested.body).getD 0)

/-- The statement with its reads renamed, its failure edge to the label, what it saves, its sequences and
its destination replaced. -/
def Stmt.rebuild (σ : VarId → VarId) (l : Option LabelId) (saved : List VarId) (ns hs ls : List Nested)
    (dst : Option VarId) : Stmt → Stmt
  | .let _ value onFail _ onSuspend =>
      .let dst (value.rebuild σ ns) (onFail.map (OnFail.rebuild l hs)) (ls.head?.map Nested.body)
        (onSuspend.map fun s => { s with saved := saved })
  | .if _ cond _ _ =>
      .if dst (cond.rename σ) ((ns.head?.map Nested.body).getD 0) ((ns.tail.head?.map Nested.body).getD 0)
  | .switch _ on cases _ =>
      .switch dst (on.rename σ) ((cases.zip ns).map fun p => (p.1.1, p.2.body)) (hs.head?.map Nested.body)
  | .loop _ _ inits _ =>
      .loop dst (ns.flatMap Nested.binds) (inits.map (·.rename σ)) ((ns.head?.map Nested.body).getD 0)
  | .block _ _ _ => .block dst ((ns.head?.bind Nested.label).getD 0) ((ns.head?.map Nested.body).getD 0)
  | .protect _ _ _ => .protect dst ((ns.head?.map Nested.body).getD 0) ((ns.tail.head?.map Nested.body).getD 0)
  | .dup v => .dup (σ v)
  | .drop v => .drop (σ v)

/-! ## The walk of a statement -/

/-- A copy of a nested sequence. -/
def copyNested (K : Copier) (fuel : Nat) (n : Nested) : Copying Nested := do
  let label ← n.label.mapM K.freshLabel
  let binds ← n.binds.mapM K.fresh
  let body ← K.seq fuel n.body
  pure ⟨n.role, binds, label, body⟩

/-- What a suspension edge saves. -/
def copySaved (K : Copier) (vs : List VarId) : Copying (List VarId) := do
  let T ← K.seeAll vs
  pure (vs.map T.sub)

/-- The `Cloner` takes neither closures nor failure edges to the blocks that it copies. -/
def Copier.Admits (K : Copier) (outer : LabelId → Prop) (s : Stmt) : Prop :=
  K = .clone → (∀ l ∈ s.target, outer l) ∧ ∀ n ∈ s.nested, n.role ≠ .closure

theorem get_bind_apply {σ α : Type} (g : σ → Walk σ α) (st : σ) : ((get : Walk σ σ) >>= g) st = g st st := rfl

theorem get_bind_const {σ α : Type} (m : Walk σ α) : ((get : Walk σ σ) >>= fun _ => m) = m := rfl

theorem seeAll_nil (K : Copier) : K.seeAll [] = get := rfl

theorem mapM_cases (K : Copier) (fuel : Nat) (cases : List (CaseKey × SeqId)) :
    (cases.mapM fun c => do
      let body ← K.seq fuel c.2
      pure (c.1, body)) = (do
      let ns ← (cases.map fun c => (⟨.arm, [], none, c.2⟩ : Nested)).mapM (copyNested K fuel)
      pure ((cases.zip ns).map fun p => (p.1.1, p.2.body))) := by
  induction cases with
  | nil => rfl
  | cons c cs ih =>
      simp only [List.mapM_cons, ih, List.map_cons, copyNested, Option.mapM_none, List.mapM_nil, bind_assoc, pure_bind,
        List.zip_cons_cons]

theorem mapM_landing (K : Copier) (fuel : Nat) (onDefect : Option SeqId) :
    onDefect.mapM (K.seq fuel) = (do
      let ls ← (onDefect.toList.map fun b => (⟨.landing, [], none, b⟩ : Nested)).mapM (copyNested K fuel)
      pure (ls.head?.map Nested.body)) := by
  cases onDefect with
  | none => rfl
  | some body => simp only [Option.mapM_some, Option.toList_some, List.map_cons, List.map_nil, List.mapM_cons,
      List.mapM_nil, copyNested, Option.mapM_none, bind_assoc, pure_bind, map_eq_pure_bind, List.head?_cons,
      Option.map_some]

def copyStmt (K : Copier) (fuel : Nat) (s : Stmt) : Copying StmtId := do
  let T ← K.seeAll s.reads
  let ns ← s.inner.mapM (copyNested K fuel)
  let l ← s.target.mapM K.edge
  let hs ← s.atFail.mapM (copyNested K fuel)
  let edges ← K.inOrder (copySaved K s.saved) (s.atDefect.mapM (copyNested K fuel))
  let dst ← s.dst.mapM K.fresh
  pushStmt (s.rebuild T.sub l edges.1 ns hs edges.2 dst)

theorem inOrder_none (K : Copier) {β : Type} (m : Copying β) :
    K.inOrder (copySaved K []) m = (do
      let b ← m
      pure ([], b)) := by
  cases K <;> simp only [Copier.inOrder, copySaved, seeAll_nil, List.map_nil, get_bind_const, pure_bind]

theorem stmt_run_eq {K : Copier} {fuel : Nat} {id : StmtId} {s : Stmt} {T : Tables}
    (hs : (K.source T).stmts[id]? = some s) (hclosures : K = .clone → ∀ n ∈ s.nested, n.role ≠ .closure) :
    K.stmt (fuel + 1) id T = copyStmt K fuel s T := by
  rw [Copier.stmt, get_bind_apply, Walk.get_some hs]
  refine congrFun ?_ T
  cases s with
  | «let» dst value onFail onDefect onSuspend =>
      have hvalue : K.value (K.seq fuel) value = (do
          let T ← K.seeAll value.uses
          let ns ← value.nested.mapM (copyNested K fuel)
          pure (value.rebuild T.sub ns)) := by
        cases value with
        | heap v => simp only [Copier.value, Value.nested, List.mapM_nil, pure_bind, Value.rebuild]
        | fnRef g => simp only [Copier.value, Value.nested, List.mapM_nil, pure_bind, Value.rebuild]
        | closure params captures body suspends =>
            cases K with
            | into src =>
                simp only [Copier.value, Value.nested, List.mapM_cons, List.mapM_nil, copyNested, Option.mapM_none,
                  bind_assoc, pure_bind, Value.rebuild, List.flatMap_cons, List.flatMap_nil, List.append_nil,
                  List.head?_cons, Option.map_some, Option.getD_some]
            | clone =>
                exact absurd rfl (hclosures rfl ⟨.closure, params, none, body⟩
                  (by simp [Stmt.nested, Value.nested]))
      have hfail : K.onFail (K.seq fuel) onFail = (do
          let l ← (onFail.bind OnFail.target).mapM K.edge
          let hs ← (onFail.toList.flatMap OnFail.nested).mapM (copyNested K fuel)
          pure (onFail.map (OnFail.rebuild l hs))) := by
        cases onFail with
        | none => simp [Copier.onFail]
        | some edge =>
            cases edge with
            | «break» l => simp [Copier.onFail, OnFail.target, OnFail.nested, OnFail.rebuild]
            | propagate => simp [Copier.onFail, OnFail.target, OnFail.nested, OnFail.rebuild]
            | handle error body =>
                simp only [Copier.onFail, OnFail.target, OnFail.nested, OnFail.rebuild, copyNested, Option.bind_some,
                  Option.toList_some, List.flatMap_cons, List.flatMap_nil, List.append_nil, List.mapM_cons,
                  List.mapM_nil, Option.mapM_none, bind_assoc, pure_bind, Option.map_some, List.head?_cons,
                  Option.getD_some]
      have hedges : K.inOrder (K.suspend onSuspend) (onDefect.mapM (K.seq fuel)) = (do
          let edges ← K.inOrder (copySaved K (Stmt.saved (.let dst value onFail onDefect onSuspend)))
            ((onDefect.toList.map (⟨.landing, [], none, ·⟩)).mapM (copyNested K fuel))
          pure (onSuspend.map fun s => { s with saved := edges.1 }, edges.2.head?.map Nested.body)) := by
        cases onSuspend with
        | none =>
            simp only [Stmt.saved, inOrder_none, Copier.suspend, mapM_landing, bind_assoc, pure_bind, Option.map_none]
            cases K <;> simp only [Copier.inOrder, bind_assoc, pure_bind]
        | some s =>
            simp only [Stmt.saved, Copier.suspend, mapM_landing, Option.map_some]
            cases K <;> simp only [Copier.inOrder, copySaved, bind_assoc, pure_bind]
      simp only [copyStmt, Stmt.reads, Stmt.inner, Stmt.target, Stmt.atFail, Stmt.atDefect, Stmt.dst, Stmt.rebuild,
        hvalue, hfail, hedges, bind_assoc, pure_bind]
  | «if» dst cond then_ else_ =>
      simp only [copyStmt, Stmt.reads, Stmt.inner, Stmt.nested, Stmt.target, Stmt.atFail, Stmt.atDefect, Stmt.saved,
        Stmt.dst, Stmt.rebuild, inOrder_none, List.mapM_cons, List.mapM_nil, Option.mapM_none, copyNested, bind_assoc,
        pure_bind, List.head?_cons, List.tail_cons, Option.map_some, Option.getD_some]
  | switch dst on cases default =>
      simp only [copyStmt, Stmt.reads, Stmt.inner, Stmt.target, Stmt.atFail, Stmt.atDefect, Stmt.saved, Stmt.dst,
        Stmt.rebuild, inOrder_none, List.mapM_nil, Option.mapM_none, bind_assoc, pure_bind, mapM_cases]
      cases default with
      | none => simp only [Option.mapM_none, Option.toList_none, List.map_nil, List.mapM_nil, pure_bind, List.head?_nil,
          Option.map_none]
      | some body => simp only [Option.mapM_some, Option.toList_some, List.map_cons, List.map_nil, List.mapM_cons,
          List.mapM_nil, copyNested, Option.mapM_none, bind_assoc, pure_bind, map_eq_pure_bind, List.head?_cons,
          Option.map_some]
  | loop dst vars inits body =>
      simp only [copyStmt, Stmt.reads, Stmt.inner, Stmt.nested, Stmt.target, Stmt.atFail, Stmt.atDefect, Stmt.saved,
        Stmt.dst, Stmt.rebuild, inOrder_none, List.mapM_cons, List.mapM_nil, Option.mapM_none, copyNested, bind_assoc,
        pure_bind, List.head?_cons, Option.map_some, Option.getD_some, List.flatMap_cons, List.flatMap_nil,
        List.append_nil]
  | block dst label body =>
      simp only [copyStmt, Stmt.reads, Stmt.inner, Stmt.nested, Stmt.target, Stmt.atFail, Stmt.atDefect, Stmt.saved,
        Stmt.dst, Stmt.rebuild, inOrder_none, List.mapM_cons, List.mapM_nil, Option.mapM_none, copyNested, bind_assoc,
        pure_bind, List.head?_cons, Option.map_some, Option.getD_some, seeAll_nil, get_bind_const, Option.mapM_some,
        map_eq_pure_bind, Option.bind_some]
  | protect dst body cleanup =>
      simp only [copyStmt, Stmt.reads, Stmt.inner, Stmt.nested, Stmt.target, Stmt.atFail, Stmt.atDefect, Stmt.saved,
        Stmt.dst, Stmt.rebuild, inOrder_none, List.mapM_cons, List.mapM_nil, Option.mapM_none, copyNested, bind_assoc,
        pure_bind, List.head?_cons, List.tail_cons, Option.map_some, Option.getD_some, seeAll_nil, get_bind_const]
  | dup v =>
      simp only [copyStmt, Stmt.reads, Stmt.inner, Stmt.nested, Stmt.target, Stmt.atFail, Stmt.atDefect, Stmt.saved,
        Stmt.dst, Stmt.rebuild, inOrder_none, List.mapM_nil, Option.mapM_none, pure_bind]
  | drop v =>
      simp only [copyStmt, Stmt.reads, Stmt.inner, Stmt.nested, Stmt.target, Stmt.atFail, Stmt.atDefect, Stmt.saved,
        Stmt.dst, Stmt.rebuild, inOrder_none, List.mapM_nil, Option.mapM_none, pure_bind]

/-! ## What a copied statement has

A statement put together from the copies of its parts has these parts, and is the same without its names. -/

/-- The nested sequences are of one kind and bind as much. -/
structure Shaped (n m : Nested) : Prop where
  role : m.role = n.role
  binds : m.binds.length = n.binds.length
  label : m.label.isSome = n.label.isSome

/-- A sequence that binds nothing and is no block. -/
theorem Shaped.plain {role : Role} {body : SeqId} {m : Nested} (h : Shaped ⟨role, [], none, body⟩ m) :
    m = ⟨role, [], none, m.body⟩ := by
  rcases m with ⟨r, binds, label, b⟩
  obtain ⟨hrole, hbinds, hlabel⟩ := h
  obtain rfl : r = role := hrole
  obtain rfl : binds = [] := List.eq_nil_of_length_eq_zero hbinds
  obtain rfl : label = none := by simpa using hlabel
  rfl

abbrev AllShaped : List Nested → List Nested → Prop := List.Forall₂ Shaped

theorem AllShaped.single {n : Nested} {ms : List Nested} (h : AllShaped [n] ms) : ∃ m, ms = [m] ∧ Shaped n m := by
  cases h with
  | cons hm hrest =>
      cases hrest
      exact ⟨_, rfl, hm⟩

theorem AllShaped.pair {n n' : Nested} {ms : List Nested} (h : AllShaped [n, n'] ms) :
    ∃ m m', ms = [m, m'] ∧ Shaped n m ∧ Shaped n' m' := by
  cases h with
  | cons hm hrest =>
      obtain ⟨m', rfl, hm'⟩ := AllShaped.single hrest
      exact ⟨_, m', rfl, hm, hm'⟩

/-! ## Operands -/

theorem operand_uses (σ : VarId → VarId) (o : Operand) : (o.rename σ).var?.toList = o.var?.toList.map σ := by
  cases o <;> rfl

theorem operands_uses (σ : VarId → VarId) (os : List Operand) :
    (os.map (·.rename σ)).filterMap Operand.var? = (os.filterMap Operand.var?).map σ := by
  simp [List.map_filterMap]

theorem operand_blank (σ : VarId → VarId) (o : Operand) : (o.rename σ).rename (fun _ => 0) = o.rename fun _ => 0 := by
  cases o <;> rfl

theorem operands_blank (σ : VarId → VarId) (os : List Operand) :
    (os.map (·.rename σ)).map (·.rename fun _ => 0) = os.map (·.rename fun _ => 0) := by
  simp [Function.comp_def]

theorem blanks_eq {xs ys : List VarId} (h : ys.length = xs.length) :
    (ys.map fun _ => (0 : VarId)) = xs.map fun _ => 0 := by
  rw [List.map_const', List.map_const', h]

theorem blank_eq {x y : Option VarId} (h : y.isSome = x.isSome) : (y.map fun _ => (0 : VarId)) = x.map fun _ => 0 := by
  cases x <;> cases y <;> first | rfl | cases h

/-! ## Terminators -/

theorem Term.rename_operands (t : Term) (σ : VarId → VarId) (ℓ : LabelId → LabelId) :
    (t.rename σ ℓ).operands = t.operands.map (·.rename σ) := by
  cases t with
  | yield v | «return» v | «break» l v => cases v <;> rfl
  | _ => rfl

theorem Term.rename_uses (t : Term) (σ : VarId → VarId) (ℓ : LabelId → LabelId) :
    (t.rename σ ℓ).uses = t.uses.map σ := by
  rw [Term.uses, Term.rename_operands, operands_uses]
  rfl

theorem Term.rename_target (t : Term) (σ : VarId → VarId) (ℓ : LabelId → LabelId) :
    (t.rename σ ℓ).target = t.target.map ℓ := by
  cases t <;> rfl

theorem Term.rename_blank (t : Term) (σ : VarId → VarId) (ℓ : LabelId → LabelId) :
    (t.rename σ ℓ).blank = t.blank := by
  cases t <;> simp [Term.rename, Term.blank, Function.comp_def]

/-! ## Values and failure edges -/

section
variable {σ : VarId → VarId} {ns : List Nested}

theorem Value.rebuild_nested {v : Value} (h : AllShaped v.nested ns) : (v.rebuild σ ns).nested = ns := by
  cases v with
  | heap v => cases h; rfl
  | fnRef g => cases h; rfl
  | closure params captures body suspends =>
      obtain ⟨m, rfl, hm⟩ := h.single
      rcases m with ⟨role, binds, label, b⟩
      obtain ⟨hrole, -, hlabel⟩ := hm
      obtain rfl : role = .closure := hrole
      obtain rfl : label = none := by simpa using hlabel
      simp [Value.rebuild, Value.nested]

theorem Value.rebuild_uses (v : Value) : (v.rebuild σ ns).uses = v.uses.map σ := by
  cases v with
  | heap v => simp [Value.rebuild, Value.uses, Lir.Value.vars_rename]
  | fnRef g => rfl
  | closure params captures body suspends => rfl

theorem Value.rebuild_blank {v : Value} (h : AllShaped v.nested ns) : (v.rebuild σ ns).blank = v.blank := by
  cases v with
  | heap v => simp [Value.rebuild, Value.blank, Lir.Value.rename_rename, Function.comp_def]
  | fnRef g => rfl
  | closure params captures body suspends =>
      obtain ⟨m, rfl, hm⟩ := h.single
      have hcaptures : (captures.map σ).map (fun _ => (0 : VarId)) = captures.map fun _ => 0 :=
        blanks_eq (List.length_map ..)
      simp only [Value.rebuild, Value.blank, List.flatMap_cons, List.flatMap_nil, List.append_nil, blanks_eq hm.binds,
        hcaptures]

end

section
variable {l : Option LabelId} {hs : List Nested}

theorem OnFail.rebuild_nested {e : Option OnFail} (h : AllShaped (e.toList.flatMap OnFail.nested) hs) :
    (e.map (OnFail.rebuild l hs)).toList.flatMap OnFail.nested = hs := by
  cases e with
  | none => cases h; rfl
  | some e =>
      cases e with
      | «break» => cases h; rfl
      | propagate => cases h; rfl
      | handle error body =>
          obtain ⟨m, rfl, hm⟩ := h.single
          rcases m with ⟨role, binds, label, b⟩
          obtain ⟨hrole, hbinds, hlabel⟩ := hm
          obtain rfl : role = .landing := hrole
          obtain rfl : label = none := by simpa using hlabel
          obtain ⟨x, rfl⟩ := List.length_eq_one_iff.mp hbinds
          simp [OnFail.rebuild, OnFail.nested]

theorem OnFail.rebuild_target {e : Option OnFail} (h : l.isSome = (e.bind OnFail.target).isSome) :
    (e.map (OnFail.rebuild l hs)).bind OnFail.target = l := by
  cases e with
  | none => cases l <;> simp_all
  | some e => cases e <;> cases l <;> simp_all [OnFail.rebuild, OnFail.target]

theorem OnFail.rebuild_blank (e : Option OnFail) :
    (e.map (OnFail.rebuild l hs)).map OnFail.blank = e.map OnFail.blank := by
  cases e with
  | none => rfl
  | some e => cases e <;> rfl

end

/-! ## Statements -/

theorem cases_rebuild {cases : List (CaseKey × SeqId)} {ns : List Nested}
    (h : AllShaped (cases.map fun c => ⟨.arm, [], none, c.2⟩) ns) :
    ((cases.zip ns).map fun p => (p.1.1, p.2.body)).map (fun c => (⟨.arm, [], none, c.2⟩ : Nested)) = ns ∧
      ((cases.zip ns).map fun p => (p.1.1, p.2.body)).map (fun c => (c.1, 0)) = cases.map fun c => (c.1, 0) := by
  induction cases generalizing ns with
  | nil => cases h; exact ⟨rfl, rfl⟩
  | cons c cs ih =>
      cases h with
      | cons hm hrest =>
          obtain ⟨hnested, hblank⟩ := ih hrest
          have hm := hm.plain
          simp only [List.zip_cons_cons, List.map_cons, hnested, hblank]
          exact ⟨by rw [hm], trivial⟩

theorem option_rebuild {role : Role} {o : Option SeqId} {ms : List Nested}
    (h : AllShaped (o.toList.map fun b => ⟨role, [], none, b⟩) ms) :
    (ms.head?.map Nested.body).toList.map (fun b => (⟨role, [], none, b⟩ : Nested)) = ms ∧
      (ms.head?.map Nested.body).map (fun _ => (0 : SeqId)) = o.map fun _ => 0 := by
  cases o with
  | none => cases h; exact ⟨rfl, rfl⟩
  | some b =>
      obtain ⟨m, rfl, hm⟩ := h.single
      have hm := hm.plain
      simp only [List.head?_cons, Option.map_some, Option.toList_some, List.map_cons, List.map_nil, List.cons.injEq,
        and_true]
      exact hm.symm

/-- What is put together from the copies of a statement's parts. -/
structure Rebuilt (s s' : Stmt) (σ : VarId → VarId) (l : Option LabelId) (saved : List VarId) (ms : List Nested)
    (dst : Option VarId) : Prop where
  blank : s'.blank = s.blank
  reads : s'.reads = s.reads.map σ
  saved : s'.saved = saved
  target : s'.target = l
  nested : s'.nested = ms
  dst : s'.dst = dst

theorem rebuild_rebuilt {s : Stmt} {σ : VarId → VarId} {l : Option LabelId} {saved : List VarId}
    {ns hs ls : List Nested} {dst : Option VarId} (hns : AllShaped s.inner ns) (hhs : AllShaped s.atFail hs)
    (hls : AllShaped s.atDefect ls) (hl : l.isSome = s.target.isSome) (hsaved : saved.length = s.saved.length)
    (hdst : dst.isSome = s.dst.isSome) :
    Rebuilt s (s.rebuild σ l saved ns hs ls dst) σ l saved (ns ++ (hs ++ ls)) dst := by
  have hd := blank_eq hdst
  cases s with
  | «let» d value onFail onDefect onSuspend =>
      have hland := option_rebuild hls
      refine ⟨?_, ?_, ?_, ?_, ?_, rfl⟩
      · simp only [Stmt.rebuild, Stmt.blank, Value.rebuild_blank hns, OnFail.rebuild_blank, hland.2]
        rw [hd]
        cases onSuspend with
        | none => rfl
        | some edge =>
            have := blanks_eq hsaved
            simp only [Stmt.saved] at this
            simp only [Stmt.dst, Option.map_some, this]
      · exact Value.rebuild_uses value
      · cases onSuspend with
        | none => exact (List.eq_nil_of_length_eq_zero hsaved).symm
        | some edge => rfl
      · exact OnFail.rebuild_target hl
      · simp only [Stmt.rebuild, Stmt.nested, Value.rebuild_nested hns, OnFail.rebuild_nested hhs, hland.1,
          List.append_assoc]
  | «if» d cond then_ else_ =>
      obtain ⟨m, m', rfl, hm, hm'⟩ := hns.pair
      cases hhs
      cases hls
      obtain rfl : l = none := by simpa [Stmt.target] using hl
      obtain rfl : saved = [] := List.eq_nil_of_length_eq_zero hsaved
      refine ⟨?_, operand_uses σ cond, rfl, rfl, ?_, rfl⟩
      · simp only [Stmt.rebuild, Stmt.blank, operand_blank]
        rw [hd]
        rfl
      · rw [hm.plain, hm'.plain]
        rfl
  | switch d on cases default =>
      have harms := cases_rebuild hns
      have hother := option_rebuild hhs
      cases hls
      obtain rfl : l = none := by simpa [Stmt.target] using hl
      obtain rfl : saved = [] := List.eq_nil_of_length_eq_zero hsaved
      refine ⟨?_, ?_, rfl, rfl, ?_, rfl⟩
      · simp only [Stmt.rebuild, Stmt.blank, harms.2, hother.2]
        rw [hd]
        cases on <;> rfl
      · cases on <;> rfl
      · simp only [Stmt.rebuild, Stmt.nested, harms.1, hother.1, List.append_nil]
  | loop d vars inits body =>
      obtain ⟨m, rfl, hm⟩ := hns.single
      cases hhs
      cases hls
      obtain rfl : l = none := by simpa [Stmt.target] using hl
      obtain rfl : saved = [] := List.eq_nil_of_length_eq_zero hsaved
      rcases m with ⟨role, binds, label, b⟩
      obtain ⟨hrole, hbinds, hlabel⟩ := hm
      obtain rfl : role = .loop := hrole
      obtain rfl : label = none := by simpa using hlabel
      refine ⟨?_, operands_uses σ inits, rfl, rfl, ?_, rfl⟩
      · simp only [Stmt.rebuild, Stmt.blank, operands_blank, List.flatMap_cons, List.flatMap_nil, List.append_nil,
          blanks_eq hbinds]
        rw [hd]
        rfl
      · simp [Stmt.rebuild, Stmt.nested]
  | block d label body =>
      obtain ⟨m, rfl, hm⟩ := hns.single
      cases hhs
      cases hls
      obtain rfl : l = none := by simpa [Stmt.target] using hl
      obtain rfl : saved = [] := List.eq_nil_of_length_eq_zero hsaved
      rcases m with ⟨role, binds, m, b⟩
      obtain ⟨hrole, hbinds, hlabel⟩ := hm
      obtain rfl : role = .arm := hrole
      obtain rfl : binds = [] := List.eq_nil_of_length_eq_zero hbinds
      obtain ⟨m, rfl⟩ := Option.isSome_iff_exists.mp (hlabel.trans rfl)
      refine ⟨?_, rfl, rfl, rfl, rfl, rfl⟩
      simp only [Stmt.rebuild, Stmt.blank]
      rw [hd]
      rfl
  | protect d body cleanup =>
      obtain ⟨m, m', rfl, hm, hm'⟩ := hns.pair
      cases hhs
      cases hls
      obtain rfl : l = none := by simpa [Stmt.target] using hl
      obtain rfl : saved = [] := List.eq_nil_of_length_eq_zero hsaved
      refine ⟨?_, rfl, rfl, rfl, ?_, rfl⟩
      · simp only [Stmt.rebuild, Stmt.blank]
        rw [hd]
        rfl
      · rw [hm.plain, hm'.plain]
        rfl
  | dup v =>
      cases hns
      cases hhs
      cases hls
      obtain rfl : l = none := by simpa [Stmt.target] using hl
      obtain rfl : saved = [] := List.eq_nil_of_length_eq_zero hsaved
      obtain rfl : dst = none := by simpa [Stmt.dst] using hdst
      exact ⟨rfl, rfl, rfl, rfl, rfl, rfl⟩
  | drop v =>
      cases hns
      cases hhs
      cases hls
      obtain rfl : l = none := by simpa [Stmt.target] using hl
      obtain rfl : saved = [] := List.eq_nil_of_length_eq_zero hsaved
      obtain rfl : dst = none := by simpa [Stmt.dst] using hdst
      exact ⟨rfl, rfl, rfl, rfl, rfl, rfl⟩

end Emela.Lir.Arena
