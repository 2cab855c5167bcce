import Emela.Match.Code

/-!
# `match` to decision trees

`from_core/pat.rs`: the rows of a clause matrix, compiled as a backtracking automaton. A function that
appends statements to the sequence being built takes the state of the lowering and gives the new one;
where the source ends the sequence, it also gives the terminator.
-/

namespace Emela.Match

open Lir (Const CtorRef EnumId VarId LabelId Operand)

/-- A value being matched: its variable (`none` without representation) and type. -/
structure Occ where
  var : Option VarId
  ty : Ty

/-- A pattern of a row; list patterns are taken apart element by element. -/
inductive PatRef where
  | pat (p : Pat)
  | list (elems : List Pat) (rest : Option Pat)

structure Row where
  tests : List (Occ × PatRef)
  binds : Binds
  arm : Nat

/-- The test on `v`, if the row has one. -/
def Row.testOn (row : Row) (v : VarId) : Option PatRef :=
  (row.tests.find? fun t => t.1.var == some v).map Prod.snd

/-- Values read out of others while matching. -/
inductive Key where
  | tuple (base : VarId) (index : Nat)
  | field (base : VarId) (variant index : Nat)
  | head (v : VarId)
  | tail (v : VarId)
deriving DecidableEq

/-- The lowering of a function: the types of its variables, how many labels it has, the values read
on the current path, the statements of the sequence being built, and the errors reported. -/
structure Lower (Expr : Type) where
  vars : List Ty
  labels : Nat
  cache : List (Key × VarId)
  stmts : List (Stmt Expr)
  errors : List String

section
variable {Expr : Type}

def Lower.error (s : Lower Expr) (message : String) : Lower Expr := { s with errors := s.errors ++ [message] }

def Lower.push (s : Lower Expr) (stmt : Stmt Expr) : Lower Expr := { s with stmts := s.stmts ++ [stmt] }

def Lower.var (s : Lower Expr) (ty : Ty) : VarId × Lower Expr :=
  (s.vars.length, { s with vars := s.vars ++ [ty] })

/-- `assign`: a variable for the value. -/
def Lower.assign (s : Lower Expr) (ty : Ty) (value : Lir.Value) : VarId × Lower Expr :=
  let (v, s) := s.var ty
  (v, s.push (.let v value))

def Lower.label (s : Lower Expr) : LabelId × Lower Expr := (s.labels, { s with labels := s.labels + 1 })

/-- What `act` builds between `open` and `close`. -/
def Lower.nested (s : Lower Expr) (act : Lower Expr → Term Expr × Lower Expr) : Seq Expr × Lower Expr :=
  let (term, inner) := act { s with stmts := [] }
  (.mk inner.stmts term, { inner with stmts := s.stmts, cache := inner.cache.take s.cache.length })

/-- A value read out of another, once per path. `none` without representation. -/
def Lower.read (s : Lower Expr) (key : Key) (ty : Ty) (value : Lir.Value) : Option VarId × Lower Expr :=
  if ty.isVoid then (none, s)
  else
    match s.cache.find? (·.1 == key) with
    | some (_, v) => (some v, s)
    | none =>
        let (v, s) := s.assign ty value
        (some v, { s with cache := s.cache ++ [(key, v)] })

def emptySeq : Seq Expr := .mk [] .yield

def failExit : Option LabelId → Term Expr
  | some label => .break label
  | none => .defect "unreachable: no match arm matched"

/-! ## Rows -/

mutual

/-- Adds the tests and bindings of `p` on `occ` to the row. -/
def normalizePat (s : Lower Expr) (occ : Occ) (row : Row) : Pat → Row × Lower Expr
  | .wild | .lit .unit => (row, s)
  | .bind l => ({ row with binds := row.binds ++ [(l, occ.var)] }, s)
  | .tuple ps =>
      match occ.ty with
      | .tuple ts => normalizeElems s occ ts 0 row ps
      | _ => (row, s.error "a tuple pattern on a value that is not a tuple")
  | .list elems rest => normalizeList s occ row elems rest
  | p => ({ row with tests := row.tests ++ [(occ, .pat p)] }, s)

/-- The elements of a tuple pattern from index `i` on. -/
def normalizeElems (s : Lower Expr) (occ : Occ) (ts : List Ty) (i : Nat) (row : Row) :
    List Pat → Row × Lower Expr
  | [] => (row, s)
  | .wild :: ps => normalizeElems s occ ts (i + 1) row ps
  | p :: ps =>
      let ty := ts.getD i .never
      let (var, s) :=
        match occ.var with
        | some base => s.read (.tuple base i) ty (.tupleGet base i)
        | none => (none, s)
      let (row, s) := normalizePat s ⟨var, ty⟩ row p
      normalizeElems s occ ts (i + 1) row ps

/-- `[elems.., ..rest]` (exactly `elems` without `rest`). -/
def normalizeList (s : Lower Expr) (occ : Occ) (row : Row) (elems : List Pat) :
    Option Pat → Row × Lower Expr
  | none => ({ row with tests := row.tests ++ [(occ, .list elems none)] }, s)
  | some r =>
      if elems.isEmpty then normalizePat s occ row r
      else ({ row with tests := row.tests ++ [(occ, .list elems (some r))] }, s)

end

def normalize (s : Lower Expr) (occ : Occ) (p : PatRef) (row : Row) : Row × Lower Expr :=
  match p with
  | .pat p => normalizePat s occ row p
  | .list elems rest => normalizeList s occ row elems rest

/-- The row with its tests normalized. -/
def normalizeRow (s : Lower Expr) (row : Row) : Row × Lower Expr :=
  row.tests.foldl (fun (row, s) (occ, p) => normalize s occ p row) ({ row with tests := [] }, s)

def normalizeRows (s : Lower Expr) : List Row → List Row × Lower Expr
  | [] => ([], s)
  | row :: rows =>
      let (row, s) := normalizeRow s row
      let (rows, s) := normalizeRows s rows
      (row :: rows, s)

/-- Takes the test on `v` out of the row. -/
def takeTest (row : Row) (v : VarId) : Option (PatRef × Row) :=
  (row.tests.findIdx? fun t => t.1.var == some v).bind fun i =>
    row.tests[i]?.map fun t => (t.2, { row with tests := row.tests.eraseIdx i })

/-- The row without its test on `v`. -/
def dropTest (row : Row) (v : VarId) : Row := ((takeTest row v).map Prod.snd).getD row

/-- The tests on the fields from index `i` on. -/
def fieldTests (s : Lower Expr) (v : VarId) (ctor : CtorRef) (tys : List Ty) (i : Nat) :
    List Pat → List (Occ × PatRef) × Lower Expr
  | [] => ([], s)
  | .wild :: ps => fieldTests s v ctor tys (i + 1) ps
  | p :: ps =>
      let ty := tys.getD i .never
      let (var, s) := s.read (.field v ctor.variant i) ty (.field v ctor i)
      let (sub, s) := fieldTests s v ctor tys (i + 1) ps
      ((⟨var, ty⟩, .pat p) :: sub, s)

/-- The row with its test of constructor `ctor` on `v` replaced by tests on the fields. -/
def specializeCtor (core : Core) (s : Lower Expr) (v : VarId) (ctor : CtorRef) (args : List Ty) (row : Row) :
    Row × Lower Expr :=
  match takeTest row v with
  | some (.pat (.ctor _ fields), row) =>
      let tys := (core.fields ctor.enumId ctor.variant args).getD []
      let (sub, s) := fieldTests s v ctor tys 0 fields
      ({ row with tests := sub ++ row.tests }, s)
  | some (_, row) => (row, s)
  | none => (row, s)

def specializeRows (core : Core) (s : Lower Expr) (v : VarId) (ctor : CtorRef) (args : List Ty) :
    List Row → List Row × Lower Expr
  | [] => ([], s)
  | row :: rows =>
      let (row, s) := specializeCtor core s v ctor args row
      let (rows, s) := specializeRows core s v ctor args rows
      (row :: rows, s)

/-- The rows that test `v` for a list with an element, with tests on its head and tail. -/
def consRows (s : Lower Expr) (v : VarId) (elem : Ty) : List Row → List Row × Lower Expr
  | [] => ([], s)
  | row :: rows =>
      match row.testOn v with
      | some (.list (first :: more) rest) =>
          let (head, s) := s.read (.head v) elem (.listHead v)
          let (tail, s) := s.read (.tail v) (.list elem) (.listTail v)
          let left := dropTest row v
          let row := { left with
            tests := (⟨head, elem⟩, .pat first) :: (⟨tail, .list elem⟩, .list more rest) :: left.tests }
          let (rows, s) := consRows s v elem rows
          (row :: rows, s)
      | _ => consRows s v elem rows

/-- The constructor the row tests `v` for. -/
def variantOf (v : VarId) (row : Row) : Option Nat :=
  match row.testOn v with
  | some (.pat (.ctor c _)) => some c.variant
  | _ => none

/-- The literal the row tests `v` for. -/
def litOf (v : VarId) (row : Row) : Option Const :=
  match row.testOn v with
  | some (.pat (.lit l)) => l.const
  | _ => none

def isEmptyTest (v : VarId) (row : Row) : Bool :=
  match row.testOn v with
  | some (.list [] none) => true
  | _ => false

/-- The literals of the rows, each once, in order. -/
def litsOf (v : VarId) (rows : List Row) : List Const :=
  (rows.filterMap (litOf v)).foldl (fun lits c => if lits.any (constEq · c) then lits else lits ++ [c]) []

/-! ## The tree -/

section
variable (core : Core) (compile : List Row → Option LabelId → Lower Expr → Term Expr × Lower Expr)

/-- The cases of an enum, one for each constructor tested. -/
def enumCases (v : VarId) (id : EnumId) (args : List Ty) (rows : List Row) (fail : Option LabelId) :
    List Nat → Lower Expr → List (Lir.CaseKey × Seq Expr) × Lower Expr
  | [], s => ([], s)
  | k :: ks, s =>
      let (body, s) := s.nested fun s =>
        let (sub, s) := specializeRows core s v ⟨id, k⟩ args (rows.filter fun r => variantOf v r == some k)
        compile sub fail s
      let (cases, s) := enumCases v id args rows fail ks s
      ((.variant k, body) :: cases, s)

/-- The rows that test `v` for the literal. -/
def litRows (v : VarId) (lit : Const) (rows : List Row) : List Row :=
  (rows.filter fun r => (litOf v r).any (constEq · lit)).map (dropTest · v)

/-- The cases of a `switch` on literals. -/
def litCases (v : VarId) (rows : List Row) (fail : Option LabelId) :
    List Const → Lower Expr → List (Lir.CaseKey × Seq Expr) × Lower Expr
  | [], s => ([], s)
  | lit :: lits, s =>
      let (body, s) := s.nested (compile (litRows v lit rows) fail)
      let (cases, s) := litCases v rows fail lits s
      ((.lit lit, body) :: cases, s)

/-- Comparisons with the literals, one after the other. -/
def litTests (v : VarId) (pty : Lir.PrimTy) (rows : List Row) (fail : Option LabelId) :
    List Const → Lower Expr → Lower Expr
  | [], s => s
  | lit :: lits, s =>
      let (c, s) := s.assign .bool (.prim .eq pty [.var v, .const lit])
      let (then_, s) := s.nested (compile (litRows v lit rows) fail)
      litTests v pty rows fail lits (s.push (.if c then_ emptySeq))

/-- The rows that test the Boolean `v` for `b`. -/
def boolRows (v : VarId) (b : Bool) (rows : List Row) : List Row :=
  (rows.filter fun r => match r.testOn v with
    | some (.pat (.lit (.bool x))) => x == b
    | _ => false).map (dropTest · v)

/-- The cases of the rows of a block, which all test `v` (of type `ty`). -/
def switchOn (v : VarId) (ty : Ty) (rows : List Row) (fail : Option LabelId) (s : Lower Expr) :
    Term Expr × Lower Expr :=
  match ty with
  | .enum id args =>
      let count := (core.variants id).length
      if count = 1 then
        let (rows, s) := specializeRows core s v ⟨id, 0⟩ args rows
        compile rows fail s
      else
        let present := ((rows.filterMap (variantOf v)).insertionSort (· ≤ ·)).dedup
        let (cases, s) := enumCases core compile v id args rows fail present s
        let default := if present.length < count then some (.mk [] (failExit fail)) else none
        (.unreachable, s.push (.switch (.tag v) cases default))
  | .bool =>
      let (then_, s) := s.nested (compile (boolRows v true rows) fail)
      let (else_, s) := s.nested (compile (boolRows v false rows) fail)
      (.unreachable, s.push (.if v then_ else_))
  | .int | .int64 =>
      let (cases, s) := litCases compile v rows fail (litsOf v rows) s
      (.unreachable, s.push (.switch (.lit v) cases (some (.mk [] (failExit fail)))))
  | .string => (failExit fail, litTests compile v .string rows fail (litsOf v rows) s)
  | .float => (failExit fail, litTests compile v .f64 rows fail (litsOf v rows) s)
  | .list elem =>
      let (empty, s) := s.assign .bool (.listIsEmpty v)
      let (then_, s) := s.nested (compile ((rows.filter (isEmptyTest v)).map (dropTest · v)) fail)
      let (else_, s) := s.nested fun s =>
        let (sub, s) := consRows s v elem rows
        compile sub fail s
      (.unreachable, s.push (.if empty then_ else_))
  | _ => (failExit fail, s.error ("a pattern test on a value of type " ++ core.name ty))

end

section
variable (core : Core) (diverges : Expr → Bool) (arms : List (Arm Expr))

/-- The decision tree for the rows. -/
def compile : Nat → List Row → Option LabelId → Lower Expr → Term Expr × Lower Expr
  | 0, _, _, s => (.unreachable, s)
  | fuel + 1, rows, fail, s =>
      let (rows, s) := normalizeRows s rows
      match rows with
      | [] => (failExit fail, s)
      | first :: later =>
          match first.tests with
          | [] =>
              match arms[first.arm]? with
              | none => (.unreachable, s)
              | some arm =>
                  match arm.guard with
                  | none => (.body first.arm arm.body first.binds, s)
                  | some g =>
                      if diverges g then (.guard g first.binds, s)
                      else
                        let (c, s) := s.var .bool
                        let s := s.push (.guard c g first.binds)
                        let s := s.push (.if c (.mk [] (.body first.arm arm.body first.binds)) emptySeq)
                        compile fuel later fail s
          | (occ, _) :: _ =>
              match occ.var with
              | none => (failExit fail, s.error "a pattern test on a value without representation")
              | some v =>
                  let block := (first :: later).takeWhile fun r => (r.testOn v).isSome
                  let rest := (first :: later).dropWhile fun r => (r.testOn v).isSome
                  if rest.isEmpty then switchOn core (compile fuel) v occ.ty block fail s
                  else
                    let (next, s) := s.label
                    let (body, s) := s.nested (switchOn core (compile fuel) v occ.ty block (some next))
                    compile fuel rest fail (s.push (.block next body))

end

mutual

/-- A bound for the tests a pattern makes. -/
def Pat.size : Pat → Nat
  | .wild | .bind _ | .lit _ => 1
  | .ctor _ ps | .tuple ps => 1 + sizeAll ps
  | .list ps rest => 1 + sizeAll ps + sizeRest rest

def sizeAll : List Pat → Nat
  | [] => 0
  | p :: ps => 1 + p.size + sizeAll ps

def sizeRest : Option Pat → Nat
  | none => 0
  | some r => r.size

end

def PatRef.size : PatRef → Nat
  | .pat p => p.size
  | .list elems rest => 1 + sizeAll elems + sizeRest rest

def Row.size (row : Row) : Nat := 1 + (row.tests.map (·.2.size)).sum

def rowsSize (rows : List Row) : Nat := (rows.map Row.size).sum

/-- The rows of the arms, which all look at the scrutinee. -/
def armRows (occ : Occ) (arms : List (Arm Expr)) : List Row :=
  arms.zipIdx.map fun (a, i) => ⟨[(occ, .pat a.pat)], [], i⟩

/-- `match_`, once the scrutinee is converted. -/
def matchArms (core : Core) (diverges : Expr → Bool) (scrutinee : Option Operand) (ty : Ty)
    (arms : List (Arm Expr)) (s : Lower Expr) : Lower Expr :=
  let (var, s) :=
    match scrutinee with
    | some (.var x) => (some x, s)
    | some (.const c) =>
        let (x, s) := s.assign ty (.const c)
        (some x, s)
    | none => (none, s)
  let rows := armRows ⟨var, ty⟩ arms
  let (label, s) := s.label
  let (body, s) := s.nested (compile core diverges arms (rowsSize rows + 1) rows none)
  s.push (.block label body)

end

end Emela.Match
