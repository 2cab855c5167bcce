import Emela.Infer.Ty

/-!
# Unification

`infer.rs`. The table of type variables is a library of the compiler and a parameter here. The first argument of a
function that follows bindings bounds how deep it goes; `none` is a bound that was too low.
-/

namespace Emela.Infer

/-- `ena::unify::InPlaceUnificationTable<TyVar>`: classes of keys with a representative, each class with a value. Keys are
counted up. `rollback_to` gives the table of the snapshot, so a snapshot is the table itself. -/
class UnificationTable (T : Type) where
  empty : T
  len : T → Nat
  newKey : T → T
  find : T → TyVar → TyVar
  probeValue : T → TyVar → Option Ty
  union : T → TyVar → TyVar → T
  unionValue : T → TyVar → Ty → T
  /-- `union` puts keys together and takes none apart. -/
  find_union : ∀ (t : T) (x y v w : TyVar), find t v = find t w → find (union t x y) v = find (union t x y) w
  /-- A value moves no key. -/
  find_unionValue : ∀ (t : T) (v w : TyVar) (ty : Ty), find (unionValue t v ty) w = find t w
  /-- A new key moves no key. -/
  find_newKey : ∀ (t : T) (v : TyVar), find (newKey t) v = find t v

open UnificationTable

/-! ## Constraints -/

inductive Variance where
  | co | contra | inv
deriving DecidableEq

def Variance.flip : Variance → Variance
  | .co => .contra
  | .contra => .co
  | .inv => .inv

abbrev Span := Nat × Nat

/-- Where a constraint came from. -/
inductive Origin where
  | coerce (span : Option Span) (d : Option DefId)
  | body (d : DefId)
  | handlerOp (handler : DefId) (index : Nat)
  | handlerPart
  | release (d : DefId)
  | closed (d : DefId)
  | lambda
  | layerArg (layer : DefId) (member arg : Nat)
deriving DecidableEq

/-- `sub ⊆ sup`. -/
structure Subset where
  sub : Row
  sup : Row
  origin : Origin
  kind : SetKind
deriving DecidableEq

/-! ## The context -/

structure InferCtx (T : Type) where
  table : T
  errors : List TypeError
  /-- Variables of integer literals, and representatives of such. -/
  intVars : List TyVar
  nextRowVar : Nat
  subsets : List Subset
  /-- Constraints of a unification that is under way. -/
  rowBuffer : List (Row × Row × SetKind)
  origin : Option Span × Option DefId
  errorTags : TyConId → Option DefId
  rowSolution : Option (RowVar → Option Row)
  solving : Bool

section
variable {T : Type} [UnificationTable T]

/-- `shallow_resolve` -/
def shallowResolve (t : T) : Nat → Ty → Option Ty
  | 0, _ => none
  | n + 1, .var v => match probeValue t v with
    | some bound => shallowResolve t n bound
    | none => some (.var (find t v))
  | _ + 1, ty => some ty

/-- `occurs`: the variable is in the type, seen through bindings. -/
def occurs (t : T) (v : TyVar) : Nat → Ty → Option Bool
  | 0, _ => none
  | n + 1, ty => do
      match ← shallowResolve t (n + 1) ty with
      | .var w => return find t v == find t w
      | ty => ty.children.anyM (occurs t v n)

namespace InferCtx

def new : InferCtx T where
  table := empty
  errors := []
  intVars := []
  nextRowVar := 0
  subsets := []
  rowBuffer := []
  origin := (none, none)
  errorTags := fun _ => none
  rowSolution := none
  solving := false

/-! ### Variables and constraints -/

/-- `fresh_var`: the new variable is the length of the table before. -/
def freshVar (c : InferCtx T) : InferCtx T := { c with table := newKey c.table }

def newRowVar (c : InferCtx T) : InferCtx T := { c with nextRowVar := c.nextRowVar + 1 }

def newIntVar (c : InferCtx T) : InferCtx T :=
  { c with table := newKey c.table, intVars := c.intVars ++ [len c.table] }

/-- The variable is one of an integer literal, or unified with one. -/
def isIntVar (c : InferCtx T) (v : TyVar) : Bool := c.intVars.any fun w => find c.table v == find c.table w

def addSubsetOf (kind : SetKind) (sub sup : Row) (origin : Origin) (c : InferCtx T) : InferCtx T :=
  if sub.isEmpty || sub == sup then c
  else if c.solving && c.subsets.any (fun s => s.kind == kind && s.sub == sub && s.sup == sup) then c
  else { c with subsets := c.subsets ++ [⟨sub, sup, origin, kind⟩] }

/-! ### Questions -/

/-- `resolve_row`, with the function that resolves the types inside. -/
def resolveRow (c : InferCtx T) (resolve : Ty → Option Ty) (row : Row) : Option Row :=
  row.flatMap fun
    | .of ty => do
        match ← resolve ty with
        | .named con _ => return match c.errorTags con with
          | some d => [.tag d []]
          | none => []
        | .bound i => return [.of (.bound i)]
        | .var v => return [.of (.var v)]
        | _ => return []
    | .var v => match c.rowSolution with
      | some solution => Row.mapTys resolve ((solution v).getD [])
      | none => some [.var v]
    | .tag d args => return [.tag d (← args.mapM resolve)]
    | e => some [e]

def resolve (c : InferCtx T) : Nat → Ty → Option Ty
  | 0, _ => none
  | n + 1, ty => do
      match ← shallowResolve c.table (n + 1) ty with
      | .fn ps r e u =>
          return .fn (← ps.mapM (resolve c n)) (← resolve c n r) (← c.resolveRow (resolve c n) e)
            (← c.resolveRow (resolve c n) u)
      | .set k row => return .set k (← c.resolveRow (resolve c n) row)
      | ty => ty.mapChildren (resolve c n)

def resolveForReport (c : InferCtx T) : Nat → Ty → Option Ty
  | 0, _ => none
  | n + 1, ty => do
      match ← shallowResolve c.table (n + 1) ty with
      | .var v => return if c.isIntVar v then .prim .int else .var v
      | .fn ps r e u =>
          return .fn (← ps.mapM (resolveForReport c n)) (← resolveForReport c n r)
            (← Row.mapTys (resolveForReport c n) (Row.known e)) (← Row.mapTys (resolveForReport c n) (Row.known u))
      | .set k row => return .set k (Row.known row)
      | ty => ty.mapChildren (resolveForReport c n)

/-! ### Unification -/

/-- `buffer_rows` -/
def bufferRows (kind : SetKind) (expected actual : Row) (variance : Variance) (c : InferCtx T) : InferCtx T :=
  if expected == actual then c
  else match variance with
    | .co => { c with rowBuffer := c.rowBuffer ++ [(actual, expected, kind)] }
    | .contra => { c with rowBuffer := c.rowBuffer ++ [(expected, actual, kind)] }
    | .inv => { c with rowBuffer := c.rowBuffer ++ [(actual, expected, kind), (expected, actual, kind)] }

end InferCtx

/-- What a step of unification gives: the context is there also when it failed. -/
abbrev Outcome (T : Type) := Except TypeErrorKind Unit × InferCtx T

/-- `?` -/
def andThen (o : Option (Outcome T)) (f : InferCtx T → Option (Outcome T)) : Option (Outcome T) :=
  o.bind fun
    | (.ok (), c) => f c
    | (.error kind, c) => some (.error kind, c)

/-- The pairs of the two lists, until one fails. -/
def unifyEach (f : Ty → Ty → InferCtx T → Option (Outcome T)) : List Ty → List Ty → InferCtx T → Option (Outcome T)
  | x :: xs, y :: ys, c => andThen (f x y c) (unifyEach f xs ys)
  | _, _, c => some (.ok (), c)

namespace InferCtx

/-- `union` of two variables, and what it does to the variables of integer literals. -/
def unionVars (x y : TyVar) (c : InferCtx T) : InferCtx T :=
  let int := c.isIntVar x || c.isIntVar y
  let table := union c.table x y
  { c with table, intVars := if int then c.intVars ++ [find table x] else c.intVars }

/-- `bind` -/
def bindVar (n : Nat) (v : TyVar) (ty : Ty) (c : InferCtx T) : Option (Outcome T) := do
  if ← occurs c.table v n ty then return (.error (.infiniteType v ty), c)
  else return (.ok (), { c with table := unionValue c.table v ty })

/-- What a variable of an integer literal can be bound to. -/
def intLike : Ty → Bool
  | .prim .int | .prim .int64 | .error => true
  | _ => false

/-- A variable and a type that is none. -/
def unifyVar (n : Nat) (v : TyVar) (ty e a : Ty) (c : InferCtx T) : Option (Outcome T) :=
  if c.isIntVar v && !intLike ty then some (.error (.mismatch e a), c) else c.bindVar n v ty

/-- `unify_inner` -/
def unifyInner : Nat → Ty → Ty → Variance → InferCtx T → Option (Outcome T)
  | 0, _, _, _, _ => none
  | n + 1, expected, actual, variance, c => do
      let e ← shallowResolve c.table (n + 1) expected
      let a ← shallowResolve c.table (n + 1) actual
      match e, a with
      | .var x, .var y => some (.ok (), c.unionVars x y)
      | .var v, t => c.unifyVar n v t e a
      | t, .var v => c.unifyVar n v t e a
      | .error, _ | _, .error => some (.ok (), c)
      | .prim p, .prim q => if p = q then some (.ok (), c) else some (.error (.mismatch e a), c)
      | .never, .never => some (.ok (), c)
      | .bound i, .bound j => if i = j then some (.ok (), c) else some (.error (.mismatch e a), c)
      | .cap d xs, .cap d' ys =>
          if d = d' ∧ xs.length = ys.length then unifyEach (fun x y => unifyInner n x y .inv) xs ys c
          else some (.error (.mismatch e a), c)
      | .set k x, .set l y =>
          if k = l then some (.ok (), c.bufferRows k x y variance) else some (.error (.mismatch e a), c)
      | .fn ps r fails uses, .fn qs s fails' uses' =>
          if ps.length = qs.length then
            andThen (andThen (unifyEach (fun p q => unifyInner n p q variance.flip) ps qs c) (unifyInner n r s variance))
              fun c =>
                some (.ok (), (c.bufferRows .errors fails fails' variance).bufferRows .effects uses uses' variance)
          else some (.error (.mismatch e a), c)
      | .tuple xs, .tuple ys =>
          if xs.length = ys.length then unifyEach (fun x y => unifyInner n x y variance) xs ys c
          else some (.error (.mismatch e a), c)
      | .named d xs, .named d' ys =>
          if d = d' ∧ xs.length = ys.length then unifyEach (fun x y => unifyInner n x y .inv) xs ys c
          else some (.error (.mismatch e a), c)
      | .list x, .list y => unifyInner n x y variance c
      | e, a => some (.error (.mismatch e a), c)

/-- The constraints of a unification that succeeded. -/
def commitRows (c : InferCtx T) : InferCtx T :=
  let origin := Origin.coerce c.origin.1 c.origin.2
  c.rowBuffer.foldl (fun c (sub, sup, kind) => c.addSubsetOf kind sub sup origin) { c with rowBuffer := [] }

/-- The types of a report. -/
def reportKind (n : Nat) (c : InferCtx T) : TypeErrorKind → Option TypeErrorKind
  | .mismatch e a => return .mismatch (← c.resolveForReport n e) (← c.resolveForReport n a)
  | .infiniteType v ty => return .infiniteType v (← c.resolveForReport n ty)

/-- `unify` -/
def unify (n : Nat) (expected actual : Ty) (c : InferCtx T) : Option (Except TypeError Unit × InferCtx T) := do
  let snapshot := c.table
  match ← unifyInner n expected actual .co { c with rowBuffer := [] } with
  | (.ok (), c) => return (.ok (), c.commitRows)
  | (.error kind, c) =>
      let c := { c with rowBuffer := [], table := snapshot }
      let kind ← c.reportKind n kind
      return (.error ⟨← c.resolveForReport n expected, ← c.resolveForReport n actual, kind⟩, c)

/-- Set arguments of a tag need only be contained. -/
def argVariance : Ty → Ty → Variance
  | .set _ _, .set _ _ => .co
  | _, _ => .inv

/-- The arguments of two tags, as `same_tag` unifies them. -/
def unifyArgs (n : Nat) (a b : DefId × List Ty) (c : InferCtx T) : Option (Outcome T) :=
  unifyEach (fun x y => unifyInner n x y (argVariance x y)) a.2 b.2 c

/-- `same_tag` -/
def sameTag (n : Nat) (a b : DefId × List Ty) (c : InferCtx T) : Option (Bool × InferCtx T) :=
  if a.1 ≠ b.1 ∨ a.2.length ≠ b.2.length then some (false, c)
  else if a.2.isEmpty then some (true, c)
  else do
    let snapshot := c.table
    match ← unifyArgs n a b { c with rowBuffer := [] } with
    | (.ok (), c) => return (true, c.commitRows)
    | (.error _, c) => return (false, { c with rowBuffer := [], table := snapshot })

end InferCtx

end

/-! ## Runs of a context -/

/-- What the rest of the compiler asks of a context. The other operations of `infer.rs` (`expect`, `coerce`, `join`,
`instantiate`, `generalize`) are made of these. -/
inductive Op where
  | freshVar
  | newRowVar
  | newIntVar
  | isIntVar (v : TyVar)
  | resolve (n : Nat) (ty : Ty)
  | resolveForReport (n : Nat) (ty : Ty)
  | addSubset (kind : SetKind) (sub sup : Row) (origin : Origin)
  | subsets
  | setOrigin (span : Option Span) (d : Option DefId)
  | setErrorTags (tags : TyConId → Option DefId)
  | clearRowSolution
  | setRowSolution (solution : RowVar → Option Row)
  | setSolving (solving : Bool)
  | report (error : TypeError)
  | takeErrors
  | unify (n : Nat) (expected actual : Ty)
  | sameTag (n : Nat) (a b : DefId × List Ty)

inductive Answer where
  | done
  | key (v : TyVar)
  | bool (b : Bool)
  | ty (ty : Ty)
  | subsets (subsets : List Subset)
  | errors (errors : List TypeError)
  | result (r : Except TypeError Unit)

section
variable {T : Type} [UnificationTable T]

namespace InferCtx

def step (c : InferCtx T) : Op → Option (Answer × InferCtx T)
  | .freshVar => some (.key (len c.table), c.freshVar)
  | .newRowVar => some (.key c.nextRowVar, c.newRowVar)
  | .newIntVar => some (.key (len c.table), c.newIntVar)
  | .isIntVar v => some (.bool (c.isIntVar v), c)
  | .resolve n ty => (c.resolve n ty).map fun ty => (.ty ty, c)
  | .resolveForReport n ty => (c.resolveForReport n ty).map fun ty => (.ty ty, c)
  | .addSubset kind sub sup origin => some (.done, c.addSubsetOf kind sub sup origin)
  | .subsets => some (.subsets c.subsets, c)
  | .setOrigin span d => some (.done, { c with origin := (span, d) })
  | .setErrorTags tags => some (.done, { c with errorTags := tags })
  | .clearRowSolution => some (.done, { c with rowSolution := none })
  | .setRowSolution solution => some (.done, { c with rowSolution := some solution })
  | .setSolving solving => some (.done, { c with solving })
  | .report error => some (.done, { c with errors := c.errors ++ [error] })
  | .takeErrors => some (.errors c.errors, { c with errors := [] })
  | .unify n expected actual => (c.unify n expected actual).map fun (r, c) => (.result r, c)
  | .sameTag n a b => (c.sameTag n a b).map fun (b, c) => (.bool b, c)

def run (c : InferCtx T) : List Op → Option (List Answer × InferCtx T)
  | [] => some ([], c)
  | op :: ops => do
      let (answer, c) ← c.step op
      let (answers, c) ← run c ops
      return (answer :: answers, c)

/-- The second context is the first: the bindings, the constraints and all else are equal, and the same variables are
those of integer literals. -/
structure Same (c d : InferCtx T) : Prop where
  rest : d = { c with intVars := d.intVars }
  intVars : ∀ v, d.isIntVar v = c.isIntVar v

end InferCtx

open InferCtx

/-- The second context is as the first one was, and all operations from now on answer as they would have. -/
def Restored (c d : InferCtx T) : Prop :=
  Same c d ∧ ∀ ops answers c', c.run ops = some (answers, c') → ∃ d', d.run ops = some (answers, d') ∧ Same c' d'

/-! ## Contexts of keys -/

/-- The variables the context knows of are keys of its table. -/
structure InferCtx.Keyed (c : InferCtx T) : Prop where
  intVars : ∀ w ∈ c.intVars, w < len c.table
  values : ∀ v < len c.table, ∀ ty, probeValue c.table v = some ty → ty.Keyed (len c.table)

/-- The types of the operation are made of keys of a table of this length. The library has no answer for other keys. -/
def Op.Keyed (keys : Nat) : Op → Prop
  | .isIntVar v => v < keys
  | .resolve _ ty | .resolveForReport _ ty => ty.Keyed keys
  | .unify _ expected actual => expected.Keyed keys ∧ actual.Keyed keys
  | .sameTag _ a b => (∀ ty ∈ a.2, ty.Keyed keys) ∧ ∀ ty ∈ b.2, ty.Keyed keys
  | _ => True

/-- A context that operations with keys of its table lead to. -/
inductive InferCtx.Reached : InferCtx T → Prop where
  | new : Reached new
  | step {c d : InferCtx T} {op : Op} {answer : Answer} : Reached c → op.Keyed (len c.table) →
      c.step op = some (answer, d) → Reached d

/-! ## What unification makes equal -/

/-- The smallest relation with these pairs of types, the classes and the values of the table, and with two types of one
constructor their parts. It is transitive at variables only: two types that are equal to `Int` are not made equal. -/
inductive Equates (t : T) (pairs : List (Ty × Ty)) : Ty → Ty → Prop where
  | pair {x y : Ty} : (x, y) ∈ pairs → Equates t pairs x y
  | value {v : TyVar} {ty : Ty} : probeValue t v = some ty → Equates t pairs (.var v) ty
  | same {v w : TyVar} : find t v = find t w → Equates t pairs (.var v) (.var w)
  | parts {x y p q : Ty} : Equates t pairs x y → (p, q) ∈ x.parts y → Equates t pairs p q
  | symm {x y : Ty} : Equates t pairs x y → Equates t pairs y x
  | through {x y : Ty} {v : TyVar} : Equates t pairs x (.var v) → Equates t pairs (.var v) y → Equates t pairs x y

/-- A variable without a value that the pairs make equal to one of an integer literal is one itself. -/
def InferCtx.LiteralsApart (c : InferCtx T) (pairs : List (Ty × Ty)) : Prop :=
  ∀ v w, v < len c.table → w < len c.table → probeValue c.table v = none → probeValue c.table w = none →
    Equates c.table pairs (.var v) (.var w) → c.isIntVar v = true → c.isIntVar w = true

end

end Emela.Infer
