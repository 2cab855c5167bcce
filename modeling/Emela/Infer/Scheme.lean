import Emela.Infer.Context

/-!
# Type schemes

`scheme.rs` and the parts of `infer.rs` that generalize a type and instantiate a scheme. The first argument of a function
that follows bindings bounds how deep it goes, as for `resolve`.
-/

namespace Emela.Infer

open UnificationTable

inductive ParamKind where
  | type | set
deriving DecidableEq

structure TyParam where
  name : String
  kind : ParamKind
  bounds : List String
  traits : List DefId
deriving DecidableEq

/-- `TyParam::new` and `TyParam::set` -/
def TyParam.new (name : String) (kind : ParamKind) : TyParam := ⟨name, kind, [], []⟩

/-- `Ty::Bound(i)` inside `ty` refers to `params[i]`. -/
structure Scheme where
  params : List TyParam
  ty : Ty
deriving DecidableEq

/-! ## Names -/

/-- `A` to `Z`, then `T26`, `T27`, ... -/
def paramName (i : Nat) : String :=
  if i < 26 then String.singleton (Char.ofNat ('A'.toNat + i)) else "T" ++ i.repr

/-- With `E`: `E`, `E1`, `E2`, ... -/
def setParamName (letter : String) (i : Nat) : String := if i = 0 then letter else letter ++ i.repr

/-- The loop for a name that no parameter has, and the next number; nothing where the first argument, the count of the
names to try, runs out. -/
def freshName (name : Nat → String) (params : List TyParam) : Nat → Nat → Option (String × Nat)
  | 0, _ => none
  | fuel + 1, next =>
    if params.any (·.name == name next) then freshName name params fuel (next + 1) else some (name next, next + 1)

/-! ## Free variables -/

section
variable {T : Type} [UnificationTable T]

/-- `collect_free_vars` -/
def collectFreeVars (t : T) : Nat → Ty → List TyVar → Option (List TyVar)
  | 0, _, _ => none
  | n + 1, ty, out => do
    match ← shallowResolve t (n + 1) ty with
    | .var v => return if v ∈ out then out else out ++ [v]
    | ty => ty.children.foldlM (fun out child => collectFreeVars t n child out) out

end

/-- The loop of `collect_row_vars` over a set of the type. -/
def collectVars (kind : SetKind) (row : Row) (out : List (RowVar × SetKind)) : List (RowVar × SetKind) :=
  row.foldl (fun out e =>
    match e with
    | .var v => if out.any (·.1 == v) then out else out ++ [(v, kind)]
    | _ => out) out

mutual

/-- `collect_row_vars` -/
def collectRowVars : Ty → List (RowVar × SetKind) → List (RowVar × SetKind)
  | .fn ps r e u, out =>
    let out := collectVars .effects u (collectVars .errors e out)
    collectInRow u (collectInRow e (collectRowVars r (collectInEach ps out)))
  | .set kind row, out => collectInRow row (collectVars kind row out)
  | .cap _ tys, out | .tuple tys, out | .named _ tys, out => collectInEach tys out
  | .list ty, out => collectRowVars ty out
  | _, out => out

def collectInEach : List Ty → List (RowVar × SetKind) → List (RowVar × SetKind)
  | [], out => out
  | ty :: tys, out => collectInEach tys (collectRowVars ty out)

/-- The types inside a set. -/
def collectInRow : List RowElem → List (RowVar × SetKind) → List (RowVar × SetKind)
  | [], out => out
  | .of ty :: row, out => collectInRow row (collectRowVars ty out)
  | .tag _ args :: row, out => collectInRow row (collectInEach args out)
  | _ :: row, out => collectInRow row out

end

def freeRowVars (ty : Ty) : List (RowVar × SetKind) := collectRowVars ty []

/-! ## Replacing -/

section
variable (map : List (TyVar × Nat)) (rows : List (RowVar × Nat))

mutual

def replaceVars : Ty → Ty
  | .var v =>
    match map.lookup v with
    | some i => .bound i
    | none => .var v
  | .set kind row => .set kind (replaceRow row [])
  | .fn ps r e u => .fn (replaceEach ps) (replaceVars r) (replaceRow e []) (replaceRow u [])
  | .cap d args => .cap d (replaceEach args)
  | .tuple elems => .tuple (replaceEach elems)
  | .named c args => .named c (replaceEach args)
  | .list elem => .list (replaceVars elem)
  | .prim p => .prim p
  | .never => .never
  | .bound i => .bound i
  | .error => .error

def replaceEach : List Ty → List Ty
  | [] => []
  | ty :: tys => replaceVars ty :: replaceEach tys

/-- `flat_map` with `replaceElem`, from the set it has made so far. -/
def replaceRow : List RowElem → Row → Row
  | [], out => out
  | e :: row, out => replaceRow row (Row.extend out (replaceElem e))

def replaceElem : RowElem → Row
  | .var v =>
    match rows.lookup v with
    | some i => [.bound i]
    | none => [.var v]
  | .of ty => [.of (replaceVars ty)]
  | .tag d args => [.tag d (replaceEach args)]
  | .bound i => [.bound i]

end

end

section
variable (tys : List Ty) (rows : List Row)

mutual

def substitute : Ty → Ty
  | .bound i => tys[i]?.getD (.bound i)
  | .fn ps r e u => .fn (substituteEach ps) (substitute r) (substituteRow e []) (substituteRow u [])
  | .set kind row => .set kind (substituteRow row [])
  | .cap d args => .cap d (substituteEach args)
  | .tuple elems => .tuple (substituteEach elems)
  | .named c args => .named c (substituteEach args)
  | .list elem => .list (substitute elem)
  | .prim p => .prim p
  | .never => .never
  | .var v => .var v
  | .error => .error

def substituteEach : List Ty → List Ty
  | [] => []
  | ty :: tys => substitute ty :: substituteEach tys

/-- `substitute_row`, from the set it has made so far. -/
def substituteRow : List RowElem → Row → Row
  | [], out => out
  | e :: row, out => substituteRow row (Row.extend out (substituteElem e))

def substituteElem : RowElem → Row
  | .bound i => rows[i]?.getD [.bound i]
  | .of ty => [.of (substitute ty)]
  | .tag d args => [.tag d (substituteEach args)]
  | .var v => [.var v]

end

end

/-! ## Generalizing -/

/-- `lower::IMMEDIATE` -/
def IMMEDIATE : String := "Immediate"

/-- The loop over the type variables: those quantified with their indices, and the parameters. -/
def quantifyVars (env : List TyVar) :
    List TyVar → List (TyVar × Nat) → List TyParam → Nat → Option (List (TyVar × Nat) × List TyParam)
  | [], map, params, _ => some (map, params)
  | v :: vs, map, params, next =>
    if v ∈ env then quantifyVars env vs map params next
    else do
      let (name, next) ← freshName paramName params (params.length + 1) next
      quantifyVars env vs (map ++ [(v, params.length)]) (params ++ [.new name .type]) next

/-- The letter of a set parameter. -/
def setLetter : SetKind → String
  | .errors => "E"
  | .effects => "R"

/-- The loop over the set variables, with the next number of each kind. -/
def quantifyRows (immediate : RowVar → Bool) :
    List (RowVar × SetKind) → List (RowVar × Nat) → List TyParam → (SetKind → Nat) →
      Option (List (RowVar × Nat) × List TyParam)
  | [], map, params, _ => some (map, params)
  | (v, kind) :: vs, map, params, next => do
    let (name, n) ← freshName (setParamName (setLetter kind)) params (params.length + 1) (next kind)
    let param := TyParam.new name .set
    let param := if immediate v then { param with bounds := param.bounds ++ [IMMEDIATE] } else param
    quantifyRows immediate vs (map ++ [(v, params.length)]) (params ++ [param])
      fun k => if k = kind then n else next k

section
variable {T : Type} [UnificationTable T]

namespace InferCtx

/-- The scheme, and the set variables and type variables quantified with the indices of their parameters. -/
def generalizeBounded (n : Nat) (ty : Ty) (existing : List TyParam) (envVars : List TyVar) (immediate : RowVar → Bool)
    (c : InferCtx T) : Option (Scheme × List (RowVar × Nat) × List (TyVar × Nat)) := do
  let env ← envVars.foldlM (fun env v => collectFreeVars c.table n (.var v) env) []
  let vars ← collectFreeVars c.table n ty []
  let (map, params) ← quantifyVars env vars [] existing 0
  let ty ← c.resolve n ty
  let (rowMap, params) ← quantifyRows immediate (freeRowVars ty) [] params fun _ => 0
  return (⟨params, replaceVars map rowMap ty⟩, rowMap, map)

def generalizeWith (n : Nat) (ty : Ty) (existing : List TyParam) (envVars : List TyVar) (c : InferCtx T) :
    Option Scheme := do
  let (scheme, _, _) ← c.generalizeBounded n ty existing envVars fun _ => false
  return scheme

def generalize (n : Nat) (ty : Ty) (envVars : List TyVar) (c : InferCtx T) : Option Scheme :=
  c.generalizeWith n ty [] envVars

/-! ## Instantiating -/

/-- The arguments for the parameters, and the context with their variables. -/
def freshArgs : List TyParam → InferCtx T → (List Ty × List Row) × InferCtx T
  | [], c => (([], []), c)
  | p :: ps, c =>
    let ty := Ty.var (len c.table)
    let c := c.freshVar
    let (row, c) : Row × InferCtx T :=
      match p.kind with
      | .type => ([], c)
      | .set => ([.var c.nextRowVar], c.newRowVar)
    let ((tys, rows), c) := freshArgs ps c
    ((ty :: tys, row :: rows), c)

def instantiate (scheme : Scheme) (c : InferCtx T) : Ty × InferCtx T :=
  let ((tys, rows), c) := freshArgs scheme.params c
  (substitute tys rows scheme.ty, c)

end InferCtx

end

end Emela.Infer
