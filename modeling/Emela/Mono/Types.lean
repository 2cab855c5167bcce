import Mathlib.Data.List.Forall2

/-!
# Concrete types

`Type` of `ir.rs` after monomorphization, without `Param`, and the two rules about flowing from one type to another:
`compatible` of `verify.rs` for monomorphic modules, and what the type checker lets through.
-/

namespace Emela.Mono

abbrev EnumId := Nat
abbrev EffectId := Nat

inductive Prim where
  | int | int64 | float | bool | string | bytes | unit | never | evidence | fiberScope | any
deriving DecidableEq

/-- `SetSummary` with no set type parameters. -/
structure SetSummary where
  fails : Bool
  suspends : Bool
  ev : Bool
deriving DecidableEq

/-- `sets` of a function type is `None` on concrete types. -/
inductive Ty where
  | prim (p : Prim)
  | array (elem : Ty)
  | tuple (elems : List Ty)
  | list (elem : Ty)
  | enum (id : EnumId) (args : List Ty)
  | fn (params : List Ty) (ret : Ty) (fails suspends ev : Bool)
  | handler (effect : EffectId)
  | cell (elem : Ty)
  | set (s : SetSummary)

namespace Ty

abbrev unit : Ty := .prim .unit
abbrev never : Ty := .prim .never
abbrev evidence : Ty := .prim .evidence
abbrev any : Ty := .prim .any

mutual

def beq : Ty → Ty → Bool
  | .prim p, .prim q => p == q
  | .array x, .array y | .list x, .list y | .cell x, .cell y => x.beq y
  | .tuple xs, .tuple ys => beqs xs ys
  | .enum i xs, .enum j ys => i == j && beqs xs ys
  | .fn ps r f s e, .fn ps' r' f' s' e' => beqs ps ps' && r.beq r' && f == f' && s == s' && e == e'
  | .handler i, .handler j => i == j
  | .set s, .set t => s == t
  | _, _ => false
termination_by structural x => x

def beqs : List Ty → List Ty → Bool
  | [], [] => true
  | x :: xs, y :: ys => x.beq y && beqs xs ys
  | _, _ => false
termination_by structural x => x

end

mutual

theorem beq_iff : ∀ a b : Ty, a.beq b = true ↔ a = b
  | .prim _, b => by cases b <;> simp [beq]
  | .array x, b => by cases b <;> simp [beq, beq_iff x]
  | .tuple xs, b => by cases b <;> simp [beq, beqs_iff xs]
  | .list x, b => by cases b <;> simp [beq, beq_iff x]
  | .enum _ xs, b => by cases b <;> simp [beq, beqs_iff xs]
  | .fn ps r _ _ _, b => by cases b <;> simp [beq, beqs_iff ps, beq_iff r, and_assoc]
  | .handler _, b => by cases b <;> simp [beq]
  | .cell x, b => by cases b <;> simp [beq, beq_iff x]
  | .set _, b => by cases b <;> simp [beq]

theorem beqs_iff : ∀ xs ys : List Ty, beqs xs ys = true ↔ xs = ys
  | [], ys => by cases ys <;> simp [beqs]
  | x :: xs, ys => by cases ys <;> simp [beqs, beq_iff x, beqs_iff xs]

end

instance : DecidableEq Ty := fun a b => decidable_of_iff _ (beq_iff a b)

/-! ## Flows -/

mutual

/-- Whether a value of type `a` may flow into a slot of type `b`, in the strict rules: an empty table is never `()`, and
function types agree on the table. -/
def compatible (a b : Ty) : Bool :=
  if a = b || a = never || a = any || b = any then true
  else match a, b with
    | .fn ps r _ _ ev, .fn qs s _ _ ev' => allCompatible qs ps && compatible r s && ev == ev'
    | .list x, .list y | .array x, .array y => compatible x y
    | .tuple xs, .tuple ys => allCompatible xs ys
    | .enum i xs, .enum j ys => i == j && allCompatible xs ys
    | .set _, .set _ | .set _, .prim .unit | .prim .unit, .set _ => true
    | _, _ => false
termination_by sizeOf a + sizeOf b

def allCompatible : List Ty → List Ty → Bool
  | [], [] => true
  | x :: xs, y :: ys => compatible x y && allCompatible xs ys
  | _, _ => false
termination_by xs ys => sizeOf xs + sizeOf ys

end

mutual

/-- What the type checker lets through: a function as one with larger sets, through parameters the other way round and
through results. Type arguments and the parts of tuples are not adapted, so for them the strict rules stand. -/
def usable (a b : Ty) : Bool :=
  if a = b || a = never || a = any || b = any then true
  else match a, b with
    | .fn ps r fails suspends ev, .fn qs s fails' suspends' ev' =>
      allUsable qs ps && usable r s && (! fails || fails') && (! suspends || suspends') && (! ev || ev')
    | a, b => compatible a b
termination_by sizeOf a + sizeOf b

def allUsable : List Ty → List Ty → Bool
  | [], [] => true
  | x :: xs, y :: ys => usable x y && allUsable xs ys
  | _, _ => false
termination_by xs ys => sizeOf xs + sizeOf ys

end

@[simp] theorem compatible_refl (a : Ty) : compatible a a = true := by
  rw [compatible.eq_def]
  simp

theorem length_eq_of_allUsable : ∀ {xs ys : List Ty}, allUsable xs ys = true → xs.length = ys.length
  | [], [], _ => rfl
  | x :: xs, y :: ys, h => by
    rw [allUsable, Bool.and_eq_true] at h
    simp [length_eq_of_allUsable h.2]
  | [], y :: ys, h => by simp [allUsable] at h
  | x :: xs, [], h => by simp [allUsable] at h

end Ty

/-! ## Adapters of function values

`needs_adapter` and `adapter` of `mono.rs`, and the rules of `verify.rs` for the expressions an adapter is made of. `α`
is the type of the other expressions, which an adapter only carries as its value. -/

/-- An index into the module's table of locals. -/
abbrev Local := Nat

structure LocalData where
  hint : String
  ty : Ty
deriving DecidableEq

abbrev Locals := List LocalData

inductive Expr (α : Type) where
  | var (l : Local)
  /-- A call of a function value. -/
  | call (callee : Expr α) (args : List (Expr α)) (fails suspends : Bool)
  | let_ (var : Local) (value body : Expr α)
  | lambda (params : List Local) (ty : Ty) (body : Expr α) (suspends : Bool)
  | other (e : α)

variable {α : Type}

/-! ## Making adapters -/

mutual

def needsAdapter (src dst : Ty) : Bool :=
  if src = dst then false
  else match src, dst with
    | .fn ps r _ _ ev, .fn qs s _ _ ev' =>
      (ev' && ! ev) || ps.length == qs.length && (anyNeedsAdapter qs ps || needsAdapter r s)
    | _, _ => false
termination_by sizeOf src + sizeOf dst

/-- Some pair of the two lists needs an adapter. -/
def anyNeedsAdapter : List Ty → List Ty → Bool
  | q :: qs, p :: ps => needsAdapter q p || anyNeedsAdapter qs ps
  | _, _ => false
termination_by qs ps => sizeOf qs + sizeOf ps

end

/-- `out.local`. -/
def newLocal (hint : String) (ty : Ty) (ls : Locals) : Local × Locals := (ls.length, ls ++ [⟨hint, ty⟩])

def newLocals (hint : String) : List Ty → Locals → List Local × Locals
  | [], ls => ([], ls)
  | t :: ts, ls =>
    let (l, ls) := newLocal hint t ls
    let (rest, ls) := newLocals hint ts ls
    (l :: rest, ls)

mutual

/-- `value` of type `src` as a value of type `dst`, and the locals with those the adapter binds; nothing where the
source has `unreachable!`. -/
def adapter (value : Expr α) (src dst : Ty) (ls : Locals) : Option (Expr α × Locals) :=
  match src, dst with
  | .fn ps r fails suspends ev, .fn qs s fails' suspends' ev' => do
    let (v, ls) := newLocal "f" (.fn ps r fails suspends ev) ls
    let (params, ls) := newLocals "x" qs ls
    let (args, ls) ← adaptArgs params qs ps ls
    let (params, args, ls) :=
      if ev' then
        let (e, ls) := newLocal "ev" .evidence ls
        (params ++ [e], if ev then args ++ [.var e] else args, ls)
      else (params, args, ls)
    let call := .call (.var v) args fails suspends
    let (body, ls) ← (if needsAdapter r s then adapter call r s ls else some (call, ls))
    some (.let_ v value (.lambda params (.fn qs s fails' suspends' ev') body suspends), ls)
  | _, _ => none
termination_by sizeOf src + sizeOf dst

/-- The parameters, of types `have`, as arguments of types `want`. -/
def adaptArgs : List Local → List Ty → List Ty → Locals → Option (List (Expr α) × Locals)
  | p :: params, have_ :: haves, want :: wants, ls => do
    let x := .var p
    let (arg, ls) ← (if needsAdapter have_ want then adapter x have_ want ls else some (x, ls))
    let (args, ls) ← adaptArgs params haves wants ls
    some (arg :: args, ls)
  | _, _, _, ls => some ([], ls)
termination_by _ haves wants => sizeOf haves + sizeOf wants

end

/-! ## Checking them -/

/-- The lambda's own checks against its type: the count of parameters, their types and the table's. -/
def lambdaFits (table : Locals) (params : List Local) (types : List Ty) (ev : Bool) : Bool :=
  match params.mapM (table[·]?) with
  | some data =>
    params.length == types.length + ev.toNat && (types.zip data).all (fun (t, p) => t.compatible p.ty) &&
      (! ev || data.getLast?.all (·.ty = .evidence))
  | none => false

mutual

/-- The type of an expression the verifier finds nothing wrong with. -/
def typeOf (other : α → Option Ty) (table : Locals) : Expr α → Option Ty
  | .var l => table[l]?.map (·.ty)
  | .call callee args fails suspends => do
    match ← typeOf other table callee with
    | .fn params ret fails' suspends' ev =>
      let actual ← typesOf other table args
      if (! fails' || fails) && (! suspends' || suspends) &&
          Ty.allCompatible actual (params ++ if ev then [.evidence] else []) then some ret
      else none
    | .prim .never => (typesOf other table args).map fun _ => .never
    | .prim .any => (typesOf other table args).map fun _ => .any
    | _ => none
  | .let_ v value body => do
    let t ← typeOf other table value
    let data ← table[v]?
    if t.compatible data.ty then typeOf other table body else none
  | .lambda params ty body suspends => do
    match ty with
    | .fn types ret _ suspends' ev =>
      let t ← typeOf other table body
      if (! suspends || suspends') && lambdaFits table params types ev && t.compatible ret then some ty else none
    | _ => none
  | .other e => other e
termination_by structural x => x

def typesOf (other : α → Option Ty) (table : Locals) : List (Expr α) → Option (List Ty)
  | [] => some []
  | e :: es => do
    let t ← typeOf other table e
    let ts ← typesOf other table es
    some (t :: ts)
termination_by structural x => x

end

end Emela.Mono
