import Emela.Match.Core

/-!
# The functions that `derive Eq` generates

The generators of `mono/derive.rs` and the part of the Core IR they build. New locals are numbered from a counter.
-/

namespace Emela.Derive

open Lir (CtorRef EnumId)
open Match (Core Lit Local Pat Ty)

abbrev FnId := Nat

mutual

/-- Equality of types: in the source types are interned. -/
def sameTy : Ty → Ty → Bool
  | .int, .int | .int64, .int64 | .float, .float | .bool, .bool | .string, .string | .unit, .unit | .never, .never => true
  | .tuple as, .tuple bs => sameTys as bs
  | .list a, .list b => sameTy a b
  | .enum i as, .enum j bs => i == j && sameTys as bs
  | .param i, .param j => i == j
  | .other i, .other j => i == j
  | _, _ => false

def sameTys : List Ty → List Ty → Bool
  | [], [] => true
  | a :: as, b :: bs => sameTy a b && sameTys as bs
  | _, _ => false

end

mutual

theorem sameTy_iff : ∀ a b : Ty, sameTy a b = true ↔ a = b
  | .tuple as, b => by cases b <;> simp [sameTy, sameTys_iff as]
  | .list a, b => by cases b <;> simp [sameTy, sameTy_iff a]
  | .enum i as, b => by cases b <;> simp [sameTy, sameTys_iff as]
  | .param i, b => by cases b <;> simp [sameTy]
  | .other i, b => by cases b <;> simp [sameTy]
  | .int, b | .int64, b | .float, b | .bool, b | .string, b | .unit, b | .never, b => by cases b <;> simp [sameTy]

theorem sameTys_iff : ∀ as bs : List Ty, sameTys as bs = true ↔ as = bs
  | [], bs => by cases bs <;> simp [sameTys]
  | a :: as, bs => by cases bs <;> simp [sameTys, sameTy_iff a, sameTys_iff as]

end

instance : DecidableEq Ty := fun a b => decidable_of_iff _ (sameTy_iff a b)

inductive OpTy where
  | int | int64 | float | bool | string | structural
deriving DecidableEq

inductive BinOp where
  | eq | lt | and
deriving DecidableEq

inductive Expr where
  | lit (l : Lit)
  | var (x : Local)
  | binary (op : BinOp) (ty : OpTy) (lhs rhs : Expr)
  | ifte (cond yes no : Expr)
  | bindIn (x : Local) (value body : Expr)
  | cases (scrutinee : Expr) (arms : List (Pat × Expr))
  /-- A constructor without fields. -/
  | ctor (c : CtorRef)
  /-- The impl of the trait function for `Self` = `ty`, written or derived. -/
  | call (f : FnId) (ty : Ty) (x y : Local)
  | panic (message : String)

/-- The module: its enums and the impls of the trait at hand. -/
structure Module extends Core where
  enumName : EnumId → String
  external : EnumId → Bool
  /-- The labels of a constructor's fields, where it has them. -/
  labels : CtorRef → Option (List String)
  labels_fields : ∀ c names, labels c = some names →
    names.length = ((variants c.enumId)[c.variant]?.getD []).length ∧ names.Nodup ∧ "$tag" ∉ names
  isError : EnumId → Bool
  /-- The address of an error's descriptor in JS. -/
  descriptor : EnumId → Nat
  error_one : ∀ id, isError id = true → (variants id).length = 1
  /-- The type `Any` among the other types. -/
  isAny : Nat → Bool
  /-- `pick_impl` picks an impl that is not in `Dispatch::structural`. -/
  written : Ty → Bool

/-! ## What is compared as a whole -/

/-- The parts of a type that may be compared by its structure, if all of them may. -/
def Module.parts (m : Module) : Ty → Option (List Ty)
  | .int | .int64 | .float | .bool | .string | .unit | .never => some []
  | .other n => if m.isAny n then some [] else none
  | .param _ => none
  | .list t => if m.written (.list t) then none else some [t]
  | .tuple ts => if m.written (.tuple ts) then none else some ts
  | .enum id args =>
      if m.external id ∨ m.written (.enum id args) then none
      else some (((m.variants id).flatMap fun tys => tys.map (Ty.subst args)))

def structuralAll (structural : Ty → Option Bool) : List Ty → Option Bool
  | [] => some true
  | t :: ts => (structural t).bind fun b => if b then structuralAll structural ts else some false

/-- `structural`. `none` when the fuel ends first. -/
def Module.structural (m : Module) : Nat → Ty → List Ty → Option Bool
  | 0, _, _ => none
  | n + 1, ty, seen =>
      if ty ∈ seen then some true
      else match m.parts ty with
        | none => some false
        | some ts => structuralAll (fun t => m.structural n t (ty :: seen)) ts

/-- The function tells what `structural` returns where it returns. -/
def Module.Decides (m : Module) (st : Ty → Bool) : Prop := ∀ n ty b, m.structural n ty [] = some b → st ty = b

/-! ## Parts of both generators -/

/-- New locals, one for each type. -/
def binds (tys : List Ty) (next : Local) : List Local := List.range' next tys.length

def ctorPat (c : CtorRef) (bs : List Local) : Pat := .ctor c (bs.map .bind)

/-- `match tuple { (binds..) -> body }`. -/
def takeApart (tuple : Local) (bs : List Local) (body : Expr) : Expr :=
  .cases (.var tuple) [(.tuple (bs.map .bind), body)]

/-- `a && b && ...`, `True` for none. -/
def andAll : List Expr → Expr
  | [] => .lit (.bool true)
  | [e] => e
  | e :: es => .binary .and .bool e (andAll es)

/-! ## Eq -/

section
variable (st : Ty → Bool) (f : FnId)

mutual

/-- `eq_val`, with the counter of locals before and after. -/
def eqVal (ty : Ty) (x y : Local) (next : Local) : Expr × Local :=
  match ty with
  | .unit | .never => (.lit (.bool true), next)
  | .int => (.binary .eq .int (.var x) (.var y), next)
  | .int64 => (.binary .eq .int64 (.var x) (.var y), next)
  | .float => (.binary .eq .float (.var x) (.var y), next)
  | .bool => (.binary .eq .bool (.var x) (.var y), next)
  | .string => (.binary .eq .string (.var x) (.var y), next)
  | .tuple ts =>
      if st (.tuple ts) then (.binary .eq .structural (.var x) (.var y), next)
      else
        let xs := binds ts next
        let ys := binds ts (next + ts.length)
        let (eqs, next) := eqVals ts xs ys (next + 2 * ts.length)
        (takeApart x xs (takeApart y ys (andAll eqs)), next)
  | ty => if st ty then (.binary .eq .structural (.var x) (.var y), next) else (.call f ty x y, next)

def eqVals (tys : List Ty) (xs ys : List Local) (next : Local) : List Expr × Local :=
  match tys, xs, ys with
  | t :: ts, x :: xs, y :: ys =>
      let (e, next) := eqVal t x y next
      let (es, next) := eqVals ts xs ys next
      (e :: es, next)
  | _, _, _ => ([], next)

end

/-- The arms of `eq_enum` for the constructors from index `k` on. -/
def eqArms (id : EnumId) (many : Bool) (b : Local) : Nat → List (List Ty) → Local → List (Pat × Expr) × Local
  | _, [], next => ([], next)
  | k, tys :: variants, next =>
      let xs := binds tys next
      let ys := binds tys (next + tys.length)
      let (eqs, next) := eqVals st f tys xs ys (next + 2 * tys.length)
      let inner := (ctorPat ⟨id, k⟩ ys, andAll eqs) :: if many then [(.wild, .lit (.bool false))] else []
      let (arms, next) := eqArms id many b (k + 1) variants next
      ((ctorPat ⟨id, k⟩ xs, .cases (.var b) inner) :: arms, next)

/-- The constructors of the enum with their field types. -/
def Module.variantsOf (m : Module) (id : EnumId) (args : List Ty) : List (List Ty) :=
  (m.variants id).map (·.map (Ty.subst args))

/-- `eq_enum`. -/
def eqEnum (m : Module) (id : EnumId) (args : List Ty) (a b next : Local) : Expr :=
  let variants := m.variantsOf id args
  let arms := (eqArms st f id (1 < variants.length) b 0 variants next).1
  if arms.isEmpty then .binary .eq .structural (.var a) (.var b) else .cases (.var a) arms

/-- The body that `define_derived` gives the function of a derived Eq. -/
def derivedEq (m : Module) (id : EnumId) (args : List Ty) (a b next : Local) : Expr :=
  if st (.enum id args) then .binary .eq .structural (.var a) (.var b) else eqEnum st f m id args a b next

end

end Emela.Derive
