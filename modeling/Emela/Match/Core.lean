import Emela.Lib.F64
import Emela.Lir.Ir

/-!
# Patterns of the Core IR

Types, patterns and values as the lowering of `match` sees them (`emela-core`'s `ir.rs`), and when a
pattern matches a value. Types are interned in the source; here they are trees. The types no pattern
looks into (functions, handlers, arrays, ...) are `other`.
-/

namespace Emela.Match

open Lir (Const CtorRef EnumId)

abbrev Local := Nat

inductive Ty where
  | int | int64 | float | bool | string | unit | never
  | tuple (elems : List Ty)
  | list (elem : Ty)
  | enum (id : EnumId) (args : List Ty)
  | param (i : Nat)
  | other (n : Nat)

/-- Whether a value of the type has no representation. -/
def Ty.isVoid : Ty → Bool
  | .unit | .never => true
  | _ => false

mutual

/-- The type with its parameters replaced. -/
def Ty.subst (args : List Ty) : Ty → Ty
  | .tuple ts => .tuple (substAll args ts)
  | .list t => .list (t.subst args)
  | .enum id ts => .enum id (substAll args ts)
  | .param i => args.getD i (.param i)
  | t => t

def substAll (args : List Ty) : List Ty → List Ty
  | [] => []
  | t :: ts => t.subst args :: substAll args ts

end

/-- The module: the field types of the constructors of each enum, and how a type is written. -/
structure Core where
  variants : EnumId → List (List Ty)
  name : Ty → String

def Core.fields (core : Core) (id : EnumId) (variant : Nat) (args : List Ty) : Option (List Ty) :=
  (core.variants id)[variant]?.map (·.map (Ty.subst args))

inductive Lit where
  | int (n : Int)
  | int64 (n : Int)
  | float (x : F64)
  | bool (b : Bool)
  | string (s : String)
  | unit

def Lit.ty : Lit → Ty
  | .int _ => .int
  | .int64 _ => .int64
  | .float _ => .float
  | .bool _ => .bool
  | .string _ => .string
  | .unit => .unit

/-- `lit_const`: the constant of a literal with a representation. -/
def Lit.const : Lit → Option Const
  | .int n => some (.int n)
  | .int64 n => some (.int64 n)
  | .float x => some (.float x)
  | .bool b => some (.bool b)
  | .string s => some (.string s)
  | .unit => none

/-- `PartialEq for Const`. -/
def constEq : Const → Const → Bool
  | .int a, .int b | .int64 a, .int64 b => a == b
  | .float a, .float b => F64.eq a b
  | .bool a, .bool b => a == b
  | .string a, .string b => a == b
  | .unit, .unit => true
  | _, _ => false

inductive Pat where
  | wild
  | bind (l : Local)
  | lit (l : Lit)
  | ctor (ctor : CtorRef) (fields : List Pat)
  | tuple (elems : List Pat)
  | list (elems : List Pat) (rest : Option Pat)

inductive Val where
  | const (c : Const)
  | ctor (ctor : CtorRef) (fields : List Val)
  | tuple (elems : List Val)
  | list (elems : List Val)
  | other (n : Nat)

/-! ## Matching -/

/-- Whether the value is the literal. -/
def Lit.matches (l : Lit) (v : Val) : Bool :=
  match v with
  | .const c => constEq c (l.const.getD .unit)
  | _ => false

mutual

/-- The pattern variables with the values they take, if the pattern matches. -/
def Pat.bindings : Pat → Val → Option (List (Local × Val))
  | .wild, _ => some []
  | .bind l, v => some [(l, v)]
  | .lit l, v => if l.matches v then some [] else none
  | .ctor c ps, .ctor d vs => if c.variant = d.variant then bindingsAll ps vs else none
  | .tuple ps, .tuple vs => bindingsAll ps vs
  | .list ps rest, .list vs => do
      let (bs, more) ← bindingsElems ps vs
      let cs ← bindingsRest rest more
      return bs ++ cs
  | _, _ => none

/-- The bindings of patterns that match the values one by one. -/
def bindingsAll : List Pat → List Val → Option (List (Local × Val))
  | [], [] => some []
  | p :: ps, v :: vs => do
      let bs ← p.bindings v
      let cs ← bindingsAll ps vs
      return bs ++ cs
  | _, _ => none

/-- The bindings of patterns that match the first values, and the values after them. -/
def bindingsElems : List Pat → List Val → Option (List (Local × Val) × List Val)
  | [], vs => some ([], vs)
  | p :: ps, v :: vs => do
      let bs ← p.bindings v
      let (cs, more) ← bindingsElems ps vs
      return (bs ++ cs, more)
  | _ :: _, [] => none

/-- The bindings of what stands after the elements of a list pattern. -/
def bindingsRest : Option Pat → List Val → Option (List (Local × Val))
  | none, [] => some []
  | none, _ :: _ => none
  | some r, vs => r.bindings (.list vs)

end

mutual

/-- The variables of a pattern. -/
def Pat.locals : Pat → List Local
  | .wild | .lit _ => []
  | .bind l => [l]
  | .ctor _ ps | .tuple ps => localsAll ps
  | .list ps rest => localsAll ps ++ localsRest rest

def localsAll : List Pat → List Local
  | [] => []
  | p :: ps => p.locals ++ localsAll ps

def localsRest : Option Pat → List Local
  | none => []
  | some r => r.locals

end

/-! ## Typing -/

section
variable (core : Core)

inductive HasTy : Val → Ty → Prop where
  | int {n} : HasTy (.const (.int n)) .int
  | int64 {n} : HasTy (.const (.int64 n)) .int64
  | float {x} : HasTy (.const (.float x)) .float
  | bool {b} : HasTy (.const (.bool b)) .bool
  | string {s} : HasTy (.const (.string s)) .string
  | unit : HasTy (.const .unit) .unit
  | ctor {id variant args fields tys} : core.fields id variant args = some tys →
      List.Forall₂ HasTy fields tys → HasTy (.ctor ⟨id, variant⟩ fields) (.enum id args)
  | host {n id args} : core.variants id = [] → HasTy (.other n) (.enum id args)
  | tuple {vs ts} : List.Forall₂ HasTy vs ts → HasTy (.tuple vs) (.tuple ts)
  | list {vs elem} : (∀ v ∈ vs, HasTy v elem) → HasTy (.list vs) (.list elem)
  | other {n k} : HasTy (.other n) (.other k)

/-- The pattern can stand against a value of the type (`Verifier::pat`). -/
inductive PatTy : Pat → Ty → Prop where
  | wild {ty} : PatTy .wild ty
  | bind {l ty} : PatTy (.bind l) ty
  | lit {l} : PatTy (.lit l) l.ty
  | ctor {id variant args ps tys} : core.fields id variant args = some tys →
      List.Forall₂ PatTy ps tys → PatTy (.ctor ⟨id, variant⟩ ps) (.enum id args)
  | tuple {ps ts} : List.Forall₂ PatTy ps ts → PatTy (.tuple ps) (.tuple ts)
  | list {ps rest elem} : (∀ p ∈ ps, PatTy p elem) → (∀ r ∈ rest, PatTy r (.list elem)) →
      PatTy (.list ps rest) (.list elem)

end

end Emela.Match
