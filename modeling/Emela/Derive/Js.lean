import Emela.Derive.Code

/-!
# Values of the JS target and their comparison

JS values with the identity of objects, `$eq` of `runtime.mjs`, and what the JS code emitted for the functions of
`Derive.Code` computes.
-/

namespace Emela.Derive

open Lir (CtorRef EnumId)
open Match (Lit Local Pat Ty)

inductive JsVal where
  | undefined | null
  | bool (b : Bool)
  /-- A number that is an Int. -/
  | int (n : Int)
  | number (x : F64)
  | bigint (n : Int)
  | string (s : String)
  | array (id : Nat) (items : List JsVal)
  /-- The values of the keys, in order. -/
  | object (id : Nat) (keys : List String) (vals : List JsVal)
  | function (id : Nat)

namespace JsVal

/-- `===`: numbers by value, objects by identity. -/
def strictEq : JsVal → JsVal → Bool
  | .undefined, .undefined | .null, .null => true
  | .bool a, .bool b => a == b
  | .int a, .int b => a == b
  | .number a, .number b => F64.eq a b
  | .bigint a, .bigint b => a == b
  | .string a, .string b => a == b
  | .array i _, .array j _ => i == j
  | .object i _ _, .object j _ _ => i == j
  | .function i, .function j => i == j
  | _, _ => false

def lookup (k : String) : List String → List JsVal → Option JsVal
  | key :: keys, v :: vals => if key = k then some v else lookup k keys vals
  | _, _ => none

/-- The property of its own with the key. The elements of an array are its properties `0`, `1`, .... -/
def own (v : JsVal) (k : String) : Option JsVal :=
  match v with
  | .array _ items => k.toNat?.bind fun i => if toString i = k then items[i]? else none
  | .object _ keys vals => lookup k keys vals
  | _ => none

/-- The number of `Object.keys`. -/
def keyCount : JsVal → Nat
  | .array _ items => items.length
  | .object _ keys _ => keys.length
  | _ => 0

/-- `typeof v === "object"`, without `null`. -/
def isObject : JsVal → Bool
  | .array _ _ | .object _ _ _ => true
  | _ => false

/-- The pairs of elements of two arrays pushed on the stack. -/
def pushItems : List JsVal → List JsVal → List (JsVal × JsVal) → List (JsVal × JsVal)
  | x :: xs, y :: ys, stack => pushItems xs ys ((x, y) :: stack)
  | _, _, stack => stack

/-- The pairs of properties pushed on the stack, `none` where `y` lacks one. -/
def pushProps (y : JsVal) : List String → List JsVal → List (JsVal × JsVal) → Option (List (JsVal × JsVal))
  | k :: keys, v :: vals, stack => (y.own k).bind fun w => pushProps y keys vals ((v, w) :: stack)
  | _, _, stack => some stack

/-- What each turn of `$eq` takes from. -/
noncomputable def weight (stack : List (JsVal × JsVal)) : Nat := (stack.map fun p => sizeOf p.1).sum

theorem weight_pushItems : ∀ (xs ys : List JsVal) (stack : List (JsVal × JsVal)),
    weight (pushItems xs ys stack) < weight stack + sizeOf xs
  | [], _, stack => by simp [pushItems]
  | _ :: _, [], stack => by simp [pushItems]
  | x :: xs, y :: ys, stack => by
    have ih := weight_pushItems xs ys ((x, y) :: stack)
    simp only [pushItems, weight, List.map_cons, List.sum_cons, List.cons.sizeOf_spec] at ih ⊢
    omega

theorem weight_pushProps {y : JsVal} : ∀ (keys : List String) (vals : List JsVal) (stack stack' : List (JsVal × JsVal)),
    pushProps y keys vals stack = some stack' → weight stack' < weight stack + sizeOf vals
  | [], vals, stack, stack', h => by
    obtain rfl : stack = stack' := by simpa [pushProps] using h
    cases vals <;> simp
  | _ :: _, [], stack, stack', h => by
    obtain rfl : stack = stack' := by simpa [pushProps] using h
    simp
  | k :: keys, v :: vals, stack, stack', h => by
    obtain ⟨w, -, h⟩ := Option.bind_eq_some_iff.mp h
    have ih := weight_pushProps keys vals _ stack' h
    simp only [weight, List.map_cons, List.sum_cons, List.cons.sizeOf_spec] at ih ⊢
    omega

/-- The loop of `$eq`, from the stack of the pairs to compare. -/
def eqLoop : List (JsVal × JsVal) → Bool
  | [] => true
  | (x, y) :: stack =>
      if strictEq x y then eqLoop stack
      else match x with
        | .array _ xs =>
            match y with
            | .array _ ys => if xs.length ≠ ys.length then false else eqLoop (pushItems xs ys stack)
            | _ => false
        | .object _ keys vals =>
            if ¬ y.isObject ∨ keys.length ≠ y.keyCount then false
            else match h : pushProps y keys vals stack with
              | none => false
              | some stack' => eqLoop stack'
        | _ => false
termination_by stack => weight stack
decreasing_by
  · simp only [weight, List.map_cons, List.sum_cons]
    have : 0 < sizeOf x := by cases x <;> simp
    omega
  · have := weight_pushItems xs ys stack
    simp only [weight, List.map_cons, List.sum_cons, JsVal.array.sizeOf_spec] at this ⊢
    omega
  · have := weight_pushProps keys vals stack stack' h
    simp only [weight, List.map_cons, List.sum_cons, JsVal.object.sizeOf_spec] at this ⊢
    omega

/-- `$eq`. -/
def eq (a b : JsVal) : Bool := eqLoop [(a, b)]

end JsVal

/-! ## The emitted code -/

/-- The key of the field `i` of a constructor (`field_key`). -/
def Module.fieldKey (m : Module) (c : CtorRef) (i : Nat) : String :=
  match m.labels c with
  | some names => names.getD i ""
  | none => s!"${i}"

abbrev Env := Local → Option JsVal

def Env.bind (env : Env) (l : Local) (v : JsVal) : Env := fun k => if k = l then some v else env k

def Env.bindAll (env : Env) : List (Local × JsVal) → Env
  | [] => env
  | (l, v) :: bs => (env.bind l v).bindAll bs

/-- What an irrefutable pattern of the generated functions binds. -/
def bindPat (v : JsVal) : Pat → Option (List (Local × JsVal))
  | .wild => some []
  | .bind l => some [(l, v)]
  | _ => none

/-- The patterns against the properties from index `i` on; a property that is missing reads as `undefined`. -/
def bindFields (get : Nat → JsVal) : Nat → List Pat → Option (List (Local × JsVal))
  | _, [] => some []
  | i, p :: ps => do
      let bs ← bindPat (get i) p
      let cs ← bindFields get (i + 1) ps
      return bs ++ cs

/-- The conditions and bindings of `pattern`: `some none` where the conditions fail, `none` for a pattern that the
generated functions do not have. -/
def Module.jsPattern (m : Module) (v : JsVal) : Pat → Option (Option (List (Local × JsVal)))
  | .wild => some (some [])
  | .bind l => some (some [(l, v)])
  | .ctor c ps =>
      if 1 < (m.variants c.enumId).length ∧ ¬ ((v.own "$tag").getD .undefined).strictEq (.int c.variant) then some none
      else (bindFields (fun i => (v.own (m.fieldKey c i)).getD .undefined) 0 ps).map some
  | .tuple ps => (bindFields (fun i => (v.own (toString i)).getD .undefined) 0 ps).map some
  | _ => none

def jsLit : Lit → JsVal
  | .int n => .int n
  | .int64 n => .bigint n
  | .float x => .number x
  | .bool b => .bool b
  | .string s => .string s
  | .unit => .undefined

/-- A comparison of `binary_js`. -/
def jsBinary (op : BinOp) (ty : OpTy) (x y : JsVal) : Option JsVal :=
  match op, ty with
  | .eq, .structural => some (.bool (x.eq y))
  | .eq, _ => some (.bool (x.strictEq y))
  | _, _ => none

section
variable (m : Module)

mutual

/-- What the JS code of a generated comparison computes, where it calls no trait function. -/
def jsEval (env : Env) : Expr → Option JsVal
  | .lit l => some (jsLit l)
  | .var x => env x
  | .binary .and _ lhs rhs => do
      match ← jsEval env lhs with
      | .bool true => jsEval env rhs
      | .bool false => return .bool false
      | _ => none
  | .binary op ty lhs rhs => do
      let x ← jsEval env lhs
      let y ← jsEval env rhs
      jsBinary op ty x y
  | .ifte cond yes no => do
      match ← jsEval env cond with
      | .bool true => jsEval env yes
      | .bool false => jsEval env no
      | _ => none
  | .bindIn x value body => do
      let v ← jsEval env value
      jsEval (env.bind x v) body
  | .cases scrutinee arms => do
      let v ← jsEval env scrutinee
      jsArms env v arms
  | .ctor _ | .call _ _ _ _ | .panic _ => none

def jsArms (env : Env) (v : JsVal) : List (Pat × Expr) → Option JsVal
  | [] => none
  | (p, body) :: arms => do
      match ← m.jsPattern v p with
      | some bs => jsEval (env.bindAll bs) body
      | none => jsArms env v arms

end

end

/-! ## The values of a type -/

/-- The tag of a constructor: its index, or for an error the descriptor, an object of the module. -/
def Module.tag (m : Module) (c : CtorRef) : JsVal :=
  if m.isError c.enumId then .object (m.descriptor c.enumId) ["show"] [.function (m.descriptor c.enumId)]
  else .int c.variant

/-- The keys of the object of a constructor. -/
def Module.keysOf (m : Module) (c : CtorRef) (fields : Nat) : List String :=
  "$tag" :: (List.range fields).map (m.fieldKey c)

/-- The values that represent those of a type. -/
inductive Represents (m : Module) : Ty → JsVal → Prop where
  | int {n} : Represents m .int (.int n)
  | int64 {n} : Represents m .int64 (.bigint n)
  | float {x} : Represents m .float (.number x)
  | bool {b} : Represents m .bool (.bool b)
  | string {s} : Represents m .string (.string s)
  | unit : Represents m .unit .undefined
  | nil {t} : Represents m (.list t) .null
  | cons {t obj h tail} : Represents m t h → Represents m (.list t) tail →
      Represents m (.list t) (.object obj ["h", "t"] [h, tail])
  | tuple {ts obj vs} : List.Forall₂ (Represents m) ts vs → Represents m (.tuple ts) (.array obj vs)
  | enum {id variant args tys obj vs} : (m.variantsOf id args)[variant]? = some tys →
      List.Forall₂ (Represents m) tys vs →
      Represents m (.enum id args) (.object obj (m.keysOf ⟨id, variant⟩ tys.length) (m.tag ⟨id, variant⟩ :: vs))
  | any {n v} : m.isAny n = true → Represents m (.other n) v

/-- The objects of a value are those of the heap at their addresses. -/
inductive InHeap (heap : Nat → JsVal) : JsVal → Prop where
  | array {i xs} : heap i = .array i xs → (∀ x ∈ xs, InHeap heap x) → InHeap heap (.array i xs)
  | object {i keys vals} : heap i = .object i keys vals → (∀ v ∈ vals, InHeap heap v) →
      InHeap heap (.object i keys vals)
  | other {v} : v.isObject = false → InHeap heap v

/-! ## Comparing from the root

`$eq` compares two values from the root, whatever the order in which its stack is taken apart. -/

namespace JsVal

mutual

/-- What `$eq` finds: the same object, or the same parts. -/
def eqTree : JsVal → JsVal → Bool
  | .array i xs, y => strictEq (.array i xs) y ||
      match y with
      | .array _ ys => xs.length == ys.length && eqAll xs ys
      | _ => false
  | .object i keys vals, y => strictEq (.object i keys vals) y ||
      (y.isObject && keys.length == y.keyCount && eqProps y keys vals)
  | x, y => strictEq x y

def eqAll : List JsVal → List JsVal → Bool
  | x :: xs, y :: ys => eqTree x y && eqAll xs ys
  | _, _ => true

def eqProps (y : JsVal) : List String → List JsVal → Bool
  | k :: keys, v :: vals => ((y.own k).any fun w => eqTree v w) && eqProps y keys vals
  | _, _ => true

end

theorem eqTree_object (i : Nat) (keys : List String) (vals : List JsVal) (y : JsVal) :
    eqTree (.object i keys vals) y = (strictEq (.object i keys vals) y ||
      (y.isObject && keys.length == y.keyCount && eqProps y keys vals)) := rfl

/-- All pairs of the stack are equal. -/
def allEq (stack : List (JsVal × JsVal)) : Bool := stack.all fun p => eqTree p.1 p.2

theorem allEq_cons (x y : JsVal) (stack : List (JsVal × JsVal)) : allEq ((x, y) :: stack) = (eqTree x y && allEq stack) := rfl

theorem allEq_pushItems : ∀ (xs ys : List JsVal) (stack : List (JsVal × JsVal)),
    allEq (pushItems xs ys stack) = (eqAll xs ys && allEq stack)
  | [], _, _ => by simp [pushItems, eqAll]
  | _ :: _, [], _ => by simp [pushItems, eqAll]
  | x :: xs, y :: ys, stack => by
    rw [pushItems, allEq_pushItems, allEq_cons, eqAll, ← Bool.and_assoc, Bool.and_comm (eqAll xs ys)]

theorem pushProps_none {y : JsVal} : ∀ {keys : List String} {vals : List JsVal} {stack : List (JsVal × JsVal)},
    pushProps y keys vals stack = none → eqProps y keys vals = false
  | [], _, _, h => by simp [pushProps] at h
  | _ :: _, [], _, h => by simp [pushProps] at h
  | k :: keys, v :: vals, stack, h => by
    rw [pushProps] at h
    cases hw : y.own k with
    | none => simp [eqProps, hw]
    | some w =>
      rw [hw, Option.bind_some] at h
      rw [eqProps, pushProps_none h, Bool.and_false]

theorem allEq_pushProps {y : JsVal} : ∀ {keys : List String} {vals : List JsVal} {stack stack' : List (JsVal × JsVal)},
    pushProps y keys vals stack = some stack' → allEq stack' = (eqProps y keys vals && allEq stack)
  | [], _, _, _, h => by
    cases h
    simp [eqProps]
  | _ :: _, [], _, _, h => by
    cases h
    simp [eqProps]
  | k :: keys, v :: vals, stack, stack', h => by
    obtain ⟨w, hw, h⟩ := Option.bind_eq_some_iff.mp h
    rw [allEq_pushProps h, allEq_cons, eqProps, hw, Option.any_some, ← Bool.and_assoc, Bool.and_comm (eqProps y keys vals)]

theorem eqLoop_eq (stack : List (JsVal × JsVal)) : eqLoop stack = allEq stack := by
  fun_induction eqLoop stack with
  | case1 => rfl
  | case2 x y stack heq ih =>
    have hxy : eqTree x y = true := by cases x <;> simp_all [eqTree]
    rw [ih, allEq_cons, hxy, Bool.true_and]
  | case3 stack i xs j ys heq hlen => simp_all [allEq_cons, eqTree]
  | case4 stack i xs j ys hlen heq ih =>
    simp only [ne_eq, Decidable.not_not] at hlen
    rw [ih, allEq_pushItems, allEq_cons, eqTree, Bool.eq_false_of_not_eq_true heq, Bool.false_or, hlen, beq_self_eq_true,
      Bool.true_and]
  | case5 y stack i xs heq hy => cases y <;> simp_all [allEq_cons, eqTree]
  | case6 y stack i keys vals hdiff heq =>
    rw [allEq_cons, eqTree, Bool.eq_false_of_not_eq_true heq]
    rcases hdiff with hobj | hlen
    · simp [Bool.eq_false_of_not_eq_true hobj]
    · simp [hlen]
  | case7 y stack i keys vals hdiff hpush heq =>
    rw [allEq_cons, eqTree, Bool.eq_false_of_not_eq_true heq, pushProps_none hpush]
    simp
  | case8 y stack i keys vals hdiff stack' hpush heq ih =>
    rw [ih, allEq_pushProps hpush, allEq_cons, eqTree, Bool.eq_false_of_not_eq_true heq]
    simp only [not_or, Decidable.not_not, ne_eq] at hdiff
    simp [hdiff.1, hdiff.2]
  | case9 x y stack heq harray hobject => cases x <;> simp_all [allEq_cons, eqTree]

theorem eq_eq (a b : JsVal) : a.eq b = eqTree a b := by
  rw [eq, eqLoop_eq, allEq_cons]
  exact Bool.and_true _

/-- Values other than objects are compared as by `===`. -/
theorem eqTree_of_not_object {x y : JsVal} (hx : x.isObject = false) : eqTree x y = strictEq x y := by
  cases x <;> simp_all [eqTree, isObject]

end JsVal

end Emela.Derive
