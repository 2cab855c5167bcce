import Mathlib.Data.List.Basic

/-!
# Types with variables

`ty.rs` and `row.rs`: the types of inference and their sets of errors and effects. Definitions, type constructors and
variables are numbers.
-/

namespace Emela.Infer

abbrev DefId := Nat
abbrev TyConId := Nat
abbrev TyVar := Nat
abbrev RowVar := Nat

inductive Prim where
  | int | int64 | float | bool | string | unit
deriving DecidableEq

inductive SetKind where
  | errors | effects
deriving DecidableEq

mutual

inductive Ty where
  | prim (p : Prim)
  | never
  | var (v : TyVar)
  | bound (i : Nat)
  | fn (params : List Ty) (ret : Ty) (fails uses : List RowElem)
  | tuple (elems : List Ty)
  | list (elem : Ty)
  | named (con : TyConId) (args : List Ty)
  | set (kind : SetKind) (row : List RowElem)
  | cap (d : DefId) (args : List Ty)
  | error

inductive RowElem where
  | tag (d : DefId) (args : List Ty)
  | bound (i : Nat)
  | of (ty : Ty)
  | var (v : RowVar)

end

/-! ## Equality -/

mutual

def Ty.beq : Ty → Ty → Bool
  | .prim p, .prim q => p == q
  | .never, .never | .error, .error => true
  | .var v, .var w => v == w
  | .bound i, .bound j => i == j
  | .fn ps r e u, .fn ps' r' e' u' => Ty.beqs ps ps' && r.beq r' && RowElem.beqs e e' && RowElem.beqs u u'
  | .tuple xs, .tuple ys => Ty.beqs xs ys
  | .list x, .list y => x.beq y
  | .named c xs, .named d ys => c == d && Ty.beqs xs ys
  | .set k r, .set l s => k == l && RowElem.beqs r s
  | .cap d xs, .cap e ys => d == e && Ty.beqs xs ys
  | _, _ => false
termination_by structural x => x

def Ty.beqs : List Ty → List Ty → Bool
  | [], [] => true
  | x :: xs, y :: ys => x.beq y && Ty.beqs xs ys
  | _, _ => false
termination_by structural x => x

def RowElem.beq : RowElem → RowElem → Bool
  | .tag d xs, .tag e ys => d == e && Ty.beqs xs ys
  | .bound i, .bound j => i == j
  | .of t, .of u => t.beq u
  | .var v, .var w => v == w
  | _, _ => false
termination_by structural x => x

def RowElem.beqs : List RowElem → List RowElem → Bool
  | [], [] => true
  | x :: xs, y :: ys => x.beq y && RowElem.beqs xs ys
  | _, _ => false
termination_by structural x => x

end

mutual

theorem Ty.beq_iff : ∀ a b : Ty, a.beq b = true ↔ a = b
  | .prim _, b => by cases b <;> simp [Ty.beq]
  | .never, b => by cases b <;> simp [Ty.beq]
  | .error, b => by cases b <;> simp [Ty.beq]
  | .var _, b => by cases b <;> simp [Ty.beq]
  | .bound _, b => by cases b <;> simp [Ty.beq]
  | .fn ps r e u, b => by
    cases b <;> simp [Ty.beq, Ty.beqs_iff ps, Ty.beq_iff r, RowElem.beqs_iff e, RowElem.beqs_iff u, and_assoc]
  | .tuple xs, b => by cases b <;> simp [Ty.beq, Ty.beqs_iff xs]
  | .list x, b => by cases b <;> simp [Ty.beq, Ty.beq_iff x]
  | .named _ xs, b => by cases b <;> simp [Ty.beq, Ty.beqs_iff xs]
  | .set _ r, b => by cases b <;> simp [Ty.beq, RowElem.beqs_iff r]
  | .cap _ xs, b => by cases b <;> simp [Ty.beq, Ty.beqs_iff xs]

theorem Ty.beqs_iff : ∀ xs ys : List Ty, Ty.beqs xs ys = true ↔ xs = ys
  | [], ys => by cases ys <;> simp [Ty.beqs]
  | x :: xs, ys => by cases ys <;> simp [Ty.beqs, Ty.beq_iff x, Ty.beqs_iff xs]

theorem RowElem.beq_iff : ∀ a b : RowElem, a.beq b = true ↔ a = b
  | .tag _ xs, b => by cases b <;> simp [RowElem.beq, Ty.beqs_iff xs]
  | .bound _, b => by cases b <;> simp [RowElem.beq]
  | .of t, b => by cases b <;> simp [RowElem.beq, Ty.beq_iff t]
  | .var _, b => by cases b <;> simp [RowElem.beq]

theorem RowElem.beqs_iff : ∀ xs ys : List RowElem, RowElem.beqs xs ys = true ↔ xs = ys
  | [], ys => by cases ys <;> simp [RowElem.beqs]
  | x :: xs, ys => by cases ys <;> simp [RowElem.beqs, RowElem.beq_iff x, RowElem.beqs_iff xs]

end

instance : DecidableEq Ty := fun a b => decidable_of_iff _ (Ty.beq_iff a b)
instance : DecidableEq RowElem := fun a b => decidable_of_iff _ (RowElem.beq_iff a b)

/-! ## Sets -/

abbrev Row := List RowElem

/-- The sort key of the elements. -/
def RowElem.order : RowElem → Nat × Nat
  | .tag d _ => (0, d)
  | .bound i => (1, i)
  | .of _ => (2, 0)
  | .var v => (3, v)

/-- `order(e) > order(elem)`. -/
def RowElem.after (elem e : RowElem) : Bool :=
  elem.order.1 < e.order.1 || elem.order.1 == e.order.1 && elem.order.2 < e.order.2

namespace Row

def insert (row : Row) (elem : RowElem) : Row :=
  if elem ∈ row then row
  else row.takeWhile (! elem.after ·) ++ elem :: row.dropWhile (! elem.after ·)

def fromElems (elems : List RowElem) : Row := elems.foldl insert []

def extend (row other : Row) : Row := other.foldl insert row

/-- `map_tys`, with a function that may give no result. -/
def mapTys (f : Ty → Option Ty) (row : Row) : Option Row := do
  let elems ← row.mapM fun
    | .of ty => return .of (← f ty)
    | .tag d args => return .tag d (← args.mapM f)
    | e => some e
  return fromElems elems

/-- `flat_map`, with a function that may give no result. -/
def flatMap (f : RowElem → Option Row) (row : Row) : Option Row :=
  row.foldlM (fun out e => return extend out (← f e)) []

/-- The elements other than set variables. -/
def known (row : Row) : Row :=
  fromElems (row.filter fun
    | .var _ => false
    | _ => true)

/-- The types inside the elements. -/
def tys : Row → List Ty
  | [] => []
  | .of ty :: row => ty :: tys row
  | .tag _ args :: row => args ++ tys row
  | _ :: row => tys row

end Row

/-! ## Children -/

/-- The immediate child types, those inside sets included. -/
def Ty.children : Ty → List Ty
  | .prim _ | .never | .var _ | .bound _ | .error => []
  | .cap _ args => args
  | .fn ps r e u => ps ++ r :: Row.tys e ++ Row.tys u
  | .set _ row => Row.tys row
  | .tuple elems | .named _ elems => elems
  | .list elem => [elem]

/-- `map_children`, with a function that may give no result. -/
def Ty.mapChildren (f : Ty → Option Ty) : Ty → Option Ty
  | .cap d args => return .cap d (← args.mapM f)
  | .fn ps r e u => return .fn (← ps.mapM f) (← f r) (← Row.mapTys f e) (← Row.mapTys f u)
  | .set k row => return .set k (← Row.mapTys f row)
  | .tuple elems => return .tuple (← elems.mapM f)
  | .named c args => return .named c (← args.mapM f)
  | .list elem => return .list (← f elem)
  | ty => some ty

/-- The pairs of types of two types of one constructor. -/
def Ty.parts : Ty → Ty → List (Ty × Ty)
  | .cap d xs, .cap d' ys => if d = d' ∧ xs.length = ys.length then xs.zip ys else []
  | .fn ps r _ _, .fn qs s _ _ => if ps.length = qs.length then ps.zip qs ++ [(r, s)] else []
  | .tuple xs, .tuple ys => if xs.length = ys.length then xs.zip ys else []
  | .named d xs, .named d' ys => if d = d' ∧ xs.length = ys.length then xs.zip ys else []
  | .list x, .list y => [(x, y)]
  | _, _ => []

/-! ## Keys and parameters -/

/-- `p` holds of the type and of all types in it. -/
inductive Ty.All (p : Ty → Prop) : Ty → Prop where
  | mk {ty : Ty} : p ty → (∀ child ∈ ty.children, Ty.All p child) → Ty.All p ty

/-- The variables in the type are keys of a table of this length. -/
def Ty.Keyed (keys : Nat) (ty : Ty) : Prop := ty.All fun ty => ∀ v, ty = .var v → v < keys

/-- The type parameters in the type are among this many. -/
def Ty.Scoped (params : Nat) (ty : Ty) : Prop := ty.All fun ty => ∀ i, ty = .bound i → i < params

theorem Ty.All.child {p : Ty → Prop} {ty child : Ty} (h : ty.All p) (hchild : child ∈ ty.children) : child.All p := by
  cases h with
  | mk _ hall => exact hall child hchild

theorem Ty.All.self {p : Ty → Prop} {ty : Ty} (h : ty.All p) : p ty := by
  cases h with
  | mk hp _ => exact hp

theorem Ty.Keyed.var {keys v : Nat} (h : v < keys) : (Ty.var v).Keyed keys := by
  constructor
  · rintro w ⟨⟩
    exact h
  · intro child hchild
    cases hchild

theorem Ty.Keyed.prim {keys : Nat} (p : Prim) : (Ty.prim p).Keyed keys := by
  constructor
  · rintro v ⟨⟩
  · intro child hchild
    cases hchild

theorem Ty.Keyed.tuple {keys : Nat} {elems : List Ty} (h : ∀ ty ∈ elems, ty.Keyed keys) : (Ty.tuple elems).Keyed keys := by
  constructor
  · rintro v ⟨⟩
  · exact h

/-- The parts of types are children of theirs. -/
theorem Ty.mem_parts {x y p q : Ty} (h : (p, q) ∈ x.parts y) : p ∈ x.children ∧ q ∈ y.children := by
  cases x <;> cases y
  case list.list x y =>
    obtain ⟨rfl, rfl⟩ := Prod.mk.inj (List.mem_singleton.mp h)
    exact ⟨List.mem_singleton_self _, List.mem_singleton_self _⟩
  case fn.fn ps r fails uses qs s fails' uses' =>
    simp only [parts] at h
    split at h
    · simp only [children, List.mem_append, List.mem_cons]
      rcases List.mem_append.mp h with h | h
      · exact ⟨.inl (.inl (List.of_mem_zip h).1), .inl (.inl (List.of_mem_zip h).2)⟩
      · cases List.mem_singleton.mp h
        exact ⟨.inl (.inr (.inl rfl)), .inl (.inr (.inl rfl))⟩
    · cases h
  case tuple.tuple xs ys =>
    simp only [parts] at h
    split at h
    · exact List.of_mem_zip h
    · cases h
  case cap.cap d xs d' ys =>
    simp only [parts] at h
    split at h
    · exact List.of_mem_zip h
    · cases h
  case named.named d xs d' ys =>
    simp only [parts] at h
    split at h
    · exact List.of_mem_zip h
    · cases h
  all_goals cases h

/-! ## Type errors -/

inductive TypeErrorKind where
  | mismatch (expected actual : Ty)
  | infiniteType (var : TyVar) (ty : Ty)
deriving DecidableEq

structure TypeError where
  expected : Ty
  actual : Ty
  kind : TypeErrorKind
deriving DecidableEq

end Emela.Infer
