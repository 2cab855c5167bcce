import Emela.Lib.F64

/-!
# Match exhaustiveness and redundant arms

`exhaustiveness.rs`: whether a pattern vector is useful with respect to a pattern matrix, that is,
whether some value matches the vector but no row of the matrix, with examples of such values.
-/

namespace Emela.Types

/-! ## Patterns -/

inductive Lit where
  | int (n : Int)
  | float (x : F64)
  | str (s : String)
deriving DecidableEq

/-- `PartialEq for Lit`: NaNs are equal to each other. -/
def Lit.eq : Lit → Lit → Bool
  | .int a, .int b => a == b
  | .float a, .float b => a.eq b || (a.isNan && b.isNan)
  | .str a, .str b => a == b
  | _, _ => false

inductive Pat where
  | wild
  | lit (l : Lit)
  | variant (variant : Nat) (fields : List (Nat × Pat))
  | tuple (elems : List Pat)
  | list (elems : List Pat) (rest : Bool)

def Pat.isWild : Pat → Bool
  | .wild => true
  | _ => false

/-! ## Types -/

structure VariantShape (T : Type) where
  name : String
  fields : List T

inductive TyShape (T : Type) where
  | opaqueTy
  | enum (variants : List (VariantShape T))
  | tuple (elems : List T)
  | list (elem : T)

/-- The shapes of types, one level at a time. -/
structure CtorTable (T : Type) where
  shape : T → TyShape T

structure Arm where
  pat : Pat
  guarded : Bool

inductive Witness where
  | wild
  | lit (l : Lit)
  | variant (name : String) (args : List Witness)
  | tuple (elems : List Witness)
  | list (elems : List Witness) (rest : Bool)

structure MatchCheck where
  missing : List Witness
  redundant : List Nat

abbrev WITNESS_LIMIT : Nat := 64

/-! ## Constructors -/

abbrev Row := List Pat

/-- Constructors for splitting a column: lists split by length, literals into the values that appear
and everything else. -/
inductive Ctor where
  | variant (v : Nat)
  | tuple
  | listFixed (n : Nat)
  | listAtLeast (n : Nat)
  | lit (l : Lit)
  | other

/-- The length from which on every list matches the same patterns of the column. -/
def listBound (heads : List Pat) : Nat :=
  heads.foldl (fun n p =>
    match p with
    | .list elems rest => max n (if rest then elems.length else elems.length + 1)
    | _ => n) 0

/-- The literals of the column, each once. -/
def columnLits (heads : List Pat) : List Lit :=
  heads.foldl (fun lits p =>
    match p with
    | .lit l => if lits.any l.eq then lits else lits ++ [l]
    | _ => lits) []

section
variable {T : Type}

/-- Constructors that partition the values of the type, from the head patterns of the column. -/
def splitCtors (shape : TyShape T) (heads : List Pat) : List Ctor :=
  match shape with
  | .enum variants => (List.range variants.length).map .variant
  | .tuple _ => [.tuple]
  | .list _ => (List.range (listBound heads)).map .listFixed ++ [.listAtLeast (listBound heads)]
  | .opaqueTy => (columnLits heads).map .lit ++ [.other]

/-- Whether `p` covers every value of `ctor`, regardless of its contents. The source panics on the
last case, which a type-checked pattern does not reach. -/
def covers (p : Pat) (ctor : Ctor) : Bool :=
  match p, ctor with
  | .wild, _ => true
  | .variant variant _, .variant v => variant == v
  | .tuple _, .tuple => true
  | .list elems false, .listFixed n => elems.length == n
  | .list _ false, .listAtLeast _ => false
  | .list elems true, .listFixed n => elems.length ≤ n
  | .list elems true, .listAtLeast n => elems.length ≤ n
  | .lit a, .lit b => a.eq b
  | .lit _, .other => false
  | _, _ => false

def arity (shape : TyShape T) (ctor : Ctor) : Nat :=
  match shape, ctor with
  | .enum variants, .variant v => (variants[v]?.map fun s => s.fields.length).getD 0
  | .tuple tys, .tuple => tys.length
  | _, .listFixed n => n
  | _, .listAtLeast n => n
  | _, _ => 0

def fieldTys (shape : TyShape T) (ctor : Ctor) : List T :=
  match shape, ctor with
  | .enum variants, .variant v => (variants[v]?.map (·.fields)).getD []
  | .tuple tys, .tuple => tys
  | .list elem, .listFixed n => List.replicate n elem
  | .list elem, .listAtLeast n => List.replicate n elem
  | _, _ => []

/-- `for (slot, p) in out.iter_mut().zip(ps)` over wildcards. -/
def fillSlots (arity : Nat) (ps : List Pat) : List Pat :=
  ps.take arity ++ List.replicate (arity - ps.length) .wild

/-- The head of a row replaced by the `arity` fields of the constructor. -/
def specializeHead (head : Pat) (arity : Nat) : List Pat :=
  match head with
  | .wild | .lit _ => List.replicate arity .wild
  | .variant _ fields => fields.foldl (fun out f => out.set f.1 f.2) (List.replicate arity .wild)
  | .tuple ps => fillSlots arity ps
  | .list elems _ => fillSlots arity elems

def specialize (head : Pat) (rest : Row) (arity : Nat) : Row := specializeHead head arity ++ rest

/-- Regroups the first items of a specialized column's witness into the constructor. -/
def wrap (shape : TyShape T) (ctor : Ctor) (ws : List Witness) : List Witness :=
  let n := arity shape ctor
  let head :=
    match shape, ctor with
    | .enum variants, .variant v => .variant ((variants[v]?.map (·.name)).getD "") (ws.take n)
    | _, .tuple => .tuple (ws.take n)
    | _, .listFixed _ => .list (ws.take n) false
    | _, .listAtLeast _ => .list (ws.take n) true
    | _, .lit l => .lit l
    | _, _ => .wild
  head :: ws.drop n

/-- A witness of the constructor with all fields `_`. -/
def wildWitness (shape : TyShape T) (ctor : Ctor) : Witness :=
  (wrap shape ctor (List.replicate (arity shape ctor) .wild)).headD .wild

end

/-! ## The measure of the recursion -/

mutual

/-- The number of nodes that are no wildcard. -/
def Pat.nodes : Pat → Nat
  | .wild => 0
  | .lit _ => 1
  | .variant _ fields => 1 + nodesFields fields
  | .tuple elems => 1 + nodesList elems
  | .list elems _ => 1 + nodesList elems

def nodesFields : List (Nat × Pat) → Nat
  | [] => 0
  | (_, p) :: fields => p.nodes + nodesFields fields

def nodesList : List Pat → Nat
  | [] => 0
  | p :: ps => p.nodes + nodesList ps

end

def nodesRows (rows : List Row) : Nat := (rows.map nodesList).sum

theorem nodesList_append (ps qs : List Pat) : nodesList (ps ++ qs) = nodesList ps + nodesList qs := by
  induction ps with
  | nil => simp [nodesList]
  | cons p ps ih => simp [nodesList, ih, Nat.add_assoc]

theorem nodesList_replicate_wild (n : Nat) : nodesList (List.replicate n .wild) = 0 := by
  induction n with
  | zero => rfl
  | succ n ih => simpa [List.replicate_succ, nodesList, Pat.nodes] using ih

theorem nodesList_take_le (ps : List Pat) (n : Nat) : nodesList (ps.take n) ≤ nodesList ps := by
  have := nodesList_append (ps.take n) (ps.drop n)
  rw [List.take_append_drop] at this
  omega

theorem nodesList_fillSlots_le (n : Nat) (ps : List Pat) : nodesList (fillSlots n ps) ≤ nodesList ps := by
  rw [fillSlots, nodesList_append, nodesList_replicate_wild]
  exact nodesList_take_le ps n

theorem nodesList_set_le (out : List Pat) (i : Nat) (p : Pat) :
    nodesList (out.set i p) ≤ nodesList out + p.nodes := by
  induction out generalizing i with
  | nil => simp [nodesList]
  | cons q out ih =>
    cases i with
    | zero => simp [nodesList]; omega
    | succ i => have := ih i; simp [nodesList]; omega

theorem nodesList_fields_le (fields : List (Nat × Pat)) (out : List Pat) :
    nodesList (fields.foldl (fun out f => out.set f.1 f.2) out) ≤ nodesList out + nodesFields fields := by
  induction fields generalizing out with
  | nil => simp [nodesFields]
  | cons f fields ih =>
    obtain ⟨i, p⟩ := f
    have h₁ := ih (out.set i p)
    have h₂ := nodesList_set_le out i p
    simp only [List.foldl_cons, nodesFields]
    omega

/-- Specializing a constructor pattern removes its node. -/
theorem nodesList_specializeHead_lt {head : Pat} (h : head.isWild = false) (n : Nat) :
    nodesList (specializeHead head n) < head.nodes := by
  cases head with
  | wild => cases h
  | lit l => simp [specializeHead, nodesList_replicate_wild, Pat.nodes]
  | variant v fields =>
    have := nodesList_fields_le fields (List.replicate n .wild)
    rw [nodesList_replicate_wild] at this
    simp only [specializeHead, Pat.nodes]
    omega
  | tuple ps =>
    have := nodesList_fillSlots_le n ps
    simp only [specializeHead, Pat.nodes]
    omega
  | list ps rest =>
    have := nodesList_fillSlots_le n ps
    simp only [specializeHead, Pat.nodes]
    omega

theorem nodesList_specialize_le (head : Pat) (rest : Row) (n : Nat) :
    nodesList (specialize head rest n) ≤ head.nodes + nodesList rest := by
  rw [specialize, nodesList_append]
  cases hw : head.isWild with
  | false => have := nodesList_specializeHead_lt hw n; omega
  | true =>
    cases head with
    | wild => simp [specializeHead, nodesList_replicate_wild]
    | _ => cases hw

/-- The rows a constructor covers, specialized. -/
def specializeRows (rows : List Row) (ctor : Ctor) (arity : Nat) : List Row :=
  (rows.filter fun r => covers (r.headD .wild) ctor).map fun r => specialize (r.headD .wild) r.tail arity

/-- The rest of the rows that start with `_`. -/
def defaultRows (rows : List Row) : List Row :=
  (rows.filter fun r => (r.headD .wild).isWild).map List.tail

theorem nodesList_head_tail (r : Row) : (r.headD .wild).nodes + nodesList r.tail = nodesList r := by
  cases r <;> simp [nodesList, Pat.nodes]

theorem nodesRows_specializeRows_le (rows : List Row) (ctor : Ctor) (n : Nat) :
    nodesRows (specializeRows rows ctor n) ≤ nodesRows rows := by
  unfold nodesRows specializeRows
  induction rows with
  | nil => simp
  | cons r rows ih =>
    have h₁ := nodesList_specialize_le (r.headD .wild) r.tail n
    have h₂ := nodesList_head_tail r
    rw [List.filter_cons]
    split
    · simp only [List.map_cons, List.sum_cons]; omega
    · simp only [List.map_cons, List.sum_cons]; omega

theorem nodesRows_specializeRows_lt {rows : List Row} {ctor : Ctor} {r : Row} (hr : r ∈ rows)
    (hw : (r.headD .wild).isWild = false) (hc : covers (r.headD .wild) ctor = true) (n : Nat) :
    nodesRows (specializeRows rows ctor n) < nodesRows rows := by
  induction rows with
  | nil => cases hr
  | cons r' rows ih =>
    have h₁ := nodesList_specialize_le (r'.headD .wild) r'.tail n
    have h₂ := nodesList_head_tail r'
    rcases List.mem_cons.mp hr with rfl | hr
    · have h₃ := nodesList_specializeHead_lt hw n
      have h₄ := nodesRows_specializeRows_le rows ctor n
      simp only [specializeRows, nodesRows, List.filter_cons, hc, if_true, List.map_cons, List.sum_cons,
        specialize, nodesList_append] at h₄ ⊢
      omega
    · have h₃ := ih hr
      simp only [specializeRows, nodesRows, List.filter_cons] at h₃ ⊢
      split
      · simp only [List.map_cons, List.sum_cons]; omega
      · simp only [List.map_cons, List.sum_cons]; omega

theorem nodesRows_defaultRows_le (rows : List Row) : nodesRows (defaultRows rows) ≤ nodesRows rows := by
  unfold nodesRows defaultRows
  induction rows with
  | nil => simp
  | cons r rows ih =>
    have := nodesList_head_tail r
    rw [List.filter_cons]
    split
    · simp only [List.map_cons, List.sum_cons]; omega
    · simp only [List.map_cons, List.sum_cons]; omega

/-! ## Usefulness -/

section
variable {T : Type} (table : CtorTable T)

/-- No constructor pattern of the column covers the constructor. -/
def onlyWild (rows : List Row) (ctor : Ctor) : Bool :=
  !rows.any fun r => !(r.headD .wild).isWild && covers (r.headD .wild) ctor

/-- Specializing removes a node unless the column is left to the default matrix. -/
theorem nodes_specialize_lt {rows : List Row} {head : Pat} {ctor : Ctor}
    (h : ¬(head.isWild && onlyWild rows ctor) = true) (qRest : Row) (n : Nat) :
    nodesRows (specializeRows rows ctor n) + nodesList (specialize head qRest n) <
      nodesRows rows + nodesList (head :: qRest) := by
  have h₁ := nodesList_specialize_le head qRest n
  have h₂ := nodesRows_specializeRows_le rows ctor n
  simp only [nodesList]
  by_cases hw : head.isWild
  · simp only [hw, Bool.true_and, onlyWild, Bool.not_eq_true', Bool.not_eq_false, List.any_eq_true,
      Bool.and_eq_true] at h
    obtain ⟨r, hr, hrw, hrc⟩ := h
    have := nodesRows_specializeRows_lt hr hrw hrc n
    omega
  · have := nodesList_specializeHead_lt (by simpa using hw) n
    rw [specialize, nodesList_append] at h₁ ⊢
    omega

mutual

/-- Examples of values that match `q` but no row of `rows`, at most `limit`. -/
def useful (rows : List Row) (q : Row) (tys : List T) (limit : Nat) : List (List Witness) :=
  match q, tys with
  | [], _ => if rows.isEmpty then [[]] else []
  | _ :: _, [] => [] -- `tys[0]` is out of range: there is a type for each column
  | head :: qRest, ty :: tys =>
      let shape := table.shape ty
      let columnHasCtor := rows.any fun r => !(r.headD .wild).isWild
      let ctors := splitCtors shape (rows.map (·.headD .wild) ++ [head])
      let (out, missing) := usefulCtors rows head qRest shape tys limit ctors [] []
      let out :=
        if !missing.isEmpty && out.length < limit then
          (useful (defaultRows rows) qRest tys (limit - out.length)).foldl (fun out ws =>
            if !columnHasCtor then out ++ [.wild :: ws]
            else out ++ missing.map fun ctor => wildWitness shape ctor :: ws) out
        else out
      out.take limit
termination_by (nodesRows rows + nodesList q, q.length, 1, 0)
decreasing_by
  · exact .right _ (.right _ (.left _ _ (by decide)))
  · refine Prod.Lex.right' _ ?_ (.left _ _ (by simp))
    have := nodesRows_defaultRows_le rows
    simp only [nodesList]
    omega

/-- The loop over the constructors: the examples found and the constructors left to the default
matrix. -/
def usefulCtors (rows : List Row) (head : Pat) (qRest : Row) (shape : TyShape T) (tys : List T)
    (limit : Nat) (ctors : List Ctor) (out : List (List Witness)) (missing : List Ctor) :
    List (List Witness) × List Ctor :=
  match ctors with
  | [] => (out, missing)
  | ctor :: ctors =>
      if out.length ≥ limit then (out, missing)
      else if !covers head ctor then usefulCtors rows head qRest shape tys limit ctors out missing
      -- the specialized matrix would be the default matrix
      else if _h : head.isWild && onlyWild rows ctor then
        usefulCtors rows head qRest shape tys limit ctors out (missing ++ [ctor])
      else
        let n := arity shape ctor
        let found := useful (specializeRows rows ctor n) (specialize head qRest n)
          (fieldTys shape ctor ++ tys) (limit - out.length)
        usefulCtors rows head qRest shape tys limit ctors (out ++ found.map (wrap shape ctor)) missing
termination_by (nodesRows rows + nodesList (head :: qRest), qRest.length + 1, 0, ctors.length)
decreasing_by
  · exact .right _ (.right _ (.right _ (by simp)))
  · exact .right _ (.right _ (.right _ (by simp)))
  · exact .left _ _ (nodes_specialize_lt _h _ _)
  · exact .right _ (.right _ (.right _ (by simp)))

end

/-! ## The check of a match -/

/-- The unguarded arms as rows. A guarded arm does not cover the arms below it. -/
def armRows (arms : List Arm) : List Row := (arms.filter fun a => !a.guarded).map fun a => [a.pat]

/-- The loop over the arms: the redundant ones from index `i` on, below the arms `above`. -/
def redundantArms (ty : T) (i : Nat) (above : List Row) : List Arm → List Nat
  | [] => []
  | arm :: arms =>
      let rest := redundantArms ty (i + 1) (if arm.guarded then above else above ++ [[arm.pat]]) arms
      if (useful table above [arm.pat] [ty] 1).isEmpty then i :: rest else rest

def checkMatch (ty : T) (arms : List Arm) : MatchCheck where
  missing := (useful table (armRows arms) [.wild] [ty] WITNESS_LIMIT).map (·.getLastD .wild)
  redundant := redundantArms table ty 0 [] arms

end

/-! ## Values, and when a pattern matches one

What the check of a match is about: the values of the scrutinee's type. The values of the types that
cannot be taken apart are given by `prim`. -/

/-- `other` stands for the values no literal is equal to, such as functions. -/
inductive Value where
  | lit (l : Lit)
  | other (id : Nat)
  | variant (variant : Nat) (args : List Value)
  | tuple (elems : List Value)
  | list (elems : List Value)

/-! ## Matching -/

mutual

/-- A literal matches the values that count as the same one when redundancy is judged: all NaN are one value, though a match
with a NaN pattern takes none of them. -/
def Pat.matches : Pat → Value → Bool
  | .wild, _ => true
  | .lit a, .lit b => a.eq b
  | .variant v fields, .variant w args => v == w && matchesFields fields args
  | .tuple ps, .tuple vs => ps.length == vs.length && matchesElems ps vs
  | .list ps rest, .list vs => (rest || ps.length == vs.length) && matchesElems ps vs
  | _, _ => false

/-- Each field written matches the argument at its position. -/
def matchesFields : List (Nat × Pat) → List Value → Bool
  | [], _ => true
  | (i, p) :: fields, args => args[i]?.any p.matches && matchesFields fields args

/-- The patterns match the first values, in order. -/
def matchesElems : List Pat → List Value → Bool
  | [], _ => true
  | _ :: _, [] => false
  | p :: ps, v :: vs => p.matches v && matchesElems ps vs

end

/-! ## Typing -/

section
variable {T : Type} (table : CtorTable T) (prim : T → Value → Prop)

inductive HasType : Value → T → Prop where
  | prim {v ty} : table.shape ty = .opaqueTy → prim ty v → HasType v ty
  | variant {i args ty variants s} : table.shape ty = .enum variants → variants[i]? = some s →
      List.Forall₂ HasType args s.fields → HasType (.variant i args) ty
  | tuple {vs ty tys} : table.shape ty = .tuple tys → List.Forall₂ HasType vs tys → HasType (.tuple vs) ty
  | list {vs ty elem} : table.shape ty = .list elem → (∀ v ∈ vs, HasType v elem) → HasType (.list vs) ty

/-- A pattern as the type checker leaves it: a literal is a value of its type, and a constructor's
fields are written at most once each. -/
inductive PatTyped : Pat → T → Prop where
  | wild {ty} : PatTyped .wild ty
  | lit {l ty} : table.shape ty = .opaqueTy → prim ty (.lit l) → PatTyped (.lit l) ty
  | variant {i fields ty variants s} : table.shape ty = .enum variants → variants[i]? = some s →
      (fields.map Prod.fst).Nodup → (∀ f ∈ fields, f.1 < s.fields.length) →
      (∀ f ∈ fields, ∀ t, s.fields[f.1]? = some t → PatTyped f.2 t) → PatTyped (.variant i fields) ty
  | tuple {ps ty tys} : table.shape ty = .tuple tys → List.Forall₂ PatTyped ps tys → PatTyped (.tuple ps) ty
  | list {ps rest ty elem} : table.shape ty = .list elem → (∀ p ∈ ps, PatTyped p elem) →
      PatTyped (.list ps rest) ty

/-- Every type has a value. -/
def AllInhabited : Prop := ∀ ty, ∃ v, HasType table prim v ty

/-- No type that cannot be taken apart has all of its values among the literals. -/
def Fresh (lits : List Lit) : Prop :=
  ∀ ty, table.shape ty = .opaqueTy → ∃ v, prim ty v ∧ ∀ l ∈ lits, (Pat.lit l).matches v = false

end

mutual

/-- The literals written in a pattern. -/
def Pat.lits : Pat → List Lit
  | .wild => []
  | .lit l => [l]
  | .variant _ fields => litsFields fields
  | .tuple ps => litsElems ps
  | .list ps _ => litsElems ps

def litsFields : List (Nat × Pat) → List Lit
  | [] => []
  | (_, p) :: fields => p.lits ++ litsFields fields

def litsElems : List Pat → List Lit
  | [] => []
  | p :: ps => p.lits ++ litsElems ps

end

def armLits (arms : List Arm) : List Lit := arms.flatMap fun a => a.pat.lits

/-! ## What a witness stands for

The values a reported example denotes. At a type that cannot be taken apart `_` stands for the values no literal of
`lits` is equal to; elsewhere it stands for every value. -/

variable {T : Type} (table : CtorTable T) (prim : T → Value → Prop) (lits : List Lit)

mutual

inductive Denotes : Witness → T → Value → Prop where
  | wild {v ty} : HasType table prim v ty →
      (table.shape ty = .opaqueTy → ∀ l ∈ lits, (Pat.lit l).matches v = false) → Denotes .wild ty v
  | lit {l v ty} : table.shape ty = .opaqueTy → prim ty v → (Pat.lit l).matches v = true → Denotes (.lit l) ty v
  | variant {i ws ty variants s vs} : table.shape ty = .enum variants → variants[i]? = some s →
      DenotesAll ws s.fields vs → Denotes (.variant s.name ws) ty (.variant i vs)
  | tuple {ws ty tys vs} : table.shape ty = .tuple tys → DenotesAll ws tys vs → Denotes (.tuple ws) ty (.tuple vs)
  | list {ws ty elem vs} : table.shape ty = .list elem → DenotesAll ws (List.replicate ws.length elem) vs →
      Denotes (.list ws false) ty (.list vs)
  | listRest {ws ty elem vs more} : table.shape ty = .list elem →
      DenotesAll ws (List.replicate ws.length elem) vs → (∀ v ∈ more, HasType table prim v elem) →
      Denotes (.list ws true) ty (.list (vs ++ more))

inductive DenotesAll : List Witness → List T → List Value → Prop where
  | nil : DenotesAll [] [] []
  | cons {w ws ty tys v vs} : Denotes w ty v → DenotesAll ws tys vs → DenotesAll (w :: ws) (ty :: tys) (v :: vs)

end

/-- The variants of an enum have different names. -/
def DistinctNames (table : CtorTable T) : Prop :=
  ∀ ty variants, table.shape ty = .enum variants → (variants.map (·.name)).Nodup

end Emela.Types
