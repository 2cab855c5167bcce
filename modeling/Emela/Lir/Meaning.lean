import Emela.Lir.Implicit

/-!
# What the code means

The meaning of a function before and after its defects are made explicit: what it comes back with, and
what it does to the world on the way. The world is everything outside the function's variables (the heap,
the host, the other fibers), and a runtime says what the values do to it, which may be anything, as long
as only the values the compiler expects to come back with a defect do. A value that suspends comes back
once it is resumed.

Where the code goes wrong (a variable without a value, a division by zero that is not tested, a value
computed while a defect is pending), or does not end within the fuel, it has no meaning (`none`).
-/

namespace Emela.Lir

/-- What a variable holds. -/
inductive Val (α D : Type) where
  | int (n : Int)
  | defect (d : D)
  | other (a : α)

/-- What a call comes back with. -/
inductive Outcome (V D : Type) where
  | value (v : Option V)
  | fail (error : V)
  | defect (d : D)

/-- How control leaves a sequence. -/
inductive WayOut (V X : Type) where
  | yield (value : Option V)
  | return (value : Option V)
  | fail (error : V)
  | break (label : LabelId) (value : Option V)
  | recur (args : List V)
  | raise (defect : X)

abbrev Env (V : Type) := VarId → V

/-- How a statement goes on. -/
inductive Step (V X : Type) where
  | next (ρ : Env V)
  | exit (e : WayOut V X)

/-- What the functions of a module do when they are called. -/
abbrev Calls (α W D : Type) := FnId → List (Val α D) → W → Option (Outcome (Val α D) D × W)

/-- The runtime: what values do, apart from integer division, integer equality and direct calls. `exec`
gets the value without its variables, and what these hold. -/
structure Runtime (α W D : Type) where
  const : Const → α
  prim : PrimOp → PrimTy → List (Val α D) → Option (Val α D)
  selects : CaseKey → Val α D → Bool
  /-- The defect with the message, at the location. -/
  raised : Val α D → Option (Val α D) → D
  /-- The first defect, with the later one as a note. -/
  note : W → D → D → D
  exec : Calls α W D → Value → List (Val α D) → W → Option (Outcome (Val α D) D × W)
  host : String → List (Val α D) → W → Option (Outcome (Val α D) D × W)
  /-- The reference to a const, with the evaluation of its value. -/
  memo : String → (W → Option (Outcome (Val α D) D × W)) → W → Option (Outcome (Val α D) D × W)
  exec_defect : ∀ calls value vs w d w',
    exec calls value vs w = some (.defect d, w') → Implicit.mayDefectWithoutFlags value = true

section
variable {V X : Type}

/-! ## Variables -/

/-- The destination of a statement takes its value. -/
def define (ρ : Env V) : Option VarId → Option V → Option (Env V)
  | none, _ => some ρ
  | some d, some v => some (Function.update ρ d v)
  | some _, none => none

def defineAll (ρ : Env V) : List VarId → List V → Option (Env V)
  | [], [] => some ρ
  | x :: xs, v :: vs => defineAll (Function.update ρ x v) xs vs
  | _, _ => none

/-! ## Control -/

/-- After a compound statement, a `yield` goes on with its value. -/
def join (dst : Option VarId) (ρ : Env V) : WayOut V X → Option (Step V X)
  | .yield v => (define ρ dst v).map .next
  | e => some (.exit e)

/-- A `break` out of the block yields its value. -/
def caught (label : LabelId) : WayOut V X → WayOut V X
  | .break l v => if l = label then .yield v else .break l v
  | e => e

/-- A landing leaves the code around it, which its end does not. -/
def landed : WayOut V X → Option (Step V X)
  | .yield _ => none
  | e => some (.exit e)

/-- Iterates while the body goes on with new values. -/
def iterate {S : Type} (body : List V → S → Option (WayOut V X × S)) : Nat → List V → S → Option (WayOut V X × S)
  | 0, _, _ => none
  | n + 1, vs, s => (body vs s).bind fun
      | (.recur vs', s) => iterate body n vs' s
      | r => some r

end

/-! ## Values -/

namespace Runtime

variable {α W D : Type} (R : Runtime α W D)

def constant : Const → Val α D
  | .int n | .int64 n => .int n
  | .bool b => .int (if b then 1 else 0)
  | c => .other (R.const c)

def operand (ρ : Env (Val α D)) : Operand → Val α D
  | .var v => ρ v
  | .const c => R.constant c

/-- Whether the condition holds. -/
def truth : Val α D → Option Bool
  | .int n => some (n ≠ 0)
  | _ => none

/-- The divisor of a division. -/
def divisor : List (Val α D) → Option Int
  | _ :: .int n :: _ => some n
  | _ => none

/-- Primitive operations. Division does not test its divisor. -/
def arith (op : PrimOp) (ty : PrimTy) (vs : List (Val α D)) : Option (Val α D) :=
  if Implicit.divides op ty then
    (divisor vs).bind fun n => if n = 0 then none else R.prim op ty vs
  else match op, ty, vs with
    | .eq, .i32, [.int a, .int b] | .eq, .i64, [.int a, .int b] => some (.int (if a = b then 1 else 0))
    | .eq, .i32, _ | .eq, .i64, _ => none
    | _, _, _ => R.prim op ty vs

/-- The value, without a test of its own for division by zero. -/
def value (calls : Calls α W D) (ρ : Env (Val α D)) (v : Value) (w : W) : Option (Outcome (Val α D) D × W) :=
  match v with
  | .prim op ty args => (R.arith op ty (args.map (R.operand ρ))).map fun x => (.value (some x), w)
  | .call (.direct f) args _ => calls f (args.map (R.operand ρ)) w
  | v => R.exec calls (v.rename fun _ => 0) (v.vars.map ρ) w

/-- What a division by zero raises. -/
def divisionByZero : D := R.raised (R.constant (.string "division by zero")) none

end Runtime

namespace Implicit

variable {α W D : Type} (R : Runtime α W D)

/-! ## Implicit defects -/

def dividesByZero (ρ : Env (Val α D)) : Value → Bool
  | .prim op ty args => divides op ty && Runtime.divisor (args.map (R.operand ρ)) = some 0
  | _ => false

/-- The value: dividing by zero is a defect. -/
def value (calls : Calls α W D) (ρ : Env (Val α D)) (v : Value) (w : W) : Option (Outcome (Val α D) D × W) :=
  if dividesByZero R ρ v then some (.defect R.divisionByZero, w) else R.value calls ρ v w

/-- Where a failure goes. -/
def failed (error : Val α D) : OnFail → WayOut (Val α D) D
  | .break l => .break l (some error)
  | .propagate => .fail error

def runTerm (ρ : Env (Val α D)) : Term → Option (WayOut (Val α D) D)
  | .yield v => some (.yield (v.map (R.operand ρ)))
  | .return v => some (.return (v.map (R.operand ρ)))
  | .fail v => some (.fail (R.operand ρ v))
  | .break l v => some (.break l (v.map (R.operand ρ)))
  | .recur args => some (.recur (args.map (R.operand ρ)))
  | .defect msg location =>
      some (.raise (R.raised (R.operand ρ msg) (location.map fun l => R.constant (.string l))))
  | .unreachable => none

/-- How a `protect` is left: as its body left it, unless the cleanup raised a defect, which replaces the
body's way out, or becomes a note of its defect. -/
def settle (w : W) (e : WayOut (Val α D) D) : WayOut (Val α D) D → Option (WayOut (Val α D) D)
  | .yield _ => some e
  | .raise later => some (match e with
      | .raise first => .raise (R.note w first later)
      | _ => .raise later)
  | _ => none

def runLet (calls : Calls α W D) (dst : Option VarId) (v : Value) (onFail : Option OnFail) (ρ : Env (Val α D)) (w : W) :
    Option (Step (Val α D) D × W) :=
  (value R calls ρ v w).bind fun
    | (.value x, w) => (define ρ dst x).map fun ρ => (.next ρ, w)
    | (.fail error, w) => onFail.map fun edge => (.exit (failed error edge), w)
    | (.defect d, w) => some (.exit (.raise d), w)

section
variable (calls : Calls α W D) (fuel : Nat)

mutual

def runSeq : Seq → Env (Val α D) → W → Option (WayOut (Val α D) D × W)
  | .mk stmts term, ρ, w => runStmts term stmts ρ w

def runStmts (term : Term) : List Stmt → Env (Val α D) → W → Option (WayOut (Val α D) D × W)
  | [], ρ, w => (runTerm R ρ term).map (·, w)
  | s :: stmts, ρ, w => (runStmt s ρ w).bind fun
      | (.next ρ, w) => runStmts term stmts ρ w
      | (.exit e, w) => some (e, w)

def runStmt : Stmt → Env (Val α D) → W → Option (Step (Val α D) D × W)
  | .let dst v onFail, ρ, w => runLet R calls dst v onFail ρ w
  | .if dst cond then_ else_, ρ, w =>
      (Runtime.truth (R.operand ρ cond)).bind fun c =>
        (if c then runSeq then_ ρ w else runSeq else_ ρ w).bind fun r => (join dst ρ r.1).map (·, r.2)
  | .switch dst on cases default, ρ, w =>
      (runCases (ρ on.var) (runOption default) cases ρ w).bind fun r => (join dst ρ r.1).map (·, r.2)
  | .loop dst vars inits body, ρ, w =>
      (iterate (fun vs w => (defineAll ρ vars vs).bind fun ρ => runSeq body ρ w) fuel
        (inits.map (R.operand ρ)) w).bind fun r => (join dst ρ r.1).map (·, r.2)
  | .block dst label body, ρ, w =>
      (runSeq body ρ w).bind fun r => (join dst ρ (caught label r.1)).map (·, r.2)
  | .protect dst body cleanup, ρ, w =>
      (runSeq body ρ w).bind fun r => (runSeq cleanup ρ r.2).bind fun c =>
        (settle R c.2 r.1 c.1).bind fun e => (join dst ρ e).map (·, c.2)

def runCases (x : Val α D) (otherwise : Env (Val α D) → W → Option (WayOut (Val α D) D × W)) :
    List (CaseKey × Seq) → Env (Val α D) → W → Option (WayOut (Val α D) D × W)
  | [], ρ, w => otherwise ρ w
  | (key, body) :: cases, ρ, w => if R.selects key x then runSeq body ρ w else runCases x otherwise cases ρ w

def runOption : Option Seq → Env (Val α D) → W → Option (WayOut (Val α D) D × W)
  | none, _, _ => none
  | some body, ρ, w => runSeq body ρ w

end

end

/-- What the function comes back with. -/
def outcome : WayOut (Val α D) D → Option (Outcome (Val α D) D)
  | .return v => some (.value v)
  | .fail error => some (.fail error)
  | .raise d => some (.defect d)
  | _ => none

def runFunction (calls : Calls α W D) (fuel : Nat) (f : Function) (args : List (Val α D)) (w : W) :
    Option (Outcome (Val α D) D × W) :=
  match f.body with
  | none => R.host f.name args w
  | some body =>
      let run := fun w => (defineAll (fun _ => .int 0) f.params args).bind fun ρ =>
        (runSeq R calls fuel body ρ w).bind fun r => (outcome r.1).map (·, r.2)
      if f.constant then R.memo f.name run w else run w

/-- A call of a function of the module. The fuel bounds the depth of the calls and the iterations. -/
def call (m : Module) : Nat → Calls α W D
  | 0 => fun _ _ _ => none
  | fuel + 1 => fun f args w => m.functions[f]?.bind fun f => runFunction R (call m fuel) fuel f args w

end Implicit

namespace Explicit

variable {α W D : Type} (R : Runtime α W D)

/-! ## Explicit defects

The state is the world and the pending defect. -/

/-- `em_raise`: a defect that is pending is the first. -/
def raise (w : W) (d : D) : Option D → D
  | none => d
  | some first => R.note w first d

/-- `em_defect_resume`: a defect that is pending is the later one. -/
def resume (w : W) (first : D) : Option D → D
  | none => first
  | some later => R.note w first later

def runTerm (ρ : Env (Val α D)) : Term → Option (WayOut (Val α D) Unit)
  | .yield v => some (.yield (v.map (R.operand ρ)))
  | .return v => some (.return (v.map (R.operand ρ)))
  | .fail v => some (.fail (R.operand ρ v))
  | .break l v => some (.break l (v.map (R.operand ρ)))
  | .recur args => some (.recur (args.map (R.operand ρ)))
  | .unwind => some (.raise ())
  | .unreachable => none

/-- The runtime operation, if it is one on the pending defect. -/
def runSlot (dst : Option VarId) (v : Value) (ρ : Env (Val α D)) (w : W) (pending : Option D) :
    Option (Option (Env (Val α D) × Option D)) :=
  match v with
  | .runtime .defect [msg] =>
      some (some (ρ, some (raise R w (R.raised (R.operand ρ msg) none) pending)))
  | .runtime .defectAt [msg, location] =>
      some (some (ρ, some (raise R w (R.raised (R.operand ρ msg) (some (R.operand ρ location))) pending)))
  | .runtime .defectTake [] =>
      some (pending.bind fun d => (define ρ dst (some (.defect d))).map (·, none))
  | .runtime .defectResume [d] =>
      some (match R.operand ρ d with
        | .defect d => some (ρ, some (resume R w d pending))
        | _ => none)
  | _ => none

section
variable (calls : Calls α W D) (fuel : Nat)

mutual

def runSeq : Seq → Env (Val α D) → W × Option D → Option (WayOut (Val α D) Unit × (W × Option D))
  | .mk stmts term, ρ, s => (runStmts stmts ρ s).bind fun
      | (.next ρ, s) => (runTerm R ρ term).map (·, s)
      | (.exit e, s) => some (e, s)

def runStmts : List Stmt → Env (Val α D) → W × Option D → Option (Step (Val α D) Unit × (W × Option D))
  | [], ρ, s => some (.next ρ, s)
  | stmt :: stmts, ρ, s => (runStmt stmt ρ s).bind fun
      | (.next ρ, s) => runStmts stmts ρ s
      | (.exit e, s) => some (.exit e, s)

def runStmt : Stmt → Env (Val α D) → W × Option D → Option (Step (Val α D) Unit × (W × Option D))
  | .let dst v onFail onDefect _, ρ, (w, pending) =>
      match runSlot R dst v ρ w pending, pending with
      | some r, _ => r.map fun r => (.next r.1, (w, r.2))
      | none, some _ => none
      | none, none => (R.value calls ρ v w).bind fun
          | (.value x, w) => (define ρ dst x).map fun ρ => (.next ρ, (w, none))
          | (.fail error, w) => runFail error onFail ρ (w, none)
          | (.defect d, w) =>
              (runOption onDefect ρ (w, some d)).bind fun r => (landed r.1).map (·, r.2)
  | .if dst cond then_ else_, ρ, s =>
      (Runtime.truth (R.operand ρ cond)).bind fun c =>
        (if c then runSeq then_ ρ s else runSeq else_ ρ s).bind fun r => (join dst ρ r.1).map (·, r.2)
  | .switch dst on cases default, ρ, s =>
      (runCases (ρ on.var) (runOption default) cases ρ s).bind fun r => (join dst ρ r.1).map (·, r.2)
  | .loop dst vars inits body, ρ, s =>
      (iterate (fun vs s => (defineAll ρ vars vs).bind fun ρ => runSeq body ρ s) fuel
        (inits.map (R.operand ρ)) s).bind fun r => (join dst ρ r.1).map (·, r.2)
  | .block dst label body, ρ, s =>
      (runSeq body ρ s).bind fun r => (join dst ρ (caught label r.1)).map (·, r.2)
  | .dup _, ρ, s | .drop _, ρ, s => some (.next ρ, s)

def runFail (error : Val α D) : Option (VarId × Seq) → Env (Val α D) → W × Option D →
    Option (Step (Val α D) Unit × (W × Option D))
  | none, _, _ => none
  | some (x, body), ρ, s => (runSeq body (Function.update ρ x error) s).bind fun r => (landed r.1).map (·, r.2)

def runCases (x : Val α D)
    (otherwise : Env (Val α D) → W × Option D → Option (WayOut (Val α D) Unit × (W × Option D))) :
    List (CaseKey × Seq) → Env (Val α D) → W × Option D → Option (WayOut (Val α D) Unit × (W × Option D))
  | [], ρ, s => otherwise ρ s
  | (key, body) :: cases, ρ, s => if R.selects key x then runSeq body ρ s else runCases x otherwise cases ρ s

def runOption : Option Seq → Env (Val α D) → W × Option D → Option (WayOut (Val α D) Unit × (W × Option D))
  | none, _, _ => none
  | some body, ρ, s => runSeq body ρ s

end

end

/-- What the function comes back with: a defect if it unwinds with one pending. -/
def outcome : WayOut (Val α D) Unit → Option D → Option (Outcome (Val α D) D)
  | .return v, none => some (.value v)
  | .fail error, none => some (.fail error)
  | .raise _, some d => some (.defect d)
  | _, _ => none

def runFunction (calls : Calls α W D) (fuel : Nat) (f : Function) (args : List (Val α D)) (w : W) :
    Option (Outcome (Val α D) D × W) :=
  match f.body with
  | none => R.host f.name args w
  | some body =>
      let run := fun w => (defineAll (fun _ => .int 0) f.params args).bind fun ρ =>
        (runSeq R calls fuel body ρ (w, none)).bind fun r => (outcome r.1 r.2.2).map (·, r.2.1)
      if f.constant then R.memo f.name run w else run w

/-- A call of a function of the module. -/
def call (m : Module) : Nat → Calls α W D
  | 0 => fun _ _ _ => none
  | fuel + 1 => fun f args w => m.functions[f]?.bind fun f => runFunction R (call m fuel) fuel f args w

end Explicit

/-! ## Values under a renaming

A renamed value means the same where the variables hold the same. -/

variable (σ τ : VarId → VarId)

/-! ## Operands -/

@[simp] theorem Operand.var?_rename (o : Operand) : (o.rename σ).var? = o.var?.map σ := by cases o <;> rfl

@[simp] theorem Operand.rename_rename (o : Operand) : (o.rename σ).rename τ = o.rename (τ ∘ σ) := by
  cases o <;> rfl

/-! ## Values -/

@[simp] theorem Callee.rename_rename (c : Callee) : (c.rename σ).rename τ = c.rename (τ ∘ σ) := by
  cases c <;> rfl

theorem Value.rename_rename (v : Value) : (v.rename σ).rename τ = v.rename (τ ∘ σ) := by
  cases v <;> simp [Value.rename, Function.comp_def]

theorem Value.vars_rename (v : Value) : (v.rename σ).vars = v.vars.map σ := by
  cases v with
  | call callee args suspends => cases callee <;> simp [Value.rename, Callee.rename, Value.vars, List.map_filterMap]
  | list elems tail =>
      cases tail with
      | none => simp [Value.rename, Value.vars, List.map_filterMap]
      | some o => cases h : o.var? <;> simp [Value.rename, Value.vars, List.map_filterMap, h]
  | evExtend base bindings => cases base <;> simp [Value.rename, Value.vars, Function.comp_def]
  | _ => simp [Value.rename, Value.vars, List.map_filterMap]

namespace Implicit

@[simp] theorem mayDefectWithoutFlags_rename (v : Value) :
    mayDefectWithoutFlags (v.rename σ) = mayDefectWithoutFlags v := by
  cases v with
  | call callee args suspends => cases callee <;> rfl
  | _ => rfl

@[simp] theorem mayDefect_rename (flags : List Bool) (v : Value) :
    mayDefect flags (v.rename σ) = mayDefect flags v := by
  cases v with
  | call callee args suspends => cases callee <;> rfl
  | _ => rfl

end Implicit

/-! ## Their meaning -/

section
variable {α W D : Type} (R : Runtime α W D) {σ} {ρ ρ' : Env (Val α D)}

theorem operand_rename {o : Operand} (h : ∀ v ∈ o.var?, ρ' (σ v) = ρ v) :
    R.operand ρ' (o.rename σ) = R.operand ρ o := by
  cases o with
  | var v => exact h v rfl
  | const c => rfl

theorem operands_rename {os : List Operand} (h : ∀ v ∈ os.filterMap Operand.var?, ρ' (σ v) = ρ v) :
    (os.map (Operand.rename σ)).map (R.operand ρ') = os.map (R.operand ρ) := by
  rw [List.map_map]
  refine List.map_congr_left fun o ho => operand_rename R fun v hv => h v ?_
  exact List.mem_filterMap.mpr ⟨o, ho, hv⟩

theorem value_rename (calls : Calls α W D) {v : Value} (w : W) (h : ∀ x ∈ v.vars, ρ' (σ x) = ρ x) :
    R.value calls ρ' (v.rename σ) w = R.value calls ρ v w := by
  have hexec : R.exec calls ((v.rename σ).rename fun _ => 0) ((v.rename σ).vars.map ρ') w =
      R.exec calls (v.rename fun _ => 0) (v.vars.map ρ) w := by
    rw [Value.rename_rename, Value.vars_rename, List.map_map, List.map_congr_left (f := ρ' ∘ σ) h]
    rfl
  cases v with
  | prim op ty args => simp only [Value.rename, Runtime.value, operands_rename R h]
  | call callee args suspends =>
      cases callee with
      | direct f => simp only [Value.rename, Callee.rename, Runtime.value, operands_rename R h]
      | indirect v => exact hexec
      | op handler effect index => exact hexec
  | _ => exact hexec

/-- A value that is no operation on the pending defect. -/
theorem runSlot_early {v : Value} (hv : Implicit.Value.early v = true) (dst : Option VarId) (w : W)
    (pending : Option D) : Explicit.runSlot R dst (v.rename σ) ρ w pending = none := by
  cases v with
  | runtime op args => cases op <;> first | rfl | simp [Implicit.Value.early, Implicit.RuntimeOp.early] at hv
  | _ => rfl

end

end Emela.Lir
