import Emela.Lir.Ir

/-!
# The balance check

`heap/rc_check.rs`: follows every path of a function, counting the references each counted variable
owns. The counts of the source are `i32`s that are set to 0 when one would become negative.
-/

namespace Emela.Lir

/-- References per variable. -/
abbrev Tokens := VarId → Nat

/-- A join point: the end of a compound statement or a loop head. `mark` is the length of the scope at
the statement; `expected` are the references of the outer variables, set by the first edge. -/
structure Slot where
  mark : Nat
  expected : Option (List Nat)

structure Check where
  scope : List VarId
  slots : List Slot
  labels : LabelId → Option Nat
  errors : List String

section
variable (m : Module) (f : Function)

def varName (v : VarId) : String := ((f.vars[v]?.map (·.hint)).getD "") ++ "%" ++ toString v

def Check.error (c : Check) (message : String) : Check := { c with errors := c.errors ++ [message] }

def Check.define (c : Check) (t : Tokens) (v : VarId) (n : Nat) : Tokens × Check :=
  if counted f v then (Function.update t v n, { c with scope := c.scope ++ [v] }) else (t, c)

def Check.take (what : String) (s : Tokens × Check) (v : VarId) : Tokens × Check :=
  if s.1 v = 0 then (s.1, s.2.error (what ++ " " ++ varName f v ++ ", which owns no reference"))
  else (Function.update s.1 v (s.1 v - 1), s.2)

def Check.takeAll (what : String) (c : Check) (t : Tokens) (vs : List VarId) : Tokens × Check :=
  vs.foldl (Check.take f what) (t, c)

def Check.borrow (t : Tokens) (c : Check) (v : VarId) : Check :=
  if t v < 1 ∧ !borrowedParam f v then
    c.error (varName f v ++ " is used without a reference (after its last one)")
  else c

def Check.mark (c : Check) (slot : Option Nat) : Nat :=
  (slot.bind fun s => c.slots[s]?.map (·.mark)).getD 0

/-- The variables that end with their scope. -/
def Check.leave (t : Tokens) (c : Check) (v : VarId) : Check :=
  if t v ≠ 0 then c.error (varName f v ++ " leaves its scope with " ++ toString (t v) ++ " references") else c

/-- Leaves to the slot (or out of the function with `none`). -/
def Check.deliver (c : Check) (slot : Option Nat) (t : Tokens) : Check :=
  let mark := c.mark slot
  let outer := c.scope.take mark
  let c := (c.scope.drop mark).foldl (Check.leave f t) c
  match slot with
  | none => c
  | some s =>
      match c.slots[s]? with
      | none => c
      | some ⟨mark, none⟩ => { c with slots := c.slots.set s ⟨mark, some (outer.map t)⟩ }
      | some ⟨_, some expected⟩ =>
          let differ := (outer.zip (expected.zip (outer.map t))).filter fun (_, a, b) => a != b
          differ.foldl (fun c (v, _) =>
            c.error (varName f v ++ " has different references on the edges into a join point")) c

/-- The state after a join point, or `none` if no edge reaches it. -/
def Check.joined (c : Check) (slot : Nat) (t : Tokens) : Option Tokens :=
  match c.slots[slot]? with
  | some ⟨mark, some expected⟩ =>
      some (((c.scope.take mark).zip expected).foldl (fun t (v, n) => Function.update t v n) t)
  | _ => none

def Check.newSlot (c : Check) : Check :=
  { c with slots := c.slots ++ [⟨c.scope.length, none⟩] }

/-- The state after a compound statement: the joined one, with its destination defined. -/
def Check.after (c : Check) (slot : Nat) (t : Tokens) (dst : Option VarId) : Option Tokens × Check :=
  match c.joined slot t with
  | none => (none, c)
  | some t =>
      match dst with
      | none => (some t, c)
      | some d =>
          let (t, c) := c.define f t d 1
          (some t, c)

def Check.defineAll (c : Check) (t : Tokens) (defs : List (VarId × Nat)) : Tokens × Check :=
  defs.foldl (fun (t, c) (v, n) => c.define f t v n) (t, c)

/-- The terminator, from the state before it. -/
def Check.term (c : Check) (t : Tokens) (yieldTo head : Option Nat) (term : Term) : Check :=
  let (t, c) := c.takeAll f "the terminator consumes" t (termConsumes f term)
  match term with
  | .yield _ => c.deliver f yieldTo t
  | .break label _ =>
      match c.labels label with
      | some slot => c.deliver f (some slot) t
      | none => c
  | .recur _ =>
      match head with
      | some slot => c.deliver f (some slot) t
      | none => c
  | .return _ | .fail _ | .unwind => c.deliver f none t
  | .unreachable => c

mutual

/-- Checks the sequence from the state, with variables defined at its start. -/
def checkSeq (c : Check) (t : Tokens) (defs : List (VarId × Nat)) (yieldTo head : Option Nat) :
    Seq → Check
  | .mk stmts term =>
      let mark := c.scope.length
      let (t, c) := c.defineAll f t defs
      let c :=
        match checkStmts c t head stmts with
        | (some t, c) => c.term f t yieldTo head term
        | (none, c) => c
      { c with scope := c.scope.take mark }

def checkStmts (c : Check) (t : Tokens) (head : Option Nat) : List Stmt → Option Tokens × Check
  | [] => (some t, c)
  | s :: stmts =>
      match checkStmt c t head s with
      | (some t, c) => checkStmts c t head stmts
      | (none, c) => (none, c)

def checkStmt (c : Check) (t : Tokens) (head : Option Nat) : Stmt → Option Tokens × Check
  | .let dst value onFail onDefect onSuspend =>
      let (t, c) := c.takeAll f "a consuming use of" t (consumed m f value)
      let c := (borrowed m f value).foldl (Check.borrow f t) c
      -- suspended: the saved variables move into the frame, and nothing else may own a reference
      let c :=
        match onSuspend with
        | none => c
        | some _ =>
            let (t, c) := c.takeAll f "a suspension edge saves" t (suspendSaved f onSuspend)
            c.deliver f none t
      let c := checkFail c t head onFail
      let c := checkOption c t none head onDefect
      match dst with
      | none => (some t, c)
      | some d =>
          let (t, c) := c.define f t d (if isView f value then 0 else 1)
          (some t, c)
  | .dup v => (some (Function.update t v (t v + 1)), c)
  | .drop v =>
      let (t, c) := c.takeAll f "drop of" t [v]
      (some t, c)
  | .if dst _ then_ else_ =>
      let slot := c.slots.length
      let c := c.newSlot
      let c := checkSeq c t [] (some slot) head then_
      let c := checkSeq c t [] (some slot) head else_
      c.after f slot t dst
  | .switch dst on cases default =>
      let c := if counted f on.var then c.borrow f t on.var else c
      let slot := c.slots.length
      let c := c.newSlot
      let c := checkCases c t (some slot) head cases
      let c := checkOption c t (some slot) head default
      c.after f slot t dst
  | .block dst label body =>
      let slot := c.slots.length
      let c := c.newSlot
      let c := { c with labels := Function.update c.labels label (some slot) }
      let c := checkSeq c t [] (some slot) head body
      c.after f slot t dst
  | .loop dst vars inits body =>
      let (t, c) := c.takeAll f "a loop's initial value consumes" t (operandVars f inits)
      let exit := c.slots.length
      let c := c.newSlot
      let atHead := c.slots.length
      let c := { c with slots := c.slots ++ [⟨c.scope.length, some (c.scope.map t)⟩] }
      let c := checkSeq c t (vars.map (·, 1)) (some exit) (some atHead) body
      c.after f exit t dst

def checkFail (c : Check) (t : Tokens) (head : Option Nat) : Option (VarId × Seq) → Check
  | none => c
  | some (e, body) => checkSeq c t [(e, 1)] none head body

def checkOption (c : Check) (t : Tokens) (yieldTo head : Option Nat) : Option Seq → Check
  | none => c
  | some body => checkSeq c t [] yieldTo head body

def checkCases (c : Check) (t : Tokens) (yieldTo head : Option Nat) : List (CaseKey × Seq) → Check
  | [] => c
  | (_, body) :: cases => checkCases (checkSeq c t [] yieldTo head body) t yieldTo head cases

end

/-- The references of the parameters at the start. -/
def paramTokens (v : VarId) : Nat :=
  if v ∈ f.params ∧ counted f v ∧ !borrowedParam f v then 1 else 0

def Check.start : Check where
  scope := f.params.filter (counted f)
  slots := []
  labels _ := none
  errors := []

/-- The messages of the imbalances found in the function. -/
def check : List String :=
  match f.body with
  | none => []
  | some body => (checkSeq m f (Check.start f) (paramTokens f) [] none none body).errors

end

end Emela.Lir
