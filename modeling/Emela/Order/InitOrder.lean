import Mathlib
import Emela.Infer.Ty
import Emela.Infer.Context

/-!
# Initialization order

`find_cycle` and `init_order` of `layer.rs`: the order in which the handlers of a `with` or a layer are initialized.
-/

namespace Emela.Order

open Infer (Ty DefId RowElem Row)

/-! ## Cycles -/

/-- The states 0, 1 and 2 of a vertex. -/
inductive Mark where
  | unvisited
  | inProgress
  | done
deriving DecidableEq

/-- What `visit` changes. -/
structure Search where
  state : Nat → Mark
  path : List Nat

/-- The loop of `visit` over the edges of a vertex, with `visit` for the recursive calls; nothing where the source
has an `expect`. -/
def visitEach (visit : Nat → Search → Option (Option (List Nat) × Search)) : List Nat → Search →
    Option (Option (List Nat) × Search)
  | [], s => some (none, s)
  | w :: ws, s =>
    match s.state w with
    | .inProgress => do
      let start ← s.path.idxOf? w
      some (some (s.path.drop start), s)
    | .unvisited => do
      let (cycle, s) ← visit w s
      match cycle with
      | some cycle => some (some cycle, s)
      | none => visitEach visit ws s
    | .done => visitEach visit ws s

/-- Nothing also where the fuel, the depth of the recursion, runs out. -/
def visit (edges : Nat → List Nat) : Nat → Nat → Search → Option (Option (List Nat) × Search)
  | 0, _, _ => none
  | fuel + 1, v, s => do
    let s : Search := ⟨Function.update s.state v .inProgress, s.path ++ [v]⟩
    let (cycle, s) ← visitEach (visit edges fuel) (edges v) s
    match cycle with
    | some cycle => some (some cycle, s)
    | none => some (none, ⟨Function.update s.state v .done, s.path.dropLast⟩)

/-- The loop of `find_cycle` over the vertices. -/
def findCycleFrom (n : Nat) (edges : Nat → List Nat) : List Nat → (Nat → Mark) → Option (Option (List Nat))
  | [], _ => some none
  | v :: vs, state =>
    if state v = .unvisited then do
      let (cycle, s) ← visit edges n v ⟨state, []⟩
      match cycle with
      | some cycle => some (some cycle)
      | none => findCycleFrom n edges vs s.state
    else findCycleFrom n edges vs state

def findCycle (n : Nat) (edges : Nat → List Nat) : Option (Option (List Nat)) :=
  findCycleFrom n edges (List.range n) fun _ => .unvisited

/-! ## The order -/

/-- An effect and its type arguments. -/
structure Tag where
  d : DefId
  args : List Ty
deriving DecidableEq

/-- The effect a provider of a `with` or a layer provides. -/
structure Entry where
  effect : Tag

def depends (entries : List Entry) (deps : List Row) (i j : Nat) : Bool :=
  match entries[i]?, entries[j]?, deps[i]? with
  | some e, some f, some row => j != i && f.effect != e.effect && row.contains (.tag f.effect.d f.effect.args)
  | _, _, _ => false

/-- The loop of `init_order`, with the count of the entries still to place; nothing where the source has an `expect`. -/
def placeAll (entries : List Entry) (deps : List Row) : Nat → (Nat → Bool) → List Nat → Option (List Nat)
  | 0, _, order => some order
  | k + 1, done, order => do
    let next ← (List.range entries.length).find? fun i =>
      ! done i && (List.range entries.length).all fun j => done j || ! depends entries deps i j
    placeAll entries deps k (Function.update done next true) (order ++ [next])

/-- `Err` with the entries along a cycle. -/
def initOrder (entries : List Entry) (deps : List Row) : Option (Except (List Nat) (List Nat)) := do
  let cycle ← findCycle entries.length fun i => (List.range entries.length).filter (depends entries deps i ·)
  match cycle with
  | some cycle => some (.error cycle)
  | none =>
    let order ← placeAll entries deps entries.length (fun _ => false) []
    some (.ok order)

/-! ## Strongly connected components

`strongly_connected` of `check.rs`: the order in which definitions are inferred. -/

open Infer (DefId)

/-- A map from definitions to lists of them, as its entries. -/
abbrev DefLists := List (DefId × List DefId)

/-- The list of a definition, empty for one that is not in the map. -/
def DefLists.get (lists : DefLists) (v : DefId) : List DefId := (lists.lookup v).getD []

/-- The last of `stack` is its head here. -/
structure Tarjan where
  index : DefId → Option Nat
  low : DefId → Option Nat
  onStack : DefId → Bool
  stack : List DefId
  next : Nat
  groups : List (List DefId)

namespace Tarjan

/-- `visit` up to its loop over the edges. -/
def enter (s : Tarjan) (v : DefId) : Tarjan where
  index := Function.update s.index v (some s.next)
  low := Function.update s.low v (some s.next)
  onStack := Function.update s.onStack v true
  stack := v :: s.stack
  next := s.next + 1
  groups := s.groups

/-- The smaller of the `low` of `v` and `i`; nothing where an index into a map fails. -/
def lower (s : Tarjan) (v : DefId) (i : Option Nat) : Option Tarjan := do
  let low ← s.low v
  let i ← i
  some { s with low := Function.update s.low v (some (min low i)) }

/-- The loop that pops a group: the group, the stack and `on_stack` after it; nothing where the `expect` fails. -/
def popGroup (v : DefId) : List DefId → (DefId → Bool) → List DefId →
    Option (List DefId × List DefId × (DefId → Bool))
  | [], _, _ => none
  | w :: stack, onStack, group =>
    let onStack := Function.update onStack w false
    if w = v then some (group ++ [w], stack, onStack) else popGroup v stack onStack (group ++ [w])

/-- `visit` after its loop over the edges. -/
def leave (s : Tarjan) (v : DefId) : Option Tarjan := do
  let low ← s.low v
  let index ← s.index v
  if low = index then
    let (group, stack, onStack) ← popGroup v s.stack s.onStack []
    some { s with stack := stack, onStack := onStack, groups := s.groups ++ [group.mergeSort] }
  else some s

/-- The loop of `visit` over the edges of `v`, with `visit` for the recursive calls. -/
def visitEach (visit : DefId → Tarjan → Option Tarjan) (v : DefId) : List DefId → Tarjan → Option Tarjan
  | [], s => some s
  | w :: ws, s =>
    if (s.index w).isNone then do
      let s ← visit w s
      let s ← s.lower v (s.low w)
      visitEach visit v ws s
    else if s.onStack w then do
      let s ← s.lower v (s.index w)
      visitEach visit v ws s
    else visitEach visit v ws s

/-- Nothing also where the fuel, the depth of the recursion, runs out. -/
def visit (edges : DefLists) : Nat → DefId → Tarjan → Option Tarjan
  | 0, _, _ => none
  | fuel + 1, v, s => do
    let s ← visitEach (visit edges fuel) v (edges.get v) (s.enter v)
    s.leave v

end Tarjan

/-- The loop over the nodes. -/
def visitNodes (edges : DefLists) (fuel : Nat) : List DefId → Tarjan → Option Tarjan
  | [], s => some s
  | v :: vs, s =>
    if (s.index v).isNone then do
      let s ← Tarjan.visit edges fuel v s
      visitNodes edges fuel vs s
    else visitNodes edges fuel vs s

/-- The definitions of the graph. -/
def graphNames (nodes : List DefId) (edges : DefLists) : List DefId := nodes ++ edges.flatMap (·.2)

/-- The recursion is never deeper than there are definitions. -/
def stronglyConnected (nodes : List DefId) (edges : DefLists) : Option (List (List DefId)) := do
  let start : Tarjan := ⟨fun _ => none, fun _ => none, fun _ => false, [], 0, []⟩
  let s ← visitNodes edges (graphNames nodes edges).length nodes start
  some s.groups

/-! ## Cycles of supertraits

`check_cycles` and `cycle_through` of `traits.rs`, over the supertraits of each trait. -/

open Infer (DefId Span)

/-- What `check_cycles` reads of a definition. -/
structure Def where
  name : String
  span : Option Span

/-- `SupertraitCycle` with its span. -/
structure SupertraitCycle where
  span : Option Span
  cycle : List String
deriving DecidableEq

/-- The loop of `go` over the supertraits of a trait, with `go` for the recursive calls: whether `start` was met, the
path and the traits seen. -/
def goEach (go : DefId → List DefId → List DefId → Option (Bool × List DefId × List DefId)) (start : DefId) :
    List DefId → List DefId → List DefId → Option (Bool × List DefId × List DefId)
  | [], path, seen => some (false, path, seen)
  | s :: supers, path, seen =>
    if s = start then some (true, path, seen)
    else if s ∈ seen then goEach go start supers path seen
    else do
      let (found, path, seen) ← go s (path ++ [s]) (s :: seen)
      if found then some (true, path, seen) else goEach go start supers path.dropLast seen

/-- Nothing where the fuel, the depth of the recursion, runs out. -/
def go (supers : DefLists) (start : DefId) : Nat → DefId → List DefId → List DefId →
    Option (Bool × List DefId × List DefId)
  | 0, _, _, _ => none
  | fuel + 1, t, path, seen => goEach (go supers start fuel) start (supers.get t) path seen

/-- The recursion is never deeper than there are supertraits, and one more. -/
def cycleThrough (supers : DefLists) (start : DefId) : Option (Option (List DefId)) := do
  let (found, path, _) ← go supers start ((supers.flatMap (·.2)).length + 1) start [start] []
  some (if found then some path else none)

/-- The place in the cycle of the trait defined first. -/
def firstOf (order cycle : List DefId) : Nat :=
  ((List.range cycle.length).argmin fun i => (cycle[i]?.bind (order.idxOf? ·)).getD (2 ^ 64 - 1)).getD 0

/-- The report of a cycle; nothing where an index fails. -/
def report (defs : DefId → Def) (order cycle : List DefId) : Option SupertraitCycle := do
  let first := firstOf order cycle
  let names := (cycle.drop first ++ cycle.take first).map fun t => (defs t).name
  let name ← names[0]?
  let t ← cycle[first]?
  some ⟨(defs t).span, names ++ [name]⟩

/-- The loop of `check_cycles` over the traits: those on the cycles found, and the reports. -/
def reportEach (defs : DefId → Def) (supers : DefLists) (order : List DefId) :
    List DefId → List DefId → List SupertraitCycle → Option (List DefId × List SupertraitCycle)
  | [], reported, diags => some (reported, diags)
  | start :: rest, reported, diags =>
    if start ∈ reported then reportEach defs supers order rest reported diags
    else do
      match ← cycleThrough supers start with
      | none => reportEach defs supers order rest reported diags
      | some cycle =>
        let diag ← report defs order cycle
        reportEach defs supers order rest (reported ++ cycle) (diags ++ [diag])

/-- The traits reported have no supertraits any more. -/
def DefLists.clear (supers : DefLists) (reported : List DefId) : DefLists :=
  supers.map fun e => if e.1 ∈ reported then (e.1, []) else e

/-- The supertraits without cycles, and the reports. -/
def checkCycles (defs : DefId → Def) (supers : DefLists) : Option (DefLists × List SupertraitCycle) := do
  let order := (supers.map (·.1)).mergeSort
  let (reported, diags) ← reportEach defs supers order order [] []
  some (supers.clear reported, diags)

end Emela.Order
