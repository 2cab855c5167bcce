import Emela.Lib.BreadthFirst
import Emela.Order.InitOrder

/-!
# The import graph

`graph.rs`: the imports of the modules, their cycles and the order in which modules are checked.
-/

namespace Emela.Order

/-- An index into the modules. -/
abbrev ModuleId := Nat

/-- The segments of the name of a module. -/
abbrev ModuleName := List String

/-- A file path, as its components. -/
abbrev Path := List String

structure ModuleData where
  name : ModuleName
  file : Path

/-- A Pome the project depends on, where there are `modules` modules and `packages` Pomes. -/
structure Package (modules packages : Nat) where
  local_ : ModuleName → Option (Fin modules)
  lib : Option (Fin modules)
  dependencies : String → Option (Fin packages)

/-- The indices in its tables are of modules and Pomes of the map. -/
structure ModuleMap where
  modules : List ModuleData
  packageCount : Nat
  packages : Fin packageCount → Package modules.length packageCount
  byName : ModuleName → Option (Fin modules.length)
  core : List ModuleId
  packageOf : ModuleId → Option (Fin packageCount)
  projectDependencies : String → Option (Fin packageCount)
  projectDevDependencies : String → Option (Fin packageCount)
  tests : List ModuleId

/-- `src/lib.emel` and `src/main.emel` of a Pome. -/
def LIB : String := "Lib"

@[inherit_doc LIB]
def MAIN : String := "Main"

namespace ModuleMap

/-- The keys of the arena. -/
def ids (m : ModuleMap) : List ModuleId := List.range m.modules.length

def isTest (m : ModuleMap) (id : ModuleId) : Bool := m.tests.contains id

def isCore (m : ModuleMap) (id : ModuleId) : Bool := m.core.contains id

/-- The module an import path of `importer` names. -/
def lookupFrom (m : ModuleMap) (importer : ModuleId) (name : ModuleName) : Option (Fin m.modules.length) :=
  let package := (m.packageOf importer).map m.packages
  let fromTests := m.isTest importer
  let own := match package with
    | some p => p.local_ name
    | none => (m.byName name).filter fun id => (m.packageOf id).isNone && (fromTests || !m.isTest id)
  own.or <| match name with
    | [] => none
    | first :: rest =>
        let dependency := match package with
          | some p => p.dependencies first
          | none => (m.projectDependencies first).or (if fromTests then m.projectDevDependencies first else none)
        match dependency with
        | some dependency =>
            match rest with
            | [] => (m.packages dependency).lib
            | [only] => if only = LIB ∨ only = MAIN then none else (m.packages dependency).local_ [only]
            | rest => (m.packages dependency).local_ rest
        | none => (m.byName name).filter fun id => m.isCore id

/-- Whether an import that is not found is of a module only the tests may import. -/
def isTestOnly (m : ModuleMap) (importer : ModuleId) (name : ModuleName) : Bool :=
  if (m.packageOf importer).isSome || m.isTest importer then false
  else ((m.byName name).any fun id => m.isTest id) ||
    (name.head?.any fun first => (m.projectDevDependencies first).isSome)

end ModuleMap

structure TextRange where
  start : Nat
  length : Nat
deriving DecidableEq

structure Import where
  path : ModuleName
  range : TextRange

structure ImportEdge where
  target : ModuleId
  range : TextRange

inductive DiagnosticKind where
  | testOnlyModule (name : ModuleName)
  | undefinedModule (name : ModuleName)
  | importCycle (modules : List ModuleName)

structure Diagnostic where
  file : Path
  range : Option TextRange
  kind : DiagnosticKind

/-- The edges of each module, and the order. -/
structure ImportGraph where
  edges : List (List ImportEdge)
  order : Option (List ModuleId)

def ImportGraph.imports (graph : ImportGraph) (module : ModuleId) : List ImportEdge := graph.edges[module]?.getD []

/-- The modules a module imports, one for each edge. -/
def ImportGraph.targets (graph : ImportGraph) (module : ModuleId) : List ModuleId :=
  (graph.imports module).map (·.target)

/-! ## Components -/

namespace Tarjan

/-- The loop that pops a component: it, the stack and `on_stack` after it. -/
def popComponent (node : ModuleId) : List ModuleId → (ModuleId → Bool) → List ModuleId →
    List ModuleId × List ModuleId × (ModuleId → Bool)
  | [], onStack, component => (component, [], onStack)
  | member :: stack, onStack, component =>
    let onStack := Function.update onStack member false
    if member = node then (component ++ [member], stack, onStack)
    else popComponent node stack onStack (component ++ [member])

/-- The low link of a finished node, for the one that is resumed. -/
def lowerParent (s : Tarjan) (lowlink : Option Nat) : List (ModuleId × Nat) → Option Tarjan
  | [] => some s
  | (parent, _) :: _ => s.lower parent lowlink

/-- What follows the last edge of `node`, which was taken from `work`. -/
def finish (s : Tarjan) (node : ModuleId) (work : List (ModuleId × Nat)) : Option Tarjan := do
  let index ← s.index node
  let lowlink ← s.low node
  let s ← s.lowerParent (some lowlink) work
  if lowlink = index then
    let (component, stack, onStack) := popComponent node s.stack s.onStack []
    some { s with stack := stack, onStack := onStack, groups := s.groups ++ [component.mergeSort] }
  else some s

/-- The loop over `work`, its last element first. Nothing also where the fuel runs out. -/
def loop (targets : ModuleId → List ModuleId) : Nat → List (ModuleId × Nat) → Tarjan → Option Tarjan
  | _, [], s => some s
  | 0, _ :: _, _ => none
  | fuel + 1, (node, edge) :: work, s =>
    let s := if edge = 0 ∧ s.index node = none then s.enter node else s
    match (targets node)[edge]? with
    | some target =>
        if s.index target = none then loop targets fuel ((target, 0) :: (node, edge + 1) :: work) s
        else if s.onStack target then
          (s.lower node (s.index target)).bind (loop targets fuel ((node, edge + 1) :: work))
        else loop targets fuel ((node, edge + 1) :: work) s
    | none => (s.finish node work).bind (loop targets fuel work)

end Tarjan

/-- The loop over the roots. -/
def tarjanRoots (targets : ModuleId → List ModuleId) (fuel : Nat) : List ModuleId → Tarjan → Option Tarjan
  | [], s => some s
  | root :: roots, s =>
    if s.index root = none then (Tarjan.loop targets fuel [(root, 0)] s).bind (tarjanRoots targets fuel roots)
    else tarjanRoots targets fuel roots s

/-- One turn for each node and each edge is enough. -/
def tarjan (modules : ModuleMap) (graph : ImportGraph) : Option (List (List ModuleId)) := do
  let fuel := (modules.ids.map fun v => (graph.targets v).length + 1).sum
  let s ← tarjanRoots graph.targets fuel modules.ids ⟨fun _ => none, fun _ => none, fun _ => false, [], 0, []⟩
  some s.groups

/-! ## Diagnostics -/

/-- Nothing where it would be unreachable. No module is taken from the queue twice. -/
def shortestCycle (graph : ImportGraph) (component : List ModuleId) (start : ModuleId) : Option (List ModuleId) :=
  BreadthFirst.cycle graph.targets (fun target => component.contains target) start (component.length + 1)

/-- No diagnostic where the component is no cycle; nothing at all where `shortest_cycle` or an index fails. -/
def cycleDiagnostic (modules : ModuleMap) (graph : ImportGraph) (component : List ModuleId) :
    Option (Option Diagnostic) :=
  match component with
  | [] => some none
  | start :: rest => do
    let cycle ←
      if rest = [] then some (if (graph.targets start).contains start then some [start] else none)
      else (shortestCycle graph component start).map some
    match cycle with
    | none => some none
    | some cycle =>
        let next := cycle[1]?.getD start
        let range := ((graph.imports start).find? fun edge => edge.target = next).map (·.range)
        let names ← cycle.mapM fun id => modules.modules[id]?.map (·.name)
        let data ← modules.modules[start]?
        some (some ⟨data.file, range, .importCycle names⟩)

/-- The edges of a module, and a diagnostic for each import that is not found. -/
def resolveImports (modules : ModuleMap) (id : ModuleId) (file : Path) : List Import → List ImportEdge × List Diagnostic
  | [] => ([], [])
  | i :: imports =>
    let (resolved, diagnostics) := resolveImports modules id file imports
    match modules.lookupFrom id i.path with
    | some target => (⟨target, i.range⟩ :: resolved, diagnostics)
    | none =>
        let kind := if modules.isTestOnly id i.path then .testOnlyModule i.path else .undefinedModule i.path
        (resolved, ⟨file, some i.range, kind⟩ :: diagnostics)

/-- Nothing where a part of it fails. -/
def buildImportGraph (modules : ModuleMap) (imports : ModuleId → Option (List Import)) :
    Option (ImportGraph × List Diagnostic) := do
  let resolved := modules.modules.mapIdx fun id data => resolveImports modules id data.file ((imports id).getD [])
  let graph : ImportGraph := ⟨resolved.map (·.1), none⟩
  let components ← tarjan modules graph
  let cycles ← components.mapM (cycleDiagnostic modules graph)
  let diagnostics := (resolved.flatMap (·.2) ++ cycles.reduceOption).mergeSort fun a b => decide (a.file ≤ b.file)
  let order := if cycles.reduceOption = [] then some components.flatten else none
  some ({ graph with order := order }, diagnostics)

end Emela.Order
