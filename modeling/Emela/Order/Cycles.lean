import Mathlib
import Emela.Order.Lemmas.ImportGraph

/-!
# Cycles of imports
-/

namespace Emela.Order

open Digraph Relation

variable {modules : ModuleMap} {imports : ModuleId → Option (List Import)} {graph : ImportGraph}
  {component c : List ModuleId} {v w start : ModuleId}

/-- An import of `v` is found, and is `w`. -/
def Imports (modules : ModuleMap) (imports : ModuleId → Option (List Import)) (v w : ModuleId) : Prop :=
  v < modules.modules.length ∧ ∃ i ∈ (imports v).getD [], (modules.lookupFrom v i.path).map Fin.val = some w

/-- The component contains a cycle, if only of one module that imports itself. -/
def HasCycle (r : ModuleId → ModuleId → Prop) (component : List ModuleId) : Prop := ∃ v ∈ component, TransGen r v v

/-- A cycle in the component through its first module of least length. -/
structure IsShortestCycle (r : ModuleId → ModuleId → Prop) (component c : List ModuleId) : Prop where
  cycle : IsCycle r c
  first : c.head? = component.head?
  inside : ∀ v ∈ c, v ∈ component
  least : ∀ c', IsCycle r c' → c'.head? = component.head? → c.length ≤ c'.length

def Diagnostic.isCycle (d : Diagnostic) : Bool :=
  match d.kind with
  | .importCycle _ => true
  | _ => false

/-- The diagnostic of a cycle names its modules, and is at the import of the second in the first. -/
structure Names (modules : ModuleMap) (imports : ModuleId → Option (List Import)) (cs : List ModuleId)
    (d : Diagnostic) : Prop where
  kind : ∃ names, d.kind = .importCycle names ∧ names.map some = cs.map fun v => modules.modules[v]?.map (·.name)
  file : ∃ v, cs.head? = some v ∧ some d.file = modules.modules[v]?.map (·.file)
  range : ∃ v, cs.head? = some v ∧ ∃ i ∈ (imports v).getD [],
    (modules.lookupFrom v i.path).map Fin.val = some (cs[1]?.getD v) ∧ d.range = some i.range

/-! ## The graph -/

theorem resolveImports_edges (modules : ModuleMap) (id : ModuleId) (file : Path) (is : List Import) :
    (resolveImports modules id file is).1 =
      is.filterMap fun i => (modules.lookupFrom id i.path).map fun t => ⟨t, i.range⟩ := by
  induction is with
  | nil => rfl
  | cons i is ih =>
    rw [resolveImports, List.filterMap_cons]
    cases modules.lookupFrom id i.path with
    | none => exact ih
    | some t => simp [ih]

theorem resolveImports_isCycle (modules : ModuleMap) (id : ModuleId) (file : Path) (is : List Import) :
    ∀ d ∈ (resolveImports modules id file is).2, d.isCycle = false := by
  induction is with
  | nil => simp [resolveImports]
  | cons i is ih =>
    rw [resolveImports]
    cases modules.lookupFrom id i.path with
    | none =>
      refine List.forall_mem_cons.mpr ⟨?_, ih⟩
      unfold Diagnostic.isCycle
      dsimp only
      split_ifs <;> rfl
    | some t => exact ih

/-- The graph has the edges of the imports that are found. -/
def IsGraph (modules : ModuleMap) (imports : ModuleId → Option (List Import)) (graph : ImportGraph) : Prop :=
  graph.edges = modules.modules.mapIdx fun id data => (resolveImports modules id data.file ((imports id).getD [])).1

theorem IsGraph.imports_eq (h : IsGraph modules imports graph) (v : ModuleId) : graph.imports v =
    if v < modules.modules.length then
      ((imports v).getD []).filterMap fun i => (modules.lookupFrom v i.path).map fun t => ⟨t, i.range⟩
    else [] := by
  rw [ImportGraph.imports, h, List.getElem?_mapIdx]
  by_cases hv : v < modules.modules.length
  · simp [hv, resolveImports_edges]
  · simp [hv]

theorem IsGraph.mem_targets (h : IsGraph modules imports graph) : w ∈ graph.targets v ↔ Imports modules imports v w := by
  rw [ImportGraph.targets, h.imports_eq, Imports]
  split
  · next hv =>
    simp only [List.mem_map, List.mem_filterMap, Option.map_eq_some_iff, hv, true_and]
    constructor
    · rintro ⟨_, ⟨i, hi, t, ht, rfl⟩, rfl⟩
      exact ⟨i, hi, t, ht, rfl⟩
    · rintro ⟨i, hi, t, ht, rfl⟩
      exact ⟨_, ⟨i, hi, t, ht, rfl⟩, rfl⟩
  · next hv => simp [hv]

theorem Imports.lt (h : Imports modules imports v w) : w < modules.modules.length := by
  obtain ⟨-, i, -, hi⟩ := h
  obtain ⟨t, -, rfl⟩ := Option.map_eq_some_iff.mp hi
  exact t.isLt

theorem IsGraph.components (h : IsGraph modules imports graph) :
    ∃ components, tarjan modules graph = some components ∧
      IsComponents (Imports modules imports) modules.ids components ∧ ∀ g ∈ components, g.Pairwise (· < ·) := by
  have hedge : (fun v w => w ∈ graph.targets v) = Imports modules imports := by
    funext v w
    exact propext h.mem_targets
  rw [← hedge]
  apply tarjan_components
  · exact fun v w hw => (h.mem_targets.mp hw).lt
  · intro v hv
    exact List.eq_nil_iff_forall_not_mem.mpr fun w hw => Nat.not_lt.mpr hv (h.mem_targets.mp hw).1

/-! ## Cycles of a component -/

section
variable {r : ModuleId → ModuleId → Prop} {roots : List ModuleId} {components : List (List ModuleId)}

theorem exists_isCycle (h : TransGen r v v) : ∃ c, IsCycle r c ∧ c.head? = some v := by
  obtain ⟨w, hvw, hback⟩ := TransGen.head'_iff.mp h
  obtain ⟨l, hl, hlast⟩ := List.exists_isChain_cons_of_relationReflTransGen hback
  refine ⟨v :: (w :: l).dropLast, ?_, rfl⟩
  have hsplit : (w :: l).dropLast ++ [v] = w :: l := by
    rw [← hlast]
    exact List.dropLast_append_getLast _
  rw [IsCycle, List.cons_append, hsplit]
  exact List.isChain_cons_cons.mpr ⟨hvw, hl⟩

theorem reaches_of_isCycle {l : List ModuleId} (h : IsCycle r (v :: l)) (hw : w ∈ l) :
    ReflTransGen r v w ∧ ReflTransGen r w v := by
  obtain ⟨before, after, rfl⟩ := List.append_of_mem hw
  have hchain : (v :: (before ++ w :: after) ++ [v]).IsChain r := h
  rw [show v :: (before ++ w :: after) ++ [v] = (v :: before ++ [w]) ++ (after ++ [v]) by simp] at hchain
  refine ⟨(transGen_of_isChain (List.isChain_append.mp hchain).1).to_reflTransGen, ?_⟩
  rw [show (v :: before ++ [w]) ++ (after ++ [v]) = (v :: before) ++ (w :: after ++ [v]) by simp] at hchain
  exact (transGen_of_isChain (List.isChain_append.mp hchain).2.1).to_reflTransGen

theorem mem_component_of_isCycle (h : IsComponents r roots components) (hg : component ∈ components)
    (hstart : start ∈ component) (hc : IsCycle r c) (hhead : c.head? = some start) : ∀ v ∈ c, v ∈ component := by
  obtain ⟨l, rfl⟩ := List.head?_eq_some_iff.mp hhead
  intro v hv
  rcases List.mem_cons.mp hv with rfl | hv
  · exact hstart
  · exact (h.component component hg start hstart v).mpr (reaches_of_isCycle hc hv)

/-- A component of one module has a cycle where the module imports itself. -/
theorem hasCycle_singleton (h : IsComponents r roots components) (hg : [start] ∈ components) :
    HasCycle r [start] ↔ r start start := by
  constructor
  · rintro ⟨v, hv, hcycle⟩
    obtain rfl := List.mem_singleton.mp hv
    obtain ⟨c, hc, hhead⟩ := exists_isCycle hcycle
    have hall := mem_component_of_isCycle h hg hv hc hhead
    obtain ⟨l, rfl⟩ := List.head?_eq_some_iff.mp hhead
    cases l with
    | nil => exact List.isChain_cons_cons.mp hc |>.1
    | cons w l =>
      obtain rfl := List.mem_singleton.mp (hall w (by simp))
      exact (List.isChain_cons_cons.mp hc).1
  · exact fun hr => ⟨start, List.mem_singleton_self start, .single hr⟩

/-- In a component of several modules each is on a cycle. -/
theorem cycle_of_others (h : IsComponents r roots components) (hg : start :: w :: c ∈ components) :
    TransGen r start start := by
  have hne : start ≠ w := by
    have hnodup : (start :: w :: c).Nodup := (List.nodup_flatten.mp h.nodup).1 _ hg
    exact fun heq => (List.nodup_cons.mp hnodup).1 (heq ▸ List.mem_cons_self)
  obtain ⟨hto, hback⟩ := (h.component _ hg start List.mem_cons_self w).mp (by simp)
  exact (reflTransGen_iff_eq_or_transGen.mp hto).resolve_left hne.symm |>.trans_left hback

end

theorem IsGraph.shortestCycle (h : IsGraph modules imports graph) {components : List (List ModuleId)}
    (hcomponents : IsComponents (Imports modules imports) modules.ids components) (hg : component ∈ components)
    (hfirst : component.head? = some start) (hcycle : TransGen (Imports modules imports) start start) :
    ∃ c, shortestCycle graph component start = some c ∧ IsShortestCycle (Imports modules imports) component c := by
  have hedge : (fun v w => w ∈ graph.targets v) = Imports modules imports := by
    funext v w
    exact propext h.mem_targets
  have hstart : start ∈ component := List.mem_of_mem_head? hfirst
  obtain ⟨c, hc, hshortest⟩ := @BreadthFirst.cycle_shortest ModuleId _ graph.targets (fun t => component.contains t) start
    (component.length + 1) component (by rintro v (rfl | hv) <;> simp_all) (Nat.lt_succ_self _)
    (by
      rw [hedge]
      intro c hc hhead v hv
      simpa using mem_component_of_isCycle hcomponents hg hstart hc hhead v (List.mem_of_mem_tail hv))
    (by
      rw [hedge]
      exact exists_isCycle hcycle)
  obtain ⟨hiscycle, hhead, hinside, hleast⟩ := hshortest
  rw [hedge] at hiscycle hleast
  refine ⟨c, hc, hiscycle, hhead.trans hfirst.symm, fun v hv => ?_, fun c' hc' hhead' => ?_⟩
  · rcases hinside v hv with rfl | hv
    · exact hstart
    · simpa using hv
  · exact hleast c' hc' (hhead'.trans hfirst)

/-! ## Diagnostics -/

theorem lt_of_mem_component {components : List (List ModuleId)}
    (h : IsComponents (Imports modules imports) modules.ids components) (hg : component ∈ components)
    (hv : v ∈ component) : v < modules.modules.length := by
  obtain ⟨u, hu, hreach⟩ := (h.mem v).mp (List.mem_flatten_of_mem hg hv)
  rcases hreach.cases_tail with rfl | ⟨w, -, hw⟩
  · exact List.mem_range.mp hu
  · exact hw.lt

theorem mapM_names {l : List ModuleId} (hl : ∀ v ∈ l, v < modules.modules.length) :
    ∃ names, l.mapM (fun id => modules.modules[id]?.map (·.name)) = some names ∧
      names.map some = l.map fun v => modules.modules[v]?.map (·.name) := by
  induction l with
  | nil => exact ⟨[], rfl, rfl⟩
  | cons v l ih =>
    obtain ⟨hv, hl⟩ := List.forall_mem_cons.mp hl
    obtain ⟨names, hnames, heq⟩ := ih hl
    refine ⟨modules.modules[v].name :: names, ?_, ?_⟩
    · simp [hnames, hv]
    · simp [heq, hv]

/-- The part of `cycle_diagnostic` after the cycle. -/
theorem IsGraph.names (h : IsGraph modules imports graph) (hc : IsShortestCycle (Imports modules imports) component cs)
    (hfirst : component.head? = some start) (hlt : ∀ v ∈ component, v < modules.modules.length) :
    ∃ d, (do
      let next := cs[1]?.getD start
      let range := ((graph.imports start).find? fun edge => edge.target = next).map (·.range)
      let names ← cs.mapM fun id => modules.modules[id]?.map (·.name)
      let data ← modules.modules[start]?
      some (some (⟨data.file, range, .importCycle names⟩ : Diagnostic))) = some (some d) ∧
      d.isCycle = true ∧ Names modules imports cs d := by
  obtain ⟨l, rfl⟩ := List.head?_eq_some_iff.mp (hc.first.trans hfirst)
  obtain ⟨names, hnames, heq⟩ := mapM_names fun v hv => hlt v (hc.inside v hv)
  have hstart := hlt start (hc.inside start List.mem_cons_self)
  have hchain : (start :: l ++ [start]).IsChain (Imports modules imports) := hc.cycle
  have hnext : Imports modules imports start ((start :: l)[1]?.getD start) := by
    cases l with
    | nil => exact (List.isChain_cons_cons.mp hchain).1
    | cons w l => exact (List.isChain_cons_cons.mp hchain).1
  generalize hw : (start :: l)[1]?.getD start = w at hnext ⊢
  obtain ⟨edge, hedge⟩ : ∃ edge, (graph.imports start).find? (fun edge => edge.target = w) = some edge := by
    obtain ⟨edge, hmem, htarget⟩ := List.mem_map.mp (h.mem_targets.mpr hnext)
    exact Option.isSome_iff_exists.mp (List.find?_isSome.mpr ⟨edge, hmem, by simpa using htarget⟩)
  refine ⟨⟨modules.modules[start].file, some edge.range, .importCycle names⟩, ?_, rfl, ⟨names, rfl, heq⟩,
    ⟨start, rfl, by simp [hstart]⟩, start, rfl, ?_⟩
  · simp [hnames, hstart, hedge]
  · have hmem := List.mem_of_find?_eq_some hedge
    have htarget := List.find?_some hedge
    rw [h.imports_eq, if_pos hstart] at hmem
    obtain ⟨i, hi, hfound⟩ := List.mem_filterMap.mp hmem
    obtain ⟨t, ht, rfl⟩ := Option.map_eq_some_iff.mp hfound
    exact ⟨i, hi, by rw [hw]; simpa [ht] using htarget, rfl⟩

/-- What is said of a component: a shortest cycle where it has one. -/
def Reported (modules : ModuleMap) (imports : ModuleId → Option (List Import)) (component : List ModuleId) :
    Option Diagnostic → Prop
  | none => ¬ HasCycle (Imports modules imports) component
  | some d => HasCycle (Imports modules imports) component ∧ d.isCycle = true ∧
      ∃ c, IsShortestCycle (Imports modules imports) component c ∧ Names modules imports c d

theorem IsGraph.cycleDiagnostic (h : IsGraph modules imports graph) {components : List (List ModuleId)}
    (hcomponents : IsComponents (Imports modules imports) modules.ids components) (hg : component ∈ components) :
    ∃ d, cycleDiagnostic modules graph component = some d ∧ Reported modules imports component d := by
  have hlt : ∀ v ∈ component, v < modules.modules.length := fun v hv => lt_of_mem_component hcomponents hg hv
  cases component with
  | nil => exact absurd rfl (hcomponents.ne_nil _ hg)
  | cons start rest =>
    rw [Order.cycleDiagnostic]
    cases rest with
    | nil =>
      have hself := hasCycle_singleton hcomponents hg
      by_cases hr : Imports modules imports start start
      · have hshortest : IsShortestCycle (Imports modules imports) [start] [start] := by
          refine ⟨List.isChain_pair.mpr hr, rfl, fun v hv => hv, fun c' hc' _ => ?_⟩
          exact List.length_pos_iff.mpr (isCycle_iff.mp hc').1
        obtain ⟨d, hd, hcycle, hnames⟩ := h.names hshortest rfl hlt
        have hmem : (graph.targets start).contains start = true := List.contains_iff_mem.mpr (h.mem_targets.mpr hr)
        refine ⟨some d, ?_, hself.mpr hr, hcycle, [start], hshortest, hnames⟩
        simpa only [if_true, hmem, Option.bind_eq_bind, Option.bind_some] using hd
      · have hmem : (graph.targets start).contains start = false :=
          Bool.eq_false_iff.mpr fun hc => hr (h.mem_targets.mp (List.contains_iff_mem.mp hc))
        refine ⟨none, ?_, fun hc => hr (hself.mp hc)⟩
        simp only [if_true, hmem, Bool.false_eq_true, if_false, Option.bind_eq_bind, Option.bind_some]
    | cons w rest =>
      have hcycle := cycle_of_others hcomponents hg
      obtain ⟨c, hc, hshortest⟩ := h.shortestCycle hcomponents hg rfl hcycle
      obtain ⟨d, hd, hisCycle, hnames⟩ := h.names hshortest rfl hlt
      refine ⟨some d, ?_, ⟨start, List.mem_cons_self, hcycle⟩, hisCycle, c, hshortest, hnames⟩
      simpa only [reduceCtorEq, if_false, hc, Option.map_some, Option.bind_eq_bind, Option.bind_some] using hd

theorem IsGraph.cycleDiagnostics (h : IsGraph modules imports graph) {components : List (List ModuleId)}
    (hcomponents : IsComponents (Imports modules imports) modules.ids components) {part : List (List ModuleId)}
    (hpart : part ⊆ components) :
    ∃ cycles, part.mapM (Order.cycleDiagnostic modules graph) = some cycles ∧
      List.Forall₂ (Reported modules imports) part cycles := by
  induction part with
  | nil => exact ⟨[], rfl, .nil⟩
  | cons g part ih =>
    obtain ⟨hg, hpart⟩ := List.cons_subset.mp hpart
    obtain ⟨d, hd, hreported⟩ := h.cycleDiagnostic hcomponents hg
    obtain ⟨cycles, hcycles, hall⟩ := ih hpart
    exact ⟨d :: cycles, by simp [hd, hcycles], .cons hreported hall⟩

open scoped Classical in
/-- One diagnostic for each component with a cycle. -/
theorem reported_cycles {components : List (List ModuleId)} {cycles : List (Option Diagnostic)}
    (h : List.Forall₂ (Reported modules imports) components cycles) :
    List.Forall₂ (fun g d => Reported modules imports g (some d))
      (components.filter fun g => HasCycle (Imports modules imports) g) cycles.reduceOption := by
  induction h with
  | nil => exact .nil
  | @cons g d components cycles hd _ ih =>
    cases d with
    | none =>
      have hno : ¬ HasCycle (Imports modules imports) g := hd
      rw [List.filter_cons_of_neg (by simpa using hno), List.reduceOption_cons_of_none]
      exact ih
    | some d =>
      rw [List.filter_cons_of_pos (by simpa using hd.1), List.reduceOption_cons_of_some]
      exact .cons hd ih

theorem isCycle_of_reported {components : List (List ModuleId)} {ds : List Diagnostic}
    (h : List.Forall₂ (fun g d => Reported modules imports g (some d)) components ds) : ∀ d ∈ ds, d.isCycle = true := by
  induction h with
  | nil => simp
  | cons hd _ ih => exact List.forall_mem_cons.mpr ⟨hd.2.1, ih⟩

/-! ## The order -/

theorem mem_ids_of_mem {components : List (List ModuleId)}
    (h : IsComponents (Imports modules imports) modules.ids components) :
    v ∈ components.flatten ↔ v ∈ modules.ids := by
  constructor
  · intro hv
    obtain ⟨g, hg, hv⟩ := List.mem_flatten.mp hv
    exact List.mem_range.mpr (lt_of_mem_component h hg hv)
  · exact fun hv => (h.mem v).mpr ⟨v, hv, .refl⟩

theorem isOrder_flatten {components : List (List ModuleId)}
    (h : IsComponents (Imports modules imports) modules.ids components)
    (hacyclic : ∀ v, ¬ TransGen (Imports modules imports) v v) :
    IsOrder (Imports modules imports) modules.ids components.flatten := by
  constructor
  · exact (List.perm_ext_iff_of_nodup h.nodup List.nodup_range).mpr fun v => mem_ids_of_mem h
  · refine List.pairwise_flatten.mpr ⟨fun g hg => ?_, ?_⟩
    · apply List.pairwise_of_forall_mem_list
      intro a ha b hb hab
      exact hacyclic a (.head' hab ((h.component g hg a ha b).mp hb).2)
    · exact h.order.imp fun hgh a ha b hb hab => hgh a ha b hb (.single hab)

/-- The diagnostic is of a shortest cycle of the component. -/
def Describes (modules : ModuleMap) (imports : ModuleId → Option (List Import)) (component : List ModuleId)
    (d : Diagnostic) : Prop :=
  ∃ c, IsShortestCycle (Imports modules imports) component c ∧ Names modules imports c d

open scoped Classical in
/-- An order exactly where there is no cycle, and a diagnostic for each component with one. -/
theorem buildImportGraph_right (modules : ModuleMap) (imports : ModuleId → Option (List Import)) :
    ∃ graph diagnostics components, buildImportGraph modules imports = some (graph, diagnostics) ∧
      IsComponents (Imports modules imports) modules.ids components ∧ (∀ g ∈ components, g.Pairwise (· < ·)) ∧
      (graph.order ≠ none ↔ ∀ v, ¬ TransGen (Imports modules imports) v v) ∧
      (∀ order, graph.order = some order → IsOrder (Imports modules imports) modules.ids order) ∧
      ∃ cycles, cycles.Perm (diagnostics.filter Diagnostic.isCycle) ∧
        List.Forall₂ (Describes modules imports)
          (components.filter fun g => HasCycle (Imports modules imports) g) cycles := by
  let resolved := modules.modules.mapIdx fun id data => resolveImports modules id data.file ((imports id).getD [])
  let graph : ImportGraph := ⟨resolved.map (·.1), none⟩
  have hgraph : IsGraph modules imports graph := by
    refine List.ext_getElem? fun i => ?_
    simp only [graph, resolved, List.getElem?_map, List.getElem?_mapIdx, Option.map_map]
    rfl
  obtain ⟨components, hrun, hcomponents, hsorted⟩ := hgraph.components
  obtain ⟨cycles, hcycles, hall⟩ := hgraph.cycleDiagnostics hcomponents (List.Subset.refl _)
  have hreported := reported_cycles hall
  have hnone : cycles.reduceOption = [] ↔ ∀ v, ¬ TransGen (Imports modules imports) v v := by
    rw [← List.length_eq_zero_iff, ← hreported.length_eq, List.length_eq_zero_iff, List.filter_eq_nil_iff]
    constructor
    · intro hno v hv
      obtain ⟨w, hvw, -⟩ := TransGen.head'_iff.mp hv
      obtain ⟨g, hg, hmem⟩ := List.mem_flatten.mp ((mem_ids_of_mem hcomponents).mpr (List.mem_range.mpr hvw.1))
      exact hno g hg (by simpa using ⟨v, hmem, hv⟩)
    · intro hno g _ hg
      obtain ⟨v, -, hv⟩ : HasCycle (Imports modules imports) g := by simpa using hg
      exact hno v hv
  refine ⟨{ graph with order := if cycles.reduceOption = [] then some components.flatten else none },
    (resolved.flatMap (·.2) ++ cycles.reduceOption).mergeSort fun a b => decide (a.file ≤ b.file), components, ?_,
    hcomponents, hsorted, ?_, ?_, cycles.reduceOption, ?_, ?_⟩
  · simp only [buildImportGraph, Option.bind_eq_bind]
    rw [hrun, Option.bind_some, hcycles, Option.bind_some]
  · rw [← hnone]
    dsimp only
    split
    · next h => simp [h]
    · next h => simp [h]
  · intro order
    dsimp only
    split
    · next h =>
      rintro ⟨⟩
      exact isOrder_flatten hcomponents (hnone.mp h)
    · rintro ⟨⟩
  · have hplain : (resolved.flatMap (·.2)).filter Diagnostic.isCycle = [] := by
      refine List.filter_eq_nil_iff.mpr fun d hd => ?_
      obtain ⟨r, hr, hd⟩ := List.mem_flatMap.mp hd
      obtain ⟨i, hi, rfl⟩ := List.mem_mapIdx.mp hr
      simp [resolveImports_isCycle _ _ _ _ d hd]
    have hcycle : cycles.reduceOption.filter Diagnostic.isCycle = cycles.reduceOption :=
      List.filter_eq_self.mpr (isCycle_of_reported hreported)
    have hsort := (List.mergeSort_perm (resolved.flatMap (·.2) ++ cycles.reduceOption)
      fun a b => decide (a.file ≤ b.file)).filter Diagnostic.isCycle
    rw [List.filter_append, hplain, hcycle, List.nil_append] at hsort
    exact hsort.symm
  · exact hreported.imp fun g d hd => hd.2.2

end Emela.Order
