import Emela.Pome.Grants
import Emela.Pome.Lemmas.Reached
import Emela.Pome.Lemmas.Text

/-!
# The Pomes that only development needs

`resolve` marks a Pome `dev` when `reached` does not have its path. The requirements are fetched while the graph
is walked; what the fetcher answers for a version must not change on the way.
-/

namespace Emela.Pome

variable {σ ε α β : Type} {world : World σ} {crates : ProjectCrates} {config : Config} {fuel : Nat}
  {m m' : Machine σ} {x : Resolve σ α} {f : α → Resolve σ β} {graph : Requirements ε}
  {calls : SourcePath → Version → Resolve σ (List (SourcePath × Version))} {Inv : Machine σ → Prop}

/-! ## Running -/

def runResolve (x : Resolve σ α) (m : Machine σ) : Option (Except PomeError α × Machine σ) := x m

theorem runResolve_bind_ok {b : β} :
    runResolve (x >>= f) m = some (.ok b, m') ↔
      ∃ a m₁, runResolve x m = some (.ok a, m₁) ∧ runResolve (f a) m₁ = some (.ok b, m') := by
  show Option.bind (runResolve x m) (fun r => ExceptT.bindCont f r.1 r.2) = _ ↔ _
  rcases runResolve x m with _ | ⟨_ | a, m₁⟩
  · simp
  · simp only [Option.bind_some, Option.some.injEq, Prod.mk.injEq, reduceCtorEq, false_and, exists_false, iff_false]
    exact fun h => by cases h
  · simp only [Option.bind_some, Option.some.injEq, Prod.mk.injEq, Except.ok.injEq]
    constructor
    · exact fun h => ⟨a, m₁, ⟨rfl, rfl⟩, h⟩
    · rintro ⟨_, _, ⟨rfl, rfl⟩, h⟩
      exact h

theorem runResolve_pure {a b : α} : runResolve (pure a) m = some (.ok b, m') ↔ a = b ∧ m = m' := by
  show some (Except.ok a, m) = some (Except.ok b, m') ↔ _
  simp

theorem runResolve_ended {a : Option α} {b : α} : runResolve (ended a) m = some (.ok b, m') ↔ a = some b ∧ m = m' := by
  cases a with
  | none =>
    show none = some (Except.ok b, m') ↔ _
    simp
  | some a =>
    rw [Option.some.injEq]
    exact runResolve_pure

theorem runResolve_fetched {call : Fetch σ α} {a : α} :
    runResolve (fetched call) m = some (.ok a, m') ↔ runFetch call m = (.ok a, m') := by
  rw [runResolve, fetched]
  rcases runFetch call m with ⟨_ | a, m₁⟩ <;> simp

/-! ## The graph while it is fetched -/

/-- In a machine with `Inv` the calls answer what the graph says, and `Inv` stays. -/
def Answers (Inv : Machine σ → Prop) (calls : SourcePath → Version → Resolve σ (List (SourcePath × Version)))
    (graph : Requirements ε) : Prop :=
  ∀ path version m reqs m', Inv m → runResolve (calls path version) m = some (.ok reqs, m') →
    Inv m' ∧ graph path version = .ok reqs

theorem buildLoopM_answers (hcalls : Answers Inv calls graph) {selected list : BuildList}
    {visited : List (SourcePath × Str)} {queue : List (SourcePath × Version)} (hm : Inv m)
    (h : runResolve (buildLoopM calls fuel selected visited queue) m = some (.ok (some list), m')) :
    Inv m' ∧ buildLoopM graph fuel selected visited queue = .ok (some list) := by
  induction fuel generalizing selected visited queue m with
  | zero => cases h
  | succ fuel ih =>
    cases queue with
    | nil =>
      cases h
      exact ⟨hm, rfl⟩
    | cons node queue =>
      obtain ⟨path, version⟩ := node
      rw [buildLoopM] at h ⊢
      split at h
      · next hvisited =>
        rw [if_pos hvisited]
        exact ih hm h
      · next hvisited =>
        rw [if_neg hvisited]
        obtain ⟨reqs, m₁, hcall, h⟩ := runResolve_bind_ok.mp h
        obtain ⟨hm₁, hreqs⟩ := hcalls path version m reqs m₁ hm hcall
        rw [hreqs]
        exact ih hm₁ h

theorem reachLoopM_answers (hcalls : Answers Inv calls graph) {selected : BuildList}
    {seen queue built : List SourcePath} (hm : Inv m)
    (h : runResolve (reachLoopM calls selected fuel seen queue) m = some (.ok (some built), m')) :
    Inv m' ∧ reachLoopM graph selected fuel seen queue = .ok (some built) := by
  induction fuel generalizing seen queue m with
  | zero => cases h
  | succ fuel ih =>
    cases queue with
    | nil =>
      cases h
      exact ⟨hm, rfl⟩
    | cons path queue =>
      rw [reachLoopM_cons]
      rw [reachLoopM] at h
      cases hversion : selected.get path with
      | none =>
        simp only [hversion] at h ⊢
        exact ih hm h
      | some version =>
        simp only [hversion] at h ⊢
        obtain ⟨reqs, m₁, hcall, h⟩ := runResolve_bind_ok.mp h
        obtain ⟨hm₁, hreqs⟩ := hcalls path version m reqs m₁ hm hcall
        rw [hreqs]
        exact ih hm₁ h

theorem reachedM_answers (hcalls : Answers Inv calls graph) {roots : List (SourcePath × Version)}
    {selected : BuildList} {built : List SourcePath} (hm : Inv m)
    (h : runResolve (reachedM calls fuel roots selected) m = some (.ok (some built), m')) :
    reachedM graph fuel roots selected = .ok (some built) := by
  obtain ⟨list, m₁, hlist, h⟩ := runResolve_bind_ok.mp h
  cases list with
  | none => cases h
  | some list =>
    obtain ⟨hm₁, hbuild⟩ := buildLoopM_answers hcalls hm hlist
    obtain ⟨-, hreach⟩ := reachLoopM_answers hcalls hm₁ h
    exact reachedM_eq_ok.mpr ⟨list, buildListM_eq_ok.mp hbuild, hreach⟩

/-! ## The lock -/

/-- The requirements are those of the manifest, which is that of the Pome. -/
theorem requirementsAt_ok {parse : Str → Except Str Manifest} {crates : Crates} {path : SourcePath} {version : Version}
    {locked : Option H1} {reqs : List (SourcePath × Version)}
    (h : runFetch (requirementsAt world crates config parse path version locked) m = (.ok reqs, m')) :
    ∃ content text parsed, runFetch (manifest world crates config path version locked) m = (.ok content, m') ∧
      fromUtf8 content = some text ∧ parse text = .ok parsed ∧ parsed.name = path ∧
      parsed.dependencies.map (fun d => (d.1, d.2.version)) = reqs := by
  obtain ⟨content, m₁, hcontent, h⟩ := runFetch_bind_ok.mp h
  split at h
  · cases h
  · next text htext =>
    split at h
    · cases h
    · next parsed hparsed =>
      split at h
      · cases h
      · next hname =>
        obtain ⟨hreqs, rfl⟩ := runFetch_pure_ok.mp h
        exact ⟨content, text, parsed, hcontent, htext, hparsed, not_not.mp hname, hreqs⟩

theorem download_path {path : SourcePath} {version : Version} {locked : Locked}
    (h : runFetch (download world crates.toCrates config path version) m = (.ok locked, m')) : locked.path = path := by
  obtain ⟨⟨commit, files⟩, m₁, -, h⟩ := runFetch_bind_ok.mp h
  obtain ⟨⟨tree, manifest⟩, m₂, -, h⟩ := runFetch_bind_ok.mp h
  obtain ⟨record, m₃, -, h⟩ := runFetch_bind_ok.mp h
  obtain ⟨_, m₄, -, h⟩ := runFetch_bind_ok.mp h
  obtain ⟨_, m₅, -, h⟩ := runFetch_bind_ok.mp h
  obtain ⟨content, m₆, -, h⟩ := runFetch_bind_ok.mp h
  obtain ⟨_, m₇, -, h⟩ := runFetch_bind_ok.mp h
  obtain ⟨rfl, -⟩ := runFetch_pure_ok.mp h
  rfl

theorem keepLocked_path {locked kept : Locked}
    (h : runResolve (keepLocked world crates config locked) m = some (.ok kept, m')) : kept.path = locked.path := by
  obtain ⟨dir, m₁, -, h⟩ := runResolve_bind_ok.mp h
  obtain ⟨files, m₂, -, h⟩ := runResolve_bind_ok.mp h
  obtain ⟨rfl, -⟩ := runResolve_pure.mp h
  rfl

theorem Lock.get_path {lock : Lock} {path : SourcePath} {locked : Locked} (h : lock.get path = some locked) :
    locked.path = path := by
  have hfound := List.find?_some h
  simpa using hfound

theorem lockPomes_dev {project : Manifest} {old : Option Lock} {built : List SourcePath} {list : BuildList}
    {pomes : List Locked}
    (h : runResolve (lockPomes world crates config project old built list) m = some (.ok pomes, m')) :
    ∀ locked ∈ pomes, locked.dev = true ↔ locked.path ∉ built := by
  induction list generalizing pomes m with
  | nil =>
    obtain ⟨rfl, -⟩ := runResolve_pure.mp h
    exact fun locked hmem => absurd hmem List.not_mem_nil
  | cons entry list ih =>
    obtain ⟨path, version⟩ := entry
    rw [lockPomes] at h
    split at h
    · exact ih h
    · obtain ⟨locked, m₁, hpath, h⟩ : ∃ (locked : Locked) (m₁ : Machine σ), locked.path = path ∧
          runResolve (lockPomes world crates config project old built list >>= fun pomes =>
            pure ({ locked with dev := decide (path ∉ built) } :: pomes)) m₁ = some (.ok pomes, m') := by
        dsimp only at h
        split at h
        · next kept hold =>
          obtain ⟨locked, m₁, hlocked, h⟩ := runResolve_bind_ok.mp h
          obtain ⟨hget, -⟩ := Option.filter_eq_some_iff.mp hold
          obtain ⟨lock, -, hfind⟩ := Option.bind_eq_some_iff.mp hget
          exact ⟨locked, m₁, (keepLocked_path hlocked).trans (Lock.get_path hfind), h⟩
        · obtain ⟨locked, m₁, hlocked, h⟩ := runResolve_bind_ok.mp h
          exact ⟨locked, m₁, download_path (runResolve_fetched.mp hlocked), h⟩
      obtain ⟨rest, m₂, hrest, h⟩ := runResolve_bind_ok.mp h
      obtain ⟨rfl, rfl⟩ := runResolve_pure.mp h
      intro l hl
      rcases List.mem_cons.mp hl with rfl | hl
      · simp [hpath]
      · exact ih hrest l hl

/-- The Pomes of the lock that are marked `dev` are those that the normal dependencies do not need. -/
theorem resolve_dev {root : Str} {project : Manifest} {old : Option Lock} {lock : Lock}
    (hcalls : Answers Inv (graphRequirements world crates config root project.replace old) graph) (hm : Inv m)
    (h : runResolve (resolve world crates config fuel root project old) m = some (.ok lock, m')) :
    ∃ list, buildList graph fuel (requiredVersions project.dependencies ++ requiredVersions project.devDependencies) =
        some (.ok list) ∧
      ∀ locked ∈ lock.pomes, locked.dev = true ↔
        ¬ Needed graph (requiredVersions project.dependencies) list locked.path := by
  obtain ⟨list?, m₁, hlist, h⟩ := runResolve_bind_ok.mp h
  obtain ⟨list, m₂, hended, h⟩ := runResolve_bind_ok.mp h
  obtain ⟨rfl, rfl⟩ := runResolve_ended.mp hended
  obtain ⟨built?, m₃, hbuilt, h⟩ := runResolve_bind_ok.mp h
  obtain ⟨built, m₄, hended, h⟩ := runResolve_bind_ok.mp h
  obtain ⟨rfl, rfl⟩ := runResolve_ended.mp hended
  obtain ⟨pomes, m₅, hpomes, h⟩ := runResolve_bind_ok.mp h
  obtain ⟨rfl, -⟩ := runResolve_pure.mp h
  obtain ⟨hm₁, hlist⟩ := buildLoopM_answers hcalls hm hlist
  refine ⟨list, buildListM_eq_ok.mp hlist, fun locked hlocked => ?_⟩
  have hneeded := (reachedM_isLeast (reachedM_answers hcalls hm₁ hbuilt)).unique needed_isLeast
  rw [lockPomes_dev hpomes locked ((List.mem_insertionSort _).mp hlocked)]
  exact not_congr (Set.ext_iff.mp hneeded locked.path)

/-! ## What is reached -/

/-- `reached` has the least set with the paths of the roots' own build list and the requirements of the selected
version of each of its paths, or the graph's error. A selection over more roots has all of it, and a Pome of the lock
is marked `dev` when the normal dependencies do not need it. -/
theorem reached_least {roots : List (SourcePath × Version)} {selected : BuildList}
    (hfin : {q | Worklist.Reach (requirementsOf graph) roots q}.Finite) :
    (∃ N, ∀ fuel ≥ N,
      (∃ built, reachedM graph fuel roots selected = .ok (some built) ∧
        IsLeast {S | OwnPaths graph roots ⊆ S ∧ ClosedUnder graph selected S} {p | p ∈ built} ∧
        ∀ all n, (∀ r ∈ roots, r ∈ all) → buildList graph n all = some (.ok selected) →
          ∀ p ∈ built, p ∈ selected.map (·.1)) ∨
      ∃ e path version, reachedM graph fuel roots selected = .error e ∧ graph path version = .error e ∧
        (Reached graph roots path version ∨
          Needed graph roots selected path ∧ selected.get path = some version)) ∧
    ∀ (σ : Type) (world : World σ) (crates : ProjectCrates) (config : Config) (fuel : Nat) (root : Str)
      (project : Manifest) (old : Option Lock) (Inv : Machine σ → Prop) (m m' : Machine σ) (lock : Lock),
      Answers Inv (graphRequirements world crates config root project.replace old) graph → Inv m →
      runResolve (resolve world crates config fuel root project old) m = some (.ok lock, m') →
      ∃ list, buildList graph fuel
          (requiredVersions project.dependencies ++ requiredVersions project.devDependencies) = some (.ok list) ∧
        ∀ locked ∈ lock.pomes, locked.dev = true ↔
          ¬Needed graph (requiredVersions project.dependencies) list locked.path := by
  constructor
  · obtain ⟨N, hN⟩ := @reachedM_ends _ _ _ selected hfin
    refine ⟨N, fun fuel hfuel => (hN fuel hfuel).imp_left ?_⟩
    rintro ⟨built, hbuilt⟩
    have hleast := reachedM_isLeast hbuilt
    exact ⟨built, hbuilt, hleast, fun all n hsub hselected => hleast.2 (selection_closed hselected hsub)⟩
  · intro σ world crates config fuel root project old Inv m m' lock hcalls hm h
    exact resolve_dev hcalls hm h

/-! ## A version that development raises -/

/-- The first `a` requires `b`, the later one nothing. -/
def raisedGraph : Requirements Unit := fun path version =>
  if path = pathA ∧ version = v1_9 then .ok [(pathB, v1_9)] else .ok []

/-- The selection when development asks for the later `a`. -/
def raised : BuildList := [(pathA, v1_10), (pathB, v1_9)]

theorem raised_finite : {q | Worklist.Reach (requirementsOf raisedGraph) [(pathA, v1_9)] q}.Finite := by
  refine (List.finite_toSet [(pathA, v1_9), (pathB, v1_9)]).subset fun q hq => ?_
  refine hq.mem_of_closed (S := (· ∈ [(pathA, v1_9), (pathB, v1_9)])) (by simp) fun a bs _ hbs b hb => ?_
  simp only [requirementsOf, raisedGraph] at hbs
  split at hbs <;> cases hbs <;> simp_all

/-- `b` stays, which no selected version requires. -/
theorem not_reached_roots_least :
    ¬∀ (graph : Requirements Unit) (roots : List (SourcePath × Version)) (selected : BuildList),
      {q | Worklist.Reach (requirementsOf graph) roots q}.Finite →
      ∀ fuel built, reachedM graph fuel roots selected = .ok (some built) →
        IsLeast {S | (∀ r ∈ roots, r.1 ∈ S) ∧ ClosedUnder graph selected S} {p | p ∈ built} := by
  intro h
  obtain ⟨N, hN⟩ := @reachedM_ends _ _ _ raised raised_finite
  obtain ⟨built, hbuilt⟩ | ⟨e, path, version, -, he, -⟩ := hN N (Nat.le_refl N)
  · have hb : pathB ∈ built := by
      apply (reachedM_isLeast hbuilt).1.1
      exact ⟨v1_9, .step (.root List.mem_cons_self) rfl List.mem_cons_self⟩
    have hroots : ({pathA} : Set SourcePath) ∈
        {S | (∀ r ∈ [(pathA, v1_9)], r.1 ∈ S) ∧ ClosedUnder raisedGraph raised S} := by
      refine ⟨by simp, ?_⟩
      rintro _ rfl version reqs hversion hreqs r hr
      obtain rfl : v1_10 = version := Option.some.inj hversion
      cases (show Except.ok [] = Except.ok reqs from hreqs)
      exact absurd hr List.not_mem_nil
    have hab := (h raisedGraph _ raised raised_finite N built hbuilt).2 hroots hb
    exact absurd hab (by decide)
  · rw [raisedGraph] at he
    split at he <;> cases he

/-! ## A project that needs a Pome for its development only -/

namespace Example

/-- Every version of `example.com/a` requires nothing, and nothing else is there. -/
def hostGraph : Requirements Unit := fun p _ => if p = path then .ok [] else .error ()

/-- The manifests of the cache are those of `hostWorld`. -/
def HostCache (m : Machine Unit) : Prop := ∀ file content, m.cache.files file = some content → content = utf8 hostText

def developing : Manifest := { starting.manifest with devDependencies := [(path, ⟨version, none⟩)] }

theorem hostText_shorter : hostText.length < bareText.length := by
  have hhost : hostText = _ := String.toList_ofList
  have hbare : bareText = _ := String.toList_ofList
  rw [hhost, hbare]
  decide

theorem writingCrates_hostText : writingCrates.parse hostText = some [("pome".toList,
    .table [("name".toList, .string "example.com/a".toList), ("version".toList, .string "1.0.0".toList),
      ("emela".toList, .string "0.20.1".toList)])] := by
  have hbare : hostText ≠ bareText := ne_of_apply_ne List.length (Nat.ne_of_lt hostText_shorter)
  have hrequiring : hostText ≠ requiringText := by
    apply ne_of_apply_ne List.length
    rw [requiringText, List.length_append]
    exact Nat.ne_of_lt (Nat.lt_add_right _ hostText_shorter)
  have hallowing : hostText ≠ allowingText := by
    apply ne_of_apply_ne List.length
    rw [allowingText, requiringText, List.length_append, List.length_append, Nat.add_assoc]
    exact Nat.ne_of_lt (Nat.lt_add_right _ hostText_shorter)
  simp only [writingCrates, if_neg hrequiring, if_neg hallowing, if_neg hbare, if_true]

theorem parse_hostText :
    (Manifest.parse writingCrates.toTomlCrates hostText).toOption.map (fun m => (m.name, m.dependencies)) =
      some (path, []) := by
  rw [Manifest.parse, writingCrates_hostText]
  rfl

theorem manifest_host {p : SourcePath} {v : Version} {m m' : Machine Unit} {content : List UInt8} (hm : HostCache m)
    (h : runFetch (manifest hostWorld writingCrates.toCrates Example.config p v none) m = (.ok content, m')) :
    HostCache m' ∧ content = utf8 hostText := by
  obtain ⟨cached, m₁, hcached, h⟩ := runFetch_bind_ok.mp h
  cases hcached
  cases hfile : m.cache.files (manifestFile p v) with
  | some known =>
    rw [hfile] at h
    cases h
    exact ⟨hm, hm _ _ hfile⟩
  | none =>
    rw [hfile] at h
    obtain ⟨served, m₂, hserved, h⟩ := runFetch_bind_ok.mp h
    cases hserved
    cases h
    refine ⟨fun file content hcontent => ?_, rfl⟩
    by_cases hsame : file = manifestFile p v
    · subst hsame
      simpa using hcontent.symm
    · exact hm file content (by simpa [hsame] using hcontent)

theorem answers_host : Answers HostCache (graphRequirements hostWorld writingCrates Example.config [] [] none) hostGraph := by
  intro p v m reqs m' hm h
  obtain ⟨content, text, parsed, hcontent, htext, hresult, rfl, rfl⟩ := requirementsAt_ok (runResolve_fetched.mp h)
  obtain ⟨hm', rfl⟩ := manifest_host hm hcontent
  cases (fromUtf8_utf8 hostText).symm.trans htext
  have hparse := parse_hostText
  rw [hresult] at hparse
  obtain ⟨hname, hdeps⟩ := Prod.mk.inj (Option.some.inj hparse)
  rw [hdeps, hostGraph, if_pos hname]
  exact ⟨hm', rfl⟩

end Example

/-- What the lock has, when one is found. -/
def Example.found : Option (Except PomeError Lock × Machine Unit) → List (SourcePath × Bool)
  | some (.ok lock, _) => lock.pomes.map fun p => (p.path, p.dev)
  | _ => []

theorem Example.found_eq_cons {r : Option (Except PomeError Lock × Machine Unit)} {p : SourcePath × Bool}
    {ps : List (SourcePath × Bool)} (h : found r = p :: ps) :
    ∃ lock m', r = some (.ok lock, m') ∧ lock.pomes.map (fun p => (p.path, p.dev)) = p :: ps := by
  unfold found at h
  split at h
  · exact ⟨_, _, rfl, h⟩
  · cases h

open Example in
theorem reached_least_raised :
    (∃ N, ∀ fuel ≥ N, ∃ built, reachedM raisedGraph fuel [(pathA, v1_9)] raised = .ok (some built) ∧
      pathA ∈ built ∧ pathB ∈ built) ∧
    ∃ lock m', runResolve (resolve hostWorld writingCrates Example.config 3 [] developing none) ⟨Cache.empty, (), []⟩ =
        some (.ok lock, m') ∧
      ∃ list, ∀ locked ∈ lock.pomes, locked.dev = true ∧ ¬Needed hostGraph [] list locked.path := by
  constructor
  · obtain ⟨N, hN⟩ := (@reached_least _ _ _ raised raised_finite).1
    refine ⟨N, fun fuel hfuel => ?_⟩
    obtain ⟨built, hbuilt, hleast, -⟩ | ⟨e, path, version, -, he, -⟩ := hN fuel hfuel
    · have hroot : Reached raisedGraph [(pathA, v1_9)] pathA v1_9 := .root List.mem_cons_self
      exact ⟨built, hbuilt, hleast.1.1 ⟨v1_9, hroot⟩, hleast.1.1 ⟨v1_9, .step hroot rfl List.mem_cons_self⟩⟩
    · rw [raisedGraph] at he
      split at he <;> cases he
  · have hok : found (runResolve (resolve hostWorld writingCrates Example.config 3 [] developing none)
        ⟨Cache.empty, (), []⟩) = [(path, true)] := by decide +kernel
    obtain ⟨lock, m', hrun, hpomes⟩ := found_eq_cons hok
    have hfin : {q | Worklist.Reach (requirementsOf hostGraph) [] q}.Finite :=
      Set.finite_empty.subset fun q hq => hq.mem_of_closed (S := fun _ => False) (by simp) fun _ _ hfalse => hfalse.elim
    obtain ⟨list, -, hdev⟩ := (@reached_least _ _ _ [] hfin).2 _ _ _ _ _ _ _ _ _ _ _ _ answers_host
      (fun _ _ hnone => by cases hnone) hrun
    refine ⟨lock, m', hrun, list, fun locked hlocked => ?_⟩
    have hmarked : (locked.path, locked.dev) ∈ [(path, true)] := hpomes ▸ List.mem_map_of_mem hlocked
    have hdev' : locked.dev = true := (Prod.mk.inj (List.mem_singleton.mp hmarked)).2
    exact ⟨hdev', (hdev locked hlocked).mp hdev'⟩

end Emela.Pome
