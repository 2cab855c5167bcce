import Emela.Pome.Manifest

/-!
# The lock of a project

`resolve` of `project.rs`, with `build_list` and `reached` of `mvs.rs` over a graph that is fetched while it
is walked. The loops have fuel: a server may name new versions without end.
-/

namespace Emela.Pome

/-! ## Selection over a fetched graph -/

section
variable {m : Type → Type} [Monad m] (graph : SourcePath → Version → m (List (SourcePath × Version)))

/-- The loop of `build_list`. `none` when the fuel does not last. -/
def buildLoopM : Nat → BuildList → List (SourcePath × Str) → List (SourcePath × Version) → m (Option BuildList)
  | 0, _, _, _ => return none
  | _ + 1, selected, _, [] => return some selected
  | fuel + 1, selected, visited, (path, version) :: queue =>
      if (path, version.raw) ∈ visited then buildLoopM fuel selected visited queue
      else do
        let reqs ← graph path version
        buildLoopM fuel (select selected path version) ((path, version.raw) :: visited) (queue ++ reqs)

def buildListM (fuel : Nat) (root : List (SourcePath × Version)) : m (Option BuildList) := buildLoopM graph fuel [] [] root

/-- The requirements of a reached Pome, with what is seen and still to do. -/
def reachMore : List (SourcePath × Version) → List SourcePath → List SourcePath → List SourcePath × List SourcePath
  | [], seen, queue => (seen, queue)
  | (path, _) :: reqs, seen, queue =>
      if path ∈ seen then reachMore reqs seen queue else reachMore reqs (path :: seen) (path :: queue)

/-- The loop of `reached`, with the path that is popped next first. -/
def reachLoopM (selected : BuildList) : Nat → List SourcePath → List SourcePath → m (Option (List SourcePath))
  | 0, _, _ => return none
  | _ + 1, seen, [] => return some seen
  | fuel + 1, seen, path :: queue => match selected.get path with
    | none => reachLoopM selected fuel seen queue
    | some version => do
        let (seen, queue) := reachMore (← graph path version) seen queue
        reachLoopM selected fuel seen queue

/-- `reached`: the Pomes of `selected` that the requirements `roots` reach. -/
def reachedM (fuel : Nat) (roots : List (SourcePath × Version)) (selected : BuildList) :
    m (Option (List SourcePath)) := do
  match ← buildListM graph fuel roots with
  | none => return none
  | some list =>
      let seen := list.map (·.1)
      reachLoopM graph selected fuel seen seen.reverse

/-- A graph without state makes the loop that of `buildLoop`. -/
theorem buildLoopM_except {ε : Type} (graph : Requirements ε) (fuel : Nat) (selected : BuildList)
    (visited : List (SourcePath × Str)) (queue : List (SourcePath × Version)) :
    buildLoopM graph fuel selected visited queue = match buildLoop graph fuel selected visited queue with
      | none => .ok none
      | some (.error e) => .error e
      | some (.ok list) => .ok (some list) := by
  induction fuel generalizing selected visited queue with
  | zero => rfl
  | succ fuel ih =>
    cases queue with
    | nil => rfl
    | cons node queue =>
      obtain ⟨path, version⟩ := node
      rw [buildLoopM, buildLoop]
      split
      · exact ih _ _ _
      · cases hreqs : graph path version with
        | error e => rfl
        | ok reqs => exact ih _ _ _

end

/-! ## Errors -/

inductive PomeError where
  | manifest (m : Str)
  | lock (m : Str)
  | fetch (e : FetchError)
  /-- A wrong argument. -/
  | usage (m : Str)
  /-- Dependencies use `@external` without `[external] allow`. -/
  | external (m : Str)
  | io (m : Str)

/-- The crates of the operations on a project. -/
structure ProjectCrates extends Crates, TomlCrates, LockCrates

/-- What resolving does to the machine. `none` when the fuel does not last. -/
abbrev Resolve (σ α : Type) := ExceptT PomeError (StateT (Machine σ) Option) α

/-- `Path::join`. -/
def joinPath (dir file : Str) : Str :=
  if file.head? = some '/' then file
  else if dir.getLast? = some '/' ∨ dir.isEmpty then dir ++ file
  else dir ++ ['/'] ++ file

/-- `parse_manifest`. -/
def parseManifest (crates : TomlCrates) (text file : Str) : Except PomeError Manifest :=
  (Manifest.parse crates text).mapError fun e => .manifest (file ++ ": ".toList ++ e)

section
variable {σ : Type} (world : World σ) (crates : ProjectCrates) (config : Config) (fuel : Nat)

/-- A call of the fetcher, with its error as `PomeError::Fetch`. -/
def fetched {α : Type} (call : Fetch σ α) : Resolve σ α := fun m => match runFetch call m with
  | (.ok a, m) => some (.ok a, m)
  | (.error e, m) => some (.error (.fetch e), m)

/-- The loops' answer, with none for what does not end. -/
def ended {α : Type} : Option α → Resolve σ α
  | some a => return a
  | none => fun _ => none

def failed {α : Type} (r : Except PomeError α) : Resolve σ α := ExceptT.mk (pure r)

/-- `read`. -/
def readText (file : Str) : Resolve σ Str := fun m => match world.read file m.world with
  | (.error e, w) => some (.error (.io (file ++ ": ".toList ++ e)), { m with world := w })
  | (.ok text, w) => some (.ok text, { m with world := w })

/-- `read_dir_files` of a directory of the cache. -/
def readDirFiles (dir : Str) : Resolve σ Files := fun m => match world.read dir m.world, m.cache.dirs dir with
  | (.error e, w), _ => some (.error (.io (dir ++ ": ".toList ++ e)), { m with world := w })
  | (.ok _, w), files => some (.ok (files.getD []), { m with world := w })

/-- `Graph::requirements`: from the `[replace]` directory if replaced, else fetched and checked against the lock
if the lock has that version, else against the checksum database. -/
def graphRequirements (root : Str) (replace : List (SourcePath × Str)) (old : Option Lock) (path : SourcePath)
    (version : Version) : Resolve σ (List (SourcePath × Version)) :=
  match Assoc.entryAt path replace with
  | none =>
      let locked := (old.bind fun l => l.get path).filter fun l => l.version = version
      fetched (requirementsAt world crates.toCrates config (Manifest.parse crates.toTomlCrates) path version
        (locked.map (·.manifest)))
  | some (_, dir) => do
      let file := joinPath (joinPath root dir) MANIFEST_FILE
      let manifest ← failed (parseManifest crates.toTomlCrates (← readText world file) file)
      if manifest.name ≠ path then
        throw (.manifest (file ++ ": names `".toList ++ manifest.name.text ++ "`, but it replaces `".toList ++
          path.text ++ ['`']))
      else return manifest.dependencies.map fun (p, r) => (p, r.version)

/-- The entry of a Pome that the old lock has at this version, with its `@external` files counted again. -/
def keepLocked (locked : Locked) : Resolve σ Locked := do
  let dir ← fetched (ensure world crates.toCrates config locked)
  let files ← readDirFiles world dir
  return { locked with external := externalFiles files }

/-- The loop of `resolve` over the build list. -/
def lockPomes (manifest : Manifest) (old : Option Lock) (built : List SourcePath) : BuildList → Resolve σ (List Locked)
  | [] => return []
  | (path, version) :: list =>
      if path = manifest.name ∨ (Assoc.entryAt path manifest.replace).isSome then lockPomes manifest old built list
      else do
        let locked ← match (old.bind fun l => l.get path).filter fun l => l.version = version with
          | some locked => keepLocked world crates config locked
          | none => fetched (download world crates.toCrates config path version)
        let pomes ← lockPomes manifest old built list
        return { locked with dev := path ∉ built } :: pomes

/-- The versions required by a table of the manifest. -/
def requiredVersions (deps : List (SourcePath × Requirement)) : List (SourcePath × Version) :=
  deps.map fun (path, r) => (path, r.version)

/-- `resolve`. -/
def resolve (root : Str) (manifest : Manifest) (old : Option Lock) : Resolve σ Lock := do
  let graph := graphRequirements world crates config root manifest.replace old
  let requirements := requiredVersions manifest.dependencies
  let all := requirements ++ requiredVersions manifest.devDependencies
  let list ← ended (← buildListM graph fuel all)
  let built ← ended (← reachedM graph fuel requirements list)
  let pomes ← lockPomes world crates config manifest old built list
  return Lock.new pomes

end

end Emela.Pome
