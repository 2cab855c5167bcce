import Emela.Pome.Edit
import Emela.Pome.Resolve

/-!
# Operations on a project

`project.rs`: `install`, `add`, `remove` and `update` compute the new `Pome.toml` and the new lock first and
write them when everything resolved.
-/

namespace Emela.Pome

structure Project where
  root : Str
  text : Str
  manifest : Manifest
  lock : Option Lock
deriving DecidableEq

structure Change where
  path : SourcePath
  «from» : Option Version
  «to» : Option Version
  dev : Bool
deriving DecidableEq

/-- The files with `@external` a Pome gained or lost. -/
structure ExternalChange where
  path : SourcePath
  added : List Str
  removed : List Str
deriving DecidableEq

structure Outcome where
  requirements : List Change
  buildList : List Change
  allowed : List SourcePath
  external : List ExternalChange
deriving DecidableEq

namespace Project

def manifestFile (project : Project) : Str := joinPath project.root MANIFEST_FILE

def lockFile (project : Project) : Str := joinPath project.root LOCK_FILE

/-- `Project::open`, of the texts of its files. -/
def «open» (crates : ProjectCrates) (root text : Str) (lock : Option Str) : Except PomeError Project := do
  let manifest ← parseManifest crates.toTomlCrates text (joinPath root MANIFEST_FILE)
  let lock ← lock.mapM fun text => (Lock.parse crates.toLockCrates text).mapError fun e =>
    .lock ("invalid Pome.lock: ".toList ++ e)
  return { root, text, manifest, lock }

end Project

/-! ## What changed -/

/-- The locked Pomes by path. -/
def lockedByPath (lock : Option Lock) : List (SourcePath × Locked) :=
  (lock.elim [] (·.pomes)).foldl (fun map p => Assoc.put p.path p map) []

/-- `diff`. -/
def diff (old : Option Lock) (new : Lock) : List Change :=
  let before := lockedByPath old
  let after := lockedByPath (some new)
  (Assoc.merge before after).filterMap fun (path, _) =>
    let was := (Assoc.entryAt path before).map (·.2)
    let now := (Assoc.entryAt path after).map (·.2)
    let shown := Option.map fun (l : Locked) => (l.version, l.dev)
    if shown was = shown now then none
    else some { path, «from» := was.map (·.version), «to» := now.map (·.version), dev := (now.or was).any (·.dev) }

/-- `external_changes`. -/
def externalChanges (old : Option Lock) (new : Lock) : List ExternalChange :=
  new.pomes.filterMap fun p =>
    let before := ((old.bind fun l => l.get p.path).map (·.external)).getD []
    let added := p.external.filter (· ∉ before)
    let removed := before.filter (· ∉ p.external)
    if added.isEmpty && removed.isEmpty then none else some { path := p.path, added, removed }

/-- `external_error`: the Pomes with their files, and how to allow them. -/
def externalError (pomes : List Locked) : PomeError :=
  let used := pomes.flatMap fun p =>
    p.path.text ++ [' '] ++ p.version.raw ++ " uses @external:\n".toList ++
      p.external.flatMap fun f => "  ".toList ++ f ++ ['\n']
  let paths := pomes.map (·.path.text)
  let help := "  = help: it runs host code; allow it with `emela pome add --allow-external ".toList ++ paths.headD [] ++
    "`, or add it to `[external] allow` in Pome.toml".toList
  let also := if paths.length > 1 then " (also ".toList ++ ", ".toList.intercalate paths.tail ++ [')'] else []
  .external (used ++ help ++ also)

/-- `parse_src`. -/
def parseSrc (src : Str) : Except PomeError (SourcePath × Option Version) := do
  let (path, version) := match rsplitOnce '@' src with
    | some (path, version) => (path, some version)
    | none => (src, none)
  let path ← (SourcePath.fromInput path).mapError fun e => .usage e.toText
  match version with
  | none => return (path, none)
  | some version =>
      if version = "latest".toList then return (path, none)
      else match Version.parse version with
        | .ok version => return (path, some version)
        | .error e =>
            throw (.usage ("invalid version `".toList ++ e.input ++
              "`: expected a semver tag such as `v1.2.3`".toList))

/-- `major_mismatch`. -/
def majorMismatch (path : SourcePath) (version : Version) : Str :=
  match path.major with
  | some n =>
      version.raw ++ " is not a version of `".toList ++ path.text ++ "`: its major must be ".toList ++ decimal n
  | none =>
      version.raw ++ " is not a version of `".toList ++ path.text ++ "`: v2 and above are `".toList ++ path.text ++
        "/v".toList ++ decimal version.major ++ ['`']

/-! ## State -/

/-- The machine, the files of the project's directory by path, and the project in memory. -/
structure PomeState (σ : Type) where
  machine : Machine σ
  disk : Str → Option Str
  project : Project

/-- What an operation does, also when it fails. `none` when the fuel does not last. -/
abbrev Op (σ α : Type) := ExceptT PomeError (StateT (PomeState σ) Option) α

def runOp {σ α : Type} (op : Op σ α) (s : PomeState σ) : Option (Except PomeError α × PomeState σ) := op s

section
variable {σ : Type}

/-- `self`. -/
def theProject : Op σ Project := fun s => some (.ok s.project, s)

def setProject (project : Project) : Op σ Unit := fun s => some (.ok (), { s with project })

/-- What only needs the machine. -/
def onMachine {α : Type} (x : Resolve σ α) : Op σ α := fun s =>
  (x s.machine).map fun (r, machine) => (r, { s with machine })

/-- `?` on a result. -/
def checked {α : Type} (r : Except PomeError α) : Op σ α := ExceptT.mk (pure r)

/-- `?` on the result of an edit. -/
def edited {α : Type} (r : Except Str α) : Op σ α := checked (r.mapError .manifest)

variable (world : World σ) (crates : ProjectCrates) (config : Config) (fuel : Nat)

/-- `write`: next to the file, and renamed, so the file has the new text or stays as it was. -/
def write (file text : Str) : Op σ Unit := fun s => match world.replace file s.machine.world with
  | (.error e, w) =>
      some (.error (.io (file ++ ": ".toList ++ e)), { s with machine := { s.machine with world := w } })
  | (.ok (), w) =>
      some (.ok (), { s with
        machine := { s.machine with world := w }
        disk := Function.update s.disk file (some text) })

def writeIf (needed : Bool) (file text : Str) : Op σ Unit := if needed then write world file text else pure ()

/-! ## `apply` -/

/-- What `apply` computes before it writes. -/
structure Plan where
  text : Str
  manifest : Manifest
  lock : Lock
  buildList : List Change
  allowed : List SourcePath
  external : List ExternalChange

/-- The Pomes of the lock that use `@external` without being allowed. -/
def unallowed (manifest : Manifest) (lock : Lock) : List Locked :=
  lock.pomes.filter fun p => !p.external.isEmpty && p.path ∉ manifest.external

/-- Whether the operation may allow the Pome: the one that is named, or one that is new in the lock. -/
def mayAllow (allow : Option SourcePath) (old : Option Lock) (p : Locked) : Bool :=
  allow.any fun a => p.path == a || old.all fun old => (old.get p.path).isNone

/-- The first part of `apply`. -/
def plan (text : Str) (allow : Option SourcePath) : Op σ Plan := do
  let project ← theProject
  let manifest ← checked (parseManifest crates.toTomlCrates text project.manifestFile)
  let lock ← onMachine (resolve world crates config fuel project.root manifest project.lock)
  let buildList := diff project.lock lock
  let (allowed, refused) := (unallowed manifest lock).partition (mayAllow allow project.lock)
  if refused ≠ [] then throw (externalError refused)
  else
    let allowed := allowed.map (·.path)
    let external := externalChanges project.lock lock
    if allowed = [] then return { text, manifest, lock, buildList, allowed, external }
    else do
      let text ← edited (Edit.allowExternal crates.toTomlCrates text allowed)
      let manifest ← checked (parseManifest crates.toTomlCrates text project.manifestFile)
      return { text, manifest, lock, buildList, allowed, external }

/-- The second part of `apply`. -/
def commit (plan : Plan) : Op σ Unit := do
  let project ← theProject
  writeIf world (plan.text ≠ project.text) project.manifestFile plan.text
  writeIf world (project.lock ≠ some plan.lock) project.lockFile (plan.lock.toToml crates.toLockCrates)
  setProject { project with text := plan.text, manifest := plan.manifest, lock := some plan.lock }

/-- `Project::apply`. -/
def apply (text : Str) (requirements : List Change) (allow : Option SourcePath) : Op σ Outcome := do
  let plan ← plan world crates config fuel text allow
  commit world crates plan
  return { requirements, buildList := plan.buildList, allowed := plan.allowed, external := plan.external }

/-! ## The operations -/

/-- What an operation gives to `apply`. -/
structure Request where
  text : Str
  requirements : List Change
  allow : Option SourcePath

/-- `Project::install`. -/
def install : Op σ Request := do
  let project ← theProject
  return { text := project.text, requirements := [], allow := none }

/-- The version `add` asks for, else the latest. -/
def addedVersion (path : SourcePath) : Option Version → Op σ Version
  | some version => return version
  | none => onMachine (fetched (latest world crates.toCrates config path))

/-- `moved` of `add`: an entry of `[dev-dependencies]` moves to `[dependencies]`. -/
def movedText (text : Str) (path : SourcePath) (dev : Bool) : Op σ (Option Str) :=
  if dev then pure none
  else edited (Edit.moveDependency crates.toTomlCrates text path Edit.DEV_DEPENDENCIES Edit.DEPENDENCIES)

/-- `Project::add`. -/
def add (src : Str) (allowExternal dev : Bool) : Op σ Request := do
  let project ← theProject
  let (path, version) ← checked (parseSrc src)
  if path = project.manifest.name then throw (.usage (['`'] ++ path.text ++ "` is this Pome itself".toList))
  else do
    let version ← addedVersion world crates config path version
    if dev ∧ (Assoc.entryAt path project.manifest.dependencies).isSome then
      throw (.usage (['`'] ++ path.text ++ "` is in [dependencies]; the tests can use it as it is".toList))
    else if ¬path.isVersionOf version then throw (.usage (majorMismatch path version))
    else do
      let moved ← movedText crates project.text path dev
      let table := if dev then Edit.DEV_DEPENDENCIES else Edit.DEPENDENCIES
      let text ← edited (Edit.setDependency crates.toTomlCrates (moved.getD project.text) table path version)
      let required := (Assoc.entryAt path project.manifest.dependencies).or
        (Assoc.entryAt path project.manifest.devDependencies)
      let change : Change := { path, «from» := required.map (·.2.version), «to» := some version, dev }
      return {
        text
        requirements := if change.from = change.to ∧ moved.isNone then [] else [change]
        allow := if allowExternal then some path else none }

/-- The error of a path that is not depended on. -/
def notRequired (path : SourcePath) : PomeError :=
  .usage (['`'] ++ path.text ++ "` is not in [dependencies] or [dev-dependencies]".toList)

/-- `Project::remove`. -/
def remove (src : Str) : Op σ Request := do
  let project ← theProject
  let path ← checked ((SourcePath.fromInput src).mapError fun e => .usage e.toText)
  let dev := (Assoc.entryAt path project.manifest.dependencies).isNone
  let table := if dev then Edit.DEV_DEPENDENCIES else Edit.DEPENDENCIES
  let requirements := if dev then project.manifest.devDependencies else project.manifest.dependencies
  let «from» := (Assoc.entryAt path requirements).map (·.2.version)
  match ← edited (Edit.removeDependency crates.toTomlCrates project.text table path) with
  | none => throw (notRequired path)
  | some text => return { text, requirements := [{ path, «from», «to» := none, dev }], allow := none }

/-- The loop of `update`. -/
def raise : List (SourcePath × Version × Bool) → Str → List Change → Op σ Request
  | [], text, changes => return { text, requirements := changes, allow := none }
  | (path, current, dev) :: targets, text, changes => do
      let latest ← onMachine (fetched (latest world crates.toCrates config path))
      if (compare latest current).isGT then do
        let table := if dev then Edit.DEV_DEPENDENCIES else Edit.DEPENDENCIES
        let text ← edited (Edit.setDependency crates.toTomlCrates text table path latest)
        raise targets text (changes ++ [{ path, «from» := some current, «to» := some latest, dev }])
      else raise targets text changes

/-- `Project::update`. -/
def update (src : Option Str) : Op σ Request := do
  let project ← theProject
  let all := project.manifest.dependencies.map (fun (path, r) => (path, r.version, false)) ++
    project.manifest.devDependencies.map fun (path, r) => (path, r.version, true)
  match src with
  | none => raise world crates config all project.text []
  | some src => do
      let path ← checked ((SourcePath.fromInput src).mapError fun e => .usage e.toText)
      let found := all.filter fun target => target.1 = path
      if found = [] then throw (notRequired path)
      else raise world crates config found project.text []

inductive Operation where
  | install
  | add (src : Str) (allowExternal dev : Bool)
  | remove (src : Str)
  | update (src : Option Str)

/-- What an operation asks of `apply`. -/
def Operation.request : Operation → Op σ Request
  | .install => Pome.install
  | .add src allowExternal dev => Pome.add world crates config src allowExternal dev
  | .remove src => Pome.remove crates src
  | .update src => Pome.update world crates config src

/-- An operation: its request, applied. -/
def Operation.perform (operation : Operation) : Op σ Outcome := do
  let request ← operation.request world crates config
  apply world crates config fuel request.text request.requirements request.allow

end

end Emela.Pome
