import Emela.Lib.Ascending
import Emela.Pome.SourcePath
import Emela.Pome.Sumdb

/-!
# Minimal version selection

`mvs.rs`: every version reachable from the root's requirements is visited, including versions that end up
not selected, and each Pome gets the largest version required anywhere.
-/

namespace Emela.Pome

/-- `BTreeMap<SourcePath, Version>`: the entries in path order. -/
abbrev BuildList := List (SourcePath × Version)

/-- `BTreeMap::get`. -/
def BuildList.get (selected : BuildList) (path : SourcePath) : Option Version :=
  (Assoc.entryAt path selected).map (·.2)

/-- The requirements of one version of a Pome. -/
abbrev Requirements (ε : Type) := SourcePath → Version → Except ε (List (SourcePath × Version))

section
variable {ε : Type} (graph : Requirements ε)

/-- The `match` on the version selected so far. -/
def select (selected : BuildList) (path : SourcePath) (version : Version) : BuildList :=
  match selected.get path with
  | some current => if (compare current version).isGE then selected else Assoc.put path version selected
  | none => Assoc.put path version selected

/-- The loop over the queue, one round for each unit of fuel. -/
def buildLoop : Nat → BuildList → List (SourcePath × Str) → List (SourcePath × Version) →
    Option (Except ε BuildList)
  | 0, _, _, _ => none
  | _ + 1, selected, _, [] => some (.ok selected)
  | fuel + 1, selected, visited, (path, version) :: queue =>
      if (path, version.raw) ∈ visited then buildLoop fuel selected visited queue
      else
        let selected := select selected path version
        match graph path version with
        | .error e => some (.error e)
        | .ok reqs => buildLoop fuel selected ((path, version.raw) :: visited) (queue ++ reqs)

/-- `build_list`. `none` when the fuel does not last. -/
def buildList (fuel : Nat) (root : List (SourcePath × Version)) : Option (Except ε BuildList) :=
  buildLoop graph fuel [] [] root

end

/-! ## Getting Pomes

`fetch/mod.rs`, with `fetch/cache.rs`, `manifest.rs` and `external_files` of `lock.rs`: from the proxies and
`direct` in order, checked against the checksum database or the lock, and kept in the cache. -/

/-! ## Manifests -/

/-- An entry of `[dependencies]` or `[dev-dependencies]`. -/
structure Requirement where
  version : Version
  module : Option Str
deriving DecidableEq

structure Manifest where
  name : SourcePath
  version : Version
  emela : Str
  module : Option Str
  targets : Option (List Str)
  dependencies : List (SourcePath × Requirement)
  devDependencies : List (SourcePath × Requirement)
  replace : List (SourcePath × Str)
  external : List SourcePath
deriving DecidableEq

/-! ## Locks -/

structure Locked where
  path : SourcePath
  version : Version
  commit : Str
  hash : H1
  manifest : H1
  external : List Str
  dev : Bool
deriving DecidableEq

def LOCK_FILE : Str := "Pome.lock".toList

/-- The `.emel` files of a tree with a line that starts with `@external`, sorted, less those under `test/`. -/
def externalFiles (files : Files) : List Str :=
  let found := files.filter fun (path, content) =>
    (stripSuffix ".emel".toList path).isSome && (stripPrefix "test/".toList path).isNone &&
      (lines (fromUtf8Lossy content)).any fun l => (stripPrefix "@external".toList (trimStart l)).isSome
  (found.map (·.1)).insertionSort fun a b => (compare a b).isLE

/-! ## Configuration -/

inductive Source where
  | proxy (base : Str)
  | direct
deriving DecidableEq

structure Config where
  sources : List Source
  sumdb : Option SumdbConfig
  «private» : List Str

namespace Config

/-- Whether a path is under one of the private prefixes, compared by elements. -/
def isPrivate (config : Config) (path : SourcePath) : Bool :=
  config.private.any fun p =>
    path.text == p || (stripPrefix p path.text).any fun rest => rest.head? == some '/'

def sourcesFor (config : Config) (path : SourcePath) : List Source :=
  if config.isPrivate path then config.sources.filter (· == .direct) else config.sources

def sumdbFor (config : Config) (path : SourcePath) : Option SumdbConfig :=
  if config.isPrivate path then none else config.sumdb

end Config

/-- The crates of the fetcher: those for hashes, `tar` and `flate2` for archives, `serde_json` for the version
and commit of an `.info`, and `toml` for manifests. -/
structure Crates extends Crypto where
  readTarGz : List UInt8 → Except Str Files
  info : List UInt8 → Except Str (Str × Str)

section
variable {σ : Type} (world : World σ) (crates : Crates) (config : Config)
  (parseManifest : Str → Except Str Manifest)

/-! ## Cache -/

/-- `Cache::dir`. The file system tells names apart by the case of their letters: a version keeps its case, and only a path is
escaped. -/
def cacheDir (path : SourcePath) (version : Version) : Str := path.escaped ++ ['@'] ++ version.raw

/-- `Cache::manifest_file`. -/
def manifestFile (path : SourcePath) (version : Version) : Str :=
  "download/".toList ++ path.escaped ++ "/@v/".toList ++ version.raw ++ ".toml".toList

/-- `dir.exists()`, with the files of the directory. -/
def dirFiles (dir : Str) : Fetch σ (Option Files) := fun m => (.ok (m.cache.dirs dir), m)

/-- A name that leads outside of the directory of the version. -/
def leadsOutside (name : Str) : Bool :=
  name.head? == some '/' || (name.splitOn '/').any fun e => e.isEmpty || e == ['.'] || e == ['.', '.']

/-- `Cache::put_dir`: does nothing if the directory is already there. -/
def putDir (path : SourcePath) (version : Version) (files : Files) : Fetch σ Str := fun m =>
  let dir := cacheDir path version
  match m.cache.dirs dir with
  | some _ => (.ok dir, m)
  | none => match files.find? fun f => leadsOutside f.1 with
    | some (name, _) =>
        (.error (.cache ("refusing to write `".toList ++ name ++ "` outside the version's directory".toList)), m)
    | none => match world.store dir m.world with
      | (.error e, w) => (.error (.cache e), { m with world := w })
      | (.ok (), w) =>
          (.ok dir, { m with
            cache := { m.cache with dirs := Function.update m.cache.dirs dir (some files) }, world := w })

/-! ## Sources -/

/-- `first`: the sources in order. Only "not found" moves on to the next one. -/
def first {R : Type} (path : SourcePath) (f : Source → Fetch σ R) : Fetch σ R :=
  let sources := config.sourcesFor path
  if sources.isEmpty then throw (.noSource (path.text ++ ": nowhere to get it from (EMELA_POMEPROXY)".toList))
  else go [] sources
where
  go (last : Str) : List Source → Fetch σ R
    | [] => throw (.notFound last)
    | source :: rest => fun m => match f source m with
      | (.error (.notFound message), m) => go message rest m
      | answer => answer

/-- `proxy_get`. -/
def proxyGet (base rest : Str) : Fetch σ (List UInt8) := do
  let url := base ++ ['/'] ++ rest
  match ← transportGet world url with
  | .error m => throw (.network m)
  | .ok res =>
      if res.status = 200 then return res.body
      else if res.status = 404 ∨ res.status = 410 then throw (.notFound res.text)
      else throw (.network ("GET ".toList ++ url ++ ": ".toList ++ decimal res.status ++ [' '] ++ res.text))

/-- `Direct::fetch`. -/
def directFetch (path : SourcePath) (version : Version) : Fetch σ (Str × Files) := fun m =>
  let (answer, w) := world.fetch path version m.world
  (answer, { m with world := w })

/-- `Direct::versions`. -/
def directVersions (path : SourcePath) : Fetch σ (List Version) := fun m =>
  let (answer, w) := world.versions path m.world
  (answer, { m with world := w })

/-- `path@version`. -/
def pomeAt (path : SourcePath) (version : Version) : Str := path.text ++ ['@'] ++ version.raw

/-- 40 hexadecimal digits. -/
def isCommit (s : Str) : Bool := s.length == 40 && s.all fun c => c.isDigit || ('a' ≤ c && c ≤ 'f')

/-- `files`: the commit and files of a version, from the first source that has it. -/
def filesOf (path : SourcePath) (version : Version) : Fetch σ (Str × Files) :=
  first config path fun
    | .proxy base => do
        let info ← proxyGet world base (path.escaped ++ "/@v/".toList ++ version.raw ++ ".info".toList)
        match crates.info info with
        | .error e => throw (.network (base ++ ": bad .info of ".toList ++ pomeAt path version ++ ": ".toList ++ e))
        | .ok (_, commit) =>
            if ¬isCommit commit then
              throw (.network (base ++ ": bad commit in .info of ".toList ++ pomeAt path version))
            else do
              let archive ← proxyGet world base (path.escaped ++ "/@v/".toList ++ version.raw ++ ".tar.gz".toList)
              match crates.readTarGz archive with
              | .error e => throw (.verify (pomeAt path version ++ " from ".toList ++ base ++ ": ".toList ++ e))
              | .ok files => return (commit, files)
    | .direct => directFetch world path version

/-- `Fetcher::latest`. -/
def latest (path : SourcePath) : Fetch σ Version :=
  first config path fun
    | .proxy base => do
        let body ← proxyGet world base (path.escaped ++ "/@latest".toList)
        match crates.info body with
        | .error e => throw (.network (base ++ ": bad @latest of ".toList ++ path.text ++ ": ".toList ++ e))
        | .ok (version, _) => match Version.parse version with
          | .ok version => return version
          | .error e =>
              throw (.network (base ++ ": invalid version `".toList ++ e.input ++
                "`: expected a semver tag such as `v1.2.3`".toList))
    | .direct => do
        match (latestCandidates (← directVersions world path)).head? with
        | some version => return version
        | none => throw (.notFound (path.text ++ ": no version tags".toList))
where
  /-- `latest_candidates`: releases from the largest, then prereleases from the largest. -/
  latestCandidates (versions : List Version) : List Version :=
    let desc := versions.insertionSort fun a b => (compare b a).isLE
    desc.filter (·.prerelease.isEmpty) ++ desc.filter fun v => !v.prerelease.isEmpty

/-! ## Checks -/

/-- `manifest_of`. -/
def manifestOf (path : SourcePath) (version : Version) (files : Files) : Except FetchError (List UInt8) :=
  match files.find? fun f => f.1 == MANIFEST_FILE with
  | some (_, content) => .ok content
  | none => .error (.notFound (pomeAt path version ++ ": no ".toList ++ MANIFEST_FILE))

/-- `hashes`: of the tree and of the manifest. -/
def hashesOf (path : SourcePath) (version : Version) (files : Files) : Except FetchError (H1 × H1) := do
  let tree ← (treeHash crates.toCrypto files).mapError fun e => .verify (pomeAt path version ++ ": ".toList ++ e.toText)
  return (tree, manifestHash crates.toCrypto (← manifestOf path version files))

def mismatch (path : SourcePath) (version : Version) (what : Str) (got want : H1) (against : Str) : FetchError :=
  .verify (pomeAt path version ++ ": the ".toList ++ what ++ " hash ".toList ++ got.text ++ " differs from ".toList ++
    want.text ++ " in ".toList ++ against ++ "; the download may have been tampered with".toList)

def THE_DATABASE : Str := "the checksum database".toList

/-- `Fetcher::lookup`. -/
def lookupRecord (path : SourcePath) (version : Version) : Fetch σ (Option Record) :=
  match config.sumdbFor path with
  | some sumdb => do
      let (record, _) ← sumdbLookup world crates.toCrypto sumdb path version
      return some record
  | none => return none

/-- What the manifest's hash is checked against: the lock, or the database for one that was not cached. -/
def checkManifest (path : SourcePath) (version : Version) (got : H1) (locked : Option H1) (cached : Bool) :
    Fetch σ Unit :=
  match locked with
  | some want => require (got = want) (mismatch path version MANIFEST_FILE got want LOCK_FILE)
  | none =>
      if cached then pure ()
      else do
        match ← lookupRecord world crates config path version with
        | some record =>
            require (got = record.manifest) (mismatch path version MANIFEST_FILE got record.manifest THE_DATABASE)
        | none => return ()

/-- The checks of a downloaded version against its record. -/
def checkRecord (path : SourcePath) (version : Version) (tree manifest : H1) : Option Record → Fetch σ Unit
  | some record => do
      require (tree = record.tree) (mismatch path version "content".toList tree record.tree THE_DATABASE)
      require (manifest = record.manifest)
        (mismatch path version MANIFEST_FILE manifest record.manifest THE_DATABASE)
  | none => return ()

/-! ## The fetcher -/

/-- The content of `Pome.toml` from the first source that has it. -/
def manifestFromSources (path : SourcePath) (version : Version) : Fetch σ (List UInt8) :=
  first config path fun
    | .proxy base => proxyGet world base (path.escaped ++ "/@v/".toList ++ version.raw ++ ".toml".toList)
    | .direct => do
        let (_, files) ← directFetch world path version
        ExceptT.mk (pure (manifestOf path version files))

/-- `Fetcher::manifest`: checked against `locked` when given, else against the checksum database. -/
def manifest (path : SourcePath) (version : Version) (locked : Option H1) : Fetch σ (List UInt8) := do
  let file := manifestFile path version
  match ← readFile world file with
  | some content => do
      checkManifest world crates config path version (manifestHash crates.toCrypto content) locked true
      return content
  | none => do
      let content ← manifestFromSources world config path version
      checkManifest world crates config path version (manifestHash crates.toCrypto content) locked false
      putFile world file content
      return content

/-- `Fetcher::requirements_of`. -/
def requirementsAt (path : SourcePath) (version : Version) (locked : Option H1) :
    Fetch σ (List (SourcePath × Version)) := do
  let content ← manifest world crates config path version locked
  match fromUtf8 content with
  | none => throw (.manifest (pomeAt path version ++ ": Pome.toml is not UTF-8".toList))
  | some text => match parseManifest text with
    | .error e => throw (.manifest (pomeAt path version ++ ": ".toList ++ e))
    | .ok m =>
        if m.name ≠ path then
          throw (.manifest (pomeAt path version ++ ": Pome.toml names `".toList ++ m.name.text ++ ['`']))
        else return m.dependencies.map fun (p, r) => (p, r.version)

/-- `Fetcher::download`: gets a version to write it into the lock, checking it against the checksum database. -/
def download (path : SourcePath) (version : Version) : Fetch σ Locked := do
  let (commit, files) ← filesOf world crates config path version
  let (tree, manifest) ← ExceptT.mk (pure (hashesOf crates path version files))
  let record ← lookupRecord world crates config path version
  checkRecord path version tree manifest record
  let _ ← putDir world path version files
  let content ← ExceptT.mk (pure (manifestOf path version files))
  putFile world (manifestFile path version) content
  return { path, version, commit, hash := tree, manifest, external := externalFiles files, dev := false }

/-- What `ensure` does for a version that is not in the cache: it is fetched and checked against the lock. -/
def fetchLocked (locked : Locked) : Fetch σ Str := do
  let (_, files) ← filesOf world crates config locked.path locked.version
  let (tree, _) ← ExceptT.mk (pure (hashesOf crates locked.path locked.version files))
  require (tree = locked.hash)
    (mismatch locked.path locked.version "content".toList tree locked.hash LOCK_FILE)
  putDir world locked.path locked.version files

/-- `Fetcher::ensure`: the directory of a locked version. -/
def ensure (locked : Locked) : Fetch σ Str := do
  let dir := cacheDir locked.path locked.version
  match ← dirFiles dir with
  | some _ => return dir
  | none => fetchLocked world crates config locked

end

end Emela.Pome
