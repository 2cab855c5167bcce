import Emela.Pome.Text
import Emela.Pome.Fetch

/-!
# `Pome.toml`

`manifest.rs`: the file as written, and what `Manifest::parse` makes of it.
-/

namespace Emela.Pome

/-! ## The file as written -/

structure PomeSection where
  name : SourcePath
  version : Str
  emela : Str
  module : Option Str
  targets : Option (List Str)

/-- `File`. A `BTreeMap` has its entries in path order. -/
structure ManifestFile where
  pome : PomeSection
  dependencies : List (SourcePath × Requirement)
  devDependencies : List (SourcePath × Requirement)
  replace : List (SourcePath × Str)
  external : List SourcePath

/-- An item that is a source path. -/
def Toml.sourcePath (item : Toml) : Option SourcePath := do (SourcePath.parse (← item.text)).toOption

def Toml.version (item : Toml) : Option Version := do (Version.parse (← item.text)).toOption

/-- A field with `#[serde(default)]`. -/
def Toml.readDefault {α : Type} (default : α) (read : Toml → Option α) : Option Toml → Option α
  | some item => read item
  | none => some default

/-- A `BTreeMap` with source paths as keys. -/
def Toml.readMap {α : Type} (read : Toml → Option α) (item : Toml) : Option (List (SourcePath × α)) := do
  let pairs ← (← item.entries).mapM fun (key, item) => do return ((← (SourcePath.parse key).toOption), (← read item))
  return pairs.foldl (fun map (path, value) => Assoc.put path value map) []

def Toml.readList {α : Type} (read : Toml → Option α) (item : Toml) : Option (List α) := do (← item.items).mapM read

def PomeSection.read (item : Toml) : Option PomeSection := do
  let name ← (← item.field 0 "name".toList).sourcePath
  let version ← (← item.field 1 "version".toList).text
  let emela ← (← item.field 2 "emela".toList).text
  let module ← (← item.optional 3 "module".toList).mapM Toml.text
  let targets ← (← item.optional 4 "targets".toList).mapM (Toml.readList Toml.text)
  return { name, version, emela, module, targets }

/-- `RequirementEntry`: a version, or a table with it. In the order of its fields it has both. -/
def Requirement.read (item : Toml) : Option Requirement :=
  match item with
  | .string s => do return { version := ← (Version.parse s).toOption, module := none }
  | .array [version, module] => do return { version := ← version.version, module := some (← module.text) }
  | _ => do
      let entries ← item.entries
      let version ← (← TomlTable.get "version".toList entries).version
      return { version, module := ← (TomlTable.get "module".toList entries).mapM Toml.text }

/-- `ReplaceEntry`. -/
def readReplace (item : Toml) : Option Str := do (← item.field 0 "path".toList).text

/-- `ExternalSection`. -/
def readExternal (item : Toml) : Option (List SourcePath) :=
  if item.isStruct then Toml.readDefault [] (Toml.readList Toml.sourcePath) (item.field 0 "allow".toList) else none

/-- `toml::from_str` at `File`. -/
def ManifestFile.read (root : TomlTable) : Option ManifestFile := do
  let pome ← PomeSection.read (← root.get "pome".toList)
  let dependencies ← Toml.readDefault [] (Toml.readMap Requirement.read) (root.get "dependencies".toList)
  let devDependencies ← Toml.readDefault [] (Toml.readMap Requirement.read) (root.get "dev-dependencies".toList)
  let replace ← Toml.readDefault [] (Toml.readMap readReplace) (root.get "replace".toList)
  let external ← Toml.readDefault [] readExternal (root.get "external".toList)
  return { pome, dependencies, devDependencies, replace, external }

/-! ## The manifest -/

abbrev TARGETS : List Str := ["js".toList, "wasm".toList, "c".toList, "c-embedded".toList]

/-- `requirements`: each requirement has the major of its path. -/
def requirements (entries : List (SourcePath × Requirement)) : Except Str (List (SourcePath × Requirement)) :=
  match entries.find? fun (path, r) => !path.isVersionOf r.version with
  | some (path, r) =>
      .error (['`'] ++ path.text ++ "` = \"".toList ++ r.version.raw ++
        "\": the major does not match the path (v2 and above end in `/vN`)".toList)
  | none => .ok entries

/-- The checks of `Manifest::parse` after the file is read. -/
def ManifestFile.check (file : ManifestFile) : Except Str Manifest :=
  match Version.parse ('v' :: file.pome.version) with
  | .error _ =>
      .error ("`[pome].version` `".toList ++ file.pome.version ++ "` is not a semver such as `0.3.2`".toList)
  | .ok version =>
      if ¬file.pome.name.isVersionOf version then
        .error ("`[pome].version` ".toList ++ file.pome.version ++ " does not match the major of `".toList ++
          file.pome.name.text ++ "` (v2 and above end in `/vN`)".toList)
      else do
        let dependencies ← requirements file.dependencies
        let devDependencies ← requirements file.devDependencies
        match devDependencies.find? fun (path, _) => (Assoc.entryAt path dependencies).isSome with
        | some (both, _) =>
            throw (['`'] ++ both.text ++ "` is in both [dependencies] and [dev-dependencies]".toList)
        | none => match (file.pome.targets.getD []).find? (· ∉ TARGETS) with
          | some unknown =>
              throw ("`[pome].targets`: unknown target `".toList ++ unknown ++ "` (expected one of ".toList ++
                ", ".toList.intercalate TARGETS ++ [')'])
          | none => return {
              name := file.pome.name
              version
              emela := file.pome.emela
              module := file.pome.module
              targets := file.pome.targets
              dependencies
              devDependencies
              replace := file.replace
              external := file.external }

/-- `Manifest::parse`. -/
def Manifest.parse (crates : TomlCrates) (text : Str) : Except Str Manifest :=
  match (crates.parse text).bind ManifestFile.read with
  | none => .error (crates.fromStrError text)
  | some file => file.check

/-! ## `Pome.lock`

`lock.rs`: the Pomes of the build list with their versions, commits and hashes. -/

abbrev FORMAT_VERSION : Nat := 1

/-- Sorted by source path. -/
structure Lock where
  pomes : List Locked
deriving DecidableEq

/-- `File`, as `toml` reads it. -/
structure LockFile where
  version : Nat
  pomes : List Locked

/-- The crate `toml` at `File`: `from_str` and `to_string`. -/
structure LockCrates where
  lockFromStr : Str → Except Str LockFile
  lockToString : LockFile → Str

namespace Lock

/-- `Lock::new`. -/
def new (pomes : List Locked) : Lock := ⟨pomes.insertionSort fun a b => (compare a.path b.path).isLE⟩

/-- `Lock::get`. -/
def get (lock : Lock) (path : SourcePath) : Option Locked := lock.pomes.find? fun p => p.path == path

/-- The first of two neighbours with the same path. -/
def twice : List Locked → Option Locked
  | a :: b :: rest => if a.path = b.path then some a else twice (b :: rest)
  | _ => none

/-- `Lock::parse`. -/
def parse (crates : LockCrates) (text : Str) : Except Str Lock := do
  let file ← crates.lockFromStr text
  if file.version ≠ FORMAT_VERSION then throw ("unknown format version ".toList ++ decimal file.version)
  else match file.pomes.find? fun p => !isCommit p.commit with
    | some p => throw (['`'] ++ p.path.text ++ "`: commit must be 40 hex digits".toList)
    | none =>
        let lock := new file.pomes
        match twice lock.pomes with
        | some p => throw (['`'] ++ p.path.text ++ "` appears twice".toList)
        | none => return lock

/-- `Lock::to_toml`. -/
def toToml (crates : LockCrates) (lock : Lock) : Str :=
  "# Written by `emela pome`. Do not edit.\n".toList ++
    crates.lockToString { version := FORMAT_VERSION, pomes := lock.pomes }

end Lock

end Emela.Pome
