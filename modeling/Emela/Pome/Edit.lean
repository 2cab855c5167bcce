import Emela.Pome.Text
import Emela.Pome.SourcePath

/-!
# Rewriting `Pome.toml`

`edit.rs`: entries of `[dependencies]` and `[dev-dependencies]` are set, taken away and moved in place, and
paths are added to `[external] allow`.
-/

namespace Emela.Pome.Edit

def DEPENDENCIES : Str := "dependencies".toList
def DEV_DEPENDENCIES : Str := "dev-dependencies".toList

variable (crates : TomlCrates)

/-- `parse`. -/
def parse (text : Str) : Except Str TomlTable :=
  match crates.parse text with
  | some doc => .ok doc
  | none => .error (crates.editError text)

/-- `dependencies`: the entries of the table, which is made if there is none. -/
def dependencies (doc : TomlTable) (table : Str) : Except Str TomlTable :=
  match doc.get table with
  | none => .ok []
  | some (.table entries) => .ok entries
  | some _ => .error (['`'] ++ table ++ "` must be a table".toList)

/-- The entry with the version, in the form of the one before. -/
def withVersion (version : Version) : Option Toml → Toml
  | some (.inline entries) => .inline (TomlTable.insert "version".toList (.string version.raw) entries)
  | some (.table entries) => .table (TomlTable.insert "version".toList (.string version.raw) entries)
  | _ => .string version.raw

/-- `set_dependency`. -/
def setDependency (text table : Str) (path : SourcePath) (version : Version) : Except Str Str := do
  let doc ← parse crates text
  let deps ← dependencies doc table
  let deps := deps.insert path.text (withVersion version (deps.get path.text))
  return crates.print text (doc.insert table (.table deps))

/-- `drop_if_empty`: `[dev-dependencies]` goes away with its last entry. -/
def dropIfEmpty (doc : TomlTable) (table : Str) : TomlTable :=
  if table = DEV_DEPENDENCIES then
    match doc.get table with
    | some (.table []) => doc.remove table
    | _ => doc
  else doc

/-- `remove_dependency`. `none` if there was no entry. -/
def removeDependency (text table : Str) (path : SourcePath) : Except Str (Option Str) := do
  let doc ← parse crates text
  let deps ← dependencies doc table
  let doc := dropIfEmpty (doc.insert table (.table (deps.remove path.text))) table
  return if (deps.get path.text).isSome then some (crates.print text doc) else none

/-- `move_dependency`: the entry as written. `none` if there was none. -/
def moveDependency (text : Str) (path : SourcePath) («from» «to» : Str) : Except Str (Option Str) := do
  let doc ← parse crates text
  let deps ← dependencies doc «from»
  match deps.get path.text with
  | none => return none
  | some item => do
      let doc := doc.insert «from» (.table (deps.remove path.text))
      let target ← dependencies doc «to»
      let doc := doc.insert «to» (.table (target.insert path.text item))
      return some (crates.print text (dropIfEmpty doc «from»))

/-- The array with the paths that it has not yet at its end. -/
def pushPaths (array : List Toml) (paths : List SourcePath) : List Toml :=
  paths.foldl (fun array path =>
    if array.any fun v => v.text == some path.text then array else array ++ [.string path.text]) array

/-- The array at `allow`, which is made if there is none. -/
def allowOf (entries : TomlTable) : Except Str (List Toml) :=
  match TomlTable.get "allow".toList entries with
  | none => .ok []
  | some (.array items) => .ok items
  | some _ => .error "`external.allow` must be an array".toList

/-- `allow_external`. -/
def allowExternal (text : Str) (paths : List SourcePath) : Except Str Str := do
  let doc ← parse crates text
  let external := (doc.get "external".toList).getD (.table [])
  match external with
  | .table entries => do
      let allow := pushPaths (← allowOf entries) paths
      return crates.print text (doc.insert "external".toList (.table (TomlTable.insert "allow".toList (.array allow) entries)))
  | .inline entries => do
      let allow := pushPaths (← allowOf entries) paths
      return crates.print text (doc.insert "external".toList (.inline (TomlTable.insert "allow".toList (.array allow) entries)))
  | _ => throw "`external` must be a table".toList

end Emela.Pome.Edit
