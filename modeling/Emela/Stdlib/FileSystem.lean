import Mathlib
import Emela.Lib.Search

/-!
# Paths

`Std.Path`, what the test file system uses of it. A `String` is its characters, in the order of their code points.
-/

namespace Emela.Stdlib

abbrev Str := List Char

namespace Path

def ROOT : Str := "/".toList

/-- The non-empty components, so that repeated and trailing slashes do not count. -/
def components (path : Str) : List Str := (path.splitOn '/').filter (· ≠ [])

/-- `path.starts_with("/")`. -/
def isAbsolute (path : Str) : Bool := path.head? = some '/'

/-- `from_components`: joined again, with the leading `/` of an absolute path. -/
def fromComponents (path : Str) (parts : List Str) : Str :=
  let joined := ['/'].intercalate parts
  if isAbsolute path then '/' :: joined else joined

/-- `drop_last`. -/
def dropLast : List Str → Option (List Str)
  | [] => none
  | x :: xs => some (x :: xs).dropLast

/-- The path without its last component. -/
def parent (path : Str) : Option Str :=
  match dropLast (components path) with
  | none => none
  | some [] => if isAbsolute path then some ROOT else none
  | some rest => some (fromComponents path rest)

/-- The last component. -/
def fileName (path : Str) : Option Str :=
  match (components path).getLast? with
  | some name => if name = ".".toList ∨ name = "..".toList then none else some name
  | none => none

/-! ## Components -/

section
variable {path p : Str} {parts : List Str}

theorem components_root : components ROOT = [] := rfl

/-- Components are not empty and have no slash. -/
theorem mem_components {c : Str} (h : c ∈ components path) : c ≠ [] ∧ '/' ∉ c := by
  obtain ⟨hc, hne⟩ := List.mem_filter.mp h
  exact ⟨of_decide_eq_true hne, Split.notMem_part '/' path c hc⟩

theorem components_fromComponents (hparts : ∀ c ∈ parts, c ≠ [] ∧ '/' ∉ c) (hne : parts ≠ []) :
    components (fromComponents path parts) = parts := by
  have hjoined : components (['/'].intercalate parts) = parts := by
    rw [components, List.splitOn_intercalate _ (fun c hc => (hparts c hc).2) hne]
    exact List.filter_eq_self.mpr fun c hc => decide_eq_true (hparts c hc).1
  unfold fromComponents
  split
  · rw [components, List.splitOn_cons_eq_if_modifyHead, if_pos (beq_self_eq_true _)]
    simpa [components] using hjoined
  · exact hjoined

/-- The parent has one component less. -/
theorem components_parent (h : parent path = some p) :
    components path ≠ [] ∧ components p = (components path).dropLast := by
  unfold parent at h
  cases hc : components path with
  | nil =>
    rw [hc] at h
    cases h
  | cons c rest =>
    refine ⟨List.cons_ne_nil _ _, ?_⟩
    rw [hc, dropLast] at h
    split at h
    · cases h
    · next hd =>
      split at h
      · cases h
        rw [Option.some.inj hd, components_root]
      · cases h
    · next parts hne hd =>
      cases h
      cases hd
      have hmem : ∀ d ∈ (c :: rest).dropLast, d ∈ components path := fun d hd => hc ▸ List.dropLast_subset _ hd
      exact components_fromComponents (fun d hd => mem_components (hmem d hd)) hne

theorem parent_root : parent ROOT = none := rfl

end

end Path

/-! ## The test file system

`TestFileSystem` of `Std.FileSystem`: a handler that keeps the files in `State[TestFiles]` and resumes at once. -/

/-- `files` pairs each path with its text, in path order. A directory exists if it is in `directories`, or is an
ancestor of a path in `files` or `directories`. -/
structure TestFiles where
  files : List (Str × Str)
  directories : List Str
deriving DecidableEq

/-- The errors the test handler fails with. -/
inductive FileError where
  | fileNotFound (path : Str)
  | notADirectory (path : Str)
  | isADirectory (path : Str)
  | directoryNotEmpty (path : Str)
deriving DecidableEq

/-! ## Paths of a state -/

/-- Inserts `x` into the sorted `xs`, unless it is already there. -/
def insert (xs : List Str) (x : Str) : List Str :=
  if xs.any (· == x) then xs
  else
    let (before, after) := xs.partition (· < x)
    before ++ [x] ++ after

/-- `ancestors_onto`. Each round takes a component away. -/
def ancestorsOnto : Nat → Str → List Str → List Str
  | 0, _, acc => acc
  | fuel + 1, path, acc => match Path.parent path with
    | some p => ancestorsOnto fuel p (p :: acc)
    | none => acc

/-- The ancestors of `path`, nearest first. -/
def ancestors (path : Str) : List Str := (ancestorsOnto (Path.components path).length path []).reverse

/-- `path` and its ancestors. -/
def lineage (path : Str) : List Str := path :: ancestors path

namespace TestFiles

def empty : TestFiles := ⟨[], []⟩

/-- `file_text`. -/
def fileText (st : TestFiles) (path : Str) : Option Str := (st.files.find? fun e => e.1 == path).map (·.2)

/-- Every path in `files` and `directories`, with all its ancestors. -/
def allPaths (st : TestFiles) : List Str := ((st.files.map (·.1) ++ st.directories).map lineage).flatten

/-- `is_dir`. -/
def isDir (st : TestFiles) (path : Str) : Bool :=
  path == Path.ROOT || st.directories.any (· == path) || st.allPaths.any fun p => Path.parent p == some path

/-- Whether a file is at one of the ancestors of `path`. -/
def hasFileAncestor (st : TestFiles) (path : Str) : Bool := (ancestors path).any fun a => (st.fileText a).isSome

/-- The names of the entries directly in `dir`, in name order without duplicates. -/
def children (st : TestFiles) (dir : Str) : List Str :=
  let paths := st.allPaths.filter fun p => Path.parent p == some dir
  paths.foldl (fun names p => match Path.fileName p with
    | some name => insert names name
    | none => names) []

/-- `put_file`: writes the file at `path` with `f` of the old text. -/
def putFile (st : TestFiles) (path : Str) (f : Option Str → Str) : Except FileError TestFiles :=
  if st.isDir path then .error (.isADirectory path)
  else if (Path.parent path).any fun dir => !st.isDir dir then .error (.fileNotFound path)
  else
    let text := f (st.fileText path)
    let others := st.files.filter fun e => e.1 ≠ path
    let (before, after) := others.partition fun e => e.1 < path
    .ok { st with files := before ++ [(path, text)] ++ after }

end TestFiles

/-! ## The handler -/

/-- An operation of the effect `FileSystem`. -/
inductive Operation where
  | readText (path : Str)
  | writeText (path text : Str)
  | appendText (path text : Str)
  | «exists» (path : Str)
  | isDirectory (path : Str)
  | listDirectory (path : Str)
  | createDirectory (path : Str)
  | remove (path : Str)

/-- What the handler resumes with. -/
inductive Answer where
  | text (s : Str)
  | bool (b : Bool)
  | names (xs : List Str)
  | unit
deriving DecidableEq

/-- A clause of the handler: it fails or resumes, and has the state it set before. -/
abbrev Clause := ExceptT FileError (StateM TestFiles) Answer

/-- `(use State[TestFiles]).set(…)`, of a value whose computation may fail. -/
def setState (r : Except FileError TestFiles) : Clause :=
  match r with
  | .error e => throw e
  | .ok st => do
      set st
      return .unit

/-- The clause of an operation. -/
def clause : Operation → Clause
  | .readText path => do
      let st ← get
      match st.fileText path with
      | some text => return .text text
      | none => if st.isDir path then throw (.isADirectory path) else throw (.fileNotFound path)
  | .writeText path text => do setState ((← get).putFile path fun _ => text)
  | .appendText path text => do setState ((← get).putFile path fun old => old.getD [] ++ text)
  | .exists path => do
      let st ← get
      return .bool ((st.fileText path).isSome || st.isDir path)
  | .isDirectory path => return .bool ((← get).isDir path)
  | .listDirectory path => do
      let st ← get
      if st.isDir path then return .names (st.children path)
      else if (st.fileText path).isSome || st.hasFileAncestor path then throw (.notADirectory path)
      else throw (.fileNotFound path)
  | .createDirectory path => do
      let st ← get
      if (st.fileText path).isSome || st.hasFileAncestor path then throw (.notADirectory path)
      else
        -- only the missing ones, so that creating an existing directory changes nothing
        let missing := (lineage path).filter fun d => !st.isDir d
        setState (.ok { st with directories := missing.foldl insert st.directories })
  | .remove path => do
      let st ← get
      -- the ancestors stay, as they would on a real file system
      let kept := (ancestors path).foldl insert st.directories
      if (st.fileText path).isSome then
        setState (.ok { files := st.files.filter fun e => e.1 ≠ path, directories := kept })
      else if st.isDir path then
        if !(st.children path).isEmpty then throw (.directoryNotEmpty path)
        else setState (.ok { st with directories := kept.filter (· ≠ path) })
      else throw (.fileNotFound path)

/-- An operation on a state: how it ends, and the state then. -/
def perform (op : Operation) (st : TestFiles) : Except FileError Answer × TestFiles := clause op st

/-- The state after a sequence of operations, of which some may fail. -/
def runOperations : List Operation → TestFiles → TestFiles
  | [], st => st
  | op :: ops, st => runOperations ops (perform op st).2

end Emela.Stdlib
