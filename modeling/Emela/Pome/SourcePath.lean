import Mathlib
import Emela.Pome.Text

/-!
# Versions

`version.rs`. A version is what `Version::parse` makes of a tag, so a value of the type carries the tag and
that it parses.
-/

namespace Emela.Pome

/-! ## Parsing -/

/-- Digits without a leading zero. -/
def isNumeric (s : Str) : Bool :=
  !s.isEmpty && s.all Char.isDigit && (s == ['0'] || s.head? != some '0')

/-- A prerelease identifier with at least one non-digit. -/
def isAlphanumericId (s : Str) : Bool :=
  !s.isEmpty && s.all (fun c => c.isAlphanum || c == '-') && s.any (fun c => !c.isDigit)

def digit (c : Char) : Nat := c.toNat - '0'.toNat

/-- `s.parse::<u64>().ok()` of digits. -/
def parseU64 (s : Str) : Option Nat :=
  let n := s.foldl (fun n c => 10 * n + digit c) 0
  if n < 2 ^ 64 then some n else none

/-- What a tag says. -/
structure Precedence where
  major : Nat
  minor : Nat
  patch : Nat
  prerelease : List Str
deriving DecidableEq

/-- `num` of `Version::parse`. -/
def Precedence.num (s : Str) : Option Nat := if isNumeric s then parseU64 s else none

/-- The identifiers after the first `-`. -/
def Precedence.identifiers : Option Str → Option (List Str)
  | some pre =>
      let ids := pre.splitOn '.'
      if ids.all fun id => isNumeric id || isAlphanumericId id then some ids else none
  | none => some []

def Precedence.fields (core : Str) (prerelease : Option Str) : Option Precedence :=
  match core.splitOn '.' with
  | [major, minor, patch] => do
      let prerelease ← Precedence.identifiers prerelease
      return { major := ← num major, minor := ← num minor, patch := ← num patch, prerelease }
  | _ => none

/-- `Version::parse`, less the tag it keeps and the error, which names the input. -/
def Precedence.parse (input : Str) : Option Precedence :=
  match input with
  | 'v' :: rest => match splitOnce '-' rest with
    | some (core, pre) => fields core (some pre)
    | none => fields rest none
  | _ => none

structure Version extends Precedence where
  raw : Str
  parsed : Precedence.parse raw = some toPrecedence
deriving DecidableEq

structure VersionError where
  input : Str

def Version.parse (input : Str) : Except VersionError Version :=
  match h : Precedence.parse input with
  | some parts => .ok ⟨parts, input, h⟩
  | none => .error ⟨input⟩

/-! ## Order -/

/-- The order of two identifiers in the loop of `compare_prerelease`. -/
def compareId (x y : Str) : Ordering :=
  match isNumeric x, isNumeric y with
  | true, true => (compare x.length y.length).then (compare x y)
  | true, false => .lt
  | false, true => .gt
  | false, false => compare x y

def comparePrerelease (a b : List Str) : Ordering :=
  match a.isEmpty, b.isEmpty with
  | true, true => .eq
  | true, false => .gt
  | false, true => .lt
  | false, false => (a.zip b).foldr (fun p rest => (compareId p.1 p.2).then rest) (compare a.length b.length)

/-- Semver precedence. -/
def Precedence.cmp (v w : Precedence) : Ordering :=
  ((compare v.major w.major).then ((compare v.minor w.minor).then (compare v.patch w.patch))).then
    (comparePrerelease v.prerelease w.prerelease)

instance : Ord Version := ⟨fun v w => v.toPrecedence.cmp w.toPrecedence⟩

instance : LE Version := leOfOrd

/-! ## Source paths

`source_path.rs`: `host/path`, the name of a Pome. A Pome of major v2 or above ends in `/vN`. -/

/-- The name of a Pome, ordered as text. -/
structure SourcePath where
  text : Str
deriving DecidableEq

scoped instance : LawfulBEq (SourcePath × Str) := inferInstance

instance : Ord SourcePath := ⟨fun a b => compare a.text b.text⟩

namespace SourcePath

abbrev MAX_LENGTH : Nat := 255

/-- The host whose repositories are `<host>/<owner>/<repo>`. -/
def GITHUB : Str := "github.com".toList

/-- The digits of a trailing `/v<digits>`. -/
def majorDigits (path : Str) : Option Str := do
  let (_, last) ← rsplitOnce '/' path
  let digits ← stripPrefix ['v'] last
  if !digits.isEmpty && digits.all Char.isDigit then some digits else none

/-- A lowercase domain name with at least one dot. -/
def isHost (host : Str) : Bool :=
  let labels := host.splitOn '.'
  labels.length ≥ 2 && labels.all fun l =>
    !l.isEmpty && l.head? != some '-' && l.getLast? != some '-' &&
      l.all fun c => c.isLower || c.isDigit || c == '-'

/-- Letters, digits, `.`, `_` and `-`. Starts with a letter or digit and does not end with `.`. -/
def isElement (e : Str) : Bool :=
  e.head?.any Char.isAlphanum && e.getLast? != some '.' &&
    e.all fun c => c.isAlphanum || c == '.' || c == '_' || c == '-'

end SourcePath

structure SourcePathError where
  input : Str
  reason : Str

def SourcePathError.toText (e : SourcePathError) : Str :=
  "invalid source path `".toList ++ e.input ++ "`: ".toList ++ e.reason

namespace SourcePath

/-- The canonical form, as written in `Pome.toml` and `Pome.lock`. The length counts bytes. -/
def parse (input : Str) : Except SourcePathError SourcePath :=
  let err (reason : String) : Except SourcePathError SourcePath := .error ⟨input, reason.toList⟩
  if input.isEmpty || (utf8 input).length > MAX_LENGTH then err "length must be 1..255"
  else
    let parts := input.splitOn '/'
    let host := parts.headD []
    let rest := parts.tail
    if !isHost host then err "host must be a lowercase domain name"
    else if rest.isEmpty then err "path is missing"
    else if !rest.all isElement then
      err "a path element is empty or has characters other than letters, digits, `.`, `_` and `-`"
    else if (stripSuffix ".git".toList input).isSome then err "must not end with `.git`"
    else
      let github : Except SourcePathError SourcePath :=
        let location := rest.length - (if (majorDigits input).isSome then 1 else 0)
        if host == GITHUB && location < 2 then err "a github.com path needs the owner and the repository"
        else .ok ⟨input⟩
      match majorDigits input with
      | some digits =>
          if digits.head? == some '0' || (parseU64 digits).all (· < 2) then
            err "a major suffix must be `/v2` or above, without leading zeros"
          else if rest.length < 2 then err "repository path is missing before the major suffix"
          else github
      | none => github

/-- What a command accepts. -/
def fromInput (input : Str) : Except SourcePathError SourcePath :=
  let s := match stripPrefix "github:".toList input with
    | some rest => "github.com/".toList ++ rest
    | none => (stripPrefix "https://".toList input).getD input
  parse ((stripSuffix ".git".toList s).getD s)

/-- N of the trailing `/vN`. `none` for a Pome of v0 or v1. -/
def major (path : SourcePath) : Option Nat := (majorDigits path.text).bind parseU64

/-- Whether a tag is a version of this Pome: major N with `/vN`, else v0 or v1. -/
def isVersionOf (path : SourcePath) (version : Version) : Bool :=
  match path.major with
  | some n => version.major == n
  | none => version.major ≤ 1

/-- The form used in proxy URLs and cache directories. -/
def escaped (path : SourcePath) : Str :=
  path.text.flatMap fun c => if c.isUpper then ['!', c.toLower] else [c]

end SourcePath

/-! ## Tags

`source_path.rs`: where a Pome is, and the git tags of its versions. On github.com the repository is
`github.com/<owner>/<repo>` and a directory in it comes after that; on other hosts the whole path is the
repository. -/

namespace SourcePath

def host (path : SourcePath) : Str := (path.text.splitOn '/').headD []

/-- The path without `/vN`. -/
def location (path : SourcePath) : Str :=
  match majorDigits path.text with
  | some d => path.text.take (path.text.length - d.length - 2)
  | none => path.text

/-- `str::match_indices` of a character. -/
def indicesOf (c : Char) (s : Str) : List Nat := s.zipIdx.filterMap fun (d, i) => if d = c then some i else none

/-- The repository to fetch. -/
def repository (path : SourcePath) : Str :=
  if path.host ≠ GITHUB then path.location
  else
    match (indicesOf '/' path.location)[2]? with
    | some i => path.location.take i
    | none => path.location

/-- The directory of the Pome in its repository. `none` at the root. -/
def directory (path : SourcePath) : Option Str := do
  let rest ← stripPrefix path.repository path.location
  stripPrefix ['/'] rest

/-- The git tag of a version: the directory, then `/`, before the version for a Pome in a directory. -/
def tag (path : SourcePath) (version : Version) : Str :=
  match path.directory with
  | some dir => dir ++ ['/'] ++ version.raw
  | none => version.raw

/-- The version a tag of the repository names for this Pome, if it is one of its tags. -/
def versionOfTag (path : SourcePath) (tag : Str) : Option Version := do
  let version ←
    match path.directory with
    | some dir => do
        let rest ← stripPrefix dir tag
        stripPrefix ['/'] rest
    | none => some tag
  ((Version.parse version).toOption).filter path.isVersionOf

end SourcePath

end Emela.Pome
