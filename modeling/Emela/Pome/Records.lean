import Emela.Pome.Tlog
import Emela.Pome.SourcePath

/-!
# Hashes, signed notes and records

`hash.rs`, `sumdb/note.rs` and `sumdb/record.rs`. SHA-256, base64 and Ed25519 are crates the source uses.
-/

namespace Emela.Pome

/-- What the source uses of the crates `sha2`, `base64` and `ed25519_dalek`. -/
structure Crypto where
  sha256 : List UInt8 → Hash
  /-- `STANDARD.encode`. -/
  encode : List UInt8 → Str
  /-- `STANDARD.decode`. -/
  decode : Str → Option (List UInt8)
  /-- `Signature::from_slice` and `VerifyingKey::verify_strict`, of the key, the text and the signature. -/
  verifyStrict : List UInt8 → List UInt8 → List UInt8 → Bool

/-! ## Content hashes -/

def MANIFEST_FILE : Str := "Pome.toml".toList

structure H1 where
  text : Str
deriving DecidableEq

inductive HashError where
  | malformed (s : Str)
  | badPath (path reason : Str)

def HashError.toText : HashError → Str
  | .malformed s => "invalid hash `".toList ++ s ++ "`: expected `h1:` and 44 characters of base64".toList
  | .badPath path reason => "invalid path `".toList ++ path ++ "` in tree: ".toList ++ reason

def H1.parse (crypto : Crypto) (s : Str) : Except HashError H1 :=
  let ok := (stripPrefix "h1:".toList s).any fun b =>
    (utf8 b).length == 44 && b.getLast? == some '=' && (crypto.decode b).any (·.length == 32)
  if ok then .ok ⟨s⟩ else .error (.malformed s)

/-- The two hexadecimal digits of a byte. -/
def hexByte (b : UInt8) : Str := [Nat.digitChar (b.toNat / 16), Nat.digitChar (b.toNat % 16)]

/-- `archive::Files`: paths and contents. -/
abbrev Files := List (Str × List UInt8)

/-- Why a path cannot be part of a tree. -/
def badPath (path : Str) : Option String :=
  if path.isEmpty then some "empty"
  else if '\n' ∈ path || '\r' ∈ path then some "contains a newline"
  else if '\\' ∈ path then some "contains a backslash"
  else if (path.splitOn '/').any fun e => e.isEmpty || e == ['.'] || e == ['.', '.'] then
    some "must be a clean relative path"
  else if path == ".git".toList || (stripPrefix ".git/".toList path).isSome then
    some "`.git` is not part of the tree"
  else none

/-- The hash of the summary of sorted paths and digests. -/
def summaryHash (crypto : Crypto) (entries : List (Str × Hash)) : H1 :=
  let summary := entries.flatMap fun (path, digest) =>
    digest.toList.flatMap hexByte ++ [' ', ' '] ++ path ++ ['\n']
  ⟨"h1:".toList ++ crypto.encode (crypto.sha256 (utf8 summary)).toList⟩

/-- `entries.windows(2).find(..)`: the first path next to an equal one. -/
def repeatedPath : List (Str × Hash) → Option Str
  | a :: b :: rest => if a.1 = b.1 then some a.1 else repeatedPath (b :: rest)
  | _ => none

/-- The hash of a tree given as pairs of path and content. -/
def treeHash (crypto : Crypto) (files : Files) : Except HashError H1 :=
  match files.findSome? fun f => (badPath f.1).map fun reason => (f.1, reason) with
  | some (path, reason) => .error (.badPath path reason.toList)
  | none =>
      let entries := (files.map fun (path, content) => (path, crypto.sha256 content)).insertionSort
        fun a b => (compare a.1 b.1).isLE
      match repeatedPath entries with
      | some path => .error (.badPath path "duplicate path".toList)
      | none => .ok (summaryHash crypto entries)

/-- The hash of `Pome.toml` alone, a tree with that one file. -/
def manifestHash (crypto : Crypto) (content : List UInt8) : H1 :=
  summaryHash crypto [(MANIFEST_FILE, crypto.sha256 content)]

theorem treeHash_manifest (crypto : Crypto) (content : List UInt8) :
    treeHash crypto [(MANIFEST_FILE, content)] = .ok (manifestHash crypto content) := by
  have hpath : badPath MANIFEST_FILE = none := by decide
  simp [treeHash, hpath, repeatedPath, manifestHash]

/-! ## Signed notes -/

structure NoteError where
  message : Str

structure Verifier where
  name : Str
  keyHash : Nat
  key : List UInt8

/-- An em dash and a space. -/
def SIG_PREFIX : Str := [Char.ofNat 0x2014, ' ']

/-- The text before the last blank line, and what is after it. -/
def rsplitBlank (s : Str) : Option (Str × Str) :=
  (go s.reverse).map fun (after, before) => (before.reverse, after.reverse)
where
  go : Str → Option (Str × Str)
    | '\n' :: '\n' :: rest => some ([], rest)
    | c :: rest => (go rest).map fun (a, b) => (c :: a, b)
    | [] => none

/-- The number of four bytes, the first one the highest. -/
def beNat (bytes : List UInt8) : Nat := bytes.foldl (fun n b => n * 256 + b.toNat) 0

/-- Whether the blob of a signature line is a signature of the text by the key. -/
def signatureHolds (crypto : Crypto) (verifier : Verifier) (text b64 : Str) : Bool :=
  match crypto.decode b64 with
  | none => false
  | some blob => 4 ≤ blob.length && beNat (blob.take 4) == verifier.keyHash &&
      crypto.verifyStrict verifier.key (utf8 text) (blob.drop 4)

/-- The loop over the signature lines. -/
def openLines (crypto : Crypto) (verifier : Verifier) (text : Str) : List Str → Except NoteError Str
  | [] => .error ⟨"no valid signature by `".toList ++ verifier.name ++ ['`']⟩
  | line :: rest =>
      let bad : Except NoteError Str := .error ⟨"bad signature line `".toList ++ line ++ ['`']⟩
      match stripPrefix SIG_PREFIX line with
      | none => bad
      | some sig => match splitOnce ' ' sig with
        | none => bad
        | some (name, b64) =>
            if name = verifier.name ∧ signatureHolds crypto verifier text b64 then .ok text
            else openLines crypto verifier text rest

/-- `note::open`: the text of a note signed by `verifier`. -/
def openNote (crypto : Crypto) (signed : Str) (verifier : Verifier) : Except NoteError Str :=
  match rsplitBlank signed with
  | none => .error ⟨"missing signature block".toList⟩
  | some (before, after) =>
      let text := before ++ ['\n']
      if text.any fun c => isControl c && c != '\n' then .error ⟨"text has control characters".toList⟩
      else match stripSuffix ['\n'] after with
        | none => .error ⟨"signature block must end with a newline".toList⟩
        | some block => openLines crypto verifier text (block.splitOn '\n')

/-! ## Checkpoints -/

structure Checkpoint where
  origin : Str
  size : Nat
  root : Hash
deriving DecidableEq

/-- `str::parse::<u64>`, which takes a leading `+`. -/
def parseUnsigned (s : Str) : Option Nat :=
  let digits := (stripPrefix ['+'] s).getD s
  if !digits.isEmpty && digits.all Char.isDigit then parseU64 digits else none

/-- `<[u8; 32]>::try_from`. -/
def toHash (bytes : List UInt8) : Option Hash :=
  if h : bytes.length = 32 then some ⟨bytes.toArray, by simp [h]⟩ else none

/-- An empty number or one with a leading zero. -/
def badNumber (s : Str) : Bool := s.isEmpty || (s.length > 1 && s.head? == some '0')

/-- The origin, tree size and root on three lines. Lines after them are ignored. -/
def Checkpoint.parse (crypto : Crypto) (text : Str) : Except NoteError Checkpoint :=
  let checkpoint := do
    let body ← stripSuffix ['\n'] text
    match body.splitOn '\n' with
    | origin :: size :: root :: _ =>
        if origin.isEmpty || badNumber size then none
        else do
          let size ← parseUnsigned size
          let root ← (crypto.decode root).bind toHash
          return { origin, size, root : Checkpoint }
    | _ => none
  match checkpoint with
  | some checkpoint => .ok checkpoint
  | none => .error ⟨"bad checkpoint".toList⟩

def Checkpoint.toText (crypto : Crypto) (c : Checkpoint) : Str :=
  c.origin ++ ['\n'] ++ decimal c.size ++ ['\n'] ++ crypto.encode c.root.toList ++ ['\n']

/-! ## Records -/

structure Record where
  path : SourcePath
  version : Version
  tree : H1
  manifest : H1

def Record.toText (r : Record) : Str :=
  r.path.text ++ [' '] ++ r.version.raw ++ [' '] ++ r.tree.text ++ ['\n'] ++
    r.path.text ++ [' '] ++ r.version.raw ++ ['/'] ++ MANIFEST_FILE ++ [' '] ++ r.manifest.text ++ ['\n']

/-- A record in canonical form. -/
def Record.parse (crypto : Crypto) (text : Str) : Option Record := do
  let body ← stripSuffix ['\n'] text
  match body.splitOn '\n' with
  | [tree, manifest] => match tree.splitOn ' ', manifest.splitOn ' ' with
    | [path, version, tree], [path2, version2, manifest] =>
        if path ≠ path2 ∨ version2 ≠ version ++ ['/'] ++ MANIFEST_FILE then none
        else do
          let record : Record :=
            { path := ← (SourcePath.parse path).toOption
              version := ← (Version.parse version).toOption
              tree := ← (H1.parse crypto tree).toOption
              manifest := ← (H1.parse crypto manifest).toOption }
          if record.toText = text then some record else none
    | _, _ => none
  | _ => none

/-- The body of `lookup/<path>@<version>`. -/
structure Lookup where
  index : Nat
  record : Record
  data : Str
  signedCheckpoint : Str

def Lookup.parse (crypto : Crypto) (body : Str) : Option Lookup := do
  let (index, rest) ← splitOnce '\n' body
  if badNumber index then none
  else do
    let index ← parseUnsigned index
    let (first, rest) ← splitOnce '\n' rest
    let (second, rest) ← splitOnce '\n' rest
    let data := first ++ ['\n'] ++ second ++ ['\n']
    let note ← stripPrefix ['\n'] rest
    return { index, record := ← Record.parse crypto data, data, signedCheckpoint := note }

end Emela.Pome
