import Mathlib

/-!
# Text

What the source uses of `str` and of UTF-8. A `str` is its characters; the bytes of UTF-8 order as the
characters do.
-/

namespace Emela.Pome

abbrev Str := List Char

scoped instance : LawfulBEq Str := inferInstance

/-- `str::split_once`. -/
def splitOnce (sep : Char) (s : Str) : Option (Str × Str) :=
  match s.span (· != sep) with
  | (before, _ :: after) => some (before, after)
  | (_, []) => none

/-- `str::rsplit_once`. -/
def rsplitOnce (sep : Char) (s : Str) : Option (Str × Str) :=
  (splitOnce sep s.reverse).map fun (after, before) => (before.reverse, after.reverse)

/-- `str::strip_prefix`. -/
def stripPrefix : Str → Str → Option Str
  | [], s => some s
  | c :: p, d :: s => if c = d then stripPrefix p s else none
  | _ :: _, [] => none

/-- `str::strip_suffix`. -/
def stripSuffix (suffix s : Str) : Option Str := (stripPrefix suffix.reverse s.reverse).map List.reverse

/-- `char::is_whitespace`. -/
def isWhitespace (c : Char) : Bool :=
  let n := c.toNat
  (9 ≤ n && n ≤ 13) || n == 0x20 || n == 0x85 || n == 0xA0 || n == 0x1680 || (0x2000 ≤ n && n ≤ 0x200A) ||
    n == 0x2028 || n == 0x2029 || n == 0x202F || n == 0x205F || n == 0x3000

/-- `char::is_control`. -/
def isControl (c : Char) : Bool := c.toNat < 0x20 || (0x7F ≤ c.toNat && c.toNat < 0xA0)

/-- `str::trim_start`. -/
def trimStart (s : Str) : Str := s.dropWhile isWhitespace

/-- `str::trim`. -/
def trim (s : Str) : Str := (trimStart (trimStart s).reverse).reverse

/-- `str::lines`: without the empty line after a last newline, and without a `\r` before a newline. -/
def lines (s : Str) : List Str :=
  let parts := s.splitOn '\n'
  let ended := parts.dropLast.map fun l => (stripSuffix ['\r'] l).getD l
  match parts.getLast? with
  | none => ended
  | some [] => ended
  | some l => ended ++ [l]

/-- The decimal digits of a number. -/
def decimal (n : Nat) : Str := (Nat.repr n).toList

/-! ## UTF-8 -/

/-- `str::as_bytes`. -/
def utf8 (s : Str) : List UInt8 := s.flatMap String.utf8EncodeChar

/-- A byte that continues a character. -/
def isContinuation (b : UInt8) : Bool := 0x80 ≤ b && b ≤ 0xBF

/-- The values that may follow the first byte of a character of more than one byte: no overlong form, no
surrogate, nothing above U+10FFFF. -/
def isSecond (first b : UInt8) : Bool :=
  if first == 0xE0 then 0xA0 ≤ b && b ≤ 0xBF
  else if first == 0xED then 0x80 ≤ b && b ≤ 0x9F
  else if first == 0xF0 then 0x90 ≤ b && b ≤ 0xBF
  else if first == 0xF4 then 0x80 ≤ b && b ≤ 0x8F
  else isContinuation b

/-- The number of bytes of the character that starts with the byte. -/
def utf8Width (first : UInt8) : Option Nat :=
  if first < 0x80 then some 1
  else if 0xC2 ≤ first && first ≤ 0xDF then some 2
  else if 0xE0 ≤ first && first ≤ 0xEF then some 3
  else if 0xF0 ≤ first && first ≤ 0xF4 then some 4
  else none

/-- The bytes after the first one that can still belong to its character. -/
def following (first : UInt8) (width : Nat) (rest : List UInt8) : List UInt8 :=
  match rest with
  | [] => []
  | b :: rest => if isSecond first b then b :: (rest.take (width - 2)).takeWhile isContinuation else []

/-- The character of a first byte and its continuation. -/
def charOf (first : UInt8) (more : List UInt8) : Char :=
  let lead := match more.length with
    | 0 => first.toNat
    | 1 => first.toNat % 0x20
    | 2 => first.toNat % 0x10
    | _ => first.toNat % 0x08
  Char.ofNat (more.foldl (fun n b => n * 64 + b.toNat % 64) lead)

/-- The characters in the bytes, `none` for each longest part that no character can be made of. -/
def decode : Nat → List UInt8 → List (Option Char)
  | 0, _ => []
  | _ + 1, [] => []
  | fuel + 1, b :: rest => match utf8Width b with
    | none => none :: decode fuel rest
    | some 1 => some (charOf b []) :: decode fuel rest
    | some width =>
        let more := following b width rest
        let c := if more.length + 1 == width then some (charOf b more) else none
        c :: decode fuel (rest.drop more.length)

/-- `String::from_utf8`. -/
def fromUtf8 (bytes : List UInt8) : Option Str := (decode bytes.length bytes).mapM id

/-- `String::from_utf8_lossy`. -/
def fromUtf8Lossy (bytes : List UInt8) : Str := (decode bytes.length bytes).map fun c => c.getD (Char.ofNat 0xFFFD)

/-! ## TOML documents

What the source uses of the crates `toml` and `toml_edit`. A document is the tree of its entries. The layout
of its text (comments, spaces, the order of tables) is with the text it was parsed from. -/

/-- An item of a document. `scalar` is a number, a boolean or a date, `tables` an array of tables. -/
inductive Toml where
  | string (s : Str)
  | scalar (s : Str)
  | array (items : List Toml)
  | inline (entries : List (Str × Toml))
  | table (entries : List (Str × Toml))
  | tables (items : List (List (Str × Toml)))

/-- The entries of a table as written. -/
abbrev TomlTable := List (Str × Toml)

namespace TomlTable

def get (key : Str) : TomlTable → Option Toml
  | [] => none
  | (k, item) :: rest => if k = key then some item else get key rest

/-- The item of the key is replaced, or comes last. -/
def insert (key : Str) (item : Toml) : TomlTable → TomlTable
  | [] => [(key, item)]
  | (k, old) :: rest => if k = key then (k, item) :: rest else (k, old) :: insert key item rest

def remove (key : Str) : TomlTable → TomlTable
  | [] => []
  | (k, item) :: rest => if k = key then rest else (k, item) :: remove key rest

end TomlTable

namespace Toml

/-- `as_str`. -/
def text : Toml → Option Str
  | string s => some s
  | _ => none

/-- `as_table_like`: a table, or an inline table. -/
def entries : Toml → Option TomlTable
  | inline entries => some entries
  | table entries => some entries
  | _ => none

/-- The items of a sequence. -/
def items : Toml → Option (List Toml)
  | array items => some items
  | tables items => some (items.map table)
  | _ => none

/-- Whether `deserialize_struct` takes the item: a table, or its fields in order. -/
def isStruct (item : Toml) : Bool := item.entries.isSome || item.items.isSome

/-- A field of a struct, by name or by position. -/
def field (position : Nat) (name : Str) (item : Toml) : Option Toml :=
  match item.entries with
  | some entries => TomlTable.get name entries
  | none => item.items.bind fun items => items[position]?

/-- A field of type `Option`, which only a table may leave out. -/
def optional (position : Nat) (name : Str) (item : Toml) : Option (Option Toml) :=
  match item.entries with
  | some entries => some (TomlTable.get name entries)
  | none => (item.items.bind fun items => items[position]?).map some

/-- The item at a sequence of keys. -/
def «at» : List Str → Toml → Option Toml
  | [], item => some item
  | key :: keys, item => match item.entries.bind (TomlTable.get key) with
    | some inner => «at» keys inner
    | none => none

end Toml

/-- The crates. `toml` and `toml_edit` read the same language. -/
structure TomlCrates where
  parse : Str → Option TomlTable
  /-- The error of `toml::from_str` for a text that is not TOML or has not the data asked for. -/
  fromStrError : Str → Str
  /-- The error of `toml_edit` for a text that is not TOML. -/
  editError : Str → Str
  /-- `to_string` of what a document has become, with the text it was parsed from. -/
  print : Str → TomlTable → Str

end Emela.Pome
