import Emela.Lib.Search
import Emela.Stdlib.Utf8

/-!
# The URL of a request

The URL functions of `http/request.emel` and the check that a server makes of a target in `http.emel`. Of a request
they read the URL. A text is split at texts that are not empty.
-/

namespace Emela.Stdlib

/-! ## Strings -/

namespace Strings

def contains (s sub : Str) : Bool := Search.contains sub s

def split (s sep : Str) : List Str := Search.split sep s

def join (xs : List Str) (sep : Str) : Str := sep.intercalate xs

def concat (parts : List Str) : Str := join parts []

def codePoints (s : Str) : List Int32 := s.map fun c => Int32.ofNat c.toNat

end Strings

structure ParseError where
  input : Str

structure Request where
  url : Str

namespace Request

open Strings

/-! ## Percent-encoding -/

/-- The continuation byte holding the six bits of `c` from bit `shift`. -/
def continuation (c shift : Int32) : Int32 := 0x80 ||| (c >>> shift &&& 0x3F)

/-- The UTF-8 bytes of the code point `c`. -/
def utf8Bytes (c : Int32) : List Int32 :=
  if c < 0x80 then [c]
  else if c < 0x800 then [(0xC0 : Int32) ||| c >>> 6, continuation c 0]
  else if c < 0x10000 then [(0xE0 : Int32) ||| c >>> 12, continuation c 6, continuation c 0]
  else [(0xF0 : Int32) ||| c >>> 18, continuation c 12, continuation c 6, continuation c 0]

def unreserved (byte : Int32) : Bool :=
  (byte ≥ 0x41 && byte ≤ 0x5A) || (byte ≥ 0x61 && byte ≤ 0x7A) || (byte ≥ 0x30 && byte ≤ 0x39) ||
    Lists.any [0x2D, 0x5F, 0x2E, 0x21, 0x7E, 0x2A, 0x27, 0x28, 0x29] fun c => c == byte

def hexDigit (n : Int32) : Str := (fromCodePoint (if n < 10 then 0x30 + n else 0x41 + n - 10)).getD []

def percentEncodeByte (byte : Int32) : Str :=
  if unreserved byte then (fromCodePoint byte).getD []
  else ['%'] ++ hexDigit (byte >>> 4) ++ hexDigit (byte &&& 15)

/-- Every byte of the UTF-8 of `s` as `%XX`, except those that are unreserved. -/
def percentEncode (s : Str) : Str := join (Lists.map (Lists.flatMap (codePoints s) utf8Bytes) percentEncodeByte) []

def hexValue (c : Int32) : Option Int32 :=
  if c ≥ 0x30 && c ≤ 0x39 then some (c - 0x30)
  else if c ≥ 0x41 && c ≤ 0x46 then some (c - 0x41 + 10)
  else if c ≥ 0x61 && c ≤ 0x66 then some (c - 0x61 + 10)
  else none

/-- The UTF-8 bytes of the code points, with each `%XX` read as one byte, in reverse onto `acc` and then put back in
order. -/
def toBytes (cs acc : List Int32) : Option (List Int32) :=
  match cs with
  | [] => some (Lists.reverse acc)
  | c :: rest =>
      if c = 0x25 then
        match rest with
        | hi :: lo :: rest =>
            match hexValue hi with
            | none => none
            | some h => match hexValue lo with
              | none => none
              | some l => toBytes rest ((h * 16 + l) :: acc)
        | _ => none
      else toBytes rest (Lists.append (Lists.reverse (utf8Bytes c)) acc)

/-- `s` with each `%XX` replaced by the byte it stands for. -/
def percentDecode (s : Str) : Option Str :=
  if !contains s ['%'] then some s
  else ((toBytes (codePoints s) []).bind fun bytes => fromUtf8 bytes []).map concat

/-! ## Queries -/

/-- The query string of `pairs`, each part percent-encoded. -/
def encodeQuery (pairs : List (Str × Str)) : Str :=
  join (Lists.map pairs fun (name, value) => percentEncode name ++ ['='] ++ percentEncode value) ['&']

/-- A pair split at the first `=`. -/
def rawPair (pair : Str) : Str × Str := match split pair ['='] with
  | [] => ([], [])
  | [name] => (name, [])
  | name :: rest => (name, join rest ['='])

/-- The raw pairs of a query string: split at `&`, then at the first `=`. -/
def queryPairs (s : Str) : List (Str × Str) := if s = [] then [] else Lists.map (split s ['&']) rawPair

def plusAsSpace (s : Str) : Str := join (split s ['+']) [' ']

/-- A raw pair with `+` read as a space and then percent-decoded. -/
def decodePair (name value : Str) : Option (Str × Str) :=
  (percentDecode (plusAsSpace name)).bind fun n => (percentDecode (plusAsSpace value)).map fun v => (n, v)

/-- `xs.map(f)` with an `f` that may fail. -/
def mapOnto {A B : Type} : List A → (A → Except ParseError B) → List B → Except ParseError (List B)
  | [], _, acc => .ok (Lists.reverse acc)
  | x :: rest, f, acc => do
      let y ← f x
      mapOnto rest f (y :: acc)

def decodeQuery (s : Str) : Except ParseError (List (Str × Str)) :=
  mapOnto (queryPairs s) (fun (name, value) => (decodePair name value).elim (.error ⟨s⟩) .ok) []

/-! ## Targets -/

def fromCodePoints (cs : List Int32) : Str := join (Lists.filterMap cs fromCodePoint) []

/-- The part of `s` from the first `/` or `?`, which ends the authority. -/
def afterAuthority (s : Str) : Str :=
  let cs := codePoints s
  match Lists.findIndex cs fun c => c == 0x2F || c == 0x3F with
  | none => []
  | some i => fromCodePoints (Lists.drop cs i)

/-- `url` without its scheme and authority. -/
def targetOf (url : Str) : Str := match split url "://".toList with
  | scheme :: first :: rest =>
      if scheme ≠ [] && !contains scheme ['/'] && !contains scheme ['?'] then
        afterAuthority (join (first :: rest) "://".toList)
      else url
  | _ => url

/-- `url` without its scheme and authority, split at the first `?` into the path and the query. -/
def splitTarget (url : Str) : Str × Str :=
  let target := targetOf url
  match split target ['?'] with
  | path :: query :: rest => (path, join (query :: rest) ['?'])
  | _ => (target, [])

def path (req : Request) : Str :=
  let (path, _) := splitTarget req.url
  if path = [] then ['/'] else path

/-- The non-empty segments of the path, each percent-decoded or kept as written. -/
def segments (req : Request) : List Str :=
  Lists.map (Lists.filter (split req.path ['/']) fun segment => segment ≠ []) fun segment =>
    (percentDecode segment).getD segment

/-- The pairs of the query of `url`, each decoded or kept as written. -/
def query (req : Request) : List (Str × Str) :=
  let (_, query) := splitTarget req.url
  Lists.map (queryPairs query) fun (name, value) => (decodePair name value).getD (name, value)

def decodes (s : Str) : Bool := match decodeQuery s with
  | .ok _ => true
  | .error _ => false

/-- Whether the path and the query of `request` percent-decode. -/
def wellFormed (request : Request) : Bool :=
  let query := join (Lists.drop (split request.url ['?']) 1) ['?']
  decodes request.path && decodes query

end Request

end Emela.Stdlib
