import Emela.Lexer.Continuation
import Emela.Pome.Text

/-!
# The lexer

`lex` of `lexer.rs`, with `name.rs` and `string.rs`, and the value of a string. Positions are in bytes of the source; the
texts of diagnostics are left out.
-/

namespace Emela.Lexer

open Pome (splitOnce stripPrefix stripSuffix trim)

inductive DiagnosticCode where
  | unterminatedString | unterminatedInterpolation | invalidName | invalidNumber | unrecognizedCharacter
  | missingEscapedCharacter | unknownEscape | invalidUnicodeEscape | malformedMultilineString
deriving DecidableEq

structure Diagnostic where
  start : Nat
  stop : Nat
  code : DiagnosticCode
deriving DecidableEq

/-- The length in bytes. -/
def byteLength (s : List Char) : Nat := (s.map Char.utf8Size).sum

def isHexDigit (c : Char) : Bool := c.isDigit || ('a' ≤ c && c ≤ 'f') || ('A' ≤ c && c ≤ 'F')

/-! ## Names -/

def keyword (word : List Char) : Option SyntaxKind :=
  match String.ofList word with
  | "fn" => some .fnKw
  | "type" => some .typeKw
  | "enum" => some .enumKw
  | "error" => some .errorKw
  | "const" => some .constKw
  | "trait" => some .traitKw
  | "impl" => some .implKw
  | "effect" => some .effectKw
  | "handler" => some .handlerKw
  | "layer" => some .layerKw
  | "import" => some .importKw
  | "pub" => some .pubKw
  | "opaque" => some .opaqueKw
  | "suspend" => some .suspendKw
  | "if" => some .ifKw
  | "else" => some .elseKw
  | "match" => some .matchKw
  | "fail" => some .failKw
  | "escape" => some .escapeKw
  | "use" => some .useKw
  | "with" => some .withKw
  | "assert" => some .assertKw
  | "self" => some .selfKw
  | "Self" => some .selfTypeKw
  | "as" => some .asKw
  | "var" | "return" | "while" | "loop" | "let" | "mut" | "in" | "where" | "do" | "try" | "catch" | "throw" | "async"
  | "yield" | "defer" | "macro" | "mod" => some .reservedKw
  | _ => none

def classifyName (word : List Char) : Option SyntaxKind :=
  match keyword word with
  | some kind => some kind
  | none =>
    if word = ['_'] then some .underscore
    else
      let upperName := word.all fun c => c.isUpper || c.isDigit || c == '_'
      let typeName := word.all fun c => c.isAlphanum
      match word with
      | [] => none
      | first :: _ =>
        if first.isLower || first == '_' then some .lowerName
        else if first.isUpper && upperName then some .upperName
        else if first.isUpper && typeName then some .typeName
        else none

/-! ## The generated lexer -/

inductive RawToken where
  | whitespace | newline | comment | docComment | word | quote | tripleQuote | int | radixInt | float | badNumber
  | lParen | rParen | lBrack | rBrack | lBrace | rBrace | comma | dot | dot2 | colon | eq | thinArrow | pipe | pipeGt
  | plus | minus | star | slash | percent | bang | eq2 | neq | lt | ltEq | gt | gtEq | amp2 | pipe2 | at
deriving DecidableEq

/-- `[first][rest]*`: the length of the longest match. -/
def run (first rest : Char → Bool) : List Char → Option Nat
  | [] => none
  | c :: s => if first c then some ((s.takeWhile rest).length + 1) else none

/-- A part of a pattern after another. -/
def andThen (m n : List Char → Option Nat) (s : List Char) : Option Nat :=
  (m s).bind fun k => (n (s.drop k)).map (k + ·)

/-- A part of a pattern that may be left out. -/
def maybe (m : List Char → Option Nat) (s : List Char) : Option Nat := some ((m s).getD 0)

def exactly (t : String) (s : List Char) : Option Nat := if t.toList.isPrefixOf s then some t.length else none

def digits : List Char → Option Nat := run Char.isDigit fun c => c.isDigit || c == '_'

def isWordStart (c : Char) : Bool := c.isAlpha || c == '_'

def isWordPart (c : Char) : Bool := c.isAlphanum || c == '_'

def exponent : List Char → Option Nat :=
  andThen (run (fun c => c == 'e' || c == 'E') fun _ => false)
    (andThen (maybe (run (fun c => c == '+' || c == '-') fun _ => false)) digits)

/-- The patterns. Of those that match as much the first here has the highest priority. -/
def patterns : List (RawToken × (List Char → Option Nat)) := [
  (.whitespace, run (fun c => c == ' ' || c == '\t') fun c => c == ' ' || c == '\t'),
  (.newline, andThen (maybe (exactly "\r")) (exactly "\n")),
  (.docComment, andThen (exactly "##") (maybe (run (fun c => c != '\r' && c != '\n') fun c => c != '\r' && c != '\n'))),
  (.comment, run (· == '#') fun c => c != '\r' && c != '\n'),
  (.word, run isWordStart isWordPart),
  (.quote, exactly "\""),
  (.tripleQuote, exactly "\"\"\""),
  (.int, digits),
  (.radixInt, andThen (exactly "0x") (run isHexDigit fun c => isHexDigit c || c == '_')),
  (.radixInt, andThen (exactly "0b") (run (fun c => c == '0' || c == '1') fun c => c == '0' || c == '1' || c == '_')),
  (.float, andThen digits (andThen (exactly ".") (andThen digits (maybe exponent)))),
  (.badNumber, andThen digits (andThen (maybe (andThen (exactly ".") digits)) (run Char.isAlpha isWordPart))),
  (.badNumber, andThen (run (· == '0') fun _ => false) (andThen (run (fun c => c == 'x' || c == 'b') isWordPart)
    (andThen (exactly ".") (run Char.isDigit isWordPart)))),
  (.lParen, exactly "("), (.rParen, exactly ")"), (.lBrack, exactly "["), (.rBrack, exactly "]"), (.lBrace, exactly "\x7b"),
  (.rBrace, exactly "\x7d"), (.comma, exactly ","), (.dot, exactly "."), (.dot2, exactly ".."), (.colon, exactly ":"), (.eq, exactly "="),
  (.thinArrow, exactly "->"), (.pipe, exactly "|"), (.pipeGt, exactly "|>"), (.plus, exactly "+"), (.minus, exactly "-"),
  (.star, exactly "*"), (.slash, exactly "/"), (.percent, exactly "%"), (.bang, exactly "!"), (.eq2, exactly "=="), (.neq, exactly "!="),
  (.lt, exactly "<"), (.ltEq, exactly "<="), (.gt, exactly ">"), (.gtEq, exactly ">="), (.amp2, exactly "&&"), (.pipe2, exactly "||"),
  (.at, exactly "@")]

def longer (best : Option (RawToken × Nat)) (found : RawToken × Nat) : Option (RawToken × Nat) :=
  match best with
  | none => some found
  | some b => if b.2 < found.2 then some found else some b

/-- The next token and its length, as the lexer `logos` generates from the declared patterns reads it: the longest match, and of
matches of one length that of the first pattern. Nothing where no pattern matches, which takes one character. -/
def rawToken (s : List Char) : Option (RawToken × Nat) :=
  (patterns.filterMap fun p => (p.2 s).map (p.1, ·)).foldl longer none

/-- Names and bad numbers are classified before. -/
def RawToken.kind : RawToken → SyntaxKind
  | .whitespace => .whitespace
  | .newline => .newline
  | .comment => .comment
  | .docComment => .docComment
  | .word | .badNumber => .errorToken
  | .quote => .stringQuote
  | .tripleQuote => .tripleQuote
  | .int | .radixInt => .int
  | .float => .float
  | .lParen => .lParen
  | .rParen => .rParen
  | .lBrack => .lBrack
  | .rBrack => .rBrack
  | .lBrace => .lBrace
  | .rBrace => .rBrace
  | .comma => .comma
  | .dot => .dot
  | .dot2 => .dot2
  | .colon => .colon
  | .eq => .eq
  | .thinArrow => .thinArrow
  | .pipe => .pipe
  | .pipeGt => .pipeGt
  | .plus => .plus
  | .minus => .minus
  | .star => .star
  | .slash => .slash
  | .percent => .percent
  | .bang => .bang
  | .eq2 => .eq2
  | .neq => .neq
  | .lt => .lt
  | .ltEq => .ltEq
  | .gt => .gt
  | .gtEq => .gtEq
  | .amp2 => .amp2
  | .pipe2 => .pipe2
  | .at => .at

def classify (raw : Option RawToken) (text : List Char) : SyntaxKind × Option DiagnosticCode :=
  match raw with
  | some .word =>
    match classifyName text with
    | some kind => (kind, none)
    | none => (.errorToken, some .invalidName)
  | some .badNumber => (.errorToken, some .invalidNumber)
  | some raw => (raw.kind, none)
  | none => (.errorToken, some .unrecognizedCharacter)

/-! ## String bodies -/

def surrogate (v : Nat) : Bool := 0xD800 ≤ v && v ≤ 0xDFFF

def hexDigitValue (c : Char) : Nat :=
  if c.isDigit then c.toNat - '0'.toNat else if 'a' ≤ c then c.toNat - 'a'.toNat + 10 else c.toNat - 'A'.toNat + 10

/-- Hexadecimal digits as a number. -/
def hexValue (ds : List Char) : Nat := ds.foldl (fun v d => 16 * v + hexDigitValue d) 0

/-- The length of an escape `\u` and the diagnostic, for the text after the `u` of the `\` at `i`. -/
def unicodeEscape (i : Nat) (afterU : List Char) : Nat × List Diagnostic :=
  match afterU with
  | '{' :: rest =>
    let digits := rest.takeWhile isHexDigit
    match rest.drop digits.length with
    | '}' :: _ =>
      let stop := digits.length + 4
      if digits.length < 1 ∨ 6 < digits.length then (stop, [⟨i, i + stop, .invalidUnicodeEscape⟩])
      else if surrogate (hexValue digits) then (stop, [⟨i, i + stop, .invalidUnicodeEscape⟩])
      else if 0x10FFFF < hexValue digits then (stop, [⟨i, i + stop, .invalidUnicodeEscape⟩])
      else (stop, [])
    | _ => (digits.length + 3, [⟨i, i + (digits.length + 3), .invalidUnicodeEscape⟩])
  | _ => (2, [⟨i, i + 2, .invalidUnicodeEscape⟩])

/-- The length in characters of the escape at `i`, for the text after its `\`. Nothing where nothing follows. -/
def escape (i : Nat) (rest : List Char) : Option Nat × List Diagnostic :=
  match rest with
  | [] => (none, [⟨i, i + 1, .missingEscapedCharacter⟩])
  | c :: rest =>
    if c = '\n' ∨ c = '\r' then (none, [⟨i, i + 1, .missingEscapedCharacter⟩])
    else if c = '"' ∨ c = '\\' ∨ c = 'n' ∨ c = 't' ∨ c = 'r' ∨ c = '#' then (some 2, [])
    else if c = 'u' then (unicodeEscape i rest).map some id
    else (some 2, [⟨i, i + 1 + c.utf8Size, .unknownEscape⟩])

/-- The length in characters of a string body from `i` on, of which `skip` characters belong to an escape. -/
def scanStringText : Nat → Nat → List Char → Nat × List Diagnostic
  | _, _, [] => (0, [])
  | skip + 1, i, c :: rest => (scanStringText skip (i + c.utf8Size) rest).map (· + 1) id
  | 0, i, c :: rest =>
    if c = '"' ∨ c = '\n' ∨ c = '\r' then (0, [])
    else if c = '#' ∧ rest.head? = some '{' then (0, [])
    else if c = '\\' then
      match escape i rest with
      | (some n, diagnostics) => (scanStringText (n - 1) (i + 1) rest).map (· + 1) (diagnostics ++ ·)
      | (none, diagnostics) => (1, diagnostics)
    else (scanStringText 0 (i + c.utf8Size) rest).map (· + 1) id

/-- The whitespace before a closing `"""` that is alone on its line. -/
def closingIndent (rest : List Char) : Option (List Char) :=
  let indent := rest.takeWhile fun c => c = ' ' || c = '\t'
  if (List.replicate 3 '"').isPrefixOf (rest.drop indent.length) then some indent else none

/-- The starts of lines, with what follows them. -/
abbrev Lines := List (Nat × List Char)

/-- The same of a multiline string, with the starts of its lines. -/
def scanMultilineText : Nat → Nat → List Char → Nat × List Diagnostic × Lines
  | _, _, [] => (0, [], [])
  | skip + 1, i, c :: rest => (scanMultilineText skip (i + c.utf8Size) rest).map (· + 1) id
  | 0, i, c :: rest =>
    if c = '"' ∧ (List.replicate 2 '"').isPrefixOf rest then (0, [], [])
    else if c = '#' ∧ rest.head? = some '{' then (0, [], [])
    else if c = '\n' then
      if (closingIndent rest).isSome then (1, [], [(i + 1, rest)])
      else (scanMultilineText 0 (i + 1) rest).map (· + 1) (·.map id ((i + 1, rest) :: ·))
    else if c = '\\' then
      let (n, diagnostics) := escape i rest
      (scanMultilineText (n.getD 1 - 1) (i + 1) rest).map (· + 1) (·.map (diagnostics ++ ·) id)
    else (scanMultilineText 0 (i + c.utf8Size) rest).map (· + 1) id

/-! ## The steps -/

/-- The innermost is the last one in the source. -/
inductive Mode where
  | code
  | str (openAt : Nat)
  | multiStr (openAt : Nat)
  | interp (openAt : Nat) (depth : Nat)

/-- `before` is the last character before `pos`, and `rest` what follows. The innermost mode and the innermost
multiline string are first. -/
structure LexerState where
  pos : Nat
  before : Option Char
  rest : List Char
  tokens : List Token
  diagnostics : List Diagnostic
  modes : List Mode
  multiLines : List Lines

namespace LexerState

/-- A token of the next `n` characters, and on to what follows it. -/
def token (l : LexerState) (kind : SyntaxKind) (n : Nat) : LexerState :=
  let text := l.rest.take n
  { l with
    pos := l.pos + byteLength text
    before := text.getLast?.or l.before
    rest := l.rest.drop n
    tokens := l.tokens ++ [⟨kind, text⟩] }

def error (l : LexerState) (start stop : Nat) (code : DiagnosticCode) : LexerState :=
  { l with diagnostics := l.diagnostics ++ [⟨start, stop, code⟩] }

def codeStep (l : LexerState) : LexerState :=
  let raw : Option RawToken := (rawToken l.rest).map (·.1)
  let n := ((rawToken l.rest).map (·.2)).getD 1
  let (kind, err) := classify raw (l.rest.take n)
  let stop := l.pos + byteLength (l.rest.take n)
  let (kind, modes, multiLines) : SyntaxKind × List Mode × List Lines :=
    match raw, l.modes with
    | some .quote, modes => (kind, .str l.pos :: modes, l.multiLines)
    | some .tripleQuote, modes => (kind, .multiStr l.pos :: modes, [] :: l.multiLines)
    | some .lBrace, .interp o depth :: modes => (kind, .interp o (depth + 1) :: modes, l.multiLines)
    | some .rBrace, .interp _ 0 :: modes => (.interpEnd, modes, l.multiLines)
    | some .rBrace, .interp o (depth + 1) :: modes => (kind, .interp o depth :: modes, l.multiLines)
    | _, modes => (kind, modes, l.multiLines)
  let next := LexerState.token { l with modes := modes, multiLines := multiLines } kind n
  let next : LexerState := match err with
    | some code => next.error l.pos stop code
    | none => next
  if raw = some .tripleQuote ∧ next.rest.head? ≠ some '\n' ∧ next.rest.head? ≠ some '\r' then
    next.error l.pos stop .malformedMultilineString
  else next

/-- The diagnostic of a line that is indented less than the closing one. -/
def shallow (indent : List Char) (line : Nat × List Char) : Option Diagnostic :=
  let text := line.2.takeWhile (· != '\n')
  if trim text = [] ∨ indent.isPrefixOf text then none
  else
    let ws := text.takeWhile fun c => c = ' ' || c = '\t'
    let first := (text.drop ws.length).take 1
    some ⟨line.1, line.1 + byteLength ws + byteLength first, .malformedMultilineString⟩

def closeMultiString (l : LexerState) (close : Nat) (indent : Option (List Char)) : LexerState :=
  let lines := l.multiLines.head?.getD []
  let diagnostics := match indent with
    | none => []
    | some indent => (lines.filter (·.1 ≠ close)).filterMap (shallow indent)
  { l with modes := l.modes.tail, multiLines := l.multiLines.tail, diagnostics := l.diagnostics ++ diagnostics }

def multiStringStep (l : LexerState) : LexerState :=
  match if l.before = some '\n' then closingIndent l.rest else none with
  | some indent => (l.token .tripleQuote (indent.length + 3)).closeMultiString l.pos (some indent)
  | none =>
    if (List.replicate 3 '"').isPrefixOf l.rest then
      ((l.error l.pos (l.pos + 3) .malformedMultilineString).token .tripleQuote 3).closeMultiString l.pos none
    else if ['#', '{'].isPrefixOf l.rest then
      { l with modes := .interp l.pos 0 :: l.modes }.token .interpStart 2
    else
      let (n, diagnostics, lines) := scanMultilineText 0 l.pos l.rest
      let next := l.token .stringText n
      { next with
        diagnostics := next.diagnostics ++ diagnostics
        multiLines := next.multiLines.modifyHead (· ++ lines) }

def stringStep (l : LexerState) (openAt : Nat) : LexerState :=
  if l.rest.head? = some '"' then { l with modes := l.modes.tail }.token .stringQuote 1
  else if ['#', '{'].isPrefixOf l.rest then { l with modes := .interp l.pos 0 :: l.modes }.token .interpStart 2
  else if l.rest.head? = some '\n' ∨ l.rest.head? = some '\r' then
    { l with modes := l.modes.tail }.error openAt l.pos .unterminatedString
  else
    let (n, diagnostics) := scanStringText 0 l.pos l.rest
    let next := l.token .stringText n
    { next with diagnostics := next.diagnostics ++ diagnostics }

def step (l : LexerState) : LexerState :=
  match l.modes.head?.getD .code with
  | .str openAt => l.stringStep openAt
  | .multiStr _ => l.multiStringStep
  | .code | .interp _ _ => l.codeStep

/-- Nothing where the fuel runs out. -/
def steps : Nat → LexerState → Option LexerState
  | 0, l => if l.rest = [] then some l else none
  | n + 1, l => if l.rest = [] then some l else steps n l.step

/-- What is still open at the end. -/
def unclosed (stop : Nat) : Mode → List Diagnostic
  | .str openAt | .multiStr openAt => [⟨openAt, stop, .unterminatedString⟩]
  | .interp openAt _ => [⟨openAt, stop, .unterminatedInterpolation⟩]
  | .code => []

end LexerState

def diagnosticLe (a b : Diagnostic) : Bool := a.start < b.start || (a.start == b.start && a.stop ≤ b.stop)

/-- A step either reads a character or leaves a string at a line break. -/
def lex (src : List Char) : Option (List Token × List Diagnostic) := do
  let l ← LexerState.steps (2 * src.length) ⟨0, none, src, [], [], [.code], []⟩
  let diagnostics := l.diagnostics ++ l.modes.dropLast.flatMap (LexerState.unclosed (byteLength src))
  some (markContinuations l.tokens, diagnostics.mergeSort diagnosticLe)

/-! ## The value of a string -/

/-- The text after a sign, which `from_str_radix` takes. -/
def dropPlus : List Char → List Char
  | '+' :: ds => ds
  | ds => ds

/-- `u32::from_str_radix` of base 16. -/
def fromStrRadix16 (s : List Char) : Option Nat :=
  let ds := dropPlus s
  if ds = [] ∨ ¬ds.all isHexDigit then none
  else if hexValue ds < 2 ^ 32 then some (hexValue ds) else none

/-- `char::from_u32`. -/
def fromU32 (n : Nat) : Option Char := if h : n.isValidChar then some (Char.ofNatAux n h) else none

/-- The loop of `unescape`, where `skip` characters belong to an escape. -/
def unescapeFrom : Nat → List Char → List Char
  | _, [] => []
  | skip + 1, _ :: rest => unescapeFrom skip rest
  | 0, c :: rest =>
    if c ≠ '\\' then c :: unescapeFrom 0 rest
    else
      match rest with
      | [] => ['\\']
      | d :: after =>
        if d = 'n' then '\n' :: unescapeFrom 1 rest
        else if d = 't' then '\t' :: unescapeFrom 1 rest
        else if d = 'r' then '\r' :: unescapeFrom 1 rest
        else if d = 'u' then
          let found := (stripPrefix ['{'] after).bind (splitOnce '}')
          match (found.bind fun p => fromStrRadix16 p.1).bind fromU32 with
          | some v => v :: unescapeFrom (after.idxOf '}' + 2) rest
          | none => '\\' :: 'u' :: unescapeFrom 1 rest
        else if d = '"' ∨ d = '\\' ∨ d = '#' then d :: unescapeFrom 1 rest
        else '\\' :: d :: unescapeFrom 1 rest

def unescape (text : List Char) : List Char := unescapeFrom 0 text

/-- A child of a STRING node, on which `string_text` and `Lower::string` of `lower.rs` work. -/
inductive StringChild (ε : Type) where
  | token (t : Token)
  | interp (e : ε)

variable {ε : Type}

def StringChild.isTripleQuote : StringChild ε → Bool
  | .token t => t.kind = .tripleQuote
  | .interp _ => false

/-- One line of a multiline string without the indentation. -/
def unindent (indent : List Char) (inside : Bool) (line : List Char) : List Char :=
  if inside then line
  else if indent.isPrefixOf line then line.drop indent.length
  else if trim line = [] then line.dropWhile fun c => c = ' ' || c = '\t'
  else line

/-- The value of a STRING_TEXT token between the other children. -/
def stringText (before : List (StringChild ε)) (text : List Char) (after : List (StringChild ε)) : List Char :=
  if before.head?.any StringChild.isTripleQuote then
    let first := before.getLast?.any StringChild.isTripleQuote
    let last := after.head?.any StringChild.isTripleQuote
    let indent := match after.getLast? with
      | some (.token t) => if t.kind = .tripleQuote then (stripSuffix (List.replicate 3 '"') t.text).getD [] else []
      | _ => []
    let text := if first then ((stripPrefix ['\r', '\n'] text).or (stripPrefix ['\n'] text)).getD text else text
    let text := if last then ((stripSuffix ['\r', '\n'] text).or (stripSuffix ['\n'] text)).getD text else text
    let lines := (text.splitOn '\n').mapIdx fun i line => unindent indent (i = 0 && !first) line
    unescape (['\n'].intercalate lines)
  else unescape text

inductive StrPart (ε : Type) where
  | text (s : List Char)
  | interp (e : ε)

inductive StringKind (ε : Type) where
  | lit (s : List Char)
  | interpolated (parts : List (StrPart ε))

/-- A part after others, joined where both are texts. -/
def pushPart (parts : List (StrPart ε)) (part : StrPart ε) : List (StrPart ε) :=
  match parts.getLast?, part with
  | some (.text prev), .text s => parts.dropLast ++ [.text (prev ++ s)]
  | _, _ => parts ++ [part]

/-- The loop over the children that follow `before`. -/
def stringParts (before : List (StringChild ε)) (parts : List (StrPart ε)) : List (StringChild ε) → List (StrPart ε)
  | [] => parts
  | child :: after =>
    let parts := match child with
      | .token t => if t.kind = .stringText then pushPart parts (.text (stringText before t.text after)) else parts
      | .interp e => pushPart parts (.interp e)
    stringParts (before ++ [child]) parts after

/-- `Lower::string`. -/
def lowerString (children : List (StringChild ε)) : StringKind ε :=
  match stringParts [] [] children with
  | [] => .lit []
  | [.text s] => .lit s
  | parts => .interpolated parts

end Emela.Lexer
