import Mathlib.Data.List.Basic

/-!
# Line continuation

`mark_continuations` of `lexer/continuation.rs`.
-/

namespace Emela.Lexer

/-- The kinds of tokens. -/
inductive SyntaxKind where
  | whitespace | newline | newlineCont | comment | docComment
  | int | float | stringQuote | tripleQuote | stringText | interpStart | interpEnd
  | lowerName | typeName | upperName | underscore
  | fnKw | typeKw | enumKw | errorKw | constKw | traitKw | implKw | effectKw | handlerKw | layerKw | importKw | pubKw
  | opaqueKw | suspendKw | ifKw | elseKw | matchKw | failKw | escapeKw | useKw | withKw | assertKw | selfKw | selfTypeKw
  | asKw | reservedKw
  | lParen | rParen | lBrack | rBrack | lBrace | rBrace | comma | dot | dot2 | colon | eq | thinArrow | pipe | pipeGt
  | plus | minus | star | slash | percent | bang | eq2 | neq | lt | ltEq | gt | gtEq | amp2 | pipe2 | at
  | errorToken
deriving DecidableEq

def SyntaxKind.isTrivia : SyntaxKind → Bool
  | .whitespace | .newlineCont | .comment | .docComment => true
  | _ => false

/-- A token with its text, for which the source has a range. -/
structure Token where
  kind : SyntaxKind
  text : List Char
deriving DecidableEq

/-- Neither trivia nor a line break. -/
def Token.significant (t : Token) : Bool := ! t.kind.isTrivia && t.kind != .newline

/-! ## Continuations -/

/-- Where a line stands in the error set of a `fails` clause. -/
inductive ErrorSet where
  | outside
  | beforeItem
  | afterItem
  | afterDot
deriving DecidableEq

def ErrorSet.next (self : ErrorSet) (token : Token) : ErrorSet :=
  if token.kind = .lowerName ∧ token.text = "fails".toList then .beforeItem
  else match self, token.kind with
    | .beforeItem, .typeName | .afterDot, .typeName => .afterItem
    | .beforeItem, .upperName => .afterItem
    | .afterItem, .dot => .afterDot
    | .afterItem, .pipe => .beforeItem
    | _, _ => .outside

def nextSignificant (rest : List Token) : Option Token := rest.find? (·.significant)

def postfixMatchFollows (rest : List Token) : Bool :=
  match rest.filter (·.significant) with
  | first :: second :: _ => first.kind == .matchKw && second.kind == .lBrace
  | _ => false

def startsClause (rest : List Token) : Bool :=
  match rest.dropWhile (! ·.significant) with
  | [] => false
  | first :: after =>
    first.kind == .lowerName && (first.text == "fails".toList || first.text == "uses".toList) &&
      match after.find? (! ·.kind.isTrivia) with
      | some t => t.kind == .typeName || t.kind == .upperName || t.kind == .lBrace
      | none => false

def startsContinuation : SyntaxKind → Bool
  | .star | .slash | .percent | .plus | .eq2 | .neq | .lt | .ltEq | .gt | .gtEq | .amp2 | .pipeGt | .dot | .escapeKw
  | .elseKw | .thinArrow => true
  | _ => false

/-- Whether a line break outside `(`, `[` and interpolations continues the line, by what follows it. -/
def continues (errorSet : ErrorSet) (rest : List Token) : Bool :=
  let next := nextSignificant rest
  next.any (startsContinuation ·.kind) || postfixMatchFollows rest || startsClause rest ||
    (errorSet == .afterItem && next.any (·.kind == .pipe))

/-- The innermost open bracket is `(`, `[` or `#\x7b`. -/
def joinsLines (stack : List SyntaxKind) : Bool :=
  match stack.head? with
  | some .lParen | some .lBrack | some .interpStart => true
  | _ => false

/-- The open brackets after a token. -/
def nextStack (stack : List SyntaxKind) (kind : SyntaxKind) : List SyntaxKind :=
  match kind with
  | .lParen | .lBrack | .lBrace | .interpStart => kind :: stack
  | .rParen | .rBrack | .rBrace | .interpEnd => stack.tail
  | _ => stack

/-- The loop of `mark_continuations`, with the tokens still to come. -/
def markFrom (stack : List SyntaxKind) (errorSet : ErrorSet) : List Token → List Token
  | [] => []
  | t :: rest =>
    let errorSet := if t.significant then errorSet.next t else errorSet
    if t.kind = .newline then
      if joinsLines stack || continues errorSet rest then
        { t with kind := .newlineCont } :: markFrom stack errorSet rest
      else t :: markFrom stack .outside rest
    else t :: markFrom (nextStack stack t.kind) errorSet rest

def markContinuations (tokens : List Token) : List Token := markFrom [] .outside tokens

end Emela.Lexer
