import Mathlib.Data.List.Basic

/-!
# Reading expressions

`parser/grammar/expressions.rs`: `expr`, `expr_bp` and `unary` on the tokens the parser sees. An operand that is no
anonymous function is one token here, with what `primary` and `postfix_ops` read for it; so are the parameters of an
anonymous function, and what stands between braces. The guard of the parser against standing still is left out.
-/

namespace Emela.Syntax

/-! ## Tokens -/

/-- The kinds of the binary operators. -/
inductive Operator where
  | pipeGt | pipe2 | amp2 | eq2 | neq | lt | ltEq | gt | gtEq | plus | minus | star | slash | percent
deriving DecidableEq

inductive Keyword where
  | failKw | assertKw
deriving DecidableEq

inductive ArmsKeyword where
  | escapeKw | matchKw
deriving DecidableEq

/-- `op .minus` is also the sign and `op .pipe2` also the empty list of parameters. `other` is a token that starts no
operand; `recovery` says whether it belongs to what follows the expression. -/
inductive Token (α : Type) where
  | operand (a : α)
  | braces (a : α)
  | params (a : α)
  | op (k : Operator)
  | bang
  | keyword (k : Keyword)
  | arms (k : ArmsKeyword)
  | other (recovery : Bool)
deriving DecidableEq

/-- Higher binds tighter. -/
def infixPower : Operator → Nat
  | .pipeGt => 1
  | .pipe2 => 2
  | .amp2 => 3
  | .eq2 | .neq | .lt | .ltEq | .gt | .gtEq => 4
  | .plus | .minus => 5
  | .star | .slash | .percent => 6

/-- The power of the comparisons, which do not associate. -/
def isComparison (k : Operator) : Bool := infixPower k == 4

/-! ## Trees -/

inductive PrefixOp where
  | bang | minus
deriving DecidableEq

/-- The nodes of an expression. `missing` stands where none was read. -/
inductive Tree (α : Type) where
  | missing
  | operand (a : α)
  | block (a : α)
  | prefixExpr (op : PrefixOp) (t : Tree α)
  | lambdaExpr (params : Option α) (body : Tree α)
  | binExpr (l : Tree α) (k : Operator) (r : Tree α)
  | keywordExpr (k : Keyword) (t : Tree α)
  | armsExpr (k : ArmsKeyword) (t : Tree α) (arms : Option α)
  | prefixMatch (t : Tree α) (arms : Option α)
deriving DecidableEq

/-! ## The parser -/

inductive Error where
  | chainedComparison | expectedExpression | expectedToken | prefixMatch
deriving DecidableEq

structure Parser (α : Type) where
  tokens : List (Token α)
  errors : List Error
deriving DecidableEq

section
variable {α : Type}

def Parser.error (p : Parser α) (e : Error) : Parser α := { p with errors := p.errors ++ [e] }

/-- `err_recover` of `primary`. -/
def Parser.errRecover (p : Parser α) : Parser α :=
  match p.tokens with
  | [] | .other true :: _ => p.error .expectedExpression
  | _ :: rest => { tokens := rest, errors := p.errors ++ [.expectedExpression] }

/-- `arm_list`, whose arms are one token. -/
def armList (p : Parser α) : Option α × Parser α :=
  match p.tokens with
  | .braces a :: rest => (some a, { p with tokens := rest })
  | _ => (none, p.error .expectedToken)

/-- The loop of `expr` over `escape` and `match`. -/
def armsLoop (lhs : Tree α) : List (Token α) → List Error → Tree α × Parser α
  | .arms k :: .braces a :: rest, errors => armsLoop (.armsExpr k lhs (some a)) rest errors
  | .arms k :: rest, errors => armsLoop (.armsExpr k lhs none) rest (errors ++ [.expectedToken])
  | tokens, errors => (lhs, { tokens, errors })

mutual

/-- The first argument bounds the depth of the calls. -/
def expr : Nat → Parser α → Option (Tree α × Parser α)
  | 0, _ => none
  | n + 1, p => match p.tokens with
    | .keyword k :: rest => do
        let (t, p) ← expr n { p with tokens := rest }
        return (.keywordExpr k t, p)
    | _ => do
        let (lhs, p) ← exprBp n 0 p
        match lhs with
        | .missing => return (.missing, p)
        | lhs => return armsLoop lhs p.tokens p.errors

/-- Binary operators of strength `min` or more. -/
def exprBp : Nat → Nat → Parser α → Option (Tree α × Parser α)
  | 0, _, _ => none
  | n + 1, min, p => do
      let (lhs, p) ← unary n p
      match lhs with
      | .missing => return (.missing, p)
      | lhs => binLoop n min lhs false p

/-- The loop of `expr_bp`. -/
def binLoop : Nat → Nat → Tree α → Bool → Parser α → Option (Tree α × Parser α)
  | 0, _, _, _, _ => none
  | n + 1, min, lhs, afterComparison, p => match p.tokens with
    | .op k :: rest =>
        if infixPower k < min then some (lhs, p)
        else do
          let chained := if isComparison k && afterComparison then [Error.chainedComparison] else []
          let (r, p) ← exprBp n (infixPower k + 1) { tokens := rest, errors := p.errors ++ chained }
          binLoop n min (.binExpr lhs k r) (isComparison k) p
    | _ => some (lhs, p)

def unary : Nat → Parser α → Option (Tree α × Parser α)
  | 0, _ => none
  | n + 1, p => match p.tokens with
    | .params a :: rest => do
        let (t, p) ← expr n { p with tokens := rest }
        return (.lambdaExpr (some a) t, p)
    | .op .pipe2 :: rest => do
        let (t, p) ← expr n { p with tokens := rest }
        return (.lambdaExpr none t, p)
    | .bang :: rest => do
        let (t, p) ← unary n { p with tokens := rest }
        return (.prefixExpr .bang t, p)
    | .op .minus :: rest => do
        let (t, p) ← unary n { p with tokens := rest }
        return (.prefixExpr .minus t, p)
    | _ => primary n p

def primary : Nat → Parser α → Option (Tree α × Parser α)
  | 0, _ => none
  | n + 1, p => match p.tokens with
    | .operand a :: rest => some (.operand a, { p with tokens := rest })
    | .braces a :: rest => some (.block a, { p with tokens := rest })
    | .arms .matchKw :: rest => do
        let (t, p) ← expr n { tokens := rest, errors := p.errors ++ [.prefixMatch] }
        let (arms, p) := armList p
        return (.prefixMatch t arms, p)
    | _ => some (.missing, p.errRecover)

end

/-- A depth that is enough for the tokens. -/
def Parser.depth (p : Parser α) : Nat := 4 * p.tokens.length + 4

/-- `expr_bp(p, 0)`. -/
def Parser.operators (p : Parser α) : Option (Tree α × Parser α) := exprBp p.depth 0 p

/-! ## What a tree says -/

namespace Tree

def prefixToken : PrefixOp → Token α
  | .bang => .bang
  | .minus => .op .minus

/-- `|..|`, or `||` without parameters. -/
def paramsToken : Option α → Token α
  | some a => .params a
  | none => .op .pipe2

/-- The tokens of a tree, from left to right. -/
def tokens : Tree α → List (Token α)
  | missing => []
  | operand a => [.operand a]
  | block a => [.braces a]
  | prefixExpr op t => prefixToken op :: t.tokens
  | lambdaExpr ps t => paramsToken ps :: t.tokens
  | binExpr l k r => l.tokens ++ .op k :: r.tokens
  | keywordExpr k t => .keyword k :: t.tokens
  | armsExpr k t a => t.tokens ++ .arms k :: a.toList.map .braces
  | prefixMatch t a => .arms .matchKw :: t.tokens ++ a.toList.map .braces

/-- The levels of the grammar an expression is made of, from the inside. -/
inductive Level where
  | operand | operators | arms | expression
deriving DecidableEq

/-- A tree with nothing missing, of a level. Parentheses are part of an operand. -/
inductive Is : Level → Tree α → Prop where
  | operand {a} : Is .operand (operand a)
  | block {a} : Is .operand (block a)
  | prefixExpr {op t} : Is .operand t → Is .operand (prefixExpr op t)
  | lambdaExpr {ps t} : Is .expression t → Is .operand (lambdaExpr ps t)
  | single {t} : Is .operand t → Is .operators t
  | binExpr {l k r} : Is .operators l → Is .operators r → Is .operators (binExpr l k r)
  | operators {t} : Is .operators t → Is .arms t
  | armsExpr {k t a} : Is .arms t → Is .arms (armsExpr k t (some a))
  | expression {t} : Is .arms t → Is .expression t
  | keywordExpr {k t} : Is .expression t → Is .expression (keywordExpr k t)

/-- The operator of a tree. -/
def top : Tree α → Option Operator
  | binExpr _ k _ => some k
  | _ => none

/-- Operators group by their power and associate to the left. -/
def Grouped : Tree α → Prop
  | binExpr l k r =>
      (∀ k' ∈ l.top, infixPower k ≤ infixPower k') ∧ (∀ k' ∈ r.top, infixPower k < infixPower k') ∧
        l.Grouped ∧ r.Grouped
  | prefixExpr _ t | lambdaExpr _ t | keywordExpr _ t | armsExpr _ t _ | prefixMatch t _ => t.Grouped
  | _ => True

/-- The last token belongs to an anonymous function in operand position. -/
def endsInLambda : Tree α → Bool
  | lambdaExpr _ _ => true
  | prefixExpr _ t | keywordExpr _ t => t.endsInLambda
  | binExpr _ _ r => r.endsInLambda
  | _ => false

/-- Nothing follows an anonymous function in its expression. -/
def LambdasLast : Tree α → Prop
  | binExpr l _ r => l.endsInLambda = false ∧ l.LambdasLast ∧ r.LambdasLast
  | armsExpr _ t _ => t.endsInLambda = false ∧ t.LambdasLast
  | prefixExpr _ t | lambdaExpr _ t | keywordExpr _ t | prefixMatch t _ => t.LambdasLast
  | _ => True

/-- The operator of the tree is a comparison. -/
def comparison (t : Tree α) : Bool := t.top.any isComparison

/-- What is reported for a tree with nothing missing. -/
def reports : Tree α → List Error
  | binExpr l k r => l.reports ++ (if isComparison k && l.comparison then [.chainedComparison] else []) ++ r.reports
  | prefixExpr _ t | lambdaExpr _ t | keywordExpr _ t | armsExpr _ t _ | prefixMatch t _ => t.reports
  | _ => []

end Tree

end

end Emela.Syntax
