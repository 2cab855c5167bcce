import Emela.Stdlib.Core
import Emela.Lib.Ascending

/-!
# Maps from keys to values, in key order

The tree is weight balanced. A rotation takes the heavy child as its parts, so that no rotation has a
branch that cannot happen. A panic gives `none`.
-/

namespace Emela.Stdlib

/-- `size` counts the keys of the whole subtree. The keys in `left` are smaller than `key`, and those in
`right` are larger. -/
inductive Map (K V : Type) where
  | Empty
  | Node (size : Int32) (key : K) (value : V) (left right : Map K V)
  deriving DecidableEq

/-- A child may weigh up to `DELTA` times its sibling. -/
def DELTA : Int32 := 3

/-- The heavy child is rotated once when its inner child weighs less than `RATIO` times its outer one. -/
def RATIO : Int32 := 2

namespace Map

variable {K V W B : Type}

def empty : Map K V := Empty

def size : Map K V → Int32
  | Empty => 0
  | Node n _ _ _ _ => n

/-! ## Balancing -/

/-- The node of `key` over `left` and `right`, with its size. -/
def node (key : K) (value : V) (left right : Map K V) : Map K V :=
  Node (size left + size right + 1) key value left right

/-- Whether `heavy` weighs more than `DELTA` times its sibling `light`. A node over one key or none is never
rotated. -/
def tooHeavy (heavy light : Map K V) : Bool :=
  size heavy + size light > 1 && size heavy > DELTA * size light

/-- The node of `key` over `left` and a too heavy right side, whose parts are `rightKey`, `rightValue`, `inner` and
`outer`, rotated to the left. -/
def rotateLeft (key : K) (value : V) (left : Map K V) (rightKey : K) (rightValue : V) (inner outer : Map K V) :
    Map K V :=
  let twice : Bool := size inner ≥ RATIO * size outer
  match inner, twice with
  | Node _ innerKey innerValue innerLeft innerRight, true =>
    node innerKey innerValue (node key value left innerLeft) (node rightKey rightValue innerRight outer)
  | _, _ => node rightKey rightValue (node key value left inner) outer

/-- The mirror image of `rotateLeft`: the left side comes in as its parts. -/
def rotateRight (leftKey : K) (leftValue : V) (outer inner : Map K V) (key : K) (value : V) (right : Map K V) :
    Map K V :=
  let twice : Bool := size inner ≥ RATIO * size outer
  match inner, twice with
  | Node _ innerKey innerValue innerLeft innerRight, true =>
    node innerKey innerValue (node leftKey leftValue outer innerLeft) (node key value innerRight right)
  | _, _ => node leftKey leftValue outer (node key value inner right)

/-- The node of `key` over `left` and `right`, rotated if one side got too heavy. The two sides were balanced
before one key was inserted into or removed from one of them. -/
def balance (key : K) (value : V) (left right : Map K V) : Map K V :=
  let rightHeavy := tooHeavy right left
  let leftHeavy := tooHeavy left right
  match right, rightHeavy with
  | Node _ rightKey rightValue inner outer, true => rotateLeft key value left rightKey rightValue inner outer
  | _, _ => match left, leftHeavy with
    | Node _ leftKey leftValue outer inner, true => rotateRight leftKey leftValue outer inner key value right
    | _, _ => node key value left right

/-- The smallest key of the node of `key` over `left` and `right`, its value, and the node without it. -/
def removeMin (key : K) (value : V) (left right : Map K V) : K × V × Map K V :=
  match left with
  | Empty => (key, value, right)
  | Node _ leftKey leftValue leftLeft leftRight =>
    let (minKey, minValue, rest) := removeMin leftKey leftValue leftLeft leftRight
    (minKey, minValue, balance key value rest right)

/-- The largest key of the node of `key` over `left` and `right`, its value, and the node without it. -/
def removeMax (key : K) (value : V) (left right : Map K V) : K × V × Map K V :=
  match right with
  | Empty => (key, value, left)
  | Node _ rightKey rightValue rightLeft rightRight =>
    let (maxKey, maxValue, rest) := removeMax rightKey rightValue rightLeft rightRight
    (maxKey, maxValue, balance key value left rest)

/-- The children of a removed node joined. The larger side gives up its key nearest the other. -/
def glue (left right : Map K V) : Map K V :=
  match left, right with
  | Empty, _ => right
  | _, Empty => left
  | Node _ leftKey leftValue leftLeft leftRight, Node _ rightKey rightValue rightLeft rightRight =>
    if size left > size right then
      let (maxKey, maxValue, rest) := removeMax leftKey leftValue leftLeft leftRight
      balance maxKey maxValue rest right
    else
      let (minKey, minValue, rest) := removeMin rightKey rightValue rightLeft rightRight
      balance minKey minValue left rest

/-! ## One key -/

section
variable [Ord K]

def insert (m : Map K V) (key : K) (value : V) : Map K V :=
  match m with
  | Empty => node key value Empty Empty
  | Node size nodeKey nodeValue left right => match compare key nodeKey with
    | .lt => balance nodeKey nodeValue (insert left key value) right
    | .gt => balance nodeKey nodeValue left (insert right key value)
    | .eq => Node size key value left right

def remove (m : Map K V) (key : K) : Map K V :=
  match m with
  | Empty => Empty
  | Node _ nodeKey nodeValue left right => match compare key nodeKey with
    | .lt => balance nodeKey nodeValue (remove left key) right
    | .gt => balance nodeKey nodeValue left (remove right key)
    | .eq => glue left right

def get (m : Map K V) (key : K) : Option V :=
  match m with
  | Empty => none
  | Node _ nodeKey value left right => match compare key nodeKey with
    | .lt => get left key
    | .gt => get right key
    | .eq => some value

def contains (m : Map K V) (key : K) : Bool := (get m key).isSome

/-- `f` gets the value of `key`. `some` sets the value, and `none` removes the key. -/
def update (m : Map K V) (key : K) (f : Option V → Option V) : Map K V :=
  match f (get m key) with
  | some value => insert m key value
  | none => remove m key

/-- A key given twice takes its later value. -/
def fromList (pairs : List (K × V)) : Map K V :=
  Lists.fold pairs empty fun m (key, value) => insert m key value

end

/-! ## In key order -/

def fold (m : Map K V) (start : B) (f : B → K → V → B) : B :=
  match m with
  | Empty => start
  | Node _ key value left right => fold right (f (fold left start f) key value) f

/-- The pairs of `m` in key order, in front of `acc`. -/
def toListOnto (m : Map K V) (acc : List (K × V)) : List (K × V) :=
  match m with
  | Empty => acc
  | Node _ key value left right => toListOnto left ((key, value) :: toListOnto right acc)

def toList (m : Map K V) : List (K × V) := toListOnto m []

def keys (m : Map K V) : List K := Lists.map (toList m) fun (key, _) => key

def values (m : Map K V) : List V := Lists.map (toList m) fun (_, value) => value

/-- `f` on each value. The keys stay. -/
def mapValues (m : Map K V) (f : V → W) : Map K W :=
  match m with
  | Empty => Empty
  | Node size key value left right => Node size key (f value) (mapValues left f) (mapValues right f)

/-! ## Lists of pairs -/

theorem toInt_pred {n : Int32} (h : ¬n ≤ 0) : (n - 1).toInt = n.toInt - 1 ∧ 0 < n.toInt := by
  have hpos : 0 < n.toInt := by simpa [Int32.le_iff_toInt_le] using h
  have hone : (1 : Int32).toInt = 1 := rfl
  have hlt := n.toInt_lt
  refine ⟨?_, hpos⟩
  rw [toInt_sub_of_fits] <;> omega

theorem toInt_half {n : Int32} (h : ¬n ≤ 0) : ((n - 1) / 2).toInt = (n.toInt - 1) / 2 := by
  obtain ⟨hpred, hpos⟩ := toInt_pred h
  rw [Int32.toInt_div_of_ne_right _ _ (by decide), hpred]
  exact Int.tdiv_eq_ediv_of_nonneg (by omega)

theorem toInt_rest {n : Int32} (h : ¬n ≤ 0) : (n - 1 - (n - 1) / 2).toInt = n.toInt - 1 - (n.toInt - 1) / 2 := by
  obtain ⟨hpred, hpos⟩ := toInt_pred h
  have hlt := n.toInt_lt
  rw [toInt_sub_of_fits] <;> rw [hpred, toInt_half h] <;> omega

/-- A balanced tree of the first `count` pairs, and the pairs after them. -/
def build (pairs : List (K × V)) (count : Int32) : Option (Map K V × List (K × V)) :=
  if h : count ≤ 0 then some (Empty, pairs)
  else
    let leftCount := (count - 1) / 2
    (build pairs leftCount).bind fun (left, rest) =>
      match rest with
      | (key, value) :: after =>
        (build after (count - 1 - leftCount)).map fun (right, remaining) => (node key value left right, remaining)
      -- `fromSorted` asks for no more pairs than there are
      | [] => none
termination_by count.toInt.toNat
decreasing_by
  · have := toInt_pred h
    have := toInt_half h
    omega
  · have := toInt_pred h
    have := toInt_rest h
    omega

/-- The map of pairs already in strictly increasing key order, balanced. -/
def fromSorted (pairs : List (K × V)) : Option (Map K V) :=
  (build pairs (Lists.length pairs)).map Prod.fst

/-- Two key-ordered lists merged, `xs` taken on equal keys. The merged front is kept reversed in `acc` and
turned around at the end. -/
def unionOnto [Ord K] (xs ys acc : List (K × V)) : List (K × V) :=
  match xs, ys with
  | [], ys => Lists.append (Lists.reverse acc) ys
  | xs, [] => Lists.append (Lists.reverse acc) xs
  | x :: xsRest, y :: ysRest => match compare x.1 y.1 with
    | .lt => unionOnto xsRest (y :: ysRest) (x :: acc)
    | .gt => unionOnto (x :: xsRest) ysRest (y :: acc)
    | .eq => unionOnto xsRest ysRest (x :: acc)
termination_by xs.length + ys.length

/-- The pairs for which `f` is true. -/
def filter (m : Map K V) (f : K → V → Bool) : Option (Map K V) :=
  fromSorted (Lists.filter (toList m) fun (key, value) => f key value)

/-- The keys of both. A key in both takes its value in `a`. -/
def union [Ord K] (a b : Map K V) : Option (Map K V) := fromSorted (unionOnto (toList a) (toList b) [])

end Map

/-! ## What the public operations make

A map is made by a sequence of public operations. What it stands for is a finite map: the entry it has for
a key, the pair of the key it keeps and its value. -/

variable {K V : Type}

/-- How a map is made. -/
inductive Expr (K : Type) : Type → Type 1 where
  | empty {V : Type} : Expr K V
  | fromList {V : Type} (pairs : List (K × V)) : Expr K V
  | insert {V : Type} (m : Expr K V) (key : K) (value : V) : Expr K V
  | remove {V : Type} (m : Expr K V) (key : K) : Expr K V
  | update {V : Type} (m : Expr K V) (key : K) (f : Option V → Option V) : Expr K V
  | filter {V : Type} (m : Expr K V) (f : K → V → Bool) : Expr K V
  | union {V : Type} (a b : Expr K V) : Expr K V
  | mapValues {V W : Type} (m : Expr K V) (f : V → W) : Expr K W

namespace Expr

variable [Ord K]

/-- The map, or `none` when an operation panics. -/
def run {V : Type} : Expr K V → Option (Map K V)
  | empty => some Map.empty
  | fromList pairs => some (Map.fromList pairs)
  | insert m key value => m.run.map (·.insert key value)
  | remove m key => m.run.map (·.remove key)
  | update m key f => m.run.map (·.update key f)
  | filter m f => m.run.bind (·.filter f)
  | union a b => a.run.bind fun a => b.run.bind fun b => a.union b
  | mapValues m f => m.run.map (·.mapValues f)

/-- The finite map: the entry of each key. -/
def model {V : Type} : Expr K V → K → Option (K × V)
  | empty, _ => none
  | fromList pairs, k => Assoc.entryAt k pairs.reverse
  | insert m key value, k => if compare k key = .eq then some (key, value) else m.model k
  | remove m key, k => if compare k key = .eq then none else m.model k
  | update m key f, k =>
    if compare k key = .eq then (f ((m.model key).map Prod.snd)).map fun value => (key, value) else m.model k
  | filter m f, k => (m.model k).filter fun (key, value) => f key value
  | union a b, k => (a.model k).or (b.model k)
  | mapValues m f, k => (m.model k).map fun (key, value) => (key, f value)

end Expr

/-! ## The invariants -/

namespace Map

/-- A strict binary search tree. -/
def Ordered [Ord K] : Map K V → Prop
  | Empty => True
  | Node _ key _ left right =>
    (∀ p ∈ left.toList, compare p.1 key = .lt) ∧ (∀ p ∈ right.toList, compare key p.1 = .lt) ∧
      Ordered left ∧ Ordered right

/-- Each size is the number of entries. -/
def Sized : Map K V → Prop
  | Empty => True
  | Node size key value left right =>
    size.toInt = (Node size key value left right).toList.length ∧ Sized left ∧ Sized right

/-- Two siblings of these sizes are balanced. -/
def Fair (a b : Nat) : Prop := a + b ≤ 1 ∨ a ≤ 3 * b ∧ b ≤ 3 * a

def Balanced : Map K V → Prop
  | Empty => True
  | Node _ _ _ left right => Fair left.toList.length right.toList.length ∧ Balanced left ∧ Balanced right

/-! ## When sizes do not overflow -/

/-- Neither side of the root is so large that, one key larger, `DELTA` times its size overflows. -/
def Roomy : Map K V → Prop
  | Empty => True
  | Node _ _ _ left right => left.toList.length < (2 ^ 31 - 1) / 3 ∧ right.toList.length < (2 ^ 31 - 1) / 3

end Map

/-- The keys of each union, and those each filter keeps, are no more than an `Int` counts. -/
def Expr.Counts [Ord K] {V : Type} : Expr K V → Prop
  | empty => True
  | fromList _ => True
  | insert m _ _ => m.Counts
  | remove m _ => m.Counts
  | update m _ _ => m.Counts
  | filter m f => m.Counts ∧ ∀ t, m.run = some t → (t.toList.filter fun p => f p.1 p.2).length < 2 ^ 31
  | union a b => a.Counts ∧ b.Counts ∧ ∀ s t, a.run = some s → b.run = some t →
      s.toList.length + (t.toList.filter fun p => !s.contains p.1).length < 2 ^ 31
  | mapValues m _ => m.Counts

/-- Besides, a map that a key is set in or removed from is roomy. -/
def Expr.Fits [Ord K] {V : Type} : Expr K V → Prop
  | empty => True
  | fromList pairs => ∀ n < pairs.length, (Map.fromList (pairs.take n)).Roomy
  | insert m _ _ => m.Fits ∧ ∀ t, m.run = some t → t.Roomy
  | remove m _ => m.Fits ∧ ∀ t, m.run = some t → t.Roomy
  | update m _ _ => m.Fits ∧ ∀ t, m.run = some t → t.Roomy
  | filter m f => m.Fits ∧ ∀ t, m.run = some t → (t.toList.filter fun p => f p.1 p.2).length < 2 ^ 31
  | union a b => a.Fits ∧ b.Fits ∧ ∀ s t, a.run = some s → b.run = some t →
      s.toList.length + (t.toList.filter fun p => !s.contains p.1).length < 2 ^ 31
  | mapValues m _ => m.Fits

end Emela.Stdlib
