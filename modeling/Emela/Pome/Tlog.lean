import Emela.Lib.Merkle

/-!
# The tree of the checksum database

`sumdb/tlog.rs`: an RFC 6962 Merkle tree published as tiles. A tile of level `L` holds the hashes of
the complete subtrees of height `8L`, 256 to a tile. No proofs are sent: the client rebuilds the root
of a signed checkpoint from tiles.

SHA-256 is the parameter `sha256`. Sizes and indices are the source's `u64` as natural numbers.
-/

namespace Emela.Pome

/-- `[u8; 32]`. -/
abbrev Hash := Vector UInt8 32

abbrev TILE_HEIGHT : Nat := 8
abbrev TILE_WIDTH : Nat := 2 ^ TILE_HEIGHT

/-- What `record_hash` hashes. -/
def recordInput (record : List UInt8) : List UInt8 := 0x00 :: record

/-- What `node_hash` hashes. -/
def nodeInput (left right : Hash) : List UInt8 := 0x01 :: (left.toList ++ right.toList)

structure Tile where
  level : Nat
  index : Nat
  width : Nat
deriving DecidableEq

/-- Where tiles come from. The state `σ` lets a source answer by the history of the requests. -/
structure TileSource (σ ε : Type) where
  tile : σ → Tile → Except ε (List UInt8 × σ)

inductive ProofError (ε : Type) where
  | source (e : ε)
  | badTile (tile : Tile)
  | mismatch

/-- The reader of a tree of a given size. `hashed` is no field of the source: it lists the inputs
given to SHA-256 so far, which is what an assumption about collisions speaks of. -/
structure TreeReader (σ : Type) where
  size : Nat
  source : σ
  tiles : Tile → Option (List UInt8)
  hashed : List (List UInt8)

def TreeReader.new {σ : Type} (size : Nat) (source : σ) : TreeReader σ :=
  { size, source, tiles := fun _ => none, hashed := [] }

/-- A method of the reader. -/
abbrev Read (σ ε α : Type) := StateT (TreeReader σ) (Except (ProofError ε)) α

section
variable {σ ε : Type} (sha256 : List UInt8 → Hash) (src : TileSource σ ε)

/-! ## Hashing -/

/-- One call of SHA-256. -/
def digest (input : List UInt8) : Read σ ε Hash := fun r =>
  .ok (sha256 input, { r with hashed := input :: r.hashed })

def recordHash (record : List UInt8) : Read σ ε Hash := digest sha256 (recordInput record)

def nodeHash (left right : Hash) : Read σ ε Hash := digest sha256 (nodeInput left right)

/-- `hashes.chunks(2).map(node_hash)`. The lists folded have a power of two of elements, so the
last chunk is never a single hash. -/
def foldLevel : List Hash → Read σ ε (List Hash)
  | a :: b :: rest => do
      let h ← nodeHash sha256 a b
      let hs ← foldLevel rest
      return h :: hs
  | rest => return rest

/-- `while hashes.len() > 1 { .. } hashes[0]`. Each round halves the list, so its length bounds the
number of rounds. -/
def fold : Nat → List Hash → Read σ ε Hash
  | 0, hashes => return hashes.headD default
  | fuel + 1, hashes =>
      if hashes.length > 1 then do
        let hs ← foldLevel sha256 hashes
        fold fuel hs
      else return hashes.headD default

/-! ## Reading tiles -/

/-- The hash at position `i` of a tile: `data[i * 32..i * 32 + 32]`. -/
def hashAt (data : List UInt8) (i : Nat) : Hash := Vector.ofFn fun j => data.getD (32 * i + j) 0

/-- The tile of a tree of size `size` with the hash of the subtree of height `8 * level` at
index `i`. -/
def tileOf (size level i : Nat) : Tile where
  level := level
  index := i / TILE_WIDTH
  width := min ((size >>> (level * TILE_HEIGHT)) - i / TILE_WIDTH * TILE_WIDTH) TILE_WIDTH

/-- The contents of a tile: those read before, else those of the source if they have the right
length. -/
def tileData (tile : Tile) : Read σ ε (List UInt8) := fun r =>
  match r.tiles tile with
  | some d => .ok (d, r)
  | none =>
      match src.tile r.source tile with
      | .error e => .error (.source e)
      | .ok (d, source) =>
          if d.length ≠ tile.width * 32 then .error (.badTile tile)
          else .ok (d, { r with source, tiles := Function.update r.tiles tile (some d) })

/-- The complete subtree of height `height` at `index`. -/
def subtree (height index : Nat) : Read σ ε Hash := fun r => do
  let level := height / TILE_HEIGHT
  let span := 2 ^ (height % TILE_HEIGHT)
  let first := index * span
  let (data, r) ← tileData src (tileOf r.size level first) r
  let start := first - first / TILE_WIDTH * TILE_WIDTH
  let hashes := (List.range' start span).map (hashAt data)
  fold sha256 hashes.length hashes r

/-! ## Ranges -/

/-- RFC 6962 `MTH` over the leaves `[lo, hi)`, with the leaf of `leaf` replaced. An aligned range of
a power of two without the replaced leaf is one stored subtree. -/
def range (lo hi : Nat) (leaf : Option (Nat × Hash)) : Read σ ε Hash :=
  let width := hi - lo
  let leaf := leaf.filter fun (i, _) => lo ≤ i && i < hi
  match leaf.filter fun _ => width == 1 with
  | some (_, h) => return h
  | none =>
      if leaf.isNone && width == 2 ^ width.log2 && lo % width == 0 then
        subtree sha256 src width.log2 (lo / width)
      else if _h : 2 ≤ width then do
        let k := 2 ^ (width - 1).log2
        let left ← range lo (lo + k) leaf
        let right ← range (lo + k) hi leaf
        nodeHash sha256 left right
      else return default -- a width of 0 or 1 has returned above
termination_by hi - lo
decreasing_by
  · have : 2 ^ (hi - lo - 1).log2 < hi - lo := Merkle.split_lt _h
    omega
  · have := Nat.two_pow_pos (hi - lo - 1).log2
    have : 2 ≤ hi - lo := _h
    omega

/-- The root of the first `n` leaves. -/
def root (n : Nat) : Read σ ε Hash :=
  if n = 0 then digest sha256 [] else range sha256 src 0 n none

/-- The root of the first `n` leaves with leaf `index` replaced by `leaf`. -/
def rootWithLeaf (n index : Nat) (leaf : Hash) : Read σ ε Hash :=
  range sha256 src 0 n (some (index, leaf))

/-! ## Verification -/

/-- Whether `record` is leaf `index` of the tree whose signed root is `root`. The reader comes back
with the answer for the sake of `hashed`. -/
def verifyInclusion (source : σ) (size : Nat) (root : Hash) (index : Nat) (record : List UInt8) :
    Except (ProofError ε) (Unit × TreeReader σ) :=
  if index ≥ size then .error .mismatch
  else
    (do
      let leaf ← recordHash sha256 record
      let rebuilt ← rootWithLeaf sha256 src size index leaf
      if rebuilt = root then return () else throw .mismatch :
      Read σ ε Unit) (TreeReader.new size source)

/-- Whether the tree of `oldSize` is a prefix of the tree of `newSize`. -/
def verifyConsistency (source : σ) (oldSize : Nat) (oldRoot : Hash) (newSize : Nat) (newRoot : Hash) :
    Except (ProofError ε) (Unit × TreeReader σ) :=
  if oldSize > newSize then .error .mismatch
  else
    (do
      let new ← root sha256 src newSize
      if new ≠ newRoot then throw .mismatch
      let old ← root sha256 src oldSize
      if old ≠ oldRoot then throw .mismatch :
      Read σ ε Unit) (TreeReader.new newSize source)

end

/-! ## What the tree means -/

/-- The node hash as a function, without the record of the call. -/
def node (sha256 : List UInt8 → Hash) (left right : Hash) : Hash := sha256 (nodeInput left right)

/-- RFC 6962 `MTH` of a sequence of leaf hashes. -/
def mth (sha256 : List UInt8 → Hash) (leaves : List Hash) : Hash :=
  Merkle.treeHash (node sha256) (sha256 []) leaves

/-- The inputs hashed by `mth`. -/
def mthInputs (sha256 : List UInt8 → Hash) (leaves : List Hash) : List (List UInt8) :=
  if leaves = [] then [[]]
  else (Merkle.rangePairs (node sha256) (fun i => leaves.getD i default) 0 leaves.length).map
    fun (l, r) => nodeInput l r

/-- SHA-256 has no collision among the inputs. -/
def NoCollision (sha256 : List UInt8 → Hash) (inputs : List (List UInt8)) : Prop :=
  ∀ x ∈ inputs, ∀ y ∈ inputs, sha256 x = sha256 y → x = y

end Emela.Pome
