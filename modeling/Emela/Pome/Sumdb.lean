import Emela.Pome.Records

/-!
# The checksum database client

`fetch/sumdb.rs`, with what it uses of `fetch/transport.rs` and `fetch/cache.rs`. The server and the file
system are outside: each call of the transport and each write to the cache has the answer the state `σ` of
the outside world gives it, so a server may answer anything and differently each time.
-/

namespace Emela.Pome

/-! ## Outside -/

structure Response where
  status : Nat
  body : List UInt8

/-- `Response::text`. -/
def Response.text (res : Response) : Str := trim (fromUtf8Lossy res.body)

inductive FetchError where
  | notFound (m : Str)
  | verify (m : Str)
  | network (m : Str)
  | cache (m : Str)
  | manifest (m : Str)
  | noSource (m : Str)

/-- The network, the machine's `git` and the file system. `fetch` and `versions` are those of `Direct`, `load`
and `store` say whether a file of the cache could be read and whether a place of it could be written, and `read` and
`replace` are for files of the project. -/
structure World (σ : Type) where
  get : Str → σ → Except Str Response × σ
  fetch : SourcePath → Version → σ → Except FetchError (Str × Files) × σ
  versions : SourcePath → σ → Except FetchError (List Version) × σ
  load : Str → σ → Except Str Unit × σ
  store : Str → σ → Except Str Unit × σ
  read : Str → σ → Except Str Str × σ
  replace : Str → σ → Except Str Unit × σ

/-- The cache, by path below its root: the files, and the directories of the versions. -/
structure Cache where
  files : Str → Option (List UInt8)
  dirs : Str → Option Files

/-- `hashed` is no part of the machine: it lists the inputs given to SHA-256 by the checks that passed, which is what
an assumption about collisions speaks of. -/
structure Machine (σ : Type) where
  cache : Cache
  world : σ
  hashed : List (List UInt8)

/-- What a call does to the machine, also when it fails. -/
abbrev Fetch (σ α : Type) := ExceptT FetchError (StateM (Machine σ)) α

def runFetch {σ α : Type} (call : Fetch σ α) (m : Machine σ) : Except FetchError α × Machine σ := call m

section
variable {σ : Type} (world : World σ)

/-- `return Err(e)` unless the condition holds. -/
def require (holds : Bool) (e : FetchError) : Fetch σ Unit := if holds then pure () else throw e

/-- `Transport::get`. -/
def transportGet (url : Str) : Fetch σ (Except Str Response) := fun m =>
  let (answer, w) := world.get url m.world
  (.ok answer, { m with world := w })

/-- `Cache::put_file`: the file is replaced at once, or stays. -/
def putFile (file : Str) (content : List UInt8) : Fetch σ Unit := fun m =>
  match world.store file m.world with
  | (.error e, w) => (.error (.cache e), { m with world := w })
  | (.ok (), w) =>
      (.ok (), { m with
        cache := { m.cache with files := Function.update m.cache.files file (some content) }, world := w })

/-- `Cache::read_file`: a file that cannot be read counts as none. -/
def readFile (file : Str) : Fetch σ (Option (List UInt8)) := fun m =>
  match world.load file m.world with
  | (.error _, w) => (.ok none, { m with world := w })
  | (.ok (), w) => (.ok (m.cache.files file), { m with world := w })

/-! ## The client -/

/-- The path of a tile: the index in groups of three digits, all but the last after an `x`. -/
def Tile.path (tile : Tile) : Str :=
  let partialWidth := if tile.width < TILE_WIDTH then ".p/".toList ++ decimal tile.width else []
  "tile/".toList ++ decimal tile.level ++ ['/'] ++ groups tile.index tile.index (group (tile.index % 1000)) ++ partialWidth
where
  group (n : Nat) : Str := [Nat.digitChar (n / 100), Nat.digitChar (n / 10 % 10), Nat.digitChar (n % 10)]
  /-- The groups before the last one, whose number bounds the rounds. -/
  groups : Nat → Nat → Str → Str
    | 0, _, acc => acc
    | fuel + 1, n, acc =>
        if n / 1000 = 0 then acc
        else groups fuel (n / 1000) ('x' :: group (n / 1000 % 1000) ++ ['/'] ++ acc)

structure SumdbConfig where
  verifier : Verifier
  url : Str

variable (crypto : Crypto) (config : SumdbConfig)

/-- `SumdbClient::bad`. -/
def sumdbBad (message : Str) : FetchError :=
  .verify ("checksum database ".toList ++ config.verifier.name ++ ": ".toList ++ message)

/-- `SumdbClient::proof`. -/
def sumdbProof (e : ProofError FetchError) (mismatch : String) : FetchError :=
  match e with
  | .source e => e
  | .badTile t => sumdbBad config (t.path ++ " has the wrong size".toList)
  | .mismatch => sumdbBad config mismatch.toList

/-- `Tiles`: the tiles come over the transport. -/
def sumdbTiles : TileSource σ FetchError where
  tile w tile :=
    let url := config.url ++ ['/'] ++ tile.path
    match world.get url w with
    | (.error m, _) => .error (.network m)
    | (.ok res, w) =>
        if res.status ≠ 200 then .error (.network ("GET ".toList ++ url ++ ": ".toList ++ decimal res.status))
        else .ok (res.body, w)

/-- A check of the tree log run by the client. The tiles read are forgotten with the reader. Where the check
fails the call fails with it, and the world of before stands for the one after. -/
def runCheck (check : σ → Except (ProofError FetchError) (Unit × TreeReader σ)) (mismatch : String) :
    Fetch σ Unit := fun m =>
  match check m.world with
  | .error e => (.error (sumdbProof config e mismatch), m)
  | .ok ((), reader) => (.ok (), { m with world := reader.source, hashed := reader.hashed ++ m.hashed })

/-- `SumdbClient::open`. -/
def openCheckpoint (signed : Str) : Except FetchError Checkpoint := do
  let text ← (openNote crypto signed config.verifier).mapError fun e =>
    sumdbBad config ("invalid note: ".toList ++ e.message)
  let checkpoint ← (Checkpoint.parse crypto text).mapError fun e =>
    sumdbBad config ("invalid note: ".toList ++ e.message)
  if checkpoint.origin ≠ config.verifier.name then
    throw (sumdbBad config ("checkpoint of `".toList ++ checkpoint.origin ++ ['`']))
  return checkpoint

/-- `Cache::checkpoint_file`. -/
def checkpointFile (keyName : Str) : Str := "sumdb/".toList ++ keyName ++ "/latest".toList

/-- `SumdbClient::advance`: checks the new checkpoint against the largest one seen, and keeps the larger. -/
def advance (new : Checkpoint) (signed : Str) : Fetch σ Unit := do
  let file := checkpointFile config.verifier.name
  match (← readFile world file).bind fromUtf8 with
  | none => putFile world file (utf8 signed)
  | some text => do
      let seen ← ExceptT.mk (pure (openCheckpoint crypto config text))
      let (old, newer) := if seen.size ≤ new.size then (seen, new) else (new, seen)
      runCheck config
        (fun w => verifyConsistency crypto.sha256 (sumdbTiles world config) w old.size old.root newer.size newer.root)
        "the checksum database's tree is not consistent with the one seen before"
      if new.size > seen.size then putFile world file (utf8 signed)

/-- `SumdbClient::lookup`, with the checkpoint it accepts. -/
def sumdbLookup (path : SourcePath) (version : Version) : Fetch σ (Record × Checkpoint) := do
  let url := config.url ++ "/lookup/".toList ++ path.escaped ++ ['@'] ++ version.raw
  match ← transportGet world url with
  | .error m => throw (.network m)
  | .ok res => do
      require (res.status ≠ 404 ∧ res.status ≠ 410) (.notFound ("checksum database: ".toList ++ res.text))
      require (res.status = 200)
        (.network ("GET ".toList ++ url ++ ": ".toList ++ decimal res.status ++ [' '] ++ res.text))
      match fromUtf8 res.body with
      | none => throw (sumdbBad config "the lookup is not UTF-8".toList)
      | some body => match Lookup.parse crypto body with
        | none => throw (sumdbBad config "malformed lookup".toList)
        | some lookup => do
            require (lookup.record.path = path ∧ lookup.record.version = version)
              (sumdbBad config ("asked for ".toList ++ path.text ++ ['@'] ++ version.raw ++ ", got ".toList ++
                lookup.record.path.text ++ ['@'] ++ lookup.record.version.raw))
            let checkpoint ← ExceptT.mk (pure (openCheckpoint crypto config lookup.signedCheckpoint))
            runCheck config
              (fun w => verifyInclusion crypto.sha256 (sumdbTiles world config) w checkpoint.size checkpoint.root
                lookup.index (utf8 lookup.data))
              "the record is not in the signed tree"
            advance world crypto config checkpoint lookup.signedCheckpoint
            return (lookup.record, checkpoint)

end

end Emela.Pome
