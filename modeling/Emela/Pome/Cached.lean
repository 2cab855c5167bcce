import Emela.Pome.Lemmas.Fetch

/-!
# What `ensure` returns

The cache is keyed by path and version, and its projects may hold locks with different hashes. `ensure` checks
what it fetches, and returns a directory that is there as it is.
-/

namespace Emela.Pome

section
variable {σ : Type} {crates : Crates}

/-- A call of the fetcher. -/
inductive Call where
  | download (path : SourcePath) (version : Version)
  | ensure (locked : Locked)

def Call.path : Call → SourcePath
  | download path _ => path
  | ensure locked => locked.path

def Call.version : Call → Version
  | download _ version => version
  | ensure locked => locked.version

/-- The directory of a call. -/
def Call.dir (call : Call) : Str := cacheDir call.path call.version

/-- A call in a run. The sources and the configuration may be others at each call. -/
structure Step (σ : Type) where
  world : World σ
  config : Config
  start : σ
  call : Call

namespace Step

/-- The cache after a call, whether it succeeds or not. -/
def after (crates : Crates) (s : Step σ) (cache : Cache) : Cache :=
  match s.call with
  | .download path version => (runFetch (download s.world crates s.config path version) ⟨cache, s.start, []⟩).2.cache
  | .ensure locked => (runFetch (ensure s.world crates s.config locked) ⟨cache, s.start, []⟩).2.cache

/-- The files the sources have for the call. -/
def sources (crates : Crates) (s : Step σ) (cache : Cache) : Option Files :=
  served (runFetch (filesOf s.world crates s.config s.call.path s.call.version) ⟨cache, s.start, []⟩).1

/-- A call stores what the sources have, in its own directory, if that is not there yet. -/
theorem after_dirs (crates : Crates) (s : Step σ) (cache : Cache) :
    (s.after crates cache).dirs = cache.dirs ∨ ∃ files, s.sources crates cache = some files ∧
      cache.dirs s.call.dir = none ∧ (s.after crates cache).dirs = Function.update cache.dirs s.call.dir (some files) := by
  obtain ⟨world, config, start, call⟩ := s
  cases call with
  | download path version => exact download_dirs path version ⟨cache, start, []⟩
  | ensure locked =>
    cases hdir : cache.dirs (cacheDir locked.path locked.version) with
    | some files =>
      have hrun := ensure_cached (m := ⟨cache, start, []⟩) world crates config hdir
      simp only [after, hrun, true_or]
    | none =>
      have hrun := ensure_missing (m := ⟨cache, start, []⟩) world crates config hdir
      simp only [after, hrun]
      exact fetchLocked_dirs locked ⟨cache, start, []⟩

end Step

/-! ## Runs -/

/-- The cache after the calls of a run. -/
def runSteps (crates : Crates) : List (Step σ) → Cache → Cache
  | [], cache => cache
  | s :: rest, cache => runSteps crates rest (s.after crates cache)

/-- What the sources had at the first call of the run that stored the directory. -/
def firstStored (crates : Crates) : List (Step σ) → Cache → Str → Option Files
  | [], _, _ => none
  | s :: rest, cache, dir =>
      if cache.dirs dir = none ∧ (s.after crates cache).dirs dir ≠ none then s.sources crates cache
      else firstStored crates rest (s.after crates cache) dir

/-- Later calls do not touch a directory. -/
theorem runSteps_dirs (crates : Crates) (steps : List (Step σ)) (cache : Cache) (dir : Str) :
    (runSteps crates steps cache).dirs dir = (cache.dirs dir).or (firstStored crates steps cache dir) := by
  induction steps generalizing cache with
  | nil => simp [runSteps, firstStored]
  | cons s rest ih =>
    rw [runSteps, ih, firstStored]
    obtain hsame | ⟨files, hsources, hnone, hafter⟩ := s.after_dirs crates cache
    · rw [hsame, if_neg fun h => h.2 h.1]
    · by_cases hdir : dir = s.call.dir
      · subst hdir
        rw [hafter, Function.update_self, hnone, if_pos ⟨rfl, by simp⟩, hsources]
        rfl
      · rw [hafter, Function.update_of_ne hdir, if_neg fun h => h.2 h.1]

def Cache.empty : Cache := ⟨fun _ => none, fun _ => none⟩

/-- The tree hash of what is in a directory. -/
def Cache.hash (crates : Crates) (cache : Cache) (dir : Str) : Option H1 :=
  (cache.dirs dir).bind fun files => (treeHash crates.toCrypto files).toOption

/-- The directory `ensure` returns after a run has the hash in the lock exactly when what the run first stored
for that path and version has it. -/
theorem ensure_hash_iff (steps : List (Step σ)) (world : World σ) (config : Config) (start : σ) (locked : Locked)
    {dir : Str} {m : Machine σ}
    (hok : runFetch (ensure world crates config locked) ⟨runSteps crates steps Cache.empty, start, []⟩ = (.ok dir, m)) :
    m.cache.hash crates dir = some locked.hash ↔
      ∀ files, firstStored crates steps Cache.empty (cacheDir locked.path locked.version) = some files →
        (treeHash crates.toCrypto files).toOption = some locked.hash := by
  have hdirs := runSteps_dirs crates steps Cache.empty (cacheDir locked.path locked.version)
  rw [show Cache.empty.dirs _ = none from rfl, Option.none_or] at hdirs
  rw [← hdirs]
  cases hdir : (runSteps crates steps Cache.empty).dirs (cacheDir locked.path locked.version) with
  | some files =>
    -- the directory is there: it is returned unread
    rw [ensure_cached _ _ _ hdir] at hok
    cases hok
    simp only [Cache.hash, hdir, Option.bind_some, Option.some.injEq, forall_eq']
  | none =>
    rw [ensure_missing _ _ _ hdir] at hok
    obtain ⟨rfl, files, hfiles, hhash⟩ := fetchLocked_ok hok hdir
    simp [Cache.hash, hfiles, hhash, Except.toOption]

end

/-! ## One version with two contents -/

namespace Example

/-- The hash written as a number. -/
def hashOf (n : Nat) : Hash := Vector.ofFn fun i => UInt8.ofNat (n / 256 ^ (31 - i.val))

def emptyDigest : Hash := hashOf 0xe3b0c44298fc1c149afbf4c8996fb92427ae41e4649b934ca495991b7852b855
def letterDigest : Hash := hashOf 0x2d711642b726b04401627ca9fbac32f5c8530fb1903cc4db02258717921a4881
def emptyTree : Hash := hashOf 0x177ba8d69c42794aa4cc1c902851bb1ddffdff337e2a18819d50b9e0ed35f0ee
def letterTree : Hash := hashOf 0x76ab381b86f3ad9062d7fe771a2797085e44024540fe8ab8cfcb69bbda596edc

/-- SHA-256 and base64 on the inputs of the run: no bytes and the letter `x`, the summaries of a tree whose
`Pome.toml` has one of these contents, and the digests of the summaries. -/
def crypto : Crypto where
  sha256 input :=
    if input = [] then emptyDigest
    else if input = [0x78] then letterDigest
    else if input.take 2 = [0x65, 0x33] then emptyTree
    else letterTree
  encode bytes :=
    if bytes = emptyTree.toList then "F3uo1pxCeUqkzByQKFG7Hd/9/zN+KhiBnVC54O018O4=".toList
    else "dqs4G4bzrZBi1/53GieXCF5EAkVA/oq4z8tpu9pZbtw=".toList
  decode _ := none
  verifyStrict _ _ _ := false

def crates : Crates := { crypto with readTarGz := fun _ => .error [], info := fun _ => .error [] }

/-- Repositories where every version has one `Pome.toml` with the content, and no network. -/
def world (content : List UInt8) : World Unit where
  get _ w := (.error [], w)
  fetch _ _ w := (.ok (List.replicate 40 '0', [(MANIFEST_FILE, content)]), w)
  versions _ w := (.ok [], w)
  load _ w := (.ok (), w)
  store _ w := (.ok (), w)
  read _ w := (.error [], w)
  replace _ w := (.ok (), w)

def config : Config := { sources := [.direct], sumdb := none, «private» := [] }

def path : SourcePath := ⟨"example.com/a".toList⟩
def version : Version := ⟨⟨1, 0, 0, []⟩, "v1.0.0".toList, by decide⟩

/-- A download of the version while its content is empty. -/
def emptyDownload : Step Unit := ⟨world [], config, (), .download path version⟩

/-- The lock of a project that has the version with the content. -/
def lockOf (content : List UInt8) : Locked where
  path := path
  version := version
  commit := List.replicate 40 '0'
  hash := manifestHash crypto content
  manifest := manifestHash crypto content
  external := []
  dev := false

end Example

open Example in
theorem firstStored_emptyDownload :
    firstStored Example.crates [emptyDownload] Cache.empty (cacheDir path version) = some [(MANIFEST_FILE, [])] := by
  rfl

open Example in
theorem runSteps_emptyDownload :
    (runSteps Example.crates [emptyDownload] Cache.empty).dirs (cacheDir path version) = some [(MANIFEST_FILE, [])] := by
  rw [runSteps_dirs, firstStored_emptyDownload]
  rfl

open Example in
theorem treeHash_lockOf : ∀ content ∈ [[], [0x78]],
    (treeHash crypto [(MANIFEST_FILE, content)]).toOption = some (lockOf content).hash := by
  intro content _
  rw [treeHash_manifest]
  rfl

open Example in
/-- A lock with the hash of what was downloaded gets a directory with that hash. -/
theorem ensure_hash_emptyDownload :
    ∃ dir m, runFetch (ensure (world []) Example.crates config (lockOf []))
        ⟨runSteps Example.crates [emptyDownload] Cache.empty, (), []⟩ = (.ok dir, m) ∧
      m.cache.hash Example.crates dir = some (lockOf []).hash := by
  have hok : runFetch (ensure (world []) Example.crates config (lockOf []))
      ⟨runSteps Example.crates [emptyDownload] Cache.empty, (), []⟩ = _ :=
    ensure_cached _ _ _ runSteps_emptyDownload
  refine ⟨_, _, hok, (ensure_hash_iff [emptyDownload] (world []) config () (lockOf []) hok).mpr fun files hfiles => ?_⟩
  cases firstStored_emptyDownload.symm.trans hfiles
  exact treeHash_lockOf [] (by simp)

open Example in
/-- A lock with another hash gets the directory all the same. -/
theorem not_ensure_hash :
    ¬∀ (steps : List (Step Unit)) (world : World Unit) (config : Config) (start : Unit) (locked : Locked) (dir : Str)
      (m : Machine Unit),
      runFetch (ensure world Example.crates config locked) ⟨runSteps Example.crates steps Cache.empty, start, []⟩ =
        (.ok dir, m) →
      m.cache.hash Example.crates dir = some locked.hash := by
  intro h
  have hhash := h [emptyDownload] (world [0x78]) config () (lockOf [0x78]) _ _ (ensure_cached _ _ _ runSteps_emptyDownload)
  have hstored : Cache.hash Example.crates (runSteps Example.crates [emptyDownload] Cache.empty) (cacheDir path version) =
      some (lockOf []).hash := by
    rw [Cache.hash, runSteps_emptyDownload]
    exact treeHash_lockOf [] (by simp)
  exact absurd (Option.some.inj (hstored.symm.trans hhash)) (by decide)

end Emela.Pome
