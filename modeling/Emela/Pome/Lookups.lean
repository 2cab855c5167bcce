import Emela.Pome.Cached
import Emela.Pome.Lemmas.Prefix
import Emela.Pome.Lemmas.Text
import Emela.Pome.Theorems

/-!
# Runs of lookups

What a client accepts over a run of lookups, where the server may answer anything at each of them.
-/

namespace Emela.Pome

open Merkle

/-! ## One check -/

section
variable {σ ε : Type} {sha256 : List UInt8 → Hash} {src : TileSource σ ε} {a b : Checkpoint}

/-- An accepted check shows that the smaller tree is a prefix of the larger one. -/
theorem prefixOf_of_verifyConsistency {source : σ} {r : TreeReader σ}
    (hok : verifyConsistency sha256 src source a.size a.root b.size b.root = .ok ((), r))
    (hlow : LowBitsZero a.size b.size) : PrefixOf sha256 r.hashed a b := by
  obtain ⟨hle, r₁, hnew, hold⟩ := verifyConsistency_ok hok
  have hzero : ∀ {n v} {r₂ r₃ : TreeReader σ}, n = 0 → root sha256 src n r₂ = .ok (v, r₃) → v = sha256 [] := by
    intro n v r₂ r₃ hn hrun
    rw [root, if_pos hn, digest_ok] at hrun
    cases hrun
    rfl
  refine ⟨hle, fun h0 => hzero h0 hold, fun h0 => hzero h0 hnew, fun h i hb => ?_⟩
  have hpos : a.size ≠ 0 := by
    intro h0
    have := inBlocks_range hb
    have := Nat.two_pow_pos h
    omega
  have hext := root_ext hold
  rw [root_pos hpos] at hold
  rw [root_pos (by omega)] at hnew
  obtain ⟨e, hb', he⟩ := inBlocks_of_le hle hb
  have hlevel := inBlocks_level hlow hb he
  obtain ⟨-, hx⟩ := range_blocks (aligned_zero _) (by omega) hold (.refl _) hb
  obtain ⟨hin, hy⟩ := range_blocks (aligned_zero _) (by omega) hnew hext hb'
  exact ⟨_, hx, hy.trans (below_blockHash hlevel hin)⟩

/-- The root of a prefix is the tree hash of the first leaves, whatever leaves the larger tree has. -/
theorem PrefixOf.sound {inputs : List (List UInt8)} (h : PrefixOf sha256 inputs a b) {leaves : List Hash}
    (hlen : leaves.length = b.size) (hroot : mth sha256 leaves = b.root)
    (hnc : NoCollision sha256 (inputs ++ mthInputs sha256 leaves ++ mthInputs sha256 (leaves.take a.size))) :
    a.root = mth sha256 (leaves.take a.size) := by
  rcases Nat.eq_zero_or_pos a.size with h0 | hpos
  · rw [h.empty h0, h0]
    simp [mth, Merkle.treeHash]
  · have hle := h.le
    have hne : leaves ≠ [] := by rintro rfl; simp at hlen; omega
    have hne' : leaves.take a.size ≠ [] := by
      rw [ne_eq, List.take_eq_nil_iff, not_or]
      exact ⟨by omega, hne⟩
    set leafAt := fun i => leaves.getD i default
    have htake : mth sha256 (leaves.take a.size) = rangeHash (node sha256) leafAt 0 a.size := treeHash_take _ _ hpos (by omega)
    have hpairs : nodeInputs sha256 (fun i => (leaves.take a.size).getD i default) 0 a.size =
        nodeInputs sha256 leafAt 0 a.size := by
      rw [nodeInputs, rangePairs_congr _ _ 0 0 _ fun i hi => ?_]
      · rfl
      · simp [leafAt, List.getD_eq_getElem?_getD, List.getElem?_take_of_lt hi]
    rw [mth_eq hne, hlen] at hroot
    rw [mthInputs_eq hne, mthInputs_eq hne', List.length_take_of_le (by omega), hpairs, hlen] at hnc
    set all := inputs ++ nodeInputs sha256 leafAt 0 b.size ++ nodeInputs sha256 leafAt 0 a.size
    have hall : inputs ⊆ all := fun x hx => by simp [all, hx]
    have hb : nodeInputs sha256 leafAt 0 b.size ⊆ all := fun x hx => by simp [all, hx]
    have ha : nodeInputs sha256 leafAt 0 a.size ⊆ all := fun x hx => by simp [all, hx]
    rw [htake]
    apply eq_of_blocks hnc.node_injOn (aligned_zero a.size) hpos
    intro k i hblock
    obtain ⟨x, hax, hbx⟩ := h.blocks k i hblock
    -- the block as the leaves have it
    obtain rfl := (hbx.mono (knownPairs_mono hall)).eq_rangeHash hnc.node_injOn hroot.symm (mem_knownPairs hb)
    exact ⟨_, hax.mono (knownPairs_mono hall), below_blocks (aligned_zero _) hpos (mem_knownPairs ha) hblock⟩

end

/-! ## One lookup -/

section
variable {σ α β : Type} {world : World σ} {crypto : Crypto} {config : SumdbConfig} {m m' : Machine σ}

variable (crypto config) in
/-- The checkpoint the cache keeps. -/
def Cache.checkpoint (cache : Cache) : Option Checkpoint := do
  let bytes ← cache.files (checkpointFile config.verifier.name)
  let text ← fromUtf8 bytes
  (openCheckpoint crypto config text).toOption

/-- The call leaves the cache as it is and forgets no input hashed. -/
def OnlyChecks (x : Fetch σ α) : Prop :=
  ∀ m, (runFetch x m).2.cache = m.cache ∧ m.hashed ⊆ (runFetch x m).2.hashed

/-- What a lookup leaves when it fails. -/
def FailsUnchanged (x : Fetch σ α) : Prop :=
  ∀ m e m', runFetch x m = (.error e, m') → m'.cache = m.cache ∧ m.hashed ⊆ m'.hashed

theorem OnlyChecks.fails {x : Fetch σ α} (h : OnlyChecks x) : FailsUnchanged x := by
  intro m e m' hrun
  have := h m
  rwa [hrun] at this

theorem OnlyChecks.ok {x : Fetch σ α} {a : α} (h : OnlyChecks x) (hrun : runFetch x m = (.ok a, m')) :
    m'.cache = m.cache ∧ m.hashed ⊆ m'.hashed := by
  have := h m
  rwa [hrun] at this

theorem FailsUnchanged.bind {x : Fetch σ α} {f : α → Fetch σ β} (hx : OnlyChecks x) (hf : ∀ a, FailsUnchanged (f a)) :
    FailsUnchanged (x >>= f) := by
  intro m e m' hrun
  rw [runFetch_bind] at hrun
  rcases hx' : runFetch x m with ⟨e' | a, m₁⟩
  · rw [hx'] at hrun
    cases hrun
    exact hx.fails m _ _ hx'
  · rw [hx'] at hrun
    have h₁ := hx.ok hx'
    have h₂ := hf a m₁ e m' hrun
    exact ⟨h₂.1.trans h₁.1, List.Subset.trans h₁.2 h₂.2⟩

theorem FailsUnchanged.map {x : Fetch σ α} (hx : FailsUnchanged x) (a : α → β) :
    FailsUnchanged (x >>= fun b => pure (a b)) := by
  intro m e m' hrun
  rw [runFetch_bind] at hrun
  rcases hx' : runFetch x m with ⟨e' | b, m₁⟩
  · rw [hx'] at hrun
    cases hrun
    exact hx m _ _ hx'
  · rw [hx'] at hrun
    cases hrun

theorem onlyChecks_lift (r : Except FetchError α) : OnlyChecks (ExceptT.mk (pure r) : Fetch σ α) :=
  fun _ => ⟨rfl, List.Subset.refl _⟩

theorem onlyChecks_require {holds : Bool} {e : FetchError} : OnlyChecks (require holds e : Fetch σ Unit) := by
  cases holds <;> exact fun _ => ⟨rfl, List.Subset.refl _⟩

theorem onlyChecks_transportGet (url : Str) : OnlyChecks (transportGet world url) :=
  fun _ => ⟨rfl, List.Subset.refl _⟩

theorem onlyChecks_readFile (file : Str) : OnlyChecks (readFile world file) := by
  intro m
  simp only [runFetch, readFile]
  rcases world.load file m.world with ⟨_ | _, _⟩ <;> exact ⟨rfl, List.Subset.refl _⟩

theorem onlyChecks_runCheck {mismatch : String} (check : σ → Except (ProofError FetchError) (Unit × TreeReader σ)) :
    OnlyChecks (runCheck config check mismatch) := by
  intro m
  simp only [runFetch, runCheck]
  rcases check m.world with _ | ⟨_, reader⟩
  · exact ⟨rfl, List.Subset.refl _⟩
  · exact ⟨rfl, List.subset_append_right _ _⟩

theorem runCheck_ok {mismatch : String} {check : σ → Except (ProofError FetchError) (Unit × TreeReader σ)}
    (h : runFetch (runCheck config check mismatch) m = (.ok (), m')) :
    ∃ reader, check m.world = .ok ((), reader) ∧ m'.cache = m.cache ∧ m'.hashed = reader.hashed ++ m.hashed := by
  simp only [runFetch, runCheck] at h
  rcases hc : check m.world with _ | ⟨_, reader⟩
  · rw [hc] at h
    cases h
  · rw [hc] at h
    cases h
    exact ⟨reader, rfl, rfl, rfl⟩

theorem putFile_fails (file : Str) (content : List UInt8) : FailsUnchanged (putFile world file content) := by
  intro m e m' h
  simp only [runFetch, putFile] at h
  rcases hs : world.store file m.world with ⟨_ | _, _⟩ <;> rw [hs] at h <;> cases h
  exact ⟨rfl, List.Subset.refl _⟩

theorem putFile_ok {file : Str} {content : List UInt8} (h : runFetch (putFile world file content) m = (.ok (), m')) :
    m'.cache.files file = some content ∧ m'.hashed = m.hashed := by
  simp only [runFetch, putFile] at h
  rcases hs : world.store file m.world with ⟨_ | _, _⟩ <;> rw [hs] at h <;> cases h
  exact ⟨Function.update_self .., rfl⟩

theorem advance_fails (new : Checkpoint) (signed : Str) : FailsUnchanged (advance world crypto config new signed) := by
  refine .bind (onlyChecks_readFile _) fun seen => ?_
  cases seen.bind fromUtf8 with
  | none => exact putFile_fails _ _
  | some text =>
    refine .bind (onlyChecks_lift _) fun seen => .bind (onlyChecks_runCheck _) fun _ => ?_
    split
    · exact putFile_fails _ _
    · intro m e m' h
      cases h

theorem sumdbLookup_fails (path : SourcePath) (version : Version) :
    FailsUnchanged (sumdbLookup world crypto config path version) := by
  have hthrow : ∀ e, FailsUnchanged (throw e : Fetch σ (Record × Checkpoint)) := fun e m e' m' h => by
    cases h
    exact ⟨rfl, List.Subset.refl _⟩
  refine .bind (onlyChecks_transportGet _) fun answer => ?_
  cases answer with
  | error m => exact hthrow _
  | ok res =>
    refine .bind onlyChecks_require fun _ => .bind onlyChecks_require fun _ => ?_
    split
    · exact hthrow _
    · split
      · exact hthrow _
      · refine .bind onlyChecks_require fun _ => .bind (onlyChecks_lift _) fun checkpoint => ?_
        exact .bind (onlyChecks_runCheck _) fun _ => (advance_fails _ _).map _

/-- The smaller of two checkpoints first, the first one where they are of one size. -/
def ordered (seen new : Checkpoint) : Checkpoint × Checkpoint := if seen.size ≤ new.size then (seen, new) else (new, seen)

/-- The checkpoint kept after an accepted one. -/
def larger (seen new : Checkpoint) : Checkpoint := if new.size > seen.size then new else seen

theorem checkpoint_of_file {cache : Cache} {signed : Str} {new : Checkpoint}
    (hfile : cache.files (checkpointFile config.verifier.name) = some (utf8 signed))
    (hopen : openCheckpoint crypto config signed = .ok new) : cache.checkpoint crypto config = some new := by
  simp [Cache.checkpoint, hfile, fromUtf8_utf8, hopen, Except.toOption]

theorem readFile_ok {file : Str} {content : Option (List UInt8)} (h : runFetch (readFile world file) m = (.ok content, m')) :
    m'.cache = m.cache ∧ m'.hashed = m.hashed ∧
      ((world.load file m.world).1 ≠ .ok () ∧ content = none ∨ content = m.cache.files file) := by
  simp only [runFetch, readFile] at h
  rcases hl : world.load file m.world with ⟨e | _, w⟩ <;> rw [hl] at h <;> cases h
  · exact ⟨rfl, rfl, .inl ⟨fun h => (by cases h), rfl⟩⟩
  · exact ⟨rfl, rfl, .inr rfl⟩

variable (world config) in
/-- The checkpoint can be read, in whatever state the server leaves the world. -/
def Readable : Prop := ∀ w, (world.load (checkpointFile config.verifier.name) w).1 = .ok ()

/-- What `advance` checked and what it keeps. -/
theorem advance_ok {new : Checkpoint} {signed : Str} (hopen : openCheckpoint crypto config signed = .ok new)
    (h : runFetch (advance world crypto config new signed) m = (.ok (), m')) :
    m.hashed ⊆ m'.hashed ∧
      ((Readable world config → m.cache.checkpoint crypto config = none) ∧ m'.cache.checkpoint crypto config = some new ∨
        ∃ seen, m.cache.checkpoint crypto config = some seen ∧
          m'.cache.checkpoint crypto config = some (larger seen new) ∧
          ∃ (w : σ) (reader : TreeReader σ), reader.hashed ⊆ m'.hashed ∧
            let (old, newer) := ordered seen new
            verifyConsistency crypto.sha256 (sumdbTiles world config) w old.size old.root newer.size newer.root =
              .ok ((), reader)) := by
  obtain ⟨content, m₁, hread, h⟩ := runFetch_bind_ok.mp h
  obtain ⟨hcache₁, hhashed₁, hcontent⟩ := readFile_ok hread
  cases htext : content.bind fromUtf8 with
  | none =>
    rw [htext] at h
    obtain ⟨hfile, hhashed⟩ := putFile_ok h
    refine ⟨hhashed.trans hhashed₁ ▸ List.Subset.refl _, .inl ⟨fun hreadable => ?_, checkpoint_of_file hfile hopen⟩⟩
    rcases hcontent with ⟨hload, -⟩ | rfl
    · exact absurd (hreadable m.world) hload
    · change (m.cache.files (checkpointFile config.verifier.name)).bind (fun bytes => (fromUtf8 bytes).bind _) = none
      rw [← Option.bind_assoc, htext]
      rfl
  | some text =>
    rw [htext] at h
    obtain ⟨seen, m₂, hlift, h⟩ := runFetch_bind_ok.mp h
    obtain ⟨hseen, rfl⟩ := runFetch_lift_ok.mp hlift
    have hkept : m.cache.checkpoint crypto config = some seen := by
      have hcontent : content = m.cache.files (checkpointFile config.verifier.name) := by
        rcases hcontent with ⟨-, rfl⟩ | hcontent
        · cases htext
        · exact hcontent
      subst hcontent
      change (m.cache.files (checkpointFile config.verifier.name)).bind (fun bytes => (fromUtf8 bytes).bind _) = some seen
      rw [← Option.bind_assoc, htext, Option.bind_some, hseen]
      rfl
    obtain ⟨⟨⟩, m₃, hcheck, h⟩ := runFetch_bind_ok.mp h
    obtain ⟨reader, hreader, hcache, hhashed⟩ := runCheck_ok hcheck
    have hkeep : m'.hashed = m₃.hashed ∧ m'.cache.checkpoint crypto config = some (larger seen new) := by
      by_cases hgt : new.size > seen.size
      · rw [if_pos hgt] at h
        obtain ⟨hfile, hhashed'⟩ := putFile_ok h
        exact ⟨hhashed', by rw [larger, if_pos hgt, checkpoint_of_file hfile hopen]⟩
      · rw [if_neg hgt] at h
        cases h
        exact ⟨rfl, by rw [larger, if_neg hgt, hcache, hcache₁, hkept]⟩
    rw [hkeep.1, hhashed, hhashed₁]
    exact ⟨List.subset_append_right _ _,
      .inr ⟨seen, hkept, hkeep.2, m₁.world, reader, List.subset_append_left _ _, hreader⟩⟩

variable (config) in
/-- The URL of a lookup. -/
def lookupUrl (path : SourcePath) (version : Version) : Str :=
  config.url ++ "/lookup/".toList ++ path.escaped ++ ['@'] ++ version.raw

variable (crypto config) in
/-- The checkpoint in an answer of the server. -/
def servedCheckpoint (answer : Except Str Response) : Option Checkpoint := do
  let res ← answer.toOption
  let body ← fromUtf8 res.body
  let lookup ← Lookup.parse crypto body
  (openCheckpoint crypto config lookup.signedCheckpoint).toOption

/-- An accepted lookup ends with `advance` of the checkpoint served. -/
theorem sumdbLookup_ok {path : SourcePath} {version : Version} {record : Record} {new : Checkpoint}
    (h : runFetch (sumdbLookup world crypto config path version) m = (.ok (record, new), m')) :
    servedCheckpoint crypto config (world.get (lookupUrl config path version) m.world).1 = some new ∧
      ∃ signed m₁, openCheckpoint crypto config signed = .ok new ∧ m₁.cache = m.cache ∧ m.hashed ⊆ m₁.hashed ∧
        runFetch (advance world crypto config new signed) m₁ = (.ok (), m') := by
  obtain ⟨answer, m₁, hget, h⟩ := runFetch_bind_ok.mp h
  cases hget
  rw [lookupUrl]
  generalize (world.get _ m.world).1 = answer at h ⊢
  cases answer with
  | error m => cases h
  | ok res =>
    obtain ⟨⟨⟩, m₂, hreq, h⟩ := runFetch_bind_ok.mp h
    obtain ⟨-, rfl⟩ := runFetch_require_ok.mp hreq
    obtain ⟨⟨⟩, m₃, hreq, h⟩ := runFetch_bind_ok.mp h
    obtain ⟨-, rfl⟩ := runFetch_require_ok.mp hreq
    cases hbody : fromUtf8 res.body with
    | none =>
      rw [hbody] at h
      cases h
    | some body =>
      rw [hbody] at h
      dsimp only at h
      cases hparse : Lookup.parse crypto body with
      | none =>
        rw [hparse] at h
        cases h
      | some lookup =>
        rw [hparse] at h
        obtain ⟨⟨⟩, m₄, hreq, h⟩ := runFetch_bind_ok.mp h
        obtain ⟨-, rfl⟩ := runFetch_require_ok.mp hreq
        obtain ⟨checkpoint, m₅, hlift, h⟩ := runFetch_bind_ok.mp h
        obtain ⟨hopen, rfl⟩ := runFetch_lift_ok.mp hlift
        obtain ⟨⟨⟩, m₆, hcheck, h⟩ := runFetch_bind_ok.mp h
        have hincl := (onlyChecks_runCheck _).ok hcheck
        obtain ⟨⟨⟩, m₇, hadvance, h⟩ := runFetch_bind_ok.mp h
        cases h
        refine ⟨?_, _, m₆, hopen, hincl.1, hincl.2, hadvance⟩
        simp [servedCheckpoint, hbody, hparse, hopen, Except.toOption]

end

/-- A larger checkpoint that is consistent with the one kept. -/
theorem advance_run {new seen : Checkpoint} {signed text : Str} {reader : TreeReader σ} {w : σ}
    (hload : world.load (checkpointFile config.verifier.name) m.world = (.ok (), m.world))
    (hread : (m.cache.files (checkpointFile config.verifier.name)).bind fromUtf8 = some text)
    (hseen : openCheckpoint crypto config text = .ok seen) (hlt : seen.size < new.size)
    (hcheck : verifyConsistency crypto.sha256 (sumdbTiles world config) m.world seen.size seen.root new.size new.root =
      .ok ((), reader))
    (hstore : world.store (checkpointFile config.verifier.name) reader.source = (.ok (), w)) :
    runFetch (advance world crypto config new signed) m = (.ok (), {
      cache := { m.cache with
        files := Function.update m.cache.files (checkpointFile config.verifier.name) (some (utf8 signed)) }
      world := w
      hashed := reader.hashed ++ m.hashed }) := by
  refine runFetch_bind_ok.mpr ⟨m.cache.files (checkpointFile config.verifier.name), m, ?_, ?_⟩
  · simp only [runFetch, readFile, hload]
  rw [hread]
  refine runFetch_bind_ok.mpr ⟨seen, m, runFetch_lift_ok.mpr ⟨hseen, rfl⟩, ?_⟩
  rw [if_pos hlt.le]
  refine runFetch_bind_ok.mpr ⟨(), { m with world := reader.source, hashed := reader.hashed ++ m.hashed }, ?_, ?_⟩
  · simp only [runFetch, runCheck, hcheck]
  · rw [if_pos hlt]
    simp only [runFetch, putFile, hstore]

/-- A lookup that goes through. -/
theorem sumdbLookup_run {path : SourcePath} {version : Version} {res : Response} {w : σ} {body : Str} {lookup : Lookup}
    {new : Checkpoint} {reader : TreeReader σ}
    (hget : world.get (lookupUrl config path version) m.world = (.ok res, w)) (hstatus : res.status = 200)
    (hbody : fromUtf8 res.body = some body) (hparse : Lookup.parse crypto body = some lookup)
    (hrecord : lookup.record.path = path ∧ lookup.record.version = version)
    (hopen : openCheckpoint crypto config lookup.signedCheckpoint = .ok new)
    (hincl : verifyInclusion crypto.sha256 (sumdbTiles world config) w new.size new.root lookup.index
      (utf8 lookup.data) = .ok ((), reader))
    (hadvance : runFetch (advance world crypto config new lookup.signedCheckpoint)
      { m with world := reader.source, hashed := reader.hashed ++ m.hashed } = (.ok (), m')) :
    runFetch (sumdbLookup world crypto config path version) m = (.ok (lookup.record, new), m') := by
  refine runFetch_bind_ok.mpr ⟨.ok res, { m with world := w }, ?_, ?_⟩
  · change (Except.ok (world.get (lookupUrl config path version) m.world).1,
      { m with world := (world.get (lookupUrl config path version) m.world).2 }) = _
    rw [hget]
  · refine runFetch_bind_ok.mpr ⟨(), _, runFetch_require_ok.mpr ⟨by simp [hstatus], rfl⟩, ?_⟩
    refine runFetch_bind_ok.mpr ⟨(), _, runFetch_require_ok.mpr ⟨by simp [hstatus], rfl⟩, ?_⟩
    rw [hbody]
    dsimp only
    rw [hparse]
    refine runFetch_bind_ok.mpr ⟨(), _, runFetch_require_ok.mpr ⟨by simp [hrecord], rfl⟩, ?_⟩
    refine runFetch_bind_ok.mpr ⟨new, _, runFetch_lift_ok.mpr ⟨hopen, rfl⟩, ?_⟩
    refine runFetch_bind_ok.mpr ⟨(), _, ?_, runFetch_bind_ok.mpr ⟨(), m', hadvance, rfl⟩⟩
    simp only [runFetch, runCheck, hincl]

/-! ## Runs -/

section
variable {σ : Type} (crypto : Crypto) (config : SumdbConfig)

/-- A lookup of a run. The server may be another at each of them. -/
structure Query (σ : Type) where
  world : World σ
  start : σ
  path : SourcePath
  version : Version

/-- What a run of lookups leaves: the cache, the inputs hashed by the checks that passed, and the checkpoints
accepted, the last one first. -/
structure Lookups where
  cache : Cache
  hashed : List (List UInt8)
  accepted : List Checkpoint

def Lookups.next (l : Lookups) (q : Query σ) : Lookups :=
  match runFetch (sumdbLookup q.world crypto config q.path q.version) ⟨l.cache, q.start, l.hashed⟩ with
  | (.ok (_, checkpoint), m) => ⟨m.cache, m.hashed, checkpoint :: l.accepted⟩
  | (.error _, m) => ⟨m.cache, m.hashed, l.accepted⟩

def Lookups.run (l : Lookups) (queries : List (Query σ)) : Lookups := queries.foldl (next crypto config) l

def Lookups.start (cache : Cache) : Lookups := ⟨cache, [], []⟩

/-- The checkpoint the server answers with. -/
def Query.served (q : Query σ) : Option Checkpoint :=
  servedCheckpoint crypto config (q.world.get (lookupUrl config q.path q.version) q.start).1

/-- The sizes of the checkpoint kept and of the one served have no low bits. -/
def Query.LowBitsZero (q : Query σ) (cache : Cache) : Prop :=
  ∀ seen ∈ cache.checkpoint crypto config, ∀ new ∈ q.served crypto config,
    Pome.LowBitsZero (ordered seen new).1.size (ordered seen new).2.size

/-- The file system lets the checkpoint kept be read. -/
def Query.Readable (q : Query σ) (cache : Cache) : Prop :=
  (cache.checkpoint crypto config).isSome → Pome.Readable q.world config

/-- So at every lookup of a run. -/
def Lookups.Readable (l : Lookups) : List (Query σ) → Prop
  | [] => True
  | q :: rest => q.Readable crypto config l.cache ∧ (l.next crypto config q).Readable rest

def Lookups.LowBitsZero (l : Lookups) : List (Query σ) → Prop
  | [] => True
  | q :: rest => q.LowBitsZero crypto config l.cache ∧ (l.next crypto config q).LowBitsZero rest

/-- Two checkpoints of one log: whatever leaves the second is the root of, the first is the root of the first of
them. -/
def PrefixConsistent (inputs : List (List UInt8)) (a b : Checkpoint) : Prop :=
  ∀ leaves : List Hash, leaves.length = b.size → mth crypto.sha256 leaves = b.root →
    NoCollision crypto.sha256 (inputs ++ mthInputs crypto.sha256 leaves ++
      mthInputs crypto.sha256 (leaves.take a.size)) →
    a.root = mth crypto.sha256 (leaves.take a.size)

variable {crypto config} {l : Lookups}

/-- What one lookup does: nothing that stays, or it accepts the checkpoint served. -/
theorem Lookups.next_cases (q : Query σ) :
    l.hashed ⊆ (l.next crypto config q).hashed ∧
      ((l.next crypto config q).cache = l.cache ∧ (l.next crypto config q).accepted = l.accepted ∨
        ∃ new, q.served crypto config = some new ∧ (l.next crypto config q).accepted = new :: l.accepted ∧
          ((q.Readable crypto config l.cache → l.cache.checkpoint crypto config = none) ∧
              (l.next crypto config q).cache.checkpoint crypto config = some new ∨
            ∃ seen, l.cache.checkpoint crypto config = some seen ∧
              (l.next crypto config q).cache.checkpoint crypto config = some (larger seen new) ∧
              (Pome.LowBitsZero (ordered seen new).1.size (ordered seen new).2.size →
                PrefixOf crypto.sha256 (l.next crypto config q).hashed (ordered seen new).1 (ordered seen new).2))) := by
  unfold next
  rcases hrun : runFetch (sumdbLookup q.world crypto config q.path q.version) ⟨l.cache, q.start, l.hashed⟩ with
    ⟨e | ⟨record, new⟩, m⟩
  · obtain ⟨hcache, hhashed⟩ := sumdbLookup_fails q.path q.version _ _ _ hrun
    exact ⟨hhashed, .inl ⟨hcache, rfl⟩⟩
  · obtain ⟨hserved, signed, m₁, hopen, hcache, hhashed, hadvance⟩ := sumdbLookup_ok hrun
    obtain ⟨hhashed', hkept⟩ := advance_ok hopen hadvance
    refine ⟨List.Subset.trans hhashed hhashed', .inr ⟨new, hserved, rfl, ?_⟩⟩
    rw [hcache] at hkept
    rcases hkept with ⟨hnone, h⟩ | ⟨seen, hseen, hlarger, w, reader, hsub, hok⟩
    · refine .inl ⟨fun hreadable => ?_, h⟩
      cases hseen : l.cache.checkpoint crypto config with
      | none => rfl
      | some seen => exact hseen.symm.trans (hnone (hreadable (by rw [hseen]; rfl)))
    · exact .inr ⟨seen, hseen, hlarger, fun hlow => (prefixOf_of_verifyConsistency hok hlow).mono hsub⟩

theorem Lookups.next_ok {q : Query σ} {record : Record} {checkpoint : Checkpoint} {m : Machine σ}
    (h : runFetch (sumdbLookup q.world crypto config q.path q.version) ⟨l.cache, q.start, l.hashed⟩ =
      (.ok (record, checkpoint), m)) :
    l.next crypto config q = ⟨m.cache, m.hashed, checkpoint :: l.accepted⟩ := by
  rw [next, h]

theorem size_le_larger (seen new : Checkpoint) : seen.size ≤ (larger seen new).size := by
  unfold larger
  split <;> omega

theorem Lookups.Readable.append {before after : List (Query σ)} (h : l.Readable crypto config (before ++ after)) :
    (l.run crypto config before).Readable crypto config after := by
  induction before generalizing l with
  | nil => exact h
  | cons q rest ih => exact ih h.2

/-- The checkpoint kept never becomes smaller. -/
theorem Lookups.run_size (l : Lookups) (queries : List (Query σ)) {seen : Checkpoint}
    (hread : l.Readable crypto config queries) (hseen : l.cache.checkpoint crypto config = some seen) :
    ∃ kept, (l.run crypto config queries).cache.checkpoint crypto config = some kept ∧ seen.size ≤ kept.size := by
  induction queries generalizing l seen with
  | nil => exact ⟨seen, hseen, Nat.le_refl _⟩
  | cons q rest ih =>
    obtain ⟨-, ⟨hcache, -⟩ | ⟨new, -, -, ⟨hnone, -⟩ | ⟨seen', hseen', hlarger, -⟩⟩⟩ :=
      @Lookups.next_cases _ crypto config l q
    · exact ih _ hread.2 (hcache ▸ hseen)
    · rw [hnone hread.1] at hseen
      cases hseen
    · rw [hseen'] at hseen
      cases hseen
      obtain ⟨kept, hkept, hle⟩ := ih _ hread.2 hlarger
      exact ⟨kept, hkept, (size_le_larger _ _).trans hle⟩

/-! ## The invariant -/

/-- Two checkpoints are the same tree, or the first is a prefix of the second. -/
def Agrees (sha256 : List UInt8 → Hash) (inputs : List (List UInt8)) (a b : Checkpoint) : Prop :=
  (a.size = b.size ∧ a.root = b.root) ∨ PrefixOf sha256 inputs a b

section
variable {sha256 : List UInt8 → Hash} {inputs : List (List UInt8)} {a b c : Checkpoint}

theorem PrefixOf.congr {a' b' : Checkpoint} (h : PrefixOf sha256 inputs a b) (ha : a.size = a'.size ∧ a.root = a'.root)
    (hb : b.size = b'.size ∧ b.root = b'.root) : PrefixOf sha256 inputs a' b' := by
  obtain ⟨_, _, _⟩ := a
  obtain ⟨_, _, _⟩ := a'
  obtain ⟨_, _, _⟩ := b
  obtain ⟨_, _, _⟩ := b'
  obtain ⟨rfl, rfl⟩ := ha
  obtain ⟨rfl, rfl⟩ := hb
  exact ⟨h.le, h.empty, h.empty', h.blocks⟩

namespace Agrees

theorem refl (a : Checkpoint) : Agrees sha256 inputs a a := .inl ⟨rfl, rfl⟩

theorem trans (hnc : NoCollision sha256 inputs) (hab : Agrees sha256 inputs a b) (hbc : PrefixOf sha256 inputs b c) :
    Agrees sha256 inputs a c := by
  rcases hab with ⟨hsize, hroot⟩ | hab
  · exact .inr (hbc.congr ⟨hsize.symm, hroot.symm⟩ ⟨rfl, rfl⟩)
  · exact .inr (hab.trans hnc hbc)

theorem of_le (hnc : NoCollision sha256 inputs) (hac : Agrees sha256 inputs a c) (hbc : Agrees sha256 inputs b c)
    (hle : a.size ≤ b.size) : Agrees sha256 inputs a b := by
  rcases hac with ⟨hsize, hroot⟩ | hac
  · -- `a` is the largest tree, so `b` is no smaller
    rcases hbc with ⟨hsize', hroot'⟩ | hbc
    · exact .inl ⟨hsize.trans hsize'.symm, hroot.trans hroot'.symm⟩
    · have heq : b.size = c.size := le_antisymm hbc.le (hsize ▸ hle)
      exact .inl ⟨hsize.trans heq.symm, hroot.trans (hbc.root_eq hnc heq).symm⟩
  · rcases hbc with ⟨hsize, hroot⟩ | hbc
    · exact .inr (hac.congr ⟨rfl, rfl⟩ ⟨hsize.symm, hroot.symm⟩)
    · exact .inr (hac.of_le hnc hbc hle)

end Agrees

end

theorem NoCollision.subset {sha256 : List UInt8 → Hash} {inputs inputs' : List (List UInt8)}
    (h : NoCollision sha256 inputs') (hsub : inputs ⊆ inputs') : NoCollision sha256 inputs :=
  fun x hx y hy => h x (hsub hx) y (hsub hy)

theorem Agrees.prefixConsistent {inputs : List (List UInt8)} {a b : Checkpoint}
    (h : NoCollision crypto.sha256 inputs → Agrees crypto.sha256 inputs a b) : PrefixConsistent crypto inputs a b := by
  intro leaves hlen hroot hnc
  rcases h (hnc.subset fun x hx => by simp [hx]) with ⟨hsize, hroot'⟩ | hbefore
  · rw [hroot', ← hroot, hsize, ← hlen, List.take_length]
  · exact hbefore.sound hlen hroot hnc

/-- Every checkpoint accepted agrees with the one kept. -/
def Lookups.Agree (crypto : Crypto) (config : SumdbConfig) (inputs : List (List UInt8)) (l : Lookups) : Prop :=
  ∀ a ∈ l.accepted, ∃ kept, l.cache.checkpoint crypto config = some kept ∧ Agrees crypto.sha256 inputs a kept

theorem Lookups.Agree.next {inputs : List (List UInt8)} {q : Query σ} (hnc : NoCollision crypto.sha256 inputs)
    (hl : l.Agree crypto config inputs) (hread : q.Readable crypto config l.cache)
    (hlow : q.LowBitsZero crypto config l.cache)
    (hin : (l.next crypto config q).hashed ⊆ inputs) : (l.next crypto config q).Agree crypto config inputs := by
  obtain ⟨-, ⟨hcache, haccepted⟩ | ⟨new, hserved, haccepted, hkept⟩⟩ := @Lookups.next_cases _ crypto config l q
  · intro a ha
    rw [haccepted] at ha
    rw [hcache]
    exact hl a ha
  · intro a ha
    rw [haccepted] at ha
    rcases hkept with ⟨hnone, hafter⟩ | ⟨seen, hseen, hafter, hbefore⟩
    · rw [hafter]
      rcases List.mem_cons.mp ha with rfl | ha
      · exact ⟨_, rfl, .refl _⟩
      · -- nothing was accepted before the first checkpoint is kept
        obtain ⟨kept, hkept, -⟩ := hl a ha
        rw [hnone hread] at hkept
        cases hkept
    · rw [hafter]
      have hbefore := (hbefore (hlow seen hseen new hserved)).mono hin
      have hold : ∀ a ∈ l.accepted, Agrees crypto.sha256 inputs a seen := by
        intro a ha
        obtain ⟨kept, hkept, hagrees⟩ := hl a ha
        rw [hseen] at hkept
        cases hkept
        exact hagrees
      refine ⟨_, rfl, ?_⟩
      unfold ordered at hbefore
      unfold larger
      rcases lt_trichotomy seen.size new.size with hlt | heq | hgt
      · rw [if_pos hlt.le] at hbefore
        rw [if_pos hlt]
        rcases List.mem_cons.mp ha with rfl | ha
        · exact .refl _
        · exact (hold a ha).trans hnc hbefore
      · rw [if_pos heq.le] at hbefore
        rw [if_neg (by omega)]
        rcases List.mem_cons.mp ha with rfl | ha
        · exact .inr (hbefore.symm heq)
        · exact hold a ha
      · rw [if_neg (by omega)] at hbefore
        rw [if_neg (by omega)]
        rcases List.mem_cons.mp ha with rfl | ha
        · exact .inr hbefore
        · exact hold a ha

theorem Lookups.run_hashed (l : Lookups) (queries : List (Query σ)) :
    l.hashed ⊆ (l.run crypto config queries).hashed := by
  induction queries generalizing l with
  | nil => exact List.Subset.refl _
  | cons q rest ih => exact List.Subset.trans (l.next_cases q).1 (ih _)

theorem Lookups.Agree.run {inputs : List (List UInt8)} (queries : List (Query σ))
    (hnc : NoCollision crypto.sha256 inputs) (hl : l.Agree crypto config inputs)
    (hread : l.Readable crypto config queries) (hlow : l.LowBitsZero crypto config queries)
    (hin : (l.run crypto config queries).hashed ⊆ inputs) :
    (l.run crypto config queries).Agree crypto config inputs := by
  induction queries generalizing l with
  | nil => exact hl
  | cons q rest ih =>
    have hnext := List.Subset.trans (Lookups.run_hashed (l.next crypto config q) rest) hin
    exact ih (hl.next hnc hread.1 hlow.1 hnext) hread.2 hlow.2 hin

/-- In every run in which the checkpoint kept can be read it never becomes smaller, and where the sizes kept and served
have no low bits any two checkpoints accepted are prefix-consistent, those of one size being the same tree. -/
theorem lookups_consistent (crypto : Crypto) (config : SumdbConfig) (cache : Cache) (queries : List (Query σ))
    (hread : (Lookups.start cache).Readable crypto config queries) :
    (∀ before after, queries = before ++ after →
      ∀ seen, ((Lookups.start cache).run crypto config before).cache.checkpoint crypto config = some seen →
        ∃ kept, ((Lookups.start cache).run crypto config queries).cache.checkpoint crypto config = some kept ∧
          seen.size ≤ kept.size) ∧
    ((Lookups.start cache).LowBitsZero crypto config queries →
      ∀ a ∈ ((Lookups.start cache).run crypto config queries).accepted,
      ∀ b ∈ ((Lookups.start cache).run crypto config queries).accepted, a.size ≤ b.size →
        PrefixConsistent crypto ((Lookups.start cache).run crypto config queries).hashed a b ∧
        (NoCollision crypto.sha256 ((Lookups.start cache).run crypto config queries).hashed → a.size = b.size →
          a.root = b.root)) := by
  constructor
  · rintro before after rfl seen hseen
    rw [Lookups.run, List.foldl_append]
    exact Lookups.run_size _ after hread.append hseen
  · intro hlow a ha b hb hle
    have hagrees : NoCollision crypto.sha256 ((Lookups.start cache).run crypto config queries).hashed →
        Agrees crypto.sha256 ((Lookups.start cache).run crypto config queries).hashed a b := by
      intro hnc
      have hall := Lookups.Agree.run queries hnc (l := Lookups.start cache) (fun a ha => by cases ha) hread hlow
        (List.Subset.refl _)
      obtain ⟨kept, hkept, haa⟩ := hall a ha
      obtain ⟨kept', hkept', hbb⟩ := hall b hb
      rw [hkept] at hkept'
      cases hkept'
      exact haa.of_le hnc hbb hle
    refine ⟨Agrees.prefixConsistent hagrees, fun hnc hsize => ?_⟩
    rcases hagrees hnc with ⟨-, hroot⟩ | hbefore
    · exact hroot
    · exact hbefore.root_eq hnc hsize

end

/-! ## A record dropped -/

section
variable {σ ε : Type} {sha256 : List UInt8 → Hash} {src : TileSource σ ε} {r r₁ : TreeReader σ} {data : List UInt8}

theorem tileData_served {tile : Tile} {source : σ} (hnone : r.tiles tile = none)
    (htile : src.tile r.source tile = .ok (data, source)) (hlen : data.length = tile.width * 32) :
    tileData src tile r = .ok (data, { r with source, tiles := Function.update r.tiles tile (some data) }) := by
  simp only [tileData, hnone, htile, hlen, ne_eq, not_true_eq_false, if_false]

/-- A subtree of one tile hash. -/
theorem subtree_one {level i : Nat} (hdata : tileData src (tileOf r.size level i) r = .ok (data, r₁)) :
    subtree sha256 src (level * TILE_HEIGHT) i r = .ok (hashAt data (i % TILE_WIDTH), r₁) := by
  have hstart : i - i / TILE_WIDTH * TILE_WIDTH = i % TILE_WIDTH := by
    have := Nat.mod_add_div' i TILE_WIDTH
    omega
  simp only [subtree, Nat.mul_div_cancel _ (show 0 < TILE_HEIGHT by decide), Nat.mul_mod_left, pow_zero, Nat.mul_one,
    hdata, bind, Except.bind, hstart]
  rfl

/-- The first two hashes of a tile. -/
theorem subtree_pair (hdata : tileData src (tileOf r.size 0 0) r = .ok (data, r₁)) :
    subtree sha256 src 1 0 r = .ok (node sha256 (hashAt data 0) (hashAt data 1),
      { r₁ with hashed := nodeInput (hashAt data 0) (hashAt data 1) :: r₁.hashed }) := by
  change (tileData src (tileOf r.size 0 0) r >>= _) = _
  rw [hdata]
  rfl

end

namespace Dropped

open Example (path version)

def config : SumdbConfig := { verifier := ⟨"db".toList, 0, []⟩, url := "https://db".toList }

/-- The text of a checkpoint. -/
def checkpointText (size root : String) : Str := ("db\n" ++ size ++ "\n" ++ root ++ "\n").toList

def signed (size root : String) : Str := checkpointText size root ++ "\n— db sig\n".toList

/-- The toy hash, and a database that signs two checkpoints. -/
def crypto : Crypto where
  sha256 := toyHash
  encode _ := []
  decode s :=
    if s = "two".toList then some (code 2 true).toList
    else if s = "many".toList then some (code 257 false).toList
    else if s = "sig".toList then some [0, 0, 0, 0]
    else some (List.replicate 32 0)
  verifyStrict _ text _ := text = utf8 (checkpointText "2" "two") ∨ text = utf8 (checkpointText "257" "many")

def hash : H1 := ⟨"h1:AAAAAAAAAAAAAAAAAAAAAAAAAAAAAAAAAAAAAAAAAAA=".toList⟩

def record : Record := ⟨path, version, hash, hash⟩

def body (index size root : String) : Str :=
  (index ++ "\n").toList ++ record.toText ++ ['\n'] ++ signed size root

/-- A server with a lookup and tiles. -/
def server (index size root : String) (tile : Str → List UInt8) : World Unit :=
  { Example.world [] with
    get := fun url w => (.ok ⟨200, if url = lookupUrl config path version then utf8 (body index size root) else tile url⟩, w) }

/-- The tree of two leaves. -/
def firstTile : List UInt8 := (code 1 false).toList ++ (code 1 true).toList

/-- The leaves shown below the hash of the first 256 leaves: the tree of two leaves. -/
def wideTile : List UInt8 := firstTile ++ List.replicate 8128 0

/-- The tree of 257 equal leaves, and below the hash of the first 256 of them the leaves of the tree of two. -/
def laterTile (url : Str) : List UInt8 :=
  if url = "https://db/tile/1/000.p/1".toList then (code 256 false).toList
  else if url = "https://db/tile/0/001.p/1".toList then (code 1 false).toList
  else wideTile

def firstQuery : Query Unit := ⟨server "0" "2" "two" fun _ => firstTile, (), path, version⟩
def laterQuery : Query Unit := ⟨server "256" "257" "many" laterTile, (), path, version⟩

def two : Checkpoint := ⟨"db".toList, 2, code 2 true⟩
def many : Checkpoint := ⟨"db".toList, 257, code 257 false⟩

theorem parse_first : Lookup.parse crypto (body "0" "2" "two") = some ⟨0, record, record.toText, signed "2" "two"⟩ := by
  rfl

theorem parse_later :
    Lookup.parse crypto (body "256" "257" "many") = some ⟨256, record, record.toText, signed "257" "many"⟩ := by
  rfl

theorem open_two : openCheckpoint crypto config (signed "2" "two") = .ok two := by rfl

theorem open_many : openCheckpoint crypto config (signed "257" "many") = .ok many := by rfl

/-- The text of the record, as it is hashed. -/
def leafInput : List UInt8 := recordInput (utf8 record.toText)

theorem leaf_eq : toyHash leafInput = code 1 false := by rfl

theorem tile_server {index size root : String} {tiles : Str → List UInt8} {tile : Tile} {data : List UInt8}
    (hurl : config.url ++ ['/'] ++ tile.path ≠ lookupUrl config path version)
    (hdata : tiles (config.url ++ ['/'] ++ tile.path) = data) :
    (sumdbTiles (server index size root tiles) config).tile () tile = .ok (data, ()) := by
  have hget : (server index size root tiles).get (config.url ++ ['/'] ++ tile.path) () = (.ok ⟨200, data⟩, ()) := by
    simp only [server]
    rw [if_neg hurl, hdata]
  simp only [sumdbTiles, hget]
  rfl

theorem inclusion_first : ∃ reader,
    verifyInclusion toyHash (sumdbTiles firstQuery.world config) () 2 (code 2 true) 0 (utf8 record.toText) = .ok ((), reader) ∧
      reader.source = () ∧ reader.hashed = [nodeInput (code 1 false) (code 1 true), leafInput] := by
  let r : TreeReader Unit := { TreeReader.new 2 () with hashed := [leafInput] }
  let r₁ : TreeReader Unit := { r with tiles := Function.update r.tiles (tileOf r.size 0 1) (some firstTile) }
  have htile : tileData (sumdbTiles firstQuery.world config) (tileOf r.size 0 1) r = .ok (firstTile, r₁) :=
    tileData_served rfl (tile_server (by decide) rfl) (by decide)
  have hright := @subtree_one _ _ toyHash _ _ _ _ 0 _ htile
  have hhash : hashAt firstTile (1 % TILE_WIDTH) = code 1 true := by decide
  rw [hhash] at hright
  refine ⟨{ r₁ with hashed := nodeInput (code 1 false) (code 1 true) :: r₁.hashed }, ?_, rfl, rfl⟩
  unfold verifyInclusion
  rw [if_neg (by decide)]
  refine Read.bind_ok.mpr ⟨code 1 false, r, rfl, Read.bind_ok.mpr ⟨code 2 true, _, ?_, rfl⟩⟩
  rw [rootWithLeaf, ← Nat.zero_add 2, range_some_split (by decide) (by decide) (by decide)]
  refine Read.bind_ok.mpr ⟨code 1 false, r, ?_, Read.bind_ok.mpr ⟨code 1 true, r₁, ?_, ?_⟩⟩
  · rw [show split (0 + 2) = 1 from by decide, range_some_one rfl]
    rfl
  · rw [show split (0 + 2) = 2 ^ 0 from by decide]
    exact (congrFun (@range_some_outside _ _ _ _ 1 0 _ _ (by decide) (by decide)) r).trans hright
  · rw [nodeHash_ok, node_code (by decide) (by decide)]

/-- The client reads the hash of the first 256 leaves. -/
theorem subtree_later {r : TreeReader Unit} (hsize : r.size = 257) (htiles : r.tiles = fun _ => none) :
    subtree toyHash (sumdbTiles laterQuery.world config) 8 0 r =
      .ok (code 256 false, { r with tiles := Function.update r.tiles (tileOf r.size 1 0) (some (code 256 false).toList) }) := by
  have hhash : hashAt (code 256 false).toList (0 % TILE_WIDTH) = code 256 false := by decide
  have htile : tileData (sumdbTiles laterQuery.world config) (tileOf r.size 1 0) r =
      .ok ((code 256 false).toList, { r with tiles := Function.update r.tiles (tileOf r.size 1 0) (some (code 256 false).toList) }) := by
    have hserved := @tile_server "256" "257" "many" laterTile (tileOf 257 1 0) (code 256 false).toList (by decide)
      (by decide)
    obtain ⟨size, source, tiles, hashed⟩ := r
    obtain rfl : size = 257 := hsize
    obtain rfl : tiles = fun _ => none := htiles
    exact @tileData_served _ _ _ _ _ (tileOf 257 1 0) _ rfl hserved (by decide)
  have hrun := @subtree_one _ _ toyHash _ _ _ _ 1 _ htile
  rwa [hhash] at hrun

theorem inclusion_later : ∃ reader,
    verifyInclusion toyHash (sumdbTiles laterQuery.world config) () 257 (code 257 false) 256 (utf8 record.toText) =
        .ok ((), reader) ∧
      reader.source = () ∧ reader.hashed = [nodeInput (code 256 false) (code 1 false), leafInput] := by
  let r : TreeReader Unit := { TreeReader.new 257 () with hashed := [leafInput] }
  let r₁ : TreeReader Unit :=
    { r with tiles := Function.update r.tiles (tileOf r.size 1 0) (some (code 256 false).toList) }
  refine ⟨{ r₁ with hashed := nodeInput (code 256 false) (code 1 false) :: r₁.hashed }, ?_, rfl, rfl⟩
  unfold verifyInclusion
  rw [if_neg (by decide)]
  refine Read.bind_ok.mpr ⟨code 1 false, r, rfl, Read.bind_ok.mpr ⟨code 257 false, _, ?_, rfl⟩⟩
  rw [rootWithLeaf, ← Nat.zero_add 257, range_some_split (by decide) (by decide) (by decide)]
  refine Read.bind_ok.mpr ⟨code 256 false, r₁, ?_, Read.bind_ok.mpr ⟨code 1 false, r₁, ?_, ?_⟩⟩
  · rw [show split (0 + 257) = 2 ^ 8 from by decide]
    exact (congrFun (@range_some_outside _ _ _ _ 0 8 _ _ (by decide) (by decide)) r).trans (subtree_later rfl rfl)
  · rw [show 0 + split (0 + 257) = 256 from by decide, range_some_one rfl]
    rfl
  · rw [nodeHash_ok, node_code (by decide) (by decide)]

theorem wideTile_length : wideTile.length = 256 * 32 := by
  rw [wideTile, List.length_append, List.length_replicate]
  rfl

theorem laterTile_wide : laterTile (config.url ++ ['/'] ++ (tileOf 257 0 0).path) = wideTile := by
  rw [laterTile, if_neg (by decide), if_neg (by decide)]

theorem consistency_later : ∃ reader,
    verifyConsistency toyHash (sumdbTiles laterQuery.world config) () 2 (code 2 true) 257 (code 257 false) = .ok ((), reader) ∧
      reader.source = () ∧
      reader.hashed = [nodeInput (code 1 false) (code 1 true), nodeInput (code 256 false) (code 1 false)] := by
  let r : TreeReader Unit := TreeReader.new 257 ()
  let r₁ : TreeReader Unit :=
    { r with tiles := Function.update r.tiles (tileOf r.size 1 0) (some (code 256 false).toList) }
  let r₂ : TreeReader Unit :=
    { r₁ with tiles := Function.update r₁.tiles (tileOf r₁.size 0 256) (some (code 1 false).toList) }
  let r₃ : TreeReader Unit := { r₂ with hashed := [nodeInput (code 256 false) (code 1 false)] }
  let r₄ : TreeReader Unit := { r₃ with tiles := Function.update r₃.tiles (tileOf r₃.size 0 0) (some wideTile) }
  -- the last leaf
  have htile : tileData (sumdbTiles laterQuery.world config) (tileOf r₁.size 0 256) r₁ = .ok ((code 1 false).toList, r₂) :=
    tileData_served (by rfl) (tile_server (by decide) (by decide)) (by decide)
  have hhash : hashAt (code 1 false).toList (256 % TILE_WIDTH) = code 1 false := by decide
  have hright := @subtree_one _ _ toyHash _ _ _ _ 0 _ htile
  rw [hhash] at hright
  -- the first two leaves, from a tile the root says nothing about
  have htile : tileData (sumdbTiles laterQuery.world config) (tileOf r₃.size 0 0) r₃ = .ok (wideTile, r₄) :=
    tileData_served (by rfl) (tile_server (by decide) laterTile_wide) wideTile_length
  have hhash₀ : hashAt wideTile 0 = code 1 false := by decide
  have hhash₁ : hashAt wideTile 1 = code 1 true := by decide
  have hold := @subtree_pair _ _ toyHash _ _ _ _ htile
  rw [hhash₀, hhash₁, node_code (by decide) (by decide)] at hold
  refine ⟨{ r₄ with hashed := nodeInput (code 1 false) (code 1 true) :: r₄.hashed }, ?_, rfl, rfl⟩
  unfold verifyConsistency
  rw [if_neg (by decide)]
  refine Read.bind_ok.mpr ⟨code 257 false, r₃, ?_, ?_⟩
  · rw [root_pos (by decide), range_none_split (by decide) (by decide)]
    refine Read.bind_ok.mpr ⟨code 256 false, r₁, ?_, Read.bind_ok.mpr ⟨code 1 false, r₂, ?_, ?_⟩⟩
    · rw [show split 257 = 2 ^ 8 from by decide]
      exact (congrFun (@range_none_two_pow _ _ _ _ 0 8 (by decide)) r).trans (subtree_later rfl rfl)
    · rw [show split 257 = 256 from by decide]
      exact (congrFun (@range_none_two_pow _ _ _ _ 256 0 (by decide)) r₁).trans hright
    · rw [nodeHash_ok, node_code (by decide) (by decide)]
      rfl
  · rw [if_neg (by simp)]
    refine Read.bind_ok.mpr ⟨code 2 true, _, ?_, by rw [if_neg (by simp)]; rfl⟩
    rw [root_pos (by decide)]
    exact (congrFun (@range_none_two_pow _ _ _ _ 0 1 (by decide)) r₃).trans hold

/-- The cache with the first checkpoint. -/
def afterFirst : Cache :=
  { Cache.empty with files := Function.update Cache.empty.files (checkpointFile config.verifier.name) (some (utf8 (signed "2" "two"))) }

theorem lookup_first :
    (Lookups.start Cache.empty).next crypto config firstQuery =
      ⟨afterFirst, [nodeInput (code 1 false) (code 1 true), leafInput], [two]⟩ := by
  obtain ⟨reader, hincl, -, hhashed⟩ := inclusion_first
  have hadvance : runFetch (advance firstQuery.world crypto config two (signed "2" "two"))
      ⟨Cache.empty, (), reader.hashed ++ []⟩ = (.ok (), ⟨afterFirst, (), reader.hashed ++ []⟩) := by
    rfl
  have hrun := @sumdbLookup_run _ crypto config firstQuery.world ⟨Cache.empty, (), []⟩ _ path version
    ⟨200, utf8 (body "0" "2" "two")⟩ () _ _ _ _ rfl rfl (fromUtf8_utf8 _) parse_first ⟨rfl, rfl⟩ open_two hincl hadvance
  rw [hhashed] at hrun
  exact Lookups.next_ok (l := Lookups.start Cache.empty) (q := firstQuery) hrun

theorem lookup_later : ∃ cache,
    Lookups.next crypto config ⟨afterFirst, [nodeInput (code 1 false) (code 1 true), leafInput], [two]⟩ laterQuery =
      ⟨cache, [nodeInput (code 1 false) (code 1 true), nodeInput (code 256 false) (code 1 false),
        nodeInput (code 256 false) (code 1 false), leafInput, nodeInput (code 1 false) (code 1 true), leafInput],
        [many, two]⟩ := by
  obtain ⟨reader, hincl, hsource, hhashed⟩ := inclusion_later
  obtain ⟨reader', hcheck, hsource', hhashed'⟩ := consistency_later
  have hread : (afterFirst.files (checkpointFile config.verifier.name)).bind fromUtf8 = some (signed "2" "two") := by
    have hfile : afterFirst.files (checkpointFile config.verifier.name) = some (utf8 (signed "2" "two")) := by
      simp only [afterFirst, Function.update_self]
    rw [hfile, Option.bind_some, fromUtf8_utf8]
  have hadvance := @advance_run _ crypto config laterQuery.world ⟨afterFirst, reader.source, reader.hashed ++
      [nodeInput (code 1 false) (code 1 true), leafInput]⟩ many _ (signed "257" "many") _ _ () rfl hread open_two (by decide)
    hcheck rfl
  have hrun := @sumdbLookup_run _ crypto config laterQuery.world
    ⟨afterFirst, (), [nodeInput (code 1 false) (code 1 true), leafInput]⟩ _ path version
    ⟨200, utf8 (body "256" "257" "many")⟩ () _ _ _ _ rfl rfl (fromUtf8_utf8 _) parse_later ⟨rfl, rfl⟩ open_many hincl
    hadvance
  rw [hhashed, hhashed'] at hrun
  exact ⟨_, Lookups.next_ok (l := ⟨afterFirst, [nodeInput (code 1 false) (code 1 true), leafInput], [two]⟩)
    (q := laterQuery) hrun⟩

end Dropped

open Dropped in
/-- The checkpoint of the tree of two leaves is consistent with itself. -/
theorem lookups_consistent_first :
    two.root = mth toyHash [code 1 false, code 1 true] := by
  have hrun := lookups_consistent crypto config Cache.empty [firstQuery] ⟨fun _ _ => rfl, trivial⟩
  rw [Lookups.run, List.foldl_cons, List.foldl_nil, lookup_first] at hrun
  have hlow : (Lookups.start Cache.empty).LowBitsZero crypto config [firstQuery] :=
    ⟨fun seen hseen => (by cases hseen), trivial⟩
  have hmth : mth toyHash [code 1 false, code 1 true] = code 2 true := by
    rw [mth_eq (by simp)]
    exact (rangeHash_two _ _ _).trans (node_code (by decide) (by decide))
  have hpairs : mthInputs toyHash [code 1 false, code 1 true] = [nodeInput (code 1 false) (code 1 true)] := by
    rw [mthInputs_eq (by simp)]
    exact congrArg _ (rangePairs_two _ _ _)
  refine (hrun.2 hlow two (by simp) two (by simp) (Nat.le_refl _)).1 _ rfl hmth ?_
  refine noCollision_cons_shaped (L := 0) leafInput leaf_eq fun x hx => ?_
  have hshaped : Shaped 0 (nodeInput (code 1 false) (code 1 true)) := ⟨1, 1, true, by decide, by decide, by decide, rfl⟩
  rw [show crypto.sha256 = toyHash from rfl, show List.take two.size [code 1 false, code 1 true] = [code 1 false, code 1 true] from rfl,
    hpairs] at hx
  simp only [List.mem_append, List.mem_cons, List.not_mem_nil, or_false] at hx
  rcases hx with ((rfl | rfl) | rfl) | rfl
  · exact .inr hshaped
  · exact .inl rfl
  · exact .inr hshaped
  · exact .inr hshaped

open Dropped in
/-- A tree of two leaves, and then a larger one whose first two leaves are others: both are accepted. -/
theorem not_lookups_consistent :
    ¬∀ (crypto : Crypto) (config : SumdbConfig) (cache : Cache) (queries : List (Query Unit)),
      ∀ a ∈ ((Lookups.start cache).run crypto config queries).accepted,
      ∀ b ∈ ((Lookups.start cache).run crypto config queries).accepted, a.size ≤ b.size →
        PrefixConsistent crypto ((Lookups.start cache).run crypto config queries).hashed a b := by
  intro h
  have h := h crypto config Cache.empty [firstQuery, laterQuery]
  obtain ⟨cache, hlater⟩ := lookup_later
  rw [Lookups.run, List.foldl_cons, List.foldl_cons, List.foldl_nil, lookup_first, hlater] at h
  have htake : (List.replicate 257 (code 1 false)).take two.size = List.replicate 2 (code 1 false) := by
    rw [List.take_replicate]
    rfl
  have hroot := h two (by simp) many (by simp) (by decide) (List.replicate 257 (code 1 false)) List.length_replicate
    (mth_const (by decide) (by decide)) (noCollision_cons_shaped (L := 0) leafInput leaf_eq fun x hx => by
      have hshaped : Shaped 0 (nodeInput (code 1 false) (code 1 true)) := ⟨1, 1, true, by decide, by decide, by decide, rfl⟩
      have hshaped' : Shaped 0 (nodeInput (code 256 false) (code 1 false)) :=
        ⟨256, 1, false, by decide, by decide, by decide, rfl⟩
      rw [htake] at hx
      simp only [List.mem_append, List.mem_cons, List.not_mem_nil, or_false] at hx
      rcases hx with ((rfl | rfl | rfl | rfl | rfl | rfl) | hx) | hx
      · exact .inr hshaped
      · exact .inr hshaped'
      · exact .inr hshaped'
      · exact .inl rfl
      · exact .inr hshaped
      · exact .inl rfl
      · exact .inr (shaped_mthInputs (w := 257) (by decide) (by decide) hx)
      · exact .inr (shaped_mthInputs (w := 2) (by decide) (by decide) hx))
  rw [htake] at hroot
  have hconst : mth crypto.sha256 (List.replicate 2 (code 1 false)) = code 2 false := mth_const (by decide) (by decide)
  rw [hconst] at hroot
  exact absurd (code_injective (by decide) (by decide) hroot).2 (by decide)

end Emela.Pome
