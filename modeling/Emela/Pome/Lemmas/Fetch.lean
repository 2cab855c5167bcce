import Emela.Pome.Fetch

/-!
# What the calls of the fetcher do to the cache

Only `putDir` makes a directory, and it never replaces one.
-/

namespace Emela.Pome

variable {σ α β : Type} {world : World σ} {crates : Crates} {config : Config} {m m' : Machine σ}

/-! ## Running -/

theorem runFetch_bind (x : Fetch σ α) (f : α → Fetch σ β) (m : Machine σ) :
    runFetch (x >>= f) m = match runFetch x m with
      | (.ok a, m') => runFetch (f a) m'
      | (.error e, m') => (.error e, m') := by
  show (match runFetch x m with | (r, m') => ExceptT.bindCont f r m') = _
  rcases runFetch x m with ⟨_ | _, _⟩ <;> rfl

theorem runFetch_bind_ok {x : Fetch σ α} {f : α → Fetch σ β} {b : β} :
    runFetch (x >>= f) m = (.ok b, m') ↔ ∃ a m₁, runFetch x m = (.ok a, m₁) ∧ runFetch (f a) m₁ = (.ok b, m') := by
  rw [runFetch_bind]
  rcases runFetch x m with ⟨_ | a, m₁⟩ <;> simp

theorem runFetch_pure_ok {a b : α} : runFetch (pure a) m = (.ok b, m') ↔ a = b ∧ m = m' := by
  show (Except.ok a, m) = (Except.ok b, m') ↔ _
  simp

theorem runFetch_lift_ok {r : Except FetchError α} {a : α} :
    runFetch (ExceptT.mk (Pure.pure r)) m = (.ok a, m') ↔ r = .ok a ∧ m = m' := by
  show (r, m) = (Except.ok a, m') ↔ _
  simp

theorem runFetch_require_ok {holds : Bool} {e : FetchError} :
    runFetch (require holds e) m = (.ok (), m') ↔ holds = true ∧ m = m' := by
  cases holds
  · show (Except.error e, m) = (Except.ok (), m') ↔ _
    simp
  · show (Except.ok (), m) = (Except.ok (), m') ↔ _
    simp

/-! ## Directories stay -/

/-- The call makes no directory. -/
def KeepsDirs (x : Fetch σ α) : Prop := ∀ m, (runFetch x m).2.cache.dirs = m.cache.dirs

theorem KeepsDirs.pure (a : α) : KeepsDirs (pure a : Fetch σ α) := fun _ => rfl

theorem KeepsDirs.throw (e : FetchError) : KeepsDirs (throw e : Fetch σ α) := fun _ => rfl

theorem KeepsDirs.lift (r : Except FetchError α) : KeepsDirs (ExceptT.mk (Pure.pure r) : Fetch σ α) := fun _ => rfl

theorem KeepsDirs.bind {x : Fetch σ α} {f : α → Fetch σ β} (hx : KeepsDirs x) (hf : ∀ a, KeepsDirs (f a)) :
    KeepsDirs (x >>= f) := by
  intro m
  rw [runFetch_bind]
  have h := hx m
  rcases hrun : runFetch x m with ⟨_ | a, m₁⟩
  · rwa [hrun] at h
  · rw [hrun] at h
    exact (hf a m₁).trans h

theorem KeepsDirs.ite {c : Prop} [Decidable c] {x y : Fetch σ α} (hx : KeepsDirs x) (hy : KeepsDirs y) :
    KeepsDirs (if c then x else y) := by
  split
  · exact hx
  · exact hy

theorem KeepsDirs.require {holds : Bool} {e : FetchError} : KeepsDirs (require holds e : Fetch σ Unit) :=
  .ite (.pure _) (.throw _)

theorem keepsDirs_transportGet (url : Str) : KeepsDirs (transportGet world url) := fun _ => rfl

theorem keepsDirs_readFile (file : Str) : KeepsDirs (readFile world file) := by
  intro m
  simp only [runFetch, readFile]
  rcases world.load file m.world with ⟨_ | _, _⟩ <;> rfl

theorem keepsDirs_putFile (file : Str) (content : List UInt8) : KeepsDirs (putFile world file content) := by
  intro m
  simp only [runFetch, putFile]
  rcases world.store file m.world with ⟨_ | _, _⟩ <;> rfl

theorem keepsDirs_runCheck {sumdb : SumdbConfig} {mismatch : String}
    (check : σ → Except (ProofError FetchError) (Unit × TreeReader σ)) : KeepsDirs (runCheck sumdb check mismatch) := by
  intro m
  simp only [runFetch, runCheck]
  rcases check m.world with _ | ⟨_, _⟩ <;> rfl

theorem keepsDirs_advance {crypto : Crypto} {sumdb : SumdbConfig} (new : Checkpoint) (signed : Str) :
    KeepsDirs (advance world crypto sumdb new signed) := by
  refine (keepsDirs_readFile _).bind fun seen => ?_
  cases seen.bind fromUtf8 with
  | none => exact keepsDirs_putFile _ _
  | some text =>
    refine (KeepsDirs.lift _).bind fun seen => (keepsDirs_runCheck _).bind fun _ => ?_
    exact .ite (keepsDirs_putFile _ _) (.pure _)

theorem keepsDirs_sumdbLookup {crypto : Crypto} {sumdb : SumdbConfig} (path : SourcePath) (version : Version) :
    KeepsDirs (sumdbLookup world crypto sumdb path version) := by
  refine (keepsDirs_transportGet _).bind fun answer => ?_
  cases answer with
  | error m => exact .throw _
  | ok res =>
    refine KeepsDirs.require.bind fun _ => KeepsDirs.require.bind fun _ => ?_
    split
    · exact .throw _
    · split
      · exact .throw _
      · refine KeepsDirs.require.bind fun _ => (KeepsDirs.lift _).bind fun checkpoint => ?_
        exact (keepsDirs_runCheck _).bind fun _ => (keepsDirs_advance _ _).bind fun _ => .pure _

theorem keepsDirs_lookupRecord (path : SourcePath) (version : Version) :
    KeepsDirs (lookupRecord world crates config path version) := by
  unfold lookupRecord
  cases config.sumdbFor path with
  | none => exact .pure _
  | some sumdb => exact (keepsDirs_sumdbLookup _ _).bind fun _ => .pure _

theorem keepsDirs_proxyGet (base rest : Str) : KeepsDirs (proxyGet world base rest) := by
  refine (keepsDirs_transportGet _).bind fun answer => ?_
  cases answer with
  | error m => exact .throw _
  | ok res => exact .ite (.pure _) (.ite (.throw _) (.throw _))

theorem keepsDirs_first {path : SourcePath} {f : Source → Fetch σ α} (hf : ∀ source, KeepsDirs (f source)) :
    KeepsDirs (first config path f) := by
  have hgo : ∀ (sources : List Source) (last : Str), KeepsDirs (first.go f last sources) := by
    intro sources
    induction sources with
    | nil => exact fun last => .throw _
    | cons source rest ih =>
      intro last m
      have h := hf source m
      simp only [runFetch, first.go] at h ⊢
      split
      · next message m₁ hrun =>
        rw [hrun] at h
        exact (ih message m₁).trans h
      · exact h
  exact .ite (.throw _) (hgo _ _)

theorem keepsDirs_filesOf (world : World σ) (crates : Crates) (config : Config) (path : SourcePath) (version : Version) :
    KeepsDirs (filesOf world crates config path version) := by
  refine keepsDirs_first fun source => ?_
  cases source with
  | direct => exact fun _ => rfl
  | proxy base =>
    refine (keepsDirs_proxyGet _ _).bind fun info => ?_
    cases crates.info info with
    | error e => exact .throw _
    | ok parts =>
      refine .ite (.throw _) ((keepsDirs_proxyGet _ _).bind fun archive => ?_)
      split
      · exact .throw _
      · exact .pure _

theorem keepsDirs_checkRecord (path : SourcePath) (version : Version) (tree manifest : H1) (record : Option Record) :
    KeepsDirs (checkRecord path version tree manifest record : Fetch σ Unit) := by
  cases record with
  | none => exact .pure _
  | some record => exact KeepsDirs.require.bind fun _ => .require

/-! ## Making a directory -/

/-- The call makes the directory with the files, or none. -/
def MayStore (dir : Str) (files : Files) (x : Fetch σ α) : Prop := ∀ m,
  (runFetch x m).2.cache.dirs = m.cache.dirs ∨
    m.cache.dirs dir = none ∧ (runFetch x m).2.cache.dirs = Function.update m.cache.dirs dir (some files)

section
variable {dir : Str} {files : Files} {x : Fetch σ α} {f : α → Fetch σ β}

theorem MayStore.after_keeps (hx : KeepsDirs x) (hf : ∀ a, MayStore dir files (f a)) : MayStore dir files (x >>= f) := by
  intro m
  rw [runFetch_bind]
  have h := hx m
  rcases hrun : runFetch x m with ⟨_ | a, m₁⟩
  · rw [hrun] at h
    exact .inl h
  · rw [hrun] at h
    have h' := hf a m₁
    dsimp only at h
    rwa [h] at h'

theorem MayStore.then_keeps (hx : MayStore dir files x) (hf : ∀ a, KeepsDirs (f a)) :
    MayStore dir files (x >>= f) := by
  intro m
  rw [runFetch_bind]
  have h := hx m
  rcases hrun : runFetch x m with ⟨_ | a, m₁⟩
  · rwa [hrun] at h
  · rw [hrun] at h
    dsimp only at h ⊢
    rwa [hf a m₁]

theorem mayStore_putDir (path : SourcePath) (version : Version) (files : Files) :
    MayStore (cacheDir path version) files (putDir world path version files) := by
  intro m
  simp only [runFetch, putDir]
  split
  · exact .inl rfl
  · next hnone =>
    split
    · exact .inl rfl
    · split
      · exact .inl rfl
      · exact .inr ⟨hnone, rfl⟩

end

/-- What a call got from the sources. -/
def served (r : Except FetchError (Str × Files)) : Option Files := match r with
  | .ok (_, files) => some files
  | .error _ => none

/-- A call that gets the files of a version and may store them. -/
theorem stores_of_filesOf {path : SourcePath} {version : Version} {dir : Str} {f : Str × Files → Fetch σ α}
    (hf : ∀ commit files, MayStore dir files (f (commit, files))) (m : Machine σ) :
    let after := (runFetch (filesOf world crates config path version >>= f) m).2.cache.dirs
    after = m.cache.dirs ∨ ∃ files, served (runFetch (filesOf world crates config path version) m).1 = some files ∧
      m.cache.dirs dir = none ∧ after = Function.update m.cache.dirs dir (some files) := by
  intro after
  have hkeep := keepsDirs_filesOf world crates config path version m
  simp only [after, runFetch_bind]
  rcases hrun : runFetch (filesOf world crates config path version) m with ⟨e | ⟨commit, files⟩, m₁⟩
  · rw [hrun] at hkeep
    exact .inl hkeep
  · rw [hrun] at hkeep
    dsimp only at hkeep ⊢
    rw [← hkeep]
    exact (hf commit files m₁).imp_right fun h => ⟨files, rfl, h⟩

theorem download_dirs (path : SourcePath) (version : Version) (m : Machine σ) :
    let after := (runFetch (download world crates config path version) m).2.cache.dirs
    after = m.cache.dirs ∨ ∃ files, served (runFetch (filesOf world crates config path version) m).1 = some files ∧
      m.cache.dirs (cacheDir path version) = none ∧
      after = Function.update m.cache.dirs (cacheDir path version) (some files) := by
  refine stores_of_filesOf (fun commit files => ?_) m
  refine .after_keeps (.lift _) fun ⟨tree, manifest⟩ => .after_keeps (keepsDirs_lookupRecord _ _) fun record => ?_
  refine .after_keeps (keepsDirs_checkRecord _ _ _ _ _) fun _ => .then_keeps (mayStore_putDir _ _ _) fun _ => ?_
  exact (KeepsDirs.lift _).bind fun content => (keepsDirs_putFile _ _).bind fun _ => .pure _

theorem fetchLocked_dirs (locked : Locked) (m : Machine σ) :
    let after := (runFetch (fetchLocked world crates config locked) m).2.cache.dirs
    after = m.cache.dirs ∨
      ∃ files, served (runFetch (filesOf world crates config locked.path locked.version) m).1 = some files ∧
        m.cache.dirs (cacheDir locked.path locked.version) = none ∧
        after = Function.update m.cache.dirs (cacheDir locked.path locked.version) (some files) := by
  refine stores_of_filesOf (fun commit files => ?_) m
  exact .after_keeps (.lift _) fun _ => .after_keeps .require fun _ => mayStore_putDir _ _ _

theorem ensure_cached (world : World σ) (crates : Crates) (config : Config) {locked : Locked} {files : Files}
    (h : m.cache.dirs (cacheDir locked.path locked.version) = some files) :
    runFetch (ensure world crates config locked) m = (.ok (cacheDir locked.path locked.version), m) := by
  have hdir : runFetch (dirFiles (cacheDir locked.path locked.version)) m =
      (.ok (m.cache.dirs (cacheDir locked.path locked.version)), m) := rfl
  rw [ensure, runFetch_bind, hdir, h]
  rfl

theorem ensure_missing (world : World σ) (crates : Crates) (config : Config) {locked : Locked}
    (h : m.cache.dirs (cacheDir locked.path locked.version) = none) :
    runFetch (ensure world crates config locked) m = runFetch (fetchLocked world crates config locked) m := by
  have hdir : runFetch (dirFiles (cacheDir locked.path locked.version)) m =
      (.ok (m.cache.dirs (cacheDir locked.path locked.version)), m) := rfl
  rw [ensure, runFetch_bind, hdir, h]

theorem runFetch_putDir {path : SourcePath} {version : Version} {files : Files} {dir : Str}
    (h : runFetch (putDir world path version files) m = (.ok dir, m')) :
    dir = cacheDir path version ∧
      m'.cache.dirs = Function.update m.cache.dirs dir (some ((m.cache.dirs dir).getD files)) := by
  simp only [runFetch, putDir] at h
  split at h
  · next old hold =>
    cases h
    refine ⟨rfl, ?_⟩
    rw [hold, Option.getD_some, ← hold, Function.update_eq_self]
  · next hnone =>
    split at h
    · cases h
    · split at h
      · cases h
      · cases h
        exact ⟨rfl, by rw [hnone]; rfl⟩

theorem hashesOf_tree {path : SourcePath} {version : Version} {files : Files} {tree manifest : H1}
    (h : hashesOf crates path version files = .ok (tree, manifest)) : treeHash crates.toCrypto files = .ok tree := by
  unfold hashesOf at h
  cases ht : treeHash crates.toCrypto files with
  | error e =>
    rw [ht] at h
    cases h
  | ok t =>
    rw [ht] at h
    cases hm : manifestOf path version files with
    | error e =>
      rw [hm] at h
      cases h
    | ok content =>
      rw [hm] at h
      cases h
      rfl

/-- A version that is fetched for the lock has the hash in the lock. -/
theorem fetchLocked_ok {locked : Locked} {dir : Str} (h : runFetch (fetchLocked world crates config locked) m = (.ok dir, m'))
    (hnone : m.cache.dirs (cacheDir locked.path locked.version) = none) :
    dir = cacheDir locked.path locked.version ∧
      ∃ files, m'.cache.dirs dir = some files ∧ treeHash crates.toCrypto files = .ok locked.hash := by
  obtain ⟨⟨commit, files⟩, m₁, hfiles, h⟩ := runFetch_bind_ok.mp h
  obtain ⟨⟨tree, manifest⟩, m₂, hhash, h⟩ := runFetch_bind_ok.mp h
  obtain ⟨⟨⟩, m₃, hreq, h⟩ := runFetch_bind_ok.mp h
  obtain ⟨rfl, hdirs⟩ := runFetch_putDir h
  obtain ⟨hok, rfl⟩ := runFetch_lift_ok.mp hhash
  obtain ⟨htree, rfl⟩ := runFetch_require_ok.mp hreq
  have hkeep := keepsDirs_filesOf world crates config locked.path locked.version m
  rw [hfiles] at hkeep
  dsimp only at hkeep
  refine ⟨rfl, files, ?_, ?_⟩
  · rw [hdirs, hkeep, hnone, Function.update_self]
    rfl
  · rw [hashesOf_tree hok, of_decide_eq_true htree]

end Emela.Pome
