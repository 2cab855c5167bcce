import Emela.Stdlib.Lemmas.FileSystem

/-!
# The files over any run

The two lists stay sorted and apart, and each entry has its parent among the directories, as long as no
directory is removed whose entries all have `.` or `..` as their last component.
-/

namespace Emela.Stdlib

variable {st st' : TestFiles} {op : Operation} {path p q text : Str} {f : Option Str → Str}

/-- The paths in the two lists. -/
def TestFiles.entries (st : TestFiles) : List Str := st.files.map (·.1) ++ st.directories

/-- What holds of the two lists. -/
structure WellKept (st : TestFiles) : Prop where
  files : (st.files.map (·.1)).Pairwise (· < ·)
  directories : st.directories.Pairwise (· < ·)
  apart : ∀ path, st.isDir path = true → st.fileText path = none
  parents : ∀ p ∈ st.entries, ∀ q, Path.parent p = some q → q = Path.ROOT ∨ q ∈ st.directories

/-! ## Directories -/

/-- Where the parents are listed, the directories are the root and those in the list. -/
theorem isDir_iff (hparents : ∀ p ∈ st.entries, ∀ q, Path.parent p = some q → q = Path.ROOT ∨ q ∈ st.directories) :
    st.isDir path = true ↔ path = Path.ROOT ∨ path ∈ st.directories := by
  have hup : ∀ p ∈ st.allPaths, p = Path.ROOT ∨ p ∈ st.entries := by
    intro p hp
    obtain ⟨l, hl, hp⟩ := List.mem_flatten.mp hp
    obtain ⟨entry, hentry, rfl⟩ := List.mem_map.mp hl
    refine lineage_subset (S := fun p => p = Path.ROOT ∨ p ∈ st.entries) (.inr hentry) ?_ p hp
    rintro m q (rfl | hm) hq
    · cases Path.parent_root.symm.trans hq
    · exact (hparents m hm q hq).imp_right fun h => List.mem_append_right _ h
  simp only [TestFiles.isDir, Bool.or_eq_true, beq_iff_eq, List.any_eq_true, or_assoc]
  constructor
  · rintro (h | ⟨d, hd, rfl⟩ | ⟨p, hp, hparent⟩)
    · exact .inl h
    · exact .inr hd
    · obtain rfl | hp := hup p hp
      · cases Path.parent_root.symm.trans hparent
      · exact hparents p hp path hparent
  · rintro (h | h)
    · exact .inl h
    · exact .inr (.inl ⟨path, h, rfl⟩)

theorem WellKept.isDir_iff (h : WellKept st) : st.isDir path = true ↔ path = Path.ROOT ∨ path ∈ st.directories :=
  Stdlib.isDir_iff h.parents

/-- The ancestors of an entry are listed. -/
theorem WellKept.ancestors (h : WellKept st) (hp : p = Path.ROOT ∨ p ∈ st.entries) :
    ∀ q ∈ Stdlib.ancestors p, q = Path.ROOT ∨ q ∈ st.directories := by
  intro q hq
  rw [ancestors_eq] at hq
  cases hparent : Path.parent p with
  | none =>
    rw [hparent] at hq
    cases hq
  | some parent =>
    rw [hparent] at hq
    refine lineage_subset (S := fun q => q = Path.ROOT ∨ q ∈ st.directories) ?_ ?_ q hq
    · obtain rfl | hp := hp
      · cases Path.parent_root.symm.trans hparent
      · exact h.parents p hp parent hparent
    · rintro m q (rfl | hm) hq
      · cases Path.parent_root.symm.trans hq
      · exact h.parents m (List.mem_append_right _ hm) q hq

theorem wellKept_empty : WellKept TestFiles.empty := by
  refine ⟨.nil, .nil, fun path _ => rfl, fun p hp => ?_⟩
  cases hp

/-! ## Steps -/

theorem WellKept.putFile (h : WellKept st) (hok : st.putFile path f = .ok st') : WellKept st' := by
  obtain ⟨hdir, hparent, hdirectories, hfiles⟩ := putFile_ok hok
  have hpaths : st'.files.map (·.1) =
      ((st.files.map (·.1)).filter (· ≠ path)).filter (· < path) ++ [path] ++
        ((st.files.map (·.1)).filter (· ≠ path)).filter fun q => !decide (q < path) := by
    rw [hfiles]
    simp only [List.map_append, List.map_cons, List.map_nil, List.filter_map]
    rfl
  have hparents : ∀ p ∈ st'.entries, ∀ q, Path.parent p = some q → q = Path.ROOT ∨ q ∈ st'.directories := by
    intro p hp q hq
    rw [hdirectories]
    have hmem : p = path ∨ p ∈ st.entries := by
      rw [TestFiles.entries, hpaths, hdirectories] at hp
      simp only [TestFiles.entries, List.mem_append, List.mem_filter, List.mem_singleton] at hp ⊢
      tauto
    obtain rfl | hmem := hmem
    · exact h.isDir_iff.mp (hparent q hq)
    · exact h.parents p hmem q hq
  refine ⟨?_, hdirectories ▸ h.directories, fun q hq => ?_, hparents⟩
  · rw [hpaths]
    exact sorted_split (h.files.sublist List.filter_sublist) fun hmem => by simpa using (List.mem_filter.mp hmem).2
  · rw [Stdlib.isDir_iff hparents, hdirectories, ← h.isDir_iff] at hq
    rw [putFile_fileText hok, Function.update_of_ne]
    · exact h.apart q hq
    · rintro rfl
      rw [hdir] at hq
      cases hq

/-- Directories whose parents are listed with them are added. -/
theorem WellKept.insertAll (h : WellKept st) {ds : List Str} (hnew : ∀ d ∈ ds, d ≠ Path.ROOT → st.fileText d = none)
    (hparents : ∀ d ∈ ds, ∀ q, Path.parent d = some q → q = Path.ROOT ∨ q ∈ st.directories ∨ q ∈ ds) :
    WellKept { st with directories := ds.foldl insert st.directories } := by
  have hparents' : ∀ p ∈ ({ st with directories := ds.foldl insert st.directories } : TestFiles).entries, ∀ q,
      Path.parent p = some q → q = Path.ROOT ∨ q ∈ ds.foldl insert st.directories := by
    intro p hp q hq
    rw [mem_foldl_insert]
    simp only [TestFiles.entries, List.mem_append, mem_foldl_insert] at hp
    obtain hp | hp | hp := hp
    · exact (h.parents p (List.mem_append_left _ hp) q hq).imp_right .inl
    · exact (h.parents p (List.mem_append_right _ hp) q hq).imp_right .inl
    · exact hparents p hp q hq
  refine ⟨h.files, foldl_insert_sorted h.directories ds, fun q hq => ?_, hparents'⟩
  rw [Stdlib.isDir_iff hparents', mem_foldl_insert] at hq
  show st.fileText q = none
  obtain rfl | hq | hq := hq
  · exact h.apart _ (h.isDir_iff.mpr (.inl rfl))
  · exact h.apart q (h.isDir_iff.mpr (.inr hq))
  · by_cases hroot : q = Path.ROOT
    · exact h.apart q (h.isDir_iff.mpr (.inl hroot))
    · exact hnew q hq hroot

theorem WellKept.createDirectory (h : WellKept st) (hfile : st.fileText path = none)
    (hancestor : st.hasFileAncestor path = false) :
    WellKept { st with directories := ((lineage path).filter fun d => !st.isDir d).foldl insert st.directories } := by
  apply h.insertAll
  · intro d hd _
    obtain ⟨hd, -⟩ := List.mem_filter.mp hd
    obtain rfl | hd := List.mem_cons.mp hd
    · exact hfile
    · have hnone := List.any_eq_false.mp hancestor d hd
      simpa using hnone
  · intro d hd q hq
    obtain ⟨hd, -⟩ := List.mem_filter.mp hd
    have hmem : q ∈ lineage path := List.mem_cons_of_mem _ (parent_mem_ancestors hd hq)
    by_cases hdir : st.isDir q = true
    · exact (h.isDir_iff.mp hdir).imp_right .inl
    · exact .inr (.inr (List.mem_filter.mpr ⟨hmem, by simpa using hdir⟩))

/-- The ancestors of an entry are kept. -/
theorem WellKept.keepAncestors (h : WellKept st) (hp : p = Path.ROOT ∨ p ∈ st.entries) :
    WellKept { st with directories := (Stdlib.ancestors p).foldl insert st.directories } := by
  apply h.insertAll
  · intro d hd hroot
    obtain rfl | hd := h.ancestors hp d hd
    · exact absurd rfl hroot
    · exact h.apart d (h.isDir_iff.mpr (.inr hd))
  · intro d hd q hq
    exact .inr (.inr (parent_mem_ancestors (List.mem_cons_of_mem _ hd) hq))

theorem WellKept.removeFile (h : WellKept st) : WellKept { st with files := st.files.filter fun e => e.1 ≠ path } := by
  have hsub : (st.files.filter fun e => e.1 ≠ path).map (·.1) = (st.files.map (·.1)).filter (· ≠ path) := by
    rw [List.filter_map]
    rfl
  have hparents : ∀ p ∈ ({ st with files := st.files.filter fun e => e.1 ≠ path } : TestFiles).entries, ∀ q,
      Path.parent p = some q → q = Path.ROOT ∨ q ∈ st.directories := by
    intro p hp
    apply h.parents
    simp only [TestFiles.entries, hsub, List.mem_append, List.mem_filter] at hp ⊢
    exact hp.imp_left And.left
  refine ⟨?_, h.directories, fun q hq => ?_, hparents⟩
  · show ((st.files.filter fun e => e.1 ≠ path).map (·.1)).Pairwise (· < ·)
    rw [hsub]
    exact h.files.sublist List.filter_sublist
  · rw [Stdlib.isDir_iff hparents] at hq
    have hnone := h.apart q (h.isDir_iff.mpr hq)
    rw [filter_fileText, Function.update_apply]
    split
    · rfl
    · exact hnone

/-- A directory that no entry is in is taken away. -/
theorem WellKept.removeDirectory (h : WellKept st)
    (hempty : path = Path.ROOT ∨ ∀ p ∈ st.entries, Path.parent p ≠ some path) :
    WellKept { st with directories := st.directories.filter (· ≠ path) } := by
  have hparents : ∀ p ∈ ({ st with directories := st.directories.filter (· ≠ path) } : TestFiles).entries, ∀ q,
      Path.parent p = some q → q = Path.ROOT ∨ q ∈ st.directories.filter (· ≠ path) := by
    intro p hp q hq
    have hmem : p ∈ st.entries := by
      simp only [TestFiles.entries, List.mem_append, List.mem_filter] at hp ⊢
      exact hp.imp_right And.left
    refine or_iff_not_imp_left.mpr fun hroot => ?_
    have hq' := (h.parents p hmem q hq).resolve_left hroot
    refine List.mem_filter.mpr ⟨hq', decide_eq_true ?_⟩
    rintro rfl
    exact hempty.elim hroot fun hempty => hempty p hmem hq
  refine ⟨h.files, h.directories.sublist List.filter_sublist, fun q hq => ?_, hparents⟩
  rw [Stdlib.isDir_iff hparents, List.mem_filter] at hq
  exact h.apart q (h.isDir_iff.mpr (hq.imp_right And.left))

/-! ## Operations -/

theorem perform_readText : perform (.readText path) st = match st.fileText path with
    | some text => (.ok (.text text), st)
    | none => if st.isDir path then (.error (.isADirectory path), st) else (.error (.fileNotFound path), st) := by
  show (match st.fileText path with
    | some text => pure (.text text)
    | none => if st.isDir path then throw (.isADirectory path) else throw (.fileNotFound path) : Clause) st = _
  cases st.fileText path with
  | some text => rfl
  | none => cases st.isDir path <;> rfl

theorem perform_writeText : perform (.writeText path text) st = match st.putFile path fun _ => text with
    | .ok st' => (.ok .unit, st')
    | .error e => (.error e, st) := by
  show setState (st.putFile path fun _ => text) st = _
  cases st.putFile path fun _ => text <;> rfl

theorem perform_appendText : perform (.appendText path text) st =
    match st.putFile path fun old => old.getD [] ++ text with
    | .ok st' => (.ok .unit, st')
    | .error e => (.error e, st) := by
  show setState (st.putFile path fun old => old.getD [] ++ text) st = _
  cases st.putFile path fun old => old.getD [] ++ text <;> rfl

theorem perform_createDirectory : perform (.createDirectory path) st =
    if (st.fileText path).isSome || st.hasFileAncestor path then (.error (.notADirectory path), st)
    else (.ok .unit,
      { st with directories := ((lineage path).filter fun d => !st.isDir d).foldl insert st.directories }) := by
  show (if (st.fileText path).isSome || st.hasFileAncestor path then throw (.notADirectory path)
    else setState (.ok { st with directories := ((lineage path).filter fun d => !st.isDir d).foldl insert st.directories }) :
      Clause) st = _
  split <;> rfl

theorem perform_remove : perform (.remove path) st =
    if (st.fileText path).isSome then
      (.ok .unit, { files := st.files.filter fun e => e.1 ≠ path, directories := (ancestors path).foldl insert st.directories })
    else if st.isDir path then
      if !(st.children path).isEmpty then (.error (.directoryNotEmpty path), st)
      else (.ok .unit, { st with directories := ((ancestors path).foldl insert st.directories).filter (· ≠ path) })
    else (.error (.fileNotFound path), st) := by
  show (if (st.fileText path).isSome then
      setState (.ok { files := st.files.filter fun e => e.1 ≠ path, directories := (ancestors path).foldl insert st.directories })
    else if st.isDir path then
      if !(st.children path).isEmpty then throw (.directoryNotEmpty path)
      else setState (.ok { st with directories := ((ancestors path).foldl insert st.directories).filter (· ≠ path) })
    else throw (.fileNotFound path) : Clause) st = _
  split
  · rfl
  · split
    · split <;> rfl
    · rfl

theorem perform_listDirectory : (perform (.listDirectory path) st).2 = st := by
  show ((if st.isDir path then pure (.names (st.children path))
    else if (st.fileText path).isSome || st.hasFileAncestor path then throw (.notADirectory path)
    else throw (.fileNotFound path) : Clause) st).2 = st
  split
  · rfl
  · split <;> rfl

/-- An operation that fails leaves the state as it was. -/
theorem perform_error {e : FileError} (h : (perform op st).1 = .error e) : (perform op st).2 = st := by
  cases op with
  | readText path =>
    rw [perform_readText]
    cases st.fileText path with
    | some text => rfl
    | none => cases st.isDir path <;> rfl
  | writeText path text =>
    rw [perform_writeText] at h ⊢
    cases hput : st.putFile path fun _ => text with
    | error e => rfl
    | ok st' =>
      rw [hput] at h
      cases h
  | appendText path text =>
    rw [perform_appendText] at h ⊢
    cases hput : st.putFile path fun old => old.getD [] ++ text with
    | error e => rfl
    | ok st' =>
      rw [hput] at h
      cases h
  | «exists» path => rfl
  | isDirectory path => rfl
  | listDirectory path => exact perform_listDirectory
  | createDirectory path =>
    rw [perform_createDirectory] at h ⊢
    split at h
    · rw [if_pos (by assumption)]
    · cases h
  | remove path =>
    rw [perform_remove] at h ⊢
    split at h
    · cases h
    next hfile =>
    rw [if_neg hfile]
    split at h
    · next hdir =>
      rw [if_pos hdir]
      split at h
      · rw [if_pos (by assumption)]
      · cases h
    · next hdir => rw [if_neg hdir]

/-- No removal of a directory, other than the root, whose entries all have `.` or `..` as their last component:
`children` does not see these. -/
def Careful (st : TestFiles) : Operation → Prop
  | .remove path => path = Path.ROOT ∨
      (st.fileText path = none → st.isDir path = true → st.children path = [] →
        ∀ p ∈ st.entries, Path.parent p ≠ some path)
  | _ => True

theorem WellKept.perform (h : WellKept st) (hcareful : Careful st op) : WellKept (perform op st).2 := by
  cases op with
  | readText path =>
    rw [perform_readText]
    cases st.fileText path with
    | some text => exact h
    | none => cases st.isDir path <;> exact h
  | writeText path text =>
    rw [perform_writeText]
    cases hput : st.putFile path fun _ => text with
    | error e => exact h
    | ok st' => exact h.putFile hput
  | appendText path text =>
    rw [perform_appendText]
    cases hput : st.putFile path fun old => old.getD [] ++ text with
    | error e => exact h
    | ok st' => exact h.putFile hput
  | «exists» path => exact h
  | isDirectory path => exact h
  | listDirectory path =>
    rw [perform_listDirectory]
    exact h
  | createDirectory path =>
    rw [perform_createDirectory]
    split
    · exact h
    · next hnot =>
      simp only [Bool.or_eq_true, not_or, Bool.not_eq_true, Option.isSome_eq_false_iff, Option.isNone_iff_eq_none] at hnot
      exact h.createDirectory hnot.1 hnot.2
  | remove path =>
    rw [perform_remove]
    split
    · next hfile =>
      have hentry := List.mem_append_left st.directories (fileText_isSome.mp hfile)
      exact (h.keepAncestors (.inr hentry)).removeFile
    next hfile =>
    split
    swap
    · exact h
    next hdir =>
    split
    · exact h
    next hchildren =>
    have hentry := (h.isDir_iff.mp hdir).imp_right fun hd => List.mem_append_right (st.files.map (·.1)) hd
    refine (h.keepAncestors hentry).removeDirectory ?_
    refine hcareful.imp_right fun hcareful p hp hparent => ?_
    have hnone := hcareful (by simpa using hfile) hdir (by simpa using hchildren)
    simp only [TestFiles.entries, List.mem_append, mem_foldl_insert] at hp
    obtain hp | hp | hp := hp
    · exact hnone p (List.mem_append_left _ hp) hparent
    · exact hnone p (List.mem_append_right _ hp) hparent
    · obtain rfl | hp := h.ancestors hentry p hp
      · cases Path.parent_root.symm.trans hparent
      · exact hnone p (List.mem_append_right _ hp) hparent

/-! ## Texts -/

/-- What an operation that succeeds does to the texts of the paths. -/
def Operation.apply (op : Operation) (texts : Str → Option Str) : Str → Option Str :=
  match op with
  | .writeText path text => Function.update texts path (some text)
  | .appendText path text => Function.update texts path (some ((texts path).getD [] ++ text))
  | .remove path => Function.update texts path none
  | _ => texts

/-- The text last written to each path, with what was appended since, unless the path was removed since. Only
the operations that succeed count. -/
def lastWritten : List Operation → TestFiles → (Str → Option Str) → Str → Option Str
  | [], _, texts => texts
  | op :: ops, st, texts =>
      lastWritten ops (perform op st).2 (if (perform op st).1.toBool then op.apply texts else texts)

theorem perform_fileText (op : Operation) (st : TestFiles) :
    (perform op st).2.fileText = if (perform op st).1.toBool then op.apply st.fileText else st.fileText := by
  cases op with
  | readText path =>
    rw [perform_readText]
    cases st.fileText path with
    | some text => rfl
    | none => cases st.isDir path <;> rfl
  | writeText path text =>
    rw [perform_writeText]
    cases hput : st.putFile path fun _ => text with
    | error e => rfl
    | ok st' => exact putFile_fileText hput
  | appendText path text =>
    rw [perform_appendText]
    cases hput : st.putFile path fun old => old.getD [] ++ text with
    | error e => rfl
    | ok st' => exact putFile_fileText hput
  | «exists» path => rfl
  | isDirectory path => rfl
  | listDirectory path =>
    rw [perform_listDirectory]
    split <;> rfl
  | createDirectory path =>
    rw [perform_createDirectory]
    split <;> rfl
  | remove path =>
    rw [perform_remove]
    split
    · exact filter_fileText
    next hfile =>
    split
    · split
      · rfl
      · have hnone : st.fileText path = none := by simpa using hfile
        show st.fileText = Function.update st.fileText path none
        rw [← hnone, Function.update_eq_self]
    · rfl

theorem runOperations_fileText (ops : List Operation) (st : TestFiles) :
    (runOperations ops st).fileText = lastWritten ops st st.fileText := by
  induction ops generalizing st with
  | nil => rfl
  | cons op ops ih => rw [runOperations, lastWritten, ih, perform_fileText]

/-! ## Runs -/

/-- A run whose operations are all careful. -/
def CarefulRun : List Operation → TestFiles → Prop
  | [], _ => True
  | op :: ops, st => Careful st op ∧ CarefulRun ops (perform op st).2

theorem WellKept.run {ops : List Operation} (h : WellKept st) (hcareful : CarefulRun ops st) :
    WellKept (runOperations ops st) := by
  induction ops generalizing st with
  | nil => exact h
  | cons op ops ih => exact ih (h.perform hcareful.1) hcareful.2

theorem readText_ok_iff : (perform (.readText path) st).1 = .ok (.text text) ↔ st.fileText path = some text := by
  rw [perform_readText]
  cases st.fileText path with
  | some text' => simp
  | none => cases st.isDir path <;> simp

/-- After a careful run from the empty state the lists are well kept, a read gives what was last written, and an
operation that fails changes nothing. -/
theorem runOperations_wellKept (ops : List Operation) (hcareful : CarefulRun ops TestFiles.empty) :
    let st := runOperations ops TestFiles.empty
    WellKept st ∧
      (∀ path text, (perform (.readText path) st).1 = .ok (.text text) ↔
        lastWritten ops TestFiles.empty (fun _ => none) path = some text) ∧
      ∀ op e, (perform op st).1 = .error e → (perform op st).2 = st := by
  refine ⟨wellKept_empty.run hcareful, fun path text => ?_, fun op e => perform_error⟩
  rw [readText_ok_iff, runOperations_fileText]
  rfl

/-- A file is written into a new directory, and removed with it. -/
theorem runOperations_wellKept_removed :
    WellKept (runOperations [.createDirectory "a".toList, .writeText "a/b".toList "x".toList,
      .remove "a/b".toList, .remove "a".toList] TestFiles.empty) := by
  have hcareful : CarefulRun [.createDirectory "a".toList, .writeText "a/b".toList "x".toList,
      .remove "a/b".toList, .remove "a".toList] TestFiles.empty := by
    refine ⟨trivial, trivial, .inr ?_, .inr ?_, trivial⟩
    · intro hfile
      exact absurd hfile (by decide)
    · intro _ _ _
      decide
  exact (runOperations_wellKept _ hcareful).1

/-- A directory whose one entry is `a/.` counts as empty, and is removed. -/
theorem not_runOperations_wellKept :
    ¬∀ ops : List Operation,
      let st := runOperations ops TestFiles.empty
      WellKept st ∧
        (∀ path text, (perform (.readText path) st).1 = .ok (.text text) ↔
          lastWritten ops TestFiles.empty (fun _ => none) path = some text) ∧
        ∀ op e, (perform op st).1 = .error e → (perform op st).2 = st := by
  intro h
  have hparents := (h [.createDirectory "a/.".toList, .remove "a".toList]).1.parents
  exact absurd (hparents "a/.".toList (by decide) "a".toList (by decide)) (by decide)

end Emela.Stdlib
