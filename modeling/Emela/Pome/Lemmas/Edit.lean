import Emela.Pome.Manifest
import Emela.Pome.Edit

/-!
# What the edits do to `[external]`

The edits of the dependencies leave the items of `external` as they are, and `allowExternal` adds the paths to
the array. The text of a document reads back with the same items at the same keys.
-/

namespace Emela.Pome

/-! ## Tables -/

namespace TomlTable

variable {key k : Str} {item : Toml} {t : TomlTable}

@[simp] theorem get_insert_self : get key (insert key item t) = some item := by
  induction t with
  | nil => simp [insert, get]
  | cons e rest ih =>
    obtain ⟨k, old⟩ := e
    by_cases hk : k = key <;> simp [insert, get, hk, ih]

theorem get_insert_ne (hne : k ≠ key) : get k (insert key item t) = get k t := by
  induction t with
  | nil => simp [insert, get, hne.symm]
  | cons e rest ih =>
    obtain ⟨k', old⟩ := e
    by_cases hk : k' = key
    · subst hk
      simp [insert, get, hne.symm]
    · simp only [insert, hk, if_false, get, ih]

theorem get_remove_ne (hne : k ≠ key) : get k (remove key t) = get k t := by
  induction t with
  | nil => rfl
  | cons e rest ih =>
    obtain ⟨k', old⟩ := e
    by_cases hk : k' = key
    · subst hk
      simp [remove, get, hne.symm]
    · simp only [remove, hk, if_false, get, ih]

end TomlTable

/-! ## Printed documents -/

def Toml.isTable : Toml → Bool
  | table _ => true
  | tables _ => true
  | _ => false

/-- What the source relies on: where the text of a document is a document again, it has the same items at the
same keys. Tables themselves are left out, since one that has lost all its entries may not be written. -/
def TomlCrates.PrintsItems (crates : TomlCrates) : Prop :=
  ∀ text doc doc', crates.parse (crates.print text doc) = some doc' →
    ∀ keys item, item.isTable = false → ((Toml.table doc').at keys = some item ↔ (Toml.table doc).at keys = some item)

theorem Toml.at_cons (key : Str) (keys : List Str) (item : Toml) :
    item.at (key :: keys) = (item.entries.bind (TomlTable.get key)).bind (Toml.at keys) := by
  rw [Toml.at]
  cases item.entries.bind (TomlTable.get key) <;> rfl

def EXTERNAL : Str := "external".toList
def ALLOW : Str := "allow".toList

/-- The same items under `external`. -/
def SameExternal (doc doc' : TomlTable) : Prop :=
  ∀ keys item, item.isTable = false →
    ((Toml.table doc').at (EXTERNAL :: keys) = some item ↔ (Toml.table doc).at (EXTERNAL :: keys) = some item)

theorem SameExternal.trans {a b c : TomlTable} (hab : SameExternal a b) (hbc : SameExternal b c) : SameExternal a c :=
  fun keys item hitem => (hbc keys item hitem).trans (hab keys item hitem)

theorem sameExternal_of_get {doc doc' : TomlTable} (h : doc'.get EXTERNAL = doc.get EXTERNAL) : SameExternal doc doc' := by
  intro keys item _
  rw [Toml.at_cons, Toml.at_cons]
  simp only [Toml.entries, Option.bind_some, h]

/-! ## Reading `external` -/

section
variable {α β : Type} {f : α → Option β} {xs : List α} {ys : List β}

theorem mem_mapM (h : xs.mapM f = some ys) (y : β) : y ∈ ys ↔ ∃ x ∈ xs, f x = some y := by
  induction xs generalizing ys with
  | nil =>
    obtain rfl : [] = ys := by simpa using h
    simp
  | cons x xs ih =>
    simp only [List.mapM_cons, Option.bind_eq_bind, Option.bind_eq_some_iff, Option.pure_def, Option.some.injEq] at h
    obtain ⟨y', hy', ys', hys', rfl⟩ := h
    simp [ih hys', hy', eq_comm]

theorem exists_of_mapM (h : xs.mapM f = some ys) (x : α) (hx : x ∈ xs) : ∃ y, f x = some y := by
  induction xs generalizing ys with
  | nil => cases hx
  | cons x' xs ih =>
    simp only [List.mapM_cons, Option.bind_eq_bind, Option.bind_eq_some_iff, Option.pure_def, Option.some.injEq] at h
    obtain ⟨y', hy', ys', hys', rfl⟩ := h
    cases hx with
    | head => exact ⟨y', hy'⟩
    | tail _ hx => exact ih hys' hx

end

/-- `[external].allow` as `Manifest::parse` reads it. -/
def readAllow (doc : TomlTable) : Option (List SourcePath) :=
  Toml.readDefault [] readExternal (doc.get EXTERNAL)

section
variable {doc doc' : TomlTable} {items : List Toml} {allow allow' : List SourcePath}

/-- Tables are no source paths. -/
theorem readList_tables {tables : List (List (Str × Toml))}
    (h : Toml.readList Toml.sourcePath (.tables tables) = some allow) : allow = [] := by
  cases tables with
  | nil => simpa [Toml.readList, Toml.items, eq_comm] using h
  | cons t rest => simp [Toml.readList, Toml.items, Toml.sourcePath, Toml.text] at h

theorem readList_sourcePath {item : Toml} (h : Toml.readList Toml.sourcePath item = some allow) (hne : allow ≠ []) :
    ∃ items, item = .array items ∧ items.mapM Toml.sourcePath = some allow := by
  cases item with
  | array items => exact ⟨items, rfl, h⟩
  | tables tables => exact absurd (readList_tables h) hne
  | string s => simp [Toml.readList, Toml.items] at h
  | scalar s => simp [Toml.readList, Toml.items] at h
  | inline entries => simp [Toml.readList, Toml.items] at h
  | table entries => simp [Toml.readList, Toml.items] at h

/-- Where the paths that are allowed stand: in the array `allow`, or in the first of the fields in order. -/
def AllowAt (doc : TomlTable) (items : List Toml) : Prop :=
  (Toml.table doc).at [EXTERNAL, ALLOW] = some (.array items) ∨
    ∃ rest, (Toml.table doc).at [EXTERNAL] = some (.array (.array items :: rest))

theorem at_external {item : Toml} : (Toml.table doc).at [EXTERNAL] = some item ↔ doc.get EXTERNAL = some item := by
  rw [Toml.at_cons]
  show (doc.get EXTERNAL).bind some = some item ↔ _
  rw [Option.bind_fun_some]

theorem at_allow {item : Toml} :
    (Toml.table doc).at [EXTERNAL, ALLOW] = some item ↔ ∃ external entries,
      doc.get EXTERNAL = some external ∧ external.entries = some entries ∧ TomlTable.get ALLOW entries = some item := by
  have hinner (external : Toml) :
      external.at [ALLOW] = some item ↔ ∃ entries, external.entries = some entries ∧
        TomlTable.get ALLOW entries = some item := by
    rw [Toml.at_cons]
    show (external.entries.bind (TomlTable.get ALLOW)).bind some = some item ↔ _
    rw [Option.bind_fun_some, Option.bind_eq_some_iff]
  rw [Toml.at_cons]
  show (doc.get EXTERNAL).bind (Toml.at [ALLOW]) = some item ↔ _
  simp only [Option.bind_eq_some_iff, hinner, exists_and_left]

theorem readExternal_of_entries {item : Toml} {entries : TomlTable} (h : item.entries = some entries) :
    readExternal item = Toml.readDefault [] (Toml.readList Toml.sourcePath) (TomlTable.get ALLOW entries) := by
  have hstruct : item.isStruct = true := by rw [Toml.isStruct, h]; rfl
  have hfield : item.field 0 "allow".toList = TomlTable.get ALLOW entries := by rw [Toml.field, h]; rfl
  rw [readExternal, if_pos hstruct, hfield]

theorem readAllow_of_allowAt (h : AllowAt doc items) : readAllow doc = items.mapM Toml.sourcePath := by
  obtain h | ⟨rest, h⟩ := h
  · obtain ⟨external, entries, hext, hentries, hallow⟩ := at_allow.mp h
    rw [readAllow, hext, Toml.readDefault, readExternal_of_entries hentries, hallow]
    rfl
  · rw [readAllow, at_external.mp h]
    rfl

theorem allowAt_of_readExternal {item : Toml} (hext : doc.get EXTERNAL = some item)
    (h : readExternal item = some allow) (hne : allow ≠ []) :
    ∃ items, AllowAt doc items ∧ items.mapM Toml.sourcePath = some allow := by
  cases hentries : item.entries with
  | some entries =>
    rw [readExternal_of_entries hentries] at h
    cases hallow : TomlTable.get ALLOW entries with
    | none =>
      rw [hallow] at h
      exact absurd (Option.some.inj h).symm hne
    | some value =>
      rw [hallow] at h
      obtain ⟨items, rfl, hitems⟩ := readList_sourcePath h hne
      exact ⟨items, .inl (at_allow.mpr ⟨item, entries, hext, hentries, hallow⟩), hitems⟩
  | none =>
    -- its fields in order
    cases item with
    | array fields =>
      cases fields with
      | nil => exact absurd (Option.some.inj h).symm hne
      | cons first rest =>
        obtain ⟨items, rfl, hitems⟩ := readList_sourcePath h hne
        exact ⟨items, .inr ⟨rest, at_external.mpr hext⟩, hitems⟩
    | tables tables =>
      cases tables with
      | nil => exact absurd (Option.some.inj h).symm hne
      | cons t rest => cases h
    | string s => cases h
    | scalar s => cases h
    | table entries => cases hentries
    | inline entries => cases hentries

theorem allowAt_of_readAllow (h : readAllow doc = some allow) (hne : allow ≠ []) :
    ∃ items, AllowAt doc items ∧ items.mapM Toml.sourcePath = some allow := by
  cases hext : doc.get EXTERNAL with
  | none =>
    rw [readAllow, hext] at h
    exact absurd (Option.some.inj h).symm hne
  | some item =>
    rw [readAllow, hext] at h
    exact allowAt_of_readExternal hext h hne

theorem AllowAt.same (hsame : SameExternal doc doc') : AllowAt doc' items ↔ AllowAt doc items := by
  rw [AllowAt, AllowAt, hsame [ALLOW] _ rfl]
  exact or_congr_right (exists_congr fun rest => hsame [] _ rfl)

/-- Documents with the same items under `external` allow the same Pomes. -/
theorem readAllow_same (hsame : SameExternal doc doc') (h : readAllow doc = some allow)
    (h' : readAllow doc' = some allow') : allow' = allow := by
  cases allow with
  | cons p ps =>
    obtain ⟨items, hat, hitems⟩ := allowAt_of_readAllow h (List.cons_ne_nil _ _)
    rw [readAllow_of_allowAt ((AllowAt.same hsame).mpr hat), hitems] at h'
    exact (Option.some.inj h').symm
  | nil =>
    by_contra hne
    obtain ⟨items, hat, hitems⟩ := allowAt_of_readAllow h' hne
    rw [readAllow_of_allowAt ((AllowAt.same hsame).mp hat), hitems] at h
    exact hne (Option.some.inj h)

end

/-! ## Edits -/

theorem except_bind_ok {ε α β : Type} {x : Except ε α} {f : α → Except ε β} {b : β} :
    (x >>= f) = .ok b ↔ ∃ a, x = .ok a ∧ f a = .ok b := by
  cases x with
  | error e =>
    constructor
    · intro h
      cases h
    · rintro ⟨_, h, -⟩
      cases h
  | ok a =>
    constructor
    · exact fun h => ⟨a, rfl, h⟩
    · rintro ⟨_, h, hf⟩
      cases h
      exact hf

section
variable {crates : TomlCrates} {text text' text'' table : Str} {doc doc' : TomlTable} {path : SourcePath}

/-- A text that parses, and one that has the same items under `external` where it does. -/
def KeepsExternal (crates : TomlCrates) (text text' : Str) : Prop :=
  ∃ doc, crates.parse text = some doc ∧ ∀ doc', crates.parse text' = some doc' → SameExternal doc doc'

theorem keepsExternal_refl (h : crates.parse text = some doc) : KeepsExternal crates text text := by
  refine ⟨doc, h, fun doc' h' => ?_⟩
  cases h.symm.trans h'
  exact fun _ _ _ => Iff.rfl

theorem KeepsExternal.trans (h : KeepsExternal crates text text') (h' : KeepsExternal crates text' text'') :
    KeepsExternal crates text text'' := by
  obtain ⟨doc, hdoc, hsame⟩ := h
  obtain ⟨doc', hdoc', hsame'⟩ := h'
  exact ⟨doc, hdoc, fun doc'' hdoc'' => (hsame doc' hdoc').trans (hsame' doc'' hdoc'')⟩

theorem keepsExternal_print (hprints : crates.PrintsItems) (hdoc : crates.parse text = some doc)
    (hget : doc'.get EXTERNAL = doc.get EXTERNAL) : KeepsExternal crates text (crates.print text doc') := by
  refine ⟨doc, hdoc, fun doc'' hdoc'' => (sameExternal_of_get hget).trans ?_⟩
  exact fun keys item hitem => hprints text doc' doc'' hdoc'' (EXTERNAL :: keys) item hitem

theorem parse_ok (h : Edit.parse crates text = .ok doc) : crates.parse text = some doc := by
  unfold Edit.parse at h
  cases hdoc : crates.parse text with
  | none =>
    rw [hdoc] at h
    cases h
  | some doc' =>
    rw [hdoc] at h
    cases h
    rfl

theorem setDependency_external (hprints : crates.PrintsItems) (htable : table ≠ EXTERNAL) {version : Version}
    (h : Edit.setDependency crates text table path version = .ok text') : KeepsExternal crates text text' := by
  obtain ⟨doc, hdoc, h⟩ := except_bind_ok.mp h
  obtain ⟨deps, -, h⟩ := except_bind_ok.mp h
  cases h
  exact keepsExternal_print hprints (parse_ok hdoc) (TomlTable.get_insert_ne htable.symm)

theorem get_dropIfEmpty (htable : table ≠ EXTERNAL) :
    TomlTable.get EXTERNAL (Edit.dropIfEmpty doc table) = TomlTable.get EXTERNAL doc := by
  unfold Edit.dropIfEmpty
  split
  · split
    · exact TomlTable.get_remove_ne htable.symm
    · rfl
  · rfl

theorem removeDependency_external (hprints : crates.PrintsItems) (htable : table ≠ EXTERNAL)
    (h : Edit.removeDependency crates text table path = .ok (some text')) : KeepsExternal crates text text' := by
  obtain ⟨doc, hdoc, h⟩ := except_bind_ok.mp h
  obtain ⟨deps, -, h⟩ := except_bind_ok.mp h
  simp only [pure, Except.pure, Except.ok.injEq, Option.ite_none_right_eq_some, Option.some.injEq] at h
  obtain ⟨-, rfl⟩ := h
  refine keepsExternal_print hprints (parse_ok hdoc) ?_
  rw [get_dropIfEmpty htable, TomlTable.get_insert_ne htable.symm]

theorem moveDependency_external (hprints : crates.PrintsItems) {«from» «to» : Str} (hfrom : «from» ≠ EXTERNAL)
    (hto : «to» ≠ EXTERNAL) (h : Edit.moveDependency crates text path «from» «to» = .ok (some text')) :
    KeepsExternal crates text text' := by
  obtain ⟨doc, hdoc, h⟩ := except_bind_ok.mp h
  obtain ⟨deps, -, h⟩ := except_bind_ok.mp h
  cases hitem : deps.get path.text with
  | none =>
    rw [hitem] at h
    cases h
  | some item =>
    rw [hitem] at h
    obtain ⟨target, -, h⟩ := except_bind_ok.mp h
    cases h
    refine keepsExternal_print hprints (parse_ok hdoc) ?_
    rw [get_dropIfEmpty hfrom, TomlTable.get_insert_ne hto.symm, TomlTable.get_insert_ne hfrom.symm]

/-! ## Allowing -/

theorem text_eq_some {item : Toml} {s : Str} (h : item.text = some s) : item = .string s := by
  cases item <;> simp_all [Toml.text]

theorem mem_pushPaths {items : List Toml} {paths : List SourcePath} {item : Toml} :
    item ∈ Edit.pushPaths items paths ↔ item ∈ items ∨ ∃ path ∈ paths, item = .string path.text := by
  unfold Edit.pushPaths
  induction paths generalizing items with
  | nil => simp
  | cons path paths ih =>
    rw [List.foldl_cons, ih]
    split
    · next hany =>
      -- the array has the path already
      obtain ⟨v, hv, htext⟩ := List.any_eq_true.mp hany
      obtain rfl := text_eq_some (eq_of_beq htext)
      simp only [List.mem_cons, exists_eq_or_imp]
      constructor
      · rintro (h | h)
        · exact .inl h
        · exact .inr (.inr h)
      · rintro (h | rfl | h)
        · exact .inl h
        · exact .inl hv
        · exact .inr h
    · simp [or_assoc]

theorem parse_text {input : Str} (h : SourcePath.parse input = .ok path) : path.text = input := by
  simp only [SourcePath.parse] at h
  repeat' split at h
  all_goals cases h
  all_goals rfl

theorem sourcePath_eq_some {item : Toml} (h : item.sourcePath = some path) : item = .string path.text := by
  cases item with
  | string s =>
    simp only [Toml.sourcePath, Toml.text, Option.bind_eq_bind, Option.bind_some] at h
    cases hparse : SourcePath.parse s with
    | error e => simp [hparse, Except.toOption] at h
    | ok p =>
      obtain rfl : p = path := by simpa [hparse, Except.toOption] using h
      rw [parse_text hparse]
  | _ => simp [Toml.sourcePath, Toml.text] at h

/-- The array at `allow` is what is read there. -/
theorem mapM_allowOf {entries : TomlTable} {items : List Toml} {allow : List SourcePath}
    (h : Edit.allowOf entries = .ok items)
    (hread : Toml.readDefault [] (Toml.readList Toml.sourcePath) (TomlTable.get ALLOW entries) = some allow) :
    items.mapM Toml.sourcePath = some allow := by
  rw [Edit.allowOf] at h
  cases hget : TomlTable.get ALLOW entries with
  | none =>
    rw [show TomlTable.get "allow".toList entries = none from hget] at h
    rw [hget] at hread
    cases h
    exact hread
  | some item =>
    rw [show TomlTable.get "allow".toList entries = some item from hget] at h
    rw [hget] at hread
    cases item with
    | array items' =>
      cases h
      exact hread
    | _ => cases h

/-- The table of `external`, and what it becomes. -/
theorem allowExternal_ok {paths : List SourcePath} (h : Edit.allowExternal crates text paths = .ok text')
    (hdoc : crates.parse text = some doc) :
    ∃ external entries items external',
      (doc.get EXTERNAL).getD (.table []) = external ∧ external.entries = some entries ∧
        Edit.allowOf entries = .ok items ∧
        external'.entries = some (TomlTable.insert ALLOW (.array (Edit.pushPaths items paths)) entries) ∧
        text' = crates.print text (doc.insert EXTERNAL external') := by
  obtain ⟨doc', hdoc', h⟩ := except_bind_ok.mp h
  cases hdoc.symm.trans (parse_ok hdoc')
  dsimp only at h
  split at h
  · next entries hext =>
    obtain ⟨items, hitems, h⟩ := except_bind_ok.mp h
    cases h
    exact ⟨_, entries, items, .table _, hext, rfl, hitems, rfl, rfl⟩
  · next entries hext =>
    obtain ⟨items, hitems, h⟩ := except_bind_ok.mp h
    cases h
    exact ⟨_, entries, items, .inline _, hext, rfl, hitems, rfl, rfl⟩
  · cases h

/-- What is allowed after `allowExternal` is what was allowed and the paths. -/
theorem allowExternal_readAllow (hprints : crates.PrintsItems) {paths allow allow' : List SourcePath}
    (h : Edit.allowExternal crates text paths = .ok text') (hdoc : crates.parse text = some doc)
    (hdoc' : crates.parse text' = some doc') (hallow : readAllow doc = some allow)
    (hallow' : readAllow doc' = some allow') : path ∈ allow' ↔ path ∈ allow ∨ path ∈ paths := by
  obtain ⟨external, entries, items, external', hext, hentries, hitems, hentries', rfl⟩ := allowExternal_ok h hdoc
  have hread : items.mapM Toml.sourcePath = some allow := by
    apply mapM_allowOf hitems
    rw [readAllow] at hallow
    cases hget : doc.get EXTERNAL with
    | none =>
      rw [hget] at hallow hext
      cases hext
      cases hentries
      exact hallow
    | some item =>
      rw [hget] at hallow hext
      cases hext
      exact (readExternal_of_entries hentries).symm.trans hallow
  have hat : (Toml.table doc').at [EXTERNAL, ALLOW] = some (.array (Edit.pushPaths items paths)) := by
    rw [hprints _ _ _ hdoc' _ _ rfl]
    exact at_allow.mpr ⟨external', _, TomlTable.get_insert_self, hentries', TomlTable.get_insert_self⟩
  have hread' := (readAllow_of_allowAt (.inl hat)).symm.trans hallow'
  rw [mem_mapM hread', mem_mapM hread]
  constructor
  · rintro ⟨item, hmem, hitem⟩
    obtain hold | ⟨p, hp, rfl⟩ := mem_pushPaths.mp hmem
    · exact .inl ⟨item, hold, hitem⟩
    · have heq := sourcePath_eq_some hitem
      obtain rfl : p = path := by
        cases p
        cases path
        simpa using heq
      exact .inr hp
  · rintro (⟨item, hmem, hitem⟩ | hp)
    · exact ⟨item, mem_pushPaths.mpr (.inl hmem), hitem⟩
    · -- the array was read whole, so the new path is one
      have hmem : Toml.string path.text ∈ Edit.pushPaths items paths := mem_pushPaths.mpr (.inr ⟨path, hp, rfl⟩)
      obtain ⟨path', hpath'⟩ := exists_of_mapM hread' _ hmem
      have heq := sourcePath_eq_some hpath'
      obtain rfl : path' = path := by
        cases path'
        cases path
        simpa [eq_comm] using heq
      exact ⟨_, hmem, hpath'⟩

end

end Emela.Pome
