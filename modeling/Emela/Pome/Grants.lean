import Emela.Pome.Lemmas.Edit
import Emela.Pome.Unchanged

/-!
# Who may use `@external`

After an operation each locked Pome with `@external` files is allowed by the manifest, and only what the user
named or what is new in the lock is added to the list.
-/

namespace Emela.Pome

section
variable {σ : Type} {world : World σ} {crates : ProjectCrates} {config : Config} {fuel : Nat}
  {s s' : PomeState σ} {text : Str} {allow : Option SourcePath}

/-! ## What the manifest allows -/

theorem check_external {file : ManifestFile} {manifest : Manifest} (h : file.check = .ok manifest) :
    manifest.external = file.external := by
  unfold ManifestFile.check at h
  split at h
  · cases h
  split at h
  · cases h
  obtain ⟨dependencies, -, h⟩ := except_bind_ok.mp h
  obtain ⟨devDependencies, -, h⟩ := except_bind_ok.mp h
  split at h
  · cases h
  split at h
  · cases h
  · cases h
    rfl

/-- `Manifest::parse` reads the list that the document has. -/
theorem readAllow_of_parse {crates : TomlCrates} {manifest : Manifest} (h : Manifest.parse crates text = .ok manifest) :
    ∃ doc, crates.parse text = some doc ∧ readAllow doc = some manifest.external := by
  unfold Manifest.parse at h
  cases hdoc : crates.parse text with
  | none =>
    rw [hdoc] at h
    cases h
  | some doc =>
    rw [hdoc, Option.bind_some] at h
    cases hfile : ManifestFile.read doc with
    | none =>
      rw [hfile] at h
      cases h
    | some file =>
      rw [hfile] at h
      refine ⟨doc, rfl, ?_⟩
      rw [check_external h]
      simp only [ManifestFile.read, Option.bind_eq_bind, Option.bind_eq_some_iff, Option.pure_def, Option.some.injEq] at hfile
      obtain ⟨_, -, _, -, _, -, _, -, _, -, external, hexternal, rfl⟩ := hfile
      exact hexternal

theorem parseManifest_ok {file : Str} {crates : TomlCrates} {manifest : Manifest}
    (h : parseManifest crates text file = .ok manifest) : Manifest.parse crates text = .ok manifest := by
  unfold parseManifest at h
  cases hparse : Manifest.parse crates text with
  | error e =>
    rw [hparse] at h
    cases h
  | ok m =>
    rw [hparse] at h
    cases h
    rfl

/-- Edits of other tables leave the list as it is. -/
theorem external_of_keeps {crates : TomlCrates} {text' : Str} {manifest manifest' : Manifest}
    (hkeeps : KeepsExternal crates text text') (h : Manifest.parse crates text = .ok manifest)
    (h' : Manifest.parse crates text' = .ok manifest') : manifest'.external = manifest.external := by
  obtain ⟨doc, hdoc, hallow⟩ := readAllow_of_parse h
  obtain ⟨doc', hdoc', hallow'⟩ := readAllow_of_parse h'
  obtain ⟨_, hsame, hkeep⟩ := hkeeps
  cases hdoc.symm.trans hsame
  exact readAllow_same (hkeep doc' hdoc') hallow hallow'

/-! ## The request -/

theorem tableOf_ne (dev : Bool) : (if dev then Edit.DEV_DEPENDENCIES else Edit.DEPENDENCIES) ≠ EXTERNAL := by
  cases dev <;> decide

/-- A request that leaves the list as it is, where its text is a document. -/
def Request.Keeps (crates : TomlCrates) (text : Str) (request : Request) : Prop :=
  ∀ doc, crates.parse request.text = some doc → KeepsExternal crates text request.text

theorem raise_ok (hprints : crates.PrintsItems) {targets : List (SourcePath × Version × Bool)} {changes : List Change}
    {request : Request} (h : runOp (raise world crates config targets text changes) s = some (.ok request, s')) :
    request.Keeps crates.toTomlCrates text ∧ request.allow = none := by
  induction targets generalizing text changes s with
  | nil =>
    obtain ⟨hrequest, -⟩ := runOp_pure.mp h
    cases hrequest
    exact ⟨fun doc hdoc => keepsExternal_refl hdoc, rfl⟩
  | cons target targets ih =>
    obtain ⟨path, current, dev⟩ := target
    obtain ⟨latest, s₁, -, h⟩ := runOp_bind_ok.mp h
    split at h
    · obtain ⟨text', s₂, hrun, h⟩ := runOp_bind_ok.mp h
      obtain ⟨hset, -⟩ := runOp_edited.mp hrun
      obtain ⟨hkeeps, hallow⟩ := ih h
      exact ⟨fun doc hdoc => (setDependency_external hprints (tableOf_ne dev) hset).trans (hkeeps doc hdoc), hallow⟩
    · exact ih h

theorem add_ok (hprints : crates.PrintsItems) {src : Str} {allowExternal dev : Bool} {request : Request}
    (h : runOp (add world crates config src allowExternal dev) s = some (.ok request, s')) :
    request.Keeps crates.toTomlCrates s.project.text ∧
      ∀ named, request.allow = some named → allowExternal = true ∧ ∃ version, parseSrc src = .ok (named, version) := by
  obtain ⟨project, s₁, hproject, h⟩ := runOp_bind_ok.mp h
  obtain ⟨hproject, -⟩ := runOp_theProject.mp hproject
  cases hproject
  obtain ⟨⟨path, version⟩, s₂, hsrc, h⟩ := runOp_bind_ok.mp h
  obtain ⟨hsrc, -⟩ := runOp_checked.mp hsrc
  dsimp only at h
  split at h
  · cases (runOp_throw.mp h).1
  obtain ⟨version', s₃, -, h⟩ := runOp_bind_ok.mp h
  split at h
  · cases (runOp_throw.mp h).1
  split at h
  · cases (runOp_throw.mp h).1
  obtain ⟨moved, s₄, hmoved, h⟩ := runOp_bind_ok.mp h
  obtain ⟨text, s₅, hset, h⟩ := runOp_bind_ok.mp h
  obtain ⟨hset, -⟩ := runOp_edited.mp hset
  obtain ⟨hrequest, -⟩ := runOp_pure.mp h
  cases hrequest
  constructor
  · intro doc hdoc
    have hkeeps := setDependency_external hprints (tableOf_ne dev) hset
    cases moved with
    | none => exact hkeeps
    | some text' =>
      -- the entry has moved first
      cases dev with
      | true => cases (runOp_pure.mp hmoved).1
      | false =>
        obtain ⟨hmoved, -⟩ := runOp_edited.mp hmoved
        exact (moveDependency_external hprints (tableOf_ne true) (tableOf_ne false) hmoved).trans hkeeps
  · intro named hallow
    cases allowExternal with
    | false => cases hallow
    | true =>
      cases hallow
      exact ⟨rfl, version, hsrc⟩

theorem remove_ok (hprints : crates.PrintsItems) {src : Str} {request : Request}
    (h : runOp (remove crates src) s = some (.ok request, s')) :
    request.Keeps crates.toTomlCrates s.project.text ∧ request.allow = none := by
  obtain ⟨project, s₁, hproject, h⟩ := runOp_bind_ok.mp h
  obtain ⟨hproject, -⟩ := runOp_theProject.mp hproject
  cases hproject
  obtain ⟨path, s₂, -, h⟩ := runOp_bind_ok.mp h
  obtain ⟨text, s₃, hremoved, h⟩ := runOp_bind_ok.mp h
  obtain ⟨hremoved, -⟩ := runOp_edited.mp hremoved
  cases text with
  | none => cases (runOp_throw.mp h).1
  | some text =>
    obtain ⟨hrequest, -⟩ := runOp_pure.mp h
    cases hrequest
    exact ⟨fun doc hdoc => removeDependency_external hprints (tableOf_ne _) hremoved, rfl⟩

theorem update_ok (hprints : crates.PrintsItems) {src : Option Str} {request : Request}
    (h : runOp (update world crates config src) s = some (.ok request, s')) :
    request.Keeps crates.toTomlCrates s.project.text ∧ request.allow = none := by
  obtain ⟨project, s₁, hproject, h⟩ := runOp_bind_ok.mp h
  obtain ⟨hproject, -⟩ := runOp_theProject.mp hproject
  cases hproject
  cases src with
  | none => exact raise_ok hprints h
  | some src =>
    obtain ⟨path, s₂, -, h⟩ := runOp_bind_ok.mp h
    dsimp only at h
    split at h
    · cases (runOp_throw.mp h).1
    · exact raise_ok hprints h

/-- The user names the Pome to `add`, under the option. -/
def Operation.Names (operation : Operation) (named : SourcePath) : Prop :=
  ∃ src dev version, operation = .add src true dev ∧ parseSrc src = .ok (named, version)

theorem request_ok (hprints : crates.PrintsItems) {operation : Operation} {request : Request}
    (h : runOp (operation.request world crates config) s = some (.ok request, s')) :
    request.Keeps crates.toTomlCrates s.project.text ∧ ∀ named, request.allow = some named → operation.Names named := by
  have hnone {request : Request} (hallow : request.allow = none) :
      ∀ named, request.allow = some named → operation.Names named := by
    intro named hsome
    rw [hallow] at hsome
    cases hsome
  cases operation with
  | install =>
    obtain ⟨project, s₁, hproject, h⟩ := runOp_bind_ok.mp h
    obtain ⟨hproject, -⟩ := runOp_theProject.mp hproject
    cases hproject
    obtain ⟨hrequest, -⟩ := runOp_pure.mp h
    cases hrequest
    exact ⟨fun doc hdoc => keepsExternal_refl hdoc, hnone rfl⟩
  | add src allowExternal dev =>
    obtain ⟨hkeeps, hnamed⟩ := add_ok hprints h
    refine ⟨hkeeps, fun named hallow => ?_⟩
    obtain ⟨rfl, version, hsrc⟩ := hnamed named hallow
    exact ⟨src, dev, version, rfl, hsrc⟩
  | remove src => exact (remove_ok hprints h).imp_right hnone
  | update src => exact (update_ok hprints h).imp_right hnone

/-! ## The plan -/

theorem mem_unallowed {manifest : Manifest} {lock : Lock} {p : Locked} :
    p ∈ unallowed manifest lock ↔ p ∈ lock.pomes ∧ p.external ≠ [] ∧ p.path ∉ manifest.external := by
  simp [unallowed]

theorem mayAllow_eq_true {old : Option Lock} {p : Locked} :
    mayAllow allow old p = true ↔
      ∃ named, allow = some named ∧ (p.path = named ∨ ∀ lock, old = some lock → lock.get p.path = none) := by
  cases allow <;> cases old <;> simp [mayAllow]

/-- The plan has the list of the manifest with the Pomes that it may allow. -/
theorem plan_ok (hprints : crates.PrintsItems) {planned : Plan}
    (h : runOp (plan world crates config fuel text allow) s = some (.ok planned, s')) :
    ∃ manifest, Manifest.parse crates.toTomlCrates text = .ok manifest ∧
      Manifest.parse crates.toTomlCrates planned.text = .ok planned.manifest ∧
      (∀ p ∈ planned.lock.pomes, p.external ≠ [] → p.path ∈ planned.manifest.external) ∧
      ∀ path ∈ planned.manifest.external, path ∈ manifest.external ∨
        ∃ p, p.path = path ∧ mayAllow allow s.project.lock p = true := by
  obtain ⟨project, s₁, hproject, h⟩ := runOp_bind_ok.mp h
  obtain ⟨hproject, -⟩ := runOp_theProject.mp hproject
  cases hproject
  obtain ⟨manifest, s₂, hmanifest, h⟩ := runOp_bind_ok.mp h
  have hmanifest := parseManifest_ok (runOp_checked.mp hmanifest).1
  obtain ⟨lock, s₃, -, h⟩ := runOp_bind_ok.mp h
  refine ⟨manifest, hmanifest, ?_⟩
  rw [List.partition_eq_filter_filter] at h
  dsimp only at h
  split at h
  · cases (runOp_throw.mp h).1
  next hrefused =>
  -- what is not allowed yet may be allowed
  have hmay : ∀ p ∈ unallowed manifest lock, mayAllow allow s.project.lock p = true := by
    intro p hp
    by_contra hnot
    apply hrefused
    apply List.ne_nil_of_mem (a := p)
    simpa [hp] using hnot
  split at h
  · next hallowed =>
    obtain ⟨hplanned, -⟩ := runOp_pure.mp h
    cases hplanned
    refine ⟨hmanifest, fun p hp hexternal => ?_, fun path hpath => .inl hpath⟩
    by_contra hnot
    have hin := mem_unallowed.mpr ⟨hp, hexternal, hnot⟩
    rw [List.map_eq_nil_iff, List.filter_eq_nil_iff] at hallowed
    exact hallowed p hin (hmay p hin)
  · obtain ⟨text', s₄, hedit, h⟩ := runOp_bind_ok.mp h
    obtain ⟨hedit, -⟩ := runOp_edited.mp hedit
    obtain ⟨manifest', s₅, hmanifest', h⟩ := runOp_bind_ok.mp h
    have hmanifest' := parseManifest_ok (runOp_checked.mp hmanifest').1
    obtain ⟨hplanned, -⟩ := runOp_pure.mp h
    cases hplanned
    obtain ⟨doc, hdoc, hallow⟩ := readAllow_of_parse hmanifest
    obtain ⟨doc', hdoc', hallow'⟩ := readAllow_of_parse hmanifest'
    have hmem (path : SourcePath) : path ∈ manifest'.external ↔ path ∈ manifest.external ∨ _ :=
      allowExternal_readAllow hprints hedit hdoc hdoc' hallow hallow'
    refine ⟨hmanifest', fun p hp hexternal => (hmem _).mpr ?_, fun path hpath => ((hmem _).mp hpath).imp_right ?_⟩
    · by_cases hin : p.path ∈ manifest.external
      · exact .inl hin
      · have hun := mem_unallowed.mpr ⟨hp, hexternal, hin⟩
        exact .inr (List.mem_map_of_mem (List.mem_filter.mpr ⟨hun, hmay p hun⟩))
    · intro hnew
      obtain ⟨p, hp, rfl⟩ := List.mem_map.mp hnew
      exact ⟨p, rfl, (List.mem_filter.mp hp).2⟩

/-! ## Runs -/

/-- The projects in memory that opening one and any operations lead to. Each operation may run under other
conditions, and fail. -/
inductive Reachable (crates : ProjectCrates) : Project → Prop where
  | opened {root text : Str} {lock : Option Str} {project : Project} :
      Project.open crates root text lock = .ok project → Reachable crates project
  | performed {σ : Type} {world : World σ} {config : Config} {fuel : Nat} {operation : Operation} {s s' : PomeState σ}
      {r : Except PomeError Outcome} : Reachable crates s.project →
      runOp (operation.perform world crates config fuel) s = some (r, s') → Reachable crates s'.project

/-- An operation that succeeds has a request and a plan, which become the project. -/
theorem perform_ok {operation : Operation} {outcome : Outcome}
    (h : runOp (operation.perform world crates config fuel) s = some (.ok outcome, s')) :
    ∃ request s₁ planned s₂, runOp (operation.request world crates config) s = some (.ok request, s₁) ∧
      runOp (plan world crates config fuel request.text request.allow) s₁ = some (.ok planned, s₂) ∧
      s'.project.text = planned.text ∧ s'.project.manifest = planned.manifest ∧ s'.project.lock = some planned.lock := by
  obtain ⟨request, s₁, hrequest, h⟩ := runOp_bind_ok.mp h
  obtain ⟨planned, s₂, hplan, h⟩ := runOp_bind_ok.mp h
  obtain ⟨⟨⟩, s₃, hcommit, h⟩ := runOp_bind_ok.mp h
  obtain ⟨-, rfl⟩ := runOp_pure.mp h
  exact ⟨request, s₁, planned, s₂, hrequest, hplan, commit_ok_project hcommit⟩

theorem open_ok {root : Str} {lock : Option Str} {project : Project}
    (h : Project.open crates root text lock = .ok project) :
    Manifest.parse crates.toTomlCrates project.text = .ok project.manifest := by
  obtain ⟨manifest, hmanifest, h⟩ := except_bind_ok.mp h
  obtain ⟨lock', -, h⟩ := except_bind_ok.mp h
  cases h
  exact parseManifest_ok hmanifest

/-- The manifest in memory is that of the text. -/
theorem Reachable.parsed (hprints : crates.PrintsItems) {project : Project} (h : Reachable crates project) :
    Manifest.parse crates.toTomlCrates project.text = .ok project.manifest := by
  induction h with
  | opened hopen => exact open_ok hopen
  | @performed σ world config fuel operation s s' r _ hrun ih =>
    cases r with
    | error e =>
      rw [perform_error_project hrun]
      exact ih
    | ok outcome =>
      obtain ⟨request, s₁, planned, s₂, -, hplan, htext, hmanifest, -⟩ := perform_ok hrun
      obtain ⟨_, -, hparsed, -⟩ := plan_ok hprints hplan
      rw [htext, hmanifest]
      exact hparsed

/-- What an operation on a reachable project does to the list of Pomes that may use `@external`: where it
succeeds, each locked Pome with such files is in the list; and it adds only what the user named for it, or what
was not in the lock before when the user allowed that. -/
theorem perform_external (hprints : crates.PrintsItems) (hreachable : Reachable crates s.project)
    {operation : Operation} {r : Except PomeError Outcome}
    (h : runOp (operation.perform world crates config fuel) s = some (r, s')) :
    (∀ outcome, r = .ok outcome → ∃ lock, s'.project.lock = some lock ∧
      ∀ p ∈ lock.pomes, p.external ≠ [] → p.path ∈ s'.project.manifest.external) ∧
    ∀ path ∈ s'.project.manifest.external, path ∈ s.project.manifest.external ∨
      ∃ named, operation.Names named ∧
        (path = named ∨ ∀ lock, s.project.lock = some lock → lock.get path = none) := by
  cases r with
  | error e =>
    rw [perform_error_project h]
    refine ⟨fun _ hok => ?_, fun path hpath => .inl hpath⟩
    cases hok
  | ok outcome =>
    obtain ⟨request, s₁, planned, s₂, hrequest, hplan, -, hmanifest, hlock⟩ := perform_ok h
    obtain ⟨hkeeps, hnames⟩ := request_ok hprints hrequest
    obtain ⟨manifest, hparse, -, hlocked, hadded⟩ := plan_ok hprints hplan
    obtain ⟨doc, hdoc, -⟩ := readAllow_of_parse hparse
    have hsame := external_of_keeps (hkeeps doc hdoc) (hreachable.parsed hprints) hparse
    rw [hmanifest]
    refine ⟨fun _ _ => ⟨planned.lock, hlock, hlocked⟩, fun path hpath => ?_⟩
    rw [← hsame]
    refine (hadded path hpath).imp_right ?_
    rintro ⟨p, rfl, hmay⟩
    rw [(keepsProject_request operation s _ _ hrequest).2] at hmay
    obtain ⟨named, hallow, hmay⟩ := mayAllow_eq_true.mp hmay
    exact ⟨named, hnames named hallow, hmay⟩

end

/-! ## A Pome that may use `@external` -/

namespace Example

mutual

/-- The same item, of strings, arrays and tables. -/
def sameItem : Toml → Toml → Bool
  | .string s, .string t => s = t
  | .array items, .array items' => sameItems items items'
  | .table entries, .table entries' => sameEntries entries entries'
  | _, _ => false

def sameItems : List Toml → List Toml → Bool
  | [], [] => true
  | item :: items, item' :: items' => sameItem item item' && sameItems items items'
  | _, _ => false

def sameEntries : TomlTable → TomlTable → Bool
  | [], [] => true
  | (key, item) :: entries, (key', item') :: entries' => key = key' && (sameItem item item' && sameEntries entries entries')
  | _, _ => false

end

mutual

theorem sameItem_eq : ∀ {a b : Toml}, sameItem a b = true → a = b
  | .string _, .string _, h => congrArg _ (of_decide_eq_true h)
  | .array _, .array _, h => congrArg _ (sameItems_eq h)
  | .table _, .table _, h => congrArg _ (sameEntries_eq h)

theorem sameItems_eq : ∀ {a b : List Toml}, sameItems a b = true → a = b
  | [], [], _ => rfl
  | _ :: _, _ :: _, h => by
    rw [sameItems, Bool.and_eq_true] at h
    rw [sameItem_eq h.1, sameItems_eq h.2]

theorem sameEntries_eq : ∀ {a b : TomlTable}, sameEntries a b = true → a = b
  | [], [], _ => rfl
  | (_, _) :: _, (_, _) :: _, h => by
    rw [sameEntries, Bool.and_eq_true, Bool.and_eq_true] at h
    rw [of_decide_eq_true h.1, sameItem_eq h.2.1, sameEntries_eq h.2.2]

end

def allowingText : Str := requiringText ++ "\n[external]\nallow = [\"example.com/a\"]\n".toList

/-- The `Pome.toml` of `example.com/a`. -/
def hostText : Str := "[pome]\nname = \"example.com/a\"\nversion = \"1.0.0\"\nemela = \"0.20.1\"\n".toList

def requiringDoc : TomlTable := [("pome".toList, pomeTable),
  ("dependencies".toList, .table [("example.com/a".toList, .string "v1.0.0".toList)])]

def allowingDoc : TomlTable :=
  requiringDoc ++ [("external".toList, .table [("allow".toList, .array [.string "example.com/a".toList])])]

/-- The crates on these texts. The documents with the requirement are written as these texts. -/
def writingCrates : ProjectCrates :=
  { projectCrates with
    parse := fun text =>
      if text = requiringText then some requiringDoc
      else if text = allowingText then some allowingDoc
      else if text = bareText then some [("pome".toList, pomeTable), ("dependencies".toList, .table [])]
      else if text = hostText then
        some [("pome".toList, .table [("name".toList, .string "example.com/a".toList),
          ("version".toList, .string "1.0.0".toList), ("emela".toList, .string "0.20.1".toList)])]
      else none
    print := fun _ doc =>
      if sameEntries doc requiringDoc then requiringText else if sameEntries doc allowingDoc then allowingText else [] }

theorem allowingText_ne : allowingText ≠ requiringText := by
  intro h
  have hnil := List.append_right_eq_self.mp h
  cases hnil

theorem bareText_ne_allowingText : bareText ≠ allowingText := by
  intro h
  rw [allowingText, requiringText, List.append_assoc] at h
  have hnil := List.self_eq_append_right.mp h
  cases hnil

theorem writingCrates_requiringText : writingCrates.parse requiringText = some requiringDoc := by
  simp only [writingCrates, if_true]

theorem writingCrates_allowingText : writingCrates.parse allowingText = some allowingDoc := by
  simp only [writingCrates, if_neg allowingText_ne, if_true]

theorem writingCrates_bareText :
    writingCrates.parse bareText = some [("pome".toList, pomeTable), ("dependencies".toList, .table [])] := by
  simp only [writingCrates, if_neg bareText_ne, if_neg bareText_ne_allowingText, if_true]

theorem nil_ne_bareText : [] ≠ bareText := by
  have htext : bareText = _ := String.toList_ofList
  rw [htext]
  exact (List.cons_ne_nil _ _).symm

theorem nil_ne_hostText : [] ≠ hostText := by
  have htext : hostText = _ := String.toList_ofList
  rw [htext]
  exact (List.cons_ne_nil _ _).symm

theorem writingCrates_nil : writingCrates.parse [] = none := by
  have hrequiring : [] ≠ requiringText := fun h => nil_ne_bareText (List.nil_eq_append_iff.mp h).1.symm
  have hallowing : [] ≠ allowingText := fun h => hrequiring (List.nil_eq_append_iff.mp h).1.symm
  simp only [writingCrates, if_neg hrequiring, if_neg hallowing, if_neg nil_ne_bareText, if_neg nil_ne_hostText]

theorem writingCrates_printsItems : writingCrates.PrintsItems := by
  intro text doc doc' h
  suffices doc = doc' by rw [this]; exact fun _ _ _ => Iff.rfl
  change writingCrates.parse (if _ then _ else _) = _ at h
  split at h
  · next hsame => exact (sameEntries_eq hsame).trans (Option.some.inj (writingCrates_requiringText.symm.trans h))
  · split at h
    · next hsame => exact (sameEntries_eq hsame).trans (Option.some.inj (writingCrates_allowingText.symm.trans h))
    · cases writingCrates_nil.symm.trans h

/-- A repository with a file that uses `@external`. -/
def hostWorld : World Unit :=
  { world [] with
    fetch := fun _ _ w => (.ok (List.replicate 40 '0',
      [(MANIFEST_FILE, utf8 hostText), ("src/a.emel".toList, utf8 "@external(js)\n".toList)]), w) }

/-- A project without requirements and without a lock. -/
def starting : Project := { requiring with
  text := bareText
  manifest := { requiring.manifest with dependencies := [] }
  lock := none }

def unlocked : PomeState Unit where
  machine := ⟨Cache.empty, (), []⟩
  disk file := if file = starting.manifestFile then some bareText else none
  project := starting

theorem reachable_starting : Reachable writingCrates starting := by
  have hopen : Project.open writingCrates "/app".toList bareText none = .ok starting := by
    rw [Project.open, parseManifest, Manifest.parse, writingCrates_bareText]
    rfl
  exact .opened hopen

def addition : Operation := .add "example.com/a@v1.0.0".toList true false

/-- The addition is written, its lock names the file, and the path is in the list. -/
def added : Option (Except PomeError Outcome × PomeState Unit) → Bool
  | some (.ok _, s') => s'.project.text = allowingText && s'.project.manifest.external = [path] &&
      s'.project.lock.any fun lock => lock.pomes.any fun p => p.external = ["src/a.emel".toList]
  | _ => false

theorem added_eq_true {r : Option (Except PomeError Outcome × PomeState Unit)} (h : added r = true) :
    ∃ outcome s', r = some (.ok outcome, s') ∧ s'.project.manifest.external = [path] := by
  unfold added at h
  split at h
  · next outcome s' =>
    simp only [Bool.and_eq_true, decide_eq_true_eq] at h
    exact ⟨outcome, s', rfl, h.1.2⟩
  · cases h

end Example

open Example in
/-- The Pome that is added with `--allow-external` has a file that uses it, and is named. -/
theorem perform_external_add :
    ∃ outcome s', runOp (addition.perform hostWorld writingCrates config 3) unlocked = some (.ok outcome, s') ∧
      s'.project.manifest.external = [path] ∧
      (∃ lock, s'.project.lock = some lock ∧ ∀ p ∈ lock.pomes, p.external ≠ [] → p.path ∈ s'.project.manifest.external) ∧
      (path ∈ unlocked.project.manifest.external ∨ ∃ named, addition.Names named ∧
        (path = named ∨ ∀ lock, unlocked.project.lock = some lock → lock.get path = none)) := by
  have hok : added (runOp (addition.perform hostWorld writingCrates config 3) unlocked) = true := by decide +kernel
  obtain ⟨outcome, s', hrun, hexternal⟩ := added_eq_true hok
  obtain ⟨hlocked, hnamed⟩ := perform_external writingCrates_printsItems reachable_starting hrun
  have hmem : path ∈ s'.project.manifest.external := by
    rw [hexternal]
    exact List.mem_singleton.mpr rfl
  exact ⟨outcome, s', hrun, hexternal, hlocked outcome rfl, hnamed path hmem⟩

end Emela.Pome
