import Emela.Pome.Lemmas.Project
import Emela.Pome.Cached

/-!
# What an operation that fails leaves

The new `Pome.toml` and the new lock are computed before anything is written. But the two files are written one
after the other.
-/

namespace Emela.Pome

section
variable {σ : Type} {world : World σ} {crates : ProjectCrates} {config : Config} {fuel : Nat}
  {s s' : PomeState σ} {e : PomeError}

/-- `Pome.toml` gets a text that it has not, and then the file system does not let `Pome.lock` be written. -/
def LockRefused (world : World σ) (plan : Plan) (s : PomeState σ) : Prop :=
  (plan.text ≠ s.project.text ∧ s.disk s.project.manifestFile ≠ some plan.text) ∧ s.project.lock ≠ some plan.lock ∧
    ∃ w m w', world.replace s.project.manifestFile s.machine.world = (.ok (), w) ∧
      world.replace s.project.lockFile w = (.error m, w')

/-- The files and the project in memory are as before. -/
def Unchanged (s s' : PomeState σ) : Prop :=
  s'.disk s.project.manifestFile = s.disk s.project.manifestFile ∧
    s'.disk s.project.lockFile = s.disk s.project.lockFile ∧ s'.project = s.project

theorem unchanged_update_iff {text : Str}
    (hdisk : s'.disk = Function.update s.disk s.project.manifestFile (some text)) (hproject : s'.project = s.project) :
    Unchanged s s' ↔ s.disk s.project.manifestFile = some text := by
  have hmanifest : s'.disk s.project.manifestFile = some text := by rw [hdisk, Function.update_self]
  constructor
  · exact fun h => h.1.symm.trans hmanifest
  · intro h
    rw [← h, Function.update_eq_self] at hdisk
    exact ⟨congrFun hdisk _, congrFun hdisk _, hproject⟩

theorem commit_error {plan : Plan} (h : runOp (commit world crates plan) s = some (.error e, s')) :
    Unchanged s s' ↔ ¬LockRefused world plan s := by
  obtain h | ⟨project, s₀, hp, h⟩ := runOp_bind_error.mp h
  · cases (runOp_theProject.mp h).1
  obtain ⟨hp, rfl⟩ := runOp_theProject.mp hp
  cases hp
  obtain h | ⟨⟨⟩, s₁, h₁, h⟩ := runOp_bind_error.mp h
  · -- `Pome.toml` is not written
    obtain ⟨⟨m, w, hw⟩, hdisk, hproject⟩ := write_error (runOp_writeIf_error.mp h).2
    refine iff_of_true ⟨congrFun hdisk _, congrFun hdisk _, hproject⟩ ?_
    rintro ⟨-, -, w', -, -, hok, -⟩
    cases hw.symm.trans hok
  obtain h | ⟨⟨⟩, s₂, -, h⟩ := runOp_bind_error.mp h
  · -- `Pome.lock` is not written
    obtain ⟨hlock, h⟩ := runOp_writeIf_error.mp h
    obtain ⟨⟨m, w, hw⟩, hdisk, hproject⟩ := write_error h
    obtain ⟨htext, rfl⟩ | ⟨htext, hok⟩ := runOp_writeIf_ok.mp h₁
    · refine iff_of_true ⟨congrFun hdisk _, congrFun hdisk _, hproject⟩ fun hr => ?_
      exact of_decide_eq_false htext hr.1.1
    · obtain ⟨hok, hdisk₁, hproject₁⟩ := write_ok hok
      rw [unchanged_update_iff (hdisk.trans hdisk₁) (hproject.trans hproject₁)]
      constructor
      · exact fun hsame hr => hr.1.2 hsame
      · intro hr
        by_contra hne
        exact hr ⟨⟨of_decide_eq_true htext, hne⟩, of_decide_eq_true hlock, _, m, w, hok, hw⟩
  · -- in memory the project is set last
    cases h

theorem commit_refused {plan : Plan} (h : LockRefused world plan s) :
    ∃ e s', runOp (commit world crates plan) s = some (.error e, s') := by
  obtain ⟨⟨htext, -⟩, hlock, w, m, w', hmanifest, hrefused⟩ := h
  let s₁ : PomeState σ := { s with
    machine := { s.machine with world := w }
    disk := Function.update s.disk s.project.manifestFile (some plan.text) }
  have hfirst : runOp (writeIf world (plan.text ≠ s.project.text) s.project.manifestFile plan.text) s = some (.ok (), s₁) := by
    rw [writeIf, if_pos (decide_eq_true htext)]
    simp only [runOp, write, hmanifest]
    rfl
  have hsecond : runOp (writeIf world (s.project.lock ≠ some plan.lock) s.project.lockFile
      (plan.lock.toToml crates.toLockCrates)) s₁ = some (.error (.io (s.project.lockFile ++ ": ".toList ++ m)),
        { s₁ with machine := { s₁.machine with world := w' } }) := by
    rw [writeIf, if_pos (decide_eq_true hlock)]
    simp only [runOp, write, s₁, hrefused]
  exact ⟨_, _, runOp_bind_error.mpr (.inr ⟨s.project, s, runOp_theProject.mpr ⟨rfl, rfl⟩,
    runOp_bind_error.mpr (.inr ⟨(), s₁, hfirst, runOp_bind_error.mpr (.inl hsecond)⟩)⟩)⟩

/-- An operation gets as far as `LockRefused`. -/
def HalfWritten (world : World σ) (crates : ProjectCrates) (config : Config) (fuel : Nat) (operation : Operation)
    (s : PomeState σ) : Prop :=
  ∃ request s₁ planned s₂, runOp (operation.request world crates config) s = some (.ok request, s₁) ∧
    runOp (plan world crates config fuel request.text request.allow) s₁ = some (.ok planned, s₂) ∧
    LockRefused world planned s₂

theorem HalfWritten.fails {operation : Operation} (h : HalfWritten world crates config fuel operation s) :
    ∃ e s', runOp (operation.perform world crates config fuel) s = some (.error e, s') := by
  obtain ⟨request, s₁, planned, s₂, hrequest, hplan, hrefused⟩ := h
  obtain ⟨e, s', hcommit⟩ : ∃ e s', runOp (commit world crates planned) s₂ = some (.error e, s') := commit_refused hrefused
  refine ⟨e, s', runOp_bind_error.mpr (.inr ⟨request, s₁, hrequest, ?_⟩)⟩
  exact runOp_bind_error.mpr (.inr ⟨planned, s₂, hplan, runOp_bind_error.mpr (.inl hcommit)⟩)

/-- A call that fails leaves both files and the project as they were exactly when it does not fail at `Pome.lock` after
it has changed `Pome.toml`. -/
theorem perform_halfWritten_iff (operation : Operation)
    (h : runOp (operation.perform world crates config fuel) s = some (.error e, s')) :
    Unchanged s s' ↔ ¬HalfWritten world crates config fuel operation s := by
  have hunchanged {t : PomeState σ} (hk : t.disk = s.disk ∧ t.project = s.project) : Unchanged s t :=
    ⟨congrFun hk.1 _, congrFun hk.1 _, hk.2⟩
  obtain h | ⟨request, s₁, hrequest, h⟩ := runOp_bind_error.mp h
  · refine iff_of_true (hunchanged (keepsProject_request operation s _ _ h)) ?_
    rintro ⟨request, s₁, -, -, hrequest, -⟩
    cases h.symm.trans hrequest
  have hkeep := keepsProject_request operation s _ _ hrequest
  obtain h | ⟨planned, s₂, hplan, h⟩ := runOp_bind_error.mp h
  · obtain ⟨hdisk, hproject⟩ := keepsProject_plan _ _ s₁ _ _ h
    refine iff_of_true (hunchanged ⟨hdisk.trans hkeep.1, hproject.trans hkeep.2⟩) ?_
    rintro ⟨request', s₁', planned, s₂, hrequest', hplan, -⟩
    cases hrequest.symm.trans hrequest'
    cases h.symm.trans hplan
  obtain ⟨hdisk, hproject⟩ := keepsProject_plan _ _ s₁ _ _ hplan
  have hhalf : HalfWritten world crates config fuel operation s ↔ LockRefused world planned s₂ := by
    constructor
    · rintro ⟨request', s₁', planned', s₂', hrequest', hplan', hrefused⟩
      cases hrequest.symm.trans hrequest'
      cases hplan.symm.trans hplan'
      exact hrefused
    · exact fun hrefused => ⟨request, s₁, planned, s₂, hrequest, hplan, hrefused⟩
  rw [hhalf]
  obtain h | ⟨⟨⟩, s₃, -, h⟩ := runOp_bind_error.mp h
  · have hcommit := commit_error h
    rw [Unchanged, hdisk, hproject, hkeep.1, hkeep.2] at hcommit
    exact hcommit
  · cases (runOp_pure.mp h).1

variable (world) in
/-- The file system does not refuse `Pome.lock` right after it let `Pome.toml` be replaced. -/
def LockFollows (root : Str) : Prop :=
  ∀ w w', world.replace (joinPath root MANIFEST_FILE) w = (.ok (), w') →
    (world.replace (joinPath root LOCK_FILE) w').1 = .ok ()

theorem LockFollows.not_halfWritten {operation : Operation} (h : LockFollows world s.project.root) :
    ¬HalfWritten world crates config fuel operation s := by
  rintro ⟨request, s₁, planned, s₂, hrequest, hplan, -, -, w, m, w', hmanifest, hrefused⟩
  have hproject := (keepsProject_plan _ _ s₁ _ _ hplan).2.trans (keepsProject_request operation s _ _ hrequest).2
  rw [hproject] at hmanifest hrefused
  have hok : (world.replace s.project.lockFile w).1 = .ok () := h _ _ hmanifest
  rw [hrefused] at hok
  cases hok

end

/-! ## A disk that is full at the second file -/

namespace Example

def pomeTable : Toml := .table [("name".toList, .string "example.com/app".toList),
  ("version".toList, .string "0.1.0".toList), ("emela".toList, .string "0.20.1".toList)]

/-- A `Pome.toml` without requirements, and with one. -/
def bareText : Str :=
  "[pome]\nname = \"example.com/app\"\nversion = \"0.1.0\"\nemela = \"0.20.1\"\n\n[dependencies]\n".toList

def requiringText : Str := bareText ++ "\"example.com/a\" = \"v1.0.0\"\n".toList

/-- The crates on these two texts and a lock without Pomes. -/
def projectCrates : ProjectCrates where
  toCrates := crates
  parse text :=
    if text = requiringText then
      some [("pome".toList, pomeTable),
        ("dependencies".toList, .table [("example.com/a".toList, .string "v1.0.0".toList)])]
    else if text = bareText then some [("pome".toList, pomeTable), ("dependencies".toList, .table [])]
    else none
  fromStrError _ := []
  editError _ := []
  print _ _ := bareText
  lockFromStr _ := .error []
  lockToString _ := "version = 1\n".toList

/-- The project that requires `example.com/a` and has it in its lock. -/
def requiring : Project where
  root := "/app".toList
  text := requiringText
  manifest := {
    name := ⟨"example.com/app".toList⟩
    version := ⟨⟨0, 1, 0, []⟩, "v0.1.0".toList, by decide⟩
    emela := "0.20.1".toList
    module := none
    targets := none
    dependencies := [(path, ⟨version, none⟩)]
    devDependencies := []
    replace := []
    external := [] }
  lock := some ⟨[lockOf []]⟩

/-- Without the requirement the text is shorter. -/
theorem bareText_ne : bareText ≠ requiringText := by
  intro h
  have hnil := List.self_eq_append_right.mp h
  cases hnil

theorem parse_requiringText : projectCrates.parse requiringText = some [("pome".toList, pomeTable),
    ("dependencies".toList, .table [("example.com/a".toList, .string "v1.0.0".toList)])] := by
  simp only [projectCrates, if_true]

theorem parse_bareText :
    projectCrates.parse bareText = some [("pome".toList, pomeTable), ("dependencies".toList, .table [])] := by
  simp only [projectCrates, if_neg bareText_ne, if_true]

example : Manifest.parse projectCrates.toTomlCrates requiringText = .ok requiring.manifest := by
  rw [Manifest.parse, parse_requiringText]
  rfl

/-- A disk with room for the files that `may` says. -/
def room (may : Str → Bool) : World Unit :=
  { world [] with replace := fun file _ => (if may file then .ok () else .error "No space left on device".toList, ()) }

/-- The project in some directory. -/
def openedAt {σ : Type} (root : Str) (w : σ) : PomeState σ where
  machine := ⟨Cache.empty, w, []⟩
  disk file := if file = joinPath root MANIFEST_FILE then some requiringText else none
  project := { requiring with root }

def opened : PomeState Unit := openedAt "/app".toList ()

def removal : Operation := .remove "example.com/a".toList

theorem removeDependency_requiringText :
    Edit.removeDependency projectCrates.toTomlCrates requiringText Edit.DEPENDENCIES path = .ok (some bareText) := by
  rw [Edit.removeDependency, Edit.parse, parse_requiringText]
  rfl

theorem request_removal {σ : Type} (world : World σ) (root : Str) (w : σ) : ∃ request, request.text = bareText ∧
    request.allow = none ∧
    runOp (removal.request world projectCrates config) (openedAt root w) = some (.ok request, openedAt root w) := by
  refine ⟨⟨bareText, [{ path, «from» := some version, «to» := none, dev := false }], none⟩, rfl, rfl, ?_⟩
  refine runOp_bind_ok.mpr ⟨{ requiring with root }, openedAt root w, rfl, ?_⟩
  refine runOp_bind_ok.mpr ⟨path, openedAt root w, rfl, ?_⟩
  exact runOp_bind_ok.mpr ⟨some bareText, _, runOp_edited.mpr ⟨removeDependency_requiringText, rfl⟩, rfl⟩

theorem plan_removal {σ : Type} (world : World σ) (root : Str) (w : σ) : ∃ planned, planned.text = bareText ∧
    planned.lock = ⟨[]⟩ ∧
    runOp (plan world projectCrates config 1 bareText none) (openedAt root w) = some (.ok planned, openedAt root w) := by
  have hparse : parseManifest projectCrates.toTomlCrates bareText (Project.manifestFile { requiring with root }) =
      .ok { requiring.manifest with dependencies := [] } := by
    rw [parseManifest, Manifest.parse, parse_bareText]
    rfl
  refine ⟨_, ?_, ?_, runOp_bind_ok.mpr ⟨{ requiring with root }, openedAt root w, rfl,
    runOp_bind_ok.mpr ⟨_, _, runOp_checked.mpr ⟨hparse, rfl⟩, rfl⟩⟩⟩
  · rfl
  · rfl

theorem halfWritten_removal {σ : Type} {world : World σ} {root m : Str} {w w₁ w₂ : σ}
    (hmanifest : world.replace (joinPath root MANIFEST_FILE) w = (.ok (), w₁))
    (hlock : world.replace (joinPath root LOCK_FILE) w₁ = (.error m, w₂)) :
    HalfWritten world projectCrates config 1 removal (openedAt root w) := by
  obtain ⟨request, htext, hallow, hrequest⟩ := request_removal world root w
  obtain ⟨planned, hplanned, hempty, hplan⟩ := plan_removal world root w
  rw [← htext, ← hallow] at hplan
  have hdisk : (openedAt root w).disk (openedAt root w).project.manifestFile = some requiringText := if_pos rfl
  refine ⟨request, _, planned, _, hrequest, hplan, ⟨?_, ?_⟩, ?_, w₁, m, w₂, hmanifest, hlock⟩
  · rw [hplanned]
    exact bareText_ne
  · rw [hplanned, hdisk]
    exact fun h => bareText_ne (Option.some.inj h).symm
  · rw [hempty]
    exact fun h => (by cases h)

end Example

open Example in
/-- Every operation that fails leaves both files and the project as they were, exactly when the file system does not
refuse `Pome.lock` right after it let `Pome.toml` be replaced. -/
theorem perform_error_unchanged_iff {σ : Type} (world : World σ) (root : Str) :
    (∀ (crates : ProjectCrates) (config : Config) (fuel : Nat) (operation : Operation) (s s' : PomeState σ) (e : PomeError),
      s.project.root = root → runOp (operation.perform world crates config fuel) s = some (.error e, s') →
      Unchanged s s') ↔ LockFollows world root := by
  constructor
  · intro h w w₁ hmanifest
    rcases hlock : world.replace (joinPath root LOCK_FILE) w₁ with ⟨m | _, w₂⟩
    · have half := halfWritten_removal hmanifest hlock
      obtain ⟨e, s', hrun⟩ := half.fails
      exact absurd half ((perform_halfWritten_iff removal hrun).mp (h _ _ _ removal _ _ _ rfl hrun))
    · rfl
  · rintro h crates config fuel operation s s' e rfl hrun
    exact (perform_halfWritten_iff operation hrun).mpr h.not_halfWritten

open Example in
/-- Without room for `Pome.toml` all is as before. -/
theorem perform_error_unchanged_full :
    ∃ e s', runOp (removal.perform (room fun _ => false) projectCrates config 1) opened = some (.error e, s') ∧
      Unchanged opened s' := by
  obtain ⟨request, htext, hallow, hrequest⟩ := request_removal (room fun _ => false) "/app".toList ()
  obtain ⟨planned, hplanned, -, hplan⟩ := plan_removal (room fun _ => false) "/app".toList ()
  rw [← htext, ← hallow] at hplan
  have hrefused : runOp (writeIf (room fun _ => false) (planned.text ≠ requiringText) requiring.manifestFile planned.text)
      opened = some (.error (.io (requiring.manifestFile ++ ": ".toList ++ "No space left on device".toList)), opened) := by
    rw [writeIf, if_pos (decide_eq_true (hplanned.trans_ne bareText_ne))]
    rfl
  have hcommit : runOp (commit (room fun _ => false) projectCrates planned) opened = some (.error _, _) :=
    runOp_bind_error.mpr (.inr ⟨requiring, opened, rfl, runOp_bind_error.mpr (.inl hrefused)⟩)
  have hrun : runOp (removal.perform (room fun _ => false) projectCrates config 1) opened = some (.error _, _) :=
    runOp_bind_error.mpr (.inr ⟨request, opened, hrequest, runOp_bind_error.mpr (.inr ⟨planned, opened, hplan,
      runOp_bind_error.mpr (.inl hcommit)⟩)⟩)
  refine ⟨_, _, hrun, (perform_error_unchanged_iff _ _).mpr ?_ _ _ _ removal _ _ _ rfl hrun⟩
  intro w w₁ hok
  cases hok

open Example in
/-- With room for `Pome.toml` alone, it no longer requires what the lock has. -/
theorem not_perform_error_unchanged :
    ¬∀ (world : World Unit) (fuel : Nat) (operation : Operation) (s s' : PomeState Unit) (e : PomeError),
      runOp (operation.perform world projectCrates config fuel) s = some (.error e, s') → Unchanged s s' := by
  intro h
  have hmanifest : (room (· = requiring.manifestFile)).replace requiring.manifestFile () = (.ok (), ()) := rfl
  have hlock : (room (· = requiring.manifestFile)).replace requiring.lockFile () =
      (.error "No space left on device".toList, ()) := rfl
  have half : HalfWritten (room (· = requiring.manifestFile)) projectCrates config 1 removal opened :=
    halfWritten_removal hmanifest hlock
  obtain ⟨e, s', hrun⟩ := half.fails
  exact (perform_halfWritten_iff removal hrun).mp (h _ _ _ _ _ _ hrun) half

end Emela.Pome
