import Emela.Pome.Project

/-!
# How an operation runs

Until `apply` writes, an operation only uses the machine: the files of the project and the project in memory
are those of before.
-/

namespace Emela.Pome

variable {σ α β : Type} {world : World σ} {crates : ProjectCrates} {config : Config} {fuel : Nat}
  {s s' : PomeState σ} {x : Op σ α} {f : α → Op σ β}

/-! ## Running -/

theorem runOp_bind_ok {b : β} :
    runOp (x >>= f) s = some (.ok b, s') ↔
      ∃ a s₁, runOp x s = some (.ok a, s₁) ∧ runOp (f a) s₁ = some (.ok b, s') := by
  show Option.bind (runOp x s) (fun (r, s₁) => ExceptT.bindCont f r s₁) = _ ↔ _
  rcases runOp x s with _ | ⟨_ | a, s₁⟩
  · simp
  · simp only [Option.bind_some, Option.some.injEq, Prod.mk.injEq, reduceCtorEq, false_and, exists_false, iff_false]
    exact fun h => by cases h
  · simp only [Option.bind_some, Option.some.injEq, Prod.mk.injEq, Except.ok.injEq]
    exact ⟨fun h => ⟨a, s₁, ⟨rfl, rfl⟩, h⟩, fun ⟨_, _, ⟨rfl, rfl⟩, h⟩ => h⟩

theorem runOp_bind_error {e : PomeError} :
    runOp (x >>= f) s = some (.error e, s') ↔ runOp x s = some (.error e, s') ∨
      ∃ a s₁, runOp x s = some (.ok a, s₁) ∧ runOp (f a) s₁ = some (.error e, s') := by
  show Option.bind (runOp x s) (fun (r, s₁) => ExceptT.bindCont f r s₁) = _ ↔ _
  rcases runOp x s with _ | ⟨e' | a, s₁⟩
  · simp
  · simp only [Option.bind_some, Option.some.injEq, Prod.mk.injEq, reduceCtorEq, false_and, exists_false, or_false]
    exact ⟨fun h => by cases h; exact ⟨rfl, rfl⟩, fun ⟨h, h'⟩ => by cases h; cases h'; rfl⟩
  · simp only [Option.bind_some, Option.some.injEq, Prod.mk.injEq, reduceCtorEq, false_and, Except.ok.injEq,
      false_or]
    exact ⟨fun h => ⟨a, s₁, ⟨rfl, rfl⟩, h⟩, fun ⟨_, _, ⟨rfl, rfl⟩, h⟩ => h⟩

theorem runOp_pure {a : α} {r : Except PomeError α} : runOp (pure a) s = some (r, s') ↔ .ok a = r ∧ s = s' := by
  show some (Except.ok a, s) = some (r, s') ↔ _
  simp

theorem runOp_throw {e : PomeError} {r : Except PomeError α} :
    runOp (throw e) s = some (r, s') ↔ .error e = r ∧ s = s' := by
  show some (Except.error e, s) = some (r, s') ↔ _
  simp

theorem runOp_theProject {r : Except PomeError Project} :
    runOp theProject s = some (r, s') ↔ .ok s.project = r ∧ s = s' := by
  show some (Except.ok s.project, s) = some (r, s') ↔ _
  simp

theorem runOp_checked {r r' : Except PomeError α} : runOp (checked r) s = some (r', s') ↔ r = r' ∧ s = s' := by
  show some (r, s) = some (r', s') ↔ _
  simp

theorem runOp_edited {r : Except Str α} {a : α} : runOp (edited r) s = some (.ok a, s') ↔ r = .ok a ∧ s = s' := by
  rw [edited, runOp_checked]
  cases r <;> simp [Except.mapError]

/-! ## The files stay -/

/-- The call changes nothing but the machine. -/
def KeepsProject (x : Op σ α) : Prop :=
  ∀ s r s', runOp x s = some (r, s') → s'.disk = s.disk ∧ s'.project = s.project

theorem KeepsProject.pure (a : α) : KeepsProject (pure a : Op σ α) := by
  intro s r s' h
  obtain ⟨-, rfl⟩ := runOp_pure.mp h
  exact ⟨rfl, rfl⟩

theorem KeepsProject.throw (e : PomeError) : KeepsProject (throw e : Op σ α) := by
  intro s r s' h
  obtain ⟨-, rfl⟩ := runOp_throw.mp h
  exact ⟨rfl, rfl⟩

theorem KeepsProject.checked (r : Except PomeError α) : KeepsProject (checked r : Op σ α) := by
  intro s r' s' h
  obtain ⟨-, rfl⟩ := runOp_checked.mp h
  exact ⟨rfl, rfl⟩

theorem KeepsProject.edited (r : Except Str α) : KeepsProject (edited r : Op σ α) := .checked _

theorem keepsProject_theProject : KeepsProject (theProject : Op σ Project) := by
  intro s r s' h
  obtain ⟨-, rfl⟩ := runOp_theProject.mp h
  exact ⟨rfl, rfl⟩

theorem KeepsProject.onMachine (x : Resolve σ α) : KeepsProject (onMachine x) := by
  intro s r s' h
  obtain ⟨⟨_, _⟩, -, h⟩ := Option.map_eq_some_iff.mp h
  cases h
  exact ⟨rfl, rfl⟩

theorem KeepsProject.bind (hx : KeepsProject x) (hf : ∀ a, KeepsProject (f a)) : KeepsProject (x >>= f) := by
  intro s r s' h
  cases r with
  | ok b =>
    obtain ⟨a, s₁, h₁, h₂⟩ := runOp_bind_ok.mp h
    obtain ⟨hd, hp⟩ := hx _ _ _ h₁
    obtain ⟨hd', hp'⟩ := hf a _ _ _ h₂
    exact ⟨hd'.trans hd, hp'.trans hp⟩
  | error e =>
    obtain h | ⟨a, s₁, h₁, h₂⟩ := runOp_bind_error.mp h
    · exact hx _ _ _ h
    · obtain ⟨hd, hp⟩ := hx _ _ _ h₁
      obtain ⟨hd', hp'⟩ := hf a _ _ _ h₂
      exact ⟨hd'.trans hd, hp'.trans hp⟩

theorem KeepsProject.ite {c : Prop} [Decidable c] {x y : Op σ α} (hx : KeepsProject x) (hy : KeepsProject y) :
    KeepsProject (if c then x else y) := by
  split
  · exact hx
  · exact hy

theorem keepsProject_plan (text : Str) (allow : Option SourcePath) :
    KeepsProject (plan world crates config fuel text allow) := by
  refine keepsProject_theProject.bind fun project => (KeepsProject.checked _).bind fun manifest => ?_
  refine (KeepsProject.onMachine _).bind fun lock => .ite (.throw _) (.ite (.pure _) ?_)
  exact (KeepsProject.edited _).bind fun text => (KeepsProject.checked _).bind fun manifest => .pure _

theorem keepsProject_raise (targets : List (SourcePath × Version × Bool)) (text : Str) (changes : List Change) :
    KeepsProject (raise world crates config targets text changes) := by
  induction targets generalizing text changes with
  | nil => exact .pure _
  | cons target targets ih =>
    obtain ⟨path, current, dev⟩ := target
    refine (KeepsProject.onMachine _).bind fun latest => .ite ?_ (ih _ _)
    exact (KeepsProject.edited _).bind fun text => ih _ _

theorem keepsProject_request (operation : Operation) : KeepsProject (operation.request world crates config) := by
  cases operation with
  | install => exact keepsProject_theProject.bind fun project => .pure _
  | add src allowExternal dev =>
    refine keepsProject_theProject.bind fun project => (KeepsProject.checked _).bind fun ⟨path, version⟩ => ?_
    refine .ite (.throw _) (KeepsProject.bind ?_ fun version => .ite (.throw _) (.ite (.throw _) ?_))
    · cases version with
      | some version => exact .pure _
      | none => exact .onMachine _
    · refine KeepsProject.bind (.ite (.pure _) (.edited _)) fun moved => ?_
      exact (KeepsProject.edited _).bind fun text => .pure _
  | remove src =>
    refine keepsProject_theProject.bind fun project => (KeepsProject.checked _).bind fun path => ?_
    refine (KeepsProject.edited _).bind fun text => ?_
    cases text with
    | none => exact .throw _
    | some text => exact .pure _
  | update src =>
    refine keepsProject_theProject.bind fun project => ?_
    cases src with
    | none => exact keepsProject_raise _ _ _
    | some src =>
      exact (KeepsProject.checked _).bind fun path => .ite (.throw _) (keepsProject_raise _ _ _)

/-! ## Writing -/

theorem write_error {file text : Str} {e : PomeError} (h : runOp (write world file text) s = some (.error e, s')) :
    (∃ m w, world.replace file s.machine.world = (.error m, w)) ∧ s'.disk = s.disk ∧ s'.project = s.project := by
  simp only [runOp, write] at h
  rcases hw : world.replace file s.machine.world with ⟨m | ⟨⟩, w⟩
  · rw [hw] at h
    cases h
    exact ⟨⟨m, w, rfl⟩, rfl, rfl⟩
  · rw [hw] at h
    cases h

theorem write_ok {file text : Str} (h : runOp (write world file text) s = some (.ok (), s')) :
    world.replace file s.machine.world = (.ok (), s'.machine.world) ∧
      s'.disk = Function.update s.disk file (some text) ∧ s'.project = s.project := by
  simp only [runOp, write] at h
  rcases hw : world.replace file s.machine.world with ⟨m | ⟨⟩, w⟩
  · rw [hw] at h
    cases h
  · rw [hw] at h
    cases h
    exact ⟨rfl, rfl, rfl⟩

theorem runOp_writeIf_error {needed : Bool} {file text : Str} {e : PomeError} :
    runOp (writeIf world needed file text) s = some (.error e, s') ↔
      needed = true ∧ runOp (write world file text) s = some (.error e, s') := by
  cases needed
  · simp [writeIf, runOp_pure]
  · simp [writeIf]

theorem runOp_writeIf_ok {needed : Bool} {file text : Str} :
    runOp (writeIf world needed file text) s = some (.ok (), s') ↔
      needed = false ∧ s' = s ∨ needed = true ∧ runOp (write world file text) s = some (.ok (), s') := by
  cases needed
  · rw [writeIf, if_neg (by decide), runOp_pure]
    simp [eq_comm]
  · simp [writeIf]

theorem writeIf_project {needed : Bool} {file text : Str} {r : Except PomeError Unit}
    (h : runOp (writeIf world needed file text) s = some (r, s')) : s'.project = s.project := by
  cases r with
  | error e => exact (write_error (runOp_writeIf_error.mp h).2).2.2
  | ok u =>
    obtain ⟨-, rfl⟩ | ⟨-, hok⟩ := runOp_writeIf_ok.mp h
    · rfl
    · exact (write_ok hok).2.2

/-! ## The project in memory -/

/-- It is set last. -/
theorem commit_error_project {plan : Plan} {e : PomeError}
    (h : runOp (commit world crates plan) s = some (.error e, s')) : s'.project = s.project := by
  obtain h | ⟨project, s₀, hp, h⟩ := runOp_bind_error.mp h
  · cases (runOp_theProject.mp h).1
  obtain ⟨-, rfl⟩ := runOp_theProject.mp hp
  obtain h | ⟨⟨⟩, s₁, h₁, h⟩ := runOp_bind_error.mp h
  · exact writeIf_project h
  obtain h | ⟨⟨⟩, s₂, -, h⟩ := runOp_bind_error.mp h
  · exact (writeIf_project h).trans (writeIf_project h₁)
  · cases h

theorem commit_ok_project {plan : Plan} (h : runOp (commit world crates plan) s = some (.ok (), s')) :
    s'.project.text = plan.text ∧ s'.project.manifest = plan.manifest ∧ s'.project.lock = some plan.lock := by
  obtain ⟨project, s₀, -, h⟩ := runOp_bind_ok.mp h
  obtain ⟨⟨⟩, s₁, -, h⟩ := runOp_bind_ok.mp h
  obtain ⟨⟨⟩, s₂, -, h⟩ := runOp_bind_ok.mp h
  cases h
  exact ⟨rfl, rfl, rfl⟩

/-- An operation that fails leaves the project in memory as it was. -/
theorem perform_error_project {operation : Operation} {e : PomeError}
    (h : runOp (operation.perform world crates config fuel) s = some (.error e, s')) : s'.project = s.project := by
  obtain h | ⟨request, s₁, hrequest, h⟩ := runOp_bind_error.mp h
  · exact (keepsProject_request operation s _ _ h).2
  have hkeep := (keepsProject_request operation s _ _ hrequest).2
  obtain h | ⟨planned, s₂, hplan, h⟩ := runOp_bind_error.mp h
  · exact (keepsProject_plan _ _ s₁ _ _ h).2.trans hkeep
  obtain h | ⟨⟨⟩, s₃, -, h⟩ := runOp_bind_error.mp h
  · exact (commit_error_project h).trans ((keepsProject_plan _ _ s₁ _ _ hplan).2.trans hkeep)
  · cases (runOp_pure.mp h).1

end Emela.Pome
