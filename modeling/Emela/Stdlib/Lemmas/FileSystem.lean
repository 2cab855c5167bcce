import Emela.Stdlib.FileSystem

/-!
# What the clauses do to the two lists

A path list is split at the place of a new path, so it stays sorted; the lineage of a path has the parents of
its members.
-/

namespace Emela.Stdlib

variable {path p q x y : Str} {xs ys : List Str}

/-! ## Sorted lists -/

theorem sorted_split (h : xs.Pairwise (· < ·)) (hx : x ∉ xs) :
    (xs.filter (· < x) ++ [x] ++ xs.filter fun y => !decide (y < x)).Pairwise (· < ·) := by
  have hbefore : ∀ y ∈ xs.filter (· < x), y < x := fun y hy => of_decide_eq_true (List.mem_filter.mp hy).2
  have hafter : ∀ y ∈ xs.filter (fun y => !decide (y < x)), x < y := by
    intro y hy
    obtain ⟨hmem, hnot⟩ := List.mem_filter.mp hy
    have hle : x ≤ y := not_lt.mp (by simpa using hnot)
    exact lt_of_le_of_ne hle fun heq => hx (heq ▸ hmem)
  rw [List.append_assoc, List.pairwise_append]
  refine ⟨h.sublist List.filter_sublist, ?_, fun a ha b hb => ?_⟩
  · exact List.pairwise_cons.mpr ⟨hafter, h.sublist List.filter_sublist⟩
  · cases hb with
    | head => exact hbefore a ha
    | tail _ hb => exact (hbefore a ha).trans (hafter b hb)

theorem insert_sorted (h : xs.Pairwise (· < ·)) (x : Str) : (insert xs x).Pairwise (· < ·) := by
  unfold insert
  split
  · exact h
  · next hx =>
    rw [List.partition_eq_filter_filter]
    exact sorted_split h fun hmem => hx (List.any_eq_true.mpr ⟨x, hmem, beq_self_eq_true x⟩)

theorem mem_insert : y ∈ insert xs x ↔ y ∈ xs ∨ y = x := by
  unfold insert
  split
  · next hx =>
    obtain ⟨x', hmem, heq⟩ := List.any_eq_true.mp hx
    obtain rfl := eq_of_beq heq
    exact ⟨.inl, fun h => h.elim id fun h => h ▸ hmem⟩
  · rw [List.partition_eq_filter_filter]
    simp only [List.mem_append, List.mem_singleton, List.mem_filter, Function.comp_apply, Bool.not_eq_true',
      decide_eq_true_eq, decide_eq_false_iff_not]
    tauto

theorem foldl_insert_sorted (h : xs.Pairwise (· < ·)) (ys : List Str) : (ys.foldl insert xs).Pairwise (· < ·) := by
  induction ys generalizing xs with
  | nil => exact h
  | cons y ys ih => exact ih (insert_sorted h y)

theorem mem_foldl_insert : y ∈ ys.foldl insert xs ↔ y ∈ xs ∨ y ∈ ys := by
  induction ys generalizing xs with
  | nil => simp
  | cons z ys ih => rw [List.foldl_cons, ih, mem_insert, List.mem_cons, or_assoc]

/-! ## Ancestors -/

theorem parent_length (h : Path.parent path = some p) :
    (Path.components path).length = (Path.components p).length + 1 := by
  obtain ⟨hne, hp⟩ := Path.components_parent h
  have hpos := List.length_pos_iff.mpr hne
  rw [hp, List.length_dropLast]
  omega

theorem ancestorsOnto_append (n : Nat) (path : Str) (acc : List Str) :
    ancestorsOnto n path acc = ancestorsOnto n path [] ++ acc := by
  induction n generalizing path acc with
  | zero => rfl
  | succ n ih =>
    rw [ancestorsOnto, ancestorsOnto]
    cases Path.parent path with
    | none => rfl
    | some p =>
      dsimp only
      rw [ih p (p :: acc), ih p [p], List.append_assoc, List.singleton_append]

/-- The ancestors are the lineage of the parent. -/
theorem ancestors_eq (path : Str) : ancestors path = (Path.parent path).elim [] lineage := by
  unfold ancestors
  cases hp : Path.parent path with
  | none =>
    cases (Path.components path).length with
    | zero => rfl
    | succ n => simp [ancestorsOnto, hp]
  | some p =>
    rw [parent_length hp, ancestorsOnto, hp]
    dsimp only
    rw [ancestorsOnto_append, List.reverse_append]
    rfl

/-- A set with a path and the parents of its members has the lineage of the path. -/
theorem lineage_subset {S : Str → Prop} (hpath : S path) (hparent : ∀ m q, S m → Path.parent m = some q → S q) :
    ∀ m ∈ lineage path, S m := by
  induction hn : (Path.components path).length generalizing path with
  | zero =>
    cases hp : Path.parent path with
    | none => simpa [lineage, ancestors_eq, hp] using hpath
    | some p =>
      rw [parent_length hp] at hn
      cases hn
  | succ n ih =>
    rw [lineage, ancestors_eq]
    cases hp : Path.parent path with
    | none => simpa using hpath
    | some p =>
      rw [parent_length hp, Nat.succ_inj] at hn
      exact List.forall_mem_cons.mpr ⟨hpath, ih (hparent path p hpath hp) hn⟩

/-- The lineage has the parents of its members. -/
theorem parent_mem_ancestors (h : x ∈ lineage path) (hp : Path.parent x = some q) : q ∈ ancestors path := by
  induction hn : (Path.components path).length generalizing path with
  | zero =>
    cases hpath : Path.parent path with
    | some p =>
      rw [parent_length hpath] at hn
      cases hn
    | none =>
      obtain rfl : x = path := by simpa [lineage, ancestors_eq, hpath] using h
      rw [hpath] at hp
      cases hp
  | succ n ih =>
    rw [lineage, ancestors_eq] at h
    rw [ancestors_eq]
    cases hpath : Path.parent path with
    | none =>
      obtain rfl : x = path := by simpa [hpath] using h
      rw [hpath] at hp
      cases hp
    | some p =>
      rw [hpath] at h
      rw [parent_length hpath, Nat.succ_inj] at hn
      obtain rfl | h := List.mem_cons.mp h
      · rw [hpath] at hp
        cases hp
        exact List.mem_cons_self
      · exact List.mem_cons_of_mem _ (ih h hn)

/-! ## Texts -/

section
variable {st st' : TestFiles} {text : Str} {f : Option Str → Str}

theorem find_filter_key (P : Str → Bool) (files : List (Str × Str)) (q : Str) :
    (files.filter fun e => P e.1).find? (fun e => e.1 == q) = if P q then files.find? (fun e => e.1 == q) else none := by
  induction files with
  | nil => simp
  | cons e files ih =>
    by_cases hq : e.1 = q
    · subst hq
      cases hP : P e.1
      · simp [hP, ih]
      · simp [hP]
    · cases hP : P e.1 <;> simp [hP, ih, hq]

theorem fileText_isSome : (st.fileText path).isSome ↔ path ∈ st.files.map (·.1) := by
  simp [TestFiles.fileText, List.find?_isSome]

/-- What `putFile` makes, and when. -/
theorem putFile_ok (h : st.putFile path f = .ok st') :
    st.isDir path = false ∧ (∀ q, Path.parent path = some q → st.isDir q = true) ∧
      st'.directories = st.directories ∧
      st'.files = (st.files.filter fun e => e.1 ≠ path).filter (fun e => decide (e.1 < path)) ++
        [(path, f (st.fileText path))] ++ (st.files.filter fun e => e.1 ≠ path).filter fun e => !decide (e.1 < path) := by
  unfold TestFiles.putFile at h
  split at h
  · cases h
  next hdir =>
  split at h
  · cases h
  next hparent =>
  dsimp only at h
  rw [List.partition_eq_filter_filter] at h
  cases h
  refine ⟨by simpa using hdir, fun q hq => ?_, rfl, rfl⟩
  simpa [hq] using hparent

theorem putFile_fileText (h : st.putFile path f = .ok st') :
    st'.fileText = Function.update st.fileText path (some (f (st.fileText path))) := by
  obtain ⟨-, -, -, hfiles⟩ := putFile_ok h
  funext q
  have hother (P : Str → Bool) : ((st.files.filter fun e => e.1 ≠ path).filter fun e => P e.1).find? (fun e => e.1 == q) =
      if P q && decide (q ≠ path) then st.files.find? (fun e => e.1 == q) else none := by
    rw [find_filter_key, find_filter_key fun k => decide (k ≠ path)]
    cases P q <;> simp
  have hlt := hother fun k => decide (k < path)
  have hge := hother fun k => !decide (k < path)
  rw [TestFiles.fileText, hfiles, List.find?_append, List.find?_append, hlt, hge]
  by_cases hq : q = path
  · subst hq
    simp [Function.update_self]
  · rw [Function.update_of_ne hq]
    by_cases hlt : q < path <;> simp [hlt, hq, Ne.symm hq, TestFiles.fileText]

theorem filter_fileText : TestFiles.fileText { st with files := st.files.filter fun e => e.1 ≠ path } =
    Function.update st.fileText path none := by
  funext q
  rw [TestFiles.fileText, find_filter_key fun k => decide (k ≠ path)]
  by_cases hq : q = path
  · subst hq
    simp
  · simp [hq, TestFiles.fileText]

end

end Emela.Stdlib
