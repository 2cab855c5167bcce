import Mathlib.Data.List.Basic

/-!
# Lists split at a separator

The parts do not have the separator, and with separators between them they are the list. A separator of several elements is
found from the left, and its occurrences do not overlap.
-/

namespace Split

variable {α : Type} {c sep : α} {s : List α} {parts : List (List α)}

theorem mem_intercalate (h : c ∈ [sep].intercalate parts) : c = sep ∨ ∃ part ∈ parts, c ∈ part := by
  induction parts with
  | nil => cases h
  | cons p rest ih =>
    cases rest with
    | nil => exact .inr ⟨p, by simp, by simpa [List.intercalate] using h⟩
    | cons q rest =>
      have h : c ∈ p ++ ([sep] ++ [sep].intercalate (q :: rest)) := h
      rw [List.mem_append, List.mem_append, List.mem_singleton] at h
      rcases h with h | rfl | h
      · exact .inr ⟨p, by simp, h⟩
      · exact .inl rfl
      · exact (ih h).imp_right fun ⟨part, hpart, hc⟩ => ⟨part, List.mem_cons_of_mem p hpart, hc⟩

theorem intercalate_cons_cons (p q : List α) (rest : List (List α)) :
    [sep].intercalate (p :: q :: rest) = p ++ sep :: [sep].intercalate (q :: rest) := rfl

variable [DecidableEq α]

/-- The elements of a list are the separators and those of its parts. -/
theorem mem_splitOn (h : c ∈ s) : c = sep ∨ ∃ part ∈ s.splitOn sep, c ∈ part := by
  apply mem_intercalate
  rwa [List.intercalate_splitOn sep]

theorem notMem_part (sep : α) (s : List α) : ∀ part ∈ s.splitOn sep, sep ∉ part := by
  induction s with
  | nil => simp
  | cons x s ih =>
    rw [List.splitOn_cons_eq_if_modifyHead]
    split
    · simpa using ih
    · next hx =>
      cases hs : s.splitOn sep with
      | nil => simp
      | cons part rest =>
        rw [hs] at ih
        simp only [List.modifyHead_cons, List.mem_cons, forall_eq_or_imp, not_or] at ih ⊢
        exact ⟨⟨fun h => hx (by simp [← h]), ih.1⟩, ih.2⟩

end Split

/-! ## Separators of several elements -/

namespace Search

variable {α : Type} [DecidableEq α] {sep s : List α} {c : α}

/-- The parts between the occurrences of `sep`, where `skip` elements belong to one that has started. -/
def splitFrom (sep : List α) : Nat → List α → List (List α)
  | _, [] => [[]]
  | 0, c :: rest =>
      if sep.isPrefixOf (c :: rest) then [] :: splitFrom sep (sep.length - 1) rest
      else (splitFrom sep 0 rest).modifyHead (c :: ·)
  | skip + 1, _ :: rest => splitFrom sep skip rest

/-- The parts between the occurrences of `sep`, which has an element. -/
def split (sep s : List α) : List (List α) := splitFrom sep 0 s

def contains (sub : List α) : List α → Bool
  | [] => sub.isEmpty
  | c :: rest => sub.isPrefixOf (c :: rest) || contains sub rest

theorem splitFrom_ne_nil (sep : List α) (skip : Nat) (s : List α) : splitFrom sep skip s ≠ [] := by
  fun_induction splitFrom sep skip s with
  | case1 => simp
  | case2 => simp
  | case3 _ _ _ ih => simpa using ih
  | case4 _ _ _ ih => exact ih

omit [DecidableEq α] in
theorem intercalate_modifyHead {c : α} {parts : List (List α)} (h : parts ≠ []) :
    sep.intercalate (parts.modifyHead (c :: ·)) = c :: sep.intercalate parts := by
  cases parts with
  | nil => exact absurd rfl h
  | cons part parts => cases parts <;> rfl

/-- The parts with the separator between them are the list. -/
theorem intercalate_splitFrom (hsep : sep ≠ []) (skip : Nat) (s : List α) :
    sep.intercalate (splitFrom sep skip s) = s.drop skip := by
  fun_induction splitFrom sep skip s with
  | case1 => simp [List.intercalate]
  | case2 c rest hprefix ih =>
    obtain ⟨tail, htail⟩ := List.isPrefixOf_iff_prefix.mp hprefix
    cases sep with
    | nil => exact absurd rfl hsep
    | cons d sep =>
      rw [List.cons_append] at htail
      obtain ⟨rfl, rfl⟩ := List.cons.inj htail
      obtain ⟨part, parts, hparts⟩ := List.exists_cons_of_ne_nil (splitFrom_ne_nil (d :: sep) sep.length (sep ++ tail))
      rw [List.length_cons, Nat.add_sub_cancel] at ih ⊢
      rw [hparts] at ih ⊢
      rw [List.drop_left] at ih
      rw [List.drop_zero, ← ih]
      rfl
  | case3 c rest hnot ih =>
    rw [intercalate_modifyHead (splitFrom_ne_nil sep 0 rest), ih]
    rfl
  | case4 skip c rest ih => exact ih

theorem intercalate_split (hsep : sep ≠ []) (s : List α) : sep.intercalate (split sep s) = s :=
  intercalate_splitFrom hsep 0 s

theorem splitFrom_singleton (c : α) (s : List α) : splitFrom [c] 0 s = s.splitOn c := by
  induction s with
  | nil => rfl
  | cons d s ih =>
    rw [splitFrom, List.splitOn_cons_eq_if_modifyHead, List.length_singleton, Nat.sub_self, ih]
    by_cases h : d = c
    · rw [h, if_pos (by simp), if_pos (by simp)]
    · rw [if_neg (by simp [Ne.symm h]), if_neg (by simp [h])]

/-- A single separator. -/
theorem split_singleton (c : α) (s : List α) : split [c] s = s.splitOn c := splitFrom_singleton c s

theorem contains_singleton : contains [c] s = true ↔ c ∈ s := by
  induction s with
  | nil => simp [contains]
  | cons d s ih => simp [contains, ih]

end Search
