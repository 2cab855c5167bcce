import Mathlib.Data.List.Forall2

/-!
# Well-formed UTF-8

The byte sequences of Table 3-7 of the Unicode standard, and the lists of bytes that are made of them. The lead byte
of a sequence decides what may follow it.
-/

namespace Utf8

/-- The least and the largest byte. -/
abbrev Range := Nat × Nat

variable {lead b : UInt8} {bs s : List UInt8} {ranges : List Range}

def InRange (b : UInt8) (r : Range) : Prop := r.1 ≤ b.toNat ∧ b.toNat ≤ r.2

instance (b : UInt8) (r : Range) : Decidable (InRange b r) := inferInstanceAs (Decidable (_ ∧ _))

/-- The bytes after the second one of a sequence. -/
def TRAIL : Range := (0x80, 0xBF)

/-- Table 3-7. -/
def rows : List (List Range) := [
  [(0x00, 0x7F)],
  [(0xC2, 0xDF), TRAIL],
  [(0xE0, 0xE0), (0xA0, 0xBF), TRAIL],
  [(0xE1, 0xEC), TRAIL, TRAIL],
  [(0xED, 0xED), (0x80, 0x9F), TRAIL],
  [(0xEE, 0xEF), TRAIL, TRAIL],
  [(0xF0, 0xF0), (0x90, 0xBF), TRAIL, TRAIL],
  [(0xF1, 0xF3), TRAIL, TRAIL, TRAIL],
  [(0xF4, 0xF4), (0x80, 0x8F), TRAIL, TRAIL]]

inductive WellFormed : List UInt8 → Prop where
  | nil : WellFormed []
  | append {row : List Range} {s rest : List UInt8} : row ∈ rows → List.Forall₂ InRange s row → WellFormed rest →
      WellFormed (s ++ rest)

/-! ## After a lead byte -/

/-- The second byte is bounded so that no form is overlong, a surrogate, or above 10FFFF. -/
def secondRange (lead : Nat) : Range :=
  (if lead = 0xE0 then 0xA0 else if lead = 0xF0 then 0x90 else 0x80,
    if lead = 0xED then 0x9F else if lead = 0xF4 then 0x8F else 0xBF)

/-- What follows a lead byte. -/
def following (lead : Nat) : Option (List Range) :=
  if lead < 0x80 then some []
  else if lead < 0xC2 then none
  else if lead < 0xE0 then some [secondRange lead]
  else if lead < 0xF0 then some [secondRange lead, TRAIL]
  else if lead < 0xF5 then some [secondRange lead, TRAIL, TRAIL]
  else none

theorem following_rows : ∀ lead < 256,
    (rows.filterMap fun row => match row with
      | [] => none
      | r :: ranges => if r.1 ≤ lead ∧ lead ≤ r.2 then some ranges else none) = (following lead).toList := by
  decide +kernel

/-- The rows with a lead byte agree on what follows it. -/
theorem following_eq_some : following lead.toNat = some ranges ↔ ∃ r, InRange lead r ∧ r :: ranges ∈ rows := by
  rw [← Option.mem_toList, ← following_rows lead.toNat lead.toNat_lt, List.mem_filterMap]
  constructor
  · rintro ⟨row, hrow, h⟩
    cases row with
    | nil => cases h
    | cons r row =>
      dsimp only at h
      split at h
      · next hin =>
        cases h
        exact ⟨r, hin, hrow⟩
      · cases h
  · rintro ⟨r, hin, hrow⟩
    exact ⟨r :: ranges, hrow, if_pos hin⟩

/-- The list starts with bytes of these ranges. -/
def Starts : List Range → List UInt8 → Prop
  | [], _ => True
  | _ :: _, [] => False
  | r :: ranges, b :: bs => InRange b r ∧ Starts ranges bs

instance decidableStarts : ∀ (ranges : List Range) (bs : List UInt8), Decidable (Starts ranges bs)
  | [], _ => isTrue trivial
  | _ :: _, [] => isFalse not_false
  | r :: ranges, b :: bs =>
    have := decidableStarts ranges bs
    inferInstanceAs (Decidable (InRange b r ∧ Starts ranges bs))

/-- By indices. -/
theorem starts_drop (r : Range) (ranges : List Range) (bs : List UInt8) (i : Nat) :
    Starts (r :: ranges) (bs.drop i) ↔
      ((bs[i]?).any fun b => decide (InRange b r)) = true ∧ Starts ranges (bs.drop (i + 1)) := by
  rcases Nat.lt_or_ge i bs.length with hi | hi
  · rw [List.drop_eq_getElem_cons hi, List.getElem?_eq_getElem hi, Starts, Option.any_some, decide_eq_true_eq]
  · rw [List.drop_eq_nil_of_le hi, List.getElem?_eq_none hi]
    simp [Starts]

theorem Starts.forall₂ : ∀ {ranges : List Range} {bs : List UInt8}, Starts ranges bs →
    List.Forall₂ InRange (bs.take ranges.length) ranges
  | [], _, _ => .nil
  | _ :: _, _ :: _, h => .cons h.1 h.2.forall₂

theorem starts_append (h : List.Forall₂ InRange s ranges) (rest : List UInt8) : Starts ranges (s ++ rest) := by
  induction h with
  | nil => trivial
  | cons hb _ ih => exact ⟨hb, ih⟩

/-- A list is well formed when its lead byte has what follows it, and the rest is. -/
theorem wellFormed_cons :
    WellFormed (lead :: bs) ↔ ∃ ranges, following lead.toNat = some ranges ∧ Starts ranges bs ∧
      WellFormed (bs.drop ranges.length) := by
  constructor
  · intro h
    generalize hlist : lead :: bs = list at h
    cases h with
    | nil => cases hlist
    | @append row s rest hrow hs hrest =>
      cases hs with
      | nil => exact absurd hrow (by decide)
      | @cons b r s ranges hb hs =>
        obtain ⟨rfl, rfl⟩ := List.cons.inj hlist
        refine ⟨ranges, following_eq_some.mpr ⟨r, hb, hrow⟩, starts_append hs rest, ?_⟩
        have hdrop : (s ++ rest).drop ranges.length = rest := by rw [← hs.length_eq, List.drop_left]
        exact hdrop.symm ▸ hrest
  · rintro ⟨ranges, hranges, hstarts, hrest⟩
    obtain ⟨r, hin, hrow⟩ := following_eq_some.mp hranges
    have h := WellFormed.append hrow (.cons hin hstarts.forall₂) hrest
    rwa [List.cons_append, List.take_append_drop] at h

theorem wellFormed_replicate (n : Nat) (h : b.toNat < 0x80) (rest : List UInt8) :
    WellFormed (List.replicate n b ++ rest) ↔ WellFormed rest := by
  induction n with
  | zero => rfl
  | succ n ih =>
    rw [List.replicate_succ, List.cons_append, wellFormed_cons, following, if_pos h]
    simpa [Starts] using ih

/-! ## At an ASCII byte -/

theorem le_of_following {lead : Nat} (h : following lead = some ranges) : ∀ r ∈ ranges, 0x80 ≤ r.1 := by
  have hsecond : 0x80 ≤ (secondRange lead).1 := by
    rw [secondRange]
    split_ifs <;> decide
  have htrail : 0x80 ≤ TRAIL.1 := by decide
  rw [following] at h
  split_ifs at h <;> cases h <;> simp [hsecond, htrail]

theorem Starts.le_length (h : Starts ranges s) : ranges.length ≤ s.length := by
  induction ranges generalizing s with
  | nil => exact Nat.zero_le _
  | cons r ranges ih =>
    cases s with
    | nil => cases h
    | cons b s => exact Nat.succ_le_succ (ih h.2)

/-- A byte that no range has ends what starts before it. -/
theorem starts_append_cons (hb : ∀ r ∈ ranges, ¬InRange b r) (s rest : List UInt8) :
    Starts ranges (s ++ b :: rest) ↔ Starts ranges s := by
  induction ranges generalizing s with
  | nil => rfl
  | cons r ranges ih =>
    obtain ⟨hr, hb⟩ := List.forall_mem_cons.mp hb
    cases s with
    | nil => exact iff_of_false (fun h => hr h.1) not_false
    | cons c s => exact and_congr_right' (ih hb s)

/-- An ASCII byte stands between well-formed lists. -/
theorem wellFormed_append_cons (hb : b.toNat < 0x80) (s rest : List UInt8) :
    WellFormed (s ++ b :: rest) ↔ WellFormed s ∧ WellFormed rest := by
  induction hlength : s.length using Nat.strongRecOn generalizing s with
  | _ n ih =>
    subst hlength
    cases s with
    | nil =>
      rw [List.nil_append, wellFormed_cons, following, if_pos hb, and_iff_right .nil]
      simp [Starts]
    | cons lead s =>
      rw [List.cons_append, wellFormed_cons, wellFormed_cons]
      have hranges : ∀ ranges, following lead.toNat = some ranges →
          (Starts ranges (s ++ b :: rest) ∧ WellFormed ((s ++ b :: rest).drop ranges.length) ↔
            (Starts ranges s ∧ WellFormed (s.drop ranges.length)) ∧ WellFormed rest) := by
        intro ranges hfollowing
        have hnot : ∀ r ∈ ranges, ¬InRange b r := fun r hr hin =>
          absurd (Nat.le_trans (le_of_following hfollowing r hr) hin.1) (Nat.not_le_of_lt hb)
        rw [starts_append_cons hnot, and_assoc]
        apply and_congr_right
        intro hstarts
        rw [List.drop_append_of_le_length hstarts.le_length, ih _ _ _ rfl]
        rw [List.length_drop, List.length_cons]
        omega
      constructor
      · rintro ⟨ranges, hfollowing, h⟩
        obtain ⟨hs, hrest⟩ := (hranges ranges hfollowing).mp h
        exact ⟨⟨ranges, hfollowing, hs⟩, hrest⟩
      · rintro ⟨⟨ranges, hfollowing, hs⟩, hrest⟩
        exact ⟨ranges, hfollowing, (hranges ranges hfollowing).mpr ⟨hs, hrest⟩⟩

end Utf8
