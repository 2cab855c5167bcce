import Mathlib.Data.List.Basic
import Mathlib.Data.List.Infix

/-!
# The texts of the runtimes

A String is UTF-8 bytes in the C runtime and UTF-16 units in the JS runtime.
-/

namespace Emela.Text

/-- Each element is written as a unit that is no trailing one and trailing units after it, and none is written as a prefix of
another. -/
structure IsCode {α β : Type} (enc : α → List β) (isTrail : β → Bool) : Prop where
  lead : ∀ a, ∃ u l, enc a = u :: l ∧ isTrail u = false ∧ ∀ v ∈ l, isTrail v = true
  prefix_eq : ∀ a b, enc a <+: enc b → a = b

def utf8 (s : List Char) : List UInt8 := s.flatMap String.utf8EncodeChar

def utf16EncodeChar (c : Char) : List UInt16 :=
  if c.toNat < 0x10000 then [UInt16.ofNat c.toNat]
  else [UInt16.ofNat (0xD800 + (c.toNat - 0x10000) / 0x400), UInt16.ofNat (0xDC00 + (c.toNat - 0x10000) % 0x400)]

def utf16 (s : List Char) : List UInt16 := s.flatMap utf16EncodeChar

/-- A continuation byte. -/
def isContinuation (b : UInt8) : Bool := b &&& 0xC0 == 0x80

/-- A low surrogate. -/
def isLowSurrogate (u : UInt16) : Bool := 0xDC00 ≤ u.toNat && u.toNat < 0xE000

variable {c d : Char}

theorem scalar (c : Char) : c.toNat < 0xD800 ∨ 0xDFFF < c.toNat ∧ c.toNat < 0x110000 := c.valid

/-! ## UTF-8 -/

/-- The bytes of UTF-8 as numbers. -/
theorem utf8EncodeChar_toNat (c : Char) : (String.utf8EncodeChar c).map UInt8.toNat =
    if c.toNat < 0x80 then [c.toNat]
    else if c.toNat < 0x800 then [0xC0 + c.toNat / 64, 0x80 + c.toNat % 64]
    else if c.toNat < 0x10000 then [0xE0 + c.toNat / 4096, 0x80 + c.toNat / 64 % 64, 0x80 + c.toNat % 64]
    else [0xF0 + c.toNat / 262144, 0x80 + c.toNat / 4096 % 64, 0x80 + c.toNat / 64 % 64, 0x80 + c.toNat % 64] := by
  have hc := scalar c
  have ofNat : ∀ n < 256, (UInt8.ofNat n).toNat = n := fun n hn => Nat.mod_eq_of_lt hn
  unfold String.utf8EncodeChar
  rw [show c.val.toNat = c.toNat from rfl]
  generalize c.toNat = v at *
  by_cases h1 : v < 0x80
  · rw [if_pos (show v ≤ 0x7F by omega), if_pos h1, List.map_singleton, ofNat v (by omega)]
  rw [if_neg (show ¬v ≤ 0x7F by omega), if_neg h1]
  by_cases h2 : v < 0x800
  · rw [if_pos (show v ≤ 0x7FF by omega), if_pos h2]
    simp only [List.map_cons, List.map_nil]
    rw [ofNat _ (by omega), ofNat _ (by omega), Nat.mod_eq_of_lt (show v / 64 < 0x20 by omega), Nat.add_comm,
      Nat.add_comm (v % 64)]
  rw [if_neg (show ¬v ≤ 0x7FF by omega), if_neg h2]
  by_cases h3 : v < 0x10000
  · rw [if_pos (show v ≤ 0xFFFF by omega), if_pos h3]
    simp only [List.map_cons, List.map_nil]
    rw [ofNat _ (by omega), ofNat _ (by omega), ofNat _ (by omega), Nat.mod_eq_of_lt (show v / 4096 < 0x10 by omega),
      Nat.add_comm, Nat.add_comm (v / 64 % 64), Nat.add_comm (v % 64)]
  · rw [if_neg (show ¬v ≤ 0xFFFF by omega), if_neg h3]
    simp only [List.map_cons, List.map_nil]
    rw [ofNat _ (by omega), ofNat _ (by omega), ofNat _ (by omega), ofNat _ (by omega),
      Nat.mod_eq_of_lt (show v / 262144 < 8 by omega), Nat.add_comm, Nat.add_comm (v / 4096 % 64),
      Nat.add_comm (v / 64 % 64), Nat.add_comm (v % 64)]

theorem isContinuation_iff (b : UInt8) : isContinuation b = true ↔ 0x80 ≤ b.toNat ∧ b.toNat < 0xC0 := by
  have h : ∀ n < 256, isContinuation (UInt8.ofNat n) = decide (0x80 ≤ n ∧ n < 0xC0) := by decide +kernel
  rw [← UInt8.ofNat_toNat (x := b), h _ b.toNat_lt]
  simp

theorem isCode_utf8 : IsCode String.utf8EncodeChar isContinuation where
  lead c := by
    have htoNat := utf8EncodeChar_toNat c
    have hc := scalar c
    cases henc : String.utf8EncodeChar c with
    | nil =>
      rw [henc] at htoNat
      split_ifs at htoNat <;> cases htoNat
    | cons u l =>
      rw [henc, List.map_cons] at htoNat
      refine ⟨u, l, rfl, ?_, fun v hv => ?_⟩
      · rw [Bool.eq_false_iff, ne_eq, isContinuation_iff]
        split_ifs at htoNat <;> simp only [List.cons.injEq] at htoNat <;> omega
      · rw [isContinuation_iff]
        have hmem : v.toNat ∈ l.map UInt8.toNat := List.mem_map_of_mem hv
        split_ifs at htoNat <;> simp only [List.cons.injEq] at htoNat <;> rw [htoNat.2] at hmem <;>
          simp only [List.mem_cons, List.not_mem_nil, or_false] at hmem <;> omega
  prefix_eq c d h := by
    have hpre : (String.utf8EncodeChar c).map UInt8.toNat <+: (String.utf8EncodeChar d).map UInt8.toNat := h.map _
    have hc := scalar c
    have hd := scalar d
    rw [utf8EncodeChar_toNat, utf8EncodeChar_toNat] at hpre
    apply Char.toNat_inj.mp
    split_ifs at hpre <;>
      simp only [List.cons_prefix_cons, List.prefix_nil, reduceCtorEq, and_false, List.nil_prefix, and_true] at hpre <;>
      omega

theorem utf8_ascii (hc : c.toNat < 0x80) : String.utf8EncodeChar c = [UInt8.ofNat c.toNat] := by
  unfold String.utf8EncodeChar
  rw [if_pos (show c.val.toNat ≤ 0x7F from Nat.lt_succ_iff.mp hc)]
  rfl

theorem utf8_other (hc : 0x80 ≤ c.toNat) : ∀ b ∈ String.utf8EncodeChar c, 0x80 ≤ b.toNat := by
  intro b hb
  have hmem : b.toNat ∈ (String.utf8EncodeChar c).map UInt8.toNat := List.mem_map_of_mem hb
  rw [utf8EncodeChar_toNat] at hmem
  split_ifs at hmem <;> simp only [List.mem_cons, List.not_mem_nil, or_false] at hmem <;> omega

/-! ## UTF-16 -/

/-- The units of UTF-16 as numbers. -/
theorem utf16EncodeChar_toNat (c : Char) : (utf16EncodeChar c).map UInt16.toNat =
    if c.toNat < 0x10000 then [c.toNat]
    else [0xD800 + (c.toNat - 0x10000) / 0x400, 0xDC00 + (c.toNat - 0x10000) % 0x400] := by
  have hc := scalar c
  have ofNat : ∀ n < 65536, (UInt16.ofNat n).toNat = n := fun n hn => Nat.mod_eq_of_lt hn
  unfold utf16EncodeChar
  generalize c.toNat = v at *
  split
  · rw [List.map_singleton, ofNat v (by omega)]
  · simp only [List.map_cons, List.map_nil]
    rw [ofNat _ (by omega), ofNat _ (by omega)]

theorem isLowSurrogate_iff (u : UInt16) : isLowSurrogate u = true ↔ 0xDC00 ≤ u.toNat ∧ u.toNat < 0xE000 := by
  simp [isLowSurrogate]

theorem isCode_utf16 : IsCode utf16EncodeChar isLowSurrogate where
  lead c := by
    have htoNat := utf16EncodeChar_toNat c
    have hc := scalar c
    cases henc : utf16EncodeChar c with
    | nil =>
      rw [henc] at htoNat
      split_ifs at htoNat <;> cases htoNat
    | cons u l =>
      rw [henc, List.map_cons] at htoNat
      refine ⟨u, l, rfl, ?_, fun v hv => ?_⟩
      · rw [Bool.eq_false_iff, ne_eq, isLowSurrogate_iff]
        split_ifs at htoNat <;> simp only [List.cons.injEq] at htoNat <;> omega
      · rw [isLowSurrogate_iff]
        have hmem : v.toNat ∈ l.map UInt16.toNat := List.mem_map_of_mem hv
        split_ifs at htoNat <;> simp only [List.cons.injEq] at htoNat <;> rw [htoNat.2] at hmem <;>
          simp only [List.mem_cons, List.not_mem_nil, or_false] at hmem <;> omega
  prefix_eq c d h := by
    have hpre : (utf16EncodeChar c).map UInt16.toNat <+: (utf16EncodeChar d).map UInt16.toNat := h.map _
    have hc := scalar c
    have hd := scalar d
    rw [utf16EncodeChar_toNat, utf16EncodeChar_toNat] at hpre
    apply Char.toNat_inj.mp
    split_ifs at hpre <;>
      simp only [List.cons_prefix_cons, List.prefix_nil, reduceCtorEq, and_false, List.nil_prefix, and_true] at hpre <;>
      omega

theorem utf16_ascii (hc : c.toNat < 0x80) : utf16EncodeChar c = [UInt16.ofNat c.toNat] :=
  if_pos (show c.toNat < 0x10000 by omega)

theorem utf16_other (hc : 0x80 ≤ c.toNat) : ∀ u ∈ utf16EncodeChar c, 0x80 ≤ u.toNat := by
  intro u hu
  have hmem : u.toNat ∈ (utf16EncodeChar c).map UInt16.toNat := List.mem_map_of_mem hu
  rw [utf16EncodeChar_toNat] at hmem
  split_ifs at hmem <;> simp only [List.mem_cons, List.not_mem_nil, or_false] at hmem <;> omega

end Emela.Text
