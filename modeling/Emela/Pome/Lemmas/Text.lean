import Mathlib
import Emela.Pome.Text

/-!
# Text and its bytes

What is written as UTF-8 is read back as it was.
-/

namespace Emela.Pome

/-! ## One character -/

theorem utf8Width_ofNat {n : Nat} (h : n < 256) :
    utf8Width (UInt8.ofNat n) =
      if n < 0x80 then some 1
      else if 0xC2 ≤ n ∧ n ≤ 0xDF then some 2
      else if 0xE0 ≤ n ∧ n ≤ 0xEF then some 3
      else if 0xF0 ≤ n ∧ n ≤ 0xF4 then some 4
      else none := by
  simp [utf8Width, UInt8.lt_iff_toNat_lt, UInt8.le_iff_toNat_le, Nat.mod_eq_of_lt h]

theorem isContinuation_ofNat {n : Nat} (h : n < 64) : isContinuation (UInt8.ofNat (n + 0x80)) = true := by
  simp [isContinuation, UInt8.le_iff_toNat_le, Nat.mod_eq_of_lt (show n + 128 < 256 by omega)]
  omega

theorem isSecond_ofNat {f n : Nat} (hf : f < 256) (hn : n < 64) (h : f = 0xE0 → 0x20 ≤ n) (h' : f = 0xED → n < 0x20)
    (h₁ : f = 0xF0 → 0x10 ≤ n) (h₂ : f = 0xF4 → n < 0x10) :
    isSecond (UInt8.ofNat f) (UInt8.ofNat (n + 0x80)) = true := by
  have hmod := Nat.mod_eq_of_lt (show n + 128 < 256 by omega)
  simp only [isSecond, beq_iff_eq, ← UInt8.toNat_inj, UInt8.toNat_ofNat', Nat.mod_eq_of_lt hf,
    isContinuation, UInt8.le_iff_toNat_le]
  split_ifs <;> simp_all <;> omega

theorem decode_ascii {first : UInt8} (hwidth : utf8Width first = some 1) (fuel : Nat) (rest : List UInt8) :
    decode (fuel + 1) (first :: rest) = some (charOf first []) :: decode fuel rest := by
  simp only [decode, hwidth]

theorem decode_more {first second : UInt8} {more : List UInt8} {width : Nat} (hwidth : utf8Width first = some width)
    (hsecond : isSecond first second = true) (hmore : ∀ b ∈ more, isContinuation b = true)
    (hlen : more.length + 2 = width) (fuel : Nat) (rest : List UInt8) :
    decode (fuel + 1) (first :: second :: (more ++ rest)) =
      some (charOf first (second :: more)) :: decode fuel rest := by
  have htake : ((more ++ rest).take (width - 2)).takeWhile isContinuation = more := by
    rw [List.take_left' (by omega), List.takeWhile_eq_self_iff.mpr hmore]
  have hfollow : following first width (second :: (more ++ rest)) = second :: more := by
    simp [following, hsecond, htake]
  rw [decode, hwidth]
  split
  · simp at *
  · next h => simp at h; omega
  · next h =>
    cases h
    simp [hfollow, hlen]

theorem decode_two {v : Nat} (h₁ : 0x7F < v) (h₂ : v ≤ 0x7FF) (fuel : Nat) (rest : List UInt8) :
    decode (fuel + 1) (UInt8.ofNat (v / 64 % 32 + 0xC0) :: UInt8.ofNat (v % 64 + 0x80) :: rest) =
      some (Char.ofNat v) :: decode fuel rest := by
  have hwidth : utf8Width (UInt8.ofNat (v / 64 % 32 + 0xC0)) = some 2 := by
    rw [utf8Width_ofNat (by omega), if_neg (by omega), if_pos (by omega)]
  have hsecond := isSecond_ofNat (f := v / 64 % 32 + 0xC0) (n := v % 64) (by omega) (by omega) (by omega) (by omega)
    (by omega) (by omega)
  refine (@decode_more _ _ [] _ hwidth hsecond (by simp) rfl fuel rest).trans ?_
  congr 2
  change Char.ofNat _ = _
  congr 1
  simp
  omega

theorem decode_three {v : Nat} (h₁ : 0x7FF < v) (h₂ : v ≤ 0xFFFF) (hvalid : v < 0xD800 ∨ 0xDFFF < v) (fuel : Nat)
    (rest : List UInt8) :
    decode (fuel + 1) (UInt8.ofNat (v / 4096 % 16 + 0xE0) :: UInt8.ofNat (v / 64 % 64 + 0x80) ::
      UInt8.ofNat (v % 64 + 0x80) :: rest) = some (Char.ofNat v) :: decode fuel rest := by
  have hwidth : utf8Width (UInt8.ofNat (v / 4096 % 16 + 0xE0)) = some 3 := by
    rw [utf8Width_ofNat (by omega), if_neg (by omega), if_neg (by omega), if_pos (by omega)]
  have hsecond := isSecond_ofNat (f := v / 4096 % 16 + 0xE0) (n := v / 64 % 64) (by omega) (by omega) (by omega)
    (by omega) (by omega) (by omega)
  have hmore : ∀ b ∈ [UInt8.ofNat (v % 64 + 0x80)], isContinuation b = true := by
    intro b hb
    rw [List.mem_singleton.mp hb]
    exact isContinuation_ofNat (Nat.mod_lt _ (by decide))
  refine (decode_more hwidth hsecond hmore rfl fuel rest).trans ?_
  congr 2
  change Char.ofNat _ = _
  congr 1
  simp
  omega

theorem decode_four {v : Nat} (h₁ : 0xFFFF < v) (h₂ : v < 0x110000) (fuel : Nat) (rest : List UInt8) :
    decode (fuel + 1) (UInt8.ofNat (v / 262144 % 8 + 0xF0) :: UInt8.ofNat (v / 4096 % 64 + 0x80) ::
      UInt8.ofNat (v / 64 % 64 + 0x80) :: UInt8.ofNat (v % 64 + 0x80) :: rest) =
      some (Char.ofNat v) :: decode fuel rest := by
  have hwidth : utf8Width (UInt8.ofNat (v / 262144 % 8 + 0xF0)) = some 4 := by
    rw [utf8Width_ofNat (by omega), if_neg (by omega), if_neg (by omega), if_neg (by omega), if_pos (by omega)]
  have hsecond := isSecond_ofNat (f := v / 262144 % 8 + 0xF0) (n := v / 4096 % 64) (by omega) (by omega) (by omega)
    (by omega) (by omega) (by omega)
  have hmore : ∀ b ∈ [UInt8.ofNat (v / 64 % 64 + 0x80), UInt8.ofNat (v % 64 + 0x80)], isContinuation b = true := by
    intro b hb
    rcases List.mem_pair.mp hb with rfl | rfl
    · exact isContinuation_ofNat (Nat.mod_lt _ (by decide))
    · exact isContinuation_ofNat (Nat.mod_lt _ (by decide))
  refine (decode_more hwidth hsecond hmore rfl fuel rest).trans ?_
  congr 2
  change Char.ofNat _ = _
  congr 1
  simp
  omega

/-- The bytes of a character are decoded to it. -/
theorem decode_char (c : Char) (fuel : Nat) (rest : List UInt8) :
    decode (fuel + 1) (String.utf8EncodeChar c ++ rest) = some c :: decode fuel rest := by
  have hvalid : c.toNat < 0xD800 ∨ 0xDFFF < c.toNat ∧ c.toNat < 0x110000 := c.valid
  have hchar : Char.ofNat c.toNat = c := Char.ofNat_toNat c
  unfold String.utf8EncodeChar
  rw [show c.val.toNat = c.toNat from rfl]
  generalize c.toNat = v at *
  dsimp only
  split_ifs with h₁ h₂ h₃
  · have hwidth : utf8Width (UInt8.ofNat v) = some 1 := by rw [utf8Width_ofNat (by omega), if_pos (by omega)]
    refine (decode_ascii hwidth fuel rest).trans ?_
    rw [← hchar]
    congr 2
    change Char.ofNat _ = _
    congr 1
    simp
    omega
  · rw [← hchar]
    exact decode_two (by omega) h₂ fuel rest
  · rw [← hchar]
    exact decode_three (by omega) h₃ (by omega) fuel rest
  · rw [← hchar]
    exact decode_four (by omega) (by omega) fuel rest

/-! ## A text -/

theorem decode_utf8 (s : Str) {fuel : Nat} (hfuel : s.length ≤ fuel) : decode fuel (utf8 s) = s.map some := by
  induction s generalizing fuel with
  | nil => cases fuel <;> rfl
  | cons c s ih =>
    obtain ⟨fuel, rfl⟩ : ∃ f, fuel = f + 1 := ⟨fuel - 1, by simp at hfuel; omega⟩
    rw [utf8, List.flatMap_cons, decode_char]
    exact congrArg _ (ih (by simpa using hfuel))

theorem length_le_utf8 (s : Str) : s.length ≤ (utf8 s).length := by
  induction s with
  | nil => exact Nat.zero_le _
  | cons c s ih =>
    have hpos : 0 < (String.utf8EncodeChar c).length := List.length_pos_of_ne_nil String.utf8EncodeChar_ne_nil
    rw [utf8, List.flatMap_cons, List.length_append, List.length_cons]
    change _ ≤ _ + (utf8 s).length
    omega

/-- A text is read back from its bytes. -/
theorem fromUtf8_utf8 (s : Str) : fromUtf8 (utf8 s) = some s := by
  rw [fromUtf8, decode_utf8 s (length_le_utf8 s)]
  induction s with
  | nil => rfl
  | cons c s ih => simp [ih]

end Emela.Pome
