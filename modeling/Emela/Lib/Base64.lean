import Mathlib.Data.List.Basic

/-!
# Base64

The standard alphabet with padding: three bytes are four characters. Only the canonical text of some bytes decodes.
-/

namespace Base64

/-- The character of six bits. -/
def character (n : Nat) : Char :=
  if n < 26 then Char.ofNat ('A'.toNat + n)
  else if n < 52 then Char.ofNat ('a'.toNat + (n - 26))
  else if n < 62 then Char.ofNat ('0'.toNat + (n - 52))
  else if n = 62 then '+'
  else '/'

/-- The six bits of a character of the alphabet. -/
def value (c : Char) : Nat :=
  if c.isUpper then c.toNat - 'A'.toNat
  else if c.isLower then c.toNat - 'a'.toNat + 26
  else if c.isDigit then c.toNat - '0'.toNat + 52
  else if c = '+' then 62
  else 63

theorem character_spec : ∀ n < 64,
    value (character n) = n ∧ character n ≠ '=' ∧
      ((character n).isAlphanum ∨ character n = '+' ∨ character n = '/') := by
  decide

def encode : List UInt8 → List Char
  | [] => []
  | [a] =>
      let n := a.toNat * 65536
      [character (n / 262144), character (n / 4096 % 64), '=', '=']
  | [a, b] =>
      let n := a.toNat * 65536 + b.toNat * 256
      [character (n / 262144), character (n / 4096 % 64), character (n / 64 % 64), '=']
  | a :: b :: c :: rest =>
      let n := a.toNat * 65536 + b.toNat * 256 + c.toNat
      character (n / 262144) :: character (n / 4096 % 64) :: character (n / 64 % 64) :: character (n % 64) :: encode rest

/-- The bytes of four characters at a time, less what padding stands for. -/
def bytesOf : List Char → List UInt8
  | p :: q :: r :: s :: rest =>
      let n := value p * 262144 + value q * 4096
      if r = '=' then [UInt8.ofNat (n / 65536)]
      else
        let n := n + value r * 64
        if s = '=' then [UInt8.ofNat (n / 65536), UInt8.ofNat (n / 256 % 256)]
        else
          let n := n + value s
          UInt8.ofNat (n / 65536) :: UInt8.ofNat (n / 256 % 256) :: UInt8.ofNat (n % 256) :: bytesOf rest
  | _ => []

def decode (s : List Char) : Option (List UInt8) := if encode (bytesOf s) = s then some (bytesOf s) else none

theorem ofNat_eq {b : UInt8} {n : Nat} (h : n = b.toNat) : UInt8.ofNat n = b := by
  rw [h, UInt8.ofNat_toNat]

theorem bytesOf_encode : ∀ bytes : List UInt8, bytesOf (encode bytes) = bytes
  | [] => rfl
  | [a] => by
    have ha := a.toNat_lt
    have h₁ := (character_spec (a.toNat * 65536 / 262144) (by omega)).1
    have h₂ := (character_spec (a.toNat * 65536 / 4096 % 64) (by omega)).1
    simp only [encode, bytesOf, h₁, h₂, ↓reduceIte]
    rw [ofNat_eq (b := a) (by omega)]
  | [a, b] => by
    have ha := a.toNat_lt
    have hb := b.toNat_lt
    have h₁ := (character_spec ((a.toNat * 65536 + b.toNat * 256) / 262144) (by omega)).1
    have h₂ := (character_spec ((a.toNat * 65536 + b.toNat * 256) / 4096 % 64) (by omega)).1
    obtain ⟨h₃, hpad, -⟩ := character_spec ((a.toNat * 65536 + b.toNat * 256) / 64 % 64) (by omega)
    simp only [encode, bytesOf, h₁, h₂, h₃, hpad, ↓reduceIte]
    rw [ofNat_eq (b := a) (by omega), ofNat_eq (b := b) (by omega)]
  | a :: b :: c :: rest => by
    have ha := a.toNat_lt
    have hb := b.toNat_lt
    have hc := c.toNat_lt
    have h₁ := (character_spec ((a.toNat * 65536 + b.toNat * 256 + c.toNat) / 262144) (by omega)).1
    have h₂ := (character_spec ((a.toNat * 65536 + b.toNat * 256 + c.toNat) / 4096 % 64) (by omega)).1
    obtain ⟨h₃, hpad, -⟩ := character_spec ((a.toNat * 65536 + b.toNat * 256 + c.toNat) / 64 % 64) (by omega)
    obtain ⟨h₄, hpad', -⟩ := character_spec ((a.toNat * 65536 + b.toNat * 256 + c.toNat) % 64) (by omega)
    simp only [encode, bytesOf, h₁, h₂, h₃, h₄, hpad, hpad', ↓reduceIte, bytesOf_encode rest]
    rw [ofNat_eq (b := a) (by omega), ofNat_eq (b := b) (by omega), ofNat_eq (b := c) (by omega)]

/-- The text of some bytes is the one that decodes to them. -/
theorem decode_eq_some {s : List Char} {bytes : List UInt8} : decode s = some bytes ↔ s = encode bytes := by
  rw [decode]
  constructor
  · intro h
    split at h
    · next hsame =>
      cases h
      exact hsame.symm
    · cases h
  · rintro rfl
    rw [bytesOf_encode, if_pos rfl]

/-- The characters of the alphabet, and the padding. -/
def InAlphabet (c : Char) : Prop := c.isAlphanum ∨ c = '+' ∨ c = '/' ∨ c = '='

theorem inAlphabet_character {n : Nat} (h : n < 64) : InAlphabet (character n) :=
  (character_spec n h).2.2.imp_right (Or.imp_right .inl)

theorem inAlphabet_pad : InAlphabet '=' := .inr (.inr (.inr rfl))

theorem mem_encode (bytes : List UInt8) : ∀ c ∈ encode bytes, InAlphabet c := by
  fun_induction encode bytes with
  | case1 => exact fun c h => absurd h List.not_mem_nil
  | case2 a n =>
    have ha := a.toNat_lt
    simp only [List.forall_mem_cons, List.not_mem_nil, false_implies, implies_true, and_true]
    exact ⟨inAlphabet_character (by omega), inAlphabet_character (by omega), inAlphabet_pad, inAlphabet_pad⟩
  | case3 a b n =>
    have ha := a.toNat_lt
    have hb := b.toNat_lt
    simp only [List.forall_mem_cons, List.not_mem_nil, false_implies, implies_true, and_true]
    exact ⟨inAlphabet_character (by omega), inAlphabet_character (by omega), inAlphabet_character (by omega),
      inAlphabet_pad⟩
  | case4 a b c rest n ih =>
    have ha := a.toNat_lt
    have hb := b.toNat_lt
    have hc := c.toNat_lt
    simp only [List.forall_mem_cons]
    exact ⟨inAlphabet_character (by omega), inAlphabet_character (by omega), inAlphabet_character (by omega),
      inAlphabet_character (by omega), ih⟩

theorem length_encode (bytes : List UInt8) : (encode bytes).length = 4 * ((bytes.length + 2) / 3) := by
  fun_induction encode bytes with
  | case1 => rfl
  | case2 a n => simp
  | case3 a b n => simp
  | case4 a b c rest n ih =>
    simp only [List.length_cons, ih]
    omega

/-- The last three bytes are padded when they are not three. -/
theorem getLast?_encode (bytes : List UInt8) (h : bytes.length % 3 ≠ 0) : (encode bytes).getLast? = some '=' := by
  fun_induction encode bytes with
  | case1 => exact absurd rfl h
  | case2 a n => rfl
  | case3 a b n => rfl
  | case4 a b c rest n ih =>
    have hlast := ih (by simp only [List.length_cons] at h; omega)
    cases hencode : encode rest with
    | nil =>
      rw [hencode] at hlast
      cases hlast
    | cons d ds =>
      rw [hencode] at hlast
      simp only [List.getLast?_cons_cons]
      exact hlast

end Base64
