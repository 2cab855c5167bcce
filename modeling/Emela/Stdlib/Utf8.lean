import Emela.Lib.Utf8
import Emela.Stdlib.Core
import Emela.Stdlib.FileSystem

/-!
# Two decoders of UTF-8

`valid_utf8_from` of `bytes.emel`, which reads the bytes by their indices, and `from_utf8` of `http/request.emel`,
which takes them from a list. An index is an `Int` of 32 bits and wraps around after the byte at 2^31 - 1.
-/

namespace Emela.Stdlib

open Utf8

variable {bs rest : List UInt8} {i n : Nat}

/-! ## Bytes -/

/-- A byte as an `Int`. -/
def byte (b : UInt8) : Int32 := Int32.ofNat b.toNat

abbrev Bytes := List UInt8

namespace Bytes

/-- `Bytes.get`. -/
def get (b : Bytes) (index : Int32) : Option Int32 :=
  if index < 0 then none else (b[index.toNatClampNeg]?).map byte

def continues (b : Bytes) (i low high : Int32) : Bool := match get b i with
  | some x => x ≥ low && x ≤ high
  | none => false

/-- The size of the well-formed sequence that starts with `lead` at `i`, or 0 if there is none. -/
def sequenceSize (b : Bytes) (i lead : Int32) : Int32 :=
  if lead < 0x80 then 1
  else if lead < 0xC2 then 0
  else if lead < 0xE0 then if continues b (i + 1) 0x80 0xBF then 2 else 0
  else if lead < 0xF0 then
    let low := if lead == 0xE0 then 0xA0 else 0x80
    let high := if lead == 0xED then 0x9F else 0xBF
    if continues b (i + 1) low high && continues b (i + 2) 0x80 0xBF then 3 else 0
  else if lead < 0xF5 then
    let low := if lead == 0xF0 then 0x90 else 0x80
    let high := if lead == 0xF4 then 0x8F else 0xBF
    if continues b (i + 1) low high && continues b (i + 2) 0x80 0xBF && continues b (i + 3) 0x80 0xBF then 4 else 0
  else 0

def validUtf8From (b : Bytes) : Nat → Int32 → Option Bool
  | 0, _ => none
  | fuel + 1, i => match get b i with
    | none => some true
    | some lead =>
        let n := sequenceSize b i lead
        if n == 0 then some false else validUtf8From b fuel (i + n)

end Bytes

/-! ## Requests -/

/-- `String.from_code_point`. -/
def fromCodePoint (n : Int32) : Option Str :=
  if 0 ≤ n ∧ n.toNatClampNeg.isValidChar then some [Char.ofNat n.toNatClampNeg] else none

namespace Request

mutual

/-- The characters of the UTF-8 `bytes`, in order after `acc` reversed. -/
def fromUtf8 (bytes : List Int32) (acc : List Str) : Option (List Str) :=
  match bytes with
  | [] => some (Lists.reverse acc)
  | b :: rest =>
      if b < 0x80 then push b rest acc
      else if b ≥ 0xC2 && b ≤ 0xDF then sequence (b &&& 0x1F) 1 0x80 rest acc
      else if b ≥ 0xE0 && b ≤ 0xEF then sequence (b &&& 0x0F) 2 0x800 rest acc
      else if b ≥ 0xF0 && b ≤ 0xF4 then sequence (b &&& 0x07) 3 0x10000 rest acc
      else none
termination_by (bytes.length, 0)

/-- Reads `count` continuation bytes onto `value` and pushes the character, if it is at least `min` and a Unicode
scalar value. -/
def sequence (value count min : Int32) (bytes : List Int32) (acc : List Str) : Option (List Str) :=
  if count == 0 then if value < min then none else push value bytes acc
  else match bytes with
    | b :: rest =>
        if b &&& 0xC0 == 0x80 then sequence (value <<< 6 ||| (b &&& 0x3F)) (count - 1) min rest acc else none
    | [] => none
termination_by (bytes.length, 2)

def push (c : Int32) (bytes : List Int32) (acc : List Str) : Option (List Str) :=
  match fromCodePoint c with
  | none => none
  | some s => fromUtf8 bytes (s :: acc)
termination_by (bytes.length, 1)

end

end Request

/-! ## Bytes as numbers -/

theorem byte_lt (b : UInt8) (hn : n < 2 ^ 31) : byte b < Int32.ofNat n ↔ b.toNat < n :=
  Int32.ofNat_lt_iff_lt (by have := b.toNat_lt; omega) hn

theorem byte_le (b : UInt8) (hn : n < 2 ^ 31) : byte b ≤ Int32.ofNat n ↔ b.toNat ≤ n :=
  Int32.ofNat_le_iff_le (by have := b.toNat_lt; omega) hn

theorem le_byte (b : UInt8) (hn : n < 2 ^ 31) : Int32.ofNat n ≤ byte b ↔ n ≤ b.toNat :=
  Int32.ofNat_le_iff_le hn (by have := b.toNat_lt; omega)

theorem byte_eq (b : UInt8) (hn : n < 2 ^ 31) : byte b = Int32.ofNat n ↔ b.toNat = n := by
  rw [← Int32.toInt_inj, byte, Int32.toInt_ofNat_of_lt (by have := b.toNat_lt; omega), Int32.toInt_ofNat_of_lt hn]
  exact Int.ofNat_inj

/-- A bound that depends on one byte. -/
theorem ite_byte (b : UInt8) {m : Nat} (hn : n < 2 ^ 31) :
    (if byte b == Int32.ofNat n then Int32.ofNat i else Int32.ofNat m) =
      Int32.ofNat (if b.toNat = n then i else m) := by
  simp only [beq_iff_eq, byte_eq b hn]
  split <;> rfl

theorem byte_trail (b : UInt8) : (byte b &&& 0xC0 == 0x80) = decide (InRange b TRAIL) := by
  have hall : ∀ n < 256, (Int32.ofNat n &&& 0xC0 == 0x80) = decide (0x80 ≤ n ∧ n ≤ 0xBF) := by decide +kernel
  exact hall b.toNat b.toNat_lt

theorem byte_low (b : UInt8) : byte b &&& 0x3F = Int32.ofNat (b.toNat % 64) := by
  have hall : ∀ n < 256, Int32.ofNat n &&& 0x3F = Int32.ofNat (n % 64) := by decide +kernel
  exact hall b.toNat b.toNat_lt

/-- The bits of a trailing byte go below those read before. -/
theorem shift_or {v w : Nat} (hv : v < 2 ^ 25) (hw : w < 64) :
    Int32.ofNat v <<< 6 ||| Int32.ofNat w = Int32.ofNat (v * 64 + w) := by
  apply Int32.toBitVec.inj
  apply BitVec.eq_of_toNat_eq
  have hor : v * 64 + w = v <<< 6 ||| w := by rw [← Nat.shiftLeft_add_eq_or_of_lt hw, Nat.shiftLeft_eq]
  have hv' : v <<< 6 < 2 ^ 32 := by
    rw [Nat.shiftLeft_eq]
    omega
  have hvalue : v * 64 + w < 2 ^ 32 := by omega
  have hbits : (v % 2 ^ 32) <<< 6 % 2 ^ 32 ||| w % 2 ^ 32 = (v * 64 + w) % 2 ^ 32 := by
    rw [Nat.mod_eq_of_lt (show v < 2 ^ 32 by omega), Nat.mod_eq_of_lt hv', Nat.mod_eq_of_lt (show w < 2 ^ 32 by omega),
      Nat.mod_eq_of_lt hvalue, hor]
  simpa using hbits

/-! ## By indices -/

section
variable (bs)

/-- The bytes that an `Int` is an index of. -/
def indexed : List UInt8 := bs.take (2 ^ 31)

theorem get_ofNat (hi : i < 2 ^ 32) : Bytes.get bs (Int32.ofNat i) = ((indexed bs)[i]?).map byte := by
  rw [Bytes.get, indexed]
  by_cases hfits : i < 2 ^ 31
  · have hle : ¬Int32.ofNat i < 0 := by
      rw [Int32.lt_iff_toInt_lt, Int32.toInt_ofNat_of_lt hfits, Int32.toInt_zero]
      omega
    rw [if_neg hle, Int32.toNatClampNeg_ofNat_of_lt hfits, List.getElem?_take_of_lt hfits]
  · have hneg : Int32.ofNat i < 0 := by
      rw [Int32.lt_iff_toInt_lt, Int32.toInt_ofNat', Int32.toInt_zero]
      have hsize : Int32.size = 4294967296 := rfl
      rw [hsize, Int.bmod_def]
      omega
    rw [if_pos hneg, List.getElem?_eq_none]
    · rfl
    · rw [List.length_take]
      omega

theorem continues_ofNat {k : Nat} {r : Range} (hi : i + k < 2 ^ 32) (hlow : r.1 < 2 ^ 31) (hhigh : r.2 < 2 ^ 31) :
    Bytes.continues bs (Int32.ofNat i + Int32.ofNat k) (Int32.ofNat r.1) (Int32.ofNat r.2) =
      ((indexed bs)[i + k]?).any fun c => decide (InRange c r) := by
  rw [Bytes.continues, ← Int32.ofNat_add, get_ofNat bs hi]
  cases (indexed bs)[i + k]? with
  | none => rfl
  | some c =>
    simp only [Option.map_some, Option.any_some, ge_iff_le, le_byte c hlow, byte_le c hhigh, InRange]
    exact (Bool.decide_and _ _).symm

theorem secondRange_lt (lead : Nat) : (secondRange lead).1 < 2 ^ 31 ∧ (secondRange lead).2 < 2 ^ 31 := by
  rw [secondRange]
  split_ifs <;> decide

/-- The code's size is that of the sequence at the index, or 0 where none starts. -/
theorem sequenceSize_eq (hi : i < 2 ^ 31) (lead : UInt8) :
    Bytes.sequenceSize bs (Int32.ofNat i) (byte lead) = match following lead.toNat with
      | none => 0
      | some ranges => if Starts ranges ((indexed bs).drop (i + 1)) then Int32.ofNat (ranges.length + 1) else 0 := by
  obtain ⟨hlow, hhigh⟩ := secondRange_lt lead.toNat
  have h1 : Bytes.continues bs (Int32.ofNat i + 1) (Int32.ofNat (secondRange lead.toNat).1)
      (Int32.ofNat (secondRange lead.toNat).2) = _ := continues_ofNat (k := 1) bs (by omega) hlow hhigh
  have h2 : Bytes.continues bs (Int32.ofNat i + 2) 0x80 0xBF = _ :=
    continues_ofNat (k := 2) (r := TRAIL) bs (by omega) (by decide) (by decide)
  have h3 : Bytes.continues bs (Int32.ofNat i + 3) 0x80 0xBF = _ :=
    continues_ofNat (k := 3) (r := TRAIL) bs (by omega) (by decide) (by decide)
  have h80 : byte lead < 0x80 ↔ lead.toNat < 0x80 := byte_lt lead (by decide)
  have hC2 : byte lead < 0xC2 ↔ lead.toNat < 0xC2 := byte_lt lead (by decide)
  have hE0 : byte lead < 0xE0 ↔ lead.toNat < 0xE0 := byte_lt lead (by decide)
  have hF0 : byte lead < 0xF0 ↔ lead.toNat < 0xF0 := byte_lt lead (by decide)
  have hF5 : byte lead < 0xF5 ↔ lead.toNat < 0xF5 := byte_lt lead (by decide)
  simp only [Bytes.sequenceSize, following, h80, hC2, hE0, hF0, hF5]
  by_cases n80 : lead.toNat < 0x80
  · simp only [n80, ↓reduceIte, Starts]
    rfl
  by_cases nC2 : lead.toNat < 0xC2
  · simp only [n80, nC2, ↓reduceIte]
  by_cases nE0 : lead.toNat < 0xE0
  · have hr : secondRange lead.toNat = TRAIL := by
      rw [secondRange, if_neg (by omega), if_neg (by omega), if_neg (by omega), if_neg (by omega)]
      rfl
    rw [hr] at h1
    simp only [n80, nC2, nE0, ↓reduceIte, hr, starts_drop, Starts, and_true]
    exact congrArg (if · = true then (2 : Int32) else 0) h1
  by_cases nF0 : lead.toNat < 0xF0
  · have hlead : (if byte lead == 0xE0 then 0xA0 else 0x80) = Int32.ofNat (secondRange lead.toNat).1 := by
      have hnot : ¬lead.toNat = 0xF0 := by omega
      simp only [secondRange, hnot, ↓reduceIte]
      exact ite_byte lead (by decide)
    have hlead' : (if byte lead == 0xED then 0x9F else 0xBF) = Int32.ofNat (secondRange lead.toNat).2 := by
      have hnot : ¬lead.toNat = 0xF4 := by omega
      simp only [secondRange, hnot, ↓reduceIte]
      exact ite_byte lead (by decide)
    simp only [n80, nC2, nE0, nF0, ↓reduceIte, hlead, hlead', h1, h2, starts_drop, Starts, and_true, Bool.and_eq_true]
    rfl
  by_cases nF5 : lead.toNat < 0xF5
  · have hlead : (if byte lead == 0xF0 then 0x90 else 0x80) = Int32.ofNat (secondRange lead.toNat).1 := by
      have hnot : ¬lead.toNat = 0xE0 := by omega
      simp only [secondRange, hnot, ↓reduceIte]
      exact ite_byte lead (by decide)
    have hlead' : (if byte lead == 0xF4 then 0x8F else 0xBF) = Int32.ofNat (secondRange lead.toNat).2 := by
      have hnot : ¬lead.toNat = 0xED := by omega
      simp only [secondRange, hnot, ↓reduceIte]
      exact ite_byte lead (by decide)
    simp only [n80, nC2, nE0, nF0, nF5, ↓reduceIte, hlead, hlead', h1, h2, h3, starts_drop, Starts, and_true,
      Bool.and_eq_true, and_assoc]
    rfl
  · simp only [n80, nC2, nE0, nF0, nF5, ↓reduceIte]

theorem following_length {lead : UInt8} {ranges : List Range} (h : following lead.toNat = some ranges) :
    ranges.length ≤ 3 := by
  rw [following] at h
  split_ifs at h <;> cases h <;> simp

/-- The code accepts from an index when the bytes from there on that an `Int` reaches are well formed. -/
theorem validUtf8From_spec {fuel : Nat} (hi : i < 2 ^ 31 + 4) (hfuel : (indexed bs).length - i < fuel) :
    ∃ ok, Bytes.validUtf8From bs fuel (Int32.ofNat i) = some ok ∧
      (ok = true ↔ WellFormed ((indexed bs).drop i)) := by
  induction fuel generalizing i with
  | zero => exact absurd hfuel (Nat.not_lt_zero _)
  | succ fuel ih =>
    have hlength : (indexed bs).length ≤ 2 ^ 31 := List.length_take_le _ _
    rw [Bytes.validUtf8From, get_ofNat bs (by omega)]
    rcases Nat.lt_or_ge i (indexed bs).length with hin | hout
    · rw [List.getElem?_eq_getElem hin, Option.map_some, List.drop_eq_getElem_cons hin, wellFormed_cons]
      dsimp only
      rw [sequenceSize_eq bs (by omega)]
      cases hfollowing : following (indexed bs)[i].toNat with
      | none => exact ⟨false, rfl, by simp⟩
      | some ranges =>
        have hthree := following_length hfollowing
        dsimp only
        split
        · next hstarts =>
          have hne : ¬(Int32.ofNat (ranges.length + 1) == 0) = true := by
            rw [beq_iff_eq, ← Int32.toInt_inj, Int32.toInt_ofNat_of_lt (by omega), Int32.toInt_zero]
            omega
          obtain ⟨ok, hok, hiff⟩ := ih (i := i + (ranges.length + 1)) (by omega) (by omega)
          rw [if_neg hne, ← Int32.ofNat_add]
          refine ⟨ok, hok, hiff.trans ?_⟩
          have hdrop : (indexed bs).drop (i + (ranges.length + 1)) =
              ((indexed bs).drop (i + 1)).drop ranges.length := by
            rw [List.drop_drop]
            congr 1
            omega
          rw [hdrop]
          constructor
          · exact fun hwf => ⟨ranges, rfl, hstarts, hwf⟩
          · rintro ⟨ranges', heq, -, hwf⟩
            cases heq
            exact hwf
        · next hnot =>
          refine ⟨false, rfl, ?_⟩
          simp only [Bool.false_eq_true, false_iff]
          rintro ⟨ranges', heq, hstarts, -⟩
          cases heq
          exact hnot hstarts
    · rw [List.getElem?_eq_none hout, List.drop_eq_nil_of_le hout]
      exact ⟨true, rfl, by simpa using WellFormed.nil⟩

end

/-! ## From a list -/

section
variable (acc : List Str)

open Request

theorem push_ofNat {v : Nat} (hv : v < 2 ^ 31) (bytes : List Int32) :
    push (Int32.ofNat v) bytes acc =
      if v.isValidChar then fromUtf8 bytes ([Char.ofNat v] :: acc) else none := by
  have hpos : 0 ≤ Int32.ofNat v := Int32.ofNat_le_iff_le (by decide) hv |>.mpr (Nat.zero_le v)
  rw [push, fromCodePoint, Int32.toNatClampNeg_ofNat_of_lt hv]
  simp only [hpos, true_and]
  split_ifs <;> rfl

theorem sequence_zero {v : Nat} {min : Int32} (bytes : List Int32) :
    sequence (Int32.ofNat v) 0 min bytes acc =
      if Int32.ofNat v < min then none else push (Int32.ofNat v) bytes acc := by
  rw [Request.sequence.eq_def]
  rfl

theorem sequence_nil {value count min : Int32} (hcount : count ≠ 0) : sequence value count min [] acc = none := by
  rw [Request.sequence.eq_def, if_neg (by simpa using hcount)]

theorem sequence_cons {v : Nat} {count min : Int32} (hv : v < 2 ^ 25) (hcount : count ≠ 0) (c : UInt8)
    (bytes : List Int32) :
    sequence (Int32.ofNat v) count min (byte c :: bytes) acc =
      if InRange c TRAIL then sequence (Int32.ofNat (v * 64 + c.toNat % 64)) (count - 1) min bytes acc else none := by
  rw [Request.sequence.eq_def, if_neg (by simpa using hcount)]
  simp only [byte_trail, decide_eq_true_eq, byte_low, shift_or hv (Nat.mod_lt _ (by decide : 64 > 0))]

/-! ## The bounds of the second byte -/

theorem two_bytes {lead c : Nat} (hlead : 0xC2 ≤ lead) (hlead' : lead < 0xE0) :
    0x80 ≤ lead % 32 * 64 + c % 64 ∧ (lead % 32 * 64 + c % 64).isValidChar := by
  simp only [Nat.isValidChar]
  omega

/-- In three bytes, no overlong form and no surrogate. -/
theorem three_bytes {lead : Nat} {c d : UInt8} (hlead : 0xE0 ≤ lead) (hlead' : lead < 0xF0) :
    InRange c TRAIL ∧ InRange d TRAIL ∧ 0x800 ≤ (lead % 16 * 64 + c.toNat % 64) * 64 + d.toNat % 64 ∧
        ((lead % 16 * 64 + c.toNat % 64) * 64 + d.toNat % 64).isValidChar ↔
      InRange c (secondRange lead) ∧ InRange d TRAIL := by
  simp only [InRange, TRAIL, secondRange, Nat.isValidChar]
  split_ifs <;> omega

/-- In four bytes, no overlong form and nothing above 10FFFF. -/
theorem four_bytes {lead : Nat} {c d e : UInt8} (hlead : 0xF0 ≤ lead) (hlead' : lead < 0xF5) :
    InRange c TRAIL ∧ InRange d TRAIL ∧ InRange e TRAIL ∧
        0x10000 ≤ ((lead % 8 * 64 + c.toNat % 64) * 64 + d.toNat % 64) * 64 + e.toNat % 64 ∧
        (((lead % 8 * 64 + c.toNat % 64) * 64 + d.toNat % 64) * 64 + e.toNat % 64).isValidChar ↔
      InRange c (secondRange lead) ∧ InRange d TRAIL ∧ InRange e TRAIL := by
  simp only [InRange, TRAIL, secondRange, Nat.isValidChar]
  split_ifs <;> omega

theorem byte_bits (b : UInt8) : byte b &&& 0x1F = Int32.ofNat (b.toNat % 32) ∧
    byte b &&& 0x0F = Int32.ofNat (b.toNat % 16) ∧ byte b &&& 0x07 = Int32.ofNat (b.toNat % 8) := by
  have hall : ∀ n < 256, Int32.ofNat n &&& 0x1F = Int32.ofNat (n % 32) ∧
      Int32.ofNat n &&& 0x0F = Int32.ofNat (n % 16) ∧ Int32.ofNat n &&& 0x07 = Int32.ofNat (n % 8) := by
    decide +kernel
  exact hall b.toNat b.toNat_lt

theorem ite_isSome {α : Type} {p : Prop} [Decidable p] {x : Option α} :
    (if p then x else none).isSome ↔ p ∧ x.isSome := by
  split <;> simp [*]

/-- After the last byte. -/
theorem sequence_finish {v m : Nat} {bytes : List UInt8} (hv : v < 2 ^ 31) (hm : m < 2 ^ 31)
    (ih : ∀ acc, (fromUtf8 (bytes.map byte) acc).isSome ↔ WellFormed bytes) :
    (sequence (Int32.ofNat v) 0 (Int32.ofNat m) (bytes.map byte) acc).isSome ↔
      m ≤ v ∧ v.isValidChar ∧ WellFormed bytes := by
  have hlt := Int32.ofNat_lt_iff_lt hv hm
  rw [sequence_zero]
  by_cases hle : m ≤ v
  · rw [if_neg (hlt.not.mpr (Nat.not_lt_of_le hle)), push_ofNat acc hv]
    by_cases hvalid : v.isValidChar
    · rw [if_pos hvalid, ih]
      exact ⟨fun h => ⟨hle, hvalid, h⟩, fun h => h.2.2⟩
    · rw [if_neg hvalid]
      exact iff_of_false (by simp) fun h => hvalid h.2.1
  · rw [if_pos (hlt.mpr (Nat.lt_of_not_le hle))]
    exact iff_of_false (by simp) fun h => hle h.1

theorem fromUtf8_cons (lead : UInt8) (bytes : List Int32) :
    fromUtf8 (byte lead :: bytes) acc =
      if lead.toNat < 0x80 then push (byte lead) bytes acc
      else if 0xC2 ≤ lead.toNat ∧ lead.toNat < 0xE0 then
        sequence (Int32.ofNat (lead.toNat % 32)) 1 (Int32.ofNat 0x80) bytes acc
      else if 0xE0 ≤ lead.toNat ∧ lead.toNat < 0xF0 then
        sequence (Int32.ofNat (lead.toNat % 16)) 2 (Int32.ofNat 0x800) bytes acc
      else if 0xF0 ≤ lead.toNat ∧ lead.toNat < 0xF5 then
        sequence (Int32.ofNat (lead.toNat % 8)) 3 (Int32.ofNat 0x10000) bytes acc
      else none := by
  have h80 : byte lead < 0x80 ↔ lead.toNat < 0x80 := byte_lt lead (by decide)
  have hC2 : byte lead ≥ 0xC2 ↔ 0xC2 ≤ lead.toNat := le_byte lead (by decide)
  have hDF : byte lead ≤ 0xDF ↔ lead.toNat < 0xE0 := (byte_le lead (by decide)).trans Nat.lt_succ_iff.symm
  have hE0 : byte lead ≥ 0xE0 ↔ 0xE0 ≤ lead.toNat := le_byte lead (by decide)
  have hEF : byte lead ≤ 0xEF ↔ lead.toNat < 0xF0 := (byte_le lead (by decide)).trans Nat.lt_succ_iff.symm
  have hF0 : byte lead ≥ 0xF0 ↔ 0xF0 ≤ lead.toNat := le_byte lead (by decide)
  have hF4 : byte lead ≤ 0xF4 ↔ lead.toNat < 0xF5 := (byte_le lead (by decide)).trans Nat.lt_succ_iff.symm
  obtain ⟨h1F, h0F, h07⟩ := byte_bits lead
  rw [fromUtf8.eq_def]
  simp only [h80, hC2, hDF, hE0, hEF, hF0, hF4, h1F, h0F, h07, Bool.and_eq_true, decide_eq_true_eq]
  rfl

theorem wellFormed_following {lead : UInt8} {ranges : List Range} (h : following lead.toNat = some ranges) :
    WellFormed (lead :: bs) ↔ Starts ranges bs ∧ WellFormed (bs.drop ranges.length) := by
  rw [wellFormed_cons]
  constructor
  · rintro ⟨ranges', heq, hstarts, hrest⟩
    cases h.symm.trans heq
    exact ⟨hstarts, hrest⟩
  · exact fun hboth => ⟨ranges, h, hboth⟩

end

/-- The decoder of a request accepts the well-formed lists. -/
theorem fromUtf8_isSome (bs : List UInt8) (acc : List Str) :
    (Request.fromUtf8 (bs.map byte) acc).isSome ↔ WellFormed bs := by
  induction hlength : bs.length using Nat.strongRecOn generalizing bs acc with
  | _ length ih =>
    subst hlength
    cases bs with
    | nil =>
      rw [List.map_nil, Request.fromUtf8.eq_def]
      exact iff_of_true rfl .nil
    | cons lead bs =>
      have hfewer : ∀ tail : List UInt8, tail.length ≤ bs.length → ∀ acc,
          (Request.fromUtf8 (tail.map byte) acc).isSome ↔ WellFormed tail := fun tail htail acc =>
        ih _ (by rw [List.length_cons]; omega) tail acc rfl
      rw [List.map_cons, fromUtf8_cons]
      by_cases h80 : lead.toNat < 0x80
      · have hvalid : lead.toNat.isValidChar := .inl (by omega)
        have hf : following lead.toNat = some [] := if_pos h80
        rw [if_pos h80, byte, push_ofNat acc (by omega), if_pos hvalid, hfewer bs (Nat.le_refl _),
          wellFormed_following hf]
        exact (and_iff_right trivial).symm
      by_cases hC2 : lead.toNat < 0xC2
      · have hf : following lead.toNat = none := by rw [following, if_neg h80, if_pos hC2]
        rw [if_neg h80, if_neg (by omega), if_neg (by omega), if_neg (by omega), wellFormed_cons, hf]
        simp
      by_cases hE0 : lead.toNat < 0xE0
      · have hf : following lead.toNat = some [secondRange lead.toNat] := by
          rw [following, if_neg h80, if_neg hC2, if_pos hE0]
        have hr : secondRange lead.toNat = TRAIL := by
          rw [secondRange, if_neg (by omega), if_neg (by omega), if_neg (by omega), if_neg (by omega)]
          rfl
        rw [if_neg h80, if_pos ⟨by omega, hE0⟩, wellFormed_following hf, hr]
        cases bs with
        | nil =>
          rw [List.map_nil, sequence_nil acc (by decide)]
          simp [Starts]
        | cons c tail =>
          obtain ⟨hmin, hvalid⟩ := two_bytes (c := c.toNat) (by omega) hE0
          rw [List.map_cons, sequence_cons acc (by omega) (by decide)]
          split
          · next hc =>
            rw [show (1 : Int32) - 1 = 0 from rfl, sequence_finish acc (by omega) (by decide) (hfewer tail (by simp))]
            simp [Starts, hc, hmin, hvalid]
          · next hc => simp [Starts, hc]
      by_cases hF0 : lead.toNat < 0xF0
      · have hf : following lead.toNat = some [secondRange lead.toNat, TRAIL] := by
          rw [following, if_neg h80, if_neg hC2, if_neg hE0, if_pos hF0]
        rw [if_neg h80, if_neg (by omega), if_pos ⟨by omega, hF0⟩, wellFormed_following hf]
        rcases bs with _ | ⟨c, _ | ⟨d, tail⟩⟩
        · rw [List.map_nil, sequence_nil acc (by decide)]
          simp [Starts]
        · rw [List.map_cons, List.map_nil, sequence_cons acc (by omega) (by decide), sequence_nil acc (by decide)]
          simp [Starts]
        · have hbounds := three_bytes (c := c) (d := d) (by omega) hF0
          rw [List.map_cons, List.map_cons, sequence_cons acc (by omega) (by decide), ite_isSome,
            sequence_cons acc (by omega) (by decide), ite_isSome]
          rw [show (2 : Int32) - 1 - 1 = 0 from rfl,
            sequence_finish acc (by omega) (by decide) (hfewer tail (by simp; omega))]
          simp only [Starts, and_true, List.length_cons, List.length_nil, List.drop_succ_cons, List.drop_zero,
            ← hbounds, and_assoc]
      by_cases hF5 : lead.toNat < 0xF5
      · have hf : following lead.toNat = some [secondRange lead.toNat, TRAIL, TRAIL] := by
          rw [following, if_neg h80, if_neg hC2, if_neg hE0, if_neg hF0, if_pos hF5]
        rw [if_neg h80, if_neg (by omega), if_neg (by omega), if_pos ⟨by omega, hF5⟩, wellFormed_following hf]
        rcases bs with _ | ⟨c, _ | ⟨d, _ | ⟨e, tail⟩⟩⟩
        · rw [List.map_nil, sequence_nil acc (by decide)]
          simp [Starts]
        · rw [List.map_cons, List.map_nil, sequence_cons acc (by omega) (by decide), sequence_nil acc (by decide)]
          simp [Starts]
        · rw [List.map_cons, List.map_cons, List.map_nil, sequence_cons acc (by omega) (by decide),
            sequence_cons acc (by omega) (by decide), sequence_nil acc (by decide)]
          simp [Starts]
        · have hbounds := four_bytes (c := c) (d := d) (e := e) (by omega) hF5
          rw [List.map_cons, List.map_cons, List.map_cons, sequence_cons acc (by omega) (by decide), ite_isSome,
            sequence_cons acc (by omega) (by decide), ite_isSome, sequence_cons acc (by omega) (by decide), ite_isSome]
          rw [show (3 : Int32) - 1 - 1 - 1 = 0 from rfl,
            sequence_finish acc (by omega) (by decide) (hfewer tail (by simp; omega))]
          simp only [Starts, and_true, List.length_cons, List.length_nil, List.drop_succ_cons, List.drop_zero,
            ← hbounds, and_assoc]
      · have hf : following lead.toNat = none := by
          rw [following, if_neg h80, if_neg hC2, if_neg hE0, if_neg hF0, if_neg hF5]
        rw [if_neg h80, if_neg (by omega), if_neg (by omega), if_neg (by omega), wellFormed_cons, hf]
        simp

/-! ## Both -/

/-- `valid_utf8_from` accepts the well-formed lists, as the decoder of a request does. -/
structure Decides (bs : List UInt8) : Prop where
  valid : ∃ N, ∀ fuel ≥ N, ∃ ok, Bytes.validUtf8From bs fuel 0 = some ok ∧ (ok = true ↔ WellFormed bs)
  agrees : ∃ N, ∀ fuel ≥ N, ∃ ok, Bytes.validUtf8From bs fuel 0 = some ok ∧
    (ok = true ↔ (Request.fromUtf8 (bs.map byte) []).isSome)

theorem validUtf8_indexed (bs : List UInt8) {fuel : Nat} (hfuel : bs.length < fuel) :
    ∃ ok, Bytes.validUtf8From bs fuel 0 = some ok ∧ (ok = true ↔ WellFormed (indexed bs)) := by
  have hlength : (indexed bs).length ≤ bs.length := List.length_take_le' _ _
  exact validUtf8From_spec (i := 0) bs (by omega) (by omega)

theorem decides_of_indexed (h : WellFormed (indexed bs) ↔ WellFormed bs) : Decides bs where
  valid := ⟨bs.length + 1, fun fuel hfuel => by
    obtain ⟨ok, hok, hiff⟩ := validUtf8_indexed bs hfuel
    exact ⟨ok, hok, hiff.trans h⟩⟩
  agrees := ⟨bs.length + 1, fun fuel hfuel => by
    obtain ⟨ok, hok, hiff⟩ := validUtf8_indexed bs hfuel
    exact ⟨ok, hok, hiff.trans (h.trans (fromUtf8_isSome bs []).symm)⟩⟩

theorem indexed_of_decides (h : Decides bs) : WellFormed (indexed bs) ↔ WellFormed bs := by
  obtain ⟨N, hN⟩ := h.valid
  obtain ⟨ok, hok, hiff⟩ := hN (max N (bs.length + 1)) (by omega)
  obtain ⟨ok', hok', hiff'⟩ := validUtf8_indexed bs (show bs.length < max N (bs.length + 1) by omega)
  cases hok.symm.trans hok'
  exact hiff'.symm.trans hiff

/-- Both accept the well-formed lists where the bytes after the first 2^31 make no difference, so where there are none.
The decoder of a request does so always. -/
theorem decides_iff_indexed (bs : List UInt8) :
    (Decides bs ↔ (WellFormed (indexed bs) ↔ WellFormed bs)) ∧ (bs.length ≤ 2 ^ 31 → Decides bs) ∧
      ((Request.fromUtf8 (bs.map byte) []).isSome ↔ WellFormed bs) := by
  refine ⟨⟨indexed_of_decides, decides_of_indexed⟩, fun hlength => decides_of_indexed ?_, fromUtf8_isSome bs []⟩
  rw [indexed, List.take_of_length_le hlength]

/-- 2^31 times `a`, and a byte that starts no sequence. -/
def longBytes : List UInt8 := List.replicate (2 ^ 31) 0x61 ++ [0xFF]

/-- The last byte has no index and is not looked at. -/
theorem not_decides_longBytes :
    ¬WellFormed longBytes ∧ (∃ N, ∀ fuel ≥ N, Bytes.validUtf8From longBytes fuel 0 = some true) ∧
      ¬Decides longBytes := by
  have hbad : ¬WellFormed longBytes := by
    rw [longBytes, wellFormed_replicate _ (by decide), wellFormed_cons]
    rintro ⟨ranges, hnone, -⟩
    cases hnone
  have hgood : WellFormed (indexed longBytes) := by
    have htake : indexed longBytes = List.replicate (2 ^ 31) 0x61 ++ [] := by
      rw [indexed, longBytes, List.take_append_of_le_length (Nat.le_of_eq List.length_replicate.symm),
        List.take_of_length_le (Nat.le_of_eq List.length_replicate), List.append_nil]
    rw [htake, wellFormed_replicate _ (by decide)]
    exact .nil
  refine ⟨hbad, ⟨longBytes.length + 1, fun fuel hfuel => ?_⟩, fun h => hbad ((indexed_of_decides h).mp hgood)⟩
  obtain ⟨ok, hok, hiff⟩ := validUtf8_indexed longBytes (Nat.lt_of_add_one_le hfuel)
  rw [hok, hiff.mpr hgood]

end Emela.Stdlib
