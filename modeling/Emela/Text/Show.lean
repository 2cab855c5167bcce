import Emela.Text.Encoding

/-!
# Strings as written in source

`em_show_string` of the C runtime and `$showString` of the JS runtime.
-/

namespace Emela.Text

variable {α β : Type} {enc : Char → List β} {toNat : β → Nat} {c : Char} {s rest : List Char}

/-- What is written for each element, which may depend on the next one. -/
def mapNext (f : α → Option α → List β) : List α → List β
  | [] => []
  | a :: rest => f a rest.head? ++ mapNext f rest

/-! ## C -/

/-- The body of the loop over the bytes. -/
def showByte (c : UInt8) (next : Option UInt8) : List UInt8 :=
  if c = 0x22 then utf8 ['\\', '"']
  else if c = 0x5C then utf8 ['\\', '\\']
  else if c = 0x23 then if next = some 0x7B then utf8 ['\\', '#'] else utf8 ['#']
  else if c = 0x0A then utf8 ['\\', 'n']
  else if c = 0x09 then utf8 ['\\', 't']
  else if c = 0x0D then utf8 ['\\', 'r']
  else if c < 0x20 ∨ c = 0x7F then utf8 (['\\', 'u', '{'] ++ Nat.toDigits 16 c.toNat ++ ['}'])
  else [c]

def emShowString (s : List UInt8) : List UInt8 := utf8 ['"'] ++ mapNext showByte s ++ utf8 ['"']

/-! ## JS -/

/-- What `$strEscRe` matches. -/
def strEscRe (c : UInt16) (next : Option UInt16) : Bool :=
  c = 0x22 || c = 0x5C || (c = 0x23 && next = some 0x7B) || c ≤ 0x1F || c = 0x7F

/-- What a unit is replaced by. -/
def replaceUnit (c : UInt16) (next : Option UInt16) : List UInt16 :=
  if strEscRe c next then
    if c = 0x22 then utf16 ['\\', '"']
    else if c = 0x5C then utf16 ['\\', '\\']
    else if c = 0x23 then utf16 ['\\', '#']
    else if c = 0x0A then utf16 ['\\', 'n']
    else if c = 0x09 then utf16 ['\\', 't']
    else if c = 0x0D then utf16 ['\\', 'r']
    else utf16 (['\\', 'u', '{'] ++ Nat.toDigits 16 c.toNat ++ ['}'])
  else [c]

def showString (s : List UInt16) : List UInt16 := utf16 ['"'] ++ mapNext replaceUnit s ++ utf16 ['"']

/-! ## The text -/

def showChar (c : Char) (next : Option Char) : List Char :=
  if c = '"' then ['\\', '"']
  else if c = '\\' then ['\\', '\\']
  else if c = '#' then if next = some '{' then ['\\', '#'] else ['#']
  else if c = '\n' then ['\\', 'n']
  else if c = '\t' then ['\\', 't']
  else if c = '\r' then ['\\', 'r']
  else if c.toNat < 0x20 ∨ c.toNat = 0x7F then ['\\', 'u', '{'] ++ Nat.toDigits 16 c.toNat ++ ['}']
  else [c]

/-- A string as both runtimes show it. -/
def shown (s : List Char) : List Char := ['"'] ++ mapNext showChar s ++ ['"']

/-! ## Both runtimes show it so -/

theorem mapNext_copy {f : β → Option β → List β} {l : List β} (h : ∀ u ∈ l, ∀ next, f u next = [u]) (rest : List β) :
    mapNext f (l ++ rest) = l ++ mapNext f rest := by
  induction l with
  | nil => rfl
  | cons u l ih =>
    obtain ⟨hu, hl⟩ := List.forall_mem_cons.mp h
    rw [List.cons_append, mapNext, hu, ih hl]
    rfl

/-- A function of units that writes ASCII as `g` does and copies the rest. -/
theorem mapNext_flatMap {f : β → Option β → List β} {g : Char → Option Char → List Char}
    (hascii : ∀ c, c.toNat < 0x80 → ∃ u, enc c = [u] ∧ ∀ rest : List Char,
      f u (rest.flatMap enc).head? = (g c rest.head?).flatMap enc)
    (hother : ∀ c, 0x80 ≤ c.toNat → (∀ u ∈ enc c, ∀ next, f u next = [u]) ∧ ∀ next, g c next = [c]) (s : List Char) :
    mapNext f (s.flatMap enc) = (mapNext g s).flatMap enc := by
  induction s with
  | nil => rfl
  | cons c s ih =>
    rw [List.flatMap_cons, mapNext, List.flatMap_append, ← ih]
    rcases Nat.lt_or_ge c.toNat 0x80 with hc | hc
    · obtain ⟨u, hu, hf⟩ := hascii c hc
      rw [hu, List.singleton_append, mapNext, hf]
    · obtain ⟨hcopy, hself⟩ := hother c hc
      rw [mapNext_copy hcopy, hself]
      simp

theorem showByte_next (c : UInt8) (next : Option UInt8) :
    showByte c next = showByte c (if next = some 0x7B then some 0x7B else none) := by
  by_cases h : next = some 0x7B
  · rw [if_pos h, h]
  · simp [showByte, h]

theorem replaceUnit_next (c : UInt16) (next : Option UInt16) :
    replaceUnit c next = replaceUnit c (if next = some 0x7B then some 0x7B else none) := by
  by_cases h : next = some 0x7B
  · rw [if_pos h, h]
  · simp [replaceUnit, strEscRe, h]

theorem showChar_next (c : Char) (next : Option Char) :
    showChar c next = showChar c (if next = some '{' then some '{' else none) := by
  by_cases h : next = some '{'
  · rw [if_pos h, h]
  · simp [showChar, h]

theorem showChar_other (hc : 0x80 ≤ c.toNat) (next : Option Char) : showChar c next = [c] := by
  have hne : ∀ d : Char, d.toNat < 0x80 → c ≠ d := fun d hd heq => by
    subst heq
    omega
  simp only [showChar, hne '"' (by decide), hne '\\' (by decide), hne '#' (by decide), hne '\n' (by decide),
    hne '\t' (by decide), hne '\r' (by decide), if_false]
  exact if_neg (by omega)

/-- The units of a text start with `{` where the text does. -/
theorem head_brace {u : β} (hu : enc '{' = [u]) (henc : ∀ c, enc c ≠ [])
    (hfirst : ∀ c, (enc c).head? = some u → c = '{') (rest : List Char) :
    (rest.flatMap enc).head? = some u ↔ rest.head? = some '{' := by
  cases rest with
  | nil => simp
  | cons c rest =>
    rw [List.flatMap_cons, List.head?_append_of_ne_nil _ (henc c), List.head?_cons, Option.some.injEq]
    constructor
    · exact hfirst c
    · rintro rfl
      rw [hu]
      rfl

theorem showByte_ascii : ∀ n < 0x80, ∀ b : Bool, showByte (UInt8.ofNat n) (if b then some 0x7B else none) =
    utf8 (showChar (Char.ofNat n) (if b then some '{' else none)) := by
  decide

theorem replaceUnit_ascii : ∀ n < 0x80, ∀ b : Bool, replaceUnit (UInt16.ofNat n) (if b then some 0x7B else none) =
    utf16 (showChar (Char.ofNat n) (if b then some '{' else none)) := by
  decide

theorem emShowString_utf8 (s : List Char) : emShowString (utf8 s) = utf8 (shown s) := by
  have hmap : mapNext showByte (utf8 s) = utf8 (mapNext showChar s) := by
    apply mapNext_flatMap
    · intro c hc
      refine ⟨UInt8.ofNat c.toNat, utf8_ascii hc, fun rest => ?_⟩
      have hbrace : (rest.flatMap String.utf8EncodeChar).head? = some 0x7B ↔ rest.head? = some '{' := by
        apply head_brace (by decide)
        · exact fun d => String.utf8EncodeChar_ne_nil
        · intro d hd
          obtain ⟨l, hl⟩ := List.head?_eq_some_iff.mp hd
          exact (isCode_utf8.prefix_eq '{' d ⟨l, hl.symm⟩).symm
      have hb := showByte_ascii c.toNat hc (decide (rest.head? = some '{'))
      simp only [decide_eq_true_eq, Char.ofNat_toNat] at hb
      rw [showByte_next, showChar_next, if_congr hbrace rfl rfl]
      exact hb
    · intro c hc
      refine ⟨fun u hu next => ?_, showChar_other hc⟩
      have hge := utf8_other hc u hu
      have hne : ∀ d : UInt8, d.toNat < 0x80 → u ≠ d := fun d hd heq => by
        subst heq
        omega
      have hnlt : ¬u < 0x20 := fun hlt => by
        have : u.toNat < 0x20 := hlt
        omega
      simp [showByte, hne 0x22 (by decide), hne 0x5C (by decide), hne 0x23 (by decide), hne 0x0A (by decide),
        hne 0x09 (by decide), hne 0x0D (by decide), hne 0x7F (by decide), hnlt]
  rw [emShowString, hmap]
  simp only [shown, utf8, List.flatMap_append]

theorem showString_utf16 (s : List Char) : showString (utf16 s) = utf16 (shown s) := by
  have hmap : mapNext replaceUnit (utf16 s) = utf16 (mapNext showChar s) := by
    apply mapNext_flatMap
    · intro c hc
      refine ⟨UInt16.ofNat c.toNat, utf16_ascii hc, fun rest => ?_⟩
      have hbrace : (rest.flatMap utf16EncodeChar).head? = some 0x7B ↔ rest.head? = some '{' := by
        apply head_brace (by decide)
        · intro d hd
          obtain ⟨u, l, hu, -, -⟩ := isCode_utf16.lead d
          simp [hu] at hd
        · intro d hd
          obtain ⟨l, hl⟩ := List.head?_eq_some_iff.mp hd
          exact (isCode_utf16.prefix_eq '{' d ⟨l, hl.symm⟩).symm
      have hb := replaceUnit_ascii c.toNat hc (decide (rest.head? = some '{'))
      simp only [decide_eq_true_eq, Char.ofNat_toNat] at hb
      rw [replaceUnit_next, showChar_next, if_congr hbrace rfl rfl]
      exact hb
    · intro c hc
      refine ⟨fun u hu next => ?_, showChar_other hc⟩
      have hge := utf16_other hc u hu
      have hne : ∀ d : UInt16, d.toNat < 0x80 → u ≠ d := fun d hd heq => by
        subst heq
        omega
      have hnle : ¬u ≤ 0x1F := fun hle => by
        have : u.toNat ≤ 0x1F := hle
        omega
      simp [replaceUnit, strEscRe, hne 0x22 (by decide), hne 0x5C (by decide), hne 0x23 (by decide),
        hne 0x7F (by decide), hnle]
  rw [showString, hmap]
  simp only [shown, utf16, List.flatMap_append]

end Emela.Text
