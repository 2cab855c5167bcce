import Emela.Lib.Base64
import Emela.Pome.Cached
import Emela.Pome.Lemmas.SourcePath
import Emela.Pome.Records

/-!
# Lines, fields and numbers

A text that is put together from lines without newlines is taken apart into them again.
-/

namespace Emela.Pome

variable {sep : Char} {a b s rest suffix : Str} {n : Nat}

/-! ## Separators -/

theorem stripSuffix_append (suffix s : Str) : stripSuffix suffix (s ++ suffix) = some s := by
  rw [stripSuffix, List.reverse_append, stripPrefix_append, Option.map_some, List.reverse_reverse]

theorem stripSuffix_eq_some : stripSuffix suffix s = some rest ↔ s = rest ++ suffix := by
  constructor
  · intro h
    obtain ⟨r, hr, rfl⟩ := Option.map_eq_some_iff.mp h
    rw [← List.reverse_inj, List.reverse_append, List.reverse_reverse]
    exact stripPrefix_eq_some.mp hr
  · rintro rfl
    exact stripSuffix_append suffix rest

theorem splitOnce_append (h : sep ∉ a) (b : Str) : splitOnce sep (a ++ sep :: b) = some (a, b) := by
  have hall : ∀ c ∈ a, (c != sep) = true := fun c hc => bne_iff_ne.mpr fun he => h (he ▸ hc)
  rw [splitOnce, List.span_eq_takeWhile_dropWhile, List.takeWhile_append_of_pos hall, List.dropWhile_append_of_pos hall]
  simp

/-! ## Numbers -/

theorem parseU64_decimal (h : n < 2 ^ 64) : parseU64 (decimal n) = some n := by
  have hvalue : (decimal n).foldl (fun n c => 10 * n + digit c) 0 = n := by
    rw [decimal, Nat.toList_repr]
    exact Nat.ofDigitChars_ten_toDigits
  rw [parseU64, hvalue]
  exact if_pos h

theorem parseUnsigned_lt (h : parseUnsigned s = some n) : n < 2 ^ 64 := by
  rw [parseUnsigned, Option.ite_none_right_eq_some, parseU64, Option.ite_none_right_eq_some] at h
  obtain ⟨-, hlt, heq⟩ := h
  exact Option.some.inj heq ▸ hlt

theorem isDigit_of_mem_decimal {c : Char} (h : c ∈ decimal n) : c.isDigit := by
  rw [decimal, Nat.toList_repr] at h
  exact Nat.isDigit_of_mem_toDigits (by decide) (by decide) h

theorem head?_decimal (h : 0 < n) : (decimal n).head? ≠ some '0' := by
  rw [decimal, Nat.toList_repr]
  induction n using Nat.strongRecOn with
  | _ n ih =>
    rcases Nat.lt_or_ge n 10 with hlt | hge
    · rw [Nat.toDigits_of_lt_base hlt]
      interval_cases n <;> decide
    · rw [Nat.toDigits_of_base_le (by decide) hge, List.head?_append_of_ne_nil _ Nat.toDigits_ne_nil]
      exact ih (n / 10) (by omega) (by omega)

theorem isNumeric_decimal (n : Nat) : isNumeric (decimal n) = true := by
  have hne : decimal n ≠ [] := by
    rw [decimal, Nat.toList_repr]
    exact Nat.toDigits_ne_nil
  rw [isNumeric, Bool.and_eq_true, Bool.and_eq_true]
  refine ⟨⟨by simpa using hne, List.all_eq_true.mpr fun c hc => isDigit_of_mem_decimal hc⟩, ?_⟩
  rcases Nat.eq_zero_or_pos n with rfl | hpos
  · decide
  · simp [head?_decimal hpos]

theorem num_decimal (h : n < 2 ^ 64) : Precedence.num (decimal n) = some n := by
  rw [Precedence.num, if_pos (isNumeric_decimal n), parseU64_decimal h]

/-- A number that is neither empty nor starts with a zero or a `+` is the decimal one. -/
theorem eq_decimal (hbad : badNumber s = false) (hplus : s.head? ≠ some '+') (h : parseUnsigned s = some n) :
    s = decimal n ∧ n < 2 ^ 64 := by
  have hdigits : (stripPrefix ['+'] s).getD s = s := by
    cases hstrip : stripPrefix ['+'] s with
    | none => rfl
    | some rest =>
      rw [stripPrefix_eq_some.mp hstrip] at hplus
      exact absurd rfl hplus
  have hlt := parseUnsigned_lt h
  rw [parseUnsigned, hdigits] at h
  rw [Option.ite_none_right_eq_some, Bool.and_eq_true, Bool.not_eq_true', List.isEmpty_eq_false_iff] at h
  obtain ⟨⟨hne, hall⟩, hvalue⟩ := h
  have hnumeric : isNumeric s = true := by
    rw [isNumeric, hall, Bool.and_true, Bool.and_eq_true]
    refine ⟨by simpa using hne, ?_⟩
    rcases s with _ | ⟨c, _ | ⟨d, s⟩⟩
    · simp at hne
    · cases hc : c == '0' <;> simp_all
    · cases hc : c == '0' <;> simp_all [badNumber]
  refine ⟨num_injective ?_ (num_decimal hlt), hlt⟩
  rw [Precedence.num, if_pos hnumeric, hvalue]

theorem badNumber_decimal (n : Nat) : badNumber (decimal n) = false := by
  have hnumeric := isNumeric_decimal n
  rw [isNumeric, Bool.and_eq_true, Bool.and_eq_true] at hnumeric
  obtain ⟨⟨hne, -⟩, hzero⟩ := hnumeric
  rw [badNumber, Bool.or_eq_false_iff]
  refine ⟨by simpa using hne, ?_⟩
  rcases Bool.or_eq_true_iff.mp hzero with h | h
  · rw [beq_iff_eq.mp h]
    rfl
  · rw [bne_iff_ne] at h
    rw [Bool.and_eq_false_iff]
    exact .inr (beq_eq_false_iff_ne.mpr h)

theorem parseUnsigned_decimal (h : n < 2 ^ 64) : parseUnsigned (decimal n) = some n := by
  have hnumeric := isNumeric_decimal n
  rw [isNumeric, Bool.and_eq_true] at hnumeric
  have hplus : stripPrefix ['+'] (decimal n) = none := by
    cases hstrip : stripPrefix ['+'] (decimal n) with
    | none => rfl
    | some rest =>
      have hmem : '+' ∈ decimal n := by
        rw [stripPrefix_eq_some.mp hstrip]
        exact List.mem_cons_self
      exact absurd (isDigit_of_mem_decimal hmem) (by decide)
  rw [parseUnsigned, hplus, Option.getD_none, if_pos hnumeric.1, parseU64_decimal h]

/-! ## Hashes -/

theorem toHash_toList (h : Hash) : toHash h.toList = some h := by
  rw [toHash, dif_pos h.length_toList]
  rfl

theorem toList_of_toHash {bytes : List UInt8} {h : Hash} (hh : toHash bytes = some h) : h.toList = bytes := by
  rw [toHash] at hh
  split at hh
  · cases hh
    rfl
  · cases hh

/-! ## The texts of the checksum database

A record has one text. A lookup is a record with an index before it and a note after it. A checkpoint has one text
with three lines, and its text may go on with extension lines, which are ignored. -/

variable {crypto : Crypto} {h : H1} {r : Record} {c : Checkpoint} {l : Lookup} {text body : Str}

/-! ## Base64 -/

/-- What the crate `base64` says of `STANDARD`: the text of some bytes is the only one that decodes to them, is
padded, and has the characters of the alphabet. -/
structure Crypto.Standard (crypto : Crypto) : Prop where
  decode_eq_some : ∀ s bytes, crypto.decode s = some bytes ↔ s = crypto.encode bytes
  inAlphabet : ∀ bytes, ∀ c ∈ crypto.encode bytes, Base64.InAlphabet c
  length_encode : ∀ bytes, (crypto.encode bytes).length = 4 * ((bytes.length + 2) / 3)
  padded : ∀ bytes, bytes.length % 3 ≠ 0 → (crypto.encode bytes).getLast? = some '='

/-- A hash that the program makes: a parsed one, or the hash of a tree. -/
def H1.Built (crypto : Crypto) (h : H1) : Prop :=
  (∃ s, H1.parse crypto s = .ok h) ∨ ∃ files, treeHash crypto files = .ok h

/-- A record whose path is parsed and whose hashes are made. -/
structure Record.Built (crypto : Crypto) (r : Record) : Prop where
  path : ∃ s, SourcePath.parse s = .ok r.path
  tree : r.tree.Built crypto
  manifest : r.manifest.Built crypto

/-- A lookup is made by parsing a body. -/
def Lookup.Built (crypto : Crypto) (l : Lookup) : Prop := ∃ body, Lookup.parse crypto body = some l

/-- The body of a lookup, which the source only parses. -/
def Lookup.toBody (l : Lookup) : Str := decimal l.index ++ '\n' :: l.data ++ '\n' :: l.signedCheckpoint

/-- A checkpoint is made by parsing one. -/
def Checkpoint.Built (crypto : Crypto) (c : Checkpoint) : Prop := ∃ text, Checkpoint.parse crypto text = .ok c

/-- The lines after the root. -/
def IsExtension (text : Str) : Prop := text = [] ∨ ∃ lines, text = lines ++ ['\n']

/-- The size on the second line has no sign before it. -/
def Unsigned (text : Str) : Prop := ∀ size ∈ (text.splitOn '\n')[1]?, size.head? ≠ some '+'

/-! ## Hashes -/

theorem utf8Size_of_inAlphabet {c : Char} (hc : Base64.InAlphabet c) : c.utf8Size = 1 := by
  have hle : c.val ≤ 0x7F := by
    rw [UInt32.le_iff_toNat_le]
    rcases hc with hc | rfl | rfl | rfl
    · simp only [Char.isAlphanum, Char.isAlpha, Char.isUpper, Char.isLower, Char.isDigit, Bool.or_eq_true,
        Bool.and_eq_true, decide_eq_true_eq, ge_iff_le, UInt32.le_iff_toNat_le] at hc
      have h7F : (0x7F : UInt32).toNat = 127 := rfl
      have hZ : 'Z'.val.toNat = 90 := rfl
      have hz : 'z'.val.toNat = 122 := rfl
      have h9 : '9'.val.toNat = 57 := rfl
      omega
    · decide
    · decide
    · decide
  exact if_pos hle

theorem length_utf8 {s : Str} (hall : ∀ c ∈ s, Base64.InAlphabet c) : (utf8 s).length = s.length := by
  induction s with
  | nil => rfl
  | cons c s ih =>
    obtain ⟨hc, hall⟩ := List.forall_mem_cons.mp hall
    rw [utf8, List.flatMap_cons, List.length_append, String.length_utf8EncodeChar, utf8Size_of_inAlphabet hc, ← utf8,
      ih hall, List.length_cons, Nat.add_comm]

theorem H1.parse_eq_ok {s : Str} : H1.parse crypto s = .ok h ↔ h = ⟨s⟩ ∧ ∃ b bytes, s = "h1:".toList ++ b ∧
    (utf8 b).length = 44 ∧ b.getLast? = some '=' ∧ crypto.decode b = some bytes ∧ bytes.length = 32 := by
  rw [H1.parse]
  split
  · next hok =>
    obtain ⟨b, hb, hok⟩ := (Option.any_eq_true _ _).mp hok
    rw [Bool.and_eq_true, Bool.and_eq_true, beq_iff_eq, beq_iff_eq] at hok
    obtain ⟨⟨hlength, hlast⟩, hdecode⟩ := hok
    obtain ⟨bytes, hbytes, hsize⟩ := (Option.any_eq_true _ _).mp hdecode
    refine ⟨fun heq => ⟨(Except.ok.inj heq).symm, b, bytes, stripPrefix_eq_some.mp hb, hlength, hlast, hbytes,
      beq_iff_eq.mp hsize⟩, fun ⟨heq, _⟩ => by rw [heq]⟩
  · next hnot =>
    refine ⟨fun heq => (by cases heq), fun ⟨_, b, bytes, hs, hlength, hlast, hbytes, hsize⟩ => absurd ?_ hnot⟩
    rw [hs, stripPrefix_append, Option.any_some, hlength, hlast, hbytes, Option.any_some, hsize]
    rfl

/-- A hash that is made is the text of 32 bytes. -/
theorem H1.Built.eq_encode (hstandard : crypto.Standard) (hb : h.Built crypto) :
    ∃ bytes, h.text = "h1:".toList ++ crypto.encode bytes ∧ bytes.length = 32 := by
  rcases hb with ⟨s, hs⟩ | ⟨files, hfiles⟩
  · obtain ⟨rfl, b, bytes, htext, -, -, hdecode, hsize⟩ := H1.parse_eq_ok.mp hs
    exact ⟨bytes, by rw [htext, (hstandard.decode_eq_some b bytes).mp hdecode], hsize⟩
  · rw [treeHash] at hfiles
    split at hfiles
    · cases hfiles
    · dsimp only at hfiles
      split at hfiles
      · cases hfiles
      · cases hfiles
        exact ⟨_, rfl, Vector.length_toList⟩

theorem H1.Built.parse (hstandard : crypto.Standard) (hb : h.Built crypto) : H1.parse crypto h.text = .ok h := by
  obtain ⟨bytes, htext, hsize⟩ := hb.eq_encode hstandard
  refine H1.parse_eq_ok.mpr ⟨rfl, crypto.encode bytes, bytes, htext, ?_, hstandard.padded bytes (by omega),
    (hstandard.decode_eq_some _ _).mpr rfl, hsize⟩
  rw [length_utf8 (hstandard.inAlphabet bytes), hstandard.length_encode, hsize]

/-- A field of a line. -/
structure IsField (s : Str) : Prop where
  space : ' ' ∉ s
  newline : '\n' ∉ s

theorem H1.Built.isField (hstandard : crypto.Standard) (hb : h.Built crypto) : IsField h.text := by
  obtain ⟨bytes, htext, -⟩ := hb.eq_encode hstandard
  have hnot : ∀ c, ¬Base64.InAlphabet c → c ∉ crypto.encode bytes := fun c hc hmem =>
    hc (hstandard.inAlphabet bytes c hmem)
  rw [htext]
  constructor
  · rw [List.mem_append, not_or]
    exact ⟨by simp, hnot ' ' (by simp [Base64.InAlphabet])⟩
  · rw [List.mem_append, not_or]
    exact ⟨by simp, hnot '\n' (by simp [Base64.InAlphabet])⟩

/-! ## Records -/

theorem SourcePath.isField_of_parse {s : Str} {path : SourcePath} (h : SourcePath.parse s = .ok path) :
    IsField path.text := by
  obtain rfl := text_of_parse h
  constructor
  · exact fun hmem => absurd ((valid_of_parse h).chars hmem) (by simp)
  · exact fun hmem => absurd ((valid_of_parse h).chars hmem) (by simp)

theorem Version.isField (v : Version) : IsField v.raw := by
  constructor
  · exact fun hmem => absurd (v.chars hmem) (by simp)
  · exact fun hmem => absurd (v.chars hmem) (by simp)

theorem Version.isField_file (v : Version) : IsField (v.raw ++ ['/'] ++ MANIFEST_FILE) := by
  have hfile : ' ' ∉ MANIFEST_FILE ∧ '\n' ∉ MANIFEST_FILE := by decide
  constructor
  · simp [v.isField.space, hfile]
  · simp [v.isField.newline, hfile]

/-- The line of a tree's or a manifest's hash. -/
def recordLine (path file : Str) (hash : H1) : Str := path ++ ' ' :: file ++ ' ' :: hash.text

theorem Record.toText_eq (r : Record) :
    r.toText = recordLine r.path.text r.version.raw r.tree ++ '\n' ::
      recordLine r.path.text (r.version.raw ++ ['/'] ++ MANIFEST_FILE) r.manifest ++ ['\n'] := by
  simp [Record.toText, recordLine]

theorem recordLine_fields {path file : Str} {hash : H1} (hpath : IsField path) (hfile : IsField file)
    (hhash : IsField hash.text) :
    (recordLine path file hash).splitOn ' ' = [path, file, hash.text] ∧ '\n' ∉ recordLine path file hash := by
  constructor
  · rw [recordLine, List.append_assoc, List.cons_append, List.splitOn_append_cons_self_of_not_mem hpath.space,
      List.splitOn_append_cons_self_of_not_mem hfile.space, List.splitOn_eq_singleton hhash.space]
  · simp [recordLine, hpath.newline, hfile.newline, hhash.newline]

/-- The two lines of a record have three fields each. -/
theorem Record.Built.lines (hstandard : crypto.Standard) (hr : r.Built crypto) :
    ((recordLine r.path.text r.version.raw r.tree).splitOn ' ' = [r.path.text, r.version.raw, r.tree.text] ∧
      '\n' ∉ recordLine r.path.text r.version.raw r.tree) ∧
    (recordLine r.path.text (r.version.raw ++ ['/'] ++ MANIFEST_FILE) r.manifest).splitOn ' ' =
        [r.path.text, r.version.raw ++ ['/'] ++ MANIFEST_FILE, r.manifest.text] ∧
      '\n' ∉ recordLine r.path.text (r.version.raw ++ ['/'] ++ MANIFEST_FILE) r.manifest := by
  obtain ⟨s, hs⟩ := hr.path
  have hpath := SourcePath.isField_of_parse hs
  exact ⟨recordLine_fields hpath r.version.isField (hr.tree.isField hstandard),
    recordLine_fields hpath r.version.isField_file (hr.manifest.isField hstandard)⟩

theorem Record.parse_toText (hstandard : crypto.Standard) (hr : r.Built crypto) :
    Record.parse crypto r.toText = some r := by
  obtain ⟨s, hs⟩ := hr.path
  obtain ⟨⟨hfields, hline⟩, hfields', hline'⟩ := hr.lines hstandard
  have hpath : SourcePath.parse r.path.text = .ok r.path := by
    have htext : r.path.text = s := by rw [SourcePath.text_of_parse hs]
    rw [htext, hs]
  have hversion : Version.parse r.version.raw = .ok r.version := Version.parse_eq_ok.mpr rfl
  rw [Record.parse, Record.toText_eq, stripSuffix_append, Option.bind_eq_bind, Option.bind_some,
    List.splitOn_append_cons_self_of_not_mem hline, List.splitOn_eq_singleton hline']
  dsimp only
  rw [hfields, hfields']
  dsimp only
  rw [if_neg (by simp), hpath, hversion, hr.tree.parse hstandard, hr.manifest.parse hstandard, ← Record.toText_eq]
  exact if_pos rfl

theorem toOption_eq_some {ε α : Type} {x : Except ε α} {a : α} : x.toOption = some a ↔ x = .ok a := by
  cases x <;> simp [Except.toOption]

/-- Only the text of a record parses to it. -/
theorem Record.toText_of_parse (hr : Record.parse crypto text = some r) : r.toText = text ∧ r.Built crypto := by
  rw [Record.parse] at hr
  obtain ⟨body, -, hr⟩ := Option.bind_eq_some_iff.mp hr
  split at hr
  · split at hr
    · split at hr
      · cases hr
      · obtain ⟨path, hpath, hr⟩ := Option.bind_eq_some_iff.mp hr
        obtain ⟨version, -, hr⟩ := Option.bind_eq_some_iff.mp hr
        obtain ⟨tree, htree, hr⟩ := Option.bind_eq_some_iff.mp hr
        obtain ⟨manifest, hmanifest, hr⟩ := Option.bind_eq_some_iff.mp hr
        dsimp only at hr
        rw [Option.ite_none_right_eq_some] at hr
        obtain ⟨hsame, heq⟩ := hr
        cases heq
        exact ⟨hsame, ⟨_, toOption_eq_some.mp hpath⟩, .inl ⟨_, toOption_eq_some.mp htree⟩,
          .inl ⟨_, toOption_eq_some.mp hmanifest⟩⟩
    · cases hr
  · cases hr

/-! ## Lookups -/

theorem Lookup.parse_eq_some (hl : Lookup.parse crypto body = some l) : ∃ index,
    body = index ++ '\n' :: l.data ++ '\n' :: l.signedCheckpoint ∧ badNumber index = false ∧
      parseUnsigned index = some l.index ∧ l.data = l.record.toText ∧ l.record.Built crypto := by
  rw [Lookup.parse] at hl
  obtain ⟨⟨index, rest⟩, hindex, hl⟩ := Option.bind_eq_some_iff.mp hl
  dsimp only at hl
  split at hl
  · cases hl
  · next hbad =>
    obtain ⟨n, hn, hl⟩ := Option.bind_eq_some_iff.mp hl
    obtain ⟨⟨first, rest'⟩, hfirst, hl⟩ := Option.bind_eq_some_iff.mp hl
    obtain ⟨⟨second, rest''⟩, hsecond, hl⟩ := Option.bind_eq_some_iff.mp hl
    obtain ⟨note, hnote, hl⟩ := Option.bind_eq_some_iff.mp hl
    obtain ⟨record, hrecord, hl⟩ := Option.bind_eq_some_iff.mp hl
    cases hl
    obtain ⟨htext, hbuilt⟩ := Record.toText_of_parse hrecord
    refine ⟨index, ?_, by simpa using hbad, hn, htext.symm, hbuilt⟩
    have hbody : body = index ++ '\n' :: rest := splitOnce_some hindex
    have hrest : rest = first ++ '\n' :: rest' := splitOnce_some hfirst
    have hrest' : rest' = second ++ '\n' :: rest'' := splitOnce_some hsecond
    have hrest'' : rest'' = ['\n'] ++ note := stripPrefix_eq_some.mp hnote
    rw [hbody, hrest, hrest', hrest'']
    simp

/-- A built record between an index and a note parses to them. -/
theorem Lookup.parse_body (hstandard : crypto.Standard) (hr : r.Built crypto) {index : Nat} (hindex : index < 2 ^ 64)
    (note : Str) :
    Lookup.parse crypto (decimal index ++ '\n' :: r.toText ++ '\n' :: note) = some ⟨index, r, r.toText, note⟩ := by
  obtain ⟨⟨-, hline⟩, -, hline'⟩ := hr.lines hstandard
  have hdigits : '\n' ∉ decimal index := fun hmem => absurd (isDigit_of_mem_decimal hmem) (by decide)
  have hrecord := Record.parse_toText hstandard hr
  rw [Record.toText_eq] at hrecord ⊢
  generalize recordLine r.path.text r.version.raw r.tree = line at hline hrecord ⊢
  generalize recordLine r.path.text (r.version.raw ++ ['/'] ++ MANIFEST_FILE) r.manifest = line' at hline' hrecord ⊢
  have hbody : decimal index ++ '\n' :: (line ++ '\n' :: line' ++ ['\n']) ++ '\n' :: note =
      decimal index ++ '\n' :: (line ++ '\n' :: (line' ++ '\n' :: ('\n' :: note))) := by simp
  rw [hbody, Lookup.parse, splitOnce_append hdigits, Option.bind_eq_bind, Option.bind_some]
  dsimp only
  rw [badNumber_decimal, if_neg (by simp), parseUnsigned_decimal hindex, splitOnce_append hline, Option.bind_eq_bind,
    Option.bind_some, Option.bind_some]
  dsimp only
  rw [splitOnce_append hline', Option.bind_some]
  dsimp only
  have hdata : line ++ ['\n'] ++ line' ++ ['\n'] = line ++ '\n' :: line' ++ ['\n'] := by simp
  rw [hdata, hrecord]
  rfl

theorem Lookup.parse_toBody (hstandard : crypto.Standard) (hl : l.Built crypto) :
    l.data = l.record.toText ∧ Lookup.parse crypto l.toBody = some l := by
  obtain ⟨body, hbody⟩ := hl
  obtain ⟨index, -, -, hindex, hdata, hbuilt⟩ := Lookup.parse_eq_some hbody
  refine ⟨hdata, ?_⟩
  rw [Lookup.toBody, hdata, Lookup.parse_body hstandard hbuilt (parseUnsigned_lt hindex)]
  obtain ⟨n, record, data, note⟩ := l
  exact hdata ▸ rfl

theorem Lookup.toBody_of_parse (hl : Lookup.parse crypto body = some l) (hplus : body.head? ≠ some '+') :
    l.toBody = body := by
  obtain ⟨index, rfl, hbad, hindex, -, -⟩ := Lookup.parse_eq_some hl
  have hplus' : index.head? ≠ some '+' := by
    cases index with
    | nil => simp
    | cons c index => exact hplus
  rw [Lookup.toBody, ← (eq_decimal hbad hplus' hindex).1]

/-! ## Checkpoints -/

/-- The lines of a text that parses to a checkpoint. -/
theorem Checkpoint.parse_eq_ok : Checkpoint.parse crypto text = .ok c ↔ ∃ size root extensions,
    (c.origin ≠ [] ∧ badNumber size = false ∧ parseUnsigned size = some c.size ∧
      (crypto.decode root).bind toHash = some c.root) ∧
    ∃ body, text = body ++ ['\n'] ∧ body.splitOn '\n' = c.origin :: size :: root :: extensions := by
  rw [Checkpoint.parse]
  constructor
  · intro hc
    split at hc
    · next checkpoint hsome =>
      cases hc
      obtain ⟨body, hbody, hsome⟩ := Option.bind_eq_some_iff.mp hsome
      split at hsome
      · next origin size root extensions hlines =>
        split at hsome
        · cases hsome
        · next hbad =>
          rw [Bool.or_eq_true, not_or, Bool.not_eq_true, Bool.not_eq_true, List.isEmpty_eq_false_iff] at hbad
          obtain ⟨n, hn, hsome⟩ := Option.bind_eq_some_iff.mp hsome
          obtain ⟨hash, hhash, hsome⟩ := Option.bind_eq_some_iff.mp hsome
          cases hsome
          exact ⟨size, root, extensions, ⟨hbad.1, hbad.2, hn, hhash⟩, body, stripSuffix_eq_some.mp hbody, hlines⟩
      · cases hsome
    · cases hc
  · rintro ⟨size, root, extensions, ⟨horigin, hsize, hn, hhash⟩, body, rfl, hlines⟩
    rw [stripSuffix_append, Option.bind_eq_bind, Option.bind_some, hlines]
    dsimp only
    rw [hsize, List.isEmpty_eq_false_iff.mpr horigin, hn, hhash]
    rfl

/-- The origin of a checkpoint is a line, and its size fits. -/
theorem Checkpoint.Built.fields (hc : c.Built crypto) : c.origin ≠ [] ∧ '\n' ∉ c.origin ∧ c.size < 2 ^ 64 := by
  obtain ⟨text, htext⟩ := hc
  obtain ⟨size, root, extensions, ⟨horigin, -, hsize, -⟩, body, -, hlines⟩ := Checkpoint.parse_eq_ok.mp htext
  exact ⟨horigin, Split.notMem_part '\n' body c.origin (hlines ▸ List.mem_cons_self), parseUnsigned_lt hsize⟩

/-- The text of a checkpoint parses to it, whatever extensions are added. -/
theorem Checkpoint.parse_toText (hstandard : crypto.Standard) (hc : c.Built crypto) {extension : Str}
    (hextension : IsExtension extension) : Checkpoint.parse crypto (c.toText crypto ++ extension) = .ok c := by
  obtain ⟨horigin, hline, hsize⟩ := hc.fields
  have hdigits : '\n' ∉ decimal c.size := fun hmem => absurd (isDigit_of_mem_decimal hmem) (by decide)
  have hroot : '\n' ∉ crypto.encode c.root.toList := fun hmem =>
    absurd (hstandard.inAlphabet _ _ hmem) (by simp [Base64.InAlphabet])
  have hdecode : (crypto.decode (crypto.encode c.root.toList)).bind toHash = some c.root := by
    rw [(hstandard.decode_eq_some _ _).mpr rfl, Option.bind_some, toHash_toList]
  apply Checkpoint.parse_eq_ok.mpr
  rcases hextension with rfl | ⟨lines, rfl⟩
  · refine ⟨decimal c.size, crypto.encode c.root.toList, [],
      ⟨horigin, badNumber_decimal _, parseUnsigned_decimal hsize, hdecode⟩,
      c.origin ++ '\n' :: (decimal c.size ++ '\n' :: crypto.encode c.root.toList), by simp [Checkpoint.toText], ?_⟩
    rw [List.splitOn_append_cons_self_of_not_mem hline, List.splitOn_append_cons_self_of_not_mem hdigits,
      List.splitOn_eq_singleton hroot]
  · refine ⟨decimal c.size, crypto.encode c.root.toList, lines.splitOn '\n',
      ⟨horigin, badNumber_decimal _, parseUnsigned_decimal hsize, hdecode⟩,
      c.origin ++ '\n' :: (decimal c.size ++ '\n' :: (crypto.encode c.root.toList ++ '\n' :: lines)),
      by simp [Checkpoint.toText], ?_⟩
    rw [List.splitOn_append_cons_self_of_not_mem hline, List.splitOn_append_cons_self_of_not_mem hdigits,
      List.splitOn_append_cons_self_of_not_mem hroot]

/-- Only the text of a checkpoint with extensions parses to it. -/
theorem Checkpoint.toText_of_parse (hstandard : crypto.Standard) (hc : Checkpoint.parse crypto text = .ok c)
    (hunsigned : Unsigned text) : ∃ extension, IsExtension extension ∧ c.toText crypto ++ extension = text := by
  obtain ⟨size, root, extensions, ⟨-, hbad, hsize, hroot⟩, body, rfl, hlines⟩ := Checkpoint.parse_eq_ok.mp hc
  have hplus : size.head? ≠ some '+' := by
    apply hunsigned
    rw [List.splitOn_append_cons_self, hlines]
    rfl
  obtain ⟨bytes, hbytes, hhash⟩ := Option.bind_eq_some_iff.mp hroot
  have hbody : body = ['\n'].intercalate (c.origin :: size :: root :: extensions) := by
    rw [← hlines, List.intercalate_splitOn]
  rw [(hstandard.decode_eq_some _ _).mp hbytes, ← toList_of_toHash hhash, (eq_decimal hbad hplus hsize).1] at hbody
  cases extensions with
  | nil =>
    refine ⟨[], .inl rfl, ?_⟩
    rw [hbody, Split.intercalate_cons_cons, Split.intercalate_cons_cons]
    simp [Checkpoint.toText, List.intercalate]
  | cons line extensions =>
    refine ⟨['\n'].intercalate (line :: extensions) ++ ['\n'], .inr ⟨_, rfl⟩, ?_⟩
    rw [hbody, Split.intercalate_cons_cons, Split.intercalate_cons_cons, Split.intercalate_cons_cons]
    simp [Checkpoint.toText]

/-! ## Canonical texts -/

/-- What is built has a text that parses to it, and what is parsed has the text it was parsed from, but that a
checkpoint's text may go on with lines that are ignored. -/
theorem texts_canonical (hstandard : crypto.Standard) :
    (∀ r : Record, r.Built crypto → Record.parse crypto r.toText = some r) ∧
    (∀ text (r : Record), Record.parse crypto text = some r → r.toText = text) ∧
    (∀ l : Lookup, l.Built crypto → l.data = l.record.toText ∧ Lookup.parse crypto l.toBody = some l) ∧
    (∀ body (l : Lookup), Lookup.parse crypto body = some l → body.head? ≠ some '+' → l.toBody = body) ∧
    (∀ c : Checkpoint, c.Built crypto → ∀ extension, IsExtension extension →
      Checkpoint.parse crypto (c.toText crypto ++ extension) = .ok c) ∧
    ∀ text (c : Checkpoint), Checkpoint.parse crypto text = .ok c → Unsigned text →
      ∃ extension, IsExtension extension ∧ c.toText crypto ++ extension = text := by
  refine ⟨fun r => Record.parse_toText hstandard, fun text r hr => (Record.toText_of_parse hr).1,
    fun l => Lookup.parse_toBody hstandard, fun body l => Lookup.toBody_of_parse,
    fun c hc extension => Checkpoint.parse_toText hstandard hc, fun text c => Checkpoint.toText_of_parse hstandard⟩

namespace Example

/-- Base64, and no hashes or signatures. -/
def base64 : Crypto where
  sha256 _ := Vector.replicate 32 0
  encode := Base64.encode
  decode := Base64.decode
  verifyStrict _ _ _ := false

theorem standard_base64 : base64.Standard where
  decode_eq_some _ _ := Base64.decode_eq_some
  inAlphabet := Base64.mem_encode
  length_encode := Base64.length_encode
  padded := Base64.getLast?_encode

/-- The text of 32 zero bytes. -/
def zeros : Str := "AAAAAAAAAAAAAAAAAAAAAAAAAAAAAAAAAAAAAAAAAAA=".toList

theorem decode_zeros : base64.decode zeros = some (Vector.replicate 32 0).toList := by
  apply (standard_base64.decode_eq_some _ _).mpr
  decide

def zeroHash : H1 := ⟨"h1:".toList ++ zeros⟩

def zeroRecord : Record := ⟨path, version, zeroHash, zeroHash⟩

theorem built_zeroHash : zeroHash.Built base64 := by
  have hzeros : zeros = _ := String.toList_ofList
  refine .inl ⟨zeroHash.text, H1.parse_eq_ok.mpr ⟨rfl, zeros, _, rfl, ?_, ?_, decode_zeros, rfl⟩⟩
  · rw [hzeros]
    decide
  · rw [hzeros]
    decide

theorem built_zeroRecord : zeroRecord.Built base64 where
  path := ⟨path.text, by rfl⟩
  tree := built_zeroHash
  manifest := built_zeroHash

theorem texts_canonical_zeroRecord : Record.parse base64 zeroRecord.toText = some zeroRecord :=
  (texts_canonical standard_base64).1 zeroRecord built_zeroRecord

def emptyTreeCheckpoint : Checkpoint := ⟨"db".toList, 0, Vector.replicate 32 0⟩

theorem built_emptyTreeCheckpoint : emptyTreeCheckpoint.Built base64 := by
  refine ⟨"db\n0\n".toList ++ zeros ++ ['\n'], Checkpoint.parse_eq_ok.mpr ⟨['0'], zeros, [], ⟨by decide, rfl, rfl, ?_⟩,
    "db\n0\n".toList ++ zeros, rfl, by decide⟩⟩
  rw [decode_zeros, Option.bind_some, toHash_toList]
  rfl

/-- The line `note` after the root is not in the text of the checkpoint. -/
theorem not_toText_extension :
    ¬∀ text (c : Checkpoint), Checkpoint.parse base64 text = .ok c → c.toText base64 = text := by
  intro h
  have hparse := Checkpoint.parse_toText standard_base64 built_emptyTreeCheckpoint (.inr ⟨"note".toList, rfl⟩)
  have hsame := h _ _ hparse
  rw [List.self_eq_append_right] at hsame
  cases hsame

end Example

end Emela.Pome
