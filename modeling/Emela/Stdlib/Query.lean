import Emela.Stdlib.Lemmas.Percent

/-!
# Queries and targets

A query that is encoded is decoded to its pairs. What is split off a text that percent-decodes does so too.
-/

namespace Emela.Stdlib

open Strings Request

variable {s name value : Str} {c : Char}

/-! ## Encoding -/

/-- The characters of a percent-encoded text. -/
def Safe (c : Char) : Prop := c ≠ '&' ∧ c ≠ '=' ∧ c ≠ '+'

instance : DecidablePred Safe := fun _ => inferInstanceAs (Decidable (_ ∧ _))

/-- The byte `n` as itself or as an escape. -/
def Written (n : Nat) : Str → Prop
  | [c] => c = Char.ofNat n ∧ n < 0x80 ∧ c ≠ '%'
  | [percent, hi, lo] => percent = '%' ∧ hexNat hi = some (n / 16) ∧ hexNat lo = some (n % 16)
  | _ => False

instance (n : Nat) : DecidablePred (Written n)
  | [_] => inferInstanceAs (Decidable (_ ∧ _ ∧ _))
  | [_, _, _] => inferInstanceAs (Decidable (_ ∧ _ ∧ _))
  | [] | [_, _] | _ :: _ :: _ :: _ :: _ => inferInstanceAs (Decidable False)

theorem percentEncodeByte_spec : ∀ n < 256,
    (∀ c ∈ percentEncodeByte (Int32.ofNat n), Safe c) ∧ Written n (percentEncodeByte (Int32.ofNat n)) := by
  have all : ∀ n < 256, (percentEncodeByte (Int32.ofNat n)).all (fun c => decide (Safe c)) = true ∧
      Written n (percentEncodeByte (Int32.ofNat n)) := by
    decide +kernel
  intro n hn
  obtain ⟨hsafe, hwritten⟩ := all n hn
  exact ⟨fun c hc => of_decide_eq_true (List.all_eq_true.mp hsafe c hc), hwritten⟩

theorem unescape_written {n : Nat} (hn : n < 256) {t : Str} (h : Written n t) (rest : Str) :
    unescape (t ++ rest) = (unescape rest).map (UInt8.ofNat n :: ·) := by
  match t, h with
  | [c], ⟨hc, hascii, hne⟩ =>
    have hall : ∀ n < 0x80, (Char.ofNat n).toNat = n := by decide
    have hvalue : c.toNat = n := by rw [hc, hall n hascii]
    rw [List.singleton_append, unescape_cons hne, encode_ascii (by omega), hvalue]
    rfl
  | [percent, hi, lo], ⟨hpercent, hhi, hlo⟩ =>
    have hvalue : n / 16 * 16 + n % 16 = n := by omega
    rw [hpercent, List.cons_append, List.cons_append, List.singleton_append, unescape, if_pos rfl, hhi, hlo,
      Option.bind_some, Option.bind_some, hvalue]

theorem percentEncode_eq (s : Str) :
    percentEncode s = (utf8 s).flatMap fun b => percentEncodeByte (Int32.ofNat b.toNat) := by
  have hbytes : (codePoints s).flatMap utf8Bytes = (utf8 s).map byte := by
    rw [codePoints, List.flatMap_map, utf8, List.map_flatMap]
    exact congrArg (s.flatMap ·) (funext utf8Bytes_eq)
  rw [percentEncode, Lists.flatMap_eq, Lists.map_eq, join_nil, hbytes, List.map_map, ← List.flatMap_def]
  rfl

theorem safe_percentEncode (s : Str) : ∀ c ∈ percentEncode s, Safe c := by
  rw [percentEncode_eq]
  intro c hc
  obtain ⟨b, -, hb⟩ := List.mem_flatMap.mp hc
  exact (percentEncodeByte_spec b.toNat b.toNat_lt).1 c hb

theorem unescape_percentEncode (s : Str) : unescape (percentEncode s) = some (utf8 s) := by
  rw [percentEncode_eq]
  induction utf8 s with
  | nil => rfl
  | cons b bs ih =>
    rw [List.flatMap_cons, unescape_written b.toNat_lt (percentEncodeByte_spec b.toNat b.toNat_lt).2, ih, Option.map_some,
      UInt8.ofNat_toNat]

theorem percentDecode_percentEncode (s : Str) : percentDecode (percentEncode s) = some s := by
  rw [percentDecode_eq, unescape_percentEncode, Option.bind_some, fromUtf8_utf8, Option.map_some, concat_eq,
    List.reverse_nil, List.nil_append, ← List.flatMap_def, List.flatMap_singleton']

theorem plusAsSpace_of_notMem (h : '+' ∉ s) : plusAsSpace s = s := by
  have hsplit : split s ['+'] = s.splitOn '+' := Search.split_singleton '+' s
  rw [plusAsSpace, hsplit, List.splitOn_eq_singleton h]
  simp [join, List.intercalate]

theorem decodePair_percentEncode (name value : Str) :
    decodePair (percentEncode name) (percentEncode value) = some (name, value) := by
  have hplus : ∀ s, '+' ∉ percentEncode s := fun s h => (safe_percentEncode s _ h).2.2 rfl
  rw [decodePair, plusAsSpace_of_notMem (hplus name), plusAsSpace_of_notMem (hplus value), percentDecode_percentEncode,
    percentDecode_percentEncode]
  rfl

/-! ## Pairs -/

theorem split_eq (c : Char) (s : Str) : split s [c] = s.splitOn c := Search.split_singleton c s

theorem rawPair_append (h : '=' ∉ name) (value : Str) : rawPair (name ++ '=' :: value) = (name, value) := by
  rw [rawPair, split_eq, List.splitOn_append_cons_self_of_not_mem h]
  obtain ⟨part, parts, hparts⟩ := List.exists_cons_of_ne_nil (List.splitOn_ne_nil '=' value)
  have hvalue : ['='].intercalate (value.splitOn '=') = value := List.intercalate_splitOn '='
  rw [hparts] at hvalue ⊢
  exact congrArg (name, ·) hvalue

theorem mapOnto_map {A B : Type} {f : A → Except ParseError B} {encode : B → A} (h : ∀ y, f (encode y) = .ok y)
    (ys acc : List B) : mapOnto (ys.map encode) f acc = .ok (acc.reverse ++ ys) := by
  induction ys generalizing acc with
  | nil => simp [mapOnto]
  | cons y ys ih =>
    rw [List.map_cons, mapOnto, h y]
    refine (ih (y :: acc)).trans ?_
    simp

/-- The text of a pair. -/
def pairText (pair : Str × Str) : Str := percentEncode pair.1 ++ '=' :: percentEncode pair.2

theorem encodeQuery_eq (pairs : List (Str × Str)) : encodeQuery pairs = ['&'].intercalate (pairs.map pairText) := by
  rw [encodeQuery, Lists.map_eq, join]
  congr 2
  funext pair
  simp [pairText]

theorem amp_notMem_pairText (pair : Str × Str) : '&' ∉ pairText pair := by
  have hamp : ∀ s, '&' ∉ percentEncode s := fun s h => (safe_percentEncode s _ h).1 rfl
  simp [pairText, hamp]

theorem rawPair_pairText (pair : Str × Str) :
    rawPair (pairText pair) = (percentEncode pair.1, percentEncode pair.2) :=
  rawPair_append (fun h => (safe_percentEncode pair.1 _ h).2.1 rfl) _

theorem queryPairs_encodeQuery (pairs : List (Str × Str)) :
    queryPairs (encodeQuery pairs) = pairs.map fun pair => (percentEncode pair.1, percentEncode pair.2) := by
  rw [encodeQuery_eq, queryPairs]
  cases pairs with
  | nil => rfl
  | cons pair pairs =>
    have hsplit : split (['&'].intercalate ((pair :: pairs).map pairText)) ['&'] = (pair :: pairs).map pairText := by
      rw [split_eq]
      apply List.splitOn_intercalate
      · intro text htext
        obtain ⟨pair, -, rfl⟩ := List.mem_map.mp htext
        exact amp_notMem_pairText pair
      · simp
    have hne : ['&'].intercalate ((pair :: pairs).map pairText) ≠ [] := by
      intro h
      rw [h] at hsplit
      have hpair := (List.cons.inj hsplit).1
      simp [pairText] at hpair
    rw [if_neg hne, hsplit, Lists.map_eq, List.map_map]
    exact List.map_congr_left fun pair _ => rawPair_pairText pair

/-- Every list of pairs is read back from its query string. -/
theorem decodeQuery_encodeQuery (pairs : List (Str × Str)) : decodeQuery (encodeQuery pairs) = .ok pairs := by
  rw [decodeQuery, queryPairs_encodeQuery]
  apply mapOnto_map
  rintro ⟨name, value⟩
  dsimp only
  rw [decodePair_percentEncode]
  rfl

/-! ## Decoding -/

theorem mapOnto_isOk {A B : Type} {xs : List A} {f : A → Except ParseError B} {acc : List B} :
    (∃ ys, mapOnto xs f acc = .ok ys) ↔ ∀ x ∈ xs, ∃ y, f x = .ok y := by
  induction xs generalizing acc with
  | nil => simp [mapOnto]
  | cons x xs ih =>
    rw [mapOnto, List.forall_mem_cons]
    cases hx : f x with
    | error e => exact iff_of_false (fun ⟨_, h⟩ => by cases h) fun ⟨⟨_, h⟩, _⟩ => by cases h
    | ok y =>
      rw [and_iff_right ⟨y, rfl⟩]
      exact ih

theorem decodes_nil : Decodes [] := ⟨[], rfl, .nil⟩

theorem isSeparator_amp : IsSeparator '&' := ⟨by decide, by decide, by decide⟩

theorem isSeparator_equals : IsSeparator '=' := ⟨by decide, by decide, by decide⟩

theorem isSeparator_plus : IsSeparator '+' := ⟨by decide, by decide, by decide⟩

theorem isSeparator_space : IsSeparator ' ' := ⟨by decide, by decide, by decide⟩

theorem isSeparator_slash : IsSeparator '/' := ⟨by decide, by decide, by decide⟩

theorem decodes_plusAsSpace (s : Str) : Decodes (plusAsSpace s) ↔ Decodes s := by
  rw [decodes_split isSeparator_plus s]
  refine decodes_intercalate isSeparator_space ?_
  rw [split_eq]
  exact List.splitOn_ne_nil '+' s

theorem decodePair_isSome (name value : Str) : (decodePair name value).isSome ↔ Decodes name ∧ Decodes value := by
  rw [← decodes_plusAsSpace name, ← decodes_plusAsSpace value, ← percentDecode_isSome, ← percentDecode_isSome, decodePair]
  cases percentDecode (plusAsSpace name) <;> cases percentDecode (plusAsSpace value) <;> simp

theorem decodes_rawPair (pair : Str) : Decodes (rawPair pair).1 ∧ Decodes (rawPair pair).2 ↔ Decodes pair := by
  rw [decodes_split isSeparator_equals pair, rawPair]
  cases hparts : split pair ['='] with
  | nil => simp [decodes_nil]
  | cons name rest =>
    cases rest with
    | nil => simp [decodes_nil]
    | cons value rest =>
      have hjoin := decodes_intercalate isSeparator_equals (List.cons_ne_nil value rest)
      exact (and_congr_right' hjoin).trans List.forall_mem_cons.symm

theorem decodes_queryPairs (s : Str) : (∀ pair ∈ queryPairs s, Decodes pair.1 ∧ Decodes pair.2) ↔ Decodes s := by
  rw [queryPairs]
  split
  · next hempty =>
    rw [hempty]
    exact iff_of_true (by simp) decodes_nil
  · rw [Lists.map_eq, List.forall_mem_map, decodes_split isSeparator_amp]
    exact forall₂_congr fun pair _ => decodes_rawPair pair

theorem decodeQuery_isOk (s : Str) : (∃ pairs, decodeQuery s = .ok pairs) ↔ Decodes s := by
  rw [decodeQuery, mapOnto_isOk, ← decodes_queryPairs]
  refine forall₂_congr fun ⟨name, value⟩ _ => ?_
  rw [← decodePair_isSome]
  dsimp only
  cases decodePair name value with
  | none => exact iff_of_false (fun ⟨_, h⟩ => by cases h) (by simp)
  | some pair => exact iff_of_true ⟨pair, rfl⟩ rfl

/-! ## Targets -/

/-- The text after the first `?`. -/
def afterMark (s : Str) : Str := join (Lists.drop (split s ['?']) 1) ['?']

theorem afterMark_append {before : Str} (h : '?' ∉ before) (s : Str) : afterMark (before ++ s) = afterMark s := by
  have hsplit : (before ++ s).splitOn '?' = (s.splitOn '?').modifyHead (before ++ ·) := by
    induction before with
    | nil =>
      rw [List.nil_append]
      cases s.splitOn '?' <;> rfl
    | cons c before ih =>
      rw [List.mem_cons, not_or] at h
      rw [List.cons_append, List.splitOn_cons_eq_if_modifyHead, ih h.2, if_neg (by simp [Ne.symm h.1])]
      simp [Function.comp_def]
  rw [afterMark, afterMark, split_eq, split_eq, hsplit]
  cases hs : s.splitOn '?' <;> rfl

theorem drop_one {A : Type} (x : A) (xs : List A) : Lists.drop (x :: xs) 1 = xs := by
  rw [Lists.drop, if_neg (by decide)]
  cases xs <;> rfl

theorem splitTarget_snd (url : Str) : (splitTarget url).2 = afterMark (targetOf url) := by
  rw [splitTarget, afterMark]
  cases split (targetOf url) ['?'] with
  | nil => rfl
  | cons path parts =>
    rw [drop_one]
    cases parts <;> rfl

theorem findIndexFrom_eq_some {A : Type} {xs : List A} {f : A → Bool} {index i : Int32}
    (h : Lists.findIndexFrom xs f index = some i) :
    ∃ k, i = index + Int32.ofNat k ∧ ∀ x ∈ xs.take k, f x = false := by
  induction xs generalizing index with
  | nil => cases h
  | cons x xs ih =>
    rw [Lists.findIndexFrom] at h
    split at h
    · cases h
      exact ⟨0, (Int32.add_zero _).symm, by simp⟩
    · next hx =>
      obtain ⟨k, rfl, hk⟩ := ih h
      refine ⟨k + 1, ?_, ?_⟩
      · rw [Int32.ofNat_add, Int32.add_assoc, Int32.add_comm (Int32.ofNat k)]
        rfl
      · rw [List.take_succ_cons]
        exact List.forall_mem_cons.mpr ⟨by simpa using hx, hk⟩

theorem findIndexFrom_eq_none {A : Type} {xs : List A} {f : A → Bool} {index : Int32}
    (h : Lists.findIndexFrom xs f index = none) : ∀ x ∈ xs, f x = false := by
  induction xs generalizing index with
  | nil => simp
  | cons x xs ih =>
    rw [Lists.findIndexFrom] at h
    split at h
    · cases h
    · next hx => exact List.forall_mem_cons.mpr ⟨by simpa using hx, ih h⟩

theorem toNatClampNeg_ofNat_le (k : Nat) : (Int32.ofNat k).toNatClampNeg ≤ k := by
  rw [Int32.toNatClampNeg, Int32.toInt_ofNat']
  have hle : (k : Int).bmod Int32.size ≤ k := by
    rw [show Int32.size = 4294967296 from rfl, Int.bmod_def]
    omega
  omega

theorem fromCodePoints_codePoints (s : Str) : fromCodePoints (codePoints s) = s := by
  have hone : ∀ c : Char, fromCodePoint (Int32.ofNat c.toNat) = some [c] := by
    intro c
    have hc := toNat_lt c
    have hpos : 0 ≤ Int32.ofNat c.toNat := (Int32.ofNat_le_iff_le (by decide) (by omega)).mpr (Nat.zero_le _)
    rw [fromCodePoint, Int32.toNatClampNeg_ofNat_of_lt (by omega), if_pos ⟨hpos, c.valid⟩, Char.ofNat_toNat]
  rw [fromCodePoints, Lists.filterMap_eq, join_nil, codePoints, List.filterMap_map]
  induction s with
  | nil => rfl
  | cons c s ih =>
    rw [List.filterMap_cons, Function.comp_apply, hone, List.flatten_cons, ih]
    rfl

/-- An authority has no `?`, also when the index after it wraps around. -/
theorem afterAuthority_spec (s : Str) : ∃ before, s = before ++ afterAuthority s ∧ '?' ∉ before := by
  have hmark : ∀ part : Str, (∀ c ∈ codePoints part, (c == 0x2F || c == 0x3F) = false) → '?' ∉ part := by
    intro part hpart hmem
    have hfalse := hpart _ (List.mem_map_of_mem hmem)
    cases hfalse
  rw [afterAuthority]
  cases hfind : Lists.findIndex (codePoints s) fun c => c == 0x2F || c == 0x3F with
  | none => exact ⟨s, (List.append_nil s).symm, hmark s (findIndexFrom_eq_none hfind)⟩
  | some i =>
    obtain ⟨k, hk, hnot⟩ := findIndexFrom_eq_some hfind
    rw [Int32.zero_add] at hk
    obtain ⟨k', hk', hdrop⟩ := Lists.drop_eq (codePoints s) i
    have hle : k' ≤ k := Nat.le_trans hk' (hk ▸ toNatClampNeg_ofNat_le k)
    dsimp only
    rw [hdrop, codePoints, ← List.map_drop, ← codePoints, fromCodePoints_codePoints]
    refine ⟨s.take k', (List.take_append_drop k' s).symm, hmark _ fun c hc => hnot c ?_⟩
    rw [codePoints, List.map_take] at hc
    exact List.take_subset_take_left _ hle hc

/-- Neither the scheme nor the authority has a `?`. -/
theorem targetOf_spec (url : Str) : ∃ before, url = before ++ targetOf url ∧ '?' ∉ before := by
  have hself : ∃ before, url = before ++ url ∧ '?' ∉ before := ⟨[], rfl, List.not_mem_nil⟩
  rw [targetOf]
  split
  · next scheme first rest hparts =>
    split
    · next hscheme =>
      rw [Bool.and_eq_true, Bool.and_eq_true, Bool.not_eq_true', Bool.not_eq_true'] at hscheme
      have hmark : '?' ∉ scheme := by
        rw [← Search.contains_singleton, Bool.not_eq_true]
        exact hscheme.2
      have hurl : url = scheme ++ ("://".toList ++ join (first :: rest) "://".toList) := by
        have hjoin : "://".toList.intercalate (split url "://".toList) = url := Search.intercalate_split (by decide) url
        rw [hparts] at hjoin
        exact hjoin.symm
      obtain ⟨before, hrest, hbefore⟩ := afterAuthority_spec (join (first :: rest) "://".toList)
      refine ⟨scheme ++ ("://".toList ++ before), ?_, ?_⟩
      · rw [List.append_assoc, List.append_assoc, ← hrest]
        exact hurl
      · simp [hmark, hbefore]
    · exact hself
  · exact hself

/-- The query of a URL is what is after its first `?`. -/
theorem splitTarget_query (url : Str) : (splitTarget url).2 = afterMark url := by
  obtain ⟨before, hurl, hbefore⟩ := targetOf_spec url
  rw [splitTarget_snd]
  conv_rhs => rw [hurl, afterMark_append hbefore]

theorem decodes_eq_true (s : Str) : Request.decodes s = true ↔ Decodes s := by
  rw [← decodeQuery_isOk, Request.decodes]
  cases decodeQuery s with
  | ok pairs => exact iff_of_true rfl ⟨pairs, rfl⟩
  | error e => exact iff_of_false (by simp) fun ⟨_, h⟩ => by cases h

/-- A target is well formed when its path and its query decode. -/
theorem wellFormed_iff (req : Request) : req.wellFormed = true ↔ Decodes req.path ∧ Decodes (splitTarget req.url).2 := by
  rw [Request.wellFormed, Bool.and_eq_true, decodes_eq_true, splitTarget_query]
  exact and_congr_right' (decodes_eq_true _)

/-- A query decodes when the whole text does, the segments of a path do when the path does, and what a server takes
from a well-formed target decodes. -/
theorem decodes_parts :
    (∀ s, (∃ pairs, decodeQuery s = .ok pairs) ↔ (percentDecode s).isSome) ∧
    (∀ path : Str, (∀ segment ∈ split path ['/'], (percentDecode segment).isSome) ↔ (percentDecode path).isSome) ∧
    ∀ req : Request, req.wellFormed = true →
      (∀ segment ∈ split req.path ['/'], (percentDecode segment).isSome) ∧
        ∀ pair ∈ queryPairs (splitTarget req.url).2, (decodePair pair.1 pair.2).isSome := by
  have hsegments : ∀ path : Str, (∀ segment ∈ split path ['/'], (percentDecode segment).isSome) ↔ Decodes path := by
    intro path
    rw [decodes_split isSeparator_slash path]
    exact forall₂_congr fun segment _ => percentDecode_isSome segment
  refine ⟨fun s => ?_, fun path => ?_, fun req hwf => ?_⟩
  · rw [decodeQuery_isOk, percentDecode_isSome]
  · rw [hsegments, percentDecode_isSome]
  · obtain ⟨hpath, hquery⟩ := (wellFormed_iff req).mp hwf
    refine ⟨(hsegments req.path).mpr hpath, fun pair hpair => ?_⟩
    rw [decodePair_isSome]
    exact (decodes_queryPairs _).mpr hquery pair hpair

end Emela.Stdlib
