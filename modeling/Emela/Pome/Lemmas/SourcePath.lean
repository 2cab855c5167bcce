import Emela.Lib.Search
import Emela.Pome.Semver
import Emela.Pome.SourcePath

/-!
# What source paths and tags are made of

A source path has only letters, digits and `.`, `_`, `-`, `/`. A path is its location and its major suffix, and a
location is its repository and its directory.
-/

namespace Emela.Pome

/-! ## Text -/

theorem stripPrefix_append (p s : Str) : stripPrefix p (p ++ s) = some s := by
  induction p with
  | nil => rfl
  | cons c p ih => simpa [stripPrefix] using ih

theorem stripPrefix_eq_some {p s rest : Str} : stripPrefix p s = some rest ↔ s = p ++ rest := by
  constructor
  · intro h
    induction p generalizing s with
    | nil => simpa [stripPrefix] using h
    | cons c p ih =>
      cases s with
      | nil => cases h
      | cons d s =>
        rw [stripPrefix, Option.ite_none_right_eq_some] at h
        obtain ⟨rfl, h⟩ := h
        rw [ih h, List.cons_append]
  · rintro rfl
    exact stripPrefix_append p rest

theorem rsplitOnce_some {sep : Char} {s before after : Str} (h : rsplitOnce sep s = some (before, after)) :
    s = before ++ sep :: after := by
  obtain ⟨⟨x, y⟩, hsplit, heq⟩ := Option.map_eq_some_iff.mp h
  rw [Prod.mk.injEq] at heq
  have := congrArg List.reverse (splitOnce_some hsplit)
  rw [List.reverse_reverse, List.reverse_append, List.reverse_cons, heq.1, heq.2] at this
  rw [this, List.append_assoc, List.singleton_append]

/-- What follows the last slash is told by the text. -/
theorem append_slash_inj {a b s t : Str} (hs : '/' ∉ s) (ht : '/' ∉ t) (h : a ++ '/' :: s = b ++ '/' :: t) :
    a = b ∧ s = t := by
  induction a generalizing b with
  | nil =>
    cases b with
    | nil => exact ⟨rfl, by simpa using h⟩
    | cons c b =>
      simp only [List.nil_append, List.cons_append, List.cons.injEq] at h
      exact absurd (h.2 ▸ by simp) hs
  | cons c a ih =>
    cases b with
    | nil =>
      simp only [List.nil_append, List.cons_append, List.cons.injEq] at h
      exact absurd (h.2 ▸ by simp) ht
    | cons d b =>
      simp only [List.cons_append, List.cons.injEq] at h
      obtain ⟨rfl, rfl⟩ := ih h.2
      exact ⟨by rw [h.1], rfl⟩

/-! ## Versions -/

theorem Version.parse_eq_ok {s : Str} {v : Version} : Version.parse s = .ok v ↔ s = v.raw := by
  unfold Version.parse
  constructor
  · intro h
    split at h
    · cases h
      rfl
    · cases h
  · rintro rfl
    split
    · next parts h =>
      have := v.parsed.symm.trans h
      obtain rfl := Option.some.inj this
      rfl
    · next h => cases v.parsed.symm.trans h

/-- The characters of the tag of a version. -/
theorem Version.chars {v : Version} {c : Char} (h : c ∈ v.raw) : c.isAlphanum = true ∨ c = '.' ∨ c = '-' := by
  have hdigits : ∀ {s : Str} {n : Nat}, Precedence.num s = some n → c ∈ s → c.isAlphanum = true := by
    intro s n hn hc
    rw [Precedence.num, Option.ite_none_right_eq_some] at hn
    have := (digits_of_isNumeric hn.1).1 c hc
    simp [Char.isAlphanum, this]
  obtain ⟨x, y, z, hx, hy, hz, hraw⟩ := written_of_parse v.parsed
  rw [hraw, List.mem_cons, List.mem_append] at h
  rcases h with rfl | h | h
  · exact .inl rfl
  · rcases Split.mem_intercalate h with rfl | ⟨part, hpart, hc⟩
    · exact .inr (.inl rfl)
    · simp only [List.mem_cons, List.not_mem_nil, or_false] at hpart
      rcases hpart with rfl | rfl | rfl
      · exact .inl (hdigits hx hc)
      · exact .inl (hdigits hy hc)
      · exact .inl (hdigits hz hc)
  · cases hpre : v.prerelease with
    | nil =>
      rw [hpre] at h
      cases h
    | cons id ids =>
      rw [hpre, writtenPrerelease, List.mem_cons] at h
      rcases h with rfl | h
      · exact .inr (.inr rfl)
      · rcases Split.mem_intercalate h with rfl | ⟨part, hpart, hc⟩
        · exact .inr (.inl rfl)
        · rcases Version.isId part (hpre ▸ hpart) with hn | ha
          · exact .inl (by simp [Char.isAlphanum, (digits_of_isNumeric hn).1 c hc])
          · simp only [isAlphanumericId, Bool.and_eq_true, List.all_eq_true, Bool.or_eq_true, beq_iff_eq] at ha
            exact (ha.1.2 c hc).imp_right .inr

/-- A tag of a version has no slash. -/
theorem Version.slash_notMem (v : Version) : '/' ∉ v.raw := by
  intro h
  rcases Version.chars h with h | h | h
  · exact absurd h (by decide)
  · exact absurd h (by decide)
  · exact absurd h (by decide)

/-! ## Source paths -/

namespace SourcePath

/-- What `SourcePath::parse` accepts, as far as names are concerned. -/
structure Valid (input : Str) : Prop where
  host : isHost ((input.splitOn '/').headD []) = true
  elements : ∀ e ∈ (input.splitOn '/').tail, isElement e = true
  major : ∀ d, majorDigits input = some d → d.head? ≠ some '0' ∧ ∃ n, parseU64 d = some n ∧ 2 ≤ n

theorem text_of_parse {input : Str} {path : SourcePath} (h : parse input = .ok path) : path = ⟨input⟩ := by
  simp only [parse] at h
  repeat' split at h
  all_goals cases h
  all_goals rfl

theorem valid_of_parse {input : Str} {path : SourcePath} (h : parse input = .ok path) : Valid input := by
  simp only [parse] at h
  split at h
  · cases h
  split at h
  · cases h
  next hhost =>
  split at h
  · cases h
  split at h
  · cases h
  next hall =>
  split at h
  · cases h
  refine ⟨by simpa using hhost, by simpa using hall, fun d hd => ?_⟩
  rw [hd] at h
  dsimp only at h
  split at h
  · cases h
  next hnum =>
  simp only [Bool.or_eq_true, beq_iff_eq, not_or, Bool.not_eq_true, Option.all_eq_false, decide_eq_false_iff_not,
    Nat.not_lt] at hnum
  obtain ⟨hzero, n, hn, hle⟩ := hnum
  exact ⟨hzero, n, hn, hle⟩

/-- The characters of a source path. -/
theorem Valid.chars {input : Str} (h : Valid input) {c : Char} (hc : c ∈ input) :
    c.isAlphanum = true ∨ c = '.' ∨ c = '_' ∨ c = '-' ∨ c = '/' := by
  rcases @Split.mem_splitOn _ _ '/' _ _ hc with rfl | ⟨part, hpart, hc⟩
  · simp
  cases hparts : input.splitOn '/' with
  | nil => exact absurd hparts (List.splitOn_ne_nil _ _)
  | cons host rest =>
    have hhost := h.host
    have helements := h.elements
    rw [hparts] at hhost helements hpart
    rcases List.mem_cons.mp hpart with rfl | hpart
    · rcases @Split.mem_splitOn _ _ '.' _ _ hc with rfl | ⟨label, hlabel, hc⟩
      · simp
      simp only [isHost, List.headD_cons, Bool.and_eq_true, List.all_eq_true, Bool.or_eq_true, beq_iff_eq] at hhost
      have := (hhost.2 label hlabel).2 c hc
      rcases this with (h | h) | h
      · exact .inl (by simp [Char.isAlphanum, Char.isAlpha, h])
      · exact .inl (by simp [Char.isAlphanum, h])
      · exact .inr (.inr (.inr (.inl h)))
    · have := helements part hpart
      simp only [isElement, Bool.and_eq_true, List.all_eq_true, Bool.or_eq_true, beq_iff_eq] at this
      rcases this.2 c hc with ((h | h) | h) | h
      · exact .inl h
      · exact .inr (.inl h)
      · exact .inr (.inr (.inl h))
      · exact .inr (.inr (.inr (.inl h)))

/-! ## Places -/

theorem majorDigits_eq_some {s d : Str} (h : majorDigits s = some d) :
    (∃ before, s = before ++ '/' :: 'v' :: d) ∧ d ≠ [] ∧ ∀ c ∈ d, c.isDigit := by
  obtain ⟨⟨before, last⟩, hsplit, h⟩ := Option.bind_eq_some_iff.mp h
  obtain ⟨digits, hdigits, h⟩ := Option.bind_eq_some_iff.mp h
  simp only [Bool.and_eq_true, Bool.not_eq_true', List.isEmpty_eq_false_iff, List.all_eq_true,
    Option.ite_none_right_eq_some, Option.some.injEq] at h
  obtain ⟨⟨hne, hall⟩, rfl⟩ := h
  refine ⟨⟨before, ?_⟩, hne, hall⟩
  rw [rsplitOnce_some hsplit, stripPrefix_eq_some.mp hdigits, List.singleton_append]

/-- A path is its location and its major suffix. -/
theorem text_eq (path : SourcePath) :
    path.text = path.location ++ ((majorDigits path.text).map ("/v".toList ++ ·)).getD [] := by
  cases hd : majorDigits path.text with
  | none => simp [location, hd]
  | some d =>
    obtain ⟨⟨before, hbefore⟩, -⟩ := majorDigits_eq_some hd
    have hlen : path.text.length - d.length - 2 = before.length := by
      rw [hbefore]
      simp only [List.length_append, List.length_cons]
      omega
    have hloc : path.location = before := by
      simp only [location, hd]
      rw [hlen, hbefore, List.take_left]
    rw [hloc]
    exact hbefore

theorem getElem?_of_mem_indicesOf {c : Char} {s : Str} {i : Nat} (h : i ∈ indicesOf c s) : s[i]? = some c := by
  obtain ⟨⟨d, j⟩, hmem, h⟩ := List.mem_filterMap.mp h
  rw [Option.ite_none_right_eq_some, Option.some.injEq] at h
  obtain ⟨rfl, rfl⟩ := h
  exact List.mem_zipIdx_iff_getElem?.mp hmem

/-- The repository is the whole location, or ends at a slash of it. -/
theorem repository_cases (path : SourcePath) :
    path.repository = path.location ∨ ∃ dir, path.location = path.repository ++ '/' :: dir := by
  unfold repository
  split
  · exact .inl rfl
  · split
    · next i hi =>
      have hslash := getElem?_of_mem_indicesOf (List.mem_of_getElem? hi)
      obtain ⟨hlt, hget⟩ := List.getElem?_eq_some_iff.mp hslash
      refine .inr ⟨path.location.drop (i + 1), ?_⟩
      rw [← hget, List.getElem_cons_drop, List.take_append_drop]
    · exact .inl rfl

/-- A location is its repository and its directory. -/
theorem location_eq (path : SourcePath) :
    path.location = path.repository ++ (path.directory.map ('/' :: ·)).getD [] := by
  rcases path.repository_cases with h | ⟨dir, h⟩
  · have hdir : path.directory = none := by
      have hself : stripPrefix path.repository path.location = some [] :=
        stripPrefix_eq_some.mpr (by rw [h, List.append_nil])
      simp [directory, hself, stripPrefix]
    rw [hdir, h]
    simp
  · have hdir : path.directory = some dir := by
      have hrest : stripPrefix path.repository path.location = some ('/' :: dir) := stripPrefix_eq_some.mpr h
      simp [directory, hrest, stripPrefix]
    rw [hdir]
    exact h

/-! ## Tags -/

theorem versionOfTag_eq_some {path : SourcePath} {tag : Str} {v : Version} :
    path.versionOfTag tag = some v ↔ tag = path.tag v ∧ path.isVersionOf v = true := by
  have hparse : ∀ s : Str, ((Version.parse s).toOption).filter path.isVersionOf = some v ↔
      s = v.raw ∧ path.isVersionOf v = true := by
    intro s
    rw [Option.filter_eq_some_iff, ← Version.parse_eq_ok]
    cases Version.parse s with
    | error e => simp [Except.toOption]
    | ok w => simp [Except.toOption]
  cases hdir : path.directory with
  | none =>
    simp only [versionOfTag, SourcePath.tag, hdir, Option.bind_eq_bind, Option.bind_some]
    exact hparse tag
  | some dir =>
    simp only [versionOfTag, SourcePath.tag, hdir, Option.bind_eq_bind, Option.bind_eq_some_iff, stripPrefix_eq_some,
      hparse]
    constructor
    · rintro ⟨rest, rfl, s, rfl, rfl, hv⟩
      exact ⟨by rw [List.append_assoc], hv⟩
    · rintro ⟨rfl, hv⟩
      exact ⟨['/'] ++ v.raw, by rw [List.append_assoc], v.raw, rfl, rfl, hv⟩

/-- The directory and the version are told by the tag. -/
theorem tag_inj {p q : SourcePath} {v w : Version} (h : p.tag v = q.tag w) : p.directory = q.directory ∧ v = w := by
  cases hp : p.directory with
  | none =>
    cases hq : q.directory with
    | none =>
      simp only [SourcePath.tag, hp, hq] at h
      exact ⟨rfl, Version.raw_injective h⟩
    | some e =>
      simp only [SourcePath.tag, hp, hq] at h
      exact absurd (h ▸ by simp) v.slash_notMem
  | some d =>
    cases hq : q.directory with
    | none =>
      simp only [SourcePath.tag, hp, hq] at h
      exact absurd (h ▸ by simp) w.slash_notMem
    | some e =>
      simp only [SourcePath.tag, hp, hq, List.append_assoc, List.singleton_append] at h
      obtain ⟨rfl, hraw⟩ := append_slash_inj v.slash_notMem w.slash_notMem h
      exact ⟨rfl, Version.raw_injective hraw⟩

/-- The major of a valid path tells its suffix. -/
theorem Valid.major_inj {p q : SourcePath} (hp : Valid p.text) (hq : Valid q.text) {v : Version}
    (hpv : p.isVersionOf v = true) (hqv : q.isVersionOf v = true) : majorDigits p.text = majorDigits q.text := by
  have hnum : ∀ {r : SourcePath}, Valid r.text → r.isVersionOf v = true →
      (majorDigits r.text = none ∧ v.major ≤ 1) ∨
        ∃ d, majorDigits r.text = some d ∧ Precedence.num d = some v.major ∧ 2 ≤ v.major := by
    intro r hr hv
    cases hd : majorDigits r.text with
    | none => exact .inl ⟨rfl, by simpa [isVersionOf, SourcePath.major, hd] using hv⟩
    | some d =>
      obtain ⟨hzero, n, hn, hle⟩ := hr.major d hd
      obtain ⟨-, hne, hall⟩ := majorDigits_eq_some hd
      have hnumeric : isNumeric d = true := by simp [isNumeric, hne, hzero, List.all_eq_true.mpr hall]
      have hv : v.major = n := by simpa [isVersionOf, SourcePath.major, hd, hn] using hv
      exact .inr ⟨d, rfl, by rw [Precedence.num, if_pos hnumeric, hn, hv], hv ▸ hle⟩
  rcases hnum hp hpv with ⟨hp, hle⟩ | ⟨d, hp, hd, hle⟩
  · rcases hnum hq hqv with ⟨hq, -⟩ | ⟨e, -, -, hge⟩
    · rw [hp, hq]
    · omega
  · rcases hnum hq hqv with ⟨-, hge⟩ | ⟨e, hq, he, -⟩
    · omega
    · rw [hp, hq, num_injective hd he]

end SourcePath

end Emela.Pome
