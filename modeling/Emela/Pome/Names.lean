import Emela.Pome.Lemmas.SourcePath

/-!
# Names that stay apart

The directory of a Pome in the cache and the tags of its versions are told apart by its source path.
-/

namespace Emela.Pome.SourcePath

/-! ## Directories -/

/-- `str::to_ascii_lowercase`. -/
def asciiLowercase (s : Str) : Str := s.map Char.toLower

theorem toLower_val {c : Char} (hc : c.isUpper = true) : c.toLower.val = c.val + 32 := by
  simp only [Char.isUpper, decide_eq_true_eq] at hc
  rw [Char.toLower, dif_pos hc]
  rfl

theorem toLower_of_not_isUpper {c : Char} (hc : c.isUpper = false) : c.toLower = c := by
  rw [Char.toLower, dif_neg]
  intro h
  have : c.isUpper = true := by
    simp only [Char.isUpper, decide_eq_true_eq]
    exact h
  rw [hc] at this
  cases this

theorem isUpper_toLower (c : Char) : c.toLower.isUpper = false := by
  cases hc : c.isUpper with
  | false => rwa [toLower_of_not_isUpper hc]
  | true =>
    have hval := toLower_val hc
    simp only [Char.isUpper, decide_eq_true_eq, UInt32.le_iff_toNat_le] at hc
    have h : c.toLower.val.toNat = c.val.toNat + 32 := by
      rw [hval, UInt32.toNat_add]
      have : 'Z'.val.toNat = 90 := rfl
      have : (32 : UInt32).toNat = 32 := rfl
      omega
    have : 'Z'.val.toNat = 90 := rfl
    have : 'A'.val.toNat = 65 := rfl
    simp only [Char.isUpper, decide_eq_false_iff_not, ge_iff_le, UInt32.le_iff_toNat_le]
    omega

theorem toLower_injective {c d : Char} (hc : c.isUpper = true) (hd : d.isUpper = true) (h : c.toLower = d.toLower) :
    c = d := by
  have hval := congrArg Char.val h
  rw [toLower_val hc, toLower_val hd] at hval
  exact Char.ext (add_right_cancel hval)

/-- The escaped form of a character. -/
def escapeChar (c : Char) : Str := if c.isUpper then ['!', c.toLower] else [c]

theorem escaped_eq (path : SourcePath) : path.escaped = path.text.flatMap escapeChar := rfl

theorem flatMap_escapeChar_inj {s t : Str} (hs : '!' ∉ s) (ht : '!' ∉ t)
    (h : s.flatMap escapeChar = t.flatMap escapeChar) : s = t := by
  induction s generalizing t with
  | nil =>
    cases t with
    | nil => rfl
    | cons d t =>
      rw [List.flatMap_nil, List.flatMap_cons, escapeChar] at h
      split at h <;> cases h
  | cons c s ih =>
    cases t with
    | nil =>
      rw [List.flatMap_nil, List.flatMap_cons, escapeChar] at h
      split at h <;> cases h
    | cons d t =>
      rw [List.mem_cons, not_or] at hs ht
      rw [List.flatMap_cons, List.flatMap_cons, escapeChar, escapeChar] at h
      split at h
      · next hc =>
        split at h
        · next hd =>
          simp only [List.cons_append, List.nil_append, List.cons.injEq, true_and] at h
          rw [toLower_injective hc hd h.1, ih hs.2 ht.2 h.2]
        · simp only [List.cons_append, List.nil_append, List.cons.injEq] at h
          exact absurd h.1 ht.1
      · split at h
        · simp only [List.cons_append, List.nil_append, List.cons.injEq] at h
          exact absurd h.1.symm hs.1
        · simp only [List.cons_append, List.nil_append, List.cons.injEq] at h
          rw [h.1, ih hs.2 ht.2 h.2]

theorem Valid.mark_notMem {input : Str} (h : Valid input) : '!' ∉ input := by
  intro hc
  rcases h.chars hc with h | h | h | h | h <;> exact absurd h (by decide)

theorem asciiLowercase_escaped (path : SourcePath) : asciiLowercase path.escaped = path.escaped := by
  rw [escaped_eq, asciiLowercase, List.map_flatMap]
  congr 1
  funext c
  rw [escapeChar]
  split
  · have hmark : '!'.toLower = '!' := by decide
    rw [List.map_cons, List.map_cons, List.map_nil, toLower_of_not_isUpper (isUpper_toLower c), hmark]
  · next hc =>
    rw [List.map_cons, List.map_nil, toLower_of_not_isUpper (by simpa using hc)]

/-- Two source paths have different directories in the cache, also where letters of two cases are one. -/
theorem escaped_injective {a b : Str} {p q : SourcePath} (hp : parse a = .ok p) (hq : parse b = .ok q) :
    (p.escaped = q.escaped → p = q) ∧ (asciiLowercase p.escaped = asciiLowercase q.escaped → p = q) := by
  have hinj : p.escaped = q.escaped → p = q := by
    intro h
    obtain rfl := text_of_parse hp
    obtain rfl := text_of_parse hq
    have hab : a = b := flatMap_escapeChar_inj (valid_of_parse hp).mark_notMem (valid_of_parse hq).mark_notMem h
    rw [hab]
  refine ⟨hinj, fun h => hinj ?_⟩
  rwa [asciiLowercase_escaped, asciiLowercase_escaped] at h

/-- Two paths whose letters differ in case only. -/
theorem escaped_injective_cases :
    let p : SourcePath := ⟨"example.com/Foo".toList⟩
    let q : SourcePath := ⟨"example.com/foo".toList⟩
    (p.escaped = q.escaped → p = q) ∧ (asciiLowercase p.escaped = asciiLowercase q.escaped → p = q) :=
  escaped_injective (a := "example.com/Foo".toList) (b := "example.com/foo".toList) rfl rfl

/-! ## Tags -/

/-- The tag of a version is read back as it exactly when the version is one of the path's, a tag that is read is that of
its version, and no tag of a repository is read for two paths. -/
theorem tags_apart {a b : Str} {p q : SourcePath} (hp : parse a = .ok p) (hq : parse b = .ok q) :
    (∀ v, p.versionOfTag (p.tag v) = some v ↔ p.isVersionOf v = true) ∧
    (∀ t v, p.versionOfTag t = some v → p.tag v = t) ∧
    (p ≠ q → p.repository = q.repository → ∀ t, p.versionOfTag t = none ∨ q.versionOfTag t = none) := by
  refine ⟨fun v => ?_, fun t v h => (versionOfTag_eq_some.mp h).1.symm, fun hne hrepo t => ?_⟩
  · rw [versionOfTag_eq_some]
    exact and_iff_right rfl
  · cases hpt : p.versionOfTag t with
    | none => exact .inl rfl
    | some v =>
      cases hqt : q.versionOfTag t with
      | none => exact .inr rfl
      | some w =>
        obtain ⟨rfl, hpv⟩ := versionOfTag_eq_some.mp hpt
        obtain ⟨htag, hqv⟩ := versionOfTag_eq_some.mp hqt
        obtain ⟨hdir, rfl⟩ := tag_inj htag
        have hloc : p.location = q.location := by rw [p.location_eq, q.location_eq, hrepo, hdir]
        have hvp := valid_of_parse hp
        have hvq := valid_of_parse hq
        obtain rfl := text_of_parse hp
        obtain rfl := text_of_parse hq
        have hmajor := Valid.major_inj hvp hvq hpv hqv
        have htext : a = b :=
          ((⟨a⟩ : SourcePath).text_eq.trans (by rw [hloc, hmajor])).trans (⟨b⟩ : SourcePath).text_eq.symm
        exact absurd (congrArg SourcePath.mk htext) hne

/-- A Pome in a directory of a repository, and the one at its root. -/
theorem tags_apart_directory :
    let p : SourcePath := ⟨"github.com/acme/x/sub".toList⟩
    let q : SourcePath := ⟨"github.com/acme/x".toList⟩
    (∀ v, p.versionOfTag (p.tag v) = some v ↔ p.isVersionOf v = true) ∧
    (∀ t v, p.versionOfTag t = some v → p.tag v = t) ∧
    (p ≠ q → p.repository = q.repository → ∀ t, p.versionOfTag t = none ∨ q.versionOfTag t = none) :=
  tags_apart (a := "github.com/acme/x/sub".toList) (b := "github.com/acme/x".toList) rfl rfl

end Emela.Pome.SourcePath
