import Emela.Pome.Canonical
import Emela.Pome.Lemmas.Text

/-!
# The hash of a tree

The summary of a tree has a line for each path, in the order of the paths. Its hash tells the tree.
-/

namespace Emela.Pome

variable {crypto : Crypto} {files files' : Files} {h : H1} {path : Str} {entries entries' : List (Str × Hash)}

/-! ## Paths -/

/-- A path of a tree: relative, from names, and outside `.git`. -/
structure Clean (path : Str) : Prop where
  newline : '\n' ∉ path
  carriageReturn : '\r' ∉ path
  backslash : '\\' ∉ path
  names : ∀ name ∈ path.splitOn '/', name ≠ [] ∧ name ≠ ['.'] ∧ name ≠ ['.', '.']
  git : (path.splitOn '/').head? ≠ some ".git".toList

theorem head?_splitOn_git :
    (path.splitOn '/').head? = some ".git".toList ↔
      path = ".git".toList ∨ (stripPrefix ".git/".toList path).isSome := by
  have hslash : '/' ∉ ".git".toList := by decide
  constructor
  · intro hhead
    obtain ⟨names, hnames⟩ : ∃ names, path.splitOn '/' = ".git".toList :: names := List.head?_eq_some_iff.mp hhead
    have hpath := @List.intercalate_splitOn _ path _ _ '/'
    rw [hnames] at hpath
    cases names with
    | nil => exact .inl hpath.symm
    | cons name names =>
      right
      rw [Split.intercalate_cons_cons] at hpath
      rw [← hpath, Option.isSome_iff_exists]
      exact ⟨_, stripPrefix_append ".git/".toList _⟩
  · rintro (rfl | hstrip)
    · rw [List.splitOn_eq_singleton hslash]
      rfl
    · obtain ⟨rest, hrest⟩ := Option.isSome_iff_exists.mp hstrip
      have hpath : path = ".git/".toList ++ rest := stripPrefix_eq_some.mp hrest
      have hgit : ".git/".toList ++ rest = ".git".toList ++ '/' :: rest := rfl
      rw [hpath, hgit, List.splitOn_append_cons_self_of_not_mem hslash]
      rfl

theorem ite_some_eq_none {α : Type} {p : Prop} [Decidable p] {a : α} {o : Option α} :
    (if p then some a else o) = none ↔ ¬p ∧ o = none := by
  split <;> simp [*]

theorem badPath_eq_none : badPath path = none ↔ Clean path := by
  rw [badPath, ite_some_eq_none, ite_some_eq_none, ite_some_eq_none, ite_some_eq_none, ite_some_eq_none]
  constructor
  · rintro ⟨-, hnewline, hbackslash, hnames, hgit, -⟩
    rw [Bool.or_eq_true, decide_eq_true_eq, decide_eq_true_eq, not_or] at hnewline
    rw [Bool.or_eq_true, beq_iff_eq, ← head?_splitOn_git] at hgit
    refine ⟨hnewline.1, hnewline.2, hbackslash, fun name hname => ?_, hgit⟩
    have hnot := fun hbad => hnames (List.any_eq_true.mpr ⟨name, hname, hbad⟩)
    simpa [and_assoc] using hnot
  · rintro ⟨hnewline, hreturn, hbackslash, hnames, hgit⟩
    refine ⟨?_, by simp [hnewline, hreturn], hbackslash, ?_, ?_, rfl⟩
    · intro hempty
      rw [List.isEmpty_iff.mp hempty] at hnames
      exact (hnames [] (by simp)).1 rfl
    · intro hany
      obtain ⟨name, hname, hbad⟩ := List.any_eq_true.mp hany
      have hok := hnames name hname
      simp [hok] at hbad
    · rwa [Bool.or_eq_true, beq_iff_eq, ← head?_splitOn_git]

/-! ## Entries -/

/-- The paths and digests in the order of the summary. -/
def entriesOf (crypto : Crypto) (files : Files) : List (Str × Hash) :=
  Assoc.sort (files.map fun (path, content) => (path, crypto.sha256 content))

theorem keys_entriesOf : ((entriesOf crypto files).map Prod.fst).Perm (files.map Prod.fst) := by
  have hperm := (Assoc.sort_perm (files.map fun (path, content) => (path, crypto.sha256 content))).map Prod.fst
  rwa [List.map_map] at hperm

/-- Sorted paths repeat one exactly when a path stands next to itself. -/
theorem repeatedPath_eq_none (hsorted : entries.Pairwise fun p q => (compare p.1 q.1).isLE) :
    repeatedPath entries = none ↔ Assoc.Ascending entries := by
  fun_induction repeatedPath entries with
  | case1 a b rest heq =>
    refine ⟨fun h => (by cases h), fun hascending => ?_⟩
    have hlt := hascending.head_lt List.mem_cons_self
    rw [heq, Std.ReflOrd.compare_self] at hlt
    cases hlt
  | case2 a b rest hne ih =>
    obtain ⟨hhead, htail⟩ := List.pairwise_cons.mp hsorted
    rw [ih htail]
    refine ⟨fun hascending => List.pairwise_cons.mpr ⟨?_, hascending⟩, fun hascending => hascending.tail⟩
    have hlt : compare a.1 b.1 = .lt := by
      have hle := hhead b List.mem_cons_self
      cases hcompare : compare a.1 b.1 with
      | lt => rfl
      | eq => exact absurd (Std.LawfulEqOrd.eq_of_compare hcompare) hne
      | gt =>
        rw [hcompare] at hle
        cases hle
    intro q hq
    rcases List.mem_cons.mp hq with rfl | hq
    · exact hlt
    · exact Std.TransCmp.lt_trans hlt (hascending.head_lt hq)
  | case3 entries hshort =>
    refine ⟨fun _ => ?_, fun _ => rfl⟩
    match entries, hshort with
    | [], _ => exact .nil
    | [a], _ => exact List.pairwise_singleton _ a
    | a :: b :: rest, hshort => exact absurd rfl (hshort a b rest)

theorem ascending_iff_nodup (hsorted : entries.Pairwise fun p q => (compare p.1 q.1).isLE) :
    Assoc.Ascending entries ↔ (entries.map Prod.fst).Nodup := by
  refine ⟨fun h => h.nodup_keys, fun hnodup => ?_⟩
  rw [List.Nodup, List.pairwise_map] at hnodup
  refine (hsorted.and hnodup).imp fun {p q} ⟨hle, hne⟩ => ?_
  cases hcompare : compare p.1 q.1 with
  | lt => rfl
  | eq => exact absurd (Std.LawfulEqOrd.eq_of_compare hcompare) hne
  | gt =>
    rw [hcompare] at hle
    cases hle

theorem entriesOf_pairwise (crypto : Crypto) (files : Files) :
    (entriesOf crypto files).Pairwise fun p q => (compare p.1 q.1).isLE :=
  Assoc.sort_pairwise _

theorem ascending_entriesOf : Assoc.Ascending (entriesOf crypto files) ↔ (files.map Prod.fst).Nodup := by
  rw [ascending_iff_nodup (entriesOf_pairwise crypto files)]
  exact keys_entriesOf.nodup_iff

/-- A tree is hashed when its paths are clean and distinct. -/
theorem treeHash_eq_ok : treeHash crypto files = .ok h ↔
    (∀ f ∈ files, Clean f.1) ∧ (files.map Prod.fst).Nodup ∧ summaryHash crypto (entriesOf crypto files) = h := by
  have hclean : (files.findSome? fun f => (badPath f.1).map fun reason => (f.1, reason)) = none ↔
      ∀ f ∈ files, Clean f.1 := by
    simp only [List.findSome?_eq_none_iff, Option.map_eq_none_iff, badPath_eq_none]
  rw [← hclean, ← @ascending_entriesOf crypto, ← repeatedPath_eq_none (entriesOf_pairwise crypto files), treeHash]
  split
  · next hbad =>
    rw [hbad]
    exact iff_of_false (by rintro ⟨⟩) (by rintro ⟨⟨⟩, -⟩)
  · next hgood =>
    dsimp only
    split
    · next path hrepeat =>
      have hrepeat : repeatedPath (entriesOf crypto files) = some path := hrepeat
      rw [hrepeat]
      exact iff_of_false (by rintro ⟨⟩) (by rintro ⟨-, ⟨⟩, -⟩)
    · next hrepeat => exact ⟨fun heq => ⟨hgood, hrepeat, Except.ok.inj heq⟩, fun hall => congrArg _ hall.2.2⟩

/-- The entries of distinct paths do not depend on the order of the files. -/
theorem entriesOf_perm (hnodup : (files.map Prod.fst).Nodup) (hperm : files.Perm files') :
    entriesOf crypto files = entriesOf crypto files' := by
  apply Assoc.Ascending.eq_of_perm
  · exact ascending_entriesOf.mpr hnodup
  · exact ascending_entriesOf.mpr ((hperm.map Prod.fst).nodup_iff.mp hnodup)
  · exact ((Assoc.sort_perm _).trans (hperm.map _)).trans (Assoc.sort_perm _).symm

/-! ## Summaries -/

/-- The line of a path. -/
def entryLine (entry : Str × Hash) : Str := entry.2.toList.flatMap hexByte ++ [' ', ' '] ++ entry.1 ++ ['\n']

def summary (entries : List (Str × Hash)) : Str := entries.flatMap entryLine

theorem summaryHash_eq : summaryHash crypto entries =
    ⟨"h1:".toList ++ crypto.encode (crypto.sha256 (utf8 (summary entries))).toList⟩ := rfl

theorem hexByte_injective {a b : UInt8} (h : hexByte a = hexByte b) : a = b := by
  have hdigit : ∀ m < 16, ∀ n < 16, Nat.digitChar m = Nat.digitChar n → m = n := by decide
  have ha := a.toNat_lt
  have hb := b.toNat_lt
  rw [hexByte, hexByte, List.cons.injEq, List.cons.injEq] at h
  have hhigh := hdigit _ (by omega) _ (by omega) h.1
  have hlow := hdigit _ (by omega) _ (by omega) h.2.1
  apply UInt8.toNat_inj.mp
  omega

theorem hex_injective {xs ys : List UInt8} (h : xs.flatMap hexByte = ys.flatMap hexByte) : xs = ys := by
  induction xs generalizing ys with
  | nil =>
    cases ys with
    | nil => rfl
    | cons y ys => cases h
  | cons x xs ih =>
    cases ys with
    | nil => cases h
    | cons y ys =>
      rw [List.flatMap_cons, List.flatMap_cons] at h
      obtain ⟨hbyte, hrest⟩ := List.append_inj h rfl
      rw [hexByte_injective hbyte, ih hrest]

theorem length_hex (bytes : List UInt8) : (bytes.flatMap hexByte).length = 2 * bytes.length := by
  induction bytes with
  | nil => rfl
  | cons b bytes ih =>
    rw [List.flatMap_cons, List.length_append, ih, List.length_cons, Nat.mul_succ, Nat.add_comm]
    rfl

/-- The first line is told by its newline and the digest by its length. -/
theorem entryLine_append_inj {e e' : Str × Hash} {rest rest' : Str} (he : '\n' ∉ e.1) (he' : '\n' ∉ e'.1)
    (h : entryLine e ++ rest = entryLine e' ++ rest') : e = e' ∧ rest = rest' := by
  simp only [entryLine, List.append_assoc, List.cons_append, List.nil_append] at h
  have hlength : (e.2.toList.flatMap hexByte).length = (e'.2.toList.flatMap hexByte).length := by
    rw [length_hex, length_hex, Vector.length_toList, Vector.length_toList]
  obtain ⟨hdigest, hpath⟩ := List.append_inj h hlength
  rw [List.cons.injEq, List.cons.injEq] at hpath
  have honce := congrArg (splitOnce '\n') hpath.2.2
  rw [splitOnce_append he, splitOnce_append he', Option.some.injEq, Prod.mk.injEq] at honce
  exact ⟨Prod.ext honce.1 (Vector.toList_inj.mp (hex_injective hdigest)), honce.2⟩

theorem summary_injective (hlines : ∀ e ∈ entries, '\n' ∉ e.1) (hlines' : ∀ e ∈ entries', '\n' ∉ e.1)
    (h : summary entries = summary entries') : entries = entries' := by
  induction entries generalizing entries' with
  | nil =>
    cases entries' with
    | nil => rfl
    | cons e' entries' => simp [summary, entryLine] at h
  | cons e entries ih =>
    cases entries' with
    | nil => simp [summary, entryLine] at h
    | cons e' entries' =>
      obtain ⟨he, hlines⟩ := List.forall_mem_cons.mp hlines
      obtain ⟨he', hlines'⟩ := List.forall_mem_cons.mp hlines'
      rw [summary, summary, List.flatMap_cons, List.flatMap_cons] at h
      obtain ⟨heq, hrest⟩ := entryLine_append_inj he he' h
      rw [heq, ih hlines hlines' hrest]

/-! ## Hashes -/

/-- What is hashed for a tree: the contents and the summary. -/
def treeInputs (crypto : Crypto) (files : Files) : List (List UInt8) :=
  utf8 (summary (entriesOf crypto files)) :: files.map Prod.snd

theorem Crypto.Standard.encode_injective (hstandard : crypto.Standard) {a b : List UInt8}
    (h : crypto.encode a = crypto.encode b) : a = b := by
  have ha := (hstandard.decode_eq_some _ a).mpr rfl
  rw [h, (hstandard.decode_eq_some _ b).mpr rfl] at ha
  exact (Option.some.inj ha).symm

theorem utf8_injective {a b : Str} (h : utf8 a = utf8 b) : a = b := by
  have ha := fromUtf8_utf8 a
  rw [h, fromUtf8_utf8] at ha
  exact (Option.some.inj ha).symm

theorem mem_entriesOf {e : Str × Hash} :
    e ∈ entriesOf crypto files ↔ ∃ f ∈ files, (f.1, crypto.sha256 f.2) = e := by
  rw [entriesOf, (Assoc.sort_perm _).mem_iff, List.mem_map]

theorem notMem_entriesOf (hclean : ∀ f ∈ files, Clean f.1) : ∀ e ∈ entriesOf crypto files, '\n' ∉ e.1 := by
  intro e he
  obtain ⟨f, hf, rfl⟩ := mem_entriesOf.mp he
  exact (hclean f hf).newline

/-- Files with the entries of others are among them, but for a collision of two contents. -/
theorem subset_of_entriesOf (h : entriesOf crypto files = entriesOf crypto files')
    (hnc : NoCollision crypto.sha256 (treeInputs crypto files ++ treeInputs crypto files')) : files ⊆ files' := by
  intro f hf
  have hentry : (f.1, crypto.sha256 f.2) ∈ entriesOf crypto files' := h ▸ mem_entriesOf.mpr ⟨f, hf, rfl⟩
  obtain ⟨f', hf', heq⟩ := mem_entriesOf.mp hentry
  rw [Prod.mk.injEq] at heq
  have hcontent : f'.2 = f.2 := by
    apply hnc _ _ _ _ heq.2
    · exact List.mem_append_right _ (List.mem_cons_of_mem _ (List.mem_map_of_mem hf'))
    · exact List.mem_append_left _ (List.mem_cons_of_mem _ (List.mem_map_of_mem hf))
  exact Prod.ext heq.1 hcontent ▸ hf'

/-- Trees with one hash have the same files, but for a collision. -/
theorem perm_of_treeHash (hstandard : crypto.Standard) (h₁ : treeHash crypto files = .ok h)
    (h₂ : treeHash crypto files' = .ok h)
    (hnc : NoCollision crypto.sha256 (treeInputs crypto files ++ treeInputs crypto files')) : files.Perm files' := by
  obtain ⟨hclean, hnodup, rfl⟩ := treeHash_eq_ok.mp h₁
  obtain ⟨hclean', hnodup', hhash⟩ := treeHash_eq_ok.mp h₂
  rw [summaryHash_eq, summaryHash_eq, H1.mk.injEq, List.append_cancel_left_eq] at hhash
  have hdigest := Vector.toList_inj.mp (hstandard.encode_injective hhash)
  have hsummary := hnc _ (List.mem_append_right _ List.mem_cons_self) _ (List.mem_append_left _ List.mem_cons_self)
    hdigest
  have hentries := summary_injective (notMem_entriesOf hclean') (notMem_entriesOf hclean) (utf8_injective hsummary)
  have hnc' : NoCollision crypto.sha256 (treeInputs crypto files' ++ treeInputs crypto files) := by
    intro x hx y hy
    exact hnc x (List.perm_append_comm.mem_iff.mp hx) y (List.perm_append_comm.mem_iff.mp hy)
  rw [List.perm_ext_iff_of_nodup hnodup.of_map hnodup'.of_map]
  exact fun f => ⟨fun hf => subset_of_entriesOf hentries.symm hnc hf, fun hf => subset_of_entriesOf hentries hnc' hf⟩

/-- A tree has a hash when its paths are clean and distinct, its order does not matter, and the hash tells its paths
and contents. -/
theorem treeHash_determines (hstandard : crypto.Standard) :
    (∀ files, (∃ h, treeHash crypto files = .ok h) ↔ (∀ f ∈ files, Clean f.1) ∧ (files.map Prod.fst).Nodup) ∧
    (∀ files files' h, files.Perm files' → (treeHash crypto files = .ok h ↔ treeHash crypto files' = .ok h)) ∧
    ∀ files files' h, treeHash crypto files = .ok h → treeHash crypto files' = .ok h →
      NoCollision crypto.sha256 (treeInputs crypto files ++ treeInputs crypto files') → files.Perm files' := by
  refine ⟨fun files => ?_, fun files files' h hperm => ?_, fun files files' h => perm_of_treeHash hstandard⟩
  · simp only [treeHash_eq_ok, exists_and_left, exists_eq', and_true]
  · have hclean : (∀ f ∈ files, Clean f.1) ↔ ∀ f ∈ files', Clean f.1 := by simp only [hperm.mem_iff]
    rw [treeHash_eq_ok, treeHash_eq_ok, hclean, (hperm.map Prod.fst).nodup_iff]
    apply and_congr_right'
    apply and_congr_right
    intro hnodup
    rw [entriesOf_perm hnodup hperm.symm]

namespace Example

/-- A tree of an empty `Pome.toml` and a file with the letter `x`. -/
def twoFiles : Files := [(MANIFEST_FILE, []), ("src/a.emel".toList, [0x78])]

/-- SHA-256 of its contents and its summary. -/
def twoCrypto : Crypto where
  sha256 input :=
    if input = [] then emptyDigest
    else if input = [0x78] then letterDigest
    else hashOf 0x24af1bfb6175a3db739f591209357980e8c8ffb2abc2ceeee74b96a4c84cfec6
  encode := Base64.encode
  decode := Base64.decode
  verifyStrict _ _ _ := false

theorem standard_twoCrypto : twoCrypto.Standard := { standard_base64 with }

theorem clean_twoFiles : ∀ f ∈ twoFiles, Clean f.1 := by
  rw [twoFiles, List.forall_mem_cons, List.forall_mem_singleton]
  exact ⟨badPath_eq_none.mp (by decide), badPath_eq_none.mp (by decide)⟩

theorem noCollision_twoFiles :
    NoCollision twoCrypto.sha256 (treeInputs twoCrypto twoFiles ++ treeInputs twoCrypto twoFiles.reverse) := by
  unfold NoCollision
  decide

theorem treeHash_determines_twoFiles : (∃ h, treeHash twoCrypto twoFiles = .ok h) ∧
    (∀ h, treeHash twoCrypto twoFiles = .ok h ↔ treeHash twoCrypto twoFiles.reverse = .ok h) ∧
    ∀ h, treeHash twoCrypto twoFiles = .ok h → treeHash twoCrypto twoFiles.reverse = .ok h →
      twoFiles.Perm twoFiles.reverse := by
  obtain ⟨hhashed, hperm, hdetermined⟩ := treeHash_determines standard_twoCrypto
  refine ⟨(hhashed twoFiles).mpr ⟨clean_twoFiles, by decide⟩, fun h => ?_, fun h hfiles hreverse => ?_⟩
  · exact hperm twoFiles twoFiles.reverse h (List.reverse_perm twoFiles).symm
  · exact hdetermined twoFiles twoFiles.reverse h hfiles hreverse noCollision_twoFiles

end Example

end Emela.Pome
