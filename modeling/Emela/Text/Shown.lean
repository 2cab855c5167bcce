import Emela.Lexer.Lex
import Emela.Pome.Canonical
import Emela.Text.Show

/-!
# Shown strings read back

Each character is written as a piece of the body that the lexer passes over and `unescape` reads as the character. The
pieces can be taken one by one: only a `#` looks at what follows, and a piece starts with `{` only for `{` itself.
-/

namespace Emela.Text

open Lexer
open Pome (splitOnce stripPrefix)

variable {c : Char} {next : Option Char} {s rest ds : List Char}

/-- The pieces of a character: itself, an escape of one letter, or one by its number. -/
inductive Piece (c : Char) (next : Option Char) : List Char → Prop where
  | plain (h : c ≠ '"' ∧ c ≠ '\\' ∧ c ≠ '\n' ∧ c ≠ '\r') (hash : c = '#' → next ≠ some '{') : Piece c next [c]
  | letter (d : Char) (h : (c, d) ∈ [('"', '"'), ('\\', '\\'), ('#', '#'), ('\n', 'n'), ('\t', 't'), ('\r', 'r')]) :
      Piece c next ['\\', d]
  | number (ds : List Char) (h : c ≠ '{') (hds : ds.all isHexDigit = true) (hlen : 1 ≤ ds.length ∧ ds.length ≤ 6)
      (hval : hexValue ds = c.toNat) : Piece c next (['\\', 'u', '{'] ++ ds ++ ['}'])

theorem toDigits_hex : ∀ n < 0x80, (Nat.toDigits 16 n).all isHexDigit = true ∧
    1 ≤ (Nat.toDigits 16 n).length ∧ (Nat.toDigits 16 n).length ≤ 6 ∧ hexValue (Nat.toDigits 16 n) = n := by
  decide

theorem showChar_piece (c : Char) (next : Option Char) : Piece c next (showChar c next) := by
  unfold showChar
  split
  · next h => exact .letter '"' (by simp [h])
  split
  · next h => exact .letter '\\' (by simp [h])
  split
  · next h =>
    subst h
    split
    · exact .letter '#' (by simp)
    · next hnext => exact .plain (by decide) fun _ => hnext
  split
  · next h => exact .letter 'n' (by simp [h])
  split
  · next h => exact .letter 't' (by simp [h])
  split
  · next h => exact .letter 'r' (by simp [h])
  split
  · next h =>
    obtain ⟨hds, hpos, hlen, hval⟩ := toDigits_hex c.toNat (by omega)
    have hne : c ≠ '{' := by
      rintro rfl
      revert h
      decide
    exact .number _ hne hds ⟨hpos, hlen⟩ hval
  · next h1 h2 h3 h4 _ h5 _ => exact .plain ⟨h1, h2, h4, h5⟩ fun h => absurd h h3

/-- A piece starts with `{` only for `{`. -/
theorem Piece.head (h : Piece c next s) : s.head? = some '{' ↔ c = '{' := by
  cases h with
  | plain => simp
  | letter d h =>
    simp only [List.mem_cons, Prod.mk.injEq, List.not_mem_nil, or_false] at h
    rcases h with h | h | h | h | h | h <;> simp [h.1]
  | number ds h => simp [h]

theorem Piece.ne_nil (h : Piece c next s) : s ≠ [] := by
  cases h <;> simp

theorem head_body (s tail : List Char) : (mapNext showChar s ++ '"' :: tail).head? = some '{' ↔ s.head? = some '{' := by
  cases s with
  | nil => simp [mapNext]
  | cons c s =>
    have hpiece := showChar_piece c s.head?
    rw [mapNext, List.append_assoc, List.head?_append_of_ne_nil _ hpiece.ne_nil, hpiece.head]
    simp

/-! ## The lexer -/

theorem scan_skip (l : List Char) (i : Nat) (rest : List Char) : ∃ j,
    scanStringText l.length i (l ++ rest) = (scanStringText 0 j rest).map (· + l.length) id := by
  induction l generalizing i with
  | nil => exact ⟨i, rfl⟩
  | cons c l ih =>
    obtain ⟨j, hj⟩ := ih (i + c.utf8Size)
    refine ⟨j, ?_⟩
    rw [List.length_cons, List.cons_append, scanStringText, hj]
    rfl

theorem takeWhile_hex (hds : ds.all isHexDigit = true) (rest : List Char) :
    (ds ++ '}' :: rest).takeWhile isHexDigit = ds := by
  rw [List.takeWhile_append_of_pos (by simpa using hds), List.takeWhile_cons_of_neg (by decide), List.append_nil]

theorem unicodeEscape_piece (i : Nat) (hds : ds.all isHexDigit = true) (hlen : 1 ≤ ds.length ∧ ds.length ≤ 6)
    (hval : hexValue ds = c.toNat) (rest : List Char) :
    unicodeEscape i ('{' :: (ds ++ '}' :: rest)) = (ds.length + 4, []) := by
  have hc := scalar c
  have hsurrogate : surrogate c.toNat = false := by
    simp only [surrogate, Bool.and_eq_false_iff, decide_eq_false_iff_not]
    omega
  simp only [unicodeEscape, takeWhile_hex hds, List.drop_left, hval, hsurrogate, Bool.false_eq_true, if_false]
  rw [if_neg (by omega), if_neg (by omega)]

/-- The lexer passes over a piece without a diagnostic. -/
theorem Piece.scan (h : Piece c next s) (hnext : rest.head? = some '{' ↔ next = some '{') (i : Nat) : ∃ j,
    scanStringText 0 i (s ++ rest) = (scanStringText 0 j rest).map (· + s.length) id := by
  cases h with
  | plain h hash =>
    have hbrace : ¬(c = '#' ∧ rest.head? = some '{') := fun hc => hash hc.1 (hnext.mp hc.2)
    refine ⟨i + c.utf8Size, ?_⟩
    simp only [List.singleton_append, scanStringText, h.1, h.2.1, h.2.2.1, h.2.2.2, hbrace, or_self, if_false]
    rfl
  | letter d h =>
    have hescape : escape i (d :: rest) = (some 2, []) := by
      simp only [List.mem_cons, Prod.mk.injEq, List.not_mem_nil, or_false] at h
      rcases h with h | h | h | h | h | h <;> simp [escape, h.2]
    obtain ⟨j, hj⟩ := scan_skip [d] (i + 1) rest
    refine ⟨j, ?_⟩
    rw [List.cons_append, List.singleton_append, scanStringText, if_neg (by decide), if_neg (by simp), if_pos rfl,
      hescape]
    exact congrArg (Prod.map (· + 1) ([] ++ ·)) hj
  | number ds _ hds hlen hval =>
    have hescape : escape i ('u' :: '{' :: (ds ++ '}' :: rest)) = (some (ds.length + 4), []) := by
      simp [escape, unicodeEscape_piece i hds hlen hval]
    obtain ⟨j, hj⟩ := scan_skip ('u' :: '{' :: (ds ++ ['}'])) (i + 1) rest
    refine ⟨j, ?_⟩
    have hlength : ('u' :: '{' :: (ds ++ ['}'])).length = ds.length + 4 - 1 := by simp
    have happend : 'u' :: '{' :: (ds ++ ['}']) ++ rest = 'u' :: '{' :: (ds ++ '}' :: rest) := by simp
    rw [hlength, happend] at hj
    have hself : ['\\', 'u', '{'] ++ ds ++ ['}'] ++ rest = '\\' :: 'u' :: '{' :: (ds ++ '}' :: rest) := by simp
    rw [hself, scanStringText, if_neg (by decide), if_neg (by simp), if_pos rfl, hescape]
    dsimp only
    rw [hj]
    simp [Prod.map, Nat.add_assoc]

theorem scan_body (s tail : List Char) (i : Nat) :
    scanStringText 0 i (mapNext showChar s ++ '"' :: tail) = ((mapNext showChar s).length, []) := by
  induction s generalizing i with
  | nil => simp [mapNext, scanStringText]
  | cons c s ih =>
    obtain ⟨j, hj⟩ := (showChar_piece c s.head?).scan (head_body s tail) i
    rw [mapNext, List.append_assoc, hj, ih, List.length_append, Nat.add_comm]
    rfl

/-! ## Unescaping -/

theorem unescape_skip (l rest : List Char) : unescapeFrom l.length (l ++ rest) = unescapeFrom 0 rest := by
  induction l with
  | nil => rfl
  | cons c l ih => exact ih

theorem not_mem_of_hex (hds : ds.all isHexDigit = true) (hc : isHexDigit c = false) : c ∉ ds := fun hmem => by
  have := List.all_eq_true.mp hds c hmem
  rw [hc] at this
  cases this

theorem fromStrRadix16_hex (hds : ds.all isHexDigit = true) (hlen : 1 ≤ ds.length) (hval : hexValue ds = c.toNat) :
    fromStrRadix16 ds = some c.toNat := by
  have hplus := not_mem_of_hex (c := '+') hds (by decide)
  have hc := scalar c
  cases ds with
  | nil => simp at hlen
  | cons d ds =>
    have hd : d ≠ '+' := fun h => hplus (by simp [h])
    have hself : dropPlus (d :: ds) = d :: ds := by
      unfold dropPlus
      split
      · next h => exact absurd (List.cons_eq_cons.mp h).1 hd
      · rfl
    simp only [fromStrRadix16, hself, hval]
    rw [if_neg (by simp [hds]), if_pos (by omega)]

theorem fromU32_toNat (c : Char) : Lexer.fromU32 c.toNat = some c := by
  rw [Lexer.fromU32, dif_pos (show c.toNat.isValidChar from c.valid)]
  rfl

/-- A piece is read as the character. -/
theorem Piece.unescape (h : Piece c next s) (rest : List Char) :
    unescapeFrom 0 (s ++ rest) = c :: unescapeFrom 0 rest := by
  cases h with
  | plain h => simp [unescapeFrom, h.2.1]
  | letter d h =>
    have hskip := unescape_skip [d] rest
    rw [List.length_singleton, List.singleton_append] at hskip
    simp only [List.mem_cons, Prod.mk.injEq, List.not_mem_nil, or_false] at h
    rcases h with h | h | h | h | h | h <;> obtain ⟨rfl, rfl⟩ := h <;>
      exact congrArg (List.cons _) hskip
  | number ds _ hds hlen hval =>
    have hbrace := not_mem_of_hex (c := '}') hds (by decide)
    have hskip := unescape_skip ('u' :: '{' :: (ds ++ ['}'])) rest
    have happend : 'u' :: '{' :: (ds ++ ['}']) ++ rest = 'u' :: '{' :: (ds ++ '}' :: rest) := by simp
    have hsplit : splitOnce '}' (ds ++ '}' :: rest) = some (ds, rest) := Pome.splitOnce_append hbrace rest
    have hidx : ('{' :: (ds ++ '}' :: rest)).idxOf '}' + 2 = ('u' :: '{' :: (ds ++ ['}'])).length := by
      rw [List.idxOf_cons_ne _ (by decide), List.idxOf_append_of_notMem hbrace, List.idxOf_cons_self]
      simp
    have hself : ['\\', 'u', '{'] ++ ds ++ ['}'] ++ rest = '\\' :: 'u' :: '{' :: (ds ++ '}' :: rest) := by simp
    rw [happend] at hskip
    rw [hself, unescapeFrom, if_neg (by decide)]
    simp only [show ¬('u' = 'n') by decide, show ¬('u' = 't') by decide, show ¬('u' = 'r') by decide, if_false, if_true]
    rw [show stripPrefix ['{'] ('{' :: (ds ++ '}' :: rest)) = some (ds ++ '}' :: rest) from rfl, Option.bind_some, hsplit,
      Option.bind_some, fromStrRadix16_hex hds hlen.1 hval, Option.bind_some, fromU32_toNat]
    dsimp only
    rw [hidx, hskip]

theorem unescape_body (s : List Char) : unescape (mapNext showChar s) = s := by
  rw [unescape]
  induction s with
  | nil => rfl
  | cons c s ih => rw [mapNext, (showChar_piece c s.head?).unescape, ih]

/-! ## The literal -/

theorem rawToken_quote (h : ¬['"', '"'] <+: rest) : rawToken ('"' :: rest) = some (.quote, 1) := by
  simp [rawToken, patterns, run, andThen, maybe, exactly, digits, exponent, isWordStart, isHexDigit, h]
  rfl

/-- Where the lexer finds a body, the string does not end or break off. -/
theorem not_stop {t : List Char} {i : Nat} (h : (scanStringText 0 i t).1 ≠ 0) : t.head? ≠ some '"' ∧
    ['#', '{'].isPrefixOf t = false ∧ t.head? ≠ some '\n' ∧ t.head? ≠ some '\r' := by
  cases t with
  | nil => simp [scanStringText] at h
  | cons c t =>
    rw [scanStringText] at h
    split at h
    · simp at h
    · next hstop =>
      split at h
      · simp at h
      · next hbrace =>
        rw [not_or, not_or] at hstop
        refine ⟨by simpa using hstop.1, ?_, by simpa using hstop.2.1, by simpa using hstop.2.2⟩
        rw [Bool.eq_false_iff, ne_eq, List.isPrefixOf_iff_prefix, List.cons_prefix_cons]
        rintro ⟨hc, hpre⟩
        obtain ⟨t', rfl⟩ := hpre
        exact hbrace ⟨hc.symm, rfl⟩

theorem markContinuations_literal {tokens : List Token} (h : ∀ t ∈ tokens, t.kind = .stringQuote ∨ t.kind = .stringText) :
    markContinuations tokens = tokens := by
  suffices hall : ∀ errorSet, markFrom [] errorSet tokens = tokens from hall _
  induction tokens with
  | nil => exact fun _ => rfl
  | cons t tokens ih =>
    obtain ⟨ht, htokens⟩ := List.forall_mem_cons.mp h
    intro errorSet
    have hkind : t.kind ≠ .newline := by
      rcases ht with ht | ht <;> simp [ht]
    have hstack : nextStack [] t.kind = [] := by
      rcases ht with ht | ht <;> simp [ht, nextStack]
    rw [markFrom, if_neg hkind, hstack, ih htokens]

/-- The tokens of a string literal on one line without interpolations. -/
def literalTokens (body : List Char) : List Token :=
  [⟨.stringQuote, ['"']⟩] ++ (if body = [] then [] else [⟨.stringText, body⟩]) ++ [⟨.stringQuote, ['"']⟩]

theorem step_open (h : rawToken ('"' :: rest) = some (.quote, 1)) :
    LexerState.step ⟨0, none, '"' :: rest, [], [], [.code], []⟩ =
      ⟨1, some '"', rest, [⟨.stringQuote, ['"']⟩], [], [.str 0, .code], []⟩ := by
  simp [LexerState.step, LexerState.codeStep, h, classify, RawToken.kind, LexerState.token, byteLength]
  rfl

theorem step_body {body : List Char} {tokens : List Token} (hne : body ≠ [])
    (hscan : scanStringText 0 1 (body ++ ['"']) = (body.length, [])) (before : Option Char) : ∃ pos before',
    LexerState.step ⟨1, before, body ++ ['"'], tokens, [], [.str 0, .code], []⟩ =
      ⟨pos, before', ['"'], tokens ++ [⟨.stringText, body⟩], [], [.str 0, .code], []⟩ := by
  have hlen : body.length ≠ 0 := fun h => hne (List.length_eq_zero_iff.mp h)
  obtain ⟨hquote, hbrace, hn, hr⟩ := not_stop (i := 1) (t := body ++ ['"']) (by rwa [hscan])
  refine ⟨1 + byteLength body, body.getLast?.or before, ?_⟩
  simp only [LexerState.step, List.head?_cons, Option.getD_some, LexerState.stringStep, hquote, hbrace, hn, hr, hscan,
    Bool.false_eq_true, or_self, if_false, LexerState.token, List.take_left, List.drop_left, List.append_nil]

theorem step_close {tokens : List Token} (pos : Nat) (before : Option Char) :
    LexerState.step ⟨pos, before, ['"'], tokens, [], [.str 0, .code], []⟩ =
      ⟨pos + 1, some '"', [], tokens ++ [⟨.stringQuote, ['"']⟩], [], [.code], []⟩ := by
  simp [LexerState.step, LexerState.stringStep, LexerState.token, byteLength]
  rfl

theorem lex_shown (s : List Char) : lex (shown s) = some (literalTokens (mapNext showChar s), []) := by
  have hscan := fun i => scan_body s [] i
  generalize hbody : mapNext showChar s = body at hscan
  have hnodouble : ¬['"', '"'] <+: body ++ ['"'] := by
    intro hpre
    by_cases hnil : body = []
    · simp [hnil] at hpre
    · obtain ⟨hquote, -⟩ := not_stop (i := 0) (t := body ++ ['"']) (by simpa [hscan] using hnil)
      obtain ⟨t, ht⟩ := hpre
      rw [← ht] at hquote
      exact hquote rfl
  have hraw := rawToken_quote hnodouble
  have hshown : shown s = '"' :: (body ++ ['"']) := by simp [shown, hbody]
  have hsteps : ∃ l, LexerState.steps (2 * (shown s).length) ⟨0, none, shown s, [], [], [.code], []⟩ = some l ∧
      l.tokens = literalTokens body ∧ l.diagnostics = [] ∧ l.modes = [.code] := by
    obtain ⟨k, hk⟩ : ∃ k, 2 * (shown s).length = k + 3 + 1 := ⟨2 * body.length, by simp [hshown]; omega⟩
    rw [hk, hshown, LexerState.steps, if_neg (by simp), step_open hraw]
    by_cases hnil : body = []
    · subst hnil
      refine ⟨_, by rw [List.nil_append, LexerState.steps, if_neg (by simp), step_close, LexerState.steps, if_pos rfl], ?_⟩
      exact ⟨rfl, rfl, rfl⟩
    · obtain ⟨pos, before, hstep⟩ := @step_body body [⟨.stringQuote, ['"']⟩] hnil (hscan 1) (some '"')
      refine ⟨_, by rw [LexerState.steps, if_neg (by simp), hstep, LexerState.steps, if_neg (by simp), step_close,
        LexerState.steps, if_pos rfl], ?_⟩
      simp [literalTokens, hnil]
  obtain ⟨l, hl, htokens, hdiagnostics, hmodes⟩ := hsteps
  have hmark : markContinuations (literalTokens body) = literalTokens body := by
    apply markContinuations_literal
    intro t ht
    by_cases hnil : body = []
    · simp only [literalTokens, hnil, if_true, List.append_nil, List.mem_append, List.mem_singleton, or_self] at ht
      simp [ht]
    · simp only [literalTokens, hnil, if_false, List.mem_append, List.mem_singleton] at ht
      rcases ht with (ht | ht) | ht <;> simp [ht]
  simp only [lex, hl, Option.bind_eq_bind, Option.bind_some, htokens, hdiagnostics, hmodes, hmark]
  simp

theorem lowerString_literal {ε : Type} (body : List Char) :
    lowerString ((literalTokens body).map fun t => (.token t : StringChild ε)) = .lit (unescape body) := by
  by_cases hnil : body = []
  · subst hnil
    rfl
  · simp [literalTokens, hnil, lowerString, stringParts, pushPart, stringText, StringChild.isTripleQuote]

/-- Both runtimes show a string as the same literal, which reads as the string. -/
theorem shown_reads_back {ε : Type} (s : List Char) :
    emShowString (utf8 s) = utf8 (shown s) ∧ showString (utf16 s) = utf16 (shown s) ∧
    ∃ body, lex (shown s) = some (literalTokens body, []) ∧
      lowerString ((literalTokens body).map fun t => (.token t : StringChild ε)) = .lit s :=
  ⟨emShowString_utf8 s, showString_utf16 s, mapNext showChar s, lex_shown s, by
    rw [lowerString_literal, unescape_body]⟩

end Emela.Text
