import Mathlib.Data.Nat.Basic
import Xv6Lab.Shell.Model

/-!
# The tokens of a line

`tokens buf es s` is the sequence of tokens `gettoken` produces from offset `s` to the end of the line. It is the view
the grammar has of the buffer: `peek` reads the first token of the sequence without changing it (`peek_spec`), and
`gettoken` takes it off (`gettoken_spec`).
-/

namespace Xv6Lab.Shell

open Lib.Exec Lib.Scan

/-- The line ends at its first NUL. -/
structure Terminated (buf : Buf) (es : Nat) : Prop where
  byte_ne : ∀ i, i < es → byteAt buf i ≠ 0
  nul : byteAt buf es = 0

theorem terminated_strlen (buf : Buf) : Terminated buf (strlen buf) := by
  induction buf with
  | nil => exact ⟨fun i hi => absurd hi (Nat.not_lt_zero i), rfl⟩
  | cons c buf ih =>
    rcases eq_or_ne c 0 with rfl | hc
    · exact ⟨fun i hi => absurd hi (Nat.not_lt_zero i), rfl⟩
    have hlen : strlen (c :: buf) = strlen buf + 1 := by
      simp [strlen, hc]
    rw [hlen]
    constructor
    · intro i hi
      cases i with
      | zero => exact hc
      | succ i => exact ih.byte_ne i (by omega)
    · exact ih.nul

/-! ## Characters of tokens -/

theorem plainSym_some {c : UInt8} {k : Sym} (h : plainSym c = some k) : c = ofChar k.char := by
  have := List.find?_some h
  simpa using this

/-- A character that starts no symbol is not one of `symbols`. -/
theorem strchr_symbols_of_none {c : UInt8} (h : plainSym c = none) (hgt : c ≠ ofChar '>') :
    strchr symbols c = false := by
  have hne := List.find?_eq_none.mp h
  have hchar : ∀ k : Sym, c ≠ ofChar k.char := by
    intro k
    cases k with
    | greater => exact hgt
    | append => exact hgt
    | _ => simpa using hne _ (by decide)
  simp only [strchr, symbols, List.map_cons, List.map_nil, List.contains_eq_mem, decide_eq_false_iff_not,
    List.mem_cons, List.not_mem_nil, or_false, not_or]
  exact ⟨hchar .less, hchar .bar, hchar .greater, hchar .amp, hchar .semi, hchar .lparen, hchar .rparen⟩

/-- A character of one of `toks`, all of them symbols, is a symbol. -/
theorem strchr_symbols_of_mem {toks : List Char} (htoks : ∀ c ∈ toks, c ∈ symbols) {c : UInt8}
    (h : strchr toks c = true) : strchr symbols c = true := by
  simp only [strchr, List.contains_eq_mem, decide_eq_true_eq, List.mem_map] at h ⊢
  obtain ⟨x, hx, rfl⟩ := h
  exact ⟨x, htoks x hx, rfl⟩

/-! ## One token -/

/-- The bytes from `q` to `e` are a whole word of the line. -/
structure IsWord (buf : Buf) (es q e : Nat) : Prop where
  lt : q < e
  le : e ≤ es
  inside : ∀ i, q ≤ i → i < e → strchr whitespace (byteAt buf i) = false ∧ strchr symbols (byteAt buf i) = false
  stop : e = es ∨ strchr whitespace (byteAt buf e) = true ∨ strchr symbols (byteAt buf e) = true

variable {buf : Buf} {es s : Nat}

/-- What a token at offset `s` can be, and where the cursor is after it. -/
inductive Reads (buf : Buf) (es s : Nat) : Tok → Nat → Prop
  | eof (hspace : skipSpace buf es s = es) : Reads buf es s .eof es
  | sym (k : Sym) (t : Nat) (hlt : s < t) (hle : t ≤ es)
      (hchar : byteAt buf (skipSpace buf es s) = ofChar k.char) : Reads buf es s (.sym k) t
  | word (e t : Nat) (hword : IsWord buf es (skipSpace buf es s) e) (hlt : s < t) (hle : t ≤ es) :
      Reads buf es s (.word (skipSpace buf es s) e) t

theorem skipSpace_bounds (buf : Buf) (hs : s ≤ es) : s ≤ skipSpace buf es s ∧ skipSpace buf es s ≤ es :=
  ⟨le_scan, scan_le hs⟩

theorem skipSpace_skipSpace (hs : s ≤ es) : skipSpace buf es (skipSpace buf es s) = skipSpace buf es s :=
  scan_scan hs

/-- The scan of a word covers all of it. -/
theorem isWord_skipWord (hlt : s < es) (hspace : strchr whitespace (byteAt buf s) = false)
    (hsym : strchr symbols (byteAt buf s) = false) : IsWord buf es s (skipWord buf es s) := by
  constructor
  · apply lt_scan hlt
    rw [hspace, hsym]
    rfl
  · exact scan_le (Nat.le_of_lt hlt)
  · intro i hi hie
    have hall := scan_all hi hie
    simpa using hall
  · rcases Nat.eq_or_lt_of_le (scan_le (p := fun i => !strchr whitespace (byteAt buf i) &&
        !strchr symbols (byteAt buf i)) (Nat.le_of_lt hlt)) with heq | hstop
    · exact .inl heq
    right
    have hfail := scan_stop hstop
    rw [Bool.and_eq_false_iff, Bool.not_eq_false', Bool.not_eq_false'] at hfail
    exact hfail

theorem token_of_tokenAt {tok : Tok} {e : Nat} (h : tokenAt buf es (skipSpace buf es s) = (tok, e)) :
    token buf es s = (tok, skipSpace buf es e) := by
  rw [token, h]

theorem token_reads (h : Terminated buf es) (hs : s ≤ es) :
    ∃ tok t, token buf es s = (tok, t) ∧ Reads buf es s tok t := by
  obtain ⟨hle, hes⟩ := skipSpace_bounds buf hs
  rcases Nat.eq_or_lt_of_le hes with heq | hlt
  · -- only spaces are left
    have htok : tokenAt buf es (skipSpace buf es s) = (.eof, es) := by
      rw [tokenAt, heq, if_pos h.nul]
    refine ⟨.eof, es, ?_, .eof heq⟩
    rw [token_of_tokenAt htok, skipSpace, scan_end]
  have hnospace : strchr whitespace (byteAt buf (skipSpace buf es s)) = false := scan_stop hlt
  have hne := h.byte_ne _ hlt
  -- a symbol that ends at `e`
  have hsymbol : ∀ (k : Sym) (e : Nat), byteAt buf (skipSpace buf es s) = ofChar k.char →
      skipSpace buf es s < e → e ≤ es → tokenAt buf es (skipSpace buf es s) = (.sym k, e) →
      ∃ tok t, token buf es s = (tok, t) ∧ Reads buf es s tok t := by
    intro k e hchar hgt hle' htok
    obtain ⟨hge, hend⟩ := skipSpace_bounds buf hle'
    exact ⟨_, _, token_of_tokenAt htok, .sym k _ (by omega) hend hchar⟩
  cases hplain : plainSym (byteAt buf (skipSpace buf es s)) with
  | some k =>
    apply hsymbol k (skipSpace buf es s + 1) (plainSym_some hplain) (Nat.lt_succ_self _) hlt
    rw [tokenAt, if_neg hne, hplain]
  | none =>
    by_cases hgt : byteAt buf (skipSpace buf es s) = ofChar '>'
    · by_cases hgt2 : byteAt buf (skipSpace buf es s + 1) = ofChar '>'
      · -- the second character is not the NUL
        have hlt2 : skipSpace buf es s + 1 ≠ es := by
          intro heq
          rw [heq, h.nul] at hgt2
          exact absurd hgt2 (by decide)
        apply hsymbol .append (skipSpace buf es s + 2) hgt (by omega) (by omega)
        rw [tokenAt, if_neg hne, hplain]
        exact (if_pos hgt).trans (if_pos hgt2)
      · apply hsymbol .greater (skipSpace buf es s + 1) hgt (by omega) hlt
        rw [tokenAt, if_neg hne, hplain]
        exact (if_pos hgt).trans (if_neg hgt2)
    · have hword := isWord_skipWord hlt hnospace (strchr_symbols_of_none hplain hgt)
      have htok : tokenAt buf es (skipSpace buf es s) =
          (.word (skipSpace buf es s) (skipWord buf es (skipSpace buf es s)),
            skipWord buf es (skipSpace buf es s)) := by
        rw [tokenAt, if_neg hne, hplain]
        exact if_neg hgt
      obtain ⟨hge, hend⟩ := skipSpace_bounds buf hword.le
      have hstart := hword.lt
      exact ⟨_, _, token_of_tokenAt htok, .word _ _ hword (by omega) hend⟩

/-! ## The sequence of tokens -/

/-- `gettoken`, `n` times at most, up to the end of the line. -/
def tokensFrom (buf : Buf) (es : Nat) : Nat → Nat → List Tok
  | 0, _ => []
  | n + 1, s =>
    match (token buf es s).1 with
    | .eof => []
    | tok => tok :: tokensFrom buf es n (token buf es s).2

/-- The tokens from `s` on. Each takes a character of the line, so there are no more than `es - s`. -/
def tokens (buf : Buf) (es s : Nat) : List Tok := tokensFrom buf es (es - s) s

theorem tokensFrom_succ_eof {n : Nat} (h : (token buf es s).1 = .eof) : tokensFrom buf es (n + 1) s = [] := by
  rw [tokensFrom, h]

theorem tokensFrom_succ {n : Nat} (h : (token buf es s).1 ≠ .eof) :
    tokensFrom buf es (n + 1) s = (token buf es s).1 :: tokensFrom buf es n (token buf es s).2 := by
  rw [tokensFrom]
  split
  next heq => exact absurd heq h
  · rfl

section

variable (h : Terminated buf es)
include h

/-- A token that is not the end of the line moves the cursor. -/
theorem lt_of_token_ne_eof (hs : s ≤ es) (htok : (token buf es s).1 ≠ .eof) :
    s < (token buf es s).2 ∧ (token buf es s).2 ≤ es := by
  obtain ⟨tok, t, heq, hread⟩ := token_reads h hs
  rw [heq] at htok ⊢
  cases hread with
  | eof => exact absurd rfl htok
  | sym k t hlt hle => exact ⟨hlt, hle⟩
  | word e t _ hlt hle => exact ⟨hlt, hle⟩

theorem token_end : (token buf es es).1 = .eof := by
  by_contra hne
  obtain ⟨hlt, hle⟩ := lt_of_token_ne_eof h (Nat.le_refl es) hne
  omega

theorem tokensFrom_end (n : Nat) : tokensFrom buf es n es = [] := by
  cases n with
  | zero => rfl
  | succ n => exact tokensFrom_succ_eof (token_end h)

/-- Any number of calls that covers what is left gives the same sequence. -/
theorem tokensFrom_eq {m n : Nat} (hs : s ≤ es) (hm : es - s ≤ m) (hn : es - s ≤ n) :
    tokensFrom buf es m s = tokensFrom buf es n s := by
  induction m generalizing n s with
  | zero =>
    obtain rfl : s = es := by omega
    rw [tokensFrom_end h, tokensFrom_end h]
  | succ m ih =>
    cases n with
    | zero =>
      obtain rfl : s = es := by omega
      rw [tokensFrom_end h, tokensFrom_end h]
    | succ n =>
      by_cases htok : (token buf es s).1 = .eof
      · rw [tokensFrom_succ_eof htok, tokensFrom_succ_eof htok]
      · obtain ⟨hlt, hle⟩ := lt_of_token_ne_eof h hs htok
        rw [tokensFrom_succ htok, tokensFrom_succ htok, ih hle (by omega) (n := n) (by omega)]

theorem tokens_eof (hs : s ≤ es) (htok : (token buf es s).1 = .eof) : tokens buf es s = [] := by
  rw [tokens, tokensFrom_eq h hs (Nat.le_refl _) (Nat.le_succ _), tokensFrom_succ_eof htok]

theorem tokens_cons (hs : s ≤ es) (htok : (token buf es s).1 ≠ .eof) :
    tokens buf es s = (token buf es s).1 :: tokens buf es (token buf es s).2 := by
  obtain ⟨hlt, hle⟩ := lt_of_token_ne_eof h hs htok
  rw [tokens, tokensFrom_eq h hs (Nat.le_refl _) (Nat.le_succ _), tokensFrom_succ htok]
  congr 1
  exact tokensFrom_eq h hle (by omega) (Nat.le_refl _)

/-- Spaces before a token do not count. -/
theorem tokens_skipSpace (hs : s ≤ es) : tokens buf es (skipSpace buf es s) = tokens buf es s := by
  have hsame : token buf es (skipSpace buf es s) = token buf es s := by
    rw [token, skipSpace_skipSpace hs]
    rfl
  have hle := (skipSpace_bounds buf hs).2
  by_cases htok : (token buf es s).1 = .eof
  · rw [tokens_eof h hs htok, tokens_eof h hle (hsame ▸ htok)]
  · rw [tokens_cons h hs htok, tokens_cons h hle (hsame ▸ htok), hsame]

/-- No tokens are left exactly when only spaces are. -/
theorem tokens_eq_nil_iff (hs : s ≤ es) : tokens buf es s = [] ↔ skipSpace buf es s = es := by
  by_cases htok : (token buf es s).1 = .eof
  · refine iff_of_true (tokens_eof h hs htok) ?_
    obtain ⟨tok, t, heq, hread⟩ := token_reads h hs
    rw [heq] at htok
    cases hread with
    | eof hspace => exact hspace
    | sym => cases htok
    | word => cases htok
  · refine iff_of_false (by rw [tokens_cons h hs htok]; exact List.cons_ne_nil _ _) ?_
    intro hspace
    have hsame : token buf es es = token buf es s := by
      rw [token, token, hspace, skipSpace, scan_end]
    exact htok (hsame ▸ token_end h)

/-- The words among the tokens are words of the line. -/
theorem isWord_of_mem_tokens (hs : s ≤ es) {q e : Nat}
    (hmem : Tok.word q e ∈ tokens buf es s) : IsWord buf es q e := by
  -- by induction on how much of the line is left
  induction hn : es - s using Nat.strongRecOn generalizing s with
  | _ n ih =>
    by_cases htok : (token buf es s).1 = .eof
    · rw [tokens_eof h hs htok] at hmem
      cases hmem
    obtain ⟨hlt, hle⟩ := lt_of_token_ne_eof h hs htok
    rw [tokens_cons h hs htok, List.mem_cons] at hmem
    rcases hmem with hhere | hlater
    · obtain ⟨tok, t, heq, hread⟩ := token_reads h hs
      rw [heq] at hhere
      subst hhere
      cases hread with
      | word e t hword _ _ => exact hword
    · exact ih (es - (token buf es s).2) (by omega) hle hlater rfl

end

/-! ## The two ways to look at the next token -/

/-- The first token is a symbol that starts with one of `toks`. -/
def heads (toks : List Char) : List Tok → Bool
  | .sym k :: _ => strchr toks (ofChar k.char)
  | _ => false

/-- The cursor moves from `s` to `t` over the tokens `ts`. -/
structure Takes (buf : Buf) (es s : Nat) (ts : List Tok) (t : Nat) : Prop where
  le : s ≤ t
  end_le : t ≤ es
  tokens_eq : tokens buf es s = ts ++ tokens buf es t

theorem Takes.trans {t u : Nat} {ts us : List Tok} (h : Takes buf es s ts t) (h' : Takes buf es t us u) :
    Takes buf es s (ts ++ us) u where
  le := h.le.trans h'.le
  end_le := h'.end_le
  tokens_eq := by rw [h.tokens_eq, h'.tokens_eq, List.append_assoc]

variable {E : Stop → Prop}

theorem peek_spec (h : Terminated buf es) (hs : s ≤ es) {toks : List Char} (htoks : ∀ c ∈ toks, c ∈ symbols) :
    wp (peek buf es toks) (fun found t => Takes buf es s [] t ∧ found = heads toks (tokens buf es t)) E s := by
  refine wp_bind.mpr (wp_get.mpr (wp_bind.mpr (wp_set.mpr (wp_pure.mpr ?_))))
  obtain ⟨hle, hes⟩ := skipSpace_bounds buf hs
  refine ⟨⟨hle, hes, (tokens_skipSpace h hs).symm⟩, ?_⟩
  rw [tokens_skipSpace h hs]
  by_cases htok : (token buf es s).1 = .eof
  · rw [tokens_eof h hs htok, (tokens_eq_nil_iff h hs).mp (tokens_eof h hs htok), h.nul]
    rfl
  rw [tokens_cons h hs htok]
  have hne : byteAt buf (skipSpace buf es s) ≠ 0 := by
    apply h.byte_ne
    apply lt_of_le_of_ne hes
    intro hend
    have := (tokens_eq_nil_iff h hs).mpr hend
    rw [tokens_cons h hs htok] at this
    cases this
  rw [decide_eq_true hne, Bool.true_and]
  obtain ⟨tok, t, heq, hread⟩ := token_reads h hs
  rw [heq] at htok ⊢
  cases hread with
  | eof => exact absurd rfl htok
  | sym k t _ _ hchar =>
    rw [hchar]
    rfl
  | word e t hword _ _ =>
    apply Bool.eq_false_iff.mpr
    intro hfound
    have := (hword.inside _ (Nat.le_refl _) hword.lt).2
    rw [strchr_symbols_of_mem htoks hfound] at this
    cases this

theorem gettoken_spec (h : Terminated buf es) (hs : s ≤ es) :
    wp (gettoken buf es) (fun tok t => (tok = .eof ∧ tokens buf es s = [] ∧ Takes buf es s [] t) ∨
      (tok ≠ .eof ∧ s < t ∧ Takes buf es s [tok] t)) E s := by
  refine wp_bind.mpr (wp_get.mpr (wp_bind.mpr (wp_set.mpr (wp_pure.mpr ?_))))
  by_cases htok : (token buf es s).1 = .eof
  · left
    refine ⟨htok, tokens_eof h hs htok, ?_⟩
    obtain ⟨tok, t, heq, hread⟩ := token_reads h hs
    have hnil := tokens_eof h hs htok
    rw [heq] at htok ⊢
    cases hread with
    | eof => exact ⟨hs, Nat.le_refl _, by rw [hnil, tokens_eof h (Nat.le_refl _) (token_end h)]; rfl⟩
    | sym => cases htok
    | word => cases htok
  · right
    obtain ⟨hlt, hle⟩ := lt_of_token_ne_eof h hs htok
    exact ⟨htok, hlt, hlt.le, hle, tokens_cons h hs htok⟩

end Xv6Lab.Shell
