import Mathlib.Data.List.GetD
import Xv6Lab.Shell.Parser

/-!
# The parser accepts the grammar

A derivation of a prefix of the tokens, followed by a token that can follow it, is the one the parser finds
(`Line.complete`). `nulterminate` writes only at the ends of words, and there stands a space, a symbol or the NUL, so
no byte of a word is overwritten (`cstring_nulterminate`). Together with soundness, `parsecmd_accepts_line`: the
parser returns the tree of the line's derivation when there is one within the word limit, with every word terminated,
and calls `panic` when there is none.
-/

namespace Xv6Lab.Shell

open Lib.Exec List

variable {buf : Buf} {es s : Nat} {rest ts : List Tok} {ks : List Sym} {buf' : Buf} {fuel : Nat}

/-! ## What can follow -/

/-- The tokens are at an end or go on with one of the symbols `ks`. -/
def Follow (ks : List Sym) (ts : List Tok) : Prop := ∀ t ∈ ts.head?, ∃ k ∈ ks, t = .sym k

theorem follow_cons {k : Sym} (h : k ∈ ks) (ts : List Tok) : Follow ks (.sym k :: ts) := by
  intro t ht
  cases ht
  exact ⟨k, h, rfl⟩

theorem Follow.mono {js : List Sym} (h : Follow ks ts) (hsub : ∀ k ∈ ks, k ∈ js) : Follow js ts := by
  intro t ht
  obtain ⟨k, hk, rfl⟩ := h t ht
  exact ⟨k, hsub k hk, rfl⟩

theorem Follow.cases (h : Follow ks ts) : ts = [] ∨ ∃ k ∈ ks, ∃ us, ts = .sym k :: us := by
  cases ts with
  | nil => exact .inl rfl
  | cons t us =>
    obtain ⟨k, hk, rfl⟩ := h t rfl
    exact .inr ⟨k, hk, us, rfl⟩

/-- `peek` does not find what cannot follow. -/
theorem heads_of_follow {toks : List Char} (h : Follow ks ts)
    (hks : ∀ k ∈ ks, strchr toks (ofChar k.char) = false) : heads toks ts = false := by
  rcases h.cases with rfl | ⟨k, hk, us, rfl⟩
  · rfl
  · exact hks k hk

/-- A branch on a symbol that follows. -/
theorem wp_peek_found (h : Terminated buf es) (k : Sym) (hk : k.char ≠ '>') (hs : s ≤ es) {f : Tok → ShM Cmd}
    {g : ShM Cmd} {S : Cmd → Nat → Prop} {E : Stop → Prop} (htok : tokens buf es s = .sym k :: ts)
    (hf : ∀ t, Takes buf es s [.sym k] t → tokens buf es t = ts → wp (f (.sym k)) S E t) :
    wp (do if ← peek buf es [k.char] then f (← gettoken buf es) else g) S E s := by
  apply wp_peek_sym h k hk hs
  · exact fun t _ ht => hf t ht (ht.rest htok)
  · intro t _ hnone
    have hself : strchr [k.char] (ofChar k.char) = true := by simp [strchr]
    rw [htok, heads, hself] at hnone
    cases hnone

def lineFollow : List Sym := [.rparen]

def pipeFollow : List Sym := [.amp, .semi, .rparen]

def execFollow : List Sym := [.bar, .amp, .semi, .rparen]

/-- After the redirections of a word comes another word or the end. -/
theorem heads_args (as : List Arg) (hrest : Follow execFollow rest) :
    heads ['<', '>'] (argsYield as ++ rest) = false := by
  cases as with
  | nil => exact heads_of_follow hrest (by decide)
  | cons a as => rfl

/-! ## Redirections and words -/

section

variable (h : Terminated buf es) (n : Nat)
include h n

theorem parseredirs_complete (cmd : Cmd) (rs : List Redir)
    (hs : s ≤ es) (htok : tokens buf es s = redirsYield rs ++ rest) (hrest : heads ['<', '>'] rest = false) :
    wp (parseredirs buf es n cmd) (fun r t => r = wrap cmd rs ∧ Takes buf es s (redirsYield rs) t) (· = .fuel) s := by
  induction n generalizing cmd s rs with
  | zero => exact wp_throw.mpr rfl
  | succ n ih =>
    rw [parseredirs]
    refine wp_then (peek_known h hs (by simp [symbols]) htok) ?_
    rintro - t ⟨ht, htok', rfl⟩
    cases rs with
    | nil =>
      have hnone : ¬ heads ['<', '>'] (redirsYield [] ++ rest) = true := Bool.eq_false_iff.mp hrest
      rw [if_neg hnone]
      exact wp_pure.mpr ⟨rfl, ht⟩
    | cons r rs =>
      have hfound : heads ['<', '>'] (redirsYield (r :: rs) ++ rest) = true := by
        show strchr ['<', '>'] (ofChar r.op.sym.char) = true
        cases r.op <;> decide
      rw [if_pos hfound]
      refine wp_then (gettoken_cons h ht.end_le htok') ?_
      rintro - u ⟨rfl, -, hu, hutok⟩
      refine wp_then (gettoken_cons h hu.end_le hutok) ?_
      rintro - v ⟨rfl, -, hv, hvtok⟩
      refine wp_post (ih _ rs hv.end_le hvtok) ?_
      rintro - w ⟨rfl, hw⟩
      refine ⟨?_, ((ht.trans hu).trans hv).trans hw⟩
      rw [redirect_sym, ← wrap_append]
      rfl

theorem execLoop_complete {ret : Cmd} {ws : List (Nat × Nat)}
    (as : List Arg) (rs : List Redir) (hret : ret = wrap (.exec ws) rs) (hcount : ws.length + as.length ≤ maxargs - 1)
    (hs : s ≤ es) (htok : tokens buf es s = argsYield as ++ rest) (hrest : Follow execFollow rest) :
    wp (execLoop buf es n ret ws.length)
      (fun r t => r = wrap (.exec (ws ++ argv as)) (rs ++ as.flatMap Arg.redirs) ∧ Takes buf es s (argsYield as) t)
      (· = .fuel) s := by
  induction n generalizing ret rs ws s as with
  | zero => exact wp_throw.mpr rfl
  | succ n ih =>
    rw [execLoop]
    refine wp_then (peek_known h hs (by simp [symbols]) htok) ?_
    rintro - t ⟨ht, htok', rfl⟩
    cases as with
    | nil =>
      have hdone : ret = wrap (.exec (ws ++ argv [])) (rs ++ [].flatMap Arg.redirs) := by
        rw [hret]
        simp [argv]
      -- the loop ends at a symbol that follows, or at the end of the line
      rcases hrest.cases with rfl | ⟨k, hk, us, rfl⟩
      · rw [if_neg (by decide)]
        refine wp_then (gettoken_spec h ht.end_le) ?_
        rintro tok u (⟨rfl, -, hu⟩ | ⟨-, -, hu⟩)
        · exact wp_pure.mpr ⟨hdone, ht.trans hu⟩
        · rw [hu.tokens_eq] at htok'
          cases htok'
      · have hfound : heads ['|', ')', '&', ';'] (argsYield [] ++ .sym k :: us) = true := by
          have hstop : ∀ k ∈ execFollow, strchr ['|', ')', '&', ';'] (ofChar k.char) = true := by decide
          exact hstop k hk
        rw [if_pos hfound]
        exact wp_pure.mpr ⟨hdone, ht⟩
    | cons a as =>
      rw [if_neg (by exact Bool.false_ne_true)]
      have hword : tokens buf es t = .word a.start a.stop :: (redirsYield a.redirs ++ (argsYield as ++ rest)) := by
        rw [htok', ← append_assoc]
        rfl
      refine wp_then (gettoken_cons h ht.end_le hword) ?_
      rintro - u ⟨rfl, -, hu, hutok⟩
      rw [length_cons] at hcount
      have hroom : ¬ maxargs ≤ ws.length + 1 := by
        omega
      dsimp only
      rw [if_neg hroom]
      refine wp_then (parseredirs_complete h n (ret.addArg (a.start, a.stop)) a.redirs hu.end_le hutok
        (heads_args as hrest)) ?_
      rintro - v ⟨rfl, hv⟩
      have hlen : ws.length + 1 = (ws ++ [(a.start, a.stop)]).length := by simp
      rw [hlen]
      refine wp_post (ih as (rs ++ a.redirs) ?_ ?_ hv.end_le (hv.rest hutok)) ?_
      · rw [hret, addArg_wrap, wrap_append]
        rfl
      · rw [length_append, length_singleton]
        omega
      · rintro - w ⟨rfl, hw⟩
        refine ⟨?_, ((ht.trans hu).trans hv).trans hw⟩
        simp [argv]

theorem backLoop_complete (cmd : Cmd) (amps : Nat) (hs : s ≤ es)
    (htok : tokens buf es s = replicate amps (.sym .amp) ++ rest) (hrest : heads ['&'] rest = false) :
    wp (backLoop buf es n cmd)
      (fun r t => r = Cmd.back^[amps] cmd ∧ Takes buf es s (replicate amps (.sym .amp)) t) (· = .fuel) s := by
  induction n generalizing cmd s amps with
  | zero => exact wp_throw.mpr rfl
  | succ n ih =>
    rw [backLoop]
    cases amps with
    | zero =>
      refine wp_then (peek_known h hs (by simp [symbols]) htok) ?_
      rintro - t ⟨ht, -, rfl⟩
      have hnone : ¬ heads ['&'] (replicate 0 (.sym .amp) ++ rest) = true := Bool.eq_false_iff.mp hrest
      rw [if_neg hnone]
      exact wp_pure.mpr ⟨rfl, ht⟩
    | succ amps =>
      apply wp_peek_found h .amp (by decide) hs htok
      intro t ht httok
      refine wp_post (ih (.back cmd) amps ht.end_le httok) ?_
      rintro - u ⟨rfl, hu⟩
      exact ⟨rfl, ht.trans hu⟩

end

/-! ## Completeness -/

/-- A simple command does not start with a parenthesis. -/
theorem heads_simple (rs : List Redir) (as : List Arg) (hrest : Follow execFollow rest) :
    heads ['('] (redirsYield rs ++ (argsYield as ++ rest)) = false := by
  cases rs with
  | cons r rs =>
    show strchr ['('] (ofChar r.op.sym.char) = false
    cases r.op <;> decide
  | nil =>
    cases as with
    | cons a as => rfl
    | nil => exact heads_of_follow hrest (by decide)

mutual

/-- A derivation of what comes first in the tokens is the one that is found. -/
theorem Line.complete (h : Terminated buf es) : ∀ (d : Line) (n s : Nat) {rest : List Tok}, s ≤ es →
    tokens buf es s = d.yield ++ rest → Follow lineFollow rest → d.Fits →
    wp (parseline buf es n) (fun cmd t => cmd = d.tree ∧ Takes buf es s d.yield t) (· = .fuel) s
  | _, 0, _, _, _, _, _, _ => wp_throw.mpr rfl
  | .last p amps, n + 1, s, rest, hs, htok, hrest, hfits => by
      rw [Line.yield, append_assoc] at htok
      have hpipe : Follow pipeFollow (replicate amps (.sym .amp) ++ rest) := by
        cases amps with
        | zero => exact hrest.mono (by decide)
        | succ amps => exact follow_cons (by decide) _
      rw [parseline]
      refine wp_then (Pipe.complete h p n s hs htok hpipe hfits) ?_
      rintro - t ⟨rfl, ht⟩
      have htok' := ht.rest htok
      refine wp_then (backLoop_complete h n p.tree amps ht.end_le htok' (heads_of_follow hrest (by decide))) ?_
      rintro - u ⟨rfl, hu⟩
      refine wp_then (peek_known h hu.end_le (by simp [symbols]) (hu.rest htok')) ?_
      rintro - v ⟨hv, -, rfl⟩
      rw [if_neg (Bool.eq_false_iff.mp (heads_of_follow hrest (by decide)))]
      exact wp_pure.mpr ⟨rfl, (ht.trans hu).skip hv⟩
  | .seq p amps next, n + 1, s, rest, hs, htok, hrest, hfits => by
      rw [Line.yield, append_assoc, append_assoc] at htok
      have hpipe : Follow pipeFollow (replicate amps (.sym .amp) ++ (.sym .semi :: next.yield ++ rest)) := by
        cases amps with
        | zero | succ => exact follow_cons (by decide) _
      rw [parseline]
      refine wp_then (Pipe.complete h p n s hs htok hpipe hfits.1) ?_
      rintro - t ⟨rfl, ht⟩
      have htok' := ht.rest htok
      refine wp_then (backLoop_complete h n p.tree amps ht.end_le htok' (by rfl)) ?_
      rintro - u ⟨rfl, hu⟩
      apply wp_peek_found h .semi (by decide) hu.end_le (hu.rest htok')
      intro v hv hvtok
      refine wp_then (Line.complete h next n v hv.end_le hvtok hrest hfits.2) ?_
      rintro - w ⟨rfl, hw⟩
      exact wp_pure.mpr ⟨rfl, ht.trans (hu.trans (hv.trans hw))⟩

theorem Pipe.complete (h : Terminated buf es) : ∀ (d : Pipe) (n s : Nat) {rest : List Tok}, s ≤ es →
    tokens buf es s = d.yield ++ rest → Follow pipeFollow rest → d.Fits →
    wp (parsepipe buf es n) (fun cmd t => cmd = d.tree ∧ Takes buf es s d.yield t) (· = .fuel) s
  | _, 0, _, _, _, _, _, _ => wp_throw.mpr rfl
  | .last e, n + 1, s, rest, hs, htok, hrest, hfits => by
      rw [parsepipe]
      refine wp_then (Exec.complete h e n s hs htok (hrest.mono (by decide)) hfits) ?_
      rintro - t ⟨rfl, ht⟩
      refine wp_then (peek_known h ht.end_le (by simp [symbols]) (ht.rest htok)) ?_
      rintro - u ⟨hu, -, rfl⟩
      rw [if_neg (Bool.eq_false_iff.mp (heads_of_follow hrest (by decide)))]
      exact wp_pure.mpr ⟨rfl, ht.skip hu⟩
  | .bar e next, n + 1, s, rest, hs, htok, hrest, hfits => by
      rw [Pipe.yield, append_assoc] at htok
      rw [parsepipe]
      refine wp_then (Exec.complete h e n s hs htok (follow_cons (by decide) _) hfits.1) ?_
      rintro - t ⟨rfl, ht⟩
      apply wp_peek_found h .bar (by decide) ht.end_le (ht.rest htok)
      intro u hu hutok
      refine wp_then (Pipe.complete h next n u hu.end_le hutok hrest hfits.2) ?_
      rintro - v ⟨rfl, hv⟩
      exact wp_pure.mpr ⟨rfl, ht.trans (hu.trans hv)⟩

theorem Exec.complete (h : Terminated buf es) : ∀ (d : Exec) (n s : Nat) {rest : List Tok}, s ≤ es →
    tokens buf es s = d.yield ++ rest → Follow execFollow rest → d.Fits →
    wp (parseexec buf es n) (fun cmd t => cmd = d.tree ∧ Takes buf es s d.yield t) (· = .fuel) s
  | _, 0, _, _, _, _, _, _ => wp_throw.mpr rfl
  | .block l rs, n + 1, s, rest, hs, htok, hrest, hfits => by
      rw [parseexec]
      refine wp_then (peek_known h hs (by simp [symbols]) htok) ?_
      rintro - t ⟨ht, htok', rfl⟩
      rw [if_pos (by rfl)]
      cases n with
      | zero =>
        rw [parseblock]
        exact wp_throw.mpr rfl
      | succ n =>
        rw [parseblock]
        apply wp_peek_found h .lparen (by decide) ht.end_le htok'
        intro u hu hutok
        have hutok : tokens buf es u = l.yield ++ (.sym .rparen :: redirsYield rs ++ rest) := by
          rw [hutok, ← append_assoc]
          rfl
        refine wp_then (Line.complete h l n u hu.end_le hutok (follow_cons (by decide) _) hfits) ?_
        rintro - v ⟨rfl, hv⟩
        apply wp_peek_found h .rparen (by decide) hv.end_le (hv.rest hutok)
        intro w hw hwtok
        refine wp_post (parseredirs_complete h n l.tree rs hw.end_le hwtok (heads_of_follow hrest (by decide))) ?_
        rintro - x ⟨rfl, hx⟩
        exact ⟨rfl, (ht.trans hu).trans (hv.trans (hw.trans hx))⟩
  | .simple rs as, n + 1, s, rest, hs, htok, hrest, hfits => by
      rw [Exec.yield, append_assoc] at htok
      rw [parseexec]
      refine wp_then (peek_known h hs (by simp [symbols]) htok) ?_
      rintro - t ⟨ht, htok', rfl⟩
      rw [if_neg (Bool.eq_false_iff.mp (heads_simple rs as hrest))]
      refine wp_then (parseredirs_complete h n (.exec []) rs ht.end_le htok' (heads_args as hrest)) ?_
      rintro - u ⟨rfl, hu⟩
      have hcount : ([] : List (Nat × Nat)).length + as.length ≤ maxargs - 1 := by
        rw [length_nil, Nat.zero_add]
        exact hfits
      refine wp_post (execLoop_complete h n as _ rfl hcount hu.end_le (hu.rest htok') hrest) ?_
      rintro - v ⟨rfl, hv⟩
      exact ⟨rfl, (ht.trans hu).trans hv⟩

end

/-! ## Terminated words -/

/-- The C string at offset `q`. -/
def cstring (buf : Buf) (q : Nat) : List UInt8 := (buf.drop q).takeWhile (· ≠ 0)

/-- The bytes of a token. -/
def text (buf : Buf) (w : Nat × Nat) : List UInt8 := (buf.drop w.1).take (w.2 - w.1)

theorem byteAt_putNul (buf : Buf) (s i : Nat) : byteAt (putNul buf s) i = if i = s then 0 else byteAt buf i := by
  rw [byteAt, putNul, byteAt, getD_eq_getElem?_getD, getElem?_set, getD_eq_getElem?_getD]
  rcases eq_or_ne i s with rfl | hi
  · rw [if_pos rfl, if_pos rfl]
    split <;> rfl
  · rw [if_neg (Ne.symm hi), if_neg hi]

theorem length_putNul (buf : Buf) (s : Nat) : (putNul buf s).length = buf.length := length_set

/-- What `nulterminate` does: it clears the bytes at the ends of the words, and no others. -/
structure Cleared (ends : List Nat) (buf buf' : Buf) : Prop where
  length : buf'.length = buf.length
  byte : ∀ i, byteAt buf' i = if i ∈ ends then 0 else byteAt buf i

theorem Cleared.refl (buf : Buf) : Cleared [] buf buf := ⟨rfl, fun _ => (if_neg not_mem_nil).symm⟩

theorem Cleared.trans {ends ends' : List Nat} {buf'' : Buf} (h : Cleared ends buf buf')
    (h' : Cleared ends' buf' buf'') : Cleared (ends ++ ends') buf buf'' where
  length := h'.length.trans h.length
  byte i := by
    rw [h'.byte, h.byte]
    by_cases h1 : i ∈ ends
    · simp [h1]
    · simp [h1]

theorem cleared_putNul (buf : Buf) (s : Nat) : Cleared [s] buf (putNul buf s) where
  length := length_putNul buf s
  byte i := by simp [byteAt_putNul]

theorem cleared_nulterminate : ∀ (cmd : Cmd) (buf : Buf), Cleared (cmd.words.map Prod.snd) buf (nulterminate cmd buf)
  | .exec argv, buf => by
      rw [nulterminate, Cmd.words]
      induction argv generalizing buf with
      | nil => exact .refl buf
      | cons w argv ih => exact (cleared_putNul buf w.2).trans (ih _)
  | .redir cmd file efile mode fd, buf => by
      rw [nulterminate, Cmd.words, map_append]
      exact (cleared_nulterminate cmd buf).trans (cleared_putNul _ efile)
  | .pipe left right, buf => by
      rw [nulterminate, Cmd.words, map_append]
      exact (cleared_nulterminate left buf).trans (cleared_nulterminate right _)
  | .list left right, buf => by
      rw [nulterminate, Cmd.words, map_append]
      exact (cleared_nulterminate left buf).trans (cleared_nulterminate right _)
  | .back cmd, buf => cleared_nulterminate cmd buf

theorem lt_length_of_byteAt (h : byteAt buf s ≠ 0) : s < buf.length := by
  by_contra hge
  exact h (getD_eq_default _ _ (Nat.le_of_not_lt hge))

/-- A string whose bytes are those of `[q, e)`, none of them NUL, and that has a NUL at `e`. -/
theorem cstring_eq {q e : Nat} (hqe : q ≤ e) (hsame : ∀ i, q ≤ i → i < e → byteAt buf' i = byteAt buf i)
    (hne : ∀ i, q ≤ i → i < e → byteAt buf i ≠ 0) (hnul : byteAt buf' e = 0) :
    cstring buf' q = text buf (q, e) := by
  obtain ⟨n, rfl⟩ := Nat.exists_eq_add_of_le hqe
  rw [cstring, text, Nat.add_sub_cancel_left]
  clear hqe
  -- the string is read byte by byte
  induction n generalizing q with
  | zero =>
    rw [take_zero]
    cases hdrop : buf'.drop q with
    | nil => rfl
    | cons c cs =>
      have hc : byteAt buf' q = c := by
        rw [byteAt, getD_eq_getElem?_getD, ← Nat.add_zero q, ← getElem?_drop, hdrop]
        rfl
      rw [Nat.add_zero, hc] at hnul
      simp [hnul]
  | succ n ih =>
    have hq : byteAt buf' q = byteAt buf q := hsame q (Nat.le_refl q) (by omega)
    have hq0 := hne q (Nat.le_refl q) (by omega)
    have hlt := lt_length_of_byteAt hq0
    have hlt' := lt_length_of_byteAt (hq ▸ hq0)
    have hget : buf'[q] = buf[q] := by
      rw [byteAt, byteAt, getD_eq_getElem _ _ hlt', getD_eq_getElem _ _ hlt] at hq
      exact hq
    have hget0 : buf[q] ≠ 0 := by
      rw [byteAt, getD_eq_getElem _ _ hlt] at hq0
      exact hq0
    rw [drop_eq_getElem_cons hlt', drop_eq_getElem_cons hlt, take_succ_cons, hget,
      takeWhile_cons_of_pos (by simpa using hget0)]
    congr 1
    apply ih
    · intro i hi hie
      exact hsame i (by omega) (by omega)
    · intro i hi hie
      exact hne i (by omega) (by omega)
    · rw [← hnul]
      congr 1
      omega

/-- The end of one word is not inside another. -/
theorem IsWord.end_not_inside {q e q' e' : Nat} (h : IsWord buf es q e) (h' : IsWord buf es q' e') :
    ¬ (q ≤ e' ∧ e' < e) := by
  rintro ⟨hge, hlt⟩
  obtain ⟨hspace, hsym⟩ := h.inside e' hge hlt
  have hle := h.le
  rcases h'.stop with heq | hstop | hstop
  · omega
  · rw [hspace] at hstop
    cases hstop
  · rw [hsym] at hstop
    cases hstop

/-- After `nulterminate`, the words of a command are its tokens. -/
theorem cstring_nulterminate (h : Terminated buf es) {cmd : Cmd} (hwords : ∀ w ∈ cmd.words, IsWord buf es w.1 w.2)
    {w : Nat × Nat} (hw : w ∈ cmd.words) : cstring (nulterminate cmd buf) w.1 = text buf w := by
  have hclear := cleared_nulterminate cmd buf
  have hword := hwords w hw
  apply cstring_eq hword.lt.le
  · intro i hge hlt
    rw [hclear.byte, if_neg]
    intro hmem
    obtain ⟨w', hw', rfl⟩ := mem_map.mp hmem
    exact hword.end_not_inside (hwords w' hw') ⟨hge, hlt⟩
  · intro i _ hlt
    exact h.byte_ne i (hlt.trans_le hword.le)
  · rw [hclear.byte, if_pos (mem_map_of_mem hw)]

/-! ## The parser -/

/-- The tokens of the string at the start of the buffer. -/
def lineTokens (buf : Buf) : List Tok := tokens buf (strlen buf) 0

/-- Fuel for a line of the length of this one. -/
def parseFuel (buf : Buf) : Nat := 4 * strlen buf + 4

/-- What `parsecmd` does, from what `parseline` does. -/
theorem parsecmd_cases (fuel : Nat) (buf : Buf) :
    (∃ cmd t, parseline buf (strlen buf) fuel 0 = .ok cmd t ∧ parsecmd fuel buf =
      if skipSpace buf (strlen buf) t ≠ strlen buf then .error (.panic "syntax")
      else .ok (cmd, nulterminate cmd buf)) ∨
    (∃ e t, parseline buf (strlen buf) fuel 0 = .error e t ∧ parsecmd fuel buf = .error e) := by
  cases hline : parseline buf (strlen buf) fuel 0 with
  | ok cmd t =>
    left
    refine ⟨cmd, t, rfl, ?_⟩
    rw [parsecmd, EStateM.run, bind_of_ok hline]
    rfl
  | error e t =>
    right
    refine ⟨e, t, rfl, ?_⟩
    have hrun : (parseline buf (strlen buf) fuel >>= fun cmd => do
        let _ ← peek buf (strlen buf) []
        pure cmd) 0 = .error e t := by
      show EStateM.bind _ _ 0 = _
      rw [EStateM.bind, hline]
    rw [parsecmd, EStateM.run, hrun]

/-- A command that is returned has a derivation, and its words are terminated. -/
theorem parsecmd_sound {cmd : Cmd} (hok : parsecmd fuel buf = .ok (cmd, buf')) :
    (∃ d : Line, d.yield = lineTokens buf ∧ d.Fits ∧ cmd = d.tree) ∧
      ∀ w ∈ cmd.words, .word w.1 w.2 ∈ lineTokens buf ∧ cstring buf' w.1 = text buf w := by
  have hbuf := terminated_strlen buf
  rcases parsecmd_cases fuel buf with ⟨cmd₁, t, hline, hres⟩ | ⟨e, t, hline, hres⟩
  · rw [hok] at hres
    split at hres
    · cases hres
    next hend =>
    cases hres
    obtain ⟨d, ht, hfits, rfl⟩ := wp_ok ((sound hbuf fuel).line 0 (Nat.zero_le _)) hline
    -- nothing is left after the line
    have hnil := (tokens_eq_nil_iff hbuf ht.end_le).mpr (not_not.mp hend)
    have hyield : lineTokens buf = d.yield := by
      rw [lineTokens, ht.tokens_eq, hnil, append_nil]
    have hmem : ∀ w ∈ d.tree.words, Tok.word w.1 w.2 ∈ lineTokens buf := by
      intro w hw
      rw [hyield]
      exact mem_wordsOf.mp (d.words_subset hw)
    refine ⟨⟨d, hyield.symm, hfits, rfl⟩, fun w hw => ⟨hmem w hw, ?_⟩⟩
    exact cstring_nulterminate hbuf (fun w hw => isWord_of_mem_tokens hbuf (Nat.zero_le _) (hmem w hw)) hw
  · rw [hok] at hres
    cases hres

/-- A line with a derivation is parsed into its tree. -/
theorem parsecmd_complete (hfuel : parseFuel buf ≤ fuel) {d : Line} (hyield : d.yield = lineTokens buf)
    (hfits : d.Fits) : parsecmd fuel buf = .ok (d.tree, nulterminate d.tree buf) := by
  have hbuf := terminated_strlen buf
  have htok : tokens buf (strlen buf) 0 = d.yield ++ [] := by
    rw [append_nil, hyield]
    rfl
  have hnofollow : Follow lineFollow [] := fun t ht => by cases ht
  have hwp := wp_and (d.complete hbuf fuel 0 (Nat.zero_le _) htok hnofollow hfits)
    ((sound hbuf fuel).line 0 (Nat.zero_le _))
  rcases parsecmd_cases fuel buf with ⟨cmd, t, hline, hres⟩ | ⟨e, t, hline, hres⟩
  · obtain ⟨⟨rfl, ht⟩, -⟩ := wp_ok hwp hline
    have hend := (tokens_eq_nil_iff hbuf ht.end_le).mp (ht.rest htok)
    rw [hres, if_neg (not_not.mpr hend)]
  obtain ⟨rfl, hless⟩ := wp_error hwp hline
  have hlt := hless rfl
  have hbound : parseFuel buf = 4 * strlen buf + 4 := rfl
  omega

/-- The parser stops: it returns or calls `panic`. -/
theorem parsecmd_stops (hfuel : parseFuel buf ≤ fuel) : parsecmd fuel buf ≠ .error .fuel := by
  intro hres'
  rcases parsecmd_cases fuel buf with ⟨cmd, t, -, hres⟩ | ⟨e, t, hline, hres⟩
  · rw [hres'] at hres
    split at hres
    · cases hres
    · cases hres
  · rw [hres'] at hres
    cases hres
    have hlt := wp_error ((sound (terminated_strlen buf) fuel).line 0 (Nat.zero_le _)) hline rfl
    have hbound : parseFuel buf = 4 * strlen buf + 4 := rfl
    omega

/-- For every line, with fuel for its length: a derivation within the word limit gives the command that is returned;
without one the parser calls `panic`; and a command that is returned is the tree of a derivation, each of its words
and file names being a token of the line that is a C string in the buffer after `nulterminate`. -/
theorem parsecmd_accepts_line (buf : Buf) {fuel : Nat} (hfuel : parseFuel buf ≤ fuel) :
    (∀ d : Line, d.yield = lineTokens buf → d.Fits → ∃ buf', parsecmd fuel buf = .ok (d.tree, buf')) ∧
    ((¬ ∃ d : Line, d.yield = lineTokens buf ∧ d.Fits) → ∃ msg, parsecmd fuel buf = .error (.panic msg)) ∧
    (∀ cmd buf', parsecmd fuel buf = .ok (cmd, buf') →
      (∃ d : Line, d.yield = lineTokens buf ∧ d.Fits ∧ cmd = d.tree) ∧
      ∀ w ∈ cmd.words, .word w.1 w.2 ∈ lineTokens buf ∧ cstring buf' w.1 = text buf w) := by
  refine ⟨fun d hyield hfits => ⟨_, parsecmd_complete hfuel hyield hfits⟩, fun hnone => ?_,
    fun cmd buf' hok => parsecmd_sound hok⟩
  cases hres : parsecmd fuel buf with
  | ok r =>
    obtain ⟨⟨d, hyield, hfits, -⟩, -⟩ := parsecmd_sound hres
    exact absurd ⟨d, hyield, hfits⟩ hnone
  | error e =>
    cases e with
    | panic msg => exact ⟨msg, rfl⟩
    | fuel => exact absurd hres (parsecmd_stops hfuel)

/-- `a>b c|(d;e&)>>f`, its NUL, and bytes of an earlier line. -/
def sampleLine : Buf :=
  ['a', '>', 'b', ' ', 'c', '|', '(', 'd', ';', 'e', '&', ')', '>', '>', 'f', '\x00', 'x', 'y'].map ofChar

/-- The command `sampleLine` stands for. -/
def sampleTree : Cmd :=
  .pipe (.redir (.exec [(0, 1), (4, 5)]) 2 3 0x601 1)
    (.redir (.list (.exec [(7, 8)]) (.back (.exec [(9, 10)]))) 14 15 0x201 1)

theorem sample_line_parsed : ∃ buf', parsecmd (parseFuel sampleLine) sampleLine = .ok (sampleTree, buf') ∧
    (∃ d : Line, d.yield = lineTokens sampleLine ∧ d.Fits ∧ sampleTree = d.tree) ∧
    ∀ w ∈ sampleTree.words, cstring buf' w.1 = text sampleLine w := by
  have hrun : (parsecmd (parseFuel sampleLine) sampleLine).map Prod.fst = .ok sampleTree := by decide +kernel
  cases hres : parsecmd (parseFuel sampleLine) sampleLine with
  | error e =>
    rw [hres] at hrun
    cases hrun
  | ok r =>
    obtain ⟨cmd, buf'⟩ := r
    rw [hres] at hrun
    obtain rfl : cmd = sampleTree := Except.ok.inj hrun
    obtain ⟨hderived, hwords⟩ := (parsecmd_accepts_line sampleLine (Nat.le_refl _)).2.2 _ _ hres
    exact ⟨buf', rfl, hderived, fun w hw => (hwords w hw).2⟩

end Xv6Lab.Shell
