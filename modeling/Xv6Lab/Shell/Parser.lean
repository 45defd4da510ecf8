import Xv6Lab.Shell.Grammar

/-!
# What the parser returns

A run of one of the parsing functions that returns has moved the cursor over the tokens of a derivation and returns
its tree; with fuel for the characters that are left it does not stop for want of fuel (`sound`).
-/

namespace Xv6Lab.Shell

open Lib.Exec List

variable {buf : Buf} {es s n : Nat} {ts : List Tok} {toks : List Char}

/-! ## The next token -/

theorem heads_iff : heads toks ts = true ↔ ∃ k us, ts = .sym k :: us ∧ strchr toks (ofChar k.char) = true := by
  constructor
  · intro h
    cases ts with
    | nil => cases h
    | cons t us =>
      cases t with
      | eof => cases h
      | sym k => exact ⟨k, us, rfl, h⟩
      | word q e => cases h
  · rintro ⟨k, us, rfl, h⟩
    exact h

/-- The symbol that a single first character stands for; `>` is the first of two. -/
theorem head_of_heads (k : Sym) (hne : k.char ≠ '>') (h : heads [k.char] ts = true) : ∃ us, ts = .sym k :: us := by
  obtain ⟨j, us, rfl, hj⟩ := heads_iff.mp h
  have hjk : j = k := by
    revert hj hne
    cases j <;> cases k <;> decide
  exact ⟨us, hjk ▸ rfl⟩

variable {E : Stop → Prop}

/-- `gettoken` takes off a token that is known. -/
theorem gettoken_cons (h : Terminated buf es) (hs : s ≤ es) {tok : Tok} (htok : tokens buf es s = tok :: ts) :
    wp (gettoken buf es) (fun r t => r = tok ∧ s < t ∧ Takes buf es s [tok] t ∧ tokens buf es t = ts) E s := by
  refine wp_post (gettoken_spec h hs) ?_
  rintro r t (⟨-, hnil, -⟩ | ⟨-, hlt, htakes⟩)
  · rw [hnil] at htok
    cases htok
  have heq := htakes.tokens_eq
  rw [htok, singleton_append] at heq
  obtain ⟨rfl, rfl⟩ := cons.inj heq
  exact ⟨rfl, hlt, htakes, rfl⟩

/-- `peek` at tokens that are known. -/
theorem peek_known (h : Terminated buf es) (hs : s ≤ es) (htoks : ∀ c ∈ toks, c ∈ symbols)
    (htok : tokens buf es s = ts) :
    wp (peek buf es toks) (fun found t => Takes buf es s [] t ∧ tokens buf es t = ts ∧ found = heads toks ts) E s := by
  refine wp_post (peek_spec h hs htoks) ?_
  rintro found t ⟨ht, rfl⟩
  have hsame : tokens buf es t = ts := ht.tokens_eq.symm.trans htok
  exact ⟨ht, hsame, by rw [hsame]⟩

theorem Takes.rest {t : Nat} {rest : List Tok} (h : Takes buf es s ts t) (heq : tokens buf es s = ts ++ rest) :
    tokens buf es t = rest :=
  append_cancel_left (h.tokens_eq.symm.trans heq)

/-- Spaces after the tokens. -/
theorem Takes.skip {t u : Nat} (h : Takes buf es s ts t) (h' : Takes buf es t [] u) : Takes buf es s ts u := by
  have htakes := h.trans h'
  rw [append_nil] at htakes
  exact htakes

/-- A branch on a symbol that may follow: it is taken off, or it is not there. -/
theorem wp_peek_sym (h : Terminated buf es) (k : Sym) (hk : k.char ≠ '>') (hs : s ≤ es) {f : Tok → ShM Cmd}
    {g : ShM Cmd} {S : Cmd → Nat → Prop} (hf : ∀ t, s < t → Takes buf es s [.sym k] t → wp (f (.sym k)) S E t)
    (hg : ∀ t, Takes buf es s [] t → heads [k.char] (tokens buf es s) = false → wp g S E t) :
    wp (do if ← peek buf es [k.char] then f (← gettoken buf es) else g) S E s := by
  have hsym : ∀ c ∈ [k.char], c ∈ symbols := by cases k <;> simp [Sym.char, symbols]
  refine wp_then (peek_known h hs hsym rfl) ?_
  rintro - t ⟨ht, htok, rfl⟩
  split
  next hfound =>
    obtain ⟨us, hus⟩ := head_of_heads k hk hfound
    refine wp_then (gettoken_cons h ht.end_le (htok.trans hus)) ?_
    rintro - u ⟨rfl, hlt, hu, -⟩
    exact hf u (ht.le.trans_lt hlt) (ht.trans hu)
  next hnone => exact hg t ht (Bool.eq_false_iff.mpr hnone)

/-! ## Redirections and words -/

theorem wrap_append (cmd : Cmd) (rs qs : List Redir) : wrap cmd (rs ++ qs) = wrap (wrap cmd rs) qs :=
  foldl_append

/-- Words go to the `EXEC` node below the redirections. -/
theorem addArg_wrap (w : Nat × Nat) (cmd : Cmd) (rs : List Redir) :
    (wrap cmd rs).addArg w = wrap (cmd.addArg w) rs := by
  induction rs generalizing cmd with
  | nil => rfl
  | cons r rs ih => exact ih (.redir cmd r.file r.efile r.op.mode r.op.fd)

theorem redirect_sym (op : RedirOp) (cmd : Cmd) (q e : Nat) :
    redirect cmd q e (.sym op.sym) = wrap cmd [⟨op, q, e⟩] := by
  cases op <;> rfl

/-- A symbol that starts with `<` or `>` is a redirection. -/
theorem exists_redirOp {k : Sym} (h : strchr ['<', '>'] (ofChar k.char) = true) : ∃ op : RedirOp, op.sym = k := by
  cases k with
  | less => exact ⟨.input, rfl⟩
  | greater => exact ⟨.output, rfl⟩
  | append => exact ⟨.append, rfl⟩
  | bar | lparen | rparen | semi | amp => exact absurd h (by decide)

/-- A bound on the fuel that follows from another one. -/
theorem wp_fuel {α : Type} {x : ShM α} {Q : α → Nat → Prop} {A B : Prop} (h : wp x Q (fun e => e = .fuel → A) s)
    (hB : A → B) : wp x Q (fun e => e = .fuel → B) s :=
  wp_mono h (fun _ _ hq => hq) fun _ herr heq => hB (herr heq)

theorem parseredirs_sound (h : Terminated buf es) (n : Nat) (cmd : Cmd) (hs : s ≤ es) :
    wp (parseredirs buf es n cmd) (fun r t => ∃ rs, Takes buf es s (redirsYield rs) t ∧ r = wrap cmd rs)
      (fun e => e = .fuel → n < es - s + 1) s := by
  induction n generalizing cmd s with
  | zero => exact wp_throw.mpr fun _ => Nat.succ_pos _
  | succ n ih =>
    rw [parseredirs]
    refine wp_then (peek_spec h hs (by simp [symbols])) ?_
    rintro found t ⟨ht, rfl⟩
    split
    next hfound =>
      obtain ⟨k, us, htok, hk⟩ := heads_iff.mp hfound
      obtain ⟨op, rfl⟩ := exists_redirOp hk
      refine wp_then (gettoken_cons h ht.end_le htok) ?_
      rintro tok u ⟨rfl, hlt, hu, -⟩
      refine wp_then (gettoken_spec h hu.end_le) ?_
      intro file v hfile
      -- only a word may follow
      cases file with
      | eof | sym => exact wp_throw.mpr (by simp)
      | word q e =>
        obtain ⟨hne, -⟩ | ⟨-, hlt', hv⟩ := hfile
        · cases hne
        have := ht.le
        have := hv.end_le
        refine wp_post (wp_fuel (ih (redirect cmd q e (.sym op.sym)) hv.end_le) (by omega)) ?_
        rintro r w ⟨rs, hw, rfl⟩
        refine ⟨⟨op, q, e⟩ :: rs, ?_, ?_⟩
        · exact ((ht.trans hu).trans hv).trans hw
        · rw [redirect_sym, ← wrap_append]
          rfl
    next hfound => exact wp_pure.mpr ⟨[], ht, rfl⟩

theorem execLoop_sound (h : Terminated buf es) (n : Nat) {ret : Cmd} (rs : List Redir) (ws : List (Nat × Nat))
    (hret : ret = wrap (.exec ws) rs) (hws : ws.length ≤ maxargs - 1) (hs : s ≤ es) :
    wp (execLoop buf es n ret ws.length)
      (fun r t => ∃ as, Takes buf es s (argsYield as) t ∧ ws.length + as.length ≤ maxargs - 1 ∧
        r = wrap (.exec (ws ++ argv as)) (rs ++ as.flatMap Arg.redirs))
      (fun e => e = .fuel → n < es - s + 1) s := by
  induction n generalizing ret rs ws s with
  | zero => exact wp_throw.mpr fun _ => Nat.succ_pos _
  | succ n ih =>
    rw [execLoop]
    refine wp_then (peek_spec h hs (by simp [symbols])) ?_
    rintro found t ⟨ht, rfl⟩
    have hdone : ∀ u, Takes buf es s [] u → ∃ as, Takes buf es s (argsYield as) u ∧
        ws.length + as.length ≤ maxargs - 1 ∧ ret = wrap (.exec (ws ++ argv as)) (rs ++ as.flatMap Arg.redirs) := by
      intro u hu
      refine ⟨[], hu, hws, ?_⟩
      rw [hret]
      simp [argv]
    split
    next hfound => exact wp_pure.mpr (hdone t ht)
    next hfound =>
    refine wp_then (gettoken_spec h ht.end_le) ?_
    intro tok u htok
    cases tok with
    | sym => exact wp_throw.mpr (by simp)
    | eof =>
      obtain ⟨-, -, hu⟩ | ⟨hne, -⟩ := htok
      · exact wp_pure.mpr (hdone u (ht.trans hu))
      · exact absurd rfl hne
    | word q e =>
      obtain ⟨hne, -⟩ | ⟨-, hlt, hu⟩ := htok
      · cases hne
      have := ht.le
      have := hu.end_le
      dsimp only
      split
      · exact wp_throw.mpr (by simp)
      next hargs =>
      refine wp_then (wp_fuel (parseredirs_sound h n (ret.addArg (q, e)) hu.end_le) (by omega)) ?_
      rintro ret' v ⟨qs, hv, rfl⟩
      have := hv.le
      have := hv.end_le
      have hlen : ws.length + 1 = (ws ++ [(q, e)]).length := by simp
      rw [hlen]
      refine wp_post (wp_fuel (ih (rs ++ qs) _ ?_ ?_ hv.end_le) (by omega)) ?_
      · rw [hret, addArg_wrap, wrap_append]
        rfl
      · simp only [length_append, length_singleton]
        omega
      · rintro r w ⟨as, hw, hcount, rfl⟩
        refine ⟨⟨q, e, qs⟩ :: as, ?_, ?_, ?_⟩
        · exact ((ht.trans hu).trans hv).trans hw
        · simp only [length_append, length_cons] at hcount ⊢
          omega
        · simp [argv]

theorem backLoop_sound (h : Terminated buf es) (n : Nat) (cmd : Cmd) (hs : s ≤ es) :
    wp (backLoop buf es n cmd)
      (fun r t => ∃ amps, Takes buf es s (List.replicate amps (.sym .amp)) t ∧ r = Cmd.back^[amps] cmd)
      (fun e => e = .fuel → n < es - s + 1) s := by
  induction n generalizing cmd s with
  | zero => exact wp_throw.mpr fun _ => Nat.succ_pos _
  | succ n ih =>
    rw [backLoop]
    apply wp_peek_sym h .amp (by decide) hs
    · intro t hlt ht
      have := ht.end_le
      refine wp_post (wp_fuel (ih (.back cmd) ht.end_le) (by omega)) ?_
      rintro r u ⟨amps, hu, rfl⟩
      exact ⟨amps + 1, ht.trans hu, rfl⟩
    · exact fun t ht _ => wp_pure.mpr ⟨0, ht, rfl⟩

/-! ## Soundness -/

/-- What the four mutually recursive functions return, and the fuel they need. -/
structure Sound (buf : Buf) (es n : Nat) : Prop where
  line : ∀ s, s ≤ es → wp (parseline buf es n)
    (fun cmd t => ∃ d : Line, Takes buf es s d.yield t ∧ d.Fits ∧ cmd = d.tree)
    (fun e => e = .fuel → n < 4 * (es - s) + 4) s
  pipe : ∀ s, s ≤ es → wp (parsepipe buf es n)
    (fun cmd t => ∃ d : Pipe, Takes buf es s d.yield t ∧ d.Fits ∧ cmd = d.tree)
    (fun e => e = .fuel → n < 4 * (es - s) + 3) s
  exec : ∀ s, s ≤ es → wp (parseexec buf es n)
    (fun cmd t => ∃ d : Exec, Takes buf es s d.yield t ∧ d.Fits ∧ cmd = d.tree)
    (fun e => e = .fuel → n < 4 * (es - s) + 2) s
  block : ∀ s, s ≤ es → wp (parseblock buf es n)
    (fun cmd t => ∃ d : Exec, Takes buf es s d.yield t ∧ d.Fits ∧ cmd = d.tree)
    (fun e => e = .fuel → n < 4 * (es - s) + 1) s

section

variable (h : Terminated buf es)
include h

section

variable (ih : Sound buf es n) (hs : s ≤ es)
include ih hs

theorem Sound.parseline_succ :
    wp (parseline buf es (n + 1)) (fun cmd t => ∃ d : Line, Takes buf es s d.yield t ∧ d.Fits ∧ cmd = d.tree)
      (fun e => e = .fuel → n + 1 < 4 * (es - s) + 4) s := by
  rw [parseline]
  refine wp_then (wp_fuel (ih.pipe s hs) (by omega)) ?_
  rintro - t ⟨p, ht, hfits, rfl⟩
  have := ht.le
  refine wp_then (wp_fuel (backLoop_sound h n p.tree ht.end_le) (by omega)) ?_
  rintro - u ⟨amps, hu, rfl⟩
  have := hu.le
  apply wp_peek_sym h .semi (by decide) hu.end_le
  · intro v hlt hv
    have := hv.end_le
    refine wp_then (wp_fuel (ih.line v hv.end_le) (by omega)) ?_
    rintro - w ⟨rest, hw, hfits', rfl⟩
    exact wp_pure.mpr ⟨.seq p amps rest, ht.trans (hu.trans (hv.trans hw)), ⟨hfits, hfits'⟩, rfl⟩
  · exact fun v hv _ => wp_pure.mpr ⟨.last p amps, (ht.trans hu).skip hv, hfits, rfl⟩

theorem Sound.parsepipe_succ :
    wp (parsepipe buf es (n + 1)) (fun cmd t => ∃ d : Pipe, Takes buf es s d.yield t ∧ d.Fits ∧ cmd = d.tree)
      (fun e => e = .fuel → n + 1 < 4 * (es - s) + 3) s := by
  rw [parsepipe]
  refine wp_then (wp_fuel (ih.exec s hs) (by omega)) ?_
  rintro - t ⟨e, ht, hfits, rfl⟩
  have := ht.le
  apply wp_peek_sym h .bar (by decide) ht.end_le
  · intro u hlt hu
    have := hu.end_le
    refine wp_then (wp_fuel (ih.pipe u hu.end_le) (by omega)) ?_
    rintro - v ⟨rest, hv, hfits', rfl⟩
    exact wp_pure.mpr ⟨.bar e rest, ht.trans (hu.trans hv), ⟨hfits, hfits'⟩, rfl⟩
  · exact fun u hu _ => wp_pure.mpr ⟨.last e, ht.skip hu, hfits, rfl⟩

theorem Sound.parseexec_succ :
    wp (parseexec buf es (n + 1)) (fun cmd t => ∃ d : Exec, Takes buf es s d.yield t ∧ d.Fits ∧ cmd = d.tree)
      (fun e => e = .fuel → n + 1 < 4 * (es - s) + 2) s := by
  rw [parseexec]
  refine wp_then (peek_spec h hs (by simp [symbols])) ?_
  rintro found t ⟨ht, rfl⟩
  have := ht.le
  split
  · refine wp_post (wp_fuel (ih.block t ht.end_le) (by omega)) ?_
    rintro cmd u ⟨d, hu, hfits, rfl⟩
    exact ⟨d, ht.trans hu, hfits, rfl⟩
  · refine wp_then (wp_fuel (parseredirs_sound h n (.exec []) ht.end_le) (by omega)) ?_
    rintro - u ⟨rs, hu, rfl⟩
    have := hu.le
    refine wp_post (wp_fuel (execLoop_sound h n _ [] rfl (Nat.zero_le _) hu.end_le) (by omega)) ?_
    rintro - v ⟨as, hv, hcount, rfl⟩
    refine ⟨.simple rs as, (ht.trans hu).trans hv, ?_, rfl⟩
    rw [length_nil, Nat.zero_add] at hcount
    exact hcount

theorem Sound.parseblock_succ :
    wp (parseblock buf es (n + 1)) (fun cmd t => ∃ d : Exec, Takes buf es s d.yield t ∧ d.Fits ∧ cmd = d.tree)
      (fun e => e = .fuel → n + 1 < 4 * (es - s) + 1) s := by
  rw [parseblock]
  apply wp_peek_sym h .lparen (by decide) hs
  · intro t hlt ht
    have := ht.end_le
    refine wp_then (wp_fuel (ih.line t ht.end_le) (by omega)) ?_
    rintro - u ⟨l, hu, hfits, rfl⟩
    have := hu.le
    apply wp_peek_sym h .rparen (by decide) hu.end_le
    · intro v hlt' hv
      have := hv.end_le
      refine wp_post (wp_fuel (parseredirs_sound h n l.tree hv.end_le) (by omega)) ?_
      rintro - w ⟨rs, hw, rfl⟩
      exact ⟨.block l rs, ht.trans (hu.trans (hv.trans hw)), hfits, rfl⟩
    · exact fun _ _ _ => wp_throw.mpr nofun
  · exact fun _ _ _ => wp_throw.mpr nofun

end

theorem sound (n : Nat) : Sound buf es n := by
  induction n with
  | zero =>
    constructor
    all_goals
      intro s _
      exact wp_throw.mpr fun _ => Nat.succ_pos _
  | succ n ih =>
    exact ⟨fun s hs => ih.parseline_succ h hs, fun s hs => ih.parsepipe_succ h hs,
      fun s hs => ih.parseexec_succ h hs, fun s hs => ih.parseblock_succ h hs⟩

end

end Xv6Lab.Shell
