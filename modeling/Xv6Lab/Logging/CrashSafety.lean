import Xv6Lab.Logging.Recovery

/-!
# Crash safety of commit against recovery

A disk on which a commit was cut off is in one of two kinds of state. Either its header is cleared
and every home block holds the contents of some target disk (`Cleared`), or its header lists the
logged blocks and the log slots still hold their new contents (`Pending`); then the contents of the
logged home blocks do not matter. `recover_from_log` keeps a cleared disk cleared and a pending disk
pending, however often it is interrupted, until its last write turns a pending disk into a cleared
one whose home blocks hold the new contents (`commit_recover_crash_safe`).

A commit that is cut off before its own header write leaves the header it found, which must then be
clear: recovery would replay a stale one (`commit_over_stale_header`).
-/

namespace Xv6Lab.Logging

open Function Lib.Words List
open Lib.CrashDisk

/-- The memory `m` holds the entries `l` (home block, new contents) in `log.lh` and in the buffers of
these blocks; the buffers of the log area are clean. -/
structure Logged (start : Nat) (d : Nat → Block) (m : Mem) (l : List (Nat × Block)) : Prop where
  start_eq : m.log.start = start
  count : m.log.lh.n = l.length
  le : l.length ≤ logBlocks
  entries : m.log.lh.entries = l.map Prod.fst
  buffered : ∀ p ∈ l, view m d p.1 = p.2
  clean : ∀ b, InLogArea start b → view m d b = d b
  distinct : (l.map Prod.fst).Nodup
  outside : ∀ p ∈ l, ¬ InLogArea start p.1
  width : ∀ p ∈ l, p.1 < 2 ^ 32

/-- The first `write_head` of `commit` completes although the power fails after `k` writes. -/
def headerReached (d : Nat → Block) (m : Mem) (k : Nat) : Bool :=
  match (do writeLog; writeHead : LogM Unit) ⟨d, some k, m⟩ with
  | .ok _ _ => m.log.lh.n ≠ 0
  | .error _ _ => false

/-- Executions of `recover_from_log`, each in a fresh kernel whose power fails after the given
number of writes. -/
def interruptedRecoveries (start : Nat) : (Nat → Block) → List Nat → Nat → Block
  | e, [] => e
  | e, k :: ks =>
    interruptedRecoveries start (diskAfter (recoverFromLog ⟨e, some k, bootMem start⟩)) ks

/-- The header is clear and the home blocks hold the contents of `t`. -/
structure Cleared (start : Nat) (t e : Nat → Block) : Prop where
  head : headN (e start) = 0
  home : ∀ b, ¬ InLogArea start b → e b = t b

/-- The header lists the entries `l`, the log slots hold their contents, and the home blocks that are
not listed are those of `d`. -/
structure Pending (start : Nat) (l : List (Nat × Block)) (d e : Nat → Block) : Prop where
  head : headN (e start) = l.length
  block : ∀ i (h : i < l.length), wordAt (e start) (i + 1) = (l[i]).1
  slot : ∀ i (h : i < l.length), e (start + i + 1) = (l[i]).2
  home : ∀ b, ¬ InLogArea start b → (∀ p ∈ l, p.1 ≠ b) → e b = d b

/-! ## Recovery steps -/

theorem decodeHead_n (buf : Block) (lh : LogHeader) : (decodeHead buf lh).n = headN buf := rfl

variable {e : Nat → Block}

/-- Recovery of a cleared disk keeps it cleared at every point. -/
theorem Cleared.recover {start : Nat} {t : Nat → Block} (h : Cleared start t e) :
    ∃ w m', Emits recoverFromLog e (bootMem start) w () m' ∧ ∀ k, Cleared start t (applyWrites e (w.take k)) := by
  set lh := decodeHead (e start) (bootMem start).log.lh with hlh
  have hn : lh.n = 0 := by rw [hlh, decodeHead_n, h.head]
  obtain ⟨m', hm'⟩ := emits_recoverFromLog (d := e) (m := bootMem start) lh hlh.symm
    (by rw [hn]; decide) (by rw [hn]; intro j _ hj; exact absurd hj (Nat.not_lt_zero j))
  have hw : recoverWrites start lh e = [(start, encodeHead { lh with n := 0 } (e start))] := by
    rw [recoverWrites, hn]
    rfl
  refine ⟨_, m', hm', fun k => ?_⟩
  show Cleared start t (applyWrites e ((recoverWrites start lh e).take k))
  rw [hw]
  cases k with
  | zero => exact h
  | succ k =>
    refine ⟨?_, fun b hb => ?_⟩
    · rw [take_succ_cons, take_nil, applyWrites, applyWrites, update_self]
      exact headN_encodeHead _ _ (Int.le_refl 0) (Int.natCast_nonneg logBlocks)
    rw [take_succ_cons, take_nil, applyWrites, applyWrites, update_of_ne]
    · exact h.home b hb
    · rintro rfl
      exact hb ⟨Nat.le_refl _, Nat.le_add_right _ _⟩

/-- Writes to home blocks only leave the log area alone. -/
theorem applyWrites_logArea {start : Nat} {l : List (Nat × Block)}
    (hout : ∀ p ∈ l, ¬ InLogArea start p.1) {b : Nat} (hb : InLogArea start b) :
    applyWrites e l b = e b :=
  applyWrites_of_not_mem _ _ fun w hw he => hout w hw (he ▸ hb)

/-- Installing some of the entries keeps a pending disk pending. -/
theorem Pending.install {start : Nat} {l l' : List (Nat × Block)} {d : Nat → Block}
    (h : Pending start l d e) (hle : l.length ≤ logBlocks) (hsub : ∀ p ∈ l', p ∈ l)
    (hout : ∀ p ∈ l, ¬ InLogArea start p.1) : Pending start l d (applyWrites e l') := by
  have hout' : ∀ p ∈ l', ¬ InLogArea start p.1 := fun p hp => hout p (hsub p hp)
  have hstart : applyWrites e l' start = e start :=
    applyWrites_logArea hout' ⟨Nat.le_refl _, Nat.le_add_right _ _⟩
  refine ⟨?_, ?_, ?_, ?_⟩
  · rw [hstart]
    exact h.head
  · intro i hi
    rw [hstart]
    exact h.block i hi
  · intro i hi
    rw [applyWrites_logArea hout' ⟨by omega, by omega⟩]
    exact h.slot i hi
  · intro b hb hne
    rw [applyWrites_of_not_mem _ _ fun w hw => hne w (hsub w hw)]
    exact h.home b hb hne

/-- Installing all entries and clearing the header gives the cleared disk with the new contents. -/
theorem Pending.finish {start : Nat} {l : List (Nat × Block)} {d : Nat → Block} {c : Block}
    (h : Pending start l d e) (hnd : (l.map Prod.fst).Nodup) (hc : headN c = 0) :
    Cleared start (applyWrites d l) (applyWrites e (l ++ [(start, c)])) := by
  rw [applyWrites_append, applyWrites, applyWrites]
  refine ⟨?_, fun b hb => ?_⟩
  · rw [update_self]
    exact hc
  have hbs : b ≠ start := by
    rintro rfl
    exact hb ⟨Nat.le_refl _, Nat.le_add_right _ _⟩
  rw [update_of_ne hbs]
  by_cases hmem : ∃ p ∈ l, p.1 = b
  · obtain ⟨p, hp, rfl⟩ := hmem
    rw [applyWrites_of_mem l e hnd hp, applyWrites_of_mem l d hnd hp]
  · have hne : ∀ p ∈ l, p.1 ≠ b := fun p hp he => hmem ⟨p, hp, he⟩
    rw [applyWrites_of_not_mem _ _ hne, applyWrites_of_not_mem _ _ hne]
    exact h.home b hb hne

/-- Recovery of a pending disk keeps it pending until the last write, which clears it. -/
theorem Pending.recover {start : Nat} {l : List (Nat × Block)} {d : Nat → Block} (h : Pending start l d e)
    (hle : l.length ≤ logBlocks) (hnd : (l.map Prod.fst).Nodup) (hout : ∀ p ∈ l, ¬ InLogArea start p.1) :
    ∃ w m', Emits recoverFromLog e (bootMem start) w () m' ∧
      (∀ k < w.length, Pending start l d (applyWrites e (w.take k))) ∧
      Cleared start (applyWrites d l) (applyWrites e w) := by
  set lh := decodeHead (e start) (bootMem start).log.lh with hlh
  have hn : lh.n = l.length := by rw [hlh, decodeHead_n, h.head]
  have hblock : ∀ i (hi : i < l.length), lh.block i = (l[i]).1 := by
    intro i hi
    have hlt : (i : Int) < headN (e start) := by
      rw [h.head]
      exact_mod_cast hi
    show (if (i : Int) < headN (e start) then wordAt (e start) (i + 1) else _) = _
    rw [if_pos hlt]
    exact h.block i hi
  have hhomes : HomesOutside start lh.block 0 lh.n.toNat := by
    intro j _ hj
    have hj' : j < l.length := by omega
    rw [hblock j hj']
    exact hout _ (getElem_mem hj')
  obtain ⟨m', hm'⟩ := emits_recoverFromLog (d := e) (m := bootMem start) lh hlh.symm (by omega) hhomes
  -- the installed contents are those of the log slots, hence the entries
  have hinst : homeWrites start lh.block e 0 lh.n.toNat = l := by
    refine ext_getElem (by simp [homeWrites, hn]) fun i h1 h2 => ?_
    simp only [homeWrites, getElem_map, getElem_range', Nat.zero_add, Nat.one_mul]
    rw [hblock i h2, h.slot i h2]
  have hw : recoverWrites start lh e = l ++ [(start, encodeHead { lh with n := 0 } (e start))] := by
    rw [recoverWrites, hinst]
  refine ⟨_, m', hm', fun k hk => ?_, ?_⟩
  · have hk' : k < (recoverWrites start lh e).length := hk
    rw [hw, length_append, length_singleton] at hk'
    show Pending start l d (applyWrites e ((recoverWrites start lh e).take k))
    rw [hw, take_append_of_le_length (by omega)]
    exact h.install hle (fun p hp => mem_of_mem_take hp) hout
  · show Cleared start _ (applyWrites e (recoverWrites start lh e))
    rw [hw]
    exact h.finish hnd (headN_encodeHead _ _ (Int.le_refl 0) (Int.natCast_nonneg logBlocks))

/-! ## The commit -/

namespace Logged

variable {start : Nat} {d : Nat → Block} {m : Mem} {l : List (Nat × Block)}

theorem block_eq (h : Logged start d m l) {i : Nat} (hi : i < l.length) : m.log.lh.block i = (l[i]).1 := by
  have hn : m.log.lh.n.toNat = l.length := by
    have := h.count
    omega
  have hget : m.log.lh.entries[i]? = (l.map Prod.fst)[i]? := by rw [h.entries]
  simpa [LogHeader.entries, hn, hi] using hget

theorem homesOutside (h : Logged start d m l) : HomesOutside m.log.start m.log.lh.block 0 m.log.lh.n.toNat := by
  intro j _ hj
  have hj' : j < l.length := by
    have := h.count
    omega
  rw [h.start_eq, h.block_eq hj']
  exact h.outside _ (getElem_mem hj')

/-- The header written by the commit. -/
def header (d : Nat → Block) (m : Mem) : Block := encodeHead m.log.lh (d m.log.start)

theorem commitWrites_eq (h : Logged start d m l) :
    commitWrites m.log.start m.log.lh (view m d) = logWrites start m.log.lh.block (view m d) 0 l.length ++
        ([(start, header d m)] ++ (l ++ [(start, encodeHead { m.log.lh with n := 0 } (header d m))])) := by
  have hn : m.log.lh.n.toNat = l.length := by
    have := h.count
    omega
  have hstart : view m d start = d start :=
    h.clean start ⟨Nat.le_refl _, Nat.le_add_right _ _⟩
  have hentries : (m.log.lh.entries.map fun b => (b, view m d b)) = l := by
    rw [h.entries, map_map]
    refine (map_congr_left fun p hp => ?_).trans (map_id l)
    show (p.1, view m d p.1) = p
    rw [h.buffered p hp]
  rw [commitWrites, hn, hentries, header, h.start_eq, hstart]

/-- The header reaches the disk exactly when the power lasts for the log slots and one more write. -/
theorem headerReached_eq (h : Logged start d m l) (k : Nat) :
    headerReached d m k = (decide (l ≠ []) && decide (l.length < k)) := by
  have hcount := h.count
  have hle := h.le
  obtain ⟨m1, hm1, ⟨hl1, -⟩, -⟩ := emits_writeLogLoop (d := d) (m := m) m.log.lh.n.toNat 0 (by omega) h.homesOutside
  obtain ⟨m2, hm2, -, -⟩ := emits_writeHead
    (d := applyWrites d (logWrites m.log.start m.log.lh.block (view m d) 0 m.log.lh.n.toNat))
    (m := m1) (by rw [hl1]; omega)
  have hlog : Emits writeLog d m
      (logWrites m.log.start m.log.lh.block (view m d) 0 m.log.lh.n.toNat) () m1 :=
    Emits.bindRead Emits.getMem hm1
  have hem : Emits (do writeLog; writeHead : LogM Unit) d m _ () m2 := Emits.bind hlog hm2
  have hlen : (logWrites m.log.start m.log.lh.block (view m d) 0 m.log.lh.n.toNat).length =
      l.length := by
    rw [logWrites, length_map, length_range']
    omega
  have hnil : (m.log.lh.n ≠ 0) = (l ≠ []) := by
    rw [hcount]
    simp
  by_cases hk : l.length < k
  · have hok := (hem.2 k).1 (by rw [length_append, hlen, length_singleton]; omega)
    have hred : headerReached d m k = decide (m.log.lh.n ≠ 0) := by
      rw [headerReached]
      erw [hok]
    simp [hred, hnil, hk]
  · obtain ⟨lost, herr⟩ := (hem.2 k).2 (by rw [length_append, hlen, length_singleton]; omega)
    have hred : headerReached d m k = false := by
      rw [headerReached]
      erw [herr]
    simp [hred, hk]

/-- Once the log slots and the header are written, the disk is pending. -/
theorem pending (h : Logged start d m l) :
    Pending start l d (applyWrites d (logWrites start m.log.lh.block (view m d) 0 l.length ++
      [(start, header d m)])) := by
  have hcount := h.count
  have hle := h.le
  rw [applyWrites_append, applyWrites, applyWrites]
  set e := applyWrites d (logWrites start m.log.lh.block (view m d) 0 l.length) with he
  refine ⟨?_, ?_, ?_, ?_⟩
  · rw [update_self, header, headN_encodeHead _ _ (by omega) (by omega), hcount]
  · intro i hi
    have hlt : (i : Int) < m.log.lh.n := by omega
    have hwidth : m.log.lh.block i < 2 ^ 32 := by
      rw [h.block_eq hi]
      exact h.width _ (getElem_mem hi)
    have hdec := decodeHead_encodeHead m.log.lh m.log.lh (d m.log.start) (by omega) (by omega) hlt hwidth
    have hn : headN (encodeHead m.log.lh (d m.log.start)) = m.log.lh.n :=
      headN_encodeHead _ _ (by omega) (by omega)
    rw [update_self, header, ← h.block_eq hi, ← hdec]
    show _ = if (i : Int) < headN (encodeHead m.log.lh (d m.log.start)) then _ else _
    rw [hn, if_pos hlt]
  · intro i hi
    rw [update_of_ne (by omega), he, applyWrites_logWrites_slot _ _ hi, h.block_eq hi]
    exact h.buffered _ (getElem_mem hi)
  · intro b hb _
    have hbs : ∀ j ≤ logBlocks, b ≠ start + j := by
      rintro j hj rfl
      exact hb ⟨by omega, by omega⟩
    have hb0 : b ≠ start := hbs 0 (by omega)
    rw [update_of_ne hb0, he]
    exact applyWrites_logWrites_of_ne (Subset.refl _) fun j hj => hbs (j + 1) (by omega)

/-- The disk left by a commit that loses power after `k` writes. -/
theorem crash (h : Logged start d m l) (k : Nat) :
    (headerReached d m k = false → headN (d start) = 0 → Cleared start d (diskAfter (commit ⟨d, some k, m⟩))) ∧
      (headerReached d m k = true → Pending start l d (diskAfter (commit ⟨d, some k, m⟩)) ∨
        Cleared start (applyWrites d l) (diskAfter (commit ⟨d, some k, m⟩))) := by
  have hcount := h.count
  have hle := h.le
  rw [h.headerReached_eq]
  by_cases hnil : l = []
  · -- nothing is logged and `commit` returns at once
    have hzero : m.log.lh.n = 0 := by rw [hcount, hnil]; rfl
    have hdisk : diskAfter (commit ⟨d, some k, m⟩) = d := by
      have hem : Emits commit d m [] () m := by
        refine Emits.bindRead Emits.getMem ?_
        rw [if_pos hzero]
        exact Emits.pure ()
      rw [hem.diskAfter, take_nil]
      rfl
    rw [hdisk]
    exact ⟨fun _ hclear => ⟨hclear, fun _ _ => rfl⟩, fun hc => by simp [hnil] at hc⟩
  have hpos : 0 < l.length := length_pos_of_ne_nil hnil
  obtain ⟨m', hm', -⟩ := emits_commit (d := d) (m := m) (by omega) (by omega) h.homesOutside
  rw [h.commitWrites_eq] at hm'
  rw [hm'.diskAfter]
  have hlen : (logWrites start m.log.lh.block (view m d) 0 l.length).length = l.length := by
    rw [logWrites, length_map, length_range']
  refine ⟨fun hc hclear => ?_, fun hc => ?_⟩
  · have hk : k ≤ l.length := by
      simp only [ne_eq, hnil, not_false_eq_true, decide_true, Bool.true_and,
        decide_eq_false_iff_not, Nat.not_lt] at hc
      exact hc
    rw [take_append_of_le_length (by omega)]
    refine ⟨?_, fun b hb => applyWrites_logWrites_of_ne (take_subset k _) fun j hj => ?_⟩
    · rw [applyWrites_logWrites_of_ne (take_subset k _) fun j _ => by omega]
      exact hclear
    · rintro rfl
      exact hb ⟨by omega, by omega⟩
  · have hk : l.length < k := by
      simp only [Bool.and_eq_true, decide_eq_true_eq] at hc
      exact hc.2
    obtain ⟨j, rfl⟩ : ∃ j, k = l.length + 1 + j := ⟨k - (l.length + 1), by omega⟩
    rw [← append_assoc, take_append, take_of_length_le (by
      rw [length_append, hlen, length_singleton]; omega), length_append, hlen,
      length_singleton, Nat.add_sub_cancel_left, applyWrites_append]
    by_cases hj : j ≤ l.length
    · rw [take_append_of_le_length hj]
      exact Or.inl (h.pending.install hle (fun p hp => mem_of_mem_take hp) h.outside)
    · rw [take_of_length_le (by rw [length_append, length_singleton]; omega)]
      exact Or.inr (h.pending.finish h.distinct (headN_encodeHead _ _ (Int.le_refl 0) (Int.natCast_nonneg logBlocks)))

end Logged

/-! ## Interrupted recoveries -/

theorem Cleared.interrupted {t : Nat → Block} (h : Cleared start t e) (ks : List Nat) :
    Cleared start t (interruptedRecoveries start e ks) := by
  induction ks generalizing e with
  | nil => exact h
  | cons k ks ih =>
    obtain ⟨w, m', hm', hk⟩ := h.recover
    refine ih ?_
    rw [hm'.diskAfter]
    exact hk k

theorem Pending.interrupted (h : Pending start l d e) (hle : l.length ≤ logBlocks) (hnd : (l.map Prod.fst).Nodup)
    (hout : ∀ p ∈ l, ¬ InLogArea start p.1) (ks : List Nat) :
    Pending start l d (interruptedRecoveries start e ks) ∨
      Cleared start (applyWrites d l) (interruptedRecoveries start e ks) := by
  induction ks generalizing e with
  | nil => exact Or.inl h
  | cons k ks ih =>
    obtain ⟨w, m', hm', hpend, hdone⟩ := h.recover hle hnd hout
    by_cases hk : k < w.length
    · refine ih ?_
      rw [hm'.diskAfter]
      exact hpend k hk
    · refine Or.inr (Cleared.interrupted ?_ ks)
      rw [hm'.diskAfter, take_of_length_le (by omega)]
      exact hdone

/-- A complete recovery of what the commit and the interrupted recoveries leave. -/
theorem Logged.recovers (h : Logged start d m l) (he : Pending start l d e ∨ Cleared start (applyWrites d l) e) :
    ∃ w m', Emits recoverFromLog e (bootMem start) w () m' ∧ Cleared start (applyWrites d l) (applyWrites e w) := by
  rcases he with hp | hc
  · obtain ⟨w, m', hm', -, hdone⟩ := hp.recover h.le h.distinct h.outside
    exact ⟨w, m', hm', hdone⟩
  · obtain ⟨w, m', hm', hk⟩ := hc.recover
    have hlast := hk w.length
    rw [take_length] at hlast
    exact ⟨w, m', hm', hlast⟩

/-- The outcome of a commit that loses power after `k` writes, of recoveries interrupted after the
numbers of writes `ks`, and of a last complete recovery: it returns, the header is clear, the logged
blocks hold their new contents if the header of the commit had reached the disk and their old ones
otherwise, and the other home blocks are unchanged. -/
def CommitRecoverSafe (start : Nat) (d : Nat → Block) (m : Mem) (l : List (Nat × Block)) (k : Nat)
    (ks : List Nat) : Prop :=
  ∃ e m', recoverFromLog
      ⟨interruptedRecoveries start (diskAfter (commit ⟨d, some k, m⟩)) ks, none, bootMem start⟩ =
        .ok () ⟨e, none, m'⟩ ∧
    headN (e start) = 0 ∧
    (∀ p ∈ l, e p.1 = if headerReached d m k then p.2 else d p.1) ∧
    ∀ b, ¬ InLogArea start b → (∀ p ∈ l, p.1 ≠ b) → e b = d b

/-- `commit` and `recover_from_log` are crash-safe against each other, from a clear header or once the header of the
commit has reached the disk. -/
theorem commit_recover_crash_safe {start : Nat} {d : Nat → Block} {m : Mem} {l : List (Nat × Block)}
    (h : Logged start d m l) (k : Nat) (hclear : headerReached d m k = false → headN (d start) = 0) (ks : List Nat) :
    CommitRecoverSafe start d m l k ks := by
  obtain ⟨hold, hnew⟩ := h.crash k
  cases hr : headerReached d m k with
  | false =>
    obtain ⟨w, m', hm', hk⟩ := ((hold hr (hclear hr)).interrupted ks).recover
    have hfin := hk w.length
    rw [take_length] at hfin
    refine ⟨_, m', hm'.run, hfin.head, fun p hp => ?_, fun b hb _ => hfin.home b hb⟩
    rw [hr]
    exact hfin.home p.1 (h.outside p hp)
  | true =>
    obtain ⟨w, m', hm', hc⟩ := h.recovers ((hnew hr).elim (fun hp => hp.interrupted h.le h.distinct h.outside ks)
      fun hc => .inr (hc.interrupted ks))
    refine ⟨_, m', hm'.run, hc.head, fun p hp => ?_, fun b hb hne => ?_⟩
    · rw [hr, hc.home p.1 (h.outside p hp), applyWrites_of_mem l d h.distinct hp]
      rfl
    · rw [hc.home b hb, applyWrites_of_not_mem _ _ hne]

/-! ## Concrete disks -/

/-- A block of zero bytes. -/
def zeroBlock : Block := fun _ => 0

/-- A block of one bytes. -/
def oneBlock : Block := fun _ => 1

/-- A kernel that has logged block 50 with contents `oneBlock`, with the log area at block 2. -/
def oneEntryMem : Mem where
  cache := update (fun _ => none) 50 (some oneBlock)
  pins := update (fun _ => 0) 50 1
  log := { start := 2, outstanding := 0, committing := true,
           lh := { n := 1, block := fun _ => 50 } }

theorem oneEntryMem_logged (d : Nat → Block) : Logged 2 d oneEntryMem [(50, oneBlock)] where
  start_eq := rfl
  count := rfl
  le := by decide
  entries := rfl
  buffered := by
    intro p hp
    rw [mem_singleton] at hp
    rw [hp]
    rfl
  clean := by
    intro b hb
    have hb50 : b ≠ 50 := by
      rintro rfl
      exact absurd hb (by decide)
    simp [view, oneEntryMem, update_of_ne hb50]
  distinct := by simp
  outside := by
    intro p hp
    rw [mem_singleton] at hp
    rw [hp]
    decide
  width := by
    intro p hp
    rw [mem_singleton] at hp
    rw [hp]
    decide

theorem commit_recover_crash_safe_zeroDisk :
    CommitRecoverSafe 2 (fun _ => zeroBlock) oneEntryMem [(50, oneBlock)] 2 [0, 1] :=
  commit_recover_crash_safe (oneEntryMem_logged _) 2 (fun _ => by decide) [0, 1]

/-- A disk whose header lists block 40, with the log slot holding `oneBlock`. -/
def staleDisk : Nat → Block :=
  update (update (fun _ => zeroBlock) 2 (encodeHead { n := 1, block := fun _ => 40 } zeroBlock)) 3 oneBlock

/-- A commit of block 50 that is cut off before its first write leaves the stale header, and the
recovery changes block 40, which the commit does not log. -/
theorem commit_over_stale_header :
    Logged 2 staleDisk oneEntryMem [(50, oneBlock)] ∧
      ¬ CommitRecoverSafe 2 staleDisk oneEntryMem [(50, oneBlock)] 0 [] := by
  refine ⟨oneEntryMem_logged staleDisk, ?_⟩
  rintro ⟨e, m', hrun, -, -, hother⟩
  have hold : e 40 = zeroBlock := hother 40 (by decide) (by decide)
  have hbyte : (diskAfter (recoverFromLog
      ⟨interruptedRecoveries 2 (diskAfter (commit ⟨staleDisk, some 0, oneEntryMem⟩)) [], none,
        bootMem 2⟩) 40) 0 = 1 := by decide
  rw [hrun] at hbyte
  have hzero : e 40 0 = 0 := hold ▸ rfl
  have hone : e 40 0 = 1 := hbyte
  rw [hzero] at hone
  exact absurd hone (by decide)

end Xv6Lab.Logging
