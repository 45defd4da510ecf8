import Xv6Lab.Logging.Model

/-!
# What the critical sections of the log do

One statement for each critical section that runs under `log.lock`: the guards under which it
succeeds and its exact effect on the counters and on the list of logged blocks.
-/

namespace Xv6Lab.Logging

open Function

section Places

variable {P C : Type} (pc : P → Pc C) (q : P)

theorem wakeup_eq_iff {x : Pc C} (hx : x ≠ .asleep) (ht : x ≠ .testing) : wakeup pc q = x ↔ pc q = x := by
  unfold wakeup
  split
  next h => exact iff_of_false ht.symm (h ▸ hx.symm)
  · exact Iff.rfl

theorem wakeup_asleep (h : pc q = .asleep) : wakeup pc q = .testing := by
  simp only [wakeup, h]

theorem wakeup_ne_asleep : wakeup pc q ≠ .asleep := by
  unfold wakeup
  split
  · exact nofun
  next h => exact h

end Places

/-- The length of the entry list. -/
theorem LogHeader.length_entries (lh : LogHeader) : lh.entries.length = lh.n.toNat := by
  simp [LogHeader.entries]

theorem LogHeader.mem_entries (lh : LogHeader) (b : Nat) : b ∈ lh.entries ↔ ∃ i < lh.n.toNat, lh.block i = b := by
  simp [LogHeader.entries]

/-- The absorption loop stops at the first matching index, or after its `k` iterations. -/
theorem LogHeader.absorb_spec (lh : LogHeader) (b : Nat) : ∀ (k i : Nat),
    i ≤ lh.absorb b k i ∧ lh.absorb b k i ≤ i + k ∧ (∀ j, i ≤ j → j < lh.absorb b k i → lh.block j ≠ b) ∧
      (lh.absorb b k i < i + k → lh.block (lh.absorb b k i) = b)
  | 0, i => ⟨Nat.le_refl i, Nat.le_refl i, fun j h1 h2 => absurd h2 (Nat.not_lt.mpr h1),
      fun h => absurd h (Nat.lt_irrefl i)⟩
  | k + 1, i => by
      by_cases hb : lh.block i = b
      · have he : lh.absorb b (k + 1) i = i := if_pos hb
        rw [he]
        exact ⟨Nat.le_refl i, by omega, fun j h1 h2 => absurd h2 (Nat.not_lt.mpr h1), fun _ => hb⟩
      have he : lh.absorb b (k + 1) i = lh.absorb b k (i + 1) := if_neg hb
      obtain ⟨h1, h2, h3, h4⟩ := lh.absorb_spec b k (i + 1)
      rw [he]
      refine ⟨by omega, by omega, fun j hj hlt => ?_, fun hlt => h4 (by omega)⟩
      by_cases hji : j = i
      · rw [hji]
        exact hb
      · exact h3 j (by omega) hlt

variable {log : Log} {msg : String}

theorem Log.tryBeginOp_eq_some {log' : Log} (h : log.tryBeginOp = some log') :
    log.committing = false ∧ log' = { log with outstanding := log.outstanding + 1 } ∧
      log.lh.n + (log.outstanding + 1) * maxOpBlocks ≤ logBlocks := by
  unfold Log.tryBeginOp at h
  split at h
  · cases h
  next hc =>
  split at h
  · cases h
  · next hspace =>
      cases h
      exact ⟨by simpa using hc, rfl, by omega⟩

/-- A test that failed still fails when the log is not shorter. -/
theorem Log.tryBeginOp_none_mono {log' : Log} (h : log.tryBeginOp = none) (hout : log'.outstanding = log.outstanding)
    (hcom : log'.committing = log.committing) (hle : log.lh.n ≤ log'.lh.n) : log'.tryBeginOp = none := by
  unfold Log.tryBeginOp at h ⊢
  rw [hcom, hout]
  split at h
  next hc => rw [if_pos hc]
  next hc =>
  rw [if_neg hc]
  split at h
  next hspace => exact if_pos (by omega)
  · cases h

/-- Only a running commit stops `end_op`; the last operation goes on to `commit`, another one wakes the sleepers. -/
theorem Log.leaveOp_cases {P C : Type} [DecidableEq P] (log : Log) (pc : P → Pc C) (p : P) (c : C) :
    log.committing = true ∧ log.leaveOp pc p c = .error "log.committing" ∨
    log.committing = false ∧ log.outstanding = 1 ∧
      log.leaveOp pc p c = .ok (true, { log with outstanding := 0, committing := true }, update pc p (.commit c)) ∨
    log.committing = false ∧ log.outstanding ≠ 1 ∧
      log.leaveOp pc p c = .ok (false, { log with outstanding := log.outstanding - 1 }, wakeup (update pc p .idle)) := by
  cases hc : log.committing with
  | true => simp [Log.leaveOp, Log.endOpSection, hc]
  | false =>
    by_cases hone : log.outstanding = 1
    · simp [Log.leaveOp, Log.endOpSection, hc, hone]
    · have hne : log.outstanding - 1 ≠ 0 := by omega
      simp [Log.leaveOp, Log.endOpSection, hc, hone, hne]

/-- Inside an operation `log_write` stops the kernel only if the log is full. -/
theorem Log.logWriteSection_eq_error {b : Nat} (hout : 1 ≤ log.outstanding)
    (h : log.logWriteSection b = .error msg) : msg = "too big transaction" ∧ logBlocks ≤ log.lh.n := by
  unfold Log.logWriteSection at h
  split at h
  next hn => exact ⟨(Except.error.inj h).symm, hn⟩
  · rw [if_neg (by omega)] at h
    simp only at h
    split at h <;> cases h

/-- A successful `log_write` absorbs a block that is already logged and appends a new one. -/
theorem Log.logWriteSection_eq_ok {log' : Log} {b : Nat} {new : Bool} (h0 : 0 ≤ log.lh.n)
    (h : log.logWriteSection b = .ok (log', new)) :
    log.lh.n < logBlocks ∧ log'.start = log.start ∧
      log'.outstanding = log.outstanding ∧ log'.committing = log.committing ∧ 0 ≤ log'.lh.n ∧
      ((b ∈ log.lh.entries ∧ new = false ∧ log'.lh.entries = log.lh.entries) ∨
        (b ∉ log.lh.entries ∧ new = true ∧ log'.lh.entries = log.lh.entries ++ [b])) := by
  unfold Log.logWriteSection at h
  split at h
  · cases h
  next hn =>
  split at h
  · cases h
  next hout =>
  obtain ⟨-, h2, h3, h4⟩ := log.lh.absorb_spec b log.lh.n.toNat 0
  set i := log.lh.absorb b log.lh.n.toNat 0
  simp only at h
  split at h
  · next hi =>
      -- no entry matches: the block is appended at index `n`
      cases h
      refine ⟨by omega, rfl, rfl, rfl, by simp; omega, Or.inr ⟨?_, rfl, ?_⟩⟩
      · rw [LogHeader.mem_entries]
        rintro ⟨j, hj, hjb⟩
        exact h3 j (Nat.zero_le j) (by omega) hjb
      have hsucc : (log.lh.n + 1).toNat = log.lh.n.toNat + 1 := by omega
      have hin : i = log.lh.n.toNat := by omega
      simp only [LogHeader.entries, hsucc, List.range_succ, List.map_append, List.map_cons, List.map_nil]
      congr 1
      · refine List.map_congr_left fun j hj => ?_
        rw [List.mem_range] at hj
        exact update_of_ne (by omega) _ _
      · rw [hin, update_self]
  · next hi =>
      -- the matching entry is overwritten with the same block number
      cases h
      have hlt : i < 0 + log.lh.n.toNat := by omega
      have hsame : update log.lh.block i b = log.lh.block := by
        rw [← h4 hlt]
        exact update_eq_self i log.lh.block
      refine ⟨by omega, rfl, rfl, rfl, h0, Or.inl ⟨?_, rfl, ?_⟩⟩
      · rw [LogHeader.mem_entries]
        exact ⟨i, by omega, h4 hlt⟩
      · rw [hsame]

end Xv6Lab.Logging
