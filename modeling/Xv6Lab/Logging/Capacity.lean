import Xv6Lab.Lib.Reservation
import Xv6Lab.Logging.GroupCommit

/-!
# The capacity of the log

`begin_op` admits an operation only if the log has room for `MAXOPBLOCKS` blocks of every running operation
besides the blocks it holds. Where every operation writes at most `MAXOPBLOCKS` distinct blocks, the log
therefore has room for every block that is new to it. `log_write` tests the room before it looks whether the
block is in the log already, however: with the log full, the second `log_write` of a block stops the kernel
although it needs no room (`full_log_panics`). Operations that do not write logged blocks again while the log
is full never do (`log_never_overflows`).
-/

namespace Xv6Lab.Logging.GroupCommit

open Lib.Transition Lib.Reservation Option Finset

variable {P : Type} [DecidableEq P] {s t : State P} {p q : P} {b : Nat}

/-! ## The blocks of an operation -/

def opBlocksStep (q : P) (bs : Finset Nat) : Event P → Finset Nat
  | .beginOp p => if p = q then ∅ else bs
  | .logWrite p b => if p = q then insert b bs else bs
  | .endOp _ => bs

/-- The distinct blocks that process `q` has written since its last `begin_op`. -/
def opBlocks (q : P) (es : List (Event P)) : Finset Nat := es.foldl (opBlocksStep q) ∅

theorem opBlocks_append (q : P) (es : List (Event P)) (e : Event P) :
    opBlocks q (es ++ [e]) = opBlocksStep q (opBlocks q es) e := by
  rw [opBlocks, List.foldl_append]
  rfl

theorem wrote_of_mem_opBlocks (es : List (Event P)) (hb : b ∈ opBlocks q es) : Wrote es b := by
  induction es using List.reverseRecOn with
  | nil => exact absurd hb (notMem_empty b)
  | append_singleton es e ih =>
    rw [opBlocks_append] at hb
    rw [wrote_append_iff]
    cases e with
    | beginOp p =>
      rw [opBlocksStep] at hb
      split at hb
      · exact absurd hb (notMem_empty b)
      · exact .inl (ih hb)
    | logWrite p c =>
      rw [opBlocksStep] at hb
      split at hb
      · rcases mem_insert.mp hb with rfl | hb
        · exact .inr ⟨p, rfl⟩
        · exact .inl (ih hb)
      · exact .inl (ih hb)
    | endOp p => exact .inl (ih hb)

/-- Every operation writes at most `MAXOPBLOCKS` distinct blocks. -/
def WellBehaved (s : State P) : Action P → Prop
  | .logWrite p b => (insert b (opBlocks p s.current)).card ≤ maxOpBlocks
  | _ => True

instance decidableWellBehaved (s : State P) (a : Action P) : Decidable (WellBehaved s a) :=
  match a with
  | .logWrite p b => inferInstanceAs (Decidable ((insert b (opBlocks p s.current)).card ≤ maxOpBlocks))
  | .callBegin _ | .testBegin _ | .kkill _ | .endOp _ | .commit _ => inferInstanceAs (Decidable True)

/-- No logged block is written again while the log is full. -/
def NoAbsorbWhenFull (s : State P) : Action P → Prop
  | .logWrite _ b => b ∈ s.log.lh.entries → s.log.lh.n ≠ logBlocks
  | _ => True

instance decidableNoAbsorbWhenFull (s : State P) (a : Action P) : Decidable (NoAbsorbWhenFull s a) :=
  match a with
  | .logWrite _ b =>
    inferInstanceAs (Decidable (b ∈ s.log.lh.entries → s.log.lh.n ≠ logBlocks))
  | .callBegin _ | .testBegin _ | .kkill _ | .endOp _ | .commit _ => inferInstanceAs (Decidable True)

/-! ## Room -/

/-- The log has room for its blocks and for what the running operations may still write. -/
def Room (s : State P) : Prop :=
  ∃ F : Finset P, (∀ p, p ∈ F ↔ s.pc p = .inOp) ∧
    Reserves maxOpBlocks logBlocks F (fun p => (opBlocks p s.current).card) s.log.lh.n.toNat

omit [DecidableEq P] in
theorem Room.le [DecidableEq P] (h : Room s) : s.log.lh.n ≤ logBlocks := by
  obtain ⟨F, -, hF⟩ := h
  have hle := hF.le
  omega

/-- Outside operations only the size of the log matters. -/
theorem room_of_none (hnone : ∀ p, t.pc p ≠ .inOp) (hn : t.log.lh.n ≤ logBlocks) : Room t :=
  ⟨∅, fun p => ⟨fun hp => absurd hp (notMem_empty p), fun hp => absurd hp (hnone p)⟩, reserves_empty (by omega)⟩

/-- A step that changes neither the operations nor the log. -/
theorem Room.congr (h : Room s) (hpc : ∀ q, t.pc q = .inOp ↔ s.pc q = .inOp)
    (hcurrent : t.current = s.current) (hlog : t.log.lh = s.log.lh) : Room t := by
  obtain ⟨F, hF, hres⟩ := h
  refine ⟨F, fun q => (hF q).trans (hpc q).symm, ?_⟩
  rw [hcurrent, hlog]
  exact hres

theorem setPc_inOp {x : Pc} (hp : s.pc p ≠ .inOp) (hx : x ≠ .inOp) (q : P) :
    (s.setPc p x).pc q = .inOp ↔ s.pc q = .inOp := by
  rcases eq_or_ne q p with rfl | hq
  · simp [State.setPc, hp, hx]
  · simp [State.setPc, hq]

section

variable (h : Room s) (hinv : Inv s)
include h hinv

theorem Room.testBegin (hp : s.pc p = .testing) : Room (testBeginStep s p) := by
  have hop : s.pc p ≠ .inOp := by rw [hp]; decide
  unfold testBeginStep Log.testBegin
  cases htry : s.log.tryBeginOp with
  | none => exact h.congr (setPc_inOp hop (by decide)) rfl rfl
  | some log =>
    obtain ⟨-, rfl, hroom⟩ := Log.tryBeginOp_eq_some htry
    obtain ⟨F, hF, -⟩ := h
    have hcard : (F.card : Int) = s.log.outstanding := by
      have hset : opSet s.pc = F := Set.ext fun q => (hF q).symm
      have hcount := hinv.counts.2
      rwa [hset, Set.ncard_coe_finset] at hcount
    refine ⟨insert p F, fun q => ?_, Reserves.enter ?_ fun hmem => hop ((hF p).mp hmem)⟩
    · rcases eq_or_ne q p with rfl | hq
      · simp
      · simp [hq, hF q]
    show s.log.lh.n.toNat + (F.card + 1) * maxOpBlocks ≤ logBlocks
    have hnonneg := hinv.nonneg
    have hten : maxOpBlocks = 10 := rfl
    rw [← hcard, hten] at hroom
    rw [hten]
    omega

theorem Room.endOp (hp : s.pc p = .inOp) : Room (endOpStep s p) := by
  obtain ⟨hfree, -, -⟩ := hinv.inOp_not_committing hp
  obtain ⟨F, hF, hres⟩ := h
  have hleave : Reserves maxOpBlocks logBlocks (F.erase p)
      (fun q => (opBlocks q (s.current ++ [.endOp p])).card) s.log.lh.n.toNat := by
    refine (hres.leave p).mono fun q _ => le_of_eq ?_
    rw [opBlocks_append]
    rfl
  have hmem : ∀ x : Pc, x ≠ .inOp → ∀ q, q ∈ F.erase p ↔ Function.update s.pc p x q = .inOp := by
    intro x hx q
    rcases eq_or_ne q p with rfl | hq
    · simp [hx]
    · simp [hq, hF q]
  unfold endOpStep
  obtain ⟨-, heq⟩ | ⟨-, -, heq⟩ | ⟨-, -, heq⟩ := s.log.leaveOp_cases s.pc p .start
  · rw [heq]
    exact ⟨F, hF, hres⟩
  · rw [heq]
    exact ⟨F.erase p, hmem _ (by decide), hleave⟩
  · rw [heq]
    exact ⟨F.erase p, fun q => (hmem .idle (by decide) q).trans (wakeup_inOp _ q).symm, hleave⟩

/-- What a well-behaved operation has not written yet finds room. -/
theorem Room.lt (hp : s.pc p = .inOp) (hok : WellBehaved s (.logWrite p b))
    (hb : b ∉ s.log.lh.entries) : b ∉ opBlocks p s.current ∧ (opBlocks p s.current).card < maxOpBlocks ∧
      s.log.lh.n.toNat < logBlocks := by
  obtain ⟨-, -, hex⟩ := hinv.inOp_not_committing hp
  obtain ⟨F, hF, hres⟩ := h
  have hnot : b ∉ opBlocks p s.current := fun hmem => hb ((hex b).mpr (wrote_of_mem_opBlocks _ hmem))
  have hcard : (opBlocks p s.current).card < maxOpBlocks := by
    have hle : (insert b (opBlocks p s.current)).card ≤ maxOpBlocks := hok
    rw [card_insert_of_notMem hnot] at hle
    exact hle
  exact ⟨hnot, hcard, hres.room ((hF p).mpr hp) hcard⟩

theorem Room.logWrite (hp : s.pc p = .inOp) (hok : WellBehaved s (.logWrite p b)) : Room (logWriteStep s p b) := by
  have hlt := h.lt hinv hp hok
  obtain ⟨F, hF, hres⟩ := h
  have hother : ∀ q ≠ p, opBlocks q (s.current ++ [.logWrite p b]) = opBlocks q s.current := by
    intro q hq
    rw [opBlocks_append]
    exact if_neg hq.symm
  have hself : opBlocks p (s.current ++ [.logWrite p b]) = insert b (opBlocks p s.current) := by
    rw [opBlocks_append]
    exact if_pos rfl
  unfold logWriteStep
  cases hsec : s.log.logWriteSection b with
  | error msg => exact ⟨F, hF, hres⟩
  | ok r =>
    obtain ⟨log, new⟩ := r
    obtain ⟨-, -, -, -, -, hcase⟩ := Log.logWriteSection_eq_ok hinv.nonneg hsec
    refine ⟨F, hF, ?_⟩
    rcases hcase with ⟨-, -, hent⟩ | ⟨hb, -, hent⟩
    · -- an absorbed block takes no room
      have hn : log.lh.n.toNat = s.log.lh.n.toNat := by
        rw [← LogHeader.length_entries, hent, LogHeader.length_entries]
      rw [hn]
      refine hres.mono fun q _ => card_le_card ?_
      by_cases hq : q = p
      · rw [hq]
        exact hself ▸ subset_insert b _
      · exact (hother q hq).ge
    · obtain ⟨hnot, hcard, -⟩ := hlt hb
      have hn : log.lh.n.toNat = s.log.lh.n.toNat + 1 := by
        rw [← LogHeader.length_entries, hent, List.length_append, LogHeader.length_entries]
        rfl
      rw [hn]
      refine hres.store ((hF p).mpr hp) hcard ?_ fun q _ hq => congrArg card (hother q hq)
      rw [hself, card_insert_of_notMem hnot]

end

/-- A step of `commit` leaves the log no longer, starts no operation and does not stop the kernel. -/
theorem commitStep_log (hinv : Inv s) (ph : Phase) : (commitStep s p ph).log.lh.n ≤ s.log.lh.n ∧
      (commitStep s p ph).log.outstanding = s.log.outstanding ∧
      (commitStep s p ph).panicked = s.panicked := by
  cases ph with
  | start | writeLog | installTrans =>
    rw [commitStep]
    split <;> exact ⟨le_rfl, rfl, rfl⟩
  | writeHead | clearHead | finish => exact ⟨le_rfl, rfl, rfl⟩
  | clearN => exact ⟨hinv.nonneg, rfl, rfl⟩

/-- A commit runs while no operation does. -/
theorem Room.commit (h : Room s) (hinv : Inv s) {ph : Phase} (hp : s.pc p = .commit ph) :
    Room (commitStep s p ph) := by
  obtain ⟨hn, hout, -⟩ := commitStep_log (p := p) hinv ph
  have hzero : s.log.outstanding = 0 := by
    rcases hinv.commitOk with ⟨-, hnone, -⟩ | ⟨-, hzero, -⟩
    · exact absurd hp (hnone p ph)
    · exact hzero
  have hcounts := (hinv.commit hp).counts
  rw [hout, hzero] at hcounts
  exact room_of_none hcounts.none_of_zero (hn.trans h.le)

theorem Room.next (h : Room s) (hinv : Inv s) {a : Action P} (hok : WellBehaved s a)
    (hnext : next s a = some t) : Room t := by
  cases (next_moves hnext).2 with
  | callBegin hp | kkill hp => exact h.congr (setPc_inOp (by rw [hp]; decide) (by decide)) rfl rfl
  | testBegin hp => exact h.testBegin hinv hp
  | logWrite b hp => exact h.logWrite hinv hp hok
  | endOp hp => exact h.endOp hinv hp
  | commit hp => exact h.commit hinv hp

/-! ## The theorem -/

/-- A write that fits into the log. -/
theorem Room.fits (h : Room s) (hinv : Inv s) (hp : s.pc p = .inOp)
    (hok : WellBehaved s (.logWrite p b)) (hfull : NoAbsorbWhenFull s (.logWrite p b)) :
    s.log.lh.n < logBlocks := by
  by_cases hb : b ∈ s.log.lh.entries
  · have hle := h.le
    have hne : s.log.lh.n ≠ logBlocks := hfull hb
    omega
  · have hlt := (h.lt hinv hp hok hb).2.2
    omega

/-- A step stops the kernel only if it writes to a full log. -/
theorem next_panicked (hinv : Inv s) {a : Action P} (hnext : next s a = some t)
    (hfits : ∀ p b, a = .logWrite p b → s.pc p = .inOp → s.log.lh.n < logBlocks) :
    t.panicked = none := by
  obtain ⟨hnone, hmove⟩ := next_moves hnext
  cases hmove with
  | callBegin | kkill => exact hnone
  | testBegin =>
    unfold testBeginStep Log.testBegin
    exact hnone
  | logWrite b hp =>
    unfold logWriteStep
    cases hsec : s.log.logWriteSection b with
    | error msg =>
      have hle := (Log.logWriteSection_eq_error (hinv.counts.pos hp) hsec).2
      exact absurd (hfits _ b rfl hp) (not_lt.mpr hle)
    | ok r => exact hnone
  | endOp hp =>
    unfold endOpStep
    obtain ⟨hcom, -⟩ | ⟨-, -, heq⟩ | ⟨-, -, heq⟩ := s.log.leaveOp_cases s.pc _ .start
    · cases (hinv.inOp_not_committing hp).1.symm.trans hcom
    · rw [heq]
      exact hnone
    · rw [heq]
      exact hnone
  | commit => exact (commitStep_log hinv _).2.2.trans hnone

/-- In every run in which operations write at most `MAXOPBLOCKS` distinct blocks each and no logged block
is written again while the log is full, the log holds at most `LOGBLOCKS` blocks, no `log_write` stops the
kernel, and the next one stays within `log.lh.block`. -/
theorem log_never_overflows (hrun : Reachable Init next (fun s a => WellBehaved s a ∧ NoAbsorbWhenFull s a) s) :
    s.log.lh.n ≤ logBlocks ∧ s.panicked ≠ some "too big transaction" ∧
      ∀ p b, s.pc p = .inOp → WellBehaved s (.logWrite p b) → NoAbsorbWhenFull s (.logWrite p b) →
        s.log.lh.absorb b s.log.lh.n.toNat 0 < logBlocks := by
  have h : Inv s ∧ Room s ∧ s.panicked = none := by
    refine hrun.invariant (fun s => Inv s ∧ Room s ∧ s.panicked = none) (fun s hs => ?_) ?_
    · refine ⟨Inv.init hs, room_of_none (fun p => ?_) ?_, hs.panicked⟩
      · rw [hs.pc p]
        decide
      · rw [hs.empty]
        decide
    · rintro s a t ⟨hinv, hroom, -⟩ ⟨hok, hfull⟩ hnext
      refine ⟨hinv.next a hnext, hroom.next hinv hok hnext, next_panicked hinv hnext ?_⟩
      rintro p b rfl hp
      exact hroom.fits hinv hp hok hfull
  obtain ⟨hinv, hroom, hnone⟩ := h
  refine ⟨hroom.le, ?_, fun p b hp hok hfull => ?_⟩
  · rw [hnone]
    exact (some_ne_none _).symm
  have hn : s.log.lh.n < 30 := hroom.fits hinv hp hok hfull
  have hi := (s.log.lh.absorb_spec b s.log.lh.n.toNat 0).2.1
  show _ < 30
  omega

/-- The log after a boot, for three processes. -/
def bootThree : State (Fin 3) where
  log := (bootMem 2).log
  pc := fun _ => .idle
  panicked := none
  current := []
  record := ⟨[], [], []⟩
  done := []

theorem bootThree_init : Init bootThree := ⟨rfl, rfl, rfl, fun _ => rfl, rfl, rfl, rfl⟩

/-- After an operation began and wrote block 50 twice the log holds one block and the kernel runs. -/
theorem log_never_overflows_one : ∃ s : State (Fin 3), s.log.lh.n = 1 ∧ s.log.lh.n ≤ logBlocks ∧
    s.panicked ≠ some "too big transaction" := by
  have hrun : ((run (guarded next fun s a => WellBehaved s a ∧ NoAbsorbWhenFull s a) bootThree
      [.callBegin 0, .testBegin 0, .logWrite 0 50, .logWrite 0 50]).map fun s => s.log.lh.n) = some 1 := by
    decide +kernel
  obtain ⟨s, hs, hn⟩ := map_eq_some_iff.mp hrun
  have hlog := log_never_overflows (reachable_guarded_run (.start bootThree_init) hs)
  exact ⟨s, hn, hlog.1, hlog.2.1⟩

/-- Three operations begin and write ten blocks each. -/
def fillLog : List (Action (Fin 3)) :=
  (List.finRange 3).flatMap (fun p => [.callBegin p, .testBegin p]) ++
    (List.finRange 3).flatMap fun p => (List.range 10).map fun i => .logWrite p (100 * p + i)

/-- With a full log, the second write of a block stops the kernel. Every operation has written ten
distinct blocks. -/
theorem full_log_panics : ∃ s : State (Fin 3), Reachable Init next WellBehaved s ∧
    s.panicked = some "too big transaction" := by
  have hpanic : ((run (guarded next WellBehaved) bootThree (fillLog ++ [.logWrite 0 0])).map
      State.panicked) = some (some "too big transaction") := by
    decide +kernel
  obtain ⟨s, hs, hpan⟩ := map_eq_some_iff.mp hpanic
  exact ⟨s, reachable_guarded_run (.start bootThree_init) hs, hpan⟩

end Xv6Lab.Logging.GroupCommit
