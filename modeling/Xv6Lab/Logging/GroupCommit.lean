import Mathlib.Data.Set.Card
import Xv6Lab.Lib.Transition
import Xv6Lab.Logging.Sections

/-!
# Group commit

Any number of processes run operations at the granularity of `log.lock`. `begin_op` tests the log
under the lock and sleeps or enters; `log_write` and the first part of `end_op` are one critical
section each; the process whose `end_op` finds no other operation sets `log.committing` and runs
`commit` without the lock, one access to `log.lh` at a time, and a last critical section clears
`log.committing`.

The state also records the events of the operations since the last commit (`current`) and, for each
finished commit, the events it covers with the blocks it copied to the log, listed in the header and
installed. `groupCommit_safe` says that these three lists agree and hold exactly the blocks written
by operations that began and ended within the group. `begin_op_waits_for_other` says that a sleeper always
has a process that will wake it.
-/

namespace Xv6Lab.Logging.GroupCommit

open Function Lib.Transition List Option

/-- Where a process stands in `commit` and in the last critical section of `end_op`. -/
inductive Phase where
  | start
  | writeLog (i : Nat)
  | writeHead
  | installTrans (i : Nat)
  | clearN
  | clearHead
  | finish
  deriving DecidableEq

abbrev Pc := Logging.Pc Phase

/-- What a process did to the log. -/
inductive Event (P : Type) where
  | beginOp (p : P)
  | logWrite (p : P) (b : Nat)
  | endOp (p : P)
  deriving DecidableEq

/-- The blocks a commit copied to the log area, listed in the header and installed. -/
structure Record where
  copied : List Nat
  header : List Nat
  installed : List Nat
  deriving DecidableEq

/-- A finished commit with the events since the commit before it. -/
structure Group (P : Type) where
  events : List (Event P)
  record : Record

structure State (P : Type) where
  log : Log
  pc : P → Pc
  panicked : Option String
  current : List (Event P)
  record : Record
  done : List (Group P)

/-- The steps of the processes. -/
inductive Action (P : Type) where
  | callBegin (p : P)
  | testBegin (p : P)
  /-- a sleeper is made runnable by `kkill` and tests the log again -/
  | kkill (p : P)
  | logWrite (p : P) (b : Nat)
  | endOp (p : P)
  | commit (p : P)

variable {P : Type} [DecidableEq P] {s : State P} {p : P} {pc : P → Pc} {k : Int}

def State.setPc (s : State P) (p : P) (x : Pc) : State P :=
  { s with pc := update s.pc p x }

/-- One step of `commit` by process `p`, and the critical section after it. -/
def commitStep (s : State P) (p : P) : Phase → State P
  | .start =>
    if s.log.lh.n = 0 then s.setPc p (.commit .finish) else s.setPc p (.commit (.writeLog 0))
  | .writeLog i =>
    if (i : Int) < s.log.lh.n then
      { s.setPc p (.commit (.writeLog (i + 1))) with
        record := { s.record with copied := s.record.copied ++ [s.log.lh.block i] } }
    else s.setPc p (.commit .writeHead)
  | .writeHead =>
    { s.setPc p (.commit (.installTrans 0)) with
      record := { s.record with header := s.log.lh.entries } }
  | .installTrans i =>
    if (i : Int) < s.log.lh.n then
      { s.setPc p (.commit (.installTrans (i + 1))) with
        record := { s.record with installed := s.record.installed ++ [s.log.lh.block i] } }
    else s.setPc p (.commit .clearN)
  | .clearN =>
    { s.setPc p (.commit .clearHead) with log := { s.log with lh := { s.log.lh with n := 0 } } }
  | .clearHead => s.setPc p (.commit .finish)
  | .finish =>
    { s with
      log := { s.log with committing := false }
      pc := wakeup (update s.pc p .idle)
      current := []
      done := s.done ++ [⟨s.current, s.record⟩] }

/-- The critical section of `end_op` in process `p`. -/
def endOpStep (s : State P) (p : P) : State P :=
  match s.log.leaveOp s.pc p .start with
  | .error msg => { s with panicked := some msg }
  | .ok (commits, log, pc) =>
    { s with
      log := log
      pc := pc
      current := s.current ++ [.endOp p]
      record := if commits then ⟨[], [], []⟩ else s.record }

/-- The test of `begin_op` in process `p`. -/
def testBeginStep (s : State P) (p : P) : State P :=
  let (enters, log, pc) := s.log.testBegin s.pc p
  { s with log := log, pc := pc, current := if enters then s.current ++ [.beginOp p] else s.current }

/-- `log_write` of block `b` in process `p`. -/
def logWriteStep (s : State P) (p : P) (b : Nat) : State P :=
  match s.log.logWriteSection b with
  | .error msg => { s with panicked := some msg }
  | .ok (log, _) => { s with log := log, current := s.current ++ [.logWrite p b] }

/-- The transition function; nothing moves after a panic. -/
def next (s : State P) (a : Action P) : Option (State P) :=
  if s.panicked.isSome then none
  else match a with
    | .callBegin p => if s.pc p = .idle then some (s.setPc p .testing) else none
    | .testBegin p => if s.pc p = .testing then some (testBeginStep s p) else none
    | .kkill p => if s.pc p = .asleep then some (s.setPc p .testing) else none
    | .logWrite p b => if s.pc p = .inOp then some (logWriteStep s p b) else none
    | .endOp p => if s.pc p = .inOp then some (endOpStep s p) else none
    | .commit p =>
      match s.pc p with
      | .commit ph => some (commitStep s p ph)
      | _ => none

/-- The steps by the place of the process that takes them. -/
inductive Moves (s : State P) : Action P → State P → Prop where
  | callBegin {p : P} (hp : s.pc p = .idle) : Moves s (.callBegin p) (s.setPc p .testing)
  | testBegin {p : P} (hp : s.pc p = .testing) : Moves s (.testBegin p) (testBeginStep s p)
  | kkill {p : P} (hp : s.pc p = .asleep) : Moves s (.kkill p) (s.setPc p .testing)
  | logWrite {p : P} (b : Nat) (hp : s.pc p = .inOp) : Moves s (.logWrite p b) (logWriteStep s p b)
  | endOp {p : P} (hp : s.pc p = .inOp) : Moves s (.endOp p) (endOpStep s p)
  | commit {p : P} {ph : Phase} (hp : s.pc p = .commit ph) : Moves s (.commit p) (commitStep s p ph)

theorem next_moves {a : Action P} {t : State P} (hnext : next s a = some t) : s.panicked = none ∧ Moves s a t := by
  unfold next at hnext
  split at hnext
  · cases hnext
  next hnone =>
  refine ⟨Option.not_isSome_iff_eq_none.mp hnone, ?_⟩
  cases a with
  | callBegin p | testBegin p | kkill p | logWrite p b | endOp p =>
    obtain ⟨hp, rfl⟩ := ite_some_none_eq_some.mp hnext
    constructor
    exact hp
  | commit p =>
    cases hp : s.pc p with
    | commit ph =>
      simp only [hp] at hnext
      cases hnext
      exact .commit hp
    | idle | testing | asleep | inOp => simp [hp] at hnext

/-- The log as `initlog` leaves it, with no process in an operation. -/
structure Init (s : State P) : Prop where
  outstanding : s.log.outstanding = 0
  committing : s.log.committing = false
  empty : s.log.lh.n = 0
  pc : ∀ p, s.pc p = .idle
  panicked : s.panicked = none
  current : s.current = []
  done : s.done = []

/-! ## The property -/

/-- The effect of an event on the question whether process `q` is in an operation; `none` when the
event is not possible there. -/
def bracketStep (q : P) (b : Bool) : Event P → Option Bool
  | .beginOp p => if p = q then (if b then none else some true) else some b
  | .logWrite p _ => if p = q then (if b then some true else none) else some b
  | .endOp p => if p = q then (if b then some false else none) else some b

def bracket (q : P) : Bool → List (Event P) → Option Bool
  | b, [] => some b
  | b, e :: es => (bracketStep q b e).bind fun c => bracket q c es

/-- The events of process `q` are whole operations: each write lies between a `begin_op` and the
`end_op` of its operation. -/
def WholeOps (q : P) (es : List (Event P)) : Prop := bracket q false es = some false

/-- Some operation wrote block `b`. -/
def Wrote (es : List (Event P)) (b : Nat) : Prop := ∃ p, Event.logWrite p b ∈ es

/-- The three lists of a commit agree and hold exactly the written blocks. -/
structure RecordOk (es : List (Event P)) (r : Record) : Prop where
  copied : r.copied = r.header
  installed : r.installed = r.header
  distinct : r.header.Nodup
  exact_blocks : ∀ b, b ∈ r.header ↔ Wrote es b

/-- The safety property of the log in one state. -/
structure Safe (s : State P) : Prop where
  committing_alone : s.log.committing = true → s.log.outstanding = 0 ∧ ∀ p, s.pc p ≠ .inOp
  endOp_no_panic : s.panicked ≠ some "log.committing"
  logWrite_no_panic : s.panicked ≠ some "log_write outside transaction"
  distinct : s.log.lh.entries.Nodup
  groups : ∀ g ∈ s.done, (∀ q, WholeOps q g.events) ∧ RecordOk g.events g.record

/-! ## The invariant -/

/-- The processes inside an operation. -/
def opSet (pc : P → Pc) : Set P := { p | pc p = .inOp }

/-- The count `k` is the number of processes inside an operation. -/
def Counts (pc : P → Pc) (k : Int) : Prop := (opSet pc).Finite ∧ ((opSet pc).ncard : Int) = k

/-- The logged blocks are those written since the last commit. -/
def Exact (s : State P) : Prop := ∀ b, b ∈ s.log.lh.entries ↔ Wrote s.current b

/-- What the committing process has done when it is about to run phase `ph`. -/
def PhaseOk (s : State P) : Phase → Prop
  | .start => Exact s ∧ s.record = ⟨[], [], []⟩
  | .writeLog i => Exact s ∧ s.record = ⟨s.log.lh.entries.take i, [], []⟩
  | .writeHead => Exact s ∧ s.record = ⟨s.log.lh.entries, [], []⟩
  | .installTrans i =>
    Exact s ∧ s.record = ⟨s.log.lh.entries, s.log.lh.entries, s.log.lh.entries.take i⟩
  | .clearN => Exact s ∧ s.record = ⟨s.log.lh.entries, s.log.lh.entries, s.log.lh.entries⟩
  | .clearHead => s.log.lh.n = 0 ∧ RecordOk s.current s.record
  | .finish => s.log.lh.n = 0 ∧ RecordOk s.current s.record

/-- Who commits: nobody while the flag is clear, and otherwise one process, with no operation
outstanding. -/
def CommitOk (s : State P) : Prop :=
  (s.log.committing = false ∧ (∀ p ph, s.pc p ≠ .commit ph) ∧ Exact s) ∨
    (s.log.committing = true ∧ s.log.outstanding = 0 ∧
      ∃ p ph, s.pc p = .commit ph ∧ (∀ q ph', s.pc q = .commit ph' → q = p) ∧ PhaseOk s ph)

structure Inv (s : State P) : Prop where
  nonneg : 0 ≤ s.log.lh.n
  distinct : s.log.lh.entries.Nodup
  counts : Counts s.pc s.log.outstanding
  brackets : ∀ q, bracket q false s.current = some (decide (s.pc q = .inOp))
  commitOk : CommitOk s
  groups : ∀ g ∈ s.done, (∀ q, WholeOps q g.events) ∧ RecordOk g.events g.record
  panicked : ∀ msg, s.panicked = some msg → msg = "too big transaction"

/-! ## Counting operations -/

section

omit [DecidableEq P]

theorem Counts.congr {pc' : P → Pc} (h : Counts pc k) (hsame : ∀ q, pc' q = .inOp ↔ pc q = .inOp) : Counts pc' k := by
  have hset : opSet pc' = opSet pc := Set.ext hsame
  unfold Counts
  rw [hset]
  exact h

theorem Counts.pos (h : Counts pc k) (hp : pc p = .inOp) : 1 ≤ k := by
  have hone := (Set.ncard_pos h.1).mpr ⟨p, hp⟩
  have hcard := h.2
  omega

theorem Counts.none_of_zero (h : Counts pc 0) (p : P) : pc p ≠ .inOp := by
  intro hp
  exact absurd (h.pos hp) (by decide)

theorem wakeup_inOp (pc : P → Pc) (q : P) : wakeup pc q = .inOp ↔ pc q = .inOp :=
  wakeup_eq_iff pc q nofun nofun

theorem wakeup_commit (pc : P → Pc) (q : P) (ph : Phase) : wakeup pc q = .commit ph ↔ pc q = .commit ph :=
  wakeup_eq_iff pc q nofun nofun

end

theorem Counts.enter (h : Counts pc k) (hp : pc p ≠ .inOp) : Counts (update pc p .inOp) (k + 1) := by
  obtain ⟨hfin, hcard⟩ := h
  have hset : opSet (update pc p .inOp) = insert p (opSet pc) := by
    ext q
    rcases eq_or_ne q p with rfl | hq
    · simp [opSet]
    · simp [opSet, hq]
  constructor
  · rw [hset]
    exact hfin.insert p
  · rw [hset, Set.ncard_insert_of_notMem (show p ∉ opSet pc from hp) hfin]
    push_cast
    omega

theorem Counts.leave (h : Counts pc k) {x : Pc} (hp : pc p = .inOp)
    (hx : x ≠ .inOp) : Counts (update pc p x) (k - 1) := by
  obtain ⟨hfin, hcard⟩ := h
  have hset : opSet (update pc p x) = opSet pc \ {p} := by
    ext q
    rcases eq_or_ne q p with rfl | hq
    · simp [opSet, hx]
    · simp [opSet, hq]
  have hone := Set.ncard_sdiff_singleton_add_one (s := opSet pc) (a := p) hp hfin
  constructor
  · rw [hset]
    exact hfin.sdiff
  · rw [hset]
    omega

/-! ## Recording events -/

theorem bracket_append (q : P) (es : List (Event P)) (e : Event P) (b : Bool) :
    bracket q b (es ++ [e]) = (bracket q b es).bind fun c => bracketStep q c e := by
  induction es generalizing b with
  | nil =>
    rw [nil_append, bracket, bracket, bind_some]
    cases bracketStep q b e <;> rfl
  | cons d es ih =>
    rw [cons_append, bracket, bracket]
    cases bracketStep q b d with
    | none => rfl
    | some c => exact ih c

omit [DecidableEq P] in
theorem wrote_append_iff (es : List (Event P)) (e : Event P) (b : Nat) :
    Wrote (es ++ [e]) b ↔ Wrote es b ∨ ∃ p, e = .logWrite p b := by
  constructor
  · rintro ⟨p, hp⟩
    rcases mem_append.mp hp with hp | hp
    · exact Or.inl ⟨p, hp⟩
    · exact Or.inr ⟨p, (mem_singleton.mp hp).symm⟩
  · rintro (⟨p, hp⟩ | ⟨p, rfl⟩)
    · exact ⟨p, mem_append_left _ hp⟩
    · exact ⟨p, mem_append_right _ (mem_singleton.mpr rfl)⟩

/-! ## One step -/

open State

/-- Moves between the places outside operations and commits. -/
theorem Inv.move (h : Inv s) {x : Pc} (hop : s.pc p ≠ .inOp)
    (hcommit : ∀ ph, s.pc p ≠ .commit ph) (hxop : x ≠ .inOp) (hxcommit : ∀ ph, x ≠ .commit ph) :
    Inv (s.setPc p x) := by
  have hsame : ∀ q, (s.setPc p x).pc q = .inOp ↔ s.pc q = .inOp := by
    intro q
    rcases eq_or_ne q p with rfl | hq
    · simp [setPc, hop, hxop]
    · simp [setPc, hq]
  have hsameCommit : ∀ q ph, (s.setPc p x).pc q = .commit ph ↔ s.pc q = .commit ph := by
    intro q ph
    rcases eq_or_ne q p with rfl | hq
    · simp [setPc, hcommit, hxcommit]
    · simp [setPc, hq]
  refine ⟨h.nonneg, h.distinct, h.counts.congr hsame, fun q => ?_, ?_, h.groups, h.panicked⟩
  · rw [decide_eq_decide.mpr (hsame q)]
    exact h.brackets q
  rcases h.commitOk with ⟨hc, hnone, hex⟩ | ⟨hc, hout, r, ph, hr, huniq, hph⟩
  · exact Or.inl ⟨hc, fun q ph hq => hnone q ph ((hsameCommit q ph).mp hq), hex⟩
  · exact Or.inr ⟨hc, hout, r, ph, (hsameCommit r ph).mpr hr,
      fun q ph' hq => huniq q ph' ((hsameCommit q ph').mp hq), hph⟩

/-- An operation can only be in progress while nobody commits. -/
theorem Inv.inOp_not_committing (h : Inv s) (hp : s.pc p = .inOp) :
    s.log.committing = false ∧ (∀ q ph, s.pc q ≠ .commit ph) ∧ Exact s := by
  rcases h.commitOk with hfree | ⟨-, hout, -⟩
  · exact hfree
  · have hpos := h.counts.pos hp
    omega

theorem Inv.testBegin (h : Inv s) (hp : s.pc p = .testing) : Inv (testBeginStep s p) := by
  have hop : s.pc p ≠ .inOp := by rw [hp]; decide
  have hcommit : ∀ ph, s.pc p ≠ .commit ph := by
    intro ph
    rw [hp]
    exact nofun
  unfold testBeginStep Log.testBegin
  cases htry : s.log.tryBeginOp with
  | none => exact h.move hop hcommit nofun nofun
  | some log =>
    obtain ⟨hfree, rfl, -⟩ := Log.tryBeginOp_eq_some htry
    rcases h.commitOk with ⟨-, hnone, hex⟩ | ⟨htrue, -⟩
    · refine ⟨h.nonneg, h.distinct, h.counts.enter hop, fun q => ?_, Or.inl ⟨hfree, ?_, ?_⟩, h.groups, h.panicked⟩
      · show bracket q false (s.current ++ [.beginOp p]) = some (decide (update s.pc p .inOp q = .inOp))
        rw [bracket_append, h.brackets q, bind_some]
        rcases eq_or_ne p q with rfl | hq
        · simp [bracketStep, hop]
        · simp [bracketStep, hq, Ne.symm hq]
      · intro q ph hq
        rcases eq_or_ne q p with rfl | hqp
        · simp at hq
        · exact hnone q ph (by simpa [hqp] using hq)
      · intro b
        show b ∈ s.log.lh.entries ↔ Wrote (s.current ++ [.beginOp p]) b
        rw [wrote_append_iff]
        simpa using hex b
    · rw [hfree] at htrue
      cases htrue

theorem Inv.panic (h : Inv s) : Inv { s with panicked := some "too big transaction" } :=
  ⟨h.nonneg, h.distinct, h.counts, h.brackets, h.commitOk, h.groups, fun _ hm => (some.inj hm).symm⟩

theorem Inv.logWrite (h : Inv s) (hp : s.pc p = .inOp) (b : Nat) : Inv (logWriteStep s p b) := by
  obtain ⟨hfree, hnone, hex⟩ := h.inOp_not_committing hp
  unfold logWriteStep
  cases hsec : s.log.logWriteSection b with
  | error msg =>
    -- the process counts as outstanding, so only the first panic of `log_write` is left
    rw [(Log.logWriteSection_eq_error (h.counts.pos hp) hsec).1]
    exact h.panic
  | ok r =>
    obtain ⟨log, new⟩ := r
    obtain ⟨-, -, hout, hcom, hn, hcase⟩ := Log.logWriteSection_eq_ok h.nonneg hsec
    have hmem : ∀ c, c ∈ log.lh.entries ↔ c ∈ s.log.lh.entries ∨ c = b := by
      intro c
      rcases hcase with ⟨hb, -, hent⟩ | ⟨-, -, hent⟩
      · rw [hent]
        constructor
        · exact Or.inl
        · rintro (hc | rfl)
          · exact hc
          · exact hb
      · rw [hent, mem_append, mem_singleton]
    refine ⟨hn, ?_, ?_, fun q => ?_, Or.inl ⟨hcom.trans hfree, hnone, fun c => ?_⟩, h.groups, h.panicked⟩
    · rcases hcase with ⟨-, -, hent⟩ | ⟨hb, -, hent⟩
      · rw [hent]
        exact h.distinct
      · rw [hent]
        exact h.distinct.append (by simp) (by simpa using hb)
    · rw [hout]
      exact h.counts
    · rw [bracket_append, h.brackets q, bind_some]
      rcases eq_or_ne p q with rfl | hq
      · simp [bracketStep, hp]
      · simp [bracketStep, hq]
    · rw [wrote_append_iff, hmem, hex c]
      refine or_congr Iff.rfl ⟨?_, ?_⟩
      · rintro rfl
        exact ⟨p, rfl⟩
      · rintro ⟨q, hq⟩
        cases hq
        rfl

/-- The record of an `end_op` keeps every process's events well bracketed. -/
theorem bracket_endOp (h : Inv s) (hp : s.pc p = .inOp)
    (hpp : pc p ≠ .inOp) (hother : ∀ q ≠ p, (pc q = .inOp ↔ s.pc q = .inOp)) (q : P) :
    bracket q false (s.current ++ [.endOp p]) = some (decide (pc q = .inOp)) := by
  rw [bracket_append, h.brackets q, bind_some]
  rcases eq_or_ne p q with rfl | hq
  · simp [bracketStep, hp, hpp]
  · simp [bracketStep, hq, hother q (Ne.symm hq)]

omit [DecidableEq P] in
theorem exact_endOp (hex : Exact s) (p : P) (b : Nat) : b ∈ s.log.lh.entries ↔ Wrote (s.current ++ [.endOp p]) b := by
  rw [wrote_append_iff, hex b]
  simp

theorem Inv.endOp (h : Inv s) (hp : s.pc p = .inOp) : Inv (endOpStep s p) := by
  obtain ⟨hfree, hnone, hex⟩ := h.inOp_not_committing hp
  unfold endOpStep
  obtain ⟨hcom, -⟩ | ⟨-, hone, heq⟩ | ⟨-, hmany, heq⟩ := s.log.leaveOp_cases s.pc p .start
  · cases hfree.symm.trans hcom
  · rw [heq]
    -- the last operation ends: its process commits
    have hcounts : Counts (update s.pc p (.commit .start)) 0 := by
      have hleave := h.counts.leave (x := .commit .start) hp nofun
      rw [hone] at hleave
      exact hleave
    refine ⟨h.nonneg, h.distinct, hcounts, fun q => ?_, Or.inr ⟨rfl, rfl, p, .start, ?_, ?_, ?_⟩,
      h.groups, h.panicked⟩
    · refine bracket_endOp h hp ?_ ?_ q
      · simp
      · intro r hr
        simp [hr]
    · simp
    · intro q ph hq
      by_contra hne
      exact hnone q ph (by simpa [hne] using hq)
    · exact ⟨exact_endOp hex p, rfl⟩
  · rw [heq]
    -- other operations go on
    refine ⟨h.nonneg, h.distinct, ?_, fun q => ?_, Or.inl ⟨hfree, ?_, ?_⟩, h.groups, h.panicked⟩
    · exact (h.counts.leave (x := .idle) hp nofun).congr (wakeup_inOp _)
    · refine bracket_endOp h hp ?_ ?_ q
      · rw [Ne, wakeup_inOp]
        simp
      · intro r hr
        rw [wakeup_inOp]
        simp [hr]
    · intro q ph hq
      rw [wakeup_commit] at hq
      rcases eq_or_ne q p with rfl | hqp
      · simp at hq
      · exact hnone q ph (by simpa [hqp] using hq)
    · exact exact_endOp hex p

/-- The committing process advances by one phase. -/
theorem Inv.advance {s' : State P} (h : Inv s) {ph ph' : Phase} (hp : s.pc p = .commit ph)
    (hpc : s'.pc = update s.pc p (.commit ph'))
    (hout : s'.log.outstanding = s.log.outstanding) (hcom : s'.log.committing = s.log.committing)
    (hcur : s'.current = s.current) (hdone : s'.done = s.done) (hpan : s'.panicked = s.panicked)
    (hn : 0 ≤ s'.log.lh.n) (hnd : s'.log.lh.entries.Nodup) (hph : PhaseOk s ph → PhaseOk s' ph') : Inv s' := by
  have hsame : ∀ q, s'.pc q = .inOp ↔ s.pc q = .inOp := by
    intro q
    rw [hpc]
    rcases eq_or_ne q p with rfl | hq
    · simp [hp]
    · simp [hq]
  refine ⟨hn, hnd, ?_, fun q => ?_, ?_, ?_, ?_⟩
  · rw [hout]
    exact h.counts.congr hsame
  · rw [hcur, decide_eq_decide.mpr (hsame q)]
    exact h.brackets q
  · rcases h.commitOk with ⟨-, hnone, -⟩ | ⟨hc, h0, r, phr, hr, huniq, hok⟩
    · exact absurd hp (hnone p ph)
    obtain rfl : p = r := huniq p ph hp
    obtain rfl : ph = phr := by
      rw [hp] at hr
      exact Pc.commit.inj hr
    refine Or.inr ⟨hcom.trans hc, hout.trans h0, p, ph', ?_, fun q ph'' hq => ?_, hph hok⟩
    · rw [hpc, update_self]
    · by_contra hne
      rw [hpc, update_of_ne hne] at hq
      exact hne (huniq q ph'' hq)
  · rw [hdone]
    exact h.groups
  · rw [hpan]
    exact h.panicked

/-- A loop of `commit` extends its list by one entry. -/
theorem entries_take_succ (lh : LogHeader) {i : Nat} (hi : (i : Int) < lh.n) :
    lh.entries.take i ++ [lh.block i] = lh.entries.take (i + 1) := by
  have hlen : i < lh.entries.length := by
    rw [LogHeader.length_entries]
    omega
  rw [take_succ_eq_append_getElem hlen]
  simp [LogHeader.entries]

theorem entries_take_all (lh : LogHeader) {i : Nat} (hi : ¬ (i : Int) < lh.n) : lh.entries.take i = lh.entries := by
  refine take_of_length_le ?_
  rw [LogHeader.length_entries]
  omega

theorem entries_of_zero {lh : LogHeader} (h : lh.n = 0) : lh.entries = [] := by
  rw [LogHeader.entries, h]
  rfl

theorem Inv.finish (h : Inv s) (hp : s.pc p = .commit .finish) : Inv (commitStep s p .finish) := by
  rcases h.commitOk with ⟨-, hnone, -⟩ | ⟨-, h0, r, ph, hr, huniq, hok⟩
  · exact absurd hp (hnone p .finish)
  obtain rfl : p = r := huniq p .finish hp
  obtain rfl : .finish = ph := by
    rw [hp] at hr
    exact Pc.commit.inj hr
  obtain ⟨hzero, hrecord⟩ := hok
  have hcounts : Counts s.pc 0 := by
    rw [← h0]
    exact h.counts
  -- nobody is in an operation, so every process has only whole operations in the group
  have hnoOp : ∀ q, wakeup (update s.pc p .idle) q ≠ .inOp := by
    intro q hq
    rw [wakeup_inOp] at hq
    rcases eq_or_ne q p with rfl | hqp
    · simp at hq
    · exact hcounts.none_of_zero q (by simpa [hqp] using hq)
  refine ⟨h.nonneg, h.distinct, ?_, fun q => ?_, Or.inl ⟨rfl, ?_, ?_⟩, ?_, h.panicked⟩
  · show Counts (wakeup (update s.pc p .idle)) s.log.outstanding
    rw [h0]
    refine hcounts.congr fun q => iff_of_false (hnoOp q) (hcounts.none_of_zero q)
  · show some false = some (decide (wakeup (update s.pc p .idle) q = .inOp))
    rw [decide_eq_false (hnoOp q)]
  · intro q ph hq
    have hq' := (wakeup_commit _ q ph).mp hq
    rcases eq_or_ne q p with rfl | hqp
    · simp at hq'
    · exact hqp (huniq q ph (by simpa [hqp] using hq'))
  · intro b
    show b ∈ s.log.lh.entries ↔ Wrote ([] : List (Event P)) b
    rw [entries_of_zero hzero]
    simp [Wrote]
  · intro g hg
    rcases mem_append.mp hg with hg | hg
    · exact h.groups g hg
    rw [mem_singleton.mp hg]
    refine ⟨fun q => ?_, hrecord⟩
    show bracket q false s.current = some false
    rw [h.brackets q, decide_eq_false (hcounts.none_of_zero q)]

theorem Inv.commit (h : Inv s) {ph : Phase} (hp : s.pc p = .commit ph) : Inv (commitStep s p ph) := by
  cases ph with
  | start =>
    by_cases hzero : s.log.lh.n = 0
    · -- an empty log: `commit` returns at once
      rw [commitStep, if_pos hzero]
      refine h.advance hp rfl rfl rfl rfl rfl rfl h.nonneg h.distinct ?_
      rintro ⟨hex, hrec⟩
      refine ⟨hzero, ?_⟩
      show RecordOk s.current s.record
      rw [hrec]
      refine ⟨rfl, rfl, nodup_nil, fun b => ?_⟩
      rw [← hex b, entries_of_zero hzero]
    · rw [commitStep, if_neg hzero]
      exact h.advance hp rfl rfl rfl rfl rfl rfl h.nonneg h.distinct id
  | writeLog i | installTrans i =>
    by_cases hi : (i : Int) < s.log.lh.n
    · rw [commitStep, if_pos hi]
      refine h.advance hp rfl rfl rfl rfl rfl rfl h.nonneg h.distinct ?_
      rintro ⟨hex, hrec⟩
      refine ⟨hex, ?_⟩
      rw [hrec, entries_take_succ _ hi]
      rfl
    · rw [commitStep, if_neg hi]
      refine h.advance hp rfl rfl rfl rfl rfl rfl h.nonneg h.distinct ?_
      rintro ⟨hex, hrec⟩
      rw [entries_take_all _ hi] at hrec
      exact ⟨hex, hrec⟩
  | writeHead =>
    refine h.advance hp rfl rfl rfl rfl rfl rfl h.nonneg h.distinct ?_
    rintro ⟨hex, hrec⟩
    refine ⟨hex, ?_⟩
    show Record.mk s.record.copied s.log.lh.entries s.record.installed = _
    rw [hrec]
    rfl
  | clearN =>
    refine h.advance hp rfl rfl rfl rfl rfl rfl (Int.le_refl 0) nodup_nil ?_
    rintro ⟨hex, hrec⟩
    refine ⟨rfl, ?_⟩
    show RecordOk s.current s.record
    rw [hrec]
    exact ⟨rfl, rfl, h.distinct, hex⟩
  | clearHead => exact h.advance hp rfl rfl rfl rfl rfl rfl h.nonneg h.distinct id
  | finish => exact h.finish hp

theorem Inv.init (h : Init s) : Inv s := by
  have hempty : s.log.lh.entries = [] := entries_of_zero h.empty
  have hnoOp : ∀ q, s.pc q ≠ .inOp := by
    intro q
    rw [h.pc q]
    exact nofun
  have hset : opSet s.pc = ∅ := Set.eq_empty_iff_forall_notMem.mpr hnoOp
  refine ⟨by rw [h.empty], hempty ▸ nodup_nil, ?_, fun q => ?_, Or.inl ⟨h.committing, ?_, ?_⟩, ?_, ?_⟩
  · unfold Counts
    rw [hset, h.outstanding]
    simp
  · rw [h.current, decide_eq_false (hnoOp q)]
    rfl
  · intro q ph
    rw [h.pc q]
    exact nofun
  · intro b
    rw [hempty, h.current]
    simp [Wrote]
  · intro g hg
    rw [h.done] at hg
    exact absurd hg not_mem_nil
  · intro msg hm
    rw [h.panicked] at hm
    cases hm

/-- Every step of every process keeps the invariant. -/
theorem Inv.next {t : State P} (h : Inv s) (a : Action P) (hnext : GroupCommit.next s a = some t) : Inv t := by
  cases (next_moves hnext).2 with
  | callBegin hp | kkill hp => exact h.move (hp ▸ nofun) (hp ▸ nofun) nofun nofun
  | testBegin hp => exact h.testBegin hp
  | logWrite b hp => exact h.logWrite hp b
  | endOp hp => exact h.endOp hp
  | commit hp => exact h.commit hp

/-! ## The theorem -/

/-- Group commit never splits an operation, in every state that any interleaving reaches. -/
theorem groupCommit_safe {s : State P} (h : Reachable Init next noGuard s) : Safe s := by
  have hinv : Inv s := h.invariant Inv (fun _ => Inv.init) fun _ a _ hi _ hn => hi.next a hn
  refine ⟨fun hc => ?_, fun hm => ?_, fun hm => ?_, hinv.distinct, hinv.groups⟩
  · rcases hinv.commitOk with ⟨hfalse, -⟩ | ⟨-, h0, -⟩
    · rw [hfalse] at hc
      cases hc
    · have hcounts := hinv.counts
      rw [h0] at hcounts
      exact ⟨h0, hcounts.none_of_zero⟩
  · exact absurd (hinv.panicked _ hm) (by decide)
  · exact absurd (hinv.panicked _ hm) (by decide)

/-- The log after a boot, for two processes. -/
def bootState : State Bool where
  log := (bootMem 2).log
  pc := fun _ => .idle
  panicked := none
  current := []
  record := ⟨[], [], []⟩
  done := []

/-- Two overlapping operations that both write block 50, and their common commit. -/
def overlapTrace : List (Action Bool) :=
  [.callBegin true, .testBegin true, .callBegin false, .testBegin false, .logWrite true 50,
    .logWrite false 50, .endOp true, .logWrite false 51, .endOp false, .commit false, .commit false,
    .commit false, .commit false, .commit false, .commit false, .commit false, .commit false,
    .commit false, .commit false, .commit false]

theorem groupCommit_safe_overlap : ∃ s, run next bootState overlapTrace = some s ∧ s.done.length = 1 ∧ Safe s := by
  have hrun : run next bootState overlapTrace = some _ := rfl
  refine ⟨_, hrun, rfl, groupCommit_safe (reachable_run (Reachable.start ?_) hrun)⟩
  exact ⟨rfl, rfl, rfl, fun _ => rfl, rfl, rfl, rfl⟩

/-! ## Waiting for the log -/

/-- Some process is in an operation or commits. -/
def Busy (s : State P) : Prop := ∃ q, s.pc q = .inOp ∨ ∃ ph, s.pc q = .commit ph

/-- Processes sleep only while `begin_op` cannot enter, and blocks are left in the log only while a process is busy. -/
structure Waits (s : State P) : Prop where
  shut : ∀ q, s.pc q = .asleep → s.log.tryBeginOp = none
  empty : ¬ Busy s → s.log.lh.n = 0

/-- The next `begin_op` enters. -/
theorem Inv.opens (h : Inv s) (hidle : ¬ Busy s) (h0 : s.log.lh.n = 0) : s.log.tryBeginOp.isSome := by
  have hop : opSet s.pc = ∅ := Set.eq_empty_iff_forall_notMem.mpr fun q hq => hidle ⟨q, .inl hq⟩
  have hout : s.log.outstanding = 0 := by simpa [hop] using h.counts.2.symm
  rcases h.commitOk with ⟨hc, -⟩ | ⟨-, -, q, ph, hq, -⟩
  · simp [Log.tryBeginOp, hc, hout, h0, maxOpBlocks, logBlocks]
  · exact absurd ⟨q, .inr ⟨ph, hq⟩⟩ hidle

/-- A process outside operations and commits moves, and does not go to sleep. -/
theorem Waits.setPc (h : Waits s) {x : Pc} (hop : s.pc p ≠ .inOp) (hcommit : ∀ ph, s.pc p ≠ .commit ph)
    (hx : x = .asleep → s.log.tryBeginOp = none) : Waits (s.setPc p x) := by
  constructor
  · intro q hq
    by_cases hqp : q = p
    · subst hqp
      exact hx (by simpa [State.setPc] using hq)
    · exact h.shut q (by simpa [State.setPc, hqp] using hq)
  · intro hidle
    apply h.empty
    rintro ⟨q, hq⟩
    have hqp : q ≠ p := by
      rintro rfl
      rcases hq with hq | ⟨ph, hq⟩
      · exact hop hq
      · exact hcommit ph hq
    exact hidle ⟨q, by simpa [State.setPc, hqp] using hq⟩

theorem Waits.testBegin (h : Waits s) (hp : s.pc p = .testing) : Waits (testBeginStep s p) := by
  unfold testBeginStep Log.testBegin
  cases htry : s.log.tryBeginOp with
  | none => exact h.setPc (by simp [hp]) (by simp [hp]) fun _ => htry
  | some log =>
    constructor
    · -- nobody sleeps while the test succeeds
      intro q hq
      have hqp : q ≠ p := by
        rintro rfl
        simp at hq
      have hshut := h.shut q (by simpa [hqp] using hq)
      rw [htry] at hshut
      cases hshut
    · exact fun hidle => absurd ⟨p, .inl (by simp)⟩ hidle

theorem Inv.logWrite_waits (h : Inv s) (hw : Waits s) (hp : s.pc p = .inOp) (b : Nat) : Waits (logWriteStep s p b) := by
  unfold logWriteStep
  cases hsec : s.log.logWriteSection b with
  | error msg => exact ⟨hw.shut, hw.empty⟩
  | ok r =>
    obtain ⟨log, new⟩ := r
    obtain ⟨-, -, hout, hcom, hn, hcase⟩ := Log.logWriteSection_eq_ok h.nonneg hsec
    -- the log does not get shorter
    have hle : s.log.lh.n ≤ log.lh.n := by
      have hlen : s.log.lh.entries.length ≤ log.lh.entries.length := by
        rcases hcase with ⟨-, -, hent⟩ | ⟨-, -, hent⟩ <;> simp [hent]
      rw [LogHeader.length_entries, LogHeader.length_entries] at hlen
      omega
    constructor
    · intro q hq
      refine Log.tryBeginOp_none_mono (hw.shut q hq) hout hcom hle
    · exact fun hidle => absurd ⟨p, .inl hp⟩ hidle

/-- An operation that is not the last one wakes the sleepers. -/
theorem Inv.endOp_waits (h : Inv s) (hp : s.pc p = .inOp) : Waits (endOpStep s p) ∧
    ((endOpStep s p).pc p = .commit .start ∨ ∀ q, s.pc q = .asleep → (endOpStep s p).pc q = .testing) := by
  obtain ⟨hfree, -, -⟩ := h.inOp_not_committing hp
  unfold endOpStep
  obtain ⟨hcom, -⟩ | ⟨-, -, heq⟩ | ⟨-, hmany, heq⟩ := s.log.leaveOp_cases s.pc p .start
  · cases hfree.symm.trans hcom
  · rw [heq]
    -- the commit keeps the log shut, and its process is the busy one
    exact ⟨⟨fun _ _ => rfl, fun hidle => absurd ⟨p, .inr ⟨.start, by simp⟩⟩ hidle⟩, .inl (by simp)⟩
  · rw [heq]
    refine ⟨⟨fun q hq => absurd hq (wakeup_ne_asleep _ q), fun hidle => ?_⟩, .inr fun q hq => ?_⟩
    · -- the count says that another operation is outstanding
      obtain ⟨hfinite, hcard⟩ := h.counts.leave (x := .idle) hp nofun
      have hne : (opSet (update s.pc p .idle)).ncard ≠ 0 := by omega
      obtain ⟨q, hq⟩ := Set.nonempty_of_ncard_ne_zero hne
      exact absurd ⟨q, .inl ((wakeup_inOp _ q).mpr hq)⟩ hidle
    · have hqp : q ≠ p := by
        rintro rfl
        simp [hp] at hq
      exact wakeup_asleep _ q (by simpa [hqp] using hq)

/-- The last critical section of `end_op` wakes the sleepers. -/
theorem finish_wakes (hp : s.pc p = .commit .finish) {q : P} (hq : s.pc q = .asleep) :
    (commitStep s p .finish).pc q = .testing := by
  have hqp : q ≠ p := by
    rintro rfl
    simp [hp] at hq
  exact wakeup_asleep _ q (by simpa [hqp] using hq)

theorem Inv.commit_waits (h : Inv s) {ph : Phase} (hp : s.pc p = .commit ph) : Waits (commitStep s p ph) := by
  rcases h.commitOk with ⟨-, hnone, -⟩ | ⟨hcom, -, r, ph', hr, huniq, hok⟩
  · exact absurd hp (hnone p ph)
  obtain rfl : p = r := huniq p ph hp
  obtain rfl : ph = ph' := Pc.commit.inj (hp.symm.trans hr)
  -- the flag keeps `begin_op` shut until the last section
  have hshut : ∀ lh, Log.tryBeginOp { s.log with lh := lh } = none := fun lh => by simp [Log.tryBeginOp, hcom]
  have hstays : ∀ {t : State P} {ph'}, t.pc = update s.pc p (.commit ph') → t.log = { s.log with lh := t.log.lh } →
      Waits t := by
    intro t ph' hpc hlog
    refine ⟨fun _ _ => ?_, fun hidle => absurd ⟨p, .inr ⟨ph', by simp [hpc]⟩⟩ hidle⟩
    rw [hlog]
    exact hshut _
  cases ph with
  | start | writeLog i | installTrans i =>
    simp only [commitStep]
    split
    · exact hstays rfl rfl
    · exact hstays rfl rfl
  | writeHead | clearN | clearHead => exact hstays rfl rfl
  | finish => exact ⟨fun q hq => absurd hq (wakeup_ne_asleep _ q), fun _ => hok.1⟩

theorem Inv.next_waits {t : State P} (h : Inv s) (hw : Waits s) {a : Action P}
    (hnext : GroupCommit.next s a = some t) : Waits t := by
  cases (next_moves hnext).2 with
  | callBegin hp | kkill hp => exact hw.setPc (by simp [hp]) (by simp [hp]) nofun
  | testBegin hp => exact hw.testBegin hp
  | logWrite b hp => exact h.logWrite_waits hw hp b
  | endOp hp => exact (h.endOp_waits hp).1
  | commit hp => exact h.commit_waits hp

/-- In every state that any interleaving reaches: while a process is asleep in `begin_op` the test still fails and some
process is in an operation or commits; an `end_op` that does not go on to `commit`, and the end of `commit`, make every
sleeper test again; and where nobody is in an operation or commits the log is empty and `begin_op` enters. -/
theorem begin_op_waits_for_other (h : Reachable Init next noGuard s) :
    (∀ p, s.pc p = .asleep → s.log.tryBeginOp = none ∧ Busy s) ∧
    (∀ p t, next s (.endOp p) = some t →
      t.pc p = .commit .start ∨ ∀ q, s.pc q = .asleep → t.pc q = .testing) ∧
    (∀ p t, s.pc p = .commit .finish → next s (.commit p) = some t → ∀ q, s.pc q = .asleep → t.pc q = .testing) ∧
    (¬ Busy s → s.log.lh.n = 0 ∧ s.log.tryBeginOp.isSome) := by
  have hinv : Inv s ∧ Waits s := by
    apply h.invariant (fun s => Inv s ∧ Waits s)
    · exact fun s hs => ⟨Inv.init hs, fun q hq => absurd hq (by simp [hs.pc q]), fun _ => hs.empty⟩
    · exact fun s a t hi _ hnext => ⟨hi.1.next a hnext, hi.1.next_waits hi.2 hnext⟩
  obtain ⟨hi, hw⟩ := hinv
  have hopens : ¬ Busy s → s.log.lh.n = 0 ∧ s.log.tryBeginOp.isSome := fun hidle =>
    ⟨hw.empty hidle, hi.opens hidle (hw.empty hidle)⟩
  refine ⟨fun p hp => ⟨hw.shut p hp, ?_⟩, fun p t ht => ?_, fun p t hp ht q hq => ?_, hopens⟩
  · by_contra hidle
    have hsome := (hopens hidle).2
    simp [hw.shut p hp] at hsome
  · cases (next_moves ht).2 with
    | endOp hp => exact (hi.endOp_waits hp).2
  · cases (next_moves ht).2 with
    | commit hph =>
      cases hp.symm.trans hph
      exact finish_wakes hp hq

/-- A process calls `begin_op` while another one commits, which is about to end and wake it. -/
theorem begin_op_waits_for_commit :
    ∃ s t : State Bool, Reachable Init next noGuard s ∧ s.pc false = .asleep ∧ s.log.tryBeginOp = none ∧ Busy s ∧
      next s (.commit true) = some t ∧ t.pc false = .testing := by
  have hrun : run next bootState
      [.callBegin true, .testBegin true, .endOp true, .callBegin false, .testBegin false, .commit true] = some _ := rfl
  have hinit : Init bootState := ⟨rfl, rfl, rfl, fun _ => rfl, rfl, rfl, rfl⟩
  have hreach := reachable_run (.start hinit) hrun
  obtain ⟨hsleeps, -, hfinish, -⟩ := begin_op_waits_for_other hreach
  exact ⟨_, _, hreach, rfl, (hsleeps false rfl).1, (hsleeps false rfl).2, rfl, hfinish true _ rfl rfl false rfl⟩

end Xv6Lab.Logging.GroupCommit
