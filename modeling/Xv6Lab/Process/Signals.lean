import Mathlib.Algebra.Group.Int.Defs
import Mathlib.Algebra.Group.Nat.Defs
import Xv6Lab.Process.Pids

/-!
# Kill and signals by pid

`kkill` and `sys_sendsig` look for their process by scanning the table. `sys_sendsig` rejects a pid that is not
positive and skips unused entries; `kkill` does neither, so `kill(0)` finds the first unused entry, marks it as
killed and reports success. `signals_reach_named_process` states what both calls promise, in every run in which no
running process is stopped: `sys_sendsig` keeps it for all arguments, `kkill` exactly for the pids other than 0 or
when the table is full. `kill_zero_and_pid_zero` shows the two failures.
-/

namespace Xv6Lab.Process

open Function Lib.Transition

variable {ncpu : Nat} {initproc : Fin nproc}

/-- `proc[NPROC]`. -/
abbrev Table := Fin nproc → Proc

/-- The loop of both calls over the entries from `i` on: the first entry that passes the test is changed and the
call returns 0, and it returns -1 when there is none. -/
def scan (hit : Proc → Bool) (act : Proc → Proc) (table : Table) : Nat → Nat → Int × Table
  | 0, _ => (-1, table)
  | n + 1, i =>
    if h : i < nproc then
      if hit (table ⟨i, h⟩) = true then (0, update table ⟨i, h⟩ (act (table ⟨i, h⟩)))
      else scan hit act table n (i + 1)
    else (-1, table)

/-- `kkill`: the result and the table afterwards. -/
def kkill (table : Table) (pid : Int) : Int × Table :=
  scan (fun p => p.pid = pid) Proc.kkill table nproc 0

/-- `sys_sendsig`: the result and the table afterwards. -/
def sysSendsig (table : Table) (pid signum : Int) : Int × Table :=
  if pid ≤ 0 ∨ signum ≤ 0 then (-1, table)
  else scan (fun p => p.pid = pid ∧ p.state ≠ .unused) (fun p => p.sendsig signum) table nproc 0

/-! ## The scan -/

/-- A scan changes an entry that passes the test, or the entries it looked at all fail it. -/
theorem scan_cases (hit : Proc → Bool) (act : Proc → Proc) (table : Table) (n i : Nat) :
    (∃ q, hit (table q) = true ∧ scan hit act table n i = (0, update table q (act (table q)))) ∨
      (∀ q : Fin nproc, i ≤ q.val → q.val < i + n → hit (table q) = false) ∧
        scan hit act table n i = (-1, table) := by
  induction n generalizing i with
  | zero =>
    right
    refine ⟨fun q hle hlt => ?_, rfl⟩
    omega
  | succ n ih =>
    rw [scan]
    by_cases hi : i < nproc
    · rw [dif_pos hi]
      by_cases hhit : hit (table ⟨i, hi⟩) = true
      · rw [if_pos hhit]
        exact .inl ⟨⟨i, hi⟩, hhit, rfl⟩
      rw [if_neg hhit]
      rcases ih (i + 1) with hfound | ⟨hnone, hres⟩
      · exact .inl hfound
      right
      refine ⟨fun q hle hlt => ?_, hres⟩
      rcases eq_or_ne i q.val with rfl | hq
      · exact Bool.eq_false_iff.mpr hhit
      · exact hnone q (by omega) (by omega)
    · rw [dif_neg hi]
      right
      refine ⟨fun q hle _ => ?_, rfl⟩
      exact absurd q.isLt (by omega)

/-- The scan of the whole table. -/
theorem scan_table (hit : Proc → Bool) (act : Proc → Proc) (table : Table) : (∃ q, hit (table q) = true ∧
      scan hit act table nproc 0 = (0, update table q (act (table q)))) ∨
    (∀ q, hit (table q) = false) ∧ scan hit act table nproc 0 = (-1, table) := by
  rcases scan_cases hit act table nproc 0 with hfound | ⟨hnone, hres⟩
  · exact .inl hfound
  · refine .inr ⟨fun q => hnone q (Nat.zero_le _) ?_, hres⟩
    rw [Nat.zero_add]
    exact q.isLt

/-! ## What the calls promise -/

/-- Some process has this pid. -/
def Named (table : Table) (pid : Int) : Prop :=
  ∃ q, (table q).state ≠ .unused ∧ (table q).pid = pid

/-- The process with this pid may have another `killed`, `pending_sig` and `state`; nothing else is changed. -/
def Signalled (table : Table) (pid : Int) (after : Table) : Prop :=
  ∃ q, (table q).state ≠ .unused ∧ (table q).pid = pid ∧ (∀ r, r ≠ q → after r = table r) ∧
    after q = { table q with
      killed := (after q).killed, pendingSig := (after q).pendingSig, state := (after q).state }

/-- A call returns 0 exactly when `accepts` holds and then reaches only the process with the pid; otherwise it
returns -1 and changes nothing. -/
structure Delivers (table : Table) (pid : Int) (accepts : Prop) (res : Int × Table) : Prop where
  result : res.1 = 0 ∨ res.1 = -1
  success : res.1 = 0 ↔ accepts
  reached : res.1 = 0 → Signalled table pid res.2
  failed : res.1 = -1 → res.2 = table

variable {table : Table}

theorem delivers_fail {pid : Int} {accepts : Prop} (h : ¬ accepts) : Delivers table pid accepts (-1, table) := by
  have hne : ¬ (-1 : Int) = 0 := by decide
  constructor
  · exact .inr rfl
  · exact ⟨fun h0 => absurd h0 hne, fun ha => absurd ha h⟩
  · intro h0
    exact absurd h0 hne
  · intro _
    rfl

theorem delivers_update {pid : Int} {accepts : Prop} {q : Fin nproc} {x : Proc} (h : accepts)
    (hused : (table q).state ≠ .unused) (hpid : (table q).pid = pid)
    (hx : x = { table q with killed := x.killed, pendingSig := x.pendingSig, state := x.state }) :
    Delivers table pid accepts (0, update table q x) := by
  have hne : ¬ (0 : Int) = -1 := by decide
  constructor
  · exact .inl rfl
  · exact ⟨fun _ => h, fun _ => rfl⟩
  · intro _
    refine ⟨q, hused, hpid, fun r hr => update_of_ne hr .., ?_⟩
    dsimp only
    rw [update_self]
    exact hx
  · intro h0
    exact absurd h0 hne

/-- A signal changes only `killed`, `pending_sig` and `state`. -/
theorem Proc.sendsig_fields (x : Proc) (signum : Int) :
    x.sendsig signum = { x with
      killed := (x.sendsig signum).killed, pendingSig := (x.sendsig signum).pendingSig,
      state := (x.sendsig signum).state } := by
  unfold Proc.sendsig
  split
  · rfl
  · split
    · rfl
    · split <;> rfl

/-- `sys_sendsig` on any table whose processes have positive pids. -/
theorem sysSendsig_delivers (hpos : ∀ q, (table q).state ≠ .unused → 0 < (table q).pid) (pid signum : Int) :
    Delivers table pid (Named table pid ∧ 0 < signum) (sysSendsig table pid signum) := by
  unfold sysSendsig
  by_cases harg : pid ≤ 0 ∨ signum ≤ 0
  · rw [if_pos harg]
    apply delivers_fail
    rintro ⟨⟨q, hused, hpid⟩, hsig⟩
    have := hpos q hused
    omega
  rw [if_neg harg]
  rcases scan_table (fun p => p.pid = pid ∧ p.state ≠ .unused) (fun p => p.sendsig signum) table with
    ⟨q, hhit, hres⟩ | ⟨hnone, hres⟩
  · rw [hres]
    have hmatch := of_decide_eq_true hhit
    refine delivers_update ⟨⟨q, hmatch.2, hmatch.1⟩, ?_⟩ hmatch.2 hmatch.1 (Proc.sendsig_fields _ _)
    omega
  · rw [hres]
    apply delivers_fail
    rintro ⟨⟨q, hused, hpid⟩, -⟩
    exact of_decide_eq_false (hnone q) ⟨hpid, hused⟩

/-- `kkill` keeps its promise unless it takes an unused entry for the process with pid 0. -/
theorem kkill_delivers_iff (hpos : ∀ q, (table q).state ≠ .unused → 0 < (table q).pid)
    (hzero : ∀ q, (table q).state = .unused → (table q).pid = 0) (pid : Int) :
    Delivers table pid (Named table pid) (kkill table pid) ↔ pid ≠ 0 ∨ ∀ q, (table q).state ≠ .unused := by
  unfold kkill
  rcases scan_table (fun p => p.pid = pid) Proc.kkill table with ⟨q, hhit, hres⟩ | ⟨hnone, hres⟩
  · rw [hres]
    have hpid : (table q).pid = pid := of_decide_eq_true hhit
    constructor
    · intro hdel
      obtain ⟨r, hused, hr⟩ := hdel.success.mp rfl
      left
      have := hpos r hused
      omega
    · intro hcond
      have hused : (table q).state ≠ .unused := by
        rcases hcond with hne | hfull
        · intro hun
          exact hne (hpid ▸ hzero q hun)
        · exact hfull q
      exact delivers_update ⟨q, hused, hpid⟩ hused hpid rfl
  · rw [hres]
    have hnone : ∀ q, (table q).pid ≠ pid := fun q => of_decide_eq_false (hnone q)
    constructor
    · intro _
      by_cases hpid : pid = 0
      · right
        intro q hun
        exact hnone q ((hzero q hun).trans hpid.symm)
      · exact .inl hpid
    · intro _
      apply delivers_fail
      rintro ⟨q, -, hq⟩
      exact hnone q hq

/-- The entries taken by `allocproc` so far, that of `initproc` included. -/
def creations (s : Sys ncpu) : Int := s.nextpid - 1

/-- In every run in which no running process is stopped, or on a machine with one CPU, and with fewer than
2^31 - 1 creations: the entries in use have distinct positive pids that an `int` holds, `sys_sendsig` reaches
exactly the process it names, and so does `kkill` unless it is called for pid 0 while some entry is unused. -/
theorem signals_reach_named_process {s : Sys ncpu}
    (h : Reachable (fun s => s = bootSys ncpu initproc) (next initproc) StopGuard s)
    (hcount : creations s < 2 ^ 31 - 1) :
    (∀ q, (s.proc q).state ≠ .unused → 0 < (s.proc q).pid ∧ (s.proc q).pid < 2 ^ 31) ∧
    (∀ q r, (s.proc q).state ≠ .unused → (s.proc r).state ≠ .unused → (s.proc q).pid = (s.proc r).pid → q = r) ∧
    (∀ pid, Delivers s.proc pid (Named s.proc pid) (kkill s.proc pid) ↔ pid ≠ 0 ∨ ∀ q, (s.proc q).state ≠ .unused) ∧
    ∀ pid signum, Delivers s.proc pid (Named s.proc pid ∧ 0 < signum) (sysSendsig s.proc pid signum) := by
  have hinv := pids_reachable h
  refine ⟨fun q hq => ⟨hinv.pos q hq, ?_⟩, hinv.distinct, ?_, ?_⟩
  · have hlt := hinv.lt q hq
    unfold creations at hcount
    omega
  · intro pid
    exact kkill_delivers_iff hinv.pos hinv.unused pid
  · intro pid signum
    exact sysSendsig_delivers hinv.pos pid signum

/-- After the first step `initproc` can be killed and signalled by its pid 1. -/
theorem signals_reach_initproc : ∃ s : Sys 2, next 0 (bootSys 2 0) (.scheduler cpu0) = some s ∧
    Delivers s.proc 1 (Named s.proc 1) (kkill s.proc 1) ∧
    Delivers s.proc 1 (Named s.proc 1 ∧ (0 : Int) < 3) (sysSendsig s.proc 1 3) := by
  have hnext : next 0 (bootSys 2 0) (.scheduler cpu0) = some (schedulerStep (bootSys 2 0) cpu0) := rfl
  refine ⟨_, hnext, ?_⟩
  have hreach : Reachable (fun s => s = bootSys 2 0) (next 0) StopGuard (schedulerStep (bootSys 2 0) cpu0) := by
    refine Reachable.step _ (Reachable.start rfl) (.inr ?_) hnext
    rintro ⟨c, p, pid, i, hi, ha, -⟩
    cases ha
  obtain ⟨-, -, hkill, hsig⟩ := signals_reach_named_process hreach (by decide)
  exact ⟨(hkill 1).mpr (.inl (by decide)), hsig 1 3⟩

/-- The CPUs of a machine with three. -/
def triple (k : Nat) (h : k < 3) : Fin 3 := ⟨k, h⟩

/-- CPU 1 runs a child of `initproc` that is stopped and continued meanwhile, so that CPU 2 runs it too. It exits on
CPU 2, `initproc` reaps it, and it gives up CPU 1. -/
def staleTrace : List (Action 3) :=
  let c0 := triple 0 (by decide)
  let c1 := triple 1 (by decide)
  let c2 := triple 2 (by decide)
  [.scheduler c0, .call c0 (.kfork true), .task c0, .task c0, .task c0, .scheduler c1, .scheduler c1,
    .call c0 (.sendsig 2 2), .task c0, .task c0, .call c0 (.sendsig 2 3), .task c0, .task c0,
    .scheduler c2, .scheduler c2, .kexit c2 0, .call c0 .kwait, .task c0, .task c0, .yield c1]

/-- After the boot `kkill(0)` succeeds although no process has pid 0, and the trace ends with a process that has
pid 0. -/
theorem kill_zero_and_pid_zero : ((kkill (bootSys 2 0).proc 0).1 = 0 ∧ ¬ Named (bootSys 2 0).proc 0) ∧
    ∃ s : Sys 3, run (next 0) (bootSys 3 0) staleTrace = some s ∧ (s.proc 1).state = .runnable ∧
      (s.proc 1).pid = 0 := by
  refine ⟨⟨by decide, ?_⟩, ?_⟩
  · rintro ⟨q, hused, hpid⟩
    have hpos := (pidInv_bootSys 2 0).pos q hused
    omega
  have hrun : (run (next 0) (bootSys 3 0) staleTrace).map (fun s => ((s.proc 1).state, (s.proc 1).pid)) =
      some (.runnable, 0) := by
    decide +kernel
  obtain ⟨s, hs, hres⟩ := Option.map_eq_some_iff.mp hrun
  obtain ⟨hstate, hpid⟩ := Prod.mk.inj hres
  exact ⟨s, hs, hstate, hpid⟩

end Xv6Lab.Process
