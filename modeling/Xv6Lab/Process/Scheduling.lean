import Xv6Lab.Process.Entries

/-!
# A process runs on at most one CPU

The invariant behind the property ties the state of a process to the CPUs: the current process of a
CPU is `RUNNING`, and the scheduler picks `RUNNABLE` processes only. `sys_sendsig` with signal 2
breaks it, since it marks a process that executes on another CPU as `SLEEPING`; the next signal,
`kkill` or `wakeup` makes it `RUNNABLE` and a second CPU switches to it
(`sendsig_two_cpus`). Without such a step, or with a single CPU, the property holds in every state of
every run (`one_cpu_per_process`).
-/

namespace Xv6Lab.Process

open Lib.Transition Option

variable {ncpu : Nat} {s t : Sys ncpu} {p q : Fin nproc} {c : Fin ncpu}

/-- No process is current on two CPUs, and no scheduler is about to switch to the current process of
a CPU. -/
structure Safe (s : Sys ncpu) : Prop where
  one_cpu : ∀ i j p, s.cpu i = some p → s.cpu j = some p → i = j
  no_steal : ∀ c p, picks s c = some p → ∀ j, s.cpu j ≠ some p

/-- The step is the section of `sys_sendsig` with signal 2 that finds its process running. -/
def StopsRunning (s : Sys ncpu) (a : Action ncpu) : Prop :=
  ∃ c p pid i, ∃ h : i < nproc, a = .task c ∧ s.intr c = none ∧ s.cpu c = some p ∧
    s.task p = .sendsig pid 2 i ∧ (s.proc ⟨i, h⟩).pid = pid ∧ (s.proc ⟨i, h⟩).state = .running

/-- There is one CPU, or the step does not stop a running process. -/
def StopGuard (s : Sys ncpu) (a : Action ncpu) : Prop := ncpu ≤ 1 ∨ ¬ StopsRunning s a

/-! ## The invariant -/

structure Inv (s : Sys ncpu) : Prop where
  running : ∀ c p, s.cpu c = some p → (s.proc p).state = .running
  one_cpu : ∀ i j p, s.cpu i = some p → s.cpu j = some p → i = j
  forked : ∀ p q, s.task p = .forked q → (s.proc q).state = .used
  one_parent : ∀ p p' q, s.task p = .forked q → s.task p' = .forked q → p = p'

theorem Inv.safe (h : Inv s) : Safe s := by
  refine ⟨h.one_cpu, fun c p hp j hj => ?_⟩
  obtain ⟨⟨-, -, hrunnable⟩, rfl⟩ := ite_some_none_eq_some.mp hp
  rw [h.running j _ hj] at hrunnable
  cases hrunnable

theorem inv_bootSys (initproc : Fin nproc) : Inv (bootSys ncpu initproc) :=
  ⟨nofun, nofun, nofun, nofun⟩

/-- A step that stops a running process sends it signal 2. -/
theorem StopsRunning.event {a : Action ncpu} (h : StopsRunning s a) (initproc : Fin nproc) :
    ∃ q, event initproc s a q = .sendsig 2 ∧ (s.proc q).state = .running := by
  obtain ⟨c, p, pid, i, hi, rfl, -, hcpu, htask, hpid, hrun⟩ := h
  have hunused : (s.proc ⟨i, hi⟩).state ≠ .unused := by
    rw [hrun]
    exact ProcState.noConfusion
  have hentry : (Task.sendsig pid 2 i).entry = some ⟨i, hi⟩ := dif_pos hi
  refine ⟨⟨i, hi⟩, ?_, hrun⟩
  rw [event_task hcpu, htask, if_pos hentry, visitEvent, if_pos ⟨hpid, hunused⟩]

/-- Signal 2 for a running process comes from such a step. -/
theorem stopsRunning_of_event {initproc : Fin nproc} {a : Action ncpu} (ht : next initproc s a = some t)
    (hev : event initproc s a q = .sendsig 2) (hrun : (s.proc q).state = .running) : StopsRunning s a := by
  have hof : (event initproc s a q).ofTask = true := by
    rw [hev]
    rfl
  obtain ⟨c, p, rfl, hp⟩ := event_ofTask hof
  have hfrom := event_fromTask initproc hp q
  rw [hev] at hfrom
  exact ⟨c, p, _, q, q.isLt, rfl, (onProcess_eq_some ht).1, hp, hfrom, rfl, hrun⟩

/-- Every step that does not stop a running process keeps the invariant. -/
theorem Inv.next {initproc : Fin nproc} (h : Inv s) (a : Action ncpu)
    (hok : ¬ StopsRunning s a) (hnext : next initproc s a = some t) : Inv t := by
  have hused : ∀ c p, s.cpu c = some p → (s.proc p).state ≠ .used := by
    intro c p hc
    rw [h.running c p hc]
    exact ProcState.noConfusion
  -- the scheduler does not pick a process that runs
  have hidle : ∀ c p, s.cpu c = some p → event initproc s a p ≠ .resume := by
    intro c p hc hev
    have hen := event_enabled hnext p
    rw [hev] at hen
    cases (h.running c p hc).symm.trans hen
  obtain ⟨hforked, hone⟩ := next_constructions hused h.forked h.one_parent hnext
  refine ⟨fun c p hc => ?_, fun i j p hi hj => ?_, hforked, hone⟩
  · rw [next_proc hnext p]
    rcases next_cpu hnext hc with ⟨hcpu, hstay⟩ | ⟨-, hresume⟩
    · have hrun := h.running c p hcpu
      have hen := event_enabled hnext p
      by_cases hpass : (event initproc s a p).passive = true
      · rcases (Event.apply_passive hpass (s.proc p)).2 with hsame | ⟨hsleep, -⟩ | ⟨hsig, -, -⟩
        · exact hsame.trans hrun
        · cases hrun.symm.trans hsleep
        · exact absurd (stopsRunning_of_event hnext hsig hrun) hok
      -- a process that runs on `c` leaves no other CPU
      by_cases hleave : (event initproc s a p).leaves = true
      · obtain ⟨d, hd, hcpu'⟩ := event_leaves hleave
        obtain rfl := h.one_cpu d c p hcpu' hcpu
        exact absurd hd hstay
      cases hev : event initproc s a p with
      | allocFail | alloc | thread | reap | resume =>
        rw [hev] at hen
        cases hrun.symm.trans hen
      | launch p' =>
        rw [hev] at hen
        exact absurd (h.forked p' p hen) (hused c p hcpu)
      | yield | sleep | kexit =>
        rw [hev] at hleave
        exact absurd rfl hleave
      | _ =>
        rw [hev] at hpass
        exact absurd rfl hpass
    · rw [hresume]
      rfl
  · rcases next_cpu hnext hi with ⟨hi, -⟩ | ⟨ha, hresume⟩
    · rcases next_cpu hnext hj with ⟨hj, -⟩ | ⟨-, hresume⟩
      · exact h.one_cpu i j p hi hj
      · exact absurd hresume (hidle i p hi)
    · rcases next_cpu hnext hj with ⟨hj, -⟩ | ⟨ha', -⟩
      · exact absurd hresume (hidle j p hj)
      · rw [ha] at ha'
        injection ha'

/-! ## The theorem -/

/-- With a single CPU there is no second one to run a process. -/
theorem safe_of_one_cpu (hn : ncpu ≤ 1) (s : Sys ncpu) : Safe s := by
  have hsame : ∀ i j : Fin ncpu, i = j := by
    intro i j
    apply Fin.ext
    omega
  refine ⟨fun i j _ _ _ => hsame i j, fun c p hp j hj => ?_⟩
  obtain ⟨⟨hidle, -⟩, -⟩ := ite_none_right_eq_some.mp hp
  rw [hsame j c, hidle] at hj
  cases hj

/-- In every run in which no `sys_sendsig` stops a running process, or on a machine with one CPU, a
process runs on at most one CPU. -/
theorem one_cpu_per_process {initproc : Fin nproc} {s : Sys ncpu}
    (h : Reachable (fun s => s = bootSys ncpu initproc) (next initproc) StopGuard s) : Safe s := by
  by_cases hn : ncpu ≤ 1
  · exact safe_of_one_cpu hn s
  refine (h.invariant Inv ?_ ?_).safe
  · rintro s rfl
    exact inv_bootSys initproc
  intro s a t hs hok hnext
  rcases hok with hone | hok
  · exact absurd hone hn
  · exact hs.next a hok hnext

/-- `initproc` starts on CPU 0. -/
theorem one_cpu_per_process_boot : ∃ s : Sys 2,
    next 0 (bootSys 2 0) (.scheduler 0) = some s ∧ s.cpu 0 = some 0 ∧ Safe s := by
  have hnext : next 0 (bootSys 2 0) (.scheduler 0) = some _ := rfl
  have hboot : Reachable (fun s => s = bootSys 2 0) (next 0) StopGuard (bootSys 2 0) :=
    Reachable.start rfl
  refine ⟨_, hnext, rfl, one_cpu_per_process (Reachable.step _ hboot (Or.inr ?_) hnext)⟩
  rintro ⟨c, p, pid, i, hi, ha, -⟩
  cases ha

/-- `initproc` forks a child that starts on CPU 1, stops it with signal 2 and continues it with
signal 3 while it keeps running there, and yields CPU 0. -/
def stopTrace : List (Action 2) :=
  [.scheduler 0, .call 0 (.kfork true), .task 0, .task 0, .task 0, .scheduler 1, .scheduler 1,
    .call 0 (.sendsig 2 2), .task 0, .task 0, .call 0 (.sendsig 2 3), .task 0, .task 0, .yield 0]

/-- After the trace the scheduler of CPU 0 picks the child that CPU 1 is running, and one step later
both CPUs run it. -/
theorem sendsig_two_cpus : ∃ s t : Sys 2, run (next 0) (bootSys 2 0) stopTrace = some s ∧
    next 0 s (.scheduler 0) = some t ∧ ¬ Safe s ∧ ¬ Safe t := by
  have hrun : run (next 0) (bootSys 2 0) stopTrace = some _ := rfl
  refine ⟨_, _, hrun, rfl, ?_, ?_⟩
  · intro hs
    exact hs.no_steal 0 1 rfl 1 rfl
  · intro hs
    exact absurd (hs.one_cpu 0 1 1 rfl rfl) (by decide)

end Xv6Lab.Process
