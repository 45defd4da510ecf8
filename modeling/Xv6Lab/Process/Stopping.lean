import Xv6Lab.Process.Scheduling

/-!
# Stopped processes

`sys_sendsig` with signal 2 stops a process by making it `SLEEPING`. A process that runs overwrites that when it
gives up its CPU: after a timer interrupt `yield` makes it `RUNNABLE` and the scheduler picks it again
(`stopped_process_runs`). So does a `wakeup` on the channel of an earlier `sleep`. A stop of a process that
neither runs nor has a channel lasts until `sys_sendsig` or `kkill` resumes it (`stopped_until_resumed`).
-/

namespace Xv6Lab.Process

open Lib.Transition ProcState

variable {ncpu : Nat} {initproc q : Fin nproc}

/-- What the last signals mean for a process: `signalled` runs on after signal 2 until it gives up its CPU. -/
inductive Stop where
  | none
  | signalled
  | stopped
  deriving DecidableEq

/-- The record of an entry `x` after an event. -/
def Stop.after (x : Proc) (g : Stop) : Event → Stop
  | .sendsig signum =>
    if signum = 2 then
      if x.state = .runnable then .stopped else if x.state = .running then .signalled else g
    else if signum = 1 ∨ signum = 3 then .none
    else g
  | .kkill => .none
  | .reap => .none
  | .yield => if g = .signalled then .stopped else g
  | .sleep _ => if g = .signalled then .stopped else g
  | .kexit _ _ => if g = .signalled then .stopped else g
  | _ => g

/-- The machine with a record for each process. -/
structure Watched (ncpu : Nat) where
  sys : Sys ncpu
  stop : Fin nproc → Stop

def watchedNext (initproc : Fin nproc) (w : Watched ncpu) (a : Action ncpu) : Option (Watched ncpu) :=
  (next initproc w.sys a).map fun t =>
    ⟨t, fun q => (w.stop q).after (w.sys.proc q) (event initproc w.sys a q)⟩

def bootWatched (ncpu : Nat) (initproc : Fin nproc) : Watched ncpu := ⟨bootSys ncpu initproc, fun _ => .none⟩

/-- No scheduler is about to switch to a stopped process. -/
def StaysStopped (w : Watched ncpu) : Prop := ∀ c q, w.stop q = .stopped → picks w.sys c ≠ some q

/-- Signal 2 finds no running process and no runnable one that has a channel; channels of `wakeup` are
addresses. -/
def Event.stopOk (x : Proc) : Event → Bool
  | .sendsig signum => signum ≠ 2 ∨ x.state ≠ .running ∧ (x.state = .runnable → x.chan = 0)
  | .wakeup chan => chan ≠ 0
  | _ => true

def StopOk (initproc : Fin nproc) (w : Watched ncpu) (a : Action ncpu) : Prop :=
  ∀ q, (event initproc w.sys a q).stopOk (w.sys.proc q) = true

instance decidableStopOk (initproc : Fin nproc) (w : Watched ncpu) (a : Action ncpu) :
    Decidable (StopOk initproc w a) :=
  inferInstanceAs (Decidable (∀ q, (event initproc w.sys a q).stopOk (w.sys.proc q) = true))

/-! ## The invariant -/

/-- A stopped process sleeps on no channel. -/
def Rests (x : Proc) : Prop := x.state = .sleeping ∧ x.chan = 0

structure StopInv (w : Watched ncpu) : Prop where
  inv : Inv w.sys
  never : ∀ q, w.stop q ≠ .signalled
  rests : ∀ q, w.stop q = .stopped → Rests (w.sys.proc q)

theorem not_stopsRunning {w : Watched ncpu} {a : Action ncpu} (h : StopOk initproc w a) : ¬ StopsRunning w.sys a := by
  intro hstop
  obtain ⟨q, hev, hrun⟩ := hstop.event initproc
  have hok := h q
  rw [hev] at hok
  rcases of_decide_eq_true hok with hne | ⟨hne, -⟩
  · exact hne rfl
  · exact hne hrun

/-- A process that rests goes on resting unless its record is cleared. -/
theorem rests_after {s : Sys ncpu} (hinv : Inv s) {e : Event} (hen : e.Enabled s q)
    (hok : e.stopOk (s.proc q) = true) (hr : Rests (s.proc q)) :
    Rests (e.apply (s.proc q)) ∨ Stop.after (s.proc q) .stopped e = .none := by
  have hother : ∀ {x : ProcState}, x ≠ .sleeping → (s.proc q).state ≠ x := by
    intro x hx
    rw [hr.1]
    exact hx.symm
  cases e with
  | none => exact .inl hr
  | reparent parent => exact .inl hr
  | kkill => exact .inr rfl
  | reap => exact .inr rfl
  | sendsig signum =>
    by_cases hcont : signum = 1 ∨ signum = 3
    · right
      rcases hcont with rfl | rfl <;> rfl
    left
    obtain ⟨h1, h3⟩ := not_or.mp hcont
    show Rests ((s.proc q).sendsig signum)
    by_cases h2 : signum = 2
    · simp only [Proc.sendsig, if_neg h1, if_pos h2, hr.1]
      exact ⟨rfl, hr.2⟩
    · simp only [Proc.sendsig, if_neg h1, if_neg h2, if_neg h3]
      exact hr
  | wakeup chan =>
    left
    have hne : ¬ ((s.proc q).state = .sleeping ∧ (s.proc q).chan = chan) := by
      rintro ⟨-, hchan⟩
      exact of_decide_eq_true hok (hchan.symm.trans hr.2)
    show Rests ((s.proc q).wakeup chan)
    rw [Proc.wakeup, if_neg hne]
    exact hr
  | allocFail | alloc | thread | resume => exact absurd hen (hother noConfusion)
  | launch p => exact absurd (hinv.forked p q hen) (hother noConfusion)
  | yield | sleep | kexit =>
    obtain ⟨c, hc⟩ := hen
    exact absurd (hinv.running c q hc) (hother noConfusion)

open Stop

/-- The record of a process that has none becomes `stopped` when signal 2 finds it runnable. -/
theorem stopped_after {x : Proc} {e : Event} (hok : e.stopOk x = true) :
    Stop.after x .none e ≠ .signalled ∧ (Stop.after x .none e = .stopped → Rests (e.apply x)) := by
  cases e with
  | sendsig signum =>
    rcases eq_or_ne signum 2 with rfl | h2
    · obtain ⟨hrun, hchan⟩ := (of_decide_eq_true hok).resolve_left fun hne => hne rfl
      by_cases hrunnable : x.state = .runnable
      · simp only [after, if_true, if_pos hrunnable]
        refine ⟨noConfusion, fun _ => ?_⟩
        simp only [Event.apply, Proc.sendsig, hrunnable]
        exact ⟨rfl, hchan hrunnable⟩
      · simp only [after, if_true, if_neg hrunnable, if_neg hrun]
        exact ⟨noConfusion, noConfusion⟩
    · simp only [after, if_neg h2]
      split <;> exact ⟨noConfusion, noConfusion⟩
  | _ => exact ⟨noConfusion, noConfusion⟩

theorem stop_after_ne_signalled {x : Proc} {e : Event} (hok : e.stopOk x = true) :
    Stop.after x .stopped e ≠ .signalled := by
  cases e with
  | sendsig signum =>
    rcases eq_or_ne signum 2 with rfl | h2
    · obtain ⟨hrun, -⟩ := (of_decide_eq_true hok).resolve_left fun hne => hne rfl
      simp only [after, if_true, if_neg hrun]
      split <;> exact noConfusion
    · simp only [after, if_neg h2]
      split <;> exact noConfusion
  | _ => exact noConfusion

/-- One step keeps the invariant. -/
theorem StopInv.next {w v : Watched ncpu} (h : StopInv w) {a : Action ncpu} (hok : StopOk initproc w a)
    (hv : watchedNext initproc w a = some v) : StopInv v := by
  obtain ⟨t, ht, rfl⟩ := Option.map_eq_some_iff.mp hv
  have hcase : ∀ q, w.stop q = .none ∨ w.stop q = .stopped := by
    intro q
    have hne := h.never q
    cases hq : w.stop q with
    | none => exact .inl rfl
    | stopped => exact .inr rfl
    | signalled => exact absurd hq hne
  refine ⟨h.inv.next a (not_stopsRunning hok) ht, fun q => ?_, fun q hq => ?_⟩
  · show (w.stop q).after _ _ ≠ _
    rcases hcase q with hnone | hstop
    · rw [hnone]
      exact (stopped_after (hok q)).1
    · rw [hstop]
      exact stop_after_ne_signalled (hok q)
  · have hq : (w.stop q).after (w.sys.proc q) (event initproc w.sys a q) = .stopped := hq
    rw [next_proc ht q]
    rcases hcase q with hnone | hstop
    · rw [hnone] at hq
      exact (stopped_after (hok q)).2 hq
    rw [hstop] at hq
    refine (rests_after h.inv (event_enabled ht q) (hok q) (h.rests q hstop)).resolve_right fun hnone => ?_
    rw [hq] at hnone
    cases hnone

/-- In every run in which signal 2 finds no running process and no runnable one with a channel, the scheduler
does not pick a stopped process until a signal or `kkill` resumes it. -/
theorem stopped_until_resumed {w : Watched ncpu}
    (h : Reachable (fun w => w = bootWatched ncpu initproc) (watchedNext initproc) (StopOk initproc) w) :
    StaysStopped w := by
  have hinv : StopInv w := by
    refine h.invariant StopInv ?_ fun _ _ _ hw hok hv => hw.next hok hv
    rintro w rfl
    exact ⟨inv_bootSys initproc, fun _ => noConfusion, fun _ hq => noConfusion hq⟩
  intro c q hq hpick
  obtain ⟨⟨-, -, hrunnable⟩, rfl⟩ := Option.ite_some_none_eq_some.mp hpick
  rw [(hinv.rests _ hq).1] at hrunnable
  cases hrunnable

/-- `initproc` forks a child and stops it before it has run. -/
def stopChild : List (Action 2) :=
  [.scheduler cpu0, .call cpu0 (.kfork true), .task cpu0, .task cpu0, .task cpu0,
    .call cpu0 (.sendsig 2 2), .task cpu0, .task cpu0, .scheduler cpu1]

/-- CPU 1 looks at the stopped child and does not pick it. -/
theorem stopped_until_resumed_child : ∃ w : Watched 2, w.stop 1 = .stopped ∧ w.sys.pos 1 = 1 ∧
    picks w.sys 1 ≠ some 1 := by
  have hrun : ((run (guarded (watchedNext 0) (StopOk 0)) (bootWatched 2 0) stopChild).map
      fun w => (w.stop 1, w.sys.pos 1)) = some (.stopped, 1) := by
    decide +kernel
  obtain ⟨w, hw, heq⟩ := Option.map_eq_some_iff.mp hrun
  obtain ⟨hstop, hpos⟩ := Prod.mk.inj heq
  exact ⟨w, hstop, hpos, stopped_until_resumed (reachable_guarded_run (.start rfl) hw) 1 1 hstop⟩

/-- `initproc` stops itself; then a timer interrupt makes it yield. -/
def stopSelf : List (Action 2) :=
  [.scheduler cpu0, .call cpu0 (.sendsig 1 2), .task cpu0, .yield cpu0]

/-- After signal 2 and a `yield` the scheduler of CPU 1 picks the stopped process. -/
theorem stopped_process_runs : ∃ w : Watched 2,
    run (watchedNext 0) (bootWatched 2 0) stopSelf = some w ∧ w.stop 0 = .stopped ∧
      picks w.sys 1 = some 0 ∧ ¬ StaysStopped w := by
  have hrun : run (watchedNext 0) (bootWatched 2 0) stopSelf = some _ := rfl
  refine ⟨_, hrun, rfl, rfl, fun hstop => hstop 1 0 rfl rfl⟩

end Xv6Lab.Process
