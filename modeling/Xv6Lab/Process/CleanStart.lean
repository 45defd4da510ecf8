import Xv6Lab.Process.Scheduling

/-!
# New processes start clean

`allocproc` clears almost nothing in the entry it takes, so a new process starts with what is left in an `UNUSED`
entry. `kkill` does not test the state of an entry, and every `UNUSED` entry has pid 0: `kill(0)` marks the next
process to be created as killed. `freeproc` leaves `pending_sig`: a process starts with the signal of the last
owner of its entry. `allocproc_dirty` shows both. Where `kkill` finds no unused entry, no process is reaped with a
pending signal and no running process is stopped, every process starts clean (`allocproc_clean`).
-/

namespace Xv6Lab.Process

open Function Lib.Transition ProcState

variable {ncpu : Nat} {initproc q : Fin nproc}

/-- The files and the current directory of a process. -/
structure Owned where
  ofile : Fin nofile → Option Nat
  cwd : Option Nat

def Owned.empty : Owned := ⟨fun _ => none, none⟩

/-- `kfork` and `sys_thread_create` copy the open files and the directory of the parent. -/
def Owned.inherit (old parent : Owned) : Owned where
  ofile := fun fd =>
    match parent.ofile fd with
    | some f => some f
    | none => old.ofile fd
  cwd := parent.cwd

/-- What an event does to the files of an entry; `kexit` closes them. -/
def Owned.after (files : Fin nproc → Owned) (q : Fin nproc) : Event → Owned
  | .alloc _ parent => (files q).inherit (files parent)
  | .thread _ parent => (files q).inherit (files parent)
  | .kexit _ _ => .empty
  | _ => files q

/-- The machine with the files of the processes. -/
structure World (ncpu : Nat) where
  sys : Sys ncpu
  files : Fin nproc → Owned

/-- Steps of the machine, and the current process of a CPU changes one of its files or its directory. -/
inductive WorldAction (ncpu : Nat) where
  | proc (a : Action ncpu)
  | ofile (c : Fin ncpu) (fd : Fin nofile) (f : Option Nat)
  | chdir (c : Fin ncpu) (ino : Nat)

def World.setFiles (w : World ncpu) (p : Fin nproc) (o : Owned) : World ncpu :=
  { w with files := update w.files p o }

def worldNext (initproc : Fin nproc) (w : World ncpu) : WorldAction ncpu → Option (World ncpu)
  | .proc a =>
    (next initproc w.sys a).map fun t => ⟨t, fun q => Owned.after w.files q (event initproc w.sys a q)⟩
  | .ofile c fd f =>
    (w.sys.cpu c).map fun p =>
      w.setFiles p { w.files p with ofile := update (w.files p).ofile fd f }
  | .chdir c ino => (w.sys.cpu c).map fun p => w.setFiles p { w.files p with cwd := some ino }

/-- After `userinit` only `initproc` has a directory. -/
def bootWorld (ncpu : Nat) (initproc : Fin nproc) (root : Nat) : World ncpu where
  sys := bootSys ncpu initproc
  files := update (fun _ => .empty) initproc ⟨fun _ => none, some root⟩

/-- Nothing of an earlier process is left. -/
structure Clean (x : Proc) (o : Owned) : Prop where
  killed : x.killed = false
  pendingSig : x.pendingSig = 0
  chan : x.chan = 0
  xstate : x.xstate = 0
  parent : x.parent = none
  ofile : ∀ fd, o.ofile fd = none
  cwd : o.cwd = none

/-- `allocproc` takes the entry. -/
def Event.allocates : Event → Bool
  | .allocFail _ | .alloc _ _ | .thread _ _ => true
  | _ => false

/-- Every entry that `allocproc` returns in the next step is clean. -/
def StartsClean (initproc : Fin nproc) (w : World ncpu) : Prop :=
  ∀ a v q, worldNext initproc w (.proc a) = some v → (event initproc w.sys a q).allocates = true →
    Clean ((w.sys.proc q).alloc w.sys.nextpid) (w.files q)

/-- `kkill` finds an entry in use, `kwait` a zombie without a pending signal, and signal 2 no running
process. -/
def Event.cleanOk (x : Proc) : Event → Bool
  | .kkill => x.state ≠ .unused
  | .reap => x.pendingSig = 0
  | .sendsig signum => signum ≠ 2 ∨ x.state ≠ .running
  | _ => true

def CleanOk (initproc : Fin nproc) (w : World ncpu) : WorldAction ncpu → Prop
  | .proc a => ∀ q, (event initproc w.sys a q).cleanOk (w.sys.proc q) = true
  | _ => True

instance decidableCleanOk (initproc : Fin nproc) (w : World ncpu) (a : WorldAction ncpu) :
    Decidable (CleanOk initproc w a) :=
  match a with
  | .proc a => inferInstanceAs (Decidable (∀ q, (event initproc w.sys a q).cleanOk (w.sys.proc q) = true))
  | .ofile _ _ _ | .chdir _ _ => inferInstanceAs (Decidable True)

/-! ## The invariant -/

structure CleanInv (w : World ncpu) : Prop where
  inv : Inv w.sys
  unused : ∀ q, (w.sys.proc q).state = .unused → Clean (w.sys.proc q) (w.files q)
  zombie : ∀ q, (w.sys.proc q).state = .zombie → w.files q = .empty

theorem CleanOk.not_stopsRunning {w : World ncpu} {a : Action ncpu}
    (h : CleanOk initproc w (.proc a)) : ¬ StopsRunning w.sys a := by
  intro hstop
  obtain ⟨q, hev, hrun⟩ := hstop.event initproc
  have hok := h q
  rw [hev] at hok
  rcases of_decide_eq_true hok with hne | hne
  · exact hne rfl
  · exact hne hrun

/-- An entry that is unused after an event is clean. -/
theorem clean_after {w : World ncpu} (h : CleanInv w) {e : Event} (hen : e.Enabled w.sys q)
    (hok : e.cleanOk (w.sys.proc q) = true) (hq : (e.apply (w.sys.proc q)).state = .unused) :
    Clean (e.apply (w.sys.proc q)) (Owned.after w.files q e) := by
  cases e with
  | none => exact h.unused q hq
  | sendsig => exact absurd (Event.apply_eq (by rfl) id hq) hen
  | kkill => exact absurd (Event.apply_eq (by rfl) id hq) (of_decide_eq_true hok)
  | wakeup chan =>
    by_cases hwake : (w.sys.proc q).state = .sleeping ∧ (w.sys.proc q).chan = chan
    · simp only [Event.apply, Proc.wakeup, if_pos hwake] at hq
      cases hq
    · simp only [Event.apply, Proc.wakeup, if_neg hwake] at hq ⊢
      exact h.unused q hq
  | allocFail pid =>
    have hc := h.unused q hen
    exact ⟨rfl, hc.pendingSig, rfl, rfl, rfl, hc.ofile, hc.cwd⟩
  | reap =>
    have hfiles : w.files q = .empty := h.zombie q hen
    refine ⟨rfl, of_decide_eq_true hok, rfl, rfl, rfl, fun fd => ?_, ?_⟩
    · show (w.files q).ofile fd = none
      rw [hfiles]
      rfl
    · show (w.files q).cwd = none
      rw [hfiles]
      rfl
  | reparent parent =>
    have hc := h.unused q hq
    exact ⟨hc.killed, hc.pendingSig, hc.chan, hc.xstate, hen hc.parent, hc.ofile, hc.cwd⟩
  | alloc | thread | launch | resume | yield | sleep | kexit => cases hq

/-- An entry that is a zombie after an event has no files. -/
theorem zombie_after {w : World ncpu} (h : CleanInv w) {e : Event}
    (hq : (e.apply (w.sys.proc q)).state = .zombie) : Owned.after w.files q e = .empty := by
  cases e with
  | none | sendsig | kkill | wakeup | reparent => exact h.zombie q (Event.apply_eq (by rfl) id hq)
  | kexit status parent => rfl
  | allocFail | alloc | thread | launch | reap | resume | yield | sleep => cases hq

/-- The current process of a CPU changes its files. -/
theorem CleanInv.setFiles {w : World ncpu} (h : CleanInv w) {c : Fin ncpu} {p : Fin nproc}
    (hc : w.sys.cpu c = some p) (o : Owned) : CleanInv (w.setFiles p o) := by
  have hrun := h.inv.running c p hc
  have hother : ∀ {x : ProcState}, x ≠ .running → ∀ q, (w.sys.proc q).state = x →
      update w.files p o q = w.files q := by
    intro x hx q hq
    refine update_of_ne (fun heq => hx ?_) _ _
    rw [← hq, heq, hrun]
  refine ⟨h.inv, fun q hq => ?_, fun q hq => ?_⟩
  · show Clean (w.sys.proc q) (update w.files p o q)
    rw [hother noConfusion q hq]
    exact h.unused q hq
  · show update w.files p o q = .empty
    rw [hother noConfusion q hq]
    exact h.zombie q hq

/-- One step keeps the invariant. -/
theorem CleanInv.next {w v : World ncpu} (h : CleanInv w) {a : WorldAction ncpu}
    (hok : CleanOk initproc w a) (hv : worldNext initproc w a = some v) : CleanInv v := by
  cases a with
  | proc a =>
    obtain ⟨t, ht, rfl⟩ := Option.map_eq_some_iff.mp hv
    refine ⟨h.inv.next a (CleanOk.not_stopsRunning hok) ht, fun q hq => ?_, fun q hq => ?_⟩
    · rw [next_proc ht q] at hq ⊢
      exact clean_after h (event_enabled ht q) (hok q) hq
    · rw [next_proc ht q] at hq
      exact zombie_after h hq
  | ofile | chdir =>
    obtain ⟨p, hp, rfl⟩ := Option.map_eq_some_iff.mp hv
    exact h.setFiles hp _

theorem cleanInv_boot (ncpu : Nat) (initproc : Fin nproc) (root : Nat) : CleanInv (bootWorld ncpu initproc root) := by
  refine ⟨inv_bootSys initproc, fun q hq => ?_, fun q hq => ?_⟩
  · rcases eq_or_ne q initproc with rfl | hne
    · simp [bootWorld, bootSys] at hq
    have hproc : (bootWorld ncpu initproc root).sys.proc q = Proc.zero := by
      simp [bootWorld, bootSys, hne]
    have hfiles : (bootWorld ncpu initproc root).files q = .empty := by
      simp [bootWorld, hne]
    rw [hproc, hfiles]
    exact ⟨rfl, rfl, rfl, rfl, rfl, fun _ => rfl, rfl⟩
  · exfalso
    rcases eq_or_ne q initproc with rfl | hne
    · simp [bootWorld, bootSys] at hq
    · simp [bootWorld, bootSys, hne, Proc.zero] at hq

/-- In every run in which `kkill` finds no unused entry, no process with a pending signal is reaped and no
running process is stopped, every entry that `allocproc` returns is clean. -/
theorem allocproc_clean {root : Nat} {w : World ncpu}
    (h : Reachable (fun w => w = bootWorld ncpu initproc root) (worldNext initproc) (CleanOk initproc) w) :
    StartsClean initproc w := by
  have hinv : CleanInv w := by
    refine h.invariant CleanInv ?_ fun _ _ _ hw hok hv => hw.next hok hv
    rintro w rfl
    exact cleanInv_boot ncpu initproc root
  intro a v q hv halloc
  obtain ⟨t, ht, -⟩ := Option.map_eq_some_iff.mp hv
  have hen := event_enabled ht q
  have hfree : (w.sys.proc q).state = .unused := by
    cases hev : event initproc w.sys a q with
    | allocFail | alloc | thread =>
      rw [hev] at hen
      exact hen
    | _ =>
      rw [hev] at halloc
      cases halloc
  have hc := hinv.unused q hfree
  exact ⟨hc.killed, hc.pendingSig, hc.chan, hc.xstate, hc.parent, hc.ofile, hc.cwd⟩

/-- `initproc` forks: the next section of `allocproc` looks at entry 1. -/
def forkTrace (fd : Fin nofile) : List (WorldAction 2) :=
  [.proc (.scheduler cpu0), .ofile cpu0 fd (some 7), .proc (.call cpu0 (.kfork true)), .proc (.task cpu0)]

/-- `initproc` has an open file, and the entry that its `kfork` gets is clean. -/
theorem allocproc_clean_fork : ∃ w : World 2, (w.files 0).ofile 3 = some 7 ∧
    (event 0 w.sys (.task 0) 1).allocates = true ∧
    Clean ((w.sys.proc 1).alloc w.sys.nextpid) (w.files 1) := by
  have hrun : ((run (guarded (worldNext 0) (CleanOk 0)) (bootWorld 2 0 1) (forkTrace 3)).map fun w =>
      ((w.files 0).ofile 3, (event 0 w.sys (.task 0) 1).allocates,
        (worldNext 0 w (.proc (.task 0))).isSome)) = some (some 7, true, true) := by
    decide +kernel
  obtain ⟨w, hw, heq⟩ := Option.map_eq_some_iff.mp hrun
  obtain ⟨hfile, heq⟩ := Prod.mk.inj heq
  obtain ⟨halloc, hsome⟩ := Prod.mk.inj heq
  obtain ⟨v, hv⟩ := Option.isSome_iff_exists.mp hsome
  have hclean := allocproc_clean (reachable_guarded_run (.start rfl) hw)
  exact ⟨w, hfile, halloc, hclean _ v 1 hv halloc⟩

/-- `initproc` calls `kill(0)` and then forks. -/
def killZero : List (WorldAction 2) :=
  ([.scheduler cpu0, .call cpu0 (.kkill 0), .task cpu0, .task cpu0, .call cpu0 (.kfork true), .task cpu0] :
    List (Action 2)).map .proc

/-- `initproc` forks a child, sends it signal 5, waits for its exit and forks again. -/
def signalChild : List (WorldAction 2) :=
  ([.scheduler cpu0, .call cpu0 (.kfork true), .task cpu0, .task cpu0, .task cpu0,
    .call cpu0 (.sendsig 2 5), .task cpu0, .task cpu0, .scheduler cpu1, .scheduler cpu1, .kexit cpu1 0,
    .call cpu0 .kwait, .task cpu0, .task cpu0, .call cpu0 (.kfork true), .task cpu0] :
      List (Action 2)).map .proc

/-- The next section of `allocproc` returns an entry that is killed after `kill(0)`, and one with a pending
signal after the entry's last owner was sent one. -/
theorem allocproc_dirty : ∃ w v : World 2,
    (run (worldNext 0) (bootWorld 2 0 1) killZero = some w ∧
      ((w.sys.proc 1).alloc w.sys.nextpid).killed = true ∧ ¬ StartsClean 0 w) ∧
    run (worldNext 0) (bootWorld 2 0 1) signalChild = some v ∧
      ((v.sys.proc 1).alloc v.sys.nextpid).pendingSig = 5 ∧ ¬ StartsClean 0 v := by
  have hkill : run (worldNext 0) (bootWorld 2 0 1) killZero = some _ := rfl
  have hsignal : run (worldNext 0) (bootWorld 2 0 1) signalChild = some _ := rfl
  refine ⟨_, _, ⟨hkill, rfl, fun hclean => ?_⟩, hsignal, rfl, fun hclean => ?_⟩
  · exact Bool.noConfusion (hclean (.task 0) _ 1 rfl rfl).killed
  · have hzero : (5 : Int) = 0 := (hclean (.task 0) _ 1 rfl rfl).pendingSig
    cases hzero

end Xv6Lab.Process
