import Xv6Lab.Params
import Mathlib.Logic.Function.Basic

/-!
# Processes and CPUs

The process table, the CPUs and the critical sections that run under `p->lock`. A process that runs
on a CPU executes system calls whose loops visit the process table one lock at a time; every visit is
one step, and so is every pass of the scheduler over a table entry. A switch between the scheduler
and a process happens with `p->lock` held, so the section that gives up a CPU includes the return to
the scheduler, and the section that picks a process includes the resumed part of `sleep`. Interrupt
handlers run `wakeup` on any CPU, with or without a current process.
-/

namespace Xv6Lab.Process

open Function

/-- `enum procstate`. -/
inductive ProcState where
  | unused
  | used
  | sleeping
  | runnable
  | running
  | zombie
  deriving DecidableEq, Repr

/-- Where the saved context of a process resumes. -/
inductive Context where
  | forkret
  | inYield
  | inSleep
  deriving DecidableEq, Repr

/-- The fields of `struct proc` that the sections below read or write. -/
structure Proc where
  state : ProcState
  chan : Nat
  killed : Bool
  xstate : Int
  pid : Int
  pendingSig : Int
  parent : Option (Fin nproc)
  context : Context

/-- `sys_sendsig` on a process whose pid matches. -/
def Proc.sendsig (p : Proc) (signum : Int) : Proc :=
  let p := { p with pendingSig := signum }
  if signum = 1 then
    { p with killed := true, state := if p.state = .sleeping then .runnable else p.state }
  else if signum = 2 then
    { p with state := if p.state = .runnable ∨ p.state = .running then .sleeping else p.state }
  else if signum = 3 then
    { p with state := if p.state = .sleeping then .runnable else p.state }
  else p

/-- `kkill` on a process whose pid matches. -/
def Proc.kkill (p : Proc) : Proc :=
  { p with killed := true, state := if p.state = .sleeping then .runnable else p.state }

/-- `wakeup` on one process. -/
def Proc.wakeup (p : Proc) (chan : Nat) : Proc :=
  if p.state = .sleeping ∧ p.chan = chan then { p with state := .runnable } else p

/-- The scheduler switches to the process; a sleeper clears its channel. -/
def Proc.resume (p : Proc) : Proc :=
  { p with state := .running, chan := if p.context = .inSleep then 0 else p.chan }

/-- `yield` up to the switch. -/
def Proc.yield (p : Proc) : Proc := { p with state := .runnable, context := .inYield }

/-- `sleep` up to the switch. -/
def Proc.sleep (p : Proc) (chan : Nat) : Proc :=
  { p with state := .sleeping, chan := chan, context := .inSleep }

/-- `kexit` up to the switch. -/
def Proc.kexit (p : Proc) (status : Int) : Proc := { p with state := .zombie, xstate := status }

/-- `allocproc` on an unused entry. -/
def Proc.alloc (p : Proc) (pid : Int) : Proc :=
  { p with pid := pid, state := .used, context := .forkret }

/-- `reparent` on a child of the process that exits. -/
def Proc.adopt (p : Proc) (initproc : Fin nproc) : Proc := { p with parent := some initproc }

/-- `reparent` on the process table, for the process `p`. -/
def adoptAll (initproc p : Fin nproc) (proc : Fin nproc → Proc) : Fin nproc → Proc := fun q =>
  if (proc q).parent = some p then (proc q).adopt initproc else proc q

/-- `freeproc`. -/
def Proc.free (p : Proc) : Proc :=
  { p with pid := 0, parent := none, chan := 0, killed := false, xstate := 0, state := .unused }

/-- The system calls and kernel functions that visit the process table; the flag says whether the
memory allocations of a creation succeed. -/
inductive Call where
  | sendsig (pid signum : Int)
  | kkill (pid : Int)
  | wakeup (chan : Nat)
  | kfork (mem : Bool)
  | threadCreate (mem : Bool)
  | kwait

/-- What the kernel thread of a process does between two sections. -/
inductive Task where
  | none
  | sendsig (pid signum : Int) (i : Nat)
  | kkill (pid : Int) (i : Nat)
  | wakeup (chan : Nat) (i : Nat)
  | allocproc (thread mem : Bool) (i : Nat)
  /-- `kfork` has released the lock of the new process and not yet made it runnable. -/
  | forked (child : Fin nproc)
  | kwait (i : Nat)
  deriving DecidableEq

/-- Process table, kernel threads and CPUs. `intr c` is the `wakeup` loop of an interrupt handler on
CPU `c`, `pos c` the table entry the scheduler of `c` looks at. -/
structure Sys (ncpu : Nat) where
  proc : Fin nproc → Proc
  task : Fin nproc → Task
  cpu : Fin ncpu → Option (Fin nproc)
  intr : Fin ncpu → Option (Nat × Nat)
  pos : Fin ncpu → Fin nproc
  nextpid : Int

namespace Sys

variable {ncpu : Nat}

def setProc (s : Sys ncpu) (q : Fin nproc) (x : Proc) : Sys ncpu :=
  { s with proc := update s.proc q x }

def setTask (s : Sys ncpu) (p : Fin nproc) (t : Task) : Sys ncpu :=
  { s with task := update s.task p t }

/-- The process gives up CPU `c` and the scheduler goes on with the next table entry. -/
def leave (s : Sys ncpu) (c : Fin ncpu) : Sys ncpu :=
  { s with
    cpu := update s.cpu c none
    pos := update s.pos c (s.pos c + 1) }

@[simp] theorem setProc_proc_self (s : Sys ncpu) (q : Fin nproc) (x : Proc) : (s.setProc q x).proc q = x := by
  simp [setProc]

@[simp] theorem setProc_proc_ne (s : Sys ncpu) {q r : Fin nproc} (x : Proc) (h : r ≠ q) :
    (s.setProc q x).proc r = s.proc r := by
  simp [setProc, h]

@[simp] theorem setTask_task_self (s : Sys ncpu) (p : Fin nproc) (t : Task) : (s.setTask p t).task p = t := by
  simp [setTask]

@[simp] theorem setTask_task_ne (s : Sys ncpu) {p r : Fin nproc} (t : Task) (h : r ≠ p) :
    (s.setTask p t).task r = s.task r := by
  simp [setTask, h]

end Sys

/-- The entry of a call; `sys_sendsig` rejects a pid or a signal that is not positive. -/
def Call.task : Call → Task
  | .sendsig pid signum => if pid ≤ 0 ∨ signum ≤ 0 then .none else .sendsig pid signum 0
  | .kkill pid => .kkill pid 0
  | .wakeup chan => .wakeup chan 0
  | .kfork mem => .allocproc false mem 0
  | .threadCreate mem => .allocproc true mem 0
  | .kwait => .kwait 0

section Sections

variable {ncpu : Nat}

/-- `wakeup` visits entry `i` on a CPU whose current process is `me`. -/
def wakeupVisit (s : Sys ncpu) (me : Option (Fin nproc)) (chan : Nat) (i : Fin nproc) : Sys ncpu :=
  if some i = me then s else s.setProc i ((s.proc i).wakeup chan)

/-- `allocproc` in `kfork` and `sys_thread_create` visits entry `i` for process `p`. A thread is made
runnable at once; `kfork` releases the lock first. -/
def allocVisit (s : Sys ncpu) (p : Fin nproc) (thread mem : Bool) (i : Fin nproc) : Sys ncpu :=
  if (s.proc i).state = .unused then
    let new := (s.proc i).alloc s.nextpid
    let s := { s with nextpid := s.nextpid + 1 }
    if mem = false then (s.setProc i new.free).setTask p .none
    else if thread then
      (s.setProc i { new with state := .runnable, parent := some p }).setTask p .none
    else (s.setProc i new).setTask p (.forked i)
  else s.setTask p (.allocproc thread mem (i + 1))

/-- One section of the kernel thread of process `p`. -/
def taskStep (s : Sys ncpu) (p : Fin nproc) : Task → Sys ncpu
  | .none => s
  | .sendsig pid signum i =>
    if h : i < nproc then
      if (s.proc ⟨i, h⟩).pid = pid ∧ (s.proc ⟨i, h⟩).state ≠ .unused then
        (s.setProc ⟨i, h⟩ ((s.proc ⟨i, h⟩).sendsig signum)).setTask p .none
      else s.setTask p (.sendsig pid signum (i + 1))
    else s.setTask p .none
  | .kkill pid i =>
    if h : i < nproc then
      if (s.proc ⟨i, h⟩).pid = pid then
        (s.setProc ⟨i, h⟩ (s.proc ⟨i, h⟩).kkill).setTask p .none
      else s.setTask p (.kkill pid (i + 1))
    else s.setTask p .none
  | .wakeup chan i =>
    if h : i < nproc then
      (wakeupVisit s (some p) chan ⟨i, h⟩).setTask p (.wakeup chan (i + 1))
    else s.setTask p .none
  | .allocproc thread mem i =>
    if h : i < nproc then allocVisit s p thread mem ⟨i, h⟩ else s.setTask p .none
  | .forked q =>
    (s.setProc q { s.proc q with state := .runnable, parent := some p }).setTask p .none
  | .kwait i =>
    if h : i < nproc then
      if (s.proc ⟨i, h⟩).parent = some p ∧ (s.proc ⟨i, h⟩).state = .zombie then
        (s.setProc ⟨i, h⟩ (s.proc ⟨i, h⟩).free).setTask p .none
      else s.setTask p (.kwait (i + 1))
    else s.setTask p .none

/-- One section of an interrupt handler on CPU `c`. -/
def handlerStep (s : Sys ncpu) (c : Fin ncpu) (chan i : Nat) : Sys ncpu :=
  if h : i < nproc then
    { wakeupVisit s (s.cpu c) chan ⟨i, h⟩ with intr := update s.intr c (some (chan, i + 1)) }
  else { s with intr := update s.intr c none }

/-- `reparent`: the children of `p` go to `initproc`. -/
def reparent (initproc p : Fin nproc) (s : Sys ncpu) : Sys ncpu :=
  { s with proc := adoptAll initproc p s.proc }

/-- The process the scheduler of CPU `c` would switch to. -/
def picks (s : Sys ncpu) (c : Fin ncpu) : Option (Fin nproc) :=
  if s.cpu c = none ∧ s.intr c = none ∧ (s.proc (s.pos c)).state = .runnable then some (s.pos c)
  else none

/-- One pass of the loop of `scheduler` on an idle CPU. -/
def schedulerStep (s : Sys ncpu) (c : Fin ncpu) : Sys ncpu :=
  match picks s c with
  | some p => { s.setProc p (s.proc p).resume with cpu := update s.cpu c (some p) }
  | none => { s with pos := update s.pos c (s.pos c + 1) }

/-- The steps of a CPU. -/
inductive Action (ncpu : Nat) where
  | scheduler (c : Fin ncpu)
  | interrupt (c : Fin ncpu) (chan : Nat)
  | handler (c : Fin ncpu)
  | call (c : Fin ncpu) (f : Call)
  | task (c : Fin ncpu)
  | yield (c : Fin ncpu)
  | sleep (c : Fin ncpu) (chan : Nat)
  | kexit (c : Fin ncpu) (status : Int)

/-- A step of the process that runs on CPU `c` outside interrupt handlers. -/
def onProcess (s : Sys ncpu) (c : Fin ncpu) (f : Fin nproc → Option (Sys ncpu)) : Option (Sys ncpu) :=
  if s.intr c = none then (s.cpu c).bind f else none

/-- The transition function. `yield` may interrupt any kernel loop; `sleep` and `kexit` are called
outside them. -/
def next (initproc : Fin nproc) (s : Sys ncpu) : Action ncpu → Option (Sys ncpu)
  | .scheduler c => if s.cpu c = none ∧ s.intr c = none then some (schedulerStep s c) else none
  | .interrupt c chan =>
    if s.intr c = none then some { s with intr := update s.intr c (some (chan, 0)) } else none
  | .handler c =>
    match s.intr c with
    | some (chan, i) => some (handlerStep s c chan i)
    | none => none
  | .call c f =>
    onProcess s c fun p => if s.task p = .none then some (s.setTask p f.task) else none
  | .task c => onProcess s c fun p => some (taskStep s p (s.task p))
  | .yield c => onProcess s c fun p => some ((s.setProc p (s.proc p).yield).leave c)
  | .sleep c chan =>
    onProcess s c fun p =>
      if s.task p = .none then some ((s.setProc p ((s.proc p).sleep chan)).leave c) else none
  | .kexit c status =>
    -- `kexit` of `initproc` panics
    onProcess s c fun p =>
      if s.task p = .none ∧ p ≠ initproc then
        let s := reparent initproc p s
        some ((s.setProc p ((s.proc p).kexit status)).leave c)
      else none

/-- An entry of the process table after `procinit`. -/
def Proc.zero : Proc where
  state := .unused
  chan := 0
  killed := false
  xstate := 0
  pid := 0
  pendingSig := 0
  parent := none
  context := .forkret

/-- The machine after `userinit`: only `initproc`, with pid 1, is runnable. -/
def bootSys (ncpu : Nat) (initproc : Fin nproc) : Sys ncpu where
  proc := update (fun _ => Proc.zero) initproc { Proc.zero.alloc 1 with state := .runnable }
  task := fun _ => .none
  cpu := fun _ => none
  intr := fun _ => none
  pos := fun _ => 0
  nextpid := 2

end Sections

end Xv6Lab.Process
