import Xv6Lab.Lib.Lineage
import Xv6Lab.Process.Model

/-!
# Creation, exit and wait

`kfork`, `sys_thread_create`, `kexit` with `reparent`, `kwait` and `kkill` at the granularity of `wait_lock` and of
the locks of the table entries: every section under `p->lock` is a step, and a process that holds `wait_lock` keeps
it over several of them. What a section does to an entry is what `Process.Model` says. The code here never tells
`RUNNING` from `RUNNABLE`, and the model writes both as `runnable`: a runnable process can take its next step. Each
process gets a number when it is created; the state keeps the exits and the reaped children by these numbers.
-/

namespace Xv6Lab.Process.Children

open Function Xv6Lab.Process Lib.Lineage

abbrev Slot := Fin nproc

/-- An entry of the table with numbers for the process in it. -/
structure Entry extends Proc where
  gen : Nat
  /-- The number of its creator. -/
  creator : Nat

/-- A section that does `f` to the entry. -/
def Entry.map (x : Entry) (f : Proc → Proc) : Entry := ⟨f x.toProc, x.gen, x.creator⟩

/-- `allocproc` on an unused entry, for the process with number `creator`. -/
def Entry.alloc (x : Entry) (pid : Int) (gen creator : Nat) : Entry := ⟨x.toProc.alloc pid, gen, creator⟩

/-- The address of an entry, which its parent sleeps on; a process without a parent has 0 there. -/
def chanOf : Option Slot → Nat
  | none => 0
  | some q => q.val + 1

/-- The place of a process in the calls below. -/
inductive Pc where
  /-- outside, after a call that returned `r` -/
  | user (r : Option Int)
  | forkAlloc (mem : Bool) (i : Nat)
  /-- `kfork` is about to take `wait_lock` and set the parent -/
  | forkParent (child : Slot)
  /-- `kfork` is about to make the child runnable -/
  | forkReady (child : Slot)
  | threadAlloc (mem : Bool) (i : Nat)
  | kill (pid : Int) (i : Nat)
  | exitLock (status : Int)
  /-- `reparent` at entry `i` -/
  | reparent (status : Int) (i : Nat)
  /-- the `wakeup(initproc)` of `reparent` at entry `j` -/
  | reparentWake (status : Int) (i j : Nat)
  /-- the `wakeup(p->parent)` of `kexit` at entry `j` -/
  | exitWake (status : Int) (chan : Nat) (j : Nat)
  | exitZombie (status : Int)
  /-- `kwait` is about to take `wait_lock`; `addr` says whether the caller wants the status -/
  | waitLock (addr : Bool)
  | waitScan (addr : Bool) (i : Nat) (havekids : Bool)
  /-- the scan found no zombie -/
  | waitCheck (addr : Bool) (havekids : Bool)
  | waitSleep (addr : Bool)
  /-- in the `sleep` of `kwait` -/
  | waitWoken (addr : Bool)
  | gone
  deriving DecidableEq

structure State where
  proc : Slot → Entry
  pc : Slot → Pc
  waitLock : Option Slot
  nextpid : Int
  /-- The number of processes created. -/
  births : Nat
  /-- The processes that have become zombies, with the status they gave to `kexit`. -/
  exits : List (Nat × Int)
  /-- The children that `kwait` has returned. -/
  reaps : List (Reap Int)

inductive Call where
  | kfork (mem : Bool)
  | threadCreate (mem : Bool)
  | kkill (pid : Int)
  | kexit (status : Int)
  | kwait (addr : Bool)

def Call.start : Call → Pc
  | .kfork mem => .forkAlloc mem 0
  | .threadCreate mem => .threadAlloc mem 0
  | .kkill pid => .kill pid 0
  | .kexit status => .exitLock status
  | .kwait addr => .waitLock addr

namespace State

def setProc (s : State) (q : Slot) (x : Entry) : State := { s with proc := update s.proc q x }

def setPc (s : State) (p : Slot) (x : Pc) : State := { s with pc := update s.pc p x }

def lock (s : State) (p : Slot) : State := { s with waitLock := some p }

def unlock (s : State) : State := { s with waitLock := none }

@[simp] theorem setProc_self (s : State) (q : Slot) (x : Entry) : (s.setProc q x).proc q = x :=
  update_self ..

theorem setProc_ne (s : State) {q r : Slot} (x : Entry) (h : r ≠ q) : (s.setProc q x).proc r = s.proc r :=
  update_of_ne h ..

@[simp] theorem setPc_self (s : State) (p : Slot) (x : Pc) : (s.setPc p x).pc p = x :=
  update_self ..

end State

variable (initproc : Slot)

/-- `allocproc` has found the entry `q` for process `p`; the new process has run nothing yet. -/
def allocated (s : State) (p q : Slot) : State :=
  { (s.setProc q ((s.proc q).alloc s.nextpid s.births (s.proc p).gen)).setPc q (.user none) with
    nextpid := s.nextpid + 1
    births := s.births + 1 }

/-- `allocproc` visits entry `q` in `kfork`, or in `sys_thread_create`; `mem` says whether the memory allocations
succeed. -/
def allocVisit (s : State) (p q : Slot) (thread mem : Bool) (i : Nat) : State :=
  if (s.proc q).state = .unused then
    let t := allocated s p q
    if mem = false then (t.setProc q ((t.proc q).map Proc.free)).setPc p (.user (some (-1)))
    else if thread then
      (t.setProc q { t.proc q with parent := some p, state := .runnable }).setPc p (.user (some s.nextpid))
    else t.setPc p (.forkParent q)
  else if thread then s.setPc p (.threadAlloc mem (i + 1))
  else s.setPc p (.forkAlloc mem (i + 1))

/-- `wakeup` in process `p` visits entry `q`. -/
def wakeupVisit (s : State) (p q : Slot) (chan : Nat) : State :=
  if q = p then s else s.setProc q ((s.proc q).map (Proc.wakeup · chan))

/-- The scan of `kwait` in process `p` at entry `q`; `copyok` says whether `copyout` succeeds. -/
def waitVisit (s : State) (p q : Slot) (addr : Bool) (i : Nat) (havekids copyok : Bool) : State :=
  let x := s.proc q
  if x.parent = some p then
    if x.state = .zombie then
      if addr && !copyok then (s.setPc p (.user (some (-1)))).unlock
      else
        { ((s.setProc q (x.map Proc.free)).setPc p (.user (some x.pid))).unlock with
          reaps := ⟨x.gen, x.creator, (s.proc p).gen, if addr then some x.xstate else none⟩ :: s.reaps }
    else s.setPc p (.waitScan addr (i + 1) true)
  else s.setPc p (.waitScan addr (i + 1) havekids)

/-- The next section of process `p`. -/
def step (s : State) (p : Slot) (copyok : Bool) : Pc → Option State
  | .user _ | .gone => none
  | .forkAlloc mem i =>
    some (if h : i < nproc then allocVisit s p ⟨i, h⟩ false mem i else s.setPc p (.user (some (-1))))
  | .threadAlloc mem i =>
    some (if h : i < nproc then allocVisit s p ⟨i, h⟩ true mem i else s.setPc p (.user (some (-1))))
  | .forkParent q =>
    -- `wait_lock` is taken and released
    if s.waitLock = none then
      some ((s.setProc q { s.proc q with parent := some p }).setPc p (.forkReady q))
    else none
  | .forkReady q =>
    some ((s.setProc q { s.proc q with state := .runnable }).setPc p (.user (some (s.proc q).pid)))
  | .kill pid i =>
    some (if h : i < nproc then
      if (s.proc ⟨i, h⟩).pid = pid then
        (s.setProc ⟨i, h⟩ ((s.proc ⟨i, h⟩).map Proc.kkill)).setPc p (.user (some 0))
      else s.setPc p (.kill pid (i + 1))
    else s.setPc p (.user (some (-1))))
  | .exitLock status => if s.waitLock = none then some ((s.setPc p (.reparent status 0)).lock p) else none
  | .reparent status i =>
    some (if h : i < nproc then
      if (s.proc ⟨i, h⟩).parent = some p then
        (s.setProc ⟨i, h⟩ ((s.proc ⟨i, h⟩).map (Proc.adopt · initproc))).setPc p (.reparentWake status i 0)
      else s.setPc p (.reparent status (i + 1))
    else s.setPc p (.exitWake status (chanOf (s.proc p).parent) 0))
  | .reparentWake status i j =>
    some (if h : j < nproc then
      (wakeupVisit s p ⟨j, h⟩ (chanOf initproc)).setPc p (.reparentWake status i (j + 1))
    else s.setPc p (.reparent status (i + 1)))
  | .exitWake status chan j =>
    some (if h : j < nproc then (wakeupVisit s p ⟨j, h⟩ chan).setPc p (.exitWake status chan (j + 1))
    else s.setPc p (.exitZombie status))
  | .exitZombie status =>
    some { ((s.setProc p ((s.proc p).map (Proc.kexit · status))).setPc p .gone).unlock with
      exits := ((s.proc p).gen, status) :: s.exits }
  | .waitLock addr => if s.waitLock = none then some ((s.setPc p (.waitScan addr 0 false)).lock p) else none
  | .waitScan addr i havekids =>
    some (if h : i < nproc then waitVisit s p ⟨i, h⟩ addr i havekids copyok
    else s.setPc p (.waitCheck addr havekids))
  | .waitCheck addr havekids =>
    some (if !havekids || (s.proc p).killed then (s.setPc p (.user (some (-1)))).unlock
    else s.setPc p (.waitSleep addr))
  | .waitSleep addr =>
    some ((s.setProc p ((s.proc p).map (Proc.sleep · (chanOf p)))).setPc p (.waitWoken addr)).unlock
  | .waitWoken addr => some ((s.setProc p { s.proc p with chan := 0 }).setPc p (.waitLock addr))

inductive Action where
  | call (p : Slot) (f : Call)
  | step (p : Slot) (copyok : Bool)

/-- The transition function: the processes that can run take their steps in any order. `kexit` of `initproc`
panics. -/
def next (s : State) : Action → Option State
  | .call p f =>
    if (s.proc p).state = .runnable then
      match s.pc p, f with
      | .user _, .kexit status => if p = initproc then none else some (s.setPc p (.exitLock status))
      | .user _, f => some (s.setPc p f.start)
      | _, _ => none
    else none
  | .step p copyok => if (s.proc p).state = .runnable then step initproc s p copyok (s.pc p) else none

/-- An entry after `procinit`, and that of `initproc` after `userinit`. -/
def Entry.zero : Entry := ⟨Proc.zero, 0, 0⟩

def Entry.first : Entry := ⟨{ Proc.zero.alloc 1 with state := .runnable }, 0, 0⟩

/-- Only `initproc`, with number 0, has been created. -/
def boot : State where
  proc := update (fun _ => Entry.zero) initproc Entry.first
  pc := fun _ => .user none
  waitLock := none
  nextpid := 2
  births := 1
  exits := []
  reaps := []

end Xv6Lab.Process.Children
