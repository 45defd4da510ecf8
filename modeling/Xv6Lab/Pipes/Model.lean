import Xv6Lab.Lib.RingBuffer
import Xv6Lab.Lib.Transition

/-!
# Pipes

The model of `pipe.c`. A pipe holds `PIPESIZE` bytes in a ring with two 32-bit counters. Any number of processes
call `pipewrite` and `piperead`; `pi->lock` is held from the start of a call, or from the return of `sleep`, to
the next `sleep` or the end of the call, and each such section is one step. What `killed`, `copyin` and
`copyout` answer while the lock is held is a parameter of the step.
-/

namespace Xv6Lab.Pipes

open Function Lib.RingBuffer

abbrev pipeSize : Nat := 512

structure Pipe where
  ring : RingBuf UInt8 pipeSize 32
  readopen : Bool
  writeopen : Bool

def Pipe.canWrite (pi : Pipe) : Bool := !pi.ring.isFull

def Pipe.empty (pi : Pipe) : Bool := pi.ring.isEmpty

/-- How a section under `pi->lock` ends: the call returns -1 at once, sleeps after `i` bytes, or returns `r` past
the `wakeup` at its end. -/
inductive Outcome where
  | fail
  | sleep (i : Nat)
  | done (r : Int)

/-- For each byte of a `pipewrite`, whether the process is killed and what `copyin` gives. -/
structure WriteEnv where
  killed : Nat → Bool
  copyin : Nat → Option UInt8

/-- The loop of `pipewrite` with `k` bytes left, from byte `i` on; also the bytes it stores. -/
def pipewriteLoop (env : WriteEnv) : Nat → Nat → Pipe → Outcome × Pipe × List UInt8
  | 0, i, pi => (.done i, pi, [])
  | k + 1, i, pi =>
    if pi.readopen = false || env.killed i then (.fail, pi, [])
    else if !pi.canWrite then (.sleep i, pi, [])
    else match env.copyin i with
      | none => (.done i, pi, [])
      | some ch =>
        let (o, pi', bs) := pipewriteLoop env k (i + 1) { pi with ring := pi.ring.push ch }
        (o, pi', ch :: bs)

/-- Whether the reading process is killed when it looks, and whether `copyout` succeeds for each byte. -/
structure ReadEnv where
  killed : Bool
  copyout : Nat → Bool

/-- The loop of `piperead` with `k` bytes left, from byte `i` on; also the bytes it delivers. -/
def pipereadLoop (env : ReadEnv) : Nat → Nat → Pipe → Int × Pipe × List UInt8
  | 0, i, pi => (i, pi, [])
  | k + 1, i, pi =>
    if pi.empty then (i, pi, [])
    else if env.copyout i = false then (if i = 0 then -1 else i, pi, [])
    else
      let (r, pi', bs) := pipereadLoop env k (i + 1) { pi with ring := pi.ring.pop }
      (r, pi', pi.ring.front :: bs)

/-- A section of `piperead` for `n` bytes. -/
def pipereadSection (env : ReadEnv) (n : Int) (pi : Pipe) : Outcome × Pipe × List UInt8 :=
  if pi.empty && pi.writeopen then (if env.killed then .fail else .sleep 0, pi, [])
  else
    let (r, pi', bs) := pipereadLoop env n.toNat 0 pi
    (.done r, pi', bs)

/-- The fields of `pipeclose`'s section. -/
def Pipe.close (pi : Pipe) (writable : Bool) : Pipe :=
  if writable then { pi with writeopen := false } else { pi with readopen := false }

/-! ## Processes -/

/-- Where a process stands with respect to the pipe. `out r` is outside, after a call that returned `r`; the
`id` of a `pipewrite` numbers the calls. -/
inductive Pc where
  | out (r : Option Int)
  | writing (id : Nat) (n : Int) (i : Nat)
  | writeSleep (id : Nat) (n : Int) (i : Nat)
  | reading (n : Int)
  | readSleep (n : Int)
  deriving DecidableEq

structure State (P : Type) where
  pipe : Pipe
  freed : Bool
  pc : P → Pc
  /-- The number of `pipewrite` calls made. -/
  calls : Nat
  /-- The bytes stored in the pipe, in order, with their calls. -/
  accepted : List (Nat × UInt8)
  /-- The bytes copied out to readers, in order. -/
  delivered : List UInt8
  /-- The calls of `pipewrite` that have returned. -/
  returns : List (Nat × Int)

inductive Action (P : Type) where
  | callWrite (p : P) (n : Int)
  | callRead (p : P) (n : Int)
  | write (p : P) (env : WriteEnv)
  | read (p : P) (env : ReadEnv)
  | pipeclose (writable : Bool)
  | kkill (p : P)

/-- `wakeup(&pi->nread)`. -/
def wakeReaders : Pc → Pc
  | .readSleep n => .reading n
  | x => x

/-- `wakeup(&pi->nwrite)`. -/
def wakeWriters : Pc → Pc
  | .writeSleep id n i => .writing id n i
  | x => x

variable {P : Type} [DecidableEq P]

/-- A section of `pipewrite` in process `p`. -/
def writeStep (s : State P) (p : P) (env : WriteEnv) (id : Nat) (n : Int) (i : Nat) : State P :=
  let (o, pi, bs) := pipewriteLoop env (n - i).toNat i s.pipe
  let s := { s with pipe := pi, accepted := s.accepted ++ bs.map fun b => (id, b) }
  match o with
  | .fail => { s with pc := update s.pc p (.out (some (-1))), returns := (id, -1) :: s.returns }
  | .sleep i => { s with pc := update (fun q => wakeReaders (s.pc q)) p (.writeSleep id n i) }
  | .done r => { s with
      pc := update (fun q => wakeReaders (s.pc q)) p (.out (some r))
      returns := (id, r) :: s.returns }

/-- A section of `piperead` in process `p`. -/
def readStep (s : State P) (p : P) (env : ReadEnv) (n : Int) : State P :=
  let (o, pi, bs) := pipereadSection env n s.pipe
  let s := { s with pipe := pi, delivered := s.delivered ++ bs }
  match o with
  | .fail => { s with pc := update s.pc p (.out (some (-1))) }
  | .sleep _ => { s with pc := update s.pc p (.readSleep n) }
  | .done r => { s with pc := update (fun q => wakeWriters (s.pc q)) p (.out (some r)) }

def pipecloseStep (s : State P) (writable : Bool) : State P :=
  let pi := s.pipe.close writable
  { s with
    pipe := pi
    freed := !pi.readopen && !pi.writeopen
    pc := fun q => if writable then wakeReaders (s.pc q) else wakeWriters (s.pc q) }

/-- The transition function. Once both ends are closed the page of the pipe is freed and no process has the
pipe any more. -/
def next (s : State P) (a : Action P) : Option (State P) :=
  if s.freed then none
  else match a with
    | .callWrite p n =>
      match s.pc p with
      | .out _ => some { s with pc := update s.pc p (.writing s.calls n 0), calls := s.calls + 1 }
      | _ => none
    | .callRead p n =>
      match s.pc p with
      | .out _ => some { s with pc := update s.pc p (.reading n) }
      | _ => none
    | .write p env =>
      match s.pc p with
      | .writing id n i => some (writeStep s p env id n i)
      | _ => none
    | .read p env =>
      match s.pc p with
      | .reading n => some (readStep s p env n)
      | _ => none
    | .pipeclose writable => some (pipecloseStep s writable)
    | .kkill p => some { s with pc := update s.pc p (wakeReaders (wakeWriters (s.pc p))) }

/-- A pipe that `pipealloc` has set up; what is in its page does not matter. -/
structure Init (s : State P) : Prop where
  nread : s.pipe.ring.nread = 0
  nwrite : s.pipe.ring.nwrite = 0
  readopen : s.pipe.readopen = true
  writeopen : s.pipe.writeopen = true
  freed : s.freed = false
  pc : ∀ p, s.pc p = .out none
  calls : s.calls = 0
  accepted : s.accepted = []
  delivered : s.delivered = []
  returns : s.returns = []

end Xv6Lab.Pipes
