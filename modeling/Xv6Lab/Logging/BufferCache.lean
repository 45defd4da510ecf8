import Mathlib.Algebra.BigOperators.Group.Finset.Basic
import Xv6Lab.Lib.Transition
import Xv6Lab.Logging.Sections

/-!
# The buffer cache under the log

Processes read blocks into the `NBUF` buffers of the cache. `bget` and the end of `brelse` are sections under
`bcache.lock`, the sleep-lock of a buffer is taken and released between them. `log_write` pins the buffer of a
block that is new to the log, and `install_trans` unpins it. `commit` runs as the list of its buffer
operations, with the loops over `log.lh` unrolled.

The state also records which blocks are pinned and, for each process, the buffers it has a reference to and
the blocks its operation has written.
-/

namespace Xv6Lab.Logging.BufferCache

open Function

/-- Size of the disk block cache. -/
abbrev nbuf : Nat := maxOpBlocks * 3

/-- The device of the file system. -/
abbrev rootdev : Nat := 1

abbrev Slot := Fin nbuf

variable {P : Type}

/-- `struct buf`, without its data; `lock` is the holder of its sleep-lock. -/
structure Buf (P : Type) where
  dev : Nat
  blockno : Nat
  refcnt : Nat
  lock : Option P

/-- The cache; `order` lists the buffers from `head.next` to `head.prev`. -/
structure Cache (P : Type) where
  buf : Slot → Buf P
  order : List Slot

namespace Cache

def setBuf (c : Cache P) (x : Slot) (b : Buf P) : Cache P := { c with buf := update c.buf x b }

/-- The buffer that holds block `b`. -/
def cached (c : Cache P) (b : Nat) : Option Slot :=
  c.order.find? fun x => (c.buf x).dev = rootdev ∧ (c.buf x).blockno = b

/-- The least recently used buffer without references. -/
def unused (c : Cache P) : Option Slot := c.order.reverse.find? fun x => (c.buf x).refcnt = 0

/-- One more reference; also `bpin`. -/
def bpin (c : Cache P) (x : Slot) : Cache P :=
  c.setBuf x { c.buf x with refcnt := (c.buf x).refcnt + 1 }

def bunpin (c : Cache P) (x : Slot) : Cache P :=
  c.setBuf x { c.buf x with refcnt := (c.buf x).refcnt - 1 }

/-- The buffer comes to hold block `b`. -/
def recycle (c : Cache P) (x : Slot) (b : Nat) : Cache P :=
  c.setBuf x { c.buf x with dev := rootdev, blockno := b, refcnt := 1 }

/-- `bget` up to the sleep-lock; `none` is the panic. -/
def bget (c : Cache P) (b : Nat) : Option (Slot × Cache P) :=
  match c.cached b with
  | some x => some (x, c.bpin x)
  | none =>
    match c.unused with
    | some x => some (x, c.recycle x b)
    | none => none

/-- The section of `brelse`; a buffer without references moves to the front. -/
def brelse (c : Cache P) (x : Slot) : Cache P :=
  if (c.buf x).refcnt - 1 = 0 then { c.bunpin x with order := x :: c.order.erase x } else c.bunpin x

def setLock (c : Cache P) (x : Slot) (l : Option P) : Cache P := c.setBuf x { c.buf x with lock := l }

end Cache

/-- A buffer operation of `commit`; a buffer is named by its block. -/
inductive Cmd where
  | bread (b : Nat)
  | brelse (b : Nat)
  | bunpin (b : Nat)
  | clearN
  | finish
  deriving DecidableEq

def writeLog (start : Nat) (entries : List Nat) : List Cmd :=
  entries.zipIdx.flatMap fun (b, i) =>
    [.bread (start + i + 1), .bread b, .brelse b, .brelse (start + i + 1)]

def writeHead (start : Nat) : List Cmd := [.bread start, .brelse start]

def installTrans (start : Nat) (entries : List Nat) : List Cmd :=
  entries.zipIdx.flatMap fun (b, i) =>
    [.bread (start + i + 1), .bread b, .bunpin b, .brelse (start + i + 1), .brelse b]

/-- `commit` and the last section of `end_op`. -/
def commit (start : Nat) (entries : List Nat) : List Cmd :=
  if entries = [] then [.finish]
  else writeLog start entries ++ writeHead start ++ installTrans start entries ++ [.clearN] ++
    writeHead start ++ [.finish]

/-- In `commit`, the operations left. -/
abbrev Pc := Logging.Pc (List Cmd)

/-- What a process does with a buffer. -/
inductive Io where
  | ready
  /-- in `bget`, about to take the sleep-lock -/
  | locking (x : Slot)
  /-- in `brelse`, the sleep-lock is released -/
  | releasing (x : Slot)
  deriving DecidableEq

structure State (P : Type) where
  log : Log
  cache : Cache P
  pc : P → Pc
  io : P → Io
  /-- The buffers the process has references to. -/
  refs : P → Multiset Slot
  /-- The blocks whose buffers the log has pinned. -/
  pinned : List Nat
  /-- The blocks the operation of the process has written. -/
  wrote : P → Finset Nat
  panicked : Option String

inductive Action (P : Type) where
  | callBegin (p : P)
  | testBegin (p : P)
  | kkill (p : P)
  | bread (p : P) (b : Nat)
  | acquiresleep (p : P)
  | releasesleep (p : P) (x : Slot)
  | brelse (p : P)
  | logWrite (p : P) (x : Slot)
  | endOp (p : P)
  | commit (p : P)

variable [DecidableEq P]

def State.setPc (s : State P) (p : P) (x : Pc) : State P := { s with pc := update s.pc p x }

def State.setIo (s : State P) (p : P) (x : Io) : State P := { s with io := update s.io p x }

def State.setRefs (s : State P) (p : P) (r : Multiset Slot) : State P :=
  { s with refs := update s.refs p r }

def State.setCache (s : State P) (c : Cache P) : State P := { s with cache := c }

def State.panic (s : State P) (msg : String) : State P := { s with panicked := some msg }

/-- `bread` of block `b` up to the sleep-lock. -/
def breadStep (s : State P) (p : P) (b : Nat) : State P :=
  match s.cache.bget b with
  | some (x, c) => ((s.setCache c).setRefs p (x ::ₘ s.refs p)).setIo p (.locking x)
  | none => s.panic "bget: no buffers"

/-- `brelse` up to the release of the sleep-lock. -/
def releaseStep (s : State P) (p : P) (x : Slot) : State P :=
  (s.setCache (s.cache.setLock x none)).setIo p (.releasing x)

/-- The rest of `brelse`. -/
def brelseStep (s : State P) (p : P) (x : Slot) : State P :=
  ((s.setCache (s.cache.brelse x)).setRefs p ((s.refs p).erase x)).setIo p .ready

/-- `log_write` of the buffer `x`. -/
def logWriteStep (s : State P) (p : P) (x : Slot) : State P :=
  match s.log.logWriteSection (s.cache.buf x).blockno with
  | .error msg => s.panic msg
  | .ok (log, new) =>
    { s with
      log := log
      cache := if new then s.cache.bpin x else s.cache
      pinned := if new then s.pinned ++ [(s.cache.buf x).blockno] else s.pinned
      wrote := update s.wrote p (insert (s.cache.buf x).blockno (s.wrote p)) }

def testBeginStep (s : State P) (p : P) : State P :=
  let (enters, log, pc) := s.log.testBegin s.pc p
  { s with log := log, pc := pc, wrote := if enters then update s.wrote p ∅ else s.wrote }

def endOpStep (s : State P) (p : P) : State P :=
  match s.log.leaveOp s.pc p (commit s.log.start s.log.lh.entries) with
  | .error msg => s.panic msg
  | .ok (_, log, pc) => { s with log := log, pc := pc }

/-- The buffer of block `b` among those the process has references to. -/
def heldSlot (s : State P) (p : P) (b : Nat) : Option Slot :=
  (List.finRange nbuf).find? fun x => x ∈ s.refs p ∧ (s.cache.buf x).blockno = b

/-- The next buffer operation of `commit` in process `p`. `brelse` stays the next one until its section under
`bcache.lock`. -/
def commitStep (s : State P) (p : P) : List Cmd → Option (State P)
  | [] => none
  | .bread b :: todo => some ((breadStep s p b).setPc p (.commit todo))
  | .brelse b :: _ => (heldSlot s p b).map fun x => releaseStep s p x
  | .bunpin b :: todo => (heldSlot s p b).map fun x =>
    { s.setPc p (.commit todo) with cache := s.cache.bunpin x, pinned := s.pinned.erase b }
  | .clearN :: todo => some { s.setPc p (.commit todo) with
      log := { s.log with lh := { s.log.lh with n := 0 } } }
  | .finish :: _ => some { s with
      log := { s.log with committing := false }
      pc := wakeup (update s.pc p .idle) }

/-- After a `brelse` of `commit` its next operation. -/
def Pc.afterRelse : Pc → Pc
  | .commit (.brelse _ :: todo) => .commit todo
  | x => x

/-- The transition function; nothing moves after a panic. An operation writes blocks whose buffers it has
locked, and has released its buffers when it ends. -/
def next (s : State P) (a : Action P) : Option (State P) :=
  if s.panicked.isSome then none
  else match a with
    | .callBegin p => if s.pc p = .idle then some (s.setPc p .testing) else none
    | .testBegin p => if s.pc p = .testing then some (testBeginStep s p) else none
    | .kkill p => if s.pc p = .asleep then some (s.setPc p .testing) else none
    | .bread p b => if s.pc p = .inOp ∧ s.io p = .ready then some (breadStep s p b) else none
    | .acquiresleep p =>
      match s.io p with
      | .locking x =>
        if (s.cache.buf x).lock = none then
          some ((s.setCache (s.cache.setLock x (some p))).setIo p .ready)
        else none
      | _ => none
    | .releasesleep p x =>
      if s.pc p = .inOp ∧ s.io p = .ready ∧ x ∈ s.refs p ∧ (s.cache.buf x).lock = some p then
        some (releaseStep s p x)
      else none
    | .brelse p =>
      match s.io p with
      | .releasing x => some ((brelseStep s p x).setPc p (s.pc p).afterRelse)
      | _ => none
    | .logWrite p x =>
      if s.pc p = .inOp ∧ s.io p = .ready ∧ x ∈ s.refs p ∧ (s.cache.buf x).lock = some p then
        some (logWriteStep s p x)
      else none
    | .endOp p =>
      if s.pc p = .inOp ∧ s.io p = .ready ∧ s.refs p = 0 then some (endOpStep s p) else none
    | .commit p =>
      match s.pc p with
      | .commit todo => if s.io p = .ready then commitStep s p todo else none
      | _ => none

/-- The cache as `binit` leaves it, the log empty and no process in an operation. -/
structure Init (s : State P) : Prop where
  order : ∀ x, x ∈ s.cache.order
  buf : ∀ x, (s.cache.buf x).dev = 0 ∧ (s.cache.buf x).refcnt = 0
  outstanding : s.log.outstanding = 0
  committing : s.log.committing = false
  empty : s.log.lh.n = 0
  pc : ∀ p, s.pc p = .idle
  io : ∀ p, s.io p = .ready
  refs : ∀ p, s.refs p = 0
  pinned : s.pinned = []
  panicked : s.panicked = none

end Xv6Lab.Logging.BufferCache
