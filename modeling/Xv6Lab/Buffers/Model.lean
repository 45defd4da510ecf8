import Xv6Lab.Lib.LinkedList
import Xv6Lab.Lib.Tally
import Xv6Lab.Logging.BufferCache

/-!
# The buffer cache with its data

The cache of `bio.c` at the granularity of its locks: the section of `bget` under `bcache.lock`, the
sleep-lock of the buffer, the transfer in `bread`, changes of the data by the holder of the sleep-lock,
`log_write`, `bwrite`, and the two halves of `brelse`. The buffers form a doubly linked list whose pointers are
rewired as the code does it, and `bget` follows them.

A session is one use of a buffer, from `bget` to the end of `brelse`. A process that has several buffers has
several sessions at once, so any number of sessions interleave. The log is kept as far as it pins buffers:
`log_write` pins the buffer of a block that is new to the log, and `install_trans` unpins it after it has
written the block. The ghost field `left` records what was last left in a block by a holder that logged or
wrote it.
-/

namespace Xv6Lab.Buffers

open Function Lib.LinkedList Lib.Tally
open Logging.BufferCache (nbuf Slot)

/-- `struct buf`, without its pointers; `lock` is the session that holds the sleep-lock. -/
structure Buf (n : Nat) (D : Type) where
  valid : Bool
  dev : Nat
  blockno : Nat
  lock : Option (Fin n)
  refcnt : Nat
  data : D

/-- How far a session has come. -/
inductive Stage where
  /-- in `bget`, waiting for the sleep-lock -/
  | waiting
  /-- in `bread`, with the sleep-lock -/
  | locked
  /-- the data are as they were read, or have been logged -/
  | clean
  /-- the data have been changed -/
  | dirty
  /-- the data have been written by `bwrite` -/
  | written
  /-- in `brelse`, the sleep-lock is released -/
  | leaving
  deriving DecidableEq

/-- The session has the sleep-lock. -/
def Stage.holds : Stage → Bool
  | .waiting | .leaving => false
  | .locked | .clean | .dirty | .written => true

/-- The session has the sleep-lock and the contents of the block. -/
def Stage.reads : Stage → Bool
  | .waiting | .locked | .leaving => false
  | .clean | .dirty | .written => true

/-- A session: the arguments of `bread`, the buffer it got and its stage. -/
structure Session where
  dev : Nat
  blockno : Nat
  buf : Slot
  stage : Stage
  deriving DecidableEq

structure State (n : Nat) (D : Type) where
  links : Links Slot
  buf : Slot → Buf n D
  use : Fin n → Option Session
  /-- The contents of the disk by sector. -/
  disk : Nat → D
  /-- What was last left in a block by a holder that logged or wrote it. -/
  left : Nat → Nat → D
  /-- The entries of `log.lh.block`. -/
  log : List Nat
  outstanding : Nat
  /-- While the log commits, the number of entries that are installed. -/
  commit : Option Nat

/-- The sector at which `virtio_disk_rw` transfers a block, computed in 32 bits. The device number is not used. -/
def sector (blockno : Nat) : Nat := blockno * (bsize / 512) % 2 ^ 32

namespace State

variable {n : Nat} {D : Type}

def setBuf (s : State n D) (k : Slot) (b : Buf n D) : State n D := { s with buf := update s.buf k b }

def setUse (s : State n D) (u : Fin n) (x : Option Session) : State n D :=
  { s with use := update s.use u x }

/-- The first loop of `bget`. -/
def cached (s : State n D) (dev blockno : Nat) : Option Slot :=
  search s.links.next (fun k => (s.buf k).dev = dev ∧ (s.buf k).blockno = blockno) (nbuf + 1) (s.links.next none)

/-- The second loop of `bget`. -/
def unused (s : State n D) : Option Slot :=
  search s.links.prev (fun k => (s.buf k).refcnt = 0) (nbuf + 1) (s.links.prev none)

/-- `bpin`; also what `bget` does when it finds the block. -/
def bpin (s : State n D) (k : Slot) : State n D := s.setBuf k { s.buf k with refcnt := (s.buf k).refcnt + 1 }

def bunpin (s : State n D) (k : Slot) : State n D := s.setBuf k { s.buf k with refcnt := (s.buf k).refcnt - 1 }

/-- The buffer comes to hold another block. -/
def recycle (s : State n D) (k : Slot) (dev blockno : Nat) : State n D :=
  s.setBuf k { s.buf k with dev, blockno, valid := false, refcnt := 1 }

/-- The section of `bget` under `bcache.lock`; `none` is the panic. -/
def bget (s : State n D) (dev blockno : Nat) : Option (Slot × State n D) :=
  match s.cached dev blockno with
  | some k => some (k, s.bpin k)
  | none =>
    match s.unused with
    | some k => some (k, s.recycle k dev blockno)
    | none => none

/-- The section of `brelse` under `bcache.lock`. -/
def brelse (s : State n D) (k : Slot) : State n D :=
  let s' := s.bunpin k
  if (s'.buf k).refcnt = 0 then { s' with links := (s'.links.remove k).insertFront k } else s'

/-- The rest of `bread`, with the sleep-lock held. -/
def bread (s : State n D) (k : Slot) : State n D :=
  if (s.buf k).valid then s
  else s.setBuf k { s.buf k with data := s.disk (sector (s.buf k).blockno), valid := true }

/-- The data of the buffer become what was last left in the block of the session. -/
def leave (s : State n D) (x : Session) : State n D :=
  let blocks := update (s.left x.dev) x.blockno (s.buf x.buf).data
  { s with left := update s.left x.dev blocks }

def bwrite (s : State n D) (k : Slot) : State n D :=
  { s with disk := update s.disk (sector (s.buf k).blockno) (s.buf k).data }

/-- `log_write`: absorption by block number, and a pin for a new entry; `none` is a panic. -/
def logWrite (s : State n D) (k : Slot) : Option (State n D) :=
  if s.log.length ≥ logBlocks then none
  else if s.outstanding < 1 then none
  else if (s.buf k).blockno ∈ s.log then some s
  else some { s.bpin k with log := s.log ++ [(s.buf k).blockno] }

end State

/-- What a session does with the buffer it has. -/
inductive Op (D : Type) where
  | acquiresleep
  | bread
  | modify (v : D)
  | logWrite
  | bwrite
  | releasesleep
  | brelse
  /-- `bunpin` in `install_trans(0)`, after the `bwrite` of the home block -/
  | bunpin

inductive Action (n : Nat) (D : Type) where
  | bget (u : Fin n) (dev blockno : Nat)
  | op (u : Fin n) (o : Op D)
  | beginOp
  | endOp
  /-- `log.lh.n = 0` after `install_trans(0)`, and the end of the commit -/
  | clear

section Steps

variable {n : Nat} {D : Type}

/-- The step of the session `u` that is at `x`. -/
def act (logdev : Nat) (s : State n D) (u : Fin n) (x : Session) : Op D → Option (State n D)
  | .acquiresleep =>
    if x.stage = .waiting ∧ (s.buf x.buf).lock = none then
      some ((s.setBuf x.buf { s.buf x.buf with lock := some u }).setUse u (some { x with stage := .locked }))
    else none
  | .bread =>
    if x.stage = .locked then some ((s.bread x.buf).setUse u (some { x with stage := .clean })) else none
  | .modify v =>
    if x.stage.reads then
      some ((s.setBuf x.buf { s.buf x.buf with data := v }).setUse u (some { x with stage := .dirty }))
    else none
  | .logWrite =>
    -- the file system logs blocks of the log's device only
    if x.stage.reads ∧ x.dev = logdev then
      (s.logWrite x.buf).map fun t => (t.leave x).setUse u (some { x with stage := .clean })
    else none
  | .bwrite =>
    if x.stage.reads then
      some (((s.bwrite x.buf).leave x).setUse u (some { x with stage := .written }))
    else none
  | .releasesleep =>
    -- a change of the data is followed by `log_write` or `bwrite`
    if x.stage = .clean ∨ x.stage = .written then
      some ((s.setBuf x.buf { s.buf x.buf with lock := none }).setUse u (some { x with stage := .leaving }))
    else none
  | .brelse => if x.stage = .leaving then some ((s.brelse x.buf).setUse u none) else none
  | .bunpin =>
    match s.commit with
    | some i =>
      if x.stage = .written ∧ x.dev = logdev ∧ s.log[i]? = some x.blockno then
        some { (s.bunpin x.buf).setUse u (some { x with stage := .clean }) with commit := some (i + 1) }
      else none
    | none => none

/-- One step. A panic and a `sleep` of `begin_op` are no step. -/
def next (logdev : Nat) (s : State n D) : Action n D → Option (State n D)
  | .bget u dev blockno =>
    match s.use u with
    | none => (s.bget dev blockno).map fun (k, t) => t.setUse u (some ⟨dev, blockno, k, .waiting⟩)
    | some _ => none
  | .op u o => (s.use u).bind fun x => act logdev s u x o
  | .beginOp =>
    if s.commit.isSome ∨ s.log.length + (s.outstanding + 1) * maxOpBlocks > logBlocks then none
    else some { s with outstanding := s.outstanding + 1 }
  | .endOp =>
    if s.outstanding = 0 then none
    else if s.outstanding = 1 then some { s with outstanding := 0, commit := some 0 }
    else some { s with outstanding := s.outstanding - 1 }
  | .clear =>
    if s.commit = some s.log.length then some { s with log := [], commit := none } else none

/-- The pointers after `binit`. -/
def binit : Links Slot := (List.finRange nbuf).foldl Links.insertFront .empty

/-- After `binit` the buffers are zero, and the log has no entries. -/
def initial (data : D) (disk : Nat → D) : State n D where
  links := binit
  buf _ := { valid := false, dev := 0, blockno := 0, lock := none, refcnt := 0, data }
  use _ := none
  disk
  left _ b := disk (sector b)
  log := []
  outstanding := 0
  commit := none

/-- The start of a run: any contents of the buffers and of the disk. -/
def Initial (s : State n D) : Prop := ∃ data disk, s = initial data disk

/-- The blocks read are on real devices, of number 1 or more. -/
def RealDevices (_ : State n D) : Action n D → Prop
  | .bget _ dev _ => 1 ≤ dev
  | _ => True

/-- The blocks read are those of the log's device whose sectors fit in 32 bits. -/
def OneDevice (logdev : Nat) (_ : State n D) : Action n D → Prop
  | .bget _ dev blockno => dev = logdev ∧ blockno * (bsize / 512) < 2 ^ 32
  | _ => True

end Steps

/-! ## What the counts and the list are about -/

namespace State

variable {n : Nat} {D : Type}

/-- The number of sessions on the buffer whose stage satisfies `p`. -/
def sessions (s : State n D) (p : Stage → Bool) (k : Slot) : Nat :=
  tally Finset.univ (fun u => (s.use u).any fun x => x.buf = k ∧ p x.stage) true

/-- The sessions with the sleep-lock of the buffer. -/
def holders (s : State n D) (k : Slot) : Nat := s.sessions Stage.holds k

/-- The sessions in `bget` that wait for the sleep-lock. -/
def waiters (s : State n D) (k : Slot) : Nat := s.sessions (· = .waiting) k

/-- The sessions in `brelse` that have released the sleep-lock and still count as a reference. -/
def leavers (s : State n D) (k : Slot) : Nat := s.sessions (· = .leaving) k

/-- The entries of the log that are not yet installed. -/
def pending (s : State n D) : List Nat := s.log.drop (s.commit.getD 0)

/-- The number of pins of the buffer: one if it holds a block that is logged and not yet installed. -/
def pins (logdev : Nat) (s : State n D) (k : Slot) : Nat :=
  if (s.buf k).dev = logdev ∧ (s.buf k).blockno ∈ s.pending then 1 else 0

/-- The buffers on the list, from `head.next` on. -/
def forwards (s : State n D) : List Slot := follow s.links.next (nbuf + 1) (s.links.next none)

/-- The buffers on the list, from `head.prev` on. -/
def backwards (s : State n D) : List Slot := follow s.links.prev (nbuf + 1) (s.links.prev none)

end State

end Xv6Lab.Buffers
