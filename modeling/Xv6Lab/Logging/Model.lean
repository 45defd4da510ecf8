import Xv6Lab.Params
import Xv6Lab.Lib.Words
import Xv6Lab.Lib.CrashDisk

/-!
# The redo log

The log of `kernel/log.c`. A header block at `log.start` holds the number of logged blocks and their
home block numbers; the blocks after it hold the logged contents. `commit` copies the logged buffers
to the log, writes the header, installs the blocks at home and clears the header. The critical
sections that run under `log.lock` are functions on `Log` (`tryBeginOp`, `endOpSection`,
`logWriteSection`); the code that touches the disk is a program over a disk that can lose power.

A buffer that is in the cache is returned by `bread` as it is, otherwise the block is read from the
disk. `bpin` and `bunpin` count the references that keep a logged buffer from being recycled.
-/

namespace Xv6Lab.Logging

open Function Lib.Words
open Lib.CrashDisk

/-- `struct logheader`. The array `block` has `logBlocks` elements; programs check the index. -/
structure LogHeader where
  n : Int
  block : Nat → Nat

/-- The logged home block numbers `block[0..n)`. -/
def LogHeader.entries (lh : LogHeader) : List Nat := (List.range lh.n.toNat).map lh.block

/-- `struct log`, without its spin lock and its device number. -/
structure Log where
  start : Nat
  outstanding : Int
  committing : Bool
  lh : LogHeader

/-! ## Critical sections -/

/-- The test in the loop of `begin_op`: `none` when the caller has to sleep. -/
def Log.tryBeginOp (log : Log) : Option Log :=
  if log.committing then none
  else if log.lh.n + (log.outstanding + 1) * maxOpBlocks > logBlocks then none
  else some { log with outstanding := log.outstanding + 1 }

/-- The first critical section of `end_op`; the flag is `do_commit`. -/
def Log.endOpSection (log : Log) : Except String (Log × Bool) :=
  let log := { log with outstanding := log.outstanding - 1 }
  if log.committing then .error "log.committing"
  else if log.outstanding = 0 then .ok ({ log with committing := true }, true)
  else .ok (log, false)

/-- Where a process stands with respect to the log; `C` says where it stands in `commit`. -/
inductive Pc (C : Type) where
  | idle
  /-- in `begin_op`, about to test the log -/
  | testing
  /-- in `begin_op`, asleep on the log -/
  | asleep
  /-- between the return of `begin_op` and `end_op` -/
  | inOp
  | commit (c : C)
  deriving DecidableEq

/-- `wakeup(&log)`. -/
def wakeup {P C : Type} (pc : P → Pc C) : P → Pc C := fun q =>
  match pc q with
  | .asleep => .testing
  | x => x

/-- The test of `begin_op` in process `p`: whether it enters, the log, and where the processes stand. -/
def Log.testBegin {P C : Type} [DecidableEq P] (log : Log) (pc : P → Pc C) (p : P) : Bool × Log × (P → Pc C) :=
  match log.tryBeginOp with
  | none => (false, log, update pc p .asleep)
  | some log => (true, log, update pc p .inOp)

/-- The first critical section of `end_op` in process `p`, which goes on to `commit` at `c` or wakes the sleepers. -/
def Log.leaveOp {P C : Type} [DecidableEq P] (log : Log) (pc : P → Pc C) (p : P) (c : C) :
    Except String (Bool × Log × (P → Pc C)) :=
  match log.endOpSection with
  | .error msg => .error msg
  | .ok (log, true) => .ok (true, log, update pc p (.commit c))
  | .ok (log, false) => .ok (false, log, wakeup (update pc p .idle))

/-- The absorption loop of `log_write`: the first index from `i` on, among `k`, that holds `b`. -/
def LogHeader.absorb (lh : LogHeader) (b : Nat) : Nat → Nat → Nat
  | 0, i => i
  | k + 1, i => if lh.block i = b then i else lh.absorb b k (i + 1)

/-- `log_write`; the flag says that the block is new and its buffer gets pinned. -/
def Log.logWriteSection (log : Log) (b : Nat) : Except String (Log × Bool) :=
  if log.lh.n ≥ logBlocks then .error "too big transaction"
  else if log.outstanding < 1 then .error "log_write outside transaction"
  else
    let i := log.lh.absorb b log.lh.n.toNat 0
    let block := update log.lh.block i b
    if (i : Int) = log.lh.n then
      .ok ({ log with lh := { n := log.lh.n + 1, block := block } }, true)
    else .ok ({ log with lh := { n := log.lh.n, block := block } }, false)

/-! ## The header block -/

/-- A 32-bit word read as a signed integer. -/
def toInt32 (w : Nat) : Int := if w < 2 ^ 31 then w else w - 2 ^ 32

/-- The 32-bit word that stores a signed integer. -/
def ofInt32 (v : Int) : Nat := (v % 2 ^ 32).toNat

/-- What `read_head` copies out of the header block. -/
def decodeHead (buf : Block) (lh : LogHeader) : LogHeader :=
  let n := toInt32 (wordAt buf 0)
  { n := n, block := fun i => if (i : Int) < n then wordAt buf (i + 1) else lh.block i }

/-- What `write_head` stores into the header block; the rest of the block stays. -/
def encodeHead (lh : LogHeader) (buf : Block) : Block :=
  (List.range lh.n.toNat).foldl (fun d i => setWord d (i + 1) (lh.block i)) (setWord buf 0 (ofInt32 lh.n))

/-! ## Buffers -/

/-- Kernel memory of the log: cached buffers, their pins, and the in-memory log. -/
structure Mem where
  cache : Nat → Option Block
  pins : Nat → Int
  log : Log

abbrev LogM := DiskM Mem Block

/-- `bread`: the contents of the buffer of block `b`, read from the disk if it is not cached. -/
def bread (b : Nat) : LogM Block := do
  let m ← getMem
  match m.cache b with
  | some data => pure data
  | none =>
    let data ← devRead b
    modifyMem fun m => { m with cache := update m.cache b (some data) }
    pure data

/-- Change the contents of the buffer of block `b`. -/
def setBuf (b : Nat) (data : Block) : LogM Unit :=
  modifyMem fun m => { m with cache := update m.cache b (some data) }

/-- `bwrite` of the buffer of block `b`, whose contents have just been set to `data`. -/
def bwrite (b : Nat) (data : Block) : LogM Unit := do
  setBuf b data
  devWrite b data

def bpin (b : Nat) : LogM Unit :=
  modifyMem fun m => { m with pins := update m.pins b (m.pins b + 1) }

def bunpin (b : Nat) : LogM Unit :=
  modifyMem fun m => { m with pins := update m.pins b (m.pins b - 1) }

/-- Replace the in-memory log. -/
def setLog (log : Log) : LogM Unit := modifyMem fun m => { m with log := log }

/-- `log.lh.block[i]`. -/
def lhBlock (i : Nat) : LogM Nat := do
  let m ← getMem
  if i < logBlocks then pure (m.log.lh.block i) else throw .wild

/-! ## Commit and recovery -/

def readHead : LogM Unit := do
  let m ← getMem
  let buf ← bread m.log.start
  let lh := decodeHead buf m.log.lh
  if lh.n > logBlocks then throw .wild
  else setLog { m.log with lh := lh }

def writeHead : LogM Unit := do
  let m ← getMem
  let buf ← bread m.log.start
  if m.log.lh.n > logBlocks then throw .wild
  else bwrite m.log.start (encodeHead m.log.lh buf)

/-- `if (!recovering) bunpin(dbuf)` of `install_trans`. -/
def unpinInstalled (recovering : Bool) (home : Nat) : LogM Unit :=
  if recovering then pure () else bunpin home

/-- The loop of `install_trans` at index `i`, with `k` iterations left. -/
def installTransLoop (recovering : Bool) : Nat → Nat → LogM Unit
  | 0, _ => pure ()
  | k + 1, i => do
      let m ← getMem
      let home ← lhBlock i
      let lbuf ← bread (m.log.start + i + 1)
      let _ ← bread home
      bwrite home lbuf
      unpinInstalled recovering home
      installTransLoop recovering k (i + 1)

def installTrans (recovering : Bool) : LogM Unit := do
  let m ← getMem
  installTransLoop recovering m.log.lh.n.toNat 0

/-- The loop of `write_log` at index `i`, with `k` iterations left. -/
def writeLogLoop : Nat → Nat → LogM Unit
  | 0, _ => pure ()
  | k + 1, i => do
      let m ← getMem
      let home ← lhBlock i
      let _ ← bread (m.log.start + i + 1)
      let src ← bread home
      bwrite (m.log.start + i + 1) src
      writeLogLoop k (i + 1)

def writeLog : LogM Unit := do
  let m ← getMem
  writeLogLoop m.log.lh.n.toNat 0

/-- `log.lh.n = 0`. -/
def clearN : LogM Unit :=
  modifyMem fun m => { m with log := { m.log with lh := { m.log.lh with n := 0 } } }

def recoverFromLog : LogM Unit := do
  readHead
  installTrans true
  clearN
  writeHead

def commit : LogM Unit := do
  let m ← getMem
  if m.log.lh.n = 0 then pure ()
  else do
    writeLog
    writeHead
    installTrans false
    clearN
    writeHead

/-- `initlog` with the log area of the superblock at `logstart`. -/
def initlog (logstart : Nat) : LogM Unit := do
  if 4 * (logBlocks + 1) ≥ bsize then throw (.panic "initlog: too big logheader")
  else do
    modifyMem fun m => { m with log := { m.log with start := logstart } }
    installTrans true

/-! ## Operations -/

def beginOp : LogM Unit := do
  let m ← getMem
  match m.log.tryBeginOp with
  | none => throw .asleep
  | some log => setLog log

def logWrite (b : Nat) : LogM Unit := do
  let m ← getMem
  match m.log.logWriteSection b with
  | .error msg => throw (.panic msg)
  | .ok (log, new) => do
      setLog log
      if new then bpin b else pure ()

def endOp : LogM Unit := do
  let m ← getMem
  match m.log.endOpSection with
  | .error msg => throw (.panic msg)
  | .ok (log, doCommit) => do
      setLog log
      if doCommit then do
        commit
        modifyMem fun m => { m with log := { m.log with committing := false } }
      else pure ()

/-- The zeroed memory of a freshly started kernel, with the log area at `start`. -/
def bootMem (start : Nat) : Mem where
  cache := fun _ => none
  pins := fun _ => 0
  log := { start := start, outstanding := 0, committing := false,
           lh := { n := 0, block := fun _ => 0 } }

/-- Blocks of the log area: the header and the `logBlocks` blocks after it. -/
def InLogArea (start b : Nat) : Prop := start ≤ b ∧ b ≤ start + logBlocks

instance (start b : Nat) : Decidable (InLogArea start b) := by
  unfold InLogArea
  infer_instance

end Xv6Lab.Logging
