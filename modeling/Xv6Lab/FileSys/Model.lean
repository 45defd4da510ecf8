import Mathlib.Data.Finset.Card
import Xv6Lab.Params
import Xv6Lab.Lib.Words
import Xv6Lab.Lib.Exec

/-!
# Blocks and inodes

The file system as `fs.c` sees it: system calls run one at a time, the buffer cache and the log show
it every block as last written. The disk is split along the superblock into the free map, one bit
for each block, the inode area, one `Dinode` for each inode number, and the blocks; the layers above
keep file data out of the blocks that hold the first two. The table of in-memory inodes is a map from
inode numbers: an entry is in use while its reference count is positive, and `used` counts those
entries. A pointer to an in-memory inode is its inode number.

A panic is an error with its message. Reading an inode whose number lies outside the inode area is
`Stop.wild`: the code would then take another block for inodes.
-/

namespace Xv6Lab.FileSys

open Function Lib.Words

/-! ## State -/

/-- The `type` of an inode; `free` is 0. -/
inductive FileType where
  | free
  | dir
  | file
  | device
  deriving DecidableEq, Repr

/-- The superblock fields that the modelled code reads. The data blocks are the last `nblocks` of
the disk, and the boot block is not one of them. -/
structure Superblock where
  size : Nat
  nblocks : Nat
  ninodes : Nat
  inodestart : Nat
  bmapstart : Nat
  nblocks_lt : nblocks < size
  size_lt : size < 2 ^ 32

/-- An inode: on disk, and the copy of it in memory. -/
structure Dinode where
  type : FileType
  major : Int
  minor : Int
  nlink : Int
  size : Nat
  addrs : Nat → Nat

/-- An entry of the inode table. -/
structure MemInode where
  ref : Nat
  valid : Bool
  ip : Dinode

/-- The `type` of an open file. -/
inductive FileKind where
  | none
  | pipe
  | inode
  | device
  deriving DecidableEq, Repr

/-- An entry of the file table. -/
structure File where
  kind : FileKind
  ref : Nat
  readable : Bool
  writable : Bool
  ip : Nat
  off : Nat
  major : Int

/-- What a process holds of the file system. -/
structure Proc where
  cwd : Nat
  ofile : Fin nofile → Option (Fin nfile)

structure Fs where
  bitmap : Nat → Bool
  dinode : Nat → Dinode
  block : Nat → Block
  icache : Nat → MemInode
  used : Nat
  /-- The blocks in the log header of the open transaction. -/
  logged : Finset Nat
  ftable : Fin nfile → File
  procs : Fin nproc → Option Proc

/-- Why a call does not return. -/
inductive Stop where
  | panic (msg : String)
  | wild
  deriving DecidableEq, Repr

abbrev FsM := EStateM Stop Fs

/-- `BBLOCK`. -/
def bblock (sb : Superblock) (b : Nat) : Nat := b / bpb + sb.bmapstart

/-- `IBLOCK`. -/
def iblock (sb : Superblock) (i : Nat) : Nat := i / ipb + sb.inodestart

/-- The first data block. -/
def Superblock.dataStart (sb : Superblock) : Nat := sb.size - sb.nblocks

/-- Store into a `short`. -/
def toShort (z : Int) : Int := Int.bmod z 65536

/-! ## Blocks -/

/-- `log_write` of block `b`; a block that is already in the log is absorbed. -/
def logWrite (b : Nat) : FsM Unit := do
  let s ← get
  if logBlocks ≤ s.logged.card then throw (.panic "too big transaction")
  else set { s with logged := insert b s.logged }

/-- `bread`. -/
def bread (b : Nat) : FsM Block := do
  let s ← get
  pure (s.block b)

/-- Change the buffer of block `b`. -/
def setBlock (b : Nat) (d : Block) : FsM Unit :=
  modify fun s => { s with block := update s.block b d }

def setBit (b : Nat) (v : Bool) : FsM Unit :=
  modify fun s => { s with bitmap := update s.bitmap b v }

/-- `bzero`. -/
def bzero (b : Nat) : FsM Unit := do
  setBlock b fun _ => 0
  logWrite b

/-- The two loops of `balloc`: `k` blocks are left to look at, the next is `b`. -/
def ballocLoop (sb : Superblock) : Nat → Nat → FsM Nat
  | 0, _ => pure 0
  | k + 1, b => do
      let s ← get
      if s.bitmap b = false then do
        setBit b true
        logWrite (bblock sb b)
        bzero b
        pure b
      else ballocLoop sb k (b + 1)

/-- `balloc`: 0 when the disk is full. -/
def balloc (sb : Superblock) : FsM Nat := ballocLoop sb sb.size 0

def bfree (sb : Superblock) (b : Nat) : FsM Unit := do
  let s ← get
  if s.bitmap b = false then throw (.panic "freeing free block")
  else do
    setBit b false
    logWrite (bblock sb b)

/-! ## The inode table -/

/-- The in-memory copy of inode `i`. -/
def inode (i : Nat) : FsM Dinode := do
  let s ← get
  pure (s.icache i).ip

def setEntry (i : Nat) (e : MemInode) : FsM Unit :=
  modify fun s => { s with icache := update s.icache i e }

/-- Change fields of the in-memory copy. -/
def modifyInode (i : Nat) (f : Dinode → Dinode) : FsM Unit :=
  modify fun s => { s with
    icache := update s.icache i { s.icache i with ip := f (s.icache i).ip } }

def setDinode (i : Nat) (d : Dinode) : FsM Unit :=
  modify fun s => { s with dinode := update s.dinode i d }

/-- `iget`; a recycled entry is not valid. -/
def iget (i : Nat) : FsM Nat := do
  let s ← get
  if 0 < (s.icache i).ref then do
    setEntry i { s.icache i with ref := (s.icache i).ref + 1 }
    pure i
  else if ninode ≤ s.used then throw (.panic "iget: no inodes")
  else do
    setEntry i { s.icache i with ref := 1, valid := false }
    modify fun s => { s with used := s.used + 1 }
    pure i

def idup (i : Nat) : FsM Nat := do
  let s ← get
  setEntry i { s.icache i with ref := (s.icache i).ref + 1 }
  pure i

/-- The loop of `ialloc`: `k` inodes are left to look at, the next is `inum`. -/
def iallocLoop (sb : Superblock) (type : FileType) : Nat → Nat → FsM (Option Nat)
  | 0, _ => pure none
  | k + 1, inum => do
      let s ← get
      if (s.dinode inum).type = .free then do
        setDinode inum { type := type, major := 0, minor := 0, nlink := 0, size := 0, addrs := fun _ => 0 }
        logWrite (iblock sb inum)
        let i ← iget inum
        pure (some i)
      else iallocLoop sb type k (inum + 1)

def ialloc (sb : Superblock) (type : FileType) : FsM (Option Nat) :=
  iallocLoop sb type (sb.ninodes - 1) 1

/-- `iupdate`: copy the in-memory inode to the disk. -/
def iupdate (sb : Superblock) (i : Nat) : FsM Unit := do
  let ip ← inode i
  setDinode i ip
  logWrite (iblock sb i)

/-- `ilock`, but for the sleep-lock. -/
def ilock (sb : Superblock) (i : Nat) : FsM Unit := do
  let s ← get
  if (s.icache i).ref < 1 then throw (.panic "ilock")
  else if (s.icache i).valid then pure ()
  else if sb.ninodes ≤ i then throw .wild
  else do
    setEntry i { s.icache i with valid := true, ip := s.dinode i }
    if (s.dinode i).type = .free then throw (.panic "ilock: no type") else pure ()

/-! ## Inode content -/

/-- Block `bn` of the inode's indirect block `addr`, allocated if need be. -/
def bmapIndirect (sb : Superblock) (addr bn : Nat) : FsM Nat := do
  let a ← bread addr
  if wordAt a bn = 0 then do
    let new ← balloc sb
    if new = 0 then pure 0
    else do
      let a ← bread addr
      setBlock addr (setWord a bn new)
      logWrite addr
      pure new
  else pure (wordAt a bn)

/-- Load `ip->addrs[k]`, allocating the block if necessary. -/
def loadAddr (sb : Superblock) (i k : Nat) : FsM Nat := do
  let ip ← inode i
  if ip.addrs k = 0 then do
    let addr ← balloc sb
    if addr = 0 then pure 0
    else do
      modifyInode i fun ip => { ip with addrs := update ip.addrs k addr }
      pure addr
  else pure (ip.addrs k)

/-- `bmap`: the disk block of block `bn` of inode `i`, 0 if the disk is full. -/
def bmap (sb : Superblock) (i bn : Nat) : FsM Nat :=
  if bn < ndirect then loadAddr sb i bn
  else if bn - ndirect < nindirect then do
    let addr ← loadAddr sb i ndirect
    if addr = 0 then pure 0 else bmapIndirect sb addr (bn - ndirect)
  else throw (.panic "bmap: out of range")

/-- Free the direct blocks from `k` on, `m` of them. -/
def itruncDirect (sb : Superblock) (i : Nat) : Nat → Nat → FsM Unit
  | 0, _ => pure ()
  | m + 1, k => do
      let ip ← inode i
      if ip.addrs k = 0 then itruncDirect sb i m (k + 1)
      else do
        bfree sb (ip.addrs k)
        modifyInode i fun ip => { ip with addrs := update ip.addrs k 0 }
        itruncDirect sb i m (k + 1)

/-- Free the blocks listed in the indirect block `a` from entry `j` on, `m` of them. -/
def itruncIndirect (sb : Superblock) (a : Block) : Nat → Nat → FsM Unit
  | 0, _ => pure ()
  | m + 1, j =>
    if wordAt a j = 0 then itruncIndirect sb a m (j + 1)
    else do
      bfree sb (wordAt a j)
      itruncIndirect sb a m (j + 1)

/-- The end of `itrunc`. -/
def itruncSize (sb : Superblock) (i : Nat) : FsM Unit := do
  modifyInode i fun ip => { ip with size := 0 }
  iupdate sb i

def itrunc (sb : Superblock) (i : Nat) : FsM Unit := do
  itruncDirect sb i ndirect 0
  let ip ← inode i
  if ip.addrs ndirect = 0 then itruncSize sb i
  else do
    let a ← bread (ip.addrs ndirect)
    itruncIndirect sb a nindirect 0
    bfree sb (ip.addrs ndirect)
    modifyInode i fun ip => { ip with addrs := update ip.addrs ndirect 0 }
    itruncSize sb i

/-- The last line of `iput`; an entry without references is out of the table. -/
def iputRef (i : Nat) : FsM Unit := do
  let s ← get
  let e := s.icache i
  if e.ref = 1 then do
    setEntry i { e with ref := 0, valid := false }
    modify fun s => { s with used := s.used - 1 }
  else setEntry i { e with ref := e.ref - 1 }

/-- `iput`: drop a reference; the last one to an inode without links frees it. -/
def iput (sb : Superblock) (i : Nat) : FsM Unit := do
  let s ← get
  let e := s.icache i
  if e.ref = 1 ∧ e.valid = true ∧ e.ip.nlink = 0 then do
    itrunc sb i
    modifyInode i fun ip => { ip with type := .free }
    iupdate sb i
    iputRef i
  else iputRef i

/-- Where `readi` copies to: a user address with so many writable bytes, or a kernel address. -/
abbrev Dest := Option Nat

/-- Where `writei` copies from: a user address with so many readable bytes, or a kernel address. -/
structure Source where
  bytes : Nat → UInt8
  limit : Option Nat

/-- How many of `m` bytes from position `tot` on can be copied. -/
def copyable (limit : Option Nat) (tot m : Nat) : Nat :=
  match limit with
  | none => m
  | some l => min m (l - tot)

/-- The bytes of a block from `start` on, `m` of them. -/
def slice (d : Block) (start m : Nat) : List UInt8 :=
  (List.range m).map fun k => UInt8.ofNat (byteAt d (start + k))

/-- A block with `m` bytes from `start` on replaced. -/
def overwrite (d : Block) (start m : Nat) (bytes : Nat → UInt8) : Block := fun k =>
  if start ≤ k.val ∧ k.val < start + m then bytes (k.val - start) else d k

/-- The loop of `readi`; `tot` grows in every round, so `n` rounds are enough. -/
def readiLoop (sb : Superblock) (i : Nat) (dst : Dest) :
    Nat → Nat → Nat → Nat → List UInt8 → FsM (Int × List UInt8)
  | 0, tot, _, _, acc => pure (tot, acc)
  | fuel + 1, tot, off, n, acc =>
    if tot < n then do
      let addr ← bmap sb i (off / bsize)
      if addr = 0 then pure (tot, acc)
      else do
        let d ← bread addr
        let m := min (n - tot) (bsize - off % bsize)
        if copyable dst tot m < m then pure (-1, acc ++ slice d (off % bsize) (copyable dst tot m))
        else readiLoop sb i dst fuel (tot + m) (off + m) n (acc ++ slice d (off % bsize) m)
    else pure (tot, acc)

/-- `readi`: the return value and the bytes copied out, those before a fault included. -/
def readi (sb : Superblock) (i : Nat) (dst : Dest) (off n : UInt32) : FsM (Int × List UInt8) := do
  let ip ← inode i
  if ip.size < off.toNat ∨ off + n < off then pure (0, [])
  else
    let n' := if ip.size < (off + n).toNat then ip.size - off.toNat else n.toNat
    readiLoop sb i dst n' 0 off.toNat n' []

/-- The loop of `writei`: the final `tot` and `off`. A failed copy leaves the bytes before the fault
in the buffer. -/
def writeiLoop (sb : Superblock) (i : Nat) (src : Source) :
    Nat → Nat → Nat → Nat → FsM (Nat × Nat)
  | 0, tot, off, _ => pure (tot, off)
  | fuel + 1, tot, off, n =>
    if tot < n then do
      let addr ← bmap sb i (off / bsize)
      if addr = 0 then pure (tot, off)
      else do
        let d ← bread addr
        let m := min (n - tot) (bsize - off % bsize)
        let c := copyable src.limit tot m
        setBlock addr (overwrite d (off % bsize) c fun k => src.bytes (tot + k))
        if c < m then pure (tot, off)
        else do
          logWrite addr
          writeiLoop sb i src fuel (tot + m) (off + m) n
    else pure (tot, off)

/-- `writei`: the number of bytes written, or -1. -/
def writei (sb : Superblock) (i : Nat) (src : Source) (off n : UInt32) : FsM Int := do
  let ip ← inode i
  if ip.size < off.toNat ∨ off + n < off then pure (-1)
  else if maxfile * bsize < (off + n).toNat then pure (-1)
  else do
    let r ← writeiLoop sb i src n.toNat 0 off.toNat n.toNat
    modifyInode i fun ip => { ip with size := if ip.size < r.2 then r.2 else ip.size }
    iupdate sb i
    pure r.1

end Xv6Lab.FileSys
