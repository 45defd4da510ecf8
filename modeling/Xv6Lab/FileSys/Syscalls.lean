import Mathlib.Data.List.FinRange
import Xv6Lab.FileSys.Model

/-!
# Directories, paths and system calls

The upper half of `fs.c`, the file table of `file.c` and the system calls of `sysfile.c`. A name or a
path is the list of its characters without the terminating zero. A call of process `p` is named after
the source's and takes the arguments the user passed; a `goto` to a shared exit is a function of its
own. `kfork` and `kexit` are the parts of the two calls that touch the file system.
-/

namespace Xv6Lab.FileSys

open Function

/-- The characters of a name or a path. -/
abbrev Name := List UInt8

/-- The characters before the terminating zero. -/
def cstr (s : Name) : Name := s.takeWhile (· ≠ 0)

/-- The loop of `strncmp`; what follows the characters of a string is its zero. -/
def strncmp : Nat → Name → Name → Int
  | 0, _, _ => 0
  | n + 1, p, q =>
    if p.headD 0 ≠ 0 ∧ p.headD 0 = q.headD 0 then strncmp n p.tail q.tail
    else ((p.headD 0).toNat : Int) - ((q.headD 0).toNat : Int)

def namecmp (s t : Name) : Int := strncmp dirsiz s t

/-- `namecmp(s, t) == 0`. -/
def nameEq (s t : Name) : Bool := namecmp s t = 0

/-- The loops of `strncpy`. -/
def strncpyLoop : Nat → Name → Name
  | 0, _ => []
  | n + 1, t => t.headD 0 :: if t.headD 0 ≠ 0 then strncpyLoop n t.tail else List.replicate n 0

/-- `strncpy` of a name into a field of `DIRSIZ` characters. -/
def strncpy (name : Name) : Name := strncpyLoop dirsiz name

/-! ## Directories -/

/-- `struct dirent` as its bytes: the inode number in two, then the name. -/
def encodeDirent (inum : Nat) (name : Name) : Name :=
  UInt8.ofNat inum :: UInt8.ofNat (inum / 256) :: strncpy name

/-- The `inum` field of the bytes of an entry. -/
def direntInum (d : Name) : Nat := (d.getD 0 0).toNat + 256 * (d.getD 1 0).toNat

/-- The `name` field of the bytes of an entry. -/
def direntName (d : Name) : Name := d.drop 2

/-- `readi` of the entry at `off` into a kernel buffer; `msg` is the panic when it is not read
whole. -/
def readDirent (sb : Superblock) (dp off : Nat) (msg : String) : FsM Name := do
  let r ← readi sb dp none (UInt32.ofNat off) (UInt32.ofNat direntSize)
  if r.1 = direntSize then pure r.2 else throw (.panic msg)

/-- The loop over the entries from offset `off` on, in `dirlookup`, `dirlink` and `isdirempty`: where it ends, and the
entry that it stops at. `fuel` bounds the rounds by the size of the directory. -/
def scanDir (sb : Superblock) (dp : Nat) (msg : String) (stop : Name → Bool) : Nat → Nat → FsM (Nat × Option Name)
  | 0, off => pure (off, none)
  | fuel + 1, off => do
      let ip ← inode dp
      if off < ip.size then do
        let de ← readDirent sb dp off msg
        if stop de then pure (off, some de) else scanDir sb dp msg stop fuel (off + direntSize)
      else pure (off, none)

/-- `dirlookup`: the inode and the offset of its entry. -/
def dirlookup (sb : Superblock) (dp : Nat) (name : Name) : FsM (Option (Nat × Nat)) := do
  let ip ← inode dp
  if ip.type = .dir then do
    match ← scanDir sb dp "dirlookup read" (fun de => direntInum de ≠ 0 && nameEq name (direntName de))
        (ip.size / direntSize + 1) 0 with
    | (_, none) => pure none
    | (off, some de) => do
        let i ← iget (direntInum de)
        pure (some (i, off))
  else throw (.panic "dirlookup not DIR")

/-- A kernel buffer holding these bytes. -/
def kernelBuf (d : Name) : Source := { bytes := fun k => d.getD k 0, limit := none }

/-- `dirlink` of a name that is not there. -/
def dirlinkWrite (sb : Superblock) (dp : Nat) (name : Name) (inum : Nat) : FsM Bool := do
  let ip ← inode dp
  let (off, _) ← scanDir sb dp "dirlink read" (fun de => direntInum de = 0) (ip.size / direntSize + 1) 0
  let r ← writei sb dp (kernelBuf (encodeDirent inum name)) (UInt32.ofNat off) (UInt32.ofNat direntSize)
  pure (r = direntSize)

/-- `dirlink`: whether the entry was written. -/
def dirlink (sb : Superblock) (dp : Nat) (name : Name) (inum : Nat) : FsM Bool := do
  match ← dirlookup sb dp name with
  | some (ip, _) => do
      iput sb ip
      pure false
  | none => dirlinkWrite sb dp name inum

/-- `isdirempty`: nothing but the first two entries. -/
def isdirempty (sb : Superblock) (dp : Nat) : FsM Bool := do
  let ip ← inode dp
  let r ← scanDir sb dp "isdirempty: readi" (fun de => direntInum de ≠ 0) (ip.size / direntSize + 1) (2 * direntSize)
  pure r.2.isNone

/-! ## Paths -/

/-- The character `/`. -/
abbrev slash : UInt8 := 47

/-- `skipelem`: the next element, cut to `DIRSIZ` characters, and the path after it. -/
def skipelem (path : Name) : Option (Name × Name) :=
  let s := path.dropWhile (· = slash)
  if s = [] then none
  else some ((s.takeWhile (· ≠ slash)).take dirsiz, (s.dropWhile (· ≠ slash)).dropWhile (· = slash))

/-- The end of `namex`. -/
def namexEnd (sb : Superblock) (parent : Bool) (ip : Nat) : FsM (Option (Nat × Name)) :=
  if parent then do
    iput sb ip
    pure none
  else pure (some (ip, []))

/-- The loop of `namex`; each round takes an element off the path, so the length of the path bounds
the rounds. -/
def namexLoop (sb : Superblock) (parent : Bool) :
    Nat → Nat → Name → FsM (Option (Nat × Name))
  | 0, ip, _ => namexEnd sb parent ip
  | fuel + 1, ip, path =>
    match skipelem path with
    | none => namexEnd sb parent ip
    | some (name, rest) => do
        ilock sb ip
        let n ← inode ip
        if n.type ≠ .dir then do
          iput sb ip
          pure none
        else if parent = true ∧ rest = [] then pure (some (ip, name))
        else do
          match ← dirlookup sb ip name with
          | none => do
              iput sb ip
              pure none
          | some (next, _) => do
              iput sb ip
              namexLoop sb parent fuel next rest

/-- Where `namex` starts. -/
def namexStart (cwd : Nat) (path : Name) : FsM Nat :=
  if path.head? = some slash then iget rootino else idup cwd

/-- `namex` for a process in directory `cwd`. -/
def namex (sb : Superblock) (cwd : Nat) (path : Name) (parent : Bool) : FsM (Option (Nat × Name)) := do
  let ip ← namexStart cwd path
  namexLoop sb parent path.length ip path

def namei (sb : Superblock) (cwd : Nat) (path : Name) : FsM (Option (Nat × Name)) :=
  namex sb cwd path false

def nameiparent (sb : Superblock) (cwd : Nat) (path : Name) : FsM (Option (Nat × Name)) :=
  namex sb cwd path true

/-! ## Open files -/

def setFile (f : Fin nfile) (e : File) : FsM Unit :=
  modify fun s => { s with ftable := update s.ftable f e }

def setProc (p : Fin nproc) (e : Option Proc) : FsM Unit :=
  modify fun s => { s with procs := update s.procs p e }

/-- `filealloc`. -/
def filealloc : FsM (Option (Fin nfile)) := do
  let s ← get
  match (List.finRange nfile).find? fun f => (s.ftable f).ref = 0 with
  | none => pure none
  | some f => do
      setFile f { s.ftable f with ref := 1 }
      pure (some f)

/-- `filedup`. -/
def filedup (f : Fin nfile) : FsM Unit := do
  let s ← get
  if (s.ftable f).ref < 1 then throw (.panic "filedup")
  else setFile f { s.ftable f with ref := (s.ftable f).ref + 1 }

/-- `end_op` of the only transaction: the log is committed. -/
def endOp : FsM Unit := modify fun s => { s with logged := ∅ }

/-- `fileclose`; pipes are left out. -/
def fileclose (sb : Superblock) (f : Fin nfile) : FsM Unit := do
  let s ← get
  let e := s.ftable f
  if e.ref < 1 then throw (.panic "fileclose")
  else if 1 < e.ref then setFile f { e with ref := e.ref - 1 }
  else do
    setFile f { e with ref := 0, kind := .none }
    if e.kind = .inode ∨ e.kind = .device then do
      iput sb e.ip
      endOp
    else pure ()

/-- `fdalloc` for process `p`. -/
def fdalloc (p : Fin nproc) (pr : Proc) (f : Fin nfile) : FsM (Option (Fin nofile)) :=
  match (List.finRange nofile).find? fun fd => (pr.ofile fd).isNone with
  | none => pure none
  | some fd => do
      setProc p (some { pr with ofile := update pr.ofile fd (some f) })
      pure (some fd)

/-! ## System calls -/

/-- `argstr`: the path at the user's address, if it fits into `MAXPATH` characters. -/
def argstr (path : Name) : Option Name :=
  if (cstr path).length < maxpath then some (cstr path) else none

/-- The return value of a failed call. -/
def fail : FsM Int := do
  endOp
  pure (-1)

/-- `ip->nlink += d; iupdate(ip)`. -/
def addNlink (sb : Superblock) (i : Nat) (d : Int) : FsM Unit := do
  modifyInode i fun ip => { ip with nlink := toShort (ip.nlink + d) }
  iupdate sb i

/-- The exit `bad` of `sys_link`. -/
def sysLinkBad (sb : Superblock) (ip : Nat) : FsM Int := do
  ilock sb ip
  addNlink sb ip (-1)
  iput sb ip
  fail

/-- `sys_link` once the directory of the new name is locked. -/
def sysLinkEntry (sb : Superblock) (dp : Nat) (name : Name) (ip : Nat) : FsM Int := do
  if ← dirlink sb dp name ip then do
    iput sb dp
    iput sb ip
    endOp
    pure 0
  else do
    iput sb dp
    sysLinkBad sb ip

/-- `sys_link` once the link is counted. -/
def sysLinkCounted (sb : Superblock) (cwd : Nat) (new : Name) (ip : Nat) : FsM Int := do
  match ← nameiparent sb cwd new with
  | none => sysLinkBad sb ip
  | some (dp, name) => do
      ilock sb dp
      sysLinkEntry sb dp name ip

/-- `sys_link` of process `p`. -/
def sysLink (sb : Superblock) (cwd : Nat) (old new : Name) : FsM Int :=
  match argstr old, argstr new with
  | some old, some new => do
      match ← namei sb cwd old with
      | none => fail
      | some (ip, _) => do
          ilock sb ip
          let n ← inode ip
          if n.type = .dir then do
            iput sb ip
            fail
          else do
            addNlink sb ip 1
            sysLinkCounted sb cwd new ip
  | _, _ => pure (-1)

/-- The name `.`. -/
def dot : Name := [46]

/-- The name `..`. -/
def dotdot : Name := [46, 46]

/-- The exit `bad` of `sys_unlink`. -/
def sysUnlinkBad (sb : Superblock) (dp : Nat) : FsM Int := do
  iput sb dp
  fail

/-- The link of a removed directory's `..`. -/
def dropParentLink (sb : Superblock) (dp : Nat) (isDir : Bool) : FsM Unit :=
  if isDir then addNlink sb dp (-1) else pure ()

/-- `sys_unlink` from the erasing of the entry on. -/
def sysUnlinkEntry (sb : Superblock) (dp ip off : Nat) (isDir : Bool) : FsM Int := do
  let r ← writei sb dp (kernelBuf (List.replicate direntSize 0)) (UInt32.ofNat off) (UInt32.ofNat direntSize)
  if r ≠ direntSize then throw (.panic "unlink: writei")
  else do
    dropParentLink sb dp isDir
    iput sb dp
    addNlink sb ip (-1)
    iput sb ip
    endOp
    pure 0

/-- `sys_unlink` once the inode of the entry is locked. -/
def sysUnlinkFound (sb : Superblock) (dp ip off : Nat) : FsM Int := do
  let n ← inode ip
  if n.nlink < 1 then throw (.panic "unlink: nlink < 1")
  else if n.type = .dir then do
    if ← isdirempty sb ip then sysUnlinkEntry sb dp ip off true
    else do
      iput sb ip
      sysUnlinkBad sb dp
  else sysUnlinkEntry sb dp ip off false

/-- `sys_unlink`. -/
def sysUnlink (sb : Superblock) (cwd : Nat) (path : Name) : FsM Int :=
  match argstr path with
  | none => pure (-1)
  | some path => do
      match ← nameiparent sb cwd path with
      | none => fail
      | some (dp, name) => do
          ilock sb dp
          if nameEq name dot = true ∨ nameEq name dotdot = true then sysUnlinkBad sb dp
          else do
            match ← dirlookup sb dp name with
            | none => sysUnlinkBad sb dp
            | some (ip, off) => do
                ilock sb ip
                sysUnlinkFound sb dp ip off

/-- The exit `fail` of `create`. -/
def createFail (sb : Superblock) (dp ip : Nat) : FsM (Option Nat) := do
  modifyInode ip fun n => { n with nlink := 0 }
  iupdate sb ip
  iput sb ip
  iput sb dp
  pure none

/-- The entries of a new directory. -/
def linkDots (sb : Superblock) (dp ip : Nat) : FsM Bool := do
  if ← dirlink sb ip dot ip then dirlink sb ip dotdot dp else pure false

/-- The end of `create`: the entry, and the link of a new directory's `..`. -/
def createLink (sb : Superblock) (dp : Nat) (name : Name) (ip : Nat) (isDir : Bool) : FsM (Option Nat) := do
  if ← dirlink sb dp name ip then do
    (if isDir then addNlink sb dp 1 else pure ())
    iput sb dp
    pure (some ip)
  else createFail sb dp ip

/-- `create` once the new inode is there. -/
def createNew (sb : Superblock) (dp : Nat) (name : Name) (ip : Nat) (type : FileType)
    (major minor : Int) : FsM (Option Nat) := do
  ilock sb ip
  modifyInode ip fun n => { n with major := major, minor := minor, nlink := 1 }
  iupdate sb ip
  if type = .dir then do
    if ← linkDots sb dp ip then createLink sb dp name ip true else createFail sb dp ip
  else createLink sb dp name ip false

/-- `create` of a name that exists. -/
def createFound (sb : Superblock) (dp ip : Nat) (type : FileType) : FsM (Option Nat) := do
  iput sb dp
  ilock sb ip
  let n ← inode ip
  if type = .file ∧ (n.type = .file ∨ n.type = .device) then pure (some ip)
  else do
    iput sb ip
    pure none

/-- `create`: the inode is returned locked. -/
def create (sb : Superblock) (cwd : Nat) (path : Name) (type : FileType) (major minor : Int) : FsM (Option Nat) := do
  match ← nameiparent sb cwd path with
  | none => pure none
  | some (dp, name) => do
      ilock sb dp
      match ← dirlookup sb dp name with
      | some (ip, _) => createFound sb dp ip type
      | none => do
          match ← ialloc sb type with
          | none => do
              iput sb dp
              pure none
          | some ip => createNew sb dp name ip type major minor

/-- The flags of `open`. -/
structure OpenMode where
  wronly : Bool
  rdwr : Bool
  creat : Bool
  trunc : Bool
  deriving DecidableEq, Repr

/-- `omode == O_RDONLY`. -/
def OpenMode.isRdonly (o : OpenMode) : Bool := !o.wronly && !o.rdwr && !o.creat && !o.trunc

/-- `sys_open` once a descriptor is there. -/
def sysOpenFile (sb : Superblock) (ip : Nat) (o : OpenMode) (f : Fin nfile) (fd : Fin nofile) :
    FsM Int := do
  let s ← get
  let n := (s.icache ip).ip
  let e := s.ftable f
  let e := if n.type = .device then { e with kind := .device, major := n.major }
    else { e with kind := .inode, off := 0 }
  setFile f { e with ip := ip, readable := !o.wronly, writable := o.wronly || o.rdwr }
  if o.trunc = true ∧ n.type = .file then do
    itrunc sb ip
    endOp
    pure fd.val
  else do
    endOp
    pure fd.val

/-- `sys_open` once the inode is there and locked. -/
def sysOpenInode (sb : Superblock) (p : Fin nproc) (pr : Proc) (ip : Nat) (o : OpenMode) :
    FsM Int := do
  let n ← inode ip
  if n.type = .device ∧ (n.major < 0 ∨ (ndev : Int) ≤ n.major) then do
    iput sb ip
    fail
  else do
    match ← filealloc with
    | none => do
        iput sb ip
        fail
    | some f => do
        match ← fdalloc p pr f with
        | none => do
            fileclose sb f
            iput sb ip
            fail
        | some fd => sysOpenFile sb ip o f fd

/-- `sys_open`. -/
def sysOpen (sb : Superblock) (p : Fin nproc) (pr : Proc) (path : Name) (o : OpenMode) : FsM Int :=
  match argstr path with
  | none => pure (-1)
  | some path =>
    if o.creat then do
      match ← create sb pr.cwd path .file 0 0 with
      | none => fail
      | some ip => sysOpenInode sb p pr ip o
    else do
      match ← namei sb pr.cwd path with
      | none => fail
      | some (ip, _) => do
          ilock sb ip
          let n ← inode ip
          if n.type = .dir ∧ o.isRdonly = false then do
            iput sb ip
            fail
          else sysOpenInode sb p pr ip o

/-- `sys_mkdir` and `sys_mknod`. -/
def sysMake (sb : Superblock) (cwd : Nat) (path : Name) (type : FileType) (major minor : Int) : FsM Int :=
  match argstr path with
  | none => fail
  | some path => do
      match ← create sb cwd path type major minor with
      | none => fail
      | some ip => do
          iput sb ip
          endOp
          pure 0

def sysMkdir (sb : Superblock) (cwd : Nat) (path : Name) : FsM Int := sysMake sb cwd path .dir 0 0

def sysMknod (sb : Superblock) (cwd : Nat) (path : Name) (major minor : Int) : FsM Int :=
  sysMake sb cwd path .device (toShort major) (toShort minor)

/-- `sys_chdir`. -/
def sysChdir (sb : Superblock) (p : Fin nproc) (pr : Proc) (path : Name) : FsM Int :=
  match argstr path with
  | none => fail
  | some path => do
      match ← namei sb pr.cwd path with
      | none => fail
      | some (ip, _) => do
          ilock sb ip
          let n ← inode ip
          if n.type ≠ .dir then do
            iput sb ip
            fail
          else do
            iput sb pr.cwd
            endOp
            setProc p (some { pr with cwd := ip })
            pure 0

/-- `sys_close`. -/
def sysClose (sb : Superblock) (p : Fin nproc) (pr : Proc) (fd : Fin nofile) : FsM Int :=
  match pr.ofile fd with
  | none => pure (-1)
  | some f => do
      setProc p (some { pr with ofile := update pr.ofile fd none })
      fileclose sb f
      pure 0

/-- `kfork` duplicates every open file. -/
def dupFiles (pr : Proc) : List (Fin nofile) → FsM Unit
  | [] => pure ()
  | fd :: fds =>
    match pr.ofile fd with
    | none => dupFiles pr fds
    | some f => do
        filedup f
        dupFiles pr fds

/-- `kfork` of a process into the free process slot `q`. -/
def kfork (pr : Proc) (q : Fin nproc) : FsM Unit := do
  dupFiles pr (List.finRange nofile)
  let cwd ← idup pr.cwd
  setProc q (some { pr with cwd := cwd })

/-- `kexit` closes every open file. -/
def closeFiles (sb : Superblock) (p : Fin nproc) : List (Fin nofile) → Proc → FsM Proc
  | [], pr => pure pr
  | fd :: fds, pr =>
    match pr.ofile fd with
    | none => closeFiles sb p fds pr
    | some f => do
        fileclose sb f
        let pr := { pr with ofile := update pr.ofile fd none }
        setProc p (some pr)
        closeFiles sb p fds pr

/-- `kexit`. -/
def kexit (sb : Superblock) (p : Fin nproc) (pr : Proc) : FsM Unit := do
  let pr ← closeFiles sb p (List.finRange nofile) pr
  iput sb pr.cwd
  endOp
  setProc p none

end Xv6Lab.FileSys
