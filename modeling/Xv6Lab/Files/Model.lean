import Mathlib.Data.List.FinRange
import Xv6Lab.FileSys.Model
import Xv6Lab.Process.Model

/-!
# Open files and descriptors

The file table, the descriptors of every process and the ends of the pipes, as `file.c`, `sysfile.c`, `pipe.c`,
`sysproc_custom.c` and `proc.c` use them. System calls run one after the other; what they do to an entry of the
process table is what `Process.Model` says. What the layers below answer is an argument of a call: the locked inode
that `create` or `namei` found, the page that `kalloc` returned and whether there was memory for a process, whether
`copyout` could write.

A reference to an inode and an end of a pipe are resources: they are numbered when a call acquires them and
noted when they are given back. The numbers and both lists are not in the code.
-/

namespace Xv6Lab.Files

open Function

open Xv6Lab.FileSys (FileKind FileType)
open Xv6Lab.Process (Proc adoptAll)
open Lib.Exec (after)

/-! ## State -/

/-- What an open file stands for: an end of the pipe in a page, or a reference to an inode. -/
inductive Resource where
  | pipeEnd (pi : Nat) (writable : Bool)
  | inode (ip : Nat)
  deriving DecidableEq, Repr

/-- A resource and the number of its acquisition. -/
abbrev Token := Nat × Resource

/-- An entry of the file table; `opening` is the number of the resource it stands for. -/
structure File extends FileSys.File where
  pipe : Nat
  opening : Nat

/-- The fields of `struct pipe` that say which ends are open. -/
structure PipeEnds where
  readopen : Bool
  writeopen : Bool
  deriving DecidableEq, Repr

structure State where
  file : Fin nfile → File
  ofile : Fin nproc → Fin nofile → Option (Fin nfile)
  proc : Fin nproc → Proc
  nextpid : Int
  /-- The pipe in a page; `none` if the page holds no pipe. -/
  pipe : Nat → Option PipeEnds
  acquired : List Token
  released : List Token

/-- Why a call does not return: a panic, or an access to a pipe that is not there. -/
inductive Stop where
  | panic (msg : String)
  | freed
  deriving DecidableEq, Repr

abbrev FileM := EStateM Stop State

def setFile (f : Fin nfile) (e : File) : FileM Unit :=
  modify fun s => { s with file := update s.file f e }

/-- `p->ofile[fd] = f`. -/
def setOfile (p : Fin nproc) (fd : Fin nofile) (f : Option (Fin nfile)) : FileM Unit :=
  modify fun s => { s with ofile := update s.ofile p (update (s.ofile p) fd f) }

def modifyProc (p : Fin nproc) (f : Proc → Proc) : FileM Unit :=
  modify fun s => { s with proc := update s.proc p (f (s.proc p)) }

def setPipe (pi : Nat) (e : Option PipeEnds) : FileM Unit :=
  modify fun s => { s with pipe := update s.pipe pi e }

/-- Note a new resource. -/
def acquire (r : Resource) : FileM Nat := do
  let s ← get
  set { s with acquired := (s.acquired.length, r) :: s.acquired }
  pure s.acquired.length

/-- Note that a resource is given back. -/
def release (k : Token) : FileM Unit :=
  modify fun s => { s with released := k :: s.released }

/-! ## The file table -/

/-- `filealloc`: the first entry of `file_find_free` without a reference. -/
def filealloc : FileM (Option (Fin nfile)) := do
  let s ← get
  match (List.finRange nfile).find? fun f => (s.file f).ref = 0 with
  | none => pure none
  | some f => do
      setFile f { s.file f with ref := 1 }
      pure (some f)

/-- `filedup`. -/
def filedup (f : Fin nfile) : FileM Unit := do
  let s ← get
  if (s.file f).ref < 1 then throw (.panic "filedup")
  else setFile f { s.file f with ref := (s.file f).ref + 1 }

/-- The fields of a pipe after one end is closed. -/
def PipeEnds.close (e : PipeEnds) (writable : Bool) : PipeEnds :=
  if writable then { e with writeopen := false } else { e with readopen := false }

/-- What is left of a pipe: its page goes to `kfree` when no end is open. -/
def PipeEnds.rest (e : PipeEnds) : Option PipeEnds :=
  if e.readopen = false ∧ e.writeopen = false then none else some e

/-- `pipeclose`. -/
def pipeclose (pi : Nat) (writable : Bool) (opening : Nat) : FileM Unit := do
  let s ← get
  match s.pipe pi with
  | none => throw .freed
  | some e => do
      setPipe pi (e.close writable).rest
      release (opening, .pipeEnd pi writable)

/-- `iput`, as far as the file table is concerned. -/
def iput (ip opening : Nat) : FileM Unit := release (opening, .inode ip)

/-- `fileclose`. -/
def fileclose (f : Fin nfile) : FileM Unit := do
  let s ← get
  let ff := s.file f
  if ff.ref < 1 then throw (.panic "fileclose")
  else if 0 < ff.ref - 1 then setFile f { ff with ref := ff.ref - 1 }
  else do
    setFile f { ff with ref := 0, kind := .none }
    if ff.kind = .pipe then pipeclose ff.pipe ff.writable ff.opening
    else if ff.kind = .inode ∨ ff.kind = .device then iput ff.ip ff.opening
    else pure ()

/-! ## Descriptors -/

/-- `argfd`: the descriptor and its open file. -/
def argfd (s : State) (p : Fin nproc) (fd : Int) : Option (Fin nofile × Fin nfile) :=
  if h : 0 ≤ fd ∧ fd.toNat < nofile then (s.ofile p ⟨fd.toNat, h.2⟩).map fun f => (⟨fd.toNat, h.2⟩, f)
  else none

/-- `fdalloc`. -/
def fdalloc (p : Fin nproc) (f : Fin nfile) : FileM (Option (Fin nofile)) := do
  let s ← get
  match (List.finRange nofile).find? fun fd => (s.ofile p fd).isNone with
  | none => pure none
  | some fd => do
      setOfile p fd (some f)
      pure (some fd)

/-- `sys_dup`. -/
def sysDup (p : Fin nproc) (fd : Int) : FileM Int := do
  match argfd (← get) p fd with
  | none => pure (-1)
  | some (_, f) => do
      match ← fdalloc p f with
      | none => pure (-1)
      | some fd => do
          filedup f
          pure fd.val

/-- `sys_close`. -/
def sysClose (p : Fin nproc) (fd : Int) : FileM Int := do
  match argfd (← get) p fd with
  | none => pure (-1)
  | some (fd, f) => do
      setOfile p fd none
      fileclose f
      pure 0

/-! ## Opening files -/

abbrev oRdonly : BitVec 32 := 0x000

abbrev oWronly : BitVec 32 := 0x001

abbrev oRdwr : BitVec 32 := 0x002

abbrev oCreate : BitVec 32 := 0x200

/-- The locked inode that `create` or `namei` found, with the fields `sys_open` reads. -/
structure Found where
  ip : Nat
  type : FileType
  major : Int

/-- The entry for an inode that is open now. -/
def File.openInode (e : File) (ip : Found) (omode : BitVec 32) (opening : Nat) : File :=
  let e := if ip.type = .device then { e with kind := .device, major := ip.major }
    else { e with kind := .inode, off := 0 }
  { e with
    ip := ip.ip
    readable := decide (omode &&& oWronly = 0)
    writable := decide (omode &&& oWronly ≠ 0 ∨ omode &&& oRdwr ≠ 0)
    opening := opening }

/-- `sys_open`. Nothing is found if the path cannot be fetched or `create` or `namei` fails. -/
def sysOpen (p : Fin nproc) (omode : BitVec 32) (found : Option Found) : FileM Int :=
  match found with
  | none => pure (-1)
  | some ip => do
      let opening ← acquire (.inode ip.ip)
      if omode &&& oCreate = 0 ∧ ip.type = .dir ∧ omode ≠ oRdonly then do
        iput ip.ip opening
        pure (-1)
      else if ip.type = .device ∧ (ip.major < 0 ∨ (ndev : Int) ≤ ip.major) then do
        iput ip.ip opening
        pure (-1)
      else do
        match ← filealloc with
        | none => do
            iput ip.ip opening
            pure (-1)
        | some f => do
            match ← fdalloc p f with
            | none => do
                fileclose f
                iput ip.ip opening
                pure (-1)
            | some fd => do
                let s ← get
                setFile f ((s.file f).openInode ip omode opening)
                pure fd.val

/-! ## Pipes -/

/-- `kalloc` returns 0 or a page that is not in use; of the pages in use only those of pipes are known here. -/
def kalloc (page : Option Nat) (s : State) : Option Nat := page.filter fun pi => (s.pipe pi).isNone

/-- Make the entry `f` an end of the pipe `pi`. -/
def setEnd (f : Fin nfile) (pi : Nat) (writable : Bool) : FileM Unit := do
  let opening ← acquire (.pipeEnd pi writable)
  let s ← get
  setFile f { s.file f with
    kind := .pipe, readable := !writable, writable := writable, pipe := pi, opening := opening }

/-- `pipealloc`. -/
def pipealloc (page : Option Nat) : FileM (Option (Fin nfile × Fin nfile)) := do
  match ← filealloc with
  | none => pure none
  | some f0 => do
      match ← filealloc with
      | none => do
          fileclose f0
          pure none
      | some f1 => do
          match kalloc page (← get) with
          | none => do
              fileclose f0
              fileclose f1
              pure none
          | some pi => do
              setPipe pi (some ⟨true, true⟩)
              setEnd f0 pi false
              setEnd f1 pi true
              pure (some (f0, f1))

/-- What the layers below answer to a call that makes a pipe. -/
structure PipeEnv where
  page : Option Nat
  copyout0 : Bool
  copyout1 : Bool

/-- The common text of `sys_pipe` and `sys_pipe2`. -/
def pipeCall (p : Fin nproc) (env : PipeEnv) : FileM Int := do
  match ← pipealloc env.page with
  | none => pure (-1)
  | some (rf, wf) => do
      match ← fdalloc p rf with
      | none => do
          fileclose rf
          fileclose wf
          pure (-1)
      | some fd0 => do
          match ← fdalloc p wf with
          | none => do
              setOfile p fd0 none
              fileclose rf
              fileclose wf
              pure (-1)
          | some fd1 =>
            if env.copyout0 = false ∨ env.copyout1 = false then do
              setOfile p fd0 none
              setOfile p fd1 none
              fileclose rf
              fileclose wf
              pure (-1)
            else pure 0

/-- `sys_pipe`. -/
def sysPipe (p : Fin nproc) (env : PipeEnv) : FileM Int := pipeCall p env

/-- `sys_pipe2`; the flags are fetched and have no effect. -/
def sysPipe2 (p : Fin nproc) (env : PipeEnv) (_flags : BitVec 32) : FileM Int := pipeCall p env

/-! ## Processes -/

/-- What the memory layer answers to a call that makes a process: whether `allocproc` gets its pages, and
whether `uvmcopy` succeeds. -/
structure ForkEnv where
  alloc : Bool
  copy : Bool

/-- `freeproc`, as far as files are concerned: it leaves the descriptors. -/
def freeproc (q : Fin nproc) : FileM Unit := modifyProc q Proc.free

/-- `allocproc`. -/
def allocproc (env : ForkEnv) : FileM (Option (Fin nproc)) := do
  let s ← get
  match (List.finRange nproc).find? fun q => (s.proc q).state = .unused with
  | none => pure none
  | some q => do
      set { s with proc := update s.proc q ((s.proc q).alloc s.nextpid), nextpid := s.nextpid + 1 }
      if env.alloc = false then do
        freeproc q
        pure none
      else pure (some q)

/-- The loop of `kfork` and `sys_thread_create` over the descriptors of the parent. -/
def dupFiles (p np : Fin nproc) : List (Fin nofile) → FileM Unit
  | [] => pure ()
  | fd :: fds => do
      let s ← get
      match s.ofile p fd with
      | none => dupFiles p np fds
      | some f => do
          filedup f
          setOfile np fd (some f)
          dupFiles p np fds

/-- The common text of `kfork` and `sys_thread_create`; the result is the new entry. -/
def spawn (p : Fin nproc) (env : ForkEnv) : FileM (Option (Fin nproc)) := do
  match ← allocproc env with
  | none => pure none
  | some np =>
    if env.copy = false then do
      freeproc np
      pure none
    else do
      dupFiles p np (List.finRange nofile)
      modifyProc np fun x => { x with parent := some p, state := .runnable }
      pure (some np)

/-- `kfork`. -/
def kfork (p : Fin nproc) (env : ForkEnv) : FileM (Option (Fin nproc)) := spawn p env

/-- `sys_thread_create`. -/
def sysThreadCreate (p : Fin nproc) (stack : BitVec 64) (env : ForkEnv) : FileM (Option (Fin nproc)) :=
  if stack = 0 then pure none else spawn p env

/-- The loop of `kexit` over the descriptors: a file is closed before its descriptor is cleared. -/
def closeFiles (p : Fin nproc) : List (Fin nofile) → FileM Unit
  | [] => pure ()
  | fd :: fds => do
      let s ← get
      match s.ofile p fd with
      | none => closeFiles p fds
      | some f => do
          fileclose f
          setOfile p fd none
          closeFiles p fds

/-- `kexit`. -/
def kexit (initproc p : Fin nproc) (status : Int) : FileM Unit :=
  if p = initproc then throw (.panic "init exiting")
  else do
    closeFiles p (List.finRange nofile)
    modify fun s => { s with proc := adoptAll initproc p s.proc }
    modifyProc p (Proc.kexit · status)

/-- `kwait` of the parent of a zombie: `freeproc`. -/
def kwait (p q : Fin nproc) : FileM Unit := do
  let s ← get
  if (s.proc q).parent = some p ∧ (s.proc q).state = .zombie then freeproc q else pure ()

/-! ## Runs -/

inductive Call where
  | sysOpen (omode : BitVec 32) (found : Option Found)
  | sysPipe (env : PipeEnv)
  | sysPipe2 (env : PipeEnv) (flags : BitVec 32)
  | sysDup (fd : Int)
  | sysClose (fd : Int)
  | kfork (env : ForkEnv)
  | sysThreadCreate (stack : BitVec 64) (env : ForkEnv)
  | kexit (status : Int)
  | kwait (q : Fin nproc)

def Call.prog (initproc p : Fin nproc) : Call → FileM Unit
  | .sysOpen omode found => do discard <| Files.sysOpen p omode found
  | .sysPipe env => do discard <| Files.sysPipe p env
  | .sysPipe2 env flags => do discard <| Files.sysPipe2 p env flags
  | .sysDup fd => do discard <| Files.sysDup p fd
  | .sysClose fd => do discard <| Files.sysClose p fd
  | .kfork env => do discard <| Files.kfork p env
  | .sysThreadCreate stack env => do discard <| Files.sysThreadCreate p stack env
  | .kexit status => Files.kexit initproc p status
  | .kwait q => Files.kwait p q

/-- The entries that run system calls. -/
def Live (s : State) (p : Fin nproc) : Prop := (s.proc p).state ≠ .unused ∧ (s.proc p).state ≠ .zombie

instance decidableLive (s : State) (p : Fin nproc) : Decidable (Live s p) := inferInstanceAs (Decidable (_ ∧ _))

/-- A whole system call of process `p`. -/
def next (initproc : Fin nproc) (s : State) (a : Fin nproc × Call) : Option State :=
  if Live s a.1 then after (a.2.prog initproc a.1) s else none

def File.zero : File where
  kind := .none
  ref := 0
  readable := false
  writable := false
  ip := 0
  off := 0
  major := 0
  pipe := 0
  opening := 0

/-- The state after `userinit`. -/
def bootFiles (initproc : Fin nproc) : State where
  file := fun _ => .zero
  ofile := fun _ _ => none
  proc := update (fun _ => Proc.zero) initproc { Proc.zero.alloc 1 with state := .runnable }
  nextpid := 2
  pipe := fun _ => none
  acquired := []
  released := []

end Xv6Lab.Files
