import Xv6Lab.Lib.RingBuffer
import Xv6Lab.Lib.Transition
import Xv6Lab.Params

/-!
# The disk driver

The model of `virtio_disk.c`: any number of threads that lock buffers and call `virtio_disk_rw` on those they have
locked, as `bread` and `bwrite` do, any number of interrupt handlers in `virtio_disk_intr`, and the device. Within
`vdisk_lock` a thread takes several steps, so that the device may act between them: the allocation of the descriptors,
their formatting, the store into the avail ring, the increment of its index, each test of `b->disk`, and the release of
the chain; likewise each turn of the loop of `virtio_disk_intr`. A `sleep` releases the lock and may return at any
later time, whether by a `wakeup` or because the process was killed.

The device takes the heads from the avail ring in order. It works on those it has taken in any order: it reads the
chain, writes status 0, and later adds the head to the used ring. The index up to which it has read the avail ring is
the reading counter of that ring; `disk.used_idx` is the reading counter of the used ring. Both counters of a ring
have 16 bits.

`done b` records the requests for buffer `b` that the device has completed, and `before` what it was when the call was
made. A `panic`, and anything the device or the handler could not have done with a request of the driver, is recorded
in `panicked`.
-/

namespace Xv6Lab.Virtio

open Function Lib.RingBuffer

/-- `NUM`, the number of descriptors. -/
abbrev num : Nat := 8

/-- `VRING_DESC_F_NEXT`. -/
abbrev fNext : Nat := 1

/-- `VRING_DESC_F_WRITE`. -/
abbrev fWrite : Nat := 2

/-! ## The driver's memory -/

/-- The addresses the driver puts into descriptors. -/
inductive Addr
  | null
  /-- `&disk.ops[i]` -/
  | op (i : Nat)
  /-- `b->data` -/
  | data (b : Nat)
  /-- `&disk.info[i].status` -/
  | status (i : Nat)
  deriving DecidableEq, Repr

/-- `struct virtq_desc`. -/
structure Desc where
  addr : Addr
  len : Nat
  flags : Nat
  next : Nat
  deriving DecidableEq, Repr

/-- `struct virtio_blk_req`; `write` stands for `VIRTIO_BLK_T_OUT`. -/
structure Op where
  write : Bool
  sector : Nat
  deriving DecidableEq, Repr

/-- What a call of `virtio_disk_rw` asks for. -/
structure Req where
  buf : Nat
  write : Bool
  sector : Nat
  deriving DecidableEq, Repr

/-- The array `idx[3]`. -/
structure Idx where
  head : Nat
  data : Nat
  status : Nat
  deriving DecidableEq, Repr

def Idx.list (i : Idx) : List Nat := [i.head, i.data, i.status]

/-- `struct disk`, and the field `disk` of each buffer. -/
structure Disk where
  desc : Nat → Desc
  avail : RingBuf Nat num 16
  used : RingBuf Nat num 16
  free : Nat → Bool
  infoB : Nat → Option Nat
  infoStatus : Nat → Nat
  ops : Nat → Op
  onDisk : Nat → Bool

/-! ## Descriptors -/

/-- `alloc_desc`. -/
def allocDesc (d : Disk) : Option (Nat × Disk) :=
  ((List.range num).find? d.free).map fun i => (i, { d with free := update d.free i false })

/-- `free_desc`. -/
def freeDesc (d : Disk) (i : Nat) : Except String Disk :=
  if num ≤ i then .error "free_desc 1"
  else if d.free i then .error "free_desc 2"
  else .ok { d with
    desc := update d.desc i ⟨.null, 0, 0, 0⟩
    free := update d.free i true }

/-- `free_chain`. A descriptor that is met again is free and stops the loop, so that it makes no more than `NUM` turns
without a `panic`. -/
def freeChainLoop : Nat → Disk → Nat → Except String Disk
  | 0, _, _ => .error "free_desc 2"
  | n + 1, d, i =>
    let flag := (d.desc i).flags
    let nxt := (d.desc i).next
    match freeDesc d i with
    | .error msg => .error msg
    | .ok d => if flag &&& fNext ≠ 0 then freeChainLoop n d nxt else .ok d

def freeChain (d : Disk) (i : Nat) : Except String Disk := freeChainLoop num d i

/-- The inner loop of `alloc3_desc`. -/
def freeAll : List Nat → Disk → Except String Disk
  | [], d => .ok d
  | j :: js, d =>
    match freeDesc d j with
    | .error msg => .error msg
    | .ok d => freeAll js d

/-- The outer loop of `alloc3_desc`, with `n` descriptors to go; `idx` are those it has. -/
def alloc3Loop : Nat → List Nat → Disk → Except String (Option (List Nat) × Disk)
  | 0, idx, d => .ok (some idx, d)
  | n + 1, idx, d =>
    match allocDesc d with
    | some (i, d) => alloc3Loop n (idx ++ [i]) d
    | none => (freeAll idx d).map fun d => (none, d)

/-- `alloc3_desc`; the descriptors, or none if it returns -1. -/
def alloc3Desc (d : Disk) : Except String (Option (List Nat) × Disk) := alloc3Loop 3 [] d

/-! ## Requests -/

/-- What `virtio_disk_rw` writes before it touches the avail ring. -/
def format (d : Disk) (r : Req) (i : Idx) : Disk :=
  { d with
    ops := update d.ops i.head ⟨r.write, r.sector⟩
    desc := update (update (update d.desc i.head ⟨.op i.head, 16, fNext, i.data⟩)
      i.data ⟨.data r.buf, bsize, (if r.write then 0 else fWrite) ||| fNext, i.status⟩)
      i.status ⟨.status i.head, 1, fWrite, 0⟩
    infoStatus := update d.infoStatus i.head 0xff
    onDisk := update d.onDisk r.buf true
    infoB := update d.infoB i.head (some r.buf) }

/-- The request the device reads from the chain at `h`, and where its status goes. There is none if the chain is not
of the form that block requests have. -/
def request (d : Disk) (h : Nat) : Option (Req × Nat) :=
  let d₀ := d.desc h
  let d₁ := d.desc d₀.next
  let d₂ := d.desc d₁.next
  match d₀, d₁, d₂ with
  | ⟨.op i, l₀, f₀, _⟩, ⟨.data b, l₁, f₁, _⟩, ⟨.status j, l₂, f₂, _⟩ =>
    if l₀ = 16 ∧ f₀ = fNext ∧ l₁ = bsize ∧ f₁ = (if (d.ops i).write then fNext else fWrite ||| fNext) ∧
        l₂ = 1 ∧ f₂ = fWrite then some (⟨b, (d.ops i).write, (d.ops i).sector⟩, j)
    else none
  | _, _, _ => none

/-! ## Threads -/

/-- A call of `virtio_disk_rw`, with what the device had done for the buffer before. -/
structure Call where
  req : Req
  before : List Req
  deriving DecidableEq, Repr

/-- Where a call of `virtio_disk_rw` stands. -/
inductive Rw
  | enter
  | alloc
  /-- asleep on `&disk.free[0]` -/
  | noDesc
  | format (i : Idx)
  /-- about to store into the avail ring -/
  | enqueue (i : Idx)
  /-- about to increment `avail->idx` -/
  | publish (i : Idx)
  /-- about to test `b->disk` -/
  | test (i : Idx)
  /-- asleep on `b` -/
  | wait (i : Idx)
  | finish (i : Idx)
  deriving DecidableEq, Repr

inductive Place
  /-- outside the driver -/
  | idle
  | rw (c : Call) (pc : Rw)
  | intrEnter
  /-- about to compare `disk.used_idx` with `used->idx` -/
  | intrTest
  | intrBody
  deriving DecidableEq, Repr

/-- What the device is doing with a head it has taken. -/
inductive Work
  | fetched
  | executed (r : Req)
  deriving DecidableEq, Repr

structure State where
  disk : Disk
  /-- The holder of `vdisk_lock`. -/
  lock : Option Nat
  /-- The holder of the sleep lock of each buffer. -/
  owner : Nat → Option Nat
  place : Nat → Place
  work : Nat → Option Work
  done : Nat → List Req
  panicked : Option String

def State.goTo (s : State) (p : Nat) (x : Place) : State := { s with place := update s.place p x }

/-- `acquire(&disk.vdisk_lock)`, as soon as it is free. -/
def State.acquire (s : State) (p : Nat) (x : Place) : Option State :=
  if s.lock = none then some { s.goTo p x with lock := some p } else none

def State.release (s : State) (p : Nat) (x : Place) : State := { s.goTo p x with lock := none }

def State.panic (s : State) (msg : String) : State := { s with panicked := some msg }

/-- The next step of `virtio_disk_rw`. -/
def stepRw (s : State) (p : Nat) (c : Call) : Rw → Option State
  | .enter => s.acquire p (.rw c .alloc)
  | .alloc =>
    match alloc3Desc s.disk with
    | .error msg => some (s.panic msg)
    | .ok (some idx, disk) =>
      let i : Idx := ⟨idx.getD 0 0, idx.getD 1 0, idx.getD 2 0⟩
      some (({ s with disk := disk } : State).goTo p (.rw c (.format i)))
    | .ok (none, disk) => some (({ s with disk := disk } : State).release p (.rw c .noDesc))
  | .noDesc => s.acquire p (.rw c .alloc)
  | .format i => some (({ s with disk := format s.disk c.req i } : State).goTo p (.rw c (.enqueue i)))
  | .enqueue i =>
    some (({ s with disk := { s.disk with avail := s.disk.avail.store i.head } } : State).goTo p (.rw c (.publish i)))
  | .publish i =>
    some (({ s with disk := { s.disk with avail := s.disk.avail.advance } } : State).goTo p (.rw c (.test i)))
  | .test i =>
    if s.disk.onDisk c.req.buf then some (s.release p (.rw c (.wait i))) else some (s.goTo p (.rw c (.finish i)))
  | .wait i => s.acquire p (.rw c (.test i))
  | .finish i =>
    match freeChain { s.disk with infoB := update s.disk.infoB i.head none } i.head with
    | .error msg => some (s.panic msg)
    | .ok disk => some (({ s with disk := disk } : State).release p .idle)

/-- One turn of the loop of `virtio_disk_intr`. -/
def intrTurn (s : State) (p : Nat) : State :=
  let id := s.disk.used.front
  if s.disk.infoStatus id ≠ 0 then s.panic "virtio_disk_intr status"
  else
    match s.disk.infoB id with
    | none => s.panic "null buffer"
    | some b =>
      ({ s with disk := { s.disk with
          onDisk := update s.disk.onDisk b false
          used := s.disk.used.pop } } : State).goTo p .intrTest

/-- The next step of a thread. -/
def stepOf (s : State) (p : Nat) : Place → Option State
  | .idle => none
  | .rw c pc => stepRw s p c pc
  | .intrEnter => s.acquire p .intrTest
  | .intrTest => if s.disk.used.isEmpty then some (s.release p .idle) else some (s.goTo p .intrBody)
  | .intrBody => some (intrTurn s p)

/-! ## The device -/

/-- The next head of the avail ring. -/
def fetch (s : State) : Option State :=
  if s.disk.avail.isEmpty then none
  else
    let h := s.disk.avail.front
    if s.work h = none then
      some { s with
        disk := { s.disk with avail := s.disk.avail.pop }
        work := update s.work h (some .fetched) }
    else some (s.panic "head taken twice")

/-- The transfer, and status 0. -/
def execute (s : State) (h : Nat) : Option State :=
  if s.work h = some .fetched then
    match request s.disk h with
    | none => some (s.panic "malformed chain")
    | some (r, j) =>
      some { s with
        disk := { s.disk with infoStatus := update s.disk.infoStatus j 0 }
        work := update s.work h (some (.executed r)) }
  else none

/-- The head goes to the used ring. -/
def complete (s : State) (h : Nat) : Option State :=
  match s.work h with
  | some (.executed r) =>
    some { s with
      disk := { s.disk with used := s.disk.used.push h }
      work := update s.work h none
      done := update s.done r.buf (s.done r.buf ++ [r]) }
  | _ => none

/-! ## Runs -/

inductive Action
  /-- `acquiresleep(&b->lock)` -/
  | lock (p b : Nat)
  /-- `releasesleep(&b->lock)` -/
  | unlock (p b : Nat)
  /-- `virtio_disk_rw(b, write)` with `b->blockno`, by the thread that has locked `b` -/
  | call (p b : Nat) (write : Bool) (blockno : Nat)
  /-- an interrupt -/
  | intr (p : Nat)
  | step (p : Nat)
  | fetch
  | execute (h : Nat)
  | complete (h : Nat)
  deriving DecidableEq, Repr

/-- `b->blockno * (BSIZE / 512)`, in 32 bits. -/
def sectorOf (blockno : Nat) : Nat := blockno * (bsize / 512) % 2 ^ 32

def act (s : State) : Action → Option State
  | .lock p b =>
    if s.place p = .idle ∧ s.owner b = none then
      some { s with owner := update s.owner b (some p) }
    else none
  | .unlock p b =>
    if s.place p = .idle ∧ s.owner b = some p then some { s with owner := update s.owner b none }
    else none
  | .call p b write blockno =>
    if s.place p = .idle ∧ s.owner b = some p then
      some (s.goTo p (.rw ⟨⟨b, write, sectorOf blockno⟩, s.done b⟩ .enter))
    else none
  | .intr p => if s.place p = .idle then some (s.goTo p .intrEnter) else none
  | .step p => stepOf s p (s.place p)
  | .fetch => fetch s
  | .execute h => execute s h
  | .complete h => complete s h

def next (s : State) (a : Action) : Option State := if s.panicked = none then act s a else none

/-- After `virtio_disk_init`. -/
structure Init (s : State) : Prop where
  free : ∀ i, i < num → s.disk.free i = true
  avail : s.disk.avail.nread = 0#16 ∧ s.disk.avail.nwrite = 0#16
  used : s.disk.used.nread = 0#16 ∧ s.disk.used.nwrite = 0#16
  lock : s.lock = none
  owner : ∀ b, s.owner b = none
  place : ∀ p, s.place p = .idle
  work : ∀ h, s.work h = none
  panicked : s.panicked = none

end Xv6Lab.Virtio
