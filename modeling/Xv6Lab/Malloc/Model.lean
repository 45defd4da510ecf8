import Mathlib.Algebra.GroupWithZero.Nat
import Mathlib.Data.Finset.Basic
import Xv6Lab.Lib.Transition

/-!
# The user-level allocator

`free`, `morecore` and `malloc` of `umalloc.c` over the headers in memory. Addresses are byte addresses and a header
takes `headerSize` bytes; `ptr` and `size` read the two fields of the header at an address, and `size` is a `uint`.
The searches take fuel and give `none` when it does not last.

`brk` is the end of all memory the program has got so far and `chunks` lists what `morecore` got from `sbrk`. What a
call of `sbrk` gives is a parameter.
-/

open Xv6Lab.Lib.Transition

namespace Xv6Lab.Malloc

/-- `sizeof(Header)` -/
def headerSize : Nat := 16

structure Heap where
  /-- `&base` -/
  base : Nat
  freep : Option Nat
  ptr : Nat → Nat
  size : Nat → Nat
  brk : Nat
  chunks : List (Nat × Nat)

/-- Answers of `sbrk(n)`, for each end of the memory so far: an address at or above it, or an error. `kexec` leaves
the end at a page and `morecore` asks for whole headers, so the address is a multiple of a header. -/
structure Sbrk where
  result : Nat → Int → Option Nat
  above : ∀ brk n a, result brk n = some a → brk ≤ a
  aligned : ∀ brk n a, result brk n = some a → a % headerSize = 0

namespace Heap

def setPtr (s : Heap) (p q : Nat) : Heap := { s with ptr := Function.update s.ptr p q }

/-- The size field has 32 bits. -/
def setSize (s : Heap) (p n : Nat) : Heap := { s with size := Function.update s.size p (n % 2 ^ 32) }

/-- The bytes of the block at `p`, header included. -/
def len (s : Heap) (p : Nat) : Nat := headerSize * s.size p

/-- The bytes obtained from `sbrk`. -/
def total (s : Heap) : Nat := (s.chunks.map Prod.snd).sum

def Obtained (s : Heap) (x : Nat) : Prop := ∃ c ∈ s.chunks, c.1 ≤ x ∧ x < c.1 + c.2

end Heap

/-- The loop of `free`. -/
def freeSearch (s : Heap) (bp : Nat) : Nat → Nat → Option Nat
  | 0, _ => none
  | fuel + 1, p =>
    if bp > p ∧ bp < s.ptr p then some p
    else if p ≥ s.ptr p ∧ (bp > p ∨ bp < s.ptr p) then some p
    else freeSearch s bp fuel (s.ptr p)

/-- `free` joins the block to the one after it, or links it there. -/
def joinUpper (s : Heap) (bp p : Nat) : Heap :=
  if bp + s.len bp = s.ptr p then
    (s.setSize bp (s.size bp + s.size (s.ptr p))).setPtr bp (s.ptr (s.ptr p))
  else s.setPtr bp (s.ptr p)

/-- `free` joins the one before the block to it, or links it there. -/
def joinLower (s : Heap) (bp p : Nat) : Heap :=
  if p + s.len p = bp then (s.setSize p (s.size p + s.size bp)).setPtr p (s.ptr bp)
  else s.setPtr p bp

def free (fuel ap : Nat) (s : Heap) : Option Heap :=
  let bp := ap - headerSize
  match s.freep with
  | none => none
  | some f => (freeSearch s bp fuel f).map fun p => { joinLower (joinUpper s bp p) bp p with freep := some p }

/-- What `morecore` asks for. -/
def coreUnits (nu : Nat) : Nat := if nu < 4096 then 4096 else nu

/-- The argument of `sbrk` for `nu` headers: a product of 64 bits, converted to an `int`. -/
def sbrkArg (nu : Nat) : Int :=
  let n : Nat := nu * headerSize % 2 ^ 32
  if n < 2 ^ 31 then n else n - (2 ^ 32 : Nat)

/-- The heap with a new block of `nu` headers where `sbrk` has given `n` bytes, not in the free list yet. -/
def Heap.grow (s : Heap) (hp nu n : Nat) : Heap :=
  { s.setSize hp nu with brk := hp + n, chunks := (hp, n) :: s.chunks }

/-- `sbrk` gives no memory for a number that is not positive. -/
def morecore (fuel nu : Nat) (sbrk : Sbrk) (s : Heap) : Option (Option Nat × Heap) :=
  let n := sbrkArg (coreUnits nu)
  match sbrk.result s.brk n with
  | none => some (none, s)
  | some hp => (free fuel (hp + headerSize) (s.grow hp (coreUnits nu) n.toNat)).map fun t => (t.freep, t)

/-- `malloc` has found a block that is large enough. -/
def take (s : Heap) (nunits prevp p : Nat) : Option Nat × Heap :=
  if s.size p = nunits then (some (p + headerSize), { s.setPtr prevp (s.ptr p) with freep := some prevp })
  else
    let t := s.setSize p (s.size p - nunits)
    let q := p + t.len p
    (some (q + headerSize), { t.setSize q nunits with freep := some prevp })

/-- The loop of `malloc`; `bound` is the fuel of the `free` inside `morecore`. -/
def mallocSearch (bound nunits : Nat) (sbrk : Sbrk) : Nat → Nat → Nat → Heap → Option (Option Nat × Heap)
  | 0, _, _, _ => none
  | fuel + 1, prevp, p, s =>
    if s.size p ≥ nunits then some (take s nunits prevp p)
    else if s.freep = some p then
      match morecore bound nunits sbrk s with
      | none => none
      | some (none, t) => some (none, t)
      | some (some q, t) => mallocSearch bound nunits sbrk fuel q (t.ptr q) t
    else mallocSearch bound nunits sbrk fuel p (s.ptr p) s

/-- The header and the bytes asked for, in headers. -/
def unitsFor (nbytes : Nat) : Nat := (nbytes + headerSize - 1) / headerSize + 1

/-- The first call of `malloc` sets up `base`. -/
def Heap.init (s : Heap) : Heap :=
  match s.freep with
  | some _ => s
  | none => { (s.setPtr s.base s.base).setSize s.base 0 with freep := some s.base }

def malloc (fuel nbytes : Nat) (sbrk : Sbrk) (s : Heap) : Option (Option Nat × Heap) :=
  let t := s.init
  match t.freep with
  | none => none
  | some prevp => mallocSearch fuel (unitsFor nbytes) sbrk fuel prevp (t.ptr prevp) t

/-! ## Programs that allocate and free -/

/-- The heap, and the headers of the blocks that the program has. -/
structure State where
  heap : Heap
  live : Finset Nat

inductive Action where
  | malloc (fuel nbytes : Nat) (sbrk : Sbrk)
  | free (fuel ap : Nat)

/-- A request that does not overflow the `int` of `sbrk`. -/
def Small (nbytes : Nat) : Prop := unitsFor nbytes * headerSize < 2 ^ 31

instance decidableSmall (nbytes : Nat) : Decidable (Small nbytes) := Nat.decLt _ _

/-- The blocks of the program after `malloc` has returned. -/
def granted (live : Finset Nat) : Option Nat → Finset Nat
  | some ap => insert (ap - headerSize) live
  | none => live

/-- Programs whose requests are small. -/
def next (s : State) : Action → Option State
  | .malloc fuel nbytes sbrk =>
    if Small nbytes then (malloc fuel nbytes sbrk s.heap).map fun r => ⟨r.2, granted s.live r.1⟩ else none
  | .free fuel ap =>
    if headerSize ≤ ap ∧ ap - headerSize ∈ s.live then
      (free fuel ap s.heap).map fun t => ⟨t, s.live.erase (ap - headerSize)⟩
    else none

/-- `base` lies below the memory that `sbrk` is going to give. -/
structure Init (s : State) : Prop where
  freep : s.heap.freep = none
  chunks : s.heap.chunks = []
  live : s.live = ∅
  low : s.heap.base + headerSize ≤ s.heap.brk

end Xv6Lab.Malloc
