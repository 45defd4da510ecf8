import Mathlib.Algebra.Group.Int.Defs
import Xv6Lab.Memory.Model

/-!
# Calls that change an address space

`growproc` and `sys_sbrk`, page faults, the copies between kernel and user memory, and `kfork`. Sizes and addresses are
numbers below 2^64; sums that can wrap around are taken modulo 2^64.
-/

namespace Xv6Lab.Memory

/-! ## 64-bit arithmetic -/

/-- `a + n` on 64-bit words. -/
def add64 (a : Nat) (n : Int) : Nat := (((a : Int) + n) % 2 ^ 64).toNat

/-- `PGROUNDUP`. -/
def pgroundup (sz : Nat) : Nat := add64 sz 4095 / pgsize * pgsize

/-- `PGROUNDDOWN`. -/
def pgrounddown (a : Nat) : Nat := a / pgsize * pgsize

/-- A 64-bit count that is stored in an `int` on its way. -/
def throughInt (n : Nat) : Nat := add64 0 (BitVec.ofNat 32 n).toInt

/-! ## Growing and shrinking -/

/-- `uvmdealloc`. -/
def uvmdealloc (img : Image) (pagetable oldsz newsz : Nat) : VmM Nat :=
  if newsz ≥ oldsz then pure oldsz
  else do
    if pgroundup newsz < pgroundup oldsz then
      uvmunmap img pagetable (pgroundup newsz) (throughInt ((pgroundup oldsz - pgroundup newsz) / pgsize)) true
    else pure ()
    pure newsz

/-- The loop of `uvmalloc` at address `a`, with `k` pages left. -/
def uvmallocLoop (img : Image) (pagetable oldsz newsz xperm : Nat) : Nat → Nat → VmM Nat
  | 0, _ => pure newsz
  | k + 1, a => do
      let page ← kalloc
      match page with
      | none => do
          let _ ← uvmdealloc img pagetable a oldsz
          pure 0
      | some mem => do
          setPage mem (fill 0)
          let ok ← mappages pagetable a pgsize mem (pteR ||| pteU ||| xperm)
          if ok then uvmallocLoop img pagetable oldsz newsz xperm k (a + pgsize)
          else do
            kfree img mem
            let _ ← uvmdealloc img pagetable a oldsz
            pure 0

/-- `uvmalloc`. The loop visits the page addresses from `PGROUNDUP(oldsz)` up to `newsz`. -/
def uvmalloc (img : Image) (pagetable oldsz newsz xperm : Nat) : VmM Nat :=
  if newsz < oldsz then pure oldsz
  else
    let oldsz := pgroundup oldsz
    uvmallocLoop img pagetable oldsz newsz xperm ((newsz - oldsz + (pgsize - 1)) / pgsize) oldsz

/-- `growproc`; `none` is the return value -1. -/
def growproc (img : Image) (p : Space) (n : Int) : VmM (Option Space) := do
  if 0 < n then
    if add64 p.sz n > trapframeVa then pure none
    else do
      let sz ← uvmalloc img p.pagetable p.sz (add64 p.sz n) pteW
      if sz = 0 then pure none else pure (some { p with sz })
  else if n < 0 then do
    let sz ← uvmdealloc img p.pagetable p.sz (add64 p.sz n)
    pure (some { p with sz })
  else pure (some p)

/-- `SBRK_EAGER`. -/
abbrev sbrkEager : Int := 1

/-- `sys_sbrk`: the return value and the memory of the process afterwards. -/
def sysSbrk (img : Image) (p : Space) (n t : BitVec 32) : VmM (Int × Space) := do
  if t.toInt = sbrkEager ∨ n.toInt < 0 then do
    let grown ← growproc img p n.toInt
    match grown with
    | none => pure (-1, p)
    | some p' => pure (p.sz, p')
  else if add64 p.sz n.toInt < p.sz then pure (-1, p)
  else if add64 p.sz n.toInt > trapframeVa then pure (-1, p)
  else pure (p.sz, { p with sz := add64 p.sz n.toInt })

/-! ## Page faults -/

/-- `walkaddr`. -/
def walkaddr (pagetable va : Nat) : VmM (Option Nat) :=
  if va ≥ maxva then pure none
  else do
    let slot ← walk pagetable va false
    match slot with
    | none => pure none
    | some (node, i) => do
        let pte ← readWord node i
        if isValid pte = false then pure none
        else if pte.testBit 4 = false then pure none
        else pure (some (pte2page pte))

/-- `ismapped`. -/
def ismapped (pagetable va : Nat) : VmM Bool := do
  let slot ← walk pagetable va false
  match slot with
  | none => pure false
  | some (node, i) => do
      let pte ← readWord node i
      pure (isValid pte)

/-- `vmfault` in process `p`. The test looks at the page table that is passed, the new page goes into that of the
process. -/
def vmfault (img : Image) (p : Space) (pagetable va : Nat) : VmM (Option Nat) :=
  if va ≥ p.sz then pure none
  else do
    let va := pgrounddown va
    let mapped ← ismapped pagetable va
    if mapped then pure none
    else do
      let page ← kalloc
      match page with
      | none => pure none
      | some mem => do
          setPage mem (fill 0)
          let ok ← mappages p.pagetable va pgsize mem (pteW ||| pteU ||| pteR)
          if ok then pure (some mem)
          else do
            kfree img mem
            pure none

/-! ## Copies -/

/-- A page with `n` bytes replaced from byte `off` on. -/
def setBytes (data : Page) (off n : Nat) (src : Nat → UInt8) : Page := fun i k =>
  if off ≤ 8 * i.val + k.val ∧ 8 * i.val + k.val < off + n then src (8 * i.val + k.val - off) else data i k

/-- The byte at `off` of a page. -/
def getByte (data : Page) (off : Nat) : UInt8 := data (wordOf off) (byteOf off)

/-- `walkaddr`, and `vmfault` if that finds nothing. -/
def faultIn (img : Image) (p : Space) (pagetable va : Nat) : VmM (Option Nat) := do
  let pa ← walkaddr pagetable va
  match pa with
  | some pa => pure (some pa)
  | none => vmfault img p pagetable va

/-- The number of bytes of a copy of `len` bytes that lie in the first page. -/
def firstPart (va len : Nat) : Nat := min (pgsize - (va - pgrounddown va)) len

/-- One round of `copyout`: `n` bytes in the page of `dstva`. -/
def copyoutPage (img : Image) (p : Space) (pagetable dstva : Nat) (src : Nat → UInt8) (n : Nat) : VmM Bool :=
  let va0 := pgrounddown dstva
  if va0 ≥ maxva then pure false
  else do
    let pa0 ← faultIn img p pagetable va0
    match pa0 with
    | none => pure false
    | some pa0 => do
        let slot ← walk pagetable va0 false
        match slot with
        | none => throw "copyout: null pointer"
        | some (node, i) => do
            let pte ← readWord node i
            if pte.testBit 2 = false then pure false
            else do
              let s ← get
              setPage pa0 (setBytes (s.mem pa0) (dstva - va0) n src)
              pure true

/-- The loop of `copyout`; every round copies at least one byte, so `len` rounds are enough. -/
def copyoutLoop (img : Image) (p : Space) (pagetable : Nat) : Nat → Nat → (Nat → UInt8) → Nat → VmM Bool
  | 0, _, _, _ => pure true
  | rounds + 1, dstva, src, len =>
    if len = 0 then pure true
    else do
      let ok ← copyoutPage img p pagetable dstva src (firstPart dstva len)
      if ok then
        copyoutLoop img p pagetable rounds (pgrounddown dstva + pgsize) (fun k => src (k + firstPart dstva len))
          (len - firstPart dstva len)
      else pure false

/-- `copyout`; `true` stands for the return value 0. -/
def copyout (img : Image) (p : Space) (pagetable dstva : Nat) (src : Nat → UInt8) (len : Nat) : VmM Bool :=
  copyoutLoop img p pagetable len dstva src len

/-- One round of `copyin`. -/
def copyinPage (img : Image) (p : Space) (pagetable srcva n : Nat) : VmM (Option (List UInt8)) := do
  let va0 := pgrounddown srcva
  let pa0 ← faultIn img p pagetable va0
  match pa0 with
  | none => pure none
  | some pa0 => do
      let s ← get
      pure (some ((List.range n).map fun k => getByte (s.mem pa0) (srcva - va0 + k)))

/-- The loop of `copyin`, with the bytes copied so far. -/
def copyinLoop (img : Image) (p : Space) (pagetable : Nat) : Nat → Nat → Nat → List UInt8 → VmM (Option (List UInt8))
  | 0, _, _, acc => pure (some acc)
  | rounds + 1, srcva, len, acc =>
    if len = 0 then pure (some acc)
    else do
      let bytes ← copyinPage img p pagetable srcva (firstPart srcva len)
      match bytes with
      | none => pure none
      | some bytes =>
        copyinLoop img p pagetable rounds (pgrounddown srcva + pgsize) (len - firstPart srcva len) (acc ++ bytes)

/-- `copyin`: the bytes, or `none` for the return value -1. -/
def copyin (img : Image) (p : Space) (pagetable srcva len : Nat) : VmM (Option (List UInt8)) :=
  copyinLoop img p pagetable len srcva len []

/-- The inner loop of `copyinstr` over `n` bytes of a page from `off` on: what has been stored at `dst`, and `got_null`. -/
def copyinstrBytes (page : Page) : Nat → Nat → List UInt8 → List UInt8 × Bool
  | 0, _, dst => (dst, false)
  | n + 1, off, dst =>
    if getByte page off = 0 then (dst ++ [0], true)
    else copyinstrBytes page n (off + 1) (dst ++ [getByte page off])

/-- The outer loop of `copyinstr`; it does not call `vmfault`. -/
def copyinstrLoop (pagetable : Nat) : Nat → Nat → Nat → List UInt8 → VmM (Bool × List UInt8)
  | 0, _, _, dst => pure (false, dst)
  | rounds + 1, srcva, max, dst =>
    if max = 0 then pure (false, dst)
    else do
      let va0 := pgrounddown srcva
      let pa0 ← walkaddr pagetable va0
      match pa0 with
      | none => pure (false, dst)
      | some pa0 => do
          let n := min (pgsize - (srcva - va0)) max
          let s ← get
          let r := copyinstrBytes (s.mem pa0) n (srcva - va0) dst
          if r.2 then pure (true, r.1) else copyinstrLoop pagetable rounds (va0 + pgsize) (max - n) r.1

/-- `copyinstr`: `true` for the return value 0, and the bytes stored at `dst`. -/
def copyinstr (pagetable srcva max : Nat) : VmM (Bool × List UInt8) := copyinstrLoop pagetable max srcva max []

/-! ## Fork -/

/-- `*(np->trapframe) = *(p->trapframe)` and the return value 0 of the child. -/
def forkTrapframe (parent own : Page) : Page := fun i =>
  if i.val = 14 then Word.ofNat 0 else if i.val < 36 then parent i else own i

/-- The memory effects of `kfork`. -/
def kfork (img : Image) (unused : Bool) (parent : Space) : VmM (Option Space) :=
  spawn img unused parent fun s np => forkTrapframe (s.mem parent.trapframe) (s.mem np.trapframe)

end Xv6Lab.Memory
