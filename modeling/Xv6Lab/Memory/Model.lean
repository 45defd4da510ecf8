import Mathlib.Algebra.Group.Nat.Defs
import Mathlib.Data.List.FinRange
import Xv6Lab.Params

/-!
# Physical memory and page tables

Physical memory is a map from page numbers to pages of 512 words of 8 bytes; physical addresses that
the kernel handles are page numbers. The free list of the allocator is the list of its pages. A
page-table entry is a 64-bit word: page number above ten flag bits. The functions follow `kalloc.c`,
`vm.c` and the parts of `proc.c` and `sysproc_custom.c` that build the address space of a thread. A
panic is an error with its message, and a return value of 0 for a pointer is `none`.
-/

namespace Xv6Lab.Memory

open Function

/-! ## Words and pages -/

/-- A 64-bit word as its bytes, lowest first. -/
abbrev Word := Fin 8 → UInt8

abbrev Page := Fin 512 → Word

def Word.toNat (w : Word) : Nat :=
  (w 0).toNat + 2 ^ 8 * ((w 1).toNat + 2 ^ 8 * ((w 2).toNat + 2 ^ 8 * ((w 3).toNat + 2 ^ 8 *
    ((w 4).toNat + 2 ^ 8 * ((w 5).toNat + 2 ^ 8 * ((w 6).toNat + 2 ^ 8 * (w 7).toNat))))))

def Word.ofNat (n : Nat) : Word := fun k => UInt8.ofNat (n / 2 ^ (8 * k.val))

abbrev pgsize : Nat := 4096

/-- `MAXVA`. -/
abbrev maxva : Nat := 2 ^ 38

abbrev trampolineVa : Nat := maxva - pgsize

abbrev trapframeVa : Nat := trampolineVa - pgsize

/-! ## Page-table entries -/

abbrev pteV : Nat := 1
abbrev pteR : Nat := 2
abbrev pteW : Nat := 4
abbrev pteX : Nat := 8
abbrev pteU : Nat := 16

/-- `*pte & PTE_V`. -/
def isValid (pte : Nat) : Bool := pte.testBit 0

/-- The page number of `PTE2PA`; shifting left by 12 drops the top bits of a 64-bit word. -/
def pte2page (pte : Nat) : Nat := pte / 2 ^ 10 % 2 ^ 52

/-- `PA2PTE` of a page. -/
def page2pte (page : Nat) : Nat := page <<< 10

/-- `PTE_FLAGS`. -/
def pteFlags (pte : Nat) : Nat := pte % 2 ^ 10

/-- `PX(level, va)`. -/
def px (level va : Nat) : Fin 512 := ⟨va / 2 ^ (12 + 9 * level) % 512, Nat.mod_lt _ (by decide)⟩

/-! ## The allocator -/

/-- Physical memory and the free list. -/
structure Vm where
  mem : Nat → Page
  free : List Nat

abbrev VmM := EStateM String Vm

/-- What the link script and the loader fix: the first page after the kernel and the page of the
trampoline code, which has a 64-bit address. -/
structure Image where
  firstPage : Nat
  trampoline : Nat
  trampoline_lt : trampoline < 2 ^ 52

/-- The page number of `PHYSTOP`. -/
abbrev phystopPage : Nat := 0x88000

/-- Fill a page, as `memset` and `memmove` of a whole page do. -/
def setPage (page : Nat) (data : Page) : VmM Unit :=
  modify fun s => { s with mem := update s.mem page data }

/-- A page filled with one byte. -/
def fill (b : UInt8) : Page := fun _ _ => b

def kalloc : VmM (Option Nat) := do
  let s ← get
  match s.free with
  | [] => pure none
  | page :: rest => do
      set { s with free := rest }
      setPage page (fill 5)
      pure (some page)

/-- `kfree`. The kernel does not test whether the page is on the free list: pushing it again would close the
list to a cycle. A `List` cannot show that, so a second free is an error of the model. -/
def kfree (img : Image) (page : Nat) : VmM Unit := do
  if img.firstPage ≤ page ∧ page < phystopPage then do
    let s ← get
    if page ∈ s.free then throw "freed twice"
    else do
      setPage page (fill 1)
      modify fun s => { s with free := page :: s.free }
  else throw "kfree"

def readWord (page : Nat) (i : Fin 512) : VmM Nat := do
  let s ← get
  pure (s.mem page i).toNat

def writeWord (page : Nat) (i : Fin 512) (n : Nat) : VmM Unit :=
  modify fun s =>
    { s with mem := update s.mem page (update (s.mem page) i (Word.ofNat n)) }

/-! ## Walking and mapping -/

/-- One level of `walk`: the next page table, allocated if it is missing and `alloc` is set. -/
def walkStep (alloc : Bool) (page : Nat) (i : Fin 512) : VmM (Option Nat) := do
  let pte ← readWord page i
  if isValid pte then pure (some (pte2page pte))
  else if alloc = false then pure none
  else do
    let fresh ← kalloc
    match fresh with
    | none => pure none
    | some next => do
        setPage next (fill 0)
        writeWord page i (page2pte next ||| pteV)
        pure (some next)

/-- The loop of `walk` with `level` levels left. -/
def walkFrom (va : Nat) (alloc : Bool) : Nat → Nat → VmM (Option (Nat × Fin 512))
  | 0, page => pure (some (page, px 0 va))
  | level + 1, page => do
      let next ← walkStep alloc page (px (level + 1) va)
      match next with
      | none => pure none
      | some next => walkFrom va alloc level next

/-- `walk`: the page and index of the entry for `va`. -/
def walk (pagetable va : Nat) (alloc : Bool) : VmM (Option (Nat × Fin 512)) :=
  if va ≥ maxva then throw "walk" else walkFrom va alloc 2 pagetable

/-- The loop of `mappages` with `k` pages left. -/
def mappagesLoop (pagetable perm : Nat) : Nat → Nat → Nat → VmM Bool
  | 0, _, _ => pure true
  | k + 1, a, page => do
      let slot ← walk pagetable a true
      match slot with
      | none => pure false
      | some (node, i) => do
          let pte ← readWord node i
          if isValid pte then throw "mappages: remap"
          else do
            writeWord node i (page2pte page ||| perm ||| pteV)
            mappagesLoop pagetable perm k (a + pgsize) (page + 1)

/-- `mappages`; `true` stands for the return value 0. -/
def mappages (pagetable va size page perm : Nat) : VmM Bool :=
  if va % pgsize ≠ 0 then throw "mappages: va not aligned"
  else if size % pgsize ≠ 0 then throw "mappages: size not aligned"
  else if size = 0 then throw "mappages: size"
  else mappagesLoop pagetable perm (size / pgsize) va page

/-- `if(do_free) kfree(pa)`. -/
def freeIf (img : Image) (doFree : Bool) (page : Nat) : VmM Unit :=
  if doFree then kfree img page else pure ()

/-- The body of the loop of `uvmunmap` at address `a`. -/
def unmapPage (img : Image) (pagetable a : Nat) (doFree : Bool) : VmM Unit := do
  let slot ← walk pagetable a false
  match slot with
  | none => pure ()
  | some (node, i) => do
      let pte ← readWord node i
      if isValid pte then do
        freeIf img doFree (pte2page pte)
        writeWord node i 0
      else pure ()

def uvmunmapLoop (img : Image) (pagetable : Nat) (doFree : Bool) : Nat → Nat → VmM Unit
  | 0, _ => pure ()
  | k + 1, a => do
      unmapPage img pagetable a doFree
      uvmunmapLoop img pagetable doFree k (a + pgsize)

def uvmunmap (img : Image) (pagetable va npages : Nat) (doFree : Bool) : VmM Unit :=
  if va % pgsize ≠ 0 then throw "uvmunmap: not aligned"
  else uvmunmapLoop img pagetable doFree npages va

/-- `freewalk`, for tables of at most `depth` levels. -/
def freewalk (img : Image) : Nat → Nat → VmM Unit
  | 0, _ => throw "freewalk: depth"
  | depth + 1, pagetable => do
      (List.finRange 512).forM fun i => do
        let pte ← readWord pagetable i
        if isValid pte then do
          if pte % 16 / 2 = 0 then do
            freewalk img depth (pte2page pte)
            writeWord pagetable i 0
          else throw "freewalk: leaf"
        else pure ()
      kfree img pagetable

/-- `uvmfree`. -/
def uvmfree (img : Image) (pagetable sz : Nat) : VmM Unit := do
  if sz > 0 then uvmunmap img pagetable 0 ((sz + pgsize - 1) / pgsize) true else pure ()
  freewalk img 3 pagetable

def uvmcreate : VmM (Option Nat) := do
  let page ← kalloc
  match page with
  | none => pure none
  | some pagetable => do
      setPage pagetable (fill 0)
      pure (some pagetable)

/-- One page of `uvmcopy`: `false` when memory runs out. -/
def copyPage (img : Image) (old new i : Nat) : VmM Bool := do
  let slot ← walk old i false
  match slot with
  | none => pure true
  | some (node, j) => do
      let pte ← readWord node j
      if isValid pte then do
        let mem ← kalloc
        match mem with
        | none => pure false
        | some mem => do
            let s ← get
            setPage mem (s.mem (pte2page pte))
            let ok ← mappages new i pgsize mem (pteFlags pte)
            if ok then pure true
            else do
              kfree img mem
              pure false
      else pure true

/-- The loop of `uvmcopy` at address `i`, with `k` pages left. -/
def uvmcopyLoop (img : Image) (old new : Nat) : Nat → Nat → VmM Bool
  | 0, _ => pure true
  | k + 1, i => do
      let ok ← copyPage img old new i
      if ok then uvmcopyLoop img old new k (i + pgsize)
      else do
        uvmunmap img new 0 (i / pgsize) true
        pure false

/-- `uvmcopy`; `true` stands for the return value 0. -/
def uvmcopy (img : Image) (old new sz : Nat) : VmM Bool :=
  uvmcopyLoop img old new ((sz + pgsize - 1) / pgsize) 0

/-! ## Processes -/

/-- The memory of a process. -/
structure Space where
  pagetable : Nat
  trapframe : Nat
  sz : Nat

/-- `proc_pagetable` for a process with the given trapframe page. -/
def procPagetable (img : Image) (trapframe : Nat) : VmM (Option Nat) := do
  let created ← uvmcreate
  match created with
  | none => pure none
  | some pagetable => do
      let ok ← mappages pagetable trampolineVa pgsize img.trampoline (pteR ||| pteX)
      if ok then do
        let ok ← mappages pagetable trapframeVa pgsize trapframe (pteR ||| pteW)
        if ok then pure (some pagetable)
        else do
          uvmunmap img pagetable trampolineVa 1 false
          uvmfree img pagetable 0
          pure none
      else do
        uvmfree img pagetable 0
        pure none

/-- The memory of `allocproc`; the flag says that the process table has an unused entry. -/
def allocproc (img : Image) (unused : Bool) : VmM (Option Space) := do
  if unused then do
    let page ← kalloc
    match page with
    | none => pure none
    | some trapframe => do
        let created ← procPagetable img trapframe
        match created with
        | none => do
            kfree img trapframe
            pure none
        | some pagetable => pure (some { pagetable, trapframe, sz := 0 })
  else pure none

def procFreepagetable (img : Image) (pagetable sz : Nat) : VmM Unit := do
  uvmunmap img pagetable trampolineVa 1 false
  uvmunmap img pagetable trapframeVa 1 false
  uvmfree img pagetable sz

/-- The memory that `freeproc` gives back. -/
def freeproc (img : Image) (p : Space) : VmM Unit := do
  kfree img p.trapframe
  procFreepagetable img p.pagetable p.sz

/-- `*(t->trapframe) = *(parent->trapframe)` and the three registers a thread starts with. The
structure has 36 words; `epc`, `sp` and `a0` are the words 3, 6 and 14. -/
def threadTrapframe (fcn arg stack : Nat) (parent own : Page) : Page := fun i =>
  if i.val = 3 then Word.ofNat fcn
  else if i.val = 6 then Word.ofNat stack
  else if i.val = 14 then Word.ofNat arg
  else if i.val < 36 then parent i
  else own i

/-- The common part of `kfork` and `sys_thread_create`; `frame` makes the trapframe of the new process. -/
def spawn (img : Image) (unused : Bool) (parent : Space) (frame : Vm → Space → Page) : VmM (Option Space) := do
  let allocated ← allocproc img unused
  match allocated with
  | none => pure none
  | some np => do
      let ok ← uvmcopy img parent.pagetable np.pagetable parent.sz
      if ok then do
        let s ← get
        setPage np.trapframe (frame s np)
        pure (some { np with sz := parent.sz })
      else do
        freeproc img np
        pure none

/-- The memory effects of `sys_thread_create`. -/
def sysThreadCreate (img : Image) (unused : Bool) (parent : Space) (fcn arg stack : Nat) : VmM (Option Space) :=
  if stack = 0 then pure none
  else spawn img unused parent fun s t =>
    threadTrapframe fcn arg stack (s.mem parent.trapframe) (s.mem t.trapframe)

/-! ## User accesses -/

/-- The entry that the hardware finds for a user address. -/
def translate (mem : Nat → Page) (pagetable va : Nat) : Option Nat :=
  if va ≥ maxva then none
  else
    let pte2 := (mem pagetable (px 2 va)).toNat
    if isValid pte2 then
      let pte1 := (mem (pte2page pte2) (px 1 va)).toNat
      if isValid pte1 then
        let pte := (mem (pte2page pte1) (px 0 va)).toNat
        if isValid pte then some pte else none
      else none
    else none

/-- The entry allows user loads and stores. -/
def userWritable (pte : Nat) : Bool := pte.testBit 1 && pte.testBit 2 && pte.testBit 4

/-- Word and byte of an address in its page. -/
def wordOf (va : Nat) : Fin 512 :=
  ⟨va % pgsize / 8, Nat.div_lt_of_lt_mul (Nat.mod_lt va (by decide))⟩

def byteOf (va : Nat) : Fin 8 := ⟨va % 8, Nat.mod_lt _ (by decide)⟩

/-- A user load of the byte at `va`; `none` is a page fault. -/
def userLoad (mem : Nat → Page) (pagetable va : Nat) : Option UInt8 :=
  match translate mem pagetable va with
  | none => none
  | some pte =>
    if pte.testBit 1 && pte.testBit 4 then some (mem (pte2page pte) (wordOf va) (byteOf va)) else none

/-- A user store of the byte at `va`; `none` is a page fault. -/
def userStore (mem : Nat → Page) (pagetable va : Nat) (b : UInt8) : Option (Nat → Page) :=
  match translate mem pagetable va with
  | none => none
  | some pte =>
    if userWritable pte then
      let page := mem (pte2page pte)
      some (update mem (pte2page pte) (update page (wordOf va) (update (page (wordOf va)) (byteOf va) b)))
    else none

end Xv6Lab.Memory
