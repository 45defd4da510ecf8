import Xv6Lab.Malloc.Allocation

/-!
# Programs that use the allocator

`heap_blocks` is about every state that a program reaches with `malloc` and `free`, up to the point where the memory
from `sbrk` is more than a size field can count. From there on sizes wrap when blocks are joined
(`joined_size_wraps`).
-/

open Xv6Lab.Lib.Rings Xv6Lab.Lib.Tiling Xv6Lab.Lib.Transition

namespace Xv6Lab.Malloc

open Finset Option

variable {s t : Heap} {live M : Finset Nat} {bp p b nbytes : Nat}

/-- The heap between calls. -/
def State.Good (s : State) : Prop :=
  (s.heap.freep = none ∧ s.live = ∅ ∧ s.heap.chunks = [] ∧ s.heap.base + headerSize ≤ s.heap.brk) ∨
    ∃ M, Inv s.heap s.live M ∧ ∃ f ∈ M, s.heap.freep = some f

theorem unitsFor_pos (nbytes : Nat) : 0 < unitsFor nbytes := Nat.succ_pos _

/-- The units asked for hold the header and the bytes. -/
theorem le_unitsFor (nbytes : Nat) : nbytes + headerSize ≤ headerSize * unitsFor nbytes := by
  rw [unitsFor, headerSize]
  omega

theorem Small.lt (h : Small nbytes) : unitsFor nbytes < 2 ^ 32 := by
  rw [Small, headerSize] at h
  omega

theorem Heap.init_frame (s : Heap) : Frame s s.init := by
  constructor <;> (rw [Heap.init]; split <;> rfl)

/-- The free list has a block of `n` headers. -/
def Heap.Fits (s : Heap) (n : Nat) : Prop := ∃ f k, s.freep = some f ∧ n ≤ s.size (s.ptr^[k] f)

theorem Inv.single (hptr : s.ptr s.base = s.base) (hsize : s.size s.base = 0) (hchunks : s.chunks = [])
    (hlow : s.base + headerSize ≤ s.brk) : Inv s ∅ {s.base} := by
  have hblocks : blocks s ∅ {s.base} = ∅ := by simp [blocks]
  refine ⟨mem_singleton_self _, hsize, hlow, OrderedRing.single hptr, disjoint_empty_right _, ?_, ?_, ?_,
    fun p hp q hq hlt => ?_, ?_⟩
  · simp [hblocks]
  · simp [hblocks]
  · simp [hblocks]
  · rw [mem_singleton.mp hp, mem_singleton.mp hq] at hlt
    exact absurd hlt (lt_irrefl _)
  · have hnone : s.Obtained = fun _ => False := by
      funext x
      simp [Heap.Obtained, hchunks]
    have hzero : s.total = 0 := by simp [Heap.total, hchunks]
    rw [hblocks, hnone, hzero]
    exact Tiles.empty

/-- The first `malloc` makes a list of `base` alone. -/
theorem State.Good.init {s : State} (h : s.Good) :
    ∃ M f, Inv s.heap.init s.live M ∧ f ∈ M ∧ s.heap.init.freep = some f ∧
      (∀ x ∈ s.live, s.heap.init.size x = s.heap.size x) ∧
      ∀ n, 0 < n → (s.heap.Fits n ↔ ∃ b ∈ M, n ≤ s.heap.init.size b) := by
  rcases h with ⟨hfreep, hlive, hchunks, hlow⟩ | ⟨M, hinv, f, hf, hfreep⟩
  · have hinit : s.heap.init = { (s.heap.setPtr s.heap.base s.heap.base).setSize s.heap.base 0 with
        freep := some s.heap.base } := by
      rw [Heap.init, hfreep]
    rw [hinit, hlive]
    have hsize : ((s.heap.setPtr s.heap.base s.heap.base).setSize s.heap.base 0).size s.heap.base = 0 :=
      Heap.setSize_self _ _ (by decide)
    refine ⟨{s.heap.base}, s.heap.base, Inv.single (Function.update_self ..) hsize hchunks hlow, mem_singleton_self _,
      rfl, fun x hx => absurd hx (notMem_empty x), fun n hn => ⟨?_, ?_⟩⟩
    · rintro ⟨f, -, hf, -⟩
      rw [hfreep] at hf
      cases hf
    · rintro ⟨b, hb, hle⟩
      rw [mem_singleton.mp hb] at hle
      exact absurd (hle.trans_eq hsize) (Nat.not_le.mpr hn)
  · have hinit : s.heap.init = s.heap := by
      rw [Heap.init, hfreep]
    rw [hinit]
    refine ⟨M, f, hinv, hf, hfreep, fun _ _ => rfl, fun n _ => ⟨?_, ?_⟩⟩
    · rintro ⟨f', k, hf', hle⟩
      cases hfreep.symm.trans hf'
      exact ⟨_, hinv.ring.iterate_mem hf k, hle⟩
    · rintro ⟨b, hb, hle⟩
      obtain ⟨k, rfl⟩ := hinv.ring.reaches hf hb
      exact ⟨f, k, hfreep, hle⟩

theorem State.Good.malloc {s : State} (h : s.Good) {fuel : Nat} {sbrk : Sbrk} (hsmall : Small nbytes)
    {r : Option Nat} (hc : t.Counts) (hr : malloc fuel nbytes sbrk s.heap = some (r, t)) :
    Answer s.heap t s.live (unitsFor nbytes) r := by
  obtain ⟨M, f, hinv, hf, hfreep, hsize, -⟩ := h.init
  rw [Malloc.malloc] at hr
  simp only [hfreep] at hr
  exact (hinv.mallocSearch ⟨f, hf, hfreep⟩ (unitsFor_pos nbytes) hsmall hf hc hr).of_same hsize s.heap.init_frame.base

/-- What `malloc` does for a request of any size. -/
theorem State.Good.malloc_outcome {s : State} (h : s.Good) (hn : unitsFor nbytes < 2 ^ 32)
    (hroom : s.heap.total + coreUnits (unitsFor nbytes) * headerSize < headerSize * 2 ^ 32) (sbrk : Sbrk) :
    ∃ r M, Inv s.heap.init s.live M ∧ Outcome s.heap.init M (unitsFor nbytes) sbrk r ∧
      (s.heap.Fits (unitsFor nbytes) ↔ ∃ b ∈ M, unitsFor nbytes ≤ s.heap.init.size b) ∧
      ∃ n, ∀ fuel, n ≤ fuel → Malloc.malloc fuel nbytes sbrk s.heap = some r := by
  obtain ⟨M, f, hinv, hf, hfreep, -, hfits⟩ := h.init
  rw [← s.heap.init_frame.total] at hroom
  obtain ⟨r, hout, n, hr⟩ := hinv.mallocSearch_outcome hf hfreep (unitsFor_pos nbytes) hn hroom sbrk
  refine ⟨r, M, hinv, hout, hfits _ (unitsFor_pos nbytes), n, fun fuel hfuel => ?_⟩
  rw [Malloc.malloc]
  simp only [hfreep]
  exact hr fuel hfuel

/-- Pointers are only freed after the first `malloc`. -/
theorem State.Good.of_live {s : State} (h : s.Good) (hb : bp ∈ s.live) :
    ∃ M, Inv s.heap s.live M ∧ ∃ f ∈ M, s.heap.freep = some f := by
  rcases h with ⟨-, hlive, -⟩ | h
  · rw [hlive] at hb
    exact absurd hb (notMem_empty bp)
  · exact h

theorem State.Good.step {s t : State} (h : s.Good) (hc : t.heap.Counts) {a : Action} (ht : next s a = some t) :
    t.Good := by
  cases a with
  | malloc fuel nbytes sbrk =>
    obtain ⟨hsmall, ht⟩ := ite_none_right_eq_some.mp ht
    obtain ⟨⟨r, u⟩, hr, rfl⟩ := map_eq_some_iff.mp ht
    cases h.malloc hsmall hc hr with
    | null hinv hf => exact .inr ⟨_, hinv, hf⟩
    | block hq =>
      refine .inr ⟨_, ?_, hq.freep⟩
      rw [granted, Nat.add_sub_cancel]
      exact hq.inv
  | free fuel ap =>
    obtain ⟨⟨hle, hlive⟩, ht⟩ := ite_none_right_eq_some.mp ht
    obtain ⟨u, hu, rfl⟩ := map_eq_some_iff.mp ht
    obtain ⟨M, hinv, hf⟩ := h.of_live hlive
    obtain ⟨bp, rfl⟩ := Nat.exists_eq_add_of_le' hle
    rw [Nat.add_sub_cancel] at hlive ⊢
    have hcs : s.heap.Counts := by
      rw [Heap.Counts, ← (free_frame hu).total]
      exact hc
    obtain ⟨M', hfreed⟩ := hinv.free hcs hlive hf hu
    exact .inr ⟨M', hfreed.inv, hfreed.freep⟩

theorem malloc_total {fuel : Nat} {sbrk : Sbrk} {r : Option Nat}
    (hr : malloc fuel nbytes sbrk s = some (r, t)) : s.total ≤ t.total := by
  rw [malloc] at hr
  split at hr
  · cases hr
  · exact s.init_frame.total ▸ mallocSearch_total hr

theorem next_total {s t : State} {a : Action} (ht : next s a = some t) : s.heap.total ≤ t.heap.total := by
  cases a with
  | malloc fuel nbytes sbrk =>
    obtain ⟨-, ht⟩ := ite_none_right_eq_some.mp ht
    obtain ⟨⟨r, u⟩, hr, rfl⟩ := map_eq_some_iff.mp ht
    exact malloc_total hr
  | free fuel ap =>
    obtain ⟨-, ht⟩ := ite_none_right_eq_some.mp ht
    obtain ⟨u, hu, rfl⟩ := map_eq_some_iff.mp ht
    exact (free_frame hu).total.ge

theorem State.Good.of_reachable {s : State} (hs : Reachable Init next noGuard s) (hc : s.heap.Counts) : s.Good := by
  refine hs.invariant (fun s => s.heap.Counts → s.Good) (fun s h _ => .inl ⟨h.freep, h.live, h.chunks, h.low⟩) ?_ hc
  intro s a t ih _ ht hc
  exact (ih ((next_total ht).trans_lt hc)).step hc ht

/-- The free blocks `F`, linked from `f` through `base`. -/
structure FreeList (s : Heap) (f : Nat) (F : Finset Nat) : Prop where
  reached : ∀ q, q ∈ insert s.base F ↔ ∃ k, s.ptr^[k] f = q
  circular : ∃ k, s.ptr^[k + 1] f = f
  /-- One link does not lead upwards. -/
  wrap : ∃! p, p ∈ insert s.base F ∧ s.ptr p ≤ p
  ordered : ∀ p ∈ insert s.base F, p < s.ptr p → ∀ q ∈ insert s.base F, q ≤ p ∨ s.ptr p ≤ q
  apart : ∀ p ∈ F, ∀ q ∈ F, p < q → p + s.len p < q

theorem Inv.freeList (h : Inv s live M) {f : Nat} (hf : f ∈ M) : FreeList s f (M.erase s.base) := by
  have hM : insert s.base (M.erase s.base) = M := insert_erase h.base
  refine ⟨fun q => ?_, ?_, ?_, ?_, fun p hp q hq hlt => ?_⟩
  · rw [hM]
    constructor
    · exact h.ring.reaches hf
    · rintro ⟨k, rfl⟩
      exact h.ring.iterate_mem hf k
  · obtain ⟨k, hk⟩ := h.ring.reaches (h.ring.mem f hf) hf
    exact ⟨k, hk⟩
  · rw [hM]
    exact h.ring.wrap_unique hf
  · rw [hM]
    intro p hp hlt
    rcases h.ring.step p hp with ⟨-, hup⟩ | htop
    · exact hup
    · exact absurd (htop p hp).1 (Nat.not_le.mpr hlt)
  · have hpM := mem_of_mem_erase hp
    have hqM := mem_of_mem_erase hq
    have hq' : q ∈ blocks s live M := mem_union_left _ hq
    exact lt_of_le_of_ne (h.free_disjoint hpM hq' hlt) (h.apart p hpM q hqM hlt)

/-- Two blocks have no byte in common. -/
def Heap.Apart (s : Heap) (b c : Nat) : Prop := b + s.len b ≤ c ∨ c + s.len c ≤ b

/-- In every state that a program reaches, as long as the size field can count what `sbrk` has given: the free list
is one cycle in address order, free blocks and the blocks of the program tile the memory from `sbrk`, `malloc` gives
aligned memory of the size asked for that no other block of the program has, and both functions return. -/
theorem heap_blocks {s : State} (hs : Reachable Init next noGuard s) (hc : s.heap.Counts) :
    ((s.heap.freep = none ∧ s.live = ∅ ∧ s.heap.chunks = []) ∨
      ∃ f F, s.heap.freep = some f ∧ FreeList s.heap f F ∧ Disjoint F s.live ∧
        Tiles (F ∪ s.live) s.heap.len s.heap.Obtained s.heap.total) ∧
    (∀ nbytes sbrk, Small nbytes →
      (∀ fuel ap t, malloc fuel nbytes sbrk s.heap = some (some ap, t) → t.Counts →
        ap % 16 = 0 ∧ nbytes + headerSize ≤ t.len (ap - headerSize) ∧
        ∀ b ∈ s.live, t.len b = s.heap.len b ∧ t.Apart b (ap - headerSize)) ∧
      (s.heap.total + coreUnits (unitsFor nbytes) * headerSize < headerSize * 2 ^ 32 →
        ∃ r n, ∀ fuel, n ≤ fuel → malloc fuel nbytes sbrk s.heap = some r)) ∧
    ∀ bp ∈ s.live, ∃ t n, ∀ fuel, n ≤ fuel → free fuel (bp + headerSize) s.heap = some t := by
  have hgood := State.Good.of_reachable hs hc
  refine ⟨?_, fun nbytes sbrk hsmall => ⟨fun fuel ap t hr hct => ?_, fun hroom => ?_⟩, fun bp hbp => ?_⟩
  · rcases hgood with ⟨hfreep, hlive, hchunks, -⟩ | ⟨M, hinv, f, hf, hfreep⟩
    · exact .inl ⟨hfreep, hlive, hchunks⟩
    · refine .inr ⟨f, M.erase s.heap.base, hfreep, hinv.freeList hf, ?_, hinv.tiles⟩
      exact hinv.separate.mono_left (erase_subset ..)
  · generalize hsome : some ap = r at hr
    cases hgood.malloc hsmall hct hr with
    | null => cases hsome
    | @block q M hq =>
      cases hsome
      have hmem : q ∈ blocks t (insert q s.live) M := mem_blocks.mpr (.inr (mem_insert_self ..))
      rw [Nat.add_sub_cancel]
      refine ⟨?_, ?_, fun b hb => ⟨?_, ?_⟩⟩
      · have := hq.inv.aligned q hmem
        rw [headerSize] at this ⊢
        omega
      · rw [Heap.len, hq.size]
        exact le_unitsFor nbytes
      · rw [Heap.len, hq.others b hb]
        rfl
      · have hb' : b ∈ blocks t (insert q s.live) M := mem_blocks.mpr (.inr (mem_insert_of_mem hb))
        rcases lt_trichotomy b q with hlt | rfl | hgt
        · exact .inl (hq.inv.tiles.disjoint b hb' q hmem hlt)
        · exact absurd hb hq.fresh
        · exact .inr (hq.inv.tiles.disjoint q hmem b hb' hgt)
  · obtain ⟨r, -, -, -, -, hr⟩ := hgood.malloc_outcome hsmall.lt hroom sbrk
    exact ⟨r, hr⟩
  · obtain ⟨M, hinv, hf⟩ := hgood.of_live hbp
    exact hinv.free_returns hbp hf

/-- A heap before the first `malloc`. -/
def emptyHeap : State where
  heap := ⟨4096, none, fun _ => 0, fun _ => 0, 8192, []⟩
  live := ∅

theorem init_emptyHeap : Init emptyHeap := ⟨rfl, rfl, rfl, by decide⟩

/-- Memory that starts where the last ended. -/
def contiguous : Sbrk where
  result brk _ := if brk % headerSize = 0 then some brk else none
  above brk n a h := by
    obtain ⟨-, h⟩ := ite_none_right_eq_some.mp h
    exact (some.inj h).le
  aligned brk n a h := by
    obtain ⟨ha, h⟩ := ite_none_right_eq_some.mp h
    exact some.inj h ▸ ha

/-- Two blocks are taken and the upper one is freed. -/
def smallProgram : List Action :=
  [.malloc 5 100 contiguous, .malloc 5 24 contiguous, .free 5 (8192 + (4096 - 8) * headerSize + headerSize)]

theorem small_program_blocks :
    ∃ s, run next emptyHeap smallProgram = some s ∧ s.live = {8192 + (4096 - 11) * headerSize} ∧
      (∃ f F, s.heap.freep = some f ∧ FreeList s.heap f F ∧ Disjoint F s.live ∧
        Tiles (F ∪ s.live) s.heap.len s.heap.Obtained (4096 * headerSize)) ∧
      ∃ r n, ∀ fuel, n ≤ fuel → malloc fuel 100 contiguous s.heap = some r := by
  have hrun : ((run next emptyHeap smallProgram).map fun s => (s.live, s.heap.total, s.heap.freep.isSome)) =
      some ({8192 + (4096 - 11) * headerSize}, 4096 * headerSize, true) := by decide +kernel
  obtain ⟨s, hs, hres⟩ := map_eq_some_iff.mp hrun
  obtain ⟨hlive, hres⟩ := Prod.mk.inj hres
  obtain ⟨htotal, hsome⟩ := Prod.mk.inj hres
  have hc : s.heap.Counts := by
    rw [Heap.Counts, htotal]
    decide
  obtain ⟨hlist, hmalloc, -⟩ := heap_blocks (reachable_run (.start init_emptyHeap) hs) hc
  refine ⟨s, hs, hlive, ?_, (hmalloc 100 contiguous (by decide)).2 ?_⟩
  · rcases hlist with ⟨hnone, -⟩ | hlist
    · rw [hnone] at hsome
      cases hsome
    · rw [htotal] at hlist
      exact hlist
  · rw [htotal]
    decide

/-- The largest request that `sbrk` can take, in bytes. -/
def largest : Nat := (2 ^ 27 - 2) * headerSize

/-- 33 blocks of the largest size are taken and freed from the lowest on. -/
def largeProgram : List Action :=
  List.replicate 33 (.malloc 5 largest contiguous) ++
    (List.range 33).map fun i => .free 5 (8192 + headerSize + i * ((2 ^ 27 - 1) * headerSize))

/-- When everything is free again, the size of the one free block has wrapped: the rest of the memory is lost. -/
theorem joined_size_wraps :
    ∃ s f, Reachable Init next noGuard s ∧ s.live = ∅ ∧ s.heap.freep = some f ∧
      ¬ ∃ F, FreeList s.heap f F ∧ Tiles (F ∪ s.live) s.heap.len s.heap.Obtained s.heap.total := by
  have hrun : ((run next emptyHeap largeProgram).map fun s => (s.live, s.heap.freep, s.heap.chunks.getLast?,
      [s.heap.ptr 4096, s.heap.ptr 8192, s.heap.size 4096, s.heap.size 8192])) =
      some (∅, some 8192, some (8192, (2 ^ 27 - 1) * headerSize), [8192, 4096, 0, 2 ^ 27 - 33]) := by
    decide +kernel
  obtain ⟨s, hs, hres⟩ := map_eq_some_iff.mp hrun
  simp only [Prod.mk.injEq, List.cons.injEq] at hres
  obtain ⟨hlive, hfreep, hchunk, hptr, hptr', hsize, hsize', -⟩ := hres
  refine ⟨s, 8192, reachable_run (.start init_emptyHeap) hs, hlive, hfreep, ?_⟩
  rintro ⟨F, hlist, htiles⟩
  have hnodes : ∀ k, s.heap.ptr^[k] 8192 = 4096 ∨ s.heap.ptr^[k] 8192 = 8192 := by
    intro k
    induction k with
    | zero => exact .inr rfl
    | succ k ih =>
      rw [Function.iterate_succ_apply']
      rcases ih with h | h
      · rw [h]
        exact .inr hptr
      · rw [h]
        exact .inl hptr'
  -- the byte right after what the size field says
  have hobtained : s.heap.Obtained (8192 + headerSize * (2 ^ 27 - 33)) := by
    refine ⟨_, List.mem_of_getLast? hchunk, ?_⟩
    decide
  obtain ⟨b, hb, hle, hlt⟩ := (htiles.cover _).mp hobtained
  rw [hlive, union_empty] at hb
  obtain ⟨k, hk⟩ := (hlist.reached b).mp (mem_insert_of_mem hb)
  rcases hnodes k with h | h
  · rw [← hk, h, Heap.len, hsize] at hlt
    revert hlt
    decide
  · rw [← hk, h, Heap.len, hsize'] at hlt
    exact lt_irrefl _ hlt

end Xv6Lab.Malloc
