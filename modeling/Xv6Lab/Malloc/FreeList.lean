import Xv6Lab.Lib.Rings
import Xv6Lab.Lib.Tiling
import Xv6Lab.Malloc.Model

/-!
# The free list and the blocks

`Inv s live M` says that the nodes `M` form the free list, with `base` as its lowest node, and that they tile the
memory from `sbrk` together with the blocks `live` of the program. `keep`, `merge` and `cut` carry the invariant over
the changes of blocks that the allocator makes; `Inv.free` is what a call of `free` leaves.
-/

open Xv6Lab.Lib.Rings Xv6Lab.Lib.Tiling

namespace Xv6Lab.Malloc

open Finset Heap Malloc

variable {s t : Heap} {live M : Finset Nat} {bp p b : Nat}

/-- All blocks; `base` has no memory. -/
def blocks (s : Heap) (live M : Finset Nat) : Finset Nat := M.erase s.base ∪ live

structure Inv (s : Heap) (live M : Finset Nat) : Prop where
  base : s.base ∈ M
  base_size : s.size s.base = 0
  base_low : s.base + headerSize ≤ s.brk
  ring : OrderedRing s.ptr M
  separate : Disjoint M live
  low : ∀ b ∈ blocks s live M, s.base < b
  high : ∀ b ∈ blocks s live M, b + s.len b ≤ s.brk
  aligned : ∀ b ∈ blocks s live M, b % headerSize = 0
  /-- No free block ends where another starts. -/
  apart : ∀ p ∈ M, ∀ q ∈ M, p < q → p + s.len p ≠ q
  tiles : Tiles (blocks s live M) s.len s.Obtained s.total

/-- The size field can count what `sbrk` has given. -/
def Heap.Counts (s : Heap) : Prop := s.total < headerSize * 2 ^ 32

/-- Steps that get no memory. -/
structure Frame (s t : Heap) : Prop where
  base : t.base = s.base
  brk : t.brk = s.brk
  chunks : t.chunks = s.chunks

theorem Frame.total (h : Frame s t) : t.total = s.total := by
  rw [Heap.total, Heap.total, h.chunks]

theorem Frame.obtained (h : Frame s t) : t.Obtained = s.Obtained := by
  funext x
  rw [Obtained, Obtained, h.chunks]

/-- What `Inv` says about links. -/
structure Linked (t : Heap) (live M : Finset Nat) : Prop where
  base : t.base ∈ M
  ring : OrderedRing t.ptr M
  separate : Disjoint M live
  apart : ∀ p ∈ M, ∀ q ∈ M, p < q → p + t.len p ≠ q

/-- The node `b` of `M'` has the memory of the block `bp`, and the other nodes are nodes of `M` as they were. -/
structure Holds (s t : Heap) (bp : Nat) (M M' : Finset Nat) (b : Nat) : Prop where
  mem : b ∈ M'
  le : b ≤ bp
  up : bp + s.len bp ≤ b + t.len b
  others : ∀ x ∈ M', x ≠ b → x ∈ M ∧ t.size x = s.size x

theorem Heap.setSize_self (s : Heap) (p : Nat) {n : Nat} (h : n < 2 ^ 32) : (s.setSize p n).size p = n :=
  (Function.update_self ..).trans (Nat.mod_eq_of_lt h)

/-- Blocks of one size have one length. -/
theorem len_congr (h : t.size b = s.size b) : t.len b = s.len b := by
  rw [len, h, len]

theorem len_add {c : Nat} (h : t.size b = s.size b + s.size c) : t.len b = s.len b + s.len c := by
  rw [len, h, Nat.mul_add, len, len]

theorem mem_blocks : b ∈ blocks s live M ↔ (b ≠ s.base ∧ b ∈ M) ∨ b ∈ live := by
  rw [blocks, mem_union, mem_erase]

namespace Inv

section

variable (h : Inv s live M)
include h

theorem mem_live (hb : b ∈ live) : b ∈ blocks s live M ∧ b ∉ M ∧ s.base < b := by
  have hblock : b ∈ blocks s live M := mem_blocks.mpr (.inr hb)
  exact ⟨hblock, fun hM => disjoint_left.mp h.separate hM hb, h.low b hblock⟩

theorem mem_free (hb : b ∈ M) : b = s.base ∨ (b ∈ blocks s live M ∧ s.base < b) := by
  rcases eq_or_ne b s.base with heq | hne
  · exact .inl heq
  · have hblock : b ∈ blocks s live M := mem_blocks.mpr (.inl ⟨hne, hb⟩)
    exact .inr ⟨hblock, h.low b hblock⟩

theorem base_len : s.len s.base = 0 := by
  rw [len, h.base_size, Nat.mul_zero]

/-- A node of the list ends before what starts after it. -/
theorem free_disjoint (hp : p ∈ M) (hb : b ∈ blocks s live M) (hlt : p < b) : p + s.len p ≤ b := by
  rcases h.mem_free hp with rfl | ⟨hblock, -⟩
  · rw [h.base_len]
    exact hlt.le
  · exact h.tiles.disjoint p hblock b hb hlt

/-- The loop of `free` stops behind the last node below the block. -/
theorem stop_iff (hp : p ∈ M) (hb : s.base < bp) :
    ((bp > p ∧ bp < s.ptr p) ∨ (p ≥ s.ptr p ∧ (bp > p ∨ bp < s.ptr p))) ↔ Before M p bp := by
  constructor
  · intro hstop
    rcases h.ring.step p hp with ⟨hlt, hup⟩ | htop
    · have hin : p < bp ∧ bp < s.ptr p := by omega
      refine ⟨hp, hin.1, fun q hq => ?_⟩
      exact (hup q hq).imp_right hin.2.trans_le
    · have hlow := (htop _ h.base).1
      have hgt : p < bp := by omega
      exact ⟨hp, hgt, fun q hq => .inl (htop q hq).2⟩
  · intro hbefore
    have := hbefore.lt
    rcases h.ring.next_of_before hbefore with hlt | hle <;> omega

end

/-! ## Changes of the blocks

Each lemma leaves the parts of the invariant that are about links to its caller and carries over what is about
memory. -/

variable {live' M' : Finset Nat} {c : Nat}

section

variable (h : Inv s live M) (hf : Frame s t) (hl : Linked t live' M')
include h hf hl

/-- The blocks are the same. -/
theorem keep (hblocks : blocks t live' M' = blocks s live M) (hsize : t.size = s.size) : Inv t live' M' := by
  have hlen : t.len = s.len := funext fun x => len_congr (by rw [hsize])
  refine ⟨hl.base, ?_, ?_, hl.ring, hl.separate, ?_, ?_, ?_, hl.apart, ?_⟩
  · rw [hsize, hf.base]
    exact h.base_size
  · rw [hf.base, hf.brk]
    exact h.base_low
  · rw [hblocks, hf.base]
    exact h.low
  · rw [hblocks, hlen, hf.brk]
    exact h.high
  · rw [hblocks]
    exact h.aligned
  · rw [hblocks, hlen, hf.obtained, hf.total]
    exact h.tiles

/-- The block `c` is joined to the block `b` before it. -/
theorem merge
    (hblocks : blocks t live' M' = (blocks s live M).erase c) (hb : b ∈ blocks s live M) (hc : c ∈ blocks s live M)
    (hadj : b + s.len b = c) (hsize : t.size b = s.size b + s.size c) (hoff : ∀ x ≠ b, t.size x = s.size x) :
    Inv t live' M' := by
  have hlen_off : ∀ x ≠ b, t.len x = s.len x := fun x hx => len_congr (hoff x hx)
  have hbase : b ≠ s.base := (h.low b hb).ne'
  refine ⟨hl.base, ?_, ?_, hl.ring, hl.separate, ?_, ?_, ?_, hl.apart, ?_⟩
  · rw [hf.base, hoff _ hbase.symm]
    exact h.base_size
  · rw [hf.base, hf.brk]
    exact h.base_low
  · rw [hblocks, hf.base]
    exact fun x hx => h.low x (mem_of_mem_erase hx)
  · rw [hblocks, hf.brk]
    intro x hx
    rcases eq_or_ne x b with rfl | hxb
    · have := h.high c hc
      rw [len_add hsize]
      omega
    · rw [hlen_off x hxb]
      exact h.high x (mem_of_mem_erase hx)
  · rw [hblocks]
    exact fun x hx => h.aligned x (mem_of_mem_erase hx)
  · rw [hblocks, hf.obtained, hf.total]
    exact h.tiles.merge hb hc hadj (len_add hsize) fun x _ hxb _ => hlen_off x hxb

/-- The block `b` keeps `k` headers; the rest is a block of its own. -/
theorem cut {k : Nat}
    (hblocks : blocks t live' M' = insert (b + headerSize * k) (blocks s live M)) (hb : b ∈ blocks s live M)
    (hk : 0 < k) (hlt : k < s.size b) (hleft : t.size b = k) (hright : t.size (b + headerSize * k) = s.size b - k)
    (hoff : ∀ x ≠ b, x ≠ b + headerSize * k → t.size x = s.size x) : Inv t live' M' := by
  have hlt' : headerSize * k < s.len b := Nat.mul_lt_mul_of_pos_left hlt (by decide)
  have hpos : 0 < headerSize * k := Nat.mul_pos (by decide) hk
  have hrest : t.len (b + headerSize * k) = s.len b - headerSize * k := by
    rw [len, hright, Nat.mul_sub]
    rfl
  have hleft' : t.len b = headerSize * k := by
    rw [len, hleft]
  have hnew : b + headerSize * k ∉ blocks s live M := by
    intro hmem
    have := h.tiles.disjoint b hb _ hmem (by omega)
    omega
  have hlen_off : ∀ x ≠ b, x ≠ b + headerSize * k → t.len x = s.len x :=
    fun x hx hx' => len_congr (hoff x hx hx')
  have hbase := h.low b hb
  refine ⟨hl.base, ?_, ?_, hl.ring, hl.separate, ?_, ?_, ?_, hl.apart, ?_⟩
  · rw [hf.base, hoff _ (by omega) (by omega)]
    exact h.base_size
  · rw [hf.base, hf.brk]
    exact h.base_low
  · rw [hblocks, hf.base]
    refine forall_mem_insert _ _ _ |>.mpr ⟨by omega, h.low⟩
  · rw [hblocks, hf.brk]
    have hhigh := h.high b hb
    refine forall_mem_insert _ _ _ |>.mpr ⟨by omega, fun x hx => ?_⟩
    rcases eq_or_ne x b with rfl | hxb
    · omega
    · rw [hlen_off x hxb fun heq => hnew (heq ▸ hx)]
      exact h.high x hx
  · rw [hblocks]
    refine forall_mem_insert _ _ _ |>.mpr ⟨?_, h.aligned⟩
    rw [Nat.add_mul_mod_self_left]
    exact h.aligned b hb
  · rw [hblocks, hf.obtained, hf.total]
    exact h.tiles.split hb hpos hlt' hleft' hrest fun x hx hxb => hlen_off x hxb fun heq => hnew (heq ▸ hx)

end

/-! ## `free` -/

/-- After `joinUpper`, if the node before the block is taken to lead where the block leads, the block is off the list
and does not touch the free block after it. -/
theorem joinUpper (h : Inv s live M) (hc : s.Counts) (hb : bp ∈ live) (hp : Before M p bp)
    (ht : t = (joinUpper s bp p).setPtr p ((joinUpper s bp p).ptr bp)) :
    ∃ M' ⊆ M, Inv t live M' ∧ Before M' p bp ∧ t.ptr bp = t.ptr p ∧ (∀ q ∈ M', bp + t.len bp ≠ q) ∧
      s.size bp ≤ t.size bp ∧ ∀ x ≠ bp, t.size x = s.size x := by
  obtain ⟨hblock, hbM, hlow⟩ := h.mem_live hb
  have hpos := h.tiles.pos bp hblock
  have hne : bp ≠ p := hp.lt.ne'
  have hnM := h.ring.mem p hp.mem
  -- the free block that `bp` may touch is the one its predecessor leads to
  have hnext : ∀ q ∈ M, bp + s.len bp = q → q = s.ptr p := by
    intro q hq hadj
    rcases h.ring.step p hp.mem with ⟨hlt, hup⟩ | htop
    · have hpq := hp.lt
      have hle : s.ptr p ≤ q := (hup q hq).resolve_left (by omega)
      have hbn : bp < s.ptr p := (hp.last _ hnM).resolve_left (by omega)
      have hblock' : s.ptr p ∈ blocks s live M := mem_blocks.mpr (.inl ⟨by omega, hnM⟩)
      have := h.tiles.disjoint bp hblock _ hblock' hbn
      omega
    · have := (htop q hq).2
      have := hp.lt
      omega
  rw [Malloc.joinUpper] at ht
  split at ht
  next hadj =>
    have hbn : bp < s.ptr p := by omega
    have hblock' : s.ptr p ∈ blocks s live M := mem_blocks.mpr (.inl ⟨by omega, hnM⟩)
    have hlive : s.ptr p ∉ live := fun hl => (h.mem_live hl).2.1 hnM
    have hsum : s.size bp + s.size (s.ptr p) < 2 ^ 32 := by
      have hle := h.tiles.add_le hblock hblock' hbn.ne
      rw [Counts, headerSize] at hc
      rw [len, len, headerSize] at hle
      omega
    have hsize : t.size bp = s.size bp + s.size (s.ptr p) := by
      rw [ht]
      exact setSize_self s _ hsum
    have hoff : ∀ x ≠ bp, t.size x = s.size x := by
      intro x hx
      rw [ht]
      simp [setPtr, setSize, hx]
    have hptr : ∀ x ≠ p, x ≠ bp → t.ptr x = s.ptr x := by
      intro x hx hx'
      rw [ht]
      simp [setPtr, setSize, hx, hx']
    have hptr_p : t.ptr p = s.ptr (s.ptr p) := by
      rw [ht]
      simp [setPtr, setSize]
    have hptr_b : t.ptr bp = s.ptr (s.ptr p) := by
      rw [ht]
      simp [setPtr, setSize, hne]
    have hbase : t.base = s.base := ht ▸ rfl
    have hnot : ∀ x ∈ M, x ≠ bp := fun x hx heq => hbM (heq ▸ hx)
    have hl : Linked t live (M.erase (s.ptr p)) := by
      refine ⟨?_, ?_, ?_, fun x hx y hy hlt => ?_⟩
      · rw [hbase]
        exact mem_erase.mpr ⟨by omega, h.base⟩
      · refine h.ring.unlink hp.mem (by have := hp.lt; omega) (fun q hq hqp _ => ?_) hptr_p
        exact hptr q hqp (hnot q hq)
      · exact h.separate.mono_left (erase_subset ..)
      · have hxM := mem_of_mem_erase hx
        rw [len_congr (hoff x (hnot x hxM))]
        exact h.apart x hxM y (mem_of_mem_erase hy) hlt
    refine ⟨M.erase (s.ptr p), erase_subset .., ?_, ?_, hptr_b.trans hptr_p.symm, fun q hq => ?_, by omega, hoff⟩
    · refine h.merge ⟨hbase, ht ▸ rfl, ht ▸ rfl⟩ hl ?_ hblock hblock' hadj hsize hoff
      ext x
      rw [mem_blocks, mem_erase, mem_erase, mem_blocks, hbase]
      have : x ∈ live → x ≠ s.ptr p := fun hx heq => hlive (heq ▸ hx)
      tauto
    · refine ⟨mem_erase.mpr ⟨by have := hp.lt; omega, hp.mem⟩, hp.lt, fun q hq => ?_⟩
      exact hp.last q (mem_of_mem_erase hq)
    · obtain ⟨hqn, hqM⟩ := mem_erase.mp hq
      rw [len_add hsize, ← Nat.add_assoc, hadj]
      intro heq
      exact h.apart _ hnM q hqM (by omega) heq
  next hadj =>
    have hptr_p : t.ptr p = s.ptr p := by
      rw [ht]
      simp [setPtr]
    have hptr_b : t.ptr bp = s.ptr p := by
      rw [ht]
      simp [setPtr, hne]
    have hptr : ∀ x ≠ bp, t.ptr x = s.ptr x := by
      intro x hx
      rw [ht]
      rcases eq_or_ne x p with rfl | hxp
      · simp [setPtr]
      · simp [setPtr, hx, hxp]
    have hsize : t.size = s.size := ht ▸ rfl
    have hlen : t.len = s.len := funext fun x => len_congr (by rw [hsize])
    have hbase : t.base = s.base := ht ▸ rfl
    refine ⟨M, Subset.rfl, ?_, hp, hptr_b.trans hptr_p.symm, fun q hq heq => ?_, by rw [hsize],
      fun x _ => by rw [hsize]⟩
    · refine h.keep ⟨hbase, ht ▸ rfl, ht ▸ rfl⟩ ⟨hbase ▸ h.base, ?_, h.separate, ?_⟩ ?_ hsize
      · exact h.ring.congr fun q hq => hptr q fun heq => hbM (heq ▸ hq)
      · rw [hlen]
        exact h.apart
      · rw [blocks, hbase]
        rfl
    · rw [hlen] at heq
      exact hadj (heq.trans (hnext q hq heq))

/-- `joinLower` puts the block on the list, or makes it part of the block before it. -/
theorem joinLower (h : Inv s live M) (hc : s.Counts) (hb : bp ∈ live) (hp : Before M p bp) (heq : s.ptr bp = s.ptr p)
    (hup : ∀ q ∈ M, bp + s.len bp ≠ q) (ht : t = joinLower s bp p) :
    ∃ M', Inv t (live.erase bp) M' ∧ p ∈ M' ∧ (∃ b, Holds s t bp M M' b) ∧ ∀ x ∉ M, t.size x = s.size x := by
  obtain ⟨hblock, hbM, hlow⟩ := h.mem_live hb
  have hne : bp ≠ p := hp.lt.ne'
  rw [Malloc.joinLower] at ht
  split at ht
  next hadj =>
    have hpbase : p ≠ s.base := by
      rintro rfl
      rw [h.base_len] at hadj
      omega
    have hblock' : p ∈ blocks s live M := mem_blocks.mpr (.inl ⟨hpbase, hp.mem⟩)
    have hsum : s.size p + s.size bp < 2 ^ 32 := by
      have hle := h.tiles.add_le hblock' hblock hp.lt.ne
      rw [Counts, headerSize] at hc
      rw [len, len, headerSize] at hle
      omega
    have hsize : t.size p = s.size p + s.size bp := by
      rw [ht]
      exact setSize_self s _ hsum
    have hoff : ∀ x ≠ p, t.size x = s.size x := by
      intro x hx
      rw [ht]
      simp [setPtr, setSize, hx]
    have hptr : t.ptr = s.ptr := by
      rw [ht]
      simp [setPtr, setSize, heq]
    have hbase : t.base = s.base := ht ▸ rfl
    have hl : Linked t (live.erase bp) M := by
      refine ⟨hbase ▸ h.base, hptr ▸ h.ring, h.separate.mono_right (erase_subset ..), fun x hx y hy hlt => ?_⟩
      rcases eq_or_ne x p with rfl | hxp
      · rw [len_add hsize, ← Nat.add_assoc, hadj]
        exact hup y hy
      · rw [len_congr (hoff x hxp)]
        exact h.apart x hx y hy hlt
    have hholds : Holds s t bp M M p := by
      refine ⟨hp.mem, hp.lt.le, ?_, fun x hx hxp => ⟨hx, hoff x hxp⟩⟩
      rw [len_add hsize, ← Nat.add_assoc, hadj]
    refine ⟨M, ?_, hp.mem, ⟨p, hholds⟩, fun x hx => hoff x fun heq => hx (heq ▸ hp.mem)⟩
    refine h.merge ⟨hbase, ht ▸ rfl, ht ▸ rfl⟩ hl ?_ hblock' hblock hadj hsize hoff
    ext x
    rw [mem_blocks, mem_erase, mem_erase, mem_blocks, hbase]
    have : x ∈ M → x ≠ bp := fun hx heq => hbM (heq ▸ hx)
    tauto
  next hadj =>
    have hsize : t.size = s.size := ht ▸ rfl
    have hlen : t.len = s.len := funext fun x => len_congr (by rw [hsize])
    have hbase : t.base = s.base := ht ▸ rfl
    have hptr_p : t.ptr p = bp := by
      rw [ht]
      simp [setPtr]
    have hptr : ∀ x ≠ p, t.ptr x = s.ptr x := by
      intro x hx
      rw [ht]
      simp [setPtr, hx]
    have hl : Linked t (live.erase bp) (insert bp M) := by
      refine ⟨hbase ▸ mem_insert_of_mem h.base, ?_, ?_, fun x hx y hy hlt => ?_⟩
      · exact h.ring.link hp hbM (fun q _ hqp => hptr q hqp) hptr_p ((hptr bp hne).trans heq)
      · rw [disjoint_insert_left]
        exact ⟨notMem_erase bp live, h.separate.mono_right (erase_subset ..)⟩
      rw [hlen]
      rcases mem_insert.mp hx with rfl | hxM <;> rcases mem_insert.mp hy with rfl | hyM
      · omega
      · exact hup y hyM
      · -- a node before `p` ends before `p`
        rcases hp.last x hxM with hle | hgt
        · rcases hle.eq_or_lt with rfl | hxp
          · exact hadj
          have hp_block : p ∈ blocks s live M := by
            rcases h.mem_free hp.mem with rfl | hpb
            · rcases h.mem_free hxM with rfl | hxb
              · omega
              · omega
            · exact hpb.1
          have := h.free_disjoint hxM hp_block hxp
          have := hp.lt
          omega
        · omega
      · exact h.apart x hxM y hyM hlt
    have hholds : Holds s t bp M (insert bp M) bp := by
      refine ⟨mem_insert_self .., le_rfl, by rw [hlen], fun x hx hxb => ⟨?_, by rw [hsize]⟩⟩
      exact (mem_insert.mp hx).resolve_left hxb
    refine ⟨insert bp M, ?_, mem_insert_of_mem hp.mem, ⟨bp, hholds⟩, fun x _ => by rw [hsize]⟩
    refine h.keep ⟨hbase, ht ▸ rfl, ht ▸ rfl⟩ hl ?_ hsize
    ext x
    rw [mem_blocks, mem_insert, mem_erase, mem_blocks, hbase]
    rcases eq_or_ne x bp with rfl | hx
    · have : x ≠ s.base := hlow.ne'
      tauto
    · tauto

theorem setFreep (h : Inv s live M) (f : Option Nat) : Inv { s with freep := f } live M :=
  ⟨h.base, h.base_size, h.base_low, h.ring, h.separate, h.low, h.high, h.aligned, h.apart, h.tiles⟩

end Inv

/-- The second half of `free` overwrites where the node before the block leads. -/
theorem joinLower_setPtr (s : Heap) {q : Nat} (hne : bp ≠ p) : joinLower (s.setPtr p q) bp p = joinLower s bp p := by
  have hlen : (s.setPtr p q).len p = s.len p := rfl
  have hptr : (s.setPtr p q).ptr bp = s.ptr bp := Function.update_of_ne hne _ _
  rw [joinLower, joinLower, hlen, hptr]
  simp [setPtr, setSize]

/-- The two tests of the loop as one. -/
theorem freeSearch_succ (s : Heap) (bp fuel p : Nat) : freeSearch s bp (fuel + 1) p =
    if (bp > p ∧ bp < s.ptr p) ∨ (p ≥ s.ptr p ∧ (bp > p ∨ bp < s.ptr p)) then some p
    else freeSearch s bp fuel (s.ptr p) := by
  rw [freeSearch, ite_or]

theorem freeSearch_spec (h : Inv s live M) (hb : s.base < bp) {fuel q : Nat} (hp : p ∈ M)
    (hq : freeSearch s bp fuel p = some q) : Before M q bp := by
  induction fuel generalizing p with
  | zero => cases hq
  | succ fuel ih =>
    rw [freeSearch_succ] at hq
    split at hq
    next hstop =>
      cases hq
      exact (h.stop_iff hp hb).mp hstop
    · exact ih (h.ring.mem p hp) hq

theorem freeSearch_returns (h : Inv s live M) (hb : s.base < bp) (hbM : bp ∉ M) (hp : p ∈ M) :
    ∃ q n, ∀ fuel, n ≤ fuel → freeSearch s bp fuel p = some q := by
  obtain ⟨q, hq⟩ := Before.exists_of_lt h.base hb hbM
  obtain ⟨k, hk⟩ := h.ring.reaches hp hq.mem
  -- the search is at the right node after `k` steps, if it has not stopped before
  induction k generalizing p with
  | zero =>
    obtain rfl : p = q := hk
    refine ⟨p, 1, fun fuel hfuel => ?_⟩
    obtain ⟨fuel, rfl⟩ := Nat.exists_eq_add_of_le' hfuel
    rw [freeSearch_succ, if_pos ((h.stop_iff hp hb).mpr hq)]
  | succ k ih =>
    obtain ⟨r, n, hr⟩ := ih (h.ring.mem p hp) hk
    by_cases hstop : (bp > p ∧ bp < s.ptr p) ∨ (p ≥ s.ptr p ∧ (bp > p ∨ bp < s.ptr p))
    · refine ⟨p, 1, fun fuel hfuel => ?_⟩
      obtain ⟨fuel, rfl⟩ := Nat.exists_eq_add_of_le' hfuel
      rw [freeSearch_succ, if_pos hstop]
    · refine ⟨r, n + 1, fun fuel hfuel => ?_⟩
      obtain ⟨fuel, rfl⟩ := Nat.exists_eq_add_of_le' (Nat.le_of_add_left_le hfuel)
      rw [freeSearch_succ, if_neg hstop]
      exact hr fuel (by omega)

/-- What a call of `free` for the block `bp` leaves. -/
structure Freed (s t : Heap) (live : Finset Nat) (bp : Nat) (M M' : Finset Nat) : Prop where
  inv : Inv t (live.erase bp) M'
  freep : ∃ f ∈ M', t.freep = some f
  /-- The memory of the block is part of a free block. -/
  kept : ∃ b, Holds s t bp M M' b
  others : ∀ x ∈ live, x ≠ bp → t.size x = s.size x

theorem free_frame {fuel ap : Nat} (ht : free fuel ap s = some t) : Frame s t := by
  rw [free] at ht
  split at ht
  · cases ht
  next f _ =>
    obtain ⟨p, -, rfl⟩ := Option.map_eq_some_iff.mp ht
    constructor <;> (rw [joinLower]; split <;> rw [joinUpper] <;> split <;> rfl)

theorem Inv.free (h : Inv s live M) (hc : s.Counts) (hb : bp ∈ live) (hf : ∃ f ∈ M, s.freep = some f) {fuel : Nat}
    (ht : free fuel (bp + headerSize) s = some t) : ∃ M', Freed s t live bp M M' := by
  obtain ⟨f, hfM, hf⟩ := hf
  obtain ⟨-, hbM, hlow⟩ := h.mem_live hb
  rw [Malloc.free, Nat.add_sub_cancel, hf] at ht
  obtain ⟨p, hp, rfl⟩ := Option.map_eq_some_iff.mp ht
  have hbefore := freeSearch_spec h hlow hfM hp
  have hne : bp ≠ p := hbefore.lt.ne'
  obtain ⟨M₁, hsub, hu, hp₁, heq, hup, hge, hoff⟩ := h.joinUpper hc hb hbefore rfl
  have hc' : ((Malloc.joinUpper s bp p).setPtr p ((Malloc.joinUpper s bp p).ptr bp)).Counts := by
    have hchunks : (Malloc.joinUpper s bp p).chunks = s.chunks := by
      rw [Malloc.joinUpper]
      split <;> rfl
    rw [Heap.Counts, Heap.total]
    exact hchunks ▸ hc
  obtain ⟨M₂, hl, hpM, ⟨b, hb₂⟩, hoff'⟩ := hu.joinLower hc' hb hp₁ heq hup rfl
  rw [joinLower_setPtr _ hne] at hl hb₂ hoff'
  have hkept : Holds s (Malloc.joinLower (Malloc.joinUpper s bp p) bp p) bp M M₂ b := by
    refine ⟨hb₂.mem, hb₂.le, le_trans (Nat.add_le_add_left (Nat.mul_le_mul_left _ hge) _) hb₂.up, fun x hx hxb => ?_⟩
    obtain ⟨hx₁, hsize⟩ := hb₂.others x hx hxb
    exact ⟨hsub hx₁, hsize.trans (hoff x fun heq => hbM (heq ▸ hsub hx₁))⟩
  refine ⟨M₂, hl.setFreep _, ⟨p, hpM, rfl⟩, ⟨b, hkept.mem, hkept.le, hkept.up, hkept.others⟩, fun x hx hxb => ?_⟩
  have hx₁ : x ∉ M₁ := (hu.mem_live hx).2.1
  exact (hoff' x hx₁).trans (hoff x hxb)

theorem Inv.free_returns (h : Inv s live M) (hb : bp ∈ live) (hf : ∃ f ∈ M, s.freep = some f) :
    ∃ t n, ∀ fuel, n ≤ fuel → Malloc.free fuel (bp + headerSize) s = some t := by
  obtain ⟨f, hfM, hf⟩ := hf
  obtain ⟨-, hbM, hlow⟩ := h.mem_live hb
  obtain ⟨q, n, hq⟩ := freeSearch_returns h hlow hbM hfM
  refine ⟨{ Malloc.joinLower (Malloc.joinUpper s bp q) bp q with freep := some q }, n, fun fuel hfuel => ?_⟩
  rw [Malloc.free, Nat.add_sub_cancel, hf]
  exact Option.map_eq_some_iff.mpr ⟨q, hq fuel hfuel, rfl⟩

end Xv6Lab.Malloc
