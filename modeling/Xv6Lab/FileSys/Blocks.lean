import Xv6Lab.Lib.Accounting
import Xv6Lab.FileSys.Model

/-!
# Block allocation

Every block number an inode keeps stands in a slot: one of the thirteen entries of `addrs`, or one of
the entries of the indirect block. `BlockInv` is the agreement of the free map with the slots. While
`bmap` or `itrunc` works on a locked inode, the copy of that inode in memory is ahead of the disk;
`Held` is what holds then, and `Consistent` what holds between operations. `bmap_spec` says that
`bmap` keeps it and returns the block of the file or finds the disk full.
-/

namespace Xv6Lab.FileSys

open Function Lib.Words Lib.Exec Lib.Accounting Finset

variable {sb : Superblock} {s t : Fs} {i j k b : Nat} {n : Nat} {x : Slot} {B : Finset Nat}

/-! ## Slots -/

/-- A place that holds a block number: `addrs[k]` of inode `i`, or entry `j` of its indirect block. -/
inductive Slot where
  | direct (i k : Nat)
  | indirect (i j : Nat)
  deriving DecidableEq, Repr

/-- The inode a slot belongs to. -/
def Slot.owner : Slot → Nat
  | .direct i _ => i
  | .indirect i _ => i

/-- An inode as the kernel sees it: the copy in memory if it is loaded, else the inode on disk. -/
def view (s : Fs) (i : Nat) : Dinode :=
  if (s.icache i).valid = true then (s.icache i).ip else s.dinode i

/-- The inode is in use. -/
def Allocated (sb : Superblock) (s : Fs) (i : Nat) : Prop :=
  i < sb.ninodes ∧ (view s i).type ≠ .free

instance : Decidable (Allocated sb s i) := inferInstanceAs (Decidable (_ ∧ _))

/-- The block number in a slot, 0 if there is none. -/
def slot (sb : Superblock) (s : Fs) : Slot → Nat
  | .direct i k => if Allocated sb s i ∧ k ≤ ndirect then (view s i).addrs k else 0
  | .indirect i j =>
    if Allocated sb s i ∧ j < nindirect ∧ (view s i).addrs ndirect ≠ 0 then
      wordAt (s.block ((view s i).addrs ndirect)) j
    else 0

/-- The slot of block `n` of a file. -/
def fileSlot (i n : Nat) : Slot := if n < ndirect then .direct i n else .indirect i (n - ndirect)

/-- Block `n` of a file, 0 if it is not allocated. -/
def fileBlock (sb : Superblock) (s : Fs) (i n : Nat) : Nat := slot sb s (fileSlot i n)

theorem fileSlot_owner (i n : Nat) : (fileSlot i n).owner = i := by
  unfold fileSlot
  split <;> rfl

theorem fileSlot_ne (i n j : Nat) : fileSlot i n ≠ .direct j ndirect := by
  unfold fileSlot
  split
  · rintro ⟨rfl⟩
    omega
  · exact Slot.noConfusion

theorem fileSlot_inj {m : Nat} (h : fileSlot i n = fileSlot j m) : i = j ∧ n = m := by
  unfold fileSlot at h
  split at h <;> split at h
  · exact ⟨(Slot.direct.inj h).1, (Slot.direct.inj h).2⟩
  · cases h
  · cases h
  · obtain ⟨h1, h2⟩ := Slot.indirect.inj h
    exact ⟨h1, by omega⟩

theorem Allocated.slot_direct (h : Allocated sb s i) (hk : k ≤ ndirect) :
    slot sb s (.direct i k) = (view s i).addrs k := if_pos ⟨h, hk⟩

theorem Allocated.slot_indirect (h : Allocated sb s i) (hj : j < nindirect) (h0 : slot sb s (.direct i ndirect) ≠ 0) :
    slot sb s (.indirect i j) = wordAt (s.block (slot sb s (.direct i ndirect))) j := by
  rw [h.slot_direct le_rfl] at h0 ⊢
  exact if_pos ⟨h, hj, h0⟩

/-- Only an inode in use has blocks. -/
theorem allocated_of_slot (h : slot sb s x ≠ 0) : Allocated sb s x.owner := by
  cases x with
  | direct | indirect =>
    by_contra hn
    exact h (if_neg fun hc => hn hc.1)

/-- An entry of an indirect block needs the indirect block. -/
theorem direct_of_indirect (h : slot sb s (.indirect i j) ≠ 0) :
    slot sb s (.direct i ndirect) ≠ 0 ∧ j < nindirect := by
  have ha : Allocated sb s i := allocated_of_slot h
  by_contra hn
  refine h (if_neg fun hc => hn ⟨?_, hc.2.1⟩)
  rw [ha.slot_direct le_rfl]
  exact hc.2.2

/-! ## Consistency -/

/-- Every block of the file below its size is allocated. -/
def Sized (sb : Superblock) (s : Fs) (i : Nat) : Prop :=
  ∀ n, n * bsize < (view s i).size → fileBlock sb s i n ≠ 0

/-- The free map agrees with the inodes. -/
structure BlockInv (sb : Superblock) (s : Fs) : Prop where
  /-- A data block marked used is referenced by exactly one slot, and a referenced block is a data
  block marked used. -/
  accounts : Accounts sb.dataStart sb.size s.bitmap (slot sb s)
  sized : ∀ i, Allocated sb s i → Sized sb s i

/-- A loaded inode is in use and its copy agrees with the disk. -/
def Synced (sb : Superblock) (s : Fs) (i : Nat) : Prop :=
  (s.icache i).valid = true → (s.icache i).ip = s.dinode i ∧ (s.dinode i).type ≠ .free ∧ i < sb.ninodes

/-- The blocks before the data area are marked used. -/
def MetaMarked (sb : Superblock) (s : Fs) : Prop := ∀ b, b < sb.dataStart → s.bitmap b = true

/-- The file system between two operations. -/
structure Consistent (sb : Superblock) (s : Fs) : Prop where
  blocks : BlockInv sb s
  synced : ∀ i, Synced sb s i
  marked : MetaMarked sb s

/-- The file system while an operation works on the copy of inode `i` in memory. -/
structure Held (sb : Superblock) (i : Nat) (s : Fs) : Prop where
  valid : (s.icache i).valid = true
  lt : i < sb.ninodes
  type : (s.icache i).ip.type ≠ .free
  accounts : Accounts sb.dataStart sb.size s.bitmap (slot sb s)
  sized : ∀ j, j ≠ i → Allocated sb s j → Sized sb s j
  synced : ∀ j, j ≠ i → Synced sb s j
  marked : MetaMarked sb s

theorem Superblock.dataStart_pos (sb : Superblock) : 0 < sb.dataStart := by
  have h := sb.nblocks_lt
  unfold Superblock.dataStart
  omega

theorem view_of_valid (h : (s.icache i).valid = true) : view s i = (s.icache i).ip := if_pos h

/-- Between operations the kernel sees what is on the disk. -/
theorem Synced.view_eq (h : Synced sb s i) : view s i = s.dinode i := by
  unfold view
  split
  next hv => exact (h hv).1
  · rfl

theorem Held.allocated (h : Held sb i s) : Allocated sb s i := by
  refine ⟨h.lt, ?_⟩
  rw [view_of_valid h.valid]
  exact h.type

/-- Locking an inode of a consistent file system. -/
theorem Consistent.held (h : Consistent sb s) (hv : (s.icache i).valid = true) : Held sb i s where
  valid := hv
  lt := (h.synced i hv).2.2
  type := by
    rw [(h.synced i hv).1]
    exact (h.synced i hv).2.1
  accounts := h.blocks.accounts
  sized j _ := h.blocks.sized j
  synced j _ := h.synced j
  marked := h.marked

/-- The file system is consistent again once the inode is written back. -/
theorem Held.consistent (h : Held sb i s) (hsz : Sized sb s i)
    (hd : (s.icache i).ip = s.dinode i) : Consistent sb s where
  blocks := {
    accounts := h.accounts
    sized := by
      intro j hj
      rcases eq_or_ne j i with rfl | hji
      · exact hsz
      · exact h.sized j hji hj }
  synced := by
    intro j
    rcases eq_or_ne j i with rfl | hji
    · exact fun _ => ⟨hd, hd ▸ h.type, h.lt⟩
    · exact h.synced j hji
  marked := h.marked

/-! ## The primitive effects -/

section Rules

variable {E : Stop → Prop} {f : Dinode → Dinode} {d : Dinode} {e : MemInode} {v : Bool} {c : Block}

theorem wp_inode {Q : Dinode → Fs → Prop} : wp (inode i) Q E s ↔ Q (s.icache i).ip s := wp_iff_of_ok rfl

theorem wp_bread {Q : Block → Fs → Prop} : wp (bread b) Q E s ↔ Q (s.block b) s := wp_iff_of_ok rfl

variable {Q : Unit → Fs → Prop}

theorem wp_setBlock : wp (setBlock b c) Q E s ↔ Q () { s with block := update s.block b c } := wp_iff_of_ok rfl

theorem wp_setBit : wp (setBit b v) Q E s ↔ Q () { s with bitmap := update s.bitmap b v } := wp_iff_of_ok rfl

theorem wp_setEntry : wp (setEntry i e) Q E s ↔ Q () { s with icache := update s.icache i e } := wp_iff_of_ok rfl

theorem wp_setDinode : wp (setDinode i d) Q E s ↔ Q () { s with dinode := update s.dinode i d } := wp_iff_of_ok rfl

theorem wp_modifyInode : wp (modifyInode i f) Q E s ↔ Q () { s with
    icache := update s.icache i { s.icache i with ip := f (s.icache i).ip } } := wp_iff_of_ok rfl

/-- The panic of `log_write`, by a transaction of at most `n` blocks. -/
def TooBig (n : Nat) (e : Stop) : Prop := e = .panic "too big transaction" ∧ logBlocks ≤ n

theorem TooBig.mono {m : Nat} {e : Stop} (h : TooBig m e) (hmn : m ≤ n) : TooBig n e :=
  ⟨h.1, h.2.trans hmn⟩

theorem wp_logWrite (hn : s.logged.card ≤ n)
    (hQ : Q () { s with logged := insert b s.logged }) : wp (logWrite b) Q (TooBig n) s := by
  rw [logWrite, wp_bind, wp_get]
  split
  next h => exact wp_throw.mpr ⟨rfl, h.trans hn⟩
  · exact wp_set.mpr hQ

end Rules

/-! ## Allocation of a block -/

/-- The size of the transaction with the blocks of `B` in it. -/
def cost (B : Finset Nat) (s : Fs) : Nat := (B ∪ s.logged).card

/-- The free ones among the `k` blocks from `b` on, in the order in which `balloc` meets them. -/
def freeFrom (s : Fs) (b k : Nat) : List Nat := (List.range' b k).filter fun c => s.bitmap c = false

abbrev freeBlocks (sb : Superblock) (s : Fs) : List Nat := freeFrom s 0 sb.size

/-- The block that `balloc` takes next and its block of the free map are in `B`. -/
def Funded (sb : Superblock) (B : Finset Nat) (s : Fs) : Prop :=
  ∀ a l, freeBlocks sb s = a :: l → a ∈ B ∧ bblock sb a ∈ B

/-- No block is free. -/
def Full (sb : Superblock) (s : Fs) : Prop := ∀ b, b < sb.size → s.bitmap b = true

/-- The state after the allocation of block `b`. -/
def takeBlock (sb : Superblock) (s : Fs) (b : Nat) : Fs :=
  { s with
    bitmap := update s.bitmap b true
    block := update s.block b fun _ => 0
    logged := insert b (insert (bblock sb b) s.logged) }

theorem takeBlock_block_self : (takeBlock sb s b).block b = fun _ => 0 :=
  update_self b _ s.block

theorem takeBlock_block_ne {c : Nat} (h : c ≠ b) : (takeBlock sb s b).block c = s.block c :=
  update_of_ne h _ s.block

theorem logged_card_le (B : Finset Nat) (s : Fs) : s.logged.card ≤ cost B s := card_le_card subset_union_right

/-- The transaction grew by blocks of `B` only. -/
theorem cost_le (h : t.logged ⊆ B ∪ s.logged) : cost B t ≤ cost B s :=
  card_le_card (union_subset subset_union_left h)

theorem subset_logged_trans {u : Fs} (h : t.logged ⊆ B ∪ s.logged) (h' : u.logged ⊆ B ∪ t.logged) :
    u.logged ⊆ B ∪ s.logged := h'.trans (union_subset subset_union_left h)

theorem freeFrom_succ (s : Fs) (b k : Nat) :
    freeFrom s b (k + 1) = if s.bitmap b = false then b :: freeFrom s (b + 1) k else freeFrom s (b + 1) k := by
  rw [freeFrom, List.range'_succ, List.filter_cons]
  simp only [decide_eq_true_eq]
  rfl

/-- The block that was taken is not free any more. -/
theorem freeBlocks_takeBlock {l : List Nat} (h : freeBlocks sb s = b :: l) : freeBlocks sb (takeBlock sb s b) = l := by
  have hnodup : (b :: l).Nodup := h ▸ List.Nodup.filter _ List.nodup_range'
  have hrest : freeBlocks sb (takeBlock sb s b) = (freeBlocks sb s).filter (· ≠ b) := by
    rw [freeBlocks, freeFrom, freeBlocks, freeFrom, List.filter_filter]
    apply List.filter_congr
    intro c _
    rcases eq_or_ne c b with rfl | hc
    · simp [takeBlock]
    · simp [takeBlock, hc]
  rw [hrest, h, List.filter_cons_of_neg (by simp), List.filter_eq_self]
  intro c hc
  refine decide_eq_true ?_
  rintro rfl
  exact (List.nodup_cons.mp hnodup).1 hc

theorem mem_freeBlocks {l : List Nat} (h : freeBlocks sb s = b :: l) : b < sb.size ∧ s.bitmap b = false := by
  have hmem : b ∈ freeBlocks sb s := h ▸ List.mem_cons_self
  simpa [freeFrom] using hmem

/-- `balloc` takes the first free block, and logs its block of the free map before it. -/
theorem ballocLoop_spec (k : Nat) : ∀ b, wp (ballocLoop sb k b)
    (fun a t => freeFrom s b k = [] ∧ a = 0 ∧ t = s ∨ (∃ l, freeFrom s b k = a :: l) ∧ t = takeBlock sb s a)
    (fun e => ∃ a l, freeFrom s b k = a :: l ∧ TooBig (insert (bblock sb a) s.logged).card e) s := by
  induction k with
  | zero => exact fun b => wp_pure.mpr (.inl ⟨rfl, rfl, rfl⟩)
  | succ k ih =>
    intro b
    rw [ballocLoop, wp_bind, wp_get, freeFrom_succ]
    by_cases hfree : s.bitmap b = false
    · simp only [if_pos hfree]
      have hstop : ∀ e, TooBig (insert (bblock sb b) s.logged).card e → ∃ a l,
          b :: freeFrom s (b + 1) k = a :: l ∧ TooBig (insert (bblock sb a) s.logged).card e :=
        fun e he => ⟨b, _, rfl, he⟩
      refine wp_mono ?_ (fun _ _ => id) hstop
      rw [wp_bind, wp_setBit, wp_bind]
      refine wp_logWrite (card_le_card (subset_insert (bblock sb b) _)) ?_
      rw [wp_bind, bzero, wp_bind, wp_setBlock]
      exact wp_logWrite le_rfl (wp_pure.mpr (.inr ⟨⟨_, rfl⟩, rfl⟩))
    · simp only [if_neg hfree]
      exact ih (b + 1)

/-- `balloc` finds the disk full or takes the first free block. -/
theorem balloc_spec (hmeta : MetaMarked sb s) (hB : Funded sb B s) :
    wp (balloc sb)
      (fun a t => a = 0 ∧ t = s ∧ Full sb s ∨
        sb.dataStart ≤ a ∧ freeBlocks sb s = a :: freeBlocks sb (takeBlock sb s a) ∧ t = takeBlock sb s a)
      (TooBig (cost B s)) s := by
  refine wp_mono (ballocLoop_spec sb.size 0) ?_ ?_
  · rintro a t (⟨hnone, rfl, rfl⟩ | ⟨⟨l, hl⟩, rfl⟩)
    · refine .inl ⟨rfl, rfl, fun b hb => ?_⟩
      have hused := List.filter_eq_nil_iff.mp hnone b (by simpa using hb)
      simpa using hused
    refine .inr ⟨?_, ?_, rfl⟩
    · by_contra hlo
      have hfree := (mem_freeBlocks hl).2
      rw [hmeta a (by omega)] at hfree
      cases hfree
    · rw [freeBlocks_takeBlock hl]
      exact hl
  · rintro e ⟨a, l, hl, he⟩
    exact he.mono (card_le_card (insert_subset (mem_union_left _ (hB a l hl).2) subset_union_right))

/-! ## Filling a slot -/

/-- What an operation that adds blocks to inode `i` leaves alone, with the data in the slots `kept`. -/
structure Adds (sb : Superblock) (i : Nat) (kept : Slot → Prop) (s t : Fs) : Prop where
  frame : t = { s with bitmap := t.bitmap, block := t.block, icache := t.icache, logged := t.logged }
  others : ∀ j, j ≠ i → t.icache j = s.icache j
  self : ∃ a, t.icache i = { s.icache i with ip := { (s.icache i).ip with addrs := a } }
  slots : ∀ x, slot sb s x ≠ 0 → slot sb t x = slot sb s x
  data : ∀ x, slot sb s x ≠ 0 → kept x → t.block (slot sb s x) = s.block (slot sb s x)

theorem Adds.trans {kept : Slot → Prop} {u : Fs} (h : Adds sb i kept s t) (h' : Adds sb i kept t u) :
    Adds sb i kept s u where
  frame := by
    rw [h'.frame, h.frame]
  others j hj := (h'.others j hj).trans (h.others j hj)
  self := by
    obtain ⟨a, ha⟩ := h.self
    obtain ⟨a', ha'⟩ := h'.self
    refine ⟨a', ?_⟩
    rw [ha', ha]
  slots x hx := by
    have h1 := h.slots x hx
    rw [h'.slots x (h1 ▸ hx), h1]
  data x hx hne := by
    have h1 := h.slots x hx
    have h2 := h'.data x (h1 ▸ hx) hne
    rw [h1] at h2
    rw [h2, h.data x hx hne]

/-- What an operation that only adds blocks to inode `i` leaves alone. -/
abbrev Grows (sb : Superblock) (i : Nat) : Fs → Fs → Prop := Adds sb i (· ≠ .direct i ndirect)

theorem Grows.refl (sb : Superblock) (i : Nat) (s : Fs) : Grows sb i s s :=
  ⟨rfl, fun _ _ => rfl, ⟨_, rfl⟩, fun _ _ => rfl, fun _ _ _ => rfl⟩

section

variable (ht : (view t i).type = (view s i).type)
include ht

theorem allocated_congr : Allocated sb t i ↔ Allocated sb s i := by
  rw [Allocated, Allocated, ht]

theorem slot_direct_congr (ha : (view t i).addrs k = (view s i).addrs k) :
    slot sb t (.direct i k) = slot sb s (.direct i k) :=
  if_congr (and_congr_left' (allocated_congr ht)) ha rfl

theorem slot_indirect_congr (ha : (view t i).addrs ndirect = (view s i).addrs ndirect)
    (hb : slot sb s (.direct i ndirect) ≠ 0 →
      wordAt (t.block (slot sb s (.direct i ndirect))) j = wordAt (s.block (slot sb s (.direct i ndirect))) j) :
    slot sb t (.indirect i j) = slot sb s (.indirect i j) := by
  rw [slot, slot, ha]
  refine if_ctx_congr (and_congr_left' (allocated_congr ht)) (fun h => ?_) fun _ => rfl
  have hd : slot sb s (.direct i ndirect) = (view s i).addrs ndirect := h.1.slot_direct le_rfl
  rw [hd] at hb
  exact hb h.2.2

end

/-- The state with `addrs[k]` of inode `i` set. -/
def setAddr (s : Fs) (i k a : Nat) : Fs :=
  { s with icache := update s.icache i { s.icache i with
      ip := { (s.icache i).ip with addrs := update (s.icache i).ip.addrs k a } } }

theorem setAddr_addrs_self (a : Nat) : ((setAddr s i k a).icache i).ip.addrs k = a := by
  simp [setAddr]

theorem setAddr_addrs_ne {k' : Nat} (a : Nat) (h : k' ≠ k) :
    ((setAddr s i k a).icache i).ip.addrs k' = (s.icache i).ip.addrs k' := by
  simp [setAddr, h]

theorem view_setAddr_self (a : Nat) (hv : (s.icache i).valid = true) :
    view (setAddr s i k a) i = { view s i with addrs := update (view s i).addrs k a } := by
  simp [view, setAddr, hv]

theorem view_setAddr_ne (a : Nat) (hj : j ≠ i) : view (setAddr s i k a) j = view s j := by
  simp [view, setAddr, hj]

/-- A fresh block changes no slot. -/
theorem Held.slot_takeBlock (h : Held sb i s) (h0 : b ≠ 0) (hb : s.bitmap b = false) (x : Slot) :
    slot sb (takeBlock sb s b) x = slot sb s x := by
  cases x with
  | direct j k => exact slot_direct_congr rfl rfl
  | indirect j k =>
    refine slot_indirect_congr rfl rfl fun _ => ?_
    rw [takeBlock_block_ne (h.accounts.ne_of_unmarked h0 hb _)]

/-- The slots after `addrs[k]` was filled with a zeroed block. -/
theorem slot_setAddr (ha : Allocated sb s i) (hv : (s.icache i).valid = true) (hx : x ≠ .direct i k)
    (h0 : slot sb s (.direct i k) = 0) (hk : k ≤ ndirect) (hz : ∀ j, wordAt (s.block b) j = 0) :
    slot sb (setAddr s i k b) x = slot sb s x := by
  have htype : ∀ j, (view (setAddr s i k b) j).type = (view s j).type := by
    intro j
    rcases eq_or_ne j i with rfl | hj
    · rw [view_setAddr_self b hv]
    · rw [view_setAddr_ne b hj]
  have haddr : ∀ j k', (j, k') ≠ (i, k) → (view (setAddr s i k b) j).addrs k' = (view s j).addrs k' := by
    intro j k' hne
    rcases eq_or_ne j i with rfl | hj
    · rw [view_setAddr_self b hv]
      exact update_of_ne (fun hk' => hne (by rw [hk'])) _ _
    · rw [view_setAddr_ne b hj]
  cases x with
  | direct j k' =>
    refine slot_direct_congr (htype j) (haddr j k' ?_)
    rintro ⟨⟩
    exact hx rfl
  | indirect j k' =>
    rcases eq_or_ne (j, ndirect) (i, k) with heq | hne
    · -- the new block is the indirect block: it lists no blocks
      obtain ⟨rfl, rfl⟩ := Prod.mk.inj heq
      have hs0 : slot sb s (.indirect j k') = 0 := by
        by_contra hne
        exact (direct_of_indirect hne).1 h0
      rw [hs0, slot]
      split
      next hc =>
        rw [view_setAddr_self b hv]
        simp only [update_self]
        exact hz k'
      · rfl
    · exact slot_indirect_congr (htype j) (haddr j ndirect hne) fun _ => rfl

theorem view_congr (h : t.icache j = s.icache j) (hd : t.dinode = s.dinode) : view t j = view s j := by
  rw [view, view, h, hd]

theorem synced_congr (h : t.icache j = s.icache j) (hd : t.dinode = s.dinode)
    (hs : Synced sb s j) : Synced sb t j := by
  rw [Synced, h, hd]
  exact hs

/-- Other inodes are sized as before if their slots and sizes are as before. -/
theorem Held.sized_congr (h : Held sb i s) (hv : ∀ j ≠ i, view t j = view s j)
    (hslot : ∀ x, x.owner ≠ i → slot sb t x = slot sb s x) :
    ∀ j ≠ i, Allocated sb t j → Sized sb t j := by
  intro j hj ha n hn
  rw [hv j hj] at hn
  rw [fileBlock, hslot _ (by rwa [fileSlot_owner])]
  exact h.sized j hj ((allocated_congr (by rw [hv j hj])).mp ha) n hn

/-- Inode `i` gets a fresh block into an empty slot. -/
theorem Held.fill (h : Held sb i s) (hx : x.owner = i) (hlo : sb.dataStart ≤ b) (hhi : b < sb.size)
    (hb : s.bitmap b = false) (hx0 : slot sb s x = 0) (hbit : t.bitmap = update s.bitmap b true)
    (hself : slot sb t x = b) (hslot : ∀ y ≠ x, slot sb t y = slot sb s y) (hd : t.dinode = s.dinode)
    (hothers : ∀ j ≠ i, t.icache j = s.icache j)
    (hent : ∃ a, t.icache i = { s.icache i with ip := { (s.icache i).ip with addrs := a } }) :
    Held sb i t where
  valid := by
    obtain ⟨a, ha⟩ := hent
    rw [ha]
    exact h.valid
  lt := h.lt
  type := by
    obtain ⟨a, ha⟩ := hent
    rw [ha]
    exact h.type
  accounts := by
    refine h.accounts.fill sb.dataStart_pos hslot (fun c hc => ?_) hlo hhi hb hx0 hself ?_
    · rw [hbit, update_of_ne hc]
    · rw [hbit, update_self]
  sized := by
    refine h.sized_congr (fun j hj => view_congr (hothers j hj) hd) fun y hy => hslot y ?_
    rintro rfl
    exact hy hx
  synced j hj := synced_congr (hothers j hj) hd (h.synced j hj)
  marked c hc := by
    rw [hbit]
    rcases eq_or_ne c b with rfl | hne
    · exact update_self ..
    · rw [update_of_ne hne]
      exact h.marked c hc

/-- The empty slot `x` got the block that `balloc` takes next. -/
structure Fills (sb : Superblock) (x : Slot) (b : Nat) (s t : Fs) : Prop where
  free : freeBlocks sb s = b :: freeBlocks sb t
  empty : slot sb s x = 0
  filled : slot sb t x = b
  others : ∀ y ≠ x, slot sb t y = slot sb s y

/-- `addrs[k]` is filled with a fresh block. -/
theorem Held.fillDirect (h : Held sb i s) (hk : k ≤ ndirect) (hlo : sb.dataStart ≤ b)
    (hfree : freeBlocks sb s = b :: freeBlocks sb (takeBlock sb s b)) (hx0 : slot sb s (.direct i k) = 0) :
    Held sb i (setAddr (takeBlock sb s b) i k b) ∧ Grows sb i s (setAddr (takeBlock sb s b) i k b) ∧
      Fills sb (.direct i k) b s (setAddr (takeBlock sb s b) i k b) := by
  obtain ⟨hhi, hb⟩ := mem_freeBlocks hfree
  have h0 : b ≠ 0 := (sb.dataStart_pos.trans_le hlo).ne'
  have htake : Allocated sb (takeBlock sb s b) i := h.allocated
  have hvalid : ((takeBlock sb s b).icache i).valid = true := h.valid
  have hself : slot sb (setAddr (takeBlock sb s b) i k b) (.direct i k) = b := by
    rw [Allocated.slot_direct _ hk, view_setAddr_self b hvalid]
    · exact update_self ..
    · refine (allocated_congr ?_).mpr htake
      rw [view_setAddr_self b hvalid]
  have hslot : ∀ y ≠ .direct i k, slot sb (setAddr (takeBlock sb s b) i k b) y = slot sb s y := by
    intro y hy
    rw [slot_setAddr htake hvalid hy ((h.slot_takeBlock h0 hb _).trans hx0) hk, h.slot_takeBlock h0 hb]
    intro j
    rw [takeBlock_block_self]
    exact wordAt_zero j
  have hothers : ∀ j ≠ i, (setAddr (takeBlock sb s b) i k b).icache j = s.icache j :=
    fun j hj => update_of_ne hj ..
  have hent : ∃ a, (setAddr (takeBlock sb s b) i k b).icache i =
      { s.icache i with ip := { (s.icache i).ip with addrs := a } } :=
    ⟨_, update_self ..⟩
  refine ⟨h.fill rfl hlo hhi hb hx0 rfl hself hslot rfl hothers hent, ?_, hfree, hx0, hself, hslot⟩
  refine ⟨rfl, hothers, hent, fun x hx => hslot x ?_, fun x hx _ => ?_⟩
  · rintro rfl
    exact hx hx0
  · have hne := h.accounts.ne_of_unmarked h0 hb x
    exact (takeBlock_block_ne hne : (takeBlock sb s b).block _ = _)

/-- The state with entry `j` of the indirect block `addr` set. -/
def setIndirect (s : Fs) (addr j b : Nat) : Fs :=
  { s with
    block := update s.block addr (setWord (s.block addr) j b)
    logged := insert addr s.logged }

/-- An entry of the indirect block is filled with a fresh block. -/
theorem Held.fillIndirect (h : Held sb i s) (hj : j < nindirect) (hlo : sb.dataStart ≤ b)
    (hfree : freeBlocks sb s = b :: freeBlocks sb (takeBlock sb s b)) {addr : Nat}
    (haddr : slot sb s (.direct i ndirect) = addr) (ha0 : addr ≠ 0) (hx0 : slot sb s (.indirect i j) = 0) :
    Held sb i (setIndirect (takeBlock sb s b) addr j b) ∧ Grows sb i s (setIndirect (takeBlock sb s b) addr j b) ∧
      Fills sb (.indirect i j) b s (setIndirect (takeBlock sb s b) addr j b) := by
  obtain ⟨hhi, hb⟩ := mem_freeBlocks hfree
  have h0 : b ≠ 0 := (sb.dataStart_pos.trans_le hlo).ne'
  have hne : addr ≠ b := haddr ▸ h.accounts.ne_of_unmarked h0 hb _
  have hself : (setIndirect (takeBlock sb s b) addr j b).block addr = setWord (s.block addr) j b := by
    refine (update_self ..).trans ?_
    rw [takeBlock_block_ne hne]
  have hblock : ∀ c ≠ addr, c ≠ b →
      (setIndirect (takeBlock sb s b) addr j b).block c = s.block c := fun c hc hcb =>
    (update_of_ne hc ..).trans (takeBlock_block_ne hcb)
  have hdirect : ∀ m k, slot sb (setIndirect (takeBlock sb s b) addr j b) (.direct m k) =
      slot sb s (.direct m k) := fun m k => slot_direct_congr rfl rfl
  have hnew : slot sb (setIndirect (takeBlock sb s b) addr j b) (.indirect i j) = b := by
    have hal : Allocated sb (setIndirect (takeBlock sb s b) addr j b) i := h.allocated
    have hd := (hdirect i ndirect).trans haddr
    have hfit : 4 * j + 3 < bsize := by
      have hlt : j < 256 := hj
      show 4 * j + 3 < 1024
      omega
    rw [hal.slot_indirect hj (hd ▸ ha0), hd, hself, wordAt_setWord_self _ _ _ hfit]
    exact Nat.mod_eq_of_lt (hhi.trans sb.size_lt)
  have hslot : ∀ y ≠ .indirect i j, slot sb (setIndirect (takeBlock sb s b) addr j b) y = slot sb s y := by
    intro y hy
    cases y with
    | direct m k => exact hdirect m k
    | indirect m k =>
      refine slot_indirect_congr rfl rfl fun hd => ?_
      rcases eq_or_ne m i with rfl | hm
      · rw [haddr, hself]
        refine wordAt_setWord_ne _ _ ?_
        rintro rfl
        exact hy rfl
      · -- two inodes do not share an indirect block
        have hma : slot sb s (.direct m ndirect) ≠ addr := by
          intro he
          cases h.accounts.inj hd (he.trans haddr.symm)
          exact hm rfl
        rw [hblock _ hma (h.accounts.ne_of_unmarked h0 hb _)]
  refine ⟨h.fill rfl hlo hhi hb hx0 rfl hnew hslot rfl (fun _ _ => rfl) ⟨_, rfl⟩, ?_, hfree, hx0, hnew, hslot⟩
  refine ⟨rfl, fun _ _ => rfl, ⟨_, rfl⟩, fun x hx => hslot x ?_, fun x hx hxi => ?_⟩
  · rintro rfl
    exact hx hx0
  · refine hblock _ (fun he => hxi ?_) (h.accounts.ne_of_unmarked h0 hb _)
    exact h.accounts.inj hx (he.trans haddr.symm)

/-! ## What a write logs -/

section Covers

variable {Q R : Finset Nat}

/-- The missing ones among the blocks of a file with the numbers `Q`. -/
def missing (sb : Superblock) (i : Nat) (Q : Finset Nat) (s : Fs) : Finset Nat :=
  Q.filter fun q => fileBlock sb s i q = 0

/-- Whether `bmap` has to allocate the indirect block for `Q`. -/
def needsIndirect (sb : Superblock) (i : Nat) (Q : Finset Nat) (s : Fs) : Nat :=
  if slot sb s (.direct i ndirect) = 0 ∧ ∃ q ∈ Q, ndirect ≤ q then 1 else 0

/-- The number of blocks that `bmap` allocates for `Q`. -/
def needed (sb : Superblock) (i : Nat) (Q : Finset Nat) (s : Fs) : Nat :=
  (missing sb i Q s).card + needsIndirect sb i Q s

/-- The blocks that a write to the file blocks `Q` logs, without that of the inode: the data blocks and, if an entry of
it is filled, the indirect block; the new blocks; and their blocks of the free map. -/
def writeBlocks (sb : Superblock) (i : Nat) (Q : Finset Nat) (s : Fs) : Finset Nat :=
  let old := Q.image (fileBlock sb s i) ∪
    if ∃ q ∈ missing sb i Q s, ndirect ≤ q then {slot sb s (.direct i ndirect)} else ∅
  let new := ((freeBlocks sb s).take (needed sb i Q s)).toFinset
  old.erase 0 ∪ (new ∪ new.image (bblock sb))

/-- `B` has the blocks that a write to `Q` logs. -/
structure Covers (sb : Superblock) (i : Nat) (Q B : Finset Nat) (s : Fs) : Prop where
  data : ∀ q ∈ Q, fileBlock sb s i q ≠ 0 → fileBlock sb s i q ∈ B
  indirect : (∃ q ∈ missing sb i Q s, ndirect ≤ q) → slot sb s (.direct i ndirect) ≠ 0 →
    slot sb s (.direct i ndirect) ∈ B
  fresh : ∀ b ∈ (freeBlocks sb s).take (needed sb i Q s), b ∈ B ∧ bblock sb b ∈ B

theorem covers_writeBlocks (sb : Superblock) (i : Nat) (Q : Finset Nat) (s : Fs) :
    Covers sb i Q (writeBlocks sb i Q s) s := by
  refine ⟨fun q hq h0 => mem_union_left _ (mem_erase.mpr ⟨h0, mem_union_left _ (mem_image_of_mem _ hq)⟩),
    fun hq h0 => mem_union_left _ (mem_erase.mpr ⟨h0, ?_⟩), fun b hb => ⟨mem_union_right _ ?_, mem_union_right _ ?_⟩⟩
  · rw [if_pos hq]
    exact mem_union_right _ (mem_singleton_self _)
  · exact mem_union_left _ (List.mem_toFinset.mpr hb)
  · exact mem_union_right _ (mem_image_of_mem _ (List.mem_toFinset.mpr hb))

theorem needsIndirect_le (hQ : R ⊆ Q) (hslot : slot sb t (.direct i ndirect) = slot sb s (.direct i ndirect)) :
    needsIndirect sb i R t ≤ needsIndirect sb i Q s := by
  unfold needsIndirect
  rw [hslot]
  split
  next h =>
    obtain ⟨h0, q, hq, hge⟩ := h
    rw [if_pos ⟨h0, q, hQ hq, hge⟩]
  · exact Nat.zero_le _

theorem missing_congr (h : ∀ q ∈ Q, fileBlock sb t i q = fileBlock sb s i q) : missing sb i Q t = missing sb i Q s :=
  filter_congr fun q hq => by rw [h q hq]

theorem Covers.funded (h : Covers sb i Q B s) (hn : 0 < needed sb i Q s) : Funded sb B s := by
  intro a l hl
  apply h.fresh
  rw [hl, ← Nat.succ_pred_eq_of_pos hn, List.take_succ_cons]
  exact List.mem_cons_self

theorem Covers.mono (h : Covers sb i Q B s) (hQ : R ⊆ Q) : Covers sb i R B s := by
  have hsub : missing sb i R s ⊆ missing sb i Q s := filter_subset_filter _ hQ
  refine ⟨fun q hq => h.data q (hQ hq), ?_, fun b hb => h.fresh b ?_⟩
  · rintro ⟨q, hq, hge⟩
    exact h.indirect ⟨q, hsub hq, hge⟩
  · have hle : needed sb i R s ≤ needed sb i Q s := Nat.add_le_add (card_le_card hsub) (needsIndirect_le hQ rfl)
    exact (List.take_subset_take_left _ hle) hb

/-- Blocks outside the slots of the inode may change. -/
theorem Covers.congr (h : Covers sb i Q B s) (hslot : ∀ x, slot sb t x = slot sb s x) (hbit : t.bitmap = s.bitmap) :
    Covers sb i Q B t := by
  have hmissing : missing sb i Q t = missing sb i Q s := missing_congr fun q _ => hslot _
  have hneeded : needed sb i Q t = needed sb i Q s := by
    rw [needed, needed, hmissing, needsIndirect, needsIndirect, hslot]
  have hfree : freeBlocks sb t = freeBlocks sb s := by rw [freeBlocks, freeFrom, hbit]; rfl
  refine ⟨fun q => ?_, ?_, ?_⟩
  · rw [fileBlock, hslot]
    exact h.data q
  · rw [hmissing, hslot]
    exact h.indirect
  · rw [hfree, hneeded]
    exact h.fresh

/-- A slot was filled, and fewer blocks are needed for what is left of `Q`. -/
theorem Covers.fills (h : Covers sb i Q B s) (hx : Fills sb x b s t) (hn : needed sb i R t < needed sb i Q s)
    (hR : ∀ q ∈ R, q ∈ Q ∧ fileBlock sb t i q = fileBlock sb s i q) : Covers sb i R B t := by
  refine ⟨fun q hq h0 => ?_, ?_, fun c hc => h.fresh c ?_⟩
  · rw [(hR q hq).2] at h0 ⊢
    exact h.data q (hR q hq).1 h0
  · rintro ⟨q, hq, hge⟩ h0
    obtain ⟨hqR, hq0⟩ := mem_filter.mp hq
    rcases eq_or_ne x (.direct i ndirect) with rfl | hne
    · rw [hx.filled]
      exact (h.funded (Nat.zero_lt_of_lt hn) _ _ hx.free).1
    · rw [hx.others _ hne.symm] at h0 ⊢
      exact h.indirect ⟨q, mem_filter.mpr ⟨(hR q hqR).1, (hR q hqR).2 ▸ hq0⟩, hge⟩ h0
  · rw [hx.free, ← Nat.succ_pred_eq_of_pos (Nat.zero_lt_of_lt hn), List.take_succ_cons]
    exact List.mem_cons_of_mem _ (List.take_subset_take_left _ (Nat.le_pred_of_lt hn) hc)

/-- Block `n` of the file was added. -/
theorem Covers.fillsFile (h : Covers sb i Q B s) (hx : Fills sb (fileSlot i n) b s t) (hn : n ∈ Q) :
    Covers sb i (Q.erase n) B t := by
  have hfile : ∀ q ≠ n, fileBlock sb t i q = fileBlock sb s i q :=
    fun q hq => hx.others _ fun heq => hq (fileSlot_inj heq).2
  refine h.fills hx (Nat.add_lt_add_of_lt_of_le (card_lt_card ?_) (needsIndirect_le (erase_subset n Q) ?_)) ?_
  · refine ⟨fun q hq => ?_, fun hsub => ?_⟩
    · obtain ⟨hq, hq0⟩ := mem_filter.mp hq
      exact mem_filter.mpr ⟨mem_of_mem_erase hq, hfile q (ne_of_mem_erase hq) ▸ hq0⟩
    · exact absurd (mem_erase.mp (mem_filter.mp (hsub (mem_filter.mpr ⟨hn, hx.empty⟩))).1).1 (not_not.mpr rfl)
  · exact hx.others _ (fileSlot_ne i n i).symm
  · exact fun q hq => ⟨mem_of_mem_erase hq, hfile q (ne_of_mem_erase hq)⟩

/-- The indirect block was added. -/
theorem Covers.fillsIndirect (h : Covers sb i Q B s) (hx : Fills sb (.direct i ndirect) b s t) (h0 : b ≠ 0)
    (hn : n ∈ Q) (hge : ndirect ≤ n) : Covers sb i Q B t := by
  have hfile : ∀ q, fileBlock sb t i q = fileBlock sb s i q := fun q => hx.others _ (fileSlot_ne i q i)
  refine h.fills hx ?_ fun q hq => ⟨hq, hfile q⟩
  have hbefore : needsIndirect sb i Q s = 1 := if_pos ⟨hx.empty, n, hn, hge⟩
  have hafter : needsIndirect sb i Q t = 0 := if_neg fun hc => h0 (hx.filled.symm.trans hc.1)
  rw [needed, needed, hbefore, hafter, missing_congr fun q _ => hfile q]
  exact Nat.lt_succ_self _

/-- A block that is there costs one block, a missing one two, and the indirect block two in all. -/
theorem card_writeBlocks_le (sb : Superblock) (i : Nat) (Q : Finset Nat) (s : Fs) :
    (writeBlocks sb i Q s).card ≤ Q.card + (missing sb i Q s).card + 2 := by
  unfold writeBlocks
  dsimp only
  generalize hind :
    (if ∃ q ∈ missing sb i Q s, ndirect ≤ q then {slot sb s (.direct i ndirect)} else ∅ : Finset Nat) = ind
  generalize hnew : ((freeBlocks sb s).take (needed sb i Q s)).toFinset = new
  have hle : new.card ≤ needed sb i Q s := hnew ▸ (List.toFinset_card_le _).trans (List.length_take_le ..)
  -- an indirect block is there or is one of the new blocks
  have hone : (ind.erase 0).card + needsIndirect sb i Q s ≤ 1 := by
    have hsub : ind ⊆ {slot sb s (.direct i ndirect)} := by
      rw [← hind]
      split
      · exact subset_rfl
      · exact empty_subset _
    unfold needsIndirect
    split
    next h =>
      rw [card_eq_zero.mpr (subset_empty.mp ((erase_subset_erase 0 hsub).trans (by simp [h.1])))]
    · exact (card_le_card (erase_subset 0 ind)).trans ((card_le_card hsub).trans (card_singleton _).le)
  have hthere : (Q.filter fun q => ¬ fileBlock sb s i q = 0).card + (missing sb i Q s).card = Q.card :=
    (Nat.add_comm ..).trans (card_filter_add_card_filter_not _)
  have hold : ((Q.image (fileBlock sb s i) ∪ ind).erase 0).card ≤
      (Q.filter fun q => ¬ fileBlock sb s i q = 0).card + (ind.erase 0).card := by
    rw [erase_union_distrib]
    apply (card_union_le _ _).trans (Nat.add_le_add_right (le_trans _ (card_image_le (f := fileBlock sb s i))) _)
    refine card_le_card fun b hb => ?_
    obtain ⟨h0, hb⟩ := mem_erase.mp hb
    obtain ⟨q, hq, rfl⟩ := mem_image.mp hb
    exact mem_image_of_mem _ (mem_filter.mpr ⟨hq, h0⟩)
  have hsum := card_union_le ((Q.image (fileBlock sb s i) ∪ ind).erase 0) (new ∪ new.image (bblock sb))
  have hnews := (card_union_le new (new.image (bblock sb))).trans (Nat.add_le_add_left card_image_le _)
  rw [needed] at hle
  omega

end Covers

/-! ## `bmap` -/

/-- The outcome of looking up a slot of inode `i`: its block, or 0 on a full disk. The transaction
grows by blocks of `B`. -/
structure Mapped (sb : Superblock) (i : Nat) (s : Fs) (x : Slot) (B : Finset Nat) (a : Nat) (t : Fs) :
    Prop where
  held : Held sb i t
  grows : Grows sb i s t
  logged : t.logged ⊆ B ∪ s.logged
  full : a = 0 → Full sb t
  block : a ≠ 0 → slot sb t x = a

/-- The entry is as it was, or has been filled with a free block. -/
def Loaded (sb : Superblock) (i : Nat) (s : Fs) (x : Slot) (B : Finset Nat) (a : Nat) (t : Fs) : Prop :=
  Mapped sb i s x B a t ∧ (t = s ∨ Fills sb x a s t)

theorem Held.loaded {a : Nat} (h : Held sb i s) (hfull : a = 0 → Full sb s) (hslot : a ≠ 0 → slot sb s x = a) :
    Loaded sb i s x B a s :=
  ⟨⟨h, .refl .., subset_union_right, hfull, hslot⟩, .inl rfl⟩

/-- To fill an entry, `balloc` comes first; on a full disk that is all. -/
theorem Held.allocate {g : Nat → FsM Nat} (h : Held sb i s) (hB : Funded sb B s)
    (hnew : ∀ b, b ≠ 0 → sb.dataStart ≤ b → freeBlocks sb s = b :: freeBlocks sb (takeBlock sb s b) →
      (takeBlock sb s b).logged ⊆ B ∪ s.logged →
        wp (g b) (Loaded sb i s x B) (TooBig (cost B s)) (takeBlock sb s b)) :
    wp (balloc sb >>= fun b => if b = 0 then pure 0 else g b) (Loaded sb i s x B) (TooBig (cost B s)) s := by
  refine wp_then (balloc_spec h.marked hB) ?_
  rintro b t (⟨rfl, rfl, hfull⟩ | ⟨hlo, hfree, rfl⟩)
  · rw [if_pos rfl]
    exact wp_pure.mpr (h.loaded (fun _ => hfull) (absurd rfl))
  have h0 : b ≠ 0 := (sb.dataStart_pos.trans_le hlo).ne'
  rw [if_neg h0]
  apply hnew b h0 hlo hfree
  obtain ⟨hdata, hmap⟩ := hB _ _ hfree
  exact insert_subset (mem_union_left _ hdata) (insert_subset (mem_union_left _ hmap) subset_union_right)

theorem loadAddr_spec (h : Held sb i s) (hk : k ≤ ndirect) (hB : slot sb s (.direct i k) = 0 → Funded sb B s) :
    wp (loadAddr sb i k) (Loaded sb i s (.direct i k) B) (TooBig (cost B s)) s := by
  have hview : slot sb s (.direct i k) = (s.icache i).ip.addrs k := by
    rw [h.allocated.slot_direct hk, view_of_valid h.valid]
  rw [loadAddr, wp_bind, wp_inode]
  split
  next hzero =>
    apply h.allocate (hB (hview.trans hzero))
    intro b h0 hlo hfree hlog
    obtain ⟨hheld, hgrows, hfills⟩ := h.fillDirect hk hlo hfree (hview.trans hzero)
    rw [wp_bind, wp_modifyInode]
    exact wp_pure.mpr ⟨⟨hheld, hgrows, hlog, fun hn => absurd hn h0, fun _ => hfills.filled⟩, .inr hfills⟩
  next hset => exact wp_pure.mpr (h.loaded (fun hn => absurd hn hset) fun _ => hview)

theorem bmapIndirect_spec (h : Held sb i s) (hj : j < nindirect) {addr : Nat}
    (haddr : slot sb s (.direct i ndirect) = addr) (ha0 : addr ≠ 0)
    (hB : slot sb s (.indirect i j) = 0 → addr ∈ B ∧ Funded sb B s) :
    wp (bmapIndirect sb addr j) (Loaded sb i s (.indirect i j) B) (TooBig (cost B s)) s := by
  have hview : slot sb s (.indirect i j) = wordAt (s.block addr) j := by
    rw [h.allocated.slot_indirect hj (haddr ▸ ha0), haddr]
  rw [bmapIndirect, wp_bind, wp_bread]
  split
  next hzero =>
    obtain ⟨hmem, hB⟩ := hB (hview.trans hzero)
    apply h.allocate hB
    intro b h0 hlo hfree hlog
    obtain ⟨hheld, hgrows, hfills⟩ := h.fillIndirect hj hlo hfree haddr ha0 (hview.trans hzero)
    rw [wp_bind, wp_bread, wp_bind, wp_setBlock, wp_bind]
    have hall := insert_subset (mem_union_left _ hmem) hlog
    refine wp_logWrite ((logged_card_le B _).trans (cost_le hlog)) ?_
    exact wp_pure.mpr ⟨⟨hheld, hgrows, hall, fun hn => absurd hn h0, fun _ => hfills.filled⟩, .inr hfills⟩
  next hset => exact wp_pure.mpr (h.loaded (fun hn => absurd hn hset) fun _ => hview)

/-- `bmap` returns the block of the file, or 0 when it found the disk full. -/
theorem bmap_spec {Q : Finset Nat} (h : Held sb i s) (hn : n < maxfile) (hQ : n ∈ Q) (hc : Covers sb i Q B s) :
    wp (bmap sb i n)
      (fun a t => Mapped sb i s (fileSlot i n) B a t ∧ (a ≠ 0 → a ∈ B ∧ Covers sb i (Q.erase n) B t))
      (TooBig (cost B s)) s := by
  -- one entry is looked up, from a state in which `B` covers all that is left
  have hentry : ∀ {u a t}, Covers sb i Q B u → Loaded sb i u (fileSlot i n) B a t → a ≠ 0 →
      a ∈ B ∧ Covers sb i (Q.erase n) B t := by
    rintro u a t hu ⟨hmapped, rfl | hfills⟩ h0
    · have hself : fileBlock sb t i n = a := hmapped.block h0
      exact ⟨hself ▸ hu.data n hQ (hself.trans_ne h0), hu.mono (erase_subset n Q)⟩
    · have hpos : 0 < needed sb i Q u := Nat.add_pos_left (card_pos.mpr ⟨n, mem_filter.mpr ⟨hQ, hfills.empty⟩⟩) _
      exact ⟨(hu.funded hpos _ _ hfills.free).1, hu.fillsFile hfills hQ⟩
  have hmissing : ∀ {u}, fileBlock sb u i n = 0 → n ∈ missing sb i Q u := fun h0 => mem_filter.mpr ⟨hQ, h0⟩
  have hfund : ∀ {u}, Covers sb i Q B u → fileBlock sb u i n = 0 → Funded sb B u := fun hu h0 =>
    hu.funded (Nat.add_pos_left (card_pos.mpr ⟨n, hmissing h0⟩) _)
  unfold bmap
  split
  next hlt =>
    have hslot : fileSlot i n = .direct i n := if_pos hlt
    rw [hslot] at hentry ⊢
    refine wp_post (loadAddr_spec h hlt.le fun h0 => hfund hc ?_) fun a t ht => ⟨ht.1, hentry hc ht⟩
    rw [fileBlock, hslot, h0]
  next hge =>
    have hslot : fileSlot i n = .indirect i (n - ndirect) := if_neg hge
    have hj : n - ndirect < nindirect := Nat.sub_lt_left_of_lt_add (not_lt.mp hge) hn
    rw [hslot] at hentry ⊢
    rw [if_pos hj]
    refine wp_then (loadAddr_spec h le_rfl fun h0 => hc.funded (Nat.add_pos_right _ ?_)) ?_
    · rw [needsIndirect, if_pos ⟨h0, n, hQ, not_lt.mp hge⟩]
      exact Nat.one_pos
    rintro addr t ⟨ht, hstep⟩
    split
    next h0 =>
      subst h0
      exact wp_pure.mpr ⟨⟨ht.held, ht.grows, ht.logged, ht.full, absurd rfl⟩, absurd rfl⟩
    next h0 =>
      have htc : Covers sb i Q B t := by
        rcases hstep with rfl | hfills
        · exact hc
        · exact hc.fillsIndirect hfills h0 hQ (not_lt.mp hge)
      refine wp_mono (bmapIndirect_spec (B := B) ht.held hj (ht.block h0) h0 fun hempty => ?_) ?_ fun e he =>
        he.mono (cost_le ht.logged)
      · have hzero : fileBlock sb t i n = 0 := by rw [fileBlock, hslot, hempty]
        refine ⟨?_, hfund htc hzero⟩
        rw [← ht.block h0]
        exact htc.indirect ⟨n, hmissing hzero, not_lt.mp hge⟩ ((ht.block h0).trans_ne h0)
      · intro a u hloaded
        have hu := hloaded.1
        exact ⟨⟨hu.held, ht.grows.trans hu.grows, subset_logged_trans ht.logged hu.logged, hu.full, hu.block⟩,
          hentry htc hloaded⟩

end Xv6Lab.FileSys
