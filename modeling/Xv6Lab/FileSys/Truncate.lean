import Xv6Lab.FileSys.Blocks

/-!
# Freeing the blocks of an inode

`itrunc` frees the direct blocks one by one, then the blocks listed in the indirect block, whose
entries stay in place until the indirect block itself is freed. `itrunc_spec` says that no block is
freed twice, that the inode ends up empty and that the file system is consistent again.
-/

namespace Xv6Lab.FileSys

open Function Lib.Words Lib.Exec Lib.Accounting Finset

variable {sb : Superblock} {s t : Fs} {i j k b : Nat} {B : Finset Nat}

/-! ## Freeing one block -/

/-- The state after block `b` was freed. -/
def freeBlock (sb : Superblock) (s : Fs) (b : Nat) : Fs :=
  { s with
    bitmap := update s.bitmap b false
    logged := insert (bblock sb b) s.logged }

theorem bfree_spec (hb : s.bitmap b = true) :
    wp (bfree sb b) (fun _ t => t = freeBlock sb s b) (TooBig (cost B s)) s := by
  rw [bfree, wp_bind, wp_get]
  split
  next hfree =>
    rw [hb] at hfree
    cases hfree
  · rw [wp_bind, wp_setBit]
    exact wp_logWrite (logged_card_le B s) rfl

theorem freeBlock_logged (hb : bblock sb b ∈ B) : (freeBlock sb s b).logged ⊆ B ∪ s.logged :=
  insert_subset (mem_union_left _ hb) subset_union_right

/-- What an operation that only takes blocks from inode `i` leaves alone; it logs blocks of `B`. -/
structure Shrinks (i : Nat) (B : Finset Nat) (s t : Fs) : Prop where
  frame : t = { s with bitmap := t.bitmap, icache := t.icache, logged := t.logged }
  others : ∀ j, j ≠ i → t.icache j = s.icache j
  self : ∃ a, t.icache i = { s.icache i with ip := { (s.icache i).ip with addrs := a } }
  logged : t.logged ⊆ B ∪ s.logged

theorem Shrinks.refl (i : Nat) (B : Finset Nat) (s : Fs) : Shrinks i B s s :=
  ⟨rfl, fun _ _ => rfl, ⟨_, rfl⟩, subset_union_right⟩

theorem Shrinks.trans {u : Fs} (h : Shrinks i B s t) (h' : Shrinks i B t u) :
    Shrinks i B s u where
  frame := by
    rw [h'.frame, h.frame]
  others j hj := (h'.others j hj).trans (h.others j hj)
  self := by
    obtain ⟨a, ha⟩ := h.self
    obtain ⟨a', ha'⟩ := h'.self
    refine ⟨a', ?_⟩
    rw [ha', ha]
  logged := subset_logged_trans h.logged h'.logged

theorem Shrinks.dinode (h : Shrinks i B s t) : t.dinode = s.dinode := by
  rw [h.frame]

/-- A slot of an inode that did not change, over unchanged blocks. -/
theorem slot_eq_of_view {x : Slot} (hv : view t x.owner = view s x.owner)
    (hb : t.block = s.block) : slot sb t x = slot sb s x := by
  cases x with
  | direct j k =>
    have hv : view t j = view s j := hv
    exact slot_direct_congr (by rw [hv]) (by rw [hv])
  | indirect j k =>
    have hv : view t j = view s j := hv
    exact slot_indirect_congr (by rw [hv]) (by rw [hv]) fun _ => by rw [hb]

/-- The inode stays locked when marks and slots still agree. -/
theorem Held.shrink (h : Held sb i s) (hs : Shrinks i B s t)
    (hacc : Accounts sb.dataStart sb.size t.bitmap (slot sb t)) (hm : MetaMarked sb t) :
    Held sb i t := by
  obtain ⟨a, ha⟩ := hs.self
  have hview : ∀ j ≠ i, view t j = view s j :=
    fun j hj => view_congr (hs.others j hj) hs.dinode
  refine ⟨?_, h.lt, ?_, hacc, ?_, ?_, hm⟩
  · rw [ha]
    exact h.valid
  · rw [ha]
    exact h.type
  · refine h.sized_congr hview fun x hx => slot_eq_of_view (hview _ hx) ?_
    rw [hs.frame]
  · exact fun j hj => synced_congr (hs.others j hj) hs.dinode (h.synced j hj)

/-- Freeing a data block leaves the marks of the metadata alone. -/
theorem metaMarked_update (h : MetaMarked sb s) (hb : sb.dataStart ≤ b)
    (ht : t.bitmap = update s.bitmap b false) : MetaMarked sb t := by
  intro c hc
  rw [ht, update_of_ne (by omega)]
  exact h c hc

theorem shrinks_setAddr {u : Fs} (hu : u = { s with bitmap := u.bitmap, logged := u.logged })
    (hl : u.logged ⊆ B ∪ s.logged) : Shrinks i B s (setAddr u i k 0) := by
  have hic : u.icache = s.icache := by rw [hu]
  refine ⟨?_, fun j hj => ?_, ?_, hl⟩
  · rw [hu]
    rfl
  · exact (update_of_ne hj ..).trans (congrFun hic j)
  · refine ⟨update (s.icache i).ip.addrs k 0, (update_self ..).trans ?_⟩
    rw [hic]

/-! ## The direct blocks -/

/-- A direct block is freed and its slot emptied. -/
theorem Held.clearDirect (h : Held sb i s) (hk : k < ndirect) (hb : slot sb s (.direct i k) = b) (h0 : b ≠ 0)
    (hB : bblock sb b ∈ B) :
    Held sb i (setAddr (freeBlock sb s b) i k 0) ∧ Shrinks i B s (setAddr (freeBlock sb s b) i k 0) := by
  have hlo := (h.accounts.range _ (hb ▸ h0)).1
  rw [hb] at hlo
  have hvalid : ((freeBlock sb s b).icache i).valid = true := h.valid
  have hs : Shrinks i B s (setAddr (freeBlock sb s b) i k 0) :=
    shrinks_setAddr rfl (freeBlock_logged hB)
  refine ⟨h.shrink hs ?_ (metaMarked_update h.marked hlo rfl), hs⟩
  have htype : (view (setAddr (freeBlock sb s b) i k 0) i).type = (view s i).type := by
    rw [view_setAddr_self 0 hvalid]
    rfl
  have haddr : ∀ k' ≠ k, (view (setAddr (freeBlock sb s b) i k 0) i).addrs k' = (view s i).addrs k' := by
    intro k' hk'
    rw [view_setAddr_self 0 hvalid]
    exact update_of_ne hk' ..
  refine h.accounts.clear sb.dataStart_pos (x := .direct i k) (fun y hy => ?_)
    (fun c hc => update_of_ne hc ..) hb h0 ?_ (update_self ..)
  · rcases eq_or_ne y.owner i with ho | ho
    · cases y with
      | direct j k' =>
        cases ho
        exact slot_direct_congr htype (haddr k' fun hk' => hy (hk' ▸ rfl))
      | indirect j k' =>
        cases ho
        exact slot_indirect_congr htype (haddr ndirect (by omega)) fun _ => rfl
    · exact slot_eq_of_view (view_setAddr_ne 0 ho) rfl
  · rw [Allocated.slot_direct _ hk.le, view_setAddr_self 0 hvalid]
    · exact update_self ..
    · exact (allocated_congr htype).mpr h.allocated

/-- The first loop of `itrunc` empties the direct slots. -/
theorem itruncDirect_spec (m : Nat) : ∀ k s, k + m = ndirect → Held sb i s →
    (∀ k' < k, (s.icache i).ip.addrs k' = 0) →
    (∀ k' < ndirect, (s.icache i).ip.addrs k' ≠ 0 → bblock sb ((s.icache i).ip.addrs k') ∈ B) →
    wp (itruncDirect sb i m k)
      (fun _ t => Held sb i t ∧ Shrinks i B s t ∧ (∀ k' < ndirect, (t.icache i).ip.addrs k' = 0) ∧
        (t.icache i).ip.addrs ndirect = (s.icache i).ip.addrs ndirect)
      (TooBig (cost B s)) s := by
  induction m with
  | zero =>
    intro k s hk h hz _
    exact wp_pure.mpr ⟨h, .refl .., fun k' hk' => hz k' (by omega), rfl⟩
  | succ m ih =>
    intro k s hk h hz hB
    rw [itruncDirect, wp_bind, wp_inode]
    split
    next h0 =>
      refine ih (k + 1) s (by omega) h (fun k' hk' => ?_) hB
      rcases Nat.lt_succ_iff_lt_or_eq.mp hk' with hlt | rfl
      · exact hz k' hlt
      · exact h0
    next h0 =>
      have hkd : k < ndirect := by omega
      have hslot : slot sb s (.direct i k) = (s.icache i).ip.addrs k := by
        rw [h.allocated.slot_direct hkd.le, view_of_valid h.valid]
      refine wp_then (bfree_spec ?_) ?_
      · rw [← hslot]
        exact h.accounts.marked _ (hslot ▸ h0)
      rintro - _ rfl
      obtain ⟨hheld, hshr⟩ := h.clearDirect hkd hslot h0 (hB k hkd h0)
      rw [wp_bind, wp_modifyInode]
      refine wp_mono (ih (k + 1) _ (by omega) hheld (fun k' hk' => ?_) fun k' hk' hne => ?_) ?_ fun _ he =>
        he.mono (cost_le hshr.logged)
      · rcases Nat.lt_succ_iff_lt_or_eq.mp hk' with hlt | rfl
        · exact (setAddr_addrs_ne 0 hlt.ne).trans (hz k' hlt)
        · exact setAddr_addrs_self 0
      · rcases eq_or_ne k' k with rfl | hkk
        · exact absurd (setAddr_addrs_self 0) hne
        · have hsame : ((setAddr (freeBlock sb s ((s.icache i).ip.addrs k)) i k 0).icache i).ip.addrs k' =
              (s.icache i).ip.addrs k' := setAddr_addrs_ne 0 hkk
          exact (congrArg (bblock sb · ∈ B) hsame).mpr (hB k' hk' fun hzero => hne (hsame.trans hzero))
      · rintro - t ⟨ht, hst, hzt, hkept⟩
        exact ⟨ht, hshr.trans hst, hzt, hkept.trans (setAddr_addrs_ne 0 hkd.ne')⟩

/-! ## The indirect block -/

/-- The slots without the entries of the indirect block of `i` before entry `j`. -/
def cut (i j : Nat) (f : Slot → Nat) : Slot → Nat
  | .direct m k => f (.direct m k)
  | .indirect m k => if m = i ∧ k < j then 0 else f (.indirect m k)

theorem cut_zero (i : Nat) (f : Slot → Nat) (x : Slot) : cut i 0 f x = f x := by
  cases x with
  | direct m k => rfl
  | indirect m k => exact if_neg fun h => Nat.not_lt_zero _ h.2

theorem cut_succ_ne {f : Slot → Nat} {x : Slot} (hx : x ≠ .indirect i j) : cut i (j + 1) f x = cut i j f x := by
  cases x with
  | direct m k => rfl
  | indirect m k =>
    refine if_congr ⟨?_, ?_⟩ rfl rfl
    · rintro ⟨rfl, hk⟩
      refine ⟨rfl, lt_of_le_of_ne (Nat.le_of_lt_succ hk) ?_⟩
      rintro rfl
      exact hx rfl
    · rintro ⟨rfl, hk⟩
      exact ⟨rfl, hk.trans (Nat.lt_succ_self j)⟩

theorem cut_succ_self (i j : Nat) (f : Slot → Nat) : cut i (j + 1) f (.indirect i j) = 0 :=
  if_pos ⟨rfl, Nat.lt_succ_self j⟩

theorem cut_self (i j : Nat) (f : Slot → Nat) : cut i j f (.indirect i j) = f (.indirect i j) :=
  if_neg fun h => Nat.lt_irrefl _ h.2

/-- The second loop of `itrunc`, over the slots `f` of the state before it. -/
theorem itruncIndirect_spec {f : Slot → Nat} {a : Block} (ha : ∀ j < nindirect, f (.indirect i j) = wordAt a j)
    (hB : ∀ j < nindirect, wordAt a j ≠ 0 → bblock sb (wordAt a j) ∈ B) (m : Nat) : ∀ j s, j + m = nindirect →
    Accounts sb.dataStart sb.size s.bitmap (cut i j f) → MetaMarked sb s →
    wp (itruncIndirect sb a m j)
      (fun _ t => t = { s with bitmap := t.bitmap, logged := t.logged } ∧ t.logged ⊆ B ∪ s.logged ∧
        Accounts sb.dataStart sb.size t.bitmap (cut i nindirect f) ∧ MetaMarked sb t)
      (TooBig (cost B s)) s := by
  induction m with
  | zero =>
    intro j s hj hacc hm
    cases (show j = nindirect from hj)
    exact wp_pure.mpr ⟨rfl, subset_union_right, hacc, hm⟩
  | succ m ih =>
    intro j s hj hacc hm
    have hcut : cut i j f (.indirect i j) = wordAt a j :=
      (cut_self i j f).trans (ha j (by omega))
    rw [itruncIndirect]
    split
    next h0 =>
      refine ih (j + 1) s (by omega) (hacc.congr (fun _ _ _ => rfl) fun x => ?_) hm
      rcases eq_or_ne x (.indirect i j) with rfl | hx
      · rw [cut_succ_self, hcut, h0]
      · exact cut_succ_ne hx
    next h0 =>
      have hmark := hacc.marked _ (hcut ▸ h0)
      have hlo := (hacc.range _ (hcut ▸ h0)).1
      rw [hcut] at hmark hlo
      refine wp_then (bfree_spec hmark) ?_
      rintro - _ rfl
      have hlog := freeBlock_logged (s := s) (hB j (by omega) h0)
      refine wp_mono (ih (j + 1) _ (by omega) ?_ (metaMarked_update hm hlo rfl)) ?_ ?_
      · exact hacc.clear sb.dataStart_pos (x := .indirect i j) (fun y hy => cut_succ_ne hy)
          (fun c hc => update_of_ne hc ..) hcut h0 (cut_succ_self i j f)
          (update_self ..)
      · rintro - t ⟨ht, hl, hacct, hmt⟩
        refine ⟨?_, subset_logged_trans hlog hl, hacct, hmt⟩
        rw [ht]
        rfl
      · exact fun e he => he.mono (cost_le hlog)

/-- The indirect block itself is freed, after the blocks it lists. -/
theorem Held.clearIndirect {u : Fs} (h : Held sb i s) (hb : slot sb s (.direct i ndirect) = b) (h0 : b ≠ 0)
    (hu : u = { s with bitmap := u.bitmap, logged := u.logged }) (hl : u.logged ⊆ B ∪ s.logged) (hB : bblock sb b ∈ B)
    (hacc : Accounts sb.dataStart sb.size u.bitmap (cut i nindirect (slot sb s))) (hm : MetaMarked sb u) :
    Held sb i (setAddr (freeBlock sb u b) i ndirect 0) ∧ Shrinks i B s (setAddr (freeBlock sb u b) i ndirect 0) := by
  have hlo := (h.accounts.range _ (hb ▸ h0)).1
  rw [hb] at hlo
  have hic : u.icache = s.icache := by rw [hu]
  have hdin : u.dinode = s.dinode := by rw [hu]
  have hvu : ∀ j, view u j = view s j := fun j => view_congr (congrFun hic j) hdin
  have hvalid : ((freeBlock sb u b).icache i).valid = true := by
    rw [freeBlock, hic]
    exact h.valid
  have hs : Shrinks i B s (setAddr (freeBlock sb u b) i ndirect 0) := by
    refine shrinks_setAddr ?_ (subset_logged_trans hl (freeBlock_logged hB))
    rw [hu]
    rfl
  have hblock : (setAddr (freeBlock sb u b) i ndirect 0).block = s.block := by rw [hs.frame]
  have hself : view (setAddr (freeBlock sb u b) i ndirect 0) i =
      { view s i with addrs := update (view s i).addrs ndirect 0 } := by
    rw [view_setAddr_self 0 hvalid, ← hvu i]
    rfl
  have hal : Allocated sb (setAddr (freeBlock sb u b) i ndirect 0) i := by
    refine (allocated_congr ?_).mpr h.allocated
    rw [hself]
  have hzero : slot sb (setAddr (freeBlock sb u b) i ndirect 0) (.direct i ndirect) = 0 := by
    rw [hal.slot_direct le_rfl, hself]
    exact update_self ndirect 0 (view s i).addrs
  have hdir : ∀ k ≠ ndirect, slot sb (setAddr (freeBlock sb u b) i ndirect 0) (.direct i k) =
      slot sb s (.direct i k) := by
    intro k hk
    refine slot_direct_congr (by rw [hself]) ?_
    rw [hself]
    exact update_of_ne hk _ _
  -- without an indirect block its entries are no slots
  have hind : ∀ k, slot sb (setAddr (freeBlock sb u b) i ndirect 0) (.indirect i k) =
      cut i nindirect (slot sb s) (.indirect i k) := by
    intro k
    have hleft : slot sb (setAddr (freeBlock sb u b) i ndirect 0) (.indirect i k) = 0 := by
      by_contra hne
      exact (direct_of_indirect hne).1 hzero
    rw [hleft, cut]
    split
    · rfl
    next hk =>
      by_contra hne
      exact hk ⟨rfl, (direct_of_indirect (Ne.symm hne)).2⟩
  refine ⟨h.shrink hs ?_ (metaMarked_update hm hlo rfl), hs⟩
  refine hacc.clear sb.dataStart_pos (x := .direct i ndirect) (fun y hy => ?_)
    (fun c hc => update_of_ne hc _ _) hb h0 hzero (update_self _ _ _)
  rcases eq_or_ne y.owner i with ho | ho
  · cases y with
    | direct m k =>
      obtain rfl : m = i := ho
      exact hdir k fun hk => hy (by rw [hk])
    | indirect m k =>
      obtain rfl : m = i := ho
      exact hind k
  · have hv := (view_setAddr_ne (s := freeBlock sb u b) (k := ndirect) 0 ho).trans (hvu _)
    rw [slot_eq_of_view hv hblock]
    cases y with
    | direct m k => rfl
    | indirect m k => exact (if_neg fun hc => ho hc.1).symm

/-! ## `itrunc` -/

/-- The state after the fields `d` of inode `i` were written back. -/
def storeInode (sb : Superblock) (s : Fs) (i : Nat) (d : Dinode) : Fs :=
  { s with
    icache := update s.icache i { s.icache i with ip := d }
    dinode := update s.dinode i d
    logged := insert (iblock sb i) s.logged }

/-- Fields of the copy in memory are changed and `iupdate` writes it to the disk. -/
theorem modify_iupdate_spec (sb : Superblock) (s : Fs) (i : Nat) (f : Dinode → Dinode) :
    wp (do modifyInode i f; iupdate sb i)
      (fun _ t => t = storeInode sb s i (f (s.icache i).ip)) (TooBig s.logged.card) s := by
  rw [wp_bind, wp_modifyInode, iupdate, wp_bind, wp_inode, wp_bind, wp_setDinode]
  refine wp_logWrite le_rfl ?_
  simp only [update_self]
  rfl

theorem wp_modify_iupdate {α : Type} {f : Dinode → Dinode} {x : FsM α} {Q : α → Fs → Prop} {E : Stop → Prop}
    (hE : ∀ e, TooBig s.logged.card e → E e) (hx : wp x Q E (storeInode sb s i (f (s.icache i).ip))) :
    wp (do modifyInode i f; iupdate sb i; x) Q E s := by
  have hspec := modify_iupdate_spec sb s i f
  rw [wp_bind, wp_modifyInode] at hspec ⊢
  refine wp_seq hspec hE ?_
  rintro - _ rfl
  exact hx

section Store

variable {d : Dinode}

theorem storeInode_icache_self : (storeInode sb s i d).icache i = { s.icache i with ip := d } := update_self _ _ _

theorem storeInode_icache_ne (h : j ≠ i) : (storeInode sb s i d).icache j = s.icache j :=
  update_of_ne h _ _

theorem storeInode_dinode_self : (storeInode sb s i d).dinode i = d := update_self _ _ _

theorem storeInode_dinode_ne (h : j ≠ i) : (storeInode sb s i d).dinode j = s.dinode j :=
  update_of_ne h _ _

theorem view_storeInode_self : view (storeInode sb s i d) i = d := by
  rw [view, storeInode_icache_self, storeInode_dinode_self]
  exact ite_self _

theorem view_storeInode_ne (h : j ≠ i) : view (storeInode sb s i d) j = view s j := by
  rw [view, view, storeInode_icache_ne h, storeInode_dinode_ne h]

section

variable (h : Held sb i s) (ht : d.type = (s.icache i).ip.type) (ha : d.addrs = (s.icache i).ip.addrs)
include h ht ha

/-- Writing an inode back keeps the slots if its block numbers stay. -/
theorem Held.slot_storeInode (x : Slot) : slot sb (storeInode sb s i d) x = slot sb s x := by
  have htype : ∀ j, (view (storeInode sb s i d) j).type = (view s j).type := by
    intro j
    rcases eq_or_ne j i with rfl | hj
    · rw [view_storeInode_self, view_of_valid h.valid, ht]
    · rw [view_storeInode_ne hj]
  have haddrs : ∀ j, (view (storeInode sb s i d) j).addrs = (view s j).addrs := by
    intro j
    rcases eq_or_ne j i with rfl | hj
    · rw [view_storeInode_self, view_of_valid h.valid, ha]
    · rw [view_storeInode_ne hj]
  cases x with
  | direct j k => exact slot_direct_congr (htype j) (by rw [haddrs])
  | indirect j k => exact slot_indirect_congr (htype j) (by rw [haddrs]) fun _ => rfl

/-- The file system is consistent once an inode with its blocks is written back. -/
theorem Held.storeInode (hsz : ∀ n, n * bsize < d.size → fileBlock sb s i n ≠ 0) :
    Consistent sb (storeInode sb s i d) := by
  have hslot := h.slot_storeInode ht ha
  have hheld : Held sb i (FileSys.storeInode sb s i d) := by
    refine ⟨?_, h.lt, ?_, h.accounts.congr (fun _ _ _ => rfl) hslot, ?_, ?_, h.marked⟩
    · rw [storeInode_icache_self]
      exact h.valid
    · rw [storeInode_icache_self]
      exact ht ▸ h.type
    · exact h.sized_congr (fun j hj => view_storeInode_ne hj) fun x _ => hslot x
    · intro j hj
      rw [Synced, storeInode_icache_ne hj, storeInode_dinode_ne hj]
      exact h.synced j hj
  refine hheld.consistent (fun n hn => ?_) ?_
  · rw [view_storeInode_self] at hn
    rw [fileBlock, hslot]
    exact hsz n hn
  · rw [storeInode_icache_self, storeInode_dinode_self]

end

end Store

/-- The outcome of truncating inode `i`. -/
structure Truncated (sb : Superblock) (i : Nat) (s t : Fs) : Prop where
  consistent : Consistent sb t
  frame : t = { s with
    bitmap := t.bitmap, dinode := t.dinode, icache := t.icache, logged := t.logged }
  others : ∀ j, j ≠ i → t.icache j = s.icache j ∧ t.dinode j = s.dinode j
  self : ∃ a : Nat → Nat, (∀ k, k ≤ ndirect → a k = 0) ∧
    t.icache i = { s.icache i with ip := { (s.icache i).ip with size := 0, addrs := a } }

/-- The blocks of the free map that `itrunc` changes: those of the blocks of the inode. -/
def truncBlocks (sb : Superblock) (i : Nat) (s : Fs) : Finset Nat :=
  let slots := (range (ndirect + 1)).image (Slot.direct i) ∪ (range nindirect).image (Slot.indirect i)
  ((slots.image (slot sb s)).erase 0).image (bblock sb)

theorem mem_truncBlocks {x : Slot} (hx : x.owner = i) (h0 : slot sb s x ≠ 0) :
    bblock sb (slot sb s x) ∈ truncBlocks sb i s := by
  refine mem_image_of_mem _ (mem_erase.mpr ⟨h0, mem_image_of_mem _ ?_⟩)
  cases x with
  | direct j k =>
    cases hx
    refine mem_union_left _ (mem_image_of_mem _ (mem_range.mpr (Nat.lt_succ_of_le ?_)))
    by_contra hk
    exact h0 (if_neg fun hc => hk hc.2)
  | indirect j k =>
    cases hx
    exact mem_union_right _ (mem_image_of_mem _ (mem_range.mpr (direct_of_indirect h0).2))

/-- An inode whose blocks are all freed is written back. -/
theorem itruncSize_spec (hs : Shrinks i B s t) (h : Held sb i t) (hz : ∀ k ≤ ndirect, (t.icache i).ip.addrs k = 0) :
    wp (itruncSize sb i) (fun _ u => Truncated sb i s u) (TooBig (cost B s)) t := by
  have hdin := hs.dinode
  obtain ⟨a, ha⟩ := hs.self
  refine wp_mono (modify_iupdate_spec sb t i _) ?_ fun _ he => he.mono ((logged_card_le B t).trans (cost_le hs.logged))
  rintro - _ rfl
  refine ⟨h.storeInode rfl rfl fun n hn => absurd hn (Nat.not_lt_zero _), ?_, ?_, ?_⟩
  · rw [hs.frame]
    rfl
  · intro j hj
    rw [storeInode_icache_ne hj, storeInode_dinode_ne hj, hs.others j hj, hdin]
    exact ⟨rfl, rfl⟩
  · refine ⟨a, fun k hk => ?_, ?_⟩
    · have := hz k hk
      rwa [ha] at this
    · rw [storeInode_icache_self, ha]

/-- `itrunc` empties a locked inode and frees no block that is free already. -/
theorem itrunc_spec (h : Held sb i s) :
    wp (itrunc sb i) (fun _ t => Truncated sb i s t) (TooBig (cost (truncBlocks sb i s) s)) s := by
  have haddr : ∀ k ≤ ndirect, slot sb s (.direct i k) = (s.icache i).ip.addrs k := by
    intro k hk
    rw [h.allocated.slot_direct hk, view_of_valid h.valid]
  refine wp_then (itruncDirect_spec ndirect 0 s (Nat.zero_add _) h (fun _ hk => absurd hk (Nat.not_lt_zero _))
    fun k hk hne => ?_) ?_
  · rw [← haddr k hk.le] at hne ⊢
    exact mem_truncBlocks rfl hne
  rintro - t ⟨ht, hst, hz, hkept⟩
  rw [wp_bind, wp_inode]
  split
  next h0 =>
    refine itruncSize_spec hst ht fun k hk => ?_
    rcases lt_or_eq_of_le hk with hlt | rfl
    · exact hz k hlt
    · exact h0
  next h0 =>
    have hslot : slot sb t (.direct i ndirect) = (t.icache i).ip.addrs ndirect := by
      rw [ht.allocated.slot_direct le_rfl, view_of_valid ht.valid]
    have hentries : ∀ j < nindirect, slot sb t (.indirect i j) =
        wordAt (t.block ((t.icache i).ip.addrs ndirect)) j := by
      intro j hj
      rw [ht.allocated.slot_indirect hj (hslot ▸ h0), hslot]
    -- the indirect block is still that of `s`
    have hold : slot sb s (.direct i ndirect) = (t.icache i).ip.addrs ndirect := (haddr _ le_rfl).trans hkept.symm
    have hsame : ∀ j < nindirect, slot sb s (.indirect i j) = wordAt (t.block ((t.icache i).ip.addrs ndirect)) j := by
      intro j hj
      rw [h.allocated.slot_indirect hj (hold ▸ h0), hold, hst.frame]
    rw [wp_bind, wp_bread]
    refine wp_seq (itruncIndirect_spec hentries (fun j hj hne => ?_) nindirect 0 t (Nat.zero_add _)
      (ht.accounts.congr (fun _ _ _ => rfl) (cut_zero i _)) ht.marked)
      (fun _ he => he.mono (cost_le hst.logged)) ?_
    · rw [← hsame j hj] at hne ⊢
      exact mem_truncBlocks rfl hne
    rintro - u ⟨hu, hl, hacc, hm⟩
    have hmark : u.bitmap ((t.icache i).ip.addrs ndirect) = true := by
      have hcut : cut i nindirect (slot sb t) (.direct i ndirect) = (t.icache i).ip.addrs ndirect := hslot
      rw [← hcut]
      exact hacc.marked _ (hcut ▸ h0)
    refine wp_seq (bfree_spec hmark) (fun _ he => he.mono (cost_le (subset_logged_trans hst.logged hl))) ?_
    rintro - _ rfl
    have hB : bblock sb ((t.icache i).ip.addrs ndirect) ∈ truncBlocks sb i s := by
      rw [← hold] at h0 ⊢
      exact mem_truncBlocks rfl h0
    obtain ⟨hheld, hshr⟩ := ht.clearIndirect hslot h0 hu hl hB hacc hm
    rw [wp_bind, wp_modifyInode]
    refine itruncSize_spec (hst.trans hshr) hheld fun k hk => ?_
    rcases lt_or_eq_of_le hk with hlt | rfl
    · have hic : u.icache = t.icache := by rw [hu]
      refine (setAddr_addrs_ne 0 hlt.ne).trans ?_
      exact (congrArg (fun c => (c i).ip.addrs k) hic).trans (hz k hlt)
    · exact setAddr_addrs_self 0

end Xv6Lab.FileSys
