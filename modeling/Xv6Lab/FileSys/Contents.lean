import Mathlib.Order.Interval.Finset.Nat
import Xv6Lab.Lib.Segments
import Xv6Lab.FileSys.Truncate

/-!
# Inodes as byte lists

The content of an inode is the list of its bytes, whatever blocks they lie in. `readi_spec` and
`writei_spec` describe the two operations on that list: `readi` returns a part of it and changes
nothing; `writei` overwrites or extends it, cut short only by a full disk or a failed copy, and leaves
every other inode alone.
-/

namespace Xv6Lab.FileSys

open Function Lib.Words Lib.Exec Lib.Accounting Lib.Segments

variable {sb : Superblock} {s t : Fs} {i j k b n : Nat} {off m : Nat} {u : Fs} {d : Block}

theorem Consistent.sized (h : Consistent sb s) (hv : (s.icache i).valid = true) : Sized sb s i :=
  h.blocks.sized i (h.held hv).allocated

/-- Byte `k` of a file. -/
def fileByte (sb : Superblock) (s : Fs) (i k : Nat) : UInt8 :=
  UInt8.ofNat (byteAt (s.block (fileBlock sb s i (k / bsize))) (k % bsize))

/-- The bytes of an inode. -/
def content (sb : Superblock) (s : Fs) (i : Nat) : List UInt8 :=
  seg (fileByte sb s i) 0 (view s i).size

theorem length_content (sb : Superblock) (s : Fs) (i : Nat) :
    (content sb s i).length = (view s i).size := length_seg ..

/-- The bytes of an inode that did not change, over unchanged blocks. -/
theorem content_congr (hv : view t i = view s i) (hb : t.block = s.block) : content sb t i = content sb s i := by
  rw [content, content, hv]
  refine seg_congr fun k _ => ?_
  rw [fileByte, fileBlock, slot_eq_of_view (by rw [fileSlot_owner, hv]) hb, hb, fileByte, fileBlock]

/-- Positions within the rest of a block. -/
theorem pos_in_block (hm : m ≤ bsize - off % bsize) (hk : k < m) :
    (off + k) / bsize = off / bsize ∧ (off + k) % bsize = off % bsize + k := by
  have hb : bsize = 1024 := rfl
  rw [hb] at hm ⊢
  omega

/-- A part of a file that lies in one block. -/
theorem slice_fileBlock (hm : m ≤ bsize - off % bsize) :
    slice (s.block (fileBlock sb s i (off / bsize))) (off % bsize) m = seg (fileByte sb s i) off m := by
  refine List.map_congr_left fun k hk => ?_
  obtain ⟨hdiv, hmod⟩ := pos_in_block hm (List.mem_range.mp hk)
  rw [fileByte, hdiv, hmod]

/-! ## Reading -/

/-- `bmap` of a block that is allocated only looks it up. -/
theorem bmap_allocated (h : Held sb i s) (hn : fileBlock sb s i n ≠ 0) :
    bmap sb i n s = .ok (fileBlock sb s i n) s := by
  have hload : ∀ k ≤ ndirect, slot sb s (.direct i k) ≠ 0 → loadAddr sb i k s = .ok (slot sb s (.direct i k)) s := by
    intro k hk h0
    rw [h.allocated.slot_direct hk, view_of_valid h.valid] at h0 ⊢
    refine (bind_of_ok (rfl : inode i s = .ok _ s)).trans ?_
    rw [if_neg h0]
    rfl
  unfold fileBlock fileSlot at hn ⊢
  unfold bmap
  split
  next hlt =>
    rw [if_pos hlt] at hn
    exact hload n hlt.le hn
  next hge =>
  rw [if_neg hge] at hn
  obtain ⟨hd, hj⟩ := direct_of_indirect hn
  rw [if_pos hj]
  refine (bind_of_ok (hload ndirect le_rfl hd)).trans ?_
  rw [if_neg hd]
  rw [h.allocated.slot_indirect hj hd] at hn ⊢
  refine (bind_of_ok (rfl : bread _ s = .ok _ s)).trans ?_
  rw [if_neg hn]
  rfl

/-- The bytes copied fit into the destination. -/
def Fits (limit : Option Nat) (n : Nat) : Prop := ∀ l, limit = some l → n ≤ l

/-- A copy without a limit. -/
theorem fits_none (n : Nat) : Fits none n := fun l h => absurd h (Option.some_ne_none l).symm

theorem copyable_le (limit : Option Nat) (tot m : Nat) : copyable limit tot m ≤ m := by
  cases limit with
  | none => exact le_rfl
  | some l => exact Nat.min_le_left ..

theorem copyable_of_fits {limit : Option Nat} {tot : Nat} (h : Fits limit n)
    (hm : tot + m ≤ n) : copyable limit tot m = m := by
  cases limit with
  | none => rfl
  | some l =>
    have := h l rfl
    exact Nat.min_eq_left (by omega)

theorem copyable_zero (limit : Option Nat) (tot : Nat) : copyable limit tot 0 = 0 := Nat.le_zero.mp (copyable_le ..)

/-- A copy that stops early stops there however much is asked for. -/
theorem copyable_of_lt {limit : Option Nat} {tot : Nat} (h : copyable limit tot m < m) (hm : m ≤ k) :
    copyable limit tot k = copyable limit tot m := by
  cases limit with
  | none => exact absurd h (lt_irrefl m)
  | some l =>
    have hlt : min m (l - tot) < m := h
    show min k (l - tot) = min m (l - tot)
    omega

theorem copyable_add {limit : Option Nat} {tot : Nat} (h : ¬ copyable limit tot m < m) (k : Nat) :
    copyable limit tot (m + k) = m + copyable limit (tot + m) k := by
  cases limit with
  | none => rfl
  | some l =>
    have hge : ¬ min m (l - tot) < m := h
    show min (m + k) (l - tot) = m + min k (l - (tot + m))
    omega

/-- The loop of `readi` collects the bytes of the file, as many as the destination takes, and leaves the state
alone. -/
theorem readiLoop_spec (h : Held sb i s) (dst : Dest) (fuel : Nat) : ∀ tot off acc,
    n - tot ≤ fuel → tot ≤ n →
    (∀ k, off ≤ k → k < off + (n - tot) → fileBlock sb s i (k / bsize) ≠ 0) →
    wp (readiLoop sb i dst fuel tot off n acc)
      (fun r t => t = s ∧ r.1 = (if copyable dst tot (n - tot) = n - tot then (n : Int) else -1) ∧
        r.2 = acc ++ seg (fileByte sb s i) off (copyable dst tot (n - tot)))
      (fun _ => False) s := by
  induction fuel with
  | zero =>
    intro tot off acc hf htot _
    obtain rfl : tot = n := by omega
    refine wp_pure.mpr ⟨rfl, ?_⟩
    simp [copyable_zero]
  | succ fuel ih =>
    intro tot off acc hf htot hblocks
    rw [readiLoop]
    split
    next hlt =>
      have hblock := hblocks off le_rfl (by omega)
      rw [wp_bind]
      refine wp_of_ok (bmap_allocated h hblock) ?_
      rw [if_neg hblock, wp_bind, wp_bread]
      dsimp only
      have hmod : off % bsize < bsize := Nat.mod_lt _ (by decide)
      have hm : 0 < min (n - tot) (bsize - off % bsize) := by omega
      have hmle : min (n - tot) (bsize - off % bsize) ≤ bsize - off % bsize :=
        Nat.min_le_right ..
      have hmn : min (n - tot) (bsize - off % bsize) ≤ n - tot := Nat.min_le_left ..
      generalize min (n - tot) (bsize - off % bsize) = m at hm hmle hmn
      split
      next hfail =>
        rw [copyable_of_lt hfail hmn, if_neg (by omega)]
        refine wp_pure.mpr ⟨rfl, rfl, ?_⟩
        rw [slice_fileBlock ((copyable_le ..).trans hmle)]
      next hall =>
        have hrest : n - tot = m + (n - (tot + m)) := by omega
        refine wp_post (ih (tot + m) (off + m) _ (by omega) (by omega) fun k hk hk' =>
          hblocks k (by omega) (by omega)) ?_
        rintro r t ⟨ht, hret, hr⟩
        rw [hrest, copyable_add hall]
        refine ⟨ht, hret.trans (if_congr (by omega) rfl rfl), hr.trans ?_⟩
        rw [slice_fileBlock hmle, List.append_assoc, seg_append]
    next hge =>
      obtain rfl : tot = n := by omega
      refine wp_pure.mpr ⟨rfl, ?_⟩
      simp [copyable_zero]

/-- A range of positions that `readi` refuses. -/
def BadRange (size : Nat) (off n : UInt32) : Prop := size < off.toNat ∨ off + n < off

instance (size : Nat) (off n : UInt32) : Decidable (BadRange size off n) :=
  inferInstanceAs (Decidable (_ ∨ _))

/-- The range of a read is accepted. -/
def ReadRange (size : Nat) (off n : UInt32) : Prop :=
  off.toNat ≤ size ∧ off.toNat + n.toNat < 2 ^ 32

theorem not_badRange_iff {size : Nat} {off n : UInt32} : ¬ BadRange size off n ↔ ReadRange size off n := by
  rw [BadRange, ReadRange, not_or, not_lt, UInt32.lt_iff_toNat_lt, UInt32.toNat_add, not_lt]
  have h2 := n.toNat_lt
  omega

/-- A range that is not refused does not wrap around. -/
theorem toNat_add_of_range {size : Nat} {off n : UInt32} (h : ¬ BadRange size off n) :
    (off + n).toNat = off.toNat + n.toNat := by
  rw [UInt32.toNat_add, Nat.mod_eq_of_lt (not_badRange_iff.mp h).2]

/-- How many bytes `readi` sets out to copy. -/
def readLength (size : Nat) (off n : UInt32) : Nat :=
  if BadRange size off n then 0 else min n.toNat (size - off.toNat)

/-- `readi` returns the bytes of the file in the range that the destination takes, and leaves the state alone. -/
theorem readi_exact (h : Held sb i s) (hsz : Sized sb s i) (dst : Dest) (off n : UInt32) {len : Nat}
    (hlen : readLength (view s i).size off n = len) :
    wp (readi sb i dst off n)
      (fun r t => t = s ∧ r.1 = (if copyable dst 0 len = len then (len : Int) else -1) ∧
        r.2 = seg (fileByte sb s i) off.toNat (copyable dst 0 len))
      (fun _ => False) s := by
  rw [readi, wp_bind, wp_inode, ← view_of_valid h.valid]
  split
  next hbad =>
    obtain rfl : 0 = len := (if_pos (show BadRange _ off n from hbad)).symm.trans hlen
    refine wp_pure.mpr ⟨rfl, ?_⟩
    simp [copyable_zero]
  next hgood =>
  have hn : (if (view s i).size < (off + n).toNat then (view s i).size - off.toNat else n.toNat) = len := by
    rw [toNat_add_of_range hgood, ← hlen, readLength, if_neg (show ¬ BadRange _ off n from hgood)]
    split <;> omega
  simp only [hn]
  refine readiLoop_spec h dst _ 0 off.toNat [] (Nat.le_refl _) (Nat.zero_le _) fun k hk hk' => ?_
  refine hsz _ (lt_of_le_of_lt (Nat.div_mul_le_self k bsize) ?_)
  rw [readLength, if_neg (show ¬ BadRange _ off n from hgood)] at hlen
  omega

/-- What `readi` returns to a destination that takes all. -/
theorem readi_spec (h : Held sb i s) (hsz : Sized sb s i) (dst : Dest) (off n : UInt32) :
    wp (readi sb i dst off n)
      (fun r t => t = s ∧ (BadRange (view s i).size off n → r = (0, [])) ∧
        (¬ BadRange (view s i).size off n → Fits dst n.toNat →
          r.2 = ((content sb s i).drop off.toNat).take n.toNat ∧ r.1 = (r.2.length : Int)))
      (fun _ => False) s := by
  refine wp_post (readi_exact h hsz dst off n rfl) ?_
  rintro r t ⟨ht, hret, hr⟩
  rw [readLength] at hret hr
  refine ⟨ht, fun hbad => ?_, fun hgood hfit => ?_⟩
  · rw [if_pos hbad, copyable_zero] at hret hr
    exact Prod.ext hret hr
  · have hall := copyable_of_fits hfit (Nat.zero_add (min n.toNat ((view s i).size - off.toNat)) ▸ Nat.min_le_left ..)
    rw [if_neg hgood, hall] at hret hr
    rw [hret, hr, if_pos rfl, content, take_drop_seg]
    exact ⟨rfl, congrArg Nat.cast (length_seg ..).symm⟩

/-! ## Writing -/

/-- What a write to inode `i` leaves alone. -/
abbrev Wrote (sb : Superblock) (i : Nat) : Fs → Fs → Prop := Adds sb i (·.owner ≠ i)

theorem Grows.wrote (h : Grows sb i s t) : Wrote sb i s t :=
  ⟨h.frame, h.others, h.self, h.slots, fun x hx hne => h.data x hx fun he => hne (he ▸ rfl)⟩

/-- Adding blocks changes no byte of a block that was there. -/
theorem Grows.fileByte (h : Grows sb i s t) (hk : fileBlock sb s j (k / bsize) ≠ 0) :
    fileByte sb t j k = fileByte sb s j k := by
  have hb : fileBlock sb t j (k / bsize) = fileBlock sb s j (k / bsize) := h.slots _ hk
  rw [FileSys.fileByte, FileSys.fileByte, hb]
  exact congrArg (fun d => UInt8.ofNat (byteAt d (k % bsize))) (h.data _ hk (fileSlot_ne j _ i))

/-- The state with the data block `b` changed. -/
def writeBlock (s : Fs) (b : Nat) (d : Block) : Fs :=
  { s with block := update s.block b d }

theorem writeBlock_block_self (d : Block) : (writeBlock s b d).block b = d :=
  update_self ..

theorem writeBlock_block_ne {c : Nat} (d : Block) (h : c ≠ b) :
    (writeBlock s b d).block c = s.block c := update_of_ne h ..

/-- Data blocks hold no block numbers. -/
theorem Held.slot_writeBlock (h : Held sb i s) (hb : fileBlock sb s i n = b)
    (h0 : b ≠ 0) (x : Slot) : slot sb (writeBlock s b d) x = slot sb s x := by
  cases x with
  | direct j k => exact slot_direct_congr rfl rfl
  | indirect j k =>
    refine slot_indirect_congr rfl rfl fun hd => ?_
    rw [writeBlock_block_ne]
    intro he
    exact fileSlot_ne i n j (h.accounts.inj (hb.trans_ne h0) (hb.trans he.symm))

theorem Held.writeBlock (h : Held sb i s) (hb : fileBlock sb s i n = b)
    (h0 : b ≠ 0) : Held sb i (writeBlock s b d) ∧ Wrote sb i s (writeBlock s b d) := by
  have hslot := h.slot_writeBlock (d := d) hb h0
  refine ⟨⟨h.valid, h.lt, h.type, h.accounts.congr (fun _ _ _ => rfl) hslot, ?_, h.synced,
    h.marked⟩, rfl, fun _ _ => rfl, ⟨_, rfl⟩, fun x _ => hslot x, fun x hx hne => ?_⟩
  · exact h.sized_congr (fun _ _ => rfl) fun x _ => hslot x
  · refine writeBlock_block_ne d fun he => hne ?_
    rw [h.accounts.inj hx (he.trans hb.symm), fileSlot_owner]

/-- The bytes of the block that was changed. -/
theorem Held.fileByte_writeBlock_self (h : Held sb i s) (hb : fileBlock sb s i (k / bsize) = b) (h0 : b ≠ 0) :
    fileByte sb (FileSys.writeBlock s b d) i k = UInt8.ofNat (byteAt d (k % bsize)) := by
  have hslot := h.slot_writeBlock (d := d) hb h0 (fileSlot i (k / bsize))
  rw [fileByte, fileBlock, hslot]
  exact congrArg (fun d => UInt8.ofNat (byteAt d (k % bsize)))
    ((congrArg (FileSys.writeBlock s b d).block hb).trans (writeBlock_block_self d))

/-- The other bytes of the file. -/
theorem Held.fileByte_writeBlock_ne (h : Held sb i s)
    (hb : fileBlock sb s i n = b) (h0 : b ≠ 0) (hk : k / bsize ≠ n) :
    fileByte sb (FileSys.writeBlock s b d) i k = fileByte sb s i k := by
  have hslot := h.slot_writeBlock (d := d) hb h0 (fileSlot i (k / bsize))
  rw [fileByte, fileBlock, hslot, fileByte, fileBlock]
  refine congrArg (fun d => UInt8.ofNat (byteAt d (k % bsize))) (writeBlock_block_ne d ?_)
  intro he
  exact hk (fileSlot_inj (h.accounts.inj (hb.trans_ne h0) (hb.trans he.symm))).2.symm

/-- A byte of a block that was partly overwritten. -/
theorem byteAt_overwrite (d : Block) (start m : Nat) (f : Nat → UInt8) (hk : k < bsize) :
    UInt8.ofNat (byteAt (overwrite d start m f) k) =
      if start ≤ k ∧ k < start + m then f (k - start) else UInt8.ofNat (byteAt d k) := by
  simp only [byteAt, overwrite, hk, dite_true]
  split <;> simp

/-- The number of file blocks that `r` bytes from `off` on lie in. -/
def span (off r : Nat) : Nat := if r = 0 then 0 else (off % bsize + r - 1) / bsize + 1

/-- The numbers of these blocks. -/
def spanBlocks (off r : Nat) : Finset Nat := Finset.Ico (off / bsize) (off / bsize + span off r)

theorem first_mem_spanBlocks (off : Nat) {r : Nat} (hr : 0 < r) : off / bsize ∈ spanBlocks off r := by
  rw [spanBlocks, span, if_neg hr.ne', Finset.mem_Ico]
  exact ⟨le_rfl, Nat.lt_add_of_pos_right (Nat.succ_pos _)⟩

/-- Each round of the loop is done with one block. -/
theorem spanBlocks_step {r : Nat} (hm : m = min r (bsize - off % bsize)) (hr : 0 < r) :
    spanBlocks (off + m) (r - m) ⊆ (spanBlocks off r).erase (off / bsize) := by
  intro q hq
  have hb : bsize = 1024 := rfl
  rw [Finset.mem_erase, spanBlocks, Finset.mem_Ico, span, if_neg hr.ne']
  rw [spanBlocks, Finset.mem_Ico, span] at hq
  rw [hb] at hm hq ⊢
  split at hq <;> omega

theorem Wrote.fileBlock_ne (h : Wrote sb i s t) (hn : fileBlock sb s j n ≠ 0) :
    fileBlock sb t j n ≠ 0 := (h.slots _ hn).trans_ne hn

/-- One round of the loop: `c` bytes go into the block of the file at `off`. -/
theorem Held.overwriteBlock (src : Source) (tot : Nat) {c : Nat} (hu : Held sb i u) (hg : Grows sb i s u)
    (hb : fileBlock sb u i (off / bsize) = b) (h0 : b ≠ 0) (hm : m ≤ bsize - off % bsize) (hc : c ≤ m)
    (ht : t = FileSys.writeBlock u b (overwrite (u.block b) (off % bsize) c fun k => src.bytes (tot + k))) :
    (∀ k, fileBlock sb s i (k / bsize) ≠ 0 → k < off ∨ off + c ≤ k → fileByte sb t i k = fileByte sb s i k) ∧
    (∀ k, off ≤ k → k < off + c → fileBlock sb t i (k / bsize) ≠ 0 ∧
      fileByte sb t i k = src.bytes (tot + (k - off))) := by
  subst ht
  have hmod : ∀ k, k % bsize < bsize := fun k => Nat.mod_lt _ (by decide)
  refine ⟨fun k hk ho => ?_, fun k hk hk' => ?_⟩
  · rcases eq_or_ne (k / bsize) (off / bsize) with hq | hq
    · have hbk : fileBlock sb u i (k / bsize) = b := hq ▸ hb
      rw [hu.fileByte_writeBlock_self hbk h0, byteAt_overwrite _ _ _ _ (hmod k), if_neg,
        ← hg.fileByte hk, fileByte, hbk]
      have h1 := Nat.div_add_mod k bsize
      have h2 := Nat.div_add_mod off bsize
      rw [hq] at h1
      omega
    · rw [hu.fileByte_writeBlock_ne hb h0 hq, hg.fileByte hk]
  · have hlt : k - off < m := by omega
    obtain ⟨hdiv, hmodk⟩ := pos_in_block hm hlt
    have hk2 : off + (k - off) = k := by omega
    rw [hk2] at hdiv hmodk
    have hbk : fileBlock sb u i (k / bsize) = b := hdiv ▸ hb
    refine ⟨?_, ?_⟩
    · rw [fileBlock, hu.slot_writeBlock hb h0]
      exact hbk.trans_ne h0
    · rw [hu.fileByte_writeBlock_self hbk h0, byteAt_overwrite _ _ _ _ (hmod k), hmodk,
        if_pos ⟨by omega, by omega⟩, Nat.add_sub_cancel_left]

/-- The state with other blocks in the transaction. -/
def setLogged (s : Fs) (l : Finset Nat) : Fs := { s with logged := l }

theorem Held.setLogged (h : Held sb i s) (l : Finset Nat) : Held sb i (setLogged s l) :=
  ⟨h.valid, h.lt, h.type, h.accounts, h.sized, h.synced, h.marked⟩

theorem Consistent.setLogged (h : Consistent sb s) (l : Finset Nat) : Consistent sb (setLogged s l) :=
  ⟨⟨h.blocks.accounts, h.blocks.sized⟩, h.synced, h.marked⟩

theorem Adds.setLogged {kept : Slot → Prop} (h : Adds sb i kept s t) (l : Finset Nat) :
    Adds sb i kept s (setLogged t l) := by
  refine ⟨?_, h.others, h.self, h.slots, h.data⟩
  rw [h.frame]
  rfl

/-- Every block that changed is in the transaction. -/
structure Recorded (s t : Fs) : Prop where
  grows : s.logged ⊆ t.logged
  kept : ∀ b, b ∉ t.logged → t.block b = s.block b

theorem Recorded.refl (s : Fs) : Recorded s s := ⟨subset_rfl, fun _ _ => rfl⟩

theorem Recorded.trans (h : Recorded s t) (h' : Recorded t u) : Recorded s u :=
  ⟨h.grows.trans h'.grows, fun b hb => (h'.kept b hb).trans (h.kept b fun hl => hb (h'.grows hl))⟩

/-- A block is changed and recorded. -/
theorem Recorded.setBlock (s : Fs) (b : Nat) (d : Block) :
    Recorded s (setLogged (writeBlock s b d) (insert b s.logged)) := by
  refine ⟨Finset.subset_insert b s.logged, fun c hc => writeBlock_block_ne d ?_⟩
  rintro rfl
  exact hc (Finset.mem_insert_self c s.logged)

/-- Any way to stop. -/
abbrev Anyhow : Stop → Prop := fun _ => True

theorem wp_logWrite_anyhow {Q : Unit → Fs → Prop} (hQ : Q () { s with logged := insert b s.logged }) :
    wp (logWrite b) Q Anyhow s :=
  wp_mono (wp_logWrite le_rfl hQ) (fun _ _ => id) fun _ _ => trivial

theorem balloc_records : wp (balloc sb) (fun _ t => Recorded s t) Anyhow s := by
  refine wp_mono (ballocLoop_spec sb.size 0) ?_ fun _ _ => trivial
  rintro a t (⟨-, -, rfl⟩ | ⟨-, rfl⟩)
  · exact .refl _
  · refine ⟨fun c hc => by simp [takeBlock, hc], fun c hc => takeBlock_block_ne ?_⟩
    rintro rfl
    simp [takeBlock] at hc

theorem loadAddr_records : wp (loadAddr sb i k) (fun _ t => Recorded s t) Anyhow s := by
  rw [loadAddr, wp_bind, wp_inode]
  split
  · refine wp_then balloc_records fun a t ht => ?_
    split
    · exact wp_pure.mpr ht
    · rw [wp_bind, wp_modifyInode]
      exact wp_pure.mpr ⟨ht.grows, ht.kept⟩
  · exact wp_pure.mpr (.refl s)

theorem bmap_records : wp (bmap sb i n) (fun _ t => Recorded s t) Anyhow s := by
  rw [bmap]
  split
  · exact loadAddr_records
  split
  · refine wp_then loadAddr_records fun a t ht => ?_
    split
    · exact wp_pure.mpr ht
    rw [bmapIndirect, wp_bind, wp_bread]
    split
    · refine wp_then balloc_records fun c u hu => ?_
      split
      · exact wp_pure.mpr (ht.trans hu)
      · rw [wp_bind, wp_bread, wp_bind, wp_setBlock, wp_bind]
        exact wp_logWrite_anyhow (wp_pure.mpr ((ht.trans hu).trans (.setBlock u a _)))
    · exact wp_pure.mpr ht
  · exact wp_throw.mpr trivial

/-- `bmap` finds a block that is there. -/
theorem bmap_zero (h : Held sb i s) : wp (bmap sb i n) (fun a _ => a = 0 → fileBlock sb s i n = 0) Anyhow s := by
  by_cases hn : fileBlock sb s i n = 0
  · exact wp_mono bmap_records (fun _ _ _ _ => hn) fun _ _ => trivial
  · exact wp_of_ok (bmap_allocated h hn) fun h0 => absurd h0 hn

section Loop

variable {u v : Fs} {src : Source} {tot off : Nat} {r : Nat × Nat} {d : Dinode}

/-- The state `u` that the loop entered at `tot` and `off` reaches with all rounds complete up to `r`. -/
structure Exact (sb : Superblock) (i : Nat) (src : Source) (n : Nat) (s : Fs) (tot off : Nat) (r : Nat × Nat)
    (u : Fs) : Prop where
  held : Held sb i u
  wrote : Wrote sb i s u
  recorded : Recorded s u
  tot_le : tot ≤ r.1
  le : r.1 ≤ n
  off_eq : r.2 = off + (r.1 - tot)
  whole : r.1 = tot ∨ tot + min (n - tot) (bsize - off % bsize) ≤ r.1
  aligned : r.1 = tot ∨ r.2 % bsize = 0 ∨ r.1 = n
  readable : ∀ l, src.limit = some l → r.1 = tot ∨ r.1 ≤ l
  kept : ∀ k, fileBlock sb s i (k / bsize) ≠ 0 → k < off ∨ r.2 ≤ k → fileByte sb u i k = fileByte sb s i k
  bytes : ∀ k, off ≤ k → k < r.2 → fileBlock sb u i (k / bsize) ≠ 0 ∧ fileByte sb u i k = src.bytes (tot + (k - off))

/-- The state with the bytes of the round at `r` that come before the fault at byte `l`. -/
def stray (sb : Superblock) (i : Nat) (src : Source) (r : Nat × Nat) (l : Nat) (u : Fs) : Fs :=
  let b := fileBlock sb u i (r.2 / bsize)
  writeBlock u b (overwrite (u.block b) (r.2 % bsize) (l - r.1) fun k => src.bytes (r.1 + k))

/-- How the loop ends: all bytes are written or the disk is full, or the copy of a block fails. -/
def LoopEnds (sb : Superblock) (i : Nat) (src : Source) (n : Nat) (s : Fs) (tot off : Nat) (r : Nat × Nat) (t : Fs) :
    Prop :=
  ∃ u, Exact sb i src n s tot off r u ∧
    (t = u ∧ (r.1 < n → fileBlock sb s i (r.2 / bsize) = 0 ∧ Full sb u) ∨
      ∃ l, src.limit = some l ∧ l < n ∧ l < r.1 + (bsize - r.2 % bsize) ∧ fileBlock sb u i (r.2 / bsize) ≠ 0 ∧
        t = stray sb i src r l u)

theorem Exact.stop (h : Held sb i u) (hg : Grows sb i s u) (hr : Recorded s u) (htot : tot ≤ n) :
    Exact sb i src n s tot off (tot, off) u where
  held := h
  wrote := hg.wrote
  recorded := hr
  tot_le := le_rfl
  le := htot
  off_eq := by simp
  whole := .inl rfl
  aligned := .inl rfl
  readable _ _ := .inl rfl
  kept _ hk _ := hg.fileByte hk
  bytes k hk hk' := absurd hk' (not_lt.mpr hk)

/-- One more round of `m` bytes before the others. -/
theorem Exact.round (hw : Wrote sb i s v) (hr : Recorded s v)
    (hm : min (n - tot) (bsize - off % bsize) = m) (hread : ∀ l, src.limit = some l → tot + m ≤ l)
    (hkept : ∀ k, fileBlock sb s i (k / bsize) ≠ 0 → k < off ∨ off + m ≤ k → fileByte sb v i k = fileByte sb s i k)
    (hbytes : ∀ k, off ≤ k → k < off + m →
      fileBlock sb v i (k / bsize) ≠ 0 ∧ fileByte sb v i k = src.bytes (tot + (k - off)))
    (htot : tot < n) (h : Exact sb i src n v (tot + m) (off + m) r u) : Exact sb i src n s tot off r u := by
  have hle := h.tot_le
  have hoff := h.off_eq
  have hb : bsize = 1024 := rfl
  refine ⟨h.held, hw.trans h.wrote, hr.trans h.recorded, by omega, h.le, by omega, .inr (by omega), ?_,
    fun l hl => .inr ?_, ?_, ?_⟩
  · have haligned := h.aligned
    rw [hb] at hm haligned ⊢
    omega
  · have hone := hread l hl
    have hrest := h.readable l hl
    omega
  · intro k hk ho
    exact (h.kept k (hw.fileBlock_ne hk) (by omega)).trans (hkept k hk (by omega))
  · intro k hk hk'
    rcases Nat.lt_or_ge k (off + m) with hlt | hge
    · obtain ⟨hblock, hbyte⟩ := hbytes k hk hlt
      exact ⟨h.wrote.fileBlock_ne hblock, (h.kept k hblock (.inl hlt)).trans hbyte⟩
    · obtain ⟨hblock, hbyte⟩ := h.bytes k hge hk'
      exact ⟨hblock, hbyte.trans (congrArg src.bytes (by omega))⟩

/-- The loop of `writei` stores the bytes from `tot` on at `off`, and logs blocks of a set that covers the range. -/
theorem writeiLoop_spec {B : Finset Nat} (src : Source) (fuel : Nat) : ∀ tot off s, n - tot ≤ fuel → tot ≤ n →
    off + (n - tot) ≤ maxfile * bsize → Held sb i s → Covers sb i (spanBlocks off (n - tot)) B s →
    wp (writeiLoop sb i src fuel tot off n)
      (fun r t => LoopEnds sb i src n s tot off r t ∧ t.logged ⊆ B ∪ s.logged) (TooBig (cost B s)) s := by
  induction fuel with
  | zero =>
    intro tot off s hf htot _ h _
    refine wp_pure.mpr ⟨⟨s, .stop h (.refl ..) (.refl s) htot, .inl ⟨rfl, fun hlt => ?_⟩⟩, Finset.subset_union_right⟩
    exact absurd hlt (by omega)
  | succ fuel ih =>
    intro tot off s hf htot hmax h hcov
    rw [writeiLoop]
    split
    next hlt =>
      have hq : off / bsize < maxfile := (Nat.div_lt_iff_lt_mul (by decide)).mpr (by omega)
      have hfirst := first_mem_spanBlocks off (r := n - tot) (by omega)
      refine wp_seq (wp_and (bmap_spec h hq hfirst hcov) (wp_and bmap_records (bmap_zero h))) (fun _ he => he.1) ?_
      rintro b u ⟨⟨hu, hrest⟩, hrec, hzero⟩
      have hstop : Exact sb i src n s tot off (tot, off) u := .stop hu.held hu.grows hrec htot
      split
      next h0 => exact wp_pure.mpr ⟨⟨u, hstop, .inl ⟨rfl, fun _ => ⟨hzero h0, hu.full h0⟩⟩⟩, hu.logged⟩
      next h0 =>
      obtain ⟨hbB, hucov⟩ := hrest h0
      have hb : fileBlock sb u i (off / bsize) = b := hu.block h0
      have hmod : off % bsize < bsize := Nat.mod_lt _ (by decide)
      rw [wp_bind, wp_bread]
      generalize hm : min (n - tot) (bsize - off % bsize) = m
      have hmle : m ≤ bsize - off % bsize := hm ▸ Nat.min_le_right ..
      rw [wp_bind, wp_setBlock]
      split
      next hfail =>
        -- the copy failed: the bytes before the fault are in the buffer
        cases hlimit : src.limit with
        | none =>
          rw [hlimit] at hfail
          exact absurd hfail (lt_irrefl m)
        | some l =>
          have hcopy : copyable (some l) tot m = l - tot := by
            rw [hlimit, copyable] at hfail
            exact Nat.min_eq_right (by omega)
          rw [hlimit, hcopy] at hfail
          rw [hcopy]
          refine wp_pure.mpr ⟨⟨u, hstop, .inr ⟨l, hlimit, by omega, ?_, hb.trans_ne h0, ?_⟩⟩, hu.logged⟩
          · dsimp only
            omega
          · simp only [stray, hb]
            rfl
      next hok =>
        have hc : copyable src.limit tot m = m := le_antisymm (copyable_le ..) (not_lt.mp hok)
        obtain ⟨hheld, hwrote⟩ := hu.held.writeBlock (d := overwrite (u.block b) (off % bsize) m fun k =>
          src.bytes (tot + k)) hb h0
        obtain ⟨hout, hin⟩ := hu.held.overwriteBlock src tot hu.grows hb h0 hmle le_rfl rfl
        have hw : Wrote sb i s _ := (hu.grows.wrote.trans hwrote).setLogged (insert b u.logged)
        have hlog : insert b u.logged ⊆ B ∪ s.logged :=
          Finset.insert_subset (Finset.mem_union_left _ hbB) hu.logged
        have hstep := spanBlocks_step hm.symm (by omega : 0 < n - tot)
        rw [Nat.sub_sub] at hstep
        rw [hc, wp_bind]
        refine wp_logWrite ((logged_card_le B u).trans (cost_le hu.logged)) ?_
        have hnext := ih (tot + m) (off + m) _ (by omega) (by omega) (by omega) (hheld.setLogged (insert b u.logged))
          ((hucov.mono hstep).congr (hu.held.slot_writeBlock hb h0) rfl)
        refine wp_mono hnext ?_ fun _ he => he.mono (cost_le hlog)
        rintro r t ⟨⟨w, hexact, hend⟩, hl⟩
        refine ⟨⟨w, .round hw (hrec.trans (.setBlock u b _)) hm ?_ hout hin hlt hexact, ?_⟩, subset_logged_trans hlog hl⟩
        · intro l hl
          rw [hl, copyable] at hc
          omega
        · refine hend.imp_left (And.imp_right fun hfull hr => ⟨?_, (hfull hr).2⟩)
          by_contra hne
          exact hw.fileBlock_ne hne (hfull hr).1
    next hge =>
      refine wp_pure.mpr ⟨⟨s, .stop h (.refl ..) (.refl s) htot, .inl ⟨rfl, fun hlt => ?_⟩⟩, Finset.subset_union_right⟩
      exact absurd hlt hge

/-- What holds at the end of the loop in every case. -/
theorem LoopEnds.facts (h : LoopEnds sb i src n s tot off r t) : Held sb i t ∧ Wrote sb i s t ∧
    (∀ k, off ≤ k → k < r.2 → fileBlock sb t i (k / bsize) ≠ 0) ∧ (r.1 < n → Full sb t ∨ ¬ Fits src.limit n) := by
  obtain ⟨u, hu, ⟨rfl, hfull⟩ | ⟨l, hl, hln, -, hblock, rfl⟩⟩ := h
  · exact ⟨hu.held, hu.wrote, fun k hk hk' => (hu.bytes k hk hk').1, fun hr => .inl (hfull hr).2⟩
  obtain ⟨hheld, hwrote⟩ := hu.held.writeBlock rfl hblock
  refine ⟨hheld, hu.wrote.trans hwrote, fun k hk hk' => hwrote.fileBlock_ne (hu.bytes k hk hk').1,
    fun _ => .inr fun hfit => ?_⟩
  exact absurd (hfit l hl) (not_le.mpr hln)

end Loop

/-- The outcome of a write of `n` bytes to inode `i` at `off`. -/
structure Written (sb : Superblock) (i : Nat) (src : Source) (off n : Nat) (s : Fs) (r : Int) (t : Fs) : Prop where
  consistent : Consistent sb t
  frame : t = { s with
    bitmap := t.bitmap, dinode := t.dinode, block := t.block, icache := t.icache, logged := t.logged }
  others : ∀ j, j ≠ i → t.icache j = s.icache j ∧ t.dinode j = s.dinode j
  self : ∃ size a, t.icache i = { s.icache i with ip := { (s.icache i).ip with size := size, addrs := a } }
  contents : ∀ j, j ≠ i → Allocated sb s j → content sb t j = content sb s j
  result : ∃ q : Nat, r = q ∧ q ≤ n ∧ (q < n → Full sb t ∨ ¬ Fits src.limit n) ∧
    (q = 0 ∨ min n (bsize - off % bsize) ≤ q) ∧
    (Fits src.limit n → content sb t i = splice (content sb s i) off (seg src.bytes 0 q))

/-- The bytes of an inode that was only written back. -/
theorem Held.fileByte_storeInode (h : Held sb i s) {d : Dinode}
    (ht : d.type = (s.icache i).ip.type) (ha : d.addrs = (s.icache i).ip.addrs) (j k : Nat) :
    fileByte sb (FileSys.storeInode sb s i d) j k = fileByte sb s j k := by
  rw [fileByte, fileBlock, h.slot_storeInode ht ha]
  rfl

/-- A write to inode `i` leaves the bytes of other inodes alone. -/
theorem Wrote.content (h : Wrote sb i s t) (hsz : Sized sb s j) (hj : j ≠ i)
    (hv : view t j = view s j) : content sb t j = content sb s j := by
  rw [FileSys.content, FileSys.content, hv]
  refine seg_congr fun k hk => ?_
  have hb : fileBlock sb s j ((0 + k) / bsize) ≠ 0 :=
    hsz _ (lt_of_le_of_lt (Nat.div_mul_le_self _ _) (by omega))
  have hs : fileBlock sb t j ((0 + k) / bsize) = fileBlock sb s j ((0 + k) / bsize) :=
    h.slots _ hb
  rw [fileByte, fileByte, hs]
  exact congrArg (fun d => UInt8.ofNat (byteAt d _)) (h.data _ hb (by rwa [fileSlot_owner]))

/-- The complete rounds have written what is reported. -/
theorem Exact.content {src : Source} {r : Nat × Nat} {d : Dinode} (h : Exact sb i src n s 0 off r u)
    (hsz : Sized sb s i) (hoff : off ≤ (view s i).size) (ht : d.type = (u.icache i).ip.type)
    (ha : d.addrs = (u.icache i).ip.addrs) (hd : d.size = max (view s i).size r.2) :
    content sb (storeInode sb u i d) i = splice (content sb s i) off (seg src.bytes 0 r.1) := by
  have hr : r.2 = off + r.1 := h.off_eq
  rw [FileSys.content, view_storeInode_self, FileSys.content, hd, hr]
  refine seg_splice hoff ?_ ?_
  · intro k hk hout
    rw [h.held.fileByte_storeInode ht ha]
    exact h.kept k (hsz _ ((Nat.div_mul_le_self k bsize).trans_lt hk)) (hr ▸ hout)
  · intro k hk
    rw [h.held.fileByte_storeInode ht ha, (h.bytes (off + k) (by omega) (by omega)).2]
    simp

/-- The inode is written back after the loop, with its new size. -/
theorem LoopEnds.written {src : Source} {r : Nat × Nat} {d : Dinode}
    (h : Consistent sb s) (hv : (s.icache i).valid = true) (hoff : off ≤ (view s i).size)
    (hr : LoopEnds sb i src n s 0 off r t) (hd : d = { (t.icache i).ip with size := d.size })
    (hsize : d.size = if (t.icache i).ip.size < r.2 then r.2 else (t.icache i).ip.size) :
    Written sb i src off n s r.1 (storeInode sb t i d) := by
  have hsz := h.sized hv
  have htype : d.type = (t.icache i).ip.type := by rw [hd]
  have haddrs : d.addrs = (t.icache i).ip.addrs := by rw [hd]
  obtain ⟨hheld, hwrote, hthere, hshort⟩ := hr.facts
  obtain ⟨u, hu, hend⟩ := hr
  obtain ⟨a, ha⟩ := hwrote.self
  have hmax : d.size = max (view s i).size r.2 := by
    have hsame : (t.icache i).ip.size = (view s i).size := by rw [ha, view_of_valid hv]
    rw [hsize, hsame]
    split <;> omega
  have hdin : t.dinode = s.dinode := by rw [hwrote.frame]
  refine ⟨hheld.storeInode htype haddrs ?_, ?_, ?_, ?_, ?_, r.1, rfl, hu.le, hshort, ?_, fun hfit => ?_⟩
  · -- every block below the new size is there
    intro m hm
    rw [hmax] at hm
    rcases Nat.lt_or_ge (m * bsize) (view s i).size with hlt | hge
    · exact hwrote.fileBlock_ne (hsz m hlt)
    · have hb := hthere (m * bsize) (hoff.trans hge) (by omega)
      rwa [Nat.mul_div_cancel _ (by decide)] at hb
  · rw [hwrote.frame]
    rfl
  · intro j hj
    rw [storeInode_icache_ne hj, storeInode_dinode_ne hj, hwrote.others j hj, hdin]
    exact ⟨rfl, rfl⟩
  · refine ⟨d.size, a, ?_⟩
    rw [storeInode_icache_self, hd, ha]
  · intro j hj hal
    rw [← hwrote.content (h.blocks.sized j hal) hj (view_congr (hwrote.others j hj) hdin), content, content,
      view_storeInode_ne hj]
    exact seg_congr fun k _ => hheld.fileByte_storeInode htype haddrs j _
  · have hwhole := hu.whole
    rwa [Nat.zero_add] at hwhole
  · obtain ⟨rfl, -⟩ | ⟨l, hl, hln, -⟩ := hend
    · exact hu.content hsz hoff htype haddrs hmax
    · exact absurd (hfit l hl) (not_le.mpr hln)

/-- The range of a write is accepted. -/
def WriteRange (size : Nat) (off n : UInt32) : Prop :=
  off.toNat ≤ size ∧ off.toNat + n.toNat < 2 ^ 32 ∧ off.toNat + n.toNat ≤ maxfile * bsize

instance (size : Nat) (off n : UInt32) : Decidable (WriteRange size off n) :=
  inferInstanceAs (Decidable (_ ∧ _))

/-- The panic of a write in a transaction that has no room for the blocks of the range. -/
def WriteStops (sb : Superblock) (i : Nat) (off n : UInt32) (s : Fs) (e : Stop) : Prop :=
  WriteRange (view s i).size off n ∧ TooBig (cost (writeBlocks sb i (spanBlocks off.toNat n.toNat) s) s) e

/-- `writei` refuses a range outside the file or beyond the largest file, and else stores what fits
on the disk. -/
theorem writei_spec (h : Consistent sb s) (hv : (s.icache i).valid = true) (src : Source) (off n : UInt32) :
    wp (writei sb i src off n)
      (fun r t =>
        (BadRange (view s i).size off n ∨ maxfile * bsize < off.toNat + n.toNat → r = -1 ∧ t = s) ∧
        (¬ BadRange (view s i).size off n → off.toNat + n.toNat ≤ maxfile * bsize →
          Written sb i src off.toNat n.toNat s r t))
      (WriteStops sb i off n s) s := by
  rw [writei, wp_bind, wp_inode, ← view_of_valid hv]
  split
  next hbad =>
    exact wp_pure.mpr ⟨fun _ => ⟨rfl, rfl⟩, absurd hbad⟩
  next hgood =>
  obtain ⟨hoff, hlt⟩ := not_badRange_iff.mp hgood
  rw [toNat_add_of_range hgood]
  split
  next hbig =>
    exact wp_pure.mpr ⟨fun _ => ⟨rfl, rfl⟩, fun _ hle => absurd hbig (not_lt.mpr hle)⟩
  next hle =>
  have hrange : WriteRange (view s i).size off n := ⟨hoff, hlt, not_lt.mp hle⟩
  refine wp_seq (writeiLoop_spec src n.toNat 0 off.toNat s (by omega) (Nat.zero_le _)
    (not_lt.mp hle) (h.held hv) (covers_writeBlocks ..)) (fun _ he => ⟨hrange, he⟩) ?_
  rintro r t ⟨hr, hlog⟩
  refine wp_modify_iupdate (fun e he => ⟨hrange, he.mono ((logged_card_le _ t).trans (cost_le hlog))⟩)
    (wp_pure.mpr ⟨?_, ?_⟩)
  · rintro (hbad | hbig)
    · exact absurd hbad hgood
    · exact absurd hbig hle
  · exact fun _ _ => hr.written h hv hoff rfl rfl

/-! ## Truncation -/

/-- An inode that lost its blocks is empty, and the others are as before. -/
theorem Truncated.contents (h : Truncated sb i s t) (hv : (s.icache i).valid = true) :
    content sb t i = [] ∧ ∀ j ≠ i, view t j = view s j ∧ content sb t j = content sb s j := by
  obtain ⟨a, -, ha⟩ := h.self
  refine ⟨?_, fun j hj => ?_⟩
  · have hsize : (view t i).size = 0 := by
      rw [view_of_valid (ha ▸ hv), ha]
    rw [content, hsize, seg_zero]
  · have hview : view t j = view s j := by
      rw [view, view, (h.others j hj).1, (h.others j hj).2]
    exact ⟨hview, content_congr hview (by rw [h.frame])⟩

end Xv6Lab.FileSys
