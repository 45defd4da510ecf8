import Xv6Lab.Lib.Transition
import Xv6Lab.FileSys.Contents

/-!
# Inodes refine byte lists

A run is a sequence of `readi`, `writei` and `itrunc` calls on locked inodes of a consistent file
system, with commits of the transaction between them. In every state of such a run the next call acts
on the contents as on a family of byte lists (`inodes_refine_byte_lists`). The one way out is the panic
of `log_write`, which a call meets only if the transaction has no room for the blocks that the call
logs; a write of 32 blocks in one transaction does (`writei_too_big`).
-/

namespace Xv6Lab.FileSys

open Lib.Exec Lib.Accounting Lib.Segments Lib.Transition

/-! ## Runs -/

/-- A call on the content of an inode, or the commit of the transaction. -/
inductive ContentOp where
  | readi (i : Nat) (dst : Dest) (off n : UInt32)
  | writei (i : Nat) (src : Source) (off n : UInt32)
  | itrunc (i : Nat)
  | commit

/-- One call; its inode is locked. -/
def contentStep (sb : Superblock) (s : Fs) : ContentOp → Option Fs
  | .readi i dst off n =>
    if (s.icache i).valid = true then after (readi sb i dst off n) s else none
  | .writei i src off n =>
    if (s.icache i).valid = true then after (writei sb i src off n) s else none
  | .itrunc i => if (s.icache i).valid = true then after (itrunc sb i) s else none
  | .commit => some (setLogged s ∅)

variable {sb : Superblock} {s t : Fs} {i j : Nat}

/-- A write leaves the file system consistent. -/
theorem Consistent.writei_spec (h : Consistent sb s) (hv : (s.icache i).valid = true) (src : Source)
    (off n : UInt32) :
    wp (writei sb i src off n) (fun _ t => Consistent sb t) (WriteStops sb i off n s) s := by
  refine wp_post (FileSys.writei_spec h hv src off n) fun r t hr => ?_
  by_cases hbad : BadRange (view s i).size off n ∨ maxfile * bsize < off.toNat + n.toNat
  · rw [(hr.1 hbad).2]
    exact h
  · rw [not_or, not_lt] at hbad
    exact (hr.2 hbad.1 hbad.2).consistent

/-- Every call leaves the file system consistent. -/
theorem Consistent.contentStep {op : ContentOp} (h : Consistent sb s)
    (ht : contentStep sb s op = some t) : Consistent sb t := by
  cases op with
  | readi i dst off n =>
    obtain ⟨hv, ht⟩ := Option.ite_none_right_eq_some.mp ht
    refine wp_after (readi_spec (h.held hv) (h.sized hv) dst off n) ?_ ht
    rintro r t ⟨rfl, -⟩
    exact h
  | writei i src off n =>
    obtain ⟨hv, ht⟩ := Option.ite_none_right_eq_some.mp ht
    exact wp_after (h.writei_spec hv src off n) (fun _ _ hr => hr) ht
  | itrunc i =>
    obtain ⟨hv, ht⟩ := Option.ite_none_right_eq_some.mp ht
    exact wp_after (itrunc_spec (h.held hv)) (fun _ t hr => hr.consistent) ht
  | commit =>
    cases ht
    exact h.setLogged ∅

/-! ## The calls on lists -/

/-- `balloc` on a full disk. -/
theorem Full.balloc (h : Full sb s) : balloc sb s = .ok 0 s := by
  have hloop : ∀ k b, b + k = sb.size → ballocLoop sb k b s = .ok 0 s := by
    intro k
    induction k with
    | zero => exact fun _ _ => rfl
    | succ k ih =>
      intro b hb
      rw [ballocLoop, get_bind, h b (by omega)]
      exact ih (b + 1) (by omega)
  exact hloop sb.size 0 (Nat.zero_add _)

/-- The lists of the other inodes in use are as before. -/
def OthersKept (sb : Superblock) (i : Nat) (s t : Fs) : Prop :=
  ∀ j, j ≠ i → Allocated sb s j → content sb t j = content sb s j

/-- In every state of a run on a consistent file system, a call on a locked inode acts on the contents
as on byte lists, or the blocks of the transaction and those that the call logs before the block of the
inode are too many for the log: for a write the data blocks, the new blocks with their blocks of the free
map and the indirect block, for `itrunc` the blocks of the free map for the blocks of the inode. -/
theorem inodes_refine_byte_lists (hrun : Reachable (Consistent sb) (contentStep sb) noGuard s)
    (hv : (s.icache i).valid = true) :
    (∀ src off n, Fits src.limit n.toNat → wp (writei sb i src off n)
        (fun r t =>
          (WriteRange (content sb s i).length off n → ∃ q : Nat, r = q ∧ q ≤ n.toNat ∧
            (q < n.toNat → balloc sb t = .ok 0 t) ∧
            content sb t i = splice (content sb s i) off.toNat (seg src.bytes 0 q) ∧
            OthersKept sb i s t) ∧
          (¬ WriteRange (content sb s i).length off n → r = -1 ∧ t = s))
        (fun e => WriteRange (content sb s i).length off n ∧
          TooBig (cost (writeBlocks sb i (spanBlocks off.toNat n.toNat) s) s) e) s) ∧
    (∀ dst off n, Fits dst n.toNat → ∃ r, readi sb i dst off n s = .ok r s ∧ r.1 = (r.2.length : Int) ∧
        (ReadRange (content sb s i).length off n → r.2 = ((content sb s i).drop off.toNat).take n.toNat) ∧
        (¬ ReadRange (content sb s i).length off n → r.2 = [])) ∧
    wp (itrunc sb i) (fun _ t => content sb t i = [] ∧ OthersKept sb i s t)
      (TooBig (cost (truncBlocks sb i s) s)) s := by
  have h : Consistent sb s :=
    hrun.invariant (Consistent sb) (fun _ h => h) fun _ _ _ h _ hstep => h.contentStep hstep
  rw [length_content]
  refine ⟨fun src off n hfit => ?_, fun dst off n hfit => ?_, ?_⟩
  · refine wp_post (writei_spec h hv src off n) fun r t hr => ⟨fun hrange => ?_, fun hbad => hr.1 ?_⟩
    · have hw := hr.2 (not_badRange_iff.mpr ⟨hrange.1, hrange.2.1⟩) hrange.2.2
      obtain ⟨q, hq, hle, hfull, -, hcontent⟩ := hw.result
      refine ⟨q, hq, hle, fun hlt => Full.balloc ?_, hcontent hfit, hw.contents⟩
      exact (hfull hlt).resolve_right fun hnot => hnot hfit
    · by_contra hnot
      rw [not_or, not_badRange_iff, not_lt] at hnot
      exact hbad ⟨hnot.1.1, hnot.1.2, hnot.2⟩
  · obtain ⟨r, t, hx, rfl, hbad, hgood⟩ := wp_returns (readi_spec (h.held hv) (h.sized hv) dst off n) fun _ => id
    refine ⟨r, hx, ?_⟩
    rw [← not_badRange_iff, not_not]
    by_cases hb : BadRange (view t i).size off n
    · rw [hbad hb]
      exact ⟨rfl, absurd hb, fun _ => rfl⟩
    · exact ⟨(hgood hb hfit).2, fun _ => (hgood hb hfit).1, fun hn => absurd hn hb⟩
  · refine wp_post (itrunc_spec (h.held hv)) fun _ t ht => ?_
    obtain ⟨hempty, hothers⟩ := ht.contents hv
    exact ⟨hempty, fun j hj _ => (hothers j hj).2⟩

/-! ## An empty disk -/

/-- An inode without blocks. -/
def blankInode (type : FileType) : Dinode :=
  { type := type, major := 0, minor := 0, nlink := 1, size := 0, addrs := fun _ => 0 }

/-- A disk of 90 data blocks on which inode 1 is an empty file, which is loaded. -/
def blankSb : Superblock :=
  { size := 100, nblocks := 90, ninodes := 64, inodestart := 5, bmapstart := 9,
    nblocks_lt := by decide, size_lt := by decide }

def blankFs : Fs :=
  { bitmap := fun b => decide (b < 10)
    dinode := fun i => blankInode (if i = 1 then .file else .free)
    block := fun _ _ => 0
    icache := fun i => { ref := 1, valid := decide (i = 1), ip := blankInode .file }
    used := 1
    logged := ∅
    ftable := fun _ =>
      { kind := .none, ref := 0, readable := false, writable := false, ip := 0, off := 0, major := 0 }
    procs := fun _ => none }

/-- No inode of the empty disk has a block. -/
theorem blankFs_slot (x : Slot) : slot blankSb blankFs x = 0 := by
  have hview : ∀ i, (view blankFs i).addrs = fun _ => 0 := by
    intro i
    unfold view
    split <;> rfl
  cases x <;> simp [slot, hview]

theorem blankFs_consistent : Consistent blankSb blankFs := by
  have hslot := blankFs_slot
  refine ⟨⟨⟨fun b hlo _ hb => ?_, fun x hx => absurd (hslot x) hx, fun x hx => absurd (hslot x) hx⟩,
    fun i _ n hn => ?_⟩, fun i hv => ?_, fun b hb => ?_⟩
  · exact absurd (of_decide_eq_true hb) (not_lt.mpr hlo)
  · have hsize : (view blankFs i).size = 0 := by
      unfold view
      split <;> rfl
    rw [hsize] at hn
    exact absurd hn (Nat.not_lt_zero _)
  · obtain rfl : i = 1 := of_decide_eq_true hv
    exact ⟨rfl, by decide, by decide⟩
  · exact decide_eq_true hb

/-- The bytes written to an empty file are its content. -/
theorem inodes_refine_byte_lists_blank :
    ∃ r t, writei blankSb 1 { bytes := fun _ => 65, limit := none } 0 1500 blankFs = .ok r t ∧
      ∃ q : Nat, r = q ∧ q ≤ 1500 ∧ (q < 1500 → balloc blankSb t = .ok 0 t) ∧
        content blankSb t 1 = splice [] 0 (seg (fun _ => 65) 0 q) ∧
        OthersKept blankSb 1 blankFs t := by
  have hempty : content blankSb blankFs 1 = [] := rfl
  have hoff : (0 : UInt32).toNat = 0 := rfl
  have hn : (1500 : UInt32).toNat = 1500 := rfl
  have hroom : cost (writeBlocks blankSb 1 (spanBlocks 0 1500) blankFs) blankFs < logBlocks := by decide +kernel
  have hlists := inodes_refine_byte_lists (i := 1) (.start blankFs_consistent) rfl
  have hcall := hlists.1 { bytes := fun _ => 65, limit := none } 0 1500 nofun
  rw [hempty, hoff, hn] at hcall
  obtain ⟨r, t, hx, hr, -⟩ := wp_returns hcall fun e he => absurd he.2.2 (not_le.mpr hroom)
  exact ⟨r, t, hx, hr (by decide)⟩

/-- A write of 32 blocks that the inode and the disk have room for panics in one transaction. -/
theorem writei_too_big :
    Consistent blankSb blankFs ∧ (blankFs.icache 1).valid = true ∧
      WriteRange (content blankSb blankFs 1).length 0 32768 ∧
      stopOf (writei blankSb 1 { bytes := fun _ => 65, limit := none } 0 32768) blankFs =
        some (.panic "too big transaction") := by
  refine ⟨blankFs_consistent, rfl, by decide, ?_⟩
  decide +kernel

end Xv6Lab.FileSys
