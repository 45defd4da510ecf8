import Xv6Lab.FileSys.ByteLists

/-!
# A chunk of a write fits one transaction

`filewrite_inode` cuts a write into chunks so that one call of `writei` stays within `MAXOPBLOCKS` blocks of the log.
A block of the file that is there counts once, a missing one twice, for its block of the free map. The indirect block
comes on top. A chunk that starts inside a block finds that block allocated, which makes the count come out at ten
(`write_chunk_fits`), wherever `balloc` finds its blocks.
-/

namespace Xv6Lab.FileSys

open Lib.Exec Finset

variable {sb : Superblock} {s : Fs} {i : Nat} {src : Source}

/-- The blocks of a chunk, without that of the inode. -/
theorem card_chunk_le {off n : Nat} (h : Consistent sb s) (hv : (s.icache i).valid = true)
    (hoff : off ≤ (view s i).size) (hn : n ≤ (maxOpBlocks - 1 - 1 - 2) / 2 * bsize) :
    (writeBlocks sb i (spanBlocks off n) s).card ≤ 9 := by
  have hn : n ≤ 3072 := hn
  have hcard : (spanBlocks off n).card = span off n := by rw [spanBlocks, Nat.card_Ico, Nat.add_sub_cancel_left]
  have hspan : span off n = if n = 0 then 0 else (off % 1024 + n - 1) / 1024 + 1 := rfl
  have hmissing : (missing sb i (spanBlocks off n) s).card ≤ (spanBlocks off n).card := card_filter_le _ _
  have hbound := card_writeBlocks_le sb i (spanBlocks off n) s
  rw [hcard] at hmissing hbound
  rcases Nat.eq_zero_or_pos n with rfl | hpos
  · rw [if_pos rfl] at hspan
    omega
  rw [if_neg hpos.ne'] at hspan
  rcases Nat.eq_zero_or_pos (off % 1024) with hmod | hmod
  · omega
  -- the block that the chunk starts in is below the size of the file
  have hfirst : fileBlock sb s i (off / bsize) ≠ 0 := by
    apply h.sized hv
    show off / 1024 * 1024 < _
    omega
  have hless : (missing sb i (spanBlocks off n) s).card < (spanBlocks off n).card := by
    refine card_lt_card ⟨filter_subset _ _, fun hsub => hfirst ?_⟩
    exact (mem_filter.mp (hsub (first_mem_spanBlocks off hpos))).2
  omega

/-- A chunk of `filewrite_inode`, written in a transaction of its own, logs ten blocks at most. -/
theorem write_chunk_fits {off n : UInt32} (h : Consistent sb s) (hv : (s.icache i).valid = true)
    (hoff : off.toNat ≤ (view s i).size) (hn : n.toNat ≤ (maxOpBlocks - 1 - 1 - 2) / 2 * bsize) :
    wp (writei sb i src off n) (fun _ t => t.logged.card ≤ maxOpBlocks) (fun _ => False) (setLogged s ∅) := by
  rw [writei, wp_bind, wp_inode]
  split
  · exact wp_pure.mpr (Nat.zero_le _)
  next hgood =>
  rw [toNat_add_of_range hgood]
  split
  · exact wp_pure.mpr (Nat.zero_le _)
  next hle =>
  have hB := card_chunk_le (h.setLogged ∅) hv hoff hn
  have hcost : cost (writeBlocks sb i (spanBlocks off.toNat n.toNat) (setLogged s ∅)) (setLogged s ∅) ≤ 9 := by
    rw [cost, show (setLogged s ∅).logged = ∅ from rfl, union_empty]
    exact hB
  refine wp_seq (writeiLoop_spec src n.toNat 0 off.toNat (setLogged s ∅) (by omega) (Nat.zero_le _) (not_lt.mp hle)
    ((h.held hv).setLogged ∅) (covers_writeBlocks ..)) (fun _ he => absurd (he.2.trans hcost) (by decide)) ?_
  rintro r t ⟨-, hlog⟩
  have hcard : t.logged.card ≤ 9 := (card_le_card hlog).trans hcost
  refine wp_modify_iupdate (fun _ he => absurd (he.2.trans hcard) (by decide)) (wp_pure.mpr ?_)
  exact (card_insert_le ..).trans (Nat.succ_le_succ hcard)

/-- A chunk of the largest length at the start of an empty file. -/
theorem write_chunk_fits_blank : wp (writei blankSb 1 { bytes := fun _ => 65, limit := none } 0 3072)
    (fun _ t => t.logged.card ≤ maxOpBlocks) (fun _ => False) (setLogged blankFs ∅) :=
  write_chunk_fits blankFs_consistent rfl (Nat.zero_le _) le_rfl

end Xv6Lab.FileSys
