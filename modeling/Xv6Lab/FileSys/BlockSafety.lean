import Xv6Lab.FileSys.LinkCalls
import Xv6Lab.FileSys.ByteLists

/-!
# Block allocation over whole runs

A run is any sequence of operations of the inode layer on inodes their caller may use, and of `create`,
`dirlink`, `sys_link` and `sys_unlink`. In every state of a run that starts from a consistent file system
the free map agrees with the inodes (`blocks_accounted`), no operation frees a free block, and an inode
that dies gives back its blocks. The blocks before the data area have to be marked used in the
free map, which the agreement of data blocks does not say: otherwise `balloc` hands them out
(`balloc_takes_metadata`).
-/

namespace Xv6Lab.FileSys

open Lib.Exec Lib.Accounting Lib.Transition

variable {sb : Superblock} {s t : Fs} {i : Nat}

/-! ## Operations -/

/-- An operation on inodes, or the commit of the transaction. -/
inductive InodeOp where
  | iget (i : Nat)
  | idup (i : Nat)
  | ilock (i : Nat)
  | iput (i : Nat)
  | ialloc (type : FileType)
  | readi (i : Nat) (dst : Dest) (off n : UInt32)
  | writei (i : Nat) (src : Source) (off n : UInt32)
  | itrunc (i : Nat)
  | dirlink (dp : Nat) (name : Name) (inum : Nat)
  | create (cwd : Nat) (path : Name) (type : FileType) (major minor : Int)
  | sysLink (cwd : Nat) (old new : Name)
  | sysUnlink (cwd : Nat) (path : Name)
  | commit

/-- The program of an operation, without its result. -/
def InodeOp.prog (sb : Superblock) : InodeOp → FsM Unit
  | .iget i => (fun _ => ()) <$> FileSys.iget i
  | .idup i => (fun _ => ()) <$> FileSys.idup i
  | .ilock i => FileSys.ilock sb i
  | .iput i => FileSys.iput sb i
  | .ialloc type => (fun _ => ()) <$> FileSys.ialloc sb type
  | .readi i dst off n => (fun _ => ()) <$> FileSys.readi sb i dst off n
  | .writei i src off n => (fun _ => ()) <$> FileSys.writei sb i src off n
  | .itrunc i => FileSys.itrunc sb i
  | .dirlink dp name inum => (fun _ => ()) <$> FileSys.dirlink sb dp name inum
  | .create cwd path type major minor => (fun _ => ()) <$> FileSys.create sb cwd path type major minor
  | .sysLink cwd old new => (fun _ => ()) <$> FileSys.sysLink sb cwd old new
  | .sysUnlink cwd path => (fun _ => ()) <$> FileSys.sysUnlink sb cwd path
  | .commit => endOp

/-- What the callers of an operation have: the inode is locked where its contents are used, a reference
is held where one is given up, and a new inode gets a type. -/
def InodeOp.Enabled (s : Fs) : InodeOp → Prop
  | .iput i => 0 < (s.icache i).ref
  | .ialloc type => type ≠ .free
  | .readi i _ _ _ => (s.icache i).valid = true
  | .writei i _ _ _ => (s.icache i).valid = true
  | .itrunc i => (s.icache i).valid = true
  | .dirlink dp _ _ => (s.icache dp).valid = true
  | .create _ _ type _ _ => type ≠ .free
  | _ => True

instance InodeOp.decidableEnabled (s : Fs) (op : InodeOp) : Decidable (op.Enabled s) :=
  match op with
  | .iput _ => inferInstanceAs (Decidable (0 < _))
  | .ialloc _ | .create .. => inferInstanceAs (Decidable (_ ≠ _))
  | .readi .. | .writei .. | .itrunc _ | .dirlink .. => inferInstanceAs (Decidable (_ = _))
  | .iget _ | .idup _ | .ilock _ | .sysLink .. | .sysUnlink .. | .commit =>
    inferInstanceAs (Decidable True)

/-- One operation. -/
def inodeStep (sb : Superblock) (s : Fs) (op : InodeOp) : Option Fs :=
  if op.Enabled s then after (op.prog sb) s else none

/-- Every operation keeps the file system consistent and frees no free block. -/
theorem InodeOp.prog_spec {op : InodeOp} (h : Consistent sb s) (he : op.Enabled s) :
    wp (op.prog sb) (fun _ t => Consistent sb t) (Stops False) s := by
  have hin : InCall sb False 0 s := ⟨h, .start⟩
  cases op with
  | iget i =>
    exact wp_map.mpr (wp_mono (iget_spec h i) (fun _ _ ht => ht.2.1) fun _ he => he.harmless.stops)
  | idup i =>
    exact wp_map.mpr (wp_post (wp_stops (idup_spec h i)) fun _ _ ht => ht.2.1)
  | ilock i => exact wp_mono (ilock_spec h i) (fun _ _ ht => ht.1) fun _ he => he.mono nofun
  | iput i => exact wp_post (wp_stops (iput_spec h i)) fun _ _ ht => ht.1
  | ialloc type =>
    refine wp_map.mpr (wp_post (wp_stops (ialloc_spec h he)) fun r t ht => ?_)
    rcases ht with ⟨-, rfl⟩ | ⟨i, -, hi⟩
    · exact h
    · exact hi.consistent
  | readi i dst off n =>
    refine wp_map.mpr (wp_mono (readi_spec (h.held he) (h.sized he) dst off n) ?_ fun _ hf => hf.elim)
    rintro r t ⟨rfl, -⟩
    exact h
  | writei i src off n =>
    exact wp_map.mpr (wp_mono (h.writei_spec he src off n) (fun _ _ ht => ht) fun _ he =>
      he.2.harmless.stops)
  | itrunc i =>
    exact wp_mono (itrunc_spec (h.held he)) (fun _ _ ht => ht.consistent) fun _ he =>
      he.harmless.stops
  | dirlink dp name inum =>
    exact wp_map.mpr (wp_post (wp_stops (hin.dirlink he name inum)) fun _ _ ht => ht.2.1.consistent)
  | create cwd path type major minor =>
    refine wp_map.mpr (wp_mono (create_spec hin nofun cwd path he major minor) (fun r t ht => ?_)
      fun _ he => he.mono nofun)
    rcases ht with ⟨-, ht, -⟩ | ⟨ip, -, ht, -⟩
    · exact ht.consistent
    · exact ht.consistent
  | sysLink cwd old new =>
    exact wp_map.mpr (wp_mono (sysLink_spec hin nofun cwd old new)
      (fun _ _ ht => ht.1.consistent) fun _ he => he.mono nofun)
  | sysUnlink cwd path =>
    exact wp_map.mpr (wp_mono (sysUnlink_spec hin nofun cwd path)
      (fun _ _ ht => ht.1.consistent) fun _ he => he.mono nofun)
  | commit => exact wp_post hin.endOp fun _ _ ht => ht.1.consistent

/-! ## Runs -/

/-- Every operation of a run keeps the file system consistent. -/
theorem Consistent.inodeStep {op : InodeOp} (h : Consistent sb s)
    (ht : inodeStep sb s op = some t) : Consistent sb t := by
  obtain ⟨he, ht⟩ := Option.ite_none_right_eq_some.mp ht
  exact wp_after (InodeOp.prog_spec h he) (fun _ _ hc => hc) ht

/-- A block that an inode refers to is free once the inode died: no other inode refers to it. -/
theorem iput_frees (h : Consistent sb s) (hdies : (abs sb s).Dies i)
    (ht : after (iput sb i) s = some t) {x : Slot} (hx : x.owner = i) (hne : slot sb s x ≠ 0) :
    t.bitmap (slot sb s x) = false := by
  refine wp_after (iput_spec h i) (P := fun t => t.bitmap (slot sb s x) = false) ?_ ht
  rintro - t ⟨hc, habs, hkept⟩
  obtain ⟨hblock, hview⟩ := hkept hdies
  have hfree : ¬ Allocated sb t i := by
    refine nodeOf_type_free_iff.mp ?_
    show ((abs sb t).node i).type = .free
    rw [habs, Abs.drop, if_pos hdies]
    exact congrArg Node.type (Function.update_self i Node.free (abs sb s).node)
  obtain ⟨hlo, hhi⟩ := h.blocks.accounts.range x hne
  by_contra hmarked
  rw [Bool.not_eq_false] at hmarked
  -- the slot that still has the block belongs to another inode and had it before
  obtain ⟨y, hy, -⟩ := hc.blocks.accounts.once _ hlo hhi hmarked
  have howner : y.owner ≠ i := by
    intro hi
    refine hfree (hi ▸ allocated_of_slot ?_)
    rw [hy]
    exact hne
  rw [slot_eq_of_view (hview _ howner) hblock] at hy
  have hxy := h.blocks.accounts.inj hne hy.symm
  exact howner (hxy ▸ hx)

/-- In every state of a run from a consistent file system the free map agrees with the inodes, no
operation frees a free block, an inode that dies gives back its blocks, and without inodes in use all
data blocks are free. -/
theorem blocks_accounted (hrun : Reachable (Consistent sb) (inodeStep sb) noGuard s) :
    BlockInv sb s ∧
    (∀ op : InodeOp, op.Enabled s → stopOf (op.prog sb) s ≠ some (.panic "freeing free block")) ∧
    (∀ i t, (s.icache i).ref = 1 → (s.icache i).valid = true → (s.icache i).ip.nlink = 0 →
      after (iput sb i) s = some t →
      ∀ x : Slot, x.owner = i → slot sb s x ≠ 0 → t.bitmap (slot sb s x) = false) ∧
    ((∀ i, ¬ Allocated sb s i) → ∀ b, sb.dataStart ≤ b → b < sb.size → s.bitmap b = false) := by
  have h : Consistent sb s :=
    hrun.invariant (Consistent sb) (fun _ h => h) fun _ _ _ h _ hstep => h.inodeStep hstep
  refine ⟨h.blocks, fun op he hstop => ?_, fun i t hone hv h0 ht x hx hne => ?_, fun hnone b hlo hhi => ?_⟩
  · exact (wp_stopOf (InodeOp.prog_spec h he) hstop).1 rfl
  · refine iput_frees h ⟨hone, hv, ?_⟩ ht hx hne
    rw [h.node_eq hv]
    exact h0
  · by_contra hb
    rw [Bool.not_eq_false] at hb
    obtain ⟨x, hx, -⟩ := h.blocks.accounts.once b hlo hhi hb
    have hpos := sb.nblocks_lt
    refine hnone x.owner (allocated_of_slot (s := s) (x := x) ?_)
    rw [hx]
    rw [Superblock.dataStart] at hlo
    omega

/-- A write to the empty file of the empty disk leaves its blocks accounted for. -/
theorem blocks_accounted_blank :
    ∃ t, inodeStep blankSb blankFs (.writei 1 { bytes := fun _ => 65, limit := none } 0 1500) = some t ∧
      BlockInv blankSb t := by
  have hsome : (inodeStep blankSb blankFs
      (.writei 1 { bytes := fun _ => 65, limit := none } 0 1500)).isSome = true := by
    decide +kernel
  obtain ⟨t, ht⟩ := Option.isSome_iff_exists.mp hsome
  exact ⟨t, ht, (blocks_accounted (.step _ (.start blankFs_consistent) trivial ht)).1⟩

/-- The empty disk on which no block but the first is marked used. -/
def unmarkedFs : Fs := { blankFs with bitmap := fun b => decide (b = 0) }

/-- Where metadata blocks are not marked used, the free map of the data blocks may agree with the inodes
and a write still takes a metadata block for data. -/
theorem balloc_takes_metadata :
    BlockInv blankSb unmarkedFs ∧ (∀ i, Synced blankSb unmarkedFs i) ∧
      ∃ t, inodeStep blankSb unmarkedFs (.writei 1 { bytes := fun _ => 65, limit := none } 0 1) =
        some t ∧ ¬ BlockInv blankSb t := by
  have hblank := blankFs_consistent
  have hslot : ∀ x, slot blankSb unmarkedFs x = slot blankSb blankFs x :=
    fun x => slot_eq_of_view rfl rfl
  refine ⟨⟨⟨fun b hlo _ hb => ?_, fun x hx => ?_, fun x hx => ?_⟩, hblank.blocks.sized⟩, hblank.synced, ?_⟩
  · rw [of_decide_eq_true hb] at hlo
    exact absurd hlo (by decide)
  · rw [hslot] at hx
    exact absurd (blankFs_slot x) hx
  · rw [hslot] at hx
    exact absurd (blankFs_slot x) hx
  · have htaken : ((inodeStep blankSb unmarkedFs
        (.writei 1 { bytes := fun _ => 65, limit := none } 0 1)).map fun t =>
          slot blankSb t (.direct 1 0)) = some 1 := by
      decide +kernel
    obtain ⟨t, ht, htslot⟩ := Option.map_eq_some_iff.mp htaken
    refine ⟨t, ht, fun hinv => ?_⟩
    have hlo := (hinv.accounts.range (.direct 1 0) (by rw [htslot]; decide)).1
    rw [htslot] at hlo
    exact absurd hlo (by decide)

end Xv6Lab.FileSys
