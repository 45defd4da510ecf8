import Mathlib.Order.Interval.Finset.Nat
import Xv6Lab.FileSys.ByteLists
import Xv6Lab.FileSys.Tree

/-!
# A freshly made file system

`mkfs` is not part of the kernel; `Fresh` states what it leaves: the root is the only directory and names
every other inode in use once. All processes are in the root and no file is open. The nodes of a fresh file
system are shaped and their graph is balanced. `freshFs` is such a file system, with an empty root.
-/

namespace Xv6Lab.FileSys

open Lib.LinkGraph Lib.Tally Lib.Accounting

variable {sb : Superblock} {s : Fs} {i : Nat}

/-- The state after `mkfs` and the start of the first processes. -/
structure Fresh (sb : Superblock) (s : Fs) : Prop where
  consistent : Consistent sb s
  /-- Inode numbers fit into directory entries. -/
  ninodes_le : sb.ninodes ≤ 65536
  zero : ((abs sb s).node 0).type = .free
  root : ((abs sb s).node rootino).type = .dir
  rootLink : ((abs sb s).node rootino).nlink = 1
  shape : DirShape rootino ((abs sb s).node rootino).data
  up : inumOf ((abs sb s).node rootino).data 1 = rootino
  entries : ∀ k, inumOf ((abs sb s).node rootino).data (k + 2) ≠ 0 →
    inumOf ((abs sb s).node rootino).data (k + 2) ≠ rootino ∧
      ((abs sb s).node (inumOf ((abs sb s).node rootino).data (k + 2))).type ≠ .free
  files : ∀ i, i ≠ rootino → ((abs sb s).node i).type ≠ .free →
    ((abs sb s).node i).type ≠ .dir ∧ ((abs sb s).node i).nlink = 1 ∧
      ∃! k, inumOf ((abs sb s).node rootino).data (k + 2) = i
  closed : ∀ f, (s.ftable f).kind = .none
  cwd : ∀ p pr, s.procs p = some pr → pr.cwd = rootino
  refs : ∀ i, (s.icache i).ref = (abs sb s).holders i

theorem abs_node_lt (h : ((abs sb s).node i).type ≠ .free) : i < sb.ninodes := by
  have ha : Allocated sb s i := by
    by_contra hnot
    exact h (nodeOf_type_free_iff.mpr hnot)
  exact ha.1

section

variable (h : Fresh sb s)
include h

/-- Only the root is held. -/
theorem Fresh.holders (hi : 0 < (abs sb s).holders i) : i = rootino := by
  rcases Nat.add_pos_iff_pos_or_pos.mp hi with hp | hf
  · obtain ⟨p, -, hp⟩ := tally_pos.mp hp
    obtain ⟨pr, hpr, rfl⟩ := Option.map_eq_some_iff.mp hp
    exact h.cwd p pr hpr
  obtain ⟨f, -, hf⟩ := tally_pos.mp hf
  have hnone : File.target ((abs sb s).ftable f) = none := by
    refine if_neg ?_
    rw [show ((abs sb s).ftable f).kind = .none from h.closed f]
    nofun
  rw [hnone] at hf
  cases hf

theorem Fresh.inCall : InCall sb True 0 s where
  consistent := h.consistent
  refs := by
    refine ⟨fun i => Nat.zero_le _, fun _ i => h.refs i, fun _ i ⟨hused, h0⟩ => ?_,
      fun _ i hi => ?_, fun _ f _ => h.closed f⟩
    · rcases eq_or_ne i rootino with rfl | hi
      · rw [h.rootLink] at h0
        cases h0
      · rw [(h.files i hi hused).2.1] at h0
        cases h0
    · rw [h.holders hi, h.root]
      exact FileType.noConfusion

theorem Fresh.dir_iff : ((abs sb s).node i).type = .dir ↔ i = rootino := by
  refine ⟨fun hd => by_contra fun hne => (h.files i hne (hd ▸ nofun)).1 hd, ?_⟩
  rintro rfl
  exact h.root

theorem Fresh.rootUsed : ((abs sb s).node rootino).type ≠ .free := h.root ▸ nofun

theorem Fresh.shaped : Shaped (abs sb s).node where
  zero := h.zero
  fits i hi := (abs_node_lt hi).trans_le h.ninodes_le
  shape d hd := by
    rw [h.dir_iff.mp hd]
    exact h.shape

theorem Fresh.balanced : (graph (abs sb s).node).Balanced rootino := by
  have hchild : ∀ x v, (graph (abs sb s).node).child x = some v →
      x.1 = rootino ∧ v ≠ 0 ∧ inumOf ((abs sb s).node rootino).data (x.2 + 2) = v := by
    intro x v hx
    obtain ⟨hd, h0, heq⟩ := entryOf_eq_some.mp hx
    have hroot : x.1 = rootino := h.dir_iff.mp hd
    rw [hroot] at heq
    exact ⟨hroot, h0, heq⟩
  refine DirGraph.Balanced.flat ?_ (fun v => h.dir_iff) ⟨h.rootUsed, h.rootLink, ?_⟩ ?_ ?_
  · refine Set.Finite.subset (Set.finite_Iio (entryCount ((abs sb s).node rootino).data) |>.image
      fun k => (rootino, k)) fun x hx => ?_
    obtain ⟨v, hv⟩ := Option.ne_none_iff_exists'.mp hx
    obtain ⟨hroot, h0, heq⟩ := hchild x v hv
    have hlt := (inumOf_ne_zero (heq ▸ h0)).1
    exact ⟨x.2, by rw [Set.mem_Iio]; omega, Prod.ext hroot.symm rfl⟩
  · exact entryOf_eq_some.mpr ⟨h.root, by decide, h.up⟩
  · intro x v hx
    obtain ⟨hroot, h0, rfl⟩ := hchild x v hx
    exact ⟨hroot, h.entries x.2 h0⟩
  · intro v hv hne
    obtain ⟨-, hlink, k, hk, huniq⟩ := h.files v hne hv
    refine ⟨hlink, Set.ncard_eq_one.mpr ⟨(rootino, k), Set.ext fun x => ⟨fun hx => ?_, ?_⟩⟩⟩
    · obtain ⟨hroot, -, heq⟩ := hchild x v hx
      exact Prod.ext hroot (huniq x.2 heq)
    · rintro rfl
      exact entryOf_eq_some.mpr ⟨h.root, h.shaped.ne_zero hv, hk⟩

theorem Fresh.climbs : (graph (abs sb s).node).Climbs := by
  intro e p he hp hne
  obtain rfl : e = rootino := h.dir_iff.mp he
  obtain ⟨-, -, heq⟩ := entryOf_eq_some.mp hp
  rw [h.up] at heq
  exact absurd heq.symm hne

end

/-! ## An empty file system -/

/-- The block of the root directory. -/
def rootBlock : Block := fun j =>
  (encodeDirent rootino dot ++ encodeDirent rootino dotdot).getD j.val 0

/-- The inode of the root, whose only block is block 10. -/
def rootInode : Dinode :=
  { type := .dir, major := 0, minor := 0, nlink := 1, size := 32,
    addrs := fun k => if k = 0 then 10 else 0 }

/-- A disk with an empty root directory, and one process. -/
def freshFs : Fs :=
  { bitmap := fun b => decide (b < 11)
    dinode := fun i => if i = rootino then rootInode else blankInode .free
    block := fun b => if b = 10 then rootBlock else fun _ => 0
    icache := fun i => { ref := if i = rootino then 1 else 0, valid := false, ip := blankInode .free }
    used := 1
    logged := ∅
    ftable := fun _ =>
      { kind := .none, ref := 0, readable := false, writable := false, ip := 0, off := 0, major := 0 }
    procs := fun p => if p = 0 then some { cwd := rootino, ofile := fun _ => none } else none }

theorem freshFs_view (i : Nat) :
    view freshFs i = if i = rootino then rootInode else blankInode .free := if_neg Bool.false_ne_true

theorem freshFs_allocated : Allocated blankSb freshFs i ↔ i = rootino := by
  unfold Allocated
  rw [freshFs_view]
  split
  next hi =>
    subst hi
    exact ⟨fun _ => rfl, fun _ => by decide⟩
  next hi => exact ⟨fun h => absurd rfl h.2, fun h => absurd h hi⟩

theorem freshFs_slot (x : Slot) : slot blankSb freshFs x = if x = .direct rootino 0 then 10 else 0 := by
  cases x with
  | direct i k =>
    rw [slot, freshFs_view]
    rcases eq_or_ne i rootino with rfl | hi
    · rcases eq_or_ne k 0 with rfl | hk
      · rfl
      · simp [hk, rootInode]
    · simp [hi, freshFs_allocated]
  | indirect i j =>
    have hnone : ¬ (Allocated blankSb freshFs i ∧ j < nindirect ∧ (view freshFs i).addrs ndirect ≠ 0) := by
      rintro ⟨ha, -, hne⟩
      obtain rfl := freshFs_allocated.mp ha
      exact hne rfl
    rw [slot, if_neg hnone, if_neg Slot.noConfusion]

theorem freshFs_consistent : Consistent blankSb freshFs := by
  have hslot : ∀ x, slot blankSb freshFs x ≠ 0 → x = .direct rootino 0 := by
    intro x hx
    rw [freshFs_slot] at hx
    by_contra hne
    exact hx (if_neg hne)
  have hten : slot blankSb freshFs (.direct rootino 0) = 10 := (freshFs_slot _).trans (if_pos rfl)
  refine ⟨⟨⟨fun b hlo _ hb => ?_, fun x hx => ?_, fun x hx => ?_⟩, fun i hi n hn => ?_⟩, nofun, fun b hb => ?_⟩
  · have hlo : 10 ≤ b := hlo
    have hb : b < 11 := of_decide_eq_true hb
    obtain rfl : b = 10 := by omega
    exact ⟨.direct rootino 0, hten, fun y hy => hslot y (by rw [hy]; decide)⟩
  · rw [hslot x hx, hten]
    rfl
  · rw [hslot x hx, hten]
    decide
  · obtain rfl := freshFs_allocated.mp hi
    have hn : n * 1024 < 32 := hn
    obtain rfl : n = 0 := by omega
    rw [fileBlock, show fileSlot rootino 0 = .direct rootino 0 from rfl, hten]
    decide
  · have hb : b < 10 := hb
    exact decide_eq_true (by omega)

/-- The bytes of the root directory. -/
theorem freshFs_root : (abs blankSb freshFs).node rootino =
    ⟨.dir, 1, encodeDirent rootino dot ++ encodeDirent rootino dotdot⟩ := by
  decide +kernel

theorem freshFs_node_free (hi : i ≠ rootino) : (abs blankSb freshFs).node i = Node.free :=
  nodeOf_of_not fun ha => hi (freshFs_allocated.mp ha)

theorem freshFs_fits (i : Nat) : ((abs blankSb freshFs).node i).nlink < 32767 := by
  rcases eq_or_ne i rootino with rfl | hi
  · rw [freshFs_root]
    decide
  · rw [freshFs_node_free hi]
    decide

theorem freshFs_cwd {p : Fin nproc} {pr : Proc} (h : freshFs.procs p = some pr) : pr.cwd = rootino := by
  unfold freshFs at h
  dsimp only at h
  split at h
  · cases h
    rfl
  · cases h

/-- The process holds the root. -/
theorem freshFs_holders (i : Nat) : (abs blankSb freshFs).holders i = if i = rootino then 1 else 0 := by
  have hfiles : tally Finset.univ (fun f => ((abs blankSb freshFs).ftable f).target) (some i) = 0 :=
    tally_eq_zero.mpr fun f _ => nofun
  rw [Abs.holders, hfiles, Nat.add_zero]
  split
  next hi =>
    subst hi
    decide
  next hi =>
    refine tally_eq_zero.mpr fun p _ hp => ?_
    obtain ⟨pr, hpr, rfl⟩ := Option.map_eq_some_iff.mp hp
    exact hi (freshFs_cwd hpr)

theorem freshFs_fresh : Fresh blankSb freshFs := by
  have hentries : ∀ k, inumOf ((abs blankSb freshFs).node rootino).data (k + 2) = 0 := by
    intro k
    refine if_neg ?_
    rw [freshFs_root]
    exact not_lt.mpr (Nat.le_add_left 2 k)
  have hone : ∀ i ≠ rootino, ((abs blankSb freshFs).node i).type = .free :=
    fun i hi => by rw [freshFs_node_free hi]; rfl
  refine
    { consistent := freshFs_consistent
      ninodes_le := by decide
      zero := hone 0 (by decide)
      root := by rw [freshFs_root]
      rootLink := by rw [freshFs_root]
      shape := ⟨?_, ?_, ?_, ?_, fun k hk => absurd (hentries k) hk⟩
      up := ?_
      entries := fun k hk => absurd (hentries k) hk
      files := fun i hi hused => absurd (hone i hi) hused
      closed := fun _ => rfl
      cwd := fun p pr hp => freshFs_cwd hp
      refs := fun i => (freshFs_holders i).symm }
  all_goals
    rw [freshFs_root]
    decide

end Xv6Lab.FileSys
