import Xv6Lab.FileSys.Fresh

/-!
# Dangling directory entries

`sys_unlink` checks that a directory is empty, and a directory that was removed while a process is in it is
not an entry of its parent any more. Its `..` entry stays, though, and does not keep the parent: the parent
can be removed and freed, and the `..` entry of the removed directory then names an inode that is not in
use (`removed_parent_dangles`). The next path through it stops the kernel with `ilock: no type`.

Where no `sys_unlink` takes the last link of a directory that another directory names as its `..`, no entry
ever dangles (`entries_allocated`).
-/

namespace Xv6Lab.FileSys

open Lib.Exec Lib.LinkGraph Lib.Transition

variable {sb : Superblock} {s t : Fs} {f g : Nat → Node} {name : Name} {d k dp ip cwd : Nat}

/-- The parents of directories have links. -/
structure Rooted (f : Nat → Node) : Prop where
  shaped : Shaped f
  bounded : (graph f).Bounded rootino
  climbs : (graph f).Climbs

theorem Rooted.noDangling (h : Rooted f) : NoDangling f := by
  intro d k hd hk
  have hshape := h.shaped.shape d hd
  rcases k with _ | _ | k
  · rw [hshape.self, hd]
    exact FileType.noConfusion
  · by_cases heq : inumOf (f d).data 1 = d
    · rw [heq, hd]
      exact FileType.noConfusion
    · exact (h.climbs d _ hd (entryOf_eq_some.mpr ⟨hd, hk, rfl⟩) heq).1
  · exact h.bounded.child_live (d, k) _ (entryOf_eq_some.mpr ⟨hd, hk, rfl⟩)

theorem Rooted.reaps (h : Rooted f) (hr : Reaps f g) : Rooted g := by
  refine ⟨hr.shaped h.shaped, ?_, ?_⟩
  · rw [graph_reaps hr]
    exact h.bounded.reap fun j hj => hr.nlink_zero hj
  · rw [graph_reaps hr]
    exact DirGraph.climbs_reap h.climbs fun j hj => hr.nlink_zero hj

theorem Rooted.sameTree (h : Rooted f) (hs : SameTree f g) : Rooted g := by
  have hgraph := graph_sameTree hs
  exact ⟨hs.shaped h.shaped, hgraph ▸ h.bounded, hgraph ▸ h.climbs⟩

theorem Rooted.create {path : Name} {type : FileType} (h : Rooted f) (hn : sb.ninodes ≤ 65536)
    (htype : type ≠ .free) (hc : Creates sb f cwd path dp name ip) :
    Rooted (createNodes f dp name ip type) := by
  obtain ⟨hne, hdead, hdir, hshaped, hgraph⟩ := hc.grows h.shaped hn htype
  refine ⟨hshaped, ?_, ?_⟩
  · rw [hgraph]
    exact (h.bounded.make hdead).link hdir (.inl rfl) hne (h.shaped.newPlace_free hc.dir)
  · rw [hgraph]
    exact h.bounded.climbs_create h.climbs hdead (h.bounded.dir_live dp hc.dir) hne fun hdir => if_pos hdir

theorem Rooted.link {old new : Name} (h : Rooted f) (hl : Links f cwd old new dp name ip) :
    Rooted (linkNodes f dp name ip) := by
  have hne : ip ≠ dp := fun heq => hl.notDir (heq ▸ hl.dir)
  have hgraph : graph (linkNodes f dp name ip) = _ :=
    graph_linkNodes h.shaped hl.dir hl.used hl.notDir
  refine ⟨h.shaped.linkNodes hl.dir hl.used hl.fresh, ?_, ?_⟩
  · rw [hgraph]
    exact h.bounded.link hl.dir hl.used hne (h.shaped.newPlace_free hl.dir)
  · rw [hgraph]
    exact h.bounded.climbs_link h.climbs

/-- The inodes that lose a link when entry `k` of `dp` is removed. -/
def Loses (f : Nat → Node) (dp k x : Nat) : Prop :=
  x = inumAt (f dp).data k ∨ x = dp ∧ (f (inumAt (f dp).data k)).type = .dir

/-- The removal of entry `k` of `dp` does not take the last link of an inode that another directory in use
names as its `..`. -/
def KeepsParents (f : Nat → Node) (dp k : Nat) : Prop :=
  ∀ x e, Loses f dp k x → (f x).nlink = 1 → (f e).type = .dir → e ≠ x → inumOf (f e).data 1 ≠ x

theorem Rooted.unlink {path : Name} (h : Rooted f) (hu : Unlinks f cwd path dp k)
    (hkeep : KeepsParents f dp k) : Rooted (unlinkNodes f dp k (inumAt (f dp).data k)) := by
  obtain ⟨m, rfl, hlt, hchild⟩ := hu.place h.shaped
  have hne := h.bounded.no_loop _ _ hchild
  have hgraph := graph_unlinkNodes hne hlt
  refine ⟨h.shaped.unlinkNodes hne hlt, ?_, ?_⟩
  · rw [hgraph]
    exact h.bounded.unlink hchild
  rw [hgraph]
  refine DirGraph.climbs_unlink h.climbs hne fun x hloses hone e he hex hpar => ?_
  obtain ⟨-, -, hup⟩ := entryOf_eq_some.mp hpar
  exact hkeep x e hloses hone he hex hup

/-- What a run needs: link counts below the largest `short`, and `KeepsParents` for what the call
removes. -/
structure ParentsKept (sb : Superblock) (s : Fs) (pc : Fin nproc × Call) : Prop where
  fits : ∀ i, ((abs sb s).node i).nlink < 32767
  keeps : ∀ pr path dp k, s.procs pc.1 = some pr → pc.2 = .unlink path →
    Unlinks (abs sb s).node pr.cwd path dp k → KeepsParents (abs sb s).node dp k

/-- The states of a run. -/
structure RootedState (sb : Superblock) (s : Fs) : Prop where
  ninodes_le : sb.ninodes ≤ 65536
  inCall : InCall sb True 0 s
  rooted : Rooted (abs sb s).node

theorem Fresh.rootedState (h : Fresh sb s) : RootedState sb s :=
  ⟨h.ninodes_le, h.inCall, h.shaped, h.balanced.bounded, h.climbs⟩

/-- The conditions under which the specification of the calls applies. -/
theorem RootedState.counted (h : RootedState sb s) {pc : Fin nproc × Call} (hok : ParentsKept sb s pc) :
    Counted (abs sb s).node ∧ Loopless (abs sb s).node :=
  ⟨counted_of_bounded h.rooted.bounded hok.fits, h.rooted.shaped.loopless h.rooted.bounded.toWF⟩

theorem RootedState.step {pc : Fin nproc × Call} (h : RootedState sb s) (hok : ParentsKept sb s pc)
    (ht : callStep sb s pc = some t) : RootedState sb t := by
  obtain ⟨hcounted, hloop⟩ := h.counted hok
  obtain ⟨pr, hp, hin, g, heffect, hsettles⟩ := callStep_effect h.inCall hcounted hloop ht
  have hg : Rooted g := by
    refine heffect.induct (I := Rooted) h.rooted ?_ ?_ ?_
    · exact fun _ _ _ _ _ _ htype hc => h.rooted.create h.ninodes_le htype hc
    · exact fun _ _ _ _ _ _ _ _ hl => h.rooted.link hl
    · exact fun path dp k hcall hu => h.rooted.unlink hu (hok.keeps pr path dp k hp hcall hu)
  exact ⟨h.ninodes_le, hin, hsettles.induct (I := Rooted) hg (fun _ _ hr hf => hf.reaps hr)
    fun _ _ hs hf => hf.sameTree hs⟩

/-- In every run from a fresh file system in which link counts stay below the largest `short` and no
`sys_unlink` takes the last link of a directory that another directory names as its `..`, every entry of a
directory names an inode in use, and no call meets an inode that is not in use. -/
theorem entries_allocated (hrun : Reachable (Fresh sb) (callStep sb) (ParentsKept sb) s) :
    NoDangling (abs sb s).node ∧
      ∀ (p : Fin nproc) (pr : Proc) (call : Call), s.procs p = some pr → call.Enabled s →
        (∀ i, ((abs sb s).node i).nlink < 32767) →
        stopOf (call.prog sb p pr) s ≠ some (.panic "ilock: no type") := by
  have h : RootedState sb s :=
    hrun.invariant (RootedState sb) (fun _ h => h.rootedState) fun _ _ _ h hok ht => h.step hok ht
  refine ⟨h.rooted.noDangling, fun p pr call hp he hfits hstop => ?_⟩
  have hcounted := counted_of_bounded h.rooted.bounded hfits
  have hloop := h.rooted.shaped.loopless h.rooted.bounded.toWF
  have hcwd := h.inCall.refs.used trivial pr.cwd (Abs.holders_cwd hp)
  have hroot : ((abs sb s).node rootino).type ≠ .free := h.rooted.bounded.dir_live _ h.rooted.bounded.root_dir
  have hstops := wp_stopOf (Call.prog_spec h.inCall hp he hcounted hloop) hstop
  exact (hstops.2 ⟨trivial, h.rooted.noDangling, hroot, hcwd⟩).2.1 rfl

/-- After `mkdir("a")` on the empty file system no entry dangles. -/
theorem entries_allocated_mkdir :
    ∃ t, callStep blankSb freshFs (0, .mkdir [97]) = some t ∧ NoDangling (abs blankSb t).node := by
  have hsome : (callStep blankSb freshFs (0, .mkdir [97])).isSome = true := by decide +kernel
  obtain ⟨t, ht⟩ := Option.isSome_iff_exists.mp hsome
  have hok : ParentsKept blankSb freshFs (0, .mkdir [97]) :=
    ⟨freshFs_fits, fun _ _ _ _ _ hcall => Call.noConfusion hcall⟩
  exact ⟨t, ht, (entries_allocated (.step _ (.start freshFs_fresh) hok ht)).1⟩

/-- `mkdir("a")`, `mkdir("a/b")`, `chdir("a/b")`, `unlink("../b")`, `unlink("/a")`. -/
def removeParent : List (Fin nproc × Call) :=
  [(0, .mkdir [97]), (0, .mkdir [97, 47, 98]), (0, .chdir [97, 47, 98]), (0, .unlink [46, 46, 47, 98]),
    (0, .unlink [47, 97])]

/-- After the parent of a removed directory was removed, the `..` entry of that directory, the current
directory of the process, names an inode that is not in use, and `open("..")` stops the kernel. -/
theorem removed_parent_dangles :
    Fresh blankSb freshFs ∧ ∃ s pr, run (callStep blankSb) freshFs removeParent = some s ∧
      s.procs 0 = some pr ∧ ¬ NoDangling (abs blankSb s).node ∧
      stopOf ((Call.open [46, 46] ⟨false, false, false, false⟩).prog blankSb 0 pr) s =
        some (.panic "ilock: no type") := by
  have hrun : ((run (callStep blankSb) freshFs removeParent).bind fun s => (s.procs 0).map fun pr =>
      (((abs blankSb s).node 3).type, inumOf ((abs blankSb s).node 3).data 1, ((abs blankSb s).node 2).type,
        stopOf ((Call.open [46, 46] ⟨false, false, false, false⟩).prog blankSb 0 pr) s)) =
      some (.dir, 2, .free, some (.panic "ilock: no type")) := by
    decide +kernel
  obtain ⟨s, hs, hpr⟩ := Option.bind_eq_some_iff.mp hrun
  obtain ⟨pr, hpr, hall⟩ := Option.map_eq_some_iff.mp hpr
  obtain ⟨hdir, hup, hfree, hstop⟩ : _ ∧ _ ∧ _ ∧ _ := by simpa only [Prod.mk.injEq] using hall
  refine ⟨freshFs_fresh, s, pr, hs, hpr, fun hno => ?_, hstop⟩
  refine hno 3 1 hdir (by rw [hup]; decide) ?_
  rw [hup]
  exact hfree

end Xv6Lab.FileSys
