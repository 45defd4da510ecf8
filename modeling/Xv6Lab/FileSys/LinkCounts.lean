import Xv6Lab.FileSys.Fresh

/-!
# Link counts

The link count of an inode is the number of the directory entries that name it, `.` entries and the `..`
entries of removed directories not counted (`CountsExact`). A process can be in a directory that was
removed, and `create` and `sys_link` do not look at the link count of the directory they add an entry to:
a file made there has link count 1, and when the directory is freed with the entry in it nothing names the
file any more (`orphan_entry_leaks`).

Where no call adds an entry to a directory without links, the counts are exact in every state between
calls, and inodes without links are held by a process or an open file (`link_counts_exact`). The
directories are a tree there (`directories_form_tree`).
-/

namespace Xv6Lab.FileSys

open Lib.Exec Lib.LinkGraph Lib.Transition Lib.Tally

variable {sb : Superblock} {s t : Fs} {f g : Nat → Node} {name : Name} {d i k dp ip cwd : Nat}

/-- Entry `k` of directory `d` counts for the inode it names: it is not `.`, and it is not the `..` of a
directory without links. -/
def Counts (f : Nat → Node) (d k : Nat) : Prop :=
  nameEq dot (nameAt (f d).data k) = false ∧ (nameEq dotdot (nameAt (f d).data k) = true → (f d).nlink ≠ 0)

/-- The number of entries of directories in use that name inode `i` and count. -/
noncomputable def entriesOf (f : Nat → Node) (i : Nat) : Nat :=
  Set.ncard { x : Nat × Nat | (f x.1).type = .dir ∧ inumOf (f x.1).data x.2 = i ∧ Counts f x.1 x.2 }

/-- Link counts are the numbers of entries. -/
def CountsExact (f : Nat → Node) : Prop :=
  ∀ i, (f i).type ≠ .free → i ≠ rootino → (f i).nlink = entriesOf f i

/-- Shaped nodes with a balanced graph. -/
structure Even (f : Nat → Node) : Prop where
  shaped : Shaped f
  balanced : (graph f).Balanced rootino

/-! ## Entries and the graph -/

theorem DirShape.not_counts_dot (h : DirShape d (f d).data) : ¬ Counts f d 0 := fun hc => by
  rw [Counts, h.dotName] at hc
  exact absurd hc.1 (by decide)

theorem nameEq_dot_dotdot {n : Name} (h : nameEq dotdot n = true) : nameEq dot n = false := by
  refine Bool.eq_false_iff.mpr fun hdot => ?_
  have heq := nameEq_left hdot h
  exact absurd heq (by decide)

theorem DirShape.counts_up (h : DirShape d (f d).data) : Counts f d 1 ↔ (f d).nlink ≠ 0 :=
  ⟨fun hc => hc.2 h.dotdotName, fun h0 => ⟨nameEq_dot_dotdot h.dotdotName, fun _ => h0⟩⟩

theorem DirShape.counts_plain (h : DirShape d (f d).data) (hk : inumOf (f d).data (k + 2) ≠ 0) :
    Counts f d (k + 2) := by
  obtain ⟨hdot, hdotdot⟩ := h.plain k hk
  refine ⟨hdot, fun hname => ?_⟩
  rw [hdotdot] at hname
  cases hname

/-- The entries that count are the places of the graph and the parents of directories with links. -/
theorem Even.entriesOf_eq (h : Even f) (hi : (f i).type ≠ .free) :
    entriesOf f i = Set.ncard { x | (graph f).child x = some i } +
      Set.ncard { d | (graph f).dir d ∧ (graph f).nlink d ≠ 0 ∧ (graph f).parent d = some i } := by
  have h0 : i ≠ 0 := h.shaped.ne_zero hi
  have hsplit : { x : Nat × Nat | (f x.1).type = .dir ∧ inumOf (f x.1).data x.2 = i ∧ Counts f x.1 x.2 } =
      Prod.map id (· + 2) '' { x | (graph f).child x = some i } ∪ (fun d => (d, 1)) ''
        { d | (graph f).dir d ∧ (graph f).nlink d ≠ 0 ∧ (graph f).parent d = some i } := by
    refine Set.ext fun x => ⟨?_, ?_⟩
    · obtain ⟨d, k⟩ := x
      rintro ⟨hd, hk, hc⟩
      have hshape := h.shaped.shape d hd
      rcases k with _ | _ | k
      · exact absurd hc hshape.not_counts_dot
      · exact .inr ⟨d, ⟨hd, hshape.counts_up.mp hc, entryOf_eq_some.mpr ⟨hd, h0, hk⟩⟩, rfl⟩
      · exact .inl ⟨(d, k), entryOf_eq_some.mpr ⟨hd, h0, hk⟩, rfl⟩
    · rintro (⟨⟨d, k⟩, hk, rfl⟩ | ⟨d, ⟨hd, hlinks, hp⟩, rfl⟩)
      · obtain ⟨hd, -, heq⟩ := entryOf_eq_some.mp hk
        exact ⟨hd, heq, (h.shaped.shape d hd).counts_plain (heq ▸ h0)⟩
      · exact ⟨hd, (entryOf_eq_some.mp hp).2.2, (h.shaped.shape d hd).counts_up.mpr hlinks⟩
  have hinj : Function.Injective (Prod.map id (· + 2) : Nat × Nat → Nat × Nat) :=
    Function.injective_id.prodMap (add_left_injective 2)
  have hinj1 : Function.Injective fun d : Nat => (d, 1) := fun _ _ heq => (Prod.ext_iff.mp heq).1
  have hdisjoint : Disjoint (Prod.map id (· + 2) '' { x | (graph f).child x = some i })
      ((fun d => (d, 1)) '' { d | (graph f).dir d ∧ (graph f).nlink d ≠ 0 ∧ (graph f).parent d = some i }) := by
    refine Set.disjoint_left.mpr ?_
    rintro _ ⟨⟨d, k⟩, -, rfl⟩ ⟨e, -, heq⟩
    have hk : 1 = k + 2 := (Prod.ext_iff.mp heq).2
    omega
  have hfinite : { d | (graph f).dir d ∧ (graph f).nlink d ≠ 0 ∧ (graph f).parent d = some i }.Finite :=
    (Set.finite_lt_nat 65536).subset fun d hd =>
      h.shaped.fits d (h.balanced.dir_live d hd.1)
  rw [entriesOf, hsplit, Set.ncard_union_eq hdisjoint ((h.balanced.sparse.places i).image _)
    (hfinite.image _), Set.ncard_image_of_injective _ hinj, Set.ncard_image_of_injective _ hinj1]

theorem Even.countsExact (h : Even f) : CountsExact f := by
  intro i hi hr
  rw [h.entriesOf_eq hi]
  push_cast
  exact h.balanced.nlink_eq hi hr

/-! ## The calls keep link counts exact -/

theorem Even.reaps (h : Even f) (hr : Reaps f g) : Even g := by
  refine ⟨hr.shaped h.shaped, ?_⟩
  rw [graph_reaps hr]
  exact h.balanced.reap fun j hj => hr.nlink_zero hj

theorem Even.sameTree (h : Even f) (hs : SameTree f g) : Even g :=
  ⟨hs.shaped h.shaped, graph_sameTree hs ▸ h.balanced⟩

theorem Even.create {path : Name} {type : FileType} (h : Even f) (hn : sb.ninodes ≤ 65536)
    (htype : type ≠ .free) (hc : Creates sb f cwd path dp name ip) (h0 : (f dp).nlink ≠ 0) :
    Even (createNodes f dp name ip type) := by
  obtain ⟨hne, hdead, hdir, hshaped, hgraph⟩ := hc.grows h.shaped hn htype
  have hlinks : (withNew f dp ip type).nlink dp ≠ 0 := by
    rw [withNew, DirGraph.make_nlink_ne hne.symm]
    exact h0
  refine ⟨hshaped, ?_⟩
  rw [hgraph]
  refine (h.balanced.make hdead).link hdir (.inl rfl) hne (h.shaped.newPlace_free hc.dir) hlinks ?_
  -- a new directory has its parent and is not named yet
  intro hnew
  rw [DirGraph.make_dir_self] at hnew
  refine ⟨?_, h.balanced.names_eq_zero.mpr (h.balanced.not_named hdead), ?_⟩
  · rw [DirGraph.make_parent_self]
    exact if_pos hnew
  · rintro rfl
    exact hdead (h.balanced.dir_live _ h.balanced.root_dir)

theorem Even.link {old new : Name} (h : Even f) (hl : Links f cwd old new dp name ip)
    (h0 : (f dp).nlink ≠ 0) : Even (linkNodes f dp name ip) := by
  have hne : ip ≠ dp := fun heq => hl.notDir (heq ▸ hl.dir)
  refine ⟨h.shaped.linkNodes hl.dir hl.used hl.fresh, ?_⟩
  rw [graph_linkNodes h.shaped hl.dir hl.used hl.notDir]
  exact h.balanced.link hl.dir hl.used hne (h.shaped.newPlace_free hl.dir) h0 fun hdir => absurd hdir hl.notDir

theorem Even.unlink {path : Name} (h : Even f) (hu : Unlinks f cwd path dp k) :
    Even (unlinkNodes f dp k (inumAt (f dp).data k)) := by
  obtain ⟨m, rfl, hlt, hchild⟩ := hu.place h.shaped
  have hne := h.balanced.no_loop _ _ hchild
  refine ⟨h.shaped.unlinkNodes hne hlt, ?_⟩
  rw [graph_unlinkNodes hne hlt]
  refine h.balanced.unlink hchild fun hdir j => ?_
  exact entryOf_eq_none.mpr fun _ => hu.empty hdir (j + 2) (Nat.le_add_left 2 j)

/-! ## Runs -/

/-- Link counts are below the largest `short`, and the call does not add an entry to a directory without
links. -/
structure EntriesLinked (sb : Superblock) (s : Fs) (pc : Fin nproc × Call) : Prop where
  fits : ∀ i, ((abs sb s).node i).nlink < 32767
  linked : ∀ pr path dp name, s.procs pc.1 = some pr → pc.2.newPath = some path →
    walk (abs sb s).node pr.cwd path true = some (dp, name) →
    findEntry ((abs sb s).node dp).data name = none → ((abs sb s).node dp).nlink ≠ 0

/-- The states of a run. -/
structure EvenState (sb : Superblock) (s : Fs) : Prop where
  ninodes_le : sb.ninodes ≤ 65536
  inCall : InCall sb True 0 s
  even : Even (abs sb s).node

theorem Fresh.evenState (h : Fresh sb s) : EvenState sb s :=
  ⟨h.ninodes_le, h.inCall, h.shaped, h.balanced⟩

theorem EvenState.step {pc : Fin nproc × Call} (h : EvenState sb s) (hok : EntriesLinked sb s pc)
    (ht : callStep sb s pc = some t) : EvenState sb t := by
  have hcounted := counted_of_bounded h.even.balanced.bounded hok.fits
  have hloop := h.even.shaped.loopless h.even.balanced.toWF
  obtain ⟨pr, hp, hin, g, heffect, hsettles⟩ := callStep_effect h.inCall hcounted hloop ht
  have hg : Even g := by
    refine heffect.induct (I := Even) h.even ?_ ?_ ?_
    · intro path dp name ip type hpath htype hc
      exact h.even.create h.ninodes_le htype hc (hok.linked pr path dp name hp hpath hc.target hc.fresh)
    · intro path old new dp name ip hpath hwalk hl
      exact h.even.link hl (hok.linked pr path dp name hp hpath hwalk hl.fresh)
    · exact fun path dp k _ hu => h.even.unlink hu
  exact ⟨h.ninodes_le, hin, hsettles.induct (I := Even) hg (fun _ _ hr hf => hf.reaps hr)
    fun _ _ hs hf => hf.sameTree hs⟩

/-- In every run from a fresh file system in which link counts stay below the largest `short` and no call
adds an entry to a directory without links, link counts are the numbers of entries, an inode with links is
named by an entry, and an inode in use without links is referenced. -/
theorem link_counts_exact (hrun : Reachable (Fresh sb) (callStep sb) (EntriesLinked sb) s) :
    CountsExact (abs sb s).node ∧
    (∀ i, ((abs sb s).node i).type ≠ .free → i ≠ rootino → 0 < ((abs sb s).node i).nlink →
      ∃ d k, ((abs sb s).node d).type = .dir ∧ inumOf ((abs sb s).node d).data k = i ∧ Counts (abs sb s).node d k) ∧
    ∀ i, ((abs sb s).node i).type ≠ .free → ((abs sb s).node i).nlink = 0 → 0 < (s.icache i).ref := by
  have h : EvenState sb s :=
    hrun.invariant (EvenState sb) (fun _ h => h.evenState) fun _ _ _ h hok ht => h.step hok ht
  have hexact := h.even.countsExact
  refine ⟨hexact, fun i hi hr hpos => ?_, fun i hi h0 => ?_⟩
  · have hentries : 0 < entriesOf (abs sb s).node i := by
      have heq := hexact i hi hr
      omega
    obtain ⟨⟨d, k⟩, hd, hk, hc⟩ := Set.nonempty_of_ncard_ne_zero hentries.ne'
    exact ⟨d, k, hd, hk, hc⟩
  · have hheld := (h.inCall.refs.held trivial i ⟨hi, h0⟩).2
    have heq : (s.icache i).ref = (abs sb s).holders i + Multiset.count i 0 :=
      h.inCall.refs.exact trivial i
    omega

/-- `mkdir("a")` on the empty file system adds its entry to the root, which has a link. -/
theorem mkdir_linked : EntriesLinked blankSb freshFs (0, .mkdir [97]) := by
  have hwalk : walk (abs blankSb freshFs).node rootino [97] true = some (rootino, [97]) := by
    decide +kernel
  refine ⟨freshFs_fits, fun pr path dp name hp hpath hw _ => ?_⟩
  rw [freshFs_cwd hp] at hw
  cases hpath
  rw [show cstr [97] = [97] from rfl, hwalk] at hw
  cases hw
  rw [freshFs_root]
  decide

/-- After `mkdir("a")` on the empty file system the link counts are exact. -/
theorem link_counts_exact_mkdir :
    ∃ t, callStep blankSb freshFs (0, .mkdir [97]) = some t ∧ CountsExact (abs blankSb t).node := by
  have hsome : (callStep blankSb freshFs (0, .mkdir [97])).isSome = true := by decide +kernel
  obtain ⟨t, ht⟩ := Option.isSome_iff_exists.mp hsome
  exact ⟨t, ht, (link_counts_exact (.step _ (.start freshFs_fresh) mkdir_linked ht)).1⟩

/-- `mkdir("a")`, `chdir("a")`, `unlink("../a")`, `open("b", O_CREATE | O_RDWR)`, `close(0)`,
`chdir("/")`. -/
def leaveRemoved : List (Fin nproc × Call) :=
  [(0, .mkdir [97]), (0, .chdir [97]), (0, .unlink [46, 46, 47, 97]),
    (0, .open [98] ⟨false, true, true, false⟩), (0, .close 0), (0, .chdir [47])]

/-- A file that was made in a removed directory has a link and is named by no entry when the directory is
gone; nothing refers to it and it is never freed. -/
theorem orphan_entry_leaks :
    Fresh blankSb freshFs ∧ ∃ s, run (callStep blankSb) freshFs leaveRemoved = some s ∧
      ((abs blankSb s).node 3).type = .file ∧ ((abs blankSb s).node 3).nlink = 1 ∧
      (s.icache 3).ref = 0 ∧ entriesOf (abs blankSb s).node 3 = 0 ∧
      ¬ CountsExact (abs blankSb s).node := by
  have hrun : ((run (callStep blankSb) freshFs leaveRemoved).map fun s =>
      (((abs blankSb s).node 3).type, ((abs blankSb s).node 3).nlink, (s.icache 3).ref,
        decide (∀ d < blankSb.ninodes, ((abs blankSb s).node d).type = .dir →
          ∀ k < entryCount ((abs blankSb s).node d).data,
            inumAt ((abs blankSb s).node d).data k ≠ 3))) =
      some (.file, 1, 0, true) := by
    decide +kernel
  obtain ⟨s, hs, hall⟩ := Option.map_eq_some_iff.mp hrun
  obtain ⟨htype, hlink, href, hnone⟩ : _ ∧ _ ∧ _ ∧ _ := by simpa only [Prod.mk.injEq] using hall
  have hnone := of_decide_eq_true hnone
  have hentries : entriesOf (abs blankSb s).node 3 = 0 := by
    refine (congrArg Set.ncard (Set.eq_empty_of_forall_notMem ?_)).trans (Set.ncard_empty _)
    rintro ⟨d, k⟩ ⟨hd, hk, -⟩
    have hk0 : inumOf ((abs blankSb s).node d).data k ≠ 0 := by
      rw [hk]
      decide
    obtain ⟨hlt, hof⟩ := inumOf_ne_zero hk0
    exact hnone d (abs_node_lt (by rw [hd]; exact FileType.noConfusion)) hd k hlt (hof.symm.trans hk)
  refine ⟨freshFs_fresh, s, hs, htype, hlink, href, hentries, fun hexact => ?_⟩
  have heq := hexact 3 (htype ▸ FileType.noConfusion) (by decide)
  rw [hlink, hentries] at heq
  cases heq

/-! ## The tree of directories

`sys_link` refuses directories and nothing moves them, so a directory keeps the name it was made with, in a
directory that is older. -/

/-- The directories have depths. -/
def HasDepths (f : Nat → Node) : Prop := ∃ rank, (graph f).Ranked rank

theorem EvenState.depths {pc : Fin nproc × Call} (h : EvenState sb s) (hok : EntriesLinked sb s pc)
    (ht : callStep sb s pc = some t) (hs : HasDepths (abs sb s).node) : HasDepths (abs sb t).node := by
  have hwf := h.even.balanced.toWF
  have hcounted := counted_of_bounded h.even.balanced.bounded hok.fits
  obtain ⟨pr, hp, hin, g, heffect, hsettles⟩ :=
    callStep_effect h.inCall hcounted (h.even.shaped.loopless hwf) ht
  have hg : HasDepths g := by
    obtain ⟨rank, hrank⟩ := hs
    apply heffect.induct (I := HasDepths) ⟨rank, hrank⟩
    · intro path dp name ip type hpath htype hc
      obtain ⟨-, hdead, -, -, hgraph⟩ := hc.grows h.even.shaped h.ninodes_le htype
      rw [HasDepths, hgraph]
      exact ⟨_, hrank.create hwf hdead (hwf.dir_live dp hc.dir)⟩
    · intro path old new dp name ip hpath hwalk hl
      refine ⟨rank, ?_⟩
      rw [graph_linkNodes h.even.shaped hl.dir hl.used hl.notDir]
      apply hrank.mono
      intro x v hx hv
      by_cases hxk : x = (dp, newPlace (abs sb s).node dp)
      · -- what `sys_link` adds a name for is not a directory
        rw [hxk, DirGraph.link_child_self] at hx
        cases hx
        exact absurd hv hl.notDir
      · rw [DirGraph.link_child_ne hxk] at hx
        exact ⟨hx, hv⟩
    · intro path dp k _ hu
      obtain ⟨m, rfl, hlt, hchild⟩ := hu.place h.even.shaped
      refine ⟨rank, ?_⟩
      rw [graph_unlinkNodes (hwf.no_loop _ _ hchild) hlt]
      exact hrank.mono fun x v hx hv => ⟨DirGraph.child_of_unlink hx, hv⟩
  apply hsettles.induct (I := HasDepths) hg
  · exact fun _ _ hr ⟨rank, h⟩ => ⟨rank, graph_reaps hr ▸ h.reap⟩
  · exact fun _ _ hs ⟨rank, h⟩ => ⟨rank, graph_sameTree hs ▸ h⟩

/-- In every run from a fresh file system in which link counts stay below the largest `short` and no call
adds an entry to a directory without links, the first two entries of every directory are `.` and `..` and no others
are, and the directories with links are a tree. -/
theorem directories_form_tree (hrun : Reachable (Fresh sb) (callStep sb) (EntriesLinked sb) s) :
    Shaped (abs sb s).node ∧ (graph (abs sb s).node).IsTree rootino := by
  have hinv : EvenState sb s ∧ HasDepths (abs sb s).node := by
    apply hrun.invariant (fun s => EvenState sb s ∧ HasDepths (abs sb s).node)
    · intro s h
      -- the root is the only directory, and nothing names it
      refine ⟨h.evenState, fun _ => 0, fun x v hx hv => ?_⟩
      exact absurd (h.dir_iff.mp hv) (h.balanced.home x.1 x.2 v hx hv).2.2
    · exact fun s t pc h hok ht => ⟨h.1.step hok ht, h.1.depths hok ht h.2⟩
  obtain ⟨h, rank, hrank⟩ := hinv
  exact ⟨h.even.shaped, h.even.balanced.isTree hrank⟩

/-- After `mkdir("a")` on the empty file system inode 2 is a directory with `.` and `..` from which the root is
reached, and one place of the root names it. -/
theorem directories_form_tree_mkdir :
    ∃ t, callStep blankSb freshFs (0, .mkdir [97]) = some t ∧ DirShape 2 ((abs blankSb t).node 2).data ∧
      Relation.ReflTransGen (fun a b => (graph (abs blankSb t).node).parent a = some b) 2 rootino ∧
      ∃ x, (graph (abs blankSb t).node).child x = some 2 ∧
        ∀ y, (graph (abs blankSb t).node).child y = some 2 → y = x := by
  have hrun : ((callStep blankSb freshFs (0, .mkdir [97])).map fun t =>
      (((abs blankSb t).node 2).type, ((abs blankSb t).node 2).nlink)) = some (.dir, 1) := by decide +kernel
  obtain ⟨t, ht, hnode⟩ := Option.map_eq_some_iff.mp hrun
  obtain ⟨htype, hlink⟩ : _ ∧ _ := by simpa only [Prod.mk.injEq] using hnode
  have hlinks : (graph (abs blankSb t).node).nlink 2 ≠ 0 := by simp [graph, hlink]
  obtain ⟨hshaped, -, htree⟩ := directories_form_tree (.step _ (.start freshFs_fresh) mkdir_linked ht)
  obtain ⟨hreach, hplace⟩ := htree 2 htype hlinks
  obtain ⟨x, hx, -, -, huniq⟩ := hplace (by decide)
  exact ⟨t, ht, hshaped.shape 2 htype, hreach, x, hx, huniq⟩

end Xv6Lab.FileSys
