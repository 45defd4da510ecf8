import Xv6Lab.Lib.LinkGraph
import Xv6Lab.FileSys.OpenCalls

/-!
# The directory graph of the nodes

`graph f` is the directory graph of the nodes `f`: its places are the entries after `.` and `..`, the
parent of a directory is its `..`. `Shaped f` says that directories begin with `.` and `..` and use these
names nowhere else. For shaped nodes what the system calls do to the nodes is what the operations of the
library do to the graph (`graph_linkNodes`, `graph_unlinkNodes`, `graph_createNodes`, `graph_reaps`), and
the nodes stay shaped.
-/

namespace Xv6Lab.FileSys

open Function Lib.LinkGraph DirGraph FileSys Node

variable {sb : Superblock} {s t : Fs} {f g : Nat → Node} {n : Node} {data : List UInt8} {name : Name}
  {d i j k v dp ip cwd : Nat} {m : Node}

/-! ## Entries -/

/-- The inode that entry `k` names. -/
def entryOf (n : Node) (k : Nat) : Option Nat :=
  if n.type = .dir ∧ inumOf n.data k ≠ 0 then some (inumOf n.data k) else none

/-- The directory graph. -/
def graph (f : Nat → Node) : DirGraph Nat where
  live i := (f i).type ≠ .free
  dir i := (f i).type = .dir
  nlink i := (f i).nlink
  child x := entryOf (f x.1) (x.2 + 2)
  parent d := entryOf (f d) 1

theorem entryOf_eq_some : entryOf n k = some v ↔ n.type = .dir ∧ v ≠ 0 ∧ inumOf n.data k = v := by
  unfold entryOf
  split
  next h =>
    refine ⟨fun heq => ?_, fun heq => congrArg some heq.2.2⟩
    cases heq
    exact ⟨h.1, h.2, rfl⟩
  next h =>
    refine ⟨nofun, ?_⟩
    rintro ⟨hdir, hne, rfl⟩
    exact absurd ⟨hdir, hne⟩ h

theorem entryOf_eq_none : entryOf n k = none ↔ (n.type = .dir → inumOf n.data k = 0) := by
  unfold entryOf
  split
  next h => exact ⟨nofun, fun h0 => absurd (h0 h.1) h.2⟩
  next h => exact ⟨fun _ hdir => by_contra fun hne => h ⟨hdir, hne⟩, fun _ => rfl⟩

theorem entryOf_congr (ht : m.type = n.type) (hd : n.type = .dir → m.data = n.data) : entryOf m = entryOf n := by
  funext k
  unfold entryOf
  by_cases hdir : n.type = .dir
  · rw [ht, hd hdir]
  · rw [ht, if_neg fun h => hdir h.1, if_neg fun h => hdir h.1]

theorem entryOf_free : entryOf free = fun _ => none := rfl

theorem entryOf_addEntry (hdir : n.type = .dir) (hi : i < 65536) (h0 : i ≠ 0)
    (ht : m.type = n.type) (hd : m.data = addEntry n.data i name) :
    entryOf m = update (entryOf n) (freeEntry n.data) (some i) := by
  funext k
  rw [entryOf, ht, hd, inumOf_addEntry hi]
  rcases eq_or_ne k (freeEntry n.data) with rfl | hk
  · rw [update_self, update_self, if_pos ⟨hdir, h0⟩]
  · rw [update_of_ne hk, update_of_ne hk]
    rfl

theorem entryOf_clearEntry (hlt : d < entryCount n.data) (ht : m.type = n.type)
    (hd : m.data = clearEntry n.data d) : entryOf m = update (entryOf n) d none := by
  funext k
  rw [entryOf, ht, hd, inumOf_clearEntry hlt]
  rcases eq_or_ne k d with rfl | hk
  · rw [update_self, update_self, if_neg fun h => h.2 rfl]
  · rw [update_of_ne hk, update_of_ne hk]
    rfl

/-! ## The shape of directories -/

/-- The entries of directory `d`: `.`, which names `d`, `..`, and others of other names. -/
structure DirShape (d : Nat) (data : List UInt8) : Prop where
  self : inumOf data 0 = d
  up : inumOf data 1 ≠ 0
  dotName : nameEq dot (nameAt data 0) = true
  dotdotName : nameEq dotdot (nameAt data 1) = true
  plain : ∀ k, inumOf data (k + 2) ≠ 0 →
    nameEq dot (nameAt data (k + 2)) = false ∧ nameEq dotdot (nameAt data (k + 2)) = false

theorem nameEq_of_left {s t n : Name} (ht : nameEq n s = true) (hs : nameEq n t = true) : nameEq s t = true := by
  rw [nameEq_iff] at hs ht ⊢
  rw [← hs, ← ht]

/-- A new entry comes after `.` and `..`. -/
theorem DirShape.freeEntry (h : DirShape d data) (hd : d ≠ 0) : 2 ≤ freeEntry data := by
  have hfree := inumOf_freeEntry data
  by_contra hlt
  rcases Nat.lt_or_ge (FileSys.freeEntry data) 1 with h0 | h1
  · rw [Nat.lt_one_iff.mp h0, h.self] at hfree
    exact hd hfree
  · rw [show FileSys.freeEntry data = 1 by omega] at hfree
    exact h.up hfree

/-- A name that is not there is neither `.` nor `..`. -/
theorem DirShape.fresh (h : DirShape d data) (hd : d ≠ 0) (hf : findEntry data name = none) :
    nameEq dot name = false ∧ nameEq dotdot name = false := by
  obtain ⟨h0, hof0⟩ := inumOf_ne_zero (h.self ▸ hd : inumOf data 0 ≠ 0)
  obtain ⟨h1, hof1⟩ := inumOf_ne_zero h.up
  have hdot := findEntry_eq_none hf h0 (hof0 ▸ h.self ▸ hd)
  have hdotdot := findEntry_eq_none hf h1 (hof1 ▸ h.up)
  refine ⟨Bool.eq_false_iff.mpr fun heq => ?_, Bool.eq_false_iff.mpr fun heq => ?_⟩
  · rw [nameEq_of_left heq h.dotName] at hdot
    cases hdot
  · rw [nameEq_of_left heq h.dotdotName] at hdotdot
    cases hdotdot

theorem DirShape.addEntry (h : DirShape d data) (hd : d ≠ 0) (hi : i < 65536)
    (hf : findEntry data name = none) : DirShape d (addEntry data i name) := by
  have hfree := h.freeEntry hd
  obtain ⟨hdot, hdotdot⟩ := h.fresh hd hf
  have hold : ∀ k < 2, inumOf (FileSys.addEntry data i name) k = inumOf data k ∧
      nameAt (FileSys.addEntry data i name) k = nameAt data k := by
    intro k hk
    rw [inumOf_addEntry hi, nameAt_addEntry, update_of_ne (by omega), update_of_ne (by omega)]
    exact ⟨rfl, rfl⟩
  obtain ⟨hi0, hn0⟩ := hold 0 (by decide)
  obtain ⟨hi1, hn1⟩ := hold 1 (by decide)
  refine ⟨hi0 ▸ h.self, hi1 ▸ h.up, hn0 ▸ h.dotName, hn1 ▸ h.dotdotName, fun k hk => ?_⟩
  rw [nameAt_addEntry]
  rw [inumOf_addEntry hi] at hk
  rcases eq_or_ne (k + 2) (FileSys.freeEntry data) with heq | hne
  · rw [heq, update_self, nameEq_strncpy, nameEq_strncpy]
    exact ⟨hdot, hdotdot⟩
  · rw [update_of_ne hne] at hk ⊢
    exact h.plain k hk

theorem DirShape.clearEntry (h : DirShape d data) (hk : k + 2 < entryCount data) :
    DirShape d (clearEntry data (k + 2)) := by
  have hold : ∀ j ≠ k + 2, inumOf (FileSys.clearEntry data (k + 2)) j = inumOf data j ∧
      nameAt (FileSys.clearEntry data (k + 2)) j = nameAt data j := by
    intro j hj
    rw [inumOf_clearEntry hk, nameAt_clearEntry hk hj, update_of_ne hj]
    exact ⟨rfl, rfl⟩
  obtain ⟨hi0, hn0⟩ := hold 0 (by omega)
  obtain ⟨hi1, hn1⟩ := hold 1 (by omega)
  refine ⟨hi0 ▸ h.self, hi1 ▸ h.up, hn0 ▸ h.dotName, hn1 ▸ h.dotdotName, fun j hj => ?_⟩
  rcases eq_or_ne (j + 2) (k + 2) with heq | hne
  · rw [heq, inumOf_clearEntry hk, update_self] at hj
    exact absurd rfl hj
  · obtain ⟨hij, hnj⟩ := hold (j + 2) hne
    rw [hnj]
    exact h.plain j (hij ▸ hj)

/-- A new directory. -/
theorem DirShape.new (hip : ip < 65536) (hdp : dp < 65536) (hi0 : ip ≠ 0) (hd0 : dp ≠ 0) :
    DirShape ip (newData .dir dp ip) ∧ inumOf (newData .dir dp ip) 1 = dp ∧
      ∀ k, inumOf (newData .dir dp ip) (k + 2) = 0 := by
  have hnil : inumOf [] = fun _ => 0 := rfl
  have hfree0 : FileSys.freeEntry [] = 0 := rfl
  have hfirst : inumOf (FileSys.addEntry [] ip dot) = update (fun _ => 0) 0 ip := by
    rw [inumOf_addEntry hip, hfree0, hnil]
  have hcount : entryCount (FileSys.addEntry [] ip dot) = 1 := by
    rw [FileSys.addEntry, entryCount_splice (length_encodeDirent ip dot) (freeEntry_le _)]
    rfl
  -- the first entry is in use, so `..` goes to the end
  have hfree1 : FileSys.freeEntry (FileSys.addEntry [] ip dot) = 1 := by
    have hle := freeEntry_le (FileSys.addEntry [] ip dot)
    have hzero := inumOf_freeEntry (FileSys.addEntry [] ip dot)
    rw [hfirst] at hzero
    rcases Nat.eq_zero_or_pos (FileSys.freeEntry (FileSys.addEntry [] ip dot)) with h0 | hpos
    · rw [h0, update_self] at hzero
      exact absurd hzero hi0
    · omega
  have hinum : inumOf (newData .dir dp ip) = update (update (fun _ => 0) 0 ip) 1 dp := by
    rw [newData, if_pos rfl, inumOf_addEntry hdp, hfree1, hfirst]
  have hname : nameAt (newData .dir dp ip) = update (update (nameAt []) 0 (strncpy dot)) 1 (strncpy dotdot) := by
    rw [newData, if_pos rfl, nameAt_addEntry, hfree1, nameAt_addEntry, hfree0]
  have hrest : ∀ k, inumOf (newData .dir dp ip) (k + 2) = 0 := by
    intro k
    rw [hinum, update_of_ne (by omega), update_of_ne (by omega)]
  refine ⟨⟨?_, ?_, ?_, ?_, fun k hk => absurd (hrest k) hk⟩, ?_, hrest⟩
  · rw [hinum, update_of_ne (by decide), update_self]
  · rw [hinum, update_self]
    exact hd0
  · rw [hname, update_of_ne (by decide), update_self, nameEq_strncpy]
    rfl
  · rw [hname, update_self, nameEq_strncpy]
    rfl
  · rw [hinum, update_self]

/-- Directories begin with `.` and `..`, and inode numbers fit into entries. -/
structure Shaped (f : Nat → Node) : Prop where
  zero : (f 0).type = .free
  fits : ∀ i, (f i).type ≠ .free → i < 65536
  shape : ∀ d, (f d).type = .dir → DirShape d (f d).data

theorem Shaped.ne_zero (h : Shaped f) (hi : (f i).type ≠ .free) : i ≠ 0 := by
  rintro rfl
  exact hi h.zero

theorem Shaped.dir_ne_zero (h : Shaped f) (hd : (f d).type = .dir) : d ≠ 0 :=
  h.ne_zero (hd ▸ nofun)

/-- Only changes of directories matter to the shape. -/
theorem Shaped.of_type (h : Shaped f) (ht : ∀ i, (g i).type ≠ .free → (g i).type = (f i).type)
    (hd : ∀ d, (g d).type = .dir → DirShape d (f d).data → DirShape d (g d).data) : Shaped g where
  zero := by
    by_contra hne
    exact hne ((ht 0 hne).trans h.zero)
  fits i hi := h.fits i (ht i hi ▸ hi)
  shape d hdir := hd d hdir (h.shape d ((ht d (hdir ▸ nofun)).symm.trans hdir))

/-! ## The effects of the calls -/

theorem graph_reaps (h : Reaps f g) : graph g = (graph f).reap fun j => g j ≠ f j := by
  have hfree : ∀ j, g j ≠ f j → g j = free := fun j hj => ((h j).resolve_left hj).1
  refine DirGraph.ext ?_ ?_ ?_ ?_ ?_
  · funext j
    show ((g j).type ≠ .free) = ((f j).type ≠ .free ∧ ¬ g j ≠ f j)
    by_cases heq : g j = f j
    · simp [heq]
    · have htype : (g j).type = .free := congrArg type (hfree j heq)
      simp [heq, htype]
  · funext j
    show ((g j).type = .dir) = ((f j).type = .dir ∧ ¬ g j ≠ f j)
    by_cases heq : g j = f j
    · simp [heq]
    · have htype : (g j).type = .free := congrArg type (hfree j heq)
      simp [heq, htype]
  · funext j
    by_cases heq : g j = f j
    · exact (congrArg Node.nlink heq).trans (if_neg (not_not.mpr heq)).symm
    · exact (congrArg Node.nlink (hfree j heq)).trans (if_pos heq).symm
  · funext x
    by_cases heq : g x.1 = f x.1
    · exact (congrArg (entryOf · (x.2 + 2)) heq).trans (if_neg (not_not.mpr heq)).symm
    · exact (congrArg (entryOf · (x.2 + 2)) (hfree x.1 heq)).trans (if_pos heq).symm
  · funext j
    by_cases heq : g j = f j
    · exact (congrArg (entryOf · 1) heq).trans (if_neg (not_not.mpr heq)).symm
    · exact (congrArg (entryOf · 1) (hfree j heq)).trans (if_pos heq).symm

theorem Reaps.nlink_zero (h : Reaps f g) (hj : g j ≠ f j) : (graph f).nlink j = 0 :=
  ((h j).resolve_left hj).2

theorem Reaps.shaped (h : Reaps f g) (hf : Shaped f) : Shaped g := by
  have hsame : ∀ i, (g i).type ≠ .free → g i = f i := by
    intro i hi
    refine (h i).resolve_right fun hfree => hi ?_
    rw [hfree.1]
    rfl
  refine hf.of_type (fun i hi => by rw [hsame i hi]) fun d hd hs => ?_
  rw [hsame d (hd ▸ nofun)]
  exact hs

theorem graph_sameTree (h : SameTree f g) : graph g = graph f := by
  have hentry : ∀ j, entryOf (g j) = entryOf (f j) := fun j => entryOf_congr (h j).1 (h j).2.2
  refine DirGraph.ext ?_ ?_ ?_ ?_ ?_
  · funext j
    exact congrArg (· ≠ FileType.free) (h j).1
  · funext j
    exact congrArg (· = FileType.dir) (h j).1
  · funext j
    exact (h j).2.1
  · funext x
    exact congrFun (hentry x.1) _
  · funext j
    exact congrFun (hentry j) 1

theorem SameTree.shaped (h : SameTree f g) (hf : Shaped f) : Shaped g := by
  refine hf.of_type (fun i _ => (h i).1) fun d hd hs => ?_
  rw [(h d).2.2 ((h d).1.symm.trans hd)]
  exact hs

/-- An operation on one place and the link counts. -/
theorem graph_ext {G : DirGraph Nat} (ht : ∀ j, (graph g).live j ↔ G.live j)
    (hd : ∀ j, (graph g).dir j ↔ G.dir j) (hn : ∀ j, (g j).nlink = G.nlink j)
    (hc : ∀ j k, entryOf (g j) (k + 2) = G.child (j, k)) (hp : ∀ j, entryOf (g j) 1 = G.parent j) :
    graph g = G :=
  DirGraph.ext (funext fun j => propext (ht j)) (funext fun j => propext (hd j)) (funext hn)
    (funext fun x => hc x.1 x.2) (funext hp)

/-- One entry of `dp` after `.` and `..` changes. -/
theorem child_update {G : DirGraph Nat} (hG : ∀ {x}, x ≠ (dp, k) → G.child x = (graph f).child x)
    (hself : entryOf (g dp) = update (entryOf (f dp)) (k + 2) (G.child (dp, k)))
    (hother : ∀ j ≠ dp, ∀ m, entryOf (g j) (m + 2) = entryOf (f j) (m + 2)) (j m : Nat) :
    entryOf (g j) (m + 2) = G.child (j, m) := by
  rcases eq_or_ne j dp with rfl | hj
  · rw [hself]
    rcases eq_or_ne m k with rfl | hm
    · exact update_self ..
    · rw [update_of_ne (by omega), hG fun h => hm (Prod.ext_iff.mp h).2]
      rfl
  · rw [hother j hj, hG fun h => hj (Prod.ext_iff.mp h).1]
    rfl

/-! ### An entry is erased -/

section Unlink

theorem unlinkNodes_type (j : Nat) : (unlinkNodes f dp k ip j).type = (f j).type := by
  unfold unlinkNodes
  rcases eq_or_ne j ip with rfl | hi
  · rw [update_self]
    rfl
  rw [update_of_ne hi]
  rcases eq_or_ne j dp with rfl | hd
  · rw [update_self]
    rfl
  · rw [update_of_ne hd]

theorem unlinkNodes_data (hne : ip ≠ dp) (j : Nat) :
    (unlinkNodes f dp k ip j).data = if j = dp then clearEntry (f dp).data k else (f j).data := by
  unfold unlinkNodes
  rcases eq_or_ne j ip with rfl | hi
  · rw [update_self, if_neg hne]
    rfl
  rw [update_of_ne hi]
  rcases eq_or_ne j dp with rfl | hd
  · rw [update_self, if_pos rfl]
    rfl
  · rw [update_of_ne hd, if_neg hd]

theorem unlinkNodes_nlink (hne : ip ≠ dp) (j : Nat) :
    (unlinkNodes f dp k ip j).nlink = (f j).nlink - (graph f).gain dp ip j := by
  have hdp : dp ≠ ip := hne.symm
  unfold unlinkNodes gain
  rcases eq_or_ne j ip with rfl | hi
  · rw [update_self]
    simp [hdp, setNlink]
  rw [update_of_ne hi]
  rcases eq_or_ne j dp with rfl | hd
  · rw [update_self]
    simp [hne, setNlink, graph]
  · rw [update_of_ne hd]
    simp [hi.symm, hd.symm]

theorem graph_unlinkNodes (hne : ip ≠ dp) (hk : k + 2 < entryCount (f dp).data) :
    graph (unlinkNodes f dp (k + 2) ip) = (graph f).unlink dp k ip := by
  have hother : ∀ j ≠ dp, entryOf (unlinkNodes f dp (k + 2) ip j) = entryOf (f j) :=
    fun j hj => entryOf_congr (unlinkNodes_type j) fun _ => (unlinkNodes_data hne j).trans (if_neg hj)
  have hself : entryOf (unlinkNodes f dp (k + 2) ip dp) =
      update (entryOf (f dp)) (k + 2) none :=
    entryOf_clearEntry hk (unlinkNodes_type dp) ((unlinkNodes_data hne dp).trans (if_pos rfl))
  refine graph_ext (fun j => ?_) (fun j => ?_) (unlinkNodes_nlink hne)
    (child_update unlink_child_ne (by rwa [unlink_child_self]) fun j hj m => congrFun (hother j hj) _) fun j => ?_
  · exact not_congr (by rw [unlinkNodes_type])
  · exact iff_of_eq (congrArg (· = FileType.dir) (unlinkNodes_type j))
  · show _ = entryOf (f j) 1
    rcases eq_or_ne j dp with rfl | hj
    · rw [hself, update_of_ne (by omega)]
    · rw [hother j hj]

theorem Shaped.unlinkNodes (h : Shaped f) (hne : ip ≠ dp) (hk : k + 2 < entryCount (f dp).data) :
    Shaped (unlinkNodes f dp (k + 2) ip) := by
  refine h.of_type (fun i _ => unlinkNodes_type i) fun d hd hs => ?_
  rw [unlinkNodes_data hne]
  split
  next heq =>
    subst heq
    exact hs.clearEntry hk
  · exact hs

end Unlink

/-! ### An entry is added -/

section Link

variable {type : FileType}

/-- The place of a new entry. -/
def newPlace (f : Nat → Node) (dp : Nat) : Nat := freeEntry (f dp).data - 2

theorem Shaped.newPlace_add (h : Shaped f) (hd : (f dp).type = .dir) : newPlace f dp + 2 = freeEntry (f dp).data :=
  Nat.sub_add_cancel ((h.shape dp hd).freeEntry (h.dir_ne_zero hd))

/-- The place of a new entry was not in use. -/
theorem Shaped.newPlace_free (h : Shaped f) (hd : (f dp).type = .dir) :
    (graph f).child (dp, newPlace f dp) = none := by
  refine entryOf_eq_none.mpr fun _ => ?_
  rw [h.newPlace_add hd]
  exact inumOf_freeEntry _

theorem linkNodes_type (j : Nat) : (linkNodes f dp name ip j).type = (f j).type := by
  unfold linkNodes
  rcases eq_or_ne j dp with rfl | hd
  · rw [update_self]
    rfl
  rw [update_of_ne hd]
  rcases eq_or_ne j ip with rfl | hi
  · rw [update_self]
    rfl
  · rw [update_of_ne hi]

theorem linkNodes_data (j : Nat) : (linkNodes f dp name ip j).data =
    if j = dp then addEntry (f dp).data ip name else (f j).data := by
  unfold linkNodes
  rcases eq_or_ne j dp with rfl | hd
  · rw [update_self, if_pos rfl]
    rfl
  rw [update_of_ne hd, if_neg hd]
  rcases eq_or_ne j ip with rfl | hi
  · rw [update_self]
    rfl
  · rw [update_of_ne hi]

theorem linkNodes_nlink (hne : ip ≠ dp) (hnot : (f ip).type ≠ .dir) (j : Nat) :
    (linkNodes f dp name ip j).nlink = (f j).nlink + (graph f).gain dp ip j := by
  have hdp : dp ≠ ip := hne.symm
  unfold linkNodes gain
  rcases eq_or_ne j dp with rfl | hd
  · rw [update_self]
    simp [hne, setData, graph, hnot]
  rw [update_of_ne hd]
  rcases eq_or_ne j ip with rfl | hi
  · rw [update_self]
    simp [hdp, setNlink]
  · rw [update_of_ne hi]
    simp [hi.symm, hd.symm]

section

variable (h : Shaped f) (hd : (f dp).type = .dir)
include h hd

/-- The entries of `dp` after a new one. -/
theorem Shaped.entryOf_new (hi : ip < 65536) (h0 : ip ≠ 0) (ht : m.type = (f dp).type)
    (hdata : m.data = addEntry (f dp).data ip name) :
    entryOf m = update (entryOf (f dp)) (newPlace f dp + 2) (some ip) := by
  rw [h.newPlace_add hd]
  exact entryOf_addEntry hd hi h0 ht hdata

theorem graph_linkNodes (hused : (f ip).type ≠ .free) (hnot : (f ip).type ≠ .dir) :
    graph (linkNodes f dp name ip) = (graph f).link dp (newPlace f dp) ip := by
  have hne : ip ≠ dp := fun heq => hnot (heq ▸ hd)
  have hother : ∀ j ≠ dp, entryOf (linkNodes f dp name ip j) = entryOf (f j) :=
    fun j hj => entryOf_congr (linkNodes_type j) fun _ => (linkNodes_data j).trans (if_neg hj)
  have hself : entryOf (linkNodes f dp name ip dp) = _ :=
    h.entryOf_new hd (h.fits ip hused) (h.ne_zero hused) (linkNodes_type dp) ((linkNodes_data dp).trans (if_pos rfl))
  refine graph_ext (fun j => ?_) (fun j => ?_) (linkNodes_nlink hne hnot)
    (child_update link_child_ne (by rwa [link_child_self]) fun j hj m => congrFun (hother j hj) _) fun j => ?_
  · exact not_congr (by rw [linkNodes_type])
  · exact iff_of_eq (congrArg (· = FileType.dir) (linkNodes_type j))
  · show _ = entryOf (f j) 1
    rcases eq_or_ne j dp with rfl | hj
    · rw [hself, update_of_ne (by omega)]
    · rw [hother j hj]

theorem Shaped.linkNodes (hused : (f ip).type ≠ .free)
    (hfresh : findEntry (f dp).data name = none) : Shaped (linkNodes f dp name ip) := by
  refine h.of_type (fun i _ => linkNodes_type i) fun e he hs => ?_
  rw [linkNodes_data]
  split
  next heq =>
    subst heq
    exact hs.addEntry (h.dir_ne_zero hd) (h.fits ip hused) hfresh
  · exact hs

end

/-! ### An inode is made -/

theorem createNodes_ip (hne : ip ≠ dp) : createNodes f dp name ip type ip = ⟨type, 1, newData type dp ip⟩ := by
  rw [createNodes, update_of_ne hne, update_self]

theorem createNodes_type (hne : ip ≠ dp) (j : Nat) : (createNodes f dp name ip type j).type =
    if j = ip then type else (f j).type := by
  rcases eq_or_ne j ip with rfl | hi
  · rw [createNodes_ip hne, if_pos rfl]
  rw [if_neg hi, createNodes]
  rcases eq_or_ne j dp with rfl | hd
  · rw [update_self]
    rfl
  · rw [update_of_ne hd, update_of_ne hi]

theorem createNodes_dp : (createNodes f dp name ip type dp).data = addEntry (f dp).data ip name := by
  rw [createNodes, update_self]
  rfl

theorem createNodes_ne (hi : j ≠ ip) (hd : j ≠ dp) : createNodes f dp name ip type j = f j := by
  rw [createNodes, update_of_ne hd, update_of_ne hi]

/-- The graph with a new vertex. -/
noncomputable def withNew (f : Nat → Node) (dp ip : Nat) (type : FileType) : DirGraph Nat :=
  (graph f).make ip (type = .dir) (if type = .dir then some dp else none)

theorem withNew_dir (hne : ip ≠ dp) (j : Nat) : (withNew f dp ip type).dir j ↔
    (createNodes f dp name ip type j).type = .dir := by
  rw [createNodes_type hne]
  rcases eq_or_ne j ip with rfl | hi
  · rw [withNew, make_dir_self, if_pos rfl]
  · rw [withNew, make_dir_ne hi, if_neg hi]
    exact Iff.rfl

theorem createNodes_nlink (hne : ip ≠ dp) (j : Nat) : (createNodes f dp name ip type j).nlink =
      ((withNew f dp ip type).link dp k ip).nlink j := by
  have hdp : dp ≠ ip := hne.symm
  show _ = (withNew f dp ip type).nlink j + (withNew f dp ip type).gain dp ip j
  have hdir : (withNew f dp ip type).dir ip = (type = .dir) := make_dir_self
  rw [gain, hdir]
  rcases eq_or_ne j ip with rfl | hi
  · rw [createNodes_ip hne, withNew, make_nlink_self]
    simp [hdp]
  rw [withNew, make_nlink_ne hi]
  rcases eq_or_ne j dp with rfl | hd
  · rw [createNodes, update_self]
    simp [hne, setNlink, setData, graph]
  · rw [createNodes_ne hi hd]
    simp [hi.symm, hd.symm, graph]

theorem entryOf_createNodes_ip (hne : ip ≠ dp) (hip : ip < 65536) (hdp : dp < 65536) (hi0 : ip ≠ 0)
    (hd0 : dp ≠ 0) : (∀ m, entryOf (createNodes f dp name ip type ip) (m + 2) = none) ∧
      entryOf (createNodes f dp name ip type ip) 1 = if type = .dir then some dp else none := by
  obtain ⟨-, hup, hrest⟩ := DirShape.new hip hdp hi0 hd0
  rw [createNodes_ip hne]
  split
  next hdir =>
    subst hdir
    exact ⟨fun m => entryOf_eq_none.mpr fun _ => hrest m, entryOf_eq_some.mpr ⟨rfl, hd0, hup⟩⟩
  next hdir =>
    exact ⟨fun m => entryOf_eq_none.mpr fun h => absurd h hdir, entryOf_eq_none.mpr fun h => absurd h hdir⟩

section

variable (h : Shaped f) (hd : (f dp).type = .dir) (hfree : f ip = Node.free) (hip : ip < 65536) (hi0 : ip ≠ 0)
include h hd hfree hip hi0

theorem graph_createNodes (htype : type ≠ .free) :
    graph (createNodes f dp name ip type) = (withNew f dp ip type).link dp (newPlace f dp) ip := by
  have hne : ip ≠ dp := by
    rintro rfl
    rw [hfree] at hd
    cases hd
  have hused : (f dp).type ≠ .free := hd ▸ nofun
  obtain ⟨hplaces, hparent⟩ : (∀ m, entryOf (createNodes f dp name ip type ip) (m + 2) = none) ∧ _ :=
    entryOf_createNodes_ip hne hip (h.fits dp hused) hi0 (h.ne_zero hused)
  have hself : entryOf (createNodes f dp name ip type dp) = _ :=
    h.entryOf_new hd hip hi0 ((createNodes_type hne dp).trans (if_neg hne.symm)) createNodes_dp
  refine graph_ext (fun j => ?_) (fun j => (withNew_dir hne j).symm) (createNodes_nlink hne)
    (child_update link_child_ne (by rwa [link_child_self]) fun j hj m => ?_) fun j => ?_
  · show (createNodes f dp name ip type j).type ≠ .free ↔ j = ip ∨ (f j).type ≠ .free
    rw [createNodes_type hne]
    split
    next heq => exact ⟨fun _ => .inl heq, fun _ => htype⟩
    next hj => exact ⟨.inr, fun h => h.resolve_left hj⟩
  · rcases eq_or_ne j ip with rfl | hi
    · rw [hplaces, hfree, entryOf_free]
    · rw [createNodes_ne hi hj]
  · show _ = (withNew f dp ip type).parent j
    rcases eq_or_ne j ip with rfl | hi
    · rw [hparent, withNew, make_parent_self]
    rw [withNew, make_parent_ne hi]
    rcases eq_or_ne j dp with rfl | hj
    · rw [hself, update_of_ne (by omega)]
      rfl
    · rw [createNodes_ne hi hj]
      rfl

theorem Shaped.createNodes (hfresh : findEntry (f dp).data name = none) : Shaped (createNodes f dp name ip type) := by
  have hne : ip ≠ dp := by
    rintro rfl
    rw [hfree] at hd
    cases hd
  have hused : (f dp).type ≠ .free := hd ▸ nofun
  refine ⟨?_, fun i hi => ?_, fun e he => ?_⟩
  · rw [createNodes_type hne, if_neg hi0.symm]
    exact h.zero
  · rw [createNodes_type hne] at hi
    split at hi
    next heq => exact heq ▸ hip
    · exact h.fits i hi
  · rw [createNodes_type hne] at he
    split at he
    next heq =>
      subst heq he
      rw [createNodes_ip hne]
      exact (DirShape.new hip (h.fits dp hused) hi0 (h.ne_zero hused)).1
    next hi =>
      rcases eq_or_ne e dp with rfl | hj
      · rw [createNodes_dp]
        exact (h.shape e he).addEntry (h.dir_ne_zero hd) hip hfresh
      · rw [createNodes_ne hi hj]
        exact h.shape e he

end

/-- `create` adds a vertex and its edge. -/
theorem Creates.grows {path : Name} {cwd : Nat} (hc : Creates sb f cwd path dp name ip) (h : Shaped f)
    (hn : sb.ninodes ≤ 65536) (htype : type ≠ .free) :
    ip ≠ dp ∧ ¬ (graph f).live ip ∧ (withNew f dp ip type).dir dp ∧ Shaped (createNodes f dp name ip type) ∧
      graph (createNodes f dp name ip type) = (withNew f dp ip type).link dp (newPlace f dp) ip := by
  have hip : ip < 65536 := hc.lt.trans_le hn
  have hi0 : ip ≠ 0 := Nat.one_le_iff_ne_zero.mp hc.pos
  have hne : ip ≠ dp := by
    rintro rfl
    have hdir := hc.dir
    rw [hc.wasFree] at hdir
    cases hdir
  exact ⟨hne, fun hlive => hlive (congrArg Node.type hc.wasFree), (make_dir_ne hne.symm).mpr hc.dir,
    h.createNodes hc.dir hc.wasFree hip hi0 hc.fresh, graph_createNodes h hc.dir hc.wasFree hip hi0 htype⟩

end Link

/-! ## The cases of an effect -/

/-- The path at which a call adds an entry. -/
def Call.newPath : Call → Option Name
  | .open path o => if o.creat then argstr path else none
  | .mkdir path => argstr path
  | .mknod path _ _ => argstr path
  | .link _ new => argstr new
  | _ => none

/-- What holds of the nodes and is kept by every way in which the call may change them. -/
theorem Call.Effect.induct {I : (Nat → Node) → Prop} {call : Call} (h : call.Effect sb f cwd g) (hf : I f)
    (hcreate : ∀ path dp name ip type, call.newPath = some path → type ≠ .free →
      Creates sb f cwd path dp name ip → I (createNodes f dp name ip type))
    (hlink : ∀ path old new dp name ip, call.newPath = some path →
      walk f cwd path true = some (dp, name) → Links f cwd old new dp name ip →
      I (linkNodes f dp name ip))
    (hunlink : ∀ path dp k, call = .unlink path → Unlinks f cwd path dp k →
      I (unlinkNodes f dp k (inumAt (f dp).data k))) : I g := by
  have hmake : ∀ path type, call.newPath = some path → type ≠ .free → CreateEffect sb f cwd path type g → I g := by
    rintro path type hp htype (rfl | ⟨dp, name, ip, hc, rfl⟩)
    · exact hf
    · exact hcreate path dp name ip type hp htype hc
  cases call with
  | «open» path o =>
    rcases h with rfl | ⟨hcreat, q, hq, hc⟩
    · exact hf
    · exact hmake q .file ((if_pos hcreat).trans hq) nofun hc
  | mkdir path =>
    rcases h with rfl | ⟨q, hq, hc⟩
    · exact hf
    · exact hmake q .dir hq nofun hc
  | mknod path major minor =>
    rcases h with rfl | ⟨q, hq, hc⟩
    · exact hf
    · exact hmake q .device hq nofun hc
  | link old new =>
    rcases h with rfl | ⟨dp, name, ip, hl, rfl⟩
    · exact hf
    · obtain ⟨q, hq, hw⟩ := hl.target
      exact hlink q old new dp name ip hq hw hl
  | unlink path =>
    rcases h with rfl | ⟨dp, k, hu, rfl⟩
    · exact hf
    · exact hunlink path dp k rfl hu
  | chdir | close | fork | exit =>
    obtain rfl : g = f := h
    exact hf

/-- Inodes that are freed and files that change keep what reaping and `SameTree` keep. -/
theorem Settles.induct {I : (Nat → Node) → Prop} (h : Settles f g) (hf : I f)
    (hreap : ∀ f g, Reaps f g → I f → I g) (hsame : ∀ f g, SameTree f g → I f → I g) : I g := by
  induction h with
  | refl => exact hf
  | tail _ hstep ih =>
    rcases hstep with hstep | hstep
    · exact hreap _ _ hstep ih
    · exact hsame _ _ hstep ih

/-! ## Facts of shaped nodes -/

/-- An entry that is removed comes after `.` and `..`. -/
theorem Unlinks.place {path : Name} (h : Unlinks f cwd path dp k) (hs : Shaped f) :
    ∃ m, k = m + 2 ∧ m + 2 < entryCount (f dp).data ∧ (graph f).child (dp, m) = some (inumAt (f dp).data k) := by
  obtain ⟨p, name, -, -, hfind, hdot, hdotdot⟩ := h.named
  obtain ⟨hlt, hne, hname⟩ := findEntry_eq_some hfind
  have hshape := hs.shape dp h.dir
  have h0 : k ≠ 0 := by
    rintro rfl
    rw [nameEq_left hname hshape.dotName] at hdot
    cases hdot
  have h1 : k ≠ 1 := by
    rintro rfl
    rw [nameEq_left hname hshape.dotdotName] at hdotdot
    cases hdotdot
  obtain ⟨m, rfl⟩ : ∃ m, k = m + 2 := ⟨k - 2, by omega⟩
  exact ⟨m, rfl, hlt, entryOf_eq_some.mpr ⟨h.dir, hne, if_pos hlt⟩⟩

/-- A directory in a graph without loops names itself as `.` and `..` only. -/
theorem Shaped.loopless (h : Shaped f) (hwf : (graph f).WF rootino) : Loopless f := by
  intro d k hd hk
  have hshape := h.shape d hd
  rcases k with _ | _ | k
  · exact .inl hshape.dotName
  · exact .inr hshape.dotdotName
  · exact absurd rfl (hwf.no_loop (d, k) d (entryOf_eq_some.mpr ⟨hd, h.dir_ne_zero hd, hk⟩))

/-- Where the counts bound the weights, they can be changed. -/
theorem counted_of_bounded (hb : (graph (abs sb s).node).Bounded rootino)
    (hfits : ∀ i, ((abs sb s).node i).nlink < 32767) : Counted (abs sb s).node := by
  intro i
  refine ⟨?_, hfits i⟩
  by_cases hi : ((abs sb s).node i).type = .free
  · rw [show (abs sb s).node i = free from nodeOf_of_not (nodeOf_type_free_iff.mp hi)]
    decide
  · exact hb.nonneg hi

end Xv6Lab.FileSys
