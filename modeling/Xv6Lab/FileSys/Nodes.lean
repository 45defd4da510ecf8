import Xv6Lab.FileSys.Contents

/-!
# The file system as nodes

What directories and system calls see of the file system: a node for each inode in use, with its type,
its link count and its bytes, and the reference counts of the inode table. `abs` forgets blocks and
the log. Each operation of the inode layer is one function on nodes: `iget_spec`, `ilock_spec`,
`iput_spec`, `ialloc_spec` and `iupdate_spec` say which, and that the file system stays consistent.
-/

namespace Xv6Lab.FileSys

open Function Lib.Exec Lib.Accounting Lib.Segments FileSys MemInode

variable {sb : Superblock} {s t : Fs} {i j : Nat} {P P' : Prop} {e : MemInode} {d : Dinode}

/-! ## Nodes -/

/-- An inode as directories see it. -/
structure Node where
  type : FileType
  nlink : Int
  data : List UInt8
  deriving DecidableEq

def Node.setNlink (n : Node) (z : Int) : Node := ⟨n.type, z, n.data⟩

def Node.setData (n : Node) (data : List UInt8) : Node := ⟨n.type, n.nlink, data⟩

/-- An inode that is not in use. -/
def Node.free : Node := ⟨.free, 0, []⟩

/-- The state that directories and system calls see. -/
@[ext] structure Abs where
  node : Nat → Node
  ref : Nat → Nat
  valid : Nat → Bool
  ftable : Fin nfile → File
  procs : Fin nproc → Option Proc

namespace Abs

def setNode (a : Abs) (i : Nat) (n : Node) : Abs := { a with node := update a.node i n }

/-- The entry of inode `i` in the inode table changes. -/
def put (a : Abs) (i : Nat) (ref : Nat) (valid : Bool) : Abs :=
  { a with ref := update a.ref i ref, valid := update a.valid i valid }

/-- A new reference; an entry that comes into the table is not loaded. -/
def hold (a : Abs) (i : Nat) : Abs := a.put i (a.ref i + 1) (a.valid i && decide (0 < a.ref i))

/-- A copy of a reference. -/
def dup (a : Abs) (i : Nat) : Abs := a.put i (a.ref i + 1) (a.valid i)

/-- The inode is loaded. -/
def load (a : Abs) (i : Nat) : Abs := a.put i (a.ref i) true

/-- A reference is given up; an entry without references leaves the table. -/
def unref (a : Abs) (i : Nat) : Abs := a.put i (a.ref i - 1) (a.valid i && decide (a.ref i ≠ 1))

/-- The reference that is given up is the last one to an inode without links. -/
def Dies (a : Abs) (i : Nat) : Prop :=
  a.ref i = 1 ∧ a.valid i = true ∧ (a.node i).nlink = 0

instance (a : Abs) (i : Nat) : Decidable (a.Dies i) := inferInstanceAs (Decidable (_ ∧ _))

/-- A reference is given up, and with it the inode if it dies. -/
def drop (a : Abs) (i : Nat) : Abs :=
  if a.Dies i then (a.setNode i Node.free).unref i else a.unref i

end Abs

/-- The node of an inode. -/
def nodeOf (sb : Superblock) (s : Fs) (i : Nat) : Node :=
  if Allocated sb s i then ⟨(view s i).type, (view s i).nlink, content sb s i⟩ else Node.free

def abs (sb : Superblock) (s : Fs) : Abs where
  node := nodeOf sb s
  ref i := (s.icache i).ref
  valid i := (s.icache i).valid
  ftable := s.ftable
  procs := s.procs

theorem Allocated.nodeOf_eq (h : Allocated sb s i) :
    nodeOf sb s i = ⟨(view s i).type, (view s i).nlink, content sb s i⟩ := if_pos h

theorem nodeOf_of_not (h : ¬ Allocated sb s i) : nodeOf sb s i = Node.free := if_neg h

/-- A node is free exactly when its type says so. -/
theorem nodeOf_type_free_iff : (nodeOf sb s i).type = .free ↔ ¬ Allocated sb s i := by
  constructor
  · intro h ha
    rw [ha.nodeOf_eq] at h
    exact ha.2 h
  · intro h
    rw [nodeOf_of_not h]
    rfl

theorem nodeOf_congr (hv : view t i = view s i) (hc : content sb t i = content sb s i) :
    nodeOf sb t i = nodeOf sb s i := by
  rw [nodeOf, nodeOf, hv, hc]
  exact if_congr (allocated_congr (by rw [hv])) rfl rfl

/-- The nodes depend on what the kernel sees of inodes and on the blocks. -/
theorem nodeOf_eq_of_view (hv : ∀ j, view t j = view s j) (hb : t.block = s.block) : nodeOf sb t = nodeOf sb s :=
  funext fun j => nodeOf_congr (hv j) (content_congr (hv j) hb)

/-- The file system stays consistent when the kernel sees the same inodes. -/
theorem Consistent.of_view (h : Consistent sb s) (hv : ∀ j, view t j = view s j)
    (hb : t.block = s.block) (hbit : t.bitmap = s.bitmap) (hs : ∀ j, Synced sb t j) :
    Consistent sb t := by
  have hslot : ∀ x, slot sb t x = slot sb s x := fun x => slot_eq_of_view (hv _) hb
  refine ⟨⟨h.blocks.accounts.congr (fun _ _ _ => by rw [hbit]) hslot, fun j hj n hn => ?_⟩, hs, ?_⟩
  · rw [hv j] at hn
    rw [fileBlock, hslot]
    exact h.blocks.sized j ((allocated_congr (by rw [hv j])).mp hj) n hn
  · intro b hb'
    rw [hbit]
    exact h.marked b hb'

/-! ## References -/

/-- A stop that is neither the double free of a block nor the use of an inode that is not in use. -/
def Harmless (e : Stop) : Prop :=
  e ≠ .panic "freeing free block" ∧ e ≠ .panic "ilock: no type" ∧ e ≠ .wild

theorem harmless_panic {msg : String} (h : msg ≠ "freeing free block")
    (h' : msg ≠ "ilock: no type") : Harmless (.panic msg) :=
  ⟨fun he => h (Stop.panic.inj he), fun he => h' (Stop.panic.inj he), Stop.noConfusion⟩

theorem TooBig.harmless {n : Nat} {e : Stop} (h : TooBig n e) : Harmless e := by
  rw [h.1]
  exact harmless_panic (by decide) (by decide)

/-- A stop that is not the double free of a block, and that is harmless if `P`. -/
def Stops (P : Prop) (e : Stop) : Prop := e ≠ .panic "freeing free block" ∧ (P → Harmless e)

theorem Harmless.stops {e : Stop} (h : Harmless e) : Stops P e := ⟨h.1, fun _ => h⟩

/-- Harmless stops satisfy every condition. -/
theorem wp_stops {α : Type} {x : FsM α} {Q : α → Fs → Prop} (h : wp x Q Harmless s) : wp x Q (Stops P) s :=
  wp_mono h (fun _ _ hq => hq) fun _ he => he.stops

theorem Stops.mono {e : Stop} (h : Stops P e) (hp : P' → P) : Stops P' e := ⟨h.1, fun hx => h.2 (hp hx)⟩

/-- The state with another entry of the inode table. -/
def putEntry (s : Fs) (i : Nat) (e : MemInode) (used : Nat) : Fs :=
  { s with icache := update s.icache i e, used := used }

theorem putEntry_self (e : MemInode) (used : Nat) : (putEntry s i e used).icache i = e :=
  update_self ..

theorem putEntry_ne (e : MemInode) (used : Nat) (h : j ≠ i) :
    (putEntry s i e used).icache j = s.icache j := update_of_ne h ..

/-- An entry of the table may change if what it holds agrees with the disk. -/
theorem Consistent.putEntry (h : Consistent sb s) (used : Nat)
    (he : e.valid = true → e.ip = s.dinode i ∧ (s.dinode i).type ≠ .free ∧ i < sb.ninodes) :
    Consistent sb (putEntry s i e used) ∧ nodeOf sb (putEntry s i e used) = nodeOf sb s := by
  have hsync : ∀ j, Synced sb (FileSys.putEntry s i e used) j := by
    intro j
    unfold Synced
    rcases eq_or_ne j i with rfl | hj
    · rw [putEntry_self]
      exact he
    · rw [putEntry_ne e used hj]
      exact h.synced j
  have hview : ∀ j, view (FileSys.putEntry s i e used) j = view s j := fun j =>
    (hsync j).view_eq.trans (h.synced j).view_eq.symm
  exact ⟨h.of_view hview rfl rfl hsync, nodeOf_eq_of_view hview rfl⟩

/-- What the table shows after an entry changed. -/
theorem abs_putEntry (used : Nat) (hn : nodeOf sb (putEntry s i e used) = nodeOf sb s) :
    abs sb (putEntry s i e used) = (abs sb s).put i e.ref e.valid :=
  Abs.ext hn (Function.comp_update ref s.icache i e) (Function.comp_update valid s.icache i e) rfl rfl

/-- The inode table has no entry left. -/
def NoInodes (s : Fs) (e : Stop) : Prop := e = .panic "iget: no inodes" ∧ ninode ≤ s.used

theorem NoInodes.harmless {e : Stop} (h : NoInodes s e) : Harmless e := by
  rw [h.1]
  exact harmless_panic (by decide) (by decide)

/-- `iget` takes a reference. -/
theorem iget_spec (h : Consistent sb s) (i : Nat) :
    wp (iget i) (fun r t => r = i ∧ Consistent sb t ∧ abs sb t = (abs sb s).hold i) (NoInodes s) s := by
  rw [iget, wp_bind, wp_get]
  split
  next hpos =>
    rw [wp_bind, wp_setEntry]
    obtain ⟨hc, hn⟩ := h.putEntry (i := i) (e := { s.icache i with ref := (s.icache i).ref + 1 }) s.used (h.synced i)
    refine wp_pure.mpr ⟨rfl, hc, (abs_putEntry s.used hn).trans ?_⟩
    refine congrArg ((abs sb s).put i _) ?_
    show (s.icache i).valid = ((s.icache i).valid && decide (0 < (s.icache i).ref))
    rw [decide_eq_true hpos, Bool.and_true]
  next hzero =>
    split
    next hused => exact wp_throw.mpr ⟨rfl, hused⟩
    · rw [wp_bind, wp_setEntry, wp_bind, wp_modify]
      obtain ⟨hc, hn⟩ := h.putEntry (i := i) (e := { s.icache i with ref := 1, valid := false }) (s.used + 1) nofun
      refine wp_pure.mpr ⟨rfl, hc, (abs_putEntry (s.used + 1) hn).trans ?_⟩
      refine congrArg₂ ((abs sb s).put i) ?_ ?_
      · show 1 = (s.icache i).ref + 1
        omega
      · show false = ((s.icache i).valid && decide (0 < (s.icache i).ref))
        rw [decide_eq_false hzero, Bool.and_false]

/-- `iget` writes nothing. -/
theorem iget_logged (s : Fs) (i : Nat) : wp (iget i) (fun _ t => t.logged = s.logged) (fun _ => True) s := by
  rw [iget, wp_bind, wp_get]
  split
  · rw [wp_bind, wp_setEntry]
    exact wp_pure.mpr rfl
  split
  · exact wp_throw.mpr trivial
  · rw [wp_bind, wp_setEntry, wp_bind, wp_modify]
    exact wp_pure.mpr rfl

/-- `idup` copies a reference. -/
theorem idup_spec (h : Consistent sb s) (i : Nat) :
    wp (idup i) (fun r t => r = i ∧ Consistent sb t ∧ abs sb t = (abs sb s).dup i) Harmless s := by
  rw [idup, wp_bind, wp_get, wp_bind, wp_setEntry]
  obtain ⟨hc, hn⟩ := h.putEntry (i := i) (e := { s.icache i with ref := (s.icache i).ref + 1 }) s.used (h.synced i)
  exact wp_pure.mpr ⟨rfl, hc, abs_putEntry s.used hn⟩

/-- `ilock` loads the inode; it stops on an inode that is not in use. -/
theorem ilock_spec (h : Consistent sb s) (i : Nat) :
    wp (ilock sb i) (fun _ t => Consistent sb t ∧ abs sb t = (abs sb s).load i ∧ (t.icache i).valid = true)
      (Stops ((abs sb s).node i ≠ Node.free)) s := by
  rw [ilock, wp_bind, wp_get]
  split
  · exact wp_throw.mpr (harmless_panic (by decide) (by decide)).stops
  split
  next hv =>
    refine wp_pure.mpr ⟨h, Abs.ext rfl ?_ ?_ rfl rfl, hv⟩
    · exact (update_eq_self i _).symm
    · have hval : (abs sb s).valid i = true := hv
      show (abs sb s).valid = update (abs sb s).valid i true
      rw [← hval, update_eq_self]
  next hv =>
    have hview : view s i = s.dinode i := if_neg hv
    split
    next hge =>
      refine wp_throw.mpr ⟨Stop.noConfusion, fun hused => absurd (nodeOf_of_not fun ha => ?_) hused⟩
      exact absurd ha.1 (not_lt.mpr hge)
    next hlt =>
    rw [wp_bind, wp_setEntry]
    split
    next hfree =>
      refine wp_throw.mpr ⟨by decide, fun hused => absurd (nodeOf_of_not fun ha => ha.2 ?_) hused⟩
      rw [hview, hfree]
    next hused =>
    obtain ⟨hc, hn⟩ := h.putEntry (i := i) (e := { s.icache i with valid := true, ip := s.dinode i }) s.used
      fun _ => ⟨rfl, hused, not_le.mp hlt⟩
    exact wp_pure.mpr ⟨hc, abs_putEntry s.used hn, congrArg valid (putEntry_self _ s.used)⟩

/-- The end of `iput`. -/
theorem iputRef_spec (h : Consistent sb s) (i : Nat) :
    wp (iputRef i) (fun _ t => Consistent sb t ∧ abs sb t = (abs sb s).unref i) (fun _ => False) s := by
  rw [iputRef, wp_bind, wp_get]
  dsimp only
  split
  next hone =>
    rw [wp_bind, wp_setEntry, wp_modify]
    obtain ⟨hc, hn⟩ := h.putEntry (i := i) (e := { s.icache i with ref := 0, valid := false }) (s.used - 1) nofun
    refine ⟨hc, (abs_putEntry (s.used - 1) hn).trans (congrArg₂ ((abs sb s).put i) ?_ ?_)⟩
    · show 0 = (s.icache i).ref - 1
      rw [hone]
    · show false = ((s.icache i).valid && decide ((s.icache i).ref ≠ 1))
      rw [decide_eq_false (not_not.mpr hone), Bool.and_false]
  next hne =>
    rw [wp_setEntry]
    obtain ⟨hc, hn⟩ := h.putEntry (i := i) (e := { s.icache i with ref := (s.icache i).ref - 1 }) s.used (h.synced i)
    refine ⟨hc, (abs_putEntry s.used hn).trans (congrArg ((abs sb s).put i _) ?_)⟩
    show (s.icache i).valid = ((s.icache i).valid && decide ((s.icache i).ref ≠ 1))
    rw [decide_eq_true hne, Bool.and_true]

/-! ## Freeing and allocating inodes -/

/-- The slots of an inode without block numbers are empty. -/
theorem slot_eq_zero {x : Slot} (hz : ∀ k ≤ ndirect, (view s x.owner).addrs k = 0) : slot sb s x = 0 := by
  cases x with
  | direct i k =>
    rw [slot]
    split
    next h => exact hz k h.2
    · rfl
  | indirect i j => exact if_neg fun h => h.2.2 (hz ndirect le_rfl)

/-- The slots of an inode that is not in use are empty. -/
theorem slot_eq_zero_of_not {x : Slot} (h : ¬ Allocated sb s x.owner) : slot sb s x = 0 := by
  by_contra hne
  exact h (allocated_of_slot hne)

/-- The state in which inode `i` on disk is `d` and is not in the table. -/
def putDinode (sb : Superblock) (s : Fs) (i : Nat) (d : Dinode) (e : MemInode) (used : Nat) : Fs :=
  putEntry { s with
    dinode := update s.dinode i d, logged := insert (iblock sb i) s.logged } i e used

theorem view_putDinode_ne {used : Nat} (hj : j ≠ i) : view (putDinode sb s i d e used) j = view s j := by
  unfold view putDinode
  rw [putEntry_ne e used hj]
  exact congrArg (fun d => if (s.icache j).valid = true then (s.icache j).ip else d) (update_of_ne hj _ _)

/-- An inode without blocks is replaced by another one without blocks. -/
theorem Consistent.putDinode (h : Consistent sb s) (used : Nat) (hz : ∀ x : Slot, x.owner = i → slot sb s x = 0)
    (hd : ∀ k ≤ ndirect, d.addrs k = 0) (hsize : d.size = 0) (he : e.valid = false) :
    Consistent sb (putDinode sb s i d e used) ∧ nodeOf sb (putDinode sb s i d e used) = update (nodeOf sb s) i
        (if i < sb.ninodes ∧ d.type ≠ .free then ⟨d.type, d.nlink, []⟩ else Node.free) := by
  have hself : view (FileSys.putDinode sb s i d e used) i = d := by
    unfold view FileSys.putDinode
    rw [putEntry_self, he]
    exact update_self _ _ _
  have hne : ∀ j ≠ i, view (FileSys.putDinode sb s i d e used) j = view s j :=
    fun j hj => view_putDinode_ne hj
  have hslot : ∀ x, slot sb (FileSys.putDinode sb s i d e used) x = slot sb s x := by
    intro x
    rcases eq_or_ne x.owner i with ho | ho
    · rw [hz x ho]
      refine slot_eq_zero fun k hk => ?_
      rw [ho, hself]
      exact hd k hk
    · exact slot_eq_of_view (hne _ ho) rfl
  refine ⟨⟨⟨h.blocks.accounts.congr (fun _ _ _ => rfl) hslot, fun j hj n hn => ?_⟩, fun j => ?_,
    h.marked⟩, funext fun j => ?_⟩
  · rcases eq_or_ne j i with rfl | hji
    · rw [hself, hsize] at hn
      exact absurd hn (Nat.not_lt_zero _)
    · rw [hne j hji] at hn
      rw [fileBlock, hslot]
      exact h.blocks.sized j ((allocated_congr (by rw [hne j hji])).mp hj) n hn
  · rcases eq_or_ne j i with rfl | hji
    · have hval : ((putDinode sb s j d e used).icache j).valid = false :=
        (congrArg valid (putEntry_self e used)).trans he
      rw [Synced, hval]
      exact fun hv => absurd hv Bool.false_ne_true
    · have hic : (FileSys.putDinode sb s i d e used).icache j = s.icache j := putEntry_ne e used hji
      have hdi : (FileSys.putDinode sb s i d e used).dinode j = s.dinode j :=
        update_of_ne hji _ _
      rw [Synced, hic, hdi]
      exact h.synced j
  · rcases eq_or_ne j i with rfl | hji
    · rw [update_self, nodeOf, hself, content, hself, hsize, seg_zero]
      refine if_congr ?_ rfl rfl
      rw [Allocated, hself]
    · rw [update_of_ne hji]
      exact nodeOf_congr (hne j hji) (content_congr (hne j hji) rfl)

/-- The nodes and the table after inode `i` was freed. -/
theorem abs_freed {u : Fs} {used : Nat} (hothers : ∀ j ≠ i, nodeOf sb t j = nodeOf sb s j)
    (hic : ∀ j ≠ i, t.icache j = s.icache j) (hfr : t.ftable = s.ftable ∧ t.procs = s.procs)
    (hdies : (abs sb s).Dies i) (hu : u = putDinode sb t i d e used) (he : e.ref = 0 ∧ e.valid = false)
    (hn : nodeOf sb u = update (nodeOf sb t) i Node.free) : abs sb u = (abs sb s).drop i := by
  rw [Abs.drop, if_pos hdies]
  have hic' : ∀ j, u.icache j = update s.icache i e j := by
    intro j
    rw [hu]
    rcases eq_or_ne j i with rfl | hj
    · exact (putEntry_self e used).trans (update_self j e s.icache).symm
    · exact (putEntry_ne e used hj).trans ((hic j hj).trans (update_of_ne hj _ _).symm)
  refine Abs.ext ?_ ?_ ?_ ?_ ?_
  · refine hn.trans (funext fun j => ?_)
    show _ = update (nodeOf sb s) i Node.free j
    rcases eq_or_ne j i with rfl | hj
    · rw [update_self, update_self]
    · rw [update_of_ne hj, update_of_ne hj, hothers j hj]
  · have href : (abs sb s).ref i - 1 = e.ref := by rw [hdies.1, he.1]
    refine (funext fun j => congrArg ref (hic' j)).trans ?_
    refine (comp_update ref s.icache i e).trans ?_
    exact congrArg (update (abs sb s).ref i) href.symm
  · have hval : ((abs sb s).valid i && decide ((abs sb s).ref i ≠ 1)) = e.valid := by
      rw [decide_eq_false (not_not.mpr hdies.1), Bool.and_false, he.2]
    refine (funext fun j => congrArg valid (hic' j)).trans ?_
    refine (comp_update valid s.icache i e).trans ?_
    exact congrArg (update (abs sb s).valid i) hval.symm
  · rw [hu]
    exact hfr.1
  · rw [hu]
    exact hfr.2

/-- The end of `iput` for an inode that dies, once its blocks are freed. -/
theorem iputFree_spec (hd : d = { (t.icache i).ip with type := .free }) (hone : (t.icache i).ref = 1) :
    wp (do modifyInode i (fun ip => { ip with type := .free }); iupdate sb i; iputRef i)
      (fun _ u => u = putDinode sb t i d { ref := 0, valid := false, ip := d } (t.used - 1))
      Harmless t := by
  refine wp_modify_iupdate (fun _ he => he.harmless) ?_
  rw [← hd, iputRef, wp_bind, wp_get, storeInode_icache_self]
  rw [if_pos hone, wp_bind, wp_setEntry, wp_modify]
  simp [storeInode, putDinode, putEntry]

/-- `iput` of the last reference to an inode without links frees it. -/
theorem iput_spec (h : Consistent sb s) (i : Nat) :
    wp (iput sb i)
      (fun _ t => Consistent sb t ∧ abs sb t = (abs sb s).drop i ∧
        ((abs sb s).Dies i → t.block = s.block ∧ ∀ j ≠ i, view t j = view s j)) Harmless s := by
  have hnlink : (s.icache i).valid = true → ((abs sb s).node i).nlink = (s.icache i).ip.nlink := by
    intro hv
    rw [← view_of_valid hv]
    exact congrArg Node.nlink (h.held hv).allocated.nodeOf_eq
  rw [iput, wp_bind, wp_get]
  dsimp only
  split
  next hdies =>
    obtain ⟨hone, hv, h0⟩ := hdies
    refine wp_seq (itrunc_spec (h.held hv)) (fun _ he => he.harmless) fun _ t ht => ?_
    obtain ⟨a, hz, ha⟩ := ht.self
    obtain ⟨-, hothers⟩ := ht.contents hv
    have haddrs : ∀ k ≤ ndirect, (t.icache i).ip.addrs k = 0 := by
      rw [ha]
      exact hz
    have hview : view t i = (t.icache i).ip := view_of_valid (ha ▸ hv)
    refine wp_post (iputFree_spec rfl (ha ▸ hone)) ?_
    rintro - u hu
    obtain ⟨hc, hn⟩ := ht.consistent.putDinode (i := i) (t.used - 1) (d := { (t.icache i).ip with type := .free })
      (e := { ref := 0, valid := false, ip := { (t.icache i).ip with type := .free } })
      (fun x hx => slot_eq_zero fun k hk => by rw [hx, hview]; exact haddrs k hk) haddrs
      (by rw [ha]) rfl
    rw [← hu, if_neg fun hc => hc.2 rfl] at hn
    refine ⟨hu ▸ hc, abs_freed (fun j hj => ?_) (fun j hj => (ht.others j hj).1) ?_
      ⟨hone, hv, (hnlink hv).trans h0⟩ hu ⟨rfl, rfl⟩ hn, fun _ => ⟨?_, fun j hj => ?_⟩⟩
    · exact nodeOf_congr (hothers j hj).1 (hothers j hj).2
    · rw [ht.frame]
      exact ⟨rfl, rfl⟩
    · have hblock : t.block = s.block := by rw [ht.frame]
      rw [hu]
      exact hblock
    · rw [hu, view_putDinode_ne hj]
      exact (hothers j hj).1
  next hlives =>
    have hnot : ¬ (abs sb s).Dies i := by
      rintro ⟨hone, hv, h0⟩
      exact hlives ⟨hone, hv, (hnlink hv).symm.trans h0⟩
    refine wp_mono (iputRef_spec h i) ?_ fun _ he => he.elim
    rintro - t ⟨hc, ht⟩
    exact ⟨hc, ht.trans (if_neg hnot).symm, fun hdies => absurd hdies hnot⟩

/-- The outcome of `ialloc`: a free inode that is now in use, or none. -/
structure Ialloc (sb : Superblock) (type : FileType) (s : Fs) (i : Nat) (t : Fs) : Prop where
  pos : 1 ≤ i
  lt : i < sb.ninodes
  wasFree : (abs sb s).node i = Node.free
  consistent : Consistent sb t
  abs_eq : abs sb t = ((abs sb s).setNode i ⟨type, 0, []⟩).hold i

theorem iallocLoop_spec (h : Consistent sb s) {type : FileType} (htype : type ≠ .free) (k : Nat) :
    ∀ inum, 1 ≤ inum → inum + k ≤ sb.ninodes →
    wp (iallocLoop sb type k inum)
      (fun r t => r = none ∧ t = s ∨ ∃ i, r = some i ∧ Ialloc sb type s i t) Harmless s := by
  induction k with
  | zero => exact fun _ _ _ => wp_pure.mpr (.inl ⟨rfl, rfl⟩)
  | succ k ih =>
    intro i hpos hle
    rw [iallocLoop, wp_bind, wp_get]
    split
    next hfree =>
      have hlt : i < sb.ninodes := by omega
      have hnot : ¬ Allocated sb s i := by
        intro ha
        exact ha.2 ((h.synced i).view_eq ▸ hfree)
      have hinv : (s.icache i).valid = false := by
        by_contra hv
        exact (h.synced i (by simpa using hv)).2.1 hfree
      obtain ⟨hc, hn⟩ := h.putDinode (i := i) (e := s.icache i) s.used
        (d := { type := type, major := 0, minor := 0, nlink := 0, size := 0, addrs := fun _ => 0 })
        (fun x hx => slot_eq_zero_of_not (by rwa [hx])) (fun _ _ => rfl) rfl hinv
      rw [if_pos ⟨hlt, htype⟩] at hn
      rw [putDinode, putEntry, update_eq_self] at hc hn
      rw [wp_bind, wp_setDinode, wp_bind]
      refine wp_mono (wp_logWrite (n := s.logged.card) le_rfl ?_) (fun _ _ hx => hx) fun _ he => he.harmless
      refine wp_seq (iget_spec hc i) (fun _ he => he.harmless) ?_
      rintro _ t ⟨rfl, hct, ht⟩
      refine wp_pure.mpr (.inr ⟨_, rfl, hpos, hlt, nodeOf_of_not hnot, hct, ht.trans ?_⟩)
      exact congrArg (Abs.hold · _) (Abs.ext hn rfl rfl rfl rfl)
    · exact ih (i + 1) (by omega) (by omega)

/-- `ialloc` takes a free inode. -/
theorem ialloc_spec (h : Consistent sb s) {type : FileType} (htype : type ≠ .free) :
    wp (ialloc sb type) (fun r t => r = none ∧ t = s ∨ ∃ i, r = some i ∧ Ialloc sb type s i t) Harmless s := by
  rcases Nat.eq_zero_or_pos sb.ninodes with h0 | hpos
  · rw [ialloc, h0]
    exact wp_pure.mpr (.inl ⟨rfl, rfl⟩)
  · exact iallocLoop_spec h htype (sb.ninodes - 1) 1 le_rfl (by omega)

/-! ## Changing a node -/

/-- The nodes after only inode `i` changed. -/
theorem abs_setNode {n : Node} (hself : nodeOf sb t i = n) (hne : ∀ j ≠ i, nodeOf sb t j = nodeOf sb s j)
    (href : ∀ j, (t.icache j).ref = (s.icache j).ref ∧ (t.icache j).valid = (s.icache j).valid)
    (hf : t.ftable = s.ftable) (hp : t.procs = s.procs) :
    abs sb t = (abs sb s).setNode i n := by
  refine Abs.ext (funext fun j => ?_) (funext fun j => (href j).1) (funext fun j => (href j).2) hf hp
  show nodeOf sb t j = update (nodeOf sb s) i n j
  rcases eq_or_ne j i with rfl | hj
  · rw [update_self, hself]
  · rw [update_of_ne hj, hne j hj]

/-- An inode is written back with another link count. -/
theorem Consistent.storeNlink (h : Consistent sb s) (hv : (s.icache i).valid = true)
    (hd : (d.type, d.size) = ((s.icache i).ip.type, (s.icache i).ip.size)) (ha : d.addrs = (s.icache i).ip.addrs) :
    Consistent sb (storeInode sb s i d) ∧
      abs sb (storeInode sb s i d) = (abs sb s).setNode i (((abs sb s).node i).setNlink d.nlink) := by
  obtain ⟨htype, hsize⟩ := Prod.mk.inj hd
  have hheld := h.held hv
  have hview : view s i = (s.icache i).ip := view_of_valid hv
  refine ⟨hheld.storeInode htype ha fun n hn => h.blocks.sized i hheld.allocated n ?_, ?_⟩
  · rw [hview, ← hsize]
    exact hn
  refine abs_setNode ?_ (fun j hj => ?_) (fun j => ?_) rfl rfl
  · have hal : Allocated sb (storeInode sb s i d) i := by
      refine (allocated_congr ?_).mpr hheld.allocated
      rw [view_storeInode_self, hview, htype]
    have hc : content sb (storeInode sb s i d) i = content sb s i := by
      rw [content, content, view_storeInode_self, hview, hsize]
      exact seg_congr fun k _ => hheld.fileByte_storeInode htype ha i _
    show nodeOf sb _ i = (nodeOf sb s i).setNlink d.nlink
    rw [hal.nodeOf_eq, hheld.allocated.nodeOf_eq, hc, view_storeInode_self, hview, htype]
    rfl
  · refine nodeOf_congr (view_storeInode_ne hj) ?_
    rw [content, content, view_storeInode_ne hj]
    exact seg_congr fun k _ => hheld.fileByte_storeInode htype ha j _
  · rcases eq_or_ne j i with rfl | hj
    · rw [storeInode_icache_self]
      exact ⟨rfl, rfl⟩
    · rw [storeInode_icache_ne hj]
      exact ⟨rfl, rfl⟩

/-- The bytes of the node of a locked inode. -/
theorem Consistent.node_eq (h : Consistent sb s) (hv : (s.icache i).valid = true) :
    (abs sb s).node i = ⟨(s.icache i).ip.type, (s.icache i).ip.nlink, content sb s i⟩ := by
  show nodeOf sb s i = _
  rw [(h.held hv).allocated.nodeOf_eq, view_of_valid hv]

/-- A write changes the bytes of one node. -/
theorem Written.abs_eq {src : Source} {off n : Nat} {r : Int} (hw : Written sb i src off n s r t)
    (h : Consistent sb s) (hv : (s.icache i).valid = true) :
    (t.icache i).valid = true ∧ abs sb t = (abs sb s).setNode i (((abs sb s).node i).setData (content sb t i)) := by
  obtain ⟨size, a, ha⟩ := hw.self
  have htv : (t.icache i).valid = true := by
    rw [ha]
    exact hv
  have hview : ∀ j ≠ i, view t j = view s j := fun j hj => by
    rw [view, view, (hw.others j hj).1, (hw.others j hj).2]
  refine ⟨htv, abs_setNode ?_ (fun j hj => ?_) (fun j => ?_) ?_ ?_⟩
  · rw [h.node_eq hv]
    refine (hw.consistent.node_eq htv).trans ?_
    rw [ha]
    rfl
  · by_cases hal : Allocated sb s j
    · exact nodeOf_congr (hview j hj) (hw.contents j hj hal)
    · rw [nodeOf_of_not hal, nodeOf_of_not fun hc => hal ((allocated_congr (by rw [hview j hj])).mp hc)]
  · rcases eq_or_ne j i with rfl | hj
    · rw [ha]
      exact ⟨rfl, rfl⟩
    · rw [(hw.others j hj).1]
      exact ⟨rfl, rfl⟩
  · rw [hw.frame]
  · rw [hw.frame]

/-- Truncation empties one node. -/
theorem Truncated.abs_eq (ht : Truncated sb i s t) (h : Consistent sb s) (hv : (s.icache i).valid = true) :
    abs sb t = (abs sb s).setNode i (((abs sb s).node i).setData []) := by
  obtain ⟨a, -, ha⟩ := ht.self
  obtain ⟨hempty, hothers⟩ := ht.contents hv
  have htv : (t.icache i).valid = true := by
    rw [ha]
    exact hv
  refine abs_setNode ?_ (fun j hj => nodeOf_congr (hothers j hj).1 (hothers j hj).2) (fun j => ?_) ?_ ?_
  · rw [h.node_eq hv]
    refine (ht.consistent.node_eq htv).trans ?_
    rw [hempty, ha]
    rfl
  · rcases eq_or_ne j i with rfl | hj
    · rw [ha]
      exact ⟨rfl, rfl⟩
    · rw [(ht.others j hj).1]
      exact ⟨rfl, rfl⟩
  · rw [ht.frame]
  · rw [ht.frame]

end Xv6Lab.FileSys
