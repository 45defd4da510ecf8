import Xv6Lab.FileSys.LinkCalls

/-!
# The calls of a process

The remaining system calls of the file system, which move references between the call, the processes and
the open files: `sys_open`, `sys_mkdir`, `sys_mknod`, `sys_chdir`, `sys_close`, and the parts of `fork` and
`exit` that touch the file system. `Call` is a call with its arguments, `Effect` what it may change in the
nodes, and `Call.prog_spec` says that every call keeps all references accounted for and has one of these
effects, after which inodes without links may be freed and regular files truncated (`Settles`).
-/

namespace Xv6Lab.FileSys

open Function Lib.Exec Lib.Tally

variable {sb : Superblock} {s t u : Fs} {a b c : Abs} {i j ip : Nat} {tmp : Multiset Nat} {X : Prop}
  {p : Fin nproc} {pr : Proc} {f g : Nat → Node} {E : Stop → Prop} {k : Fin nfile} {G : (Nat → Node) → Prop}
  {v : Option Proc} {e : File}

/-! ## Moving references -/

namespace Abs

def setFile (a : Abs) (f : Fin nfile) (e : File) : Abs :=
  { a with ftable := update a.ftable f e }

def setProc (a : Abs) (p : Fin nproc) (v : Option Proc) : Abs :=
  { a with procs := update a.procs p v }

theorem holders_setFile (a : Abs) (f : Fin nfile) (e : File) (i : Nat) :
    (a.setFile f e).holders i + (if (a.ftable f).target = some i then 1 else 0) =
      a.holders i + if e.target = some i then 1 else 0 := by
  have htally := tally_update (g := fun f => (a.ftable f).target) (b := some i) (Finset.mem_univ f) e.target
  have hcomp : (fun f' => ((a.setFile f e).ftable f').target) =
      update (fun f => (a.ftable f).target) f e.target :=
    comp_update File.target a.ftable f e
  unfold holders
  rw [hcomp]
  show tally _ (fun p => (a.procs p).map Proc.cwd) _ + _ + _ = _
  omega

theorem holders_setProc (a : Abs) (p : Fin nproc) (v : Option Proc) (i : Nat) :
    (a.setProc p v).holders i + (if (a.procs p).map Proc.cwd = some i then 1 else 0) =
      a.holders i + if v.map Proc.cwd = some i then 1 else 0 := by
  have htally := tally_update (g := fun p => (a.procs p).map Proc.cwd) (b := some i)
    (Finset.mem_univ p) (v.map Proc.cwd)
  have hcomp : (fun p' => ((a.setProc p v).procs p').map Proc.cwd) =
      update (fun p => (a.procs p).map Proc.cwd) p (v.map Proc.cwd) :=
    comp_update (Option.map Proc.cwd) a.procs p v
  unfold holders
  rw [hcomp]
  show _ + tally _ (fun f => (a.ftable f).target) _ + _ = _
  omega

end Abs

/-- The tables change but not who holds what. -/
theorem Refs.congr (h : Refs X tmp a) (hn : b.node = a.node) (hr : b.ref = a.ref)
    (hv : b.valid = a.valid) (hh : ∀ j, b.holders j = a.holders j)
    (hc : X → ∀ f, (b.ftable f).ref = 0 → (b.ftable f).kind = .none) : Refs X tmp b where
  le := hr ▸ h.le
  exact hX i := by
    rw [hr, hh]
    exact h.exact hX i
  held hX i hi := by
    rw [Abs.Orphan, hn] at hi
    rw [hv, hh]
    exact h.held hX i hi
  used hX i hi := by
    rw [hn]
    exact h.used hX i (hh i ▸ hi)
  closed := hc

/-- A reference of the call is stored in a process or a file. -/
theorem Refs.store (h : Refs X (i ::ₘ tmp) a) (hn : b.node = a.node) (hr : b.ref = a.ref) (hv : b.valid = a.valid)
    (hh : ∀ j, b.holders j = a.holders j + if i = j then 1 else 0) (hi : (a.node i).type ≠ .free)
    (hc : X → ∀ f, (b.ftable f).ref = 0 → (b.ftable f).kind = .none) : Refs X tmp b where
  le j := by
    rw [hr]
    exact (Multiset.count_le_count_cons j i tmp).trans (h.le j)
  exact hX j := by
    have heq := h.exact hX j
    rw [hr, hh, heq, Multiset.count_cons]
    split <;> split <;> omega
  held hX j hj := by
    rw [Abs.Orphan, hn] at hj
    obtain ⟨hval, hpos⟩ := h.held hX j hj
    rw [hv, hh]
    exact ⟨hval, Nat.lt_of_lt_of_le hpos (Nat.le_add_right _ _)⟩
  used hX j hj := by
    rw [hn]
    rcases eq_or_ne i j with rfl | hij
    · exact hi
    · rw [hh, if_neg hij] at hj
      exact h.used hX j hj
  closed := hc

/-- A process or a file gives up a reference, and takes over those of the call. -/
theorem Refs.unstore (h : Refs X tmp a) (hn : b.node = a.node) (hr : b.ref = a.ref) (hv : b.valid = a.valid)
    (hh : ∀ j, b.holders j + (if i = j then 1 else 0) = a.holders j + tmp.count j)
    (hu : ∀ j ∈ tmp, (a.node j).type ≠ .free)
    (hc : X → ∀ f, (b.ftable f).ref = 0 → (b.ftable f).kind = .none) (hX : X) : Loose X 0 i b where
  le j := by
    rw [hr, h.exact hX j, ← hh j, Multiset.count_cons, Multiset.count_zero]
    split <;> split <;> omega
  exact _ j := by
    rw [hr, h.exact hX j, ← hh j, Multiset.count_cons, Multiset.count_zero]
    split <;> split <;> omega
  held _ j hj := by
    rw [Abs.Orphan, hn] at hj
    obtain ⟨hval, hpos⟩ := h.held hX j hj
    rw [hv]
    refine ⟨hval, ?_⟩
    rcases eq_or_ne i j with rfl | hij
    · exact .inr ⟨rfl, Multiset.notMem_zero _⟩
    · have heq := hh j
      rw [if_neg hij] at heq
      exact .inl (by omega)
  used _ j hj := by
    rw [hn]
    by_cases hmem : j ∈ tmp
    · exact hu j hmem
    refine h.used hX j ?_
    have heq := hh j
    rw [Multiset.count_eq_zero_of_notMem hmem] at heq
    omega
  closed := hc

theorem drop_setProc (a : Abs) (i : Nat) (p : Fin nproc) (v : Option Proc) :
    (a.drop i).setProc p v = (a.setProc p v).drop i := by
  have hdies : (a.setProc p v).Dies i ↔ a.Dies i := Iff.rfl
  unfold Abs.drop
  by_cases h : a.Dies i
  · rw [if_pos h, if_pos (hdies.mpr h)]
    rfl
  · rw [if_neg h, if_neg fun hc => h (hdies.mp hc)]
    rfl

/-- The nodes of a run when only regular files change their bytes. -/
def SameTree (f g : Nat → Node) : Prop :=
  ∀ i, (g i).type = (f i).type ∧ (g i).nlink = (f i).nlink ∧ ((f i).type = .dir → (g i).data = (f i).data)

/-- Inodes without links are freed and regular files change their bytes. -/
def Settles : (Nat → Node) → (Nat → Node) → Prop :=
  Relation.ReflTransGen fun f g => Reaps f g ∨ SameTree f g

theorem Reaps.settles (h : Reaps f g) : Settles f g := .single (.inl h)

theorem SameTree.settles (h : SameTree f g) : Settles f g := .single (.inr h)

theorem Still.settles (h : Still X tmp a b) (hX : X) : Settles a.node b.node := by
  rw [h.node hX]
  exact .refl

/-! ## Open files -/

/-- The state with another entry of the file table. -/
def putFile (s : Fs) (k : Fin nfile) (e : File) : Fs :=
  { s with ftable := update s.ftable k e }

/-- The state with another process. -/
def putProc (s : Fs) (p : Fin nproc) (v : Option Proc) : Fs :=
  { s with procs := update s.procs p v }

theorem wp_setFile {Q : Unit → Fs → Prop} : wp (setFile k e) Q E s ↔ Q () (putFile s k e) := wp_modify

theorem wp_setProc {Q : Unit → Fs → Prop} : wp (setProc p v) Q E s ↔ Q () (putProc s p v) := wp_modify

theorem Consistent.putFile (h : Consistent sb s) (k : Fin nfile) (e : File) : Consistent sb (putFile s k e) :=
  ⟨⟨h.blocks.accounts, h.blocks.sized⟩, h.synced, h.marked⟩

theorem Consistent.putProc (h : Consistent sb s) (p : Fin nproc) (v : Option Proc) : Consistent sb (putProc s p v) :=
  ⟨⟨h.blocks.accounts, h.blocks.sized⟩, h.synced, h.marked⟩

theorem abs_putProc (p : Fin nproc) (v : Option Proc) : abs sb (putProc s p v) = (abs sb s).setProc p v := rfl

/-- Files that are not open have no kind. -/
def Closed (a : Abs) : Prop := ∀ k, (a.ftable k).ref = 0 → (a.ftable k).kind = .none

theorem Closed.setFile (h : Closed a) (hc : e.ref = 0 → e.kind = .none) : Closed (a.setFile k e) := by
  intro k' hk'
  have hk' : (update a.ftable k e k').ref = 0 := hk'
  show (update a.ftable k e k').kind = .none
  rcases eq_or_ne k' k with rfl | hne
  · rw [update_self] at hk' ⊢
    exact hc hk'
  · rw [update_of_ne hne] at hk' ⊢
    exact h k' hk'

/-- A file changes that holds the same inode. -/
theorem InCall.putFile (h : InCall sb True tmp s)
    (ht : e.target = (s.ftable k).target) (hc : e.ref = 0 → e.kind = .none) :
    InCall sb True tmp (putFile s k e) := by
  refine ⟨h.consistent.putFile k e, ?_⟩
  refine h.refs.congr rfl rfl rfl (fun j => ?_) fun _ => Closed.setFile (h.refs.closed trivial) hc
  have hh := (abs sb s).holders_setFile k e j
  rw [ht] at hh
  exact Nat.add_right_cancel hh

/-- A process changes that has the same directory. -/
theorem InCall.putProc (h : InCall sb X tmp s)
    (hv : v.map Proc.cwd = (s.procs p).map Proc.cwd) : InCall sb X tmp (putProc s p v) := by
  refine ⟨h.consistent.putProc p v, h.refs.congr rfl rfl rfl (fun j => ?_) h.refs.closed⟩
  have hh := (abs sb s).holders_setProc p v j
  rw [hv] at hh
  exact Nat.add_right_cancel hh

/-- A file gives up its inode. -/
theorem InCall.closeFile (h : InCall sb True 0 s)
    (ht : (s.ftable k).target = some i) (he : e.target = none) (hc : e.kind = .none) :
    Loose True 0 i (abs sb (FileSys.putFile s k e)) := by
  refine h.refs.unstore rfl rfl rfl (fun j => ?_) (fun j hj => absurd hj (Multiset.notMem_zero j))
    (fun _ => Closed.setFile (h.refs.closed trivial) fun _ => hc) trivial
  have hh := (abs sb s).holders_setFile k e j
  have ht : ((abs sb s).ftable k).target = some i := ht
  simp only [ht, he, Option.some_inj, reduceCtorEq, if_false] at hh
  exact hh

/-- `fileclose` gives up the inode of a file that is closed for the last time. -/
theorem fileclose_spec (h : InCall sb True 0 s) (k : Fin nfile) :
    wp (fileclose sb k) (fun _ t => InCall sb True 0 t ∧ Reaps (abs sb s).node (abs sb t).node ∧ t.procs = s.procs)
      Harmless s := by
  rw [fileclose, wp_bind, wp_get]
  dsimp only
  split
  · exact wp_throw.mpr (harmless_panic (by decide) (by decide))
  next hpos =>
  split
  next hmany =>
    refine wp_setFile.mpr ⟨h.putFile rfl fun h0 => ?_, .refl _, rfl⟩
    have h0 : (s.ftable k).ref - 1 = 0 := h0
    omega
  next hone =>
    rw [wp_bind, wp_setFile]
    split
    next hkind =>
      -- the file held the inode: the call holds it until `iput`
      have hloose := h.closeFile (k := k) (e := { s.ftable k with ref := 0, kind := .none }) (if_pos hkind) rfl rfl
      refine wp_then (hloose.iput (h.consistent.putFile k _)) ?_
      rintro - t ⟨ht, habs⟩
      refine wp_post ht.endOp ?_
      rintro - u ⟨hu, habsu⟩
      refine ⟨hu, ?_, ?_⟩
      · rw [habsu, habs]
        exact reaps_drop _ _
      · exact (congrArg Abs.procs (habsu.trans habs)).trans (drop_procs _ _).1
    next hkind =>
      have htarget : (s.ftable k).target = none := if_neg hkind
      exact wp_pure.mpr ⟨h.putFile htarget.symm fun _ => rfl, .refl _, rfl⟩

/-- `filealloc` takes a file that holds nothing. -/
theorem filealloc_spec (h : InCall sb True tmp s) :
    wp filealloc
      (fun r t => r = none ∧ t = s ∨ ∃ k, r = some k ∧ InCall sb True tmp t ∧
        t = putFile s k (t.ftable k) ∧ (t.ftable k).ref = 1 ∧ (t.ftable k).kind = .none) E s := by
  rw [filealloc, wp_bind, wp_get]
  split
  · exact wp_pure.mpr (.inl ⟨rfl, rfl⟩)
  next k hk =>
  have h0 : (s.ftable k).ref = 0 := by
    have hfound := List.find?_some hk
    exact of_decide_eq_true hfound
  have hkind := h.refs.closed trivial k h0
  have hself : (putFile s k { s.ftable k with ref := 1 }).ftable k = { s.ftable k with ref := 1 } :=
    update_self ..
  rw [wp_bind, wp_setFile]
  refine wp_pure.mpr (.inr ⟨k, rfl, h.putFile rfl fun h1 => absurd h1 one_ne_zero, ?_, ?_, ?_⟩)
  · rw [hself]
  · rw [hself]
  · rw [hself]
    exact hkind

/-- `sys_open` stores its reference in the file. -/
theorem sysOpenFile_spec {o : OpenMode} {fd : Fin nofile} (h : InCall sb True {ip} s)
    (hv : (s.icache ip).valid = true) (hk : (s.ftable k).ref ≠ 0) (hkind : (s.ftable k).target = none) :
    wp (sysOpenFile sb ip o k fd)
      (fun _ t => InCall sb True 0 t ∧ Settles (abs sb s).node (abs sb t).node) Harmless s := by
  have hused := h.consistent.used_of_valid hv
  have hstore : ∀ e : File, e.ref = (s.ftable k).ref → e.target = some ip → InCall sb True 0 (putFile s k e) := by
    intro e hr ht
    refine ⟨h.consistent.putFile k e, ?_⟩
    refine Refs.store (i := ip) h.refs rfl rfl rfl (fun j => ?_) hused
      fun _ => Closed.setFile (h.refs.closed trivial) fun h0 => absurd (hr ▸ h0) hk
    have hh := (abs sb s).holders_setFile k e j
    have hkind : ((abs sb s).ftable k).target = none := hkind
    simp only [ht, hkind, Option.some_inj, reduceCtorEq, if_false] at hh
    exact hh
  rw [sysOpenFile, wp_bind, wp_get]
  rw [wp_bind, wp_setFile]
  generalize he : ({ (if (s.icache ip).ip.type = .device
      then { s.ftable k with kind := .device, major := (s.icache ip).ip.major }
      else { s.ftable k with kind := .inode, off := 0 } : File) with
    ip := ip, readable := !o.wronly, writable := o.wronly || o.rdwr } : File) = e
  have hin : InCall sb True 0 (putFile s k e) := by
    refine hstore e ?_ ?_ <;> rw [← he]
    · split <;> rfl
    · split <;> rfl
  split
  next htrunc =>
    have hvt : ((putFile s k e).icache ip).valid = true := hv
    refine wp_seq (itrunc_spec (hin.consistent.held hvt)) (fun _ he => he.harmless) ?_
    rintro - t ht
    have habs := ht.abs_eq hin.consistent hvt
    have hin' : InCall sb True 0 t := by
      refine ⟨ht.consistent, habs ▸ hin.refs.setNode ?_ fun _ h0 => ?_⟩
      · exact hin.consistent.used_of_valid hvt
      · exact ⟨hin.consistent.used_of_valid hvt, h0⟩
    refine wp_then hin'.endOp ?_
    rintro - u ⟨hu, habsu⟩
    refine wp_pure.mpr ⟨hu, SameTree.settles fun j => ?_⟩
    rw [habsu, habs]
    rcases eq_or_ne j ip with rfl | hj
    · rw [node_setNode_self]
      refine ⟨rfl, rfl, fun hdir => ?_⟩
      have hfile : ((abs sb s).node j).type = .file := by
        rw [h.consistent.node_eq hv]
        exact htrunc.2
      rw [hfile] at hdir
      cases hdir
    · rw [node_setNode_ne hj]
      exact ⟨rfl, rfl, fun _ => rfl⟩
  · refine wp_then hin.endOp ?_
    rintro - u ⟨hu, habsu⟩
    refine wp_pure.mpr ⟨hu, ?_⟩
    rw [habsu]
    exact .refl

/-- `fileclose` of a file that was just allocated. -/
theorem fileclose_unused (h : InCall sb True tmp s) (hr : (s.ftable k).ref = 1) (hkind : (s.ftable k).kind = .none) :
    wp (fileclose sb k) (fun _ t => InCall sb True tmp t ∧ (abs sb t).node = (abs sb s).node) E s := by
  have htarget : (s.ftable k).target = none := by
    rw [File.target, hkind]
    rfl
  rw [fileclose, wp_bind, wp_get]
  rw [if_neg (by omega), if_neg (by omega), wp_bind, wp_setFile, if_neg]
  · exact wp_pure.mpr ⟨h.putFile htarget.symm fun _ => rfl, rfl⟩
  · rw [hkind]
    exact fun hc => hc.elim nofun nofun

theorem fdalloc_spec (p : Fin nproc) (pr : Proc) (k : Fin nfile) :
    wp (fdalloc p pr k)
      (fun r t => r = none ∧ t = s ∨ ∃ fd, r = some fd ∧
        t = putProc s p (some { pr with ofile := update pr.ofile fd (some k) })) E s := by
  unfold fdalloc
  split
  · exact wp_pure.mpr (.inl ⟨rfl, rfl⟩)
  next fd _ =>
    rw [wp_bind, wp_setProc]
    exact wp_pure.mpr (.inr ⟨fd, rfl, rfl⟩)

/-- `sys_open` of a locked inode. -/
theorem sysOpenInode_spec {o : OpenMode} (h : InCall sb True {ip} s)
    (hv : (s.icache ip).valid = true) (hp : s.procs p = some pr) :
    wp (sysOpenInode sb p pr ip o)
      (fun _ t => InCall sb True 0 t ∧ Settles (abs sb s).node (abs sb t).node) Harmless s := by
  have hbad : ∀ {t : Fs}, InCall sb True {ip} t → (abs sb t).node = (abs sb s).node → wp (do iput sb ip; fail)
        (fun _ t => InCall sb True 0 t ∧ Settles (abs sb s).node (abs sb t).node) Harmless t := by
    intro t ht hnode
    refine wp_post (iputFail_spec (s := t) ht .refl) ?_
    rintro - u ⟨hu, hst⟩
    exact ⟨hu, hnode ▸ hst.settles trivial⟩
  rw [sysOpenInode, wp_bind, wp_inode]
  split
  · exact hbad h rfl
  refine wp_then (filealloc_spec h) ?_
  rintro r t (⟨rfl, rfl⟩ | ⟨k, rfl, ht, hput, hr, hkind⟩)
  · exact hbad h rfl
  have hnode : (abs sb t).node = (abs sb s).node := by
    rw [hput]
    rfl
  have htarget : (t.ftable k).target = none := by
    rw [File.target, hkind]
    rfl
  have hpt : t.procs p = some pr := by
    rw [hput]
    exact hp
  refine wp_then (fdalloc_spec p pr k) ?_
  rintro r u (⟨rfl, rfl⟩ | ⟨fd, rfl, rfl⟩)
  · -- no descriptor is free: the file is given back
    refine wp_then (fileclose_unused ht hr hkind) ?_
    rintro - v ⟨hv, hnodev⟩
    exact hbad hv (hnodev.trans hnode)
  have hin : InCall sb True {ip} (putProc t p (some { pr with ofile := update pr.ofile fd (some k) })) := by
    refine ht.putProc ?_
    rw [hpt]
    rfl
  have hvt : (t.icache ip).valid = true := by
    rw [hput]
    exact hv
  refine wp_post (sysOpenFile_spec hin hvt ?_ htarget) ?_
  · show (t.ftable k).ref ≠ 0
    omega
  · rintro - v ⟨hv, hset⟩
    exact ⟨hv, hnode ▸ hset⟩

/-! ## The calls -/

/-- The references and nodes at the end of a call whose change of the nodes is in `G`. -/
def Ends (sb : Superblock) (G : (Nat → Node) → Prop) (t : Fs) : Prop :=
  InCall sb True 0 t ∧ ∃ g, G g ∧ Settles g (abs sb t).node

/-- The nodes do not change, or an inode is created. -/
def CreateEffect (sb : Superblock) (f : Nat → Node) (cwd : Nat) (path : Name) (type : FileType)
    (g : Nat → Node) : Prop :=
  g = f ∨ ∃ dp name ip, Creates sb f cwd path dp name ip ∧ g = createNodes f dp name ip type

theorem Created.effect {cwd : Nat} {path : Name} {type : FileType} {r : Option Nat}
    (h : Created sb True s cwd path type r t) :
    r = none ∧ Ends sb (CreateEffect sb (abs sb s).node cwd path type) t ∨
      ∃ ip, r = some ip ∧ InCall sb True {ip} t ∧ (t.icache ip).valid = true ∧ t.procs = s.procs ∧
        ∃ g, CreateEffect sb (abs sb s).node cwd path type g ∧ Settles g (abs sb t).node := by
  rcases h with ⟨rfl, ht, hedit⟩ | ⟨ip, rfl, ht, hv, hedit⟩
  · exact .inl ⟨rfl, ht, _, .inl rfl, (hedit trivial).reaps.settles⟩
  refine .inr ⟨ip, rfl, ht, hv, ?_⟩
  rcases hedit trivial with hedit | ⟨dp, name, hc, hedit⟩
  · exact ⟨hedit.procs, _, .inl rfl, hedit.reaps.settles⟩
  · exact ⟨hedit.procs, _, .inr ⟨dp, name, ip, hc, rfl⟩, hedit.reaps.settles⟩

theorem Ends.still (hG : G (abs sb s).node) (ht : InCall sb True 0 t)
    (hst : Still True tmp (abs sb s) (abs sb t)) : Ends sb G t :=
  ⟨ht, _, hG, hst.settles trivial⟩

theorem Ends.same (hG : G (abs sb s).node) (h : InCall sb True 0 s) :
    Ends sb G s := ⟨h, _, hG, .refl⟩

/-- The end of a failed call. -/
theorem Ends.fail (h : Ends sb G s) : wp fail (fun _ t => Ends sb G t) E s := by
  obtain ⟨hin, g, hg, hset⟩ := h
  refine wp_post hin.fail ?_
  rintro - t ⟨ht, habs⟩
  exact ⟨ht, g, hg, habs ▸ hset⟩

/-- `sys_open`. -/
theorem sysOpen_spec (h : InCall sb True 0 s) (hp : s.procs p = some pr)
    (hc : Counted (abs sb s).node) (path : Name) (o : OpenMode) :
    wp (sysOpen sb p pr path o)
      (fun _ t => Ends sb (fun g => g = (abs sb s).node ∨ o.creat = true ∧ ∃ q, argstr path = some q ∧
        CreateEffect sb (abs sb s).node pr.cwd q .file g) t)
      (Stops (Sound True (abs sb s).node pr.cwd)) s := by
  rw [sysOpen]
  cases hq : argstr path with
  | none => exact wp_pure.mpr (.same (.inl rfl) h)
  | some q =>
    dsimp only
    split
    next hcreat =>
      refine wp_then (create_spec h (fun _ => hc) pr.cwd q (by decide) 0 0) ?_
      intro r t hr
      rcases hr.effect with ⟨rfl, ht, g, hg, hset⟩ | ⟨ip, rfl, ht, hv, hprocs, g, hg, hset⟩
      · exact Ends.fail ⟨ht, g, .inr ⟨hcreat, q, rfl, hg⟩, hset⟩
      · refine wp_post (wp_stops (sysOpenInode_spec ht hv (hprocs ▸ hp))) ?_
        rintro - u ⟨hu, hset'⟩
        exact ⟨hu, g, .inr ⟨hcreat, q, rfl, hg⟩, hset.trans hset'⟩
    · refine wp_then (namex_spec h pr.cwd q false) ?_
      rintro (_ | ⟨ip, n⟩) t hr
      · exact Ends.fail (.still (.inl rfl) hr.inCall hr.still)
      refine wp_then hr.ilock ?_
      rintro - u ⟨hu, hstill, hv⟩
      rw [wp_bind, wp_inode]
      split
      · refine wp_post (wp_stops (iputFail_spec hu hstill)) ?_
        rintro - v ⟨hv, hst'⟩
        exact .still (.inl rfl) hv hst'
      have hpu : u.procs p = some pr := (congrFun hstill.procs p).trans hp
      refine wp_post (wp_stops (sysOpenInode_spec hu hv hpu)) ?_
      rintro - v ⟨hv, hset⟩
      exact ⟨hv, _, .inl rfl, (hstill.settles trivial).trans hset⟩

/-- `sys_mkdir` and `sys_mknod`. -/
theorem sysMake_spec (h : InCall sb True 0 s) (hc : Counted (abs sb s).node) (cwd : Nat) (path : Name)
    {type : FileType} (htype : type ≠ .free) (major minor : Int) :
    wp (sysMake sb cwd path type major minor)
      (fun _ t => Ends sb (fun g => g = (abs sb s).node ∨ ∃ q, argstr path = some q ∧
        CreateEffect sb (abs sb s).node cwd q type g) t)
      (Stops (Sound True (abs sb s).node cwd)) s := by
  rw [sysMake]
  cases hq : argstr path with
  | none => exact Ends.fail (.same (.inl rfl) h)
  | some q =>
    refine wp_then (create_spec h (fun _ => hc) cwd q htype major minor) ?_
    intro r t hr
    rcases hr.effect with ⟨rfl, ht, g, hg, hset⟩ | ⟨ip, rfl, ht, hv, hprocs, g, hg, hset⟩
    · exact Ends.fail ⟨ht, g, .inr ⟨q, rfl, hg⟩, hset⟩
    refine wp_then (wp_stops (InCall.iput ht)) ?_
    rintro - u ⟨hu, hst⟩
    refine wp_then hu.endOp ?_
    rintro - v ⟨hv, habs⟩
    refine wp_pure.mpr ⟨hv, g, .inr ⟨q, rfl, hg⟩, ?_⟩
    rw [habs]
    exact hset.trans (hst.settles trivial)

/-- A process leaves its directory, for that of the call or for none. -/
theorem InCall.leave (h : InCall sb True tmp s) (hp : s.procs p = some pr)
    (hv : ∀ j, (if v.map Proc.cwd = some j then 1 else 0) = tmp.count j)
    (hu : ∀ j ∈ tmp, ((abs sb s).node j).type ≠ .free) :
    wp (do FileSys.iput sb pr.cwd; FileSys.endOp; setProc p v)
      (fun _ t => InCall sb True 0 t ∧ Reaps (abs sb s).node (abs sb t).node) Harmless s := by
  have hloose : Loose True 0 pr.cwd ((abs sb s).setProc p v) := by
    refine h.refs.unstore rfl rfl rfl (fun j => ?_) hu h.refs.closed trivial
    have hh := (abs sb s).holders_setProc p v j
    have hp : (abs sb s).procs p = some pr := hp
    rw [hp, hv j] at hh
    simp only [Option.map_some, Option.some_inj] at hh
    exact hh
  refine wp_then (iput_spec h.consistent pr.cwd) ?_
  rintro - t ⟨ht, habs, -⟩
  refine wp_bind.mpr (wp_modify.mpr (wp_setProc.mpr ?_))
  have hafter : abs sb (FileSys.putProc { t with logged := ∅ } p v) = ((abs sb s).setProc p v).drop pr.cwd := by
    rw [← drop_setProc, ← habs]
    rfl
  refine ⟨⟨(ht.setLogged ∅).putProc p v, hafter ▸ hloose.drop⟩, ?_⟩
  rw [hafter]
  exact reaps_drop ((abs sb s).setProc p v) pr.cwd

/-- `sys_chdir`. -/
theorem sysChdir_spec (h : InCall sb True 0 s) (hp : s.procs p = some pr) (path : Name) :
    wp (sysChdir sb p pr path) (fun _ t => Ends sb (· = (abs sb s).node) t)
      (Stops (Sound True (abs sb s).node pr.cwd)) s := by
  rw [sysChdir]
  cases argstr path with
  | none => exact Ends.fail (.same rfl h)
  | some q =>
    refine wp_then (namex_spec h pr.cwd q false) ?_
    rintro (_ | ⟨ip, n⟩) t hr
    · exact Ends.fail (.still rfl hr.inCall hr.still)
    refine wp_then hr.ilock ?_
    rintro - u ⟨hu, hstill, hv⟩
    rw [wp_bind, wp_inode]
    split
    · refine wp_post (wp_stops (iputFail_spec hu hstill)) ?_
      rintro - v ⟨hv, hst'⟩
      exact .still rfl hv hst'
    have hpu : u.procs p = some pr := (congrFun hstill.procs p).trans hp
    have hu : InCall sb True {ip} u := hu
    have hleave := hu.leave (v := some { pr with cwd := ip }) hpu (fun j => ?_) fun j hj => ?_
    · simp only [← bind_assoc] at hleave ⊢
      refine wp_then (wp_stops hleave) ?_
      rintro - v ⟨hv, hreaps⟩
      exact wp_pure.mpr ⟨hv, _, rfl, (hstill.settles trivial).trans hreaps.settles⟩
    · rw [Multiset.count_singleton]
      simp only [Option.map_some, Option.some_inj, eq_comm]
    · rw [Multiset.mem_singleton.mp hj]
      exact hu.consistent.used_of_valid hv

/-- `sys_close`. -/
theorem sysClose_spec (h : InCall sb True 0 s) (hp : s.procs p = some pr) (fd : Fin nofile) :
    wp (sysClose sb p pr fd) (fun _ t => Ends sb (· = (abs sb s).node) t) Harmless s := by
  unfold sysClose
  split
  · exact wp_pure.mpr (.same rfl h)
  next k _ =>
  rw [wp_bind, wp_setProc]
  have hin : InCall sb True 0 (putProc s p (some { pr with ofile := update pr.ofile fd none })) := by
    refine h.putProc ?_
    rw [hp]
    rfl
  refine wp_then (fileclose_spec hin k) ?_
  rintro - t ⟨ht, hreaps, -⟩
  exact wp_pure.mpr ⟨ht, _, rfl, hreaps.settles⟩

/-- The files of a child. -/
theorem dupFiles_spec (pr : Proc) (fds : List (Fin nofile)) : ∀ {s : Fs}, InCall sb True 0 s → wp (dupFiles pr fds)
      (fun _ t => InCall sb True 0 t ∧ (abs sb t).node = (abs sb s).node ∧ t.procs = s.procs)
      Harmless s := by
  induction fds with
  | nil => exact fun h => wp_pure.mpr ⟨h, rfl, rfl⟩
  | cons fd fds ih =>
    intro s h
    unfold dupFiles
    split
    · exact ih h
    next k _ =>
    rw [filedup, bind_assoc, wp_bind, wp_get]
    split
    · exact wp_throw.mpr (harmless_panic (by decide) (by decide))
    next hpos =>
    rw [wp_bind, wp_setFile]
    refine wp_post (ih (h.putFile rfl fun h0 => absurd h0 (Nat.succ_ne_zero _))) ?_
    rintro - t ⟨ht, hnode, hprocs⟩
    exact ⟨ht, hnode, hprocs⟩

/-- `fork`. -/
theorem kfork_spec {q : Fin nproc} (h : InCall sb True 0 s) (hp : s.procs p = some pr) (hq : s.procs q = none) :
    wp (kfork pr q) (fun _ t => Ends sb (· = (abs sb s).node) t) Harmless s := by
  rw [kfork]
  refine wp_then (dupFiles_spec pr (List.finRange nofile) h) ?_
  rintro - t ⟨ht, hnode, hprocs⟩
  refine wp_then (ht.idup pr.cwd) ?_
  rintro cwd u ⟨rfl, hu, hst⟩
  have hproc : (abs sb u).procs = s.procs := hst.procs.trans hprocs
  have hheld : 0 < (abs sb u).holders pr.cwd := Abs.holders_cwd (hproc ▸ hp)
  refine wp_setProc.mpr ⟨⟨hu.consistent.putProc q _, ?_⟩, _, rfl, ?_⟩
  · refine Refs.store hu.refs rfl rfl rfl (fun j => ?_) (hu.refs.used trivial _ hheld) hu.refs.closed
    have hh := (abs sb u).holders_setProc q (some { pr with cwd := pr.cwd }) j
    rw [hproc, hq] at hh
    simp only [Option.map_none, Option.map_some, reduceCtorEq, if_false, Option.some_inj] at hh
    exact hh
  · rw [abs_putProc]
    show Settles _ (abs sb u).node
    rw [hst.node trivial, hnode]
    exact .refl

/-- `exit` closes the files of the process. -/
theorem closeFiles_spec (fds : List (Fin nofile)) : ∀ {s : Fs} {pr : Proc}, InCall sb True 0 s →
    s.procs p = some pr →
    wp (closeFiles sb p fds pr)
      (fun r t => InCall sb True 0 t ∧ Settles (abs sb s).node (abs sb t).node ∧ t.procs p = some r)
      Harmless s := by
  induction fds with
  | nil => exact fun h hp => wp_pure.mpr ⟨h, .refl, hp⟩
  | cons fd fds ih =>
    intro s pr h hp
    unfold closeFiles
    split
    · exact ih h hp
    next k _ =>
    refine wp_then (fileclose_spec h k) ?_
    rintro - t ⟨ht, hreaps, hprocs⟩
    rw [wp_bind, wp_setProc]
    have hin : InCall sb True 0 (putProc t p (some { pr with ofile := update pr.ofile fd none })) := by
      refine ht.putProc ?_
      rw [hprocs, hp]
      rfl
    refine wp_post (ih hin (update_self ..)) ?_
    rintro r u ⟨hu, hset, hpu⟩
    exact ⟨hu, hreaps.settles.trans hset, hpu⟩

/-- `exit`. -/
theorem kexit_spec (h : InCall sb True 0 s) (hp : s.procs p = some pr) :
    wp (kexit sb p pr) (fun _ t => Ends sb (· = (abs sb s).node) t) Harmless s := by
  rw [kexit]
  refine wp_then (closeFiles_spec (List.finRange nofile) h hp) ?_
  rintro pr' t ⟨ht, hset, hpt⟩
  refine wp_post (ht.leave (v := none) hpt (fun j => ?_) fun j hj => absurd hj (Multiset.notMem_zero j)) ?_
  · simp
  · rintro - u ⟨hu, hreaps⟩
    exact ⟨hu, _, rfl, hset.trans hreaps.settles⟩

/-! ## Runs of calls -/

/-- A system call of a process. `fork` names the free slot that the child gets. -/
inductive Call where
  | open (path : Name) (o : OpenMode)
  | mkdir (path : Name)
  | mknod (path : Name) (major minor : Int)
  | link (old new : Name)
  | unlink (path : Name)
  | chdir (path : Name)
  | close (fd : Fin nofile)
  | fork (q : Fin nproc)
  | exit

/-- The program of a call of process `p`, without its result. -/
def Call.prog (sb : Superblock) (p : Fin nproc) (pr : Proc) : Call → FsM Unit
  | .open path o => (fun _ => ()) <$> sysOpen sb p pr path o
  | .mkdir path => (fun _ => ()) <$> sysMkdir sb pr.cwd path
  | .mknod path major minor => (fun _ => ()) <$> sysMknod sb pr.cwd path major minor
  | .link old new => (fun _ => ()) <$> sysLink sb pr.cwd old new
  | .unlink path => (fun _ => ()) <$> sysUnlink sb pr.cwd path
  | .chdir path => (fun _ => ()) <$> sysChdir sb p pr path
  | .close fd => (fun _ => ()) <$> sysClose sb p pr fd
  | .fork q => kfork pr q
  | .exit => kexit sb p pr

/-- A child gets a slot that is not in use. -/
def Call.Enabled (s : Fs) : Call → Prop
  | .fork q => (s.procs q).isNone = true
  | _ => True

instance Call.decidableEnabled (s : Fs) (c : Call) : Decidable (c.Enabled s) :=
  match c with
  | .fork _ => inferInstanceAs (Decidable (_ = true))
  | .open .. | .mkdir _ | .mknod .. | .link .. | .unlink _ | .chdir _ | .close _ | .exit =>
    inferInstanceAs (Decidable True)

/-- A call of a process. -/
def callStep (sb : Superblock) (s : Fs) (pc : Fin nproc × Call) : Option Fs :=
  match s.procs pc.1 with
  | none => none
  | some pr => if pc.2.Enabled s then after (pc.2.prog sb pc.1 pr) s else none

/-- What a call by a process in directory `cwd` may do to the nodes. -/
def Call.Effect (sb : Superblock) (f : Nat → Node) (cwd : Nat) : Call → (Nat → Node) → Prop
  | .open path o, g => g = f ∨ o.creat = true ∧ ∃ q, argstr path = some q ∧
      CreateEffect sb f cwd q .file g
  | .mkdir path, g => g = f ∨ ∃ q, argstr path = some q ∧ CreateEffect sb f cwd q .dir g
  | .mknod path _ _, g => g = f ∨ ∃ q, argstr path = some q ∧ CreateEffect sb f cwd q .device g
  | .link old new, g => g = f ∨ ∃ dp name ip, Links f cwd old new dp name ip ∧
      g = linkNodes f dp name ip
  | .unlink path, g => g = f ∨ ∃ dp k, Unlinks f cwd path dp k ∧
      g = unlinkNodes f dp k (inumAt (f dp).data k)
  | _, g => g = f

/-- Every call keeps the references accounted for and has its effect; where no entry dangles it does not
meet an inode that is not in use. -/
theorem Call.prog_spec {call : Call} (h : InCall sb True 0 s) (hp : s.procs p = some pr)
    (he : call.Enabled s) (hc : Counted (abs sb s).node) (hl : Loopless (abs sb s).node) :
    wp (call.prog sb p pr) (fun _ t => Ends sb (call.Effect sb (abs sb s).node pr.cwd) t)
      (Stops (Sound True (abs sb s).node pr.cwd)) s := by
  cases call with
  | «open» path o => exact wp_map.mpr (sysOpen_spec h hp hc path o)
  | mkdir path => exact wp_map.mpr (sysMake_spec h hc pr.cwd path (by decide) 0 0)
  | mknod path major minor => exact wp_map.mpr (sysMake_spec h hc pr.cwd path (by decide) _ _)
  | link old new =>
    refine wp_map.mpr (wp_post (sysLink_spec h (fun _ => hc) pr.cwd old new) ?_)
    rintro - t ⟨ht, hedit⟩
    rcases hedit trivial with hedit | ⟨dp, name, ip, hl, hedit⟩
    · exact ⟨ht, _, .inl rfl, hedit.reaps.settles⟩
    · exact ⟨ht, _, .inr ⟨dp, name, ip, hl, rfl⟩, hedit.reaps.settles⟩
  | unlink path =>
    refine wp_map.mpr (wp_post (sysUnlink_spec h (fun _ => ⟨hc, hl⟩) pr.cwd path) ?_)
    rintro - t ⟨ht, hedit⟩
    rcases hedit trivial with hedit | ⟨dp, k, hu, hedit⟩
    · exact ⟨ht, _, .inl rfl, hedit.reaps.settles⟩
    · exact ⟨ht, _, .inr ⟨dp, k, hu, rfl⟩, hedit.reaps.settles⟩
  | chdir path => exact wp_map.mpr (sysChdir_spec h hp path)
  | close fd =>
    exact wp_map.mpr (wp_stops (sysClose_spec h hp fd))
  | fork q =>
    exact wp_stops (kfork_spec h hp (Option.isNone_iff_eq_none.mp he))
  | exit => exact wp_stops (kexit_spec h hp)

/-- A call of a run, with its effect. -/
theorem callStep_effect {pc : Fin nproc × Call} (h : InCall sb True 0 s) (hc : Counted (abs sb s).node)
    (hl : Loopless (abs sb s).node) (ht : callStep sb s pc = some t) :
    ∃ pr, s.procs pc.1 = some pr ∧ Ends sb (pc.2.Effect sb (abs sb s).node pr.cwd) t := by
  unfold callStep at ht
  split at ht
  · cases ht
  next pr hp =>
    obtain ⟨he, ht⟩ := Option.ite_none_right_eq_some.mp ht
    exact ⟨pr, hp, wp_after (Call.prog_spec h hp he hc hl) (fun _ _ hr => hr) ht⟩

end Xv6Lab.FileSys
