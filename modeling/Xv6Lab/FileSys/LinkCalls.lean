import Xv6Lab.FileSys.Paths

/-!
# The calls that add and remove entries

`create`, `sys_link` and `sys_unlink` as changes of nodes. A call that fails changes no node; a call
that succeeds makes one change, `createNodes`, `linkNodes` or `unlinkNodes`, after which inodes without
links may be freed (`create_spec`, `sysLink_spec`, `sysUnlink_spec`). What a call does to the nodes is
said under the condition `X` that reference counts are exact; without it the specifications still say
that the file system stays consistent.
-/

namespace Xv6Lab.FileSys

open Function Lib.Exec Multiset

variable {sb : Superblock} {s t u : Fs} {a b c : Abs} {i j d dp ip : Nat} {tmp : Multiset Nat}
  {X P : Prop} {name : Name} {f g : Nat → Node} {z : Int} {k : Nat}

/-! ## Steps of the calls -/

/-- `dirlink` writes an entry or changes nothing. -/
theorem InCall.dirlink (h : InCall sb X tmp s) (hv : (s.icache d).valid = true) (name : Name) (inum : Nat) :
    wp (dirlink sb d name inum)
      (fun r t => ((abs sb s).node d).type = .dir ∧ InCall sb X tmp t ∧
        (r = true ∧ findEntry ((abs sb s).node d).data name = none ∧ abs sb t = (abs sb s).setNode d
            (((abs sb s).node d).setData (addEntry ((abs sb s).node d).data inum name)) ∨
        r = false ∧ Still X tmp (abs sb s) (abs sb t))) Harmless s := by
  rw [FileSys.dirlink]
  refine wp_then (h.dirlookup hv name) ?_
  rintro r t ⟨hdir, ⟨k, -, rfl, ht, hst, -⟩ | ⟨hnone, rfl, rfl⟩⟩
  · refine wp_then ht.iput ?_
    rintro - u ⟨hu, hst'⟩
    exact wp_pure.mpr ⟨hdir, hu, .inr ⟨rfl, hst.trans hst'⟩⟩
  refine wp_mono (dirlinkWrite_spec h.consistent hv name inum) ?_ fun e he => he.elim
    (fun ht => ht.harmless (by decide) (by decide)) fun ht => ht.harmless
  rintro r u ⟨hu, ⟨rfl, habs⟩ | ⟨rfl, habs⟩⟩
  · refine ⟨hdir, ⟨hu, habs ▸ h.refs.setNode ?_ fun _ h0 => ?_⟩, .inl ⟨rfl, hnone, habs⟩⟩
    · exact h.consistent.used_of_valid hv
    · exact ⟨h.consistent.used_of_valid hv, h0⟩
  · exact ⟨hdir, ⟨hu, habs ▸ h.refs⟩, .inr ⟨rfl, habs ▸ .refl⟩⟩

/-- A change of link count and device numbers that is written back. -/
theorem storeNlink_spec (h : Consistent sb s) (hv : (s.icache i).valid = true) {g : Dinode → Dinode}
    {n : Int} (hg : ∀ ip, (g ip).type = ip.type ∧ (g ip).size = ip.size ∧ (g ip).addrs = ip.addrs)
    (hn : (g (s.icache i).ip).nlink = n) :
    wp (do modifyInode i g; iupdate sb i)
      (fun _ t => Consistent sb t ∧ abs sb t = (abs sb s).setNode i (((abs sb s).node i).setNlink n)) Harmless s := by
  refine wp_mono (modify_iupdate_spec sb s i g) ?_ fun _ he => he.harmless
  rintro - t rfl
  obtain ⟨htype, hsize, haddrs⟩ := hg (s.icache i).ip
  obtain ⟨hc, habs⟩ := h.storeNlink hv (Prod.ext htype hsize) haddrs
  exact ⟨hc, hn ▸ habs⟩

theorem addNlink_spec (h : Consistent sb s) (hv : (s.icache i).valid = true) (n : Int) :
    wp (addNlink sb i n)
      (fun _ t => Consistent sb t ∧ abs sb t = (abs sb s).setNode i
        (((abs sb s).node i).setNlink (toShort (((abs sb s).node i).nlink + n)))) Harmless s := by
  refine storeNlink_spec h hv (fun ip => ⟨rfl, rfl, rfl⟩) ?_
  rw [h.node_eq hv]

/-- A link count that fits is stored as it is. -/
theorem toShort_of_range (hlo : -32768 ≤ z) (hhi : z < 32768) : toShort z = z := by
  unfold toShort
  rw [Int.bmod_eq_of_le] <;> omega

theorem InCall.swap (h : InCall sb X {i, j} s) : InCall sb X {j, i} s := by
  rw [pair_comm]
  exact h

theorem InCall.endOp {E : Stop → Prop} (h : InCall sb X tmp s) :
    wp endOp (fun _ t => InCall sb X tmp t ∧ abs sb t = abs sb s) E s :=
  wp_modify.mpr ⟨⟨h.consistent.setLogged ∅, h.refs⟩, rfl⟩

theorem InCall.fail {E : Stop → Prop} (h : InCall sb X tmp s) :
    wp fail (fun _ t => InCall sb X tmp t ∧ abs sb t = abs sb s) E s :=
  wp_then h.endOp fun _ _ ht => wp_pure.mpr ht

/-- A call that fails gives up its reference. -/
theorem iputFail_spec (h : InCall sb X (i ::ₘ tmp) t) (hst : Still X tmp (abs sb s) (abs sb t)) :
    wp (do iput sb i; fail) (fun _ u => InCall sb X tmp u ∧ Still X tmp (abs sb s) (abs sb u))
      Harmless t := by
  refine wp_then h.iput ?_
  rintro - u ⟨hu, hst'⟩
  refine wp_post hu.fail ?_
  rintro - v ⟨hv, habs⟩
  exact ⟨hv, hst.trans (habs ▸ hst')⟩

/-- `iput` of an inode that may have lost its last link. -/
theorem Loose.iput (h : Loose X tmp i (abs sb s)) (hc : Consistent sb s) :
    wp (iput sb i) (fun _ t => InCall sb X tmp t ∧ abs sb t = (abs sb s).drop i) Harmless s := by
  refine wp_post (iput_spec hc i) ?_
  rintro - t ⟨ht, habs, -⟩
  exact ⟨⟨ht, habs ▸ h.drop⟩, habs⟩

theorem setNode_setNode (a : Abs) (i : Nat) (m n : Node) : (a.setNode i m).setNode i n = a.setNode i n := by
  refine Abs.ext ?_ rfl rfl rfl rfl
  exact update_idem (α := Nat) m n a.node

/-! ## What a call changes -/

/-- The nodes become `g`, except that inodes without links may be freed. -/
structure Edited (g : Nat → Node) (a b : Abs) : Prop where
  reaps : Reaps g b.node
  ftable : b.ftable = a.ftable
  procs : b.procs = a.procs

theorem Edited.refl (a : Abs) : Edited a.node a a := ⟨.refl _, rfl, rfl⟩

theorem Edited.setNode (h : Edited g a b) (i : Nat) (n : Node) : Edited (update g i n) a (b.setNode i n) :=
  ⟨h.reaps.update i n, h.ftable, h.procs⟩

theorem Edited.drop (h : Edited g a b) (i : Nat) : Edited g a (b.drop i) :=
  ⟨h.reaps.trans (reaps_drop b i), (drop_procs b i).2.trans h.ftable, (drop_procs b i).1.trans h.procs⟩

theorem Still.edited (h : Still X tmp a b) (hX : X) : Edited a.node a b :=
  ⟨h.node hX ▸ .refl _, h.ftable, h.procs⟩

/-- A call that fails before it has changed anything gives up its reference. -/
theorem iputFail_edited {Q : Fs → Prop} (h : InCall sb X (i ::ₘ tmp) t) (hst : Still X tmp (abs sb s) (abs sb t)) :
    wp (do iput sb i; fail) (fun _ u => InCall sb X tmp u ∧ (X → Edited (abs sb s).node (abs sb s) (abs sb u) ∨ Q u))
      Harmless t := by
  refine wp_post (iputFail_spec h hst) ?_
  rintro - u ⟨hu, hst'⟩
  exact ⟨hu, fun hX => .inl (hst'.edited hX)⟩

theorem Edited.still (h : Edited g a b) (hst : Still X tmp b c) (hX : X) : Edited g a c :=
  ⟨hst.node hX ▸ h.reaps, hst.ftable.trans h.ftable, hst.procs.trans h.procs⟩

theorem Still.edited_trans (h : Still X tmp a b) (hg : Edited g b c) : Edited g a c :=
  ⟨hg.reaps, hg.ftable.trans h.ftable, hg.procs.trans h.procs⟩

/-- The nodes after entry `k` of `dp`, which names `ip`, was removed. -/
def unlinkNodes (f : Nat → Node) (dp k ip : Nat) : Nat → Node :=
  update
    (update f dp (((f dp).setData (clearEntry (f dp).data k)).setNlink
      ((f dp).nlink - if (f ip).type = .dir then 1 else 0)))
    ip ((f ip).setNlink ((f ip).nlink - 1))

/-- Link counts that can be changed by one. -/
def Counted (f : Nat → Node) : Prop := ∀ i, 0 ≤ (f i).nlink ∧ (f i).nlink < 32767

theorem toShort_sub (h : 0 ≤ z ∧ z < 32767) : toShort (z + -1) = z - 1 :=
  toShort_of_range (by omega) (by omega)

theorem toShort_add (h : 0 ≤ z ∧ z < 32767) : toShort (z + 1) = z + 1 :=
  toShort_of_range (by omega) (by omega)

/-! ## Removing an entry -/

theorem dropParentLink_spec (h : Consistent sb s) (hv : (s.icache dp).valid = true) (isDir : Bool) :
    wp (dropParentLink sb dp isDir)
      (fun _ t => Consistent sb t ∧ ∃ z, abs sb t = (abs sb s).setNode dp (((abs sb s).node dp).setNlink z) ∧
        (0 ≤ ((abs sb s).node dp).nlink ∧ ((abs sb s).node dp).nlink < 32767 →
          z = ((abs sb s).node dp).nlink - if isDir = true then 1 else 0))
      Harmless s := by
  cases isDir with
  | true =>
    refine wp_post (addNlink_spec h hv (-1)) ?_
    rintro - t ⟨ht, habs⟩
    exact ⟨ht, _, habs, toShort_sub⟩
  | false =>
    refine wp_pure.mpr ⟨h, ((abs sb s).node dp).nlink, (setNode_self _ _).symm, fun _ => ?_⟩
    exact (sub_zero _).symm

/-- The part of `sys_unlink` that changes nodes. -/
theorem sysUnlinkEntry_spec (h : InCall sb X {dp, ip} s) (hvd : (s.icache dp).valid = true)
    (hvi : (s.icache ip).valid = true) (hk : k < entryCount ((abs sb s).node dp).data) (hne : X → dp ≠ ip)
    (hc : X → Counted (abs sb s).node) :
    wp (sysUnlinkEntry sb dp ip (direntSize * k) (((abs sb s).node ip).type = .dir))
      (fun _ t => InCall sb X 0 t ∧
        (X → Edited (unlinkNodes (abs sb s).node dp k ip) (abs sb s) (abs sb t))) Harmless s := by
  have htype := h.consistent.used_of_valid hvd
  rw [sysUnlinkEntry]
  refine wp_seq (writeDirent_spec h.consistent hvd rfl List.length_replicate
    (entryOffset_le hk.le)) (fun _ he => he.harmless) ?_
  rintro r t ⟨ht, ⟨rfl, habs⟩ | ⟨hr, -⟩⟩
  · rw [if_neg (not_not.mpr rfl)]
    have hvt : (abs sb t).valid dp = true := by
      rw [habs]
      exact hvd
    refine wp_then (dropParentLink_spec ht hvt _) ?_
    rintro - u ⟨hu, z, habs', hz⟩
    rw [habs, node_setNode_self, setNode_setNode] at habs'
    -- the directory has lost its entry and perhaps its last link
    have hloose : Loose X {ip} dp (abs sb u) := by
      rw [habs']
      refine h.refs.loose.setNode htype hvd fun hX _ hmem => ?_
      exact hne hX (mem_singleton.mp hmem)
    refine wp_then (hloose.iput hu) ?_
    rintro - v ⟨hv, habsv⟩
    have hvv : (abs sb v).valid ip = true := by
      rw [habsv]
      refine hloose.drop_valid (mem_singleton_self ip) ?_
      rw [habs']
      exact hvi
    refine wp_then (addNlink_spec hv.consistent hvv (-1)) ?_
    rintro - w ⟨hw, habsw⟩
    have hloose' : Loose X 0 ip (abs sb w) := by
      rw [habsw]
      exact Loose.setNode (Refs.loose hv.refs) (hv.consistent.used_of_valid hvv) hvv fun _ _ => notMem_zero ip
    refine wp_then (hloose'.iput hw) ?_
    rintro - x ⟨hx, habsx⟩
    refine wp_then hx.endOp ?_
    rintro - y ⟨hy, habsy⟩
    refine wp_pure.mpr ⟨hy, fun hX => ?_⟩
    have hnode : (abs sb v).node ip = (abs sb s).node ip := by
      rw [habsv, drop_node_ne _ (hne hX).symm, habs', node_setNode_ne (hne hX).symm]
    rw [habs, node_setNode_self] at hz
    rw [hnode, toShort_sub (hc hX ip)] at habsw
    rw [habsy, habsx, habsw, habsv, habs', hz (hc hX dp)]
    simp only [decide_eq_true_eq]
    exact ((((Edited.refl (abs sb s)).setNode dp _).drop dp).setNode ip _).drop ip
  · rw [if_pos hr]
    exact wp_throw.mpr (harmless_panic (by decide) (by decide))

/-- What a path resolution meets from directory `cwd` is in use. -/
def Sound (X : Prop) (f : Nat → Node) (cwd : Nat) : Prop :=
  X ∧ NoDangling f ∧ (f rootino).type ≠ .free ∧ (f cwd).type ≠ .free

/-- A directory names itself only as `.` or `..`. -/
def Loopless (f : Nat → Node) : Prop :=
  ∀ d k, (f d).type = .dir → inumOf (f d).data k = d →
    nameEq dot (nameAt (f d).data k) = true ∨ nameEq dotdot (nameAt (f d).data k) = true

/-- `sys_unlink` of the path by a process in `cwd` removes entry `k` of `dp`. -/
structure Unlinks (f : Nat → Node) (cwd : Nat) (path : Name) (dp k : Nat) : Prop where
  named : ∃ p name, argstr path = some p ∧ walk f cwd p true = some (dp, name) ∧
    findEntry (f dp).data name = some k ∧ nameEq name dot = false ∧ nameEq name dotdot = false
  dir : (f dp).type = .dir
  used : (f (inumAt (f dp).data k)).type ≠ .free
  linked : 1 ≤ (f (inumAt (f dp).data k)).nlink
  empty : (f (inumAt (f dp).data k)).type = .dir → ∀ j, 2 ≤ j → inumOf (f (inumAt (f dp).data k)).data j = 0

theorem nameEq_left {s t n : Name} (hs : nameEq s n = true) (ht : nameEq t n = true) : nameEq s t = true := by
  rw [nameEq_iff] at hs ht ⊢
  rw [hs, ht]

/-- An entry that can be removed does not name its own directory. -/
theorem Loopless.ne (h : Loopless f) (hdir : (f d).type = .dir) (hk : findEntry (f d).data name = some k)
    (hdot : nameEq name dot = false) (hdotdot : nameEq name dotdot = false) : d ≠ inumAt (f d).data k := by
  intro heq
  obtain ⟨hlt, -, hname⟩ := findEntry_eq_some hk
  rcases h d k hdir ((if_pos hlt).trans heq.symm) with hn | hn
  · rw [nameEq_left hname hn] at hdot
    cases hdot
  · rw [nameEq_left hname hn] at hdotdot
    cases hdotdot

/-- `walk` finds directories. -/
theorem walk_dir {cwd : Nat} {path : Name} (h : walk f cwd path true = some (d, name)) :
    (f d).type = .dir := walkLoop_dir _ h

/-- Where no entry dangles, `walk` finds inodes in use. -/
theorem walk_used {cwd : Nat} {path : Name} {parent : Bool} (hs : Sound X f cwd)
    (h : walk f cwd path parent = some (i, name)) : (f i).type ≠ .free := by
  refine walkLoop_used hs.2.1 _ ?_ h
  split
  · exact hs.2.2.1
  · exact hs.2.2.2

theorem ne_free_of_type {n : Node} (h : n.type ≠ .free) : n ≠ Node.free := by
  rintro rfl
  exact h rfl

/-- The inode that a path leads to is locked. -/
theorem Resolved.ilock {cwd : Nat} {path : Name} {parent : Bool}
    (hr : Resolved sb X tmp s (walk (abs sb s).node cwd path parent) (some (i, name)) t) :
    wp (ilock sb i)
      (fun _ u => InCall sb X (i ::ₘ tmp) u ∧ Still X 0 (abs sb s) (abs sb u) ∧ (u.icache i).valid = true)
      (Stops (Sound X (abs sb s).node cwd)) t := by
  refine wp_mono (InCall.ilock hr.inCall i) ?_ fun e he => he.mono fun hs => ?_
  · rintro - u ⟨hu, hst, hv, -⟩
    exact ⟨hu, hr.still.zero.trans hst.zero, hv⟩
  · rw [hr.still.node hs.1]
    exact ne_free_of_type (walk_used hs (hr.found hs.1).symm)

/-- `sys_unlink` once the entry is found and its inode locked. -/
theorem sysUnlinkFound_spec (h : InCall sb X {dp, ip} s) (hvd : (s.icache dp).valid = true)
    (hvi : (s.icache ip).valid = true) (hk : k < entryCount ((abs sb s).node dp).data) (hne : X → dp ≠ ip)
    (hc : X → Counted (abs sb s).node) :
    wp (sysUnlinkFound sb dp ip (direntSize * k))
      (fun _ t => InCall sb X 0 t ∧ (X → Edited (abs sb s).node (abs sb s) (abs sb t) ∨
        Edited (unlinkNodes (abs sb s).node dp k ip) (abs sb s) (abs sb t) ∧
        1 ≤ ((abs sb s).node ip).nlink ∧ (((abs sb s).node ip).type = .dir →
          ∀ j, 2 ≤ j → inumOf ((abs sb s).node ip).data j = 0))) Harmless s := by
  have hentry := sysUnlinkEntry_spec h hvd hvi hk hne hc
  have hnode := h.consistent.node_eq hvi
  have htype : (s.icache ip).ip.type = ((abs sb s).node ip).type := by rw [hnode]
  have hnlink : (s.icache ip).ip.nlink = ((abs sb s).node ip).nlink := by rw [hnode]
  rw [sysUnlinkFound, wp_bind, wp_inode, htype, hnlink]
  split
  · exact wp_throw.mpr (harmless_panic (by decide) (by decide))
  next hpos =>
  split
  next hdir =>
    rw [decide_eq_true hdir] at hentry
    refine wp_then (isdirempty_spec h.consistent hvi) ?_
    rintro r t ⟨rfl, hempty⟩
    split
    next hr =>
      refine wp_post hentry ?_
      rintro - u ⟨hu, hedit⟩
      refine ⟨hu, fun hx => .inr ⟨hedit hx, not_lt.mp hpos, fun _ j hj => ?_⟩⟩
      by_contra hj0
      obtain ⟨hlt, heq⟩ := inumOf_ne_zero hj0
      exact hj0 (heq.trans (hempty hr j hj hlt))
    · refine wp_then h.swap.iput ?_
      rintro - u ⟨hu, hst⟩
      exact iputFail_edited hu hst.zero
  next hdir =>
    rw [decide_eq_false hdir] at hentry
    refine wp_post hentry ?_
    rintro - u ⟨hu, hedit⟩
    exact ⟨hu, fun hx => .inr ⟨hedit hx, not_lt.mp hpos, fun hc => absurd hc hdir⟩⟩

/-- `sys_unlink` changes nothing, or removes the entry the path leads to. -/
theorem sysUnlink_spec (h : InCall sb X 0 s)
    (hX : X → Counted (abs sb s).node ∧ Loopless (abs sb s).node) (cwd : Nat) (path : Name) :
    wp (sysUnlink sb cwd path)
      (fun _ t => InCall sb X 0 t ∧ (X → Edited (abs sb s).node (abs sb s) (abs sb t) ∨
        ∃ dp k, Unlinks (abs sb s).node cwd path dp k ∧
          Edited (unlinkNodes (abs sb s).node dp k (inumAt ((abs sb s).node dp).data k)) (abs sb s) (abs sb t)))
      (Stops (Sound X (abs sb s).node cwd)) s := by
  rw [sysUnlink]
  cases hp : argstr path with
  | none => exact wp_pure.mpr ⟨h, fun _ => .inl (.refl _)⟩
  | some p =>
    refine wp_then (namex_spec h cwd p true) ?_
    rintro (_ | ⟨dp, name⟩) t hr
    · refine wp_post hr.inCall.fail ?_
      rintro - u ⟨hu, habs⟩
      exact ⟨hu, fun hx => .inl (habs ▸ hr.still.edited hx)⟩
    have hdir : X → ((abs sb s).node dp).type = .dir := fun hx => walk_dir (hr.found hx).symm
    refine wp_then hr.ilock ?_
    rintro - u ⟨hu, hst, hvd⟩
    split
    · exact wp_stops (iputFail_edited hu hst)
    next hdots =>
    obtain ⟨hdot, hdotdot⟩ := not_or.mp hdots
    rw [Bool.not_eq_true] at hdot hdotdot
    refine wp_then (wp_stops (hu.dirlookup hvd name)) ?_
    rintro r v ⟨-, ⟨k, hk, rfl, hv, hst', hnode⟩ | ⟨-, rfl, rfl⟩⟩
    · refine wp_seq (hv.ilock _) (fun e he => he.mono fun hs => ne_free_of_type ?_) ?_
      · rw [hnode, hst.node hs.1]
        rw [hst.node hs.1] at hk
        exact hs.2.1.found (hdir hs.1) hk
      rintro - w ⟨hw, hst'', hvi, hnode'⟩
      have hvd : (abs sb w).valid dp = true :=
        hst''.valid dp (mem_cons_of_mem (mem_singleton_self dp)) (hst'.valid dp (mem_singleton_self dp) hvd)
      have hstill : Still X 0 (abs sb s) (abs sb w) :=
        (hst.trans hst'.zero).trans hst''.zero
      rw [← hnode, ← hnode'] at hk hw hvi ⊢
      refine wp_post (wp_stops (sysUnlinkFound_spec hw.swap hvd hvi
        (findEntry_eq_some hk).1 (fun hx => ?_) fun hx => hstill.node hx ▸ (hX hx).1)) ?_
      · rw [hstill.node hx] at hk ⊢
        exact (hX hx).2.ne (hdir hx) hk hdot hdotdot
      rintro - x ⟨hx, hedit⟩
      refine ⟨hx, fun hX' => ?_⟩
      have hedit := hedit hX'
      rw [hstill.node hX'] at hedit hk hvi
      rcases hedit with hedit | ⟨hedit, hpos, hempty⟩
      · exact .inl (hstill.edited_trans hedit)
      refine .inr ⟨dp, k, ⟨⟨p, name, hp, (hr.found hX').symm, hk, hdot, hdotdot⟩, hdir hX', ?_, hpos,
        hempty⟩, hstill.edited_trans hedit⟩
      have hused := hw.consistent.used_of_valid hvi
      rwa [hstill.node hX'] at hused
    · exact wp_stops (iputFail_edited hu hst)

/-! ## Adding a link -/

/-- The nodes after a link to `ip` was added to `dp`. -/
def linkNodes (f : Nat → Node) (dp : Nat) (name : Name) (ip : Nat) : Nat → Node :=
  update (update f ip ((f ip).setNlink ((f ip).nlink + 1))) dp ((f dp).setData (addEntry (f dp).data ip name))

/-- `sys_link` by a process in `cwd` adds a link to `ip` to directory `dp`. -/
structure Links (f : Nat → Node) (cwd : Nat) (old new : Name) (dp : Nat) (name : Name) (ip : Nat) :
    Prop where
  source : ∃ p n, argstr old = some p ∧ walk f cwd p false = some (ip, n)
  target : ∃ p, argstr new = some p ∧ walk f cwd p true = some (dp, name)
  used : (f ip).type ≠ .free
  notDir : (f ip).type ≠ .dir
  dir : (f dp).type = .dir
  fresh : findEntry (f dp).data name = none

/-- The exit that takes the link back. -/
theorem sysLinkBad_spec (h : InCall sb X {ip} s) (hz : X → ((abs sb s).node ip).nlink = z + 1 ∧ 0 ≤ z ∧ z < 32767) :
    wp (sysLinkBad sb ip)
      (fun _ t => InCall sb X 0 t ∧ (X → Edited
        (update (abs sb s).node ip (((abs sb s).node ip).setNlink z)) (abs sb s) (abs sb t)))
      (Stops ((abs sb s).node ip ≠ Node.free)) s := by
  rw [sysLinkBad]
  refine wp_then (h.ilock ip) ?_
  rintro - t ⟨ht, hst, hv, hnode⟩
  refine wp_then (wp_stops (addNlink_spec ht.consistent hv (-1))) ?_
  rintro - u ⟨hu, habs⟩
  have hloose : Loose X 0 ip (abs sb u) := by
    rw [habs]
    exact Loose.setNode (Refs.loose ht.refs) (ht.consistent.used_of_valid hv) hv fun _ _ => notMem_zero ip
  refine wp_then (wp_stops (hloose.iput hu)) ?_
  rintro - v ⟨hv, habsv⟩
  refine wp_post hv.fail ?_
  rintro - w ⟨hw, habsw⟩
  refine ⟨hw, fun hX => ?_⟩
  obtain ⟨hz, hlo, hhi⟩ := hz hX
  have hshort : toShort (z + 1 + -1) = z := by
    rw [add_neg_cancel_right]
    exact toShort_of_range (by omega) (by omega)
  rw [hnode, hz, hshort] at habs
  rw [habsw, habsv, habs, ← hnode]
  exact hst.edited_trans (((Edited.refl (abs sb t)).setNode ip _).drop ip)

/-- `sys_link` once the new directory is locked. -/
theorem sysLinkEntry_spec (h : InCall sb X {dp, ip} s) (hvd : (s.icache dp).valid = true)
    (hz : X → ((abs sb s).node ip).nlink = z + 1 ∧ 0 ≤ z ∧ z < 32767)
    (hused : X → ((abs sb s).node ip).type ≠ .free) (name : Name) :
    wp (sysLinkEntry sb dp name ip)
      (fun _ t => InCall sb X 0 t ∧ (X → Edited
          (update (abs sb s).node ip (((abs sb s).node ip).setNlink z)) (abs sb s) (abs sb t) ∨
        findEntry ((abs sb s).node dp).data name = none ∧
        Edited (update (abs sb s).node dp (((abs sb s).node dp).setData
          (addEntry ((abs sb s).node dp).data ip name))) (abs sb s) (abs sb t)))
      (Stops X) s := by
  rw [sysLinkEntry]
  refine wp_then (wp_stops (h.dirlink hvd name ip)) ?_
  rintro r t ⟨-, ht, ⟨rfl, hfind, habs⟩ | ⟨rfl, hst⟩⟩
  · refine wp_then (wp_stops (InCall.iput ht)) ?_
    rintro - u ⟨hu, hstu⟩
    refine wp_then (wp_stops (InCall.iput hu)) ?_
    rintro - v ⟨hv, hstv⟩
    refine wp_then hv.endOp ?_
    rintro - w ⟨hw, habsw⟩
    refine wp_pure.mpr ⟨hw, fun hX => .inr ⟨hfind, ?_⟩⟩
    have hedit := (hstu.zero.trans hstv).edited hX
    rw [habsw]
    rw [habs] at hedit
    exact ⟨hedit.reaps, hedit.ftable, hedit.procs⟩
  · refine wp_then (wp_stops (InCall.iput ht)) ?_
    rintro - u ⟨hu, hstu⟩
    have hstill : Still X 0 (abs sb s) (abs sb u) := hst.zero.trans hstu.zero
    refine wp_mono (sysLinkBad_spec (z := z) hu fun hX => ?_) ?_ fun e he => he.mono fun hX => ?_
    · rw [hstill.node hX]
      exact hz hX
    · rintro - v ⟨hv, hedit⟩
      refine ⟨hv, fun hX => .inl (hstill.edited_trans ?_)⟩
      have hedit := hedit hX
      rwa [hstill.node hX] at hedit
    · rw [hstill.node hX]
      exact ne_free_of_type (hused hX)

/-- Taking a link back restores the node. -/
theorem update_setNlink_back (f : Nat → Node) (ip : Nat) (z : Int) :
    update (update f ip ((f ip).setNlink z)) ip ((update f ip ((f ip).setNlink z) ip).setNlink (f ip).nlink) = f := by
  rw [update_idem, update_self]
  exact update_eq_self ip f

theorem update_setNlink_congr (f : Nat → Node) (ip : Nat) (z : Int) (i : Nat) :
    (update f ip ((f ip).setNlink z) i).type = (f i).type ∧
      (update f ip ((f ip).setNlink z) i).data = (f i).data := by
  rcases eq_or_ne i ip with rfl | hi
  · rw [update_self]
    exact ⟨rfl, rfl⟩
  · rw [update_of_ne hi]
    exact ⟨rfl, rfl⟩

/-- `sys_link` once the link is counted; `f` are the nodes before. -/
theorem sysLinkCounted_spec (h : InCall sb X {ip} s)
    (hf : X → (abs sb s).node = update f ip ((f ip).setNlink ((f ip).nlink + 1))) (hused : X → (f ip).type ≠ .free)
    (hnot : X → (f ip).type ≠ .dir) (hc : X → 0 ≤ (f ip).nlink ∧ (f ip).nlink < 32767) (cwd : Nat) (path : Name) :
    wp (sysLinkCounted sb cwd path ip)
      (fun _ t => InCall sb X 0 t ∧ (X → Edited f (abs sb s) (abs sb t) ∨
        ∃ dp name, walk f cwd path true = some (dp, name) ∧ (f dp).type = .dir ∧ findEntry (f dp).data name = none ∧
          Edited (linkNodes f dp name ip) (abs sb s) (abs sb t)))
      (Stops (Sound X f cwd)) s := by
  have hcongr : X → ∀ i, ((abs sb s).node i).type = (f i).type ∧ ((abs sb s).node i).data = (f i).data := by
    intro hX
    rw [hf hX]
    exact update_setNlink_congr f ip _
  have hz : X → ((abs sb s).node ip).nlink = (f ip).nlink + 1 := by
    intro hX
    rw [hf hX, update_self]
    rfl
  have hsound : Sound X f cwd → Sound X (abs sb s).node cwd := by
    rintro ⟨hX, hno, hroot, hcwd⟩
    refine ⟨hX, noDangling_congr (hcongr hX) hno, ?_, ?_⟩
    · rwa [(hcongr hX rootino).1]
    · rwa [(hcongr hX cwd).1]
  rw [sysLinkCounted]
  refine wp_seq (namex_spec h cwd path true) (fun e he => he.mono hsound) ?_
  rintro (_ | ⟨dp, name⟩) t hr
  · have hback : X → update (abs sb t).node ip (((abs sb t).node ip).setNlink (f ip).nlink) = f := by
      intro hX
      rw [hr.still.node hX, hf hX]
      exact update_setNlink_back f ip _
    refine wp_mono (sysLinkBad_spec (z := (f ip).nlink) hr.inCall fun hX => ?_) ?_ fun e he => he.mono fun hs => ?_
    · rw [hr.still.node hX]
      exact ⟨hz hX, hc hX⟩
    · rintro - u ⟨hu, hedit⟩
      refine ⟨hu, fun hX => .inl (hr.still.edited_trans ?_)⟩
      have hedit := hedit hX
      rwa [hback hX] at hedit
    · rw [hr.still.node hs.1]
      refine ne_free_of_type ?_
      rw [(hcongr hs.1 ip).1]
      exact hused hs.1
  have hwalk : X → walk f cwd path true = some (dp, name) := by
    intro hX
    rw [hr.found hX]
    exact (walkLoop_congr (hcongr hX) _ _ _).symm
  have hdir : X → (f dp).type = .dir := fun hX => walk_dir (hwalk hX)
  have hne : X → dp ≠ ip := fun hX hc => hnot hX (hc ▸ hdir hX)
  refine wp_seq hr.ilock (fun e he => he.mono hsound) ?_
  rintro - u ⟨hu, hstill, hvd⟩
  refine wp_mono (sysLinkEntry_spec (z := (f ip).nlink) hu hvd (fun hX => ?_) (fun hX => ?_) name) ?_
    fun e he => he.mono fun hs => hs.1
  · rw [hstill.node hX]
    exact ⟨hz hX, hc hX⟩
  · rw [hstill.node hX, (hcongr hX ip).1]
    exact hused hX
  · rintro - v ⟨hv, hedit⟩
    refine ⟨hv, fun hX => ?_⟩
    have hedit := hedit hX
    rw [hstill.node hX, hf hX, update_setNlink_back, update_of_ne (hne hX)] at hedit
    rcases hedit with hedit | ⟨hnone, hedit⟩
    · exact .inl (hstill.edited_trans hedit)
    · exact .inr ⟨dp, name, hwalk hX, hdir hX, hnone, hstill.edited_trans hedit⟩

/-- `sys_link` changes nothing, or adds a link. -/
theorem sysLink_spec (h : InCall sb X 0 s) (hX : X → Counted (abs sb s).node) (cwd : Nat) (old new : Name) :
    wp (sysLink sb cwd old new)
      (fun _ t => InCall sb X 0 t ∧ (X → Edited (abs sb s).node (abs sb s) (abs sb t) ∨
        ∃ dp name ip, Links (abs sb s).node cwd old new dp name ip ∧
          Edited (linkNodes (abs sb s).node dp name ip) (abs sb s) (abs sb t)))
      (Stops (Sound X (abs sb s).node cwd)) s := by
  rw [sysLink]
  split
  next p q hp hq =>
    refine wp_then (namex_spec h cwd p false) ?_
    rintro (_ | ⟨ip, n⟩) t hr
    · refine wp_post hr.inCall.fail ?_
      rintro - u ⟨hu, habs⟩
      exact ⟨hu, fun hx => .inl (habs ▸ hr.still.edited hx)⟩
    refine wp_then hr.ilock ?_
    rintro - u ⟨hu, hstill, hv⟩
    have htype : (u.icache ip).ip.type = ((abs sb u).node ip).type := by
      rw [hu.consistent.node_eq hv]
    have hused := hu.consistent.used_of_valid hv
    rw [wp_bind, wp_inode, htype]
    split
    · exact wp_stops (iputFail_edited hu hstill)
    next hnot =>
    refine wp_then (wp_stops (addNlink_spec hu.consistent hv 1)) ?_
    rintro - v ⟨hv', habs⟩
    have hadd : X → toShort (((abs sb u).node ip).nlink + 1) = ((abs sb u).node ip).nlink + 1 := by
      intro hx
      rw [hstill.node hx]
      exact toShort_add (hX hx ip)
    have hin : InCall sb X {ip} v := by
      refine ⟨hv', habs ▸ hu.refs.setNode hused fun hx h0 => ?_⟩
      have h0 : toShort (((abs sb u).node ip).nlink + 1) = 0 := h0
      rw [hadd hx, hstill.node hx] at h0
      have hpos := (hX hx ip).1
      omega
    refine wp_mono (sysLinkCounted_spec (f := (abs sb u).node) hin (fun hx => ?_) (fun _ => hused)
      (fun _ => hnot) (fun hx => ?_) cwd q) ?_ fun e he => he.mono fun hs => ?_
    · rw [habs, hadd hx]
      rfl
    · rw [hstill.node hx]
      exact hX hx ip
    · rintro - w ⟨hw, hedit⟩
      refine ⟨hw, fun hx => ?_⟩
      have hframe : ∀ {g : Nat → Node}, Edited g (abs sb v) (abs sb w) → Edited g (abs sb s) (abs sb w) := by
        intro g hg
        rw [habs] at hg
        exact hstill.edited_trans ⟨hg.reaps, hg.ftable, hg.procs⟩
      rw [hstill.node hx] at hedit hused hnot
      rcases hedit hx with hedit | ⟨dp, name, hwalk, hdir, hnone, hedit⟩
      · exact .inl (hframe hedit)
      · exact .inr ⟨dp, name, ip, ⟨⟨p, n, hp, (hr.found hx).symm⟩, ⟨q, hq, hwalk⟩, hused, hnot, hdir,
          hnone⟩, hframe hedit⟩
    · rw [hstill.node hs.1]
      exact hs
  · exact wp_pure.mpr ⟨h, fun _ => .inl (.refl _)⟩

/-! ## Creating an inode -/

/-- The entries of a new directory. -/
def newData (type : FileType) (dp ip : Nat) : List UInt8 :=
  if type = .dir then addEntry (addEntry [] ip dot) dp dotdot else []

/-- The nodes after inode `ip` was made and linked into `dp`. -/
def createNodes (f : Nat → Node) (dp : Nat) (name : Name) (ip : Nat) (type : FileType) : Nat → Node :=
  update (update f ip ⟨type, 1, newData type dp ip⟩)
    dp (((f dp).setData (addEntry (f dp).data ip name)).setNlink ((f dp).nlink + if type = .dir then 1 else 0))

/-- `create` by a process in `cwd` makes inode `ip` and links it into `dp`. -/
structure Creates (sb : Superblock) (f : Nat → Node) (cwd : Nat) (path : Name) (dp : Nat) (name : Name)
    (ip : Nat) : Prop where
  target : walk f cwd path true = some (dp, name)
  dir : (f dp).type = .dir
  fresh : findEntry (f dp).data name = none
  wasFree : f ip = Node.free
  pos : 1 ≤ ip
  lt : ip < sb.ninodes

/-- The state of `create` between the allocation of the inode and its link in `dp`; so far the new inode
is the node `n`. -/
structure Making (sb : Superblock) (X : Prop) (s : Fs) (dp ip : Nat) (n : Node) (t : Fs) : Prop where
  inCall : InCall sb X {ip, dp} t
  node : X → (abs sb t).node = update (abs sb s).node ip n
  ftable : (abs sb t).ftable = (abs sb s).ftable
  procs : (abs sb t).procs = (abs sb s).procs
  validDp : (abs sb t).valid dp = true
  validIp : (abs sb t).valid ip = true
  wasFree : (abs sb s).node ip = Node.free
  unheld : X → (abs sb s).holders ip = 0
  ne : dp ≠ ip

section Making

variable {n : Node} {type : FileType}

theorem Making.still (h : Making sb X s dp ip n t) (hu : InCall sb X {ip, dp} u)
    (hst : Still X {ip, dp} (abs sb t) (abs sb u)) : Making sb X s dp ip n u where
  inCall := hu
  node hX := (hst.node hX).trans (h.node hX)
  ftable := hst.ftable.trans h.ftable
  procs := hst.procs.trans h.procs
  validDp := hst.valid dp (mem_cons_of_mem (mem_singleton_self dp)) h.validDp
  validIp := hst.valid ip (mem_cons_self ip _) h.validIp
  wasFree := h.wasFree
  unheld := h.unheld
  ne := h.ne

/-- An entry of the new directory. -/
theorem Making.dirlink (h : Making sb X s dp ip n t) (name : Name) (inum : Nat) :
    wp (dirlink sb ip name inum)
      (fun r u => r = true ∧ Making sb X s dp ip (n.setData (addEntry n.data inum name)) u ∨
        r = false ∧ Making sb X s dp ip n u) Harmless t := by
  refine wp_post (h.inCall.dirlink h.validIp name inum) ?_
  rintro r u ⟨-, hu, ⟨rfl, -, habs⟩ | ⟨rfl, hst⟩⟩
  · refine .inl ⟨rfl, hu, fun hX => ?_, ?_, ?_, ?_, ?_, h.wasFree, h.unheld, h.ne⟩
    · rw [habs, h.node hX, update_self]
      show update (abs sb t).node ip _ = _
      rw [h.node hX, update_idem]
    all_goals rw [habs]
    · exact h.ftable
    · exact h.procs
    · exact h.validDp
    · exact h.validIp
  · exact .inr ⟨rfl, h.still hu hst⟩

theorem linkDots_spec (h : Making sb X s dp ip n t) :
    wp (linkDots sb dp ip)
      (fun r u => r = true ∧ Making sb X s dp ip (n.setData (addEntry (addEntry n.data ip dot) dp dotdot)) u ∨
        r = false ∧ ∃ m, Making sb X s dp ip m u) Harmless t := by
  rw [linkDots]
  refine wp_then (h.dirlink dot ip) ?_
  rintro r u (⟨rfl, hu⟩ | ⟨rfl, hu⟩)
  · refine wp_post (hu.dirlink dotdot dp) ?_
    rintro r v (⟨rfl, hv⟩ | ⟨rfl, hv⟩)
    · exact .inl ⟨rfl, hv⟩
    · exact .inr ⟨rfl, _, hv⟩
  · exact wp_pure.mpr (.inr ⟨rfl, n, hu⟩)

theorem node_eq_free (h : ((abs sb s).node i).type = .free) : (abs sb s).node i = Node.free :=
  nodeOf_of_not (nodeOf_type_free_iff.mp h)

/-- A creation that fails frees the new inode. -/
theorem createFail_spec (h : Making sb X s dp ip n t) :
    wp (createFail sb dp ip)
      (fun r u => r = none ∧ InCall sb X 0 u ∧ (X → Edited (abs sb s).node (abs sb s) (abs sb u))) Harmless t := by
  have hzero := storeNlink_spec (n := 0) h.inCall.consistent h.validIp
    (g := fun n => { n with nlink := 0 }) (fun ip => ⟨rfl, rfl, rfl⟩) rfl
  rw [createFail]
  rw [wp_bind, wp_modifyInode] at hzero ⊢
  refine wp_then hzero ?_
  rintro - u ⟨hu, habs⟩
  have hloose : Loose X {dp} ip (abs sb u) := by
    rw [habs]
    refine Loose.setNode (Refs.loose h.inCall.refs)
      (h.inCall.consistent.used_of_valid h.validIp) h.validIp fun _ _ hmem => ?_
    exact h.ne (mem_singleton.mp hmem).symm
  refine wp_then (hloose.iput hu) ?_
  rintro - v ⟨hv, habsv⟩
  refine wp_then (InCall.iput hv) ?_
  rintro - w ⟨hw, hst⟩
  refine wp_pure.mpr ⟨rfl, hw, fun hX => ?_⟩
  have hprocs : (abs sb v).procs = (abs sb s).procs ∧ (abs sb v).ftable = (abs sb s).ftable := by
    rw [habsv, (drop_procs _ ip).1, (drop_procs _ ip).2, habs]
    exact ⟨h.procs, h.ftable⟩
  -- an inode that was free has no holders, so without links it is free again
  have hfree : ((abs sb v).node ip).type = .free := by
    by_contra hused
    have hn : (abs sb v).node ip = (abs sb u).node ip := by
      rw [habsv] at hused ⊢
      refine (reaps_drop (abs sb u) ip ip).resolve_right fun hf => hused ?_
      rw [hf.1]
      rfl
    have h0 : ((abs sb v).node ip).nlink = 0 := by
      rw [hn, habs, node_setNode_self]
      rfl
    have hheld := (hv.refs.held hX ip ⟨hused, h0⟩).2
    rw [Abs.holders, hprocs.1, hprocs.2] at hheld
    exact hheld.ne' (h.unheld hX)
  refine ⟨fun j => .inl ?_, hst.ftable.trans hprocs.2, hst.procs.trans hprocs.1⟩
  rw [hst.node hX]
  rcases eq_or_ne j ip with rfl | hj
  · rw [h.wasFree]
    exact node_eq_free hfree
  · rw [habsv, drop_node_ne _ hj, habs, node_setNode_ne hj, h.node hX, update_of_ne hj]

/-- The outcome of `create` for a new inode: nothing changed, or the nodes are `g`. -/
def Made (sb : Superblock) (X : Prop) (s : Fs) (ip : Nat) (g : Nat → Node) (r : Option Nat) (t : Fs) : Prop :=
  r = none ∧ InCall sb X 0 t ∧ (X → Edited (abs sb s).node (abs sb s) (abs sb t)) ∨
    r = some ip ∧ InCall sb X {ip} t ∧ (t.icache ip).valid = true ∧ (X → Edited g (abs sb s) (abs sb t))

/-- `create` gives up the directory. -/
theorem createEnd_spec (hu : InCall sb X {ip, dp} u) (hv : (abs sb u).valid ip = true)
    (hg : X → Edited g (abs sb s) (abs sb u)) :
    wp (do iput sb dp; pure (some ip)) (Made sb X s ip g) Harmless u := by
  refine wp_then hu.swap.iput ?_
  rintro - v ⟨hv', hst⟩
  refine wp_pure.mpr (.inr ⟨rfl, hv', ?_, fun hX => (hg hX).still hst hX⟩)
  exact hst.valid ip (mem_singleton_self ip) hv

section

variable (h : Making sb X s dp ip n t)
include h

theorem Making.node_dp (hX : X) : (abs sb t).node dp = (abs sb s).node dp := by
  rw [h.node hX, update_of_ne h.ne]

/-- A change of the directory that the new inode is linked into. -/
theorem Making.edited (m : Node) (hX : X) :
    Edited (update (update (abs sb s).node ip n) dp m) (abs sb s) ((abs sb t).setNode dp m) := by
  have hedit := (Edited.refl (abs sb t)).setNode dp m
  rw [h.node hX] at hedit
  exact ⟨hedit.reaps, hedit.ftable.trans h.ftable, hedit.procs.trans h.procs⟩

/-- The link to the new inode, and the link of its `..`. -/
theorem createLink_spec (hc : X → Counted (abs sb s).node) (name : Name) (isDir : Bool) :
    wp (createLink sb dp name ip isDir)
      (Made sb X s ip (update (update (abs sb s).node ip n) dp
        ((((abs sb s).node dp).setData (addEntry ((abs sb s).node dp).data ip name)).setNlink
          (((abs sb s).node dp).nlink + if isDir then 1 else 0)))) Harmless t := by
  rw [createLink]
  refine wp_then (h.inCall.dirlink h.validDp name ip) ?_
  rintro r u ⟨-, hu, ⟨rfl, -, habs⟩ | ⟨rfl, hst⟩⟩
  swap
  · exact wp_post (createFail_spec (h.still hu hst)) fun r v hr => .inl hr
  cases isDir with
  | false =>
    refine createEnd_spec hu ?_ fun hX => ?_
    · rw [habs]
      exact h.validIp
    · rw [habs, h.node_dp hX, if_neg Bool.false_ne_true, add_zero]
      exact h.edited _ hX
  | true =>
    have hvu : (abs sb u).valid dp = true := by
      rw [habs]
      exact h.validDp
    have hshort : X → toShort (((abs sb u).node dp).nlink + 1) = ((abs sb s).node dp).nlink + 1 := by
      intro hX
      rw [habs, node_setNode_self, h.node_dp hX]
      exact toShort_add (hc hX dp)
    refine wp_then (addNlink_spec hu.consistent hvu 1) ?_
    rintro - v ⟨hv, habsv⟩
    have hin : InCall sb X {ip, dp} v := by
      refine ⟨hv, habsv ▸ hu.refs.setNode (hu.consistent.used_of_valid hvu) fun hX h0 => ?_⟩
      have h0 : toShort (((abs sb u).node dp).nlink + 1) = 0 := h0
      have hpos := (hc hX dp).1
      rw [hshort hX] at h0
      omega
    refine createEnd_spec hin ?_ fun hX => ?_
    · rw [habsv, habs]
      exact h.validIp
    · rw [habsv, hshort hX, habs, node_setNode_self, setNode_setNode, h.node_dp hX]
      exact h.edited _ hX

end

/-- The new inode is loaded and gets a link. -/
theorem setNode_new (a : Abs) (i : Nat) (m n : Node) :
    (((a.setNode i m).hold i).load i).setNode i n = ((a.setNode i n).hold i).load i := by
  refine Abs.ext ?_ rfl rfl rfl rfl
  exact update_idem (α := Nat) m n a.node

/-- `create` once the inode is allocated. -/
theorem createNew_spec (h : InCall sb X {dp} s) (hvd : (s.icache dp).valid = true) (hc : X → Counted (abs sb s).node)
    (htype : type ≠ .free) (hi : Ialloc sb type s ip t) (name : Name) (major minor : Int) :
    wp (createNew sb dp name ip type major minor)
      (Made sb X s ip (createNodes (abs sb s).node dp name ip type)) Harmless t := by
  have hne : dp ≠ ip := by
    rintro rfl
    refine h.consistent.used_of_valid hvd ?_
    rw [hi.wasFree]
    rfl
  have hnode : (abs sb t).node ip = ⟨type, 0, []⟩ := by
    rw [hi.abs_eq]
    exact node_setNode_self
  rw [createNew]
  refine wp_seq (ilock_spec hi.consistent ip) (fun e he => he.2 (ne_free_of_type ?_)) ?_
  · rw [hnode]
    exact htype
  rintro - u ⟨hu, habs, hvi⟩
  have hone := storeNlink_spec (n := 1) hu hvi (g := fun n => { n with major := major, minor := minor, nlink := 1 })
    (fun ip => ⟨rfl, rfl, rfl⟩) rfl
  rw [wp_bind, wp_modifyInode] at hone ⊢
  refine wp_then hone ?_
  rintro - v ⟨hv, habsv⟩
  have hmake : Making sb X s dp ip ⟨type, 1, []⟩ v := by
    have hloaded : (abs sb u).node ip = ⟨type, 0, []⟩ := by
      rw [habs]
      exact hnode
    rw [hloaded, habs, hi.abs_eq] at habsv
    have habsv := habsv.trans (setNode_new (abs sb s) ip _ _)
    refine ⟨⟨hv, habsv ▸ ?_⟩, fun _ => ?_, ?_, ?_, ?_, ?_, hi.wasFree, fun hX => ?_, hne⟩
    · exact ((h.refs.setNode htype fun _ h0 => absurd h0 one_ne_zero).hold ip).load ip
    · rw [habsv]
      rfl
    · rw [habsv]
      rfl
    · rw [habsv]
      rfl
    · rw [habsv, Abs.load, put_valid_ne hne, Abs.hold, put_valid_ne hne]
      exact hvd
    · rw [habsv]
      exact put_valid_self
    · refine Nat.eq_zero_of_not_pos fun hpos => h.refs.used hX ip hpos ?_
      rw [hi.wasFree]
      rfl
  split
  next hdir =>
    refine wp_then (linkDots_spec hmake) ?_
    rintro r w (⟨rfl, hw⟩ | ⟨rfl, m, hw⟩)
    · rw [createNodes, newData, if_pos hdir, if_pos hdir]
      exact createLink_spec hw hc name true
    · exact wp_post (createFail_spec hw) fun r x hr => .inl hr
  next hdir =>
    rw [createNodes, newData, if_neg hdir, if_neg hdir]
    exact createLink_spec hmake hc name false

end Making

/-- The outcome of `create`. -/
def Created (sb : Superblock) (X : Prop) (s : Fs) (cwd : Nat) (path : Name) (type : FileType)
    (r : Option Nat) (t : Fs) : Prop :=
  r = none ∧ InCall sb X 0 t ∧ (X → Edited (abs sb s).node (abs sb s) (abs sb t)) ∨
    ∃ ip, r = some ip ∧ InCall sb X {ip} t ∧ (t.icache ip).valid = true ∧
      (X → Edited (abs sb s).node (abs sb s) (abs sb t) ∨ ∃ dp name, Creates sb (abs sb s).node cwd path dp name ip ∧
          Edited (createNodes (abs sb s).node dp name ip type) (abs sb s) (abs sb t))

/-- `create` of a name that exists. -/
theorem createFound_spec {type : FileType} (h : InCall sb X (ip ::ₘ {dp}) t) (hst : Still X 0 (abs sb s) (abs sb t)) :
    wp (createFound sb dp ip type)
      (Made sb X s ip (abs sb s).node) (Stops (X ∧ ((abs sb s).node ip).type ≠ .free)) t := by
  rw [createFound]
  refine wp_then (wp_stops h.swap.iput) ?_
  rintro - u ⟨hu, hstu⟩
  refine wp_seq (hu.ilock ip) (fun e he => he.mono fun hs => ?_) ?_
  · rw [hstu.node hs.1, hst.node hs.1]
    exact ne_free_of_type hs.2
  rintro - v ⟨hv, hstv, hvi, -⟩
  have hstill : Still X 0 (abs sb s) (abs sb v) := (hst.trans hstu.zero).trans hstv.zero
  rw [wp_bind, wp_inode]
  split
  · exact wp_pure.mpr (.inr ⟨rfl, hv, hvi, hstill.edited⟩)
  · refine wp_then (wp_stops (InCall.iput hv)) ?_
    rintro - w ⟨hw, hstw⟩
    exact wp_pure.mpr (.inl ⟨rfl, hw, fun hX => (hstill.trans hstw).edited hX⟩)

/-- `create` finds a file, makes an inode, or changes nothing. -/
theorem create_spec (h : InCall sb X 0 s) (hc : X → Counted (abs sb s).node) (cwd : Nat)
    (path : Name) {type : FileType} (htype : type ≠ .free) (major minor : Int) :
    wp (create sb cwd path type major minor) (Created sb X s cwd path type)
      (Stops (Sound X (abs sb s).node cwd)) s := by
  rw [create]
  refine wp_then (namex_spec h cwd path true) ?_
  rintro (_ | ⟨dp, name⟩) t hr'
  · exact wp_pure.mpr (.inl ⟨rfl, hr'.inCall, hr'.still.edited⟩)
  have hdir : X → ((abs sb s).node dp).type = .dir := fun hX => walk_dir (hr'.found hX).symm
  have hin : InCall sb X {dp} t := hr'.inCall
  refine wp_seq (hin.ilock dp) (fun e he => he.mono fun hs => ?_) ?_
  · refine ne_free_of_type ?_
    rw [hr'.still.node hs.1, hdir hs.1]
    exact FileType.noConfusion
  rintro - u ⟨hu, hst, hvd, -⟩
  have hst : Still X 0 (abs sb s) (abs sb u) := hr'.still.trans hst.zero
  refine wp_then (wp_stops (hu.dirlookup hvd name)) ?_
  rintro r v ⟨-, ⟨k, hk, rfl, hv, hst', hnode⟩ | ⟨hnone, rfl, rfl⟩⟩
  · refine wp_mono (createFound_spec hv (hst.trans hst'.zero)) (fun r w hr => ?_) fun e he => he.mono fun hs => ?_
    · rcases hr with ⟨hr, hw, hedit⟩ | ⟨hr, hw, hvi, hedit⟩
      · exact .inl ⟨hr, hw, hedit⟩
      · exact .inr ⟨_, hr, hw, hvi, fun hX => .inl (hedit hX)⟩
    · rw [hst.node hs.1] at hk ⊢
      exact ⟨hs.1, hs.2.1.found (hdir hs.1) hk⟩
  refine wp_then (wp_stops (ialloc_spec hu.consistent htype)) ?_
  rintro r w (⟨rfl, rfl⟩ | ⟨ip, rfl, hi⟩)
  · refine wp_then (wp_stops (InCall.iput hu)) ?_
    rintro - x ⟨hx, hst'⟩
    exact wp_pure.mpr (.inl ⟨rfl, hx, fun hX => (hst.trans hst').edited hX⟩)
  refine wp_post (wp_stops (createNew_spec hu hvd (fun hX => hst.node hX ▸ hc hX) htype hi name major minor))
    fun r x hr => ?_
  rcases hr with ⟨hr, hx, hedit⟩ | ⟨hr, hx, hvi, hedit⟩
  · refine .inl ⟨hr, hx, fun hX => hst.edited_trans ?_⟩
    rw [← hst.node hX]
    exact hedit hX
  refine .inr ⟨ip, hr, hx, hvi, fun hX => .inr ⟨dp, name, ⟨(hr'.found hX).symm, hdir hX, ?_, ?_,
    hi.pos, hi.lt⟩, hst.edited_trans ?_⟩⟩
  · rwa [hst.node hX] at hnone
  · rw [← hst.node hX]
    exact hi.wasFree
  · rw [← hst.node hX]
    exact hedit hX

end Xv6Lab.FileSys
