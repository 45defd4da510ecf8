import Xv6Lab.FileSys.References

/-!
# Path resolution

`InCall` is the state inside a call: the file system is consistent and the call holds references. The
rules `InCall.iget`, `InCall.ilock`, `InCall.iput` and `InCall.dirlookup` carry it through the inode
layer; `Still` says what does not change on the way. `walk` resolves a path on nodes, and `namex_spec`
says that `namex` finds what `walk` finds and that it changes no node.
-/

namespace Xv6Lab.FileSys

open Lib.Exec

variable {sb : Superblock} {s t u : Fs} {a b c : Abs} {i j d : Nat} {tmp keep : Multiset Nat}
  {X P : Prop} {name : Name} {parent : Bool} {f : Nat → Node}

/-! ## Inside a call -/

/-- The state inside a call that holds the references `tmp`. -/
structure InCall (sb : Superblock) (X : Prop) (tmp : Multiset Nat) (s : Fs) : Prop where
  consistent : Consistent sb s
  refs : Refs X tmp (abs sb s)

/-- Nothing changes but the inode table, in which the inodes of `keep` stay loaded; that no inode is freed
takes that the counts are exact. -/
structure Still (X : Prop) (keep : Multiset Nat) (a b : Abs) : Prop where
  node : X → b.node = a.node
  ftable : b.ftable = a.ftable
  procs : b.procs = a.procs
  valid : ∀ j ∈ keep, a.valid j = true → b.valid j = true

theorem Still.refl : Still X keep a a := ⟨fun _ => rfl, rfl, rfl, fun _ _ hv => hv⟩

theorem Still.trans (h : Still X keep a b) (h' : Still X keep b c) : Still X keep a c :=
  ⟨fun hX => (h'.node hX).trans (h.node hX), h'.ftable.trans h.ftable, h'.procs.trans h.procs,
    fun j hj hv => h'.valid j hj (h.valid j hj hv)⟩

theorem Still.mono {keep' : Multiset Nat} (h : Still X keep a b) (hle : ∀ j ∈ keep', j ∈ keep) : Still X keep' a b :=
  ⟨h.node, h.ftable, h.procs, fun j hj => h.valid j (hle j hj)⟩

theorem Still.zero (h : Still X keep a b) : Still X 0 a b :=
  h.mono fun _ hj => absurd hj (Multiset.notMem_zero _)

theorem Refs.hold_still (h : Refs X tmp a) (i : Nat) : Still X tmp a (a.hold i) := by
  refine ⟨fun _ => rfl, rfl, rfl, fun j hj hv => ?_⟩
  rcases eq_or_ne j i with rfl | hji
  · rw [Abs.hold, put_valid_self, hv, decide_eq_true (h.pos hj)]
    rfl
  · rw [Abs.hold, put_valid_ne hji, hv]

theorem InCall.iget (h : InCall sb X tmp s) (i : Nat) :
    wp (iget i) (fun r t => r = i ∧ InCall sb X (i ::ₘ tmp) t ∧ Still X tmp (abs sb s) (abs sb t))
      Harmless s := by
  refine wp_mono (iget_spec h.consistent i) ?_ fun _ he => he.harmless
  rintro r t ⟨hr, ht, habs⟩
  rw [habs]
  exact ⟨hr, ⟨ht, habs ▸ h.refs.hold i⟩, h.refs.hold_still i⟩

theorem InCall.idup (h : InCall sb X tmp s) (i : Nat) :
    wp (idup i) (fun r t => r = i ∧ InCall sb X (i ::ₘ tmp) t ∧ Still X tmp (abs sb s) (abs sb t))
      Harmless s := by
  refine wp_post (idup_spec h.consistent i) ?_
  rintro r t ⟨hr, ht, habs⟩
  rw [habs]
  refine ⟨hr, ⟨ht, habs ▸ h.refs.dup i⟩, fun _ => rfl, rfl, rfl, fun j hj hv => ?_⟩
  rcases eq_or_ne j i with rfl | hji
  · rw [Abs.dup, put_valid_self, hv]
  · rw [Abs.dup, put_valid_ne hji, hv]

theorem InCall.ilock (h : InCall sb X tmp s) (i : Nat) :
    wp (ilock sb i)
      (fun _ t => InCall sb X tmp t ∧ Still X tmp (abs sb s) (abs sb t) ∧ (t.icache i).valid = true ∧
        (abs sb t).node = (abs sb s).node)
      (Stops ((abs sb s).node i ≠ Node.free)) s := by
  refine wp_post (ilock_spec h.consistent i) ?_
  rintro - t ⟨ht, habs, hv⟩
  rw [habs]
  refine ⟨⟨ht, habs ▸ h.refs.load i⟩, ⟨fun _ => rfl, rfl, rfl, fun j hj hval => ?_⟩, hv, rfl⟩
  rcases eq_or_ne j i with rfl | hji
  · exact put_valid_self
  · rw [Abs.load, put_valid_ne hji, hval]

theorem InCall.iput (h : InCall sb X (i ::ₘ tmp) s) :
    wp (iput sb i) (fun _ t => InCall sb X tmp t ∧ Still X tmp (abs sb s) (abs sb t)) Harmless s := by
  refine wp_post (iput_spec h.consistent i) ?_
  rintro - t ⟨ht, habs, -⟩
  rw [habs]
  refine ⟨⟨ht, habs ▸ h.refs.drop⟩, fun hX => h.refs.drop_node hX h.consistent.used_of_valid,
    (drop_procs _ i).2, (drop_procs _ i).1, fun j hj hv => h.refs.loose.drop_valid hj hv⟩

/-- `dirlookup` takes a reference to the inode it finds. -/
theorem InCall.dirlookup (h : InCall sb X tmp s) (hv : (s.icache d).valid = true) (name : Name) :
    wp (dirlookup sb d name)
      (fun r t => ((abs sb s).node d).type = .dir ∧
        ((∃ k, findEntry ((abs sb s).node d).data name = some k ∧
          r = some (inumAt ((abs sb s).node d).data k, direntSize * k) ∧
          InCall sb X (inumAt ((abs sb s).node d).data k ::ₘ tmp) t ∧
          Still X tmp (abs sb s) (abs sb t) ∧ (abs sb t).node = (abs sb s).node) ∨
        findEntry ((abs sb s).node d).data name = none ∧ r = none ∧ t = s)) Harmless s := by
  refine wp_post (dirlookup_spec h.consistent hv name) ?_
  rintro r t ⟨hdir, ht, hr⟩
  refine ⟨hdir, ?_⟩
  cases hf : findEntry ((abs sb s).node d).data name with
  | none => exact .inr ⟨rfl, looked_none hf hr⟩
  | some k =>
    obtain ⟨hr, habs⟩ := looked_some hf hr
    refine .inl ⟨k, rfl, hr, ⟨ht, habs ▸ h.refs.hold _⟩, ?_⟩
    rw [habs]
    exact ⟨h.refs.hold_still _, rfl⟩

/-! ## Resolving a path -/

/-- The loop of `namex` on nodes. -/
def walkLoop (f : Nat → Node) (parent : Bool) : Nat → Nat → Name → Option (Nat × Name)
  | 0, ip, _ => if parent then none else some (ip, [])
  | fuel + 1, ip, path =>
    match skipelem path with
    | none => if parent then none else some (ip, [])
    | some (name, rest) =>
      if (f ip).type ≠ .dir then none
      else if parent = true ∧ rest = [] then some (ip, name)
      else match findEntry (f ip).data name with
        | none => none
        | some k => walkLoop f parent fuel (inumAt (f ip).data k) rest

/-- The inode a path leads to from directory `cwd`, or with `parent` the directory of its last element
and that element. -/
def walk (f : Nat → Node) (cwd : Nat) (path : Name) (parent : Bool) : Option (Nat × Name) :=
  walkLoop f parent path.length (if path.head? = some slash then rootino else cwd) path

/-- Every entry in use of a directory names an inode in use. -/
def NoDangling (f : Nat → Node) : Prop :=
  ∀ d k, (f d).type = .dir → inumOf (f d).data k ≠ 0 → (f (inumOf (f d).data k)).type ≠ .free

/-- The inode an entry names is in use. -/
theorem NoDangling.found {k : Nat} (h : NoDangling f) (hdir : (f d).type = .dir)
    (hk : findEntry (f d).data name = some k) : (f (inumAt (f d).data k)).type ≠ .free := by
  obtain ⟨hlt, hne, -⟩ := findEntry_eq_some hk
  have hof : inumOf (f d).data k = inumAt (f d).data k := if_pos hlt
  have hused := h d k hdir (hof ▸ hne)
  rwa [hof] at hused

/-- The parent that was found is a directory. -/
theorem walkLoop_dir (fuel : Nat) : ∀ {ip : Nat} {path : Name},
    walkLoop f true fuel ip path = some (d, name) → (f d).type = .dir := by
  induction fuel with
  | zero => exact nofun
  | succ fuel ih =>
    intro ip path h
    rw [walkLoop] at h
    split at h
    · cases h
    split at h
    · cases h
    next hdir =>
    split at h
    · cases h
      exact not_not.mp hdir
    · split at h
      · cases h
      · exact ih h

/-- Where no entry dangles, a path leads to an inode in use. -/
theorem walkLoop_used (hf : NoDangling f) (fuel : Nat) :
    ∀ {ip : Nat} {path : Name}, (f ip).type ≠ .free →
      walkLoop f parent fuel ip path = some (i, name) → (f i).type ≠ .free := by
  induction fuel with
  | zero =>
    intro ip path hip h
    rw [walkLoop] at h
    split at h
    · cases h
    · cases h
      exact hip
  | succ fuel ih =>
    intro ip path hip h
    rw [walkLoop] at h
    split at h
    · split at h
      · cases h
      · cases h
        exact hip
    split at h
    · cases h
    next hdir =>
    split at h
    · cases h
      exact hip
    · split at h
      · cases h
      next k hk => exact ih (hf.found (not_not.mp hdir) hk) h

/-- Paths are resolved along types and entries. -/
theorem walkLoop_congr {g : Nat → Node} (h : ∀ i, (g i).type = (f i).type ∧ (g i).data = (f i).data) (fuel : Nat) :
    ∀ ip path, walkLoop g parent fuel ip path = walkLoop f parent fuel ip path := by
  induction fuel with
  | zero => exact fun _ _ => rfl
  | succ fuel ih =>
    intro ip path
    rw [walkLoop, walkLoop]
    simp only [(h ip).1, (h ip).2, ih]

theorem noDangling_congr {g : Nat → Node}
    (h : ∀ i, (g i).type = (f i).type ∧ (g i).data = (f i).data) (hf : NoDangling f) : NoDangling g := by
  intro d k hdir hk
  rw [(h d).1] at hdir
  rw [(h d).2] at hk ⊢
  rw [(h _).1]
  exact hf d k hdir hk

/-- The references of the call once a path is resolved. -/
def holding (r : Option (Nat × Name)) (tmp : Multiset Nat) : Multiset Nat :=
  match r with
  | none => tmp
  | some (i, _) => i ::ₘ tmp

/-- The end of a path resolution from the state `s` that finds `w` if the counts are exact. -/
structure Resolved (sb : Superblock) (X : Prop) (tmp : Multiset Nat) (s : Fs)
    (w r : Option (Nat × Name)) (t : Fs) : Prop where
  inCall : InCall sb X (holding r tmp) t
  still : Still X tmp (abs sb s) (abs sb t)
  found : X → r = w

theorem namexEnd_spec (h : InCall sb X (i ::ₘ tmp) s) :
    wp (namexEnd sb parent i) (Resolved sb X tmp s (if parent then none else some (i, [])))
      Harmless s := by
  unfold namexEnd
  split
  · refine wp_then h.iput ?_
    rintro - t ⟨ht, hstill⟩
    exact wp_pure.mpr ⟨ht, hstill, fun _ => rfl⟩
  · exact wp_pure.mpr ⟨h, .refl, fun _ => rfl⟩

/-- A resolution that fails in a directory gives up its reference. -/
theorem namexFail_spec {w : Option (Nat × Name)} (h : InCall sb X (i ::ₘ tmp) t)
    (hst : Still X tmp (abs sb s) (abs sb t)) (hw : X → none = w) :
    wp (do iput sb i; pure none) (Resolved sb X tmp s w) Harmless t := by
  refine wp_then h.iput ?_
  rintro - u ⟨hu, hstill⟩
  exact wp_pure.mpr ⟨hu, hst.trans hstill, hw⟩

theorem namexLoop_spec (fuel : Nat) : ∀ {s : Fs} {ip : Nat} {path : Name},
    InCall sb X (ip ::ₘ tmp) s →
    wp (namexLoop sb parent fuel ip path) (Resolved sb X tmp s (walkLoop (abs sb s).node parent fuel ip path))
      (Stops (X ∧ NoDangling (abs sb s).node ∧ ((abs sb s).node ip).type ≠ .free)) s := by
  induction fuel with
  | zero => exact fun h => wp_stops (namexEnd_spec h)
  | succ fuel ih =>
    intro s ip path h
    rw [namexLoop, walkLoop]
    cases skipelem path with
    | none => exact wp_stops (namexEnd_spec h)
    | some elem =>
      obtain ⟨name, rest⟩ := elem
      dsimp only
      refine wp_seq (h.ilock ip) (fun e he => he.mono fun hp hfree => hp.2.2 ?_) ?_
      · rw [hfree]
        rfl
      rintro - t ⟨ht, hst, hv, hnode⟩
      have hst : Still X tmp (abs sb s) (abs sb t) :=
        hst.mono fun j hj => Multiset.mem_cons_of_mem hj
      have htype : (t.icache ip).ip.type = ((abs sb s).node ip).type := by
        rw [← hnode, ht.consistent.node_eq hv]
      rw [wp_bind, wp_inode, htype]
      split
      · exact wp_stops (namexFail_spec ht hst fun _ => rfl)
      next hdir =>
      split
      · exact wp_pure.mpr ⟨ht, hst, fun _ => rfl⟩
      refine wp_then (wp_stops (ht.dirlookup hv name)) ?_
      rintro r u ⟨-, ⟨k, hk, rfl, hu, hst', hnode'⟩ | ⟨hnone, rfl, rfl⟩⟩
      · rw [hnode] at hk hu hnode'
        rw [hk]
        have hst := hst.trans (hst'.mono fun j hj => Multiset.mem_cons_of_mem hj)
        rw [Multiset.cons_swap] at hu
        refine wp_then (wp_stops hu.iput) ?_
        rintro - v ⟨hw, hst''⟩
        have hst := hst.trans (hst''.mono fun j hj => Multiset.mem_cons_of_mem hj)
        rw [hnode]
        refine wp_mono (ih hw) (fun r w hr => ⟨hr.inCall, hst.trans hr.still, fun hX => ?_⟩) fun e he => he.mono ?_
        · rw [hr.found hX, hst.node hX]
        · rintro ⟨hX, hno, -⟩
          rw [hst.node hX]
          exact ⟨hX, hno, hno.found (not_not.mp hdir) hk⟩
      · rw [hnode] at hnone
        rw [hnone]
        exact wp_stops (namexFail_spec ht hst fun _ => rfl)

/-- `namex` finds what the path leads to on the nodes. -/
theorem namex_spec (h : InCall sb X tmp s) (cwd : Nat) (path : Name) (parent : Bool) :
    wp (namex sb cwd path parent) (Resolved sb X tmp s (walk (abs sb s).node cwd path parent))
      (Stops (X ∧ NoDangling (abs sb s).node ∧ ((abs sb s).node rootino).type ≠ .free ∧
        ((abs sb s).node cwd).type ≠ .free)) s := by
  have hstart : wp (namexStart cwd path)
      (fun r t => r = (if path.head? = some slash then rootino else cwd) ∧
        InCall sb X (r ::ₘ tmp) t ∧ Still X tmp (abs sb s) (abs sb t)) Harmless s := by
    unfold namexStart
    split
    · refine wp_post (h.iget rootino) ?_
      rintro r t ⟨rfl, ht⟩
      exact ⟨rfl, ht⟩
    · refine wp_post (h.idup cwd) ?_
      rintro r t ⟨rfl, ht⟩
      exact ⟨rfl, ht⟩
  rw [namex]
  refine wp_then (wp_stops hstart) ?_
  rintro ip t ⟨hip, ht, hst⟩
  refine wp_mono (namexLoop_spec path.length ht) (fun r u hr => ⟨hr.inCall, hst.trans hr.still, ?_⟩)
    fun e he => he.mono ?_
  · intro hX
    rw [hr.found hX, hst.node hX, hip]
    rfl
  rintro ⟨hX, hno, hroot, hcwd⟩
  rw [hst.node hX, hip]
  refine ⟨hX, hno, ?_⟩
  split
  · exact hroot
  · exact hcwd

end Xv6Lab.FileSys
