import Xv6Lab.FileSys.DirectoryKeys
import Xv6Lab.FileSys.Fresh

/-!
# A directory as a finite map

`dirlink`, `dirlookup` and the removal of an entry in `sys_unlink` act on a directory as on a map from keys to inode
numbers. `directory_is_map` is about every state that a sequence of such calls on one directory reaches, whatever
happens to the rest of the file system in between. A call that has to take a reference panics if the inode table is
full, and one that has to write if the transaction may have no room for four blocks more; `directory_calls_panic` has
a state for each.
-/

namespace Xv6Lab.FileSys

open Function Lib.Exec Lib.Segments Lib.Transition Abs

variable {sb : Superblock} {s t : Fs} {d i k : Nat} {data : List UInt8} {name : Name}

/-! ## Calls -/

/-- The removal of an entry in `sys_unlink`: the entry that `dirlookup` has found is overwritten with zeros. -/
def eraseName (sb : Superblock) (d : Nat) (name : Name) : FsM Bool := do
  match ← dirlookup sb d name with
  | none => pure false
  | some (_, off) => do
      let r ← writei sb d (kernelBuf (List.replicate direntSize 0)) (UInt32.ofNat off) (UInt32.ofNat direntSize)
      if r ≠ direntSize then throw (.panic "unlink: writei") else pure true

/-- The bytes of the directory. -/
def dirData (sb : Superblock) (s : Fs) (d : Nat) : List UInt8 := ((abs sb s).node d).data

/-- An entry is not in use. -/
def HasFree (data : List UInt8) : Prop := ∃ k, k < entryCount data ∧ inumAt data k = 0

/-- There is room for an entry behind the last one: the file can have more bytes, and `bmap` has or gets the block. -/
def CanExtend (sb : Superblock) (s : Fs) (d : Nat) : Prop :=
  (dirData sb s d).length + direntSize ≤ maxfile * bsize ∧
    ∃ a t, bmap sb d ((dirData sb s d).length / bsize) s = .ok a t ∧ a ≠ 0

/-- A directory that a process has locked. -/
structure DirInv (sb : Superblock) (d : Nat) (s : Fs) : Prop where
  consistent : Consistent sb s
  valid : (s.icache d).valid = true
  ref : 0 < (s.icache d).ref
  type : ((abs sb s).node d).type = .dir
  whole : (dirData sb s d).length % direntSize = 0
  unique : Unique (dirData sb s d)

/-- A write inside one block is done whole, if there is a block. -/
theorem writeiLoop_whole {src : Source} (hsrc : src.limit = none) (fuel : Nat) {off n : Nat} (hn : 0 < n)
    (hroom : n ≤ bsize - off % bsize) :
    wp (writeiLoop sb d src (fuel + 1) 0 off n)
      (fun r _ => r.1 = n ↔ ∃ a t, bmap sb d (off / bsize) s = .ok a t ∧ a ≠ 0) (fun _ => True) s := by
  rw [writeiLoop, if_pos hn]
  cases hx : bmap sb d (off / bsize) s with
  | error e t =>
    refine wp_bind.mpr ?_
    rw [wp, hx]
    trivial
  | ok a t =>
    rw [wp_bind, wp_iff_of_ok hx]
    split
    next ha =>
      refine wp_pure.mpr ⟨fun heq => absurd heq (Nat.ne_of_lt hn), ?_⟩
      rintro ⟨b, u, hb, hb0⟩
      cases hb
      exact absurd ha hb0
    next ha =>
      have hm : min (n - 0) (bsize - off % bsize) = n := by omega
      have hdone : (copyable src.limit 0 n < n) = False := by
        rw [hsrc]
        exact eq_false (lt_irrefl n)
      rw [wp_bind, wp_bread]
      simp only [hm, hdone, if_false]
      rw [wp_bind, wp_setBlock]
      refine wp_seq (wp_logWrite le_rfl (Q := fun _ _ => True) trivial) (fun _ _ => trivial) fun _ u _ => ?_
      have hend : writeiLoop sb d src fuel (0 + n) (off + n) n = pure (0 + n, off + n) := by
        cases fuel with
        | zero => rfl
        | succ fuel => rw [writeiLoop, if_neg (by omega)]
      rw [hend]
      exact wp_pure.mpr ⟨fun _ => ⟨a, t, rfl, ha⟩, fun _ => Nat.zero_add n⟩

/-- Whether a write of one entry succeeds. -/
theorem writeDirent_iff (h : Consistent sb s) (hv : (s.icache d).valid = true) {bytes : List UInt8}
    (hoff : direntSize * k ≤ (dirData sb s d).length) :
    wp (writei sb d (kernelBuf bytes) (UInt32.ofNat (direntSize * k)) (UInt32.ofNat direntSize))
      (fun r _ => r = direntSize ↔ direntSize * k + direntSize ≤ maxfile * bsize ∧
        ∃ a t, bmap sb d (direntSize * k / bsize) s = .ok a t ∧ a ≠ 0) (fun _ => True) s := by
  obtain ⟨htn, hrange⟩ := dirent_range h hv (h.length_data hv rfl ▸ hoff)
  have h16 : (UInt32.ofNat direntSize).toNat = 16 := rfl
  have hd16 : direntSize = 16 := rfl
  have hsum := toNat_add_of_range hrange
  rw [htn, h16] at hsum
  have hroom : 16 ≤ bsize - direntSize * k % bsize := by
    show 16 ≤ 1024 - 16 * k % 1024
    omega
  rw [writei, wp_bind, wp_inode, if_neg (show ¬ (_ ∨ _) from hrange), hsum, htn, h16]
  split
  next hbig =>
    refine wp_pure.mpr ⟨fun heq => absurd heq (by decide), fun hfit => absurd hfit.1 ?_⟩
    rw [hd16] at hbig ⊢
    omega
  next hfit =>
    refine wp_seq (writeiLoop_whole (s := s) rfl 15 (by omega) hroom) (fun _ _ => trivial) fun r t hr => ?_
    refine wp_modify_iupdate (fun _ _ => trivial) (wp_pure.mpr ?_)
    rw [← hr]
    constructor
    · intro heq
      exact ⟨by omega, Nat.cast_inj.mp heq⟩
    · rintro ⟨-, heq⟩
      rw [heq]

theorem DirInv.length_eq (h : DirInv sb d s) : (dirData sb s d).length = (s.icache d).ip.size :=
  h.consistent.length_data h.valid rfl

/-- The blocks of a directory are there, so an entry in it can always be overwritten. -/
theorem DirInv.block_exists (h : DirInv sb d s) (hk : k < entryCount (dirData sb s d)) :
    direntSize * k + direntSize ≤ maxfile * bsize ∧
      ∃ a t, bmap sb d (direntSize * k / bsize) s = .ok a t ∧ a ≠ 0 := by
  have hlen : (dirData sb s d).length = (view s d).size := by
    rw [view_of_valid h.valid]
    exact h.length_eq
  have hin := lt_entryCount_iff.mp hk
  have hsized := h.consistent.sized h.valid
  have hblock : fileBlock sb s d (direntSize * k / bsize) ≠ 0 := by
    refine hsized _ (lt_of_le_of_lt (Nat.div_mul_le_self _ _) ?_)
    rw [← hlen]
    exact Nat.lt_of_lt_of_le (Nat.lt_add_of_pos_right (by decide)) hin
  refine ⟨hin.trans (hlen ▸ hsized.size_le), _, s, bmap_allocated (h.consistent.held h.valid) hblock, hblock⟩

theorem freeEntry_lt (h : HasFree data) : freeEntry data < entryCount data := by
  obtain ⟨k, hk, h0⟩ := h
  rw [freeEntry]
  cases hf : (List.range (entryCount data)).find? fun k => inumAt data k = 0 with
  | none =>
    have hnot := List.find?_eq_none.mp hf k (List.mem_range.mpr hk)
    exact absurd (decide_eq_true h0) hnot
  | some j => exact List.mem_range.mp (List.mem_of_find?_eq_some hf)

theorem freeEntry_of_full (h : ¬ HasFree data) : freeEntry data = entryCount data := by
  rw [freeEntry]
  cases hf : (List.range (entryCount data)).find? fun k => inumAt data k = 0 with
  | none => rfl
  | some j =>
    have h0 := List.find?_some hf
    exact absurd ⟨j, List.mem_range.mp (List.mem_of_find?_eq_some hf), of_decide_eq_true h0⟩ h

/-- Where there is room for an entry. -/
theorem DirInv.room_iff (h : DirInv sb d s) :
    (direntSize * freeEntry (dirData sb s d) + direntSize ≤ maxfile * bsize ∧
      ∃ a t, bmap sb d (direntSize * freeEntry (dirData sb s d) / bsize) s = .ok a t ∧ a ≠ 0) ↔
    HasFree (dirData sb s d) ∨ CanExtend sb s d := by
  by_cases hfree : HasFree (dirData sb s d)
  · exact iff_of_true (h.block_exists (freeEntry_lt hfree)) (.inl hfree)
  have hend : direntSize * freeEntry (dirData sb s d) = (dirData sb s d).length := by
    rw [freeEntry_of_full hfree, entryCount]
    exact Nat.mul_div_cancel' (Nat.dvd_of_mod_eq_zero h.whole)
  rw [hend, or_iff_right hfree]
  rfl

/-- A directory below the largest size that cannot be extended is on a full disk. -/
theorem DirInv.full_of_not_canExtend (h : DirInv sb d s) (hno : ¬ CanExtend sb s d)
    (hfit : (dirData sb s d).length + direntSize ≤ maxfile * bsize) :
    wp (bmap sb d ((dirData sb s d).length / bsize)) (fun _ t => Full sb t) (TooBig (s.logged.card + 4)) s := by
  have hlt : (dirData sb s d).length / bsize < maxfile := by
    refine Nat.div_lt_of_lt_mul ?_
    rw [Nat.mul_comm]
    exact Nat.lt_of_lt_of_le (Nat.lt_add_of_pos_right (by decide)) hfit
  have hspec := bmap_spec (h.consistent.held h.valid) hlt (Finset.mem_singleton_self _) (covers_writeBlocks ..)
  cases hx : bmap sb d ((dirData sb s d).length / bsize) s with
  | error e t =>
    have he := (wp_error hspec hx).mono (cost_one_le (Finset.card_singleton _).le)
    rw [wp, hx]
    exact he
  | ok a t =>
    obtain ⟨hmapped, -⟩ := wp_ok hspec hx
    refine wp_of_ok hx (hmapped.full ?_)
    by_contra ha
    exact hno ⟨hfit, a, t, hx, ha⟩

/-- Whether the end of `dirlink` writes the entry. -/
theorem dirlinkWrite_iff (h : DirInv sb d s) (name : Name) (inum : Nat) :
    wp (dirlinkWrite sb d name inum)
      (fun r _ => r = true ↔ HasFree (dirData sb s d) ∨ CanExtend sb s d) (fun _ => True) s := by
  rw [dirlinkWrite, wp_bind, wp_inode]
  refine wp_seq (scanFree_spec h.consistent h.valid) (fun _ _ => trivial) ?_
  rintro ⟨off, de⟩ t ⟨rfl, rfl⟩
  refine wp_seq (writeDirent_iff h.consistent h.valid (entryOffset_le (freeEntry_le _))) (fun _ _ => trivial) ?_
  intro r u hr
  refine wp_pure.mpr ?_
  rw [decide_eq_true_iff, hr]
  exact h.room_iff

/-- A reference that was just taken can be given up. -/
theorem iput_held (h : Consistent sb t) (habs : abs sb t = (abs sb s).hold i) :
    wp (iput sb i) (fun _ u => Consistent sb u ∧ abs sb u = ((abs sb s).hold i).unref i) (fun _ => False) t := by
  have href : (t.icache i).ref = (s.icache i).ref + 1 :=
    (congrFun (congrArg ref habs) i).trans (update_self ..)
  have hvalid : (t.icache i).valid = ((abs sb s).valid i && decide (0 < (abs sb s).ref i)) :=
    (congrFun (congrArg valid habs) i).trans (update_self ..)
  have hlives : ¬ ((t.icache i).ref = 1 ∧ (t.icache i).valid = true ∧ (t.icache i).ip.nlink = 0) := by
    rintro ⟨hone, hv, -⟩
    rw [hvalid, Bool.and_eq_true, decide_eq_true_iff] at hv
    have hpos : 0 < (s.icache i).ref := hv.2
    omega
  rw [iput, wp_bind, wp_get]
  rw [if_neg hlives, ← habs]
  exact iputRef_spec h i

/-! ## The calls keep the directory -/

section

variable (h : DirInv sb d s) (ht : Consistent sb t)
include h ht

/-- The nodes and the lock of the directory are as before. -/
theorem DirInv.of_node (hn : (abs sb t).node = (abs sb s).node)
    (hv : (abs sb t).valid d = true) (hr : 0 < (abs sb t).ref d) : DirInv sb d t ∧ dirData sb t d = dirData sb s d := by
  have hdata : dirData sb t d = dirData sb s d := by rw [dirData, hn, dirData]
  exact ⟨⟨ht, hv, hr, hn ▸ h.type, hdata ▸ h.whole, hdata ▸ h.unique⟩, hdata⟩

/-- Only the bytes of the directory have changed. -/
theorem DirInv.of_setData (habs : abs sb t = (abs sb s).setNode d (((abs sb s).node d).setData data))
    (hwhole : data.length % direntSize = 0) (hu : Unique data) : DirInv sb d t ∧ dirData sb t d = data := by
  have hnode : (abs sb t).node d = ((abs sb s).node d).setData data := by
    rw [habs]
    exact update_self ..
  have hdata : dirData sb t d = data := by
    rw [dirData, hnode]
    rfl
  have hvalid : (abs sb t).valid d = (abs sb s).valid d := habs ▸ rfl
  have href : (abs sb t).ref d = (abs sb s).ref d := habs ▸ rfl
  refine ⟨⟨ht, hvalid.trans h.valid, lt_of_lt_of_eq h.ref href.symm, ?_, hdata ▸ hwhole, hdata ▸ hu⟩, hdata⟩
  rw [hnode]
  exact h.type

theorem DirInv.hold (habs : abs sb t = (abs sb s).hold i) : DirInv sb d t ∧ dirData sb t d = dirData sb s d := by
  have hv : (abs sb s).valid d = true := h.valid
  have hr : 0 < (abs sb s).ref d := h.ref
  refine h.of_node ht (habs ▸ rfl) ?_ ?_
  · rw [habs]
    rcases eq_or_ne d i with rfl | hne
    · simp [Abs.hold, Abs.put, hv, hr]
    · simp [Abs.hold, Abs.put, hne, hv]
  · rw [habs]
    rcases eq_or_ne d i with rfl | hne
    · simp [Abs.hold, Abs.put]
    · simp [Abs.hold, Abs.put, hne, hr]

theorem DirInv.unhold (habs : abs sb t = ((abs sb s).hold i).unref i) :
    DirInv sb d t ∧ dirData sb t d = dirData sb s d := by
  have hv : (abs sb s).valid d = true := h.valid
  have hr : 0 < (abs sb s).ref d := h.ref
  refine h.of_node ht (habs ▸ rfl) ?_ ?_
  · rw [habs]
    rcases eq_or_ne d i with rfl | hne
    · -- the directory itself was found: its own reference is left
      simp [Abs.unref, Abs.hold, Abs.put, hv, hr, hr.ne']
    · simp [Abs.unref, Abs.hold, Abs.put, hne, hv]
  · rw [habs]
    rcases eq_or_ne d i with rfl | hne
    · simp [Abs.unref, Abs.hold, Abs.put, hr]
    · simp [Abs.unref, Abs.hold, Abs.put, hr]

end

/-- `dirlookup` answers for the map: the inode number bound to the key and the offset of its entry. -/
def Found (data : List UInt8) (name : Name) : Option (Nat × Nat) → Prop
  | none => bindings data (key name) = none
  | some (inum, off) => bindings data (key name) = some inum ∧
      ∃ k, k < entryCount data ∧ off = direntSize * k ∧ inumAt data k = inum ∧ key (nameAt data k) = key name

theorem found_of_entry (h : findEntry data name = some k) : Found data name (some (inumAt data k, direntSize * k)) := by
  obtain ⟨hk, -, hname⟩ := findEntry_eq_some h
  refine ⟨?_, k, hk, rfl, rfl, (nameEq_iff.mp hname).symm⟩
  rw [bindings_key, h]
  rfl

theorem LookupStops.noInodes {e : Stop} (he : LookupStops data s e) (hwhole : data.length % direntSize = 0) :
    NoInodes s e := he.resolve_left fun ht => ht.2 hwhole

theorem DirInv.dirlookup (h : DirInv sb d s) (name : Name) :
    wp (dirlookup sb d name)
      (fun r t => DirInv sb d t ∧ dirData sb t d = dirData sb s d ∧ Found (dirData sb s d) name r ∧
        t.logged = s.logged ∧ (r = none → t = s) ∧ ∀ i off, r = some (i, off) → abs sb t = (abs sb s).hold i)
      (NoInodes s) s := by
  refine wp_mono (dirlookup_dir h.consistent h.valid h.type name) ?_ fun e he => he.noInodes h.whole
  rintro r t ⟨ht, hlooked⟩
  have hlogged := looked_logged hlooked
  cases hf : findEntry (dirData sb s d) name with
  | none =>
    obtain ⟨rfl, rfl⟩ := looked_none hf hlooked
    refine ⟨h, rfl, ?_, rfl, fun _ => rfl, fun i off hr => by cases hr⟩
    show bindings _ (key name) = none
    rw [bindings_key, hf]
    rfl
  | some k =>
    obtain ⟨rfl, habs⟩ := looked_some hf hlooked
    obtain ⟨hinv, hdata⟩ := h.hold ht habs
    refine ⟨hinv, hdata, found_of_entry hf, hlogged, fun hr => (by cases hr), fun i off hr => ?_⟩
    cases hr
    exact habs

theorem length_addEntry (data : List UInt8) (inum : Nat) (name : Name) :
    (addEntry data inum name).length = max data.length (direntSize * freeEntry data + direntSize) := by
  rw [addEntry, length_splice (entryOffset_le (freeEntry_le data)), length_encodeDirent]

/-- A directory grows only if no entry of it is free. -/
theorem not_hasFree_of_grown {inum : Nat} (h : data.length < (addEntry data inum name).length) : ¬ HasFree data := by
  intro hfree
  have hin := lt_entryCount_iff.mp (freeEntry_lt hfree)
  rw [length_addEntry, max_eq_left hin] at h
  exact lt_irrefl _ h

/-- What `dirlink` does to the map. -/
structure LinkResult (sb : Superblock) (d : Nat) (name : Name) (inum : Nat) (s : Fs) (r : Bool) (t : Fs) : Prop where
  fails_iff : r = false ↔ bindings (dirData sb s d) (key name) ≠ none ∨
    ¬ HasFree (dirData sb s d) ∧ ¬ CanExtend sb s d
  unchanged : r = false → (abs sb t).node = (abs sb s).node
  bound : r = true → bindings (dirData sb t d) = update (bindings (dirData sb s d)) (key name) (some inum)
  grows : (dirData sb s d).length < (dirData sb t d).length → ¬ HasFree (dirData sb s d)

theorem DirInv.dirlink (h : DirInv sb d s) (name : Name) {inum : Nat} (hpos : 0 < inum) (hlt : inum < 65536) :
    wp (dirlink sb d name inum) (fun r t => DirInv sb d t ∧ LinkResult sb d name inum s r t)
      (fun e => NoInodes s e ∨ TooBig (s.logged.card + 4) e) s := by
  rw [FileSys.dirlink]
  refine wp_seq (h.dirlookup name) (fun _ he => .inl he) ?_
  rintro r t ⟨hinv, hdata, hfound, -, hnone, hsome⟩
  cases r with
  | some found =>
    obtain ⟨i, off⟩ := found
    refine wp_seq (iput_held hinv.consistent (hsome i off rfl)) (fun _ he => he.elim) ?_
    rintro - u ⟨hu, habs⟩
    obtain ⟨hinv', hdata'⟩ := h.unhold hu habs
    refine wp_pure.mpr ⟨hinv', ⟨iff_of_true rfl (.inl ?_), fun _ => habs ▸ rfl, fun hr => (by cases hr), ?_⟩⟩
    · rw [hfound.1]
      exact Option.some_ne_none i
    · rw [hdata']
      exact fun hlt => absurd hlt (lt_irrefl _)
  | none =>
    obtain rfl := hnone rfl
    have habsent : bindings (dirData sb t d) (key name) = none := hfound
    refine wp_mono (wp_and (dirlinkWrite_spec h.consistent h.valid name inum) (dirlinkWrite_iff h name inum)) ?_ ?_
    · rintro r u ⟨⟨hu, hcase⟩, hiff⟩
      have hfails : r = false ↔ bindings (dirData sb t d) (key name) ≠ none ∨
          ¬ HasFree (dirData sb t d) ∧ ¬ CanExtend sb t d := by
        rw [← Bool.not_eq_true, hiff, not_or]
        exact (or_iff_right (not_not.mpr habsent)).symm
      rcases hcase with ⟨rfl, habs⟩ | ⟨rfl, habs⟩
      · have hwhole : (addEntry (dirData sb t d) inum name).length % direntSize = 0 := by
          have := h.whole
          rw [length_addEntry]
          have h16 : direntSize = 16 := rfl
          rw [h16] at this ⊢
          omega
        obtain ⟨hinv', hdata'⟩ := h.of_setData hu habs hwhole (h.unique.addEntry hlt habsent)
        refine ⟨hinv', ⟨hfails, fun hr => (by cases hr), fun _ => ?_, fun hgrown => ?_⟩⟩
        · rw [hdata']
          exact bindings_addEntry h.unique hpos.ne' hlt habsent
        · rw [hdata'] at hgrown
          exact not_hasFree_of_grown hgrown
      · obtain ⟨hinv', hdata'⟩ := h.of_node hu (by rw [habs]) (habs ▸ h.valid) (habs ▸ h.ref)
        refine ⟨hinv', ⟨hfails, fun _ => by rw [habs], fun hr => (by cases hr), fun hgrown => ?_⟩⟩
        rw [hdata'] at hgrown
        exact absurd hgrown (lt_irrefl _)
    · rintro e ⟨ht | hbig, -⟩
      · exact absurd h.whole ht.2
      · exact .inr hbig

/-- What the removal of a name does to the map. -/
structure EraseResult (sb : Superblock) (d : Nat) (name : Name) (s : Fs) (r : Bool) (t : Fs) : Prop where
  found_iff : r = true ↔ bindings (dirData sb s d) (key name) ≠ none
  unbound : bindings (dirData sb t d) = update (bindings (dirData sb s d)) (key name) none
  length : (dirData sb t d).length = (dirData sb s d).length

theorem DirInv.eraseName (h : DirInv sb d s) (name : Name) :
    wp (eraseName sb d name) (fun r t => DirInv sb d t ∧ EraseResult sb d name s r t)
      (fun e => NoInodes s e ∨ TooBig (s.logged.card + 4) e) s := by
  rw [FileSys.eraseName]
  refine wp_seq (h.dirlookup name) (fun _ he => .inl he) ?_
  rintro r t ⟨hinv, hdata, hfound, hlogged, hnone, -⟩
  match r with
  | none =>
    obtain rfl := hnone rfl
    have habsent : bindings (dirData sb t d) (key name) = none := hfound
    refine wp_pure.mpr ⟨h, ⟨iff_of_false Bool.false_ne_true (not_not.mpr habsent), ?_, rfl⟩⟩
    rw [← habsent, update_eq_self]
  | some (i, off) =>
    obtain ⟨hbound, k, hk, rfl, hk_inum, hkey⟩ := hfound
    have hk' : k < entryCount (dirData sb t d) := hdata ▸ hk
    have hlive : inumAt (dirData sb s d) k ≠ 0 := by
      rw [hk_inum]
      exact ((bindings_eq_some_iff h.unique).mp hbound).1
    refine wp_seq (wp_and (writeDirent_spec hinv.consistent hinv.valid rfl List.length_replicate
      (entryOffset_le hk'.le)) (writeDirent_iff hinv.consistent hinv.valid (entryOffset_le hk'.le)))
      (fun _ he => .inr (hlogged ▸ he.1)) ?_
    rintro r u ⟨⟨hu, hcase⟩, hiff⟩
    have hr : r = direntSize := hiff.mpr (hinv.block_exists hk')
    obtain ⟨-, habs⟩ := hcase.resolve_right fun hne => hne.1 hr
    rw [if_neg (not_not.mpr hr)]
    have hlen : (clearEntry (dirData sb t d) k).length = (dirData sb t d).length := by
      rw [clearEntry, length_splice (entryOffset_le hk'.le), List.length_replicate]
      exact max_eq_left (lt_entryCount_iff.mp hk')
    obtain ⟨hinv', hdata'⟩ := hinv.of_setData hu habs (hlen ▸ hinv.whole) (hinv.unique.clearEntry hk')
    have hclear : dirData sb u d = clearEntry (dirData sb s d) k := by rw [hdata', ← hdata]; rfl
    refine wp_pure.mpr ⟨hinv', ⟨iff_of_true rfl ?_, ?_, ?_⟩⟩
    · rw [hbound]
      exact Option.some_ne_none i
    · rw [hclear, bindings_clearEntry h.unique hk hlive, hkey]
    · rw [hclear, ← hdata, hlen]

/-! ## Runs -/

/-- A call on the directory, or a step of the rest of the file system that leaves it alone. -/
inductive DirOp where
  | dirlink (name : Name) (inum : Nat)
  | dirlookup (name : Name)
  | erase (name : Name)
  | other (t : Fs)

def dirNext (sb : Superblock) (d : Nat) (s : Fs) : DirOp → Option Fs
  | .dirlink name inum => if 0 < inum ∧ inum < 65536 then after (dirlink sb d name inum) s else none
  | .dirlookup name => after (dirlookup sb d name) s
  | .erase name => after (eraseName sb d name) s
  | .other t => some t

/-- The rest of the system keeps the directory locked and does not write to it. -/
def LeavesDir (sb : Superblock) (d : Nat) (s : Fs) : DirOp → Prop
  | .other t => Consistent sb t ∧ (abs sb t).node d = (abs sb s).node d ∧ (abs sb t).valid d = true ∧
      0 < (abs sb t).ref d
  | _ => True

theorem DirInv.next (h : DirInv sb d s) {op : DirOp} (hok : LeavesDir sb d s op) (ht : dirNext sb d s op = some t) :
    DirInv sb d t := by
  cases op with
  | dirlink name inum =>
    obtain ⟨⟨hpos, hlt⟩, ht⟩ := Option.ite_none_right_eq_some.mp ht
    exact wp_after (h.dirlink name hpos hlt) (fun _ _ hr => hr.1) ht
  | dirlookup name => exact wp_after (h.dirlookup name) (fun _ _ hr => hr.1) ht
  | erase name => exact wp_after (h.eraseName name) (fun _ _ hr => hr.1) ht
  | other u =>
    cases ht
    obtain ⟨hc, hnode, hv, hr⟩ := hok
    have hdata : dirData sb t d = dirData sb s d := by rw [dirData, hnode, dirData]
    exact ⟨hc, hv, hr, hnode ▸ h.type, hdata ▸ h.whole, hdata ▸ h.unique⟩

/-- In every state that calls on a directory reach, no two entries in use have equal keys and each call acts on the
map of the directory, unless the inode table or the log is full. A directory that cannot be extended has the largest
size or is on a full disk. -/
theorem directory_is_map (hs : Reachable (DirInv sb d) (dirNext sb d) (LeavesDir sb d) s) :
    Unique (dirData sb s d) ∧
    (∀ name inum, 0 < inum → inum < 65536 → wp (dirlink sb d name inum) (LinkResult sb d name inum s)
        (fun e => NoInodes s e ∨ TooBig (s.logged.card + 4) e) s) ∧
    (∀ name, wp (dirlookup sb d name)
        (fun r t => Found (dirData sb s d) name r ∧ dirData sb t d = dirData sb s d) (NoInodes s) s) ∧
    (∀ name, wp (eraseName sb d name) (EraseResult sb d name s)
        (fun e => NoInodes s e ∨ TooBig (s.logged.card + 4) e) s) ∧
    (¬ CanExtend sb s d → (dirData sb s d).length + direntSize ≤ maxfile * bsize →
      wp (bmap sb d ((dirData sb s d).length / bsize)) (fun _ t => Full sb t) (TooBig (s.logged.card + 4)) s) := by
  have h : DirInv sb d s := hs.invariant (DirInv sb d) (fun _ h => h) fun _ _ _ h hok ht => h.next hok ht
  refine ⟨h.unique, fun name inum hpos hlt => ?_, fun name => ?_, fun name => ?_, h.full_of_not_canExtend⟩
  · exact wp_post (h.dirlink name hpos hlt) fun _ _ hr => hr.2
  · exact wp_post (h.dirlookup name) fun _ _ hr => ⟨hr.2.2.1, hr.2.1⟩
  · exact wp_post (h.eraseName name) fun _ _ hr => hr.2

/-- The fresh file system with its root directory locked. -/
def lockedRoot : Fs := putEntry freshFs rootino { ref := 1, valid := true, ip := rootInode } 1

theorem lockedRoot_dirInv : DirInv blankSb rootino lockedRoot := by
  obtain ⟨hc, hnode⟩ := freshFs_consistent.putEntry (i := rootino)
    (e := { ref := 1, valid := true, ip := rootInode }) 1 fun _ => ⟨rfl, by decide, by decide⟩
  have hroot : (abs blankSb lockedRoot).node rootino =
      ⟨.dir, 1, encodeDirent rootino dot ++ encodeDirent rootino dotdot⟩ :=
    (congrFun hnode rootino).trans freshFs_root
  have hdata : dirData blankSb lockedRoot rootino = encodeDirent rootino dot ++ encodeDirent rootino dotdot := by
    rw [dirData, hroot]
  refine ⟨hc, rfl, by decide, by rw [hroot], by rw [hdata]; decide, ?_⟩
  rw [hdata]
  intro j k hj hk hkey
  have hj := (inumOf_ne_zero hj).1
  have hk := (inumOf_ne_zero hk).1
  have hcount : entryCount (encodeDirent rootino dot ++ encodeDirent rootino dotdot) = 2 := by decide
  have hkeys : ∀ j < 2, ∀ k < 2,
      key (nameAt (encodeDirent rootino dot ++ encodeDirent rootino dotdot) j) =
        key (nameAt (encodeDirent rootino dot ++ encodeDirent rootino dotdot) k) → j = k := by decide
  rw [hcount] at hj hk
  exact hkeys j hj k hk hkey

/-- A name that is linked in the root directory. -/
theorem root_binds_name :
    ∃ t, dirlink blankSb rootino [97] 5 lockedRoot = .ok true t ∧
      bindings (dirData blankSb t rootino) =
        update (bindings (dirData blankSb lockedRoot rootino)) (key [97]) (some 5) := by
  have hmap := (directory_is_map (.start lockedRoot_dirInv)).2.1 [97] 5 (by decide) (by decide)
  have hrun : yields (dirlink blankSb rootino [97] 5) lockedRoot (fun r _ => r) = true := by decide +kernel
  obtain ⟨r, t, hrun, rfl⟩ := yields_true hrun
  exact ⟨t, hrun, (wp_ok hmap hrun).bound rfl⟩

/-- Other processes take references to `n` inodes. -/
def holdOthers : Nat → FsM Unit
  | 0 => pure ()
  | n + 1 => do
      let _ ← iget (n + 6)
      holdOthers n

theorem DirInv.holdOthers (n : Nat) : ∀ {s}, DirInv sb d s → wp (holdOthers n) (fun _ t => DirInv sb d t) Anyhow s := by
  induction n with
  | zero => exact fun h => wp_pure.mpr h
  | succ n ih =>
    intro s h
    refine wp_seq (iget_spec h.consistent (n + 6)) (fun _ _ => trivial) ?_
    rintro - t ⟨-, ht, habs⟩
    exact ih (h.hold ht habs).1

/-- A name is linked in the root directory while 49 other inodes come into use. -/
def fillTable : FsM Unit := do
  let _ ← dirlink blankSb rootino [97] 5
  holdOthers 49

theorem fillTable_spec : wp fillTable (fun _ t => DirInv blankSb rootino t) Anyhow lockedRoot := by
  rw [fillTable]
  refine wp_seq (lockedRoot_dirInv.dirlink [97] (by decide) (by decide)) (fun _ _ => trivial) ?_
  exact fun _ _ ht => ht.1.holdOthers 49

/-- With 50 inodes in use the lookup of a name that is bound panics, and with 30 blocks in the transaction the link of a
name that is not, although there is room for its entry. -/
theorem directory_calls_panic :
    (∃ s, DirInv blankSb rootino s ∧ bindings (dirData blankSb s rootino) (key [97]) = some 5 ∧
      stopOf (dirlookup blankSb rootino [97]) s = some (.panic "iget: no inodes")) ∧
    ∃ s, DirInv blankSb rootino s ∧ bindings (dirData blankSb s rootino) (key [97]) = none ∧
      CanExtend blankSb s rootino ∧
      stopOf (dirlink blankSb rootino [97] 5) s = some (.panic "too big transaction") := by
  have hroot := lockedRoot_dirInv
  constructor
  · have hrun : yields fillTable lockedRoot (fun _ s => decide (
        bindings (dirData blankSb s rootino) (key [97]) = some 5 ∧
        stopOf (dirlookup blankSb rootino [97]) s = some (.panic "iget: no inodes"))) = true := by
      decide +kernel
    obtain ⟨_, s, hrun, htest⟩ := yields_true hrun
    have hinv := wp_ok fillTable_spec hrun
    exact ⟨s, hinv, of_decide_eq_true htest⟩
  · -- the only block of the root is there, so there is room in it
    have hmap : yields (bmap blankSb rootino 0) (setLogged lockedRoot (Finset.Ico 70 100))
        (fun a _ => decide (a ≠ 0)) = true := by decide +kernel
    obtain ⟨a, t, hmap, ha⟩ := yields_true hmap
    have hlen : (dirData blankSb (setLogged lockedRoot (Finset.Ico 70 100)) rootino).length = 32 := by decide +kernel
    refine ⟨setLogged lockedRoot (Finset.Ico 70 100), ?_, by decide +kernel, ?_, by decide +kernel⟩
    · exact (hroot.of_node (hroot.consistent.setLogged (Finset.Ico 70 100)) rfl hroot.valid hroot.ref).1
    · rw [CanExtend, hlen]
      exact ⟨by decide, a, t, hmap, of_decide_eq_true ha⟩

end Xv6Lab.FileSys
