import Mathlib.Data.List.Range
import Mathlib.Data.List.TakeWhile
import Xv6Lab.FileSys.Nodes
import Xv6Lab.FileSys.Syscalls

/-!
# Directories as lists of entries

The key of a name is its first `DIRSIZ` characters up to the zero. `namecmp` compares exactly the keys
(`nameEq_iff`) and `strncpy` stores the key with zeros behind (`strncpy_eq`).

The bytes of a directory are read as entries of 16 bytes. `findEntry` is the entry `dirlookup` finds,
`addEntry` the directory after `dirlink` and `clearEntry` the directory after an entry was erased;
`dirlookup_spec`, `dirlinkWrite_spec`, `isdirempty_spec` and `writeDirent_spec` say so.
-/

namespace Xv6Lab.FileSys

open Function Lib.Exec Lib.Segments List

variable {sb : Superblock} {s t : Fs} {d i k : Nat} {data : List UInt8} {name : Name} {r : Option (Nat × Nat)}

/-! ## Names -/

/-- What the directory knows a name by. -/
def key (name : Name) : Name := cstr (name.take dirsiz)

theorem cstr_take_headD (s : Name) (n : Nat) :
    cstr (s.take (n + 1)) = if s.headD 0 ≠ 0 then s.headD 0 :: cstr (s.tail.take n) else [] := by
  cases s with
  | nil => simp [cstr]
  | cons c s =>
    rw [cstr, take_succ_cons, takeWhile_cons]
    by_cases h : c = 0 <;> simp [h, cstr]

theorem strncmp_eq_zero (n : Nat) : ∀ p q : Name, strncmp n p q = 0 ↔ cstr (p.take n) = cstr (q.take n) := by
  induction n with
  | zero => intro p q; simp [strncmp]
  | succ n ih =>
    intro p q
    rw [strncmp, cstr_take_headD p, cstr_take_headD q]
    split
    next h =>
      obtain ⟨hp, hpq⟩ := h
      rw [ih, if_pos hp, if_pos (hpq ▸ hp), hpq, cons.injEq]
      exact (and_iff_right rfl).symm
    next h =>
      -- the first characters differ or both strings end
      rw [Int.sub_eq_zero, Nat.cast_inj, UInt8.toNat_inj]
      split <;> split <;> grind

/-- Names compare equal if and only if their keys are equal. -/
theorem nameEq_iff {s t : Name} : nameEq s t = true ↔ key s = key t := by
  rw [nameEq, decide_eq_true_iff]
  exact strncmp_eq_zero dirsiz s t

theorem strncpyLoop_eq (n : Nat) : ∀ t : Name,
    strncpyLoop n t = cstr (t.take n) ++ List.replicate (n - (cstr (t.take n)).length) 0 := by
  induction n with
  | zero => intro t; simp [strncpyLoop, cstr]
  | succ n ih =>
    intro t
    rw [strncpyLoop, cstr_take_headD]
    split
    next h =>
      rw [ih, cons_append, length_cons, Nat.add_sub_add_right]
    next h => rw [not_not.mp h, nil_append, length_nil, Nat.sub_zero, replicate_succ]

theorem strncpy_eq (name : Name) : strncpy name = key name ++ List.replicate (dirsiz - (key name).length) 0 :=
  strncpyLoop_eq dirsiz name

theorem length_strncpy (name : Name) : (strncpy name).length = dirsiz := by
  have hle : (key name).length ≤ dirsiz := ( takeWhile_prefix _).length_le.trans (length_take_le _ _)
  rw [strncpy_eq, length_append, length_replicate, Nat.add_sub_cancel' hle]

theorem key_strncpy (name : Name) : key (strncpy name) = key name := by
  rw [key, take_of_length_le (length_strncpy name).le, strncpy_eq, cstr, takeWhile_append_of_pos]
  · simp
  · exact fun c hc => mem_takeWhile_imp (p := fun c : UInt8 => decide (c ≠ 0)) hc

/-- The names that compare equal to a stored name are those that compare equal to the name. -/
theorem nameEq_strncpy (s name : Name) : nameEq s (strncpy name) = nameEq s name := by
  rw [Bool.eq_iff_iff, nameEq_iff, nameEq_iff, key_strncpy]

/-! ## Entries -/

/-- The bytes of entry `k` of a directory. -/
def entry (data : List UInt8) (k : Nat) : List UInt8 := (data.drop (direntSize * k)).take direntSize

/-- The inode number in entry `k`. -/
def inumAt (data : List UInt8) (k : Nat) : Nat := direntInum (entry data k)

/-- The name in entry `k`. -/
def nameAt (data : List UInt8) (k : Nat) : Name := direntName (entry data k)

/-- The number of entries. -/
def entryCount (data : List UInt8) : Nat := data.length / direntSize

/-- Entry `k` is in use and has this name. -/
def Matches (data : List UInt8) (name : Name) (k : Nat) : Bool :=
  decide (inumAt data k ≠ 0) && nameEq name (nameAt data k)

/-- The first entry of this name. -/
def findEntry (data : List UInt8) (name : Name) : Option Nat :=
  (List.range (entryCount data)).find? (Matches data name)

/-- The first entry that is not in use, or the end of the directory. -/
def freeEntry (data : List UInt8) : Nat :=
  ((List.range (entryCount data)).find? fun k => inumAt data k = 0).getD (entryCount data)

/-- The directory with a new entry. -/
def addEntry (data : List UInt8) (inum : Nat) (name : Name) : List UInt8 :=
  splice data (direntSize * freeEntry data) (encodeDirent inum name)

/-- The directory with entry `k` erased. -/
def clearEntry (data : List UInt8) (k : Nat) : List UInt8 :=
  splice data (direntSize * k) (List.replicate direntSize 0)

theorem findEntry_eq_some (h : findEntry data name = some k) :
    k < entryCount data ∧ inumAt data k ≠ 0 ∧ nameEq name (nameAt data k) = true := by
  have hmem := mem_of_find?_eq_some h
  have hp := find?_some h
  rw [Matches, Bool.and_eq_true, decide_eq_true_iff] at hp
  exact ⟨mem_range.mp hmem, hp⟩

theorem findEntry_eq_none (h : findEntry data name = none) (hk : k < entryCount data)
    (hi : inumAt data k ≠ 0) : nameEq name (nameAt data k) = false := by
  have hnot := find?_eq_none.mp h k (mem_range.mpr hk)
  rw [Matches, Bool.and_eq_true, decide_eq_true_iff] at hnot
  simpa [hi] using hnot

theorem lt_entryCount_iff : k < entryCount data ↔ direntSize * k + direntSize ≤ data.length := by
  show k < data.length / 16 ↔ 16 * k + 16 ≤ data.length
  omega

theorem entryCount_le (h : data.length ≤ direntSize * k) : entryCount data ≤ k := by
  show data.length / 16 ≤ k
  have h : data.length ≤ 16 * k := h
  omega

/-! ## The entries after a change -/

/-- The inode number in entry `k`, which is 0 after the end of the directory. -/
def inumOf (data : List UInt8) (k : Nat) : Nat := if k < entryCount data then inumAt data k else 0

theorem inumOf_ne_zero (h : inumOf data k ≠ 0) : k < entryCount data ∧ inumOf data k = inumAt data k := by
  unfold inumOf at h ⊢
  split at h
  next hk => exact ⟨hk, if_pos hk⟩
  · exact absurd rfl h

section Splice

variable {bytes : List UInt8} {j : Nat}

theorem entryOffset_le (hj : j ≤ entryCount data) : direntSize * j ≤ data.length := by
  show 16 * j ≤ data.length
  have hj : j ≤ data.length / 16 := hj
  omega

section

variable (hb : bytes.length = direntSize) (hj : j ≤ entryCount data)
include hb hj

/-- Only the entry that is overwritten changes. -/
theorem entry_splice (k : Nat) :
    entry (splice data (direntSize * j) bytes) k = if k = j then bytes else entry data k := by
  have h16 : direntSize = 16 := rfl
  have hoff := entryOffset_le hj
  apply ext_getElem?
  intro m
  rw [entry, getElem?_take, getElem?_drop, getElem?_splice hoff, hb]
  simp only [h16] at hb ⊢
  split
  next hm =>
    rcases eq_or_ne k j with rfl | hk
    · rw [if_pos (by omega), if_pos rfl, Nat.add_sub_cancel_left]
    · rw [if_neg (by omega), if_neg hk, entry, getElem?_take, getElem?_drop, if_pos hm, h16]
  next hm =>
    split
    · exact (getElem?_eq_none (by omega)).symm
    · rw [entry, getElem?_take, if_neg hm]

theorem entryCount_splice : entryCount (splice data (direntSize * j) bytes) = max (entryCount data) (j + 1) := by
  rw [entryCount, length_splice (entryOffset_le hj), hb]
  show max data.length (16 * j + 16) / 16 = max (data.length / 16) (j + 1)
  omega

theorem inumOf_splice : inumOf (splice data (direntSize * j) bytes) = update (inumOf data) j (direntInum bytes) := by
  funext k
  rw [inumOf, entryCount_splice hb hj, inumAt, entry_splice hb hj]
  rcases eq_or_ne k j with rfl | hk
  · rw [update_self, if_pos rfl, if_pos (by omega)]
  · rw [update_of_ne hk, if_neg hk]
    exact if_congr (by omega) rfl rfl

theorem nameAt_splice : nameAt (splice data (direntSize * j) bytes) = update (nameAt data) j (direntName bytes) := by
  funext k
  rw [nameAt, entry_splice hb hj]
  rcases eq_or_ne k j with rfl | hk
  · rw [update_self, if_pos rfl]
  · rw [update_of_ne hk, if_neg hk, nameAt]

end

end Splice

theorem length_encodeDirent (inum : Nat) (name : Name) : (encodeDirent inum name).length = direntSize := by
  rw [encodeDirent, length_cons, length_cons, length_strncpy]

/-- The inode number of an entry is a `ushort`. -/
theorem direntInum_encodeDirent {inum : Nat} (h : inum < 65536) (name : Name) :
    direntInum (encodeDirent inum name) = inum := by
  show (UInt8.ofNat inum).toNat + 256 * (UInt8.ofNat (inum / 256)).toNat = inum
  rw [UInt8.toNat_ofNat', UInt8.toNat_ofNat']
  omega

theorem freeEntry_le (data : List UInt8) : freeEntry data ≤ entryCount data := by
  unfold freeEntry
  cases h : (range (entryCount data)).find? fun k => inumAt data k = 0 with
  | none => exact le_rfl
  | some k => exact (mem_range.mp (mem_of_find?_eq_some h)).le

theorem inumOf_freeEntry (data : List UInt8) : inumOf data (freeEntry data) = 0 := by
  unfold freeEntry
  cases h : (range (entryCount data)).find? fun k => inumAt data k = 0 with
  | none => exact if_neg (lt_irrefl _)
  | some k =>
    have hzero := find?_some h
    refine (if_pos (mem_range.mp (mem_of_find?_eq_some h))).trans ?_
    exact of_decide_eq_true hzero

/-- The inode numbers after `dirlink`. -/
theorem inumOf_addEntry {inum : Nat} (h : inum < 65536) (data : List UInt8) (name : Name) :
    inumOf (addEntry data inum name) = update (inumOf data) (freeEntry data) inum := by
  rw [addEntry, inumOf_splice (length_encodeDirent inum name) (freeEntry_le data), direntInum_encodeDirent h]

theorem nameAt_addEntry (data : List UInt8) (inum : Nat) (name : Name) :
    nameAt (addEntry data inum name) = update (nameAt data) (freeEntry data) (strncpy name) :=
  nameAt_splice (length_encodeDirent inum name) (freeEntry_le data)

/-- The inode numbers after an entry was erased. -/
theorem inumOf_clearEntry (hk : k < entryCount data) : inumOf (clearEntry data k) = update (inumOf data) k 0 :=
  inumOf_splice length_replicate hk.le

theorem nameAt_clearEntry {j : Nat} (hk : k < entryCount data) (hj : j ≠ k) :
    nameAt (clearEntry data k) j = nameAt data j := by
  rw [clearEntry, nameAt_splice length_replicate hk.le, update_of_ne hj]

/-! ## Reading entries -/

/-- No file is longer than its blocks. -/
theorem Sized.size_le (h : Sized sb s i) : (view s i).size ≤ maxfile * bsize := by
  by_contra hlt
  refine h maxfile (not_le.mp hlt) ?_
  have hslot : fileSlot i maxfile = .indirect i nindirect := rfl
  rw [fileBlock, hslot]
  by_contra hne
  exact absurd (direct_of_indirect hne).2 (lt_irrefl _)

/-- The offset of an entry in a file and the end of the entry are 32-bit numbers. -/
theorem dirent_range (h : Consistent sb s) (hv : (s.icache d).valid = true) {off : Nat}
    (hoff : off ≤ (s.icache d).ip.size) : (UInt32.ofNat off).toNat = off ∧
      ¬ BadRange (s.icache d).ip.size (UInt32.ofNat off) (UInt32.ofNat direntSize) := by
  have hle : off ≤ 274432 := hoff.trans (view_of_valid hv ▸ (h.sized hv).size_le)
  have htn : (UInt32.ofNat off).toNat = off := by
    rw [UInt32.toNat_ofNat']
    exact Nat.mod_eq_of_lt (by omega)
  refine ⟨htn, not_badRange_iff.mpr ?_⟩
  rw [ReadRange, htn]
  refine ⟨hoff, ?_⟩
  show off + 16 < _
  omega

/-- An entry is read whole, unless the file ends inside it. -/
theorem readDirent_spec (h : Consistent sb s) (hv : (s.icache d).valid = true) {off : Nat}
    (hoff : off ≤ (s.icache d).ip.size) (msg : String) :
    wp (readDirent sb d off msg)
      (fun de t => t = s ∧ off + direntSize ≤ (s.icache d).ip.size ∧
        de = (((abs sb s).node d).data.drop off).take direntSize)
      (fun e => e = .panic msg ∧ (s.icache d).ip.size < off + direntSize) s := by
  have hview : view s d = (s.icache d).ip := view_of_valid hv
  obtain ⟨htn, hrange⟩ := dirent_range h hv hoff
  have h16 : (UInt32.ofNat direntSize).toNat = 16 := rfl
  rw [readDirent]
  refine wp_seq (readi_spec (h.held hv) (h.sized hv) none _ _) (fun _ he => he.elim) ?_
  rintro r t ⟨rfl, -, hr⟩
  obtain ⟨hbytes, hlen⟩ := hr (hview ▸ hrange) (fits_none 16)
  rw [htn, h16] at hbytes
  have hcount : r.2.length = min 16 ((t.icache d).ip.size - off) := by
    rw [hbytes, length_take, length_drop, length_content, hview]
  have h16' : direntSize = 16 := rfl
  split
  next heq =>
    refine wp_pure.mpr ⟨rfl, by omega, ?_⟩
    rw [hbytes, h.node_eq hv]
  next hne =>
    -- fewer bytes come back only where the file ends
    refine wp_throw.mpr ⟨rfl, ?_⟩
    rw [hlen, hcount, h16'] at hne
    omega

/-- The bytes of the node of a locked inode are as many as its size says. -/
theorem Consistent.length_data (h : Consistent sb s) (hv : (s.icache d).valid = true)
    (hdata : ((abs sb s).node d).data = data) : data.length = (s.icache d).ip.size := by
  rw [← hdata, h.node_eq hv, length_content, view_of_valid hv]

/-- The panic of a directory that ends inside an entry. -/
def Torn (data : List UInt8) (msg : String) (e : Stop) : Prop :=
  e = .panic msg ∧ data.length % direntSize ≠ 0

theorem Torn.harmless {msg : String} {e : Stop} (h : Torn data msg e) (hmsg : msg ≠ "freeing free block")
    (hmsg' : msg ≠ "ilock: no type") : Harmless e := by
  rw [h.1]
  exact harmless_panic hmsg hmsg'

theorem readEntry_spec (h : Consistent sb s) (hv : (s.icache d).valid = true)
    (hdata : ((abs sb s).node d).data = data) (hk : direntSize * k < (s.icache d).ip.size) (msg : String) :
    wp (readDirent sb d (direntSize * k) msg)
      (fun de t => t = s ∧ k < entryCount data ∧ de = entry data k) (Torn data msg) s := by
  have hlen := h.length_data hv hdata
  refine wp_mono (readDirent_spec h hv hk.le msg) ?_ ?_
  · rintro de t ⟨rfl, hwhole, hde⟩
    rw [hdata] at hde
    refine ⟨rfl, lt_entryCount_iff.mpr ?_, hde⟩
    rw [hlen]
    exact hwhole
  · rintro e ⟨he, hshort⟩
    have h16 : direntSize = 16 := rfl
    rw [h16] at hk hshort
    refine ⟨he, ?_⟩
    rw [hlen, h16]
    omega

/-- Why `dirlookup` in a directory of these bytes does not return. -/
def LookupStops (data : List UInt8) (s : Fs) (e : Stop) : Prop := Torn data "dirlookup read" e ∨ NoInodes s e

theorem LookupStops.harmless {e : Stop} (h : LookupStops data s e) : Harmless e := by
  rcases h with h | h
  · exact h.harmless (by decide) (by decide)
  · exact h.harmless

/-- What `dirlookup` of a name in a directory of these bytes does. -/
def Looked (sb : Superblock) (data : List UInt8) (name : Name) (s : Fs) (r : Option (Nat × Nat)) (t : Fs) : Prop :=
  match findEntry data name with
  | none => r = none ∧ t = s
  | some k => r = some (inumAt data k, direntSize * k) ∧
      abs sb t = (abs sb s).hold (inumAt data k) ∧ t.logged = s.logged

theorem looked_none (hf : findEntry data name = none) (h : Looked sb data name s r t) : r = none ∧ t = s := by
  rw [Looked, hf] at h
  exact h

theorem looked_some (hf : findEntry data name = some k) (h : Looked sb data name s r t) :
    r = some (inumAt data k, direntSize * k) ∧ abs sb t = (abs sb s).hold (inumAt data k) := by
  rw [Looked, hf] at h
  exact ⟨h.1, h.2.1⟩

theorem looked_logged (h : Looked sb data name s r t) : t.logged = s.logged := by
  cases hf : findEntry data name with
  | none => rw [(looked_none hf h).2]
  | some k =>
    rw [Looked, hf] at h
    exact h.2.2

/-- A loop over the entries from entry `k` on has ended at entry `j`. -/
structure Scanned (data : List UInt8) (stop : Name → Bool) (k j : Nat) (r : Nat × Option Name) : Prop where
  off : r.1 = direntSize * j
  before : ∀ m, k ≤ m → m < j → stop (entry data m) = false
  found : ∀ de, r.2 = some de → j < entryCount data ∧ de = entry data j ∧ stop de = true
  none : r.2 = none → entryCount data ≤ j ∧ (k ≤ entryCount data → j = entryCount data)

/-- From the first entry on, the loop does what `List.find?` does. -/
theorem Scanned.find {stop : Name → Bool} {j : Nat} {r : Nat × Option Name} (h : Scanned data stop 0 j r) :
    ((List.range (entryCount data)).find? fun k => stop (entry data k)) = r.2.map fun _ => j := by
  cases hr : r.2 with
  | none =>
    refine find?_eq_none.mpr fun m hm => ?_
    rw [h.before m (Nat.zero_le m) ((mem_range.mp hm).trans_le (h.none hr).1)]
    exact Bool.false_ne_true
  | some de =>
    obtain ⟨hj, rfl, hstop⟩ := h.found de hr
    refine find?_range_eq_some.mpr ⟨hstop, mem_range.mpr hj, fun m hm => ?_⟩
    rw [h.before m (Nat.zero_le m) hm]
    rfl

section

variable (h : Consistent sb s) (hv : (s.icache d).valid = true)
include h hv

theorem entryCount_eq : entryCount ((abs sb s).node d).data = (s.icache d).ip.size / direntSize := by
  rw [entryCount, h.length_data hv rfl]

/-- The loop ends at an entry to stop at, or behind the last one. -/
theorem scanDir_spec (hdata : ((abs sb s).node d).data = data) (msg : String) (stop : Name → Bool) (fuel : Nat) :
    ∀ k, entryCount data < k + fuel → wp (scanDir sb d msg stop fuel (direntSize * k))
      (fun r t => t = s ∧ ∃ j, Scanned data stop k j r) (Torn data msg) s := by
  induction fuel with
  | zero =>
    exact fun k hf => wp_pure.mpr ⟨rfl, k, ⟨rfl, fun m _ _ => (by omega), nofun, fun _ => ⟨by omega, by omega⟩⟩⟩
  | succ fuel ih =>
    intro k hf
    rw [scanDir, wp_bind, wp_inode]
    split
    next hlt =>
      refine wp_then (readEntry_spec h hv hdata hlt _) ?_
      rintro de t ⟨rfl, hk, rfl⟩
      split
      next hstop =>
        refine wp_pure.mpr ⟨rfl, k, ⟨rfl, fun m _ _ => (by omega), fun de hde => ?_, nofun⟩⟩
        cases hde
        exact ⟨hk, rfl, hstop⟩
      next hgo =>
        refine wp_post (ih (k + 1) (by omega)) ?_
        rintro r t ⟨rfl, j, hr⟩
        refine ⟨rfl, j, hr.off, fun m hm hmj => ?_, hr.found, fun hnone => ?_⟩
        · rcases Nat.eq_or_lt_of_le hm with rfl | hm
          · exact Bool.eq_false_iff.mpr hgo
          · exact hr.before m hm hmj
        · exact ⟨(hr.none hnone).1, fun _ => (hr.none hnone).2 hk⟩
    next hge =>
      have hle := entryCount_le (h.length_data hv hdata ▸ not_lt.mp hge)
      exact wp_pure.mpr ⟨rfl, k, ⟨rfl, fun m _ _ => (by omega), nofun, fun _ => ⟨hle, fun hk => le_antisymm hk hle⟩⟩⟩

/-- `dirlookup` in a directory. -/
theorem dirlookup_dir (hdir : ((abs sb s).node d).type = .dir) (name : Name) :
    wp (dirlookup sb d name) (fun r t => Consistent sb t ∧ Looked sb ((abs sb s).node d).data name s r t)
      (LookupStops ((abs sb s).node d).data s) s := by
  have hlen := entryCount_eq h hv
  rw [h.node_eq hv] at hdir
  rw [dirlookup, wp_bind, wp_inode, if_pos hdir]
  refine wp_seq (scanDir_spec h hv rfl _ _ _ 0 (by omega)) (fun _ he => .inl he) ?_
  rintro ⟨off, _ | de⟩ t ⟨rfl, j, hr⟩
  · refine wp_pure.mpr ⟨h, ?_⟩
    rw [Looked, show findEntry _ name = none from hr.find]
    exact ⟨rfl, rfl⟩
  · obtain ⟨-, rfl, -⟩ := hr.found de rfl
    refine wp_seq (wp_and (iget_spec h _) (iget_logged ..)) (fun _ he => .inr he.1) ?_
    rintro _ u ⟨⟨rfl, hu, hhold⟩, hlogged⟩
    refine wp_pure.mpr ⟨hu, ?_⟩
    rw [Looked, show findEntry _ name = some j from hr.find]
    exact ⟨congrArg (fun off => some (_, off)) hr.off, hhold, hlogged⟩

/-- `dirlookup` finds the first entry of the name and takes a reference to its inode. -/
theorem dirlookup_spec (name : Name) :
    wp (dirlookup sb d name)
      (fun r t => ((abs sb s).node d).type = .dir ∧ Consistent sb t ∧
        Looked sb ((abs sb s).node d).data name s r t) Harmless s := by
  by_cases hdir : ((abs sb s).node d).type = .dir
  · exact wp_mono (dirlookup_dir h hv hdir name) (fun r t hr => ⟨hdir, hr⟩) fun _ he => he.harmless
  · rw [h.node_eq hv] at hdir
    rw [dirlookup, wp_bind, wp_inode, if_neg hdir]
    exact wp_throw.mpr (harmless_panic (by decide) (by decide))

/-- The loop of `dirlink` ends at the first free entry. -/
theorem scanFree_spec :
    wp (scanDir sb d "dirlink read" (fun de => direntInum de = 0) ((s.icache d).ip.size / direntSize + 1) 0)
      (fun r t => t = s ∧ r.1 = direntSize * freeEntry ((abs sb s).node d).data)
      (Torn ((abs sb s).node d).data "dirlink read") s := by
  have hlen := entryCount_eq h hv
  refine wp_post (scanDir_spec h hv rfl _ _ _ 0 (by omega)) ?_
  rintro r t ⟨rfl, j, hr⟩
  refine ⟨rfl, hr.off.trans (congrArg (direntSize * ·) ?_)⟩
  rw [freeEntry, show List.find? (fun k => inumAt _ k = 0) _ = _ from hr.find]
  cases hde : r.2 with
  | none => exact (hr.none hde).2 (Nat.zero_le _)
  | some de => rfl

/-- An empty directory has only its first two entries. -/
theorem isdirempty_spec :
    wp (isdirempty sb d)
      (fun r t => t = s ∧ (r = true → ∀ j, 2 ≤ j → j < entryCount ((abs sb s).node d).data →
        inumAt ((abs sb s).node d).data j = 0)) Harmless s := by
  have hlen := entryCount_eq h hv
  rw [isdirempty, wp_bind, wp_inode, Nat.mul_comm]
  refine wp_seq (scanDir_spec h hv rfl _ _ _ 2 (by omega)) (fun _ he => he.harmless (by decide) (by decide)) ?_
  rintro r t ⟨rfl, j, hr⟩
  refine wp_pure.mpr ⟨rfl, fun hempty m hm hmn => ?_⟩
  have hend := (hr.none (Option.isNone_iff_eq_none.mp hempty)).1
  simpa [inumAt] using hr.before m hm (hmn.trans_le hend)

end

/-! ## Writing entries -/

theorem setNode_self (a : Abs) (i : Nat) : a.setNode i (a.node i) = a :=
  Abs.ext (update_eq_self i a.node) rfl rfl rfl rfl

/-- To write in one block of a file four blocks are logged at most, before that of the inode: the block and the indirect
block, each with its block of the free map if it is new. -/
theorem cost_one_le {Q : Finset Nat} (hQ : Q.card ≤ 1) :
    cost (writeBlocks sb d Q s) s ≤ s.logged.card + 4 := by
  have hmissing : (missing sb d Q s).card ≤ Q.card := Finset.card_filter_le _ _
  have hblocks := card_writeBlocks_le sb d Q s
  refine (Finset.card_union_le _ _).trans ?_
  omega

/-- An entry lies in one block. -/
theorem card_spanBlocks_dirent (k : Nat) : (spanBlocks (direntSize * k) direntSize).card ≤ 1 := by
  rw [spanBlocks, Nat.card_Ico, Nat.add_sub_cancel_left]
  show (if (16 : Nat) = 0 then 0 else (16 * k % 1024 + 16 - 1) / 1024 + 1) ≤ 1
  rw [if_neg (by omega)]
  omega

/-- Entries do not cross blocks, so an entry is written whole or not at all. -/
theorem writeDirent_spec (h : Consistent sb s) (hv : (s.icache d).valid = true)
    (hdata : ((abs sb s).node d).data = data) {bytes : List UInt8}
    (hb : bytes.length = direntSize) (hoff : direntSize * k ≤ data.length) :
    wp (writei sb d (kernelBuf bytes) (UInt32.ofNat (direntSize * k)) (UInt32.ofNat direntSize))
      (fun r t => Consistent sb t ∧
        (r = direntSize ∧ abs sb t = (abs sb s).setNode d
          (((abs sb s).node d).setData (splice data (direntSize * k) bytes)) ∨
        r ≠ direntSize ∧ abs sb t = abs sb s)) (TooBig (s.logged.card + 4)) s := by
  have hcontent : content sb s d = data := by
    rw [← hdata, h.node_eq hv]
  obtain ⟨htn, hrange⟩ := dirent_range h hv (h.length_data hv hdata ▸ hoff)
  rw [← view_of_valid hv] at hrange
  have h16 : (UInt32.ofNat direntSize).toNat = 16 := rfl
  refine wp_mono (writei_spec h hv _ _ _) (fun r t hr => ?_) fun e he => ?_
  swap
  · rw [WriteStops, htn, h16] at he
    exact he.2.mono (cost_one_le (card_spanBlocks_dirent k))
  rw [htn, h16] at hr
  rcases Nat.lt_or_ge (maxfile * bsize) (direntSize * k + 16) with hbig | hfit
  · -- the largest size is reached
    obtain ⟨rfl, rfl⟩ := hr.1 (.inr hbig)
    exact ⟨h, .inr ⟨by decide, rfl⟩⟩
  have hw := hr.2 hrange hfit
  obtain ⟨q, rfl, hq, -, hwhole, hbytes⟩ := hw.result
  obtain ⟨-, habs⟩ := hw.abs_eq h hv
  refine ⟨hw.consistent, ?_⟩
  have hroom : min 16 (bsize - direntSize * k % bsize) = 16 := by
    show min 16 (1024 - 16 * k % 1024) = 16
    omega
  have hbytes := hbytes (fits_none _)
  rw [hroom] at hwhole
  rcases hwhole with rfl | hwhole
  · -- `bmap` found no block
    refine .inr ⟨by decide, habs.trans ?_⟩
    rw [hbytes, seg_zero, splice_nil, hcontent, ← hdata]
    exact setNode_self (abs sb s) d
  obtain rfl : q = 16 := le_antisymm hq hwhole
  refine .inl ⟨rfl, habs.trans ?_⟩
  have hseg : seg (kernelBuf bytes).bytes 0 16 = bytes := by
    have hb : bytes.length = 16 := hb
    rw [← hb]
    exact seg_getD bytes 0
  rw [hbytes, hseg, hcontent]

/-- The end of `dirlink`, which writes the first free entry. -/
theorem dirlinkWrite_spec (h : Consistent sb s) (hv : (s.icache d).valid = true) (name : Name) (inum : Nat) :
    wp (dirlinkWrite sb d name inum)
      (fun r t => Consistent sb t ∧
        (r = true ∧ abs sb t = (abs sb s).setNode d
          (((abs sb s).node d).setData (addEntry ((abs sb s).node d).data inum name)) ∨
        r = false ∧ abs sb t = abs sb s))
      (fun e => Torn ((abs sb s).node d).data "dirlink read" e ∨ TooBig (s.logged.card + 4) e) s := by
  rw [dirlinkWrite, wp_bind, wp_inode]
  refine wp_seq (scanFree_spec h hv) (fun _ he => .inl he) ?_
  rintro ⟨off, de⟩ t ⟨rfl, rfl⟩
  refine wp_seq (writeDirent_spec h hv rfl (length_encodeDirent inum name)
    (entryOffset_le (freeEntry_le _))) (fun _ he => .inr he) ?_
  rintro r u ⟨hu, ⟨rfl, habs⟩ | ⟨hne, habs⟩⟩
  · exact wp_pure.mpr ⟨hu, .inl ⟨decide_eq_true rfl, habs⟩⟩
  · exact wp_pure.mpr ⟨hu, .inr ⟨decide_eq_false hne, habs⟩⟩

end Xv6Lab.FileSys
