import Xv6Lab.Lib.Tally
import Xv6Lab.FileSys.Directories

/-!
# References to inodes

A reference to an inode is held by a process, as its current directory, by an open file, or for the
time of a call by the call itself. `Refs X tmp a` says that the call holds the references `tmp`; if `X`
holds it says moreover that the reference counts are exact and that an inode in use without links is
held by a process or a file. The lemmas `Refs.hold`, `Refs.dup`, `Refs.load`, `Refs.drop` and
`Refs.setNode` follow the operations on nodes. While the counts are exact, giving up a reference of the
call does not free anything (`Refs.drop_node`), and whatever frees an inode frees one without links
(`reaps_drop`).
-/

namespace Xv6Lab.FileSys

open Function Lib.Exec Lib.Tally Multiset

variable {sb : Superblock} {s t : Fs} {a b : Abs} {i j : Nat} {tmp : Multiset Nat} {X P P' : Prop} {n : Node}

/-! ## Who holds an inode -/

/-- The inode an open file holds. -/
def File.target (e : File) : Option Nat :=
  if e.kind = .inode ∨ e.kind = .device then some e.ip else none

/-- The number of references that processes and open files hold. -/
def Abs.holders (a : Abs) (i : Nat) : Nat :=
  tally Finset.univ (fun p => (a.procs p).map Proc.cwd) (some i) +
    tally Finset.univ (fun f => (a.ftable f).target) (some i)

/-- A process holds its current directory. -/
theorem Abs.holders_cwd {p : Fin nproc} {pr : Proc} (h : a.procs p = some pr) : 0 < a.holders pr.cwd :=
  Nat.add_pos_left (tally_pos.mpr ⟨p, Finset.mem_univ p, h ▸ rfl⟩) _

/-- In use without links. -/
def Abs.Orphan (a : Abs) (i : Nat) : Prop := (a.node i).type ≠ .free ∧ (a.node i).nlink = 0

/-- The references a call holds, and whether all references are accounted for. -/
structure Refs (X : Prop) (tmp : Multiset Nat) (a : Abs) : Prop where
  le : ∀ i, tmp.count i ≤ a.ref i
  exact : X → ∀ i, a.ref i = a.holders i + tmp.count i
  held : X → ∀ i, a.Orphan i → a.valid i = true ∧ 0 < a.holders i
  used : X → ∀ i, 0 < a.holders i → (a.node i).type ≠ .free
  closed : X → ∀ f, (a.ftable f).ref = 0 → (a.ftable f).kind = .none

/-- A call may always start. -/
theorem Refs.start : Refs False 0 a :=
  ⟨fun i => by rw [count_zero]; exact Nat.zero_le _, nofun, nofun, nofun, nofun⟩

theorem Refs.pos (h : Refs X tmp a) (hi : i ∈ tmp) : 0 < a.ref i :=
  (count_pos.mpr hi).trans_le (h.le i)

/-- Only inodes in use are loaded. -/
theorem Consistent.used_of_valid (h : Consistent sb s) (hv : (s.icache i).valid = true) :
    ((abs sb s).node i).type ≠ .free := fun hfree =>
  nodeOf_type_free_iff.mp hfree (h.held hv).allocated

/-! ## The table -/

section Put

variable {r : Nat} {v : Bool}

theorem put_ref_self : (a.put i r v).ref i = r := update_self ..

theorem put_ref_ne (h : j ≠ i) : (a.put i r v).ref j = a.ref j := update_of_ne h ..

theorem put_valid_self : (a.put i r v).valid i = v := update_self ..

theorem put_valid_ne (h : j ≠ i) : (a.put i r v).valid j = a.valid j := update_of_ne h ..

/-- Another number of references of the call to one inode. -/
theorem Refs.put {tmp' : Multiset Nat} (h : Refs X tmp a) (hne : ∀ j ≠ i, tmp'.count j = tmp.count j)
    (hi : r + tmp.count i = a.ref i + tmp'.count i) (hv : 0 < a.ref i → a.valid i = true → v = true) :
    Refs X tmp' (a.put i r v) where
  le j := by
    have hle := h.le j
    rcases eq_or_ne j i with rfl | hj
    · rw [put_ref_self]
      omega
    · rw [put_ref_ne hj, hne j hj]
      exact hle
  exact hX j := by
    have heq : a.ref j = a.holders j + tmp.count j := h.exact hX j
    show _ = a.holders j + _
    rcases eq_or_ne j i with rfl | hj
    · rw [put_ref_self]
      omega
    · rw [put_ref_ne hj, hne j hj]
      exact heq
  held hX j hj := by
    obtain ⟨hval, hpos⟩ := h.held hX j hj
    refine ⟨?_, hpos⟩
    rcases eq_or_ne j i with rfl | hji
    · rw [put_valid_self]
      have heq := h.exact hX j
      exact hv (by omega) hval
    · rw [put_valid_ne hji]
      exact hval
  used := h.used
  closed := h.closed

end Put

theorem Refs.hold (h : Refs X tmp a) (i : Nat) : Refs X (i ::ₘ tmp) (a.hold i) := by
  refine h.put (fun j hj => count_cons_of_ne hj tmp) ?_ fun hpos hv => ?_
  · rw [count_cons_self]
    omega
  · rw [hv, decide_eq_true hpos]
    rfl

theorem Refs.dup (h : Refs X tmp a) (i : Nat) : Refs X (i ::ₘ tmp) (a.dup i) := by
  refine h.put (fun j hj => count_cons_of_ne hj tmp) ?_ fun _ hv => hv
  rw [count_cons_self]
  omega

theorem Refs.load (h : Refs X tmp a) (i : Nat) : Refs X tmp (a.load i) :=
  h.put (fun _ _ => rfl) rfl fun _ _ => rfl

theorem node_setNode_self : (a.setNode i n).node i = n := update_self ..

theorem node_setNode_ne (h : j ≠ i) : (a.setNode i n).node j = a.node j :=
  update_of_ne h ..

/-- A node changes that does not lose its last link. -/
theorem Refs.setNode (h : Refs X tmp a) (htype : n.type ≠ .free)
    (hn : X → n.nlink = 0 → a.Orphan i) : Refs X tmp (a.setNode i n) where
  le := h.le
  exact := h.exact
  held hX j hj := by
    refine h.held hX j ?_
    rcases eq_or_ne j i with rfl | hji
    · refine hn hX ?_
      have h0 := hj.2
      rwa [node_setNode_self] at h0
    · rw [Abs.Orphan, node_setNode_ne hji] at hj
      exact hj
  used hX j hj := by
    rcases eq_or_ne j i with rfl | hji
    · rw [node_setNode_self]
      exact htype
    · rw [node_setNode_ne hji]
      exact h.used hX j hj
  closed := h.closed

/-! ## Giving up a reference -/

/-- Some inodes without links are freed. -/
def Reaps (f g : Nat → Node) : Prop := ∀ j, g j = f j ∨ g j = Node.free ∧ (f j).nlink = 0

theorem Reaps.refl (f : Nat → Node) : Reaps f f := fun _ => .inl rfl

theorem Reaps.trans {f g h : Nat → Node} (hfg : Reaps f g) (hgh : Reaps g h) : Reaps f h := by
  intro j
  rcases hgh j with heq | ⟨hfree, h0⟩
  · rw [heq]
    exact hfg j
  · rcases hfg j with heq | ⟨-, h0'⟩
    · exact .inr ⟨hfree, heq ▸ h0⟩
    · exact .inr ⟨hfree, h0'⟩

theorem Reaps.update {f g : Nat → Node} (h : Reaps f g) (i : Nat) (n : Node) :
    Reaps (update f i n) (update g i n) := by
  intro j
  rcases eq_or_ne j i with rfl | hj
  · rw [update_self, update_self]
    exact .inl rfl
  · rw [update_of_ne hj, update_of_ne hj]
    exact h j

/-- Giving up a reference frees nothing but inodes without links. -/
theorem reaps_drop (a : Abs) (i : Nat) : Reaps a.node (a.drop i).node := by
  intro j
  unfold Abs.drop
  split
  next hdies =>
    rcases eq_or_ne j i with rfl | hj
    · exact .inr ⟨update_self .., hdies.2.2⟩
    · exact .inl (update_of_ne hj ..)
  · exact .inl rfl

theorem drop_node_ne (a : Abs) (h : j ≠ i) : (a.drop i).node j = a.node j := by
  unfold Abs.drop
  split
  · exact update_of_ne h ..
  · rfl

theorem drop_procs (a : Abs) (i : Nat) : (a.drop i).procs = a.procs ∧ (a.drop i).ftable = a.ftable := by
  unfold Abs.drop
  split <;> exact ⟨rfl, rfl⟩

theorem drop_ref (a : Abs) (i j : Nat) : (a.drop i).ref j = if j = i then a.ref i - 1 else a.ref j := by
  have hunref : ∀ a : Abs, (a.unref i).ref j = if j = i then a.ref i - 1 else a.ref j := by
    intro a
    split
    next h => rw [h, Abs.unref, put_ref_self]
    next h => rw [Abs.unref, put_ref_ne h]
  unfold Abs.drop
  split
  · exact hunref _
  · exact hunref a

theorem drop_valid (a : Abs) (i j : Nat) :
    (a.drop i).valid j = if j = i then (a.valid i && decide (a.ref i ≠ 1)) else a.valid j := by
  have hunref : ∀ a : Abs, (a.unref i).valid j =
      if j = i then (a.valid i && decide (a.ref i ≠ 1)) else a.valid j := by
    intro a
    split
    next h => rw [h, Abs.unref, put_valid_self]
    next h => rw [Abs.unref, put_valid_ne h]
  unfold Abs.drop
  split
  · exact hunref _
  · exact hunref a

/-- As `Refs` for a call that holds `tmp` and another reference to inode `i`, which may have lost its last
link or its last holder. -/
structure Loose (X : Prop) (tmp : Multiset Nat) (i : Nat) (a : Abs) : Prop where
  le : ∀ j, (i ::ₘ tmp).count j ≤ a.ref j
  exact : X → ∀ j, a.ref j = a.holders j + (i ::ₘ tmp).count j
  held : X → ∀ j, a.Orphan j → a.valid j = true ∧ (0 < a.holders j ∨ j = i ∧ i ∉ tmp)
  used : X → ∀ j, 0 < a.holders j → (a.node j).type ≠ .free
  closed : X → ∀ f, (a.ftable f).ref = 0 → (a.ftable f).kind = .none

theorem Refs.loose (h : Refs X (i ::ₘ tmp) a) : Loose X tmp i a :=
  ⟨h.le, h.exact, fun hX j hj => ⟨(h.held hX j hj).1, .inl (h.held hX j hj).2⟩, h.used, h.closed⟩

/-- The inode changes before its reference is given up. -/
theorem Loose.setNode (h : Loose X tmp i a) (htype : n.type ≠ .free)
    (hv : a.valid i = true) (hi : X → n.nlink = 0 → i ∉ tmp) : Loose X tmp i (a.setNode i n) where
  le := h.le
  exact := h.exact
  held hX j hj := by
    rcases eq_or_ne j i with rfl | hji
    · have h0 := hj.2
      rw [node_setNode_self] at h0
      exact ⟨hv, .inr ⟨rfl, hi hX h0⟩⟩
    · rw [Abs.Orphan, node_setNode_ne hji] at hj
      exact h.held hX j hj
  used hX j hj := by
    rcases eq_or_ne j i with rfl | hji
    · rw [node_setNode_self]
      exact htype
    · rw [node_setNode_ne hji]
      exact h.used hX j hj
  closed := h.closed

/-- The call still holds the inode, so the inode stays loaded. -/
theorem Loose.drop_valid (h : Loose X tmp i a) (hj : j ∈ tmp) (hv : a.valid j = true) :
    (a.drop i).valid j = true := by
  rw [FileSys.drop_valid]
  split
  next hji =>
    have hle := h.le i
    have hpos : 0 < tmp.count i := count_pos.mpr (hji ▸ hj)
    rw [count_cons_self] at hle
    rw [← hji, hv, hji, decide_eq_true (by omega)]
    rfl
  · exact hv

theorem drop_holders (a : Abs) (i j : Nat) : (a.drop i).holders j = a.holders j := by
  rw [Abs.holders, Abs.holders, (drop_procs a i).1, (drop_procs a i).2]

/-- A reference is given up that may be the last one. -/
theorem Loose.drop (h : Loose X tmp i a) : Refs X tmp (a.drop i) where
  le j := by
    have hle := h.le j
    rw [drop_ref]
    split
    next hji =>
      rw [hji, count_cons_self] at hle
      rw [hji]
      omega
    next hji => rwa [count_cons_of_ne hji] at hle
  exact hX j := by
    have heq := h.exact hX j
    rw [drop_ref, drop_holders]
    split
    next hji =>
      rw [hji, count_cons_self] at heq
      rw [hji]
      omega
    next hji => rwa [count_cons_of_ne hji] at heq
  held hX j hj := by
    have hnode : (a.drop i).node j = a.node j := by
      refine (reaps_drop a i j).resolve_right fun hfree => hj.1 ?_
      rw [hfree.1]
      rfl
    rw [Abs.Orphan, hnode] at hj
    obtain ⟨hv, hheld⟩ := h.held hX j hj
    rw [drop_holders, FileSys.drop_valid]
    rcases eq_or_ne j i with rfl | hji
    · -- the inode was not freed, so this was not its last reference
      have hne : a.ref j ≠ 1 := by
        intro hone
        have hfree : (a.drop j).node j = Node.free := by
          rw [Abs.drop, if_pos ⟨hone, hv, hj.2⟩]
          exact update_self ..
        rw [← hnode, hfree] at hj
        exact hj.1 rfl
      have heq := h.exact hX j
      rw [count_cons_self] at heq
      rw [if_pos rfl, hv, decide_eq_true hne]
      refine ⟨rfl, hheld.elim id fun hnot => ?_⟩
      rw [count_eq_zero_of_notMem hnot.2] at heq
      omega
    · rw [if_neg hji]
      exact ⟨hv, hheld.resolve_right fun hc => hji hc.1⟩
  used hX j hj := by
    rw [drop_holders] at hj
    have hnot : ¬ (j = i ∧ a.Dies i) := by
      rintro ⟨rfl, hdies⟩
      have heq := h.exact hX j
      rw [count_cons_self, hdies.1] at heq
      omega
    unfold Abs.drop
    split
    next hdies =>
      have hji : j ≠ i := fun hc => hnot ⟨hc, hdies⟩
      show (update a.node i Node.free j).type ≠ .free
      rw [update_of_ne hji]
      exact h.used hX j hj
    · exact h.used hX j hj
  closed := by
    rw [(drop_procs a i).2]
    exact h.closed

theorem Refs.drop (h : Refs X (i ::ₘ tmp) a) : Refs X tmp (a.drop i) := h.loose.drop

/-- A reference of the call is not the last one to an inode without links. -/
theorem Refs.drop_node (h : Refs X (i ::ₘ tmp) a) (hX : X)
    (hu : a.valid i = true → (a.node i).type ≠ .free) : (a.drop i).node = a.node := by
  have hnot : ¬ a.Dies i := by
    rintro ⟨hone, hv, h0⟩
    have hpos := (h.held hX i ⟨hu hv, h0⟩).2
    have heq := h.exact hX i
    rw [count_cons_self] at heq
    omega
  rw [Abs.drop, if_neg hnot]
  rfl

end Xv6Lab.FileSys
