import Xv6Lab.Memory.PageTable

/-!
# Owners of physical pages

The abstract state `Abs` says who owns each physical page and what each page table maps; a page table is named by
its root page. `Rep img A s` says that the memory `s` holds the abstract state `A`: the free list has every free
page once, the pages of a table are the nodes of a radix tree, and the tree holds the entries of `A`. The rules of
this module say what `kalloc`, `kfree`, `walk`, `mappages` and `uvmunmap` of one page do to the abstract state.
They never stop with an error.
-/

namespace Xv6Lab.Memory

open Function Lib.Exec
open Lib.RadixTree

/-! ## The abstract state -/

/-- The owner of a page: nobody because it is not managed by the allocator, the free list, a page table as one of
its nodes, a page table as the page mapped at page number `v`, or the running code and its data structures. -/
inductive Owner where
  | outside
  | free
  | node (pt : Nat)
  | leaf (pt v : Nat)
  | held
  deriving DecidableEq

/-- The page holds data. -/
def Owner.IsData : Owner → Prop
  | .leaf _ _ => True
  | .held => True
  | _ => False

structure Abs where
  own : Nat → Owner
  /-- The entry of a page table for a page number. -/
  ent : Nat → Nat → Option Nat

namespace Abs

def setOwn (A : Abs) (q : Nat) (o : Owner) : Abs := { A with own := update A.own q o }

def setEnt (A : Abs) (pt v : Nat) (e : Option Nat) : Abs :=
  { A with ent := update A.ent pt (update (A.ent pt) v e) }

variable {A : Abs} {q r pt pt' v w : Nat} {o : Owner} {e : Option Nat} {page perm : Nat}

@[simp] theorem setOwn_ent : (A.setOwn q o).ent = A.ent := rfl

@[simp] theorem setEnt_own : (A.setEnt pt v e).own = A.own := rfl

theorem setOwn_self : (A.setOwn q o).own q = o := by simp [setOwn]

theorem setOwn_of_ne (h : r ≠ q) : (A.setOwn q o).own r = A.own r := by simp [setOwn, h]

/-- Who owns a page in another way than the changed one. -/
theorem setOwn_iff {x : Owner} (hnew : o ≠ x) (hold : A.own q ≠ x) : (A.setOwn q o).own r = x ↔ A.own r = x := by
  rcases eq_or_ne r q with rfl | hr
  · rw [setOwn_self]
    exact iff_of_false hnew hold
  · rw [setOwn_of_ne hr]

theorem held_isData : ((A.setOwn q .held).own q).IsData := by
  rw [setOwn_self]
  trivial

theorem setEnt_ent : (A.setEnt pt v e).ent pt = update (A.ent pt) v e := by simp [setEnt]

theorem setEnt_self : (A.setEnt pt v e).ent pt v = e := by simp [setEnt]

theorem setEnt_of_ne (h : w ≠ v) : (A.setEnt pt v e).ent pt w = A.ent pt w := by simp [setEnt, h]

theorem setEnt_other (h : pt' ≠ pt) : (A.setEnt pt v e).ent pt' = A.ent pt' := by simp [setEnt, h]

theorem setEnt_apply (h : ¬ (pt' = pt ∧ w = v)) : (A.setEnt pt v e).ent pt' w = A.ent pt' w := by
  rcases eq_or_ne pt' pt with rfl | hne
  · exact setEnt_of_ne fun heq => h ⟨rfl, heq⟩
  · rw [setEnt_other hne]

/-- The page `q` is the root of an empty page table. -/
def newTable (A : Abs) (q : Nat) : Abs where
  own := update A.own q (.node q)
  ent := update A.ent q fun _ => none

theorem newTable_own_self : (A.newTable q).own q = .node q := by simp [newTable]

theorem newTable_own_of_ne (h : r ≠ q) : (A.newTable q).own r = A.own r := by simp [newTable, h]

theorem newTable_ent_self : (A.newTable q).ent q v = none := by simp [newTable]

theorem newTable_ent_of_ne (h : pt ≠ q) : (A.newTable q).ent pt = A.ent pt := by simp [newTable, h]

end Abs

/-! ## Memory that holds an abstract state -/

structure TableRep (A : Abs) (mem : Nat → Page) (pt : Nat) : Prop where
  tree : Tree pteFormat mem 2 pt
  plain : Inner pteFormat mem Plain 2 pt
  nodes_iff : ∀ q, q ∈ tablePages mem pt ↔ A.own q = .node pt
  entry : ∀ v, v < 2 ^ 27 → entryAt mem pt (v * pgsize) = A.ent pt v

structure Rep (img : Image) (A : Abs) (s : Vm) : Prop where
  distinct : s.free.Nodup
  free : ∀ q, q ∈ s.free ↔ A.own q = .free
  outside : ∀ q, A.own q = .outside ↔ ¬ (img.firstPage ≤ q ∧ q < phystopPage)
  root : ∀ q pt, A.own q = .node pt → A.own pt = .node pt
  table : ∀ pt, A.own pt = .node pt → TableRep A s.mem pt

/-- A run that meets no error. -/
abbrev Never : String → Prop := fun _ => False

section Rules

variable {img : Image} {A B : Abs} {s t : Vm} {pt va q : Nat}

theorem TableRep.congr {mem mem' : Nat → Page} (h : TableRep A mem pt)
    (hown : ∀ q, B.own q = .node pt ↔ A.own q = .node pt) (hent : B.ent pt = A.ent pt)
    (hmem : ∀ q, A.own q = .node pt → mem' q = mem q) : TableRep B mem' pt := by
  have hagree : ∀ q ∈ nodes pteFormat mem 2 pt, mem' q = mem q := fun q hq => hmem q ((h.nodes_iff q).mp hq)
  refine ⟨tree_congr hagree h.tree, inner_congr hagree h.plain, fun q => ?_, fun v hv => ?_⟩
  · rw [tablePages, nodes_congr hagree, hown q]
    exact h.nodes_iff q
  · rw [entryAt, lookup_congr hagree, hent]
    exact h.entry v hv

/-- A change that leaves the page tables alone. -/
theorem Rep.change (h : Rep img A s) (hnode : ∀ q pt, B.own q = .node pt ↔ A.own q = .node pt)
    (hent : B.ent = A.ent) (hmem : ∀ q pt, A.own q = .node pt → t.mem q = s.mem q)
    (hdistinct : t.free.Nodup) (hfree : ∀ q, q ∈ t.free ↔ B.own q = .free)
    (hout : ∀ q, B.own q = .outside ↔ A.own q = .outside) : Rep img B t where
  distinct := hdistinct
  free := hfree
  outside q := (hout q).trans (h.outside q)
  root q pt hq := (hnode pt pt).mpr (h.root q pt ((hnode q pt).mp hq))
  table pt hpt := (h.table pt ((hnode pt pt).mp hpt)).congr (fun q => hnode q pt) (by rw [hent])
    fun q hq => hmem q pt hq

theorem Owner.IsData.ne_node {o : Owner} (h : o.IsData) (pt : Nat) : o ≠ .node pt := by
  rintro rfl
  exact h

theorem Owner.IsData.ne_free {o : Owner} (h : o.IsData) : o ≠ .free := by
  rintro rfl
  exact h

theorem Owner.IsData.ne_outside {o : Owner} (h : o.IsData) : o ≠ .outside := by
  rintro rfl
  exact h

theorem Rep.in_range (h : Rep img A s) (hq : A.own q ≠ .outside) : img.firstPage ≤ q ∧ q < phystopPage :=
  not_not.mp fun hn => hq ((h.outside q).mpr hn)

/-- Pages of the allocator have numbers that fit an entry. -/
theorem Rep.small (h : Rep img A s) (hq : A.own q ≠ .outside) : q < 2 ^ 52 := by
  have hin := h.in_range hq
  have hstop : phystopPage < 2 ^ 52 := by decide
  omega

/-! ## The allocator -/

open Abs

/-- The page that `kalloc` returns is held by its caller. -/
theorem kalloc_spec (h : Rep img A s) : wp kalloc (fun r t => match r with
    | none => t = s ∧ s.free.length = 0
    | some q => A.own q = .free ∧ Rep img (A.setOwn q .held) t ∧ (∀ x ≠ q, t.mem x = s.mem x) ∧
        s.free.length = t.free.length + 1) Never s := by
  cases hfree : s.free with
  | nil => exact wp_of_ok (kalloc_nil hfree) ⟨rfl, rfl⟩
  | cons q rest =>
    have hdist := h.distinct
    rw [hfree, List.nodup_cons] at hdist
    have hq : A.own q = .free := (h.free q).mp (hfree ▸ List.mem_cons_self)
    have hmem : ∀ x ≠ q, update s.mem q (fill 5) x = s.mem x :=
      fun x hx => update_of_ne hx _ _
    refine wp_of_ok (kalloc_cons hfree) ⟨hq, h.change (fun x pt => setOwn_iff Owner.noConfusion (by simp [hq])) rfl
      (fun x pt hx => hmem x ?_) hdist.2 (fun x => ?_) fun x => setOwn_iff Owner.noConfusion (by simp [hq]), hmem, rfl⟩
    · rintro rfl
      rw [hq] at hx
      cases hx
    · rcases eq_or_ne x q with rfl | hx
      · rw [setOwn_self]
        exact iff_of_false hdist.1 Owner.noConfusion
      · rw [setOwn_of_ne hx, ← h.free x, hfree, List.mem_cons, or_iff_right hx]

/-- `kfree` of a page of the allocator that is not free. -/
theorem kfree_ok (hin : img.firstPage ≤ q ∧ q < phystopPage) (hq : q ∉ s.free) :
    kfree img q s = .ok () { mem := update s.mem q (fill 1), free := q :: s.free } := by
  rw [kfree, if_pos hin, get_bind, if_neg hq]
  rfl

section

variable (h : Rep img A s) (hq : (A.own q).IsData)
include h hq

theorem kfree_spec : wp (kfree img q) (fun _ t =>
    Rep img (A.setOwn q .free) t ∧ ∀ x ≠ q, t.mem x = s.mem x) Never s := by
  have hin := h.in_range hq.ne_outside
  have hnotfree : q ∉ s.free := fun hmem => hq.ne_free ((h.free q).mp hmem)
  have hmem : ∀ x ≠ q, update s.mem q (fill 1) x = s.mem x :=
    fun x hx => update_of_ne hx _ _
  refine wp_of_ok (kfree_ok hin hnotfree) ⟨h.change (fun x pt => setOwn_iff Owner.noConfusion (hq.ne_node pt)) rfl
    (fun x pt hx => hmem x ?_) (List.nodup_cons.mpr ⟨hnotfree, h.distinct⟩) (fun x => ?_)
    fun x => setOwn_iff Owner.noConfusion hq.ne_outside, hmem⟩
  · rintro rfl
    exact hq.ne_node pt hx
  · rcases eq_or_ne x q with rfl | hx
    · rw [setOwn_self]
      exact ⟨fun _ => rfl, fun _ => List.mem_cons_self⟩
    · rw [setOwn_of_ne hx, ← h.free x]
      rw [List.mem_cons, or_iff_right hx]

/-- Writing to a page with data. -/
theorem Rep.writeData (data : Page) : Rep img A { s with mem := update s.mem q data } := by
  refine h.change (fun _ _ => Iff.rfl) rfl (fun x pt hx => ?_) h.distinct h.free fun _ => Iff.rfl
  refine update_of_ne ?_ _ _
  rintro rfl
  exact hq.ne_node pt hx

theorem setPage_spec (data : Page) :
    wp (setPage q data) (fun _ t => Rep img A t ∧ t.mem q = data ∧ (∀ x ≠ q, t.mem x = s.mem x) ∧
      t.free = s.free) Never s :=
  wp_modify.mpr ⟨h.writeData hq data, update_self .., fun _ hx => update_of_ne hx .., rfl⟩

/-- A page with data that is all zero becomes the root of an empty page table. -/
theorem Rep.newTable (hzero : s.mem q = fill 0) : Rep img (A.newTable q) s := by
  have hblank : ∀ j, pteFormat.valid (s.mem q j) = false := by
    intro j
    show isValid (Word.toNat (s.mem q j)) = false
    rw [hzero, toNat_zero]
    rfl
  -- no page belongs to a table with root `q` before
  have hnone : ∀ x, A.own x ≠ .node q := fun x hx => hq.ne_node q (h.root x q hx)
  refine ⟨h.distinct, fun x => ?_, fun x => ?_, fun x pt hx => ?_, fun pt hpt => ?_⟩
  · exact (h.free x).trans (setOwn_iff Owner.noConfusion hq.ne_free).symm
  · exact (setOwn_iff Owner.noConfusion hq.ne_outside).trans (h.outside x)
  · rcases eq_or_ne x q with rfl | hxq
    · rw [newTable_own_self] at hx
      cases hx
      exact newTable_own_self
    rw [newTable_own_of_ne hxq] at hx
    rw [newTable_own_of_ne]
    · exact h.root x pt hx
    · rintro rfl
      exact hnone x hx
  · rcases eq_or_ne pt q with rfl | hne
    · refine ⟨tree_blank hblank, inner_blank hblank, fun x => ?_, fun v _ => ?_⟩
      · rw [tablePages, nodes_blank hblank, Set.mem_singleton_iff]
        constructor
        · rintro rfl
          exact newTable_own_self
        intro hx
        by_contra hne
        rw [newTable_own_of_ne hne] at hx
        exact hnone x hx
      · rw [entryAt, lookup_blank hblank, newTable_ent_self]
        rfl
    · rw [newTable_own_of_ne hne] at hpt
      refine (h.table pt hpt).congr (fun x => ?_) (newTable_ent_of_ne hne) fun _ _ => rfl
      rcases eq_or_ne x q with rfl | hx
      · rw [newTable_own_self]
        exact iff_of_false (fun heq => hne (Owner.node.inj heq).symm) (hq.ne_node pt)
      · rw [newTable_own_of_ne hx]

end

/-! ## Walking -/

theorem walkStep_total (alloc : Bool) (page : Nat) (i : Fin 512) (s : Vm) :
    ∃ r t, walkStep alloc page i s = .ok r t := by
  rw [walkStep, readWord_bind]
  split
  · exact ⟨_, _, rfl⟩
  split
  · exact ⟨_, _, rfl⟩
  cases hfree : s.free with
  | nil =>
    rw [bind_of_ok (kalloc_nil hfree)]
    exact ⟨_, _, rfl⟩
  | cons q rest =>
    rw [bind_of_ok (kalloc_cons hfree)]
    exact ⟨_, _, rfl⟩

theorem walkFrom_total (va : Nat) (alloc : Bool) (l page : Nat) (s : Vm) :
    ∃ r t, walkFrom va alloc l page s = .ok r t := by
  induction l generalizing page s with
  | zero => exact ⟨_, _, rfl⟩
  | succ l ih =>
    obtain ⟨r, t, hstep⟩ := walkStep_total alloc page (px (l + 1) va) s
    rw [walkFrom, bind_of_ok hstep]
    cases r with
    | none => exact ⟨_, _, rfl⟩
    | some next => exact ih next t

/-- The entry of an abstract state for the page of an address. -/
theorem TableRep.entry_at (h : TableRep A s.mem pt) (hva : va < 2 ^ 39) :
    entryAt s.mem pt va = A.ent pt (va / pgsize) := by
  rw [← h.entry (va / pgsize) (by show va / 4096 < _; omega), entryAt, entryAt, lookup_of_same (same_pageBase hva)]

theorem walk_eq (hva : va < maxva) (alloc : Bool) : walk pt va alloc = walkFrom va alloc 2 pt :=
  if_neg (Nat.not_le.mpr hva)

theorem walk_find_spec (h : Rep img A s) (hpt : A.own pt = .node pt) (hva : va < maxva) :
    wp (walk pt va false) (fun r t => t = s ∧ match r with
      | none => A.ent pt (va / pgsize) = none
      | some (q, i) => i = px 0 va ∧ Slot pteFormat s.mem 2 pt va q ∧
          A.ent pt (va / pgsize) = if isValid (s.mem q i).toNat then some (s.mem q i).toNat else none)
      Never s := by
  have hva39 : va < 2 ^ 39 := hva.trans (by decide)
  obtain ⟨r, t, hrun⟩ := walkFrom_total va false 2 pt s
  obtain ⟨rfl, hnone, hfound⟩ := walkFrom_find hrun
  rw [walk_eq hva]
  refine wp_of_ok hrun ⟨rfl, ?_⟩
  rw [← (h.table pt hpt).entry_at hva39, entryAt]
  cases r with
  | none => rw [hnone rfl, Option.map_none]
  | some slot =>
    obtain ⟨q, i⟩ := slot
    obtain ⟨rfl, hslot⟩ := hfound q i rfl
    refine ⟨rfl, hslot, ?_⟩
    rw [lookup_of_slot hslot, apply_ite (Option.map Word.toNat)]
    rfl

/-- A change writes at most to free pages and to nodes of the page table. -/
def OnlyTable (pt : Nat) (A : Abs) (s t : Vm) : Prop :=
  ∀ q, A.own q ≠ .free → A.own q ≠ .node pt → t.mem q = s.mem q

/-- A walk that allocates turns free pages into nodes of the page table. -/
structure Grown (pt : Nat) (A B : Abs) (s t : Vm) : Prop where
  ent : B.ent = A.ent
  own : ∀ q, B.own q = A.own q ∨ (A.own q = .free ∧ B.own q = .node pt)
  keeps : OnlyTable pt A s t

/-- Pages that are not free keep their owner. -/
theorem Grown.own_eq (h : Grown pt A B s t) (hq : A.own q ≠ .free) : B.own q = A.own q :=
  (h.own q).resolve_right fun hfree => hq hfree.1

theorem Grown.root (h : Grown pt A B s t) (hpt : A.own pt = .node pt) : B.own pt = .node pt :=
  (h.own_eq (by simp [hpt])).trans hpt

theorem Rep.grow (h : Rep img A s) (hpt : A.own pt = .node pt) (hg : Grows 2 pt s t) :
    ∃ B, Grown pt A B s t ∧ Rep img B t := by
  classical
  obtain ⟨ts, hfree, hagree, hnodes⟩ := hg.taken
  have hdist := h.distinct
  rw [hfree, List.nodup_append] at hdist
  have hts : ∀ q ∈ ts, A.own q = .free := fun q hq =>
    (h.free q).mp (hfree ▸ List.mem_append_left _ hq)
  have htab := h.table pt hpt
  let own : Nat → Owner := fun q => if q ∈ ts then .node pt else A.own q
  have hin : ∀ q ∈ ts, own q = .node pt := fun q hq => if_pos hq
  have hout : ∀ q ∉ ts, own q = A.own q := fun q hq => if_neg hq
  have hptts : pt ∉ ts := fun hmem => by
    have := hts pt hmem
    rw [hpt] at this
    cases this
  have hother : ∀ pt' q, pt' ≠ pt → (own q = .node pt' ↔ A.own q = .node pt') := by
    intro pt' q hne
    by_cases hq : q ∈ ts
    · rw [hin q hq, hts q hq]
      exact iff_of_false (fun heq => hne (Owner.node.inj heq).symm) Owner.noConfusion
    · rw [hout q hq]
  refine ⟨⟨own, A.ent⟩, ⟨rfl, fun q => ?_, fun q hfree hnode => ?_⟩, hdist.2.1, fun q => ?_, fun q => ?_,
    fun q pt' hq => ?_, fun pt' hpt' => ?_⟩
  · by_cases hq : q ∈ ts
    · exact .inr ⟨hts q hq, hin q hq⟩
    · exact .inl (hout q hq)
  · exact hagree q (fun hmem => hnode ((htab.nodes_iff q).mp hmem)) fun hmem => hfree (hts q hmem)
  · by_cases hq : q ∈ ts
    · show q ∈ t.free ↔ own q = .free
      rw [hin q hq]
      exact iff_of_false (fun hmem => hdist.2.2 q hq q hmem rfl) Owner.noConfusion
    · show q ∈ t.free ↔ own q = .free
      rw [hout q hq, ← h.free q, hfree, List.mem_append, or_iff_right hq]
  · by_cases hq : q ∈ ts
    · show own q = .outside ↔ _
      rw [hin q hq, ← h.outside q, hts q hq]
      exact iff_of_false Owner.noConfusion Owner.noConfusion
    · show own q = .outside ↔ _
      rw [hout q hq]
      exact h.outside q
  · show own pt' = .node pt'
    rcases eq_or_ne pt' pt with rfl | hne
    · rw [hout pt' hptts]
      exact hpt
    · rw [hother pt' pt' hne]
      exact h.root q pt' ((hother pt' q hne).mp hq)
  · rcases eq_or_ne pt' pt with rfl | hne
    · refine ⟨hg.tree, hg.plain htab.plain, fun q => ?_, fun v hv => ?_⟩
      · show q ∈ nodes pteFormat t.mem 2 pt' ↔ own q = .node pt'
        rw [hnodes]
        by_cases hq : q ∈ ts
        · exact ⟨fun _ => hin q hq, fun _ => Or.inr hq⟩
        · rw [hout q hq, ← htab.nodes_iff q]
          exact ⟨fun hmem => hmem.resolve_right hq, Or.inl⟩
      · rw [entryAt, hg.lookup_eq]
        exact htab.entry v hv
    · refine (h.table pt' ((hother pt' pt' hne).mp hpt')).congr (fun q => hother pt' q hne) rfl fun q hq => ?_
      refine hagree q (fun hmem => ?_) fun hmem => ?_
      · have hown := (htab.nodes_iff q).mp hmem
        rw [hq] at hown
        exact hne (Owner.node.inj hown)
      · rw [hts q hmem] at hq
        cases hq

theorem walk_alloc_spec (h : Rep img A s) (hpt : A.own pt = .node pt) (hva : va < maxva) :
    wp (walk pt va true) (fun r t => ∃ B, Grown pt A B s t ∧ Rep img B t ∧
      (∀ q i, r = some (q, i) → i = px 0 va ∧ Slot pteFormat t.mem 2 pt va q) ∧
      (r.isSome = true ↔ missing s.mem va 2 pt ≤ s.free.length)) Never s := by
  have htab := h.table pt hpt
  have hff : FreeFor 2 pt s := by
    refine ⟨h.distinct, fun p hp hmem => ?_, fun p hp => h.small ?_⟩
    · have hfree := (h.free p).mp hp
      rw [(htab.nodes_iff p).mp hmem] at hfree
      cases hfree
    · rw [(h.free p).mp hp]
      exact Owner.noConfusion
  obtain ⟨r, t, hrun⟩ := walkFrom_total va true 2 pt s
  obtain ⟨hg, hslot⟩ := walkFrom_alloc htab.tree hff hrun
  obtain ⟨B, hgrown, hrep⟩ := h.grow hpt hg
  rw [walk_eq hva]
  exact wp_of_ok hrun ⟨B, hgrown, hrep, hslot, walkFrom_count hff.distinct hff.unused hrun⟩

/-! ## Writing entries -/

section

variable (h : Rep img A s) (hpt : A.own pt = .node pt) (hslot : Slot pteFormat s.mem 2 pt va q) (hva : va < maxva)
include h hpt hslot hva

/-- A word written into the slot of an address. -/
theorem Rep.writeEntry {n : Nat} (hn : n < 2 ^ 64) :
    Rep img (A.setEnt pt (va / pgsize) (if isValid n then some n else none))
      { s with mem := update s.mem q (update (s.mem q) (px 0 va) (Word.ofNat n)) } := by
  have hva39 : va < 2 ^ 39 := hva.trans (by decide)
  have htab := h.table pt hpt
  have hqnode : A.own q = .node pt := (htab.nodes_iff q).mp (slot_mem_nodes hslot)
  generalize hmem : update s.mem q (update (s.mem q) (px 0 va) (Word.ofNat n)) = mem
  have hself : mem q = update (s.mem q) (pteFormat.index 0 va) (Word.ofNat n) := by
    rw [← hmem, update_self]
    rfl
  have hother : ∀ r ≠ q, mem r = s.mem r := fun r hr => by rw [← hmem, update_of_ne hr]
  obtain ⟨htree, hnodes, hsame, hdiff, hplain⟩ := htab.tree.write (Q := Plain) hslot hself hother
  refine ⟨h.distinct, h.free, h.outside, h.root, fun pt' hpt' => ?_⟩
  rcases eq_or_ne pt' pt with rfl | hne
  · refine ⟨htree, hplain htab.plain, fun x => ?_, fun v hv => ?_⟩
    · rw [tablePages, hnodes]
      exact htab.nodes_iff x
    have hv39 : v * pgsize < 2 ^ 39 := by
      show v * 4096 < _
      omega
    rcases eq_or_ne v (va / pgsize) with rfl | hvne
    · have hs : Same pteFormat 2 va (va / pgsize * pgsize) := fun k hk => (same_pageBase hva39 k hk).symm
      rw [entryAt, hsame _ hs, setEnt_self]
      show Option.map Word.toNat (if isValid (Word.ofNat n).toNat then some (Word.ofNat n) else none) = _
      rw [Word.toNat_ofNat hn]
      split
      · rw [Option.map_some, Word.toNat_ofNat hn]
      · rfl
    · have hs : ¬ Same pteFormat 2 va (v * pgsize) := by
        rw [same_iff hva39 hv39, page_vpn]
        exact hvne
      rw [entryAt, hdiff _ hs, setEnt_of_ne hvne]
      exact htab.entry v hv
  · refine (h.table pt' hpt').congr (fun _ => Iff.rfl) (setEnt_other hne) fun x hx => hother x ?_
    rintro rfl
    rw [hqnode] at hx
    exact hne (Owner.node.inj hx).symm

theorem writeWord_spec {n : Nat} (hn : n < 2 ^ 64) :
    wp (writeWord q (px 0 va) n) (fun _ t =>
      Rep img (A.setEnt pt (va / pgsize) (if isValid n then some n else none)) t ∧
        ∀ x, A.own x ≠ .node pt → t.mem x = s.mem x) Never s := by
  refine wp_modify.mpr ⟨h.writeEntry hpt hslot hva hn, fun x hx => update_of_ne ?_ ..⟩
  rintro rfl
  exact hx (((h.table pt hpt).nodes_iff x).mp (slot_mem_nodes hslot))

end

theorem wp_readWord {Q : Nat → Vm → Prop} {E : String → Prop} {i : Fin 512} :
    wp (readWord q i) Q E s ↔ Q (s.mem q i).toNat s := by
  unfold readWord
  rw [wp_bind, wp_get, wp_pure]

theorem leafEntry_valid (hperm : perm < 2 ^ 10) : isValid (leafEntry page perm) = true := by
  rw [leafEntry_eq hperm, isValid_entry]
  exact isValid_or_one perm

theorem leafEntry_lt (hpage : page < 2 ^ 52) (hperm : perm < 2 ^ 10) : leafEntry page perm < 2 ^ 64 := by
  rw [leafEntry_eq hperm]
  exact entry_lt hpage (or_one_lt hperm)

/-- `mappages` of one page that is not mapped yet. -/
theorem mappages_spec (h : Rep img A s) (hpt : A.own pt = .node pt) (halign : va % pgsize = 0) (hva : va < maxva)
    (hnone : A.ent pt (va / pgsize) = none) (hpage : page < 2 ^ 52) (hperm : perm < 2 ^ 10) :
    wp (mappages pt va pgsize page perm) (fun ok t => ∃ B, Grown pt A B s t ∧
      Rep img (if ok then B.setEnt pt (va / pgsize) (some (leafEntry page perm)) else B) t ∧
      (ok = true ↔ missing s.mem va 2 pt ≤ s.free.length)) Never s := by
  unfold mappages
  rw [if_neg (not_not.mpr halign), if_neg (by decide), if_neg (by decide), show pgsize / pgsize = 1 from rfl,
    mappagesLoop]
  refine wp_then (walk_alloc_spec h hpt hva) fun r t ht => ?_
  obtain ⟨B, hgrown, hrep, hfound, hcount⟩ := ht
  cases r with
  | none => exact wp_pure.mpr ⟨B, hgrown, hrep, hcount⟩
  | some slot =>
    obtain ⟨q, i⟩ := slot
    obtain ⟨rfl, hslot⟩ := hfound q i rfl
    have hptB := hgrown.root hpt
    -- the slot is empty, since the page is not mapped
    have hempty : ¬ isValid (t.mem q (px 0 va)).toNat = true := by
      intro hvalid
      have hslotvalid : pteFormat.valid (t.mem q (pteFormat.index 0 va)) = true := hvalid
      have hent := (hrep.table pt hptB).entry_at (hva.trans (by decide))
      rw [entryAt, lookup_of_slot hslot, if_pos hslotvalid, hgrown.ent, hnone] at hent
      cases hent
    refine wp_bind.mpr (wp_readWord.mpr ?_)
    rw [if_neg hempty]
    have hwrite := writeWord_spec hrep hptB hslot hva (leafEntry_lt hpage hperm)
    rw [if_pos (leafEntry_valid hperm)] at hwrite
    refine wp_then hwrite fun _ u hu => ?_
    refine wp_pure.mpr ⟨B, ⟨hgrown.ent, hgrown.own, fun x hfree hnode => ?_⟩, hu.1, hcount⟩
    refine (hu.2 x ?_).trans (hgrown.keeps x hfree hnode)
    rw [hgrown.own_eq hfree]
    exact hnode

/-! ## Unmapping a page -/

/-- The effect of unmapping page `v`: its entry is cleared, and its page freed if that is asked for. -/
def Abs.unmap (A : Abs) (pt v : Nat) (doFree : Bool) : Abs :=
  match A.ent pt v with
  | none => A
  | some e => if doFree then (A.setOwn (pte2page e) .free).setEnt pt v none else A.setEnt pt v none

theorem unmapPage_spec (h : Rep img A s) (hpt : A.own pt = .node pt) (hva : va < maxva) {doFree : Bool}
    (hdata : doFree = true → ∀ e, A.ent pt (va / pgsize) = some e → (A.own (pte2page e)).IsData) :
    wp (unmapPage img pt va doFree) (fun _ t => Rep img (A.unmap pt (va / pgsize) doFree) t ∧
      ∀ x, A.own x ≠ .node pt → (doFree = true → ∀ e, A.ent pt (va / pgsize) = some e → x ≠ pte2page e) →
        t.mem x = s.mem x) Never s := by
  refine wp_then (walk_find_spec h hpt hva) fun r t ht => ?_
  obtain ⟨rfl, hfound⟩ := ht
  match r with
  | none =>
    refine wp_pure.mpr ?_
    rw [unmap, show A.ent pt (va / pgsize) = none from hfound]
    exact ⟨h, fun _ _ _ => rfl⟩
  | some (q, i) =>
    obtain ⟨rfl, hslot, hent⟩ := hfound
    refine wp_bind.mpr (wp_readWord.mpr ?_)
    split
    · next hvalid =>
        rw [if_pos hvalid] at hent
        rw [unmap, hent]
        cases doFree with
        | false =>
          refine wp_bind.mpr (wp_pure.mpr ?_)
          refine wp_post (writeWord_spec h hpt hslot hva (by decide : 0 < 2 ^ 64)) fun _ u hu => ?_
          exact ⟨hu.1, fun x hx _ => hu.2 x hx⟩
        | true =>
          have hq := hdata rfl _ hent
          refine wp_then (kfree_spec h hq) fun _ u hu => ?_
          obtain ⟨hrep, hmem⟩ := hu
          have hptu : (A.setOwn (pte2page (t.mem q (px 0 va)).toNat) .free).own pt = .node pt := by
            rw [setOwn_of_ne]
            · exact hpt
            · intro heq
              rw [← heq] at hq
              exact hq.ne_node pt hpt
          have hslotu : Slot pteFormat u.mem 2 pt va q := by
            refine slot_congr (fun x hx => hmem x ?_) hslot
            rintro rfl
            exact hq.ne_node pt (((h.table pt hpt).nodes_iff _).mp hx)
          refine wp_post (writeWord_spec hrep hptu hslotu hva (by decide : 0 < 2 ^ 64)) fun _ v hv => ?_
          refine ⟨hv.1, fun x hx hfreed => ?_⟩
          have hxq := hfreed rfl _ rfl
          refine (hv.2 x ?_).trans (hmem x hxq)
          rw [setOwn_of_ne hxq]
          exact hx
    · next hinvalid =>
        rw [if_neg hinvalid] at hent
        refine wp_pure.mpr ?_
        rw [unmap, hent]
        exact ⟨h, fun _ _ _ => rfl⟩

end Rules

end Xv6Lab.Memory
