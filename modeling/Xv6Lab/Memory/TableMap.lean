import Xv6Lab.Lib.Transition
import Xv6Lab.Memory.Mapping

/-!
# Page tables are partial maps

A page table stands for a partial map from page numbers to physical pages with flags (`tableMap`), read off by the
translation of the hardware. `pagetable_refines_map` is the refinement: in every state that `mappages`, `uvmunmap` and
`walk` reach from a well-formed tree, a successful `mappages` extends the map by exactly its range, `uvmunmap` removes
exactly its range, a walk changes nothing, `walkaddr` answers from the map, and the tree stays well-formed.
-/

namespace Xv6Lab.Memory

open Function Lib.Exec
open Lib.RadixTree
open Lib.Transition

/-! ## Trees and maps -/

/-- A three-level tree at `pt`: no node occurs twice, inner entries are pointers, and the nodes are pages of the
allocator that are not on its free list. -/
structure WellFormed (img : Image) (pt : Nat) (s : Vm) : Prop where
  tree : Tree pteFormat s.mem 2 pt
  inner : Inner pteFormat s.mem Plain 2 pt
  distinct : s.free.Nodup
  unused : ∀ q ∈ s.free, q ∉ tablePages s.mem pt
  free_range : ∀ q ∈ s.free, img.firstPage ≤ q ∧ q < phystopPage
  node_range : ∀ q ∈ tablePages s.mem pt, img.firstPage ≤ q ∧ q < phystopPage

/-- Physical page and flags of an entry. -/
def decode (pte : Nat) : Nat × Nat := (pte2page pte, pteFlags pte)

/-- The map of a page table: page numbers to physical pages and flags. -/
def tableMap (mem : Nat → Page) (pt v : Nat) : Option (Nat × Nat) := (translate mem pt (v * pgsize)).map decode

/-- A map with `k` pages from `v` on mapped to the physical pages from `page` on. -/
def extendMap (f : Nat → Option (Nat × Nat)) (v k page flags : Nat) : Nat → Option (Nat × Nat) := fun w =>
  if v ≤ w ∧ w < v + k then some (page + (w - v), flags) else f w

/-- A map without `k` pages from `v` on. -/
def removeMap (f : Nat → Option (Nat × Nat)) (v k : Nat) : Nat → Option (Nat × Nat) := fun w =>
  if v ≤ w ∧ w < v + k then none else f w

section Abstraction

variable {img : Image} {A B : Abs} {s t : Vm} {pt v : Nat}

open Classical in
/-- The abstract state of a single tree: all other pages of the allocator are held. -/
noncomputable def treeAbs (img : Image) (pt : Nat) (s : Vm) : Abs where
  own q :=
    if ¬ (img.firstPage ≤ q ∧ q < phystopPage) then .outside
    else if q ∈ s.free then .free
    else if q ∈ tablePages s.mem pt then .node pt
    else .held
  ent pt' v := entryAt s.mem pt' (v * pgsize)

theorem treeAbs_node (h : WellFormed img pt s) {q pt' : Nat} :
    (treeAbs img pt s).own q = .node pt' ↔ q ∈ tablePages s.mem pt ∧ pt' = pt := by
  unfold treeAbs
  dsimp only
  split
  next hout => exact iff_of_false Owner.noConfusion fun hq => hout (h.node_range q hq.1)
  · split
    next hfree => exact iff_of_false Owner.noConfusion fun hq => h.unused q hfree hq.1
    · split
      next hnode =>
        constructor
        · intro heq
          exact ⟨hnode, (Owner.node.inj heq).symm⟩
        · rintro ⟨-, rfl⟩
          rfl
      next hnode => exact iff_of_false Owner.noConfusion fun hq => hnode hq.1

/-- A well-formed tree is memory that holds an abstract state. -/
theorem WellFormed.rep (h : WellFormed img pt s) : Rep img (treeAbs img pt s) s where
  distinct := h.distinct
  free q := by
    unfold treeAbs
    dsimp only
    split
    next hout => exact iff_of_false (fun hq => hout (h.free_range q hq)) Owner.noConfusion
    · split
      next hfree => exact iff_of_true hfree rfl
      next hfree =>
        refine iff_of_false hfree ?_
        split <;> exact Owner.noConfusion
  outside q := by
    unfold treeAbs
    dsimp only
    split
    next hout => exact iff_of_true rfl hout
    next hin =>
    refine iff_of_false ?_ hin
    split
    · exact Owner.noConfusion
    · split <;> exact Owner.noConfusion
  root q pt' hq := by
    obtain ⟨-, rfl⟩ := (treeAbs_node h).mp hq
    exact (treeAbs_node h).mpr ⟨root_mem_nodes 2 pt', rfl⟩
  table pt' hpt' := by
    obtain ⟨-, rfl⟩ := (treeAbs_node h).mp hpt'
    refine ⟨h.tree, h.inner, fun q => ?_, fun _ _ => rfl⟩
    rw [treeAbs_node h, and_iff_left rfl]

theorem WellFormed.root (h : WellFormed img pt s) : (treeAbs img pt s).own pt = .node pt :=
  (treeAbs_node h).mpr ⟨root_mem_nodes 2 pt, rfl⟩

/-- The tables of an abstract state are well-formed. -/
theorem Rep.wellFormed (h : Rep img A s) (hpt : A.own pt = .node pt) : WellFormed img pt s := by
  have htab := h.table pt hpt
  constructor
  · exact htab.tree
  · exact htab.plain
  · exact h.distinct
  · intro q hq hmem
    have hfree := (h.free q).mp hq
    rw [(htab.nodes_iff q).mp hmem] at hfree
    cases hfree
  · intro q hq
    apply h.in_range
    rw [(h.free q).mp hq]
    exact Owner.noConfusion
  · intro q hq
    apply h.in_range
    rw [(htab.nodes_iff q).mp hq]
    exact Owner.noConfusion

/-- The map of a table, from the abstract state. -/
theorem Rep.tableMap_eq (h : Rep img A s) (hpt : A.own pt = .node pt) (hv : v < 2 ^ 26) :
    tableMap s.mem pt v = (A.ent pt v).map decode := by
  rw [tableMap, translate_eq (vpn_lt_maxva hv), (h.table pt hpt).entry v (by omega)]

theorem translate_above (mem : Nat → Page) (hv : ¬ v < 2 ^ 26) : translate mem pt (v * pgsize) = none := by
  rw [translate, if_pos]
  show 2 ^ 38 ≤ v * 4096
  omega

theorem tableMap_above (mem : Nat → Page) (hv : ¬ v < 2 ^ 26) : tableMap mem pt v = none := by
  rw [tableMap, translate_above mem hv]
  rfl

/-- Maps are equal if the entries of the page numbers that `walk` accepts are. -/
theorem Rep.tableMap_congr (h : Rep img B t) (hpt : B.own pt = .node pt) {f : Nat → Option (Nat × Nat)}
    (hlow : ∀ v < 2 ^ 26, (B.ent pt v).map decode = f v) (hhigh : ∀ v, ¬ v < 2 ^ 26 → f v = none) :
    tableMap t.mem pt = f := by
  funext v
  by_cases hv : v < 2 ^ 26
  · rw [h.tableMap_eq hpt hv, hlow v hv]
  · rw [tableMap_above t.mem hv, hhigh v hv]

variable {page perm v va : Nat} {doFree : Bool}

theorem pteFlags_leafEntry (hperm : perm < 2 ^ 10) : pteFlags (leafEntry page perm) = perm ||| pteV := by
  have hlt := or_one_lt hperm
  rw [leafEntry_eq hperm, pteFlags]
  omega

theorem testBit_pteFlags {e i : Nat} (hi : i < 10) : (pteFlags e).testBit i = e.testBit i := by
  rw [pteFlags, Nat.testBit_mod_two_pow]
  simp [hi]

theorem decode_leafEntry (hpage : page < 2 ^ 52) (hperm : perm < 2 ^ 10) :
    decode (leafEntry page perm) = (page, perm ||| pteV) := by
  rw [decode, pte2page_leafEntry hpage hperm, pteFlags_leafEntry hperm]

end Abstraction

/-! ## The calls on the abstract state -/

section Calls

variable {img : Image} {A B : Abs} {s t : Vm} {pt : Nat}

/-- The loop of `mappages` maps one page after the other. -/
theorem mappagesLoop_succ (pt perm k a page : Nat) :
    mappagesLoop pt perm (k + 1) a page = (do
      let ok ← mappagesLoop pt perm 1 a page
      if ok then mappagesLoop pt perm k (a + pgsize) (page + 1) else pure false) := by
  rw [mappagesLoop, mappagesLoop, bind_assoc]
  congr 1
  funext slot
  cases slot with
  | none => rfl
  | some x =>
    obtain ⟨node, i⟩ := x
    simp only [bind_assoc]
    congr 1
    funext pte
    split
    · rfl
    · simp only [bind_assoc, mappagesLoop, pure_bind, if_true]

/-- Entries with `k` pages from `v` on mapped to the physical pages from `page` on. -/
def extend (f : Nat → Option Nat) (v k page perm : Nat) : Nat → Option Nat := fun w =>
  if v ≤ w ∧ w < v + k then some (leafEntry (page + (w - v)) perm) else f w

theorem extend_zero (f : Nat → Option Nat) (v page perm : Nat) : extend f v 0 page perm = f := by
  funext w
  exact if_neg fun hw => by omega

theorem extend_cons (f : Nat → Option Nat) (v k page perm : Nat) :
    extend (update f v (some (leafEntry page perm))) (v + 1) k (page + 1) perm = extend f v (k + 1) page perm := by
  funext w
  unfold extend
  rcases eq_or_ne w v with rfl | hne
  · rw [if_neg (by omega), if_pos (by omega), update_self, Nat.sub_self, Nat.add_zero]
  · by_cases hw : v + 1 ≤ w ∧ w < v + 1 + k
    · rw [if_pos hw, if_pos (by omega), show page + 1 + (w - (v + 1)) = page + (w - v) by omega]
    · rw [if_neg hw, if_neg (by omega), update_of_ne hne]

/-- The loop of `mappages` maps the pages of its range in turn and stops when a table page cannot be allocated. -/
theorem mappagesLoop_rep {k : Nat} (h : Rep img A s) (hpt : A.own pt = .node pt) (hv : v + k ≤ 2 ^ 26)
    (hnone : ∀ w, v ≤ w → w < v + k → A.ent pt w = none) (hpage : page + k ≤ 2 ^ 52) (hperm : perm < 2 ^ 10) :
    wp (mappagesLoop pt perm k (v * pgsize) page) (fun ok t => ∃ B j, Rep img B t ∧ B.own pt = .node pt ∧ j ≤ k ∧
      (ok = true → j = k) ∧ B.ent pt = extend (A.ent pt) v j page perm) Never s := by
  induction k generalizing v page A s with
  | zero => exact wp_pure.mpr ⟨A, 0, h, hpt, Nat.le_refl 0, fun _ => rfl, (extend_zero ..).symm⟩
  | succ k ih =>
    have hvpn := page_vpn v
    have hsmall : page < 2 ^ 52 := by omega
    have hone := mappages_spec h hpt (Nat.mul_mod_left v pgsize) (vpn_lt_maxva (by omega))
      (hvpn.symm ▸ hnone v (Nat.le_refl v) (by omega)) hsmall hperm
    rw [mappages, if_neg (not_not.mpr (Nat.mul_mod_left v pgsize)), if_neg (by decide), if_neg (by decide),
      show pgsize / pgsize = 1 from rfl, hvpn] at hone
    rw [mappagesLoop_succ]
    refine wp_then hone fun ok t ht => ?_
    obtain ⟨B, hgrown, hrep, -⟩ := ht
    have hBpt := hgrown.root hpt
    cases ok with
    | false =>
      refine wp_pure.mpr ⟨B, 0, hrep, hBpt, Nat.zero_le _, by simp, ?_⟩
      rw [hgrown.ent, extend_zero]
    | true =>
      rw [if_pos rfl] at hrep
      rw [if_pos rfl, ← Nat.add_one_mul]
      refine wp_post (ih hrep hBpt (by omega) (fun w hlo hhi => ?_) (by omega)) fun ok u hu => ?_
      · rw [Abs.setEnt_of_ne (by omega), hgrown.ent]
        exact hnone w (by omega) (by omega)
      · obtain ⟨C, j, hC, hCpt, hj, hok, hent⟩ := hu
        refine ⟨C, j + 1, hC, hCpt, by omega, fun htrue => by rw [hok htrue], ?_⟩
        rw [hent, Abs.setEnt_ent, hgrown.ent, extend_cons]

theorem Abs.unmap_ent (A : Abs) (pt v : Nat) (doFree : Bool) :
    (A.unmap pt v doFree).ent pt = update (A.ent pt) v none := by
  unfold Abs.unmap
  cases he : A.ent pt v with
  | none =>
    have hsame : update (A.ent pt) v none = A.ent pt := by
      rw [← he, update_eq_self]
    exact hsame.symm
  | some e =>
    cases doFree with
    | false | true => exact Abs.setEnt_ent

/-- A page keeps its owner unless it is the one that is unmapped. -/
theorem Abs.unmap_own {q : Nat}
    (hq : doFree = true → ∀ e, A.ent pt v = some e → q ≠ pte2page e) : (A.unmap pt v doFree).own q = A.own q := by
  unfold Abs.unmap
  cases he : A.ent pt v with
  | none => rfl
  | some e =>
    cases doFree with
    | false => rfl
    | true =>
      show ((A.setOwn (pte2page e) .free).setEnt pt v none).own q = A.own q
      rw [Abs.setEnt_own]
      exact Abs.setOwn_of_ne (hq rfl e he)

/-- The loop of `uvmunmap` over any pages that `walk` accepts. -/
theorem uvmunmapLoop_rep {lo k : Nat} (h : Rep img A s) (hpt : A.own pt = .node pt) (hhi : lo + k ≤ 2 ^ 26)
    (hdata : doFree = true → ∀ v e, lo ≤ v → v < lo + k → A.ent pt v = some e → (A.own (pte2page e)).IsData)
    (hinj : doFree = true → ∀ v w e e', lo ≤ v → v < w → w < lo + k → A.ent pt v = some e →
      A.ent pt w = some e' → pte2page e ≠ pte2page e') :
    wp (uvmunmapLoop img pt doFree k (lo * pgsize)) (fun _ t => ∃ B, Rep img B t ∧ B.own pt = .node pt ∧
      B.ent pt = clear (A.ent pt) lo (lo + k)) Never s := by
  induction k generalizing lo A s with
  | zero => exact wp_pure.mpr ⟨A, h, hpt, (clear_empty (Nat.le_refl lo)).symm⟩
  | succ k ih =>
    have hvpn := page_vpn lo
    have hva : lo * pgsize < maxva := vpn_lt_maxva (by omega)
    have hfreed : doFree = true → ∀ e, A.ent pt (lo * pgsize / pgsize) = some e → (A.own (pte2page e)).IsData :=
      fun hf e he => hdata hf lo e (Nat.le_refl lo) (by omega) (hvpn ▸ he)
    have hone := unmapPage_spec h hpt hva hfreed
    rw [hvpn] at hone
    rw [uvmunmapLoop]
    refine wp_then hone fun _ t ht => ?_
    have hroot : (A.unmap pt lo doFree).own pt = .node pt := by
      rw [Abs.unmap_own, hpt]
      rintro hf e he rfl
      exact (hdata hf lo e (Nat.le_refl lo) (by omega) he).ne_node _ hpt
    -- the entries of the rest of the range are as before
    have hent : ∀ w, lo + 1 ≤ w → (A.unmap pt lo doFree).ent pt w = A.ent pt w := by
      intro w hw
      rw [Abs.unmap_ent, update_of_ne (by omega)]
    rw [← Nat.add_one_mul]
    refine wp_post (ih ht.1 hroot (by omega) (fun hf v e hlo hlt he => ?_)
      fun hf v w e e' hlo hlt hw he he' => ?_) fun _ u hu => ?_
    · rw [hent v hlo] at he
      rw [Abs.unmap_own fun _ e₀ he₀ heq => hinj hf lo v e₀ e (Nat.le_refl lo) (by omega) (by omega) he₀ he heq.symm]
      exact hdata hf v e (by omega) (by omega) he
    · rw [hent v hlo] at he
      rw [hent w (by omega)] at he'
      exact hinj hf v w e e' (by omega) hlt (by omega) he he'
    · obtain ⟨B, hB, hBpt, hBent⟩ := hu
      refine ⟨B, hB, hBpt, ?_⟩
      rw [hBent, Abs.unmap_ent, show lo + 1 + k = lo + (k + 1) by omega]
      exact clear_cons (by omega)

end Calls

/-! ## Runs -/

/-- An operation on the page table. -/
inductive TableOp where
  | mappages (va size page perm : Nat)
  | uvmunmap (va npages : Nat) (doFree : Bool)
  | walk (va : Nat) (alloc : Bool)

def tableStep (img : Image) (pt : Nat) (s : Vm) : TableOp → Option Vm
  | .mappages va size page perm => after (mappages pt va size page perm) s
  | .uvmunmap va npages doFree => after (uvmunmap img pt va npages doFree) s
  | .walk va alloc => after (walk pt va alloc) s

/-- The arguments of `mappages`: a page-aligned range below `MAXVA` without a valid entry, physical pages with 64-bit
addresses, and flags. -/
structure MapArgs (pt : Nat) (s : Vm) (va size page perm : Nat) : Prop where
  aligned : va % pgsize = 0
  size_aligned : size % pgsize = 0
  size_pos : 0 < size
  below : va + size ≤ maxva
  unmapped : ∀ v, va / pgsize ≤ v → v < va / pgsize + size / pgsize → tableMap s.mem pt v = none
  page : page + size / pgsize ≤ 2 ^ 52
  perm : perm < 2 ^ 10

/-- The arguments of `uvmunmap`: a page-aligned range below `MAXVA`. Pages that are to be freed have been allocated,
are not nodes of the tree, and are not mapped twice. -/
structure UnmapArgs (img : Image) (pt : Nat) (s : Vm) (va npages : Nat) (doFree : Bool) : Prop where
  aligned : va % pgsize = 0
  below : va + npages * pgsize ≤ maxva
  page : doFree = true → ∀ v q flags, va / pgsize ≤ v → v < va / pgsize + npages →
    tableMap s.mem pt v = some (q, flags) →
      (img.firstPage ≤ q ∧ q < phystopPage) ∧ q ∉ s.free ∧ q ∉ tablePages s.mem pt
  distinct : doFree = true → ∀ v w q flags flags', va / pgsize ≤ v → v < w → w < va / pgsize + npages →
    tableMap s.mem pt v = some (q, flags) → tableMap s.mem pt w ≠ some (q, flags')

def TableOp.Allowed (img : Image) (pt : Nat) (s : Vm) : TableOp → Prop
  | .mappages va size page perm => MapArgs pt s va size page perm
  | .uvmunmap va npages doFree => UnmapArgs img pt s va npages doFree
  | .walk va _ => va < maxva

section Refinement

variable {img : Image} {s : Vm} {pt : Nat}

theorem mul_pgsize_le (h : v * pgsize ≤ maxva) : v ≤ 2 ^ 26 := by
  have h : v * 4096 ≤ 2 ^ 38 := h
  omega

section

variable (h : WellFormed img pt s)
include h

theorem mappages_map {size : Nat} (ha : MapArgs pt s va size page perm) :
    wp (mappages pt va size page perm) (fun ok t => WellFormed img pt t ∧
      (ok = true → tableMap t.mem pt =
        extendMap (tableMap s.mem pt) (va / pgsize) (size / pgsize) page (perm ||| pteV)) ∧
      ∀ v, ¬ (va / pgsize ≤ v ∧ v < va / pgsize + size / pgsize) →
        tableMap t.mem pt v = tableMap s.mem pt v) Never s := by
  obtain ⟨v, rfl⟩ := Nat.dvd_of_mod_eq_zero ha.aligned
  obtain ⟨k, rfl⟩ := Nat.dvd_of_mod_eq_zero ha.size_aligned
  have hva : pgsize * v / pgsize = v := Nat.mul_div_cancel_left v (by decide)
  have hk : pgsize * k / pgsize = k := Nat.mul_div_cancel_left k (by decide)
  have hbelow : v + k ≤ 2 ^ 26 := mul_pgsize_le (by
    have hle := ha.below
    rwa [← Nat.mul_add, Nat.mul_comm] at hle)
  have hpage := ha.page
  have hunmapped := ha.unmapped
  rw [hva, hk] at hunmapped
  rw [hk] at hpage
  have hrep := h.rep
  have hnone : ∀ w, v ≤ w → w < v + k → (treeAbs img pt s).ent pt w = none := by
    intro w hlo hhi
    have hmap := hunmapped w hlo hhi
    rw [hrep.tableMap_eq h.root (by omega), Option.map_eq_none_iff] at hmap
    exact hmap
  rw [mappages, if_neg (not_not.mpr ha.aligned), if_neg (not_not.mpr ha.size_aligned), if_neg ha.size_pos.ne', hva, hk,
    Nat.mul_comm pgsize v]
  refine wp_post (mappagesLoop_rep hrep h.root hbelow hnone hpage ha.perm) fun ok t ht => ?_
  obtain ⟨B, j, hB, hBpt, hj, hok, hent⟩ := ht
  refine ⟨hB.wellFormed hBpt, fun htrue => ?_, fun w hw => ?_⟩
  · obtain rfl := hok htrue
    refine hB.tableMap_congr hBpt (fun w hlt => ?_) fun w hge => ?_
    · rw [hent]
      unfold extend extendMap
      split
      next hin => rw [Option.map_some, decode_leafEntry (by omega) ha.perm]
      · rw [hrep.tableMap_eq h.root hlt]
    · unfold extendMap
      rw [if_neg (by omega), tableMap_above s.mem hge]
  · by_cases hlt : w < 2 ^ 26
    · rw [hB.tableMap_eq hBpt hlt, hrep.tableMap_eq h.root hlt, hent]
      unfold extend
      rw [if_neg (by omega)]
    · rw [tableMap_above t.mem hlt, tableMap_above s.mem hlt]

theorem uvmunmap_map {npages : Nat} (ha : UnmapArgs img pt s va npages doFree) :
    wp (uvmunmap img pt va npages doFree) (fun _ t => WellFormed img pt t ∧
      tableMap t.mem pt = removeMap (tableMap s.mem pt) (va / pgsize) npages) Never s := by
  obtain ⟨v, rfl⟩ := Nat.dvd_of_mod_eq_zero ha.aligned
  have hva : pgsize * v / pgsize = v := Nat.mul_div_cancel_left v (by decide)
  have hbelow : v + npages ≤ 2 ^ 26 := mul_pgsize_le (by
    have hle := ha.below
    rwa [Nat.mul_comm npages, ← Nat.mul_add, Nat.mul_comm] at hle)
  have hrep := h.rep
  have hpage := ha.page
  have hdistinct := ha.distinct
  rw [hva] at hpage hdistinct
  have hmap : ∀ w e, w < v + npages → (treeAbs img pt s).ent pt w = some e →
      tableMap s.mem pt w = some (pte2page e, pteFlags e) := by
    intro w e hw he
    rw [hrep.tableMap_eq h.root (by omega), he]
    rfl
  rw [uvmunmap, if_neg (not_not.mpr ha.aligned), Nat.mul_comm pgsize v, page_vpn]
  refine wp_post (uvmunmapLoop_rep hrep h.root hbelow (fun hf w e hlo hhi he => ?_)
    fun hf w x e e' hlo hlt hhi he he' heq => ?_) fun _ t ht => ?_
  · obtain ⟨hin, hfree, hnode⟩ := hpage hf w _ _ hlo hhi (hmap w e hhi he)
    have hheld : (treeAbs img pt s).own (pte2page e) = .held := by
      unfold treeAbs
      dsimp only
      rw [if_neg (not_not.mpr hin), if_neg hfree, if_neg hnode]
    rw [hheld]
    trivial
  · have hx := hmap x e' hhi he'
    rw [← heq] at hx
    exact hdistinct hf w x _ _ _ hlo hlt hhi (hmap w e (by omega) he) hx
  · obtain ⟨B, hB, hBpt, hent⟩ := ht
    refine ⟨hB.wellFormed hBpt, hB.tableMap_congr hBpt (fun w hlt => ?_) fun w hge => ?_⟩
    · rw [hent]
      unfold clear removeMap
      split
      · rfl
      · rw [hrep.tableMap_eq h.root hlt]
    · unfold removeMap
      rw [if_neg (by omega), tableMap_above s.mem hge]

theorem walk_map (alloc : Bool) (hva : va < maxva) :
    wp (walk pt va alloc) (fun r t => WellFormed img pt t ∧ tableMap t.mem pt = tableMap s.mem pt ∧
      ∀ q i, r = some (q, i) → tableMap s.mem pt (va / pgsize) =
        if isValid (t.mem q i).toNat then some (decode (t.mem q i).toNat) else none) Never s := by
  have hrep := h.rep
  have hvpn := lt_maxva_iff.mp hva
  cases alloc with
  | false =>
    refine wp_post (walk_find_spec hrep h.root hva) fun r t ht => ?_
    obtain ⟨rfl, hfound⟩ := ht
    refine ⟨h, rfl, ?_⟩
    rintro q i rfl
    obtain ⟨-, -, hent⟩ := hfound
    rw [hrep.tableMap_eq h.root hvpn, hent]
    split <;> rfl
  | true =>
    refine wp_post (walk_alloc_spec hrep h.root hva) fun r t ht => ?_
    obtain ⟨B, hgrown, hB, hfound, -⟩ := ht
    have hBpt := hgrown.root h.root
    have hsame : tableMap t.mem pt = tableMap s.mem pt := by
      refine hB.tableMap_congr hBpt (fun w hlt => ?_) fun w hge => tableMap_above s.mem hge
      rw [hgrown.ent, hrep.tableMap_eq h.root hlt]
    refine ⟨hB.wellFormed hBpt, hsame, ?_⟩
    rintro q i rfl
    obtain ⟨rfl, hslot⟩ := hfound q i rfl
    rw [← hsame, hB.tableMap_eq hBpt hvpn, ← (hB.table pt hBpt).entry_at (hva.trans (by decide)), entryAt,
      lookup_of_slot hslot]
    show Option.map decode (Option.map Word.toNat
      (if isValid (t.mem q (px 0 va)).toNat then some (t.mem q (px 0 va)) else none)) = _
    split <;> rfl

theorem walkaddr_map (va : Nat) :
    wp (walkaddr pt va) (fun r t => t = s ∧ ∀ q, r = some q ↔
      ∃ flags, tableMap s.mem pt (va / pgsize) = some (q, flags) ∧ flags.testBit 4 = true) Never s := by
  rw [walkaddr]
  split
  next hge =>
    refine wp_pure.mpr ⟨rfl, fun q => iff_of_false (by simp) ?_⟩
    rintro ⟨flags, hmap, -⟩
    rw [tableMap_above s.mem (mt lt_maxva_iff.mpr (Nat.not_lt.mpr hge))] at hmap
    cases hmap
  next hlt =>
    have hva : va < maxva := Nat.not_le.mp hlt
    refine wp_seq (wp_and (walk_map h false hva) (walk_find_spec h.rep h.root hva)) (fun _ he => he.1) fun r t ht => ?_
    obtain ⟨⟨-, -, hmap⟩, rfl, hfound⟩ := ht
    have hvpn := lt_maxva_iff.mp hva
    cases r with
    | none =>
      refine wp_pure.mpr ⟨rfl, fun q => iff_of_false (by simp) ?_⟩
      rintro ⟨flags, hsome, -⟩
      rw [h.rep.tableMap_eq h.root hvpn, show (treeAbs img pt t).ent pt (va / pgsize) = none from hfound] at hsome
      cases hsome
    | some slot =>
      obtain ⟨node, i⟩ := slot
      have hmap := hmap node i rfl
      refine wp_bind.mpr (wp_readWord.mpr ?_)
      rw [hmap]
      by_cases hvalid : isValid (t.mem node i).toNat = true
      · rw [if_neg (by rw [hvalid]; decide), if_pos hvalid]
        by_cases hset : (t.mem node i).toNat.testBit 4 = true
        · rw [if_neg (by rw [hset]; decide)]
          refine wp_pure.mpr ⟨rfl, fun q => ?_⟩
          constructor
          · intro hq
            refine ⟨pteFlags (t.mem node i).toNat, ?_, (testBit_pteFlags (by decide)).trans hset⟩
            rw [← Option.some.inj hq]
            rfl
          · rintro ⟨flags, hsome, -⟩
            exact congrArg some (Prod.mk.inj (Option.some.inj hsome)).1
        · rw [if_pos (Bool.eq_false_iff.mpr hset)]
          refine wp_pure.mpr ⟨rfl, fun q => iff_of_false (by simp) ?_⟩
          rintro ⟨flags, hsome, hflag⟩
          obtain ⟨-, rfl⟩ := Prod.mk.inj (Option.some.inj hsome)
          exact hset ((testBit_pteFlags (by decide)).symm.trans hflag)
      · rw [if_pos (Bool.eq_false_iff.mpr hvalid), if_neg hvalid]
        refine wp_pure.mpr ⟨rfl, fun q => iff_of_false (by simp) ?_⟩
        rintro ⟨flags, hsome, -⟩
        cases hsome

/-- Every allowed operation keeps the tree well-formed. -/
theorem WellFormed.step {op : TableOp} (hop : op.Allowed img pt s) {t : Vm}
    (ht : tableStep img pt s op = some t) : WellFormed img pt t := by
  cases op with
  | mappages va size page perm => exact wp_after (mappages_map h hop) (fun _ _ hr => hr.1) ht
  | uvmunmap va npages doFree => exact wp_after (uvmunmap_map h hop) (fun _ _ hr => hr.1) ht
  | walk va alloc => exact wp_after (walk_map h alloc hop) (fun _ _ hr => hr.1) ht

end

/-- In every state that the operations reach from a well-formed tree, the tree is well-formed and each call acts on
the map of the table; none of them stops with a panic. -/
theorem pagetable_refines_map
    (h : Reachable (WellFormed img pt) (tableStep img pt) (fun s op => op.Allowed img pt s) s) :
    WellFormed img pt s ∧
    (∀ va size page perm, MapArgs pt s va size page perm →
      wp (mappages pt va size page perm) (fun ok t => WellFormed img pt t ∧
        (ok = true → tableMap t.mem pt =
          extendMap (tableMap s.mem pt) (va / pgsize) (size / pgsize) page (perm ||| pteV)) ∧
        ∀ v, ¬ (va / pgsize ≤ v ∧ v < va / pgsize + size / pgsize) →
          tableMap t.mem pt v = tableMap s.mem pt v) Never s) ∧
    (∀ va npages doFree, UnmapArgs img pt s va npages doFree →
      wp (uvmunmap img pt va npages doFree) (fun _ t => WellFormed img pt t ∧
        tableMap t.mem pt = removeMap (tableMap s.mem pt) (va / pgsize) npages) Never s) ∧
    (∀ va alloc, va < maxva →
      wp (walk pt va alloc) (fun r t => WellFormed img pt t ∧ tableMap t.mem pt = tableMap s.mem pt ∧
        ∀ q i, r = some (q, i) → tableMap s.mem pt (va / pgsize) =
          if isValid (t.mem q i).toNat then some (decode (t.mem q i).toNat) else none) Never s) ∧
    ∀ va, wp (walkaddr pt va) (fun r t => t = s ∧ ∀ q, r = some q ↔
      ∃ flags, tableMap s.mem pt (va / pgsize) = some (q, flags) ∧ flags.testBit 4 = true) Never s := by
  have hwf : WellFormed img pt s := h.invariant (WellFormed img pt) (fun _ hs => hs) fun _ _ _ hs hop ht => hs.step hop ht
  refine ⟨hwf, fun va size page perm ha => mappages_map hwf ha, fun va npages doFree ha => uvmunmap_map hwf ha,
    fun va alloc hva => walk_map hwf alloc hva, walkaddr_map hwf⟩

/-- A kernel whose memory starts at page 0x80000. -/
def lowImage : Image where
  firstPage := 0x80000
  trampoline := 0x7ffff
  trampoline_lt := by decide

/-- An empty page table in page 0x80000 and three free pages. -/
def blankVm : Vm where
  mem := fun _ => fill 0
  free := [0x80001, 0x80002, 0x80003]

theorem blankVm_blank (j : Fin 512) : pteFormat.valid (blankVm.mem 0x80000 j) = false := by
  show isValid (Word.toNat (fill 0 j)) = false
  rw [toNat_zero]
  rfl

theorem blankVm_wellFormed : WellFormed lowImage 0x80000 blankVm := by
  have hnodes : tablePages blankVm.mem 0x80000 = {0x80000} := nodes_blank blankVm_blank
  constructor
  · exact tree_blank blankVm_blank
  · exact inner_blank blankVm_blank
  · decide
  · rw [hnodes]
    decide
  · decide
  · rw [hnodes]
    rintro q rfl
    decide

/-- Two pages are mapped into the empty table. -/
theorem blankVm_maps_two : ∃ t, mappages 0x80000 4096 8192 0x80010 (pteR ||| pteW) blankVm = .ok true t ∧
    tableMap t.mem 0x80000 = extendMap (tableMap blankVm.mem 0x80000) 1 2 0x80010 7 ∧
    WellFormed lowImage 0x80000 t := by
  have hargs : MapArgs 0x80000 blankVm 4096 8192 0x80010 (pteR ||| pteW) := by
    refine ⟨by decide, by decide, by decide, by decide, fun v _ hhi => ?_, by decide, by decide⟩
    have hhi : v < 3 := hhi
    have hlt : v * pgsize < maxva := vpn_lt_maxva (by omega)
    rw [tableMap, translate_eq hlt, entryAt, lookup_blank blankVm_blank]
    rfl
  have hmaps := (pagetable_refines_map (.start blankVm_wellFormed)).2.1 _ _ _ _ hargs
  have hok : yields (mappages 0x80000 4096 8192 0x80010 (pteR ||| pteW)) blankVm (fun ok _ => ok) = true := by
    decide +kernel
  obtain ⟨ok, t, hrun, rfl⟩ := yields_true hok
  obtain ⟨hwf, hmap, -⟩ := wp_ok hmaps hrun
  exact ⟨t, hrun, hmap rfl, hwf⟩

end Refinement

end Xv6Lab.Memory
