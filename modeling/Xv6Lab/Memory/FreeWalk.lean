import Xv6Lab.Memory.Ownership

/-!
# Freeing a page table

`freewalk` visits the nodes of a page table that maps nothing and frees each of them once (`freewalk_tree`). For the
abstract state that means that all pages of the table become free (`freewalk_spec`).
-/

namespace Xv6Lab.Memory

open Function Lib.Exec List
open Lib.RadixTree

variable {img : Image} {A : Abs} {s t : Vm} {l p pt : Nat}

/-- The nodes below the children of `p` at the indices outside `is`. -/
def doneNodes (mem : Nat → Page) (l p : Nat) (is : List (Fin 512)) : Set Nat :=
  { q | ∃ j, j ∉ is ∧ pteFormat.valid (mem p j) = true ∧ q ∈ nodes pteFormat mem l (pteFormat.child (mem p j)) }

/-- The loop of `freewalk` at the node `p`, with the indices `is` left. -/
structure FreeLoop (s : Vm) (l p : Nat) (is : List (Fin 512)) (t : Vm) : Prop where
  nodup : is.Nodup
  distinct : t.free.Nodup
  free : ∀ q, q ∈ t.free ↔ q ∈ s.free ∨ q ∈ doneNodes s.mem l p is
  words : ∀ j ∈ is, t.mem p j = s.mem p j
  frame : ∀ q, q ≠ p → q ∉ doneNodes s.mem l p is → t.mem q = s.mem q

/-- The pages of a tree are used and can be freed. -/
def Freeable (img : Image) (s : Vm) (l p : Nat) : Prop :=
  ∀ q ∈ nodes pteFormat s.mem l p, q ∉ s.free ∧ img.firstPage ≤ q ∧ q < phystopPage

theorem doneNodes_cons_invalid {mem : Nat → Page} {i : Fin 512} (is : List (Fin 512))
    (hi : pteFormat.valid (mem p i) = false) : doneNodes mem l p is = doneNodes mem l p (i :: is) := by
  ext q
  constructor
  · rintro ⟨j, hj, hv, hq⟩
    refine ⟨j, ?_, hv, hq⟩
    rw [mem_cons, not_or]
    refine ⟨?_, hj⟩
    rintro rfl
    rw [hi] at hv
    cases hv
  · rintro ⟨j, hj, hv, hq⟩
    exact ⟨j, fun hmem => hj (mem_cons_of_mem i hmem), hv, hq⟩

theorem mem_doneNodes_cons {mem : Nat → Page} {i : Fin 512} {is : List (Fin 512)} (hnot : i ∉ is)
    (hi : pteFormat.valid (mem p i) = true) (q : Nat) : q ∈ doneNodes mem l p is ↔
      q ∈ doneNodes mem l p (i :: is) ∨ q ∈ nodes pteFormat mem l (pteFormat.child (mem p i)) := by
  constructor
  · rintro ⟨j, hj, hv, hq⟩
    by_cases hji : j = i
    · exact .inr (hji ▸ hq)
    · refine .inl ⟨j, ?_, hv, hq⟩
      rw [mem_cons, not_or]
      exact ⟨hji, hj⟩
  · rintro (⟨j, hj, hv, hq⟩ | hq)
    · exact ⟨j, fun hmem => hj (mem_cons_of_mem i hmem), hv, hq⟩
    · exact ⟨i, hnot, hi, hq⟩

/-- The nodes of a child whose turn has not come are as they were. -/
theorem FreeLoop.child_mem {i : Fin 512} {is : List (Fin 512)} (h : FreeLoop s l p (i :: is) t)
    (ht : Tree pteFormat s.mem (l + 1) p) (hi : pteFormat.valid (s.mem p i) = true) :
    ∀ q ∈ nodes pteFormat s.mem l (pteFormat.child (s.mem p i)),
      t.mem q = s.mem q ∧ q ∉ doneNodes s.mem l p (i :: is) := by
  intro q hq
  have hnot : q ∉ doneNodes s.mem l p (i :: is) := by
    rintro ⟨j, hj, hv, hqj⟩
    have hji : j ≠ i := by
      rintro rfl
      exact hj mem_cons_self
    exact ht.2 j i hv hi hji q hqj hq
  refine ⟨h.frame q ?_ hnot, hnot⟩
  rintro rfl
  exact (ht.1 i hi).1 hq

/-- `freewalk` frees the nodes of a tree without values, and nothing else. -/
theorem freewalk_tree (ht : Tree pteFormat s.mem l p) (hplain : Inner pteFormat s.mem Plain l p)
    (hbare : Bare pteFormat s.mem l p) (hdistinct : s.free.Nodup) (hfreeable : Freeable img s l p) :
    wp (freewalk img (l + 1) p) (fun _ t => t.free.Nodup ∧
      (∀ q, q ∈ t.free ↔ q ∈ s.free ∨ q ∈ nodes pteFormat s.mem l p) ∧
      ∀ q ∉ nodes pteFormat s.mem l p, t.mem q = s.mem q) Never s := by
  induction l generalizing p s with
  | zero =>
    obtain ⟨hused, hin⟩ := hfreeable p (root_mem_nodes _ _)
    refine wp_seq (Q := fun _ t => t = s) (F := Never) ?_ (fun _ => id) fun _ t ht => ?_
    · refine wp_forM (I := fun _ t => t = s) _ rfl fun i is t ht => ?_
      subst ht
      refine wp_bind.mpr (wp_readWord.mpr ?_)
      have hinvalid : ¬ isValid (t.mem p i).toNat = true := Bool.eq_false_iff.mp (hbare i)
      rw [if_neg hinvalid]
      exact wp_pure.mpr rfl
    · subst ht
      refine wp_of_ok (kfree_ok hin hused) ⟨nodup_cons.mpr ⟨hused, hdistinct⟩, fun q => ?_, fun q hq => ?_⟩
      · rw [mem_cons, or_comm]
        rfl
      · exact update_of_ne hq _ _
  | succ l ih =>
    obtain ⟨hused, hin⟩ := hfreeable p (root_mem_nodes _ _)
    have hstart : FreeLoop s l p (finRange 512) s := by
      have hempty : ∀ q, q ∉ doneNodes s.mem l p (finRange 512) := by
        rintro q ⟨j, hj, -⟩
        exact hj (mem_finRange j)
      exact ⟨nodup_finRange 512, hdistinct, fun q => (or_iff_left (hempty q)).symm, fun _ _ => rfl, fun _ _ _ => rfl⟩
    refine wp_then (wp_forM _ hstart fun i is t h => ?_) fun _ t h => ?_
    · obtain ⟨hnot, hnodup⟩ := nodup_cons.mp h.nodup
      have hword : t.mem p i = s.mem p i := h.words i mem_cons_self
      refine wp_bind.mpr (wp_readWord.mpr ?_)
      rw [hword]
      split
      next hvalid =>
        obtain ⟨hflags, hplain'⟩ := hplain i hvalid
        rw [if_pos (show (s.mem p i).toNat % 16 / 2 = 0 from hflags)]
        have hchild := h.child_mem ht hvalid
        have hagree := fun q hq => (hchild q hq).1
        have hnodes := nodes_congr hagree
        have hfreeable' : Freeable img t l (pteFormat.child (s.mem p i)) := by
          intro q hq
          rw [hnodes] at hq
          obtain ⟨hqused, hqin⟩ := hfreeable q (child_mem_nodes hvalid hq)
          refine ⟨fun hmem => ?_, hqin⟩
          exact ((h.free q).mp hmem).elim hqused (hchild q hq).2
        have hsub := ih (tree_congr hagree (ht.1 i hvalid).2) (inner_congr hagree hplain')
          (bare_congr hagree (hbare i hvalid)) h.distinct hfreeable'
        rw [hnodes] at hsub
        refine wp_then hsub fun _ u hu => ?_
        obtain ⟨hdist, hfree, hframe⟩ := hu
        have hpnot : p ∉ nodes pteFormat s.mem l (pteFormat.child (s.mem p i)) := (ht.1 i hvalid).1
        refine wp_modify.mpr ⟨hnodup, hdist, fun q => ?_, fun j hj => ?_, fun q hqp hq => ?_⟩
        · rw [mem_doneNodes_cons hnot hvalid, ← or_assoc, ← h.free q]
          exact hfree q
        · have hji : j ≠ i := by
            rintro rfl
            exact hnot hj
          show update u.mem p _ p j = _
          rw [update_self, update_of_ne hji, hframe p hpnot]
          exact h.words j (mem_cons_of_mem i hj)
        · rw [mem_doneNodes_cons hnot hvalid, not_or] at hq
          show update u.mem p _ q = _
          rw [update_of_ne hqp, hframe q hq.2]
          exact h.frame q hqp hq.1
      next hinvalid =>
        have hsame := doneNodes_cons_invalid (l := l) is (Bool.eq_false_iff.mpr hinvalid)
        refine wp_pure.mpr ⟨hnodup, h.distinct, fun q => ?_, fun j hj => ?_, fun q hqp hq => ?_⟩
        · rw [hsame]
          exact h.free q
        · exact h.words j (mem_cons_of_mem i hj)
        · rw [hsame] at hq
          exact h.frame q hqp hq
    · -- all children are gone; the node itself is left
      have hmem : ∀ q, q ∈ doneNodes s.mem l p [] ∨ q = p ↔ q ∈ nodes pteFormat s.mem (l + 1) p := by
        intro q
        constructor
        · rintro (⟨j, -, hv, hq⟩ | rfl)
          · exact child_mem_nodes hv hq
          · exact root_mem_nodes _ _
        · rintro (hq | ⟨j, hv, hq⟩)
          · exact .inr hq
          · exact .inl ⟨j, not_mem_nil, hv, hq⟩
      have hpdone : p ∉ doneNodes s.mem l p [] := by
        rintro ⟨j, -, hv, hq⟩
        exact (ht.1 j hv).1 hq
      have hpused : p ∉ t.free := fun hmem => ((h.free p).mp hmem).elim hused hpdone
      refine wp_of_ok (kfree_ok hin hpused) ⟨nodup_cons.mpr ⟨hpused, h.distinct⟩, fun q => ?_, fun q hq => ?_⟩
      · rw [mem_cons, h.free q, ← hmem q, or_comm, or_assoc]
      rw [← hmem q, not_or] at hq
      show update t.mem p _ q = s.mem q
      rw [update_of_ne hq.2]
      exact h.frame q hq.2 hq.1

/-! ## The abstract state -/

/-- All nodes of a page table become free. -/
def Abs.dropTable (A : Abs) (pt : Nat) : Abs :=
  { A with own := fun q => if A.own q = .node pt then .free else A.own q }

theorem Abs.dropTable_own_node {q : Nat} (h : A.own q = .node pt) : (A.dropTable pt).own q = .free := if_pos h

theorem Abs.dropTable_own_of_ne {q : Nat} (h : A.own q ≠ .node pt) : (A.dropTable pt).own q = A.own q := if_neg h

theorem Abs.dropTable_iff {q : Nat} {o : Owner} (ho : o ≠ .free) :
    (A.dropTable pt).own q = o ↔ o ≠ .node pt ∧ A.own q = o := by
  by_cases hq : A.own q = .node pt
  · rw [dropTable_own_node hq, hq]
    exact iff_of_false ho.symm fun h => h.1 h.2.symm
  · rw [dropTable_own_of_ne hq]
    refine ⟨fun heq => ⟨?_, heq⟩, fun heq => heq.2⟩
    rintro rfl
    exact hq heq

/-- Every sequence of three indices is that of an address. -/
theorem px_surjective (f : Nat → Fin 512) : ∃ v, ∀ k ≤ 2, pteFormat.index k v = f k := by
  refine ⟨((f 2).val * 512 + (f 1).val) * 512 * 4096 + (f 0).val * 4096, fun k hk => ?_⟩
  refine Fin.ext ?_
  show _ / 2 ^ (12 + 9 * k) % 512 = _
  obtain rfl | rfl | rfl : k = 0 ∨ k = 1 ∨ k = 2 := by omega
  all_goals
    simp only [Nat.reduceMul, Nat.reduceAdd, Nat.reducePow]
    omega

/-- Addresses of 39 bits have the indices of any address. -/
theorem same_mod (va : Nat) : Same pteFormat 2 va (va % 2 ^ 39) := by
  intro k hk
  refine Fin.ext ?_
  show va % 2 ^ 39 / 2 ^ (12 + 9 * k) % 512 = va / 2 ^ (12 + 9 * k) % 512
  obtain rfl | rfl | rfl : k = 0 ∨ k = 1 ∨ k = 2 := by omega
  all_goals
    simp only [Nat.reduceMul, Nat.reduceAdd, Nat.reducePow]
    omega

theorem TableRep.bare (h : TableRep A s.mem pt) (hnone : ∀ v < 2 ^ 27, A.ent pt v = none) :
    Bare pteFormat s.mem 2 pt := by
  refine bare_of_lookup px_surjective (Nat.le_refl 2) fun va => ?_
  have hmod : va % 2 ^ 39 < 2 ^ 39 := Nat.mod_lt _ (by decide)
  have hent := h.entry_at hmod
  rw [hnone _ (by show va % 2 ^ 39 / 4096 < _; omega), entryAt, Option.map_eq_none_iff] at hent
  rw [← hent, lookup_of_same (same_mod va)]

/-- `freewalk` of a page table that maps nothing frees its nodes. -/
theorem freewalk_spec (h : Rep img A s) (hpt : A.own pt = .node pt) (hnone : ∀ v < 2 ^ 27, A.ent pt v = none) :
    wp (freewalk img 3 pt) (fun _ t => Rep img (A.dropTable pt) t ∧
      ∀ x, A.own x ≠ .node pt → t.mem x = s.mem x) Never s := by
  have htab := h.table pt hpt
  have hfreeable : Freeable img s 2 pt := by
    intro q hq
    have hown := (htab.nodes_iff q).mp hq
    refine ⟨fun hmem => ?_, h.in_range (by simp [hown])⟩
    rw [(h.free q).mp hmem] at hown
    cases hown
  refine wp_post (freewalk_tree htab.tree htab.plain (htab.bare hnone) h.distinct hfreeable) fun _ t ht => ?_
  obtain ⟨hdist, hfree, hframe⟩ := ht
  have hother : ∀ q pt', (A.dropTable pt).own q = .node pt' ↔ _ := fun q pt' => Abs.dropTable_iff Owner.noConfusion
  refine ⟨⟨hdist, fun q => ?_, fun q => ?_, fun q pt' hq => ?_, fun pt' hpt' => ?_⟩,
    fun x hx => hframe x fun hmem => hx ((htab.nodes_iff x).mp hmem)⟩
  · rw [hfree q, h.free q, ← tablePages, htab.nodes_iff q]
    by_cases hq : A.own q = .node pt
    · rw [Abs.dropTable_own_node hq]
      exact iff_of_true (.inr hq) rfl
    · rw [Abs.dropTable_own_of_ne hq]
      exact or_iff_left hq
  · rw [Abs.dropTable_iff Owner.noConfusion]
    exact (and_iff_right Owner.noConfusion).trans (h.outside q)
  · obtain ⟨hne, hq⟩ := (hother q pt').mp hq
    exact (hother pt' pt').mpr ⟨hne, h.root q pt' hq⟩
  · obtain ⟨hne, hpt'⟩ := (hother pt' pt').mp hpt'
    refine (h.table pt' hpt').congr (fun q => ?_) rfl fun q hq => hframe q fun hmem => ?_
    · rw [hother q pt']
      exact and_iff_right hne
    · exact hne (hq.symm.trans ((htab.nodes_iff q).mp hmem))

end Xv6Lab.Memory
