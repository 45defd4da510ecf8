import Mathlib.Order.Interval.Finset.Nat
import Xv6Lab.Memory.FreeWalk
import Xv6Lab.Memory.Calls

/-!
# Changes of one page table

An abstract state is exact if the user pages are exactly the pages that page tables map below the trapframe
(`Abs.Exact`), so that every page is mapped at one place at most. `Within pt A B` says that a change takes pages from
the free list for the page table `pt` and gives them back, and touches nothing else. The rules of this module say
what mapping a fresh page, unmapping a range and freeing a whole table do to an exact state.
-/

namespace Xv6Lab.Memory

open Function Lib.Exec Abs

/-- The page number of the trapframe, the first one above user memory. -/
abbrev trapVpn : Nat := 2 ^ 26 - 2

theorem trapVpn_eq : trapVpn = 67108862 := rfl

/-- Page numbers of 26 bits are those that `walk` accepts. -/
theorem vpn_lt_maxva {v : Nat} (hv : v < 2 ^ 26) : v * pgsize < maxva := by
  show v * 4096 < 2 ^ 38
  omega

theorem lt_maxva_iff {va : Nat} : va < maxva ↔ va / pgsize < 2 ^ 26 := by
  show va < 2 ^ 38 ↔ va / 4096 < 2 ^ 26
  omega

theorem lt_of_lt_trapVpn {v : Nat} (hv : v < trapVpn) : v < 2 ^ 26 := Nat.lt_of_lt_of_le hv (by decide)

/-! ## Exact states -/

/-- A page is a leaf exactly where a page table maps it. -/
def Abs.Exact (A : Abs) : Prop :=
  ∀ q pt v, A.own q = .leaf pt v ↔ A.own pt = .node pt ∧ v < trapVpn ∧ ∃ e, A.ent pt v = some e ∧ pte2page e = q

section Exact

variable {A B : Abs} {q pt v e : Nat}

section

variable (h : A.Exact)
include h

theorem Abs.Exact.own_of_ent (hpt : A.own pt = .node pt) (hv : v < trapVpn)
    (he : A.ent pt v = some e) : A.own (pte2page e) = .leaf pt v :=
  (h _ pt v).mpr ⟨hpt, hv, e, he, rfl⟩

theorem Abs.Exact.isData (hpt : A.own pt = .node pt) (hv : v < trapVpn)
    (he : A.ent pt v = some e) : (A.own (pte2page e)).IsData := by
  rw [h.own_of_ent hpt hv he]
  trivial

/-- Exactness speaks of the leaves, the roots and the entries only. -/
theorem Abs.Exact.congr (hleaf : ∀ q pt v, B.own q = .leaf pt v ↔ A.own q = .leaf pt v)
    (hroot : ∀ pt, B.own pt = .node pt ↔ A.own pt = .node pt) (hent : B.ent = A.ent) : B.Exact := by
  intro q pt v
  rw [hleaf, hroot, hent]
  exact h q pt v

/-- A change of the owner of a page that is neither a leaf nor a root, before and after. -/
theorem Abs.Exact.setOwn {o : Owner} (hold : A.own q = .free ∨ A.own q = .held)
    (hnew : o = .free ∨ o = .held) : (A.setOwn q o).Exact := by
  refine h.congr (fun r pt v => setOwn_iff ?_ ?_) (fun pt => setOwn_iff ?_ ?_) rfl
  all_goals rcases hold with hold | hold <;> rcases hnew with rfl | rfl <;> simp [hold]

/-- A held page is mapped at a free place. -/
theorem Abs.Exact.map (hq : A.own q = .held) (hpt : A.own pt = .node pt) (hv : v < trapVpn)
    (hnone : A.ent pt v = none) (he : pte2page e = q) :
    ((A.setEnt pt v (some e)).setOwn q (.leaf pt v)).Exact := by
  intro r pt' w
  rw [setOwn_iff (x := .node pt') Owner.noConfusion (by simp [hq]), setEnt_own, setOwn_ent]
  by_cases hplace : pt' = pt ∧ w = v
  · obtain ⟨rfl, rfl⟩ := hplace
    rw [setEnt_self]
    rcases eq_or_ne r q with rfl | hr
    · simp [setOwn_self, hpt, hv, he]
    · have hno : A.own r ≠ .leaf pt' w := fun hown => by simpa [hnone] using (h r pt' w).mp hown
      simp [setOwn_of_ne hr, hno, he, hr.symm]
  · rw [setEnt_apply hplace, ← h r pt' w]
    rcases eq_or_ne r q with rfl | hr
    · rw [setOwn_self, hq]
      refine iff_of_false (fun heq => ?_) Owner.noConfusion
      cases heq
      exact hplace ⟨rfl, rfl⟩
    · rw [setOwn_of_ne hr, setEnt_own]

/-- A page is unmapped and freed. -/
theorem Abs.Exact.unmap (hpt : A.own pt = .node pt) (hv : v < trapVpn)
    (he : A.ent pt v = some e) : ((A.setOwn (pte2page e) .free).setEnt pt v none).Exact := by
  have hq := h.own_of_ent hpt hv he
  intro r pt' w
  rw [setEnt_own, setOwn_iff (x := .node pt') Owner.noConfusion (by simp [hq])]
  by_cases hplace : pt' = pt ∧ w = v
  · obtain ⟨rfl, rfl⟩ := hplace
    rw [setEnt_self]
    refine iff_of_false (fun hown => ?_) (by simp)
    rcases eq_or_ne r (pte2page e) with rfl | hr
    · simp [setOwn_self] at hown
    rw [setOwn_of_ne hr] at hown
    obtain ⟨-, -, e', he', rfl⟩ := (h r pt' w).mp hown
    rw [he] at he'
    cases he'
    exact hr rfl
  · rw [setEnt_apply hplace, setOwn_ent, ← h r pt' w]
    rcases eq_or_ne r (pte2page e) with rfl | hr
    · rw [setOwn_self, hq]
      refine iff_of_false Owner.noConfusion fun heq => ?_
      cases heq
      exact hplace ⟨rfl, rfl⟩
    · rw [setOwn_of_ne hr]

/-- Entries of the trapframe and above are not user memory. -/
theorem Abs.Exact.setTop (hv : trapVpn ≤ v) (e : Option Nat) : (A.setEnt pt v e).Exact := by
  intro r pt' w
  rw [setEnt_own, h r pt' w]
  refine and_congr_right fun _ => and_congr_right fun hw => ?_
  rw [setEnt_apply (by omega)]

/-- A new page table has no leaves. -/
theorem Abs.Exact.newTable (hq : A.own q = .held) : (A.newTable q).Exact := by
  intro r pt v
  have hleaf : (A.newTable q).own r = .leaf pt v ↔ _ := setOwn_iff Owner.noConfusion (by simp [hq])
  rw [hleaf, h r pt v]
  rcases eq_or_ne pt q with rfl | hne
  · simp [hq, newTable_ent_self]
  · rw [newTable_own_of_ne hne, newTable_ent_of_ne hne]

theorem Abs.Exact.dropTable (hnone : ∀ v < trapVpn, A.ent pt v = none) : (A.dropTable pt).Exact := by
  intro r pt' v
  rw [dropTable_iff Owner.noConfusion, and_iff_right (a := _ ≠ Owner.node pt) Owner.noConfusion, h r pt' v]
  rcases eq_or_ne pt' pt with rfl | hne
  · have hno : ¬ (v < trapVpn ∧ ∃ e, A.ent pt' v = some e ∧ pte2page e = r) := by
      rintro ⟨hv, e, he, -⟩
      rw [hnone v hv] at he
      cases he
    exact iff_of_false (fun hx => hno hx.2) fun hx => hno hx.2
  · rw [dropTable_iff (o := .node pt') Owner.noConfusion, and_iff_right fun heq => hne (Owner.node.inj heq)]
    rfl

end

end Exact

/-! ## Changes within a page table -/

/-- Owners that a change of the page table `pt` gives and takes. -/
def Owner.Of (pt : Nat) : Owner → Prop
  | .free => True
  | .node pt' => pt' = pt
  | .leaf pt' _ => pt' = pt
  | .outside => False
  | .held => False

structure Within (pt : Nat) (A B : Abs) : Prop where
  ent : ∀ pt', pt' ≠ pt → B.ent pt' = A.ent pt'
  own : ∀ q, B.own q = A.own q ∨ ((A.own q).Of pt ∧ (B.own q).Of pt)

namespace Within

variable {pt q : Nat} {A B C : Abs} {lo hi perm : Nat}

theorem refl (pt : Nat) (A : Abs) : Within pt A A := ⟨fun _ _ => rfl, fun _ => .inl rfl⟩

theorem trans (h : Within pt A B) (h' : Within pt B C) : Within pt A C := by
  refine ⟨fun pt' hne => (h'.ent pt' hne).trans (h.ent pt' hne), fun q => ?_⟩
  rcases h.own q with hq | ⟨hA, hB⟩ <;> rcases h'.own q with hq' | ⟨hB', hC⟩
  · exact .inl (hq'.trans hq)
  · exact .inr ⟨hq ▸ hB', hC⟩
  · exact .inr ⟨hA, hq' ▸ hB⟩
  · exact .inr ⟨hA, hC⟩

theorem of_grown {s t : Vm} (h : Grown pt A B s t) : Within pt A B := by
  refine ⟨fun pt' _ => by rw [h.ent], fun q => ?_⟩
  rcases h.own q with hq | ⟨hA, hB⟩
  · exact .inl hq
  · exact .inr ⟨hA ▸ trivial, hB ▸ rfl⟩

theorem setEnt (v : Nat) (e : Option Nat) : Within pt A (A.setEnt pt v e) :=
  ⟨fun _ hne => setEnt_other hne, fun _ => .inl rfl⟩

theorem setOwn {o : Owner} (hq : (A.own q).Of pt) (ho : o.Of pt) : Within pt A (A.setOwn q o) := by
  refine ⟨fun _ _ => rfl, fun r => ?_⟩
  rcases eq_or_ne r q with rfl | hr
  · exact .inr ⟨hq, setOwn_self ▸ ho⟩
  · exact .inl (setOwn_of_ne hr)

end Within

/-- An entry function without the entries from `lo` to `hi`. -/
def clear (f : Nat → Option Nat) (lo hi : Nat) : Nat → Option Nat := fun v => if lo ≤ v ∧ v < hi then none else f v

theorem clear_empty {f : Nat → Option Nat} (h : hi ≤ lo) : clear f lo hi = f := by
  funext v
  exact if_neg fun hv => by omega

theorem clear_cons {f : Nat → Option Nat} (h : lo < hi) : clear (update f lo none) (lo + 1) hi = clear f lo hi := by
  funext v
  rcases eq_or_ne v lo with rfl | hne
  · simp [clear, h]
  · by_cases hv : lo + 1 ≤ v ∧ v < hi
    · rw [clear, clear, if_pos hv, if_pos (by omega)]
    · rw [clear, clear, if_neg hv, if_neg (by omega), update_of_ne hne]

/-- Memory that holds an exact abstract state. -/
structure Good (img : Image) (A : Abs) (s : Vm) : Prop where
  rep : Rep img A s
  leaves : A.Exact

/-- The change from `A` to `B` takes memory `s` to `t`: it concerns the page table `pt`, which still exists, and leaves
the contents of all other pages alone. -/
structure Became (img : Image) (pt : Nat) (A B : Abs) (s t : Vm) : Prop where
  good : Good img B t
  within : Within pt A B
  root : B.own pt = .node pt
  frame : ∀ q, ¬ (A.own q).Of pt → t.mem q = s.mem q

/-- A change that only adds to the page table `pt`: what is in use keeps its owner, and its contents but for the nodes
of the table. -/
structure Grew (img : Image) (pt : Nat) (A B : Abs) (s t : Vm) : Prop where
  good : Good img B t
  within : Within pt A B
  root : B.own pt = .node pt
  own : ∀ q, A.own q ≠ .free → B.own q = A.own q
  keeps : OnlyTable pt A s t

/-- The page is mapped by `pt` at a page number from `lo` on and below `hi`. -/
def Abs.InRange (A : Abs) (pt lo hi q : Nat) : Prop := ∃ v, lo ≤ v ∧ v < hi ∧ A.own q = .leaf pt v

/-- The user pages from `lo` to `hi` are unmapped and freed. -/
structure Shrunk (img : Image) (pt lo hi : Nat) (A B : Abs) (s t : Vm) : Prop where
  good : Good img B t
  within : Within pt A B
  root : B.own pt = .node pt
  ent : B.ent pt = clear (A.ent pt) lo hi
  freed : ∀ q, A.InRange pt lo hi q → B.own q = .free
  own : ∀ q, ¬ A.InRange pt lo hi q → B.own q = A.own q
  keeps : ∀ q, A.own q ≠ .node pt → ¬ A.InRange pt lo hi q → t.mem q = s.mem q

/-- The state after the page table `pt` has been freed. -/
structure Dropped (img : Image) (pt : Nat) (A B : Abs) (s t : Vm) : Prop where
  good : Good img B t
  within : Within pt A B
  gone : ∀ q, B.own q ≠ .node pt
  frame : ∀ q, ¬ (A.own q).Of pt → t.mem q = s.mem q

section Rules

variable {img : Image} {A B C : Abs} {s t u : Vm} {pt q v : Nat}

theorem Owner.not_of_ne_free {o : Owner} (h : ¬ o.Of pt) : o ≠ .free := by
  rintro rfl
  exact h trivial

theorem Owner.not_of_ne_node {o : Owner} (h : ¬ o.Of pt) : o ≠ .node pt := by
  rintro rfl
  exact h rfl

/-- Pages that have nothing to do with the table keep their owner. -/
theorem Within.own_eq (h : Within pt A B) (hq : ¬ (A.own q).Of pt) : B.own q = A.own q :=
  (h.own q).resolve_right fun hof => hq hof.1

theorem Within.not_of (h : Within pt A B) (hq : ¬ (A.own q).Of pt) : ¬ (B.own q).Of pt := by
  rw [h.own_eq hq]
  exact hq

theorem Became.trans (h : Became img pt A B s t) (h' : Became img pt B C t u) : Became img pt A C s u where
  good := h'.good
  within := h.within.trans h'.within
  root := h'.root
  frame q hq := (h'.frame q (h.within.not_of hq)).trans (h.frame q hq)

theorem Became.dropped (h : Became img pt A B s t) (h' : Dropped img pt B C t u) : Dropped img pt A C s u where
  good := h'.good
  within := h.within.trans h'.within
  gone := h'.gone
  frame q hq := (h'.frame q (h.within.not_of hq)).trans (h.frame q hq)

open Within

theorem Grew.refl (h : Good img A s) (hpt : A.own pt = .node pt) : Grew img pt A A s s :=
  ⟨h, Within.refl pt A, hpt, fun _ _ => rfl, fun _ _ _ => rfl⟩

theorem Grew.trans (h : Grew img pt A B s t) (h' : Grew img pt B C t u) : Grew img pt A C s u where
  good := h'.good
  within := h.within.trans h'.within
  root := h'.root
  own q hq := by
    rw [h'.own q (by rwa [h.own q hq]), h.own q hq]
  keeps q hfree hnode := by
    rw [h'.keeps q (by rwa [h.own q hfree]) (by rwa [h.own q hfree]), h.keeps q hfree hnode]

theorem Grew.became (h : Grew img pt A B s t) : Became img pt A B s t where
  good := h.good
  within := h.within
  root := h.root
  frame q hq := h.keeps q (Owner.not_of_ne_free hq) (Owner.not_of_ne_node hq)

theorem Abs.InRange.of (h : A.InRange pt lo hi q) : (A.own q).Of pt := by
  obtain ⟨v, -, -, hq⟩ := h
  rw [hq]
  rfl

theorem Shrunk.became (h : Shrunk img pt lo hi A B s t) : Became img pt A B s t where
  good := h.good
  within := h.within
  root := h.root
  frame q hq := h.keeps q (Owner.not_of_ne_node hq) fun hr => hq hr.of

/-- What a change has added is taken back: the range that is unmapped was not mapped before. -/
theorem Grew.shrink (h : Grew img pt A B s t) (hA : A.Exact)
    (hnone : ∀ v, lo ≤ v → v < hi → A.ent pt v = none) (h' : Shrunk img pt lo hi B C t u) :
    Grew img pt A C s u := by
  have hold : ∀ q, A.own q ≠ .free → ¬ B.InRange pt lo hi q := by
    rintro q hq ⟨v, hlo, hhi, hleaf⟩
    rw [h.own q hq] at hleaf
    obtain ⟨-, -, e, he, -⟩ := (hA q pt v).mp hleaf
    rw [hnone v hlo hhi] at he
    cases he
  constructor
  · exact h'.good
  · exact h.within.trans h'.within
  · exact h'.root
  · intro q hq
    rw [h'.own q (hold q hq), h.own q hq]
  · intro q hfree hnode
    rw [h'.keeps q (by rwa [h.own q hfree]) (hold q hfree), h.keeps q hfree hnode]

/-- Writing a page with data. -/
theorem Good.setPage (h : Good img A s) (hq : (A.own q).IsData) (data : Page) :
    wp (setPage q data) (fun _ t => Good img A t ∧ t.mem q = data ∧ (∀ x ≠ q, t.mem x = s.mem x) ∧
      t.free = s.free) Never s :=
  wp_post (setPage_spec h.rep hq data) fun _ _ ht => ⟨⟨ht.1, h.leaves⟩, ht.2⟩

/-- As many pages are mapped as there are, at most. -/
theorem Good.mapped_le (h : Good img A s) (hpt : A.own pt = .node pt) (hhi : hi ≤ trapVpn)
    (hall : ∀ v, lo ≤ v → v < hi → ∃ e, A.ent pt v = some e) : hi - lo ≤ phystopPage := by
  -- a page number goes to the page it is mapped to
  let page : Nat → Nat := fun v => pte2page ((A.ent pt v).getD 0)
  have hown : ∀ v ∈ Finset.Ico lo hi, A.own (page v) = .leaf pt v := by
    intro v hv
    obtain ⟨hlo, hlt⟩ := Finset.mem_Ico.mp hv
    obtain ⟨e, he⟩ := hall v hlo hlt
    show A.own (pte2page ((A.ent pt v).getD 0)) = _
    rw [he]
    exact h.leaves.own_of_ent hpt (Nat.lt_of_lt_of_le hlt hhi) he
  have hmaps : ∀ v ∈ Finset.Ico lo hi, page v ∈ Finset.range phystopPage := by
    intro v hv
    exact Finset.mem_range.mpr (h.rep.in_range (by simp [hown v hv])).2
  have hinj : ∀ v ∈ Finset.Ico lo hi, ∀ w ∈ Finset.Ico lo hi, page v = page w → v = w := by
    intro v hv w hw heq
    have hleaf := hown v hv
    rw [heq, hown w hw] at hleaf
    cases hleaf
    rfl
  simpa using Finset.card_le_card_of_injOn page hmaps hinj

/-! ## Mapping a fresh page -/

theorem pte2page_leafEntry {page : Nat} (hpage : page < 2 ^ 52) (hperm : perm < 2 ^ 10) :
    pte2page (leafEntry page perm) = page := by
  rw [leafEntry_eq hperm]
  exact pte2page_entry hpage (or_one_lt hperm)

theorem Abs.setOwn_setOwn (o o' : Owner) : (A.setOwn q o).setOwn q o' = A.setOwn q o' := by
  simp [setOwn]

theorem Abs.setOwn_eq_self {o : Owner} (h : A.own q = o) : A.setOwn q o = A := by
  subst h
  simp [setOwn]

/-- A walk that allocates takes no leaves. -/
theorem Abs.Exact.grown (h : A.Exact) (hg : Grown pt A B s t) (hpt : A.own pt = .node pt) : B.Exact := by
  refine h.congr (fun r pt' w => ?_) (fun pt' => ?_) hg.ent
  · rcases hg.own r with hr | ⟨hfree, hnode⟩
    · rw [hr]
    · simp [hfree, hnode]
  rcases hg.own pt' with hr | ⟨hfree, hnode⟩
  · rw [hr]
  rw [hnode, hfree]
  refine iff_of_false (fun heq => ?_) Owner.noConfusion
  cases heq
  rw [hpt] at hfree
  cases hfree

/-- A page that was taken from a state goes back. -/
theorem kfree_back (h : Rep img (A.setOwn q .held) s) (hq : A.own q = .free) :
    wp (kfree img q) (fun _ t => Rep img A t ∧ ∀ x ≠ q, t.mem x = s.mem x) Never s := by
  refine wp_post (kfree_spec h held_isData) fun _ t ht => ?_
  rw [setOwn_setOwn, setOwn_eq_self hq] at ht
  exact ht

/-- A page of the state `A` is in the caller's hand; the memory differs from `s₀` in free pages only. -/
structure InHand (img : Image) (A : Abs) (q : Nat) (s₀ s : Vm) : Prop where
  good : Good img (A.setOwn q .held) s
  free : A.own q = .free
  keeps : ∀ x, A.own x ≠ .free → s.mem x = s₀.mem x
  count : s₀.free.length = s.free.length + 1

/-- `kalloc` takes a page from an exact state. -/
theorem kalloc_take (h : Good img A s) : wp kalloc (fun r t => match r with
    | none => t = s ∧ s.free.length = 0
    | some q => InHand img A q s t) Never s := by
  refine wp_post (kalloc_spec h.rep) fun r t ht => ?_
  cases r with
  | none => exact ht
  | some q =>
    refine ⟨⟨ht.2.1, h.leaves.setOwn (.inl ht.1) (.inr rfl)⟩, ht.1, fun x hx => ht.2.2.1 x ?_, ht.2.2.2⟩
    rintro rfl
    exact hx ht.1

theorem InHand.small {s₀ : Vm} (h : InHand img A q s₀ s) : q < 2 ^ 52 := h.good.rep.small (by simp [setOwn_self])

/-- The caller fills the page. -/
theorem InHand.setPage {s₀ : Vm} (h : InHand img A q s₀ s) (data : Page) :
    wp (setPage q data) (fun _ t => InHand img A q s₀ t ∧ t.mem q = data) Never s := by
  refine wp_post (h.good.setPage held_isData data) fun _ t ht => ⟨⟨ht.1, h.free, fun x hx => ?_, ?_⟩, ht.2.1⟩
  · rw [ht.2.2.1 x fun heq => hx (heq ▸ h.free), h.keeps x hx]
  · rw [ht.2.2.2, h.count]

/-- The pattern of the callers of `mappages`: a page taken from the state `A` is mapped or given back. -/
theorem mapOrFree_spec {α : Type} {Q : α → Vm → Prop} {mapped failed : VmM α} {s₀ : Vm} (h : InHand img A q s₀ s)
    (hA : A.Exact) (hpt : A.own pt = .node pt) (hv : v < trapVpn) (hnone : A.ent pt v = none) (hperm : perm < 2 ^ 10)
    (hmapped : ∀ B t, Grew img pt A B s₀ t → B.own q = .leaf pt v → t.mem q = s.mem q →
      B.ent pt = update (A.ent pt) v (some (leafEntry q perm)) →
      needed s₀.mem pt (v * pgsize) ≤ s₀.free.length → wp mapped Q Never t)
    (hfailed : ∀ B t, Grew img pt A B s₀ t → B.ent pt = A.ent pt →
      ¬ needed s₀.mem pt (v * pgsize) ≤ s₀.free.length → wp failed Q Never t) :
    wp (do
      let ok ← mappages pt (v * pgsize) pgsize q perm
      if ok then mapped else do
        kfree img q
        failed) Q Never s := by
  have hq := h.free
  have hvpn := page_vpn v
  have hva : v * pgsize < maxva := vpn_lt_maxva (lt_of_lt_trapVpn hv)
  have hqpt : pt ≠ q := by
    rintro rfl
    simp [hpt] at hq
  have hpt' : (A.setOwn q .held).own pt = .node pt := (setOwn_of_ne hqpt).trans hpt
  have hsmall := h.small
  have hmap := mappages_spec h.good.rep hpt' (Nat.mul_mod_left v pgsize) hva (hvpn.symm ▸ hnone) hsmall hperm
  rw [hvpn] at hmap
  -- the page in hand is no node, so that the walk needs as many pages as before
  have hsame : missing s₀.mem (v * pgsize) 2 pt = missing s.mem (v * pgsize) 2 pt := by
    refine missing_congr fun x hx => (h.keeps x fun hfree => ?_).symm
    have hnode := ((h.good.rep.table pt hpt').nodes_iff x).mp hx
    rcases eq_or_ne x q with rfl | hne
    · simp [setOwn_self] at hnode
    · simp [setOwn_of_ne hne, hfree] at hnode
  have hneeded : needed s₀.mem pt (v * pgsize) ≤ s₀.free.length ↔
      missing s.mem (v * pgsize) 2 pt ≤ s.free.length := by
    rw [needed, hsame, h.count]
    omega
  refine wp_then hmap fun ok t ht => ?_
  obtain ⟨B, hgrown, hrep, hcount⟩ := ht
  have hBq : B.own q = .held := (hgrown.own_eq (by simp [setOwn_self])).trans setOwn_self
  have hBpt := hgrown.root hpt'
  -- the state without the page in hand
  have hback : (B.setOwn q .free).setOwn q .held = B := by
    rw [setOwn_setOwn, setOwn_eq_self hBq]
  have hwithin : Within pt A (B.setOwn q .free) := by
    refine ⟨fun pt' _ => by rw [setOwn_ent, hgrown.ent, setOwn_ent], fun r => ?_⟩
    rcases eq_or_ne r q with rfl | hr
    · exact .inl (setOwn_self.trans hq.symm)
    rw [setOwn_of_ne hr]
    have hown := (of_grown hgrown).own r
    rw [setOwn_of_ne hr] at hown
    exact hown
  have hne : ∀ {r}, A.own r ≠ .free → r ≠ q := by
    rintro r hr rfl
    exact hr hq
  have hkept : ∀ r, A.own r ≠ .free → B.own r = A.own r := by
    intro r hr
    have hheld : (A.setOwn q .held).own r = A.own r := setOwn_of_ne (hne hr)
    rw [hgrown.own_eq (hheld ▸ hr), hheld]
  have hmem : OnlyTable pt A s₀ t := by
    intro r hfree hnode
    have hheld : (A.setOwn q .held).own r = A.own r := setOwn_of_ne (hne hfree)
    rw [hgrown.keeps r (hheld ▸ hfree) (hheld ▸ hnode), h.keeps r hfree]
  have hBexact : B.Exact := (hA.setOwn (.inl hq) (.inr rfl)).grown hgrown hpt'
  cases ok with
  | true =>
    rw [if_pos rfl] at hrep
    have hleaf := hBexact.map hBq hBpt hv (hgrown.ent ▸ hnone) (pte2page_leafEntry hsmall hperm)
    refine hmapped _ t ⟨⟨?_, hleaf⟩, ?_, ?_, fun r hr => ?_, hmem⟩ setOwn_self ?_ ?_ (hneeded.mpr (hcount.mp rfl))
    · refine hrep.change (fun r pt' => ?_) rfl (fun _ _ _ => rfl) hrep.distinct (fun r => ?_) fun r => ?_
      · exact setOwn_iff Owner.noConfusion (by simp [hBq])
      · exact (hrep.free r).trans (setOwn_iff Owner.noConfusion (by simp [hBq])).symm
      · exact setOwn_iff Owner.noConfusion (by simp [hBq])
    · have hstep : Within pt (B.setOwn q .free) ((B.setEnt pt v (some (leafEntry q perm))).setOwn q (.leaf pt v)) := by
        refine ⟨fun pt' hne => setEnt_other hne, fun r => ?_⟩
        rcases eq_or_ne r q with rfl | hr
        · rw [setOwn_self, setOwn_self]
          exact .inr ⟨trivial, rfl⟩
        · rw [setOwn_of_ne hr, setOwn_of_ne hr]
          exact .inl rfl
      exact hwithin.trans hstep
    · rw [setOwn_of_ne hqpt]
      exact hBpt
    · rw [setOwn_of_ne (hne hr)]
      exact hkept r hr
    · exact hgrown.keeps q (by simp [setOwn_self]) (by simp [setOwn_self])
    · rw [setOwn_ent, setEnt_ent, hgrown.ent]
      rfl
  | false =>
    have hrep' : Rep img ((B.setOwn q .free).setOwn q .held) t := hback.symm ▸ hrep
    refine wp_then (kfree_back hrep' setOwn_self) fun _ u hu => ?_
    refine hfailed _ u ⟨⟨hu.1, hBexact.setOwn (.inr hBq) (.inl rfl)⟩, hwithin, ?_, fun r hr => ?_,
      fun r hfree hnode => ?_⟩ ?_ fun hle => Bool.noConfusion (hcount.mpr (hneeded.mp hle))
    · rw [setOwn_of_ne hqpt]
      exact hBpt
    · rw [setOwn_of_ne (hne hr)]
      exact hkept r hr
    · exact (hu.2 r (hne hfree)).trans (hmem r hfree hnode)
    · rw [setOwn_ent, hgrown.ent]
      rfl

/-- The trampoline or a trapframe is mapped above user memory. -/
theorem mapTop_spec {page : Nat} (h : Good img A s) (hpt : A.own pt = .node pt) (hlo : trapVpn ≤ v)
    (hhi : v < 2 ^ 26) (hnone : A.ent pt v = none) (hpage : page < 2 ^ 52) (hperm : perm < 2 ^ 10) :
    wp (mappages pt (v * pgsize) pgsize page perm) (fun ok t => ∃ B, Grew img pt A B s t ∧
      B.ent pt = if ok then update (A.ent pt) v (some (leafEntry page perm)) else A.ent pt) Never s := by
  have hvpn := page_vpn v
  have hmap := mappages_spec h.rep hpt (Nat.mul_mod_left v pgsize) (vpn_lt_maxva hhi) (hvpn.symm ▸ hnone) hpage hperm
  rw [hvpn] at hmap
  refine wp_post hmap fun ok t ht => ?_
  obtain ⟨B, hgrown, hrep, -⟩ := ht
  have hroot := hgrown.root hpt
  have hexact := h.leaves.grown hgrown hpt
  cases ok with
  | false =>
    exact ⟨B, ⟨⟨hrep, hexact⟩, of_grown hgrown, hroot, fun q => hgrown.own_eq, hgrown.keeps⟩, hgrown.ent ▸ rfl⟩
  | true =>
    rw [if_pos rfl] at hrep
    refine ⟨_, ⟨⟨hrep, hexact.setTop hlo _⟩, (of_grown hgrown).trans (setEnt _ _), hroot,
      fun q => hgrown.own_eq, hgrown.keeps⟩, ?_⟩
    rw [if_pos rfl, setEnt_ent, hgrown.ent]

/-! ## Unmapping -/

theorem Abs.inRange_one : A.InRange pt v (v + 1) q ↔ A.own q = .leaf pt v := by
  constructor
  · rintro ⟨w, hlo, hhi, hq⟩
    obtain rfl : w = v := by omega
    exact hq
  · intro hq
    exact ⟨v, Nat.le_refl v, Nat.lt_succ_self v, hq⟩

/-- One user page is unmapped and freed. -/
theorem unmapUser_spec (h : Good img A s) (hpt : A.own pt = .node pt) (hv : v < trapVpn) :
    wp (unmapPage img pt (v * pgsize) true) (fun _ t => ∃ B, Shrunk img pt v (v + 1) A B s t) Never s := by
  have hvpn := page_vpn v
  have hva : v * pgsize < maxva := vpn_lt_maxva (lt_of_lt_trapVpn hv)
  have hclear : ∀ f : Nat → Option Nat, clear f v (v + 1) = update f v none := by
    intro f
    rw [← clear_cons (Nat.lt_succ_self v), clear_empty (Nat.le_refl _)]
  refine wp_post (unmapPage_spec h.rep hpt hva fun _ e he => ?_) fun _ t ht => ?_
  · rw [hvpn] at he
    exact h.leaves.isData hpt hv he
  rw [hvpn, unmap] at ht
  cases he : A.ent pt v with
  | none =>
    rw [he] at ht
    have hnot : ∀ q, ¬ A.InRange pt v (v + 1) q := by
      intro q hr
      obtain ⟨-, -, e, hent, -⟩ := (h.leaves q pt v).mp (inRange_one.mp hr)
      rw [he] at hent
      cases hent
    refine ⟨A, ⟨ht.1, h.leaves⟩, refl pt A, hpt, ?_, fun q hr => absurd hr (hnot q), fun _ _ => rfl,
      fun q hnode _ => ht.2 q hnode (by simp)⟩
    rw [hclear, ← he, update_eq_self]
  | some e =>
    simp only [he, if_true] at ht
    have hq := h.leaves.own_of_ent hpt hv he
    -- the page that is freed is the only one mapped at `v`
    have hiff : ∀ q, A.InRange pt v (v + 1) q ↔ q = pte2page e := by
      intro q
      rw [inRange_one]
      constructor
      · intro hleaf
        obtain ⟨-, -, e', hent, rfl⟩ := (h.leaves q pt v).mp hleaf
        rw [he] at hent
        cases hent
        rfl
      · rintro rfl
        exact hq
    refine ⟨_, ⟨ht.1, h.leaves.unmap hpt hv he⟩, ?_, ?_, ?_, fun q hr => ?_, fun q hr => ?_, fun q hnode hr => ?_⟩
    · exact (setOwn (hq ▸ rfl) (show Owner.free.Of pt from trivial)).trans (setEnt v none)
    · rw [setEnt_own, setOwn_of_ne, hpt]
      intro heq
      rw [← heq, hpt] at hq
      cases hq
    · rw [setEnt_ent, setOwn_ent, hclear]
    · rw [setEnt_own, (hiff q).mp hr, setOwn_self]
    · rw [setEnt_own, setOwn_of_ne fun heq => hr ((hiff q).mpr heq)]
    · refine ht.2 q hnode fun _ e' he' => ?_
      cases he'
      exact fun heq => hr ((hiff q).mpr heq)

theorem Shrunk.refl (h : Good img A s) (hpt : A.own pt = .node pt) (hle : hi ≤ lo) : Shrunk img pt lo hi A A s s := by
  have hnot : ∀ q, ¬ A.InRange pt lo hi q := by
    rintro q ⟨v, hlo, hhi, -⟩
    omega
  exact ⟨h, Within.refl pt A, hpt, (clear_empty hle).symm, fun q hr => absurd hr (hnot q), fun _ _ => rfl,
    fun _ _ _ => rfl⟩

/-- One page after the other is unmapped. -/
theorem Shrunk.cons (h : Shrunk img pt lo (lo + 1) A B s t) (h' : Shrunk img pt (lo + 1) hi B C t u)
    (hlt : lo < hi) : Shrunk img pt lo hi A C s u := by
  -- a page of the range is freed first or still mapped
  have hfirst : ∀ q, A.own q = .leaf pt lo → B.own q = .free := fun q hq => h.freed q (inRange_one.mpr hq)
  have hrest : ∀ q, A.own q ≠ .leaf pt lo → B.own q = A.own q :=
    fun q hq => h.own q fun hr => hq (inRange_one.mp hr)
  have hsplit : ∀ q, A.own q ≠ .leaf pt lo → (A.InRange pt lo hi q ↔ B.InRange pt (lo + 1) hi q) := by
    intro q hq
    constructor
    · rintro ⟨v, hlo, hhi, hleaf⟩
      have hne : v ≠ lo := by
        rintro rfl
        exact hq hleaf
      exact ⟨v, by omega, hhi, (hrest q hq).trans hleaf⟩
    · rintro ⟨v, hlo, hhi, hleaf⟩
      exact ⟨v, by omega, hhi, (hrest q hq).symm.trans hleaf⟩
  have hgone : ∀ q, A.own q = .leaf pt lo → ¬ B.InRange pt (lo + 1) hi q := by
    rintro q hq ⟨v, -, -, hleaf⟩
    rw [hfirst q hq] at hleaf
    cases hleaf
  constructor
  · exact h'.good
  · exact h.within.trans h'.within
  · exact h'.root
  · rw [h'.ent, h.ent, ← clear_cons hlt, ← clear_cons (Nat.lt_succ_self lo), clear_empty (Nat.le_refl (lo + 1))]
  · intro q hr
    by_cases hq : A.own q = .leaf pt lo
    · rw [h'.own q (hgone q hq), hfirst q hq]
    · exact h'.freed q ((hsplit q hq).mp hr)
  · intro q hr
    have hq : A.own q ≠ .leaf pt lo := fun hq => hr ⟨lo, Nat.le_refl lo, hlt, hq⟩
    rw [h'.own q fun hr' => hr ((hsplit q hq).mpr hr'), hrest q hq]
  · intro q hnode hr
    have hq : A.own q ≠ .leaf pt lo := fun hq => hr ⟨lo, Nat.le_refl lo, hlt, hq⟩
    rw [h'.keeps q (by rwa [hrest q hq]) fun hr' => hr ((hsplit q hq).mpr hr'),
      h.keeps q hnode fun hr' => hq (inRange_one.mp hr')]

/-- The loop of `uvmunmap` over user pages. -/
theorem uvmunmapLoop_spec {k : Nat} (h : Good img A s) (hpt : A.own pt = .node pt) (hhi : lo + k ≤ trapVpn) :
    wp (uvmunmapLoop img pt true k (lo * pgsize)) (fun _ t => ∃ B, Shrunk img pt lo (lo + k) A B s t) Never s := by
  induction k generalizing lo A s with
  | zero => exact wp_pure.mpr ⟨A, Shrunk.refl h hpt (Nat.le_refl lo)⟩
  | succ k ih =>
    rw [uvmunmapLoop]
    refine wp_then (unmapUser_spec h hpt (by omega)) fun _ t ht => ?_
    obtain ⟨B, hB⟩ := ht
    rw [← Nat.add_one_mul]
    refine wp_post (ih hB.good hB.root (by omega)) fun _ u hu => ?_
    obtain ⟨C, hC⟩ := hu
    rw [show lo + 1 + k = lo + (k + 1) by omega] at hC
    exact ⟨C, hB.cons hC (by omega)⟩

theorem uvmunmap_spec (lo : Nat) {k : Nat} (h : Good img A s) (hpt : A.own pt = .node pt) (hhi : lo + k ≤ trapVpn) :
    wp (uvmunmap img pt (lo * pgsize) k true) (fun _ t => ∃ B, Shrunk img pt lo (lo + k) A B s t) Never s := by
  rw [uvmunmap, if_neg (not_not.mpr (Nat.mul_mod_left lo pgsize))]
  exact uvmunmapLoop_spec h hpt hhi

/-- One of the two top pages is unmapped and not freed. -/
theorem unmapTop_spec (h : Good img A s) (hpt : A.own pt = .node pt) (hlo : trapVpn ≤ v) (hhi : v < 2 ^ 26) :
    wp (uvmunmap img pt (v * pgsize) 1 false) (fun _ t => ∃ B, Became img pt A B s t ∧
      B.ent pt = update (A.ent pt) v none) Never s := by
  have hvpn := page_vpn v
  have hva : v * pgsize < maxva := vpn_lt_maxva hhi
  rw [uvmunmap, if_neg (not_not.mpr (Nat.mul_mod_left v pgsize)), uvmunmapLoop]
  refine wp_then (unmapPage_spec h.rep hpt hva nofun) fun _ t ht => ?_
  refine wp_pure.mpr ?_
  have hframe : ∀ q, ¬ (A.own q).Of pt → t.mem q = s.mem q :=
    fun q hq => ht.2 q (Owner.not_of_ne_node hq) nofun
  have hrep := ht.1
  rw [hvpn, unmap] at hrep
  cases he : A.ent pt v with
  | none =>
    rw [he] at hrep
    refine ⟨A, ⟨⟨hrep, h.leaves⟩, refl pt A, hpt, hframe⟩, ?_⟩
    rw [← he, update_eq_self]
  | some e =>
    simp only [he] at hrep
    exact ⟨_, ⟨⟨hrep, h.leaves.setTop hlo none⟩, setEnt v none, hpt, hframe⟩, setEnt_ent⟩

/-! ## Freeing a table -/

theorem freewalk_good (h : Good img A s) (hpt : A.own pt = .node pt) (hnone : ∀ v < 2 ^ 27, A.ent pt v = none) :
    wp (freewalk img 3 pt) (fun _ t => ∃ B, Dropped img pt A B s t) Never s := by
  refine wp_post (freewalk_spec h.rep hpt hnone) fun _ t ht =>
    ⟨A.dropTable pt, ⟨ht.1, ?_⟩, ?_, fun q hq => ?_, fun q hq => ht.2 q (Owner.not_of_ne_node hq)⟩
  · exact h.leaves.dropTable fun v hv => hnone v ((lt_of_lt_trapVpn hv).trans (by omega))
  · refine ⟨fun _ _ => rfl, fun q => ?_⟩
    by_cases hq : A.own q = .node pt
    · rw [dropTable_own_node hq, hq]
      exact .inr ⟨rfl, trivial⟩
    · exact .inl (dropTable_own_of_ne hq)
  · exact ((dropTable_iff Owner.noConfusion).mp hq).1 rfl

theorem uvmfree_spec (sz : Nat) (h : Good img A s) (hpt : A.own pt = .node pt) (hsz : pageCount sz ≤ trapVpn)
    (hnone : ∀ v, pageCount sz ≤ v → v < 2 ^ 27 → A.ent pt v = none) :
    wp (uvmfree img pt sz) (fun _ t => ∃ B, Dropped img pt A B s t) Never s := by
  rw [uvmfree]
  by_cases hpos : sz > 0
  · rw [if_pos hpos]
    have hunmap := uvmunmap_spec 0 (k := pageCount sz) h hpt (by omega)
    rw [Nat.zero_mul, Nat.zero_add] at hunmap
    refine wp_then hunmap fun _ t ht => ?_
    obtain ⟨B, hB⟩ := ht
    refine wp_post (freewalk_good hB.good hB.root fun v hv => ?_) fun _ u hu => ?_
    · rw [hB.ent, clear]
      split
      · rfl
      · exact hnone v (by omega) hv
    · obtain ⟨C, hC⟩ := hu
      exact ⟨C, hB.became.dropped hC⟩
  · rw [if_neg hpos]
    refine freewalk_good h hpt fun v hv => hnone v ?_ hv
    rw [Nat.eq_zero_of_not_pos hpos]
    exact Nat.zero_le v

end Rules

end Xv6Lab.Memory
