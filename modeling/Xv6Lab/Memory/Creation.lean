import Xv6Lab.Memory.Faults

/-!
# Making and freeing address spaces

`Created` says what `allocproc` adds to a state: a trapframe, a page table and what the table uses, all taken from the
free list. `Freed` says what `freeproc` takes away. A creation that fails leaves the abstract state as it was
(`Undone`), so the free pages are the same and every other page has the same contents.
-/

namespace Xv6Lab.Memory

open Function Lib.Exec List Abs

/-! ## A page table is added -/

/-- The abstract state is the one before, and the pages in use have the contents that they had. -/
structure Undone (img : Image) (A : Abs) (s t : Vm) : Prop where
  good : Good img A t
  keeps : ∀ q, A.own q ≠ .free → t.mem q = s.mem q

/-- The page table `pt` has been added to the state `A`, with pages that were free. -/
structure Added (img : Image) (pt : Nat) (A B : Abs) (s t : Vm) : Prop where
  good : Good img B t
  fresh : A.own pt = .free
  root : B.own pt = .node pt
  ent : ∀ pt', pt' ≠ pt → B.ent pt' = A.ent pt'
  own : ∀ q, B.own q = A.own q ∨ (A.own q = .free ∧ (B.own q).Of pt)
  keeps : ∀ q, A.own q ≠ .free → t.mem q = s.mem q

section Tables

variable {img : Image} {A B C : Abs} {s t u : Vm} {pt q v : Nat}

/-- The entries of pages that are no page tables do not matter. -/
theorem Good.congr_ent (h : Good img A s) (hown : ∀ q, B.own q = A.own q)
    (hent : ∀ pt, A.own pt = .node pt → B.ent pt = A.ent pt) : Good img B s := by
  constructor
  · constructor
    · exact h.rep.distinct
    · intro q
      rw [hown q]
      exact h.rep.free q
    · intro q
      rw [hown q]
      exact h.rep.outside q
    · intro q pt hq
      rw [hown] at hq ⊢
      exact h.rep.root q pt hq
    · intro pt hpt
      rw [hown pt] at hpt
      exact (h.rep.table pt hpt).congr (fun q => by rw [hown q]) (hent pt hpt) fun _ _ => rfl
  · intro q pt v
    rw [hown q, hown pt, h.leaves q pt v]
    refine and_congr_right fun hpt => ?_
    rw [hent pt hpt]

/-- A page that is no page table has no nodes and no leaves. -/
theorem Good.free_of (h : Good img A s) (hpt : A.own pt ≠ .node pt) (hq : (A.own q).Of pt) : A.own q = .free := by
  cases hown : A.own q with
  | free => rfl
  | node pt' =>
    rw [hown] at hq
    obtain rfl : pt' = pt := hq
    exact absurd (h.rep.root q pt' hown) hpt
  | leaf pt' v =>
    rw [hown] at hq
    obtain rfl : pt' = pt := hq
    exact absurd ((h.leaves q pt' v).mp hown).1 hpt
  | outside | held =>
    rw [hown] at hq
    exact absurd hq id

/-- Everything of a page table that is freed is free. -/
theorem Dropped.free (h : Dropped img pt A B s t) (hq : (A.own q).Of pt) : B.own q = .free := by
  refine h.good.free_of (h.gone pt) ?_
  rcases h.within.own q with hsame | ⟨-, hof⟩
  · rw [hsame]
    exact hq
  · exact hof

section

variable (h : Added img pt A B s t) (hA : Good img A s)
include h hA

theorem Added.not_of (hq : A.own q ≠ .free) : ¬ (B.own q).Of pt := by
  have hfresh : A.own pt ≠ .node pt := by
    rw [h.fresh]
    exact Owner.noConfusion
  rw [(h.own q).resolve_right fun hor => hq hor.1]
  exact fun hof => hq (hA.free_of hfresh hof)

/-- A change of the new page table. -/
theorem Added.became (h' : Became img pt B C t u) : Added img pt A C s u := by
  constructor
  · exact h'.good
  · exact h.fresh
  · exact h'.root
  · intro pt' hne
    rw [h'.within.ent pt' hne, h.ent pt' hne]
  · intro q
    by_cases hq : A.own q = .free
    · rcases h'.within.own q with hsame | ⟨-, hof⟩
      · rw [hsame]
        exact h.own q
      · exact .inr ⟨hq, hof⟩
    · refine .inl ?_
      rw [h'.within.own_eq (h.not_of hA hq), (h.own q).resolve_right fun hor => hq hor.1]
  · intro q hq
    rw [h'.frame q (h.not_of hA hq), h.keeps q hq]

/-- The new page table is freed. -/
theorem Added.undone (h' : Dropped img pt B C t u) : Undone img A s u := by
  constructor
  · refine h'.good.congr_ent (fun q => ?_) fun pt' hpt' => ?_
    · by_cases hq : A.own q = .free
      · rcases h.own q with hsame | ⟨-, hof⟩
        · rw [hq, h'.free]
          rw [hsame, hq]
          trivial
        · rw [hq, h'.free hof]
      · rw [h'.within.own_eq (h.not_of hA hq), (h.own q).resolve_right fun hor => hq hor.1]
    · have hne : pt' ≠ pt := by
        rintro rfl
        exact h'.gone pt' hpt'
      rw [h'.within.ent pt' hne, h.ent pt' hne]
  · intro q hq
    rw [h'.frame q (h.not_of hA hq), h.keeps q hq]

end

theorem uvmcreate_spec (h : Good img A s) : wp uvmcreate (fun r t => match r with
    | none => Undone img A s t
    | some pt => ∃ B, Added img pt A B s t ∧ ∀ v, B.ent pt v = none) Never s := by
  rw [uvmcreate]
  refine wp_then (kalloc_take h) fun r t ht => ?_
  cases r with
  | none =>
    obtain ⟨rfl, -⟩ := ht
    exact wp_pure.mpr ⟨h, fun _ _ => rfl⟩
  | some pt =>
    refine wp_then (ht.setPage (fill 0)) fun _ u hu => ?_
    obtain ⟨hhand, hzero⟩ := hu
    refine wp_pure.mpr ⟨(A.setOwn pt .held).newTable pt, ?_, fun v => newTable_ent_self⟩
    constructor
    · exact ⟨hhand.good.rep.newTable held_isData hzero, hhand.good.leaves.newTable setOwn_self⟩
    · exact hhand.free
    · exact newTable_own_self
    · intro pt' hne
      rw [newTable_ent_of_ne hne, setOwn_ent]
    · intro q
      rcases eq_or_ne q pt with rfl | hne
      · rw [newTable_own_self]
        exact .inr ⟨hhand.free, rfl⟩
      · rw [newTable_own_of_ne hne, setOwn_of_ne hne]
        exact .inl rfl
    · exact hhand.keeps

theorem trampolineVa_eq : trampolineVa = (trapVpn + 1) * pgsize := rfl

theorem trapframeVa_eq : trapframeVa = trapVpn * pgsize := rfl

theorem Image.trampoline_small (img : Image) : img.trampoline < 2 ^ 52 :=
  img.trampoline_lt.trans_le (by decide)

/-- `proc_pagetable` adds an empty address space or leaves no trace. -/
theorem procPagetable_spec {tf : Nat} (h : Good img A s) (htf : A.own tf = .held) :
    wp (procPagetable img tf) (fun r t => match r with
      | none => Undone img A s t
      | some pt => ∃ B, Added img pt A B s t ∧ UserSpace img B { pagetable := pt, trapframe := tf, sz := 0 })
      Never s := by
  rw [procPagetable]
  refine wp_then (uvmcreate_spec h) fun r t ht => ?_
  cases r with
  | none => exact wp_pure.mpr ht
  | some pt =>
    obtain ⟨B, hadd, hnone⟩ := ht
    have htf52 : tf < 2 ^ 52 := h.rep.small (by simp [htf])
    rw [trampolineVa_eq, trapframeVa_eq]
    refine wp_then (mapTop_spec hadd.good hadd.root (Nat.le_succ _) (by decide) (hnone _) img.trampoline_small
      (by decide)) fun ok u hu => ?_
    obtain ⟨C, hC, hCent⟩ := hu
    have haddC := hadd.became h hC.became
    cases ok with
    | false =>
      rw [if_neg Bool.false_ne_true] at hCent
      have hfree := uvmfree_spec 0 haddC.good haddC.root (by decide) fun v _ _ => by rw [hCent, hnone]
      refine wp_then hfree fun _ w hw => ?_
      obtain ⟨D, hD⟩ := hw
      exact wp_pure.mpr (haddC.undone h hD)
    | true =>
      rw [if_pos rfl] at hCent
      have hCnone : ∀ v ≠ trapVpn + 1, C.ent pt v = none := by
        intro v hv
        rw [hCent, update_of_ne hv, hnone]
      refine wp_then (mapTop_spec hC.good hC.root (Nat.le_refl trapVpn) (by decide) (hCnone _ (by decide)) htf52
        (by decide)) fun ok w hw => ?_
      obtain ⟨D, hD, hDent⟩ := hw
      have haddD := haddC.became h hD.became
      cases ok with
      | false =>
        rw [if_neg Bool.false_ne_true] at hDent
        refine wp_then (unmapTop_spec hD.good hD.root (Nat.le_succ _) (by decide)) fun _ x hx => ?_
        obtain ⟨E, hE, hEent⟩ := hx
        have haddE := haddD.became h hE
        have hEnone : ∀ v, E.ent pt v = none := by
          intro v
          rw [hEent, hDent]
          rcases eq_or_ne v (trapVpn + 1) with rfl | hv
          · rw [update_self]
          · rw [update_of_ne hv, hCnone v hv]
        refine wp_then (uvmfree_spec 0 haddE.good haddE.root (by decide) fun v _ _ => hEnone v) fun _ y hy => ?_
        obtain ⟨F, hF⟩ := hy
        exact wp_pure.mpr (haddE.undone h hF)
      | true =>
        rw [if_pos rfl] at hDent
        refine wp_pure.mpr ⟨D, haddD, ?_⟩
        have hDnone : ∀ v ≠ trapVpn, v ≠ trapVpn + 1 → D.ent pt v = none := by
          intro v hv hv'
          rw [hDent, update_of_ne hv, hCnone v hv']
        constructor
        · exact haddD.root
        · exact Nat.zero_le _
        · intro v _ hv
          exact hDnone v (by omega) (by omega)
        · rw [(haddD.own tf).resolve_right (by simp [htf]), htf]
        · rw [hDent, update_self]
        · rw [hDent, update_of_ne (by decide), hCent, update_self]
        · intro v hlo _
          rw [trapVpn_eq] at hDnone
          exact hDnone v (by omega) (by omega)

end Tables

/-! ## Processes -/

/-- The address space `np` has been added to the state `A`, with pages that were free. -/
structure Created (img : Image) (np : Space) (A B : Abs) (s t : Vm) : Prop where
  good : Good img B t
  space : UserSpace img B np
  freshTable : A.own np.pagetable = .free
  freshFrame : A.own np.trapframe = .free
  ent : ∀ pt', pt' ≠ np.pagetable → B.ent pt' = A.ent pt'
  own : ∀ q, B.own q = A.own q ∨ (A.own q = .free ∧ (q = np.trapframe ∨ (B.own q).Of np.pagetable))
  keeps : ∀ q, A.own q ≠ .free → t.mem q = s.mem q

/-- The address space `p` has been freed. -/
structure Freed (img : Image) (p : Space) (A B : Abs) (s t : Vm) : Prop where
  good : Good img B t
  ent : ∀ pt', pt' ≠ p.pagetable → B.ent pt' = A.ent pt'
  free : ∀ q, q = p.trapframe ∨ (A.own q).Of p.pagetable → B.own q = .free
  own : ∀ q, q ≠ p.trapframe → ¬ (A.own q).Of p.pagetable → B.own q = A.own q
  keeps : ∀ q, q ≠ p.trapframe → ¬ (A.own q).Of p.pagetable → t.mem q = s.mem q

section Processes

variable {img : Image} {A B C : Abs} {s t u : Vm} {p np : Space} {q : Nat}

section

variable (h : Created img np A B s t)
include h

theorem Created.ne_trapframe (hq : A.own q ≠ .free) : q ≠ np.trapframe := by
  rintro rfl
  exact hq h.freshFrame

theorem Created.own_eq (hq : A.own q ≠ .free) : B.own q = A.own q :=
  (h.own q).resolve_right fun hor => hq hor.1

theorem Created.not_of (hA : Good img A s) (hq : A.own q ≠ .free) : ¬ (B.own q).Of np.pagetable := by
  have hfresh : A.own np.pagetable ≠ .node np.pagetable := by
    rw [h.freshTable]
    exact Owner.noConfusion
  rw [h.own_eq hq]
  exact fun hof => hq (hA.free_of hfresh hof)

/-- A change of the new page table, and of the size with it. -/
theorem Created.became {sz : Nat} (hA : Good img A s)
    (h' : Became img np.pagetable B C t u) (hspace : UserSpace img C { np with sz }) :
    Created img { np with sz } A C s u := by
  constructor
  · exact h'.good
  · exact hspace
  · exact h.freshTable
  · exact h.freshFrame
  · intro pt' hne
    rw [h'.within.ent pt' hne, h.ent pt' hne]
  · intro q
    by_cases hq : A.own q = .free
    · rcases h'.within.own q with hsame | ⟨-, hof⟩
      · rw [hsame]
        exact h.own q
      · exact .inr ⟨hq, .inr hof⟩
    · exact .inl (by rw [h'.within.own_eq (h.not_of hA hq), h.own_eq hq])
  · intro q hq
    rw [h'.frame q (h.not_of hA hq), h.keeps q hq]

/-- The new process is freed. -/
theorem Created.undone (hA : Good img A s) (h' : Freed img np B C t u) : Undone img A s u := by
  constructor
  · refine h'.good.congr_ent (fun q => ?_) fun pt' hpt' => ?_
    · by_cases hq : A.own q = .free
      · have hgone : q = np.trapframe ∨ (B.own q).Of np.pagetable := by
          rcases h.own q with hsame | ⟨-, hor⟩
          · rw [hsame, hq]
            exact .inr trivial
          · exact hor
        rw [hq, h'.free q hgone]
      · rw [h'.own q (h.ne_trapframe hq) (h.not_of hA hq), h.own_eq hq]
    · have hne : pt' ≠ np.pagetable := by
        rintro rfl
        have hroot : (B.own np.pagetable).Of np.pagetable := by
          rw [h.space.root]
          rfl
        rw [h'.free _ (.inr hroot)] at hpt'
        cases hpt'
      rw [h'.ent pt' hne, h.ent pt' hne]
  · intro q hq
    rw [h'.keeps q (h.ne_trapframe hq) (h.not_of hA hq), h.keeps q hq]

end

theorem allocproc_spec (h : Good img A s) (unused : Bool) : wp (allocproc img unused) (fun r t => match r with
    | none => Undone img A s t
    | some np => np.sz = 0 ∧ ∃ B, Created img np A B s t) Never s := by
  cases unused with
  | false => exact wp_pure.mpr ⟨h, fun _ _ => rfl⟩
  | true =>
    rw [allocproc, if_pos rfl]
    refine wp_then (kalloc_take h) fun r t ht => ?_
    cases r with
    | none =>
      obtain ⟨rfl, -⟩ := ht
      exact wp_pure.mpr ⟨h, fun _ _ => rfl⟩
    | some tf =>
      refine wp_then (procPagetable_spec ht.good setOwn_self) fun r u hu => ?_
      have hne : ∀ {x}, A.own x ≠ .free → x ≠ tf := by
        rintro x hx rfl
        exact hx ht.free
      have hheld : ∀ {x}, x ≠ tf → (A.setOwn tf .held).own x = A.own x := setOwn_of_ne
      cases r with
      | none =>
        refine wp_then (kfree_back hu.good.rep ht.free) fun _ w hw => ?_
        refine wp_pure.mpr ⟨⟨hw.1, h.leaves⟩, fun x hx => ?_⟩
        rw [hw.2 x (hne hx), hu.keeps x (by rwa [hheld (hne hx)]), ht.keeps x hx]
      | some pt =>
        obtain ⟨B, hadd, hspace⟩ := hu
        have hpt : pt ≠ tf := by
          rintro rfl
          have hfresh := hadd.fresh
          rw [setOwn_self] at hfresh
          cases hfresh
        refine wp_pure.mpr ⟨rfl, B, hadd.good, hspace, ?_, ht.free, hadd.ent, fun x => ?_, fun x hx => ?_⟩
        · exact (hheld hpt).symm.trans hadd.fresh
        · rcases eq_or_ne x tf with rfl | hx
          · exact .inr ⟨ht.free, .inl rfl⟩
          · have hown := hadd.own x
            rw [hheld hx] at hown
            exact hown.imp_right fun hor => ⟨hor.1, .inr hor.2⟩
        · rw [hadd.keeps x (by rwa [hheld (hne hx)]), ht.keeps x hx]

/-- `freeproc` frees the address space of a process and nothing else. -/
theorem freeproc_spec (h : Good img A s) (hp : UserSpace img A p) :
    wp (freeproc img p) (fun _ t => ∃ B, Freed img p A B s t) Never s := by
  have hdata : (A.own p.trapframe).IsData := by
    rw [hp.held]
    trivial
  unfold freeproc procFreepagetable
  refine wp_then (kfree_spec h.rep hdata) fun _ t ht => ?_
  have hgood : Good img (A.setOwn p.trapframe .free) t := ⟨ht.1, h.leaves.setOwn (.inr hp.held) (.inl rfl)⟩
  have hne : p.pagetable ≠ p.trapframe := by
    intro heq
    have hroot := hp.root
    rw [heq, hp.held] at hroot
    cases hroot
  have hroot : (A.setOwn p.trapframe .free).own p.pagetable = .node p.pagetable :=
    (setOwn_of_ne hne).trans hp.root
  rw [trampolineVa_eq, trapframeVa_eq]
  refine wp_then (unmapTop_spec hgood hroot (Nat.le_succ _) (by decide)) fun _ u hu => ?_
  obtain ⟨B, hB, hBent⟩ := hu
  refine wp_then (unmapTop_spec hB.good hB.root (Nat.le_refl _) (by decide)) fun _ w hw => ?_
  obtain ⟨C, hC, hCent⟩ := hw
  -- only user memory is left in the table
  have hnone : ∀ v, pageCount p.sz ≤ v → v < 2 ^ 27 → C.ent p.pagetable v = none := by
    intro v hlo hhi
    rw [hCent, hBent, setOwn_ent]
    rcases eq_or_ne v trapVpn with rfl | hv
    · rw [update_self]
    rw [update_of_ne hv]
    rcases eq_or_ne v (trapVpn + 1) with rfl | hv'
    · rw [update_self]
    rw [update_of_ne hv']
    by_cases hlt : v < trapVpn
    · exact hp.above v hlo hlt
    · exact hp.top v (by rw [trapVpn_eq] at *; omega) hhi
  refine wp_post (uvmfree_spec p.sz hC.good hC.root hp.pageCount_le hnone) fun _ x hx => ?_
  obtain ⟨D, hD⟩ := hx
  have hdrop := (hB.trans hC).dropped hD
  have hother : ∀ q ≠ p.trapframe, (A.setOwn p.trapframe .free).own q = A.own q :=
    fun q hq => setOwn_of_ne hq
  refine ⟨D, hdrop.good, hdrop.within.ent, fun q hq => ?_, fun q hq hof => ?_, fun q hq hof => ?_⟩
  · apply hdrop.free
    rcases eq_or_ne q p.trapframe with rfl | hneq
    · rw [setOwn_self]
      trivial
    · rw [hother q hneq]
      exact hq.resolve_left hneq
  · rw [hdrop.within.own_eq (by rwa [hother q hq]), hother q hq]
  · rw [hdrop.frame q (by rwa [hother q hq]), ht.2 q hq]

end Processes

/-! ## Boot -/

/-- All pages of the allocator are free. -/
def bootAbs (img : Image) : Abs where
  own q := if img.firstPage ≤ q ∧ q < phystopPage then .free else .outside
  ent _ _ := none

section Boot

variable {img : Image} {s : Vm}

theorem bootAbs_own (img : Image) (q : Nat) : (bootAbs img).own q = .free ∨ (bootAbs img).own q = .outside := by
  rw [bootAbs]
  dsimp only
  split
  · exact .inl rfl
  · exact .inr rfl

theorem bootAbs_free (q : Nat) : (bootAbs img).own q = .free ↔ img.firstPage ≤ q ∧ q < phystopPage := by
  rw [bootAbs]
  dsimp only
  split
  next h => exact iff_of_true rfl h
  next h => exact iff_of_false Owner.noConfusion h

theorem bootAbs_not_node (q pt : Nat) : (bootAbs img).own q ≠ .node pt := by
  intro hq
  rcases bootAbs_own img q with h | h <;> rw [hq] at h <;> cases h

/-- A free list of all pages of the allocator, each of them once. -/
theorem bootAbs_good (hd : s.free.Nodup) (hfree : ∀ q, q ∈ s.free ↔ img.firstPage ≤ q ∧ q < phystopPage) :
    Good img (bootAbs img) s := by
  refine ⟨⟨hd, fun q => ?_, fun q => ?_, fun q pt hq => ?_, fun pt hpt => ?_⟩, fun q pt v => ?_⟩
  · rw [hfree q, bootAbs_free]
  · rw [← bootAbs_free q]
    rcases bootAbs_own img q with h | h <;> simp [h]
  · exact absurd hq (bootAbs_not_node q pt)
  · exact absurd hpt (bootAbs_not_node pt pt)
  · refine iff_of_false (fun hq => ?_) fun hpt => bootAbs_not_node pt pt hpt.1
    rcases bootAbs_own img q with h | h <;> rw [hq] at h <;> cases h

end Boot

/-- A machine with sixteen pages. -/
def smallImage : Image where
  firstPage := 0x87ff0
  trampoline := 0x80007
  trampoline_lt := by decide

/-- All its pages are free. -/
def smallVm : Vm where
  mem _ := fill 1
  free := List.range' 0x87ff0 16

theorem smallVm_good : Good smallImage (bootAbs smallImage) smallVm := by
  refine bootAbs_good (by decide) fun q => ?_
  show q ∈ range' 0x87ff0 16 ↔ 0x87ff0 ≤ q ∧ q < 0x88000
  rw [mem_range'_1]

/-- A process of the small machine with a given size, none of it touched. -/
def smallProc (sz : Nat) : VmM (Option Space) := do
  let created ← allocproc smallImage true
  pure (created.map fun np => { np with sz })

theorem smallProc_sz {sz : Nat} {p : Space} {t : Vm} (hrun : smallProc sz smallVm = .ok (some p) t) : p.sz = sz := by
  obtain ⟨r, u, -, hrest⟩ := bind_eq_ok hrun
  cases r with
  | none => cases hrest
  | some np =>
    cases hrest
    rfl

theorem smallProc_inv {sz : Nat} {p : Space} {t : Vm} (hsz : sz ≤ trapframeVa)
    (hrun : smallProc sz smallVm = .ok (some p) t) : SpaceInv smallImage t p := by
  obtain ⟨r, u, halloc, hrest⟩ := bind_eq_ok hrun
  have hspec := wp_ok (allocproc_spec smallVm_good true) halloc
  cases r with
  | none => cases hrest
  | some np =>
    obtain ⟨hzero, B, hB⟩ := hspec
    cases hrest
    exact ⟨B, hB.good, hB.space.lazy hsz (by rw [hzero]; exact Nat.zero_le sz)⟩

end Xv6Lab.Memory
