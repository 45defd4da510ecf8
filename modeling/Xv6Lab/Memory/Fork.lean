import Xv6Lab.Memory.Copies
import Xv6Lab.Memory.Growth
import Xv6Lab.Memory.ThreadCopy

/-!
# Fork

`uvmcopy` fills the page table of a new process with copies of the pages of its parent. `spawn_spec` says that `spawn`
adds an address space, or leaves no trace; what is in its pages is a matter of `Memory.ThreadCopy`, whose conditions
every address space meets (`SpaceInv.spaceOk`). Processes in one memory have no page in common, so that what one of
them does to its memory cannot be seen by the other.
-/

namespace Xv6Lab.Memory

open Lib.Exec

/-! ## `uvmcopy` -/

/-- The pages below `v` have been visited: what is not mapped in `old` is not mapped in `new`. -/
structure CopyTo (img : Image) (old new v : Nat) (A B : Abs) (s t : Vm) : Prop where
  grew : Grew img new A B s t
  gaps : ∀ w, w < v → A.ent old w = none → B.ent new w = none
  rest : ∀ w, v ≤ w → B.ent new w = A.ent new w

section Uvmcopy

variable {img : Image} {A B C : Abs} {s t u : Vm} {old new v : Nat}

theorem CopyTo.refl (h : Good img A s) (hnew : A.own new = .node new) : CopyTo img old new 0 A A s s where
  grew := Grew.refl h hnew
  gaps w hw := absurd hw (Nat.not_lt_zero w)
  rest _ _ := rfl

/-- The table has grown without new entries. -/
theorem CopyTo.same (h : CopyTo img old new v A B s t) (hg : Grew img new B C t u) (hent : C.ent new = B.ent new) :
    CopyTo img old new v A C s u where
  grew := h.grew.trans hg
  gaps w hw hnone := by rw [hent, h.gaps w hw hnone]
  rest w hw := by rw [hent, h.rest w hw]

/-- One more page is done. -/
theorem CopyTo.next (h : CopyTo img old new v A B s t) (hg : Grew img new B C t u)
    (hent : ∀ w ≠ v, C.ent new w = B.ent new w) (hgap : A.ent old v = none → C.ent new v = none) :
    CopyTo img old new (v + 1) A C s u := by
  constructor
  · exact h.grew.trans hg
  · intro w hw hnone
    rcases eq_or_ne w v with rfl | hne
    · exact hgap hnone
    · rw [hent w hne]
      exact h.gaps w (by omega) hnone
  · intro w hw
    rw [hent w (by omega), h.rest w (by omega)]

theorem copyPage_spec (hold : A.own old = .node old) (hne : old ≠ new) (hv : v < trapVpn)
    (hnone : A.ent new v = none) (hB : CopyTo img old new v A B s t) :
    wp (copyPage img old new (v * pgsize)) (fun ok u => ∃ C, CopyTo img old new (if ok then v + 1 else v) A C s u)
      Never t := by
  have hdiv := page_vpn v
  have hBold : B.own old = .node old := (hB.grew.own old (by simp [hold])).trans hold
  have hBent : B.ent old = A.ent old := hB.grew.within.ent old hne
  have hBnone : B.ent new v = none := (hB.rest v (Nat.le_refl v)).trans hnone
  rw [copyPage]
  refine wp_then (walk_find_spec hB.grew.good.rep hBold (vpn_lt_maxva (lt_of_lt_trapVpn hv))) fun r t' ht => ?_
  obtain ⟨rfl, hfound⟩ := ht
  rw [hdiv, hBent] at hfound
  -- a page that is not mapped is skipped
  have hskip : A.ent old v = none → ∃ C, CopyTo img old new (v + 1) A C s t' := by
    intro hgap
    exact ⟨B, hB.next (Grew.refl hB.grew.good hB.grew.root) (fun _ _ => rfl) fun _ => hBnone⟩
  cases r with
  | none => exact wp_pure.mpr (hskip hfound)
  | some place =>
    obtain ⟨node, j⟩ := place
    obtain ⟨-, -, hent⟩ := hfound
    refine wp_bind.mpr (wp_readWord.mpr ?_)
    by_cases hvalid : isValid (t'.mem node j).toNat = true
    · rw [if_pos hvalid] at hent
      rw [if_pos hvalid]
      generalize (t'.mem node j).toNat = e at hent
      refine wp_then (kalloc_take hB.grew.good) fun r u hu => ?_
      cases r with
      | none =>
        obtain ⟨rfl, -⟩ := hu
        exact wp_pure.mpr ⟨B, hB⟩
      | some q =>
        refine wp_bind.mpr (wp_get.mpr ?_)
        refine wp_then (hu.setPage (u.mem (pte2page e))) fun _ w hw => ?_
        refine mapOrFree_spec hw.1 hB.grew.good.leaves hB.grew.root hv hBnone (pteFlags_lt e) ?_ ?_
        · intro C x hg _ _ hCent _
          refine wp_pure.mpr ⟨C, hB.next hg (fun w hw => by rw [hCent, Function.update_of_ne hw]) fun hnone => ?_⟩
          rw [hent] at hnone
          cases hnone
        · intro C x hg hCent _
          exact wp_pure.mpr ⟨C, hB.same hg hCent⟩
    · rw [if_neg hvalid] at hent
      rw [if_neg hvalid]
      exact wp_pure.mpr (hskip hent)

section

variable (hA : Good img A s) (hold : A.own old = .node old)
include hA hold

theorem uvmcopyLoop_spec {k : Nat} (hne : old ≠ new)
    (hnone : ∀ w < trapVpn, A.ent new w = none) (hv : v + k ≤ trapVpn) (hB : CopyTo img old new v A B s t) :
    wp (uvmcopyLoop img old new k (v * pgsize)) (fun ok u => ∃ C,
      if ok then CopyTo img old new (v + k) A C s u else Grew img new A C s u ∧ C.ent new = A.ent new) Never t := by
  induction k generalizing v B t with
  | zero => exact wp_pure.mpr ⟨B, hB⟩
  | succ k ih =>
    have hlt : v < trapVpn := by omega
    rw [uvmcopyLoop]
    refine wp_then (copyPage_spec hold hne hlt (hnone v hlt) hB) fun ok u hu => ?_
    obtain ⟨C, hC⟩ := hu
    cases ok with
    | true =>
      rw [if_pos rfl] at hC ⊢
      rw [← Nat.add_one_mul, show v + (k + 1) = v + 1 + k by omega]
      exact ih (by omega) hC
    | false =>
      rw [if_neg Bool.false_ne_true] at hC ⊢
      rw [page_vpn]
      have hunmap := uvmunmap_spec 0 (k := v) hC.grew.good hC.grew.root (by omega)
      rw [Nat.zero_mul, Nat.zero_add] at hunmap
      refine wp_then hunmap fun _ x hx => ?_
      obtain ⟨D, hD⟩ := hx
      have hgone : ∀ w, 0 ≤ w → w < v → A.ent new w = none := fun w _ hw => hnone w (by omega)
      refine wp_pure.mpr ⟨D, hC.grew.shrink hA.leaves hgone hD, ?_⟩
      funext w
      rw [hD.ent, clear]
      split
      · next hw => exact (hgone w hw.1 hw.2).symm
      · next hw => exact hC.rest w (by omega)

theorem uvmcopy_spec {sz : Nat} (hnew : A.own new = .node new)
    (hne : old ≠ new) (hnone : ∀ w < trapVpn, A.ent new w = none) (hsz : pageCount sz ≤ trapVpn) :
    wp (uvmcopy img old new sz) (fun ok t => ∃ B, if ok then CopyTo img old new (pageCount sz) A B s t
      else Grew img new A B s t ∧ B.ent new = A.ent new) Never s := by
  have hloop := uvmcopyLoop_spec (k := pageCount sz) (v := 0) hA hold hne hnone (by omega) (CopyTo.refl hA hnew)
  rw [Nat.zero_mul, Nat.zero_add] at hloop
  exact hloop

end

end Uvmcopy

/-! ## New processes -/

section Spawn

variable {img : Image} {A B C : Abs} {s t u : Vm} {p np parent : Space}

/-- An address space is a matter of its table and of the owners of its table and its trapframe. -/
theorem UserSpace.congr (hp : UserSpace img A p) (hroot : B.own p.pagetable = A.own p.pagetable)
    (hframe : B.own p.trapframe = A.own p.trapframe) (hent : B.ent p.pagetable = A.ent p.pagetable) :
    UserSpace img B p := by
  apply hp.resize (hroot.trans hp.root) (hframe.trans hp.held) hp.size
  · intro v hlo hhi
    rw [hent, hp.above v hlo hhi]
  · intro w _
    rw [hent]

theorem UserSpace.root_ne_free (hp : UserSpace img A p) : A.own p.pagetable ≠ .free := by
  rw [hp.root]
  exact Owner.noConfusion

theorem UserSpace.trapframe_ne_free (hp : UserSpace img A p) : A.own p.trapframe ≠ .free := by
  rw [hp.held]
  exact Owner.noConfusion

theorem Created.pagetable_ne (h : Created img np A B s t) (hp : UserSpace img A p) : p.pagetable ≠ np.pagetable := by
  intro heq
  exact hp.root_ne_free (heq ▸ h.freshTable)

/-- The other address spaces are not touched when one is created. -/
theorem Created.other (h : Created img np A B s t) (hp : UserSpace img A p) : UserSpace img B p :=
  hp.congr (h.own_eq hp.root_ne_free) (h.own_eq hp.trapframe_ne_free) (h.ent _ (h.pagetable_ne hp))

/-- The trapframe of the new process is written. -/
theorem Created.writeFrame (h : Created img np A B s t) (hgood : Good img B u)
    (hmem : ∀ q ≠ np.trapframe, u.mem q = t.mem q) : Created img np A B s u where
  good := hgood
  space := h.space
  freshTable := h.freshTable
  freshFrame := h.freshFrame
  ent := h.ent
  own := h.own
  keeps q hq := (hmem q (h.ne_trapframe hq)).trans (h.keeps q hq)

/-- What the address space of a process looks like to `spawn`. -/
theorem SpaceInv.spaceOk (h : SpaceInv img s p) : SpaceOk s p := by
  obtain ⟨A, hA, hp⟩ := h
  have hfree := hA.rep.free
  have hnode := fun q => (hA.rep.table _ hp.root).nodes_iff q
  -- a mapped page below the size is a leaf of the table
  have hleaf : ∀ va pte, va < p.sz → translate s.mem p.pagetable va = some pte →
      A.own (pte2page pte) = .leaf p.pagetable (va / pgsize) := by
    intro va pte hva hpte
    rw [translate_at hA.rep hp.root (hva.trans_le (hp.size.trans (by decide)))] at hpte
    exact hA.leaves.own_of_ent hp.root ((vpn_lt_pageCount hva).trans_le hp.pageCount_le) hpte
  refine ⟨hA.rep.distinct, fun q hq => ?_, hp.size, fun q hq hmem => ?_, fun va pte hva hpte hmem => ?_,
    fun va pte hva hpte hmem => ?_, fun va wa pte pte' hva hwa hpte hpte' heq => ?_⟩
  · have hrange := mt (hA.rep.outside q).mpr (by rw [(hfree q).mp hq]; exact Owner.noConfusion)
    exact (not_not.mp hrange).2.trans (by decide)
  · exact Owner.noConfusion (((hnode q).mp hq).symm.trans ((hfree q).mp hmem))
  · exact Owner.noConfusion ((hleaf va pte hva hpte).symm.trans ((hfree _).mp hmem))
  · exact Owner.noConfusion ((hleaf va pte hva hpte).symm.trans ((hnode _).mp hmem))
  · have hown := hleaf va pte hva hpte
    rw [heq, hleaf wa pte' hwa hpte'] at hown
    exact (Owner.leaf.inj hown).2.symm

/-- A new process has no page where its parent has none, or there is no trace of it. -/
theorem spawn_spec (hA : Good img A s) (hp : UserSpace img A parent) (unused : Bool) (frame : Vm → Space → Page) :
    wp (spawn img unused parent frame) (fun r t => match r with
      | none => Undone img A s t
      | some np => np.sz = parent.sz ∧ ∃ B, Created img np A B s t ∧
          ∀ v < pageCount parent.sz, A.ent parent.pagetable v = none → B.ent np.pagetable v = none) Never s := by
  rw [spawn]
  refine wp_then (allocproc_spec hA unused) fun r t ht => ?_
  cases r with
  | none => exact wp_pure.mpr ht
  | some np =>
    obtain ⟨hzero, B, hB⟩ := ht
    have htop := hp.pageCount_le
    have hempty : ∀ w < trapVpn, B.ent np.pagetable w = none := by
      intro w hw
      refine hB.space.above w ?_ hw
      rw [hzero]
      exact Nat.zero_le w
    refine wp_then (uvmcopy_spec hB.good (hB.other hp).root hB.space.root (hB.pagetable_ne hp) hempty htop)
      fun ok u hu => ?_
    obtain ⟨C, hC⟩ := hu
    cases ok with
    | false =>
      obtain ⟨hg, hent⟩ := hC
      have hspace : UserSpace img C np := hB.space.grew hg fun w hw => absurd (by rw [hent]) hw
      have hcreated : Created img np A C s u := hB.became hA hg.became hspace
      refine wp_then (freeproc_spec hcreated.good hspace) fun _ x hx => ?_
      obtain ⟨D, hD⟩ := hx
      exact wp_pure.mpr (hcreated.undone hA hD)
    | true =>
      rw [if_pos rfl] at hC
      -- only the copied pages are new in the table
      have hkept : ∀ w, pageCount parent.sz ≤ w → C.ent np.pagetable w = B.ent np.pagetable w := hC.rest
      have hheld : C.own np.trapframe = .held :=
        (hC.grew.own _ hB.space.trapframe_ne_free).trans hB.space.held
      have hspace : UserSpace img C { np with sz := parent.sz } := by
        apply hB.space.resize hC.grew.root hheld hp.size
        · intro w hlo hhi
          rw [hkept w hlo, hempty w hhi]
        · exact fun w hw => hkept w (htop.trans hw)
      have hcreated := hB.became hA hC.grew.became hspace
      refine wp_bind.mpr (wp_get.mpr ?_)
      refine wp_then (hC.grew.good.setPage (by rw [hheld]; trivial) (frame u np)) fun _ x hx => ?_
      obtain ⟨hgood, -, hother, -⟩ := hx
      refine wp_pure.mpr ⟨rfl, C, hcreated.writeFrame hgood hother, fun v hv hnone => hC.gaps v hv ?_⟩
      rw [hB.ent _ (hB.pagetable_ne hp)]
      exact hnone

end Spawn

end Xv6Lab.Memory
