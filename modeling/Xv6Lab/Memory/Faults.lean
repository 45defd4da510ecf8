import Xv6Lab.Memory.TableMap

/-!
# Address spaces and page faults

`UserSpace` is the invariant of the address space of a process over an abstract state: user pages lie below the size,
the trapframe and the trampoline are mapped without user access, and nothing else is. `userView` is what the process
sees at an address; a page below the size that is not mapped yet reads as zero. `faultIn_spec` says what the kernel's
access to a user page does: it finds the page, or maps a zero page that the process could not tell from the missing
one, or fails. How many pages a fault takes from the free list is counted by `needed`.
-/

namespace Xv6Lab.Memory

open Function Lib.Exec
open Lib.RadixTree

/-! ## Address spaces -/

structure UserSpace (img : Image) (A : Abs) (p : Space) : Prop where
  root : A.own p.pagetable = .node p.pagetable
  size : p.sz ≤ trapframeVa
  above : ∀ v, pageCount p.sz ≤ v → v < trapVpn → A.ent p.pagetable v = none
  held : A.own p.trapframe = .held
  trapframe : A.ent p.pagetable trapVpn = some (leafEntry p.trapframe (pteR ||| pteW))
  trampoline : A.ent p.pagetable (trapVpn + 1) = some (leafEntry img.trampoline (pteR ||| pteX))
  top : ∀ v, 2 ^ 26 ≤ v → v < 2 ^ 27 → A.ent p.pagetable v = none

/-- The process has an address space in this memory. -/
def SpaceInv (img : Image) (s : Vm) (p : Space) : Prop := ∃ A, Good img A s ∧ UserSpace img A p

/-- What a process sees at an address: the byte of a page that is mapped for user access, zero in a page below the
size that is not mapped yet, and nothing elsewhere. -/
def userView (s : Vm) (p : Space) (va : Nat) : Option UInt8 :=
  match translate s.mem p.pagetable va with
  | some pte => if pte.testBit 4 then some (getByte (s.mem (pte2page pte)) (va % pgsize)) else none
  | none => if pgrounddown va < p.sz then some 0 else none

section Spaces

variable {img : Image} {A B : Abs} {s t : Vm} {p : Space} {v va e : Nat}

/-- The flags of an entry are its low ten bits. -/
theorem testBit_leafEntry {page perm i : Nat} (hperm : perm < 2 ^ 10) (hi : i < 10) :
    (leafEntry page perm).testBit i = (perm ||| pteV).testBit i := by
  rw [← testBit_pteFlags hi, pteFlags_leafEntry hperm]

/-- Only user memory is mapped for user access. -/
theorem UserSpace.lt_trapVpn (h : UserSpace img A p) (hv : v < 2 ^ 26) (he : A.ent p.pagetable v = some e)
    (hu : e.testBit 4 = true) : v < trapVpn := by
  by_contra hge
  obtain rfl | rfl : v = trapVpn ∨ v = trapVpn + 1 := by
    rw [trapVpn_eq] at hge ⊢
    omega
  · rw [h.trapframe] at he
    cases he
    rw [testBit_leafEntry (by decide) (by decide)] at hu
    cases hu
  · rw [h.trampoline] at he
    cases he
    rw [testBit_leafEntry (by decide) (by decide)] at hu
    cases hu

theorem UserSpace.pageCount_le (h : UserSpace img A p) : pageCount p.sz ≤ trapVpn := by
  have hsz : p.sz ≤ 2 ^ 38 - 4096 - 4096 := h.size
  show (p.sz + 4096 - 1) / 4096 ≤ 2 ^ 26 - 2
  omega

/-- A page below the size has a number below that of the trapframe. -/
theorem UserSpace.lt_of_below (h : UserSpace img A p) (hv : v * pgsize < p.sz) : v < trapVpn := by
  have hsz : p.sz ≤ 2 ^ 38 - 4096 - 4096 := h.size
  have hv : v * 4096 < p.sz := hv
  show v < 2 ^ 26 - 2
  omega

theorem lt_pageCount_iff {sz : Nat} : v < pageCount sz ↔ v * pgsize < sz := by
  refine ⟨lt_of_lt_pageCount, fun h => ?_⟩
  have h : v * 4096 < sz := h
  show v < (sz + 4096 - 1) / 4096
  omega

/-- The address space of a process whose table has changed below the trapframe. -/
theorem UserSpace.resize {sz : Nat} (h : UserSpace img A p) (hroot : B.own p.pagetable = .node p.pagetable)
    (hheld : B.own p.trapframe = .held) (hsz : sz ≤ trapframeVa)
    (habove : ∀ v, pageCount sz ≤ v → v < trapVpn → B.ent p.pagetable v = none)
    (hhigh : ∀ w, trapVpn ≤ w → B.ent p.pagetable w = A.ent p.pagetable w) : UserSpace img B { p with sz } where
  root := hroot
  size := hsz
  above := habove
  held := hheld
  trapframe := (hhigh _ (Nat.le_refl _)).trans h.trapframe
  trampoline := (hhigh _ (Nat.le_succ _)).trans h.trampoline
  top w hlo hhi := (hhigh w (by rw [trapVpn_eq]; omega)).trans (h.top w hlo hhi)

/-- A process that has grown without touching its memory. -/
theorem UserSpace.lazy {sz : Nat} (h : UserSpace img A p) (hsz : sz ≤ trapframeVa)
    (hle : p.sz ≤ sz) : UserSpace img A { p with sz } := by
  refine h.resize h.root h.held hsz (fun v hlo hhi => h.above v (le_trans ?_ hlo) hhi) fun _ _ => rfl
  show (p.sz + 4096 - 1) / 4096 ≤ (sz + 4096 - 1) / 4096
  omega

/-- A change that only adds to the table of a process, below its size, keeps its address space. -/
theorem UserSpace.grew (h : UserSpace img A p) (hg : Grew img p.pagetable A B s t)
    (hent : ∀ w, B.ent p.pagetable w ≠ A.ent p.pagetable w → w * pgsize < p.sz) : UserSpace img B p := by
  have hsame : ∀ w, ¬ w * pgsize < p.sz → B.ent p.pagetable w = A.ent p.pagetable w := by
    intro w hw
    by_contra hne
    exact hw (hent w hne)
  apply h.resize hg.root _ h.size
  · intro w hlo hhi
    rw [hsame w fun hlt => absurd (lt_pageCount_iff.mpr hlt) (by omega)]
    exact h.above w hlo hhi
  · exact fun w hw => hsame w fun hlt => absurd (h.lt_of_below hlt) (by omega)
  · rw [hg.own _ (h.held ▸ Owner.noConfusion)]
    exact h.held

/-- The hardware finds the entry of the abstract state. -/
theorem translate_at {pt : Nat} (h : Rep img A s) (hroot : A.own pt = .node pt) (hva : va < maxva) :
    translate s.mem pt va = A.ent pt (va / pgsize) := by
  rw [translate_eq hva, (h.table _ hroot).entry_at (hva.trans (by decide))]

/-- The view of an address below `MAXVA`, from the abstract state. -/
theorem userView_eq (h : Rep img A s) (hroot : A.own p.pagetable = .node p.pagetable) (hva : va < maxva) :
    userView s p va = match A.ent p.pagetable (va / pgsize) with
      | some e => if e.testBit 4 then some (getByte (s.mem (pte2page e)) (va % pgsize)) else none
      | none => if pgrounddown va < p.sz then some 0 else none := by
  rw [userView, translate_at h hroot hva]

theorem userView_above (hsz : p.sz ≤ trapframeVa) (hva : ¬ va < maxva) : userView s p va = none := by
  have hge : va ≥ maxva := Nat.not_lt.mp hva
  have hnot : ¬ pgrounddown va < p.sz := by
    have hge : 2 ^ 38 ≤ va := hge
    have hsz : p.sz ≤ 2 ^ 38 - 4096 - 4096 := hsz
    show ¬ va / 4096 * 4096 < p.sz
    omega
  rw [userView, translate, if_pos hge]
  exact if_neg hnot

/-- Views agree where the entries and the contents of the mapped pages do. -/
theorem userView_congr (h : Good img A s) (h' : Rep img B t) (hp : UserSpace img A p)
    (hroot : B.own p.pagetable = .node p.pagetable)
    (hent : B.ent p.pagetable (va / pgsize) = A.ent p.pagetable (va / pgsize))
    (hmem : ∀ q, A.own q = .leaf p.pagetable (va / pgsize) → t.mem q = s.mem q) :
    userView t p va = userView s p va := by
  by_cases hva : va < maxva
  · rw [userView_eq h.rep hp.root hva, userView_eq h' hroot hva, hent]
    cases he : A.ent p.pagetable (va / pgsize) with
    | none => rfl
    | some e =>
      by_cases hu : e.testBit 4 = true
      · have hleaf := h.leaves.own_of_ent hp.root (hp.lt_trapVpn (lt_maxva_iff.mp hva) he hu) he
        simp only [hu, if_true, hmem _ hleaf]
      · simp [hu]
  · rw [userView_above hp.size hva, userView_above hp.size hva]

/-- A change that only adds to the table keeps what is mapped. -/
theorem Grew.leaf_kept {pt q : Nat} (hg : Grew img pt A B s t) (hq : A.own q = .leaf pt v) : t.mem q = s.mem q :=
  hg.keeps q (by simp [hq]) (by simp [hq])

theorem Grew.page_kept {pt : Nat} (hg : Grew img pt A B s t) (hA : A.Exact) (hroot : A.own pt = .node pt)
    (hv : v < trapVpn) (he : A.ent pt v = some e) : t.mem (pte2page e) = s.mem (pte2page e) :=
  hg.leaf_kept (hA.own_of_ent hroot hv he)

end Spaces

/-! ## Page faults -/

/-- What the kernel does to the memory of a process when it reaches through the page table: pages are added below the
size, what is mapped stays mapped, and only pages of the process change. -/
structure Touched (img : Image) (p : Space) (A B : Abs) (s t : Vm) : Prop where
  good : Good img B t
  space : UserSpace img B p
  within : Within p.pagetable A B
  own : ∀ q, A.own q ≠ .free → B.own q = A.own q
  ent : ∀ v e, A.ent p.pagetable v = some e → B.ent p.pagetable v = some e
  frame : ∀ q, ¬ (A.own q).Of p.pagetable → t.mem q = s.mem q

/-- The page is mapped for user access. -/
def UserMapped (A : Abs) (p : Space) (v : Nat) : Prop :=
  v < 2 ^ 26 ∧ ∃ e, A.ent p.pagetable v = some e ∧ e.testBit 4 = true

/-- The kernel can reach the page: it is mapped for user access, or it is below the size and there are pages for it. -/
def CanReach (A : Abs) (s : Vm) (p : Space) (v : Nat) : Prop :=
  UserMapped A p v ∨
  (A.ent p.pagetable v = none ∧ v * pgsize < p.sz ∧ needed s.mem p.pagetable (v * pgsize) ≤ s.free.length)

section Faults

variable {img : Image} {A B C : Abs} {s t u : Vm} {p : Space} {pt v va : Nat}

theorem Touched.refl (h : Good img A s) (hp : UserSpace img A p) : Touched img p A A s s where
  good := h
  space := hp
  within := Within.refl _ A
  own _ _ := rfl
  ent _ _ he := he
  frame _ _ := rfl

theorem Touched.trans (h : Touched img p A B s t) (h' : Touched img p B C t u) : Touched img p A C s u where
  good := h'.good
  space := h'.space
  within := h.within.trans h'.within
  own q hq := by
    rw [h'.own q (by rwa [h.own q hq]), h.own q hq]
  ent v e he := h'.ent v e (h.ent v e he)
  frame q hq := (h'.frame q (h.within.not_of hq)).trans (h.frame q hq)

theorem Touched.became (h : Touched img p A B s t) : Became img p.pagetable A B s t :=
  ⟨h.good, h.within, h.space.root, h.frame⟩

theorem Grew.touched (h : Grew img p.pagetable A B s t) (hp : UserSpace img B p)
    (hent : ∀ v e, A.ent p.pagetable v = some e → B.ent p.pagetable v = some e) : Touched img p A B s t where
  good := h.good
  space := hp
  within := h.within
  own := h.own
  ent := hent
  frame := h.became.frame

theorem walkaddr_eq (h : Rep img A s) (hpt : A.own pt = .node pt) (hva : va < maxva) :
    walkaddr pt va s =
      .ok ((A.ent pt (va / pgsize)).bind fun e => if e.testBit 4 then some (pte2page e) else none) s := by
  have hspec : wp (walkaddr pt va) (fun r t => t = s ∧
      r = (A.ent pt (va / pgsize)).bind fun e => if e.testBit 4 then some (pte2page e) else none) Never s := by
    rw [walkaddr, if_neg (Nat.not_le.mpr hva)]
    refine wp_then (walk_find_spec h hpt hva) ?_
    rintro (_ | ⟨node, i⟩) t ⟨rfl, hfound⟩
    · rw [show A.ent pt (va / pgsize) = none from hfound]
      exact wp_pure.mpr ⟨rfl, rfl⟩
    · refine wp_bind.mpr (wp_readWord.mpr ?_)
      rw [hfound.2.2]
      by_cases hvalid : isValid (t.mem node i).toNat = true
      · rw [if_neg (by rw [hvalid]; decide), if_pos hvalid, Option.bind_some]
        by_cases hu : (t.mem node i).toNat.testBit 4 = true
        · rw [if_neg (by rw [hu]; decide), if_pos hu]
          exact wp_pure.mpr ⟨rfl, rfl⟩
        · rw [if_pos (Bool.eq_false_iff.mpr hu), if_neg hu]
          exact wp_pure.mpr ⟨rfl, rfl⟩
      · rw [if_pos (Bool.eq_false_iff.mpr hvalid), if_neg hvalid]
        exact wp_pure.mpr ⟨rfl, rfl⟩
  obtain ⟨r, t, hrun, rfl, rfl⟩ := wp_returns hspec fun _ => id
  exact hrun

theorem ismapped_eq (h : Rep img A s) (hpt : A.own pt = .node pt) (hva : va < maxva) :
    ismapped pt va s = .ok (A.ent pt (va / pgsize)).isSome s := by
  have hspec : wp (ismapped pt va) (fun r t => t = s ∧ r = (A.ent pt (va / pgsize)).isSome) Never s := by
    rw [ismapped]
    refine wp_then (walk_find_spec h hpt hva) ?_
    rintro (_ | ⟨node, i⟩) t ⟨rfl, hfound⟩
    · rw [show A.ent pt (va / pgsize) = none from hfound]
      exact wp_pure.mpr ⟨rfl, rfl⟩
    · refine wp_bind.mpr (wp_readWord.mpr (wp_pure.mpr ⟨rfl, ?_⟩))
      rw [hfound.2.2]
      split
      · next hvalid => exact hvalid
      · next hvalid => exact Bool.eq_false_iff.mpr hvalid
  obtain ⟨r, t, hrun, rfl, rfl⟩ := wp_returns hspec fun _ => id
  exact hrun

/-- The permissions of a page that `vmfault` maps. -/
abbrev faultPerm : Nat := pteW ||| pteU ||| pteR

theorem getByte_fill (b : UInt8) (off : Nat) : getByte (fill b) off = b := rfl

/-- A zero page in the place of a missing one does not change what the process sees. -/
theorem userView_fault {q a : Nat} (h : Good img A s) (hp : UserSpace img A p) (hg : Grew img p.pagetable A B s t)
    (hnone : A.ent p.pagetable v = none) (hsz : v * pgsize < p.sz)
    (hent : B.ent p.pagetable = update (A.ent p.pagetable) v (some (leafEntry q faultPerm)))
    (hq : q < 2 ^ 52) (hzero : t.mem q = fill 0) : userView t p a = userView s p a := by
  by_cases ha : a / pgsize = v
  · have hva : a < maxva := lt_maxva_iff.mpr (ha ▸ lt_of_lt_trapVpn (hp.lt_of_below hsz))
    rw [userView_eq h.rep hp.root hva, userView_eq hg.good.rep hg.root hva, hent, ha, hnone, update_self]
    simp only [testBit_leafEntry (show faultPerm < 2 ^ 10 by decide) (show 4 < 10 by decide),
      pte2page_leafEntry hq (show faultPerm < 2 ^ 10 by decide), hzero, getByte_fill]
    rw [if_pos (by decide), if_pos]
    rw [pgrounddown, ha]
    exact hsz
  · have hsame : B.ent p.pagetable (a / pgsize) = A.ent p.pagetable (a / pgsize) := by
      rw [hent, update_of_ne ha]
    exact userView_congr h hg.good.rep hp hg.root hsame fun q hq => hg.leaf_kept hq

/-- A failed fault does not change what the process sees. -/
theorem userView_same_ent {a : Nat} (h : Good img A s) (hp : UserSpace img A p) (hg : Grew img p.pagetable A B s t)
    (hent : B.ent p.pagetable = A.ent p.pagetable) : userView t p a = userView s p a :=
  userView_congr h hg.good.rep hp hg.root (by rw [hent]) fun _ hq => hg.leaf_kept hq

/-- `vmfault` of a page: a zero page is mapped exactly if the page is below the size and not mapped, and there are
enough pages. -/
theorem vmfault_spec (h : Good img A s) (hp : UserSpace img A p) :
    wp (vmfault img p p.pagetable (v * pgsize)) (fun r t => ∃ B, Touched img p A B s t ∧
      (∀ a, userView t p a = userView s p a) ∧ (∀ w ≠ v, B.ent p.pagetable w = A.ent p.pagetable w) ∧
      match r with
      | none => B.ent p.pagetable v = A.ent p.pagetable v ∧
          ¬ (A.ent p.pagetable v = none ∧ v * pgsize < p.sz ∧ needed s.mem p.pagetable (v * pgsize) ≤ s.free.length)
      | some q => B.ent p.pagetable v = some (leafEntry q faultPerm) ∧ q < 2 ^ 52 ∧ A.ent p.pagetable v = none ∧
          v * pgsize < p.sz ∧ needed s.mem p.pagetable (v * pgsize) ≤ s.free.length) Never s := by
  have hdiv := page_vpn v
  rw [vmfault]
  by_cases hsz : v * pgsize ≥ p.sz
  · rw [if_pos hsz]
    exact wp_pure.mpr ⟨A, Touched.refl h hp, fun _ => rfl, fun _ _ => rfl, rfl,
      fun hall => absurd hall.2.1 (Nat.not_lt.mpr hsz)⟩
  have hlt : v * pgsize < p.sz := Nat.not_le.mp hsz
  have hv := hp.lt_of_below hlt
  have hround : pgrounddown (v * pgsize) = v * pgsize := by rw [pgrounddown, hdiv]
  rw [if_neg hsz]
  refine wp_bind.mpr (wp_of_ok (ismapped_eq h.rep hp.root ?_) ?_)
  · rw [hround]
    exact vpn_lt_maxva (lt_of_lt_trapVpn hv)
  rw [hround, hdiv]
  cases hent : A.ent p.pagetable v with
  | some e =>
    exact wp_pure.mpr ⟨A, Touched.refl h hp, fun _ => rfl, fun _ _ => rfl, hent, fun hall => by cases hall.1⟩
  | none =>
    simp only [Option.isSome_none, Bool.false_eq_true, if_false]
    refine wp_then (kalloc_take h) fun r t ht => ?_
    cases r with
    | none =>
      obtain ⟨rfl, hempty⟩ := ht
      refine wp_pure.mpr ⟨A, Touched.refl h hp, fun _ => rfl, fun _ _ => rfl, hent, fun hall => ?_⟩
      have hle := hall.2.2
      rw [hempty, needed] at hle
      omega
    | some q =>
      have hsmall := ht.small
      refine wp_then (ht.setPage (fill 0)) fun _ u hu => ?_
      obtain ⟨hhand, hzero⟩ := hu
      refine mapOrFree_spec hhand h.leaves hp.root hv hent (by decide) ?_ ?_
      · intro B w hg hleaf hmem hB hneed
        have hkept : ∀ x ≠ v, B.ent p.pagetable x = A.ent p.pagetable x := by
          intro x hx
          rw [hB, update_of_ne hx]
        have hspace : UserSpace img B p := by
          refine hp.grew hg fun x hx => ?_
          rw [not_imp_comm.mp (hkept x) hx]
          exact hlt
        refine wp_pure.mpr ⟨B, hg.touched hspace fun x e he => ?_, fun a => ?_, hkept, ?_, hsmall, trivial, hlt, hneed⟩
        · rw [hkept x, he]
          rintro rfl
          rw [hent] at he
          cases he
        · exact userView_fault h hp hg hent hlt hB hsmall (hmem.trans hzero)
        · rw [hB, update_self]
      · intro B w hg hB hneed
        have hspace : UserSpace img B p := hp.grew hg fun x hx => absurd (by rw [hB]) hx
        refine wp_pure.mpr ⟨B, hg.touched hspace fun x e he => ?_, fun a => ?_, fun x _ => ?_, ?_,
          fun hall => hneed hall.2.2⟩
        · rw [hB, he]
        · exact userView_same_ent h hp hg hB
        · rw [hB]
        · rw [hB, hent]

/-- Above `MAXVA` there is nothing to reach. -/
theorem faultIn_above (hp : p.sz ≤ trapframeVa) (hva : ¬ va < maxva) : faultIn img p pt va s = .ok none s := by
  have hge : va ≥ maxva := Nat.not_lt.mp hva
  have hsz : va ≥ p.sz := hp.trans (le_trans (by decide) hge)
  have hwalk : walkaddr pt va s = .ok none s := by
    rw [walkaddr, if_pos hge]
    rfl
  rw [faultIn, bind_of_ok hwalk]
  rw [vmfault, if_pos hsz]
  rfl

/-- The kernel reaches a user page, which may map a zero page, or cannot. -/
theorem faultIn_spec (h : Good img A s) (hp : UserSpace img A p) (v : Nat) :
    wp (faultIn img p p.pagetable (v * pgsize)) (fun r t => ∃ B, Touched img p A B s t ∧
      (∀ a, userView t p a = userView s p a) ∧ (∀ w ≠ v, B.ent p.pagetable w = A.ent p.pagetable w) ∧
      match r with
      | none => ¬ CanReach A s p v
      | some q => v < 2 ^ 26 ∧ ∃ e, B.ent p.pagetable v = some e ∧ pte2page e = q ∧ e.testBit 4 = true ∧
          CanReach A s p v ∧
          ((A.ent p.pagetable v = some e ∧ t = s) ∨ (A.ent p.pagetable v = none ∧ e.testBit 2 = true))) Never s := by
  have hdiv := page_vpn v
  by_cases hv : v < 2 ^ 26
  · rw [faultIn]
    refine wp_bind.mpr (wp_of_ok (walkaddr_eq h.rep hp.root (vpn_lt_maxva hv)) ?_)
    rw [hdiv]
    -- the page is mapped for user access, or `vmfault` decides
    by_cases huser : ∃ e, A.ent p.pagetable v = some e ∧ e.testBit 4 = true
    · obtain ⟨e, he, hu⟩ := huser
      rw [he, Option.bind_some, if_pos hu]
      exact wp_pure.mpr ⟨A, Touched.refl h hp, fun _ => rfl, fun _ _ => rfl, hv, e, he, rfl, hu,
        .inl ⟨hv, e, he, hu⟩, .inl ⟨rfl, rfl⟩⟩
    have hbind : ((A.ent p.pagetable v).bind fun e => if e.testBit 4 then some (pte2page e) else none) = none := by
      cases he : A.ent p.pagetable v with
      | none => rfl
      | some e =>
        rw [Option.bind_some, if_neg fun hu => huser ⟨e, he, hu⟩]
    rw [hbind]
    refine wp_post (vmfault_spec h hp) fun r t ht => ?_
    obtain ⟨B, htouched, hview, hkept, hr⟩ := ht
    refine ⟨B, htouched, hview, hkept, ?_⟩
    cases r with
    | none => exact fun hreach => hreach.elim (fun hm => huser hm.2) hr.2
    | some q =>
      obtain ⟨hB, hq, hnone, hsz, hneed⟩ := hr
      refine ⟨hv, _, hB, pte2page_leafEntry hq (by decide), ?_, .inr ⟨hnone, hsz, hneed⟩, .inr ⟨hnone, ?_⟩⟩
      · rw [testBit_leafEntry (by decide) (by decide)]
        decide
      · rw [testBit_leafEntry (by decide) (by decide)]
        decide
  · have hva : ¬ v * pgsize < maxva := fun hlt => hv (hdiv ▸ lt_maxva_iff.mp hlt)
    refine wp_of_ok (faultIn_above hp.size hva) ⟨A, Touched.refl h hp, fun _ => rfl, fun _ _ => rfl, ?_⟩
    rintro (hm | ⟨-, hsz, -⟩)
    · exact hv hm.1
    · exact hv (lt_of_lt_trapVpn (hp.lt_of_below hsz))

end Faults

end Xv6Lab.Memory
