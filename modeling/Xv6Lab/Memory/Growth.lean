import Xv6Lab.Memory.Faults

/-!
# Growing and shrinking an address space

`uvmalloc_spec` and `uvmdealloc_spec` say what the two functions do to the entries of a page table: pages are added with
zeros or not at all, and pages are removed from the end. A failed `uvmalloc` leaves the entries as they were.
`sysSbrk_spec` is the contract of `sbrk` for every argument and both modes.
-/

namespace Xv6Lab.Memory

open Function Lib.Exec

/-! ## Sizes -/

variable {sz : Nat} {newsz perm lo hi : Nat}

theorem pgroundup_eq (h : sz < 2 ^ 63) : pgroundup sz = pageCount sz * pgsize := by
  have hadd : add64 sz 4095 = sz + 4095 := by
    rw [add64]
    omega
  rw [pgroundup, hadd, pageCount]
  rfl

theorem pageCount_mul (v : Nat) : pageCount (v * pgsize) = v := by
  show (v * 4096 + 4096 - 1) / 4096 = v
  omega

theorem pageCount_mono {sz' : Nat} (h : sz ≤ sz') : pageCount sz ≤ pageCount sz' := by
  show (sz + 4096 - 1) / 4096 ≤ (sz' + 4096 - 1) / 4096
  omega

theorem pageCount_le_iff {v : Nat} : pageCount sz ≤ v ↔ sz ≤ v * pgsize := by
  show (sz + 4096 - 1) / 4096 ≤ v ↔ sz ≤ v * 4096
  omega

theorem pageCount_le_trapVpn : pageCount sz ≤ trapVpn ↔ sz ≤ trapframeVa := pageCount_le_iff

/-- Counts that fit an `int` survive it. -/
theorem throughInt_eq {n : Nat} (h : n < 2 ^ 31) : throughInt n = n := by
  have hint : (BitVec.ofNat 32 n).toInt = n := by
    rw [BitVec.toInt_eq_toNat_cond, BitVec.toNat_ofNat, Nat.mod_eq_of_lt (by omega), if_pos (by omega)]
  rw [throughInt, add64, hint]
  omega

/-! ## Shrinking -/

section Sizes

variable {img : Image} {A B C : Abs} {s t u : Vm} {pt v : Nat}

/-- `uvmdealloc` unmaps the pages between the two sizes. -/
theorem uvmdealloc_spec {oldsz : Nat} (h : Good img A s) (hpt : A.own pt = .node pt) (hold : oldsz ≤ trapframeVa) :
    wp (uvmdealloc img pt oldsz newsz) (fun r t => r = min oldsz newsz ∧ (oldsz ≤ newsz → t = s) ∧
      ∃ B, Shrunk img pt (pageCount newsz) (pageCount oldsz) A B s t) Never s := by
  rw [uvmdealloc]
  by_cases hge : newsz ≥ oldsz
  · rw [if_pos hge]
    exact wp_pure.mpr ⟨(Nat.min_eq_left hge).symm, fun _ => rfl, A, Shrunk.refl h hpt (pageCount_mono hge)⟩
  have hlt : newsz < oldsz := Nat.not_le.mp hge
  have hbound : oldsz < 2 ^ 63 := hold.trans_lt (by decide)
  rw [if_neg hge, pgroundup_eq (hlt.trans hbound), pgroundup_eq hbound]
  have hmin : newsz = min oldsz newsz := (Nat.min_eq_right hlt.le).symm
  by_cases hpages : pageCount newsz * pgsize < pageCount oldsz * pgsize
  · have hle : pageCount newsz ≤ pageCount oldsz := pageCount_mono hlt.le
    have htop : pageCount oldsz ≤ trapVpn := pageCount_le_trapVpn.mpr hold
    have hcount : throughInt ((pageCount oldsz * pgsize - pageCount newsz * pgsize) / pgsize) =
        pageCount oldsz - pageCount newsz := by
      rw [← Nat.sub_mul, page_vpn]
      refine throughInt_eq ?_
      rw [trapVpn_eq] at htop
      omega
    rw [if_pos hpages, hcount]
    have hunmap := uvmunmap_spec (pageCount newsz) (k := pageCount oldsz - pageCount newsz) h hpt
      (by rw [Nat.add_sub_cancel' hle]; exact htop)
    rw [Nat.add_sub_cancel' hle] at hunmap
    exact wp_then hunmap fun _ t ht => wp_pure.mpr ⟨hmin, fun hle => absurd hle hge, ht⟩
  · rw [if_neg hpages]
    have hle : pageCount oldsz ≤ pageCount newsz :=
      Nat.le_of_mul_le_mul_right (Nat.not_lt.mp hpages) (by decide)
    exact wp_pure.mpr ⟨hmin, fun _ => rfl, A, Shrunk.refl h hpt hle⟩

/-! ## Growing -/

/-- The pages from `lo` to `hi` have been added to the page table, filled with zeros. -/
structure Extended (img : Image) (pt perm lo hi : Nat) (A B : Abs) (s t : Vm) : Prop where
  grew : Grew img pt A B s t
  fresh : ∀ w, lo ≤ w → w < hi → ∃ q, q < 2 ^ 52 ∧ B.ent pt w = some (leafEntry q perm) ∧ t.mem q = fill 0
  rest : ∀ w, ¬ (lo ≤ w ∧ w < hi) → B.ent pt w = A.ent pt w

theorem Extended.refl (h : Good img A s) (hpt : A.own pt = .node pt) (hle : hi ≤ lo) :
    Extended img pt perm lo hi A A s s where
  grew := Grew.refl h hpt
  fresh w hlo hhi := by omega
  rest _ _ := rfl

/-- One more page. -/
theorem Extended.snoc {q : Nat} (h : Extended img pt perm lo hi A B s t) (hlo : lo ≤ hi)
    (hhi : hi < trapVpn) (hperm : perm < 2 ^ 10) (hg : Grew img pt B C t u) (hq : q < 2 ^ 52)
    (hent : C.ent pt = update (B.ent pt) hi (some (leafEntry q perm))) (hzero : u.mem q = fill 0) :
    Extended img pt perm lo (hi + 1) A C s u := by
  constructor
  · exact h.grew.trans hg
  · intro w hw hlt
    rcases eq_or_ne w hi with rfl | hne
    · exact ⟨q, hq, by rw [hent, update_self], hzero⟩
    obtain ⟨q', hq', hold, hz⟩ := h.fresh w hw (by omega)
    refine ⟨q', hq', by rw [hent, update_of_ne hne, hold], ?_⟩
    have hkept := hg.page_kept h.grew.good.leaves h.grew.root (by omega) hold
    rw [pte2page_leafEntry hq' hperm] at hkept
    rw [hkept, hz]
  · intro w hw
    rw [hent, update_of_ne (by omega), h.rest w (by omega)]

/-- What `uvmalloc` has added is taken back. -/
theorem Grew.dealloc (hB : Grew img pt A B s t) (hA : A.Exact) (hhi : hi ≤ trapVpn)
    (hnone : ∀ w, lo ≤ w → w < hi → A.ent pt w = none) (hrest : ∀ w, ¬ (lo ≤ w ∧ w < hi) → B.ent pt w = A.ent pt w) :
    wp (do
      let _ ← uvmdealloc img pt (hi * pgsize) (lo * pgsize)
      pure 0) (fun r u => r = 0 ∧ ∃ C, Grew img pt A C s u ∧ C.ent pt = A.ent pt) Never t := by
  have hsize : hi * pgsize ≤ trapframeVa := Nat.mul_le_mul_right pgsize hhi
  refine wp_then (uvmdealloc_spec hB.good hB.root hsize) fun _ u hu => ?_
  obtain ⟨-, -, C, hC⟩ := hu
  rw [pageCount_mul, pageCount_mul] at hC
  refine wp_pure.mpr ⟨rfl, C, hB.shrink hA hnone hC, ?_⟩
  funext w
  rw [hC.ent, clear]
  split
  · next hw => exact (hnone w hw.1 hw.2).symm
  · next hw => exact hrest w hw

theorem uvmallocLoop_spec {k xperm : Nat} (hA : Good img A s) (hlo : lo ≤ v) (hv : v ≤ trapVpn)
    (hB : Extended img pt (pteR ||| pteU ||| xperm) lo v A B s t) (hperm : pteR ||| pteU ||| xperm < 2 ^ 10)
    (hnone : ∀ w, lo ≤ w → w < trapVpn → A.ent pt w = none)
    (hroom : v + k ≤ trapVpn ∨ ∀ w < lo, ∃ e, A.ent pt w = some e) :
    wp (uvmallocLoop img pt (lo * pgsize) newsz xperm k (v * pgsize)) (fun r u => ∃ C,
      (r = newsz ∧ v + k ≤ trapVpn ∧ Extended img pt (pteR ||| pteU ||| xperm) lo (v + k) A C s u) ∨
      (r = 0 ∧ Grew img pt A C s u ∧ C.ent pt = A.ent pt)) Never t := by
  induction k generalizing v B t with
  | zero => exact wp_pure.mpr ⟨B, .inl ⟨rfl, hv, hB⟩⟩
  | succ k ih =>
    -- there is an end to physical memory below the trapframe
    have hlt : v < trapVpn := by
      rcases hroom with hroom | hall
      · omega
      have hmapped : v - 0 ≤ phystopPage := hB.grew.good.mapped_le hB.grew.root hv fun w _ hw => by
        by_cases hin : lo ≤ w
        · obtain ⟨q, -, hent, -⟩ := hB.fresh w hin hw
          exact ⟨_, hent⟩
        · rw [hB.rest w (by omega)]
          exact hall w (by omega)
      have hstop : phystopPage < trapVpn := by decide
      omega
    have hback : ∀ {C u}, Grew img pt A C s u → (∀ w, ¬ (lo ≤ w ∧ w < v) → C.ent pt w = A.ent pt w) →
        wp (do
          let _ ← uvmdealloc img pt (v * pgsize) (lo * pgsize)
          pure 0) (fun r u => ∃ C,
            (r = newsz ∧ v + (k + 1) ≤ trapVpn ∧ Extended img pt (pteR ||| pteU ||| xperm) lo (v + (k + 1)) A C s u) ∨
            (r = 0 ∧ Grew img pt A C s u ∧ C.ent pt = A.ent pt)) Never u := by
      intro C u hC hrest
      refine wp_post (hC.dealloc hA.leaves hv (fun w hw hw' => hnone w hw (by omega)) hrest) fun r x hx => ?_
      obtain ⟨hr, D, hD⟩ := hx
      exact ⟨D, .inr ⟨hr, hD⟩⟩
    rw [uvmallocLoop]
    refine wp_then (kalloc_take hB.grew.good) fun r t' ht' => ?_
    cases r with
    | none =>
      obtain ⟨rfl, -⟩ := ht'
      exact hback hB.grew hB.rest
    | some q =>
      have hsmall := ht'.small
      refine wp_then (ht'.setPage (fill 0)) fun _ t'' ht'' => ?_
      obtain ⟨hhand, hzero⟩ := ht''
      have hfree : B.ent pt v = none := by
        rw [hB.rest v (by omega)]
        exact hnone v hlo hlt
      refine mapOrFree_spec hhand hB.grew.good.leaves hB.grew.root hlt hfree hperm ?_ ?_
      · intro C u hg _ hmem hent _
        have hnext := hB.snoc hlo hlt hperm hg hsmall hent (hmem.trans hzero)
        rw [← Nat.add_one_mul]
        have hih := ih (v := v + 1) (by omega) hlt hnext (hroom.imp (fun hle => by omega) id)
        rwa [show v + 1 + k = v + (k + 1) by omega] at hih
      · intro C u hg hent _
        exact hback (hB.grew.trans hg) fun w hw => by rw [hent, hB.rest w hw]

/-- `uvmalloc` adds all pages up to the new size or none. -/
theorem uvmalloc_spec {oldsz xperm : Nat} (h : Good img A s) (hpt : A.own pt = .node pt) (hold : oldsz ≤ trapframeVa)
    (hperm : pteR ||| pteU ||| xperm < 2 ^ 10) (hnone : ∀ w, pageCount oldsz ≤ w → w < trapVpn → A.ent pt w = none)
    (hroom : newsz ≤ trapframeVa ∨ ∀ w < pageCount oldsz, ∃ e, A.ent pt w = some e) :
    wp (uvmalloc img pt oldsz newsz xperm) (fun r t =>
      (newsz < oldsz ∧ r = oldsz ∧ t = s) ∨
      (oldsz ≤ newsz ∧ ∃ B,
        (r = newsz ∧ newsz ≤ trapframeVa ∧
          Extended img pt (pteR ||| pteU ||| xperm) (pageCount oldsz) (pageCount newsz) A B s t) ∨
        (r = 0 ∧ Grew img pt A B s t ∧ B.ent pt = A.ent pt))) Never s := by
  rw [uvmalloc]
  by_cases hlt : newsz < oldsz
  · rw [if_pos hlt]
    exact wp_pure.mpr (.inl ⟨hlt, rfl, rfl⟩)
  have hle : oldsz ≤ newsz := Nat.not_lt.mp hlt
  rw [if_neg hlt]
  rw [pgroundup_eq (hold.trans_lt (by decide))]
  have hpages : pageCount oldsz + (newsz - pageCount oldsz * pgsize + (pgsize - 1)) / pgsize = pageCount newsz := by
    have hround : oldsz ≤ pageCount oldsz * 4096 ∧ pageCount oldsz * 4096 < oldsz + 4096 := by
      have hdef : pageCount oldsz = (oldsz + 4096 - 1) / 4096 := rfl
      omega
    show pageCount oldsz + (newsz - pageCount oldsz * 4096 + (4096 - 1)) / 4096 = (newsz + 4096 - 1) / 4096
    omega
  refine wp_post (uvmallocLoop_spec h (Nat.le_refl (pageCount oldsz)) (pageCount_le_trapVpn.mpr hold)
    (Extended.refl h hpt (Nat.le_refl _)) hperm hnone ?_) fun r t ht => .inr ⟨hle, ?_⟩
  · rw [hpages]
    exact hroom.imp_left pageCount_le_trapVpn.mpr
  rw [hpages] at ht
  obtain ⟨B, ⟨hr, htop, hext⟩ | hfail⟩ := ht
  · exact ⟨B, .inl ⟨hr, pageCount_le_trapVpn.mp htop, hext⟩⟩
  · exact ⟨B, .inr hfail⟩

end Sizes

/-! ## `sbrk` -/

/-- The process `p` has become `p'`, with the same page table: what both sizes have is as before, and pages that were
added are mapped for user access. -/
structure Resized (img : Image) (p p' : Space) (A B : Abs) (s t : Vm) : Prop where
  became : Became img p.pagetable A B s t
  space : UserSpace img B p'
  table : p'.pagetable = p.pagetable
  trapframe : p'.trapframe = p.trapframe
  user : ∀ v e, v < trapVpn → B.ent p.pagetable v = some e → A.ent p.pagetable v = some e ∨ e.testBit 4 = true
  view : ∀ a, a < p.sz → a < p'.sz → userView t p' a = userView s p a

section Sbrk

variable {img : Image} {A B : Abs} {s t : Vm} {p p' : Space} {a : Nat}

/-- Views of the same page table with two sizes. -/
theorem userView_resize (h : Rep img A s) (h' : Rep img B t) (hp : UserSpace img A p)
    (hp' : UserSpace img B p') (hpt : p'.pagetable = p.pagetable) (ha : a < p.sz) (ha' : a < p'.sz)
    (hent : B.ent p.pagetable (a / pgsize) = A.ent p.pagetable (a / pgsize))
    (hmem : ∀ e, A.ent p.pagetable (a / pgsize) = some e → t.mem (pte2page e) = s.mem (pte2page e)) :
    userView t p' a = userView s p a := by
  have hva : a < maxva := ha.trans_le (hp.size.trans (by decide))
  have hround : pgrounddown a ≤ a := Nat.div_mul_le_self a pgsize
  rw [userView_eq h hp.root hva, userView_eq h' hp'.root hva, hpt, hent, if_pos (hround.trans_lt ha),
    if_pos (hround.trans_lt ha')]
  cases he : A.ent p.pagetable (a / pgsize) with
  | none => rfl
  | some e => simp only [hmem e he]

theorem vpn_lt_pageCount (ha : a < sz) : a / pgsize < pageCount sz := by
  show a / 4096 < (sz + 4096 - 1) / 4096
  omega

section

variable (h : Good img A s) (hp : UserSpace img A p)
include h hp

theorem Resized.refl : Resized img p p A A s s where
  became := ⟨h, Within.refl _ A, hp.root, fun _ _ => rfl⟩
  space := hp
  table := rfl
  trapframe := rfl
  user _ _ _ he := .inl he
  view _ _ _ := rfl

/-- The process has grown lazily. -/
theorem Resized.lazy (hle : p.sz ≤ sz) (hsz : sz ≤ trapframeVa) : Resized img p { p with sz } A A s s where
  became := ⟨h, Within.refl _ A, hp.root, fun _ _ => rfl⟩
  space := hp.lazy hsz hle
  table := rfl
  trapframe := rfl
  user _ _ _ he := .inl he
  view _ ha ha' := userView_resize h.rep h.rep hp (hp.lazy hsz hle) rfl ha ha' rfl fun _ _ => rfl

/-- A change that keeps the entries keeps the process. -/
theorem Grew.resized (hg : Grew img p.pagetable A B s t)
    (hent : B.ent p.pagetable = A.ent p.pagetable) : Resized img p p A B s t where
  became := hg.became
  space := hp.grew hg fun w hw => absurd (by rw [hent]) hw
  table := rfl
  trapframe := rfl
  user v e _ he := .inl (by rw [← hent, he])
  view a _ _ := userView_same_ent h hp hg hent

end

/-- The process has grown, with pages or lazily. -/
theorem Extended.resized (h : Good img A s) (hp : UserSpace img A p) (hperm : perm < 2 ^ 10)
    (huser : (perm ||| pteV).testBit 4 = true) (hle : p.sz ≤ sz) (hsz : sz ≤ trapframeVa)
    (hx : Extended img p.pagetable perm (pageCount p.sz) (pageCount sz) A B s t) :
    Resized img p { p with sz } A B s t := by
  have htop : pageCount sz ≤ trapVpn := pageCount_le_trapVpn.mpr hsz
  have hkept : ∀ w, ¬ w < pageCount sz → B.ent p.pagetable w = A.ent p.pagetable w := by
    intro w hw
    exact hx.rest w fun hin => hw hin.2
  have hspace : UserSpace img B { p with sz } := by
    apply hp.resize hx.grew.root _ hsz
    · intro w hlo hhi
      rw [hkept w (Nat.not_lt.mpr hlo)]
      exact hp.above w ((pageCount_mono hle).trans hlo) hhi
    · exact fun w hw => hkept w (by omega)
    · rw [hx.grew.own _ (hp.held ▸ Owner.noConfusion)]
      exact hp.held
  constructor
  · exact hx.grew.became
  · exact hspace
  · rfl
  · rfl
  · intro v e hv he
    by_cases hin : pageCount p.sz ≤ v ∧ v < pageCount sz
    · obtain ⟨q, -, hent, -⟩ := hx.fresh v hin.1 hin.2
      rw [hent] at he
      cases he
      exact .inr ((testBit_leafEntry hperm (by decide)).trans huser)
    · rw [hx.rest v hin] at he
      exact .inl he
  · intro a ha ha'
    have hv := vpn_lt_pageCount ha
    refine userView_resize h.rep hx.grew.good.rep hp hspace rfl ha ha' (hx.rest _ (by omega)) fun e he => ?_
    exact hx.grew.page_kept h.leaves hp.root (by have := hp.pageCount_le; omega) he

/-- The process has shrunk. -/
theorem Shrunk.resized (h : Good img A s) (hp : UserSpace img A p) (hle : sz ≤ p.sz)
    (hx : Shrunk img p.pagetable (pageCount sz) (pageCount p.sz) A B s t) :
    Resized img p { p with sz } A B s t := by
  have htop := hp.pageCount_le
  have hkept : ∀ w, ¬ (pageCount sz ≤ w ∧ w < pageCount p.sz) → B.ent p.pagetable w = A.ent p.pagetable w := by
    intro w hw
    rw [hx.ent, clear, if_neg hw]
  have hspace : UserSpace img B { p with sz } := by
    apply hp.resize hx.root _ (hle.trans hp.size)
    · intro w hlo hhi
      by_cases hin : pageCount sz ≤ w ∧ w < pageCount p.sz
      · rw [hx.ent, clear, if_pos hin]
      · rw [hkept w hin]
        exact hp.above w (Nat.not_lt.mp fun hlt => hin ⟨hlo, hlt⟩) hhi
    · exact fun w hw => hkept w (by omega)
    · rw [hx.own _ fun hr => by have := hr.of; rw [hp.held] at this; exact this]
      exact hp.held
  constructor
  · exact hx.became
  · exact hspace
  · rfl
  · rfl
  · intro v e hv he
    rw [hx.ent, clear] at he
    split at he
    · cases he
    · exact .inl he
  · intro a ha ha'
    have hv : a / pgsize < pageCount sz := vpn_lt_pageCount ha'
    have hvp := vpn_lt_pageCount ha
    refine userView_resize h.rep hx.good.rep hp hspace rfl ha ha' (hkept _ (by omega)) fun e he => ?_
    have hleaf := h.leaves.own_of_ent hp.root (by omega) he
    apply hx.keeps
    · rw [hleaf]
      exact Owner.noConfusion
    rintro ⟨w, hlo, -, hw⟩
    rw [hleaf] at hw
    cases hw
    omega

/-- `a + n` where that is no negative number. -/
theorem add64_of_nonneg {n : Int} (h : 0 ≤ (a : Int) + n) (hlt : (a : Int) + n < 2 ^ 64) :
    ((add64 a n : Nat) : Int) = a + n := by
  rw [add64]
  omega

/-- `a + n` wraps around below zero. -/
theorem add64_of_neg {n : Int} (h : (a : Int) + n < 0) (hge : -(2 ^ 64 : Int) ≤ (a : Int) + n) :
    ((add64 a n : Nat) : Int) = 2 ^ 64 + (a + n) := by
  rw [add64]
  omega

/-- The contract of `sbrk`: the old size is returned and the size grows by `n`, or -1 is returned and nothing changes;
a shrink below zero is ignored and returns the old size. -/
theorem sysSbrk_spec (h : Good img A s) (hp : UserSpace img A p) (n m : BitVec 32) :
    wp (sysSbrk img p n m) (fun r t => ∃ B, Resized img p r.2 A B s t ∧
      ((r.1 = -1 ∧ r.2 = p ∧ B.ent p.pagetable = A.ent p.pagetable) ∨
       (r.1 = p.sz ∧ n.toInt < -(p.sz : Int) ∧ r.2 = p ∧ t = s) ∨
       (r.1 = p.sz ∧ -(p.sz : Int) ≤ n.toInt ∧ (r.2.sz : Int) = p.sz + n.toInt))) Never s := by
  have hn : -(2 ^ 31 : Int) ≤ n.toInt ∧ n.toInt < 2 ^ 31 := ⟨BitVec.le_toInt n, BitVec.toInt_lt⟩
  have hsize : p.sz ≤ 2 ^ 38 - 4096 - 4096 := hp.size
  rw [sysSbrk]
  by_cases hgrow : m.toInt = sbrkEager ∨ n.toInt < 0
  · rw [if_pos hgrow, growproc]
    by_cases hpos : 0 < n.toInt
    · -- eager growth
      have hadd := add64_of_nonneg (a := p.sz) (n := n.toInt) (by omega) (by omega)
      rw [if_pos hpos]
      by_cases hbig : add64 p.sz n.toInt > trapframeVa
      · rw [if_pos hbig]
        exact wp_pure.mpr ⟨A, Resized.refl h hp, .inl ⟨rfl, rfl, rfl⟩⟩
      rw [if_neg hbig]
      have hsz : add64 p.sz n.toInt ≤ trapframeVa := Nat.not_lt.mp hbig
      refine wp_bind.mpr (wp_then (uvmalloc_spec h hp.root hp.size (by decide) hp.above (.inl hsz)) fun r t ht => ?_)
      rcases ht with ⟨hlt, -, -⟩ | ⟨hle, B, ⟨rfl, -, hext⟩ | ⟨rfl, hg, hent⟩⟩
      · omega
      · rw [if_neg (by omega)]
        refine wp_pure.mpr (wp_pure.mpr ⟨B, hext.resized h hp (by decide) (by decide) hle hsz, .inr (.inr ?_)⟩)
        exact ⟨rfl, by omega, hadd⟩
      · rw [if_pos rfl]
        exact wp_pure.mpr (wp_pure.mpr ⟨B, hg.resized h hp hent, .inl ⟨rfl, rfl, hent⟩⟩)
    · rw [if_neg hpos]
      by_cases hneg : n.toInt < 0
      · -- shrinking
        rw [if_pos hneg]
        refine wp_bind.mpr (wp_then (uvmdealloc_spec h hp.root hp.size) fun r t ht => ?_)
        obtain ⟨rfl, hsame, B, hB⟩ := ht
        refine wp_pure.mpr (wp_pure.mpr ?_)
        by_cases hbelow : (p.sz : Int) + n.toInt < 0
        · have hadd := add64_of_neg hbelow (by omega)
          have hge : p.sz ≤ add64 p.sz n.toInt := by omega
          rw [Nat.min_eq_left hge, hsame hge]
          exact ⟨A, Resized.refl h hp, .inr (.inl ⟨rfl, by omega, rfl, rfl⟩)⟩
        · have hadd := add64_of_nonneg (a := p.sz) (n := n.toInt) (by omega) (by omega)
          have hle : add64 p.sz n.toInt ≤ p.sz := by omega
          rw [Nat.min_eq_right hle]
          exact ⟨B, hB.resized h hp hle, .inr (.inr ⟨rfl, by omega, hadd⟩)⟩
      · rw [if_neg hneg]
        have hzero : n.toInt = 0 := by omega
        refine wp_pure.mpr ⟨A, Resized.refl h hp, .inr (.inr ⟨rfl, by omega, ?_⟩)⟩
        rw [hzero, Int.add_zero]
  · rw [if_neg hgrow]
    have hadd := add64_of_nonneg (a := p.sz) (n := n.toInt) (by omega) (by omega)
    rw [if_neg (by omega)]
    by_cases hbig : add64 p.sz n.toInt > trapframeVa
    · rw [if_pos hbig]
      exact wp_pure.mpr ⟨A, Resized.refl h hp, .inl ⟨rfl, rfl, rfl⟩⟩
    · rw [if_neg hbig]
      exact wp_pure.mpr ⟨A, Resized.lazy h hp (by omega) (Nat.not_lt.mp hbig), .inr (.inr ⟨rfl, by omega, hadd⟩)⟩

end Sbrk

end Xv6Lab.Memory
