import Xv6Lab.Memory.Fork

/-!
# Isolation

What a process does to its own memory, by itself or through the kernel, is one of the operations `MemOp`. Each of them
changes pages of the process only (`MemOp.run_spec`), and another process of the same memory does not see it
(`other_space`). `fork_isolates` puts this together with the copy that `kfork` makes: right after the call parent and child
see the same memory with the same permissions, they have no page in common, and in every run of the two processes no
operation of one changes what the other sees.
-/

namespace Xv6Lab.Memory

open Lib.Exec
open Lib.Transition

/-! ## Operations of a process on its memory -/

/-- A store, a page fault, a copy by the kernel on behalf of the process, or `sbrk`. -/
inductive MemOp where
  | store (va : Nat) (b : UInt8)
  | fault (va : Nat)
  | copyout (va : Nat) (bytes : List UInt8)
  | copyin (va len : Nat)
  | sbrk (n m : BitVec 32)

/-- An operation of the process `p`: the process afterwards. A store to a page that is not writable changes nothing. -/
def MemOp.run (img : Image) (p : Space) : MemOp → VmM Space
  | .store va b => do
      let s ← get
      match userStore s.mem p.pagetable va b with
      | none => pure p
      | some mem => do
          set { s with mem }
          pure p
  | .fault va => do
      let _ ← vmfault img p p.pagetable va
      pure p
  | .copyout va bytes => do
      let _ ← Memory.copyout img p p.pagetable va (bytes.getD · 0) bytes.length
      pure p
  | .copyin va len => do
      let _ ← Memory.copyin img p p.pagetable va len
      pure p
  | .sbrk n m => do
      let r ← sysSbrk img p n m
      pure r.2

section Operations

variable {img : Image} {A B : Abs} {s t : Vm} {p y : Space} {va : Nat}

/-- A store changes a user page. -/
theorem userStore_touched {b : UInt8} {mem : Nat → Page} (h : Good img A s) (hp : UserSpace img A p)
    (hst : userStore s.mem p.pagetable va b = some mem) : Touched img p A A s { s with mem } := by
  by_cases hva : va < maxva
  · rw [userStore, translate_at h.rep hp.root hva] at hst
    cases he : A.ent p.pagetable (va / pgsize) with
    | none =>
      rw [he] at hst
      cases hst
    | some e =>
      simp only [he] at hst
      by_cases hw : userWritable e = true
      · rw [if_pos hw] at hst
        cases hst
        rw [userWritable, Bool.and_eq_true] at hw
        have hlt := hp.lt_trapVpn (lt_maxva_iff.mp hva) he hw.2
        have hleaf := h.leaves.own_of_ent hp.root hlt he
        refine ⟨⟨h.rep.writeData (h.leaves.isData hp.root hlt he) _, h.leaves⟩, hp, Within.refl _ A, fun _ _ => rfl,
          fun _ _ => id, fun q hq => Function.update_of_ne ?_ _ _⟩
        rintro rfl
        rw [hleaf] at hq
        exact hq rfl
      · rw [if_neg hw] at hst
        cases hst
  · rw [userStore, translate, if_pos (Nat.not_lt.mp hva)] at hst
    cases hst

/-- `vmfault` looks at the page of the address, once the address is below the size. -/
theorem vmfault_round (img : Image) (p : Space) (pt : Nat) (hva : va < p.sz) :
    vmfault img p pt va = vmfault img p pt (va / pgsize * pgsize) := by
  have hround : va / pgsize * pgsize < p.sz := (Nat.div_mul_le_self va pgsize).trans_lt hva
  have hidem : pgrounddown (va / pgsize * pgsize) = pgrounddown va := by
    rw [pgrounddown, pgrounddown, page_vpn]
  rw [vmfault, vmfault, if_neg (Nat.not_le.mpr hva), if_neg (Nat.not_le.mpr hround), hidem]

theorem MemOp.run_spec (h : Good img A s) (hp : UserSpace img A p) (op : MemOp) :
    wp (op.run img p) (fun p' t => ∃ B, Became img p.pagetable A B s t ∧ UserSpace img B p' ∧
      p'.pagetable = p.pagetable ∧ p'.trapframe = p.trapframe) Never s := by
  have htouched : ∀ {t B}, Touched img p A B s t → ∃ B, Became img p.pagetable A B s t ∧ UserSpace img B p ∧
      p.pagetable = p.pagetable ∧ p.trapframe = p.trapframe :=
    fun ht => ⟨_, ht.became, ht.space, rfl, rfl⟩
  cases op with
  | store va b =>
    rw [MemOp.run]
    refine wp_bind.mpr (wp_get.mpr ?_)
    cases hst : userStore s.mem p.pagetable va b with
    | none => exact wp_pure.mpr (htouched (Touched.refl h hp))
    | some mem => exact wp_bind.mpr (wp_set.mpr (wp_pure.mpr (htouched (userStore_touched h hp hst))))
  | fault va =>
    rw [MemOp.run]
    by_cases hva : va < p.sz
    · rw [vmfault_round img p p.pagetable hva]
      refine wp_then (vmfault_spec h hp) fun r t ht => ?_
      obtain ⟨B, ht, -⟩ := ht
      exact wp_pure.mpr (htouched ht)
    · rw [vmfault, if_pos (Nat.not_lt.mp hva)]
      exact wp_pure.mpr (htouched (Touched.refl h hp))
  | copyout va bytes =>
    rw [MemOp.run]
    refine wp_then (copyout_spec _ h hp) fun r t ht => ?_
    obtain ⟨B, ht, -⟩ := ht
    exact wp_pure.mpr (htouched ht)
  | copyin va len =>
    rw [MemOp.run]
    refine wp_then (copyin_spec h hp) fun r t ht => ?_
    obtain ⟨B, ht, -⟩ := ht
    exact wp_pure.mpr (htouched ht)
  | sbrk n m =>
    rw [MemOp.run]
    refine wp_then (sysSbrk_spec h hp n m) fun r t ht => ?_
    obtain ⟨B, hr, -⟩ := ht
    exact wp_pure.mpr ⟨B, hr.became, hr.space, hr.table, hr.trapframe⟩

/-- Another process keeps its address space and does not see the change. -/
theorem other_space (h : Good img A s) (hy : UserSpace img A y) {pt : Nat} (hb : Became img pt A B s t)
    (hne : y.pagetable ≠ pt) : UserSpace img B y ∧ ∀ a, userView t y a = userView s y a := by
  have hroot : ¬ (A.own y.pagetable).Of pt := by
    rw [hy.root]
    exact hne
  have hframe : ¬ (A.own y.trapframe).Of pt := by
    rw [hy.held]
    exact id
  have hspace := hy.congr (hb.within.own_eq hroot) (hb.within.own_eq hframe) (hb.within.ent _ hne)
  refine ⟨hspace, fun a => ?_⟩
  refine userView_congr h hb.good.rep hy hspace.root (by rw [hb.within.ent _ hne]) fun q hleaf => ?_
  rw [hb.frame]
  rw [hleaf]
  exact hne

end Operations

/-! ## Two processes -/

/-- A process and its child in one memory. -/
structure Family where
  vm : Vm
  parent : Space
  child : Space

/-- One of the two. -/
def Family.space (σ : Family) (isChild : Bool) : Space := if isChild then σ.child else σ.parent

/-- An operation of the child or of the parent; it is undefined if the kernel stops with an error. -/
def familyStep (img : Image) (σ : Family) (act : Bool × MemOp) : Option Family :=
  match act.2.run img (σ.space act.1) σ.vm with
  | .ok p t => some (if act.1 then { σ with vm := t, child := p } else { σ with vm := t, parent := p })
  | .error _ _ => none

/-- Two address spaces in one memory. -/
structure FamilyInv (img : Image) (A : Abs) (σ : Family) : Prop where
  good : Good img A σ.vm
  space : ∀ isChild, UserSpace img A (σ.space isChild)
  distinct : σ.parent.pagetable ≠ σ.child.pagetable

section Families

variable {img : Image} {A : Abs} {σ : Family}

/-- Every operation of one is defined, keeps the invariant, and changes nothing for the other. -/
theorem FamilyInv.step (h : FamilyInv img A σ) (isChild : Bool) (op : MemOp) :
    ∃ σ' B, familyStep img σ (isChild, op) = some σ' ∧ FamilyInv img B σ' ∧ σ'.space (!isChild) = σ.space (!isChild) ∧
      ∀ a, userView σ'.vm (σ.space (!isChild)) a = userView σ.vm (σ.space (!isChild)) a := by
  obtain ⟨p, t, hrun, B, hb, hspace, htable, -⟩ := wp_returns (op.run_spec h.good (h.space isChild)) fun _ => id
  have hne : (σ.space (!isChild)).pagetable ≠ (σ.space isChild).pagetable := by
    cases isChild with
    | true => exact h.distinct
    | false => exact h.distinct.symm
  obtain ⟨hother, hview⟩ := other_space h.good (h.space (!isChild)) hb hne
  have hstep : familyStep img σ (isChild, op) =
      some (if isChild then { σ with vm := t, child := p } else { σ with vm := t, parent := p }) := by
    rw [familyStep]
    simp only [hrun]
  refine ⟨_, B, hstep, ?_, ?_, ?_⟩
  · cases isChild with
    | true =>
      refine ⟨hb.good, fun w => ?_, ?_⟩
      · cases w with
        | true => exact hspace
        | false => exact hother
      · show σ.parent.pagetable ≠ p.pagetable
        rw [htable]
        exact h.distinct
    | false =>
      refine ⟨hb.good, fun w => ?_, ?_⟩
      · cases w with
        | true => exact hother
        | false => exact hspace
      · show p.pagetable ≠ σ.child.pagetable
        rw [htable]
        exact h.distinct
  · cases isChild <;> rfl
  · cases isChild <;> exact hview

theorem FamilyInv.keeps (h : FamilyInv img A σ) (acts : List (Bool × MemOp)) :
    ∃ σ' B, run (familyStep img) σ acts = some σ' ∧ FamilyInv img B σ' := by
  induction acts generalizing A σ with
  | nil => exact ⟨σ, A, rfl, h⟩
  | cons act acts ih =>
    obtain ⟨σ₁, B, hstep, hB, -⟩ := h.step act.1 act.2
    obtain ⟨σ₂, C, hrest, hC⟩ := ih hB
    refine ⟨σ₂, C, ?_, hC⟩
    rw [run, hstep, Option.bind_some]
    exact hrest

end Families

/-! ## Parent and child -/

section Fork

variable {img : Image} {A B : Abs} {s t u : Vm} {p np parent : Space} {va : Nat}

/-- The byte that the hardware loads is the one at the offset in the page. -/
theorem getByte_mod (data : Page) (va : Nat) : getByte data (va % pgsize) = data (wordOf va) (byteOf va) := by
  have hword : wordOf (va % pgsize) = wordOf va := by
    apply Fin.ext
    show va % 4096 % 4096 / 8 = va % 4096 / 8
    omega
  have hbyte : byteOf (va % pgsize) = byteOf va := by
    apply Fin.ext
    show va % 4096 % 8 = va % 8
    omega
  rw [getByte, hword, hbyte]

section

variable {copy : Nat → Nat} (hok : SpaceOk s parent)
  (hcopied : Copied s parent.pagetable np.trapframe np.pagetable copy (pageCount parent.sz) t)
  (hgap : translate s.mem parent.pagetable va = none → translate t.mem np.pagetable va = none)
include hok hcopied hgap

/-- A page of the child is missing where the parent's is, or it has the same contents and flags. -/
theorem child_page (hva : va < parent.sz) :
    (translate s.mem parent.pagetable va = none ∧ translate t.mem np.pagetable va = none) ∨
    ∃ e e', translate s.mem parent.pagetable va = some e ∧ translate t.mem np.pagetable va = some e' ∧
      pteFlags e' = pteFlags e ∧ t.mem (pte2page e') = s.mem (pte2page e) := by
  cases he : translate s.mem parent.pagetable va with
  | none => exact .inl ⟨rfl, hgap he⟩
  | some e =>
    obtain ⟨hc, hent, -, hchild⟩ := hcopied.page hva (hva.trans_le (hok.size.trans (by decide))) he
    refine .inr ⟨e, _, rfl, hchild, pteFlags_entry _ e, ?_⟩
    rw [pte2page_entry (hok.free_small _ hc.fresh.1) (pteFlags_lt e)]
    exact (hc.entry e hent).2

/-- The child sees what the parent saw. -/
theorem child_view (hsz : np.sz = parent.sz) (hva : va < parent.sz) :
    userView t np va = userView s parent va ∧ userLoad t.mem np.pagetable va = userLoad s.mem parent.pagetable va ∧
      (translate t.mem np.pagetable va).map pteFlags = (translate s.mem parent.pagetable va).map pteFlags := by
  rcases child_page hok hcopied hgap hva with ⟨hparent, hchild⟩ | ⟨e, e', hparent, hchild, hflags, hmem⟩
  · rw [userView, userView, userLoad, userLoad, hparent, hchild, hsz]
    exact ⟨rfl, rfl, rfl⟩
  have hbit : ∀ i < 10, e'.testBit i = e.testBit i := by
    intro i hi
    rw [← testBit_pteFlags hi, hflags, testBit_pteFlags hi]
  rw [userView, userView, userLoad, userLoad, hparent, hchild]
  simp only [hbit 1 (by decide), hbit 4 (by decide), hmem, Option.map_some, hflags, and_self]

end

/-- The first use of a page that is not mapped reads zero. -/
theorem first_use (h : Good img A s) (hp : UserSpace img A p) (hva : va < p.sz)
    (hnone : translate s.mem p.pagetable va = none) {q : Nat}
    (hrun : vmfault img p p.pagetable va s = .ok (some q) t) : userLoad t.mem p.pagetable va = some 0 := by
  have hmax : va < maxva := hva.trans_le (hp.size.trans (by decide))
  rw [vmfault_round img p p.pagetable hva] at hrun
  obtain ⟨B, ht, hview, -, hent, -⟩ := wp_ok (vmfault_spec h hp) hrun
  have hperm : faultPerm < 2 ^ 10 := by decide
  have htrans : translate t.mem p.pagetable va = some (leafEntry q faultPerm) :=
    (translate_at ht.good.rep ht.space.root hmax).trans hent
  have hzero : userView t p va = some 0 := by
    rw [hview va, userView, hnone]
    exact if_pos ((Nat.div_mul_le_self va pgsize).trans_lt hva)
  have hread : (leafEntry q faultPerm).testBit 1 = true := by
    rw [testBit_leafEntry hperm (by decide)]
    decide
  have huser : (leafEntry q faultPerm).testBit 4 = true := by
    rw [testBit_leafEntry hperm (by decide)]
    decide
  rw [userView, htrans] at hzero
  rw [userLoad, htrans]
  simp only [hread, huser, Bool.and_self, if_true] at hzero ⊢
  rw [getByte_mod] at hzero
  exact hzero

/-- `kfork` copies the memory of the parent exactly and isolates the two processes. Below the size the child sees the
same bytes with the same permissions; pages that are not mapped stay so and read zero on first use in both; the parent's
mapping is unchanged; no user page is shared; and in every run of the two processes no operation of one changes what the
other sees. -/
theorem fork_isolates (h : SpaceInv img s parent) {unused : Bool}
    (hrun : kfork img unused parent s = .ok (some np) t) :
    np.sz = parent.sz ∧
    (∀ va, va < parent.sz → userView t np va = userView s parent va ∧
      userLoad t.mem np.pagetable va = userLoad s.mem parent.pagetable va ∧
      (translate t.mem np.pagetable va).map pteFlags = (translate s.mem parent.pagetable va).map pteFlags) ∧
    (∀ va, va < parent.sz → translate s.mem parent.pagetable va = none → ∀ p, p = parent ∨ p = np →
      ∀ q u, vmfault img p p.pagetable va t = .ok (some q) u → userLoad u.mem p.pagetable va = some 0) ∧
    (∀ va, translate t.mem parent.pagetable va = translate s.mem parent.pagetable va ∧
      userView t parent va = userView s parent va) ∧
    (∀ va wa e e', va < trapframeVa → wa < trapframeVa → translate t.mem parent.pagetable va = some e →
      translate t.mem np.pagetable wa = some e' → pte2page e ≠ pte2page e') ∧
    (∀ acts, ∃ σ, run (familyStep img) { vm := t, parent := parent, child := np } acts = some σ ∧
      ∀ isChild op, ∃ σ', familyStep img σ (isChild, op) = some σ' ∧ σ'.space (!isChild) = σ.space (!isChild) ∧
        ∀ va, userView σ'.vm (σ.space (!isChild)) va = userView σ.vm (σ.space (!isChild)) va) := by
  have hok := h.spaceOk
  obtain ⟨A, hA, hp⟩ := h
  rw [kfork] at hrun
  obtain ⟨copy, hcopied⟩ := spawn_private_copy hok hrun
  obtain ⟨hsz, B, hB, hgap⟩ := wp_ok (spawn_spec hA hp unused _) hrun
  have hparent := hB.other hp
  have hne := hB.pagetable_ne hp
  have hent : B.ent parent.pagetable = A.ent parent.pagetable := hB.ent _ hne
  have hview : ∀ va, va < parent.sz → userView t np va = userView s parent va ∧
      userLoad t.mem np.pagetable va = userLoad s.mem parent.pagetable va ∧
      (translate t.mem np.pagetable va).map pteFlags = (translate s.mem parent.pagetable va).map pteFlags := by
    intro va hva
    have hmax : va < maxva := hva.trans_le (hp.size.trans (by decide))
    refine child_view hok hcopied (fun hnone => ?_) hsz hva
    rw [translate_at hA.rep hp.root hmax] at hnone
    rw [translate_at hB.good.rep hB.space.root hmax]
    exact hgap _ (vpn_lt_pageCount hva) hnone
  have hsame : ∀ va, translate t.mem parent.pagetable va = translate s.mem parent.pagetable va := by
    intro va
    by_cases hmax : va < maxva
    · rw [translate_at hA.rep hp.root hmax, translate_at hB.good.rep hparent.root hmax, hent]
    · rw [translate, translate, if_pos (Nat.not_lt.mp hmax), if_pos (Nat.not_lt.mp hmax)]
  refine ⟨hsz, hview, ?_, fun va => ⟨hsame va, ?_⟩, ?_, ?_⟩
  · rintro va hva hnone p (rfl | rfl) q u hfault
    · exact first_use hB.good hparent hva (by rw [hsame, hnone]) hfault
    · have hflags := (hview va hva).2.2
      rw [hnone, Option.map_none, Option.map_eq_none_iff] at hflags
      exact first_use hB.good hB.space (hsz ▸ hva) hflags hfault
  · exact userView_congr hA hB.good.rep hp hparent.root (by rw [hent]) fun q hq => hB.keeps q (by simp [hq])
  · intro va wa e e' hva hwa he he' heq
    have hlt : ∀ {a}, a < trapframeVa → a < maxva ∧ a / pgsize < trapVpn := by
      intro a ha
      have ha : a < 2 ^ 38 - 4096 - 4096 := ha
      refine ⟨?_, ?_⟩
      · show a < 2 ^ 38
        omega
      · show a / 4096 < 2 ^ 26 - 2
        omega
    rw [translate_at hB.good.rep hparent.root (hlt hva).1] at he
    rw [translate_at hB.good.rep hB.space.root (hlt hwa).1] at he'
    have hleaf := hB.good.leaves.own_of_ent hparent.root (hlt hva).2 he
    rw [heq, hB.good.leaves.own_of_ent hB.space.root (hlt hwa).2 he'] at hleaf
    exact hne (Owner.leaf.inj hleaf).1.symm
  · have hinv : FamilyInv img B { vm := t, parent := parent, child := np } := by
      refine ⟨hB.good, fun isChild => ?_, hne⟩
      cases isChild with
      | true => exact hB.space
      | false => exact hparent
    intro acts
    obtain ⟨σ, C, hruns, hC⟩ := hinv.keeps acts
    refine ⟨σ, hruns, fun isChild op => ?_⟩
    obtain ⟨σ', D, hstep, -, hspace, hview⟩ := hC.step isChild op
    exact ⟨σ', hstep, hspace, hview⟩

end Fork

/-- A parent with one page touched and one page untouched: the child reads the parent's byte, and a store of the child
is not seen by the parent. -/
theorem fork_isolates_small : ∃ s p np t, SpaceInv smallImage s p ∧ kfork smallImage true p s = .ok (some np) t ∧
    userView t np 5 = userView s p 5 ∧ userView t np 5000 = userView s p 5000 ∧
    ∃ σ, familyStep smallImage { vm := t, parent := p, child := np } (true, .store 5 33) = some σ ∧
      userView σ.vm p 5 = userView t p 5 := by
  have hrun : yields (smallProc 8192) smallVm (fun r s => r.any fun p =>
      yields (copyout smallImage p p.pagetable 5 (fun k => [77].getD k 0) 1) s fun _ t =>
        yields (kfork smallImage true p) t fun r _ => r.any fun _ => true) = true := by decide +kernel
  obtain ⟨p, s, hproc, hrun⟩ := yields_some hrun
  obtain ⟨ok, t, hcopy, hrun⟩ := yields_true hrun
  obtain ⟨np, u, hfork, -⟩ := yields_some hrun
  obtain ⟨A, hgood, hp⟩ := smallProc_inv (by decide) hproc
  have hsz : p.sz = 8192 := smallProc_sz hproc
  obtain ⟨B, htouched, -⟩ := wp_ok (copyout_spec _ hgood hp) hcopy
  have hinv : SpaceInv smallImage t p := ⟨B, htouched.good, htouched.space⟩
  obtain ⟨-, hview, -, -, -, hruns⟩ := fork_isolates hinv hfork
  obtain ⟨σ, hσ, hstep⟩ := hruns []
  cases hσ
  obtain ⟨σ', hstep, -, hother⟩ := hstep true (.store 5 33)
  exact ⟨t, p, np, u, hinv, hfork, (hview 5 (by omega)).1, (hview 5000 (by omega)).1, σ', hstep, hother 5⟩

end Xv6Lab.Memory
