import Mathlib.Data.List.Induction
import Xv6Lab.Memory.Fork

/-!
# Loads and stores of a thread and its parent

After a successful `sys_thread_create` the parent and the thread store to and load from the addresses
that were mapped and user-writable in the parent. The documented meaning is that they share memory:
a load returns the latest store to its address by either of them.

Every address has two locations in physical memory, one for each party, and all these locations are
different (`Twin.loc_inj`). So a load returns the loader's own latest store, or the contents at the
time of the call (`Twin.load_exec`), and the documented meaning holds for a sequence of accesses if
and only if these agree with the latest store by either (`thread_shares_iff`). A store by the parent
followed by a load by the thread is a failing case (`thread_misses_store`).
-/

namespace Xv6Lab.Memory

open Function Lib.RadixTree Lib.Exec List

inductive Party where
  | parent
  | thread
  deriving DecidableEq

/-- A user access of one byte. -/
inductive Access where
  | store (who : Party) (va : Nat) (b : UInt8)
  | load (who : Party) (va : Nat)

def Access.va : Access → Nat
  | .store _ va _ => va
  | .load _ va => va

/-- The page table a party runs on. -/
def Party.root (parent t : Space) : Party → Nat
  | .parent => parent.pagetable
  | .thread => t.pagetable

/-- The memory after one access; a store that faults changes nothing. -/
def execAccess (parent t : Space) (mem : Nat → Page) : Access → Nat → Page
  | .store who va b => (userStore mem (who.root parent t) va b).getD mem
  | .load _ _ => mem

/-- The memory after a sequence of accesses. -/
def exec (parent t : Space) (mem : Nat → Page) (accs : List Access) : Nat → Page :=
  accs.foldl (execAccess parent t) mem

/-! ## The property and its condition -/

/-- What an access stores at `va`, if it is a store by a party that `sel` selects. -/
def Access.stored (sel : Party → Bool) (va : Nat) : Access → Option UInt8
  | .store who wa b => if sel who && wa == va then some b else none
  | .load _ _ => none

/-- The latest store to `va` by a selected party. -/
def latest (sel : Party → Bool) (va : Nat) (accs : List Access) : Option UInt8 :=
  accs.reverse.findSome? (Access.stored sel va)

/-- Each load after a store to its address returns the latest store by either party. -/
def SharesMemory (parent t : Space) (mem : Nat → Page) (accs : List Access) : Prop :=
  ∀ done who va rest b, accs = done ++ .load who va :: rest →
    latest (fun _ => true) va done = some b →
    userLoad (exec parent t mem done) (who.root parent t) va = some b

/-- At each load after a store to its address, the latest store by either party stored the value of
the loader's own latest store there, or, if the loader has not stored there, the initial contents. -/
def OwnStoresAgree (initial : Nat → Option UInt8) (accs : List Access) : Prop :=
  ∀ done who va rest b, accs = done ++ .load who va :: rest →
    latest (fun _ => true) va done = some b →
    (latest (fun p => p == who) va done).or (initial va) = some b

/-- The address is below `sz`, mapped and user-writable. -/
def UserPage (s : Vm) (p : Space) (va : Nat) : Prop :=
  va < p.sz ∧ ∃ pte, translate s.mem p.pagetable va = some pte ∧ userWritable pte = true

theorem latest_append (sel : Party → Bool) (va : Nat) (accs : List Access) (a : Access) :
    latest sel va (accs ++ [a]) = (a.stored sel va).or (latest sel va accs) := by
  rw [latest, reverse_append, reverse_singleton, singleton_append, findSome?_cons]
  cases a.stored sel va <;> rfl

/-! ## Locations -/

/-- The state of the two address spaces while the parties run: the tables are those of the call, and
user stores have changed data pages only. -/
structure Twin (s₀ : Vm) (parent t : Space) (copy : Nat → Nat) (s : Vm) (mem : Nat → Page) :
    Prop where
  ok : SpaceOk s₀ parent
  copied : Copied s₀ parent.pagetable t.trapframe t.pagetable copy (pageCount parent.sz) s
  parentTable : ∀ p ∈ tablePages s₀.mem parent.pagetable, mem p = s₀.mem p
  threadTable : ∀ p ∈ tablePages s.mem t.pagetable, mem p = s.mem p

/-- The physical page behind an address for a party. -/
def locPage (s₀ : Vm) (parent : Space) (copy : Nat → Nat) (va : Nat) : Party → Nat
  | .parent => ((translate s₀.mem parent.pagetable va).map pte2page).getD 0
  | .thread => copy (va / pgsize)

section TwinFacts

variable {s₀ s : Vm} {parent t : Space} {copy : Nat → Nat} {mem : Nat → Page} {va : Nat}

theorem locPage_parent {pte : Nat} (hpte : translate s₀.mem parent.pagetable va = some pte) :
    locPage s₀ parent copy va .parent = pte2page pte := by
  rw [locPage, hpte]
  rfl

theorem UserPage.lt_maxva (hok : SpaceOk s₀ parent) (hva : UserPage s₀ parent va) : va < maxva := by
  have hsize := hok.size
  have hmax : trapframeVa < maxva := by decide
  have hlt := hva.1
  omega

section

variable (h : Twin s₀ parent t copy s mem) (hva : UserPage s₀ parent va)
include h hva

/-- The entry a party finds for an address while the parties run. -/
theorem Twin.translate_root {pte : Nat} (hpte : translate s₀.mem parent.pagetable va = some pte) (who : Party) :
    ∃ pte', translate mem (who.root parent t) va = some pte' ∧
      pte2page pte' = locPage s₀ parent copy va who ∧ pteFlags pte' = pteFlags pte := by
  have hmax := hva.lt_maxva h.ok
  cases who with
  | parent =>
    refine ⟨pte, ?_, ?_, rfl⟩
    · show translate mem parent.pagetable va = some pte
      rw [translate_eq hmax, entryAt, lookup_congr h.parentTable, ← hpte, translate_eq hmax, entryAt]
    · rw [locPage_parent hpte]
  | thread =>
    obtain ⟨hc, -, -, hchild⟩ := h.copied.page hva.1 (hva.lt_maxva h.ok) hpte
    have hsmall : copy (va / pgsize) < 2 ^ 52 := h.ok.free_small _ hc.fresh.1
    refine ⟨_, ?_, pte2page_entry hsmall (pteFlags_lt pte), pteFlags_entry _ pte⟩
    rw [translate_eq hmax, entryAt] at hchild
    show translate mem t.pagetable va = _
    rw [translate_eq hmax, entryAt, lookup_congr h.threadTable]
    exact hchild

/-- The locations of different parties or pages are different. -/
theorem Twin.loc_inj {wa : Nat} (hwa : UserPage s₀ parent wa) {who who' : Party}
    (heq : locPage s₀ parent copy va who = locPage s₀ parent copy wa who') :
    who = who' ∧ va / pgsize = wa / pgsize := by
  obtain ⟨hlt, pte, hpte, -⟩ := id hva
  obtain ⟨hlt', pte', hpte', -⟩ := id hwa
  obtain ⟨hc, hent, hcount, -⟩ := h.copied.page hva.1 (hva.lt_maxva h.ok) hpte
  obtain ⟨hc', hent', hcount', -⟩ := h.copied.page hwa.1 (hwa.lt_maxva h.ok) hpte'
  have hused := h.ok.page_used va pte hlt hpte
  have hused' := h.ok.page_used wa pte' hlt' hpte'
  cases who with
  | parent =>
    cases who' with
    | parent =>
      rw [locPage_parent hpte, locPage_parent hpte'] at heq
      exact ⟨rfl, h.ok.page_distinct va wa pte pte' hlt hlt' hpte hpte' heq⟩
    | thread =>
      -- the page of the parent was in use, the copy was free
      rw [locPage_parent hpte] at heq
      exact absurd (show pte2page pte ∈ s₀.free from heq ▸ hc'.fresh.1) hused
  | thread =>
    cases who' with
    | parent =>
      rw [locPage_parent hpte'] at heq
      exact absurd (show pte2page pte' ∈ s₀.free from heq ▸ hc.fresh.1) hused'
    | thread =>
      refine ⟨rfl, h.copied.distinct _ _ hcount hcount' ?_ ?_ heq⟩
      · rw [hent]
        rfl
      · rw [hent']
        rfl

/-- The locations are data pages of neither table. -/
theorem Twin.loc_not_table (who : Party) : locPage s₀ parent copy va who ∉ tablePages s₀.mem parent.pagetable ∧
      locPage s₀ parent copy va who ∉ tablePages s.mem t.pagetable := by
  obtain ⟨hlt, pte, hpte, -⟩ := id hva
  obtain ⟨hc, -, -, -⟩ := h.copied.page hva.1 (hva.lt_maxva h.ok) hpte
  cases who with
  | parent =>
    rw [locPage_parent hpte]
    refine ⟨h.ok.page_not_table va pte hlt hpte, fun hmem => ?_⟩
    exact h.ok.page_used va pte hlt hpte (h.copied.fresh.table _ hmem).1
  | thread =>
    exact ⟨fun hmem => h.ok.table_used _ hmem hc.fresh.1, hc.not_table⟩

end

/-- The byte behind an address for a party. -/
def locByte (s₀ : Vm) (parent : Space) (copy : Nat → Nat) (mem : Nat → Page) (who : Party) (va : Nat) : UInt8 :=
  mem (locPage s₀ parent copy va who) (wordOf va) (byteOf va)

theorem Twin.userLoad_eq (h : Twin s₀ parent t copy s mem) (hva : UserPage s₀ parent va) (who : Party) :
    userLoad mem (who.root parent t) va = some (locByte s₀ parent copy mem who va) := by
  obtain ⟨-, pte, hpte, hw⟩ := id hva
  obtain ⟨pte', htrans, hpage, hflags⟩ := h.translate_root hva hpte who
  rw [userWritable, Bool.and_eq_true, Bool.and_eq_true] at hw
  have h1 : pte'.testBit 1 = true := (testBit_of_flags hflags (by decide)).trans hw.1.1
  have h4 : pte'.testBit 4 = true := (testBit_of_flags hflags (by decide)).trans hw.2
  rw [userLoad, htrans]
  simp only [h1, h4, Bool.and_self, if_true]
  rw [hpage, locByte]

/-- A store changes the byte at its location. -/
theorem Twin.userStore_eq (h : Twin s₀ parent t copy s mem) (hva : UserPage s₀ parent va)
    (who : Party) (b : UInt8) : ∃ mem', userStore mem (who.root parent t) va b = some mem' ∧
      Twin s₀ parent t copy s mem' ∧
      ∀ who' wa, UserPage s₀ parent wa → locByte s₀ parent copy mem' who' wa =
        if who' = who ∧ wa = va then b else locByte s₀ parent copy mem who' wa := by
  obtain ⟨-, pte, hpte, hw⟩ := id hva
  obtain ⟨pte', htrans, hpage, hflags⟩ := h.translate_root hva hpte who
  have hw' : userWritable pte' = true := by
    rw [userWritable, testBit_of_flags hflags (by decide), testBit_of_flags hflags (by decide),
      testBit_of_flags hflags (by decide)]
    exact hw
  obtain ⟨hnp, hnt⟩ := h.loc_not_table hva who
  set page := locPage s₀ parent copy va who with hpagedef
  refine ⟨update mem page (update (mem page) (wordOf va)
    (update (mem page (wordOf va)) (byteOf va) b)), ?_, ?_, fun who' wa hwa => ?_⟩
  · rw [userStore, htrans]
    simp only [hw', if_true]
    rw [hpage]
  · refine ⟨h.ok, h.copied, fun p hp => ?_, fun p hp => ?_⟩
    · have hne : p ≠ page := fun he => hnp (he ▸ hp)
      rw [update_of_ne hne]
      exact h.parentTable p hp
    · have hne : p ≠ page := fun he => hnt (he ▸ hp)
      rw [update_of_ne hne]
      exact h.threadTable p hp
  · rw [locByte, locByte]
    by_cases hsame : locPage s₀ parent copy wa who' = page
    · obtain ⟨rfl, hdiv⟩ := h.loc_inj hwa hva hsame
      rw [hsame, update_self]
      -- inside one page the word and the byte decide
      by_cases hword : wordOf wa = wordOf va
      · rw [hword, update_self]
        by_cases hbyte : byteOf wa = byteOf va
        · have heq : wa = va := by
            have hw1 : wa % 4096 / 8 = va % 4096 / 8 := Fin.mk.inj hword
            have hb1 : wa % 8 = va % 8 := Fin.mk.inj hbyte
            have hd1 : va / 4096 = wa / 4096 := hdiv.symm
            omega
          rw [hbyte, update_self, if_pos ⟨rfl, heq⟩]
        · rw [update_of_ne hbyte, if_neg]
          rintro ⟨-, rfl⟩
          exact hbyte rfl
      · rw [update_of_ne hword, if_neg]
        rintro ⟨-, rfl⟩
        exact hword rfl
    · rw [update_of_ne hsame, if_neg]
      rintro ⟨rfl, rfl⟩
      exact hsame rfl

/-- When the call returns, both parties see the contents at the time of the call. -/
theorem Twin.start (hok : SpaceOk s₀ parent)
    (hc : Copied s₀ parent.pagetable t.trapframe t.pagetable copy (pageCount parent.sz) s) :
    Twin s₀ parent t copy s s.mem ∧ ∀ who va, UserPage s₀ parent va →
      some (locByte s₀ parent copy s.mem who va) = userLoad s₀.mem parent.pagetable va := by
  have htwin : Twin s₀ parent t copy s s.mem :=
    ⟨hok, hc, fun p hp => hc.fresh.frame p (hok.table_used p hp), fun _ _ => rfl⟩
  refine ⟨htwin, fun who va hva => ?_⟩
  obtain ⟨hlt, pte, hpte, hw⟩ := id hva
  obtain ⟨hcopy, hent, -, -⟩ := hc.page hlt (hva.lt_maxva hok) hpte
  rw [userWritable, Bool.and_eq_true, Bool.and_eq_true] at hw
  have hload : userLoad s₀.mem parent.pagetable va = some (s₀.mem (pte2page pte) (wordOf va) (byteOf va)) := by
    rw [userLoad, hpte]
    simp only [hw.1.1, hw.2, Bool.and_self, if_true]
  rw [hload, locByte]
  cases who with
  | parent =>
    rw [locPage_parent hpte, hc.fresh.frame _ (hok.page_used va pte hlt hpte)]
  | thread =>
    show some (s.mem (copy (va / pgsize)) _ _) = _
    rw [(hcopy.entry pte hent).2]

/-- After any accesses, a location holds the owner's latest store or the initial contents. -/
theorem Twin.exec (h : Twin s₀ parent t copy s mem) (accs : List Access) (hva : ∀ a ∈ accs, UserPage s₀ parent a.va) :
    Twin s₀ parent t copy s (exec parent t mem accs) ∧
      ∀ who va, UserPage s₀ parent va →
        some (locByte s₀ parent copy (exec parent t mem accs) who va) =
          (latest (fun p => p == who) va accs).or (some (locByte s₀ parent copy mem who va)) := by
  induction accs using reverseRecOn with
  | nil => exact ⟨h, fun _ _ _ => rfl⟩
  | append_singleton accs a ih =>
    obtain ⟨htwin, hbytes⟩ := ih fun b hb => hva b (mem_append_left _ hb)
    have ha : UserPage s₀ parent a.va := hva a (by simp)
    have hexec : Memory.exec parent t mem (accs ++ [a]) = execAccess parent t (Memory.exec parent t mem accs) a := by
      rw [Memory.exec, Memory.exec, foldl_append, foldl_cons, foldl_nil]
    rw [hexec]
    cases a with
    | load p wa =>
      refine ⟨htwin, fun who va hv => ?_⟩
      rw [latest_append]
      exact hbytes who va hv
    | store p wa b =>
      have hwa : UserPage s₀ parent wa := ha
      obtain ⟨mem', hstore, htwin', hbytes'⟩ := htwin.userStore_eq hwa p b
      have hmem : execAccess parent t (Memory.exec parent t mem accs) (.store p wa b) = mem' := by
        rw [execAccess]
        exact (congrArg (Option.getD · _) hstore).trans rfl
      rw [hmem]
      refine ⟨htwin', fun who va hv => ?_⟩
      rw [hbytes' who va hv, latest_append, Access.stored]
      by_cases hself : who = p ∧ va = wa
      · obtain ⟨rfl, rfl⟩ := hself
        simp
      have hcond : (p == who && wa == va) = false := by
        rw [Bool.and_eq_false_iff]
        by_cases hp : p = who
        · refine Or.inr (beq_false_of_ne fun hw => ?_)
          exact hself ⟨hp.symm, hw.symm⟩
        · exact Or.inl (beq_false_of_ne hp)
      rw [hcond, if_neg hself]
      exact hbytes who va hv

end TwinFacts

/-! ## The theorem -/

/-- Parent and thread share memory in a sequence of accesses exactly when each loader's own stores
agree with the latest ones. -/
theorem thread_shares_iff {img : Image} {unused : Bool} {parent t : Space} {fcn arg stack : Nat} {s₀ s : Vm}
    (hok : SpaceOk s₀ parent) (hrun : sysThreadCreate img unused parent fcn arg stack s₀ = .ok (some t) s)
    (accs : List Access) (hva : ∀ a ∈ accs, UserPage s₀ parent a.va) :
    SharesMemory parent t s.mem accs ↔ OwnStoresAgree (userLoad s₀.mem parent.pagetable) accs := by
  rw [sysThreadCreate] at hrun
  split at hrun
  · cases hrun
  obtain ⟨copy, hc⟩ := spawn_private_copy hok hrun
  obtain ⟨htwin, hstart⟩ := Twin.start hok hc
  -- what a load in the sequence returns
  have hload : ∀ done who va rest, accs = done ++ .load who va :: rest →
      userLoad (exec parent t s.mem done) (who.root parent t) va =
        (latest (fun p => p == who) va done).or (userLoad s₀.mem parent.pagetable va) := by
    intro done who va rest haccs
    have hdone : ∀ a ∈ done, UserPage s₀ parent a.va := by
      intro a ha
      refine hva a ?_
      rw [haccs]
      exact mem_append_left _ ha
    have hv : UserPage s₀ parent va := by
      refine hva (.load who va) ?_
      rw [haccs]
      exact mem_append_right _ mem_cons_self
    obtain ⟨htwin', hbytes⟩ := htwin.exec done hdone
    rw [htwin'.userLoad_eq hv who, hbytes who va hv, hstart who va hv]
  constructor
  · intro hshare done who va rest b haccs hlast
    rw [← hload done who va rest haccs]
    exact hshare done who va rest b haccs hlast
  · intro hown done who va rest b haccs hlast
    rw [hload done who va rest haccs]
    exact hown done who va rest b haccs hlast

/-! ## A parent with one page -/

/-- A process with a byte 77 at address 0 creates a thread and then stores 1 there; the thread still loads 77. -/
theorem small_thread : ∃ s₀ p t s, SpaceInv smallImage s₀ p ∧ UserPage s₀ p 0 ∧
    sysThreadCreate smallImage true p 0 0 4096 s₀ = .ok (some t) s ∧
    userLoad (exec p t s.mem [.store .parent 0 1]) t.pagetable 0 = some 77 := by
  have hrun : yields (smallProc 4096) smallVm (fun r s => r.any fun p =>
      yields (copyout smallImage p p.pagetable 0 (fun k => [77].getD k 0) 1) s fun _ s₀ =>
        (translate s₀.mem p.pagetable 0).any userWritable &&
        yields (sysThreadCreate smallImage true p 0 0 4096) s₀ fun r u => r.any fun t =>
          userLoad (exec p t u.mem [.store .parent 0 1]) t.pagetable 0 == some 77) = true := by decide +kernel
  obtain ⟨p, s, hproc, hrun⟩ := yields_some hrun
  obtain ⟨ok, s₀, hcopy, hrun⟩ := yields_true hrun
  obtain ⟨hmapped, hrun⟩ := (Bool.and_eq_true _ _).mp hrun
  obtain ⟨pte, hpte, hw⟩ := (Option.any_eq_true _ _).mp hmapped
  obtain ⟨t, u, hcreate, hload⟩ := yields_some hrun
  obtain ⟨A, hgood, hp⟩ := smallProc_inv (by decide) hproc
  obtain ⟨B, htouched, -⟩ := wp_ok (copyout_spec _ hgood hp) hcopy
  have hsz : 0 < p.sz := by
    rw [smallProc_sz hproc]
    decide
  exact ⟨s₀, p, t, u, ⟨B, htouched.good, htouched.space⟩, ⟨hsz, pte, hpte, hw⟩, hcreate, eq_of_beq hload⟩

/-- The thread stores and loads address 0, which the parent does not touch. -/
theorem thread_shares_own_store : ∃ s₀ p t s, SpaceOk s₀ p ∧ UserPage s₀ p 0 ∧
    sysThreadCreate smallImage true p 0 0 4096 s₀ = .ok (some t) s ∧
      SharesMemory p t s.mem [.store .thread 0 7, .load .thread 0] := by
  obtain ⟨s₀, p, t, s, hinv, hpage, hrun, -⟩ := small_thread
  refine ⟨s₀, p, t, s, hinv.spaceOk, hpage, hrun, (thread_shares_iff hinv.spaceOk hrun _ ?_).mpr ?_⟩
  · intro a ha
    have hzero : a.va = 0 := by
      simp only [mem_cons, not_mem_nil, or_false] at ha
      rcases ha with rfl | rfl <;> rfl
    rw [hzero]
    exact hpage
  · intro done who va rest b haccs hlast
    rcases done with _ | ⟨a, _ | ⟨a', done⟩⟩
    · cases hlast
    · simp only [cons_append, nil_append, cons.injEq] at haccs
      obtain ⟨rfl, hload, -⟩ := haccs
      cases hload
      cases hlast
      rfl
    · simp only [cons_append, cons.injEq] at haccs
      obtain ⟨-, -, hnil⟩ := haccs
      exact absurd hnil.symm (by simp)

/-- The parent stores 1 to address 0 and the thread loads 77 from it. -/
theorem thread_misses_store : ∃ s₀ p t s, SpaceOk s₀ p ∧ UserPage s₀ p 0 ∧
    sysThreadCreate smallImage true p 0 0 4096 s₀ = .ok (some t) s ∧
      ¬ SharesMemory p t s.mem [.store .parent 0 1, .load .thread 0] := by
  obtain ⟨s₀, p, t, s, hinv, hpage, hrun, hload⟩ := small_thread
  refine ⟨s₀, p, t, s, hinv.spaceOk, hpage, hrun, fun hshare => ?_⟩
  have hone : some (77 : UInt8) = some 1 := hload.symm.trans (hshare [.store .parent 0 1] .thread 0 [] 1 rfl rfl)
  exact absurd hone (by decide)

end Xv6Lab.Memory
