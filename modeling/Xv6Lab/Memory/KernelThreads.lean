import Xv6Lab.Memory.Fork

/-!
# Kernel threads

`kthread_create` gives the new process the page table of its creator and drops the one that `allocproc` built for it.
`kthread_create_keeps_iff` says that ownership of pages survives only the calls that fail: after every other one the
page table of `allocproc` belongs to nobody (`kthread_root_lost`), and as soon as the creator is reaped the page table
of the running thread is on the free list (`kthread_table_freed`).
-/

namespace Xv6Lab.Memory

open Lib.Exec

/-- The memory effects of `kthread_create`. -/
def kthreadCreate (img : Image) (unused : Bool) (p : Space) (fn arg stack : Nat) : VmM (Option Space) := do
  let allocated ← allocproc img unused
  match allocated with
  | none => pure none
  | some np => do
      let s ← get
      setPage np.trapframe (threadTrapframe fn arg stack (s.mem p.trapframe) (s.mem np.trapframe))
      -- `np->pagetable = p->pagetable` overwrites the only pointer to the page table of `allocproc`
      pure (some { np with pagetable := p.pagetable, sz := p.sz })

/-- The process uses a page: as its trapframe, in its page table, or as user memory. The trampoline is a page of the
kernel. -/
inductive Uses (s : Vm) (p : Space) : Nat → Prop
  | frame : Uses s p p.trapframe
  | table {q : Nat} : q ∈ tablePages s.mem p.pagetable → Uses s p q
  | page {v pte : Nat} : v < trapVpn → entryAt s.mem p.pagetable (v * pgsize) = some pte → Uses s p (pte2page pte)

/-- Ownership of pages in state `u`, where the pages that left the free list between `s` and `t` were taken for a new
process: none is free twice, none is free and in use, and none of those taken is lost. -/
structure PagesKept (s t u : Vm) (live : Space → Prop) : Prop where
  distinct : u.free.Nodup
  used : ∀ x, live x → ∀ q, Uses u x q → q ∉ u.free
  found : ∀ q, q ∈ s.free → q ∉ t.free → q ∈ u.free ∨ ∃ x, live x ∧ Uses u x q

/-- `PagesKept` after `kthread_create`, and after `kwait` freed the thread or its creator, or both in either order. -/
def KeepsPages (img : Image) (s t : Vm) (procs : List Space) (creator thread : Space) : Prop :=
  ∀ gone ∈ [[], [thread], [creator], [thread, creator], [creator, thread]],
    wp (gone.forM (freeproc img)) (fun _ u => PagesKept s t u fun x => x ∈ thread :: procs ∧ x ∉ gone)
      (· ≠ "freed twice") t

section Threads

variable {img : Image} {A B : Abs} {s t u : Vm} {p np : Space} {q : Nat}

/-- A page in use is a trapframe, or it belongs to the page table. -/
theorem Uses.own (h : Uses s p q) (hA : Good img A s) (hroot : A.own p.pagetable = .node p.pagetable)
    (hheld : A.own p.trapframe = .held) :
    A.own q = .held ∨ A.own q = .node p.pagetable ∨ ∃ v, A.own q = .leaf p.pagetable v := by
  cases h with
  | frame => exact .inl hheld
  | table hq => exact .inr (.inl (((hA.rep.table _ hroot).nodes_iff q).mp hq))
  | page hv he =>
    rename_i v pte
    have hent : A.ent p.pagetable v = some pte :=
      ((hA.rep.table _ hroot).entry v (hv.trans (by decide))).symm.trans he
    exact .inr (.inr ⟨v, hA.leaves.own_of_ent hroot hv hent⟩)

/-- What a call does once `allocproc` succeeded. -/
theorem kthreadCreate_spec (hA : Good img A s) {unused : Bool} (halloc : allocproc img unused s = .ok (some np) t)
    (fn arg stack : Nat) : ∃ B u, kthreadCreate img unused p fn arg stack s =
      .ok (some { np with pagetable := p.pagetable, sz := p.sz }) u ∧ Created img np A B s u := by
  obtain ⟨-, B, hB⟩ := wp_ok (allocproc_spec hA unused) halloc
  have hdata : (B.own np.trapframe).IsData := by
    rw [hB.space.held]
    trivial
  obtain ⟨_, u, hset, hgood, -, hmem, -⟩ := wp_returns (hB.good.setPage hdata
    (threadTrapframe fn arg stack (t.mem p.trapframe) (t.mem np.trapframe))) fun _ => id
  refine ⟨B, u, ?_, hB.writeFrame hgood hmem⟩
  rw [kthreadCreate, bind_of_ok halloc]
  exact (bind_of_ok rfl).trans (bind_of_ok hset)

/-- Nobody uses the page table that `allocproc` built. -/
theorem kthread_root_lost {procs : List Space} (hB : Created img np A B s t)
    (hprocs : ∀ x ∈ procs, UserSpace img A x) (hp : p ∈ procs) :
    ¬ ∃ x, x ∈ { np with pagetable := p.pagetable, sz := p.sz } :: procs ∧ Uses t x np.pagetable := by
  rintro ⟨x, hx, huses⟩
  -- every process, the thread included, has a page table of `procs` and a trapframe
  have hspace : ∃ y ∈ procs, x.pagetable = y.pagetable ∧ B.own x.trapframe = .held := by
    rcases List.mem_cons.mp hx with rfl | hx
    · exact ⟨p, hp, rfl, hB.space.held⟩
    · exact ⟨x, hx, rfl, (hB.other (hprocs x hx)).held⟩
  obtain ⟨y, hy, hpt, hheld⟩ := hspace
  have hne : x.pagetable ≠ np.pagetable := hpt ▸ hB.pagetable_ne (hprocs y hy)
  have hroot : B.own x.pagetable = .node x.pagetable := hpt ▸ (hB.other (hprocs y hy)).root
  have hown := huses.own hB.good hroot hheld
  rw [hB.space.root] at hown
  simp [hne.symm] at hown

/-- Freeing the creator frees the page table of the thread. -/
theorem kthread_table_freed (hB : Created img np A B s t) (hp : UserSpace img A p) :
    wp (freeproc img p) (fun _ u => p.pagetable ∈ u.free) Never t := by
  refine wp_post (freeproc_spec hB.good (hB.other hp)) fun _ u hu => ?_
  obtain ⟨C, hC⟩ := hu
  refine (hC.good.rep.free _).mpr (hC.free _ (.inr ?_))
  rw [(hB.other hp).root]
  rfl

/-- Ownership of pages survives `kthread_create` exactly when `allocproc` finds no process or no memory for it, so that
the call fails. -/
theorem kthread_create_keeps_iff {procs : List Space} (hA : Good img A s) (hprocs : ∀ x ∈ procs, UserSpace img A x)
    (hp : p ∈ procs) (unused : Bool) (fn arg stack : Nat) :
    (∀ thread t, kthreadCreate img unused p fn arg stack s = .ok (some thread) t →
      KeepsPages img s t procs p thread) ↔ ∃ t, allocproc img unused s = .ok none t := by
  constructor
  · intro hkeeps
    obtain ⟨r, t, halloc, -⟩ := wp_returns (allocproc_spec hA unused) fun _ => id
    cases r with
    | none => exact ⟨t, halloc⟩
    | some np =>
      obtain ⟨B, u, hcall, hB⟩ := kthreadCreate_spec (p := p) hA halloc fn arg stack
      have hkept := wp_ok (t := u) (hkeeps _ u hcall [] (by simp)) rfl
      -- the root was free before, and is taken now
      have hwas : np.pagetable ∈ s.free := (hA.rep.free _).mpr hB.freshTable
      have hnot : np.pagetable ∉ u.free := by
        rw [hB.good.rep.free, hB.space.root]
        exact Owner.noConfusion
      obtain ⟨x, ⟨hx, -⟩, huses⟩ := (hkept.found _ hwas hnot).resolve_left hnot
      exact absurd ⟨x, hx, huses⟩ (kthread_root_lost hB hprocs hp)
  · rintro ⟨t, hnone⟩ thread u hcall
    rw [kthreadCreate, bind_of_ok hnone] at hcall
    cases hcall

end Threads

/-- With no unused process the call fails. -/
theorem kthread_create_keeps_full : ∃ s p, SpaceInv smallImage s p ∧
    ∀ thread t, kthreadCreate smallImage false p 64 7 4096 s = .ok (some thread) t →
      KeepsPages smallImage s t [p] p thread := by
  have hrun : yields (smallProc 4096) smallVm (fun r _ => r.any fun _ => true) = true := by decide +kernel
  obtain ⟨p, s, hproc, -⟩ := yields_some hrun
  obtain ⟨A, hgood, hp⟩ := smallProc_inv (by decide) hproc
  exact ⟨s, p, ⟨A, hgood, hp⟩, (kthread_create_keeps_iff hgood (by simpa using hp) (by simp) false 64 7 4096).mpr
    ⟨s, rfl⟩⟩

/-- The creator exits and is reaped first: the page table of the running thread is on the free list. -/
theorem kthread_create_loses : ∃ s p thread t, SpaceInv smallImage s p ∧
    kthreadCreate smallImage true p 64 7 4096 s = .ok (some thread) t ∧
    ¬ KeepsPages smallImage s t [p] p thread := by
  have hrun : yields (smallProc 4096) smallVm (fun r s => r.any fun _ =>
      yields (allocproc smallImage true) s fun r _ => r.any fun _ => true) = true := by decide +kernel
  obtain ⟨p, s, hproc, hrun⟩ := yields_some hrun
  obtain ⟨np, t, halloc, -⟩ := yields_some hrun
  obtain ⟨A, hgood, hp⟩ := smallProc_inv (by decide) hproc
  obtain ⟨B, u, hcall, hB⟩ := kthreadCreate_spec (p := p) hgood halloc 64 7 4096
  refine ⟨s, p, _, u, ⟨A, hgood, hp⟩, hcall, fun hkeeps => ?_⟩
  obtain ⟨_, v, hfree, hmem⟩ := wp_returns (kthread_table_freed hB hp) fun _ => id
  have hkept := wp_ok (hkeeps [p] (by simp)) (bind_of_ok hfree)
  refine hkept.used _ ⟨List.mem_cons_self, ?_⟩ _ (.table (Lib.RadixTree.root_mem_nodes ..)) hmem
  -- the thread is another process, since its trapframe was free
  intro hthread
  have hframe := congrArg Space.trapframe (List.mem_singleton.mp hthread)
  exact hp.trapframe_ne_free (hframe ▸ hB.freshFrame)

end Xv6Lab.Memory
