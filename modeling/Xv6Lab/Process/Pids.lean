import Xv6Lab.Process.CleanStart

/-!
# Process identifiers

`allocpid` hands out increasing numbers and `freeproc` resets the field to 0, so in every run in which no running
process is stopped on a machine with several CPUs the entries in use have distinct positive pids below `nextpid`,
and the unused ones pid 0 (`pids_reachable`). The entries in use are found out by what a step can do to one of
them: only `kexit`, `kwait` and `allocproc` change whether an entry is in use, and they reach a process only where
the code has tested its state.
-/

namespace Xv6Lab.Process

open Function Lib.Transition Option Event Proc ProcState

variable {ncpu : Nat} {initproc q p : Fin nproc} {s t : Sys ncpu} {a : Action ncpu}

/-! ## What an event does to one entry -/

/-- A process that can be on a CPU stays one, unless the event is its exit. -/
theorem Event.apply_live {e : Event} (hen : e.Enabled s q) (hlive : (s.proc q).state.Live)
    (hexit : e.leaves = false) : (e.apply (s.proc q)).state.Live := by
  cases e with
  | none | sendsig | kkill | wakeup | reparent =>
    exact (apply_state (by rfl) (s.proc q)).elim (fun hsame => hsame ▸ hlive) fun h => h.2
  | allocFail | alloc | thread => exact absurd hen hlive.ne_unused
  | reap => exact absurd hen hlive.ne_zombie
  | launch | resume | yield | sleep => trivial
  | kexit => cases hexit

/-- An entry is in use after an event if `allocproc` takes it and succeeds, or if it was in use and is not
reaped. -/
theorem Event.apply_pid {e : Event} (hen : e.Enabled s q) (hcpu : ∀ c, s.cpu c = some q → (s.proc q).state ≠ .unused)
    (hforked : ∀ p, s.task p = .forked q → (s.proc q).state ≠ .unused)
    (hused : (e.apply (s.proc q)).state ≠ .unused) :
    e.allocates = true ∨ (s.proc q).state ≠ .unused ∧ (e.apply (s.proc q)).pid = (s.proc q).pid := by
  cases e with
  | none | sendsig | kkill | wakeup | reparent =>
    refine .inr ⟨?_, (apply_passive (by rfl) (s.proc q)).1⟩
    exact (apply_state (by rfl) (s.proc q)).elim (fun hsame => hsame ▸ hused) fun h => h.1.ne_unused
  | allocFail | alloc | thread => exact .inl rfl
  | reap => exact absurd rfl hused
  | resume =>
    refine .inr ⟨?_, rfl⟩
    rw [show (s.proc q).state = .runnable from hen]
    exact ProcState.noConfusion
  | launch p => exact .inr ⟨hforked p hen, rfl⟩
  | yield | sleep | kexit =>
    obtain ⟨c, hc⟩ := hen
    exact .inr ⟨hcpu c hc, rfl⟩

/-- An entry that is unused after an event has pid 0, if it had it before where it was unused. -/
theorem Event.apply_unused {e : Event} (hen : e.Enabled s q) (hzero : (s.proc q).state = .unused → (s.proc q).pid = 0)
    (hunused : (e.apply (s.proc q)).state = .unused) : (e.apply (s.proc q)).pid = 0 := by
  cases e with
  | none | sendsig | kkill | wakeup | reparent =>
    refine (apply_passive (by rfl) (s.proc q)).1.trans (hzero ?_)
    exact (apply_state (by rfl) (s.proc q)).elim (fun hsame => hsame ▸ hunused) fun h => absurd hunused h.2.ne_unused
  | allocFail | reap => rfl
  | alloc | thread | launch | resume | yield | sleep | kexit => cases hunused

/-! ## CPUs, constructions and the next pid -/

/-- A section of `allocproc` takes the entry it visits, in which case it uses up a pid, or no entry at all. -/
theorem taskStep_nextpid (s : Sys ncpu) (p : Fin nproc) (k : Task) :
    (taskStep s p k).nextpid = s.nextpid + 1 ∧ (∃ q, k.entry = some q ∧ (visitEvent s p q k).allocates = true) ∨
      (taskStep s p k).nextpid = s.nextpid ∧ ∀ q, k.entry = some q → (visitEvent s p q k).allocates = false := by
  cases k with
  | none | forked => exact .inr ⟨rfl, fun _ _ => rfl⟩
  | sendsig pid signum i | kkill pid i | kwait i =>
    right
    constructor
    · rw [taskStep]
      split
      · split <;> rfl
      · rfl
    · intro q _
      rw [visitEvent]
      split <;> rfl
  | wakeup chan i =>
    right
    constructor
    · rw [taskStep]
      split
      · unfold wakeupVisit
        split <;> rfl
      · rfl
    · intro q _
      rw [visitEvent]
      split <;> rfl
  | allocproc thread mem i =>
    by_cases hi : i < nproc
    · have hentry : (Task.allocproc thread mem i).entry = some ⟨i, hi⟩ := dif_pos hi
      by_cases hfree : (s.proc ⟨i, hi⟩).state = .unused
      · left
        rw [taskStep, dif_pos hi, allocVisit, if_pos hfree]
        refine ⟨?_, ⟨i, hi⟩, hentry, ?_⟩
        · cases mem <;> cases thread <;> rfl
        · rw [visitEvent, if_pos hfree]
          cases mem <;> cases thread <;> rfl
      · right
        rw [taskStep, dif_pos hi, allocVisit, if_neg hfree]
        refine ⟨rfl, fun q hq => ?_⟩
        obtain rfl : ⟨i, hi⟩ = q := some.inj (hentry.symm.trans hq)
        rw [visitEvent, if_neg hfree]
        rfl
    · right
      rw [taskStep, dif_neg hi]
      refine ⟨rfl, fun q hq => ?_⟩
      exact absurd (tableEntry_eq_some hq ▸ q.isLt) hi

theorem ofTask_of_allocates {e : Event} (h : e.allocates = true) : e.ofTask = true := by
  cases e with
  | allocFail | alloc | thread => rfl
  | _ => cases h

/-- A step takes one entry and uses up one pid for it, or does neither. -/
theorem next_nextpid (h : next initproc s a = some t) :
    (t.nextpid = s.nextpid + 1 ∧ ∃ q, (event initproc s a q).allocates = true ∧
        ∀ r, (event initproc s a r).allocates = true → r = q) ∨
      t.nextpid = s.nextpid ∧ ∀ q, (event initproc s a q).allocates = false := by
  by_cases htask : ¬ ∃ c, a = .task c
  · refine .inr ⟨(next_other h htask).1, fun q => Bool.eq_false_iff.mpr fun halloc => htask ?_⟩
    obtain ⟨c, -, hc, -⟩ := event_ofTask (ofTask_of_allocates halloc)
    exact ⟨c, hc⟩
  obtain ⟨c, rfl⟩ := not_not.mp htask
  obtain ⟨-, p, hp, hf⟩ := onProcess_eq_some h
  cases hf
  rcases taskStep_nextpid s p (s.task p) with ⟨hpid, q, hentry, halloc⟩ | ⟨hpid, hnone⟩
  · refine .inl ⟨hpid, q, ?_, fun r hr => ?_⟩
    · rw [event_task hp, if_pos hentry]
      exact halloc
    rw [event_task hp] at hr
    split at hr
    next hr' => exact some.inj (hr'.symm.trans hentry)
    · cases hr
  · refine .inr ⟨hpid, fun q => ?_⟩
    rw [event_task hp]
    split
    next hentry => exact hnone q hentry
    · rfl

/-- The pid of the entry that `allocproc` takes. -/
theorem event_allocates_pid (halloc : (event initproc s a q).allocates = true)
    (hused : ((event initproc s a q).apply (s.proc q)).state ≠ .unused) :
    ((event initproc s a q).apply (s.proc q)).pid = s.nextpid := by
  obtain ⟨c, p, rfl, hp⟩ := event_ofTask (ofTask_of_allocates halloc)
  have hfrom := event_fromTask initproc hp q
  cases hev : event initproc s (.task c) q with
  | allocFail =>
    rw [hev] at hused
    exact absurd rfl hused
  | alloc | thread =>
    rw [hev] at hfrom
    exact hfrom
  | _ =>
    rw [hev] at halloc
    cases halloc

/-! ## The invariant -/

/-- Entries in use have distinct positive pids that were handed out before; the current processes of the CPUs and
the processes under construction are in use. -/
structure PidInv (s : Sys ncpu) : Prop where
  live : ∀ c p, s.cpu c = some p → (s.proc p).state.Live
  forked : ∀ p q, s.task p = .forked q → (s.proc q).state = .used
  one_parent : ∀ p p' q, s.task p = .forked q → s.task p' = .forked q → p = p'
  unused : ∀ q, (s.proc q).state = .unused → (s.proc q).pid = 0
  pos : ∀ q, (s.proc q).state ≠ .unused → 0 < (s.proc q).pid
  lt : ∀ q, (s.proc q).state ≠ .unused → (s.proc q).pid < s.nextpid
  distinct : ∀ q r, (s.proc q).state ≠ .unused → (s.proc r).state ≠ .unused → (s.proc q).pid = (s.proc r).pid → q = r
  nextpid : 0 < s.nextpid

theorem PidInv.cpu_used (h : PidInv s) (c : Fin ncpu) (hc : s.cpu c = some q) :
    (s.proc q).state ≠ .unused := (h.live c q hc).ne_unused

theorem PidInv.forked_used (h : PidInv s) (p : Fin nproc) (hp : s.task p = .forked q) :
    (s.proc q).state ≠ .unused := by
  rw [h.forked p q hp]
  exact noConfusion

/-- An entry in use after a step was taken by it, with the next pid, or keeps the pid it had. -/
theorem PidInv.step_pid (h : PidInv s) (ht : next initproc s a = some t) (hq : (t.proc q).state ≠ .unused) :
    (event initproc s a q).allocates = true ∧ (t.proc q).pid = s.nextpid ∨
      (s.proc q).state ≠ .unused ∧ (t.proc q).pid = (s.proc q).pid := by
  rw [next_proc ht q] at hq ⊢
  rcases apply_pid (event_enabled ht q) h.cpu_used h.forked_used hq with halloc | hold
  · exact .inl ⟨halloc, event_allocates_pid halloc hq⟩
  · exact .inr hold

/-- A process that is current on a CPU after a step can be on a CPU. -/
theorem PidInv.step_live (h : PidInv s) (hsafe : Safe s) (ht : next initproc s a = some t) {c : Fin ncpu}
    (hc : t.cpu c = some p) : (t.proc p).state.Live := by
  rw [next_proc ht p]
  rcases next_cpu ht hc with ⟨hcpu, hstay⟩ | ⟨-, hresume⟩
  · refine apply_live (event_enabled ht p) (h.live c p hcpu) (Bool.eq_false_iff.mpr fun hleave => hstay ?_)
    -- `p` leaves the CPU that runs it, which is `c`
    obtain ⟨d, hd, hcpu'⟩ := event_leaves hleave
    obtain rfl := hsafe.one_cpu c d p hcpu hcpu'
    exact hd
  · rw [hresume]
    trivial

/-- One step keeps the invariant. -/
theorem PidInv.next (h : PidInv s) (hsafe : Safe s) (ht : next initproc s a = some t) : PidInv t := by
  have hle : s.nextpid ≤ t.nextpid := by
    rcases next_nextpid ht with ⟨hpid, -⟩ | ⟨hpid, -⟩ <;> omega
  have htaken : ∀ q, (event initproc s a q).allocates = true →
      t.nextpid = s.nextpid + 1 ∧ ∀ r, (event initproc s a r).allocates = true → r = q := by
    intro q hq
    rcases next_nextpid ht with ⟨hpid, q', -, hone⟩ | ⟨-, hnone⟩
    · refine ⟨hpid, fun r hr => ?_⟩
      rw [hone r hr, hone q hq]
    · rw [hnone q] at hq
      cases hq
  obtain ⟨hforked, hone⟩ := next_constructions (fun c p hc => (h.live c p hc).ne_used) h.forked h.one_parent ht
  constructor
  · intro c p hc
    exact h.step_live hsafe ht hc
  · exact hforked
  · exact hone
  · intro q hq
    rw [next_proc ht q] at hq ⊢
    exact apply_unused (event_enabled ht q) (h.unused q) hq
  · intro q hq
    rcases h.step_pid ht hq with ⟨-, hpid⟩ | ⟨hold, hpid⟩
    · rw [hpid]
      exact h.nextpid
    · rw [hpid]
      exact h.pos q hold
  · intro q hq
    rcases h.step_pid ht hq with ⟨halloc, hpid⟩ | ⟨hold, hpid⟩
    · rw [hpid, (htaken q halloc).1]
      exact Int.lt_add_one_of_le (Int.le_refl _)
    · rw [hpid]
      exact Int.lt_of_lt_of_le (h.lt q hold) hle
  · intro q r hq hr heq
    rcases h.step_pid ht hq with ⟨halloc, hpid⟩ | ⟨hold, hpid⟩
    · rcases h.step_pid ht hr with ⟨halloc', hpid'⟩ | ⟨hold', hpid'⟩
      · exact (htaken r halloc').2 q halloc
      -- the pid of an old entry is below the one just handed out
      have hlt := h.lt r hold'
      rw [← hpid', ← heq, hpid] at hlt
      exact absurd hlt (Int.lt_irrefl _)
    · rcases h.step_pid ht hr with ⟨halloc', hpid'⟩ | ⟨hold', hpid'⟩
      · have hlt := h.lt q hold
        rw [← hpid, heq, hpid'] at hlt
        exact absurd hlt (Int.lt_irrefl _)
      · rw [hpid, hpid'] at heq
        exact h.distinct q r hold hold' heq
  · exact Int.lt_of_lt_of_le h.nextpid hle

theorem pidInv_bootSys (ncpu : Nat) (initproc : Fin nproc) : PidInv (bootSys ncpu initproc) := by
  have hother : ∀ q ≠ initproc, (bootSys ncpu initproc).proc q = zero := by
    intro q hq
    simp [bootSys, hq]
  have hinit : (bootSys ncpu initproc).proc initproc = { zero.alloc 1 with state := .runnable } := by
    simp [bootSys]
  have hused : ∀ q, ((bootSys ncpu initproc).proc q).state ≠ .unused → q = initproc := by
    intro q hq
    by_contra hne
    rw [hother q hne] at hq
    exact hq rfl
  constructor
  · intro c p hc
    cases hc
  · intro p q hp
    cases hp
  · intro p p' q hp
    cases hp
  · intro q hq
    by_cases hne : q = initproc
    · rw [hne, hinit] at hq
      cases hq
    · rw [hother q hne]
      rfl
  · intro q hq
    rw [hused q hq, hinit]
    decide
  · intro q hq
    rw [hused q hq, hinit]
    show (1 : Int) < 2
    decide
  · intro q r hq hr _
    rw [hused q hq, hused r hr]
  · show (0 : Int) < 2
    decide

/-- In every run in which no running process is stopped, or on a machine with one CPU, the pids are as above. -/
theorem pids_reachable (h : Reachable (fun s => s = bootSys ncpu initproc) (next initproc) StopGuard s) :
    PidInv s := by
  have hboth : PidInv s ∧ (ncpu ≤ 1 ∨ Inv s) := by
    apply h.invariant fun s => PidInv s ∧ (ncpu ≤ 1 ∨ Inv s)
    · rintro s rfl
      exact ⟨pidInv_bootSys ncpu initproc, .inr (inv_bootSys initproc)⟩
    rintro s a t ⟨hpid, hone | hinv⟩ hok hnext
    · exact ⟨hpid.next (safe_of_one_cpu hone s) hnext, .inl hone⟩
    refine ⟨hpid.next hinv.safe hnext, ?_⟩
    rcases hok with hone | hok
    · exact .inl hone
    · exact .inr (hinv.next a hok hnext)
  exact hboth.1

end Xv6Lab.Process
