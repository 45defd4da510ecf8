import Xv6Lab.Lib.Transition
import Xv6Lab.Process.Model

/-!
# What a step does to one table entry

Every step of the machine touches an entry of the process table in at most one of the ways listed in `Event`.
`event` says in which one, and `next_proc` that the entry then is the old one with the event applied. Properties
of single entries follow from one case analysis over the events. `next_cpu` and `next_forked` say how the current
process of a CPU and the process under construction change.
-/

namespace Xv6Lab.Process

open Function Option Sys

variable {ncpu : Nat} {initproc q p : Fin nproc} {s t : Sys ncpu} {a : Action ncpu}

inductive Event where
  | none
  | sendsig (signum : Int)
  | kkill
  | wakeup (chan : Nat)
  /-- `allocproc` takes the entry and a later allocation fails. -/
  | allocFail (pid : Int)
  /-- `allocproc` in the `kfork` of `parent`. -/
  | alloc (pid : Int) (parent : Fin nproc)
  /-- `allocproc` and the rest of the `sys_thread_create` of `parent`. -/
  | thread (pid : Int) (parent : Fin nproc)
  /-- The end of `kfork`. -/
  | launch (parent : Fin nproc)
  /-- `kwait` frees a zombie. -/
  | reap
  | resume
  | yield
  | sleep (chan : Nat)
  | kexit (status : Int) (parent : Option (Fin nproc))
  | reparent (parent : Option (Fin nproc))

/-- The entry after an event. -/
def Event.apply (x : Proc) : Event → Proc
  | .none => x
  | .sendsig signum => x.sendsig signum
  | .kkill => x.kkill
  | .wakeup chan => x.wakeup chan
  | .allocFail pid => (x.alloc pid).free
  | .alloc pid _ => x.alloc pid
  | .thread pid parent => { x.alloc pid with state := .runnable, parent := some parent }
  | .launch parent => { x with state := .runnable, parent := some parent }
  | .reap => x.free
  | .resume => x.resume
  | .yield => x.yield
  | .sleep chan => x.sleep chan
  | .kexit status parent => { x.kexit status with parent := parent }
  | .reparent parent => { x with parent := parent }

/-- Index `i` of a loop over the table. -/
def tableEntry (i : Nat) : Option (Fin nproc) := if h : i < nproc then some ⟨i, h⟩ else none

/-- The entry that the next section of a kernel thread visits. -/
def Task.entry : Task → Option (Fin nproc)
  | .none => Option.none
  | .sendsig _ _ i => tableEntry i
  | .kkill _ i => tableEntry i
  | .wakeup _ i => tableEntry i
  | .allocproc _ _ i => tableEntry i
  | .forked r => some r
  | .kwait i => tableEntry i

/-- What a section of the kernel thread of `p` does to the entry `q` it visits. -/
def visitEvent (s : Sys ncpu) (p q : Fin nproc) : Task → Event
  | .none => .none
  | .sendsig pid signum _ =>
    if (s.proc q).pid = pid ∧ (s.proc q).state ≠ .unused then .sendsig signum else .none
  | .kkill pid _ => if (s.proc q).pid = pid then .kkill else .none
  | .wakeup chan _ => if some q = some p then .none else .wakeup chan
  | .allocproc thread mem _ =>
    if (s.proc q).state = .unused then
      if mem = false then .allocFail s.nextpid
      else if thread then .thread s.nextpid p
      else .alloc s.nextpid p
    else .none
  | .forked _ => .launch p
  | .kwait _ => if (s.proc q).parent = some p ∧ (s.proc q).state = .zombie then .reap else .none

/-- The parent of entry `q` once `p` has exited. -/
def heir (initproc : Fin nproc) (s : Sys ncpu) (p q : Fin nproc) : Option (Fin nproc) :=
  if (s.proc q).parent = some p then some initproc else (s.proc q).parent

/-- What a step does to entry `q`. -/
def event (initproc : Fin nproc) (s : Sys ncpu) (a : Action ncpu) (q : Fin nproc) : Event :=
  match a with
  | .scheduler c => if picks s c = some q then .resume else .none
  | .interrupt _ _ => .none
  | .handler c =>
    match s.intr c with
    | some (chan, i) => if tableEntry i = some q ∧ some q ≠ s.cpu c then .wakeup chan else .none
    | none => .none
  | .call _ _ => .none
  | .task c =>
    match s.cpu c with
    | some p => if (s.task p).entry = some q then visitEvent s p q (s.task p) else .none
    | none => .none
  | .yield c => if s.cpu c = some q then .yield else .none
  | .sleep c chan => if s.cpu c = some q then .sleep chan else .none
  | .kexit c status =>
    match s.cpu c with
    | some p =>
      if q = p then .kexit status (heir initproc s p q) else .reparent (heir initproc s p q)
    | none => .none

section Events

variable {c : Fin ncpu}

theorem event_handler {chan i : Nat} (h : s.intr c = some (chan, i)) :
    event initproc s (.handler c) q =
      if tableEntry i = some q ∧ some q ≠ s.cpu c then .wakeup chan else .none := by
  simp only [event, h]

theorem event_task (h : s.cpu c = some p) :
    event initproc s (.task c) q =
      if (s.task p).entry = some q then visitEvent s p q (s.task p) else .none := by
  simp only [event, h]

theorem event_kexit {status : Int} (h : s.cpu c = some p) :
    event initproc s (.kexit c status) q =
      if q = p then .kexit status (heir initproc s p q) else .reparent (heir initproc s p q) := by
  simp only [event, h]

end Events

/-! ## The entry after a step -/

theorem onProcess_eq_some {c : Fin ncpu} {f : Fin nproc → Option (Sys ncpu)}
    (h : onProcess s c f = some t) : s.intr c = none ∧ ∃ p, s.cpu c = some p ∧ f p = some t := by
  obtain ⟨hintr, hbind⟩ := ite_none_right_eq_some.mp h
  exact ⟨hintr, bind_eq_some_iff.mp hbind⟩

/-- What a step can be. -/
inductive Step (initproc : Fin nproc) (s : Sys ncpu) : Action ncpu → Sys ncpu → Prop
  | scheduler (c : Fin ncpu) : Step initproc s (.scheduler c) (schedulerStep s c)
  | interrupt (c : Fin ncpu) (chan : Nat) :
      Step initproc s (.interrupt c chan) { s with intr := update s.intr c (some (chan, 0)) }
  | handler (c : Fin ncpu) {chan i : Nat} (hintr : s.intr c = some (chan, i)) :
      Step initproc s (.handler c) (handlerStep s c chan i)
  | call (c : Fin ncpu) (f : Call) (p : Fin nproc) : Step initproc s (.call c f) (s.setTask p f.task)
  | task (c : Fin ncpu) {p : Fin nproc} (hintr : s.intr c = none) (hp : s.cpu c = some p) :
      Step initproc s (.task c) (taskStep s p (s.task p))
  | yield (c : Fin ncpu) {p : Fin nproc} (hp : s.cpu c = some p) :
      Step initproc s (.yield c) ((s.setProc p (s.proc p).yield).leave c)
  | sleep (c : Fin ncpu) (chan : Nat) {p : Fin nproc} (hp : s.cpu c = some p) :
      Step initproc s (.sleep c chan) ((s.setProc p ((s.proc p).sleep chan)).leave c)
  | kexit (c : Fin ncpu) (status : Int) {p : Fin nproc} (hp : s.cpu c = some p) :
      Step initproc s (.kexit c status) (((reparent initproc p s).setProc p
        (((reparent initproc p s).proc p).kexit status)).leave c)

theorem step_of_next (h : next initproc s a = some t) :
    Step initproc s a t := by
  cases a with
  | scheduler c =>
    obtain ⟨-, rfl⟩ := ite_some_none_eq_some.mp h
    exact .scheduler c
  | interrupt c chan =>
    obtain ⟨-, rfl⟩ := ite_some_none_eq_some.mp h
    exact .interrupt c chan
  | handler c =>
    rw [next] at h
    split at h
    next hintr =>
      cases h
      exact .handler c hintr
    · cases h
  | call c f =>
    obtain ⟨-, p, -, hf⟩ := onProcess_eq_some h
    obtain ⟨-, rfl⟩ := ite_some_none_eq_some.mp hf
    exact .call c f p
  | task c =>
    obtain ⟨hintr, p, hp, hf⟩ := onProcess_eq_some h
    cases hf
    exact .task c hintr hp
  | yield c =>
    obtain ⟨-, p, hp, hf⟩ := onProcess_eq_some h
    cases hf
    exact .yield c hp
  | sleep c chan =>
    obtain ⟨-, p, hp, hf⟩ := onProcess_eq_some h
    obtain ⟨-, rfl⟩ := ite_some_none_eq_some.mp hf
    exact .sleep c chan hp
  | kexit c status =>
    obtain ⟨-, p, hp, hf⟩ := onProcess_eq_some h
    obtain ⟨-, rfl⟩ := ite_some_none_eq_some.mp hf
    exact .kexit c status hp

theorem tableEntry_eq_some {i : Nat} (h : tableEntry i = some q) : i = q.val := by
  unfold tableEntry at h
  split at h
  · exact congrArg Fin.val (some.inj h)
  · cases h

theorem wakeupVisit_self (s : Sys ncpu) (me : Option (Fin nproc)) (chan : Nat) (q : Fin nproc) :
    (wakeupVisit s me chan q).proc q = (if some q = me then Event.none else .wakeup chan).apply (s.proc q) := by
  unfold wakeupVisit
  split
  · rfl
  · exact setProc_proc_self ..

theorem wakeupVisit_ne (s : Sys ncpu) (me : Option (Fin nproc)) (chan : Nat) {i : Fin nproc}
    (h : q ≠ i) : (wakeupVisit s me chan i).proc q = s.proc q := by
  unfold wakeupVisit
  split
  · rfl
  · exact setProc_proc_ne _ _ h

theorem wakeupVisit_task (s : Sys ncpu) (me : Option (Fin nproc)) (chan : Nat) (i : Fin nproc) :
    (wakeupVisit s me chan i).task = s.task := by
  unfold wakeupVisit
  split <;> rfl

/-- A section and the entry it visits. -/
theorem taskStep_entry {k : Task} (h : k.entry = some q) :
    (taskStep s p k).proc q = (visitEvent s p q k).apply (s.proc q) := by
  cases k with
  | none => cases h
  | sendsig | kkill | kwait =>
    obtain rfl := tableEntry_eq_some h
    rw [taskStep, dif_pos q.isLt, visitEvent]
    split
    · exact setProc_proc_self ..
    · rfl
  | wakeup chan i =>
    obtain rfl := tableEntry_eq_some h
    rw [taskStep, dif_pos q.isLt, visitEvent]
    exact wakeupVisit_self s (some p) chan q
  | allocproc thread mem i =>
    obtain rfl := tableEntry_eq_some h
    rw [taskStep, dif_pos q.isLt, visitEvent, allocVisit]
    split
    · cases mem with
      | false => exact setProc_proc_self ..
      | true =>
        cases thread with
        | true | false => exact setProc_proc_self ..
    · rfl
  | forked r =>
    obtain rfl : r = q := some.inj h
    exact setProc_proc_self ..

/-- A section leaves the other entries alone. -/
theorem taskStep_other {k : Task} (h : k.entry ≠ some q) : (taskStep s p k).proc q = s.proc q := by
  have hne : ∀ i (hi : i < nproc), tableEntry i ≠ some q → q ≠ ⟨i, hi⟩ := by
    rintro i hi hentry rfl
    exact hentry (dif_pos hi)
  cases k with
  | none => rfl
  | sendsig pid signum i | kkill pid i | kwait i =>
    rw [taskStep]
    split
    next hi =>
      split
      · exact setProc_proc_ne _ _ (hne i hi h)
      · rfl
    · rfl
  | wakeup chan i =>
    rw [taskStep]
    split
    next hi => exact wakeupVisit_ne s _ chan (hne i hi h)
    · rfl
  | allocproc thread mem i =>
    rw [taskStep]
    split
    next hi =>
      unfold allocVisit
      split
      · cases mem with
        | false => exact setProc_proc_ne _ _ (hne i hi h)
        | true =>
          cases thread with
          | true | false => exact setProc_proc_ne _ _ (hne i hi h)
      · rfl
    · rfl
  | forked r => exact setProc_proc_ne _ _ fun hq => h (congrArg some hq.symm)

theorem handlerStep_proc (s : Sys ncpu) (c : Fin ncpu) (chan i : Nat) (q : Fin nproc) :
    (handlerStep s c chan i).proc q =
      (if tableEntry i = some q ∧ some q ≠ s.cpu c then Event.wakeup chan else .none).apply (s.proc q) := by
  unfold handlerStep
  split
  next hi =>
    by_cases hq : q = ⟨i, hi⟩
    · subst hq
      refine (wakeupVisit_self s (s.cpu c) chan _).trans ?_
      by_cases hme : some ⟨i, hi⟩ = s.cpu c
      · rw [if_pos hme, if_neg fun h => h.2 hme]
      · rw [if_neg hme, if_pos ⟨dif_pos hi, hme⟩]
    · rw [if_neg fun h => hq (Fin.ext (tableEntry_eq_some h.1).symm)]
      exact wakeupVisit_ne s _ chan hq
  next hi =>
    have hne : ¬ (tableEntry i = some q ∧ some q ≠ s.cpu c) := by
      rintro ⟨hentry, -⟩
      exact hi (tableEntry_eq_some hentry ▸ q.isLt)
    rw [if_neg hne]
    rfl

/-- The process of CPU `c` gives it up. -/
theorem leave_proc (s : Sys ncpu) (c : Fin ncpu) (x : Proc) (e : Event)
    (hc : s.cpu c = some p) (he : e.apply (s.proc p) = x) :
    ((s.setProc p x).leave c).proc q = (if s.cpu c = some q then e else .none).apply (s.proc q) := by
  show (s.setProc p x).proc q = _
  rcases eq_or_ne q p with rfl | hq
  · rw [if_pos hc, setProc_proc_self, he]
  · rw [if_neg fun h => hq (some.inj (h.symm.trans hc)), setProc_proc_ne s x hq]
    rfl

theorem schedulerStep_proc (s : Sys ncpu) (c : Fin ncpu) (q : Fin nproc) :
    (schedulerStep s c).proc q = (if picks s c = some q then Event.resume else .none).apply (s.proc q) := by
  unfold schedulerStep
  cases picks s c with
  | none =>
    rw [if_neg (some_ne_none q).symm]
    rfl
  | some p =>
    rcases eq_or_ne q p with rfl | hq
    · rw [if_pos rfl]
      exact setProc_proc_self ..
    · rw [if_neg fun h => hq (some.inj h).symm]
      exact setProc_proc_ne _ _ hq

theorem reparent_proc (initproc : Fin nproc) (s : Sys ncpu) (p q : Fin nproc) :
    (reparent initproc p s).proc q = { s.proc q with parent := heir initproc s p q } := by
  unfold reparent adoptAll heir
  dsimp only
  split <;> rfl

/-- The entry after a step is the old one with the event of the step applied. -/
theorem next_proc (h : next initproc s a = some t) (q : Fin nproc) :
    t.proc q = (event initproc s a q).apply (s.proc q) := by
  cases step_of_next h with
  | scheduler c => exact schedulerStep_proc s c q
  | interrupt c chan | call c f p => rfl
  | handler c hintr =>
    rw [event_handler hintr]
    exact handlerStep_proc s c _ _ q
  | task c hintr hp =>
    rw [event_task hp]
    split
    next hentry => exact taskStep_entry hentry
    next hentry => exact taskStep_other hentry
  | yield c hp => exact leave_proc s c _ .yield hp rfl
  | sleep c chan hp => exact leave_proc s c _ (.sleep chan) hp rfl
  | @kexit c status p hp =>
    rw [event_kexit hp]
    show ((reparent initproc p s).setProc p _).proc q = _
    rcases eq_or_ne q p with rfl | hq
    · rw [setProc_proc_self, reparent_proc, if_pos rfl]
      rfl
    · rw [setProc_proc_ne _ _ hq, reparent_proc, if_neg hq]
      rfl

/-- What holds of an entry when an event reaches it. -/
def Event.Enabled (s : Sys ncpu) (q : Fin nproc) : Event → Prop
  | .sendsig _ => (s.proc q).state ≠ .unused
  | .allocFail _ | .alloc _ _ | .thread _ _ => (s.proc q).state = .unused
  | .launch p => s.task p = .forked q
  | .reap => (s.proc q).state = .zombie
  | .resume => (s.proc q).state = .runnable
  | .yield | .sleep _ | .kexit _ _ => ∃ c, s.cpu c = some q
  | .reparent parent => (s.proc q).parent = Option.none → parent = Option.none
  | _ => True

theorem visitEvent_enabled (h : (s.task p).entry = some q) : (visitEvent s p q (s.task p)).Enabled s q := by
  cases hk : s.task p with
  | none => trivial
  | sendsig | kwait =>
    rw [visitEvent]
    split
    next hmatch => exact hmatch.2
    · trivial
  | kkill | wakeup =>
    rw [visitEvent]
    split <;> trivial
  | allocproc thread mem i =>
    rw [visitEvent]
    split
    next hfree =>
      cases mem with
      | false => exact hfree
      | true =>
        cases thread with
        | true | false => exact hfree
    · trivial
  | forked r =>
    rw [hk] at h
    obtain rfl : r = q := some.inj h
    exact hk

/-- Events come only where the code tests for them. -/
theorem event_enabled (h : next initproc s a = some t) (q : Fin nproc) : (event initproc s a q).Enabled s q := by
  cases step_of_next h with
  | scheduler c =>
    rw [event]
    split
    next hpick =>
      obtain ⟨⟨-, -, hrunnable⟩, rfl⟩ := ite_some_none_eq_some.mp hpick
      exact hrunnable
    · trivial
  | interrupt | call => trivial
  | handler c hintr =>
    rw [event_handler hintr]
    split <;> trivial
  | task c hintr hp =>
    rw [event_task hp]
    split
    next hentry => exact visitEvent_enabled hentry
    · trivial
  | yield c | sleep c =>
    rw [event]
    split
    next hc => exact ⟨c, hc⟩
    · trivial
  | kexit c status hp =>
    rw [event_kexit hp]
    split
    next hq => exact ⟨c, hq ▸ hp⟩
    · intro hnone
      rw [heir, hnone, if_neg (some_ne_none _).symm]

/-! ## States -/

/-- The process can be on a CPU: neither unused, nor under construction, nor a zombie. -/
def ProcState.Live : ProcState → Prop
  | .sleeping | .runnable | .running => True
  | .unused | .used | .zombie => False

theorem ProcState.Live.ne_unused {x : ProcState} (h : x.Live) : x ≠ .unused := by
  rintro rfl
  exact h

theorem ProcState.Live.ne_used {x : ProcState} (h : x.Live) : x ≠ .used := by
  rintro rfl
  exact h

theorem ProcState.Live.ne_zombie {x : ProcState} (h : x.Live) : x ≠ .zombie := by
  rintro rfl
  exact h

/-- A signal wakes a sleeper, signal 2 stops a process that can be scheduled, or the state stays. -/
theorem Proc.sendsig_cases (p : Proc) (signum : Int) : (p.sendsig signum).state = p.state ∨
    p.state = .sleeping ∧ (p.sendsig signum).state = .runnable ∨
    signum = 2 ∧ (p.state = .runnable ∨ p.state = .running) ∧ (p.sendsig signum).state = .sleeping := by
  by_cases h2 : signum = 2
  · subst h2
    by_cases hrun : p.state = .runnable ∨ p.state = .running
    · exact .inr (.inr ⟨rfl, hrun, if_pos hrun⟩)
    · exact .inl (if_neg hrun)
  · unfold Proc.sendsig
    by_cases hsleep : p.state = .sleeping
    · by_cases hwake : signum = 1 ∨ signum = 3
      · exact .inr (.inl ⟨hsleep, by rcases hwake with rfl | rfl <;> exact if_pos hsleep⟩)
      · simp [not_or.mp hwake, h2]
    · simp [hsleep, h2, apply_ite Proc.state]

/-- Signals, wakeups and a new parent. -/
def Event.passive : Event → Bool
  | .none | .sendsig _ | .kkill | .wakeup _ | .reparent _ => true
  | _ => false

theorem Event.apply_passive {e : Event} (he : e.passive = true) (x : Proc) : (e.apply x).pid = x.pid ∧
    ((e.apply x).state = x.state ∨ x.state = .sleeping ∧ (e.apply x).state = .runnable ∨
      e = .sendsig 2 ∧ (x.state = .runnable ∨ x.state = .running) ∧ (e.apply x).state = .sleeping) := by
  cases e with
  | none | reparent => exact ⟨rfl, .inl rfl⟩
  | sendsig signum =>
    constructor
    · simp only [apply, Proc.sendsig]
      split
      · rfl
      · split
        · rfl
        · split <;> rfl
    · exact (x.sendsig_cases signum).imp_right (Or.imp_right fun h => ⟨congrArg _ h.1, h.2⟩)
  | kkill =>
    by_cases h : x.state = .sleeping
    · exact ⟨rfl, .inr (.inl ⟨h, if_pos h⟩)⟩
    · exact ⟨rfl, .inl (if_neg h)⟩
  | wakeup chan =>
    rw [apply, Proc.wakeup]
    split
    next h => exact ⟨rfl, .inr (.inl ⟨h.1, rfl⟩)⟩
    · exact ⟨rfl, .inl rfl⟩
  | _ => cases he

/-- They change only the state of a process that can be on a CPU, to another such state. -/
theorem Event.apply_state {e : Event} (he : e.passive = true) (x : Proc) :
    (e.apply x).state = x.state ∨ x.state.Live ∧ (e.apply x).state.Live := by
  rcases (apply_passive he x).2 with hsame | ⟨hx, h⟩ | ⟨-, hx, h⟩
  · exact .inl hsame
  · rw [hx, h]
    exact .inr ⟨trivial, trivial⟩
  · rw [h]
    refine .inr ⟨?_, trivial⟩
    rcases hx with hx | hx <;> rw [hx] <;> trivial

theorem Event.apply_eq {e : Event} (he : e.passive = true) {x : Proc} {y : ProcState} (hy : ¬ y.Live)
    (h : (e.apply x).state = y) : x.state = y :=
  (apply_state he x).elim (fun hsame => hsame.symm.trans h) fun hlive => absurd (h ▸ hlive.2) hy

/-! ## Where events come from -/

/-- The current process gives up its CPU. -/
def Event.leaves : Event → Bool
  | .yield | .sleep _ | .kexit _ _ => true
  | _ => false

/-- The current process of `c` gives it up. -/
def Action.leaves (c : Fin ncpu) : Action ncpu → Prop
  | .yield d | .sleep d _ | .kexit d _ => c = d
  | _ => False

/-- Events of sections of a task only. -/
def Event.ofTask : Event → Bool
  | .sendsig _ | .kkill | .allocFail _ | .alloc _ _ | .thread _ _ | .launch _ | .reap => true
  | _ => false

/-- What an event of a section of `p` says about its task. -/
def Event.FromTask (s : Sys ncpu) (p q : Fin nproc) : Event → Prop
  | .sendsig signum => s.task p = .sendsig (s.proc q).pid signum q
  | .allocFail pid | .alloc pid _ | .thread pid _ => pid = s.nextpid
  | .launch r => r = p
  | e => e.leaves = false

theorem event_fromTask (initproc : Fin nproc) {c : Fin ncpu} (hp : s.cpu c = some p) (q : Fin nproc) :
    (event initproc s (.task c) q).FromTask s p q := by
  rw [event_task hp]
  split
  next hentry =>
    cases hk : s.task p with
    | none | forked => rfl
    | sendsig pid signum i =>
      rw [hk] at hentry
      obtain rfl := tableEntry_eq_some hentry
      rw [visitEvent]
      split
      next h =>
        obtain rfl := h.1
        exact hk
      · rfl
    | kkill | wakeup | kwait =>
      rw [visitEvent]
      split <;> rfl
    | allocproc thread mem i =>
      rw [visitEvent]
      split
      · cases mem <;> cases thread <;> rfl
      · rfl
  · rfl

/-- An event of a task comes from a section of a task. -/
theorem event_ofTask (h : (event initproc s a q).ofTask = true) : ∃ c p, a = .task c ∧ s.cpu c = some p := by
  cases a with
  | task c =>
    cases hc : s.cpu c with
    | none => simp [event, hc, Event.ofTask] at h
    | some p => exact ⟨c, p, rfl, hc⟩
  | _ =>
    simp only [event] at h
    repeat' split at h
    all_goals cases h

/-- A process gives up the CPU that runs it. -/
theorem event_leaves (h : (event initproc s a p).leaves = true) : ∃ c, a.leaves c ∧ s.cpu c = some p := by
  cases a with
  | scheduler | interrupt | handler | call =>
    simp only [event] at h
    repeat' split at h
    all_goals cases h
  | yield c | sleep c =>
    rw [event] at h
    split at h
    next hc => exact ⟨c, rfl, hc⟩
    · cases h
  | task c =>
    cases hc : s.cpu c with
    | none => simp [event, hc, Event.leaves] at h
    | some r =>
      have hfrom := event_fromTask initproc hc p
      cases hev : event initproc s (.task c) p with
      | yield | sleep | kexit =>
        rw [hev] at hfrom
        cases hfrom
      | _ =>
        rw [hev] at h
        cases h
  | kexit c status =>
    cases hc : s.cpu c with
    | none => simp [event, hc, Event.leaves] at h
    | some r =>
      rw [event_kexit hc] at h
      split at h
      next hpr => exact ⟨c, rfl, hpr ▸ hc⟩
      · cases h

/-! ## CPUs and constructions -/

theorem taskStep_cpu (s : Sys ncpu) (p : Fin nproc) (k : Task) : (taskStep s p k).cpu = s.cpu := by
  unfold taskStep wakeupVisit allocVisit
  repeat' split
  all_goals rfl

/-- The current process of a CPU after a step was its current process before, and has not left it, or was picked by
the scheduler. -/
theorem next_cpu (h : next initproc s a = some t) {c : Fin ncpu} (hc : t.cpu c = some p) :
    s.cpu c = some p ∧ ¬ a.leaves c ∨ a = .scheduler c ∧ event initproc s a p = .resume := by
  have hleave : ∀ {x : Sys ncpu} {d : Fin ncpu}, x.cpu = s.cpu → (x.leave d).cpu c = some p →
      s.cpu c = some p ∧ c ≠ d := by
    intro x d hx hcpu
    have hcpu : update x.cpu d none c = some p := hcpu
    rcases eq_or_ne c d with rfl | hcd
    · rw [update_self] at hcpu
      cases hcpu
    · rw [update_of_ne hcd, hx] at hcpu
      exact ⟨hcpu, hcd⟩
  cases step_of_next h with
  | scheduler d =>
    unfold schedulerStep at hc
    cases hpick : picks s d with
    | none =>
      rw [hpick] at hc
      exact .inl ⟨hc, id⟩
    | some q =>
      rw [hpick] at hc
      have hc : update s.cpu d (some q) c = some p := hc
      rcases eq_or_ne c d with rfl | hcd
      · rw [update_self] at hc
        obtain rfl : q = p := some.inj hc
        exact .inr ⟨rfl, if_pos hpick⟩
      · rw [update_of_ne hcd] at hc
        exact .inl ⟨hc, id⟩
  | interrupt | call => exact .inl ⟨hc, id⟩
  | handler d hintr =>
    refine .inl ⟨?_, id⟩
    unfold handlerStep wakeupVisit at hc
    split at hc
    · split at hc <;> exact hc
    · exact hc
  | task d =>
    rw [taskStep_cpu] at hc
    exact .inl ⟨hc, id⟩
  | yield | sleep | kexit => exact .inl (hleave rfl hc)

/-- The process under construction after a section: it was so before, or the section has just taken it. -/
theorem taskStep_forked {r : Fin nproc} (h : (taskStep s r (s.task r)).task p = .forked q) :
    p ≠ r ∧ s.task p = .forked q ∨
      p = r ∧ (s.task r).entry = some q ∧ visitEvent s r q (s.task r) = .alloc s.nextpid r := by
  have hset : ∀ {x : Sys ncpu} {k : Task}, x.task = s.task → (∀ q', k ≠ .forked q') →
      (x.setTask r k).task p = .forked q → p ≠ r ∧ s.task p = .forked q := by
    intro x k hx hk hp
    rcases eq_or_ne p r with rfl | hpr
    · rw [Sys.setTask_task_self] at hp
      exact absurd hp (hk q)
    · rw [Sys.setTask_task_ne _ _ hpr, hx] at hp
      exact ⟨hpr, hp⟩
  cases hk : s.task r with
  | none =>
    rw [hk] at h
    have hp : s.task p = .forked q := h
    refine .inl ⟨?_, hp⟩
    rintro rfl
    rw [hk] at hp
    cases hp
  | forked r' =>
    rw [hk] at h
    exact .inl (hset rfl (by simp) h)
  | sendsig pid signum i | kkill pid i | kwait i =>
    rw [hk, taskStep] at h
    split at h
    · split at h
      · exact .inl (hset rfl (by simp) h)
      · exact .inl (hset rfl (by simp) h)
    · exact .inl (hset rfl (by simp) h)
  | wakeup chan i =>
    rw [hk, taskStep] at h
    split at h
    next hi => exact .inl (hset (wakeupVisit_task s (some r) chan ⟨i, hi⟩) (by simp) h)
    · exact .inl (hset rfl (by simp) h)
  | allocproc thread mem i =>
    rw [hk, taskStep] at h
    split at h
    next hi =>
      rw [allocVisit] at h
      split at h
      next hfree =>
        cases mem with
        | false => exact .inl (hset rfl (by simp) h)
        | true =>
          cases thread with
          | true => exact .inl (hset rfl (by simp) h)
          | false =>
            rcases eq_or_ne p r with rfl | hpr
            · have hq : Task.forked ⟨i, hi⟩ = .forked q := (Sys.setTask_task_self ..).symm.trans h
              injection hq with hq
              subst hq
              refine .inr ⟨rfl, dif_pos hi, ?_⟩
              rw [visitEvent, if_pos hfree]
              rfl
            · exact .inl ⟨hpr, (Sys.setTask_task_ne _ _ hpr).symm.trans h⟩
      · exact .inl (hset rfl (by simp) h)
    · exact .inl (hset rfl (by simp) h)

/-- The steps that leave all kernel threads and the next pid alone. -/
theorem next_other (h : next initproc s a = some t) (htask : ¬ ∃ c, a = .task c) :
    t.nextpid = s.nextpid ∧ ∀ p q, t.task p = .forked q → s.task p = .forked q := by
  cases step_of_next h with
  | scheduler c =>
    constructor
    · unfold schedulerStep
      split <;> rfl
    · intro p q hp
      unfold schedulerStep at hp
      split at hp <;> exact hp
  | interrupt | yield | sleep | kexit => exact ⟨rfl, fun _ _ hp => hp⟩
  | handler c hintr =>
    constructor
    · unfold handlerStep wakeupVisit
      split
      · split <;> rfl
      · rfl
    · intro p q hp
      unfold handlerStep wakeupVisit at hp
      split at hp
      · split at hp <;> exact hp
      · exact hp
  | call c f r =>
    refine ⟨rfl, fun p q hp => ?_⟩
    rcases eq_or_ne p r with rfl | hpr
    · rw [setTask_task_self] at hp
      cases f with
      | sendsig pid signum =>
        rw [Call.task] at hp
        split at hp <;> cases hp
      | _ => cases hp
    · rwa [setTask_task_ne _ _ hpr] at hp
  | task c => exact absurd ⟨c, rfl⟩ htask

/-- The process under construction by `p` after a step: it was so before and the step does not end it, or the step
has just taken it. -/
theorem next_forked (h : next initproc s a = some t) (hp : t.task p = .forked q) :
    (s.task p = .forked q ∧ ∀ q', event initproc s a q' ≠ .launch p) ∨ event initproc s a q = .alloc s.nextpid p := by
  by_cases htask : ∃ c, a = .task c
  · obtain ⟨c, rfl⟩ := htask
    obtain ⟨-, r, hr, hf⟩ := onProcess_eq_some h
    cases hf
    rcases taskStep_forked hp with ⟨hne, hold⟩ | ⟨rfl, hentry, hvisit⟩
    · refine .inl ⟨hold, fun q' hev => hne ?_⟩
      have hfrom := event_fromTask initproc hr q'
      rw [hev] at hfrom
      exact hfrom
    · right
      rw [event_task hr, if_pos hentry, hvisit]
  · refine .inl ⟨(next_other h htask).2 p q hp, fun q' hev => htask ?_⟩
    have hof : (event initproc s a q').ofTask = true := by
      rw [hev]
      rfl
    obtain ⟨c, -, hc, -⟩ := event_ofTask hof
    exact ⟨c, hc⟩

/-- Processes under construction stay so, each with one parent, if no CPU runs one. -/
theorem next_constructions (hcpu : ∀ c p, s.cpu c = some p → (s.proc p).state ≠ .used)
    (hforked : ∀ p q, s.task p = .forked q → (s.proc q).state = .used)
    (hone : ∀ p p' q, s.task p = .forked q → s.task p' = .forked q → p = p') (ht : next initproc s a = some t) :
    (∀ p q, t.task p = .forked q → (t.proc q).state = .used) ∧
      ∀ p p' q, t.task p = .forked q → t.task p' = .forked q → p = p' := by
  -- an entry under construction is not free for `allocproc`
  have hfree : ∀ p p' q, s.task p = .forked q → event initproc s a q ≠ .alloc s.nextpid p' := by
    intro p p' q hp hev
    have hen := event_enabled ht q
    rw [hev] at hen
    cases (hforked p q hp).symm.trans hen
  constructor
  · intro p q hp
    rw [next_proc ht q]
    rcases next_forked ht hp with ⟨hold, hlaunch⟩ | halloc
    · have hused := hforked p q hold
      have hen := event_enabled ht q
      cases hev : event initproc s a q with
      | none | sendsig | kkill | wakeup | reparent =>
        exact (Event.apply_state (by rfl) (s.proc q)).elim (fun h => h.trans hused) fun h => absurd hused h.1.ne_used
      | allocFail | alloc | thread | reap | resume =>
        rw [hev] at hen
        cases hused.symm.trans hen
      | launch p' =>
        rw [hev] at hen
        obtain rfl := hone p p' q hold hen
        exact absurd hev (hlaunch q)
      | yield | sleep | kexit =>
        rw [hev] at hen
        obtain ⟨c, hc⟩ := hen
        exact absurd hused (hcpu c q hc)
    · rw [halloc]
      rfl
  · intro p p' q hp hp'
    rcases next_forked ht hp with ⟨hold, -⟩ | halloc
    · rcases next_forked ht hp' with ⟨hold', -⟩ | halloc'
      · exact hone p p' q hold hold'
      · exact absurd halloc' (hfree p p' q hold)
    · rcases next_forked ht hp' with ⟨hold', -⟩ | halloc'
      · exact absurd halloc (hfree p' p q hold')
      · rw [halloc] at halloc'
        injection halloc'

/-- The first CPU of a machine with two. -/
def cpu0 : Fin 2 := ⟨0, Nat.zero_lt_two⟩

/-- The second CPU of a machine with two. -/
def cpu1 : Fin 2 := ⟨1, Nat.one_lt_two⟩

end Xv6Lab.Process
