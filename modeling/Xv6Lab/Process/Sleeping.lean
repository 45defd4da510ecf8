import Xv6Lab.Process.Model

/-!
# Sleep and wakeup

`sleep`, `wakeup`, `acquiresleep` and `releasesleep` of any number of processes, with `yield`, the scheduler, `kkill`
and `sys_sendsig(pid, 3)`, and `wakeup` by interrupt handlers of CPUs that run no process. Each condition lock `lk`
and each `p->lock` is taken and released in a step of its own, except where a section under `p->lock` touches nothing
but that process. `p->lock` is kept over several steps in one place only: inside `sleep`, from before the release of
`lk` to the switch (`lockBusy`). A handler that interrupts a process runs as part of that process.

`woken p` records that a `wakeup` on the channel of the current `sleep` of `p` has completed since that `sleep`
released its condition lock; `holds p l` that `acquiresleep(l)` has granted the sleep lock to `p`. `Inv` says
what holds at each place of a process, and `Inv.step` what a step of one process has to keep of it.
-/

namespace Xv6Lab.Process.Sleeping

open Function Option

/-- What a process sleeps on: a condition, or a sleep lock. -/
inductive Chan (C S : Type) where
  | cond (c : C)
  | sleeplock (l : S)
  deriving DecidableEq

/-- Condition locks, and the spin lock inside each sleep lock. -/
inductive Lock (L S : Type) where
  | cond (l : L)
  | sleeplock (l : S)
  deriving DecidableEq

/-- Who holds a lock: a process, or an interrupt handler on a CPU without one. -/
inductive Agent (n m : Nat) where
  | proc (p : Fin n)
  | cpu (c : Fin m)
  deriving DecidableEq

/-- Where a process stands. -/
inductive Pc (C S : Type) where
  | run
  | inYield
  /-- `sleep` is about to take `p->lock` -/
  | sleepEnter (c : Chan C S)
  /-- `sleep` has `p->lock` and is about to release `lk` -/
  | sleepUnlock (c : Chan C S)
  /-- `sleep` has released `lk` and is about to set the state and switch -/
  | sleepSwitch (c : Chan C S)
  | inSleep (c : Chan C S)
  /-- `sleep` is about to take `lk` again -/
  | relock (c : Chan C S)
  | wakeup (c : Chan C S) (i : Nat)
  /-- `acquiresleep` is about to look at `locked` -/
  | acqTest (l : S)
  /-- `acquiresleep` has seen that `locked` is 0 -/
  | acqSet (l : S)
  | acqDone (l : S)
  | relClear (l : S)
  deriving DecidableEq

structure State (n m : Nat) (C L S : Type) where
  state : Fin n → ProcState
  chan : Fin n → Option (Chan C S)
  killed : Fin n → Bool
  pc : Fin n → Pc C S
  /-- The `wakeup` loop of an interrupt handler. -/
  intr : Fin m → Option (Chan C S × Nat)
  held : Lock L S → Option (Agent n m)
  locked : S → Bool
  holds : Fin n → S → Bool
  woken : Fin n → Bool

inductive Action (n m : Nat) (C L S : Type) where
  | acquire (p : Fin n) (l : L)
  | release (a : Agent n m) (l : Lock L S)
  | sleep (p : Fin n) (c : C)
  | wakeup (p : Fin n) (c : C)
  | acquiresleep (p : Fin n) (l : S)
  | releasesleep (p : Fin n) (l : S)
  | step (p : Fin n)
  | yield (p : Fin n)
  | schedule (p : Fin n)
  | kkill (p : Fin n)
  | sigcont (p : Fin n)
  | intr (c : Fin m) (ch : C)
  | intrStep (c : Fin m)

section Model

variable {n m : Nat} {C L S : Type} [DecidableEq C] [DecidableEq L] [DecidableEq S]

/-- The condition lock of a channel. -/
def Chan.lock (lockOf : C → L) : Chan C S → Lock L S
  | .cond c => .cond (lockOf c)
  | .sleeplock l => .sleeplock l

namespace State

def setPc (s : State n m C L S) (p : Fin n) (x : Pc C S) : State n m C L S :=
  { s with pc := update s.pc p x }

def setHeld (s : State n m C L S) (l : Lock L S) (a : Option (Agent n m)) : State n m C L S :=
  { s with held := update s.held l a }

def setState (s : State n m C L S) (p : Fin n) (x : ProcState) : State n m C L S :=
  { s with state := update s.state p x }

def setChan (s : State n m C L S) (p : Fin n) (c : Option (Chan C S)) : State n m C L S :=
  { s with chan := update s.chan p c }

/-- A new call of `sleep`. -/
def startSleep (s : State n m C L S) (p : Fin n) (c : Chan C S) : State n m C L S :=
  { s.setPc p (.sleepEnter c) with woken := update s.woken p false }

/-- `p->lock` is held by the `sleep` of `p`. -/
def lockBusy (s : State n m C L S) (p : Fin n) : Bool :=
  match s.pc p with
  | .sleepUnlock _ => true
  | .sleepSwitch _ => true
  | _ => false

/-- The `sleep` of `p` on `c` has released `lk` and not returned from the switch. -/
def inside (s : State n m C L S) (p : Fin n) (c : Chan C S) : Bool :=
  match s.pc p with
  | .sleepSwitch c' => c' = c
  | .inSleep c' => c' = c
  | _ => false

/-- The progress of an agent in `wakeup`. -/
def setWaking (s : State n m C L S) (w : Option (Chan C S × Nat)) : Agent n m → State n m C L S
  | .proc p => s.setPc p (match w with
      | some (c, i) => .wakeup c i
      | none => .run)
  | .cpu c => { s with intr := update s.intr c w }

/-- `if(p->state == SLEEPING) p->state = RUNNABLE`, if also `b`. -/
def rouse (s : State n m C L S) (p : Fin n) (b : Bool) : State n m C L S :=
  if s.state p = .sleeping ∧ b then s.setState p .runnable else s

end State

/-- The loop of `wakeup(c)` at entry `i`. -/
def wakeStep (s : State n m C L S) (a : Agent n m) (c : Chan C S) (i : Nat) : Option (State n m C L S) :=
  if h : i < n then
    if a = .proc ⟨i, h⟩ then some (s.setWaking (some (c, i + 1)) a)
    else if s.lockBusy ⟨i, h⟩ then none
    else some ((s.rouse ⟨i, h⟩ (s.chan ⟨i, h⟩ = some c)).setWaking (some (c, i + 1)) a)
  else some (({ s with woken := fun p => s.woken p || s.inside p c }).setWaking none a)

/-- The next step of a process inside one of the functions. -/
def stepProc (lockOf : C → L) (s : State n m C L S) (p : Fin n) : Option (State n m C L S) :=
  match s.pc p with
  | .run => none
  | .inYield => none
  | .inSleep _ => none
  | .sleepEnter c => some (s.setPc p (.sleepUnlock c))
  | .sleepUnlock c => some ((s.setHeld (c.lock lockOf) none).setPc p (.sleepSwitch c))
  | .sleepSwitch c => some (((s.setChan p (some c)).setState p .sleeping).setPc p (.inSleep c))
  | .relock c =>
    if s.held (c.lock lockOf) = none then
      some ((s.setHeld (c.lock lockOf) (some (.proc p))).setPc p (match c with
        | .cond _ => .run
        | .sleeplock l => .acqTest l))
    else none
  | .wakeup c i => wakeStep s (.proc p) c i
  | .acqTest l =>
    some (if s.locked l then s.startSleep p (.sleeplock l) else s.setPc p (.acqSet l))
  | .acqSet l =>
    some ({ s with
      locked := update s.locked l true
      holds := update s.holds p (update (s.holds p) l true) }.setPc p (.acqDone l))
  | .acqDone l => some ((s.setHeld (.sleeplock l) none).setPc p .run)
  | .relClear l =>
    some ({ s with
      locked := update s.locked l false
      holds := update s.holds p (update (s.holds p) l false) }.setPc p (.wakeup (.sleeplock l) 0))

/-- The scheduler switches to a process; in `sleep` it clears its channel and releases `p->lock`. -/
def resume (s : State n m C L S) (p : Fin n) : State n m C L S :=
  match s.pc p with
  | .inSleep c => ((s.setState p .running).setChan p none).setPc p (.relock c)
  | .inYield => (s.setState p .running).setPc p .run
  | _ => s.setState p .running

/-- A process on a CPU outside the functions. -/
def State.free (s : State n m C L S) (p : Fin n) : Prop := s.state p = .running ∧ s.pc p = .run

instance State.decidableFree (s : State n m C L S) (p : Fin n) : Decidable (s.free p) :=
  inferInstanceAs (Decidable (_ ∧ _))

def next (lockOf : C → L) (s : State n m C L S) : Action n m C L S → Option (State n m C L S)
  | .acquire p l =>
    if s.free p ∧ s.held (.cond l) = none then some (s.setHeld (.cond l) (some (.proc p))) else none
  | .release (.proc p) l =>
    if s.free p ∧ s.held l = some (.proc p) then some (s.setHeld l none) else none
  | .release (.cpu c) l =>
    if s.intr c = none ∧ s.held l = some (.cpu c) then some (s.setHeld l none) else none
  | .sleep p c =>
    if s.free p ∧ s.held (.cond (lockOf c)) = some (.proc p) then some (s.startSleep p (.cond c)) else none
  | .wakeup p c =>
    if s.free p ∧ s.held (.cond (lockOf c)) = some (.proc p) then some (s.setPc p (.wakeup (.cond c) 0)) else none
  | .acquiresleep p l =>
    if s.free p ∧ s.held (.sleeplock l) = none then
      some ((s.setHeld (.sleeplock l) (some (.proc p))).setPc p (.acqTest l))
    else none
  | .releasesleep p l =>
    if s.free p ∧ s.holds p l = true ∧ s.held (.sleeplock l) = none then
      some ((s.setHeld (.sleeplock l) (some (.proc p))).setPc p (.relClear l))
    else none
  | .step p => if s.state p = .running then stepProc lockOf s p else none
  | .yield p => if s.free p then some ((s.setState p .runnable).setPc p .inYield) else none
  | .schedule p => if s.state p = .runnable ∧ s.lockBusy p = false then some (resume s p) else none
  | .kkill p =>
    if s.lockBusy p then none
    else some ({ s with killed := update s.killed p true }.rouse p true)
  | .sigcont p => if s.lockBusy p then none else some (s.rouse p true)
  | .intr c ch =>
    if s.intr c = none ∧ s.held (.cond (lockOf ch)) = none then
      some ((s.setHeld (.cond (lockOf ch)) (some (.cpu c))).setWaking (some (.cond ch, 0)) (.cpu c))
    else none
  | .intrStep c =>
    match s.intr c with
    | some (ch, i) => wakeStep s (.cpu c) ch i
    | none => none

/-- All processes wait for the CPU and no lock is taken. -/
structure Init (s : State n m C L S) : Prop where
  state : ∀ p, s.state p = .runnable
  pc : ∀ p, s.pc p = .inYield
  intr : ∀ c, s.intr c = none
  held : ∀ l, s.held l = none
  locked : ∀ l, s.locked l = false
  holds : ∀ p l, s.holds p l = false
  woken : ∀ p, s.woken p = false

end Model

/-! ## What holds in every state -/

section Invariant

variable {n m i : Nat} {C L S : Type} {lockOf : C → L} {s t : State n m C L S} {p q : Fin n} {c : Chan C S}
  {a : Agent n m} {l : Lock L S} {x y : Pc C S} {st st' : ProcState}

/-- The agent is at entry `i` of `wakeup(c)`. -/
def State.Wakes (s : State n m C L S) (c : Chan C S) (i : Nat) : Agent n m → Prop
  | .proc p => s.pc p = .wakeup c i
  | .cpu k => s.intr k = some (c, i)

/-- What holds for a process `p` in state `st` at a place: the locks that it has, and what `acquiresleep` and
`releasesleep` know of the sleep lock on the way. -/
def Place (lockOf : C → L) (s : State n m C L S) (p : Fin n) (st : ProcState) : Pc C S → Prop
  | .run => st = .running
  | .inYield => st = .runnable
  | .sleepEnter c => st = .running ∧ s.woken p = false ∧ s.held (c.lock lockOf) = some (.proc p)
  | .sleepUnlock c => st = .running ∧ s.woken p = false ∧ s.held (c.lock lockOf) = some (.proc p)
  | .sleepSwitch _ => st = .running ∧ s.woken p = false
  | .inSleep c => s.chan p = some c ∧ (st = .runnable ∨ st = .sleeping ∧ s.woken p = false)
  | .relock _ => st = .running
  | .wakeup c _ => st = .running ∧ s.held (c.lock lockOf) = some (.proc p)
  | .acqTest l => st = .running ∧ s.held (.sleeplock l) = some (.proc p)
  | .acqSet l => st = .running ∧ s.held (.sleeplock l) = some (.proc p) ∧ s.locked l = false
  | .acqDone l => st = .running ∧ s.held (.sleeplock l) = some (.proc p)
  | .relClear l => st = .running ∧ s.held (.sleeplock l) = some (.proc p) ∧ s.holds p l = true

/-- The process is not asleep on `c`, and not about to be. -/
def Awake (c : Chan C S) (st : ProcState) (x : Pc C S) : Prop :=
  x ≠ .sleepSwitch c ∧ (x = .inSleep c → st ≠ .sleeping)

structure Inv (lockOf : C → L) (s : State n m C L S) : Prop where
  place : ∀ p, Place lockOf s p (s.state p) (s.pc p)
  handler : ∀ k c i, s.intr k = some (c, i) → s.held (c.lock lockOf) = some (.cpu k)
  /-- The entries that a `wakeup` has passed. -/
  swept : ∀ a c i, s.Wakes c i a → ∀ p : Fin n, p.val < i → Awake c (s.state p) (s.pc p)
  granted : ∀ p l, s.holds p l = true → s.locked l = true ∧ ∀ q, s.holds q l = true → q = p

theorem Inv.start (h : Init s) : Inv lockOf s := by
  refine ⟨fun p => ?_, fun k c i hk => ?_, fun a c i _ p _ => ?_, fun p l hp => ?_⟩
  · rw [h.pc p]
    exact h.state p
  · simp [h.intr k] at hk
  · simp [Awake, h.pc p]
  · simp [h.holds p l] at hp

/-- A process that sleeps is in the switch of `sleep`, and has not been woken. -/
theorem Inv.sleeping (h : Inv lockOf s) (hs : s.state p = .sleeping) :
    ∃ c, s.pc p = .inSleep c ∧ s.chan p = some c ∧ s.woken p = false := by
  have hp := h.place p
  rw [hs] at hp
  cases hpc : s.pc p with
  | inSleep c =>
    rw [hpc] at hp
    exact ⟨c, rfl, hp.1, (hp.2.resolve_left (by simp)).2⟩
  | _ => simp [hpc, Place] at hp

theorem Inv.waking (h : Inv lockOf s) (hw : s.Wakes c i (.proc p)) :
    s.state p = .running ∧ s.held (c.lock lockOf) = some (.proc p) := by
  have hp := h.place p
  rw [show s.pc p = .wakeup c i from hw] at hp
  exact hp

theorem Inv.wakes (h : Inv lockOf s) (hw : s.Wakes c i a) : s.held (c.lock lockOf) = some a := by
  cases a with
  | proc p => exact (h.waking hw).2
  | cpu k => exact h.handler k c i hw

/-- What holds at the place of `q` stays while its locks stay with it. -/
theorem Place.keep (h : Place lockOf s q st x) (hchan : t.chan q = s.chan q) (hwoken : t.woken q = s.woken q)
    (hholds : t.holds q = s.holds q) (hheld : ∀ l, s.held l = some (.proc q) → t.held l = some (.proc q))
    (hlocked : ∀ l, s.held (.sleeplock l) = some (.proc q) → t.locked l = s.locked l) : Place lockOf t q st x := by
  cases x with
  | run | inYield | relock => exact h
  | sleepEnter | sleepUnlock => exact ⟨h.1, hwoken ▸ h.2.1, hheld _ h.2.2⟩
  | sleepSwitch => exact ⟨h.1, hwoken ▸ h.2⟩
  | inSleep =>
    rw [Place, hchan, hwoken]
    exact h
  | wakeup | acqTest | acqDone => exact ⟨h.1, hheld _ h.2⟩
  | acqSet => exact ⟨h.1, hheld _ h.2.1, (hlocked _ h.2.1).trans h.2.2⟩
  | relClear => exact ⟨h.1, hheld _ h.2.1, hholds ▸ h.2.2⟩

/-! ## Steps of one process -/

/-- A change of one process to the place `x` and the state `st`, and of locks that it holds or takes. -/
structure Moves (p : Fin n) (s t : State n m C L S) (x : Pc C S) (st : ProcState) : Prop where
  pc : t.pc = update s.pc p x
  state : t.state = update s.state p st
  chan : ∀ q, q ≠ p → t.chan q = s.chan q
  woken : ∀ q, q ≠ p → t.woken q = s.woken q
  holds : ∀ q, q ≠ p → t.holds q = s.holds q
  intr : t.intr = s.intr
  held : ∀ l a, a ≠ .proc p → s.held l = some a → t.held l = some a
  locked : ∀ l, s.held (.sleeplock l) ≠ some (.proc p) → t.locked l = s.locked l

/-- A lock that no other agent holds. -/
theorem setHeld_other [DecidableEq L] [DecidableEq S] {l' : Lock L S} {b : Agent n m} {o : Option (Agent n m)}
    (hl : s.held l = none ∨ s.held l = some a) (hb : b ≠ a) (hl' : s.held l' = some b) :
    (s.setHeld l o).held l' = some b := by
  rcases eq_or_ne l' l with rfl | hne
  · rw [hl'] at hl
    simp [hb] at hl
  · exact (update_of_ne hne _ _).trans hl'

namespace Moves

theorem refl (s : State n m C L S) (p : Fin n) : Moves p s s (s.pc p) (s.state p) :=
  ⟨(update_eq_self p _).symm, (update_eq_self p _).symm, fun _ _ => rfl, fun _ _ => rfl, fun _ _ => rfl, rfl,
    fun _ _ _ hl => hl, fun _ _ => rfl⟩

theorem setPc (h : Moves p s t x st) : Moves p s (t.setPc p y) y st :=
  { h with pc := by rw [State.setPc, h.pc, update_idem] }

theorem setState (h : Moves p s t x st') : Moves p s (t.setState p st) x st :=
  { h with state := by rw [State.setState, h.state, update_idem] }

theorem setChan (h : Moves p s t x st) {o : Option (Chan C S)} : Moves p s (t.setChan p o) x st :=
  { h with chan := fun q hq => (update_of_ne hq _ _).trans (h.chan q hq) }

theorem startSleep (s : State n m C L S) (p : Fin n) (c : Chan C S) :
    Moves p s (s.startSleep p c) (.sleepEnter c) (s.state p) :=
  { (refl s p).setPc with woken := fun _ hq => update_of_ne hq _ _ }

theorem setHeld [DecidableEq L] [DecidableEq S] (hl : s.held l = none ∨ s.held l = some (.proc p))
    {o : Option (Agent n m)} : Moves p s (s.setHeld l o) (s.pc p) (s.state p) :=
  { refl s p with held := fun _ _ => setHeld_other hl }

/-- The flag of a sleep lock whose spin lock the process holds. -/
theorem setLocked [DecidableEq S] {l : S} (hl : s.held (.sleeplock l) = some (.proc p)) {b : Bool} {g : S → Bool} :
    Moves p s { s with locked := update s.locked l b, holds := update s.holds p g } (s.pc p) (s.state p) := by
  refine { refl s p with holds := fun q hq => update_of_ne hq _ _, locked := fun l' hl' => update_of_ne ?_ _ _ }
  rintro rfl
  exact hl' hl

variable (h : Moves p s t x st)
include h

theorem pc_self : t.pc p = x := by
  rw [h.pc, update_self]

theorem state_self : t.state p = st := by
  rw [h.state, update_self]

theorem pc_other (hq : q ≠ p) : t.pc q = s.pc q := by
  rw [h.pc, update_of_ne hq]

theorem state_other (hq : q ≠ p) : t.state q = s.state q := by
  rw [h.state, update_of_ne hq]

theorem wakes (ha : a ≠ .proc p) (hw : t.Wakes c i a) : s.Wakes c i a := by
  cases a with
  | proc q => exact (h.pc_other fun heq => ha (heq ▸ rfl)).symm.trans hw
  | cpu k => exact (congrFun h.intr k).symm.trans hw

end Moves

/-- A step of one process keeps the invariant if what holds at its new place is so, no `wakeup` that has passed it
could have woken it there, and the sleep locks that it holds are its own. -/
theorem Inv.step (h : Inv lockOf s) (ht : Moves p s t x st) (hplace : Place lockOf t p st x)
    (hpassed : ∀ c i, x = .wakeup c i → ∀ q : Fin n, q.val < i → q ≠ p → Awake c (s.state q) (s.pc q))
    (hawake : ∀ a c i, a ≠ .proc p → s.Wakes c i a → Awake c (s.state p) (s.pc p) → Awake c st x)
    (hmine : ∀ l, t.holds p l = true → t.locked l = true ∧ ∀ q, q ≠ p → s.holds q l ≠ true)
    (hothers : ∀ q l, q ≠ p → s.holds q l = true → t.locked l = true) : Inv lockOf t := by
  refine ⟨fun q => ?_, fun k c i hk => ?_, fun a c i hw q hq => ?_, fun q l hq => ?_⟩
  · rcases eq_or_ne q p with rfl | hqp
    · rw [ht.pc_self, ht.state_self]
      exact hplace
    · have hne : Agent.proc (m := m) q ≠ .proc p := fun heq => hqp (Agent.proc.inj heq)
      rw [ht.pc_other hqp, ht.state_other hqp]
      refine (h.place q).keep (ht.chan q hqp) (ht.woken q hqp) (ht.holds q hqp) (fun l => ht.held l _ hne) fun l hl => ?_
      exact ht.locked l fun heq => hne (some.inj (hl.symm.trans heq))
  · rw [ht.intr] at hk
    exact ht.held _ _ (by simp) (h.handler k c i hk)
  · by_cases ha : a = .proc p
    · subst ha
      have hx : x = .wakeup c i := ht.pc_self.symm.trans hw
      rcases eq_or_ne q p with rfl | hqp
      · -- the process that runs the loop is not asleep itself
        simp [Awake, ht.pc_self, hx]
      · rw [ht.pc_other hqp, ht.state_other hqp]
        exact hpassed c i hx q hq hqp
    · have hs := h.swept a c i (ht.wakes ha hw) q hq
      rcases eq_or_ne q p with rfl | hqp
      · rw [ht.pc_self, ht.state_self]
        exact hawake a c i ha (ht.wakes ha hw) hs
      · rw [ht.pc_other hqp, ht.state_other hqp]
        exact hs
  · rcases eq_or_ne q p with rfl | hqp
    · refine ⟨(hmine l hq).1, fun r hr => by_contra fun hrq => ?_⟩
      rw [ht.holds r hrq] at hr
      exact (hmine l hq).2 r hrq hr
    · rw [ht.holds q hqp] at hq
      refine ⟨hothers q l hqp hq, fun r hr => ?_⟩
      rcases eq_or_ne r p with rfl | hrp
      · exact absurd hq ((hmine l hr).2 q hqp)
      · rw [ht.holds r hrp] at hr
        exact (h.granted q l hq).2 r hr

section

variable (h : Inv lockOf s)
include h

/-- A step that changes no sleep lock. -/
theorem Inv.stepUnlocked (ht : Moves p s t x st) (hlocked : t.locked = s.locked) (hholds : t.holds = s.holds)
    (hplace : Place lockOf t p st x)
    (hpassed : ∀ c i, x = .wakeup c i → ∀ q : Fin n, q.val < i → q ≠ p → Awake c (s.state q) (s.pc q))
    (hawake : ∀ a c i, a ≠ .proc p → s.Wakes c i a → Awake c (s.state p) (s.pc p) → Awake c st x) :
    Inv lockOf t := by
  refine h.step ht hplace hpassed hawake (fun l hl => ?_) fun q l _ hq => ?_
  · rw [hholds] at hl
    rw [hlocked]
    exact ⟨(h.granted p l hl).1, fun q hqp hq => hqp ((h.granted p l hl).2 q hq)⟩
  · rw [hlocked]
    exact (h.granted q l hq).1

/-- A step to a place where the process is awake, and at the start of `wakeup` if it is in `wakeup`. -/
theorem Inv.goes (ht : Moves p s t x st) (hlocked : t.locked = s.locked) (hholds : t.holds = s.holds)
    (hplace : Place lockOf t p st x) (hawake : ∀ c, Awake c st x) (hstart : ∀ c i, x = .wakeup c i → i = 0) :
    Inv lockOf t := by
  refine h.stepUnlocked ht hlocked hholds hplace (fun c i hx q hq => ?_) fun _ c _ _ _ _ => hawake c
  rw [hstart c i hx] at hq
  exact absurd hq (Nat.not_lt_zero _)

/-- A sleeper is made runnable. -/
theorem Inv.rouse (q : Fin n) (b : Bool) : Inv lockOf (s.rouse q b) := by
  rw [State.rouse]
  split
  next hb =>
    obtain ⟨c, hpc, hchan, -⟩ := h.sleeping hb.1
    refine h.goes (Moves.refl s q).setState rfl rfl ?_ ?_ ?_
    · rw [hpc]
      exact ⟨hchan, .inl rfl⟩
    · simp [Awake, hpc]
    · simp [hpc]
  · exact h

/-- `acquire` and `release` of a condition lock. -/
theorem Inv.setHeld [DecidableEq L] [DecidableEq S] (hp : s.free p)
    (hl : s.held l = none ∨ s.held l = some (.proc p)) (o : Option (Agent n m)) : Inv lockOf (s.setHeld l o) := by
  have ht : Moves p s (s.setHeld l o) .run (s.state p) := hp.2 ▸ .setHeld hl
  exact h.goes ht rfl rfl hp.1 (by simp [Awake]) (by simp)

theorem Inv.startSleep (hrun : s.state p = .running) (hheld : s.held (c.lock lockOf) = some (.proc p)) :
    Inv lockOf (s.startSleep p c) :=
  h.goes (.startSleep s p c) rfl rfl ⟨hrun, update_self .., hheld⟩ (by simp [Awake]) (by simp)

/-- The scheduler finds a process in `sleep` or in `yield`. -/
theorem Inv.resume (hp : s.state p = .runnable) : Inv lockOf (resume s p) := by
  have hplace := h.place p
  rw [hp] at hplace
  rw [Sleeping.resume]
  split
  next c hpc => exact h.goes (Moves.refl s p).setState.setChan.setPc rfl rfl rfl (by simp [Awake]) (by simp)
  next hpc => exact h.goes (Moves.refl s p).setState.setPc rfl rfl rfl (by simp [Awake]) (by simp)
  next hin hyield => cases hpc : s.pc p <;> simp_all [Place]

/-- The next steps of a process inside `sleep`. -/
theorem Inv.sleepStep [DecidableEq L] [DecidableEq S] :
    (s.pc p = .sleepEnter c → Inv lockOf (s.setPc p (.sleepUnlock c))) ∧
    (s.pc p = .sleepUnlock c → Inv lockOf ((s.setHeld (c.lock lockOf) none).setPc p (.sleepSwitch c))) ∧
    (s.pc p = .sleepSwitch c → Inv lockOf (((s.setChan p (some c)).setState p .sleeping).setPc p (.inSleep c))) := by
  have hp := h.place p
  refine ⟨fun hpc => ?_, fun hpc => ?_, fun hpc => ?_⟩
  · rw [hpc] at hp
    exact h.goes (Moves.refl s p).setPc rfl rfl hp (by simp [Awake]) (by simp)
  · rw [hpc] at hp
    obtain ⟨hrun, hwoken, hheld⟩ := hp
    refine h.stepUnlocked (Moves.setHeld (.inr hheld)).setPc rfl rfl ⟨hrun, hwoken⟩ (by simp) ?_
    -- a `wakeup` on the same channel would hold the lock
    intro a c' i ha hw _
    refine ⟨fun heq => ha ?_, by simp⟩
    cases heq
    exact some.inj ((h.wakes hw).symm.trans hheld)
  · rw [hpc] at hp
    refine h.stepUnlocked (Moves.refl s p).setChan.setState.setPc rfl rfl ⟨update_self .., .inr ⟨rfl, hp.2⟩⟩
      (by simp) ?_
    intro a c' i _ _ hawake
    refine ⟨by simp, fun heq => absurd hpc ?_⟩
    cases heq
    exact hawake.1

/-! ## The loop of `wakeup` -/

/-- A step of a handler, which changes its own loop and locks that it holds or takes. -/
theorem Inv.setIntr {k : Fin m} {w : Option (Chan C S × Nat)} {g : Lock L S → Option (Agent n m)}
    (hg : ∀ l a, a ≠ .cpu k → s.held l = some a → g l = some a)
    (hw : ∀ c i, w = some (c, i) → g (c.lock lockOf) = some (.cpu k) ∧
      ∀ q : Fin n, q.val < i → Awake c (s.state q) (s.pc q)) :
    Inv lockOf { s with intr := update s.intr k w, held := g } := by
  have hboth : ∀ j c i, update s.intr k w j = some (c, i) → g (c.lock lockOf) = some (.cpu j) ∧
      ∀ q : Fin n, q.val < i → Awake c (s.state q) (s.pc q) := by
    intro j c i hj
    rcases eq_or_ne j k with rfl | hne
    · rw [update_self] at hj
      exact hw c i hj
    · rw [update_of_ne hne] at hj
      exact ⟨hg _ _ (by simp [hne]) (h.handler j c i hj), h.swept (.cpu j) c i hj⟩
  refine ⟨fun p => ?_, fun j c i hj => (hboth j c i hj).1, fun a c i ha => ?_, h.granted⟩
  · exact (h.place p).keep rfl rfl rfl (fun l => hg l _ (by simp)) fun _ _ => rfl
  · cases a with
    | proc p => exact h.swept (.proc p) c i ha
    | cpu j => exact (hboth j c i ha).2

/-- The loop goes on past an entry that is awake. -/
theorem Inv.advance (hw : s.Wakes c i a) (hpass : ∀ q : Fin n, q.val = i → Awake c (s.state q) (s.pc q)) :
    Inv lockOf (s.setWaking (some (c, i + 1)) a) := by
  have hswept : ∀ q : Fin n, q.val < i + 1 → Awake c (s.state q) (s.pc q) := by
    intro q hq
    rcases Nat.lt_succ_iff_lt_or_eq.mp hq with hlt | heq
    · exact h.swept a c i hw q hlt
    · exact hpass q heq
  cases a with
  | proc p =>
    refine h.stepUnlocked (Moves.refl s p).setPc rfl rfl (h.waking hw) (fun c' i' heq q hq _ => ?_) (by simp [Awake])
    cases heq
    exact hswept q hq
  | cpu k =>
    refine h.setIntr (fun _ _ _ hl => hl) fun c' i' heq => ?_
    cases heq
    exact ⟨h.wakes hw, hswept⟩

end

variable [DecidableEq C] [DecidableEq S]

/-- A loop that has passed all entries ends: whoever is in a `sleep` on the channel is awake. -/
theorem Inv.finish (h : Inv lockOf s) (hw : s.Wakes c i a) (hi : n ≤ i) :
    Inv lockOf (({ s with woken := fun p => s.woken p || s.inside p c } : State n m C L S).setWaking none a) := by
  have hall : Inv lockOf ({ s with woken := fun p => s.woken p || s.inside p c } : State n m C L S) := by
    refine ⟨fun p => ?_, h.handler, h.swept, h.granted⟩
    obtain ⟨hswitch, hsleep⟩ := h.swept a c i hw p (Nat.lt_of_lt_of_le p.isLt hi)
    have hp := h.place p
    cases hin : s.inside p c with
    | false => exact hp.keep rfl (by simp [hin]) rfl (fun _ hl => hl) fun _ _ => rfl
    | true =>
      rw [State.inside] at hin
      split at hin
      next c' hpc => exact absurd (of_decide_eq_true hin ▸ hpc) hswitch
      next c' hpc =>
        obtain rfl := of_decide_eq_true hin
        rw [hpc] at hp
        show Place lockOf _ p (s.state p) (s.pc p)
        rw [hpc]
        exact ⟨hp.1, .inl (hp.2.resolve_right fun hs => hsleep hpc hs.1)⟩
      · cases hin
  cases a with
  | proc p =>
    exact hall.goes (Moves.refl _ p).setPc rfl rfl (h.waking hw).1 (by simp [Awake]) (by simp)
  | cpu k => exact hall.setIntr (fun _ _ _ hl => hl) (by simp)

theorem Inv.wakeStep (h : Inv lockOf s) (hw : s.Wakes c i a) (ht : wakeStep s a c i = some t) : Inv lockOf t := by
  rw [Sleeping.wakeStep] at ht
  split at ht
  next hi =>
    split at ht
    next ha =>
      -- `p != myproc()`: the caller itself is passed over
      cases ht
      subst ha
      refine h.advance hw fun q hq => ?_
      obtain rfl : q = ⟨i, hi⟩ := Fin.ext hq
      simp [Awake, show s.pc ⟨i, hi⟩ = .wakeup c i from hw]
    · split at ht
      · cases ht
      next hbusy =>
      cases ht
      have hw' : (s.rouse ⟨i, hi⟩ (s.chan ⟨i, hi⟩ = some c)).Wakes c i a := by
        rw [State.rouse]
        split
        · cases a <;> exact hw
        · exact hw
      refine (h.rouse _ _).advance hw' fun q hq => ?_
      obtain rfl : q = ⟨i, hi⟩ := Fin.ext hq
      have hswitch : s.pc ⟨i, hi⟩ ≠ .sleepSwitch c := by
        intro hpc
        simp [State.lockBusy, hpc] at hbusy
      rw [State.rouse]
      split
      · exact ⟨hswitch, by simp [State.setState]⟩
      next hno =>
        refine ⟨hswitch, fun hpc hs => hno ⟨hs, ?_⟩⟩
        obtain ⟨c', hpc', hchan, -⟩ := h.sleeping hs
        rw [hpc] at hpc'
        cases hpc'
        exact decide_eq_true hchan
  next hi =>
    cases ht
    exact h.finish hw (Nat.le_of_not_lt hi)

end Invariant

end Xv6Lab.Process.Sleeping
