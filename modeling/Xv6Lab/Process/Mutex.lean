import Mathlib.Logic.Function.Basic
import Xv6Lab.Lib.Transition

/-!
# `mutex_lock` and `mutex_unlock`

Any number of processes share one mutex word. `sys_mutex_lock` reads the word with `copyin` and, when
it is 0, writes 1 with a separate `copyout`; otherwise it yields and reads again. `sys_mutex_unlock`
writes 0. Each `copyin`, `copyout` and `yield` is one step, and steps of different processes
interleave freely.

Two processes that both read 0 before either writes both return 0 (`mutex_lock_twice`). When no
process reads 0 while another stands between its own read and write, at most one process holds the
mutex in every state of the run (`mutex_exclusive`).
-/

namespace Xv6Lab.Process.Mutex

open Lib.Transition

/-- Where a process stands in the two system calls. -/
inductive Pc where
  | idle
  /-- in `mutex_lock`, before the `copyin` -/
  | lockRead
  /-- in `mutex_lock`, after a `copyin` that gave 0 -/
  | lockWrite
  /-- in `mutex_lock`, before the `yield` -/
  | lockYield
  /-- `mutex_lock` has returned 0 -/
  | holding
  /-- in `mutex_unlock`, before the `copyout` -/
  | unlockWrite
  deriving DecidableEq, Repr

/-- How each process maps the mutex word: the address it passes, and whether the page is writable, so
that `copyout` succeeds. -/
structure Mapping (P : Type) where
  addr : P → Nat
  writable : P → Bool

structure State (P : Type) where
  word : Int
  pc : P → Pc

inductive Action (P : Type) where
  | mutexLock (p : P)
  | mutexUnlock (p : P)
  | step (p : P)

variable {P : Type} [DecidableEq P] {s t : State P}

def State.setPc (s : State P) (p : P) (x : Pc) : State P :=
  { s with pc := Function.update s.pc p x }

@[simp] theorem State.setPc_pc_self (s : State P) (p : P) (x : Pc) : (s.setPc p x).pc p = x := by
  simp [State.setPc]

@[simp] theorem State.setPc_pc_ne (s : State P) {p q : P} (x : Pc) (h : q ≠ p) : (s.setPc p x).pc q = s.pc q := by
  simp [State.setPc, h]

/-- The atomic step a process inside a system call performs next; a failing call goes back to `idle`
with the result -1. -/
def step (map : Mapping P) (s : State P) (p : P) : Pc → Option (State P)
  | .idle => none
  | .lockRead => some (if s.word = 0 then s.setPc p .lockWrite else s.setPc p .lockYield)
  | .lockWrite =>
    some (if map.writable p then { s.setPc p .holding with word := 1 } else s.setPc p .idle)
  | .lockYield => some (s.setPc p .lockRead)
  | .holding => none
  | .unlockWrite =>
    some (if map.writable p then { s.setPc p .idle with word := 0 } else s.setPc p .idle)

/-- The transition function; `mutex_unlock` is called by a process whose `mutex_lock` returned 0. -/
def next (map : Mapping P) (s : State P) : Action P → Option (State P)
  | .mutexLock p =>
    if s.pc p = .idle then
      some (if map.addr p = 0 then s else s.setPc p .lockRead)
    else none
  | .mutexUnlock p =>
    if s.pc p = .holding then
      some (if map.addr p = 0 then s.setPc p .idle else s.setPc p .unlockWrite)
    else none
  | .step p => step map s p (s.pc p)

/-- The word is 0 and nobody is in a system call. -/
structure Init (s : State P) : Prop where
  word : s.word = 0
  pc : ∀ p, s.pc p = .idle

/-- The process is between a `mutex_lock` that returned 0 and the write of its `mutex_unlock`. -/
def Critical (x : Pc) : Prop := x = .holding ∨ x = .unlockWrite

/-- At most one process is inside. -/
def Exclusive (s : State P) : Prop :=
  ∀ p q, Critical (s.pc p) → Critical (s.pc q) → p = q

/-- The step is a `copyin` of `mutex_lock` that gives 0 while another process stands between its own
such `copyin` and its `copyout`. -/
def ReadsBeforeWrite (s : State P) (a : Action P) : Prop :=
  ∃ p q, a = .step p ∧ s.pc p = .lockRead ∧ s.word = 0 ∧ q ≠ p ∧ s.pc q = .lockWrite

/-- Steps that do not race on the word. -/
def NoRace (s : State P) (a : Action P) : Prop := ¬ ReadsBeforeWrite s a

/-! ## The invariant -/

/-- A process that has read 0 and not yet written 0 back. -/
def Owner (x : Pc) : Prop := x = .lockWrite ∨ Critical x

structure Inv (s : State P) : Prop where
  one_owner : ∀ p q, Owner (s.pc p) → Owner (s.pc q) → p = q
  locked : ∀ p, Critical (s.pc p) → s.word ≠ 0

omit [DecidableEq P] in
theorem Inv.exclusive (h : Inv s) : Exclusive s := by
  intro p q hp hq
  exact h.one_owner p q (Or.inr hp) (Or.inr hq)

/-- What a step of process `p` does to the owners and to the processes inside. -/
theorem Inv.of_setPc (h : Inv s) {p : P} {x : Pc} (hpc : t.pc = (s.setPc p x).pc)
    (hword : ∀ q ≠ p, Critical (s.pc q) → t.word ≠ 0) (hcrit : Critical x → t.word ≠ 0)
    (howner : Owner x → ∀ q ≠ p, ¬ Owner (s.pc q)) : Inv t := by
  have hself : t.pc p = x := by rw [hpc, State.setPc_pc_self]
  have hother : ∀ q ≠ p, t.pc q = s.pc q := by
    intro q hq
    rw [hpc, State.setPc_pc_ne s x hq]
  constructor
  · intro q r hq hr
    by_cases hqp : q = p
    · by_cases hrp : r = p
      · rw [hqp, hrp]
      · rw [hqp, hself] at hq
        rw [hother r hrp] at hr
        exact absurd hr (howner hq r hrp)
    · rw [hother q hqp] at hq
      by_cases hrp : r = p
      · rw [hrp, hself] at hr
        exact absurd hq (howner hr q hqp)
      · rw [hother r hrp] at hr
        exact h.one_owner q r hq hr
  · intro q hq
    by_cases hqp : q = p
    · rw [hqp, hself] at hq
      exact hcrit hq
    · rw [hother q hqp] at hq
      exact hword q hqp hq

/-- A process moves to a place where it is no owner; the word does not change. -/
theorem Inv.retreat (h : Inv s) (p : P) {x : Pc} (hx : ¬ Owner x) : Inv (s.setPc p x) := by
  apply h.of_setPc rfl
  · intro q _ hq
    exact h.locked q hq
  · intro hc
    exact absurd (Or.inr hc) hx
  · intro ho
    exact absurd ho hx

omit [DecidableEq P] in
/-- No other process owns the mutex while `p` does. -/
theorem Inv.not_owner (h : Inv s) {p : P} (hp : Owner (s.pc p)) (q : P) (hq : q ≠ p) : ¬ Owner (s.pc q) := by
  intro ho
  exact hq (h.one_owner q p ho hp)

theorem not_owner_idle : ¬ Owner .idle := by
  rintro (h | h | h) <;> cases h

theorem not_owner_lockRead : ¬ Owner .lockRead := by
  rintro (h | h | h) <;> cases h

theorem not_owner_lockYield : ¬ Owner .lockYield := by
  rintro (h | h | h) <;> cases h

theorem not_critical_lockWrite : ¬ Critical .lockWrite := by
  rintro (h | h) <;> cases h

/-- One step of a process inside a system call. -/
theorem Inv.step {map : Mapping P} (h : Inv s) {p : P}
    (hrace : NoRace s (.step p)) (hstep : Mutex.step map s p (s.pc p) = some t) : Inv t := by
  cases hp : s.pc p with
  | idle | holding =>
    rw [hp] at hstep
    cases hstep
  | lockRead =>
    rw [hp, Mutex.step] at hstep
    cases hstep
    by_cases hzero : s.word = 0
    · -- the word is free: no process is inside, and the guard excludes another reader of 0
      rw [if_pos hzero]
      apply h.of_setPc rfl
      · intro q _ hq
        exact h.locked q hq
      · intro hc
        exact absurd hc not_critical_lockWrite
      · rintro - q hq (hw | hc)
        · exact hrace ⟨p, q, rfl, hp, hzero, hq, hw⟩
        · exact h.locked q hc hzero
    · rw [if_neg hzero]
      exact h.retreat p not_owner_lockYield
  | lockWrite =>
    rw [hp, Mutex.step] at hstep
    cases hstep
    have howner : Owner (s.pc p) := Or.inl hp
    by_cases hw : map.writable p
    · rw [if_pos hw]
      refine h.of_setPc (p := p) (x := .holding) rfl ?_ ?_ ?_
      · intro q _ _
        exact Int.one_ne_zero
      · intro _
        exact Int.one_ne_zero
      · intro _
        exact h.not_owner howner
    · rw [if_neg hw]
      exact h.retreat p not_owner_idle
  | lockYield =>
    rw [hp] at hstep
    cases hstep
    exact h.retreat p not_owner_lockRead
  | unlockWrite =>
    rw [hp, Mutex.step] at hstep
    cases hstep
    have howner : Owner (s.pc p) := Or.inr (Or.inr hp)
    by_cases hw : map.writable p
    · rw [if_pos hw]
      refine h.of_setPc (p := p) (x := .idle) rfl ?_ ?_ ?_
      · intro q hq hc
        exact absurd (Or.inr hc) (h.not_owner howner q hq)
      · intro hc
        exact absurd (Or.inr hc) not_owner_idle
      · intro ho
        exact absurd ho not_owner_idle
    · rw [if_neg hw]
      exact h.retreat p not_owner_idle

theorem Inv.next {map : Mapping P} (h : Inv s) (a : Action P) (hrace : NoRace s a)
    (hnext : Mutex.next map s a = some t) : Inv t := by
  cases a with
  | mutexLock p =>
    obtain ⟨-, rfl⟩ := Option.ite_some_none_eq_some.mp hnext
    split
    · exact h
    · exact h.retreat p not_owner_lockRead
  | mutexUnlock p =>
    obtain ⟨hp, rfl⟩ := Option.ite_some_none_eq_some.mp hnext
    have howner : Owner (s.pc p) := Or.inr (Or.inl hp)
    split
    · exact h.retreat p not_owner_idle
    apply h.of_setPc rfl
    · intro q _ hq
      exact h.locked q hq
    · intro _
      exact h.locked p (Or.inl hp)
    · intro _
      exact h.not_owner howner
  | step p => exact h.step hrace hnext

omit [DecidableEq P] in
theorem Inv.init (h : Init s) : Inv s := by
  constructor
  · intro p q hp
    rw [h.pc p] at hp
    exact absurd hp not_owner_idle
  · intro p hp
    rw [h.pc p] at hp
    exact absurd (Or.inr hp) not_owner_idle

/-! ## The theorem -/

/-- In every run without a race on the word, at most one process is between its `mutex_lock` and its
`mutex_unlock`. -/
theorem mutex_exclusive {map : Mapping P} {s : State P} (h : Reachable Init (next map) NoRace s) : Exclusive s := by
  have hinv : Inv s := h.invariant Inv (fun _ => Inv.init) fun _ a _ hi hok hn => hi.next a hok hn
  exact hinv.exclusive

/-- Two processes that map the word writable at some address. -/
def sharedWord : Mapping Bool where
  addr := fun _ => 4096
  writable := fun _ => true

def freeWord : State Bool where
  word := 0
  pc := fun _ => .idle

/-- One process takes the mutex while the other is outside. -/
theorem mutex_exclusive_holding : ∃ s,
    run (next sharedWord) freeWord [.mutexLock true, .step true, .step true] = some s ∧
      s.pc true = .holding ∧ Exclusive s := by
  have hinit : Init freeWord := ⟨rfl, fun _ => rfl⟩
  have h1 : next sharedWord freeWord (.mutexLock true) = some _ := rfl
  have h2 : next sharedWord (freeWord.setPc true .lockRead) (.step true) = some _ := rfl
  have h3 : next sharedWord ((freeWord.setPc true .lockRead).setPc true .lockWrite) (.step true) =
      some _ := rfl
  refine ⟨_, rfl, rfl, mutex_exclusive (Reachable.step _ (Reachable.step _ (Reachable.step _
    (Reachable.start hinit) ?_ h1) ?_ h2) ?_ h3)⟩
  · rintro ⟨p, q, ha, -⟩
    cases ha
  · rintro ⟨p, q, ha, -, -, hq, hw⟩
    cases ha
    cases q with
    | true => exact hq rfl
    | false => exact absurd hw (by decide)
  · rintro ⟨p, q, ha, -, -, hq, hw⟩
    cases ha
    cases q with
    | true => exact hq rfl
    | false => exact absurd hw (by decide)

/-- Both processes read 0 before either writes 1. -/
def raceTrace : List (Action Bool) :=
  [.mutexLock true, .mutexLock false, .step true, .step false, .step true, .step false]

theorem mutex_lock_twice : ∃ s, run (next sharedWord) freeWord raceTrace = some s ∧
    s.pc true = .holding ∧ s.pc false = .holding ∧ ¬ Exclusive s := by
  have hrun : run (next sharedWord) freeWord raceTrace = some _ := rfl
  refine ⟨_, hrun, rfl, rfl, fun hex => ?_⟩
  exact absurd (hex true false (Or.inl rfl) (Or.inl rfl)) (by decide)

end Xv6Lab.Process.Mutex
