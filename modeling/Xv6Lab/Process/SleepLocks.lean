import Xv6Lab.Lib.Transition
import Xv6Lab.Process.Sleeping

/-!
# No lost wakeup

Sleep locks are granted to one process at a time, although `kkill` and `sys_sendsig(pid, 3)` make sleepers runnable
that no `releasesleep` has woken: `acquiresleep` looks at `locked` again under its spin lock. `no_lost_wakeup` joins
this with the invariant of `sleep` and `wakeup` for every state that is reached.
-/

open Function Xv6Lab.Lib.Transition

namespace Xv6Lab.Process.Sleeping

open Option

section Locks

variable {n m : Nat} {C L S : Type} {lockOf : C → L} {s t : State n m C L S} {p q : Fin n}

/-- `acquiresleep` sets `locked`: under the spin lock it still is what the test has seen. -/
theorem Inv.grant [DecidableEq S] (h : Inv lockOf s) {l : S} (hpc : s.pc p = .acqSet l) :
    Inv lockOf ({ s with
      locked := update s.locked l true
      holds := update s.holds p (update (s.holds p) l true) }.setPc p (.acqDone l)) := by
  have hp := h.place p
  rw [hpc] at hp
  obtain ⟨hrun, hheld, hlocked⟩ := hp
  have hnone : ∀ q, s.holds q l ≠ true := by
    intro q hq
    rw [(h.granted q l hq).1] at hlocked
    cases hlocked
  have hset : ∀ l', s.locked l' = true → update s.locked l true l' = true := by
    intro l' hl'
    rcases eq_or_ne l' l with rfl | hne
    · exact update_self ..
    · exact (update_of_ne hne _ _).trans hl'
  refine h.step (Moves.setLocked hheld).setPc ⟨hrun, hheld⟩ (by simp) (by simp [Awake]) (fun l' hl' => ?_) ?_
  · have hl' : update s.holds p (update (s.holds p) l true) p l' = true := hl'
    rw [update_self] at hl'
    rcases eq_or_ne l' l with rfl | hne
    · exact ⟨update_self .., fun q _ => hnone q⟩
    · rw [update_of_ne hne] at hl'
      have hown := h.granted p l' hl'
      exact ⟨hset l' hown.1, fun q hqp hq => hqp (hown.2 q hq)⟩
  · exact fun q l' _ hq => hset l' (h.granted q l' hq).1

/-- `releasesleep` clears `locked`: nobody else has the lock. -/
theorem Inv.clear [DecidableEq S] (h : Inv lockOf s) {l : S} (hpc : s.pc p = .relClear l) :
    Inv lockOf ({ s with
      locked := update s.locked l false
      holds := update s.holds p (update (s.holds p) l false) }.setPc p (.wakeup (.sleeplock l) 0)) := by
  have hp := h.place p
  rw [hpc] at hp
  obtain ⟨hrun, hheld, hold⟩ := hp
  refine h.step (Moves.setLocked hheld).setPc ⟨hrun, hheld⟩ (by simp) (by simp [Awake]) (fun l' hl' => ?_) ?_
  · have hl' : update s.holds p (update (s.holds p) l false) p l' = true := hl'
    rw [update_self] at hl'
    rcases eq_or_ne l' l with rfl | hne
    · simp at hl'
    · rw [update_of_ne hne] at hl'
      have hown := h.granted p l' hl'
      exact ⟨(update_of_ne hne _ _).trans hown.1, fun q hqp hq => hqp (hown.2 q hq)⟩
  · intro q l' hqp hq
    have hne : l' ≠ l := by
      rintro rfl
      exact hqp ((h.granted p l' hold).2 q hq)
    exact (update_of_ne hne _ _).trans (h.granted q l' hq).1

variable [DecidableEq C] [DecidableEq S] [DecidableEq L]

theorem Inv.stepProc (h : Inv lockOf s) (ht : stepProc lockOf s p = some t) : Inv lockOf t := by
  have hp := h.place p
  rw [Sleeping.stepProc] at ht
  split at ht
  · cases ht
  · cases ht
  · cases ht
  next c hpc =>
    cases ht
    exact h.sleepStep.1 hpc
  next c hpc =>
    cases ht
    exact h.sleepStep.2.1 hpc
  next c hpc =>
    cases ht
    exact h.sleepStep.2.2 hpc
  next c hpc =>
    obtain ⟨hfree, rfl⟩ := ite_some_none_eq_some.mp ht
    rw [hpc] at hp
    cases c with
    | cond c => exact h.goes (Moves.setHeld (.inl hfree)).setPc rfl rfl hp (by simp [Awake]) (by simp)
    | sleeplock l =>
      exact h.goes (Moves.setHeld (.inl hfree)).setPc rfl rfl ⟨hp, update_self ..⟩ (by simp [Awake]) (by simp)
  next c i hpc => exact h.wakeStep (a := .proc p) hpc ht
  next l hpc =>
    cases ht
    rw [hpc] at hp
    split
    · exact h.startSleep hp.1 hp.2
    next hl =>
      have hlocked : s.locked l = false := Bool.eq_false_iff.mpr hl
      exact h.goes (Moves.refl s p).setPc rfl rfl ⟨hp.1, hp.2, hlocked⟩ (by simp [Awake]) (by simp)
  next l hpc =>
    cases ht
    exact h.grant hpc
  next l hpc =>
    cases ht
    rw [hpc] at hp
    exact h.goes (Moves.setHeld (.inr hp.2)).setPc rfl rfl hp.1 (by simp [Awake]) (by simp)
  next l hpc =>
    cases ht
    exact h.clear hpc

theorem Inv.next (h : Inv lockOf s) {a : Action n m C L S} (ht : next lockOf s a = some t) : Inv lockOf t := by
  cases a with
  | acquire p l =>
    obtain ⟨⟨hp, hl⟩, rfl⟩ := ite_some_none_eq_some.mp ht
    exact h.setHeld hp (.inl hl) _
  | release a l =>
    cases a with
    | proc p =>
      obtain ⟨⟨hp, hl⟩, rfl⟩ := ite_some_none_eq_some.mp ht
      exact h.setHeld hp (.inr hl) _
    | cpu k =>
      obtain ⟨⟨hk, hl⟩, rfl⟩ := ite_some_none_eq_some.mp ht
      rw [State.setHeld, ← update_eq_self k s.intr]
      exact h.setIntr (fun l' a => setHeld_other (.inr hl)) (by simp [hk])
  | sleep p c =>
    obtain ⟨⟨hp, hl⟩, rfl⟩ := ite_some_none_eq_some.mp ht
    exact h.startSleep hp.1 hl
  | wakeup p c =>
    obtain ⟨⟨hp, hl⟩, rfl⟩ := ite_some_none_eq_some.mp ht
    exact h.goes (Moves.refl s p).setPc rfl rfl ⟨hp.1, hl⟩ (by simp [Awake]) (by simp)
  | acquiresleep p l =>
    obtain ⟨⟨hp, hl⟩, rfl⟩ := ite_some_none_eq_some.mp ht
    exact h.goes (Moves.setHeld (.inl hl)).setPc rfl rfl ⟨hp.1, update_self ..⟩ (by simp [Awake]) (by simp)
  | releasesleep p l =>
    obtain ⟨⟨hp, hold, hl⟩, rfl⟩ := ite_some_none_eq_some.mp ht
    exact h.goes (Moves.setHeld (.inl hl)).setPc rfl rfl ⟨hp.1, update_self .., hold⟩ (by simp [Awake]) (by simp)
  | step p =>
    obtain ⟨-, ht⟩ := ite_none_right_eq_some.mp ht
    exact h.stepProc ht
  | yield p =>
    obtain ⟨-, rfl⟩ := ite_some_none_eq_some.mp ht
    exact h.goes (Moves.refl s p).setState.setPc rfl rfl rfl (by simp [Awake]) (by simp)
  | schedule p =>
    obtain ⟨hp, rfl⟩ := ite_some_none_eq_some.mp ht
    exact h.resume hp.1
  | kkill p =>
    obtain ⟨-, ht⟩ := ite_none_left_eq_some.mp ht
    cases ht
    have hkilled : Inv lockOf { s with killed := update s.killed p true } :=
      ⟨fun q => (h.place q).keep rfl rfl rfl (fun _ hl => hl) fun _ _ => rfl, h.handler, h.swept, h.granted⟩
    exact hkilled.rouse p true
  | sigcont p =>
    obtain ⟨-, ht⟩ := ite_none_left_eq_some.mp ht
    cases ht
    exact h.rouse p true
  | intr k c =>
    obtain ⟨⟨-, hl⟩, rfl⟩ := ite_some_none_eq_some.mp ht
    refine h.setIntr (fun l' a => setHeld_other (.inl hl)) fun c' i hw => ?_
    cases hw
    exact ⟨update_self .., fun q hq => absurd hq (Nat.not_lt_zero _)⟩
  | intrStep k =>
    rw [Sleeping.next] at ht
    split at ht
    next c i hk => exact h.wakeStep (a := .cpu k) hk ht
    · cases ht

/-- A process that sleeps has not been passed by a `wakeup` on its channel that ended after its `sleep` had released
the condition lock; and a sleep lock has one holder, whatever makes sleepers runnable. -/
theorem no_lost_wakeup (hs : Reachable Init (next lockOf) noGuard s) :
    (∀ p, s.state p = .sleeping → s.woken p = false) ∧
    ∀ p q l, s.holds p l = true → s.holds q l = true → p = q := by
  have hinv : Inv lockOf s := by
    refine hs.invariant (Inv lockOf) (fun s h => .start h) ?_
    exact fun s a t h _ ht => h.next ht
  refine ⟨fun p hp => ?_, fun p q l hp hq => (hinv.granted q l hq).2 p hp⟩
  obtain ⟨c, -, -, hwoken⟩ := hinv.sleeping hp
  exact hwoken

end Locks

/-- Two processes at boot, with one condition and one sleep lock. -/
def bootPair : State 2 0 Unit Unit Unit where
  state _ := .runnable
  chan _ := none
  killed _ := false
  pc _ := .inYield
  intr _ := none
  held _ := none
  locked _ := false
  holds _ _ := false
  woken _ := false

def procA : Fin 2 := ⟨0, Nat.zero_lt_two⟩

def procB : Fin 2 := ⟨1, Nat.one_lt_two⟩

/-- The first process takes the sleep lock and the second goes to sleep on it. -/
def contend : List (Action 2 0 Unit Unit Unit) :=
  [.schedule procA, .acquiresleep procA (), .step procA, .step procA, .step procA,
    .schedule procB, .acquiresleep procB (), .step procB, .step procB, .step procB, .step procB]

/-- The first releases it, and the second gets it. -/
def handOver : List (Action 2 0 Unit Unit Unit) :=
  [.releasesleep procA (), .step procA, .step procA, .step procA, .step procA, .release (.proc procA) (.sleeplock ()),
    .schedule procB, .step procB, .step procB, .step procB, .step procB]

theorem sleep_lock_handed_over :
    (∃ s, run (next id) bootPair contend = some s ∧ s.state procB = .sleeping ∧ s.holds procA () = true ∧
      s.woken procB = false) ∧
    ∃ t, run (next id) bootPair (contend ++ handOver) = some t ∧ t.woken procB = true ∧ t.holds procB () = true ∧
      ∀ p, t.holds p () = true → p = procB := by
  have hinit : Init bootPair := by
    constructor <;> intros <;> rfl
  have hsleep : ((run (next id) bootPair contend).map fun s => (s.state procB, s.holds procA ())) =
      some (.sleeping, true) := by decide +kernel
  have hwake : ((run (next id) bootPair (contend ++ handOver)).map fun t => (t.woken procB, t.holds procB ())) =
      some (true, true) := by decide +kernel
  obtain ⟨s, hs, hres⟩ := map_eq_some_iff.mp hsleep
  obtain ⟨t, ht, hres'⟩ := map_eq_some_iff.mp hwake
  obtain ⟨hstate, hheld⟩ := Prod.mk.inj hres
  obtain ⟨hwoken, hgot⟩ := Prod.mk.inj hres'
  have hstill := (no_lost_wakeup (reachable_run (.start hinit) hs)).1 procB hstate
  have hone := (no_lost_wakeup (reachable_run (.start hinit) ht)).2
  exact ⟨⟨s, hs, hstate, hheld, hstill⟩, t, ht, hwoken, hgot, fun p hp => hone p procB () hp hgot⟩

end Xv6Lab.Process.Sleeping
