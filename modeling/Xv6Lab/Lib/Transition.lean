import Mathlib.Logic.Relation

/-!
# Guarded runs of a transition function

A system is given by its initial states and a partial step function on states and actions. A guard
`ok s a` restricts the steps of a run by a condition on the state before the step; `noGuard` allows
every step. `Reachable.invariant` is the induction every safety proof of this development uses: a
property that holds initially and is kept by each allowed step holds in every state reached.
-/

namespace Xv6Lab.Lib.Transition

universe u v

variable {σ : Type u} {α : Type v} {s t : σ} {as : List α}

/-- The guard that allows every step. -/
def noGuard : σ → α → Prop := fun _ _ => True

/-- States reached from an initial state by steps whose pre-state meets the guard. -/
inductive Reachable (init : σ → Prop) (next : σ → α → Option σ) (ok : σ → α → Prop) : σ → Prop
  | start {s : σ} : init s → Reachable init next ok s
  | step {s t : σ} (a : α) : Reachable init next ok s → ok s a → next s a = some t →
      Reachable init next ok t

/-- Perform a list of actions; the run is undefined as soon as one action is. -/
def run (next : σ → α → Option σ) : σ → List α → Option σ
  | s, [] => some s
  | s, a :: as => (next s a).bind fun t => run next t as

section Rules

variable {init : σ → Prop} {next : σ → α → Option σ} {ok : σ → α → Prop}

/-- The invariant rule. -/
theorem Reachable.invariant (I : σ → Prop) (h : Reachable init next ok s) (hinit : ∀ s, init s → I s)
    (hstep : ∀ s a t, I s → ok s a → next s a = some t → I t) : I s := by
  induction h with
  | start h0 => exact hinit _ h0
  | step a _ hok hnext ih => exact hstep _ a _ ih hok hnext

/-- A list of actions that the guard allows in every state. -/
theorem reachable_run_of (hs : Reachable init next ok s) (hok : ∀ s, ∀ a ∈ as, ok s a)
    (h : run next s as = some t) : Reachable init next ok t := by
  induction as generalizing s with
  | nil =>
    cases Option.some.inj h
    exact hs
  | cons a as ih =>
    obtain ⟨u, hu, hrest⟩ := Option.bind_eq_some_iff.mp h
    have ha := hok s a List.mem_cons_self
    exact ih (Reachable.step a hs ha hu) (fun s b hb => hok s b (List.mem_cons_of_mem a hb)) hrest

/-- An executed list of actions reaches its final state. -/
theorem reachable_run (hs : Reachable init next noGuard s)
    (h : run next s as = some t) : Reachable init next noGuard t :=
  reachable_run_of hs (fun _ _ _ => trivial) h

/-- A step that is taken only if the guard allows it. -/
def guarded (next : σ → α → Option σ) (ok : σ → α → Prop) [∀ s a, Decidable (ok s a)] (s : σ) (a : α) : Option σ :=
  if ok s a then next s a else none

/-- A list of actions that the guard allows reaches its final state under the guard. -/
theorem reachable_guarded_run [∀ s a, Decidable (ok s a)]
    (hs : Reachable init next ok s) (h : run (guarded next ok) s as = some t) :
    Reachable init next ok t := by
  induction as generalizing s with
  | nil =>
    cases Option.some.inj h
    exact hs
  | cons a as ih =>
    obtain ⟨u, hu, hrest⟩ := Option.bind_eq_some_iff.mp h
    obtain ⟨hok, hnext⟩ := Option.ite_none_right_eq_some.mp hu
    exact ih (Reachable.step a hs hok hnext) hrest

end Rules

end Xv6Lab.Lib.Transition
