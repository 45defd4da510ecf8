import Mathlib.Init

/-!
# Running stateful programs

Programs of this development are functions from a state to a result and a new state, or to an error.
A program that returned went through its parts in order.

`wp x Q E s` says what a run of `x` from the state `s` ends in: a result and a state in `Q`, or an
error in `E`. The rules `wp_pure`, `wp_bind`, `wp_seq`, `wp_mono` and those for the primitive effects
derive such statements along the text of a program; `wp_ok` and `wp_error` read them back. `after` and
`stopOf` are the two ends of a run as functions.
-/

namespace Xv6Lab.Lib.Exec

variable {ε σ α γ : Type} {x : EStateM ε σ α} {s : σ}

/-- Sequencing after a program that returned. -/
theorem bind_of_ok {f : α → EStateM ε σ γ} {t : σ} {a : α} (h : x s = .ok a t) : (x >>= f) s = f a t := by
  show EStateM.bind x f s = f a t
  rw [EStateM.bind, h]

theorem get_bind {f : σ → EStateM ε σ γ} : ((get : EStateM ε σ σ) >>= f) s = f s s := rfl

/-- A sequence that returned went through an intermediate state. -/
theorem bind_eq_ok {f : α → EStateM ε σ γ} {u : σ} {c : γ}
    (h : (x >>= f) s = .ok c u) : ∃ a t, x s = .ok a t ∧ f a t = .ok c u := by
  cases hx : x s with
  | ok a t =>
    rw [bind_of_ok hx] at h
    exact ⟨a, t, rfl, h⟩
  | error e t =>
    have herr : (x >>= f) s = .error e t := by
      show EStateM.bind x f s = _
      rw [EStateM.bind, hx]
    rw [herr] at h
    cases h

/-- A program that undoes its work on failure and did not return the result `a` for it went on. -/
theorem bind_ite_ok {x : EStateM ε σ Bool} {f : EStateM ε σ γ} {undo : EStateM ε σ α} {u : σ} {a c : γ}
    (h : (x >>= fun ok => if ok then f else undo >>= fun _ => pure a) s = .ok c u) (ha : a ≠ c) :
    ∃ t, x s = .ok true t ∧ f t = .ok c u := by
  obtain ⟨ok, t, hx, hrest⟩ := bind_eq_ok h
  cases ok with
  | false =>
    obtain ⟨_, _, -, hfin⟩ := bind_eq_ok hrest
    cases hfin
    exact absurd rfl ha
  | true => exact ⟨t, hx, hrest⟩

/-- The run returns, and its result and final state pass the test. -/
def yields (x : EStateM ε σ α) (s : σ) (test : α → σ → Bool) : Bool :=
  match x s with
  | .ok a t => test a t
  | .error _ _ => false

theorem yields_true {test : α → σ → Bool} (h : yields x s test = true) : ∃ a t, x s = .ok a t ∧ test a t = true := by
  rw [yields] at h
  cases hx : x s with
  | ok a t =>
    rw [hx] at h
    exact ⟨a, t, rfl, h⟩
  | error e t =>
    rw [hx] at h
    cases h

theorem yields_some {x : EStateM ε σ (Option α)} {test : α → σ → Bool}
    (h : yields x s (fun r t => r.any fun a => test a t) = true) : ∃ a t, x s = .ok (some a) t ∧ test a t = true := by
  obtain ⟨r, t, hx, hr⟩ := yields_true h
  obtain ⟨a, rfl, ha⟩ := (Option.any_eq_true _ _).mp hr
  exact ⟨a, t, hx, ha⟩

/-! ## Pre- and postconditions -/

/-- A run of `x` from `s` returns within `Q` or stops with an error in `E`. -/
def wp (x : EStateM ε σ α) (Q : α → σ → Prop) (E : ε → Prop) (s : σ) : Prop :=
  match x s with
  | .ok a t => Q a t
  | .error e _ => E e

section Rules

variable {x : EStateM ε σ α} {f : α → EStateM ε σ γ} {Q R : α → σ → Prop} {S : γ → σ → Prop}
  {E F : ε → Prop} {s t : σ} {a : α} {e : ε}

theorem wp_of_ok (h : x s = .ok a t) (hQ : Q a t) : wp x Q E s := by
  rw [wp, h]
  exact hQ

theorem wp_ok (h : wp x Q E s) (hx : x s = .ok a t) : Q a t := by
  rw [wp, hx] at h
  exact h

theorem wp_error (h : wp x Q E s) (hx : x s = .error e t) : E e := by
  rw [wp, hx] at h
  exact h

theorem wp_iff_of_ok (h : x s = .ok a t) : wp x Q E s ↔ Q a t :=
  ⟨fun hx => wp_ok hx h, wp_of_ok h⟩

theorem wp_pure : wp (pure a : EStateM ε σ α) Q E s ↔ Q a s := Iff.rfl

theorem wp_throw : wp (throw e : EStateM ε σ α) Q E s ↔ E e := Iff.rfl

theorem wp_get {P : σ → σ → Prop} : wp (get : EStateM ε σ σ) P E s ↔ P s s := Iff.rfl

theorem wp_set {P : PUnit → σ → Prop} : wp (set t : EStateM ε σ PUnit) P E s ↔ P ⟨⟩ t := Iff.rfl

theorem wp_modify {P : Unit → σ → Prop} {g : σ → σ} : wp (modify g : EStateM ε σ Unit) P E s ↔ P () (g s) := Iff.rfl

theorem wp_bind : wp (x >>= f) S E s ↔ wp x (fun a t => wp (f a) S E t) E s := by
  show (match EStateM.bind x f s with | .ok a t => S a t | .error e _ => E e) ↔ _
  rw [EStateM.bind, wp]
  cases x s with
  | ok a t => rfl
  | error e t => rfl

theorem wp_map {g : α → γ} : wp (g <$> x) S E s ↔ wp x (fun a t => S (g a) t) E s := by
  show (match EStateM.map g x s with | .ok a t => S a t | .error e _ => E e) ↔ _
  rw [EStateM.map, wp]
  cases x s with
  | ok a t => rfl
  | error e t => rfl

/-- The rule of consequence. -/
theorem wp_mono (h : wp x Q E s) (hQ : ∀ a t, Q a t → R a t) (hE : ∀ e, E e → F e) : wp x R F s := by
  rw [wp] at h ⊢
  cases hx : x s with
  | ok a t =>
    rw [hx] at h
    exact hQ a t h
  | error e t =>
    rw [hx] at h
    exact hE e h

theorem wp_post (h : wp x Q E s) (hQ : ∀ a t, Q a t → R a t) : wp x R E s :=
  wp_mono h hQ fun _ he => he

/-- Sequencing from what is known of the first program. -/
theorem wp_seq (h : wp x Q F s) (hE : ∀ e, F e → E e) (hf : ∀ a t, Q a t → wp (f a) S E t) : wp (x >>= f) S E s :=
  wp_bind.mpr (wp_mono h hf hE)

/-- Sequencing of programs that stop for the same reasons. -/
theorem wp_then (h : wp x Q E s) (hf : ∀ a t, Q a t → wp (f a) S E t) : wp (x >>= f) S E s :=
  wp_seq h (fun _ he => he) hf

/-- A program that cannot stop returns. -/
theorem wp_returns (h : wp x Q E s) (hE : ∀ e, ¬ E e) : ∃ a t, x s = .ok a t ∧ Q a t := by
  cases hx : x s with
  | ok a t => exact ⟨a, t, rfl, wp_ok h hx⟩
  | error e t => exact absurd (wp_error h hx) (hE e)

/-- Two facts about one run. -/
theorem wp_and (h : wp x Q E s) (h' : wp x R F s) : wp x (fun a t => Q a t ∧ R a t) (fun e => E e ∧ F e) s := by
  rw [wp] at h h' ⊢
  cases hx : x s with
  | ok | error =>
    rw [hx] at h h'
    exact ⟨h, h'⟩

/-- A loop over a list keeps an invariant of the state and the elements that are left. -/
theorem wp_forM {β : Type} {g : β → EStateM ε σ PUnit} {I : List β → σ → Prop} (bs : List β) (hs : I bs s)
    (hstep : ∀ b bs t, I (b :: bs) t → wp (g b) (fun _ u => I bs u) E t) :
    wp (bs.forM g) (fun _ t => I [] t) E s := by
  induction bs generalizing s with
  | nil => exact wp_pure.mpr hs
  | cons b bs ih => exact wp_then (hstep b bs s hs) fun _ t ht => ih ht

/-- The state a program leaves when it returns. -/
def after (x : EStateM ε σ α) (s : σ) : Option σ :=
  match x s with
  | .ok _ t => some t
  | .error _ _ => none

/-- What a program that does not return stops with. -/
def stopOf (x : EStateM ε σ α) (s : σ) : Option ε :=
  match x s with
  | .ok _ _ => none
  | .error e _ => some e

theorem wp_after {P : σ → Prop} (h : wp x Q E s) (hQ : ∀ a t, Q a t → P t) (ht : after x s = some t) : P t := by
  unfold after at ht
  split at ht
  next a u hx =>
    cases ht
    exact hQ a _ (wp_ok h hx)
  · cases ht

theorem wp_stopOf (h : wp x Q E s) (he : stopOf x s = some e) : E e := by
  unfold stopOf at he
  split at he
  · cases he
  next hx =>
    cases he
    exact wp_error h hx

end Rules

-- the rules above are the only way to a statement about a program
attribute [irreducible] wp

end Xv6Lab.Lib.Exec
