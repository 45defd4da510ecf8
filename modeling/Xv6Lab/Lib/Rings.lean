import Mathlib.Data.Finset.Max

/-!
# Circular lists in order

A circular list of nodes from a linear order, linked by `next`, that runs upwards except for one step from the
greatest node to the least. `reaches` shows that it is one cycle, `link` and `unlink` put in and take out
one node, and `visits` is what a scan needs that starts behind a node and stops when it is back at it.
-/

namespace Xv6Lab.Lib.Rings

open Finset

variable {α : Type} [LinearOrder α] {next next' : α → α} {M : Finset α} {p q b : α}

/-- From each node, `next` leads to the node after it, or from the greatest to the least. -/
structure OrderedRing (next : α → α) (M : Finset α) : Prop where
  mem : ∀ p ∈ M, next p ∈ M
  step : ∀ p ∈ M, (p < next p ∧ ∀ q ∈ M, q ≤ p ∨ next p ≤ q) ∨ ∀ q ∈ M, next p ≤ q ∧ q ≤ p

/-- The last node below `b`. -/
structure Before (M : Finset α) (p b : α) : Prop where
  mem : p ∈ M
  lt : p < b
  last : ∀ q ∈ M, q ≤ p ∨ b < q

theorem Before.exists_of_lt (hp : p ∈ M) (hlt : p < b) (hb : b ∉ M) : ∃ r, Before M r b := by
  have hne : (M.filter (· < b)).Nonempty := ⟨p, mem_filter.mpr ⟨hp, hlt⟩⟩
  obtain ⟨hmem, hmax⟩ := mem_filter.mp (max'_mem _ hne)
  refine ⟨_, hmem, hmax, fun q hq => ?_⟩
  rcases lt_trichotomy q b with hqb | rfl | hbq
  · exact .inl (le_max' _ q (mem_filter.mpr ⟨hq, hqb⟩))
  · exact absurd hq hb
  · exact .inr hbq

namespace OrderedRing

theorem single (h : next b = b) : OrderedRing next {b} := by
  refine ⟨fun p hp => ?_, fun p hp => .inr fun q hq => ?_⟩
  · obtain rfl := mem_singleton.mp hp
    exact mem_singleton.mpr h
  · obtain rfl := mem_singleton.mp hp
    obtain rfl := mem_singleton.mp hq
    exact ⟨h.le, le_rfl⟩

theorem congr (h : OrderedRing next M) (heq : ∀ p ∈ M, next' p = next p) : OrderedRing next' M := by
  refine ⟨fun p hp => ?_, fun p hp => ?_⟩
  · rw [heq p hp]
    exact h.mem p hp
  · rw [heq p hp]
    exact h.step p hp

theorem iterate_mem (h : OrderedRing next M) (hp : p ∈ M) (k : Nat) : next^[k] p ∈ M := by
  induction k with
  | zero => exact hp
  | succ k ih =>
    rw [Function.iterate_succ_apply']
    exact h.mem _ ih

theorem injective (h : OrderedRing next M) (hp : p ∈ M) (hq : q ∈ M) (heq : next p = next q) : p = q := by
  rcases h.step p hp with ⟨hlt, hup⟩ | htop
  · rcases h.step q hq with ⟨hlt', hup'⟩ | htop'
    · rcases hup q hq with hqp | hge
      · rcases hup' p hp with hpq | hge'
        · exact le_antisymm hpq hqp
        · exact absurd (heq ▸ hlt) (not_lt.mpr hge')
      · exact absurd (heq ▸ hlt') (not_lt.mpr hge)
    · exact absurd (heq ▸ hlt) (not_lt.mpr (htop' p hp).1)
  · rcases h.step q hq with ⟨hlt', -⟩ | htop'
    · exact absurd (heq ▸ hlt') (not_lt.mpr (htop q hq).1)
    · exact le_antisymm (htop' p hp).2 (htop q hq).2

/-! ## One cycle -/

section

variable (h : OrderedRing next M) (hp : p ∈ M)
include h hp

theorem climb (hq : q ∈ M) (hle : p ≤ q) : ∃ k, next^[k] p = q := by
  -- induction on the number of nodes between the two
  induction hn : (M.filter fun r => p < r ∧ r ≤ q).card using Nat.strong_induction_on generalizing p with
  | _ n ih =>
    rcases hle.eq_or_lt with rfl | hlt
    · exact ⟨0, rfl⟩
    rcases h.step p hp with ⟨hup, hnext⟩ | htop
    · have hle' : next p ≤ q := (hnext q hq).resolve_left (not_le.mpr hlt)
      have hfewer : (M.filter fun r => next p < r ∧ r ≤ q) ⊂ M.filter fun r => p < r ∧ r ≤ q := by
        refine ssubset_iff_of_subset ?_ |>.mpr ⟨next p, ?_, ?_⟩
        · intro r hr
          obtain ⟨hrM, hr⟩ := mem_filter.mp hr
          exact mem_filter.mpr ⟨hrM, hup.trans hr.1, hr.2⟩
        · exact mem_filter.mpr ⟨h.mem p hp, hup, hle'⟩
        · exact fun hr => lt_irrefl _ (mem_filter.mp hr).2.1
      obtain ⟨k, hk⟩ := ih _ (hn ▸ card_lt_card hfewer) (h.mem p hp) hle' rfl
      exact ⟨k + 1, hk⟩
    · exact absurd (htop q hq).2 (not_le.mpr hlt)

/-- Each node is reached from each. -/
theorem reaches (hq : q ∈ M) : ∃ k, next^[k] p = q := by
  have hne : M.Nonempty := ⟨p, hp⟩
  have htop := M.max'_mem hne
  obtain ⟨k, hk⟩ := h.climb hp htop (M.le_max' p hp)
  have hlow : ∀ r ∈ M, next (M.max' hne) ≤ r := by
    rcases h.step _ htop with ⟨hlt, -⟩ | hwrap
    · exact absurd (M.le_max' _ (h.mem _ htop)) (not_le.mpr hlt)
    · exact fun r hr => (hwrap r hr).1
  obtain ⟨j, hj⟩ := h.climb (h.mem _ htop) hq (hlow q hq)
  refine ⟨j + 1 + k, ?_⟩
  rw [Function.iterate_add_apply, hk, Function.iterate_succ_apply, hj]

/-- One step of the cycle does not go upwards. -/
theorem wrap_unique : ∃! q, q ∈ M ∧ next q ≤ q := by
  have htop := M.max'_mem ⟨p, hp⟩
  refine ⟨_, ⟨htop, M.le_max' _ (h.mem _ htop)⟩, fun q hq => ?_⟩
  rcases h.step q hq.1 with ⟨hlt, -⟩ | hwrap
  · exact absurd hq.2 (not_le.mpr hlt)
  · exact le_antisymm (M.le_max' q hq.1) (hwrap _ htop).2

end

/-- A scan that starts behind `b` and has come back to `b` has seen every node. -/
theorem visits (h : OrderedRing next M) (hb : b ∈ M) (hq : q ∈ M) {k : Nat} (hk : next^[k] (next b) = b) :
    ∃ j ≤ k, next^[j] (next b) = q := by
  obtain ⟨j, hj⟩ := h.reaches (h.mem b hb) hq
  -- a longer way round is cut down by full turns
  induction j using Nat.strong_induction_on with
  | _ j ih =>
    rcases Nat.lt_or_ge k j with hlt | hge
    · obtain ⟨i, rfl⟩ := Nat.exists_eq_add_of_lt hlt
      refine ih i (by omega) ?_
      rw [show k + i + 1 = i + 1 + k by omega, Function.iterate_add_apply, hk, Function.iterate_succ_apply] at hj
      exact hj
    · exact ⟨j, hge, hj⟩

/-! ## Relinking -/

/-- Where the node before `b` leads. -/
theorem next_of_before (h : OrderedRing next M) (hp : Before M p b) : b < next p ∨ next p ≤ p := by
  rcases hp.last _ (h.mem p hp.mem) with hle | hlt
  · exact .inr hle
  · exact .inl hlt

theorem link (h : OrderedRing next M) (hp : Before M p b) (hb : b ∉ M)
    (hoff : ∀ q ∈ M, q ≠ p → next' q = next q) (hpb : next' p = b) (hbn : next' b = next p) :
    OrderedRing next' (insert b M) := by
  have hmem := h.mem p hp.mem
  refine ⟨fun q hq => ?_, fun q hq => ?_⟩
  · rcases mem_insert.mp hq with rfl | hq
    · rw [hbn]
      exact mem_insert_of_mem hmem
    rcases eq_or_ne q p with rfl | hqp
    · rw [hpb]
      exact mem_insert_self ..
    · rw [hoff q hq hqp]
      exact mem_insert_of_mem (h.mem q hq)
  rcases mem_insert.mp hq with rfl | hq
  · -- the new node goes on where the one before it did
    rw [hbn]
    rcases h.step p hp.mem with ⟨hlt, hup⟩ | htop
    · have hbelow : q < next p := (hp.last _ hmem).resolve_left (not_le.mpr hlt)
      refine .inl ⟨hbelow, forall_mem_insert _ _ _ |>.mpr ⟨.inl le_rfl, fun r hr => ?_⟩⟩
      exact (hup r hr).imp_left fun hle => hle.trans hp.lt.le
    · refine .inr (forall_mem_insert _ _ _ |>.mpr ⟨⟨((htop p hp.mem).1.trans hp.lt.le), le_rfl⟩, fun r hr => ?_⟩)
      exact ⟨(htop r hr).1, (htop r hr).2.trans hp.lt.le⟩
  · rcases eq_or_ne q p with rfl | hqp
    · rw [hpb]
      refine .inl ⟨hp.lt, forall_mem_insert _ _ _ |>.mpr ⟨.inr le_rfl, fun r hr => ?_⟩⟩
      exact (hp.last r hr).imp_right le_of_lt
    rw [hoff q hq hqp]
    have hbq : p < q → b < q := fun hlt => (hp.last q hq).resolve_left (not_le.mpr hlt)
    rcases h.step q hq with ⟨hlt, hup⟩ | htop
    · refine .inl ⟨hlt, forall_mem_insert _ _ _ |>.mpr ⟨?_, hup⟩⟩
      rcases hup p hp.mem with hpq | hqn
      · exact .inl (hbq (lt_of_le_of_ne hpq hqp.symm)).le
      · exact .inr (hqn.trans hp.lt.le)
    · refine .inr (forall_mem_insert _ _ _ |>.mpr ⟨?_, htop⟩)
      obtain ⟨hlow, hpq⟩ := htop p hp.mem
      exact ⟨hlow.trans hp.lt.le, (hbq (lt_of_le_of_ne hpq hqp.symm)).le⟩

theorem unlink (h : OrderedRing next M) (hp : p ∈ M) (hne : next p ≠ p)
    (hoff : ∀ q ∈ M, q ≠ p → q ≠ next p → next' q = next q) (hpn : next' p = next (next p)) :
    OrderedRing next' (M.erase (next p)) := by
  have hc := h.mem p hp
  have hcc : next (next p) ≠ next p := by
    intro heq
    exact hne (h.injective hc hp heq)
  refine ⟨fun q hq => ?_, fun q hq => ?_⟩
  · obtain ⟨hqc, hqM⟩ := mem_erase.mp hq
    rcases eq_or_ne q p with rfl | hqp
    · rw [hpn]
      exact mem_erase.mpr ⟨hcc, h.mem _ hc⟩
    · rw [hoff q hqM hqp hqc]
      exact mem_erase.mpr ⟨fun heq => hqp (h.injective hqM hp heq), h.mem q hqM⟩
  obtain ⟨hqc, hqM⟩ := mem_erase.mp hq
  rcases eq_or_ne q p with rfl | hqp
  · rw [hpn]
    rcases h.step q hp with ⟨hlt, hup⟩ | htop <;> rcases h.step _ hc with ⟨hlt', hup'⟩ | htop'
    · refine .inl ⟨hlt.trans hlt', fun r hr => ?_⟩
      obtain ⟨hrc, hr⟩ := mem_erase.mp hr
      refine (hup r hr).imp_right fun hle => (hup' r hr).resolve_left ?_
      exact not_le.mpr (lt_of_le_of_ne hle hrc.symm)
    · refine .inr fun r hr => ?_
      obtain ⟨hrc, hr⟩ := mem_erase.mp hr
      refine ⟨(htop' r hr).1, (hup r hr).resolve_right fun hle => hrc ?_⟩
      exact le_antisymm (htop' r hr).2 hle
    · refine .inr fun r hr => ?_
      obtain ⟨hrc, hr⟩ := mem_erase.mp hr
      refine ⟨(hup' r hr).resolve_left fun hle => hrc ?_, (htop r hr).2⟩
      exact le_antisymm hle (htop r hr).1
    · exact absurd (le_antisymm (htop q hp).1 (htop' q hp).2) hne
  · rw [hoff q hqM hqp hqc]
    refine (h.step q hqM).imp (fun hs => ⟨hs.1, fun r hr => ?_⟩) fun hs r hr => ?_
    · exact hs.2 r (mem_of_mem_erase hr)
    · exact hs r (mem_of_mem_erase hr)

end OrderedRing

end Xv6Lab.Lib.Rings
