import Mathlib.Logic.ExistsUnique
import Mathlib.Tactic.ByContra

/-!
# Accounting for allocated cells

An allocator marks the cells `lo ≤ b < hi` that are in use; a client keeps the numbers of its cells in
slots, where 0 is an empty slot. `Accounts lo hi used slot` says that the marks and the slots agree:
every marked cell stands in exactly one slot, and every number in a slot is that of a marked cell.
Filling an empty slot with a cell just marked (`Accounts.fill`) and emptying the slot of a cell just
unmarked (`Accounts.clear`) keep the agreement.
-/

namespace Xv6Lab.Lib.Accounting

variable {S : Type} {lo hi : Nat} {used used' : Nat → Bool} {slot slot' : S → Nat}

structure Accounts (lo hi : Nat) (used : Nat → Bool) (slot : S → Nat) : Prop where
  /-- A marked cell stands in exactly one slot. -/
  once : ∀ b, lo ≤ b → b < hi → used b = true → ∃! x, slot x = b
  /-- The cell in a slot is marked. -/
  marked : ∀ x, slot x ≠ 0 → used (slot x) = true
  /-- The cell in a slot is one of the allocator's. -/
  range : ∀ x, slot x ≠ 0 → lo ≤ slot x ∧ slot x < hi

namespace Accounts

/-- No cell stands in two slots. -/
theorem inj (h : Accounts lo hi used slot) {x y : S} (hx : slot x ≠ 0) (hxy : slot x = slot y) : x = y := by
  obtain ⟨hlo, hhi⟩ := h.range x hx
  obtain ⟨z, _, hz⟩ := h.once _ hlo hhi (h.marked x hx)
  exact (hz x rfl).trans (hz y hxy.symm).symm

/-- A cell that is not marked stands in no slot. -/
theorem ne_of_unmarked (h : Accounts lo hi used slot) {b : Nat} (h0 : b ≠ 0) (hb : used b = false)
    (x : S) : slot x ≠ b := by
  rintro rfl
  have hm := h.marked x h0
  rw [hb] at hm
  cases hm

theorem congr (h : Accounts lo hi used slot) (hu : ∀ b, lo ≤ b → b < hi → used' b = used b)
    (hs : ∀ x, slot' x = slot x) : Accounts lo hi used' slot' where
  once b hlo hhi hb := by
    rw [hu b hlo hhi] at hb
    simpa only [hs] using h.once b hlo hhi hb
  marked x hx := by
    rw [hs] at hx ⊢
    obtain ⟨hlo, hhi⟩ := h.range x hx
    rw [hu _ hlo hhi]
    exact h.marked x hx
  range x hx := by
    rw [hs] at hx ⊢
    exact h.range x hx

section Change

variable {x : S} {b : Nat} (hpos : 0 < lo) (hs : ∀ y, y ≠ x → slot' y = slot y)
  (hu : ∀ c, c ≠ b → used' c = used c)

include hpos hs hu

/-- Fill an empty slot with a cell that was not marked. -/
theorem fill (h : Accounts lo hi used slot) (hlo : lo ≤ b) (hhi : b < hi) (hb : used b = false)
    (hx : slot x = 0) (hx' : slot' x = b) (hb' : used' b = true) :
    Accounts lo hi used' slot' := by
  have h0 : b ≠ 0 := by omega
  refine ⟨fun c hclo hchi hc => ?_, fun y hy => ?_, fun y hy => ?_⟩
  · rcases eq_or_ne c b with rfl | hcb
    · refine ⟨x, hx', fun y hy => ?_⟩
      by_contra hyx
      exact h.ne_of_unmarked h0 hb y ((hs y hyx).symm.trans hy)
    obtain ⟨z, hz, huniq⟩ := h.once c hclo hchi ((hu c hcb).symm.trans hc)
    have hzx : z ≠ x := by
      rintro rfl
      omega
    refine ⟨z, (hs z hzx).trans hz, fun y hy => ?_⟩
    rcases eq_or_ne y x with rfl | hyx
    · exact absurd (hy.symm.trans hx') hcb
    · exact huniq y ((hs y hyx).symm.trans hy)
  · rcases eq_or_ne y x with rfl | hyx
    · rw [hx', hb']
    · rw [hs y hyx] at hy ⊢
      rw [hu _ (h.ne_of_unmarked h0 hb y)]
      exact h.marked y hy
  · rcases eq_or_ne y x with rfl | hyx
    · rw [hx']
      exact ⟨hlo, hhi⟩
    · rw [hs y hyx] at hy ⊢
      exact h.range y hy

/-- Empty the slot of a cell whose mark is taken away. -/
theorem clear (h : Accounts lo hi used slot) (hx : slot x = b) (h0 : b ≠ 0) (hx' : slot' x = 0)
    (hb' : used' b = false) : Accounts lo hi used' slot' := by
  have hne : ∀ y ≠ x, slot y ≠ b := by
    intro y hyx hy
    exact hyx (h.inj (hy ▸ h0) (hy.trans hx.symm))
  refine ⟨fun c hclo hchi hc => ?_, fun y hy => ?_, fun y hy => ?_⟩
  · have hcb : c ≠ b := by
      rintro rfl
      rw [hb'] at hc
      cases hc
    obtain ⟨z, hz, huniq⟩ := h.once c hclo hchi ((hu c hcb).symm.trans hc)
    have hzx : z ≠ x := by
      rintro rfl
      exact hcb (hz.symm.trans hx)
    refine ⟨z, (hs z hzx).trans hz, fun y hy => ?_⟩
    rcases eq_or_ne y x with rfl | hyx
    · omega
    · exact huniq y ((hs y hyx).symm.trans hy)
  · rcases eq_or_ne y x with rfl | hyx
    · exact absurd hx' hy
    · rw [hs y hyx] at hy ⊢
      rw [hu _ (hne y hyx)]
      exact h.marked y hy
  · rcases eq_or_ne y x with rfl | hyx
    · exact absurd hx' hy
    · rw [hs y hyx] at hy ⊢
      exact h.range y hy

end Change

end Accounts

end Xv6Lab.Lib.Accounting
