import Mathlib.Algebra.Order.BigOperators.Group.Finset
import Mathlib.Tactic.Ring

/-!
# Tilings of a region by blocks

Blocks are given by their first addresses and a length for each. They tile a region when they do not overlap and cover
it exactly; the lengths then add up to what the region has. A block can be cut in two (`split`), two adjacent ones can
become one (`merge`), and a fresh piece can be added above all others (`add`).
-/

namespace Xv6Lab.Lib.Tiling

open Finset

variable {B : Finset Nat} {len len' : Nat → Nat} {region : Nat → Prop} {total b c k : Nat}

structure Tiles (B : Finset Nat) (len : Nat → Nat) (region : Nat → Prop) (total : Nat) : Prop where
  pos : ∀ b ∈ B, 0 < len b
  disjoint : ∀ b ∈ B, ∀ c ∈ B, b < c → b + len b ≤ c
  cover : ∀ x, region x ↔ ∃ b ∈ B, b ≤ x ∧ x < b + len b
  sum : ∑ b ∈ B, len b = total

namespace Tiles

theorem empty : Tiles ∅ len (fun _ => False) 0 where
  pos _ hb := absurd hb (notMem_empty _)
  disjoint _ hb := absurd hb (notMem_empty _)
  cover _ := ⟨False.elim, fun ⟨_, hb, _⟩ => absurd hb (notMem_empty _)⟩
  sum := sum_empty

section

variable (h : Tiles B len region total)
include h

theorem congr (heq : ∀ b ∈ B, len' b = len b) : Tiles B len' region total where
  pos b hb := heq b hb ▸ h.pos b hb
  disjoint b hb c hc hlt := heq b hb ▸ h.disjoint b hb c hc hlt
  cover x := by
    rw [h.cover x]
    constructor
    · rintro ⟨b, hb, hx⟩
      exact ⟨b, hb, heq b hb ▸ hx⟩
    · rintro ⟨b, hb, hx⟩
      exact ⟨b, hb, heq b hb ▸ hx⟩
  sum := (sum_congr rfl heq).trans h.sum

/-- Two blocks have no more than the whole. -/
theorem add_le (hb : b ∈ B) (hc : c ∈ B) (hne : b ≠ c) : len b + len c ≤ total := by
  have hsub : ({b, c} : Finset Nat) ⊆ B := by
    intro x hx
    rcases mem_insert.mp hx with rfl | hx
    · exact hb
    · rw [mem_singleton.mp hx]
      exact hc
  calc len b + len c = ∑ x ∈ {b, c}, len x := (sum_pair hne).symm
    _ ≤ ∑ x ∈ B, len x := sum_le_sum_of_subset hsub
    _ = total := h.sum

theorem merge (hb : b ∈ B) (hc : c ∈ B) (hadj : b + len b = c)
    (hlen : len' b = len b + len c) (hoff : ∀ x ∈ B, x ≠ b → x ≠ c → len' x = len x) :
    Tiles (B.erase c) len' region total := by
  have hbc : b ≠ c := by
    have := h.pos b hb
    omega
  have hbE : b ∈ B.erase c := mem_erase.mpr ⟨hbc, hb⟩
  have hoff' : ∀ x ∈ B.erase c, x ≠ b → len' x = len x := fun x hx hxb =>
    hoff x (mem_of_mem_erase hx) hxb (ne_of_mem_erase hx)
  refine ⟨fun x hx => ?_, fun x hx y hy hlt => ?_, fun x => ?_, ?_⟩
  · rcases eq_or_ne x b with rfl | hxb
    · have := h.pos x hb
      omega
    · rw [hoff' x hx hxb]
      exact h.pos x (mem_of_mem_erase hx)
  · have hyB := mem_of_mem_erase hy
    rcases eq_or_ne x b with rfl | hxb
    · -- a block above `b` is above `c` too
      have hxy := h.disjoint x hb y hyB hlt
      have hcy : c < y := lt_of_le_of_ne (hadj ▸ hxy) (ne_of_mem_erase hy).symm
      have := h.disjoint c hc y hyB hcy
      omega
    · rw [hoff' x hx hxb]
      exact h.disjoint x (mem_of_mem_erase hx) y hyB hlt
  · rw [h.cover x]
    constructor
    · rintro ⟨y, hy, hx⟩
      rcases eq_or_ne y c with rfl | hyc
      · exact ⟨b, hbE, by omega⟩
      · rcases eq_or_ne y b with rfl | hyb
        · exact ⟨y, hbE, by omega⟩
        · exact ⟨y, mem_erase.mpr ⟨hyc, hy⟩, hoff y hy hyb hyc ▸ hx⟩
    · rintro ⟨y, hy, hx⟩
      rcases eq_or_ne y b with rfl | hyb
      · rcases Nat.lt_or_ge x c with hlt | hge
        · exact ⟨y, hb, by omega⟩
        · exact ⟨c, hc, by omega⟩
      · exact ⟨y, mem_of_mem_erase hy, hoff' y hy hyb ▸ hx⟩
  · have hrest : ∑ x ∈ (B.erase c).erase b, len' x = ∑ x ∈ (B.erase c).erase b, len x :=
      sum_congr rfl fun x hx => hoff' x (mem_of_mem_erase hx) (ne_of_mem_erase hx)
    have hall := h.sum
    rw [← add_sum_erase B len hc, ← add_sum_erase (B.erase c) len hbE] at hall
    rw [← add_sum_erase (B.erase c) len' hbE, hrest]
    omega

theorem split (hb : b ∈ B) (hk : 0 < k) (hlt : k < len b) (hleft : len' b = k)
    (hright : len' (b + k) = len b - k) (hoff : ∀ x ∈ B, x ≠ b → len' x = len x) :
    Tiles (insert (b + k) B) len' region total := by
  -- the second part starts inside `b`, so no block starts there
  have hnot : b + k ∉ B := by
    intro hmem
    have := h.disjoint b hb _ hmem (by omega)
    omega
  have hlow : ∀ x ∈ B, x ≠ b → x + len' x ≤ b ∨ b + len b ≤ x := by
    intro x hx hxb
    rw [hoff x hx hxb]
    rcases Nat.lt_or_gt_of_ne hxb with hlt | hgt
    · exact .inl (h.disjoint x hx b hb hlt)
    · exact .inr (h.disjoint b hb x hx hgt)
  refine ⟨fun x hx => ?_, fun x hx y hy hxy => ?_, fun x => ?_, ?_⟩
  · rcases mem_insert.mp hx with rfl | hx
    · omega
    rcases eq_or_ne x b with rfl | hxb
    · omega
    · rw [hoff x hx hxb]
      exact h.pos x hx
  · rcases mem_insert.mp hx with rfl | hxB <;> rcases mem_insert.mp hy with rfl | hyB
    · omega
    · rcases eq_or_ne y b with rfl | hyb
      · omega
      have := h.pos y hyB
      have := hlow y hyB hyb
      rw [hoff y hyB hyb] at this
      omega
    · rcases eq_or_ne x b with rfl | hxb
      · omega
      have := hlow x hxB hxb
      have := h.pos x hxB
      rw [← hoff x hxB hxb] at this
      omega
    · rcases eq_or_ne x b with rfl | hxb
      · have := h.disjoint x hb y hyB hxy
        omega
      · rw [hoff x hxB hxb]
        exact h.disjoint x hxB y hyB hxy
  · rw [h.cover x]
    constructor
    · rintro ⟨y, hy, hx⟩
      rcases eq_or_ne y b with rfl | hyb
      · rcases Nat.lt_or_ge x (y + k) with hin | hin
        · exact ⟨y, mem_insert_of_mem hb, by omega⟩
        · exact ⟨y + k, mem_insert_self .., by omega⟩
      · exact ⟨y, mem_insert_of_mem hy, hoff y hy hyb ▸ hx⟩
    · rintro ⟨y, hy, hx⟩
      rcases mem_insert.mp hy with rfl | hy
      · exact ⟨b, hb, by omega⟩
      · rcases eq_or_ne y b with rfl | hyb
        · exact ⟨y, hb, by omega⟩
        · exact ⟨y, hy, hoff y hy hyb ▸ hx⟩
  · have hrest : ∑ x ∈ B.erase b, len' x = ∑ x ∈ B.erase b, len x :=
      sum_congr rfl fun x hx => hoff x (mem_of_mem_erase hx) (ne_of_mem_erase hx)
    have hall := h.sum
    rw [← add_sum_erase B len hb] at hall
    rw [sum_insert hnot, ← add_sum_erase B len' hb, hrest]
    omega

theorem add (hk : 0 < k) (habove : ∀ x ∈ B, x + len x ≤ b) (hlen : len' b = k) (hoff : ∀ x ∈ B, len' x = len x) :
    Tiles (insert b B) len' (fun x => (b ≤ x ∧ x < b + k) ∨ region x) (k + total) := by
  have hnot : b ∉ B := by
    intro hb
    have := habove b hb
    have := h.pos b hb
    omega
  have hold := h.congr hoff
  refine ⟨fun x hx => ?_, fun x hx y hy hxy => ?_, fun x => ?_, ?_⟩
  · rcases mem_insert.mp hx with rfl | hx
    · omega
    · exact hold.pos x hx
  · rcases mem_insert.mp hx with rfl | hxB <;> rcases mem_insert.mp hy with rfl | hyB
    · omega
    · have := habove y hyB
      omega
    · rw [hoff x hxB]
      exact habove x hxB
    · exact hold.disjoint x hxB y hyB hxy
  · rw [hold.cover x]
    constructor
    · rintro (hx | ⟨y, hy, hx⟩)
      · exact ⟨b, mem_insert_self .., by omega⟩
      · exact ⟨y, mem_insert_of_mem hy, hx⟩
    rintro ⟨y, hy, hx⟩
    rcases mem_insert.mp hy with rfl | hy
    · exact .inl (by omega)
    · exact .inr ⟨y, hy, hx⟩
  · rw [sum_insert hnot, hold.sum, hlen]

end

end Tiles

end Xv6Lab.Lib.Tiling
