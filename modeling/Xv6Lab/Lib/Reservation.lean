import Mathlib.Algebra.Order.BigOperators.Group.Finset

/-!
# Reserved room

Clients share room for `total` items. A client that enters reserves room for `cap` items; `used` counts
those it has taken of its reservation, `n` all items that are stored. `Reserves` says that the stored items
and what the clients may still take fit into the room. A client with something left of its reservation finds
room for another item (`Reserves.room`).
-/

namespace Xv6Lab.Lib.Reservation

open Finset

variable {P : Type} {cap total n : Nat} {F : Finset P} {used used' : P → Nat} {p : P}

/-- The stored items and the open reservations of the clients `F` fit into the room. -/
def Reserves (cap total : Nat) (F : Finset P) (used : P → Nat) (n : Nat) : Prop :=
  n + ∑ p ∈ F, (cap - used p) ≤ total

theorem Reserves.le (h : Reserves cap total F used n) : n ≤ total := (Nat.le_add_right _ _).trans h

theorem reserves_empty (h : n ≤ total) : Reserves cap total ∅ used n := by
  rw [Reserves, sum_empty, Nat.add_zero]
  exact h

/-- A client that has not used up its reservation finds room. -/
theorem Reserves.room (h : Reserves cap total F used n) (hp : p ∈ F) (hcap : used p < cap) : n < total := by
  have hle := single_le_sum (f := fun p => cap - used p) (fun _ _ => Nat.zero_le _) hp
  have h : n + ∑ p ∈ F, (cap - used p) ≤ total := h
  omega

/-- Clients take of their reservations without storing anything. -/
theorem Reserves.mono (h : Reserves cap total F used n) (hused : ∀ p ∈ F, used p ≤ used' p) :
    Reserves cap total F used' n := by
  have hle : ∑ p ∈ F, (cap - used' p) ≤ ∑ p ∈ F, (cap - used p) :=
    sum_le_sum fun p hp => Nat.sub_le_sub_left (hused p hp) cap
  exact (Nat.add_le_add_left hle n).trans h

variable [DecidableEq P]

/-- Room for one more reservation. -/
theorem Reserves.enter (hroom : n + (F.card + 1) * cap ≤ total) (hp : p ∉ F) :
    Reserves cap total (insert p F) used n := by
  have hle : ∑ q ∈ insert p F, (cap - used q) ≤ (insert p F).card * cap :=
    sum_le_card_nsmul _ _ _ fun q _ => Nat.sub_le cap (used q)
  rw [card_insert_of_notMem hp] at hle
  exact (Nat.add_le_add_left hle n).trans hroom

/-- A client gives up its reservation. -/
theorem Reserves.leave (h : Reserves cap total F used n) (p : P) : Reserves cap total (F.erase p) used n :=
  (Nat.add_le_add_left (sum_le_sum_of_subset (erase_subset p F)) n).trans h

/-- A client stores an item within its reservation. -/
theorem Reserves.store (h : Reserves cap total F used n) (hp : p ∈ F) (hcap : used p < cap)
    (hself : used' p = used p + 1) (hne : ∀ q ∈ F, q ≠ p → used' q = used q) :
    Reserves cap total F used' (n + 1) := by
  have hrest : ∑ q ∈ F.erase p, (cap - used' q) = ∑ q ∈ F.erase p, (cap - used q) :=
    sum_congr rfl fun q hq => by
      rw [hne q (mem_of_mem_erase hq) (ne_of_mem_erase hq)]
  have hold := add_sum_erase F (fun q => cap - used q) hp
  have hnew := add_sum_erase F (fun q => cap - used' q) hp
  have h : n + ∑ q ∈ F, (cap - used q) ≤ total := h
  show n + 1 + ∑ q ∈ F, (cap - used' q) ≤ total
  rw [hself, hrest] at hnew
  omega

end Xv6Lab.Lib.Reservation
