import Mathlib.Data.Set.Card

/-!
# Counting where a map takes a value

`tally S g b` is the number of places in `S` at which `g` is `b`. When the map changes at one place the
tallies move with it (`tally_update`); a reference count is right when it is kept equal to such a tally.
For a partial map that is defined at finitely many places `points g b` counts over all of them.
-/

namespace Xv6Lab.Lib.Tally

open Function Finset

variable {ι β : Type} {S : Finset ι} {b : β} {x : ι}

section Counts

variable [DecidableEq β] {g h : ι → β}

/-- The number of places in `S` where `g` is `b`. -/
def tally (S : Finset ι) (g : ι → β) (b : β) : Nat := (S.filter fun x => g x = b).card

theorem tally_pos : 0 < tally S g b ↔ ∃ x ∈ S, g x = b := by
  rw [tally, card_pos]
  exact filter_nonempty_iff

theorem tally_eq_zero : tally S g b = 0 ↔ ∀ x ∈ S, g x ≠ b := by
  rw [tally, card_eq_zero, filter_eq_empty_iff]

theorem tally_congr (hgh : ∀ x ∈ S, g x = b ↔ h x = b) : tally S g b = tally S h b :=
  congrArg card (filter_congr hgh)

variable [DecidableEq ι]

/-- The places other than `x` are counted as before. -/
theorem tally_erase (hx : x ∈ S) : tally S g b = tally (S.erase x) g b + if g x = b then 1 else 0 := by
  rw [tally, tally, ← insert_erase hx, filter_insert, erase_insert_eq_erase, erase_idem]
  split
  next hb => exact card_insert_of_notMem fun hmem =>
    notMem_erase x S (mem_filter.mp hmem).1
  · rfl

/-- The tallies after a change at one place. -/
theorem tally_update (hx : x ∈ S) (v : β) :
    tally S (update g x v) b + (if g x = b then 1 else 0) = tally S g b + if v = b then 1 else 0 := by
  have hrest : tally (S.erase x) (update g x v) b = tally (S.erase x) g b := by
    refine tally_congr fun y hy => ?_
    rw [update_of_ne (ne_of_mem_erase hy)]
  rw [tally_erase hx, tally_erase (g := g) hx, hrest, update_self]
  omega

end Counts

/-! ## Partial maps -/

section Points

variable {g h : ι → Option β}

/-- The number of places where the partial map `g` is `b`. -/
noncomputable def points (g : ι → Option β) (b : β) : Nat := Set.ncard { x | g x = some b }

/-- The map is defined at finitely many places. -/
def Sparse (g : ι → Option β) : Prop := { x | g x ≠ none }.Finite

theorem Sparse.places (hg : Sparse g) (b : β) : { x | g x = some b }.Finite := by
  refine Set.Finite.subset hg fun x hx => ?_
  rw [Set.mem_ofPred_eq] at hx ⊢
  rw [hx]
  exact Option.some_ne_none b

theorem Sparse.mono (hg : Sparse g) (hh : ∀ x, h x ≠ none → g x ≠ none) : Sparse h :=
  Set.Finite.subset hg hh

theorem points_pos (hg : Sparse g) : 0 < points g b ↔ ∃ x, g x = some b := by
  rw [points, Set.ncard_pos (hg.places b)]
  rfl

theorem points_eq_zero (hg : Sparse g) : points g b = 0 ↔ ∀ x, g x ≠ some b := by
  rw [← not_exists, ← points_pos hg, Nat.pos_iff_ne_zero, not_not]

theorem points_le (hh : Sparse h) (hgh : ∀ x, g x = some b → h x = some b) : points g b ≤ points h b :=
  Set.ncard_le_ncard hgh (hh.places b)

/-- Counting over a finite set that has all places. -/
theorem points_eq_tally [DecidableEq β] (hS : ∀ x, g x ≠ none → x ∈ S) : points g b = tally S g (some b) := by
  rw [points, tally, ← Set.ncard_coe_finset]
  refine congrArg Set.ncard (Set.ext fun x => ?_)
  rw [coe_filter, Set.mem_ofPred_eq, Set.mem_ofPred_eq]
  refine ⟨fun hx => ⟨hS x ?_, hx⟩, fun hx => hx.2⟩
  rw [hx]
  exact Option.some_ne_none b

variable [DecidableEq ι]

theorem Sparse.update (hg : Sparse g) (x : ι) (v : Option β) : Sparse (update g x v) := by
  refine Set.Finite.subset (Set.Finite.insert x hg) fun y hy => ?_
  rcases eq_or_ne y x with rfl | hne
  · exact Set.mem_insert _ _
  · rw [Set.mem_ofPred_eq, update_of_ne hne] at hy
    exact Set.mem_insert_of_mem _ hy

/-- The counts after a change at one place. -/
theorem points_update [DecidableEq β] (hg : Sparse g) (x : ι) (v : Option β) :
    points (update g x v) b + (if g x = some b then 1 else 0) = points g b + if v = some b then 1 else 0 := by
  have hS : ∀ y, y = x ∨ g y ≠ none → y ∈ insert x hg.toFinset := by
    rintro y (rfl | hy)
    · exact mem_insert_self _ _
    · exact mem_insert_of_mem (hg.mem_toFinset.mpr hy)
  rw [points_eq_tally (S := insert x hg.toFinset) fun y hy => hS y (.inr hy),
    points_eq_tally (S := insert x hg.toFinset) fun y hy => hS y ?_]
  · exact tally_update (mem_insert_self _ _) v
  rcases eq_or_ne y x with rfl | hne
  · exact .inl rfl
  · rw [update_of_ne hne] at hy
    exact .inr hy

end Points

end Xv6Lab.Lib.Tally
