import Mathlib.Data.List.Basic
import Mathlib.Data.Nat.Init

/-!
# Segments of an indexed sequence

`seg f off m` is the list of the `m` values of `f` from position `off` on. A file kept in scattered
places is a function from positions to bytes together with a length, and the list of its bytes is a
segment; reading is `take_drop_seg` and overwriting or appending is `seg_splice`.
-/

namespace Xv6Lab.Lib.Segments

open List

variable {α : Type} {f g : Nat → α}

/-- The values of `f` at `off`, `off + 1`, …, `m` of them. -/
def seg (f : Nat → α) (off m : Nat) : List α := (List.range m).map fun k => f (off + k)

/-- `l` with the values from `off` on replaced by `bs`, or extended by them. -/
def splice (l : List α) (off : Nat) (bs : List α) : List α :=
  l.take off ++ bs ++ l.drop (off + bs.length)

@[simp] theorem length_seg (f : Nat → α) (off m : Nat) : (seg f off m).length = m := by
  simp [seg]

@[simp] theorem seg_zero (f : Nat → α) (off : Nat) : seg f off 0 = [] := rfl

theorem getElem_seg (f : Nat → α) (off m k : Nat) (h : k < (seg f off m).length) :
    (seg f off m)[k] = f (off + k) := by
  simp [seg]

theorem getElem?_seg (f : Nat → α) (off m k : Nat) :
    (seg f off m)[k]? = if k < m then some (f (off + k)) else none := by
  split
  next h => exact List.getElem?_eq_some_iff.mpr ⟨by simpa using h, getElem_seg ..⟩
  next h => exact getElem?_eq_none (by simpa using h)

theorem seg_congr {off m : Nat} (h : ∀ k < m, f (off + k) = g (off + k)) : seg f off m = seg g off m :=
  map_congr_left fun k hk => h k (mem_range.mp hk)

theorem seg_append (f : Nat → α) (off m n : Nat) : seg f off m ++ seg f (off + m) n = seg f off (m + n) := by
  simp [seg, range_add, Nat.add_assoc]

/-- A part of a segment. -/
theorem take_drop_seg (f : Nat → α) (size off n : Nat) :
    ((seg f 0 size).drop off).take n = seg f off (min n (size - off)) := by
  apply ext_getElem?
  intro k
  rw [getElem?_take, getElem?_drop, getElem?_seg, getElem?_seg]
  simp only [Nat.zero_add]
  split_ifs <;> first | rfl | omega

/-- Overwriting part of a segment, or extending it at its end. -/
theorem seg_splice {size off m : Nat} {h : Nat → α} (hoff : off ≤ size)
    (hout : ∀ k < size, k < off ∨ off + m ≤ k → g k = f k) (hin : ∀ k < m, g (off + k) = h k) :
    seg g 0 (max size (off + m)) = splice (seg f 0 size) off (seg h 0 m) := by
  apply ext_getElem?
  intro k
  rw [splice, append_assoc, getElem?_append, getElem?_seg, getElem?_append,
    getElem?_drop, getElem?_take, getElem?_seg, getElem?_seg, getElem?_seg]
  simp only [Nat.zero_add, length_seg, length_take, Nat.min_eq_left hoff]
  -- the position lies before, inside or after the part that changes
  rcases Nat.lt_or_ge k off with hlt | hge
  · have hsize : k < size := by omega
    rw [if_pos (by omega), if_pos hlt, if_pos hlt, if_pos hsize, hout k hsize (.inl hlt)]
  rw [if_neg (by omega : ¬ k < off)]
  rcases Nat.lt_or_ge (k - off) m with hlt | hge'
  · have hk : off + (k - off) = k := by omega
    rw [if_pos (by omega), if_pos hlt, if_pos hlt, ← hin _ hlt, hk]
  have hk : off + m + (k - off - m) = k := by omega
  rw [if_neg (by omega : ¬ k - off < m), hk]
  refine if_ctx_congr ?_ (fun hsize => ?_) fun _ => rfl
  · omega
  · rw [hout k hsize (.inr (by omega))]

@[simp] theorem splice_nil (l : List α) (off : Nat) : splice l off [] = l := by
  simp [splice]

/-- The elements of a list after a part was overwritten or appended. -/
theorem getElem?_splice {l bs : List α} {off : Nat} (hoff : off ≤ l.length) (m : Nat) :
    (splice l off bs)[m]? = if off ≤ m ∧ m < off + bs.length then bs[m - off]? else l[m]? := by
  rw [splice, append_assoc, getElem?_append, getElem?_append, getElem?_drop,
    getElem?_take, length_take, Nat.min_eq_left hoff]
  rcases Nat.lt_or_ge m off with hlt | hge
  · rw [if_pos hlt, if_pos hlt, if_neg (by omega)]
  rw [if_neg (by omega)]
  rcases Nat.lt_or_ge (m - off) bs.length with hin | hout
  · rw [if_pos hin, if_pos (by omega)]
  · rw [if_neg (by omega), if_neg (by omega)]
    congr 1
    omega

theorem length_splice {l bs : List α} {off : Nat} (hoff : off ≤ l.length) :
    (splice l off bs).length = max l.length (off + bs.length) := by
  simp only [splice, length_append, length_take, length_drop]
  omega

/-- A list is the segment of its elements. -/
theorem seg_getD (l : List α) (a : α) : seg (fun k => l.getD k a) 0 l.length = l := by
  apply ext_getElem?
  intro k
  rw [getElem?_seg]
  split
  next h => simp [getElem?_eq_getElem h]
  next h => exact (getElem?_eq_none (Nat.le_of_not_lt h)).symm

end Xv6Lab.Lib.Segments
