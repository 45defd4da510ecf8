import Mathlib.Data.Int.ModEq
import Mathlib.Data.List.Range

/-!
# Ring buffers with free-running counters

A ring buffer of `size` cells is read at the counter `nread` and written at the counter `nwrite`, both of `w`
bits and never reset; a counter taken modulo `size` is the cell it stands for. Where `size` divides `2 ^ w` the
counters may wrap: `contents` are the elements between them, oldest first, `push` adds one at the end
(`contents_push`), `pop` takes the first (`contents_eq_cons`) and `unpush` drops the last (`contents_unpush`).
-/

namespace Xv6Lab.Lib.RingBuffer

open Function BitVec List

structure RingBuf (α : Type) (size w : Nat) where
  data : Nat → α
  nread : BitVec w
  nwrite : BitVec w

namespace RingBuf

variable {α : Type} {size w : Nat} {r : RingBuf α size w} {x : α}

/-- The number of elements, modulo `2 ^ w`. -/
def used (r : RingBuf α size w) : Nat := (r.nwrite - r.nread).toNat

/-- The elements, oldest first. -/
def contents (r : RingBuf α size w) : List α :=
  (range r.used).map fun k => r.data ((r.nread.toNat + k) % size)

def isFull (r : RingBuf α size w) : Bool := r.nwrite = r.nread + BitVec.ofNat w size

def isEmpty (r : RingBuf α size w) : Bool := r.nread = r.nwrite

/-- The element in the cell under `nread`. -/
def front (r : RingBuf α size w) : α := r.data (r.nread.toNat % size)

def push (r : RingBuf α size w) (x : α) : RingBuf α size w where
  data := update r.data (r.nwrite.toNat % size) x
  nread := r.nread
  nwrite := r.nwrite + 1#w

def pop (r : RingBuf α size w) : RingBuf α size w := { r with nread := r.nread + 1#w }

def unpush (r : RingBuf α size w) : RingBuf α size w := { r with nwrite := r.nwrite - 1#w }

/-- The first half of `push`: the cell under `nwrite` is filled, and not yet in the ring. -/
def store (r : RingBuf α size w) (x : α) : RingBuf α size w :=
  { r with data := update r.data (r.nwrite.toNat % size) x }

/-- The second half of `push`. -/
def advance (r : RingBuf α size w) : RingBuf α size w := { r with nwrite := r.nwrite + 1#w }

@[simp] theorem length_contents (r : RingBuf α size w) : r.contents.length = r.used := by
  rw [contents, length_map, length_range]

/-- The next cell to write lies `used` cells after the next one to read, also after a wrap. -/
theorem nwrite_mod (hdvd : size ∣ 2 ^ w) (r : RingBuf α size w) :
    r.nwrite.toNat % size = (r.nread.toNat + r.used) % size := by
  have hsum : r.nwrite = r.nread + (r.nwrite - r.nread) := by
    rw [BitVec.add_comm, BitVec.sub_add_cancel]
  have hnat : r.nwrite.toNat = (r.nread.toNat + r.used) % 2 ^ w :=
    (congrArg BitVec.toNat hsum).trans (BitVec.toNat_add ..)
  rw [hnat, Nat.mod_mod_of_dvd _ hdvd]

theorem isEmpty_iff : r.isEmpty = true ↔ r.used = 0 := by
  rw [isEmpty, decide_eq_true_iff, used]
  constructor
  · intro h
    rw [h, BitVec.sub_self]
    exact toNat_ofNat ..
  · intro h
    have hzero : r.nwrite - r.nread = 0#w := eq_of_toNat_eq (h.trans (toNat_zero ..).symm)
    exact (BitVec.sub_eq_iff_eq_add.mp hzero ▸ BitVec.zero_add _).symm

/-- Where the ring is not full there are fewer elements than cells. -/
theorem used_lt (hle : r.used ≤ size) (hfull : r.isFull = false) : r.used < size := by
  refine lt_of_le_of_ne hle fun heq => ?_
  have hsize : size % 2 ^ w = size := Nat.mod_eq_of_lt (lt_of_eq_of_lt heq.symm (r.nwrite - r.nread).isLt)
  have hdiff : r.nwrite - r.nread = BitVec.ofNat w size :=
    eq_of_toNat_eq (heq.trans (hsize.symm.trans (toNat_ofNat ..).symm))
  have hsum : r.nwrite = r.nread + BitVec.ofNat w size := by
    rw [← hdiff, BitVec.add_comm, BitVec.sub_add_cancel]
  exact of_decide_eq_false hfull hsum

theorem used_push (hlt : r.used + 1 < 2 ^ w) (x : α) : (r.push x).used = r.used + 1 := by
  have hdiff : r.nwrite + 1#w - r.nread = (r.nwrite - r.nread) + 1#w := by
    rw [BitVec.sub_eq_add_neg, BitVec.sub_eq_add_neg, BitVec.add_assoc, BitVec.add_comm 1#w, ← BitVec.add_assoc]
  have hone : 1 < 2 ^ w := lt_of_le_of_lt (Nat.le_add_left 1 _) hlt
  show (r.nwrite + 1#w - r.nread).toNat = _
  rw [hdiff, toNat_add, toNat_ofNat, Nat.mod_eq_of_lt hone]
  exact Nat.mod_eq_of_lt hlt

/-- The predecessor of a counter that is not 0. -/
theorem toNat_of_eq_add_one {a b : BitVec w} (h : a = b + 1#w) (hpos : 0 < a.toNat) : b.toNat + 1 = a.toNat := by
  have hnat := congrArg BitVec.toNat h
  rw [toNat_add, toNat_ofNat, Nat.add_mod_mod] at hnat
  rcases Nat.lt_or_ge (b.toNat + 1) (2 ^ w) with hin | hout
  · rw [hnat, Nat.mod_eq_of_lt hin]
  · have hwrap : b.toNat + 1 = 2 ^ w := Nat.le_antisymm b.isLt hout
    rw [hwrap, Nat.mod_self] at hnat
    omega

theorem used_pop (h : 0 < r.used) : r.pop.used + 1 = r.used := by
  refine toNat_of_eq_add_one ?_ h
  show r.nwrite - r.nread = (r.nwrite - (r.nread + 1#w)) + 1#w
  rw [← sub_sub, sub_add_cancel]

theorem used_unpush (h : 0 < r.used) : r.unpush.used + 1 = r.used := by
  refine toNat_of_eq_add_one ?_ h
  show r.nwrite - r.nread = (r.nwrite - 1#w - r.nread) + 1#w
  rw [BitVec.sub_sub, BitVec.add_comm 1#w, ← BitVec.sub_sub, BitVec.sub_add_cancel]

/-- The last element is dropped. -/
theorem contents_unpush (h : 0 < r.used) : r.unpush.contents = r.contents.dropLast := by
  rw [contents, contents, ← used_unpush h, range_succ, map_append, map_singleton, dropLast_concat]
  rfl

section

variable (hdvd : size ∣ 2 ^ w)
include hdvd

/-- The last element stands in the cell before `nwrite`. -/
theorem contents_eq_append (h : 0 < r.used) :
    r.contents = r.unpush.contents ++ [r.data ((r.nwrite - 1#w).toNat % size)] := by
  have hcell : (r.nwrite - 1#w).toNat % size = (r.nread.toNat + r.unpush.used) % size :=
    nwrite_mod hdvd r.unpush
  rw [hcell, contents, contents, ← used_unpush h, range_succ, map_append, map_singleton]
  rfl

/-- Filling the next cell overwrites no element. -/
theorem contents_store (h : r.used < size) (x : α) : (r.store x).contents = r.contents := by
  refine map_congr_left fun k hk => ?_
  have hk : k < r.used := mem_range.mp hk
  -- two cells less than `size` apart are different
  refine update_of_ne (fun heq => ?_) _ _
  rw [nwrite_mod hdvd] at heq
  have hmod : Nat.ModEq size k r.used := Nat.ModEq.add_left_cancel' _ heq
  have hk' := hmod.eq_of_lt_of_lt (by omega) h
  omega

/-- The cell under `nwrite` becomes the last element. -/
theorem contents_advance (hlt : r.used + 1 < 2 ^ w) :
    r.advance.contents = r.contents ++ [r.data (r.nwrite.toNat % size)] := by
  have hused : r.advance.used = r.used + 1 := used_push hlt (r.data (r.nwrite.toNat % size))
  rw [contents, hused, range_succ, map_append, map_singleton, nwrite_mod hdvd]
  rfl

/-- An element is added at the end and no other one is overwritten. -/
theorem contents_push (hlt : size < 2 ^ w) (h : r.used < size) (x : α) : (r.push x).contents = r.contents ++ [x] := by
  have hused : (r.store x).used + 1 < 2 ^ w := lt_of_le_of_lt h hlt
  have hcell : (r.store x).data ((r.store x).nwrite.toNat % size) = x := update_self ..
  have hadvance := contents_advance hdvd hused
  rw [contents_store hdvd h, hcell] at hadvance
  exact hadvance

/-- The first element stands in the cell under `nread`. -/
theorem contents_eq_cons (h : 0 < r.used) : r.contents = r.front :: r.pop.contents := by
  have hone : (r.nread + 1#w).toNat % size = (r.nread.toNat + 1) % size := by
    rw [toNat_add, toNat_ofNat, Nat.add_mod_mod, Nat.mod_mod_of_dvd _ hdvd]
  rw [contents, ← used_pop h, range_succ_eq_map, map_cons, map_map]
  congr 1
  refine map_congr_left fun k _ => congrArg r.data ?_
  show (r.nread.toNat + (k + 1)) % size = ((r.nread + 1#w).toNat + k) % size
  rw [Nat.add_mod (r.nread + 1#w).toNat, hone, ← Nat.add_mod]
  congr 1
  omega

end

end RingBuf

end Xv6Lab.Lib.RingBuffer
