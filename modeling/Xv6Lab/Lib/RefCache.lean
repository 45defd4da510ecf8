import Mathlib.Algebra.Order.BigOperators.Group.Finset
import Mathlib.Data.Fintype.BigOperators

/-!
# Caches with reference counts

A cache has slots, each with a reference count and possibly a key. References to slots are held by clients;
a key can also be pinned, which counts as a reference to the slot that has it. `Accounted` says that no two
slots have the same key, that the counts are exact and that pinned keys are present. The lemmas follow the
operations of a cache; while there are fewer references and pins than slots, a slot without references is left
(`Accounted.exists_unused`).
-/

namespace Xv6Lab.Lib.RefCache

open Multiset Finset

variable {S K : Type} [DecidableEq S] [DecidableEq K]

structure Table (S K : Type) where
  key : S → Option K
  ref : S → Nat

variable {t u : Table S K} {pins : Multiset K} {held : Multiset S} {x y : S} {k : K}

/-- How often the key of a slot is pinned. -/
def Table.pinsOf (t : Table S K) (pins : Multiset K) (x : S) : Nat :=
  match t.key x with
  | none => 0
  | some k => pins.count k

/-- Every reference to a slot is held by a client or comes from a pin. -/
structure Accounted (t : Table S K) (pins : Multiset K) (held : Multiset S) : Prop where
  distinct : ∀ x y k, t.key x = some k → t.key y = some k → x = y
  exact : ∀ x, t.ref x = t.pinsOf pins x + held.count x
  present : ∀ k ∈ pins, ∃ x, t.key x = some k

open Table

omit [DecidableEq S] in
theorem pinsOf_eq (h : t.key x = some k) : t.pinsOf pins x = pins.count k := by
  rw [pinsOf, h]

omit [DecidableEq S] in
theorem pinsOf_cons (t : Table S K) (k : K) (pins : Multiset K) (x : S) :
    t.pinsOf (k ::ₘ pins) x = t.pinsOf pins x + if t.key x = some k then 1 else 0 := by
  unfold pinsOf
  cases hl : t.key x with
  | none => rfl
  | some l =>
    show (k ::ₘ pins).count l = _
    rw [count_cons]
    exact congrArg (pins.count l + ·) (if_congr Option.some_inj.symm rfl rfl)

/-- The slot of a pinned key, or one that a client holds, has a reference. -/
theorem Accounted.pos (h : Accounted t pins held) (hx : x ∈ held ∨ ∃ k ∈ pins, t.key x = some k) : 0 < t.ref x := by
  rw [h.exact x]
  rcases hx with hx | ⟨k, hk, hkey⟩
  · exact Nat.add_pos_right _ (count_pos.mpr hx)
  · rw [pinsOf_eq hkey]
    exact Nat.add_pos_left (count_pos.mpr hk) _

theorem accounted_empty (hkey : ∀ x, t.key x = none) (href : ∀ x, t.ref x = 0) :
    Accounted t 0 0 where
  distinct x _ k hx := by
    rw [hkey x] at hx
    cases hx
  exact x := by
    rw [href x, pinsOf, hkey x]
    exact (count_zero x).symm
  present k hk := absurd hk (notMem_zero k)

/-! ## Operations -/

section

variable (h : Accounted t pins held)
include h

/-- The slots keep their keys, and each count changes as the pins and references of its slot do. -/
theorem Accounted.recount {pins' : Multiset K} {held' : Multiset S} (hkey : u.key = t.key)
    (hpresent : ∀ k ∈ pins', ∃ x, t.key x = some k)
    (href : ∀ y, u.ref y + (t.pinsOf pins y + held.count y) = t.ref y + (t.pinsOf pins' y + held'.count y)) :
    Accounted u pins' held' where
  distinct := by
    rw [hkey]
    exact h.distinct
  exact y := by
    have hpins : u.pinsOf pins' y = t.pinsOf pins' y := by rw [pinsOf, pinsOf, hkey]
    have hy := h.exact y
    have href := href y
    omega
  present := by
    rw [hkey]
    exact hpresent

/-- A client takes a reference to a slot. -/
theorem Accounted.hit (hkey : u.key = t.key) (hself : u.ref x = t.ref x + 1) (hne : ∀ y ≠ x, u.ref y = t.ref y) :
    Accounted u pins (x ::ₘ held) := by
  refine h.recount hkey h.present fun y => ?_
  rcases eq_or_ne y x with rfl | hyx
  · rw [hself, count_cons_self]
    omega
  · rw [hne y hyx, count_cons_of_ne hyx]

/-- A client gives up a reference. -/
theorem Accounted.drop (hx : x ∈ held) (hkey : u.key = t.key)
    (hself : u.ref x = t.ref x - 1) (hne : ∀ y ≠ x, u.ref y = t.ref y) : Accounted u pins (held.erase x) := by
  refine h.recount hkey h.present fun y => ?_
  rcases eq_or_ne y x with rfl | hyx
  · have hpos := count_pos.mpr hx
    have hy := h.exact y
    rw [hself, count_erase_self]
    omega
  · rw [hne y hyx, count_erase_of_ne hyx]

/-- A slot without references comes to hold a key that no slot has. -/
theorem Accounted.recycle (hunused : t.ref x = 0)
    (hfresh : ∀ y, t.key y ≠ some k) (hkey : u.key x = some k) (hkeys : ∀ y ≠ x, u.key y = t.key y)
    (hself : u.ref x = 1) (hne : ∀ y ≠ x, u.ref y = t.ref y) : Accounted u pins (x ::ₘ held) where
  distinct y z l hy hz := by
    have hold : ∀ y ≠ x, u.key y = some l → t.key y = some l := fun y hyx hy => hkeys y hyx ▸ hy
    rcases eq_or_ne y x with rfl | hyx
    · rcases eq_or_ne z y with rfl | hzy
      · rfl
      · rw [hkey] at hy
        exact absurd (hy ▸ hold z hzy hz) (hfresh z)
    · rcases eq_or_ne z x with rfl | hzx
      · rw [hkey] at hz
        exact absurd (hz ▸ hold y hyx hy) (hfresh y)
      · exact h.distinct y z l (hold y hyx hy) (hold z hzx hz)
  exact y := by
    rcases eq_or_ne y x with rfl | hyx
    · have hnone : pins.count k = 0 := count_eq_zero.mpr fun hk => by
        obtain ⟨z, hz⟩ := h.present k hk
        exact hfresh z hz
      have hheld : held.count y = 0 := by
        have hy := h.exact y
        omega
      rw [pinsOf_eq hkey, hself, hnone, count_cons_self, hheld]
    · rw [pinsOf, hkeys y hyx, hne y hyx, count_cons_of_ne hyx]
      exact h.exact y
  present l hl := by
    obtain ⟨z, hz⟩ := h.present l hl
    rcases eq_or_ne z x with rfl | hzx
    · have hpos := h.pos (.inr ⟨l, hl, hz⟩)
      omega
    · exact ⟨z, (hkeys z hzx).trans hz⟩

theorem Accounted.key_ne (hk : t.key x = some k) (hyx : y ≠ x) : t.key y ≠ some k := fun hy =>
  hyx (h.distinct y x k hy hk)

/-- The key of a slot is pinned. -/
theorem Accounted.pin (hk : t.key x = some k) (hkey : u.key = t.key)
    (hself : u.ref x = t.ref x + 1) (hne : ∀ y ≠ x, u.ref y = t.ref y) : Accounted u (k ::ₘ pins) held := by
  refine h.recount hkey (fun l hl => ?_) fun y => ?_
  · rcases mem_cons.mp hl with rfl | hl
    · exact ⟨x, hk⟩
    · exact h.present l hl
  rw [pinsOf_cons]
  rcases eq_or_ne y x with rfl | hyx
  · rw [hself, if_pos hk]
    omega
  · rw [hne y hyx, if_neg (h.key_ne hk hyx)]
    rfl

/-- A pin of the key of a slot is removed. -/
theorem Accounted.unpin (hmem : k ∈ pins) (hk : t.key x = some k)
    (hkey : u.key = t.key) (hself : u.ref x = t.ref x - 1) (hne : ∀ y ≠ x, u.ref y = t.ref y) :
    Accounted u (pins.erase k) held := by
  refine h.recount hkey (fun l hl => h.present l (mem_of_mem_erase hl)) fun y => ?_
  have hcons := pinsOf_cons t k (pins.erase k) y
  rw [cons_erase hmem] at hcons
  rcases eq_or_ne y x with rfl | hyx
  · have hy := h.exact y
    rw [if_pos hk] at hcons
    omega
  · rw [if_neg (h.key_ne hk hyx)] at hcons
    rw [hne y hyx]
    omega

end

/-! ## Unused slots -/

variable [Fintype S]

/-- Pins account for at most as many references as there are pins, since a key has one slot. -/
theorem Accounted.sum_pinsOf_le (h : Accounted t pins held) (ks : Multiset K) : ∑ x, t.pinsOf ks x ≤ ks.card := by
  induction ks using Multiset.induction_on with
  | empty =>
    refine (Finset.sum_eq_zero fun x _ => ?_).le
    unfold pinsOf
    split
    · rfl
    · exact count_zero _
  | cons k ks ih =>
    have hone : (univ.filter fun x => t.key x = some k).card ≤ 1 := by
      refine card_le_one.mpr fun x hx y hy => ?_
      exact h.distinct x y k (Finset.mem_filter.mp hx).2 (Finset.mem_filter.mp hy).2
    rw [sum_congr rfl fun x _ => pinsOf_cons t k ks x, sum_add_distrib,
      ← Finset.card_filter, Multiset.card_cons]
    exact Nat.add_le_add ih hone

/-- While there are fewer references and pins than slots, some slot has no reference. -/
theorem Accounted.exists_unused (h : Accounted t pins held) (hlt : pins.card + held.card < Fintype.card S) :
    ∃ x, t.ref x = 0 := by
  by_contra hnone
  have hpos : ∀ x, 1 ≤ t.ref x := fun x => Nat.one_le_iff_ne_zero.mpr fun h0 => hnone ⟨x, h0⟩
  have hcard : Fintype.card S ≤ ∑ x, t.ref x := by
    have hle := sum_le_sum fun x (_ : x ∈ univ) => hpos x
    rwa [← card_eq_sum_ones] at hle
  have hsum : ∑ x, t.ref x = ∑ x, t.pinsOf pins x + held.card := by
    rw [sum_congr rfl fun x _ => h.exact x, sum_add_distrib, sum_count_eq_card fun x _ => mem_univ x]
  have hpins := h.sum_pinsOf_le pins
  omega

end Xv6Lab.Lib.RefCache
