import Xv6Lab.FileSys.Directories

/-!
# The keys of a directory

The entries of a directory are bindings of keys to inode numbers; `bindings_addEntry` and `bindings_clearEntry` are
what the writes of `dirlink` and `sys_unlink` do to them.
-/

namespace Xv6Lab.FileSys

open Function List

variable {k : Nat} {data : List UInt8} {name : Name}

/-! ## Bindings -/

/-- The inode number bound to a key. -/
def bindings (data : List UInt8) (x : Name) : Option Nat :=
  ((List.range (entryCount data)).find? fun k => decide (inumAt data k ≠ 0) && decide (x = key (nameAt data k))).map
    (inumAt data)

/-- No two entries in use have equal keys. -/
def Unique (data : List UInt8) : Prop :=
  ∀ j k, inumOf data j ≠ 0 → inumOf data k ≠ 0 → key (nameAt data j) = key (nameAt data k) → j = k

theorem bindings_key (data : List UInt8) (name : Name) :
    bindings data (key name) = (findEntry data name).map (inumAt data) := by
  have hsame :
      (fun k => decide (inumAt data k ≠ 0) && decide (key name = key (nameAt data k))) = Matches data name := by
    funext k
    rw [Matches, show nameEq name (nameAt data k) = decide (key name = key (nameAt data k)) from
      Bool.eq_iff_iff.mpr (nameEq_iff.trans decide_eq_true_iff.symm)]
  rw [bindings, hsame, findEntry]

theorem bindings_eq_some_iff (h : Unique data) {x : Name} {n : Nat} :
    bindings data x = some n ↔ n ≠ 0 ∧ ∃ k, inumOf data k = n ∧ key (nameAt data k) = x := by
  rw [bindings, Option.map_eq_some_iff]
  constructor
  · rintro ⟨k, hk, rfl⟩
    have hlt := mem_range.mp (mem_of_find?_eq_some hk)
    have hp := find?_some hk
    rw [Bool.and_eq_true, decide_eq_true_iff, decide_eq_true_iff] at hp
    exact ⟨hp.1, k, if_pos hlt, hp.2.symm⟩
  rintro ⟨hn, k, rfl, rfl⟩
  obtain ⟨hlt, heq⟩ := inumOf_ne_zero hn
  refine ⟨k, find?_range_eq_some.mpr ⟨?_, mem_range.mpr hlt, fun j hj => ?_⟩, heq.symm⟩
  · rw [Bool.and_eq_true, decide_eq_true_iff, decide_eq_true_iff]
    exact ⟨heq ▸ hn, rfl⟩
  -- an earlier entry of the same key would be the same entry
  rw [Bool.not_eq_true', Bool.eq_false_iff, ne_eq, Bool.and_eq_true, decide_eq_true_iff, decide_eq_true_iff]
  rintro ⟨hj0, hkey⟩
  have hj' : inumOf data j ≠ 0 := by
    rw [inumOf, if_pos (hj.trans hlt)]
    exact hj0
  exact absurd (h j k hj' hn hkey.symm) hj.ne

/-- An absent key is the key of no entry. -/
theorem key_ne_of_absent (h : Unique data) {x : Name} (hx : bindings data x = none) (hk : inumOf data k ≠ 0) :
    key (nameAt data k) ≠ x := by
  intro heq
  have := (bindings_eq_some_iff h).mpr ⟨hk, k, rfl, heq⟩
  rw [hx] at this
  cases this

theorem Unique.addEntry (h : Unique data) {inum : Nat} (hlt : inum < 65536)
    (habsent : bindings data (key name) = none) : Unique (addEntry data inum name) := by
  intro j k hj hk heq
  rw [inumOf_addEntry hlt] at hj hk
  rw [nameAt_addEntry] at heq
  rcases eq_or_ne j (freeEntry data) with rfl | hjf <;> rcases eq_or_ne k (freeEntry data) with rfl | hkf
  · rfl
  · rw [update_of_ne hkf] at hk
    rw [update_self, update_of_ne hkf, key_strncpy] at heq
    exact absurd heq.symm (key_ne_of_absent h habsent hk)
  · rw [update_of_ne hjf] at hj
    rw [update_self, update_of_ne hjf, key_strncpy] at heq
    exact absurd heq (key_ne_of_absent h habsent hj)
  · rw [update_of_ne hjf] at hj
    rw [update_of_ne hkf] at hk
    rw [update_of_ne hjf, update_of_ne hkf] at heq
    exact h j k hj hk heq

/-- `dirlink` binds the key. -/
theorem bindings_addEntry (h : Unique data) {inum : Nat} (hpos : inum ≠ 0) (hlt : inum < 65536)
    (habsent : bindings data (key name) = none) :
    bindings (addEntry data inum name) = update (bindings data) (key name) (some inum) := by
  funext x
  apply Option.ext
  intro n
  rw [bindings_eq_some_iff (h.addEntry hlt habsent), inumOf_addEntry hlt, nameAt_addEntry]
  constructor
  · rintro ⟨hn, k, hk, hkey⟩
    rcases eq_or_ne k (freeEntry data) with rfl | hkf
    · rw [update_self] at hk hkey
      rw [← hkey, key_strncpy, update_self, hk]
    rw [update_of_ne hkf] at hk hkey
    have hne := key_ne_of_absent h habsent (hk.trans_ne hn)
    rw [hkey] at hne
    rw [update_of_ne hne]
    exact (bindings_eq_some_iff h).mpr ⟨hn, k, hk, hkey⟩
  · intro hx
    rcases eq_or_ne x (key name) with rfl | hne
    · rw [update_self, Option.some.injEq] at hx
      subst hx
      refine ⟨hpos, freeEntry data, update_self .., ?_⟩
      rw [update_self, key_strncpy]
    · rw [update_of_ne hne] at hx
      obtain ⟨hn, k, hk, hkey⟩ := (bindings_eq_some_iff h).mp hx
      have hkf : k ≠ freeEntry data := by
        rintro rfl
        exact hn (hk.symm.trans (inumOf_freeEntry data))
      exact ⟨hn, k, (update_of_ne hkf _ _).trans hk, by rw [update_of_ne hkf]; exact hkey⟩

theorem Unique.clearEntry (h : Unique data) (hk : k < entryCount data) : Unique (clearEntry data k) := by
  intro i j hi hj heq
  rw [inumOf_clearEntry hk] at hi hj
  have hik : i ≠ k := by
    rintro rfl
    exact hi (update_self ..)
  have hjk : j ≠ k := by
    rintro rfl
    exact hj (update_self ..)
  rw [update_of_ne hik] at hi
  rw [update_of_ne hjk] at hj
  rw [nameAt_clearEntry hk hik, nameAt_clearEntry hk hjk] at heq
  exact h i j hi hj heq

/-- The erased entry unbinds its key. -/
theorem bindings_clearEntry (h : Unique data) (hk : k < entryCount data) (hlive : inumAt data k ≠ 0) :
    bindings (clearEntry data k) = update (bindings data) (key (nameAt data k)) none := by
  have hof : inumOf data k ≠ 0 := by
    rw [inumOf, if_pos hk]
    exact hlive
  funext x
  apply Option.ext
  intro n
  rw [bindings_eq_some_iff (h.clearEntry hk), inumOf_clearEntry hk]
  constructor
  · rintro ⟨hn, j, hj, hkey⟩
    have hjk : j ≠ k := by
      rintro rfl
      rw [update_self] at hj
      exact hn hj.symm
    rw [update_of_ne hjk] at hj
    rw [nameAt_clearEntry hk hjk] at hkey
    have hne : x ≠ key (nameAt data k) := by
      intro heq
      exact hjk (h j k (hj.trans_ne hn) hof (hkey.trans heq))
    rw [update_of_ne hne]
    exact (bindings_eq_some_iff h).mpr ⟨hn, j, hj, hkey⟩
  · intro hx
    have hne : x ≠ key (nameAt data k) := by
      rintro rfl
      rw [update_self] at hx
      cases hx
    rw [update_of_ne hne] at hx
    obtain ⟨hn, j, hj, hkey⟩ := (bindings_eq_some_iff h).mp hx
    have hjk : j ≠ k := by
      rintro rfl
      exact hne hkey.symm
    exact ⟨hn, j, (update_of_ne hjk _ _).trans hj, by rw [nameAt_clearEntry hk hjk]; exact hkey⟩

end Xv6Lab.FileSys
