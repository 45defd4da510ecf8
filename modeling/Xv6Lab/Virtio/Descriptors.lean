import Mathlib.Data.List.Nodup
import Xv6Lab.Virtio.Model

/-!
# Allocating and freeing descriptors

`alloc3_desc` takes three free descriptors or leaves those it found as free as they were (`alloc3Desc_cases`), and
`free_chain` frees the three descriptors of a complete chain (`Chain.freeChain`). In both the descriptors that
`free_desc` is called with are allocated, so that it does not panic.
-/

namespace Xv6Lab.Virtio

open Function Lib.RingBuffer List

variable {d : Disk} {i : Nat} {js : List Nat}

def noDesc : Desc := ⟨.null, 0, 0, 0⟩

/-- The disk after the descriptors `js` have been taken. -/
def taken (js : List Nat) (d : Disk) : Disk := { d with free := fun i => if i ∈ js then false else d.free i }

/-- The disk after the descriptors `js` have been freed. -/
def freed (js : List Nat) (d : Disk) : Disk :=
  { d with
    desc := fun i => if i ∈ js then noDesc else d.desc i
    free := fun i => if i ∈ js then true else d.free i }

theorem taken_nil (d : Disk) : taken [] d = d := by
  simp [taken]

theorem taken_concat (js : List Nat) (i : Nat) (d : Disk) :
    { taken js d with free := update (taken js d).free i false } = taken (js ++ [i]) d := by
  have hfree : update (taken js d).free i false = (taken (js ++ [i]) d).free := by
    funext k
    rcases eq_or_ne k i with rfl | hk
    · simp [taken]
    · simp [taken, hk]
  rw [hfree]
  rfl

theorem freed_cons (j : Nat) (js : List Nat) (d : Disk) : freed js (freed [j] d) = freed (j :: js) d := by
  have hdesc : (freed js (freed [j] d)).desc = (freed (j :: js) d).desc := by
    funext k
    by_cases hk : k ∈ js
    · simp [freed, hk]
    · simp [freed, hk]
  have hfree : (freed js (freed [j] d)).free = (freed (j :: js) d).free := by
    funext k
    by_cases hk : k ∈ js
    · simp [freed, hk]
    · simp [freed, hk]
  show ({ d with desc := (freed js (freed [j] d)).desc, free := (freed js (freed [j] d)).free } : Disk) = _
  rw [hdesc, hfree]
  rfl

/-! ## One descriptor -/

theorem freeDesc_allocated (hi : i < num) (hfree : d.free i = false) : freeDesc d i = .ok (freed [i] d) := by
  have hdesc : update d.desc i noDesc = (freed [i] d).desc := by
    funext k
    rcases eq_or_ne k i with rfl | hk
    · simp [freed]
    · simp [freed, hk]
  have hfree' : update d.free i true = (freed [i] d).free := by
    funext k
    rcases eq_or_ne k i with rfl | hk
    · simp [freed]
    · simp [freed, hk]
  rw [freeDesc, if_neg (Nat.not_le.mpr hi), hfree, if_neg Bool.false_ne_true]
  show Except.ok { d with desc := update d.desc i noDesc, free := update d.free i true } = _
  rw [hdesc, hfree']
  rfl

/-- `alloc_desc` finds a free descriptor if there is one. -/
theorem allocDesc_some {d' : Disk} (h : allocDesc d = some (i, d')) :
    i < num ∧ d.free i = true ∧ d' = { d with free := update d.free i false } := by
  obtain ⟨k, hk, heq⟩ := Option.map_eq_some_iff.mp h
  obtain ⟨rfl, rfl⟩ := Prod.mk.inj heq
  exact ⟨mem_range.mp (mem_of_find?_eq_some hk), find?_some hk, rfl⟩

/-! ## Three descriptors -/

theorem freeAll_allocated (hnodup : js.Nodup) (hjs : ∀ j ∈ js, j < num ∧ d.free j = false) :
    freeAll js d = .ok (freed js d) := by
  induction js generalizing d with
  | nil =>
    rw [freeAll]
    simp [freed]
  | cons j js ih =>
    obtain ⟨hj, hnodup⟩ := nodup_cons.mp hnodup
    obtain ⟨hlt, hfree⟩ := hjs j mem_cons_self
    rw [freeAll, freeDesc_allocated hlt hfree]
    show freeAll js (freed [j] d) = _
    rw [ih hnodup ?_, freed_cons]
    intro k hk
    have hne : k ≠ j := fun heq => hj (heq ▸ hk)
    have hkfree := hjs k (mem_cons_of_mem j hk)
    simpa [freed, hne] using hkfree

/-- What `alloc3_desc` returns and leaves; `d` is the disk before the call. -/
inductive Alloc3 (d : Disk) : Except String (Option (List Nat) × Disk) → Prop
  | some (idx : List Nat) (hnodup : idx.Nodup) (hlen : idx.length = 3)
      (hidx : ∀ j ∈ idx, j < num ∧ d.free j = true) : Alloc3 d (.ok (some idx, taken idx d))
  | none (js : List Nat) (hjs : ∀ j ∈ js, d.free j = true) :
      Alloc3 d (.ok (none, { d with desc := fun i => if i ∈ js then noDesc else d.desc i }))

theorem alloc3Loop_cases (n : Nat) (idx : List Nat) (hlen : idx.length + n = 3) (hnodup : idx.Nodup)
    (hidx : ∀ j ∈ idx, j < num ∧ d.free j = true) : Alloc3 d (alloc3Loop n idx (taken idx d)) := by
  induction n generalizing idx with
  | zero => exact .some idx hnodup hlen hidx
  | succ n ih =>
    rw [alloc3Loop]
    cases halloc : allocDesc (taken idx d) with
    | some r =>
      obtain ⟨i, d'⟩ := r
      obtain ⟨hi, hfree, rfl⟩ := allocDesc_some halloc
      have hnew : i ∉ idx ∧ d.free i = true := by
        simpa [taken] using hfree
      rw [taken_concat]
      apply ih
      · rw [length_append, length_singleton]
        omega
      · rw [nodup_append]
        refine ⟨hnodup, nodup_singleton i, ?_⟩
        rintro a ha b hb rfl
        rw [mem_singleton] at hb
        exact hnew.1 (hb ▸ ha)
      · intro j hj
        rcases mem_append.mp hj with hj | hj
        · exact hidx j hj
        · rw [mem_singleton] at hj
          exact hj ▸ ⟨hi, hnew.2⟩
    | none =>
      -- the descriptors found so far go back
      have hback : freeAll idx (taken idx d) = .ok (freed idx (taken idx d)) := by
        apply freeAll_allocated hnodup
        intro j hj
        simp [taken, hj, (hidx j hj).1]
      have hsame : freed idx (taken idx d) = { d with desc := fun i => if i ∈ idx then noDesc else d.desc i } := by
        have hfree : (freed idx (taken idx d)).free = d.free := by
          funext k
          by_cases hk : k ∈ idx
          · simp [freed, hk, (hidx k hk).2]
          · simp [freed, taken, hk]
        show ({ d with desc := (freed idx (taken idx d)).desc, free := (freed idx (taken idx d)).free } : Disk) = _
        rw [hfree]
        rfl
      rw [hback, hsame]
      exact .none idx fun j hj => (hidx j hj).2

theorem alloc3Desc_cases (d : Disk) : Alloc3 d (alloc3Desc d) := by
  have h := alloc3Loop_cases (d := d) 3 [] rfl nodup_nil fun j hj => absurd hj not_mem_nil
  rw [taken_nil] at h
  exact h

/-! ## Chains -/

/-- The descriptors `i` are the chain of the request `r`. -/
structure Chain (d : Disk) (r : Req) (i : Idx) : Prop where
  head : d.desc i.head = ⟨.op i.head, 16, fNext, i.data⟩
  data : d.desc i.data = ⟨.data r.buf, bsize, (if r.write then 0 else fWrite) ||| fNext, i.status⟩
  status : d.desc i.status = ⟨.status i.head, 1, fWrite, 0⟩
  op : d.ops i.head = ⟨r.write, r.sector⟩

/-- The chain is complete, and its buffer known to the interrupt handler. -/
structure Formatted (d : Disk) (r : Req) (i : Idx) : Prop extends Chain d r i where
  buf : d.infoB i.head = some r.buf

theorem formatted_format (d : Disk) (r : Req) {i : Idx} (hnodup : i.list.Nodup) : Formatted (format d r i) r i := by
  obtain ⟨⟨hhd, hhs⟩, hds⟩ : (i.head ≠ i.data ∧ i.head ≠ i.status) ∧ i.data ≠ i.status := by
    simpa [Idx.list] using hnodup
  refine ⟨⟨?_, ?_, ?_, ?_⟩, ?_⟩
  · simp [format, hhd, hhs]
  · simp [format, hds]
  · simp [format]
  · simp [format]
  · simp [format]

/-- The device reads the request the chain was made for. -/
theorem Chain.request {r : Req} {i : Idx} (h : Chain d r i) : request d i.head = some (r, i.head) := by
  have hflags : (if r.write then 0 else fWrite) ||| fNext = if r.write then fNext else fWrite ||| fNext := by
    cases r.write <;> rfl
  rw [Virtio.request, h.head]
  simp only [h.data, h.status, h.op, hflags, and_self, if_true]

/-- Freeing a chain frees its descriptors. -/
theorem Chain.freeChain {r : Req} {i : Idx} (h : Chain d r i) (hnodup : i.list.Nodup)
    (hi : ∀ j ∈ i.list, j < num ∧ d.free j = false) : freeChain d i.head = .ok (freed i.list d) := by
  obtain ⟨⟨hhd, hhs⟩, hds⟩ : (i.head ≠ i.data ∧ i.head ≠ i.status) ∧ i.data ≠ i.status := by
    simpa [Idx.list] using hnodup
  obtain ⟨hhead, hdata, hstatus⟩ : (i.head < num ∧ d.free i.head = false) ∧ (i.data < num ∧ d.free i.data = false) ∧
      (i.status < num ∧ d.free i.status = false) := by
    simpa [Idx.list] using hi
  have hflag : ((if r.write then 0 else fWrite) ||| fNext) &&& fNext ≠ 0 := by
    cases r.write <;> decide
  rw [Virtio.freeChain, freeChainLoop, freeDesc_allocated hhead.1 hhead.2]
  simp only [h.head]
  rw [if_pos (by decide), freeChainLoop, freeDesc_allocated hdata.1 (by simpa [freed, hhd.symm] using hdata.2)]
  have hdesc : (freed [i.head] d).desc i.data = d.desc i.data := by
    simp [freed, hhd.symm]
  simp only [hdesc, h.data]
  rw [if_pos hflag, freeChainLoop, freeDesc_allocated hstatus.1 (by simpa [freed, hhs.symm, hds.symm] using hstatus.2)]
  have hdesc' : (freed [i.data] (freed [i.head] d)).desc i.status = d.desc i.status := by
    simp [freed, hhs.symm, hds.symm]
  simp only [hdesc', h.status]
  rw [if_neg (by decide), freed_cons, freed_cons]
  rfl

end Xv6Lab.Virtio
