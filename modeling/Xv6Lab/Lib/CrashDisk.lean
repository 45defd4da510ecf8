import Mathlib.Data.List.Basic

/-!
# Programs over a disk that can lose power

A program runs on a disk and a private memory. The only effect that survives a crash is the disk, and
the only way to change it is `devWrite`, one whole block at a time. The field `power` counts the
writes the device will still complete: with `some 0` the next write fails and the run ends with
`Stop.crash`; with `none` the power never fails.

`Emits x d m ws a m'` says that the program `x`, started on disk `d` and memory `m`, performs exactly
the block writes `ws` and returns `a` with memory `m'`, and that a power failure after `k` writes
leaves exactly the first `k` of them on the disk. The rules `Emits.pure`, `Emits.bind`,
`Emits.bindRead` and those for the primitive effects compute the write list of a
straight-line program; `Emits.diskAfter` turns it into the disk found after any crash.
-/

namespace Xv6Lab.Lib.CrashDisk

open Function List EStateM

/-- Why a kernel run ends before it returns. -/
inductive Stop where
  /-- The power failed at a disk write. -/
  | crash
  /-- The kernel called `panic` with this message. -/
  | panic (msg : String)
  /-- An access outside the bounds of an array. -/
  | wild
  /-- The caller sleeps and no other process is there to wake it. -/
  | asleep
  deriving DecidableEq, Repr

/-- A machine: the disk, the number of writes the device still completes, and the memory. -/
structure Sys (μ β : Type) where
  disk : Nat → β
  power : Option Nat
  mem : μ

/-- Programs over a disk of blocks `β` and a memory `μ`. -/
abbrev DiskM (μ β : Type) := EStateM Stop (Sys μ β)

variable {μ β α γ : Type}

/-- Read one block from the device. -/
def devRead (b : Nat) : DiskM μ β β := fun s => .ok (s.disk b) s

/-- Write one block to the device, or lose power. -/
def devWrite (b : Nat) (c : β) : DiskM μ β Unit := fun s =>
  match s.power with
  | none => .ok () { s with disk := update s.disk b c }
  | some 0 => .error .crash s
  | some (k + 1) => .ok () { s with disk := update s.disk b c, power := some k }

/-- Read the memory. -/
def getMem : DiskM μ β μ := fun s => .ok s.mem s

/-- Change the memory. -/
def modifyMem (f : μ → μ) : DiskM μ β Unit := fun s => .ok () { s with mem := f s.mem }

/-- The disk left behind by a run, however it ended. -/
def diskAfter : Result Stop (Sys μ β) α → Nat → β
  | .ok _ s => s.disk
  | .error _ s => s.disk

/-- Perform a list of block writes in order. -/
def applyWrites (d : Nat → β) : List (Nat × β) → Nat → β
  | [] => d
  | w :: ws => applyWrites (update d w.1 w.2) ws

theorem getMem_bind (f : μ → DiskM μ β γ) (s : Sys μ β) : (getMem >>= f) s = f s.mem s :=
  rfl

/-! ## Write lists -/

theorem applyWrites_append (d : Nat → β) (ws vs : List (Nat × β)) :
    applyWrites d (ws ++ vs) = applyWrites (applyWrites d ws) vs := by
  induction ws generalizing d with
  | nil => rfl
  | cons w ws ih => exact ih _

/-- A block that is not written keeps its contents. -/
theorem applyWrites_of_not_mem {b : Nat} (ws : List (Nat × β)) (d : Nat → β)
    (h : ∀ w ∈ ws, w.1 ≠ b) : applyWrites d ws b = d b := by
  induction ws generalizing d with
  | nil => rfl
  | cons w ws ih =>
    have hw : w.1 ≠ b := h w mem_cons_self
    rw [applyWrites, ih _ fun v hv => h v (mem_cons_of_mem _ hv)]
    exact update_of_ne hw.symm _ _

/-- With distinct targets, each written block ends with the contents written to it. -/
theorem applyWrites_of_mem {b : Nat} {c : β} (ws : List (Nat × β)) (d : Nat → β)
    (hnd : (ws.map Prod.fst).Nodup) (h : (b, c) ∈ ws) : applyWrites d ws b = c := by
  induction ws generalizing d with
  | nil => exact absurd h not_mem_nil
  | cons w ws ih =>
    rw [map_cons, nodup_cons] at hnd
    rcases mem_cons.mp h with rfl | h
    · rw [applyWrites, applyWrites_of_not_mem]
      · exact update_self _ _ _
      · intro v hv hvb
        exact hnd.1 (mem_map.mpr ⟨v, hv, hvb⟩)
    · exact ih _ hnd.2 h

/-- What a write list leaves in a block depends on that block only. -/
theorem applyWrites_congr (ws : List (Nat × β)) {d e : Nat → β} {b : Nat} (h : d b = e b) :
    applyWrites d ws b = applyWrites e ws b := by
  induction ws generalizing d e with
  | nil => exact h
  | cons w ws ih =>
    refine ih ?_
    rcases eq_or_ne b w.1 with rfl | hb
    · rw [update_self, update_self]
    · rw [update_of_ne hb, update_of_ne hb, h]

/-- Disks that agree on the blocks a write list leaves alone agree after it. -/
theorem applyWrites_eq_of_agree (ws : List (Nat × β)) {d e : Nat → β}
    (h : ∀ b, (∀ w ∈ ws, w.1 ≠ b) → d b = e b) : applyWrites d ws = applyWrites e ws := by
  induction ws generalizing d e with
  | nil => exact funext fun b => h b fun w hw => absurd hw not_mem_nil
  | cons w ws ih =>
    refine ih fun b hb => ?_
    rcases eq_or_ne b w.1 with rfl | hbw
    · rw [update_self, update_self]
    rw [update_of_ne hbw, update_of_ne hbw]
    refine h b fun v hv => ?_
    rcases mem_cons.mp hv with rfl | hv
    · exact Ne.symm hbw
    · exact hb v hv

/-! ## The write list of a program -/

/-- `x` performs exactly the writes `ws`, and a power failure cuts the list after `k` of them. -/
def Emits (x : DiskM μ β α) (d : Nat → β) (m : μ) (ws : List (Nat × β)) (a : α) (m' : μ) : Prop :=
  x ⟨d, none, m⟩ = .ok a ⟨applyWrites d ws, none, m'⟩ ∧
    ∀ k, (ws.length ≤ k → x ⟨d, some k, m⟩ = .ok a ⟨applyWrites d ws, some (k - ws.length), m'⟩) ∧
      (k < ws.length → ∃ lost, x ⟨d, some k, m⟩ = .error .crash ⟨applyWrites d (ws.take k), some 0, lost⟩)

namespace Emits

variable {d : Nat → β} {m m' m'' : μ} {ws vs : List (Nat × β)} {a : α} {c : γ} {x : DiskM μ β α}

theorem pure (a : α) : Emits (Pure.pure a : DiskM μ β α) d m [] a m :=
  ⟨rfl, fun _ => ⟨fun _ => rfl, fun h => absurd h (Nat.not_lt_zero _)⟩⟩

theorem devRead (b : Nat) : Emits (devRead b : DiskM μ β β) d m [] (d b) m :=
  ⟨rfl, fun _ => ⟨fun _ => rfl, fun h => absurd h (Nat.not_lt_zero _)⟩⟩

theorem getMem : Emits (getMem : DiskM μ β μ) d m [] m m :=
  ⟨rfl, fun _ => ⟨fun _ => rfl, fun h => absurd h (Nat.not_lt_zero _)⟩⟩

theorem modifyMem (f : μ → μ) : Emits (modifyMem f : DiskM μ β Unit) d m [] () (f m) :=
  ⟨rfl, fun _ => ⟨fun _ => rfl, fun h => absurd h (Nat.not_lt_zero _)⟩⟩

theorem devWrite (b : Nat) (v : β) : Emits (devWrite b v : DiskM μ β Unit) d m [(b, v)] () m := by
  refine ⟨rfl, fun k => ⟨fun hk => ?_, fun hk => ?_⟩⟩
  · obtain ⟨j, rfl⟩ : ∃ j, k = j + 1 := ⟨k - 1, by simp only [length_singleton] at hk; omega⟩
    rfl
  · obtain rfl : k = 0 := by simp only [length_singleton] at hk; omega
    exact ⟨m, rfl⟩

/-- Sequencing concatenates the write lists. -/
theorem bind {f : α → DiskM μ β γ} (hx : Emits x d m ws a m')
    (hf : Emits (f a) (applyWrites d ws) m' vs c m'') : Emits (x >>= f) d m (ws ++ vs) c m'' := by
  obtain ⟨hx0, hxk⟩ := hx
  obtain ⟨hf0, hfk⟩ := hf
  refine ⟨?_, fun k => ⟨fun hk => ?_, fun hk => ?_⟩⟩
  · show EStateM.bind x f _ = _
    rw [EStateM.bind, hx0, applyWrites_append]
    exact hf0
  · rw [length_append] at hk
    have hx1 := (hxk k).1 (by omega)
    have hf1 := (hfk (k - ws.length)).1 (by omega)
    show EStateM.bind x f _ = _
    rw [EStateM.bind, hx1, applyWrites_append, List.length_append, ← Nat.sub_sub]
    exact hf1
  · rw [length_append] at hk
    by_cases hkw : k < ws.length
    -- the failure falls inside `x`
    · obtain ⟨lost, hx1⟩ := (hxk k).2 hkw
      refine ⟨lost, ?_⟩
      show EStateM.bind x f _ = _
      rw [EStateM.bind, hx1, List.take_append_of_le_length (by omega)]
    · have hx1 := (hxk k).1 (by omega)
      obtain ⟨lost, hf1⟩ := (hfk (k - ws.length)).2 (by omega)
      refine ⟨lost, ?_⟩
      show EStateM.bind x f _ = _
      rw [EStateM.bind, hx1, List.take_append, List.take_of_length_le (by omega), applyWrites_append]
      exact hf1

/-- Sequencing after a program that writes nothing. -/
theorem bindRead {f : α → DiskM μ β γ} (hx : Emits x d m [] a m')
    (hf : Emits (f a) d m' vs c m'') : Emits (x >>= f) d m vs c m'' :=
  bind hx hf

/-- The disk found after a power failure that comes after `k` writes, or after the end. -/
theorem diskAfter (h : Emits x d m ws a m') (k : Nat) :
    diskAfter (x ⟨d, some k, m⟩) = applyWrites d (ws.take k) := by
  by_cases hk : ws.length ≤ k
  · rw [(h.2 k).1 hk, take_of_length_le hk]
    rfl
  · obtain ⟨lost, hx⟩ := (h.2 k).2 (by omega)
    rw [hx]
    rfl

/-- The run with reliable power. -/
theorem run (h : Emits x d m ws a m') : x ⟨d, none, m⟩ = .ok a ⟨applyWrites d ws, none, m'⟩ :=
  h.1

end Emits

end Xv6Lab.Lib.CrashDisk
