import Mathlib.Order.Basic

/-!
# Scanning forward

`scan p es s` is the cursor loop `while (s < es && p(s)) s++`. It stops at the first position from `s` on, and before
`es`, where `p` fails.
-/

namespace Xv6Lab.Lib.Scan

/-- The loop, with `n` positions left. -/
def scanLoop (p : Nat → Bool) : Nat → Nat → Nat
  | 0, s => s
  | n + 1, s => if p s then scanLoop p n (s + 1) else s

/-- `while (s < es && p(s)) s++`. -/
def scan (p : Nat → Bool) (es s : Nat) : Nat := scanLoop p (es - s) s

variable {p : Nat → Bool} {es s i n : Nat}

theorem scanLoop_bounds : s ≤ scanLoop p n s ∧ scanLoop p n s ≤ s + n := by
  induction n generalizing s with
  | zero => exact ⟨Nat.le_refl s, Nat.le_refl s⟩
  | succ n ih =>
    rw [scanLoop]
    split
    · have := ih (s := s + 1)
      omega
    · omega

theorem scanLoop_all (hi : s ≤ i) (hlt : i < scanLoop p n s) : p i = true := by
  induction n generalizing s with
  | zero =>
    rw [scanLoop] at hlt
    omega
  | succ n ih =>
    rw [scanLoop] at hlt
    split at hlt
    next hp =>
      rcases Nat.eq_or_lt_of_le hi with rfl | hgt
      · exact hp
      · exact ih hgt hlt
    · omega

theorem scanLoop_stop (hlt : scanLoop p n s < s + n) : p (scanLoop p n s) = false := by
  induction n generalizing s with
  | zero =>
    rw [scanLoop] at hlt
    omega
  | succ n ih =>
    rw [scanLoop] at hlt ⊢
    split
    next hp =>
      rw [if_pos hp] at hlt
      exact ih (by omega)
    next hp => exact Bool.eq_false_iff.mpr hp

theorem le_scan : s ≤ scan p es s := scanLoop_bounds.1

theorem scan_le (h : s ≤ es) : scan p es s ≤ es := by
  have := (scanLoop_bounds (p := p) (n := es - s) (s := s)).2
  rw [scan]
  omega

/-- Every position passed over satisfies `p`. -/
theorem scan_all (hi : s ≤ i) (hlt : i < scan p es s) : p i = true := scanLoop_all hi hlt

/-- The scan stops where `p` fails, unless it reaches the end. -/
theorem scan_stop (hlt : scan p es s < es) : p (scan p es s) = false := by
  apply scanLoop_stop
  have : s ≤ scan p es s := le_scan
  rw [scan] at hlt this
  omega

/-- A scan from where `p` fails stays there. -/
theorem scan_of_stop (h : p s = false) : scan p es s = s := by
  rw [scan]
  cases es - s with
  | zero => rfl
  | succ n => rw [scanLoop, if_neg (Bool.eq_false_iff.mp h)]

theorem scan_end : scan p es es = es := by
  rw [scan, Nat.sub_self, scanLoop]

/-- Scanning twice is scanning once. -/
theorem scan_scan (h : s ≤ es) : scan p es (scan p es s) = scan p es s := by
  rcases Nat.eq_or_lt_of_le (scan_le (p := p) h) with heq | hlt
  · rw [heq]
    exact scan_end
  · exact scan_of_stop (scan_stop hlt)

/-- The scan moves where `p` holds. -/
theorem lt_scan (hlt : s < es) (hp : p s = true) : s < scan p es s := by
  have hn : es - s = (es - s - 1) + 1 := by omega
  rw [scan, hn, scanLoop, if_pos hp]
  exact Nat.lt_of_lt_of_le (Nat.lt_succ_self s) scanLoop_bounds.1

end Xv6Lab.Lib.Scan
