import Mathlib.Data.Nat.Basic

/-!
# Printing numbers

`printint` of the kernel and of the user library, for 64-bit values and the conversions that `printf` has. The digits
go to a buffer of twenty characters from the last one on, and the buffer is then printed backwards.
`printint_exact` says that the buffer always suffices and that what is printed is the value.
-/

namespace Xv6Lab.Console.Printint

open List Nat

/-! ## The program -/

/-- A digit table; `fold` is its choice of letters. -/
structure Table where
  digits : List Char
  fold : Char → Char
  digit_eq : ∀ k < 16, digits.getD k '-' = fold k.digitChar
  idxOf_digit : ∀ k < 16, digits.idxOf (fold k.digitChar) = k
  digit_ne : ∀ k < 16, fold k.digitChar ≠ '-'

/-- `digits` of `kernel/printf.c`. -/
def kernelTable : Table :=
  ⟨"0123456789abcdef".toList, id, by decide, by decide, by decide⟩

/-- `digits` of `user/printf.c`. -/
def userTable : Table :=
  ⟨"0123456789ABCDEF".toList, Char.toUpper, by decide, by decide, by decide⟩

/-- The pairs of a base and a sign that `printf` calls `printint` with. -/
inductive Conversion
  | d
  | u
  | x
  deriving DecidableEq, Repr

def Conversion.base : Conversion → Nat
  | .d | .u => 10
  | .x => 16

def Conversion.sign : Conversion → Bool
  | .d => true
  | .u | .x => false

/-- The loop over the digits, with the room that is left in `buf`; there is no result if the loop writes beyond it. -/
def digitLoop (digits : List Char) (base : Nat) : Nat → Nat → List Char → Option (List Char)
  | 0, _, _ => none
  | room + 1, x, buf =>
    let buf := buf ++ [digits.getD (x % base) '-']
    if x / base = 0 then some buf else digitLoop digits base room (x / base) buf

/-- `printint(xx, base, sign)`: the characters that are printed. -/
def printint (digits : List Char) (xx : BitVec 64) (base : Nat) (sign : Bool) : Option (List Char) := do
  let neg := sign && xx.slt 0
  let x := if neg then -xx else xx
  let buf ← digitLoop digits base 20 x.toNat []
  if neg then
    if buf.length < 20 then pure (buf ++ ['-']).reverse else none
  else pure buf.reverse

def kernelPrintint : BitVec 64 → Nat → Bool → Option (List Char) := printint kernelTable.digits

def userPrintint : BitVec 64 → Nat → Bool → Option (List Char) := printint userTable.digits

/-! ## The representation -/

/-- The value that is to be printed. -/
def value (xx : BitVec 64) (sign : Bool) : Int := if sign then xx.toInt else xx.toNat

/-- The representation of a number: a sign if it is negative, and the digits of its magnitude. -/
def canonical (fold : Char → Char) (base : Nat) (v : Int) : List Char :=
  (if v < 0 then ['-'] else []) ++ (toDigits base v.natAbs).map fold

def parseNat (digits : List Char) (base : Nat) (s : List Char) : Nat :=
  s.foldl (fun v c => base * v + digits.idxOf c) 0

def parse (digits : List Char) (base : Nat) (s : List Char) : Int :=
  if '-' ∈ s then -parseNat digits base (s.erase '-') else parseNat digits base s

variable (T : Table) {base : Nat}

section

variable (h1 : 1 < base) (h16 : base ≤ 16)
include h1 h16

/-- By induction on the room: as many digits as the magnitude has are written. -/
theorem digitLoop_eq {room x : Nat} (hx : (toDigits base x).length ≤ room) (buf : List Char) :
    digitLoop T.digits base room x buf = some (buf ++ ((toDigits base x).map T.fold).reverse) := by
  induction room generalizing x buf with
  | zero => exact absurd hx (Nat.not_le.mpr length_toDigits_pos)
  | succ room ih =>
    have hmod : x % base < base := Nat.mod_lt x (by omega)
    rw [digitLoop, T.digit_eq _ (by omega)]
    rcases Nat.lt_or_ge x base with hlt | hge
    · rw [if_pos (Nat.div_eq_of_lt hlt), toDigits_of_lt_base hlt, Nat.mod_eq_of_lt hlt]
      rfl
    · rw [toDigits_of_base_le h1 hge] at hx ⊢
      have hpos : x / base ≠ 0 := Nat.ne_of_gt (Nat.div_pos hge (by omega))
      rw [if_neg hpos, ih (by simpa using hx)]
      simp

theorem parseNat_toDigits (n : Nat) : parseNat T.digits base ((toDigits base n).map T.fold) = n ∧
    '-' ∉ (toDigits base n).map T.fold := by
  induction n using Nat.strongRecOn with
  | _ n ih =>
    rcases Nat.lt_or_ge n base with hlt | hge
    · rw [toDigits_of_lt_base hlt]
      simp [parseNat, T.idxOf_digit n (by omega), (T.digit_ne n (by omega)).symm]
    · have hmod : n % base < base := Nat.mod_lt n (by omega)
      obtain ⟨hval, hsign⟩ := ih (n / base) (Nat.div_lt_self (by omega) h1)
      rw [toDigits_of_base_le h1 hge, map_append]
      constructor
      · rw [parseNat, foldl_append, ← parseNat, hval]
        simp [T.idxOf_digit _ (show n % base < 16 by omega), Nat.div_add_mod]
      · simp [hsign, (T.digit_ne _ (show n % base < 16 by omega)).symm]

theorem parse_canonical (v : Int) : parse T.digits base (canonical T.fold base v) = v := by
  obtain ⟨hval, hsign⟩ := parseNat_toDigits T h1 h16 v.natAbs
  rw [parse, canonical]
  split
  next hneg =>
    rw [singleton_append, if_pos mem_cons_self, erase_cons_head, hval]
    omega
  next hpos =>
    rw [nil_append, if_neg hsign, hval]
    omega

end

theorem Conversion.base_bounds (c : Conversion) : 1 < c.base ∧ c.base ≤ 16 := by
  cases c <;> decide

/-- `x` in `printint` is the magnitude, and there is room for its digits and the sign. -/
theorem magnitude (c : Conversion) (xx : BitVec 64) :
    (c.sign && xx.slt 0) = decide (value xx c.sign < 0) ∧
      (if c.sign && xx.slt 0 then -xx else xx).toNat = (value xx c.sign).natAbs ∧
      (toDigits c.base (value xx c.sign).natAbs).length ≤ if value xx c.sign < 0 then 19 else 20 := by
  have hlt := xx.isLt
  have hint := xx.toInt_eq_toNat_cond
  have hzero : (0 : BitVec 64).toInt = 0 := rfl
  cases c with
  | d =>
    simp only [Conversion.sign, Conversion.base, value, Bool.true_and, BitVec.slt, if_true, hzero, true_and]
    split at hint
    · rw [if_neg (by simpa using by omega), if_neg (by omega), length_toDigits_le_iff (by decide) (by decide)]
      omega
    · rw [if_pos (by simpa using by omega), if_pos (by omega), length_toDigits_le_iff (by decide) (by decide),
        BitVec.toNat_neg]
      omega
  | u | x =>
    refine ⟨rfl, rfl, ?_⟩
    show (toDigits _ xx.toNat).length ≤ if (xx.toNat : Int) < 0 then 19 else 20
    rw [if_neg (by omega), length_toDigits_le_iff (by decide) (by decide)]
    exact Nat.lt_trans hlt (by decide)

theorem Table.printint_eq (c : Conversion) (xx : BitVec 64) :
    printint T.digits xx c.base c.sign = some (canonical T.fold c.base (value xx c.sign)) := by
  obtain ⟨h1, h16⟩ := c.base_bounds
  obtain ⟨hneg, hx, hlen⟩ := magnitude c xx
  rw [printint, hx, hneg, canonical]
  split at hlen
  next hlt =>
    rw [digitLoop_eq T h1 h16 (Nat.le_succ_of_le hlen)]
    simp [hlt, Nat.lt_succ_of_le hlen]
  next hge =>
    rw [digitLoop_eq T h1 h16 hlen]
    simp [hge]

/-- For every 64-bit value and every conversion, the kernel and the user library print the representation of the
value without writing beyond the buffer, and parsing it gives the value back. -/
theorem printint_exact (c : Conversion) (xx : BitVec 64) :
    (kernelPrintint xx c.base c.sign = some (canonical id c.base (value xx c.sign)) ∧
      parse kernelTable.digits c.base (canonical id c.base (value xx c.sign)) = value xx c.sign) ∧
    userPrintint xx c.base c.sign = some (canonical Char.toUpper c.base (value xx c.sign)) ∧
      parse userTable.digits c.base (canonical Char.toUpper c.base (value xx c.sign)) = value xx c.sign := by
  obtain ⟨h1, h16⟩ := c.base_bounds
  exact ⟨⟨kernelTable.printint_eq c xx, parse_canonical kernelTable h1 h16 _⟩,
    userTable.printint_eq c xx, parse_canonical userTable h1 h16 _⟩

example : kernelPrintint (BitVec.intMin 64) 10 true = some "-9223372036854775808".toList := by decide

end Xv6Lab.Console.Printint
