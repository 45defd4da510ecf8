import Mathlib.Data.List.TakeWhile

/-!
# Escapes and options of custom_echo

`process_escapes` of `custom_echo.c` writes the decoding of its argument into `len + 1` bytes and never beyond them
(`processEscapes_eq`). The result is printed as a C string, so an escape that stands for the byte 0 cuts off the
rest (`echo_decodes_iff`). The options are the arguments made of option letters only, but the letters that the next
argument starts with are taken too (`echo_options_iff`).
-/

namespace Xv6Lab.Utilities.Echo

/-- The byte 0. The other characters stand for the bytes of an argument. -/
def nul : Char := Char.ofNat 0

/-- The two-character escapes: what follows the backslash, and the character it stands for. -/
def unescape : Char → Option Char
  | '\\' => some '\\'
  | 'n' => some '\n'
  | 't' => some '\t'
  | 'r' => some '\r'
  | 'a' => some '\x07'
  | 'b' => some '\x08'
  | _ => none

/-! ## The program -/

/-- `buf[j++] = c` for a buffer of `size` bytes. -/
def put (size : Nat) (buf : List Char) (c : Char) : Option (List Char) :=
  if buf.length < size then some (buf ++ [c]) else none

def isOctal (c : Char) : Bool := '0' ≤ c && c ≤ '7'

/-- The loop over the digits of an octal escape: the value, and what follows the digits. -/
def octalLoop : Nat → Nat → List Char → Nat × List Char
  | k + 1, octal, c :: src =>
    if isOctal c then octalLoop k (octal * 8 + (c.toNat - '0'.toNat)) src else (octal, c :: src)
  | _, octal, src => (octal, src)

/-- The loop of `process_escapes`, with what is left of `src` from `i` on. -/
def escapeLoop (size : Nat) : Nat → List Char → List Char → Option (List Char)
  | 0, _, _ => none
  | _ + 1, buf, [] => put size buf nul
  | n + 1, buf, '\\' :: '0' :: src =>
    (put size buf (Char.ofNat ((octalLoop 3 0 src).1 % 256))).bind fun buf =>
      escapeLoop size n buf (octalLoop 3 0 src).2
  | n + 1, buf, '\\' :: c :: src =>
    match unescape c with
    | some d => (put size buf d).bind fun buf => escapeLoop size n buf src
    | none => (put size buf '\\').bind fun buf => (put size buf c).bind fun buf => escapeLoop size n buf src
  | n + 1, buf, c :: src => (put size buf c).bind fun buf => escapeLoop size n buf src

def processEscapes (src : List Char) : Option (List Char) :=
  escapeLoop (src.length + 1) (src.length + 1) [] src

/-- What `fputs` prints of a buffer. -/
def fputs (buf : List Char) : List Char := buf.takeWhile (· ≠ nul)

/-! ## The decoding -/

/-- The digits of an octal escape: at most three. -/
def octalDigits (s : List Char) : List Char := (s.take 3).takeWhile isOctal

def octalValue (digits : List Char) : Nat := digits.foldl (fun v d => v * 8 + (d.toNat - '0'.toNat)) 0

/-- The decoding of an argument from left to right. -/
def decode : List Char → List Char
  | [] => []
  | '\\' :: '0' :: s => Char.ofNat (octalValue (octalDigits s) % 256) :: decode (s.drop (octalDigits s).length)
  | '\\' :: c :: s =>
    match unescape c with
    | some d => d :: decode s
    | none => '\\' :: c :: decode s
  | c :: s => c :: decode s
termination_by s => s.length
decreasing_by
  all_goals
    simp only [List.length_cons, List.length_drop]
    omega

variable {s : List Char}

/-- The loop takes the digits off, three at most. -/
theorem octalLoop_eq (k octal : Nat) : octalLoop k octal s =
    (((s.take k).takeWhile isOctal).foldl (fun v d => v * 8 + (d.toNat - '0'.toNat)) octal,
      s.drop ((s.take k).takeWhile isOctal).length) := by
  induction k generalizing octal s with
  | zero => simp [octalLoop]
  | succ k ih =>
    cases s with
    | nil => simp [octalLoop]
    | cons c s =>
      rw [octalLoop]
      split
      next hc => simp [ih, hc]
      next hc => simp [hc]

theorem put_bind {size : Nat} {buf : List Char} (h : buf.length < size) (c : Char)
    (f : List Char → Option (List Char)) : (put size buf c).bind f = f (buf ++ [c]) := by
  rw [put, if_pos h, Option.bind_some]

/-- By induction on the rounds: the bytes written and those not yet read never exceed the length of the argument. -/
theorem escapeLoop_eq {size n : Nat} {buf : List Char} (hn : s.length < n) (hsize : buf.length + s.length < size) :
    escapeLoop size n buf s = some (buf ++ decode s ++ [nul]) := by
  induction n, buf, s using escapeLoop.induct with
  | case1 => cases hn
  | case2 n buf => rw [escapeLoop, put, if_pos (show buf.length < size from hsize), decode, List.append_nil]
  | case3 n buf s ih =>
    simp only [List.length_cons] at hn hsize
    simp only [octalLoop_eq, List.length_drop] at ih
    rw [escapeLoop, put_bind (by omega), octalLoop_eq, ih _ (by omega) (by simp; omega), decode]
    simp [octalValue, octalDigits]
  | case4 n buf c s hzero d hd ih =>
    simp only [List.length_cons] at hn hsize
    simp only [escapeLoop, decode, hd]
    rw [put_bind (by omega), ih _ (by omega) (by simp; omega)]
    simp
  | case5 n buf c s hzero hnone ih =>
    simp only [List.length_cons] at hn hsize
    simp only [escapeLoop, decode, hnone]
    rw [put_bind (by omega), put_bind (by simp; omega), ih _ (by omega) (by simp; omega)]
    simp
  | case6 n buf c s hzero hother ih =>
    rw [List.length_cons] at hn hsize
    rw [escapeLoop, put_bind (by omega), ih _ (by omega) (by simp; omega), decode]
    · simp
    all_goals assumption

theorem processEscapes_eq (src : List Char) : processEscapes src = some (decode src ++ [nul]) := by
  rw [processEscapes, escapeLoop_eq (Nat.lt_succ_self _) (by simp), List.nil_append]

/-- What is printed of a buffer that ends with its only NUL. -/
theorem fputs_append_nul : fputs (s ++ [nul]) = s ↔ nul ∉ s := by
  constructor
  · intro h hmem
    rw [← h] at hmem
    have := List.mem_takeWhile_imp hmem
    simp at this
  · intro h
    have hall : ∀ c ∈ s, decide (c ≠ nul) = true := by
      intro c hc
      apply decide_eq_true
      rintro rfl
      exact h hc
    rw [fputs, List.takeWhile_append_of_pos hall]
    simp

/-- What is printed of an argument is its decoding, written within the bytes allocated, if no escape of the argument
stands for the byte 0; and only then. -/
theorem echo_decodes_iff (src : List Char) :
    (∃ buf, processEscapes src = some buf ∧ fputs buf = decode src) ↔ nul ∉ decode src := by
  rw [processEscapes_eq, ← fputs_append_nul]
  simp

/-- The argument `a\0b` is printed as `a`. -/
theorem echo_zero_escape :
    ∃ src buf, processEscapes src = some buf ∧ fputs buf = ['a'] ∧ decode src = ['a', nul, 'b'] := by
  refine ⟨['a', '\\', '0', 'b'], ['a', nul, 'b', nul], by decide, by decide, ?_⟩
  simp [decode, octalDigits, octalValue, isOctal, nul]

/-! ## The options -/

/-- `no_newline` and `escape_enabled`. -/
structure Flags where
  noNewline : Bool
  escapeEnabled : Bool
  deriving DecidableEq

/-- The loop over the letters of an argument: `valid_flag`, and the flags, which are set on the way. -/
def flagLoop : Flags → List Char → Bool × Flags
  | f, [] => (true, f)
  | f, c :: s =>
    if c = 'n' then flagLoop { f with noNewline := true } s
    else if c = 'e' then flagLoop { f with escapeEnabled := true } s
    else if c = 'E' then flagLoop { f with escapeEnabled := false } s
    else (false, f)

def printArg (f : Flags) (arg : List Char) : List Char :=
  fputs (if f.escapeEnabled then (processEscapes arg).getD [] else arg)

/-- The loop over the strings; the first one has no space before it. -/
def printLoop (f : Flags) : Bool → List (List Char) → List Char
  | _, [] => []
  | first, arg :: args => (if first then [] else [' ']) ++ printArg f arg ++ printLoop f false args

/-- What `main` ends with: a text of its own, or the flags and what was printed. -/
inductive Outcome where
  | help
  | version
  | echo (flags : Flags) (out : List Char)
  deriving DecidableEq

def printStrings (f : Flags) (args : List (List Char)) : Outcome :=
  .echo f (printLoop f true args ++ if f.noNewline then [] else ['\n'])

/-- The loop over the arguments. -/
def optionLoop (f : Flags) : List (List Char) → Outcome
  | [] => printStrings f []
  | arg :: args =>
    if arg = "--help".toList then .help
    else if arg = "--version".toList then .version
    else if arg.head? = some '-' ∧ arg.tail ≠ [] then
      if (flagLoop f arg.tail).1 then optionLoop (flagLoop f arg.tail).2 args
      else printStrings (flagLoop f arg.tail).2 (arg :: args)
    else printStrings f (arg :: args)

def main (args : List (List Char)) : Outcome := optionLoop ⟨false, false⟩ args

def isFlag (c : Char) : Bool := c = 'n' || c = 'e' || c = 'E'

/-- A dash and one or more option letters. -/
def isOption (arg : List Char) : Bool := arg.head? = some '-' && arg.tail ≠ [] && arg.tail.all isFlag

/-- The letters of the options at the front. -/
def optionLetters (args : List (List Char)) : List Char := (args.takeWhile isOption).flatMap List.tail

/-- The arguments behind the options. -/
def strings (args : List (List Char)) : List (List Char) := args.dropWhile isOption

/-- The flags that letters stand for. -/
def flagsOf (letters : List Char) : Flags :=
  ⟨'n' ∈ letters, (letters.filter fun c => c = 'e' || c = 'E').getLast? = some 'e'⟩

/-- What is expected: the flags of the options, and the strings with single spaces between them. -/
def expected (args : List (List Char)) : Outcome :=
  let f := flagsOf (optionLetters args)
  .echo f ([' '].intercalate ((strings args).map (printArg f)) ++ if f.noNewline then [] else ['\n'])

/-- The option letters that the first string starts with, after a dash. -/
def lead (args : List (List Char)) : List Char :=
  match strings args with
  | ('-' :: s) :: _ => s.takeWhile isFlag
  | _ => []

theorem flagLoop_eq (letters s : List Char) :
    flagLoop (flagsOf letters) s = (s.all isFlag, flagsOf (letters ++ s.takeWhile isFlag)) := by
  induction s generalizing letters with
  | nil => simp [flagLoop]
  | cons c s ih =>
    have hstep := ih (letters ++ [c])
    rw [flagLoop]
    by_cases hc : isFlag c = true
    · rw [List.append_assoc] at hstep
      obtain rfl | rfl | rfl : c = 'n' ∨ c = 'e' ∨ c = 'E' := by simpa [isFlag, or_assoc] using hc
      all_goals simpa [flagsOf, isFlag] using hstep
    · obtain ⟨h1, h2, h3⟩ : c ≠ 'n' ∧ c ≠ 'e' ∧ c ≠ 'E' := by simpa [isFlag, and_assoc] using hc
      simp [h1, h2, h3, hc]

theorem printLoop_eq (f : Flags) (args : List (List Char)) :
    printLoop f true args = [' '].intercalate (args.map (printArg f)) := by
  induction args with
  | nil => rfl
  | cons arg args ih =>
    cases args with
    | nil => simp [printLoop]
    | cons b args => simpa [printLoop] using ih

/-- By induction on the arguments, with the letters read so far. -/
theorem optionLoop_eq (letters : List Char) {args : List (List Char)} (hhelp : "--help".toList ∉ args)
    (hversion : "--version".toList ∉ args) : optionLoop (flagsOf letters) args =
      printStrings (flagsOf (letters ++ optionLetters args ++ lead args)) (strings args) := by
  induction args generalizing letters with
  | nil => simp [optionLoop, optionLetters, lead, strings]
  | cons arg args ih =>
    rw [List.mem_cons, not_or] at hhelp hversion
    rw [optionLoop, if_neg (Ne.symm hhelp.1), if_neg (Ne.symm hversion.1), flagLoop_eq]
    by_cases hopt : isOption arg = true
    · have hdash : (arg.head? = some '-' ∧ arg.tail ≠ []) ∧ arg.tail.all isFlag = true := by
        simpa [isOption] using hopt
      have hall : arg.tail.takeWhile isFlag = arg.tail := List.takeWhile_eq_self_iff.mpr (by simpa using hdash.2)
      rw [if_pos hdash.1, if_pos hdash.2, ih _ hhelp.2 hversion.2, hall]
      simp [optionLetters, strings, lead, hopt]
    · cases arg with
      | nil => simp [optionLetters, strings, lead, hopt]
      | cons c s =>
        by_cases hc : c = '-'
        · subst hc
          cases s with
          | nil => simp [optionLetters, strings, lead, hopt]
          | cons d s =>
            have hall : ¬ (d :: s).all isFlag = true := by simpa [isOption] using hopt
            rw [if_pos ⟨rfl, List.cons_ne_nil d s⟩]
            refine (if_neg hall).trans ?_
            simp [optionLetters, strings, lead, hopt]
        · simp [optionLetters, strings, lead, hopt, hc]

/-- The flags are those of the options, and the strings are printed, exactly if the option letters that the first
string starts with would change no flag. -/
theorem echo_options_iff (args : List (List Char)) (hhelp : "--help".toList ∉ args)
    (hversion : "--version".toList ∉ args) :
    main args = expected args ↔ flagsOf (optionLetters args ++ lead args) = flagsOf (optionLetters args) := by
  have hmain : main args = _ := optionLoop_eq [] hhelp hversion
  rw [hmain, expected, printStrings, printLoop_eq, List.nil_append]
  constructor
  · intro h
    exact (Outcome.echo.inj h).1
  · intro h
    rw [h]

theorem echo_options_dash_n : main ["-n".toList, "a".toList] = expected ["-n".toList, "a".toList] :=
  (echo_options_iff _ (by decide) (by decide)).mpr (by decide)

/-- The argument `-nx` is a string, and it suppresses the newline. -/
theorem echo_leading_letter : main ["-nx".toList] = .echo ⟨true, false⟩ "-nx".toList ∧
    expected ["-nx".toList] = .echo ⟨false, false⟩ "-nx\n".toList := by decide

end Xv6Lab.Utilities.Echo
