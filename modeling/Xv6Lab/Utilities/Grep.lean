import Mathlib.Computability.Language

/-!
# The regular expressions and the filter of grep

`match` of `user/grep.c` and its two helpers, held to Kleene's languages: a pattern is read as items between two
optional anchors (`parse`), and `match` finds exactly the texts with a part in the language of the items
(`matchText_iff`). `grep` writes the lines that match if they fit into its buffer (`grep_exact_iff`). The end of a
list stands for the NUL that ends a C string.
-/

namespace Xv6Lab.Utilities.Grep

open Language List

/-! ## The matcher -/

/-- `matchstar`, with `matchhere re` for what follows the star. -/
def matchstar (here : List Char → Bool) (c : Char) : List Char → Bool
  | [] => here []
  | t :: text => here (t :: text) || ((t == c || c == '.') && matchstar here c text)

def matchhere : List Char → List Char → Bool
  | [], _ => true
  | c :: '*' :: re, text => matchstar (matchhere re) c text
  | ['$'], text => text.isEmpty
  | c :: re, t :: text => (c == '.' || c == t) && matchhere re text
  | _ :: _, [] => false

/-- The loop of `match`, which also looks at the empty string. -/
def matchLoop (re : List Char) : List Char → Bool
  | [] => matchhere re []
  | t :: text => matchhere re (t :: text) || matchLoop re text

/-- `match`. -/
def matchText : List Char → List Char → Bool
  | '^' :: re, text => matchhere re text
  | re, text => matchLoop re text

/-! ## Patterns and their languages -/

inductive Item
  | one (c : Char)
  | star (c : Char)

structure Pattern where
  /-- The pattern begins with `^`. -/
  start : Bool
  items : List Item
  /-- It ends with a `$` that is not followed by `*`. -/
  stop : Bool

/-- The items of a pattern after its `^`, and whether a final `$` follows them. -/
def parseItems : List Char → List Item × Bool
  | [] => ([], false)
  | c :: '*' :: re => (.star c :: (parseItems re).1, (parseItems re).2)
  | ['$'] => ([], true)
  | c :: re => (.one c :: (parseItems re).1, (parseItems re).2)

def parse : List Char → Pattern
  | '^' :: re => ⟨true, (parseItems re).1, (parseItems re).2⟩
  | re => ⟨false, (parseItems re).1, (parseItems re).2⟩

/-- The words of one letter that a character of a pattern stands for. -/
def letter (c : Char) : Language Char := {w | ∃ t, (c = '.' ∨ c = t) ∧ w = [t]}

def Item.language : Item → Language Char
  | .one c => letter c
  | .star c => KStar.kstar (letter c)

def Pattern.language (p : Pattern) : Language Char := (p.items.map Item.language).prod

/-- Some prefix of the text is in the language, the whole text if the pattern ends with `$`. -/
def Begins (l : Language Char) (stop : Bool) (text : List Char) : Prop :=
  ∃ u v, text = u ++ v ∧ u ∈ l ∧ (stop = true → v = [])

variable {l : Language Char} {stop : Bool} {c : Char} {text : List Char}

theorem begins_one : Begins 1 stop text ↔ (stop = true → text = []) := by
  constructor
  · rintro ⟨u, v, rfl, rfl, hv⟩ hstop
    exact hv hstop
  · intro h
    exact ⟨[], text, rfl, rfl, h⟩

theorem begins_letter_mul : Begins (letter c * l) stop text ↔
    ∃ t rest, text = t :: rest ∧ (c = '.' ∨ c = t) ∧ Begins l stop rest := by
  constructor
  · rintro ⟨-, v, rfl, ⟨-, ⟨t, ht, rfl⟩, w, hw, rfl⟩, hv⟩
    exact ⟨t, w ++ v, rfl, ht, w, v, rfl, hw, hv⟩
  · rintro ⟨t, -, rfl, ht, w, v, rfl, hw, hv⟩
    exact ⟨t :: w, v, rfl, ⟨[t], ⟨t, ht, rfl⟩, w, hw, rfl⟩, hv⟩

/-- A starred letter is absent, or it is there once and starred again. -/
theorem begins_star_mul : Begins (KStar.kstar (letter c) * l) stop text ↔ Begins l stop text ∨
    ∃ t rest, text = t :: rest ∧ (c = '.' ∨ c = t) ∧ Begins (KStar.kstar (letter c) * l) stop rest := by
  have hunfold : l + letter c * (KStar.kstar (letter c) * l) = KStar.kstar (letter c) * l := by
    nth_rewrite 1 [← one_mul l]
    rw [← mul_assoc, ← add_mul, one_add_self_mul_kstar_eq_kstar]
  rw [← begins_letter_mul]
  nth_rewrite 1 [← hunfold]
  simp only [Begins, mem_add, or_and_right, and_or_left, exists_or]

/-! ## Soundness and completeness -/

theorem matchstar_iff {here : List Char → Bool} (h : ∀ s, here s = true ↔ Begins l stop s) :
    matchstar here c text = true ↔ Begins (KStar.kstar (letter c) * l) stop text := by
  induction text with
  | nil =>
    rw [matchstar, h, begins_star_mul]
    simp
  | cons t text ih =>
    have hletter : (t == c || c == '.') = true ↔ c = '.' ∨ c = t := by
      rw [Bool.or_eq_true, beq_iff_eq, beq_iff_eq, or_comm, eq_comm (b := c)]
    rw [matchstar, begins_star_mul, Bool.or_eq_true, h, Bool.and_eq_true, hletter, ih]
    simp

/-- By induction on the pattern, item by item as it is parsed, over all texts. -/
theorem matchhere_iff (re text : List Char) : matchhere re text = true ↔
    Begins ((parseItems re).1.map Item.language).prod (parseItems re).2 text := by
  induction re using parseItems.induct generalizing text with
  | case1 => simp [matchhere, parseItems, begins_one]
  | case2 c re ih =>
    simp only [matchhere, parseItems, map_cons, prod_cons]
    exact matchstar_iff ih
  | case3 => simp [matchhere, parseItems, begins_one]
  | case4 c re hstar hdollar ih =>
    rw [parseItems, map_cons, prod_cons, Item.language, begins_letter_mul]
    · cases text with
      | nil => simp [matchhere]
      | cons t text => simp [matchhere, ih]
    · exact hstar
    · exact hdollar

/-- `match` looks for the pattern in the suffixes of the text. -/
theorem matchLoop_iff (re text : List Char) :
    matchLoop re text = true ↔ ∃ rest, rest <:+ text ∧ matchhere re rest := by
  induction text with
  | nil => simp [matchLoop]
  | cons t text ih => simp [matchLoop, ih, suffix_cons_iff, or_and_right, exists_or]

/-- `match` returns 1 exactly for the texts with a part in the language of the items: a prefix after `^`, a suffix
before `$`. -/
theorem matchText_iff (re text : List Char) : matchText re text = true ↔
    ∃ pre mid post, text = pre ++ mid ++ post ∧ mid ∈ (parse re).language ∧
      ((parse re).start = true → pre = []) ∧ ((parse re).stop = true → post = []) := by
  fun_cases matchText re text with
  | case1 re =>
    rw [matchhere_iff]
    constructor
    · rintro ⟨u, v, rfl, hu, hv⟩
      exact ⟨[], u, v, rfl, hu, fun _ => rfl, hv⟩
    · rintro ⟨pre, u, v, rfl, hu, hpre, hv⟩
      rw [hpre rfl]
      exact ⟨u, v, rfl, hu, hv⟩
  | case2 =>
    rw [matchLoop_iff, parse]
    · constructor
      · rintro ⟨rest, ⟨pre, rfl⟩, hrest⟩
        obtain ⟨u, v, rfl, hu, hv⟩ := (matchhere_iff _ _).mp hrest
        exact ⟨pre, u, v, (append_assoc ..).symm, hu, nofun, hv⟩
      · rintro ⟨pre, u, v, rfl, hu, -, hv⟩
        exact ⟨u ++ v, ⟨pre, (append_assoc ..).symm⟩, (matchhere_iff _ _).mpr ⟨u, v, rfl, hu, hv⟩⟩
    · assumption

/-! ## The filter -/

/-- The size of `buf`. -/
def bufSize : Nat := 1024

/-- The line that `grep` writes, or nothing. -/
def emit (pattern line : List Char) : List Char :=
  if matchText pattern line then line ++ ['\n'] else []

/-- The loop over the lines in `buf`: what it writes, and what is left behind the last newline. The first list is
what `strchr` has passed since `p`. -/
def lineLoop (pattern : List Char) : List Char → List Char → List Char × List Char
  | line, [] => ([], line)
  | line, c :: buf =>
    if c = '\n' then (emit pattern line ++ (lineLoop pattern [] buf).1, (lineLoop pattern [] buf).2)
    else lineLoop pattern (line ++ [c]) buf

/-- `read` with room for `room` bytes. It may return fewer bytes than there are, but at least one of them. -/
def read (want room : Nat) (input : List Char) : List Char := input.take (min (max want 1) room)

/-- The loop of `grep`, with what `read` would return in each round: what is written and what is not read. -/
def grepLoop (pattern : List Char) (want : Nat → Nat) : Nat → List Char → List Char → Option (List Char × List Char)
  | 0, _, _ => none
  | n + 1, buf, input =>
    let chunk := read (want n) (bufSize - buf.length - 1) input
    if chunk = [] then some ([], input)
    else
      let scan := lineLoop pattern [] (buf ++ chunk)
      (grepLoop pattern want n scan.2 (input.drop chunk.length)).map fun r => (scan.1 ++ r.1, r.2)

def grep (pattern : List Char) (want : Nat → Nat) (input : List Char) : Option (List Char × List Char) :=
  grepLoop pattern want (input.length + 1) [] input

/-- The lines of an input that end with a newline, and what follows the last newline. -/
def splitLines : List Char → List Char → List (List Char) × List Char
  | line, [] => ([], line)
  | line, c :: s => if c = '\n' then (line :: (splitLines [] s).1, (splitLines [] s).2) else splitLines (line ++ [c]) s

/-- What `grep` is to write: the lines that match, also the last one if it has no newline. -/
def matching (pattern input : List Char) : List Char :=
  (splitLines [] input).1.flatMap (emit pattern) ++
    if matchText pattern (splitLines [] input).2 then (splitLines [] input).2 else []

variable {line s r : List Char} {pattern : List Char}

theorem lineLoop_eq : lineLoop pattern line s =
    ((splitLines line s).1.flatMap (emit pattern), (splitLines line s).2) := by
  induction s generalizing line with
  | nil => rfl
  | cons c s ih =>
    rw [lineLoop, splitLines]
    split <;> simp [ih]

theorem splitLines_append : splitLines line (s ++ r) =
    ((splitLines line s).1 ++ (splitLines (splitLines line s).2 r).1, (splitLines (splitLines line s).2 r).2) := by
  induction s generalizing line with
  | nil => rfl
  | cons c s ih =>
    rw [cons_append, splitLines, splitLines]
    split <;> simp [ih]

/-- What is left holds no newline: scanned again it is a line in the making. -/
theorem splitLines_left (h : splitLines [] line = ([], line)) :
    splitLines [] (splitLines line s).2 = ([], (splitLines line s).2) := by
  induction s generalizing line with
  | nil => exact h
  | cons c s ih =>
    rw [splitLines]
    split
    · exact ih rfl
    next hc =>
      apply ih
      rw [splitLines_append, h]
      simp [splitLines, hc]

/-- The buffer is large enough for the lines and for what follows them. -/
def Fits (p : List (List Char) × List Char) : Prop := (∀ l ∈ p.1, l.length < bufSize - 1) ∧ p.2.length < bufSize

section

variable {ls ms : List (List Char)}

theorem fits_cons : Fits (line :: ls, s) ↔ line.length < bufSize - 1 ∧ Fits (ls, s) := by
  simp only [Fits, forall_mem_cons, and_assoc]

theorem fits_append : Fits (ls ++ ms, s) ↔ (∀ l ∈ ls, l.length < bufSize - 1) ∧ Fits (ms, s) := by
  simp only [Fits, forall_mem_append, and_assoc]

end

/-- Lines that are in the buffer fit. -/
theorem fits_of_length (h : line.length + s.length < bufSize) : Fits (splitLines line s) := by
  induction s generalizing line with
  | nil => exact ⟨by simp [splitLines], h⟩
  | cons c s ih =>
    rw [length_cons] at h
    rw [splitLines]
    split
    · rw [fits_cons]
      exact ⟨by omega, ih (by rw [length_nil]; omega)⟩
    · apply ih
      rw [length_append, length_singleton]
      omega

theorem Fits.length_lt (h : Fits (splitLines line s)) : line.length < bufSize := by
  induction s generalizing line with
  | nil => exact h.2
  | cons c s ih =>
    rw [splitLines] at h
    split at h
    · have := (fits_cons.mp h).1
      omega
    · have := ih h
      rw [length_append] at this
      omega

/-- A full buffer without a newline does not fit if there is more to read. -/
theorem not_fits_full (hlen : bufSize ≤ line.length + 1) (hs : s ≠ []) : ¬ Fits (splitLines line s) := by
  cases s with
  | nil => exact absurd rfl hs
  | cons c s =>
    intro h
    rw [splitLines] at h
    split at h
    · have := (fits_cons.mp h).1
      omega
    · have := h.length_lt
      rw [length_append, length_singleton] at this
      omega

variable {want room : Nat}

theorem read_eq_nil : read want room s = [] ↔ room = 0 ∨ s = [] := by
  rw [read, take_eq_nil_iff]
  refine or_congr_left ?_
  omega

theorem length_read_le : (read want room s).length ≤ room :=
  (length_take_le _ _).trans (min_le_right ..)

/-- By induction on the rounds, each of which reads something: `buf` is the line in the making. The loop reads all
of the input exactly when everything fits, and has then written the lines that match. -/
theorem grepLoop_spec (pattern : List Char) (want : Nat → Nat) {n : Nat} {buf input : List Char}
    (hbuf : splitLines [] buf = ([], buf)) (hlen : buf.length < bufSize) (hn : input.length < n) :
    ∃ out left, grepLoop pattern want n buf input = some (out, left) ∧ (left = [] ↔ Fits (splitLines buf input)) ∧
      (left = [] → out = (splitLines buf input).1.flatMap (emit pattern)) := by
  induction n generalizing buf input with
  | zero => cases hn
  | succ n ih =>
    rw [grepLoop]
    generalize hchunk : read (want n) (bufSize - buf.length - 1) input = chunk
    split
    next hnil =>
      refine ⟨[], input, rfl, ?_⟩
      by_cases hin : input = []
      · subst hin
        exact ⟨⟨fun _ => ⟨by simp [splitLines], hlen⟩, fun _ => rfl⟩, fun _ => rfl⟩
      · -- there is input, so there is no room
        have hroom := (read_eq_nil.mp (hchunk.trans hnil)).resolve_right hin
        exact ⟨⟨fun h => absurd h hin, fun h => absurd h (not_fits_full (by omega) hin)⟩, fun h => absurd h hin⟩
    next hne =>
      have hroom : chunk.length ≤ bufSize - buf.length - 1 := hchunk ▸ length_read_le
      obtain ⟨rest, rfl⟩ : chunk <+: input := hchunk ▸ take_prefix ..
      rw [length_append] at hn
      have hpos := length_pos_iff.mpr hne
      have hfits : Fits (splitLines buf chunk) := fits_of_length (by omega)
      obtain ⟨out, left, hrun, hleft, hout⟩ := ih (splitLines_left hbuf) hfits.2 (by omega : rest.length < n)
      have hscan : splitLines [] (buf ++ chunk) = splitLines buf chunk := by
        rw [splitLines_append, hbuf]
        rfl
      simp only [lineLoop_eq, hscan, drop_left, hrun, splitLines_append]
      refine ⟨_, left, rfl, ?_, fun hnil => ?_⟩
      · rw [hleft, fits_append, and_iff_right hfits.1]
      · rw [flatMap_append, hout hnil]

/-- `grep` writes exactly the lines that match and reads all of its input, however `read` splits it, when no line
is too long for the buffer and a last line without a newline does not match; and only then. -/
theorem grep_exact_iff (pattern input : List Char) (want : Nat → Nat) :
    grep pattern want input = some (matching pattern input, []) ↔
      (∀ line ∈ (splitLines [] input).1, line.length < bufSize - 1) ∧ (splitLines [] input).2.length < bufSize ∧
        ((splitLines [] input).2 = [] ∨ matchText pattern (splitLines [] input).2 = false) := by
  have hempty : ([] : List Char).length < bufSize := by decide
  obtain ⟨out, left, hgrep, hfits, hout⟩ :=
    grepLoop_spec pattern want (rfl : splitLines [] [] = ([], [])) hempty (Nat.lt_succ_self input.length)
  rw [grep, hgrep, ← and_assoc]
  change _ ↔ Fits (splitLines [] input) ∧ _
  rw [← hfits, Option.some.injEq, Prod.mk.injEq, and_comm]
  refine and_congr_right fun hleft => ?_
  rw [hout hleft, matching, self_eq_append_right]
  cases hmatch : matchText pattern (splitLines [] input).2 <;> simp

/-- A last line that matches is not written when it has no newline. -/
theorem grep_last_line : grep ['a'] (fun _ => 3) ['b', '\n', 'a'] = some ([], []) ∧
    matching ['a'] ['b', '\n', 'a'] = ['a'] := by
  decide

end Xv6Lab.Utilities.Grep
