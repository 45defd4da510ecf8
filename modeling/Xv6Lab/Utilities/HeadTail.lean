import Mathlib.Data.List.Basic

/-!
# The lines of custom_head_tail

`custom_head_tail.c` reads a file with `fgets` into a buffer of 1024 bytes and keeps a copy of each piece in an array
of 10000 pointers. A line of more than 1023 bytes comes in several pieces, each of which counts as a line, and the
loop does not test the size of the array. `sections_exact_iff` says for which files the sections are those of the
lines.
-/

namespace Xv6Lab.Utilities.HeadTail

open List

/-! ## The program -/

def maxLines : Nat := 10000

def maxLen : Nat := 1024

/-- `fgets` with room for `k` characters: what it reads, up to the end of the line, and the rest of the file. -/
def fgets : Nat → List Char → List Char × List Char
  | 0, s => ([], s)
  | _ + 1, [] => ([], [])
  | k + 1, c :: s => if c = '\n' then ([c], s) else (c :: (fgets k s).1, (fgets k s).2)

/-- The loop that reads the file, with the room left in `lines`; no result if it writes beyond the array. -/
def readLoop : Nat → List Char → Option (List (List Char))
  | _, [] => some []
  | 0, _ :: _ => none
  | room + 1, c :: s =>
    (readLoop room (fgets (maxLen - 1) (c :: s)).2).map ((fgets (maxLen - 1) (c :: s)).1 :: ·)

/-- The loop over `i < n` and `i < count`. -/
def headSection (n : Nat) (lines : List (List Char)) : List Char := (lines.take n).flatten

/-- The loop from `count - n` on, which prints nothing for a negative index. -/
def tailSection (n : Nat) (lines : List (List Char)) : List Char :=
  (lines.drop ((lines.length : Int) - n).toNat).flatten

/-- The two sections that are printed for a file. -/
def sections (n : Nat) (content : List Char) : Option (List Char × List Char) :=
  (readLoop maxLines content).map fun lines => (headSection n lines, tailSection n lines)

/-! ## Lines -/

/-- A character before the first line. -/
def glue (c : Char) : List (List Char) → List (List Char)
  | [] => [[c]]
  | l :: ls => (c :: l) :: ls

/-- The lines of a file with their newlines; the last one may have none. -/
def splitLines : List Char → List (List Char)
  | [] => []
  | c :: s => if c = '\n' then [c] :: splitLines s else glue c (splitLines s)

/-- The pieces that a line is read in. -/
def piecesOf (l : List Char) : Nat := (l.length + (maxLen - 2)) / (maxLen - 1)

/-- The pieces that lines are read in. -/
def pieceCount : List (List Char) → Nat
  | [] => 0
  | l :: ls => piecesOf l + pieceCount ls

/-- The first `n` and the last `n` lines. -/
def expected (n : Nat) (lines : List (List Char)) : List Char × List Char :=
  ((lines.take n).flatten, (lines.drop (lines.length - n)).flatten)

/-! ## Pieces -/

/-- The pieces of one line. -/
structure Group (g : List (List Char)) : Prop where
  pieces : [] ∉ g
  line : g.flatten ≠ []
  count : g.length = piecesOf g.flatten

/-- What `fgets` reads is a line, or a full buffer of the first line. -/
theorem fgets_lines (k : Nat) {s : List Char} (hs : s ≠ []) : (fgets k s).1 ++ (fgets k s).2 = s ∧
    (splitLines s = (fgets k s).1 :: splitLines (fgets k s).2 ∧ (fgets k s).1 ≠ [] ∧ (fgets k s).1.length ≤ k ∨
      (fgets k s).1.length = k ∧ ∃ l ls, splitLines (fgets k s).2 = l :: ls ∧
        splitLines s = ((fgets k s).1 ++ l) :: ls) := by
  induction k generalizing s with
  | zero =>
    refine ⟨rfl, .inr ⟨rfl, ?_⟩⟩
    cases s with
    | nil => exact absurd rfl hs
    | cons c s =>
      rw [fgets, splitLines]
      split
      · exact ⟨_, _, rfl, rfl⟩
      · cases splitLines s with
        | nil | cons => exact ⟨_, _, rfl, rfl⟩
  | succ k ih =>
    cases s with
    | nil => exact absurd rfl hs
    | cons c s =>
      rw [fgets, splitLines]
      split
      · exact ⟨rfl, .inl ⟨rfl, by simp, by simp⟩⟩
      · rcases eq_or_ne s [] with rfl | hne
        · have hnil : fgets k [] = ([], []) := by cases k <;> rfl
          rw [hnil]
          exact ⟨rfl, .inl ⟨rfl, by simp, by simp⟩⟩
        · obtain ⟨happend, ⟨hl, -, hle⟩ | ⟨hlen, l, ls, hr, hl⟩⟩ := ih hne
          · refine ⟨by simp [happend], .inl ⟨?_, by simp, by simpa using hle⟩⟩
            rw [hl]
            rfl
          · refine ⟨by simp [happend], .inr ⟨by simpa using hlen, l, ls, hr, ?_⟩⟩
            rw [hl]
            rfl

/-- By induction on the length of the file: the loop reads the groups of pieces of the lines. -/
theorem readLoop_groups (s : List Char) : ∃ G : List (List (List Char)), splitLines s = G.map flatten ∧
    (∀ g ∈ G, Group g) ∧ ∀ room, readLoop room s = if G.flatten.length ≤ room then some G.flatten else none := by
  induction hn : s.length using Nat.strongRecOn generalizing s with
  | _ n ih =>
    cases s with
    | nil => exact ⟨[], rfl, by simp, fun room => by cases room <;> rfl⟩
    | cons c s =>
      obtain ⟨happend, hcase⟩ := fgets_lines (maxLen - 1) (cons_ne_nil c s)
      have hloop := fun room => readLoop.eq_3 room c s
      generalize (fgets (maxLen - 1) (c :: s)).1 = p at *
      generalize (fgets (maxLen - 1) (c :: s)).2 = r at *
      have hp : p ≠ [] := by
        rcases hcase with ⟨-, hp, -⟩ | ⟨hlen, -⟩
        · exact hp
        · rintro rfl
          cases hlen
      have hlt : r.length < n := by
        have hpos := length_pos_iff.mpr hp
        rw [← happend, length_append] at hn
        omega
      obtain ⟨G, hlines, hG, hread⟩ := ih r.length hlt r rfl
      -- in both cases the piece comes before the pieces of the rest
      have hsplit : ∃ G' : List (List (List Char)), splitLines (c :: s) = G'.map flatten ∧
          (∀ g ∈ G', Group g) ∧ G'.flatten = p :: G.flatten := by
        rcases hcase with ⟨hl, -, hle⟩ | ⟨hlen, l, ls, hr, hl⟩
        · refine ⟨[p] :: G, by simp [hl, hlines], forall_mem_cons.mpr ⟨⟨?_, by simpa using hp, ?_⟩, hG⟩, by simp⟩
          · simpa using hp.symm
          · have hpos := length_pos_iff.mpr hp
            have hle : p.length ≤ 1023 := hle
            show 1 = ((p ++ []).length + 1022) / 1023
            rw [append_nil]
            omega
        · cases G with
          | nil => simp [hr] at hlines
          | cons g G =>
            rw [hr, map_cons] at hlines
            obtain ⟨rfl, rfl⟩ := cons.inj hlines
            obtain ⟨hg, hG⟩ := forall_mem_cons.mp hG
            refine ⟨(p :: g) :: G, by simp [hl], forall_mem_cons.mpr ⟨⟨?_, ?_, ?_⟩, hG⟩, by simp⟩
            · simpa using ⟨hp, hg.pieces⟩
            · simp [hp]
            · rw [length_cons, hg.count, flatten_cons, piecesOf, piecesOf, length_append, hlen]
              show (_ + 1022) / 1023 + 1 = (1023 + _ + 1022) / 1023
              omega
      obtain ⟨G', hl, hG', hflat⟩ := hsplit
      refine ⟨G', hl, hG', fun room => ?_⟩
      rw [hflat, length_cons]
      cases room with
      | zero => rfl
      | succ room =>
        rw [hloop, hread]
        split
        · rw [if_pos (by omega)]
          rfl
        · rw [if_neg (by omega)]
          rfl

theorem pieceCount_groups {G : List (List (List Char))} (hG : ∀ g ∈ G, Group g) :
    pieceCount (G.map flatten) = G.flatten.length := by
  induction G with
  | nil => rfl
  | cons g G ih =>
    obtain ⟨hg, hG⟩ := forall_mem_cons.mp hG
    rw [map_cons, pieceCount, ih hG, ← hg.count, flatten_cons, length_append]

/-! ## Selections -/

/-- Two cuts of the same pieces, none of them empty, give the same text only at the same place. -/
theorem cut_flatten_iff {P : List (List Char)} (hP : [] ∉ P) (a b : Nat) :
    ((P.take a).flatten = (P.take b).flatten ↔ min a P.length = min b P.length) ∧
      ((P.drop a).flatten = (P.drop b).flatten ↔ min a P.length = min b P.length) := by
  have htake : (P.take a).flatten = (P.take b).flatten → min a P.length = min b P.length := by
    intro h
    induction P generalizing a b with
    | nil => simp
    | cons p P ih =>
      obtain ⟨hp, hP⟩ := not_or.mp (mt mem_cons.mpr hP)
      cases a with
      | zero => cases b with
        | zero => rfl
        | succ b => simp [Ne.symm hp] at h
      | succ a => cases b with
        | zero => simp [Ne.symm hp] at h
        | succ b =>
          have := ih hP a b (by simpa using h)
          rw [length_cons]
          omega
  refine ⟨⟨htake, fun h => by rw [take_eq_take_iff.mpr h]⟩, fun h => htake ?_, fun h => by rw [drop_eq_drop_iff.mpr h]⟩
  have hall : ∀ k, (P.take k).flatten ++ (P.drop k).flatten = P.flatten := fun k => by
    rw [← flatten_append, take_append_drop]
  exact append_cancel_right ((hall a).trans ((hall b).symm.trans (by rw [h])))

section

variable {G sel : List (List (List Char))}

theorem length_le_flatten (h : ∀ g ∈ sel, Group g) : sel.length ≤ sel.flatten.length ∧
    (sel.flatten.length = sel.length ↔ ∀ g ∈ sel, g.flatten.length < maxLen) := by
  induction sel with
  | nil => simp
  | cons g sel ih =>
    obtain ⟨hg, hsel⟩ := forall_mem_cons.mp h
    have hpos := length_pos_iff.mpr hg.line
    have hcount : g.length = (g.flatten.length + 1022) / 1023 := hg.count
    obtain ⟨hle, hiff⟩ := ih hsel
    rw [forall_mem_cons, ← hiff, flatten_cons, length_append, length_cons]
    show _ ∧ (_ ↔ _ < 1024 ∧ _)
    omega

variable (hG : ∀ g ∈ G, Group g) (n : Nat)
include hG

/-- `n` pieces are those of the `n` lines `sel` if there are no more pieces, or each of the lines is one piece. -/
theorem selected_iff (hsub : sel <+ G) (hlen : sel.length = min n G.length) :
    min n G.flatten.length = sel.flatten.length ↔
      G.flatten.length ≤ n ∨ ∀ l ∈ sel.map flatten, l.length < maxLen := by
  obtain ⟨hle, -⟩ := length_le_flatten hG
  obtain ⟨hsel, hiff⟩ := length_le_flatten fun g hg => hG g (hsub.subset hg)
  have hall : G.length ≤ n → sel.flatten.length = G.flatten.length := fun h => by
    rw [hsub.eq_of_length (by omega)]
  rw [forall_mem_map, ← hiff]
  omega

/-- The loops print the lines if they end where the groups of the lines do. -/
theorem sections_groups_iff : (headSection n G.flatten, tailSection n G.flatten) = expected n (G.map flatten) ↔
    G.flatten.length ≤ n ∨ (∀ l ∈ (G.map flatten).take n, l.length < maxLen) ∧
      ∀ l ∈ (G.map flatten).drop ((G.map flatten).length - n), l.length < maxLen := by
  have hP : [] ∉ G.flatten := fun h => by
    obtain ⟨g, hg, h⟩ := mem_flatten.mp h
    exact (hG g hg).pieces h
  have hcut : ∀ k, (G.take k).flatten ++ (G.drop k).flatten = G.flatten := fun k => by
    rw [← flatten_append, take_append_drop]
  have hlength : ∀ k, (G.take k).flatten.length + (G.drop k).flatten.length = G.flatten.length := fun k => by
    rw [← length_append, hcut]
  have htake : ∀ k, ((G.take k).map flatten).flatten = (G.flatten.take (G.take k).flatten.length).flatten :=
    fun k => by rw [← hcut k, take_left, flatten_flatten]
  have hdrop : ∀ k, ((G.drop k).map flatten).flatten = (G.flatten.drop (G.take k).flatten.length).flatten :=
    fun k => by rw [← hcut k, drop_left, flatten_flatten]
  rw [expected, Prod.mk.injEq, length_map, ← map_take, ← map_drop, htake, hdrop, or_and_left,
    ← selected_iff hG n (take_sublist ..) (by simp), ← selected_iff hG n (drop_sublist ..) (by simp; omega)]
  refine and_congr ((cut_flatten_iff hP _ _).1.trans ?_) ((cut_flatten_iff hP _ _).2.trans ?_)
  · have := hlength n
    omega
  · have := hlength (G.length - n)
    omega

end

/-- The sections are those of the lines, and `lines` is not left, exactly for a file of at most 10000 pieces that has
no more than `n` of them, or none of whose first `n` and last `n` lines is longer than the buffer. -/
theorem sections_exact_iff (n : Nat) (content : List Char) :
    sections n content = some (expected n (splitLines content)) ↔
      pieceCount (splitLines content) ≤ maxLines ∧
        (pieceCount (splitLines content) ≤ n ∨ (∀ l ∈ (splitLines content).take n, l.length < maxLen) ∧
          ∀ l ∈ (splitLines content).drop ((splitLines content).length - n), l.length < maxLen) := by
  obtain ⟨G, hl, hG, hread⟩ := readLoop_groups content
  rw [hl, sections, hread, pieceCount_groups hG, ← sections_groups_iff hG n]
  split
  next h => simp [-length_flatten, h]
  next h => simp [-length_flatten, h]

/-- A line of 1024 bytes is two lines for the program. -/
theorem sections_long_line : sections 1 (replicate 1024 'a') = some (replicate 1023 'a', ['a']) ∧
    expected 1 (splitLines (replicate 1024 'a')) = (replicate 1024 'a', replicate 1024 'a') := by
  decide +kernel

end Xv6Lab.Utilities.HeadTail
