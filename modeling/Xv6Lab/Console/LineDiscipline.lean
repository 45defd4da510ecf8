import Xv6Lab.Console.Model

/-!
# The console is a line editor

`Editor` is a line editor over lists: what has been committed since boot, how much of it readers have passed, and the
line being edited. `takeLine` is a read over the list of committed characters. In every state the ring of the console
holds the unread part of what the editor has committed, followed by its line (`Holds`), also after the counters have
wrapped, and each section of `consoleread` gives its reader what `takeLine` gives (`console_line_discipline`).
-/

namespace Xv6Lab.Console

open Function Lib.RingBuffer Lib.Transition RingBuf List

/-! ## The reference -/

structure Editor where
  /-- The characters of all committed lines. -/
  committed : List UInt8
  /-- How many of them readers have gone past. -/
  passed : Nat
  line : List UInt8

/-- The number of characters that are held back for readers and in the line. -/
def Editor.held (ed : Editor) : Nat := ed.committed.length - ed.passed + ed.line.length

/-- A character arrives. It is dropped if the buffer is full. -/
def Editor.typed (ed : Editor) (c : UInt8) : Editor :=
  if c = ctrlP ∨ c = 0 then ed
  else if c = ctrlU then { ed with line := [] }
  else if c = ctrlH ∨ c = del then { ed with line := ed.line.dropLast }
  else if ed.held = inputBufSize then ed
  else if mapReturn c = newline ∨ mapReturn c = ctrlD ∨ ed.held + 1 = inputBufSize then
    { ed with committed := ed.committed ++ (ed.line ++ [mapReturn c]), line := [] }
  else { ed with line := ed.line ++ [mapReturn c] }

def Editor.step (ed : Editor) : Event → Editor
  | .typed c => ed.typed c
  | .passed k => { ed with passed := ed.passed + k }

/-- The editor after a list of events. -/
def edit (events : List Event) : Editor := events.foldl Editor.step ⟨[], 0, []⟩

theorem edit_concat (events : List Event) (ev : Event) : edit (events ++ [ev]) = (edit events).step ev := by
  simp [edit]

/-- A read from a list of committed characters: how it ends, what is left, and what the reader is given. An end of
file ends the read. It is taken from the list if the read has given nothing else. -/
def takeLine (killed : Bool) (target : Nat) : Nat → List UInt8 → ReadEnd × List UInt8 × List Delivery
  | 0, u => (.returned target, u, [])
  | n + 1, [] => (if killed then .returned (-1) else .sleep (n + 1), [], [])
  | n + 1, c :: u =>
    if c = ctrlD then
      if n + 1 < target then (.returned (target - (n + 1 : Nat)), c :: u, [])
      else (.returned (target - (n + 1 : Nat)), u, [.eof])
    else if c = newline then (.returned (target - n), u, [.byte c])
    else
      let (o, rest, got) := takeLine killed target n u
      (o, rest, .byte c :: got)

section TakeLine

variable (killed : Bool) (target : Nat)

theorem takeLine_newline (n : Nat) (u : List UInt8) :
    takeLine killed target (n + 1) (newline :: u) = (.returned (target - n), u, [.byte newline]) := by
  rw [takeLine, if_neg (by decide), if_pos rfl]

theorem takeLine_byte {c : UInt8} (hd : c ≠ ctrlD) (hnl : c ≠ newline) (n : Nat) (u : List UInt8) :
    takeLine killed target (n + 1) (c :: u) =
      ((takeLine killed target n u).1, (takeLine killed target n u).2.1,
        .byte c :: (takeLine killed target n u).2.2) := by
  rw [takeLine, if_neg hd, if_neg hnl]

/-- What a read gives is what it takes from the list. -/
theorem takeLine_split : ∀ (n : Nat) (u : List UInt8),
    u = (takeLine killed target n u).2.2.map Delivery.char ++ (takeLine killed target n u).2.1
  | 0, u => rfl
  | n + 1, [] => rfl
  | n + 1, c :: u => by
      have ih := takeLine_split n u
      by_cases hd : c = ctrlD
      · by_cases hn : n + 1 < target <;> simp [takeLine, hd, hn, Delivery.char]
      rcases eq_or_ne c newline with rfl | hnl
      · simp [takeLine_newline, Delivery.char]
      · rw [takeLine_byte killed target hd hnl, map_cons, cons_append, ← ih]
        rfl

/-- A read gives bytes that are not ends of file, and ends of file. -/
theorem takeLine_given : ∀ (n : Nat) (u : List UInt8) (d : Delivery),
    d ∈ (takeLine killed target n u).2.2 → d = .eof ∨ ∃ c, d = .byte c ∧ c ≠ ctrlD
  | 0, u, d, h => by simp [takeLine] at h
  | n + 1, [], d, h => by simp [takeLine] at h
  | n + 1, b :: u, d, h => by
      have ih := takeLine_given n u d
      by_cases hd : b = ctrlD
      · by_cases hn : n + 1 < target
        · simp [takeLine, hd, hn] at h
        · simp only [takeLine, if_pos hd, if_neg hn, mem_singleton] at h
          exact .inl h
      · rcases eq_or_ne b newline with rfl | hnl
        · simp only [takeLine_newline, mem_singleton] at h
          exact .inr ⟨newline, h, hd⟩
        simp only [takeLine_byte killed target hd hnl, mem_cons] at h
        rcases h with h | h
        · exact .inr ⟨b, h, hd⟩
        · exact ih h

/-- A read that sleeps has no more left than before. -/
theorem takeLine_left : ∀ (n : Nat) (u : List UInt8) (m : Nat), (takeLine killed target n u).1 = .sleep m → m ≤ n
  | 0, u, m, h => by simp [takeLine] at h
  | n + 1, [], m, h => by
      cases killed <;> simp [takeLine] at h
      omega
  | n + 1, c :: u, m, h => by
      have ih := takeLine_left n u m
      by_cases hd : c = ctrlD
      · by_cases hn : n + 1 < target <;> simp [takeLine, hd, hn] at h
      rcases eq_or_ne c newline with rfl | hnl
      · simp [takeLine_newline] at h
      · rw [takeLine_byte killed target hd hnl] at h
        exact (ih h).trans (Nat.le_succ n)

/-- A read that has given something returns more than 0, or -1. -/
theorem takeLine_ne_zero : ∀ (n : Nat) (u : List UInt8), n < target →
    (takeLine killed target n u).1 ≠ .returned 0 ∧ .eof ∉ (takeLine killed target n u).2.2
  | 0, u, hlt => by
      simp [takeLine]
      omega
  | n + 1, [], hlt => by cases killed <;> simp [takeLine]
  | n + 1, c :: u, hlt => by
      have ih := takeLine_ne_zero n u (by omega)
      by_cases hd : c = ctrlD
      · simp [takeLine, hd, hlt]
        omega
      rcases eq_or_ne c newline with rfl | hnl
      · simp [takeLine_newline]
        omega
      · simpa [takeLine_byte killed target hd hnl] using ih

/-- A read returns 0 exactly when it asks for nothing or an end of file is its first character; it is told of an end
of file in the second case only. -/
theorem takeLine_zero {n : Nat} (u : List UInt8) (hn : n ≤ target) :
    ((takeLine killed target n u).1 = .returned 0 ↔ target = 0 ∨ (n = target ∧ u.head? = some ctrlD)) ∧
      (.eof ∈ (takeLine killed target n u).2.2 ↔ 0 < target ∧ n = target ∧ u.head? = some ctrlD) := by
  rcases Nat.lt_or_eq_of_le hn with hlt | rfl
  · have hne := takeLine_ne_zero killed target n u hlt
    refine ⟨iff_of_false hne.1 ?_, iff_of_false hne.2 ?_⟩ <;> omega
  cases n with
  | zero => simp [takeLine]
  | succ n =>
    cases u with
    | nil => cases killed <;> simp [takeLine]
    | cons c u =>
      have hne := takeLine_ne_zero killed (n + 1) n u (Nat.lt_succ_self n)
      by_cases hd : c = ctrlD
      · simp [takeLine, hd]
      rcases eq_or_ne c newline with rfl | hnl
      · simp [takeLine_newline, hd]
      · simpa [takeLine_byte killed (n + 1) hd hnl, hd] using hne

end TakeLine

/-! ## The ring holds two lists -/

/-- The ring from `r` to `e`. -/
def Cons.ring (s : Cons) : RingBuf UInt8 inputBufSize 32 := ⟨s.buf, s.r, s.e⟩

/-- The ring from `r` to `w`. -/
def Cons.ready (s : Cons) : RingBuf UInt8 inputBufSize 32 := ⟨s.buf, s.r, s.w⟩

/-- The committed characters that nobody has read. -/
def Cons.unread (s : Cons) : List UInt8 := s.ready.contents

/-- The characters from `w` to `e`. -/
def Cons.line (s : Cons) : List UInt8 := s.ring.contents.drop s.ready.used

/-- The ring holds the unread characters `u` and the line `l`. -/
structure Holds (s : Cons) (u l : List UInt8) : Prop where
  contents : s.ring.contents = u ++ l
  ready : s.ready.used = u.length
  bound : u.length + l.length ≤ inputBufSize
  plain : ∀ c ∈ l, c ≠ newline

theorem size_dvd : inputBufSize ∣ 2 ^ 32 := ⟨2 ^ 25, rfl⟩

theorem size_lt : inputBufSize < 2 ^ 32 := by decide

namespace Holds

variable {s : Cons} {u l : List UInt8} {c : UInt8}

section

variable (h : Holds s u l)
include h

theorem used : s.ring.used = u.length + l.length := by
  rw [← length_contents, h.contents, length_append]

theorem unread_eq : s.unread = u := by
  have htake : s.unread = s.ring.contents.take s.ready.used := by
    have hle : s.ready.used ≤ s.ring.used := by
      rw [h.used, h.ready]
      exact Nat.le_add_right _ _
    rw [Cons.unread, RingBuf.contents, RingBuf.contents, ← List.map_take, List.take_range, Nat.min_eq_left hle]
    rfl
  rw [htake, h.contents, h.ready, take_left']
  rfl

theorem line_eq : s.line = l := by
  rw [Cons.line, h.contents, h.ready, drop_left']
  rfl

theorem e_eq_w_iff : s.e = s.w ↔ l = [] := by
  have hring : (s.e - s.r).toNat = u.length + l.length := h.used
  have hready : (s.w - s.r).toNat = u.length := h.ready
  constructor
  · intro heq
    rw [heq, hready] at hring
    exact eq_nil_of_length_eq_zero (by omega)
  rintro rfl
  have hdiff : s.e - s.r = s.w - s.r := BitVec.eq_of_toNat_eq (hring.trans hready.symm)
  have hback := congrArg (· + s.r) hdiff
  simpa only [BitVec.sub_add_cancel] using hback

theorem r_eq_w_iff : s.r = s.w ↔ u = [] := by
  have hempty : s.ready.isEmpty = true ↔ s.ready.used = 0 := isEmpty_iff
  rw [RingBuf.isEmpty, decide_eq_true_iff, h.ready, List.length_eq_zero_iff] at hempty
  exact hempty

/-- The last character of the line goes. -/
theorem unpush (hl : l ≠ []) : Holds { s with e := s.e - 1#32 } u l.dropLast := by
  have hpos : 0 < s.ring.used := by
    rw [h.used]
    have := length_pos_iff.mpr hl
    omega
  refine ⟨?_, h.ready, ?_, fun c hc => h.plain c (dropLast_subset l hc)⟩
  · show s.ring.unpush.contents = u ++ l.dropLast
    rw [contents_unpush hpos, h.contents, dropLast_append_of_ne_nil hl]
  · have := h.bound
    rw [length_dropLast]
    omega

theorem erase : Holds (erase s) u l.dropLast := by
  rw [Console.erase]
  split
  next hne => exact h.unpush fun hnil => hne (h.e_eq_w_iff.mpr hnil)
  next heq =>
    have hnil : l = [] := h.e_eq_w_iff.mp (not_not.mp heq)
    subst hnil
    exact h

end

/-- The character that the loop of `^U` looks at is the last one of the line. -/
theorem last_cell (h : Holds s u (l ++ [c])) : s.buf ((s.e - 1#32).toNat % inputBufSize) = c := by
  have hpos : 0 < s.ring.used := by
    rw [h.used, length_append, length_singleton]
    omega
  have happ := contents_eq_append size_dvd hpos
  rw [h.contents, ← append_assoc] at happ
  exact (append_inj' happ rfl).2 |> singleton_inj.mp |> Eq.symm

/-- The loop of `^U` clears the line. -/
theorem killLoop (h : Holds s u l) : Holds (killLoop l.length s) u [] := by
  induction l using reverseRecOn generalizing s with
  | nil => exact h
  | append_singleton l c ih =>
    have hne : s.e ≠ s.w := by simpa using h.e_eq_w_iff.mp
    have hcell : s.buf ((s.e - 1#32).toNat % inputBufSize) ≠ newline := by
      rw [h.last_cell]
      exact h.plain c (by simp)
    rw [length_append, length_singleton, killLoop, if_pos ⟨hne, hcell⟩]
    have hstep := h.unpush (append_ne_nil_of_right_ne_nil l (cons_ne_nil c []))
    rw [dropLast_concat] at hstep
    exact ih hstep

theorem kill_count (h : Holds s u l) : (s.e - s.w).toNat = l.length := by
  have hring : (s.e - s.r).toNat = u.length + l.length := h.used
  have hready : (s.w - s.r).toNat = u.length := h.ready
  have hdiff : s.e - s.w = (s.e - s.r) - (s.w - s.r) := by bv_omega
  have hle : s.w - s.r ≤ s.e - s.r := by
    rw [BitVec.le_def, hring, hready]
    exact Nat.le_add_right _ _
  rw [hdiff, BitVec.toNat_sub_of_le hle, hring, hready, Nat.add_sub_cancel_left]

theorem room_iff (h : Holds s u l) :
    s.e - s.r < BitVec.ofNat 32 inputBufSize ↔ u.length + l.length ≠ inputBufSize := by
  have hring : (s.e - s.r).toNat = u.length + l.length := h.used
  have hbound := h.bound
  rw [BitVec.lt_def, hring]
  show u.length + l.length < 128 ↔ _
  have : inputBufSize = 128 := rfl
  omega

/-- A character is stored at the end of the line. -/
theorem push (h : Holds s u l) (hroom : u.length + l.length ≠ inputBufSize) :
    (push s.ring c).contents = u ++ (l ++ [c]) ∧ (push s.ring c).used = u.length + l.length + 1 := by
  have hlt : s.ring.used < inputBufSize := by
    rw [h.used]
    exact Nat.lt_of_le_of_ne h.bound hroom
  have hcont := contents_push size_dvd size_lt hlt c
  rw [h.contents, append_assoc] at hcont
  refine ⟨hcont, ?_⟩
  rw [used_push (Nat.lt_of_le_of_lt hlt size_lt), h.used]

theorem store (h : Holds s u l) (hroom : u.length + l.length ≠ inputBufSize) :
    if c = newline ∨ c = ctrlD ∨ u.length + l.length + 1 = inputBufSize
    then Holds (store s c).1 (u ++ (l ++ [c])) [] else Holds (store s c).1 u (l ++ [c]) := by
  obtain ⟨hcont, hused⟩ := h.push (c := c) hroom
  have hused' : (s.e + 1#32 - s.r).toNat = u.length + l.length + 1 := hused
  have hfull : s.e + 1#32 - s.r = BitVec.ofNat 32 inputBufSize ↔ u.length + l.length + 1 = inputBufSize := by
    rw [← BitVec.toNat_inj, hused']
    rfl
  have hbound : u.length + (l ++ [c]).length ≤ inputBufSize := by
    have hle := Nat.lt_of_le_of_ne h.bound hroom
    rw [length_append, length_singleton]
    omega
  rw [Console.store]
  simp only [hfull]
  split
  · refine ⟨?_, ?_, ?_, by simp⟩
    · rw [append_nil]
      exact hcont
    · show (RingBuf.push s.ring c).used = _
      rw [hused]
      simp
      omega
    · simpa using hbound
  next hnot =>
    refine ⟨hcont, h.ready, hbound, fun b hb => ?_⟩
    rcases mem_append.mp hb with hb | hb
    · exact h.plain b hb
    · rw [mem_singleton.mp hb]
      exact fun heq => hnot (.inl heq)

/-- The first unread character is passed. -/
theorem pop (h : Holds s (c :: u) l) :
    s.buf (s.r.toNat % inputBufSize) = c ∧ Holds { s with r := s.r + 1#32 } u l := by
  have hpos : 0 < s.ring.used := by
    rw [h.used, length_cons]
    omega
  have hcons := contents_eq_cons size_dvd hpos
  rw [h.contents, cons_append, cons.injEq] at hcons
  have hready : 0 < s.ready.used := by
    rw [h.ready, length_cons]
    omega
  refine ⟨hcons.1.symm, hcons.2.symm, ?_, ?_, h.plain⟩
  · have hpop := used_pop hready
    rw [h.ready, length_cons] at hpop
    exact Nat.succ.inj hpop
  · have := h.bound
    rw [length_cons] at this
    omega

/-- A section of `consoleread` is a read from the list of unread characters. -/
theorem readSection {env : ReadEnv} (hcopy : ∀ k, env.copyout k = true) (target : Nat) :
    ∀ {n : Nat} {u : List UInt8} {s : Cons}, Holds s u l →
    (Console.readSection env target n s).1 = (takeLine env.killed target n u).1 ∧
      (Console.readSection env target n s).2.2 = (takeLine env.killed target n u).2.2 ∧
      Holds (Console.readSection env target n s).2.1 (takeLine env.killed target n u).2.1 l
  | 0, u, s, h => ⟨rfl, rfl, h⟩
  | n + 1, [], s, h => by
      have hempty : s.r = s.w := h.r_eq_w_iff.mpr rfl
      simp only [Console.readSection, if_pos hempty, takeLine]
      exact ⟨trivial, trivial, h⟩
  | n + 1, c :: u, s, h => by
      have hsome : s.r ≠ s.w := by simpa using h.r_eq_w_iff.mp
      obtain ⟨hcell, hpop⟩ := h.pop
      simp only [Console.readSection, if_neg hsome, takeLine, hcell]
      by_cases hd : c = ctrlD
      · simp only [if_pos hd]
        by_cases hn : n + 1 < target
        · simp only [if_pos hn, BitVec.add_sub_cancel]
          exact ⟨trivial, trivial, h⟩
        · simp only [if_neg hn]
          exact ⟨trivial, trivial, hpop⟩
      · simp only [if_neg hd, hcopy, Bool.true_eq_false, if_false]
        by_cases hnl : c = newline
        · simp only [if_pos hnl]
          exact ⟨trivial, trivial, hpop⟩
        · simp only [if_neg hnl]
          obtain ⟨ho, hgot, hrest⟩ := readSection hcopy target (n := n) hpop
          exact ⟨ho, congrArg _ hgot, hrest⟩

end Holds

/-! ## Runs -/

variable {P : Type} {s : State P}

/-- The step does not fail to copy out. -/
def CopiesOut (_ : State P) (a : Action P) : Prop := ∀ p env, a = .read p env → ∀ k, env.copyout k = true

structure Inv (s : State P) : Prop where
  holds : Holds s.cons ((edit s.events).committed.drop s.log.length) (edit s.events).line
  passed : (edit s.events).passed = s.log.length
  given : (edit s.events).committed.take s.log.length = s.log.map Delivery.char
  bytes : ∀ d ∈ s.log, d = .eof ∨ ∃ c, d = .byte c ∧ c ≠ ctrlD
  left : ∀ p target n, (s.pc p = .reading target n ∨ s.pc p = .asleep target n) → n ≤ target

theorem Inv.log_le (h : Inv s) : s.log.length ≤ (edit s.events).committed.length := by
  have hlen := congrArg length h.given
  rw [length_take, length_map] at hlen
  omega

theorem Inv.start (h : Init s) : Inv s := by
  have hzero : s.cons.ring.used = 0 := by
    show (s.cons.e - s.cons.r).toNat = 0
    rw [h.e, h.r]
    rfl
  refine ⟨?_, ?_, ?_, ?_, ?_⟩
  · rw [h.events, h.log]
    refine ⟨?_, ?_, Nat.zero_le _, by simp [edit]⟩
    · exact eq_nil_of_length_eq_zero ((length_contents _).trans hzero)
    · show (s.cons.w - s.cons.r).toNat = 0
      rw [h.w, h.r]
      rfl
  · rw [h.events, h.log]
    rfl
  · rw [h.events, h.log]
    rfl
  · rw [h.log]
    simp
  · intro p target n hp
    rw [h.pc p] at hp
    simp at hp

/-- A character does to the ring what it does to the editor. -/
theorem Holds.typed {s : Cons} (ed : Editor) (hp : ed.passed ≤ ed.committed.length)
    (h : Holds s (ed.committed.drop ed.passed) ed.line) (c : UInt8) :
    Holds (consoleintr s c).1 ((ed.typed c).committed.drop ed.passed) (ed.typed c).line := by
  have hheld : (ed.committed.drop ed.passed).length + ed.line.length = ed.held := by
    rw [length_drop, Editor.held]
  have hroom := h.room_iff
  rw [hheld] at hroom
  rw [consoleintr, Editor.typed]
  by_cases hctrlP : c = ctrlP
  · rw [if_pos hctrlP, if_pos (.inl hctrlP)]
    exact h
  rw [if_neg hctrlP]
  rcases eq_or_ne c 0 with rfl | hzero
  · rw [if_neg (by decide), if_neg (by decide), if_neg fun hboth => hboth.1 rfl, if_pos (.inr rfl)]
    exact h
  rw [if_neg (not_or.mpr ⟨hctrlP, hzero⟩)]
  by_cases hctrlU : c = ctrlU
  · rw [if_pos hctrlU, if_pos hctrlU, h.kill_count]
    exact h.killLoop
  rw [if_neg hctrlU, if_neg hctrlU]
  by_cases herase : c = ctrlH ∨ c = del
  · rw [if_pos herase, if_pos herase]
    exact h.erase
  rw [if_neg herase, if_neg herase]
  by_cases hfull : ed.held = inputBufSize
  · rw [if_neg fun hboth => hroom.mp hboth.2 hfull, if_pos hfull]
    exact h
  rw [if_pos ⟨hzero, hroom.mpr hfull⟩, if_neg hfull]
  have hstore := h.store (c := mapReturn c) (hheld ▸ hfull)
  rw [hheld] at hstore
  split at hstore
  next hcommit =>
    rw [if_pos hcommit]
    rw [drop_append_of_le_length hp]
    exact hstore
  next hcommit =>
    rw [if_neg hcommit]
    exact hstore

/-- Erasing and killing move `e` only. -/
theorem killLoop_counters : ∀ (k : Nat) (s : Cons), (killLoop k s).r = s.r ∧ (killLoop k s).w = s.w
  | 0, s => ⟨rfl, rfl⟩
  | k + 1, s => by
      rw [killLoop]
      split
      · exact killLoop_counters k { s with e := s.e - 1#32 }
      · exact ⟨rfl, rfl⟩

theorem erasing_counters (s : Cons) (hc : c = ctrlH ∨ c = del ∨ c = ctrlU) :
    (consoleintr s c).1.r = s.r ∧ (consoleintr s c).1.w = s.w := by
  rcases hc with rfl | rfl | rfl
  · show (erase s).r = s.r ∧ (erase s).w = s.w
    rw [erase]
    split <;> exact ⟨rfl, rfl⟩
  · show (erase s).r = s.r ∧ (erase s).w = s.w
    rw [erase]
    split <;> exact ⟨rfl, rfl⟩
  · exact killLoop_counters _ s

theorem Editor.erasing_committed (ed : Editor) (hc : c = ctrlH ∨ c = del ∨ c = ctrlU) :
    (ed.typed c).committed = ed.committed := by
  rcases hc with rfl | rfl | rfl <;> rfl

/-- Committed characters stay. -/
theorem Editor.typed_committed (ed : Editor) (c : UInt8) : ed.committed <+: (ed.typed c).committed := by
  rw [Editor.typed]
  repeat' split
  all_goals first | exact prefix_rfl | exact prefix_append _ _

theorem Editor.typed_passed (ed : Editor) (c : UInt8) : (ed.typed c).passed = ed.passed := by
  rw [Editor.typed]
  repeat' split
  all_goals rfl

theorem Inv.intr (h : Inv s) (c : UInt8) : Inv (intrStep s c) := by
  have hedit : edit (s.events ++ [.typed c]) = (edit s.events).typed c := edit_concat ..
  obtain ⟨more, hmore⟩ := (edit s.events).typed_committed c
  refine ⟨?_, ?_, ?_, h.bytes, fun p target n hp => ?_⟩
  · show Holds (consoleintr s.cons c).1 ((edit (s.events ++ [.typed c])).committed.drop s.log.length)
      (edit (s.events ++ [.typed c])).line
    rw [hedit, ← h.passed]
    refine Holds.typed (edit s.events) ?_ ?_ c
    · rw [h.passed]
      exact h.log_le
    · rw [h.passed]
      exact h.holds
  · show (edit (s.events ++ [.typed c])).passed = s.log.length
    rw [hedit, Editor.typed_passed]
    exact h.passed
  · show (edit (s.events ++ [.typed c])).committed.take s.log.length = _
    rw [hedit, ← hmore, take_append_of_le_length h.log_le]
    exact h.given
  · refine h.left p target n ?_
    simp only [intrStep] at hp
    split at hp
    · cases hpc : s.pc p <;> simp_all [wake]
    · exact hp

variable [DecidableEq P]

theorem Inv.read (h : Inv s) {p : P} {target n : Nat} (hp : s.pc p = .reading target n)
    {env : ReadEnv} (hcopy : ∀ k, env.copyout k = true) : Inv (readStep s p env target n) := by
  obtain ⟨ho, hgot, hrest⟩ := h.holds.readSection hcopy target (n := n)
  generalize hu : (edit s.events).committed.drop s.log.length = u at ho hgot hrest
  have hsplit := takeLine_split env.killed target n u
  generalize hlook : takeLine env.killed target n u = out at ho hgot hrest hsplit
  have hedit : edit (s.events ++ [.passed out.2.2.length]) =
      { edit s.events with passed := (edit s.events).passed + out.2.2.length } := edit_concat ..
  have hlen : (out.2.2.map Delivery.char).length = out.2.2.length := length_map _
  rw [readStep, ho, hgot]
  refine ⟨?_, ?_, ?_, fun c hc => ?_, fun q target' n' hq => ?_⟩
  · rw [hedit, length_append, ← drop_drop]
    rw [hu, hsplit, drop_left' hlen]
    exact hrest
  · rw [hedit, length_append]
    exact congrArg (· + out.2.2.length) h.passed
  · rw [hedit, length_append, take_add, map_append]
    refine congrArg₂ _ h.given ?_
    rw [hu, hsplit, take_left' hlen]
  · rcases mem_append.mp hc with hc | hc
    · exact h.bytes c hc
    · rw [← hlook] at hc
      exact takeLine_given env.killed target n u c hc
  · rcases eq_or_ne q p with rfl | hqp
    · have hn := h.left q target n (.inl hp)
      simp only [update_self] at hq
      cases hout : out.1 with
      | returned v => simp [hout, ReadEnd.pc] at hq
      | sleep m =>
        have hm := takeLine_left env.killed target n u m (by rw [hlook, hout])
        simp only [hout, ReadEnd.pc, reduceCtorEq, false_or, Pc.asleep.injEq] at hq
        omega
    · simp only [update_of_ne hqp] at hq
      exact h.left q target' n' hq

theorem Inv.step {t : State P} (h : Inv s) {a : Action P} (hok : CopiesOut s a) (hnext : next s a = some t) :
    Inv t := by
  cases a with
  | consoleintr c =>
    cases hnext
    exact h.intr c
  | consoleread p n =>
    simp only [next] at hnext
    split at hnext
    · cases hnext
      refine ⟨h.holds, h.passed, h.given, h.bytes, fun q target m hq => ?_⟩
      rcases eq_or_ne q p with rfl | hqp
      · simp only [update_self, Pc.reading.injEq, reduceCtorEq, or_false] at hq
        omega
      · simp only [update_of_ne hqp] at hq
        exact h.left q target m hq
    · cases hnext
  | read p env =>
    simp only [next] at hnext
    split at hnext
    next target n hp =>
      cases hnext
      exact h.read hp (hok p env rfl)
    · cases hnext
  | kkill p =>
    cases hnext
    refine ⟨h.holds, h.passed, h.given, h.bytes, fun q target m hq => ?_⟩
    refine h.left q target m ?_
    rcases eq_or_ne q p with rfl | hqp
    · simp only [update_self] at hq
      cases hpc : s.pc q <;> simp_all [wake]
    · simpa only [update_of_ne hqp] using hq

theorem Inv.of_reachable (h : Reachable Init next CopiesOut s) : Inv s :=
  h.invariant Inv (fun _ => Inv.start) fun _ _ _ hi hok => hi.step hok

/-- The console is a line editor, for every interleaving of input and of any number of readers whose copies succeed.

The counters stay in order and within the size of the ring. Erasing and killing leave `r`, `w` and the committed
characters alone. What readers have taken, in order, followed by what is committed and unread, is what the reference
editor has committed, and its line is the line in the ring; so each committed byte is given once, and the end-of-file
characters among them stand for the reads that were told of one. Each section of a read does what `takeLine` does,
and a read that asks for something returns 0 exactly when an end of file is its first character. -/
theorem console_line_discipline {s : State P} (h : Reachable Init next CopiesOut s) :
    ((s.cons.w - s.cons.r).toNat ≤ (s.cons.e - s.cons.r).toNat ∧ (s.cons.e - s.cons.r).toNat ≤ inputBufSize) ∧
    (∀ c, c = ctrlH ∨ c = del ∨ c = ctrlU →
      (consoleintr s.cons c).1.r = s.cons.r ∧ (consoleintr s.cons c).1.w = s.cons.w ∧
        (consoleintr s.cons c).1.unread = s.cons.unread ∧
        (s.cons.w - s.cons.r).toNat ≤ ((consoleintr s.cons c).1.e - s.cons.r).toNat) ∧
    ((edit s.events).committed = s.log.map Delivery.char ++ s.cons.unread ∧
      (edit s.events).line = s.cons.line ∧ ∀ d ∈ s.log, d = .eof ∨ ∃ c, d = .byte c ∧ c ≠ ctrlD) ∧
    ∀ p env target n t, (∀ k, env.copyout k = true) → s.pc p = .reading target n →
      next s (.read p env) = some t →
      let out := takeLine env.killed target n s.cons.unread
      (t.pc p = out.1.pc target ∧ t.cons.unread = out.2.1 ∧ t.log = s.log ++ out.2.2) ∧
        (t.pc p = .out (some 0) ↔ target = 0 ∨ (n = target ∧ s.cons.unread.head? = some ctrlD)) ∧
        (.eof ∈ out.2.2 ↔ 0 < target ∧ n = target ∧ s.cons.unread.head? = some ctrlD) := by
  have hinv := Inv.of_reachable h
  have hunread := hinv.holds.unread_eq
  have hring : (s.cons.e - s.cons.r).toNat = _ := hinv.holds.used
  have hready : (s.cons.w - s.cons.r).toNat = _ := hinv.holds.ready
  refine ⟨⟨?_, ?_⟩, fun c hc => ?_, ⟨?_, hinv.holds.line_eq.symm, hinv.bytes⟩, ?_⟩
  · rw [hring, hready]
    exact Nat.le_add_right _ _
  · rw [hring]
    exact hinv.holds.bound
  · obtain ⟨hr, hw⟩ := erasing_counters s.cons hc
    have htyped := Holds.typed (edit s.events) (hinv.passed ▸ hinv.log_le) (hinv.passed ▸ hinv.holds) c
    rw [Editor.erasing_committed _ hc, hinv.passed] at htyped
    have hring' : ((consoleintr s.cons c).1.e - (consoleintr s.cons c).1.r).toNat = _ := htyped.used
    rw [hr] at hring'
    refine ⟨hr, hw, htyped.unread_eq.trans hunread.symm, ?_⟩
    rw [hring', hready]
    exact Nat.le_add_right _ _
  · rw [hunread, ← hinv.given, take_append_drop]
  · intro p env target n t hcopy hp hnext
    simp only [next, hp, Option.some.injEq] at hnext
    subst hnext
    obtain ⟨ho, hgot, hrest⟩ := hinv.holds.readSection hcopy target (n := n)
    rw [← hunread] at ho hgot hrest
    have hzero := takeLine_zero env.killed target s.cons.unread (hinv.left p target n (.inl hp))
    have hpc : (readStep s p env target n).pc p = (takeLine env.killed target n s.cons.unread).1.pc target := by
      rw [readStep, ho]
      exact update_self ..
    refine ⟨⟨hpc, hrest.unread_eq, ?_⟩, ?_, hzero.2⟩
    · rw [readStep, hgot]
    · rw [hpc, ← hzero.1]
      cases (takeLine env.killed target n s.cons.unread).1 <;> simp [ReadEnd.pc]

/-- The console after boot, with one process. -/
def bootConsole : State Unit where
  cons := ⟨fun _ => 0, 0, 0, 0⟩
  pc := fun _ => .out none
  events := []
  log := []

/-- A read by a process that is alive and has room for what it reads. -/
def plainRead : ReadEnv := ⟨false, fun _ => true⟩

/-- A line with one character erased, then an end of file in the middle of a line; three reads. -/
def typedLines : List (Action Unit) :=
  [.consoleintr 104, .consoleintr 106, .consoleintr del, .consoleintr 105, .consoleintr carriageReturn,
    .consoleread () 10, .read () plainRead, .consoleintr 120, .consoleintr ctrlD, .consoleread () 10,
    .read () plainRead, .consoleread () 10, .read () plainRead]

theorem typedLines_copy {s : State Unit} : ∀ a ∈ typedLines, CopiesOut s a := by
  intro a ha p env heq
  subst heq
  simp only [typedLines, mem_cons, Action.read.injEq, reduceCtorEq, false_or, not_mem_nil, or_false] at ha
  rcases ha with ⟨-, rfl⟩ | ⟨-, rfl⟩ | ⟨-, rfl⟩ <;> exact fun _ => rfl

/-- The reads give a line, the rest before the end of file, and the end of file. -/
theorem console_reads_lines : ∃ s : State Unit,
    s.log = [.byte 104, .byte 105, .byte newline, .byte 120, .eof] ∧ s.pc () = .out (some 0) ∧
      (edit s.events).committed = s.log.map Delivery.char ++ s.cons.unread := by
  have hrun : ((run next bootConsole typedLines).map fun s => (s.log, s.pc ())) =
      some ([.byte 104, .byte 105, .byte newline, .byte 120, .eof], .out (some 0)) := by
    decide +kernel
  obtain ⟨s, hs, hres⟩ := Option.map_eq_some_iff.mp hrun
  have hinit : Init bootConsole := ⟨rfl, rfl, rfl, fun _ => rfl, rfl, rfl⟩
  have hline := console_line_discipline (reachable_run_of (.start hinit) (fun _ => typedLines_copy) hs)
  exact ⟨s, congrArg Prod.fst hres, congrArg Prod.snd hres, hline.2.2.1.1⟩

end Xv6Lab.Console
