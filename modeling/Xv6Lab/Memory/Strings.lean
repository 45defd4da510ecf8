import Xv6Lab.Memory.Copies

/-!
# Strings from user memory

On an address space `copyinstr` does what `scanString` does byte by byte on the mapped memory (`copyinstr_scan`).
`copyin` sees more than that: memory below the size that is not mapped yet reads as zero. `copyinstr_agrees_iff` says
that the two agree exactly if the string does not run into such memory.
-/

namespace Xv6Lab.Memory

open Lib.Exec List

/-! ## Strings -/

/-- The string `str`, followed by a zero, stands at address `a` of the memory `look`. -/
def StringAt (look : Nat → Option UInt8) : Nat → List UInt8 → Prop
  | a, [] => look a = some 0
  | a, b :: str => b ≠ 0 ∧ look a = some b ∧ StringAt look (a + 1) str

/-- Reading bytes up to a zero, at most `max`: whether the zero was found, and the bytes. -/
def scanString (look : Nat → Option UInt8) : Nat → Nat → Bool × List UInt8
  | 0, _ => (false, [])
  | max + 1, a =>
    match look a with
    | none => (false, [])
    | some b => if b = 0 then (true, [0]) else ((scanString look max (a + 1)).1, b :: (scanString look max (a + 1)).2)

section Scan

variable {look view : Nat → Option UInt8}

variable {a n : Nat} {str : List UInt8} {b : UInt8}

theorem StringAt.congr (h : StringAt look a str)
    (hsame : ∀ k b, look (a + k) = some b → view (a + k) = some b) : StringAt view a str := by
  induction str generalizing a with
  | nil => exact hsame 0 0 h
  | cons b str ih =>
    obtain ⟨hb, ha, hrest⟩ := h
    refine ⟨hb, hsame 0 b ha, ih hrest fun k c hc => ?_⟩
    rw [show a + 1 + k = a + (k + 1) by omega] at hc ⊢
    exact hsame (k + 1) c hc

/-- A string is given by the bytes that are read for it. -/
theorem stringAt_iff (look : Nat → Option UInt8) (a : Nat) (str : List UInt8) :
    StringAt look a str ↔ 0 ∉ str ∧
      (str ++ [0]).map some = (List.range (str.length + 1)).map fun k => look (a + k) := by
  induction str generalizing a with
  | nil => simp [StringAt, eq_comm]
  | cons b str ih =>
    have hrange : (range (str.length + 1 + 1)).map (fun k => look (a + k)) =
        look a :: (range (str.length + 1)).map fun k => look (a + 1 + k) := by
      rw [range_succ_eq_map, map_cons, map_map]
      congr 1
      refine map_congr_left fun k _ => ?_
      show look (a + (k + 1)) = look (a + 1 + k)
      congr 1
      omega
    rw [StringAt, ih (a + 1), length_cons, hrange, cons_append, map_cons, cons.injEq, mem_cons, not_or]
    constructor
    · rintro ⟨hb, ha, hnot, hall⟩
      exact ⟨⟨hb.symm, hnot⟩, ha.symm, hall⟩
    · rintro ⟨⟨hb, hnot⟩, ha, hall⟩
      exact ⟨Ne.symm hb, ha.symm, hnot, hall⟩

/-- The scan finds exactly the strings shorter than the limit. -/
theorem scanString_true_iff {max : Nat} {dst : List UInt8} :
    scanString look max a = (true, dst) ↔ ∃ str, dst = str ++ [0] ∧ str.length < max ∧ StringAt look a str := by
  induction max generalizing a dst with
  | zero => simp [scanString]
  | succ max ih =>
    rw [scanString]
    cases ha : look a with
    | none =>
      refine iff_of_false (by simp) ?_
      rintro ⟨str, -, -, hstr⟩
      cases str with
      | nil =>
        rw [StringAt, ha] at hstr
        cases hstr
      | cons b str =>
        have hb := hstr.2.1
        rw [ha] at hb
        cases hb
    | some b =>
      rcases eq_or_ne b 0 with rfl | hb
      · simp only [if_true, Prod.mk.injEq, true_and]
        constructor
        · rintro rfl
          exact ⟨[], rfl, Nat.succ_pos max, ha⟩
        rintro ⟨str, rfl, -, hstr⟩
        cases str with
        | nil => rfl
        | cons c str =>
          obtain ⟨hc, hlook, -⟩ := hstr
          rw [ha] at hlook
          exact absurd (Option.some.inj hlook).symm hc
      · simp only [if_neg hb, Prod.mk.injEq]
        constructor
        · rintro ⟨hok, rfl⟩
          obtain ⟨str, hdst, hlt, hstr⟩ := ih.mp (Prod.ext hok rfl)
          exact ⟨b :: str, congrArg (cons b) hdst, Nat.succ_lt_succ hlt, hb, ha, hstr⟩
        rintro ⟨str, rfl, hlt, hstr⟩
        cases str with
        | nil =>
          rw [StringAt, ha] at hstr
          exact absurd (Option.some.inj hstr) hb
        | cons c str =>
          obtain ⟨-, hlook, hrest⟩ := hstr
          rw [ha] at hlook
          cases hlook
          have hscan := ih.mpr ⟨str, rfl, Nat.lt_of_succ_lt_succ hlt, hrest⟩
          rw [hscan]
          exact ⟨rfl, rfl⟩

/-- At most `max` bytes are stored. -/
theorem scanString_length (look : Nat → Option UInt8) (max a : Nat) : (scanString look max a).2.length ≤ max := by
  induction max generalizing a with
  | zero => exact Nat.le_refl 0
  | succ max ih =>
    rw [scanString]
    cases look a with
    | none => exact Nat.zero_le _
    | some b =>
      by_cases hb : b = 0
      · simp [hb]
      · simp only [if_neg hb, length_cons]
        exact Nat.succ_le_succ (ih (a + 1))

/-- Bytes that stop neither the scan nor a part of it. -/
theorem scanString_append {m : Nat} {bytes : List UInt8} (hn : bytes.length = n) (hzero : 0 ∉ bytes)
    (hbytes : ∀ k (hk : k < bytes.length), look (a + k) = some bytes[k]) :
    scanString look (n + m) a = ((scanString look m (a + n)).1, bytes ++ (scanString look m (a + n)).2) := by
  induction bytes generalizing n a with
  | nil =>
    subst hn
    simp
  | cons b bytes ih =>
    subst hn
    have hb : b ≠ 0 := fun heq => hzero (heq ▸ mem_cons_self)
    have ha : look a = some b := hbytes 0 (Nat.succ_pos _)
    have hrest := ih (a := a + 1) rfl (fun hmem => hzero (mem_cons_of_mem b hmem)) fun k hk => by
      have hnext := hbytes (k + 1) (Nat.succ_lt_succ hk)
      rw [show a + 1 + k = a + (k + 1) by omega]
      exact hnext
    rw [length_cons, show bytes.length + 1 + m = bytes.length + m + 1 by omega, scanString, ha]
    simp only [if_neg hb]
    rw [hrest, show a + 1 + bytes.length = a + (bytes.length + 1) by omega]
    rfl

/-- A string inside the first `n` bytes. -/
theorem scanString_found {m : Nat} (hn : str.length < n) (h : StringAt look a str) :
    scanString look (n + m) a = (true, str ++ [0]) :=
  scanString_true_iff.mpr ⟨str, rfl, by omega, h⟩

end Scan

/-! ## `copyinstr` -/

section Loop

variable {img : Image} {A : Abs} {s : Vm} {p : Space} {pt : Nat}

/-- The bytes of a page before the first zero. -/
def beforeNul (page : Page) (n off : Nat) : List UInt8 :=
  ((List.range n).map fun k => getByte page (off + k)).takeWhile (· ≠ 0)

theorem beforeNul_succ (page : Page) (n off : Nat) :
    beforeNul page (n + 1) off =
      if getByte page off = 0 then [] else getByte page off :: beforeNul page n (off + 1) := by
  have hshift : (fun k => getByte page (off + k)) ∘ Nat.succ = fun k => getByte page (off + 1 + k) := by
    funext k
    show getByte page (off + (k + 1)) = getByte page (off + 1 + k)
    congr 1
    omega
  rw [beforeNul, beforeNul, range_succ_eq_map, map_cons, map_map, hshift, takeWhile_cons]
  by_cases h : getByte page off = 0 <;> simp [h]

theorem copyinstrBytes_eq (page : Page) (n off : Nat) (dst : List UInt8) :
    copyinstrBytes page n off dst =
      if (beforeNul page n off).length < n then (dst ++ beforeNul page n off ++ [0], true)
      else (dst ++ beforeNul page n off, false) := by
  induction n generalizing off dst with
  | zero => simp [copyinstrBytes, beforeNul]
  | succ n ih =>
    rw [copyinstrBytes, beforeNul_succ]
    by_cases h : getByte page off = 0
    · simp [h]
    · rw [if_neg h, if_neg h, ih]
      simp

section

variable {look : Nat → Option UInt8} {page : Page} {off : Nat} (hlook : ∀ k < n, look (a + k) = some (getByte page (off + k)))
include hlook

/-- Bytes up to a zero in a page are a string of the memory that the page shows. -/
theorem beforeNul_stringAt (hlt : (beforeNul page n off).length < n) : StringAt look a (beforeNul page n off) := by
  induction n generalizing off a with
  | zero => exact absurd hlt (Nat.not_lt_zero _)
  | succ n ih =>
    have hfirst := hlook 0 (Nat.succ_pos n)
    rw [beforeNul_succ] at hlt ⊢
    by_cases h : getByte page off = 0
    · rw [if_pos h]
      show look a = some 0
      rw [← h]
      exact hfirst
    · rw [if_neg h] at hlt ⊢
      refine ⟨h, hfirst, ih (fun k hk => ?_) (Nat.lt_of_succ_lt_succ hlt)⟩
      have hnext := hlook (k + 1) (Nat.succ_lt_succ hk)
      rw [show a + 1 + k = a + (k + 1) by omega, show off + 1 + k = off + (k + 1) by omega]
      exact hnext

/-- Without a zero all bytes of the part are taken. -/
theorem beforeNul_all (hlt : ¬ (beforeNul page n off).length < n) :
    (beforeNul page n off).length = n ∧ 0 ∉ beforeNul page n off ∧
      ∀ k (hk : k < (beforeNul page n off).length), look (a + k) = some (beforeNul page n off)[k] := by
  have hlen : (beforeNul page n off).length = n := by
    refine Nat.le_antisymm ?_ (Nat.not_lt.mp hlt)
    have hle := ( takeWhile_prefix (l := (range n).map fun k => getByte page (off + k)) (· ≠ 0)).length_le
    rwa [length_map, length_range] at hle
  -- nothing has been cut off
  have hall : beforeNul page n off = (range n).map fun k => getByte page (off + k) := by
    refine ( takeWhile_prefix _).eq_of_length ?_
    rw [length_map, length_range]
    exact hlen
  refine ⟨hlen, fun hmem => ?_, fun k hk => ?_⟩
  · have hne := all_eq_true.mp all_takeWhile 0 hmem
    simp at hne
  · rw [hlook k (hlen ▸ hk)]
    simp [hall]

end

/-- The byte at an address of mapped memory. -/
def mappedByte (s : Vm) (p : Space) (a : Nat) : Option UInt8 :=
  match translate s.mem p.pagetable a with
  | some pte => if pte.testBit 4 then some (getByte (s.mem (pte2page pte)) (a % pgsize)) else none
  | none => none

section

variable (h : Rep img A s) (hroot : A.own p.pagetable = .node p.pagetable)
include h hroot

theorem mappedByte_eq (ha : a < maxva) :
    mappedByte s p a = (A.ent p.pagetable (a / pgsize)).bind fun e =>
      if e.testBit 4 then some (getByte (s.mem (pte2page e)) (a % pgsize)) else none := by
  rw [mappedByte, translate_at h hroot ha]
  cases A.ent p.pagetable (a / pgsize) <;> rfl

/-- `walkaddr` finds the page with the bytes. -/
theorem walkaddr_bytes (a : Nat) :
    ∃ r, walkaddr p.pagetable (pgrounddown a) s = .ok r s ∧ match r with
      | none => mappedByte s p a = none
      | some q => ∀ k, a % pgsize + k < pgsize → mappedByte s p (a + k) = some (getByte (s.mem q) (a % pgsize + k)) := by
  have hdiv : pgrounddown a / pgsize = a / pgsize := page_vpn _
  by_cases ha : a < maxva
  · have hround : pgrounddown a < maxva := Nat.lt_of_le_of_lt (Nat.div_mul_le_self a pgsize) ha
    refine ⟨_, walkaddr_eq h hroot hround, ?_⟩
    rw [hdiv]
    have hbyte := fun b hb => mappedByte_eq (s := s) (p := p) h hroot (a := b) hb
    cases hent : A.ent p.pagetable (a / pgsize) with
    | none =>
      rw [hbyte a ha, hent]
      rfl
    | some e =>
      rw [Option.bind_some]
      by_cases hu : e.testBit 4 = true
      · rw [if_pos hu]
        intro k hk
        obtain ⟨hpage, hoff⟩ := same_page hk
        have hak : a + k < maxva := lt_maxva_iff.mpr (hpage ▸ lt_maxva_iff.mp ha)
        rw [hbyte (a + k) hak, hpage, hent, Option.bind_some, if_pos hu, hoff]
      · rw [if_neg hu]
        rw [hbyte a ha, hent, Option.bind_some, if_neg hu]
  · have hge : a ≥ maxva := Nat.not_lt.mp ha
    have hround : pgrounddown a ≥ maxva := by
      have hge : 2 ^ 38 ≤ a := hge
      show 2 ^ 38 ≤ a / 4096 * 4096
      omega
    refine ⟨none, ?_, ?_⟩
    · rw [walkaddr, if_pos hround]
      rfl
    · rw [mappedByte, translate, if_pos hge]

/-- On an address space `copyinstr` scans the mapped memory. -/
theorem copyinstr_scan (srcva max : Nat) :
    copyinstr p.pagetable srcva max s = .ok (scanString (mappedByte s p) max srcva) s := by
  have hloop : ∀ rounds a max dst, max ≤ rounds → copyinstrLoop p.pagetable rounds a max dst s =
      .ok ((scanString (mappedByte s p) max a).1, dst ++ (scanString (mappedByte s p) max a).2) s := by
    intro rounds
    induction rounds with
    | zero =>
      intro a max dst hmax
      obtain rfl : max = 0 := Nat.le_zero.mp hmax
      simp [copyinstrLoop, scanString]
      rfl
    | succ rounds ih =>
      intro a max dst hmax
      rw [copyinstrLoop]
      rcases eq_or_ne max 0 with rfl | hzero
      · simp [scanString]
        rfl
      obtain ⟨r, hrun, hr⟩ := walkaddr_bytes h hroot a
      rw [if_neg hzero]
      rw [bind_of_ok hrun]
      cases r with
      | none =>
        obtain ⟨k, rfl⟩ := Nat.exists_eq_add_one_of_ne_zero hzero
        rw [scanString, show mappedByte s p a = none from hr]
        simp
        rfl
      | some q =>
        have hpos := firstPart_pos a hzero
        have hle := firstPart_le a max
        have hin := firstPart_in_page a max
        have hlook : ∀ k < firstPart a max,
            mappedByte s p (a + k) = some (getByte (s.mem q) (a % pgsize + k)) :=
          fun k hk => hr k (by omega)
        dsimp only
        rw [get_bind, copyinstrBytes_eq, sub_pgrounddown, ← firstPart_eq]
        have hsplit : scanString (mappedByte s p) max a =
            scanString (mappedByte s p) (firstPart a max + (max - firstPart a max)) a := by
          rw [Nat.add_sub_cancel' hle]
        rw [hsplit]
        by_cases hlt : (beforeNul (s.mem q) (firstPart a max) (a % pgsize)).length < firstPart a max
        · rw [if_pos hlt, if_pos rfl, scanString_found hlt (beforeNul_stringAt hlook hlt), append_assoc]
          rfl
        obtain ⟨hlen, hnul, hbytes⟩ := beforeNul_all hlook hlt
        rw [if_neg hlt, if_neg Bool.false_ne_true, ih _ _ _ (by omega),
          scanString_append hlen hnul hbytes, append_assoc]
        rcases firstPart_cases a max with hend | ⟨-, hend⟩
        · rw [hend, Nat.sub_self]
          rfl
        · rw [hend]
  rw [copyinstr, hloop max srcva max [] (Nat.le_refl max)]
  rfl

end

end Loop

/-! ## Agreement with `copyin` -/

/-- The address lies in memory that the process has reserved and not touched. -/
def Untouched (s : Vm) (p : Space) (a : Nat) : Prop :=
  translate s.mem p.pagetable a = none ∧ pgrounddown a < p.sz

/-- `copyin` reads the string and the zero after it. -/
def CopiesString (img : Image) (s : Vm) (p : Space) (srcva : Nat) (str : List UInt8) : Prop :=
  0 ∉ str ∧ ∃ t, copyin img p p.pagetable srcva (str.length + 1) s = .ok (some (str ++ [0])) t

/-- `copyinstr` succeeds exactly if `copyin` reads a string of less than `max` bytes, stores that string, and stores at
most `max` bytes. -/
def AgreesWithCopyin (img : Image) (s : Vm) (p : Space) (srcva max : Nat) : Prop :=
  ∃ ok dst t, copyinstr p.pagetable srcva max s = .ok (ok, dst) t ∧ dst.length ≤ max ∧
    (ok = true ↔ ∃ str, str.length < max ∧ CopiesString img s p srcva str) ∧
    (ok = true → ∀ str, str.length < max → CopiesString img s p srcva str → dst = str ++ [0])

section Agreement

variable {img : Image} {A : Abs} {s : Vm} {p : Space} {a : Nat}

/-- The process sees what is mapped, and zeros in memory that is reserved and not touched. -/
theorem userView_cases (s : Vm) (p : Space) (a : Nat) : (userView s p a = mappedByte s p a ∧ ¬ Untouched s p a) ∨
      (userView s p a = some 0 ∧ mappedByte s p a = none ∧ Untouched s p a) := by
  rw [userView, mappedByte, Untouched]
  cases htrans : translate s.mem p.pagetable a with
  | some pte => exact .inl ⟨rfl, by simp⟩
  | none =>
    by_cases hsz : pgrounddown a < p.sz
    · exact .inr ⟨if_pos hsz, rfl, rfl, hsz⟩
    · exact .inl ⟨if_neg hsz, fun hu => hsz hu.2⟩

theorem mappedByte_userView (hb : mappedByte s p a = some b) : userView s p a = some b := by
  rcases userView_cases s p a with ⟨hsame, -⟩ | ⟨-, hnone, -⟩
  · rw [hsame, hb]
  · rw [hnone] at hb
    cases hb

section

variable (h : Good img A s) (hp : UserSpace img A p)
include h hp

theorem userMapped_of_mappedByte (hb : mappedByte s p a = some b) : UserMapped A p (a / pgsize) := by
  by_cases ha : a < maxva
  · rw [mappedByte_eq h.rep hp.root ha] at hb
    obtain ⟨e, he, hif⟩ := Option.bind_eq_some_iff.mp hb
    refine ⟨lt_maxva_iff.mp ha, e, he, ?_⟩
    by_contra hu
    rw [if_neg hu] at hif
    cases hif
  · rw [mappedByte, translate, if_pos (Nat.not_lt.mp ha)] at hb
    cases hb

/-- Untouched memory can be faulted in with three pages. -/
theorem Untouched.canReach (ha : Untouched s p a) (hfree : 3 ≤ s.free.length) : CanReach A s p (a / pgsize) := by
  have hsz : a / pgsize * pgsize < p.sz := ha.2
  have hv := lt_of_lt_trapVpn (hp.lt_of_below hsz)
  have hlt : a < maxva := lt_maxva_iff.mpr hv
  refine .inr ⟨?_, hsz, ?_⟩
  · rw [← translate_at h.rep hp.root hlt]
    exact ha.1
  · have hle := missing_le s.mem (a / pgsize * pgsize) 2 p.pagetable
    rw [needed]
    omega

/-- With enough free memory `copyin` reads the strings that the process sees, as long as only their end is in memory that
has not been touched. -/
theorem copiesString_iff (hfree : 3 ≤ s.free.length) :
    CopiesString img s p a str ↔ StringAt (userView s p) a str := by
  constructor
  · rintro ⟨hnul, t, hrun⟩
    obtain ⟨-, -, -, hbytes⟩ := wp_ok (copyin_spec h hp) hrun
    exact (stringAt_iff _ _ _).mpr ⟨hnul, hbytes _ rfl⟩
  intro hstr
  obtain ⟨hnul, hview⟩ := (stringAt_iff _ _ _).mp hstr
  -- all bytes before the zero are mapped
  have hreach : ∀ k < str.length + 1, UserMapped A p ((a + k) / pgsize) ∨
      ((a + k) / pgsize = (a + (str.length + 1 - 1)) / pgsize ∧ CanReach A s p ((a + k) / pgsize)) := by
    intro k hk
    have hbyte : (str ++ [0])[k]? = userView s p (a + k) := by
      have hlt : k < (str ++ [0]).length := by simpa using hk
      have hget := congrArg (fun l => l[k]?) hview
      simp only [getElem?_map, getElem?_range hk, getElem?_eq_getElem hlt, Option.map_some] at hget
      rw [getElem?_eq_getElem hlt]
      exact Option.some.inj hget
    rcases userView_cases s p (a + k) with ⟨hsame, -⟩ | ⟨hzero, -, hun⟩
    · rw [hsame, getElem?_eq_getElem (by simpa using hk)] at hbyte
      exact .inl (userMapped_of_mappedByte h hp hbyte.symm)
    right
    obtain rfl : k = str.length := by
      by_contra hne
      have hlt : k < str.length := by omega
      rw [hzero, getElem?_append_left hlt] at hbyte
      exact hnul (mem_of_getElem? hbyte)
    exact ⟨rfl, hun.canReach h hp hfree⟩
  obtain ⟨r, t, hrun, ⟨hsome, -⟩, B, -, -, hbytes⟩ :=
    wp_returns (wp_and (copyin_succeeds h hp hreach) (copyin_spec h hp)) fun _ he => he.1
  obtain ⟨bytes, rfl⟩ := Option.isSome_iff_exists.mp hsome
  have heq : bytes.map some = (str ++ [0]).map some := (hbytes bytes rfl).trans hview.symm
  rw [map_injective_iff.mpr (Option.some_injective _) heq] at hrun
  exact ⟨hnul, t, hrun⟩

end

/-- A byte that the process sees and that is not zero is mapped. -/
theorem mappedByte_of_ne_zero (hb : userView s p a = some b) (hne : b ≠ 0) : mappedByte s p a = some b := by
  rcases userView_cases s p a with ⟨hsame, -⟩ | ⟨hzero, -, -⟩
  · rw [← hsame, hb]
  · rw [hzero] at hb
    exact absurd (Option.some.inj hb).symm hne

/-- The string runs into untouched memory before its end. -/
def RunsIntoUntouched (s : Vm) (p : Space) (srcva max : Nat) : Prop :=
  ∃ k, k < max ∧ (∀ j, j < k → ∃ b, b ≠ 0 ∧ userView s p (srcva + j) = some b) ∧ Untouched s p (srcva + k)

/-- A string that the process sees is mapped, or it ends in untouched memory. -/
theorem StringAt.mapped (h : StringAt (userView s p) a str) :
    StringAt (mappedByte s p) a str ∨ Untouched s p (a + str.length) := by
  induction str generalizing a with
  | nil =>
    rcases userView_cases s p a with ⟨hsame, -⟩ | ⟨-, -, hun⟩
    · exact .inl (hsame.symm.trans h)
    · exact .inr hun
  | cons b str ih =>
    obtain ⟨hb, ha, hrest⟩ := h
    refine (ih hrest).imp (fun hmap => ⟨hb, mappedByte_of_ne_zero ha hb, hmap⟩) fun hun => ?_
    rwa [length_cons, show a + (str.length + 1) = a + 1 + str.length by omega]

section

variable {look : Nat → Option UInt8}

/-- The bytes of a string are not zero. -/
theorem StringAt.bytes (h : StringAt look a str) {j : Nat} (hj : j < str.length) :
    ∃ b ≠ 0, look (a + j) = some b := by
  induction str generalizing a j with
  | nil => exact absurd hj (Nat.not_lt_zero j)
  | cons b str ih =>
    obtain ⟨hb, ha, hrest⟩ := h
    cases j with
    | zero => exact ⟨b, hb, ha⟩
    | succ j =>
      rw [show a + (j + 1) = a + 1 + j by omega]
      exact ih hrest (Nat.lt_of_succ_lt_succ hj)

theorem StringAt.nul (h : StringAt look a str) : look (a + str.length) = some 0 := by
  induction str generalizing a with
  | nil => exact h
  | cons b str ih =>
    rw [length_cons, show a + (str.length + 1) = a + 1 + str.length by omega]
    exact ih h.2.2

/-- Bytes that are not zero up to a zero are a string. -/
theorem stringAt_of_bytes {k : Nat} (hzero : look (a + k) = some 0) (hbytes : ∀ j < k, ∃ b ≠ 0, look (a + j) = some b) :
    ∃ str, str.length = k ∧ StringAt look a str := by
  induction k generalizing a with
  | zero => exact ⟨[], rfl, hzero⟩
  | succ k ih =>
    obtain ⟨b, hb, ha⟩ := hbytes 0 (Nat.succ_pos k)
    have hnext : ∀ j, a + 1 + j = a + (j + 1) := fun j => by omega
    obtain ⟨str, hlen, hstr⟩ := ih (a := a + 1) (by rwa [hnext]) fun j hj => by
      rw [hnext]
      exact hbytes (j + 1) (Nat.succ_lt_succ hj)
    exact ⟨b :: str, by rw [length_cons, hlen], hb, ha, hstr⟩

/-- A memory has one string at an address at most. -/
theorem StringAt.unique {str' : List UInt8} (h : StringAt look a str) (h' : StringAt look a str') : str = str' := by
  -- a scan that is long enough finds both
  have hscan := scanString_found (m := str'.length) (Nat.lt_succ_self str.length) h
  rw [scanString_true_iff.mpr ⟨str', rfl, by omega, h'⟩] at hscan
  exact (append_cancel_right (Prod.mk.inj hscan).2).symm

end

/-- With enough free memory, `copyinstr` agrees with `copyin` exactly if the string does not run into memory that the
process has reserved and not touched: `copyin` faults such memory in, `copyinstr` gives up. -/
theorem copyinstr_agrees_iff (h : SpaceInv img s p) (hfree : 3 ≤ s.free.length) (srcva max : Nat) :
    AgreesWithCopyin img s p srcva max ↔ ¬ RunsIntoUntouched s p srcva max := by
  obtain ⟨A, hgood, hp⟩ := h
  have hscan := copyinstr_scan hgood.rep hp.root srcva max
  have hcopies : ∀ str, CopiesString img s p srcva str ↔ StringAt (userView s p) srcva str :=
    fun str => copiesString_iff hgood hp hfree
  have hsees : ∀ {str}, StringAt (mappedByte s p) srcva str → StringAt (userView s p) srcva str :=
    fun hstr => hstr.congr fun k b hb => mappedByte_userView hb
  constructor
  · rintro ⟨ok, dst, t, hrun, -, hiff, -⟩ ⟨k, hk, hbytes, hun⟩
    have huncases : userView s p (srcva + k) = some 0 ∧ mappedByte s p (srcva + k) = none := by
      rcases userView_cases s p (srcva + k) with ⟨-, hnot⟩ | ⟨hzero, hnone, -⟩
      · exact absurd hun hnot
      · exact ⟨hzero, hnone⟩
    obtain ⟨str, rfl, hstr⟩ := stringAt_of_bytes huncases.1 hbytes
    have hok := hiff.mpr ⟨str, hk, (hcopies str).mpr hstr⟩
    have hres := (EStateM.Result.ok.inj (hscan.symm.trans hrun)).1
    rw [hok] at hres
    -- the string that was found is the one that ends in untouched memory
    obtain ⟨str', -, -, hstr'⟩ := scanString_true_iff.mp hres
    rw [← (hsees hstr').unique hstr, hstr'.nul] at huncases
    cases huncases.2
  · intro hnot
    have hmapped : ∀ str, str.length < max → CopiesString img s p srcva str → StringAt (mappedByte s p) srcva str := by
      intro str hlt hstr
      have hview := (hcopies str).mp hstr
      exact hview.mapped.resolve_right fun hun => hnot ⟨str.length, hlt, fun j hj => hview.bytes hj, hun⟩
    refine ⟨_, _, s, hscan, scanString_length _ _ _, ⟨fun hok => ?_, ?_⟩, fun _ str hlt hstr => ?_⟩
    · obtain ⟨str, -, hlt, hstr⟩ := scanString_true_iff.mp (Prod.ext hok rfl)
      exact ⟨str, hlt, (hcopies str).mpr (hsees hstr)⟩
    · rintro ⟨str, hlt, hstr⟩
      rw [scanString_true_iff.mpr ⟨str, rfl, hlt, hmapped str hlt hstr⟩]
    · rw [scanString_true_iff.mpr ⟨str, rfl, hlt, hmapped str hlt hstr⟩]

end Agreement

/-- The string "hi" in memory that has been touched. -/
theorem copyinstr_agrees_touched : ∃ s p, SpaceInv smallImage s p ∧ 3 ≤ s.free.length ∧
    AgreesWithCopyin smallImage s p 4090 3 := by
  have hrun : yields (smallProc 8192) smallVm (fun r s => r.any fun p =>
      yields (copyout smallImage p p.pagetable 4090 (fun k => [104, 105, 0].getD k 0) 3) s fun ok t =>
        decide (3 ≤ t.free.length) && (range 3).all fun k => (translate t.mem p.pagetable (4090 + k)).isSome) =
      true := by decide +kernel
  obtain ⟨p, s, hproc, hrun⟩ := yields_some hrun
  obtain ⟨ok, t, hcopy, htest⟩ := yields_true hrun
  obtain ⟨A, hgood, hp⟩ := smallProc_inv (by decide) hproc
  obtain ⟨B, htouched, -⟩ := wp_ok (copyout_spec _ hgood hp) hcopy
  rw [Bool.and_eq_true, decide_eq_true_eq, all_eq_true] at htest
  have hinv : SpaceInv smallImage t p := ⟨B, htouched.good, htouched.space⟩
  refine ⟨t, p, hinv, htest.1, (copyinstr_agrees_iff hinv htest.1 4090 3).mpr ?_⟩
  rintro ⟨k, hk, -, hun⟩
  have hsome := htest.2 k (mem_range.mpr hk)
  rw [hun.1] at hsome
  cases hsome

/-- A string that begins in memory reserved and not touched: `copyin` reads an empty string, `copyinstr` fails. -/
theorem copyinstr_untouched : ∃ s p, SpaceInv smallImage s p ∧ 3 ≤ s.free.length ∧
    (∃ t, copyinstr p.pagetable 0 8 s = .ok (false, []) t) ∧
    (∃ t, copyin smallImage p p.pagetable 0 1 s = .ok (some [0]) t) ∧ ¬ AgreesWithCopyin smallImage s p 0 8 := by
  have hrun : yields (smallProc 4096) smallVm (fun r s => r.any fun p => decide (3 ≤ s.free.length) &&
      yields (copyinstr p.pagetable 0 8) s (fun r _ => decide (r = (false, []))) &&
      yields (copyin smallImage p p.pagetable 0 1) s (fun r _ => decide (r = some [0]))) = true := by
    decide +kernel
  obtain ⟨p, s, hproc, hrun⟩ := yields_some hrun
  simp only [Bool.and_eq_true, decide_eq_true_eq] at hrun
  obtain ⟨⟨hfree, hstr⟩, hin⟩ := hrun
  obtain ⟨_, u, hu, hfalse⟩ := yields_true hstr
  obtain ⟨_, v, hv, hzero⟩ := yields_true hin
  obtain rfl := of_decide_eq_true hfalse
  obtain rfl := of_decide_eq_true hzero
  refine ⟨s, p, smallProc_inv (by decide) hproc, hfree, ⟨u, hu⟩, ⟨v, hv⟩, ?_⟩
  rintro ⟨ok, dst, t, hdst, -, hiff, -⟩
  rw [hu] at hdst
  cases hdst
  exact Bool.false_ne_true (hiff.mpr ⟨[], by decide, by simp, v, hv⟩)

end Xv6Lab.Memory
