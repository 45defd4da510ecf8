import Xv6Lab.Lib.Exec
import Xv6Lab.Lib.RadixTree
import Xv6Lab.Memory.Model

/-!
# What the page-table functions do

A page table is a radix tree of height 2 in physical memory (`pteFormat`). `Grows` says what a walk
that allocates does to it: it takes pages from the front of the free list, writes only to them and
to the nodes of the tree, and changes no lookup. `Maps` says what a successful `mappages` of one page
does: the same, and the addresses of that page get the new entry.
-/

namespace Xv6Lab.Memory

open Function Lib.Exec Word
open Lib.RadixTree

/-! ## Words and entries -/

theorem Word.toNat_ofNat {n : Nat} (h : n < 2 ^ 64) : (Word.ofNat n).toNat = n := by
  simp only [toNat, ofNat, UInt8.toNat_ofNat']
  simp only [Fin.isValue, Fin.val_zero, Fin.val_one, Fin.val_two, Nat.mul_zero, Nat.pow_zero,
    Nat.div_one, show (3 : Fin 8).val = 3 from rfl, show (4 : Fin 8).val = 4 from rfl,
    show (5 : Fin 8).val = 5 from rfl, show (6 : Fin 8).val = 6 from rfl,
    show (7 : Fin 8).val = 7 from rfl]
  omega

/-- The page number of the start of a page. -/
theorem page_vpn (v : Nat) : v * pgsize / pgsize = v := Nat.mul_div_cancel _ (by decide)

theorem toNat_zero (i : Fin 512) : Word.toNat (fill 0 i) = 0 := rfl

variable {page flags va : Nat} {r : Option (Nat × Fin 512)} {s s' : Vm} {i : Fin 512} {mem : Nat → Page}
  {l root : Nat} {t : Vm}

/-- Bits of an entry made of a page number and flags. -/
theorem entry_eq (hf : flags < 2 ^ 10) : page2pte page ||| flags = page * 2 ^ 10 + flags := by
  rw [page2pte, ← Nat.shiftLeft_add_eq_or_of_lt hf, Nat.shiftLeft_eq]

theorem or_one_lt (hf : flags < 2 ^ 10) : flags ||| pteV < 2 ^ 10 :=
  Nat.or_lt_two_pow hf (by decide)

/-- The entry that `mappages` stores. -/
def leafEntry (page perm : Nat) : Nat := page2pte page ||| perm ||| pteV

theorem leafEntry_eq {perm : Nat} (hp : perm < 2 ^ 10) : leafEntry page perm = page * 2 ^ 10 + (perm ||| pteV) := by
  rw [leafEntry, Nat.or_assoc, entry_eq (or_one_lt hp)]

theorem entry_lt (hpage : page < 2 ^ 52) (hf : flags < 2 ^ 10) : page * 2 ^ 10 + flags < 2 ^ 64 := by
  omega

theorem pte2page_entry (hpage : page < 2 ^ 52) (hf : flags < 2 ^ 10) : pte2page (page * 2 ^ 10 + flags) = page := by
  rw [pte2page]
  omega

theorem isValid_iff (n : Nat) : isValid n = true ↔ n % 2 = 1 := by
  simp [isValid, Nat.testBit_zero]

theorem isValid_entry : isValid (page * 2 ^ 10 + flags) = isValid flags := by
  have hmod : (page * 2 ^ 10 + flags) % 2 = flags % 2 := by omega
  rw [isValid, isValid, Nat.testBit_zero, Nat.testBit_zero, hmod]

theorem isValid_or_one (n : Nat) : isValid (n ||| pteV) = true := by
  simp [isValid]

/-- Flags that include the valid bit are stored as they are. -/
theorem or_one_of_valid (h : isValid flags = true) : flags ||| pteV = flags := by
  apply Nat.eq_of_testBit_eq
  intro i
  rw [Nat.testBit_or]
  cases i with
  | zero => simpa [isValid] using h
  | succ i => simp [Nat.testBit_succ, show pteV / 2 = 0 from rfl]

theorem testBit_of_flags {a b i : Nat} (h : pteFlags a = pteFlags b) (hi : i < 10) : a.testBit i = b.testBit i := by
  have ha := Nat.testBit_mod_two_pow a 10 i
  have hb := Nat.testBit_mod_two_pow b 10 i
  rw [pteFlags, pteFlags] at h
  rw [h, hb] at ha
  simpa [hi] using ha.symm

/-- The pages of a process. -/
def pageCount (sz : Nat) : Nat := (sz + pgsize - 1) / pgsize

theorem lt_of_lt_pageCount {sz k : Nat} (h : k < pageCount sz) : k * pgsize < sz := by
  have hk : k < (sz + 4096 - 1) / 4096 := h
  show k * 4096 < sz
  omega

/-! ## Page tables as radix trees -/

/-- How page-table entries and addresses are read. -/
def pteFormat : Format Nat (Fin 512) Word Nat where
  valid := fun w => isValid w.toNat
  child := fun w => pte2page w.toNat
  index := px

/-- The entry for `va` in the page table. -/
def entryAt (mem : Nat → Page) (pagetable va : Nat) : Option Nat :=
  (lookup pteFormat mem 2 pagetable va).map Word.toNat

/-- The pages of a page table. -/
def tablePages (mem : Nat → Page) (pagetable : Nat) : Set Nat := nodes pteFormat mem 2 pagetable

/-- The hardware finds what the radix tree holds. -/
theorem translate_eq {pagetable : Nat} (h : va < maxva) : translate mem pagetable va = entryAt mem pagetable va := by
  rw [translate, if_neg (Nat.not_le.mpr h), entryAt, lookup, lookup, lookup]
  simp only [apply_ite (Option.map toNat), Option.map_some, Option.map_none]
  rfl

/-- Addresses of 39 bits with the same indices lie in the same page. -/
theorem same_iff {wa : Nat} (hv : va < 2 ^ 39) (hw : wa < 2 ^ 39) :
    Same pteFormat 2 va wa ↔ wa / pgsize = va / pgsize := by
  have hpx : ∀ k, px k wa = px k va ↔ wa / 2 ^ (12 + 9 * k) % 512 = va / 2 ^ (12 + 9 * k) % 512 := by
    intro k
    rw [px, px, Fin.mk.injEq]
  constructor
  · intro hs
    have h0 := (hpx 0).mp (hs 0 (by decide))
    have h1 := (hpx 1).mp (hs 1 (by decide))
    have h2 := (hpx 2).mp (hs 2 (by decide))
    simp only [Nat.mul_zero, Nat.mul_one, Nat.reduceMul, Nat.reduceAdd, Nat.add_zero, Nat.reducePow] at h0 h1 h2
    show wa / 4096 = va / 4096
    omega
  · intro hp k hk
    refine (hpx k).mpr ?_
    have hsplit : ∀ x : Nat, x / 2 ^ (12 + 9 * k) = x / pgsize / 2 ^ (9 * k) := by
      intro x
      rw [Nat.pow_add, ← Nat.div_div_eq_div_mul]
    rw [hsplit, hsplit, hp]

/-- An address has the indices of the start of its page. -/
theorem same_pageBase (h : va < 2 ^ 39) : Same pteFormat 2 (va / pgsize * pgsize) va := by
  have hle : va / pgsize * pgsize ≤ va := Nat.div_mul_le_self va pgsize
  rw [same_iff (Nat.lt_of_le_of_lt hle h) h, page_vpn]

/-! ## Walking -/

/-- The entry allows no access: it points to a page table. -/
def Plain (w : Word) : Prop := w.toNat % 16 / 2 = 0

/-- A step of a walk changes the tree of height `l` at `root` by taking pages from the free list. -/
structure Grows (l root : Nat) (s s' : Vm) : Prop where
  taken : ∃ ts, s.free = ts ++ s'.free ∧ (∀ p, p ∉ nodes pteFormat s.mem l root → p ∉ ts → s'.mem p = s.mem p) ∧
    nodes pteFormat s'.mem l root = nodes pteFormat s.mem l root ∪ { p | p ∈ ts }
  tree : Tree pteFormat s'.mem l root
  lookup_eq : ∀ v, lookup pteFormat s'.mem l root v = lookup pteFormat s.mem l root v
  plain : Inner pteFormat s.mem Plain l root → Inner pteFormat s'.mem Plain l root

/-- The free list: distinct pages that the tree does not use, with page numbers that fit an entry. -/
structure FreeFor (l root : Nat) (s : Vm) : Prop where
  distinct : s.free.Nodup
  unused : ∀ p ∈ s.free, p ∉ nodes pteFormat s.mem l root
  small : ∀ p ∈ s.free, p < 2 ^ 52

theorem Grows.refl (ht : Tree pteFormat s.mem l root) : Grows l root s s :=
  ⟨⟨[], rfl, fun _ _ _ => rfl, by simp⟩, ht, fun _ => rfl, id⟩

/-- What is left of the free list stays usable. -/
theorem Grows.freeFor (h : Grows l root s s') (hf : FreeFor l root s) : FreeFor l root s' := by
  obtain ⟨ts, hfree, -, hnodes⟩ := h.taken
  have hdist := hf.distinct
  rw [hfree, List.nodup_append] at hdist
  refine ⟨hdist.2.1, fun p hp hmem => ?_, fun p hp => ?_⟩
  · rcases hnodes.subset hmem with hmem | hmem
    · exact hf.unused p (by rw [hfree]; exact List.mem_append_right _ hp) hmem
    · exact hdist.2.2 p hmem p hp rfl
  · exact hf.small p (by rw [hfree]; exact List.mem_append_right _ hp)

theorem Grows.trans {u : Vm} (h : Grows l root s t) (h' : Grows l root t u) : Grows l root s u := by
  obtain ⟨ts, hfree, hagree, hnodes⟩ := h.taken
  obtain ⟨us, hfree', hagree', hnodes'⟩ := h'.taken
  refine ⟨⟨ts ++ us, ?_, fun p hp hpts => ?_, ?_⟩, h'.tree, fun v => ?_, fun hin => h'.plain (h.plain hin)⟩
  · rw [hfree, hfree', List.append_assoc]
  · rw [List.mem_append, not_or] at hpts
    rw [hagree' p ?_ hpts.2, hagree p hp hpts.1]
    intro hmem
    rcases hnodes.subset hmem with hmem | hmem
    · exact hp hmem
    · exact hpts.1 hmem
  · rw [hnodes', hnodes, Set.union_assoc]
    refine congrArg (nodes pteFormat s.mem l root ∪ ·) (Set.ext fun p => ?_)
    exact List.mem_append.symm
  · rw [h'.lookup_eq, h.lookup_eq]

/-- A walk below one child is a walk of the whole tree. -/
theorem Grows.of_child (ht : Tree pteFormat s.mem (l + 1) root) (hf : FreeFor (l + 1) root s)
    (hi : pteFormat.valid (s.mem root i) = true) (h : Grows l (pteFormat.child (s.mem root i)) s s') :
    s'.mem root = s.mem root ∧ Grows (l + 1) root s s' := by
  obtain ⟨ts, hfree, hagree, hnodes⟩ := h.taken
  have hfresh : ∀ q ∈ { p | p ∈ ts }, q ∉ nodes pteFormat s.mem (l + 1) root := by
    intro q hq
    refine hf.unused q ?_
    rw [hfree]
    exact List.mem_append_left _ hq
  obtain ⟨hroot, htree, hall, hlook⟩ := ht.update_child hi hfresh hagree h.tree hnodes
  refine ⟨hroot, ⟨ts, hfree, fun p hp hpts => ?_, hall⟩, htree, fun v => ?_, fun hin => ?_⟩
  · exact hagree p (fun hmem => hp (child_mem_nodes hi hmem)) hpts
  · by_cases hv : pteFormat.index (l + 1) v = i
    · rw [lookup, lookup, hv, hroot, if_pos hi, if_pos hi]
      exact h.lookup_eq v
    · exact hlook v hv
  · exact hin.update_child ht hi hfresh hagree (h.plain (hin i hi).2)

/-- The state after `walk` has hung the page `fresh` under index `i`. -/
def attached (s : Vm) (page : Nat) (i : Fin 512) (fresh : Nat) (rest : List Nat) : Vm :=
  let zeroed := update (update s.mem fresh (fill 5)) fresh (fill 0)
  { mem := update zeroed page (update (zeroed page) i (Word.ofNat (page2pte fresh ||| pteV)))
    free := rest }

theorem readWord_bind {f : Nat → VmM α} : (readWord page i >>= f) s = f (s.mem page i).toNat s := rfl

theorem kalloc_nil (h : s.free = []) : kalloc s = .ok none s := by
  rw [kalloc, get_bind, h]
  rfl

theorem kalloc_cons {rest : List Nat} (h : s.free = page :: rest) :
    kalloc s = .ok (some page) { mem := update s.mem page (fill 5), free := rest } := by
  rw [kalloc, get_bind, h]
  rfl

/-- A page that `kalloc` returns was the head of the free list. -/
theorem kalloc_eq_some (h : kalloc s = .ok (some page) t) :
    ∃ rest, s.free = page :: rest ∧ t = { mem := update s.mem page (fill 5), free := rest } := by
  cases hfree : s.free with
  | nil =>
    rw [kalloc_nil hfree] at h
    cases h
  | cons p rest =>
    rw [kalloc_cons hfree] at h
    cases h
    exact ⟨rest, rfl, rfl⟩

/-- One level of a walk that allocates. -/
theorem walkStep_alloc {next : Nat} (h : walkStep true page i s = .ok (some next) s') :
    (isValid (s.mem page i).toNat = true ∧ next = pte2page (s.mem page i).toNat ∧ s' = s) ∨
      (isValid (s.mem page i).toNat = false ∧ ∃ rest, s.free = next :: rest ∧ s' = attached s page i next rest) := by
  rw [walkStep, readWord_bind] at h
  split at h
  · next hv =>
      cases h
      exact Or.inl ⟨hv, rfl, rfl⟩
  next hv =>
  rw [if_neg (by decide)] at h
  obtain ⟨fresh, t, hk, hrest⟩ := bind_eq_ok h
  cases fresh with
  | none => cases hrest
  | some p =>
    obtain ⟨rest, hfree, rfl⟩ := kalloc_eq_some hk
    cases hrest
    exact Or.inr ⟨by simpa using hv, rest, hfree, rfl⟩

/-- A walk that gets no page has changed nothing at this level. -/
theorem walkStep_alloc_none (h : walkStep true page i s = .ok none s') :
    s' = s ∧ ¬ isValid (s.mem page i).toNat = true ∧ s.free = [] := by
  rw [walkStep, readWord_bind] at h
  split at h
  · cases h
  next hv =>
  rw [if_neg (by decide)] at h
  cases hfree : s.free with
  | nil =>
    rw [bind_of_ok (kalloc_nil hfree)] at h
    cases h
    exact ⟨rfl, hv, rfl⟩
  | cons p rest =>
    rw [bind_of_ok (kalloc_cons hfree)] at h
    cases h

/-- A fresh page hung into the tree. -/
theorem grows_attached {fresh : Nat} {rest : List Nat} (ht : Tree pteFormat s.mem (l + 1) root)
    (hf : FreeFor (l + 1) root s) (hv : isValid (s.mem root i).toNat = false) (hfree : s.free = fresh :: rest) :
    Grows (l + 1) root s (attached s root i fresh rest) ∧
      pteFormat.valid ((attached s root i fresh rest).mem root i) = true ∧
      pteFormat.child ((attached s root i fresh rest).mem root i) = fresh := by
  have hmem : fresh ∈ s.free := by
    rw [hfree]
    exact List.mem_cons_self
  have hnot : fresh ∉ nodes pteFormat s.mem (l + 1) root := hf.unused fresh hmem
  have hne : root ≠ fresh := by
    rintro rfl
    exact hnot (root_mem_nodes _ _)
  have hsmall := hf.small fresh hmem
  -- the entry that points to the fresh page
  have hentry : (ofNat (page2pte fresh ||| pteV)).toNat = fresh * 2 ^ 10 + 1 := by
    rw [entry_eq (by decide), toNat_ofNat (entry_lt hsmall (by decide))]
  have hroot : (attached s root i fresh rest).mem root = update (s.mem root) i (ofNat (page2pte fresh ||| pteV)) := by
    simp [attached, hne]
  have hblank : ∀ j, pteFormat.valid ((attached s root i fresh rest).mem fresh j) = false := by
    intro j
    have : (attached s root i fresh rest).mem fresh = fill 0 := by
      simp [attached, Ne.symm hne]
    show isValid (toNat ((attached s root i fresh rest).mem fresh j)) = false
    rw [this, toNat_zero]
    rfl
  have hvalid : pteFormat.valid (ofNat (page2pte fresh ||| pteV)) = true := by
    show isValid (ofNat (page2pte fresh ||| pteV)).toNat = true
    rw [hentry, isValid_entry]
    rfl
  have hchild : pteFormat.child (ofNat (page2pte fresh ||| pteV)) = fresh := by
    show pte2page (ofNat (page2pte fresh ||| pteV)).toNat = fresh
    rw [hentry, pte2page_entry hsmall (by decide)]
  have hagree : ∀ r ≠ root, r ≠ fresh → (attached s root i fresh rest).mem r = s.mem r := by
    intro r hr hrf
    simp [attached, hr, hrf]
  obtain ⟨htree, hnodes, hlook, hplain⟩ := ht.attach (Q := Plain) hv hnot hroot hvalid hchild hblank hagree
  refine ⟨⟨⟨[fresh], hfree, fun p hp hpf => ?_, ?_⟩, htree, hlook, fun hin => hplain hin ?_⟩, ?_, ?_⟩
  · refine hagree p ?_ (by simpa using hpf)
    rintro rfl
    exact hp (root_mem_nodes _ _)
  · rw [hnodes]
    refine congrArg (nodes pteFormat s.mem (l + 1) root ∪ ·) (Set.ext fun p => ?_)
    exact List.mem_singleton.symm
  · rw [Plain, hentry]
    omega
  · rw [hroot, update_self]
    exact hvalid
  · rw [hroot, update_self]
    exact hchild

/-- A walk that allocates makes the tree grow; if it succeeds it returns the slot of its address. -/
theorem walkFrom_alloc (ht : Tree pteFormat s.mem l root) (hf : FreeFor l root s)
    (h : walkFrom va true l root s = .ok r s') :
    Grows l root s s' ∧ ∀ q i, r = some (q, i) → i = px 0 va ∧ Slot pteFormat s'.mem l root va q := by
  induction l generalizing root s with
  | zero =>
    cases h
    refine ⟨Grows.refl ht, fun q i hr => ?_⟩
    cases hr
    exact ⟨rfl, rfl⟩
  | succ l ih =>
    rw [walkFrom] at h
    obtain ⟨next, t, hstep, hrest⟩ := bind_eq_ok h
    cases next with
    | none =>
      cases hrest
      rw [(walkStep_alloc_none hstep).1]
      exact ⟨Grows.refl ht, fun q i hr => Option.noConfusion rfl (heq_of_eq hr)⟩
    | some next =>
      -- in both cases the walk goes on below a child of the tree that `t` holds
      have hdown : Grows (l + 1) root s t ∧ pteFormat.valid (t.mem root (px (l + 1) va)) = true ∧
          pteFormat.child (t.mem root (px (l + 1) va)) = next := by
        rcases walkStep_alloc hstep with ⟨hv, rfl, rfl⟩ | ⟨hv, rest, hfree, rfl⟩
        · exact ⟨Grows.refl ht, hv, rfl⟩
        · exact grows_attached ht hf hv hfree
      obtain ⟨hgrow, hvalid, rfl⟩ := hdown
      have hft : FreeFor (l + 1) root t := hgrow.freeFor hf
      have htchild := (hgrow.tree.1 _ hvalid).2
      have hfchild : FreeFor l (pteFormat.child (t.mem root (px (l + 1) va))) t :=
        ⟨hft.distinct, fun p hp hmem => hft.unused p hp (child_mem_nodes hvalid hmem), hft.small⟩
      obtain ⟨hg, hslot⟩ := ih htchild hfchild hrest
      obtain ⟨hroot, hgall⟩ := Grows.of_child hgrow.tree hft hvalid hg
      refine ⟨hgrow.trans hgall, fun q i hr => ?_⟩
      obtain ⟨hi, hq⟩ := hslot q i hr
      refine ⟨hi, ?_, ?_⟩
      · rw [hroot]
        exact hvalid
      · rw [hroot]
        exact hq

/-! ## Mapping -/

/-- What a successful `mappages` of one page at `va` does: it takes pages for new nodes, and the
addresses of that page get the entry `e`. -/
structure Maps (pagetable va : Nat) (e : Word) (s s' : Vm) : Prop where
  taken : ∃ ts, s.free = ts ++ s'.free ∧ (∀ p, p ∉ tablePages s.mem pagetable → p ∉ ts → s'.mem p = s.mem p) ∧
    tablePages s'.mem pagetable = tablePages s.mem pagetable ∪ { p | p ∈ ts }
  tree : Tree pteFormat s'.mem 2 pagetable
  same : ∀ w, Same pteFormat 2 va w → lookup pteFormat s'.mem 2 pagetable w = some e
  other : ∀ w, ¬ Same pteFormat 2 va w → lookup pteFormat s'.mem 2 pagetable w = lookup pteFormat s.mem 2 pagetable w

theorem mappages_one {pagetable perm : Nat} (ht : Tree pteFormat s.mem 2 pagetable) (hf : FreeFor 2 pagetable s)
    (hpage : page < 2 ^ 52) (hperm : perm < 2 ^ 10) (h : mappages pagetable va pgsize page perm s = .ok true s') :
    Maps pagetable va (Word.ofNat (leafEntry page perm)) s s' := by
  rw [mappages] at h
  split at h
  · cases h
  rw [if_neg (by decide), if_neg (by decide), show pgsize / pgsize = 1 from rfl, mappagesLoop] at h
  obtain ⟨slot, t, hwalk, hrest⟩ := bind_eq_ok h
  rw [walk] at hwalk
  split at hwalk
  · cases hwalk
  cases slot with
  | none => cases hrest
  | some slot =>
    obtain ⟨node, i⟩ := slot
    obtain ⟨hgrow, hfound⟩ := walkFrom_alloc ht hf hwalk
    obtain ⟨rfl, hslot⟩ := hfound node i rfl
    simp only at hrest
    rw [readWord_bind] at hrest
    split at hrest
    · cases hrest
    cases hrest
    have hvalid : pteFormat.valid (ofNat (leafEntry page perm)) = true := by
      show isValid (ofNat (leafEntry page perm)).toNat = true
      rw [leafEntry_eq hperm, toNat_ofNat (entry_lt hpage (or_one_lt hperm)), isValid_entry]
      exact isValid_or_one perm
    obtain ⟨htree, hnodes, hsame, hother, -⟩ := hgrow.tree.write (Q := Plain) hslot (update_self _ _ _)
      (fun r hr => update_of_ne hr _ _)
    obtain ⟨ts, hfree, hagree, hsub⟩ := hgrow.taken
    refine ⟨⟨ts, hfree, fun p hp hpts => ?_, hnodes.trans hsub⟩, htree, fun w hw => ?_, fun w hw => ?_⟩
    · have hpnode : p ≠ node := by
        rintro rfl
        rcases hsub.subset (slot_mem_nodes hslot) with hmem | hmem
        · exact hp hmem
        · exact hpts hmem
      rw [← hagree p hp hpts]
      exact update_of_ne hpnode _ _
    · exact (hsame w hw).trans (if_pos hvalid)
    · rw [← hgrow.lookup_eq w]
      exact hother w hw

/-- A walk that does not allocate changes nothing and finds the slot of the address, or the address has no entry. -/
theorem walkFrom_find (h : walkFrom va false l root s = .ok r s') :
    s' = s ∧ (r = none → lookup pteFormat s.mem l root va = none) ∧
      ∀ q i, r = some (q, i) → i = px 0 va ∧ Slot pteFormat s.mem l root va q := by
  induction l generalizing root with
  | zero =>
    cases h
    refine ⟨rfl, by simp, fun q i hr => ?_⟩
    cases hr
    exact ⟨rfl, rfl⟩
  | succ l ih =>
    rw [walkFrom] at h
    obtain ⟨next, t, hstep, hrest⟩ := bind_eq_ok h
    rw [walkStep, readWord_bind] at hstep
    split at hstep
    · next hv =>
        cases hstep
        obtain ⟨rfl, hnone, hslot⟩ := ih hrest
        refine ⟨rfl, fun hr => ?_, fun q i hr => ⟨(hslot q i hr).1, hv, (hslot q i hr).2⟩⟩
        rw [← hnone hr, lookup]
        exact if_pos hv
    · next hv =>
        rw [if_pos rfl] at hstep
        cases hstep
        cases hrest
        refine ⟨rfl, fun _ => ?_, by simp⟩
        rw [lookup]
        exact if_neg hv

/-! ## How many pages a walk takes -/

/-- The page-table pages missing on the path of an address, at and below level `l`. -/
def missing (mem : Nat → Page) (va : Nat) : Nat → Nat → Nat
  | 0, _ => 0
  | l + 1, page =>
    if isValid (mem page (px (l + 1) va)).toNat then missing mem va l (pte2page (mem page (px (l + 1) va)).toNat)
    else l + 1

/-- The pages that mapping a fresh page at `va` takes: the page and the missing table pages. -/
def needed (mem : Nat → Page) (pt va : Nat) : Nat := 1 + missing mem va 2 pt

theorem missing_le (mem : Nat → Page) (va l page : Nat) : missing mem va l page ≤ l := by
  induction l generalizing page with
  | zero => exact Nat.le_refl 0
  | succ l ih =>
    rw [missing]
    split
    · exact (ih _).trans (Nat.le_succ l)
    · exact Nat.le_refl _

theorem missing_congr {mem' : Nat → Page}
    (h : ∀ q ∈ nodes pteFormat mem l page, mem' q = mem q) : missing mem' va l page = missing mem va l page := by
  induction l generalizing page with
  | zero => rfl
  | succ l ih =>
    rw [missing, missing, h page (root_mem_nodes _ _)]
    split
    · next hv => exact ih fun q hq => h q (child_mem_nodes hv hq)
    · rfl

/-- All levels are missing below a blank page. -/
theorem missing_blank (h : mem page = fill 0) (l : Nat) : missing mem va l page = l := by
  cases l with
  | zero => rfl
  | succ l =>
    rw [missing, h, toNat_zero]
    rfl

/-- A walk that allocates succeeds exactly if there are enough pages. -/
theorem walkFrom_count (hd : s.free.Nodup)
    (hf : ∀ q ∈ s.free, q ∉ nodes pteFormat s.mem l page) (h : walkFrom va true l page s = .ok r t) :
    r.isSome = true ↔ missing s.mem va l page ≤ s.free.length := by
  induction l generalizing page s with
  | zero =>
    cases h
    exact iff_of_true rfl (Nat.zero_le _)
  | succ l ih =>
    rw [walkFrom] at h
    obtain ⟨next, u, hstep, hrest⟩ := bind_eq_ok h
    rw [missing]
    cases next with
    | none =>
      cases hrest
      obtain ⟨-, hv, hfree⟩ := walkStep_alloc_none hstep
      rw [if_neg hv, hfree]
      exact iff_of_false (by simp) (by simp)
    | some next =>
      rcases walkStep_alloc hstep with ⟨hv, rfl, rfl⟩ | ⟨hv, rest, hfree, rfl⟩
      · rw [if_pos hv]
        exact ih hd (fun q hq hmem => hf q hq (child_mem_nodes hv hmem)) hrest
      rw [if_neg (by rw [hv]; decide)]
      rw [hfree, List.nodup_cons] at hd
      have hne : next ≠ page := by
        rintro rfl
        exact hf next (hfree ▸ List.mem_cons_self) (root_mem_nodes _ _)
      -- the new page is blank, so that all levels below are missing
      have hblank : (attached s page (px (l + 1) va) next rest).mem next = fill 0 := by
        simp [attached, hne]
      have hnodes : nodes pteFormat (attached s page (px (l + 1) va) next rest).mem l next = {next} := by
        apply nodes_blank
        intro j
        show isValid (toNat ((attached s page (px (l + 1) va) next rest).mem next j)) = false
        rw [hblank, toNat_zero]
        rfl
      have hcount := ih hd.2 (fun q hq hmem => by
        rw [hnodes, Set.mem_singleton_iff] at hmem
        exact hd.1 (hmem ▸ hq)) hrest
      rw [hcount, missing_blank hblank, hfree, List.length_cons]
      show l ≤ rest.length ↔ _
      omega

end Xv6Lab.Memory
