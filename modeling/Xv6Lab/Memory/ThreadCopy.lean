import Xv6Lab.Memory.PageTable

/-!
# The pages of a new process

`kfork` and `sys_thread_create` give the new process a page table of its own and copy every mapped page of the
parent below `sz` into a fresh page; `spawn` is what they have in common. `Copied` is the invariant of the loop of
`uvmcopy`: all writes went to pages that were free at the start, and each page visited so far has a private copy with
the same flags and contents. `spawn_private_copy` is the result for a successful call, in any memory in which the
pages of the parent are in use and apart from each other.
-/

namespace Xv6Lab.Memory

open Function Lib.Exec List
open Lib.RadixTree

/-- The address space of a process as the kernel keeps it: no free page is in use, no user page is a
page-table page, and no user page is mapped twice. -/
structure SpaceOk (s : Vm) (p : Space) : Prop where
  free_distinct : s.free.Nodup
  free_small : ∀ q ∈ s.free, q < 2 ^ 52
  size : p.sz ≤ trapframeVa
  table_used : ∀ q ∈ tablePages s.mem p.pagetable, q ∉ s.free
  page_used : ∀ va pte, va < p.sz → translate s.mem p.pagetable va = some pte → pte2page pte ∉ s.free
  page_not_table : ∀ va pte, va < p.sz → translate s.mem p.pagetable va = some pte →
    pte2page pte ∉ tablePages s.mem p.pagetable
  page_distinct : ∀ va wa pte pte', va < p.sz → wa < p.sz →
    translate s.mem p.pagetable va = some pte → translate s.mem p.pagetable wa = some pte' →
    pte2page pte = pte2page pte' → va / pgsize = wa / pgsize

/-- The state of a page table under construction, from the state `s₀` before the call: every write
went to a page that was free in `s₀`, and the table and the trapframe page `tf` are such pages. -/
structure Fresh (s₀ : Vm) (tf new : Nat) (s : Vm) : Prop where
  frame : ∀ p, p ∉ s₀.free → s.mem p = s₀.mem p
  taken : ∃ ts, s₀.free = ts ++ s.free
  tree : Tree pteFormat s.mem 2 new
  table : ∀ p ∈ tablePages s.mem new, p ∈ s₀.free ∧ p ∉ s.free ∧ p ≠ tf
  trapframe : tf ∈ s₀.free ∧ tf ∉ s.free

/-- Page `k` of the parent has the private copy `q`. -/
structure CopyOf (s₀ : Vm) (old tf new : Nat) (s : Vm) (k q : Nat) : Prop where
  entry : ∀ pte, entryAt s₀.mem old (k * pgsize) = some pte →
    entryAt s.mem new (k * pgsize) = some (q * 2 ^ 10 + pteFlags pte) ∧ s.mem q = s₀.mem (pte2page pte)
  fresh : q ∈ s₀.free ∧ q ∉ s.free ∧ q ≠ tf
  not_table : q ∉ tablePages s.mem new

/-- The loop of `uvmcopy` has visited the pages below `n`. -/
structure Copied (s₀ : Vm) (old tf new : Nat) (copy : Nat → Nat) (n : Nat) (s : Vm) : Prop where
  fresh : Fresh s₀ tf new s
  pages : ∀ k, k < n → (entryAt s₀.mem old (k * pgsize)).isSome → CopyOf s₀ old tf new s k (copy k)
  distinct : ∀ j k, j < n → k < n → (entryAt s₀.mem old (j * pgsize)).isSome →
    (entryAt s₀.mem old (k * pgsize)).isSome → copy j = copy k → j = k

namespace Fresh

variable {s₀ s s' : Vm} {tf new : Nat} {rest : List Nat} {old n : Nat}

section

variable (h : Fresh s₀ tf new s)
include h

/-- What is left of the free list was free at the start. -/
theorem mem_free {p : Nat} (hp : p ∈ s.free) : p ∈ s₀.free := by
  obtain ⟨ts, hts⟩ := h.taken
  rw [hts]
  exact mem_append_right _ hp

theorem freeFor (hd : s₀.free.Nodup) (hs : ∀ q ∈ s₀.free, q < 2 ^ 52) : FreeFor 2 new s := by
  obtain ⟨ts, hts⟩ := h.taken
  refine ⟨?_, fun p hp hmem => (h.table p hmem).2.1 hp, fun p hp => hs p (h.mem_free hp)⟩
  rw [hts, nodup_append] at hd
  exact hd.2.1

/-- A page taken from the free list and filled. -/
theorem take {q : Nat} (hfree : s.free = q :: rest) {mem : Nat → Page} (hmem : ∀ p ≠ q, mem p = s.mem p) :
    Fresh s₀ tf new ⟨mem, rest⟩ ∧ tablePages mem new = tablePages s.mem new ∧
      ∀ w, lookup pteFormat mem 2 new w = lookup pteFormat s.mem 2 new w := by
  have hq : q ∈ s.free := by
    rw [hfree]
    exact mem_cons_self
  have hrest : ∀ p ∈ rest, p ∈ s.free := by
    intro p hp
    rw [hfree]
    exact mem_cons_of_mem _ hp
  have hagree : ∀ p ∈ nodes pteFormat s.mem 2 new, mem p = s.mem p := by
    intro p hp
    refine hmem p ?_
    rintro rfl
    exact (h.table p hp).2.1 hq
  have hnodes : tablePages mem new = tablePages s.mem new := nodes_congr hagree
  refine ⟨⟨fun p hp => ?_, ?_, tree_congr hagree h.tree, fun p hp => ?_, ?_⟩, hnodes, lookup_congr hagree⟩
  · rw [← h.frame p hp]
    refine hmem p ?_
    rintro rfl
    exact hp (h.mem_free hq)
  · obtain ⟨ts, hts⟩ := h.taken
    exact ⟨ts ++ [q], by rw [hts, hfree, append_assoc]; rfl⟩
  · rw [hnodes] at hp
    obtain ⟨h0, h1, h2⟩ := h.table p hp
    exact ⟨h0, fun hpr => h1 (hrest p hpr), h2⟩
  · exact ⟨h.trapframe.1, fun htf => h.trapframe.2 (hrest tf htf)⟩

/-- A page mapped into the table under construction. -/
theorem maps (hd : s₀.free.Nodup) {va : Nat} {e : Word} (hm : Maps new va e s s') : Fresh s₀ tf new s' ∧
      (∀ p ∉ tablePages s.mem new, p ∉ s.free → p ∉ tablePages s'.mem new ∧ p ∉ s'.free ∧ s'.mem p = s.mem p) := by
  obtain ⟨ts, hfree, hagree, hnodes⟩ := hm.taken
  obtain ⟨us, hus⟩ := h.taken
  have hleft : ∀ p ∈ s'.free, p ∈ s.free := by
    intro p hp
    rw [hfree]
    exact mem_append_right _ hp
  have htaken : ∀ p ∈ ts, p ∈ s.free := by
    intro p hp
    rw [hfree]
    exact mem_append_left _ hp
  have hdisj : ∀ p ∈ ts, p ∉ s'.free := by
    intro p hp hp'
    rw [hus, hfree, nodup_append, nodup_append] at hd
    exact hd.2.1.2.2 p hp p hp' rfl
  refine ⟨⟨fun p hp => ?_, ?_, hm.tree, fun p hp => ?_, ?_⟩, fun p hp hpf => ⟨fun hmem => ?_, ?_, ?_⟩⟩
  · rw [← h.frame p hp]
    refine hagree p (fun hmem => hp (h.table p hmem).1) fun hts => hp (h.mem_free (htaken p hts))
  · exact ⟨us ++ ts, by rw [hus, hfree, append_assoc]⟩
  · rcases hnodes.subset hp with hp | hp
    · obtain ⟨h0, h1, h2⟩ := h.table p hp
      exact ⟨h0, fun hp' => h1 (hleft p hp'), h2⟩
    · refine ⟨h.mem_free (htaken p hp), hdisj p hp, ?_⟩
      rintro rfl
      exact h.trapframe.2 (htaken p hp)
  · exact ⟨h.trapframe.1, fun htf => h.trapframe.2 (hleft tf htf)⟩
  · rcases hnodes.subset hmem with hmem | hmem
    · exact hp hmem
    · exact hpf (htaken p hmem)
  · exact fun hp' => hpf (hleft p hp')
  · exact hagree p hp fun hts => hpf (htaken p hts)

end

end Fresh

/-! ## Copying one page -/

variable {copy : Nat → Nat} {img : Image}

/-- A page without an entry in the parent needs no copy. -/
theorem Copied.skip (h : Copied s₀ old tf new copy n s) (hnone : entryAt s₀.mem old (n * pgsize) = none) :
    Copied s₀ old tf new copy (n + 1) s := by
  have hlt : ∀ k < n + 1, (entryAt s₀.mem old (k * pgsize)).isSome → k < n := by
    intro k hk hsome
    rcases Nat.lt_succ_iff_lt_or_eq.mp hk with hk | rfl
    · exact hk
    · rw [hnone] at hsome
      cases hsome
  exact ⟨h.fresh, fun k hk hsome => h.pages k (hlt k hk hsome) hsome,
    fun j k hj hk hsj hsk => h.distinct j k (hlt j hj hsj) (hlt k hk hsk) hsj hsk⟩

/-- Pages below `sz` that differ do not share a page-table slot. -/
theorem not_same_page {j k : Nat} (hj : j * pgsize < maxva) (hk : k * pgsize < maxva) (hne : j ≠ k) :
    ¬ Same pteFormat 2 (k * pgsize) (j * pgsize) := by
  rw [same_iff (hk.trans (by decide)) (hj.trans (by decide))]
  rw [page_vpn, page_vpn]
  exact hne

/-- A page copied to the fresh page `q` and mapped with the flags of the parent. -/
theorem Copied.add {q pte : Nat} (h : Copied s₀ old tf new copy n s) (hd : s₀.free.Nodup)
    (hsmall : ∀ p ∈ s₀.free, p < 2 ^ 52) (hn : n * pgsize < maxva)
    (hpte : entryAt s₀.mem old (n * pgsize) = some pte) (hvalid : isValid pte = true)
    (hfree : s.free = q :: rest) (hmap : Maps new (n * pgsize) (Word.ofNat (leafEntry q (pteFlags pte)))
      ⟨update (update s.mem q (fill 5)) q (s₀.mem (pte2page pte)), rest⟩ s') :
    Copied s₀ old tf new (update copy n q) (n + 1) s' := by
  set mid : Vm :=
    ⟨update (update s.mem q (fill 5)) q (s₀.mem (pte2page pte)), rest⟩ with hmid
  have hqfree : q ∈ s.free := by
    rw [hfree]
    exact mem_cons_self
  have hq0 : q ∈ s₀.free := h.fresh.mem_free hqfree
  have hmem : ∀ p ≠ q, mid.mem p = s.mem p := by
    intro p hp
    simp [hmid, hp]
  obtain ⟨hfresh, htable, hlook⟩ := h.fresh.take hfree hmem
  obtain ⟨hfresh', hkeep⟩ := hfresh.maps hd hmap
  have hqrest : q ∉ rest := by
    obtain ⟨ts, hts⟩ := h.fresh.taken
    rw [hts, hfree, nodup_append, nodup_cons] at hd
    exact hd.2.1.1
  have hqtable : q ∉ tablePages mid.mem new := by
    rw [htable]
    exact fun hq => (h.fresh.table q hq).2.1 hqfree
  obtain ⟨hqtable', hqfree', hqmem⟩ := hkeep q hqtable hqrest
  -- the copies made before stay as they are
  have hold : ∀ k < n, (entryAt s₀.mem old (k * pgsize)).isSome → copy k ≠ q ∧
      CopyOf s₀ old tf new s' k (copy k) := by
    intro k hk hsome
    have hc := h.pages k hk hsome
    have hne : copy k ≠ q := by
      intro he
      exact hc.fresh.2.1 (he ▸ hqfree)
    have hrest : copy k ∉ rest := by
      intro hr
      refine hc.fresh.2.1 ?_
      rw [hfree]
      exact mem_cons_of_mem _ hr
    obtain ⟨htab, hfr, hmemk⟩ := hkeep (copy k) (htable ▸ hc.not_table) hrest
    refine ⟨hne, fun pte' hpte' => ?_, ⟨hc.fresh.1, hfr, hc.fresh.2.2⟩, htab⟩
    obtain ⟨hent, hdata⟩ := hc.entry pte' hpte'
    have hkva : k * pgsize < maxva := Nat.lt_of_le_of_lt (Nat.mul_le_mul_right _ (Nat.le_of_lt hk)) hn
    refine ⟨?_, ?_⟩
    · rw [entryAt, hmap.other _ (not_same_page hkva hn (Nat.ne_of_lt hk)), hlook]
      exact hent
    · rw [hmemk, hmem _ hne, hdata]
  have hnew : CopyOf s₀ old tf new s' n q := by
    refine ⟨fun pte' hpte' => ?_, ⟨hq0, hqfree', ?_⟩, hqtable'⟩
    · obtain rfl : pte = pte' := by
        rw [hpte] at hpte'
        exact Option.some.inj hpte'
      have hflags : pteFlags pte < 2 ^ 10 := Nat.mod_lt _ (by decide)
      have hfv : isValid (pteFlags pte) = true := by
        rw [isValid_iff] at hvalid ⊢
        rw [pteFlags]
        omega
      have hlt := entry_lt (hsmall q hq0) hflags
      refine ⟨?_, ?_⟩
      · rw [entryAt, hmap.same _ (fun _ _ => rfl), Option.map_some, leafEntry_eq hflags,
          or_one_of_valid hfv, Word.toNat_ofNat hlt]
      · rw [hqmem]
        simp [hmid]
    · rintro rfl
      exact h.fresh.trapframe.2 hqfree
  have hcase : ∀ k < n + 1, (k < n ∧ update copy n q k = copy k) ∨ (k = n ∧ update copy n q k = q) := by
    intro k hk
    rcases Nat.lt_succ_iff_lt_or_eq.mp hk with hk | rfl
    · exact Or.inl ⟨hk, update_of_ne (Nat.ne_of_lt hk) _ _⟩
    · exact Or.inr ⟨rfl, update_self _ _ _⟩
  refine ⟨hfresh', fun k hk hsome => ?_, fun j k hj hk hsj hsk hjk => ?_⟩
  · rcases hcase k hk with ⟨hk, hc⟩ | ⟨rfl, hc⟩
    · rw [hc]
      exact (hold k hk hsome).2
    · rw [hc]
      exact hnew
  rcases hcase j hj with ⟨hj, hcj⟩ | ⟨rfl, hcj⟩
  · rcases hcase k hk with ⟨hk, hck⟩ | ⟨rfl, hck⟩
    · rw [hcj, hck] at hjk
      exact h.distinct j k hj hk hsj hsk hjk
    · rw [hcj, hck] at hjk
      exact absurd hjk (hold j hj hsj).1
  · rcases hcase k hk with ⟨hk, hck⟩ | ⟨rfl, -⟩
    · rw [hcj, hck] at hjk
      exact absurd hjk.symm (hold k hk hsk).1
    · rfl

/-- One iteration of the loop of `uvmcopy`. -/
theorem Copied.step (h : Copied s₀ old tf new copy n s) (hd : s₀.free.Nodup) (hsmall : ∀ p ∈ s₀.free, p < 2 ^ 52)
    (htable : ∀ p ∈ tablePages s₀.mem old, p ∉ s₀.free)
    (hpage : ∀ pte, entryAt s₀.mem old (n * pgsize) = some pte → pte2page pte ∉ s₀.free)
    (hrun : copyPage img old new (n * pgsize) s = .ok true s') :
    ∃ copy', Copied s₀ old tf new copy' (n + 1) s' := by
  have hold : lookup pteFormat s.mem 2 old (n * pgsize) =
      lookup pteFormat s₀.mem 2 old (n * pgsize) :=
    lookup_congr (fun p hp => h.fresh.frame p (htable p hp)) _
  rw [copyPage] at hrun
  obtain ⟨slot, t, hwalk, hrest⟩ := bind_eq_ok hrun
  rw [walk] at hwalk
  split at hwalk
  · cases hwalk
  next hva =>
  obtain ⟨rfl, hnone, hfound⟩ := walkFrom_find hwalk
  cases slot with
  | none =>
    cases hrest
    exact ⟨copy, h.skip (by rw [entryAt, ← hold, hnone rfl]; rfl)⟩
  | some slot =>
    obtain ⟨node, j⟩ := slot
    obtain ⟨rfl, hslot⟩ := hfound node j rfl
    rw [lookup_of_slot hslot] at hold
    simp only at hrest
    rw [readWord_bind] at hrest
    set w := t.mem node (px 0 (n * pgsize))
    split at hrest
    · next hvalid =>
        -- the parent has the page
        have hpte : entryAt s₀.mem old (n * pgsize) = some w.toNat := by
          rw [entryAt, ← hold]
          exact congrArg (Option.map Word.toNat) (if_pos hvalid)
        obtain ⟨mem, u, hk, hrest⟩ := bind_eq_ok hrest
        cases mem with
        | none => cases hrest
        | some q =>
          obtain ⟨rest, hfree, rfl⟩ := kalloc_eq_some hk
          have hqfree : q ∈ t.free := by
            rw [hfree]
            exact mem_cons_self
          have hq0 : q ∈ s₀.free := h.fresh.mem_free hqfree
          -- the source page was in use, so it is not the page just allocated
          have hsrc := hpage _ hpte
          have hdata : update t.mem q (fill 5) (pte2page w.toNat) = s₀.mem (pte2page w.toNat) := by
            rw [update_of_ne, h.fresh.frame _ hsrc]
            rintro rfl
            exact hsrc hq0
          obtain ⟨s1, s2, hget, hrest⟩ := bind_eq_ok hrest
          cases hget
          rw [show (⟨update t.mem q (fill 5), rest⟩ : Vm).mem (pte2page w.toNat) = _ from hdata] at hrest
          obtain ⟨_, s3, hset, hrest⟩ := bind_eq_ok hrest
          cases hset
          obtain ⟨s4, hmap, hrest⟩ := bind_ite_ok hrest Bool.false_ne_true
          cases hrest
          have hmem : ∀ p ≠ q, update (update t.mem q (fill 5)) q (s₀.mem (pte2page w.toNat)) p = t.mem p := by
            intro p hp
            simp [hp]
          obtain ⟨hfresh, -, -⟩ := h.fresh.take hfree hmem
          have hmaps := mappages_one hfresh.tree (hfresh.freeFor hd hsmall) (hsmall q hq0)
            (Nat.mod_lt _ (by decide)) hmap
          exact ⟨_, h.add hd hsmall (Nat.not_le.mp hva) hpte hvalid hfree hmaps⟩
    · next hvalid =>
        cases hrest
        refine ⟨copy, h.skip ?_⟩
        rw [entryAt, ← hold]
        exact congrArg (Option.map Word.toNat) (if_neg hvalid)

/-- The loop of `uvmcopy`. -/
theorem Copied.run (hd : s₀.free.Nodup)
    (hsmall : ∀ p ∈ s₀.free, p < 2 ^ 52) (htable : ∀ p ∈ tablePages s₀.mem old, p ∉ s₀.free) :
    ∀ (k n : Nat) {s s' : Vm} {copy : Nat → Nat}, Copied s₀ old tf new copy n s →
      (∀ j pte, j < n + k → entryAt s₀.mem old (j * pgsize) = some pte → pte2page pte ∉ s₀.free) →
      uvmcopyLoop img old new k (n * pgsize) s = .ok true s' →
      ∃ copy', Copied s₀ old tf new copy' (n + k) s'
  | 0, n, s, s', copy, h, _, hrun => by
      cases hrun
      exact ⟨copy, h⟩
  | k + 1, n, s, s', copy, h, hpage, hrun => by
      rw [uvmcopyLoop] at hrun
      obtain ⟨t, hcopy, hrest⟩ := bind_ite_ok hrun Bool.false_ne_true
      obtain ⟨copy1, h1⟩ := h.step hd hsmall htable (fun pte => hpage n pte (by omega)) hcopy
      rw [← Nat.add_one_mul] at hrest
      obtain ⟨copy2, h2⟩ := Copied.run hd hsmall htable k (n + 1) h1 (fun j pte hj => hpage j pte (by omega)) hrest
      rw [show n + (k + 1) = n + 1 + k by omega]
      exact ⟨copy2, h2⟩

theorem pteFlags_lt (pte : Nat) : pteFlags pte < 2 ^ 10 := Nat.mod_lt _ (by decide)

theorem pteFlags_entry (q pte : Nat) : pteFlags (q * 2 ^ 10 + pteFlags pte) = pteFlags pte := by
  have hlt := pteFlags_lt pte
  show (q * 2 ^ 10 + pteFlags pte) % 2 ^ 10 = pteFlags pte
  omega

/-- What the copy of a mapped address looks like. -/
theorem Copied.page {sz va pte : Nat} (h : Copied s₀ old tf new copy (pageCount sz) s) (hva : va < sz)
    (hmax : va < maxva) (hpte : translate s₀.mem old va = some pte) :
    CopyOf s₀ old tf new s (va / pgsize) (copy (va / pgsize)) ∧
      entryAt s₀.mem old (va / pgsize * pgsize) = some pte ∧ va / pgsize < pageCount sz ∧
      translate s.mem new va = some (copy (va / pgsize) * 2 ^ 10 + pteFlags pte) := by
  have hcount : va / pgsize < pageCount sz := by
    show va / 4096 < (sz + 4096 - 1) / 4096
    omega
  have hsame : Same pteFormat 2 (va / pgsize * pgsize) va := same_pageBase (hmax.trans (by decide))
  have hent : entryAt s₀.mem old (va / pgsize * pgsize) = some pte := by
    rw [translate_eq hmax, entryAt, lookup_of_same hsame] at hpte
    exact hpte
  have hc := h.pages _ hcount (by rw [hent]; rfl)
  refine ⟨hc, hent, hcount, ?_⟩
  rw [translate_eq hmax, entryAt, lookup_of_same hsame]
  exact (hc.entry pte hent).1

/-! ## The whole call -/

/-- `uvmcreate` starts a table in a zeroed page. -/
theorem fresh_uvmcreate {t : Vm} (hd : s₀.free.Nodup) (hfree : s₀.free = tf :: rest)
    (hs : s = { mem := update s₀.mem tf (fill 5), free := rest })
    (hrun : uvmcreate s = .ok (some new) t) : Fresh s₀ tf new t := by
  rw [uvmcreate] at hrun
  obtain ⟨page, u, hk, hrest⟩ := bind_eq_ok hrun
  cases page with
  | none => cases hrest
  | some page =>
    obtain ⟨rest', hfree', rfl⟩ := kalloc_eq_some hk
    cases hrest
    subst hs
    have hrest' : rest = new :: rest' := hfree'
    have hlist : s₀.free = [tf, new] ++ rest' := by rw [hfree, hrest']; rfl
    rw [hlist] at hd
    have hmem : ∀ p ∉ s₀.free, p ≠ tf ∧ p ≠ new := by
      intro p hp
      rw [hlist] at hp
      simp only [cons_append, nil_append, mem_cons, not_or] at hp
      exact ⟨hp.1, hp.2.1⟩
    simp only [cons_append, nil_append, nodup_cons, mem_cons, not_or] at hd
    have hblank : ∀ j, pteFormat.valid (update (update (update s₀.mem tf
        (fill 5)) new (fill 5)) new (fill 0) new j) = false := by
      intro j
      show isValid (Word.toNat _) = false
      rw [update_self, toNat_zero]
      rfl
    refine ⟨fun p hp => ?_, ⟨[tf, new], hlist⟩, tree_blank hblank, fun p hp => ?_, ?_⟩
    · obtain ⟨h1, h2⟩ := hmem p hp
      show update (update (update s₀.mem tf _) new _) new _ p = _
      rw [update_of_ne h2, update_of_ne h2, update_of_ne h1]
    · have hp' : p ∈ nodes pteFormat _ 2 new := hp
      rw [nodes_blank hblank] at hp'
      obtain rfl : p = new := hp'
      refine ⟨?_, hd.2.1, fun he => hd.1.1 he.symm⟩
      rw [hlist]
      simp
    · refine ⟨?_, hd.1.2⟩
      rw [hfree]
      exact mem_cons_self

/-- `allocproc` leaves a fresh table with the trampoline and the trapframe mapped. -/
theorem fresh_allocproc {unused : Bool} {t : Space} (hd : s₀.free.Nodup) (hsmall : ∀ p ∈ s₀.free, p < 2 ^ 52)
    (hrun : allocproc img unused s₀ = .ok (some t) s) : Fresh s₀ t.trapframe t.pagetable s := by
  rw [allocproc] at hrun
  split at hrun
  · obtain ⟨page, s1, hk, hrest⟩ := bind_eq_ok hrun
    cases page with
    | none => cases hrest
    | some tf =>
      obtain ⟨rest, hfree, hs1⟩ := kalloc_eq_some hk
      obtain ⟨created, s2, hcreate, hrest⟩ := bind_eq_ok hrest
      cases created with
      | none =>
        obtain ⟨_, u, -, hfin⟩ := bind_eq_ok hrest
        cases hfin
      | some pagetable =>
        cases hrest
        rw [procPagetable] at hcreate
        obtain ⟨root, s3, huvm, hcreate⟩ := bind_eq_ok hcreate
        cases root with
        | none => cases hcreate
        | some root =>
          have hfresh := fresh_uvmcreate hd hfree hs1 huvm
          obtain ⟨s4, htramp, hcreate⟩ := bind_ite_ok hcreate nofun
          have hmap := mappages_one hfresh.tree (hfresh.freeFor hd hsmall) img.trampoline_lt (by decide) htramp
          have hfresh1 := (hfresh.maps hd hmap).1
          obtain ⟨ok, s5, hframe, hcreate⟩ := bind_eq_ok hcreate
          cases ok with
          | false =>
            obtain ⟨_, u, -, hcreate⟩ := bind_eq_ok hcreate
            obtain ⟨_, u', -, hfin⟩ := bind_eq_ok hcreate
            cases hfin
          | true =>
            cases hcreate
            have htf : tf < 2 ^ 52 := hsmall tf hfresh.trapframe.1
            have hmap1 := mappages_one hfresh1.tree (hfresh1.freeFor hd hsmall) htf (by decide) hframe
            exact (hfresh1.maps hd hmap1).1
  · cases hrun

/-- The trapframe page of the thread is none of its table pages and none of its copies. -/
theorem Copied.setTrapframe (h : Copied s₀ old tf new copy n s) (data : Page) :
    Copied s₀ old tf new copy n { s with mem := update s.mem tf data } := by
  have hagree : ∀ p ∈ nodes pteFormat s.mem 2 new, update s.mem tf data p = s.mem p :=
    fun p hp => update_of_ne (h.fresh.table p hp).2.2 _ _
  have hnodes : tablePages (update s.mem tf data) new = tablePages s.mem new :=
    nodes_congr hagree
  refine ⟨⟨fun p hp => ?_, h.fresh.taken, tree_congr hagree h.fresh.tree, ?_, h.fresh.trapframe⟩,
    fun k hk hsome => ?_, h.distinct⟩
  · rw [← h.fresh.frame p hp]
    refine update_of_ne ?_ _ _
    rintro rfl
    exact hp h.fresh.trapframe.1
  · rw [hnodes]
    exact h.fresh.table
  · have hc := h.pages k hk hsome
    refine ⟨fun pte hpte => ?_, hc.fresh, ?_⟩
    · obtain ⟨hent, hdata⟩ := hc.entry pte hpte
      refine ⟨?_, ?_⟩
      · rw [entryAt, lookup_congr hagree]
        exact hent
      · show update s.mem tf data (copy k) = _
        rw [update_of_ne hc.fresh.2.2, hdata]
    · rw [hnodes]
      exact hc.not_table

/-- A new process has a private copy of every page of its parent. -/
theorem spawn_private_copy {unused : Bool} {parent t : Space} {frame : Vm → Space → Page} (hok : SpaceOk s₀ parent)
    (hrun : spawn img unused parent frame s₀ = .ok (some t) s) :
    ∃ copy, Copied s₀ parent.pagetable t.trapframe t.pagetable copy (pageCount parent.sz) s := by
  have hmax : trapframeVa < maxva := by decide
  rw [spawn] at hrun
  obtain ⟨allocated, s1, halloc, hrest⟩ := bind_eq_ok hrun
  cases allocated with
  | none => cases hrest
  | some t' =>
    have hfresh := fresh_allocproc hok.free_distinct hok.free_small halloc
    obtain ⟨s2, hcopy, hrest⟩ := bind_ite_ok hrest nofun
    have hpage : ∀ j pte, j < 0 + pageCount parent.sz →
        entryAt s₀.mem parent.pagetable (j * pgsize) = some pte → pte2page pte ∉ s₀.free := by
      intro j pte hj hpte
      rw [Nat.zero_add] at hj
      have hlt := lt_of_lt_pageCount hj
      have hsize := hok.size
      refine hok.page_used (j * pgsize) pte hlt ?_
      rw [translate_eq (by omega)]
      exact hpte
    have h0 : Copied s₀ parent.pagetable t'.trapframe t'.pagetable (fun _ => 0) 0 s1 :=
      ⟨hfresh, fun k hk => absurd hk (Nat.not_lt_zero k), fun j k hj => absurd hj (Nat.not_lt_zero j)⟩
    rw [uvmcopy, ← pageCount, ← Nat.zero_mul pgsize] at hcopy
    obtain ⟨copy, hcopied⟩ := Copied.run hok.free_distinct hok.free_small hok.table_used _ 0 h0 hpage hcopy
    rw [Nat.zero_add] at hcopied
    cases hrest
    exact ⟨copy, hcopied.setTrapframe _⟩

end Xv6Lab.Memory
