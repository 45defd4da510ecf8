import Xv6Lab.Malloc.FreeList

/-!
# Allocation

What `malloc` does to the free list and the blocks, and that its searches end. The scan of the list starts behind
`freep` and sees every free block before it is back there; `morecore` then adds a block that is large enough, so the
second round ends.
-/

open Function Xv6Lab.Lib.Rings Xv6Lab.Lib.Tiling

namespace Xv6Lab.Malloc

open Finset Malloc Heap

variable {s t : Heap} {live M : Finset Nat} {bp p b : Nat}

/-! ## Taking a block -/

/-- What `malloc` leaves when it has given the block `q` of `nunits` headers to the program. -/
structure Took (s t : Heap) (live : Finset Nat) (q nunits : Nat) (M : Finset Nat) : Prop where
  inv : Inv t (insert q live) M
  freep : ∃ f ∈ M, t.freep = some f
  fresh : q ∉ live
  size : t.size q = nunits
  others : ∀ x ∈ live, t.size x = s.size x
  base : t.base = s.base

theorem Inv.size_lt (h : Inv s live M) (hc : s.Counts) (hb : b ∈ blocks s live M) : s.size b < 2 ^ 32 := by
  have hle := h.tiles.sum ▸ single_le_sum (fun x _ => Nat.zero_le (s.len x)) hb
  rw [Counts, headerSize] at hc
  rw [len, headerSize] at hle
  omega

theorem Inv.take (h : Inv s live M) (hc : s.Counts) {nunits prevp : Nat} (hpos : 0 < nunits) (hprev : prevp ∈ M)
    (hfit : nunits ≤ s.size (s.ptr prevp)) :
    ∃ q t M', take s nunits prevp (s.ptr prevp) = (some (q + headerSize), t) ∧ Took s t live q nunits M' := by
  have hpM := h.ring.mem prevp hprev
  generalize hp : s.ptr prevp = p at hpM hfit
  have hbase : p ≠ s.base := by
    rintro rfl
    rw [h.base_size] at hfit
    omega
  have hblock : p ∈ blocks s live M := mem_blocks.mpr (.inl ⟨hbase, hpM⟩)
  have hlive : p ∉ live := fun hl => (h.mem_live hl).2.1 hpM
  rw [Malloc.take]
  split
  next hexact =>
    refine ⟨p, _, M.erase p, rfl, ?_⟩
    have hptr : ∀ x ≠ prevp, (s.setPtr prevp (s.ptr p)).ptr x = s.ptr x := fun x hx =>
      update_of_ne hx _ _
    -- the list has another node, since `base` is one
    have hne : s.ptr prevp ≠ prevp := by
      intro hself
      have hall := h.ring.step prevp hprev
      rw [hself] at hall
      have hone := hall.resolve_left (fun hs => lt_irrefl _ hs.1) _ h.base
      rw [← hp, hself] at hbase
      exact hbase (le_antisymm hone.1 hone.2)
    have hl : Linked (s.setPtr prevp (s.ptr p)) (insert p live) (M.erase p) := by
      refine ⟨mem_erase.mpr ⟨hbase.symm, h.base⟩, ?_, ?_, fun x hx y hy hlt => ?_⟩
      · have hskip : (s.setPtr prevp (s.ptr p)).ptr prevp = s.ptr (s.ptr prevp) := by
          rw [hp]
          exact update_self ..
        have hring : OrderedRing (s.setPtr prevp (s.ptr p)).ptr (M.erase (s.ptr prevp)) :=
          h.ring.unlink hprev hne (fun q _ hqp _ => hptr q hqp) hskip
        rwa [hp] at hring
      · rw [disjoint_insert_right]
        exact ⟨notMem_erase p M, h.separate.mono_left (erase_subset ..)⟩
      · exact h.apart x (mem_of_mem_erase hx) y (mem_of_mem_erase hy) hlt
    have hinv : Inv (s.setPtr prevp (s.ptr p)) (insert p live) (M.erase p) := by
      refine h.keep ⟨rfl, rfl, rfl⟩ hl ?_ rfl
      ext x
      rw [mem_blocks, mem_blocks, mem_insert, mem_erase]
      rcases eq_or_ne x p with rfl | hx
      · tauto
      · tauto
    refine ⟨hinv.setFreep _, ⟨prevp, mem_erase.mpr ⟨fun heq => hne (hp.trans heq.symm), hprev⟩, rfl⟩, hlive,
      hexact, fun _ _ => rfl, rfl⟩
  next hmore =>
    have hbound := h.size_lt hc hblock
    have hk : (s.setSize p (s.size p - nunits)).size p = s.size p - nunits := setSize_self s p (by omega)
    have hlen : (s.setSize p (s.size p - nunits)).len p = headerSize * (s.size p - nunits) := by
      rw [len, hk]
    generalize hq : p + headerSize * (s.size p - nunits) = q
    refine ⟨q, { (s.setSize p (s.size p - nunits)).setSize q nunits with freep := some prevp }, M, ?_, ?_⟩
    · simp only [hlen, hq]
    have hpq : p < q := by
      have : 0 < headerSize * (s.size p - nunits) := Nat.mul_pos (by decide) (by omega)
      omega
    have hq_in : q < p + s.len p := by
      rw [← hq, len]
      have := Nat.mul_lt_mul_of_pos_left (show s.size p - nunits < s.size p by omega) (show 0 < headerSize by decide)
      omega
    have hq_new : q ∉ blocks s live M := by
      intro hmem
      have := h.tiles.disjoint p hblock q hmem hpq
      omega
    have hqM : q ∉ M := by
      intro hmem
      have := h.low p hblock
      exact hq_new (mem_blocks.mpr (.inl ⟨by omega, hmem⟩))
    have hql : q ∉ live := fun hmem => hq_new (mem_blocks.mpr (.inr hmem))
    set t := (s.setSize p (s.size p - nunits)).setSize q nunits with htdef
    have ht_q : t.size q = nunits := setSize_self _ q (by omega)
    have ht_p : t.size p = s.size p - nunits := (update_of_ne hpq.ne _ _).trans hk
    have ht_off : ∀ x ≠ p, x ≠ q → t.size x = s.size x := fun x hx hx' =>
      (update_of_ne hx' _ _).trans (update_of_ne hx _ _)
    have hl : Linked t (insert q live) M := by
      refine ⟨h.base, h.ring, ?_, fun x hx y hy hlt' => ?_⟩
      · rw [disjoint_insert_right]
        exact ⟨hqM, h.separate⟩
      rcases eq_or_ne x p with rfl | hxp
      · rw [len, ht_p, hq]
        rintro rfl
        exact hqM hy
      · rw [len, ht_off x hxp fun heq => hqM (heq ▸ hx)]
        exact h.apart x hx y hy hlt'
    have hinv : Inv t (insert q live) M := by
      refine h.cut ⟨rfl, rfl, rfl⟩ hl (b := p) (k := s.size p - nunits) ?_ hblock (by omega) (by omega) ht_p ?_ ?_
      · rw [hq, blocks, blocks, union_insert]
        rfl
      · rw [hq, ht_q]
        omega
      · rw [hq]
        exact ht_off
    refine ⟨hinv.setFreep _, ⟨prevp, hprev, rfl⟩, hql, ht_q, fun x hx => ?_, rfl⟩
    exact ht_off x (fun heq => hlive (heq ▸ hx)) fun heq => hql (heq ▸ hx)

theorem grow_total (s : Heap) (hp nu n : Nat) : (s.grow hp nu n).total = n + s.total := by
  simp [total, grow]

/-- New memory above all blocks, held by the program. -/
theorem Inv.grow (h : Inv s live M) {hp nu : Nat} (hpos : 0 < nu) (hlt : nu < 2 ^ 32) (habove : s.brk ≤ hp)
    (haligned : hp % headerSize = 0) : Inv (s.grow hp nu (nu * headerSize)) (insert hp live) M ∧ hp ∉ blocks s live M := by
  generalize ht : s.grow hp nu (nu * headerSize) = t
  have hlow := h.base_low
  have hbase : s.base < hp := by
    rw [headerSize] at hlow
    omega
  have hnew : hp ∉ blocks s live M := by
    intro hmem
    have := h.high hp hmem
    have := h.tiles.pos hp hmem
    omega
  have hM : hp ∉ M := fun hmem => hnew (mem_blocks.mpr (.inl ⟨hbase.ne', hmem⟩))
  have hsize : t.size hp = nu := ht ▸ Heap.setSize_self s hp hlt
  have hoff : ∀ x ≠ hp, t.size x = s.size x := fun x hx => ht ▸ update_of_ne hx _ _
  have hlen : ∀ x ≠ hp, t.len x = s.len x := fun x hx => len_congr (hoff x hx)
  have hlen_new : t.len hp = nu * headerSize := by
    rw [Heap.len, hsize, Nat.mul_comm]
  have hblocks : blocks t (insert hp live) M = insert hp (blocks s live M) := by
    rw [blocks, blocks, Finset.union_insert, ← ht]
    rfl
  have hbrk : t.brk = hp + nu * headerSize := ht ▸ rfl
  have hbase' : t.base = s.base := ht ▸ rfl
  refine ⟨⟨hbase' ▸ h.base, ?_, ?_, ht ▸ h.ring, ?_, ?_, ?_, ?_, fun x hx y hy hxy => ?_, ?_⟩, hnew⟩
  · rw [hbase', hoff _ hbase.ne]
    exact h.base_size
  · rw [hbase', hbrk]
    exact (hlow.trans habove).trans (Nat.le_add_right ..)
  · rw [Finset.disjoint_insert_right]
    exact ⟨hM, h.separate⟩
  · rw [hblocks, hbase']
    exact Finset.forall_mem_insert _ _ _ |>.mpr ⟨hbase, h.low⟩
  · rw [hblocks, hbrk]
    refine Finset.forall_mem_insert _ _ _ |>.mpr ⟨by rw [hlen_new], fun x hx => ?_⟩
    rw [hlen x fun heq => hnew (heq ▸ hx)]
    exact ((h.high x hx).trans habove).trans (Nat.le_add_right ..)
  · rw [hblocks]
    exact Finset.forall_mem_insert _ _ _ |>.mpr ⟨haligned, h.aligned⟩
  · rw [hlen x fun heq => hM (heq ▸ hx)]
    exact h.apart x hx y hy hxy
  · rw [hblocks]
    have htiles := h.tiles.add (b := hp) (Nat.mul_pos hpos (show 0 < headerSize by decide))
      (fun x hx => (h.high x hx).trans habove) hlen_new fun x hx => hlen x fun heq => hnew (heq ▸ hx)
    have hobtained : t.Obtained = fun x => (hp ≤ x ∧ x < hp + nu * headerSize) ∨ s.Obtained x := by
      funext x
      simp [Heap.Obtained, Heap.grow, ← ht]
    rw [hobtained, ← ht, grow_total]
    exact ht ▸ htiles

/-! ## Getting memory -/

theorem coreUnits_pos (nu : Nat) : 0 < coreUnits nu := by
  rw [coreUnits]
  split <;> omega

theorem le_coreUnits (nu : Nat) : nu ≤ coreUnits nu := by
  rw [coreUnits]
  split <;> omega

theorem coreUnits_lt {nu : Nat} (h : nu < 2 ^ 32) : coreUnits nu < 2 ^ 32 := by
  rw [coreUnits]
  split <;> omega

theorem coreUnits_small {nu : Nat} (h : nu * headerSize < 2 ^ 31) : coreUnits nu * headerSize < 2 ^ 31 := by
  rw [coreUnits]
  split
  · decide
  · exact h

theorem sbrkArg_of_lt {nu : Nat} (h : nu * headerSize < 2 ^ 31) : sbrkArg nu = (nu * headerSize : Nat) := by
  have hlt : nu * headerSize < 2 ^ 32 := h.trans (by decide)
  simp only [sbrkArg, Nat.mod_eq_of_lt hlt, if_pos h]

/-- What `morecore` leaves when it has got memory. -/
structure Grown (s t : Heap) (live : Finset Nat) (f : Nat) (M : Finset Nat) : Prop where
  inv : Inv t live M
  mem : f ∈ M
  freep : t.freep = some f
  others : ∀ x ∈ live, t.size x = s.size x
  base : t.base = s.base

section Search

variable {bound fuel nunits prevp f : Nat} {sbrk : Sbrk} {r : Option Nat}

theorem Inv.morecore (h : Inv s live M) (hf : ∃ f ∈ M, s.freep = some f) (hn : nunits * headerSize < 2 ^ 31)
    (hc : t.Counts) (hr : morecore bound nunits sbrk s = some (r, t)) :
    (r = none ∧ t = s) ∨ ∃ f M', r = some f ∧ Grown s t live f M' := by
  have hlt : nunits < 2 ^ 32 := by
    rw [headerSize] at hn
    omega
  simp only [Malloc.morecore, sbrkArg_of_lt (coreUnits_small hn), Int.toNat_natCast] at hr
  split at hr
  · cases hr
    exact .inl ⟨rfl, rfl⟩
  next hp hsbrk =>
  obtain ⟨u, hu, heq⟩ := Option.map_eq_some_iff.mp hr
  cases heq
  have hcount : (s.grow hp (coreUnits nunits) (coreUnits nunits * headerSize)).Counts := by
    rw [Counts, ← (free_frame hu).total]
    exact hc
  obtain ⟨hinv, hnew⟩ := h.grow (coreUnits_pos nunits) (coreUnits_lt hlt) (sbrk.above _ _ _ hsbrk)
    (sbrk.aligned _ _ _ hsbrk)
  have hnew : hp ∉ live := fun hmem => hnew (mem_blocks.mpr (.inr hmem))
  obtain ⟨M', hfreed⟩ := hinv.free hcount (mem_insert_self ..) hf hu
  obtain ⟨f, hfM, hfreep⟩ := hfreed.freep
  have hlive : (insert hp live).erase hp = live := erase_insert hnew
  refine .inr ⟨f, M', hfreep, hlive ▸ hfreed.inv, hfM, hfreep, fun x hx => ?_, (free_frame hu).base⟩
  have hx' : x ≠ hp := fun heq => hnew (heq ▸ hx)
  exact (hfreed.others x (mem_insert_of_mem hx) hx').trans (update_of_ne hx' _ _)

theorem morecore_total (hr : morecore bound nunits sbrk s = some (r, t)) : s.total ≤ t.total := by
  rw [morecore] at hr
  split at hr
  · cases hr
    exact le_rfl
  next hp _ =>
  obtain ⟨u, hu, heq⟩ := Option.map_eq_some_iff.mp hr
  cases heq
  rw [(free_frame hu).total, grow_total]
  exact Nat.le_add_left ..

/-! ## The search of `malloc` -/

theorem take_chunks (s : Heap) (nunits prevp p : Nat) : (take s nunits prevp p).2.chunks = s.chunks := by
  rw [take]
  split <;> rfl

/-- `malloc` takes the upper end of a block. -/
theorem take_fst (prevp : Nat) (hfit : nunits ≤ s.size p) (hlt : s.size p < 2 ^ 32) :
    (take s nunits prevp p).1 = some (p + headerSize * (s.size p - nunits) + headerSize) := by
  rw [take]
  split
  next heq => rw [heq, Nat.sub_self, Nat.mul_zero, Nat.add_zero]
  · have hk : (s.setSize p (s.size p - nunits)).size p = s.size p - nunits := setSize_self s p (by omega)
    simp only [len, hk]

theorem mallocSearch_total (hr : mallocSearch bound nunits sbrk fuel prevp p s = some (r, t)) : s.total ≤ t.total := by
  induction fuel generalizing prevp p s with
  | zero => cases hr
  | succ fuel ih =>
    rw [mallocSearch] at hr
    split at hr
    · have hchunks := take_chunks s nunits prevp p
      rw [Option.some.inj hr] at hchunks
      rw [total, total, hchunks]
    split at hr
    · split at hr
      · cases hr
      next u hu =>
        cases hr
        exact morecore_total hu
      next q u hu => exact (morecore_total hu).trans (ih hr)
    · exact ih hr

/-- What `malloc` leaves, with or without a block. -/
inductive Answer (s t : Heap) (live : Finset Nat) (nunits : Nat) : Option Nat → Prop
  | null {M : Finset Nat} : Inv t live M → (∃ f ∈ M, t.freep = some f) → Answer s t live nunits none
  | block {q : Nat} {M : Finset Nat} : Took s t live q nunits M → Answer s t live nunits (some (q + headerSize))

/-- Blocks of the program that keep their sizes in between. -/
theorem Answer.of_same {u : Heap} (h : Answer u t live nunits r) (hsize : ∀ x ∈ live, u.size x = s.size x)
    (hbase : u.base = s.base) : Answer s t live nunits r := by
  cases h with
  | null hinv hf => exact .null hinv hf
  | block hq =>
    exact .block ⟨hq.inv, hq.freep, hq.fresh, hq.size, fun x hx => (hq.others x hx).trans (hsize x hx),
      hq.base.trans hbase⟩

theorem Inv.mallocSearch (h : Inv s live M) (hf : ∃ f ∈ M, s.freep = some f) (hpos : 0 < nunits)
    (hn : nunits * headerSize < 2 ^ 31) (hprev : prevp ∈ M) (hc : t.Counts)
    (hr : mallocSearch bound nunits sbrk fuel prevp (s.ptr prevp) s = some (r, t)) : Answer s t live nunits r := by
  induction fuel generalizing prevp s M with
  | zero => cases hr
  | succ fuel ih =>
    have hcs : s.Counts := lt_of_le_of_lt (mallocSearch_total hr) hc
    rw [mallocSearch] at hr
    split at hr
    next hfit =>
      obtain ⟨q, u, M', htake, htook⟩ := h.take hcs hpos hprev hfit
      rw [htake] at hr
      cases hr
      exact .block htook
    · split at hr
      · split at hr
        · cases hr
        next u hu =>
          cases hr
          rcases h.morecore hf hn hc hu with ⟨-, rfl⟩ | ⟨f, M', hnone, -⟩
          · exact .null h hf
          · cases hnone
        next q u hu =>
          have hcu : u.Counts := lt_of_le_of_lt (mallocSearch_total hr) hc
          rcases h.morecore hf hn hcu hu with ⟨hsome, -⟩ | ⟨f, M', hsome, hg⟩
          · cases hsome
          · cases hsome
            exact (ih hg.inv ⟨q, hg.mem, hg.freep⟩ hg.mem hr).of_same hg.others hg.base
      · exact ih h hf (h.ring.mem prevp hprev) hr

/-! ## What a call does -/

/-- The search passes over blocks that are too small, up to `freep`. -/
theorem mallocSearch_skip (hring : OrderedRing s.ptr M) (sbrk : Sbrk) (hprev : prevp ∈ M) {k : Nat}
    (hmiss : ∀ i < k, s.size (s.ptr^[i] (s.ptr prevp)) < nunits ∧ s.freep ≠ some (s.ptr^[i] (s.ptr prevp))) :
    ∃ q ∈ M, s.ptr q = s.ptr^[k] (s.ptr prevp) ∧ ∀ bound fuel,
      mallocSearch bound nunits sbrk (fuel + k) prevp (s.ptr prevp) s =
        mallocSearch bound nunits sbrk fuel q (s.ptr q) s := by
  induction k generalizing prevp with
  | zero => exact ⟨prevp, hprev, rfl, fun _ _ => rfl⟩
  | succ k ih =>
    have hsmall : ¬ s.size (s.ptr prevp) ≥ nunits := Nat.not_le.mpr (hmiss 0 (Nat.succ_pos k)).1
    have hne : s.freep ≠ some (s.ptr prevp) := (hmiss 0 (Nat.succ_pos k)).2
    obtain ⟨q, hqM, hq, hrun⟩ := ih (hring.mem prevp hprev) fun i hi => hmiss (i + 1) (Nat.succ_lt_succ hi)
    refine ⟨q, hqM, hq, fun bound fuel => ?_⟩
    rw [← Nat.add_assoc, mallocSearch, if_neg hsmall, if_neg hne]
    exact hrun bound fuel

/-- One round from `freep`: the search takes a block, or has seen that none of the list fits and is back. -/
theorem round (hring : OrderedRing s.ptr M) (hfM : f ∈ M) (hf : s.freep = some f) (nunits : Nat) (sbrk : Sbrk) :
    (∃ q ∈ M, nunits ≤ s.size (s.ptr q) ∧ ∃ n, ∀ bound fuel, n ≤ fuel →
      mallocSearch bound nunits sbrk fuel f (s.ptr f) s = some (take s nunits q (s.ptr q))) ∨
    ((∀ b ∈ M, s.size b < nunits) ∧ ∃ k q, ∀ bound fuel,
      mallocSearch bound nunits sbrk (fuel + k) f (s.ptr f) s = mallocSearch bound nunits sbrk fuel q f s) := by
  classical
  have hback : ∃ k, s.ptr^[k] (s.ptr f) = f := hring.reaches (hring.mem f hfM) hfM
  have hpass : ∀ i < Nat.find hback, s.freep ≠ some (s.ptr^[i] (s.ptr f)) := by
    intro i hi heq
    rw [hf, Option.some.injEq] at heq
    exact Nat.find_min hback hi heq.symm
  by_cases hfit : ∃ j ≤ Nat.find hback, nunits ≤ s.size (s.ptr^[j] (s.ptr f))
  · refine .inl ?_
    obtain ⟨hle, hsize⟩ := Nat.find_spec hfit
    have hmiss : ∀ i < Nat.find hfit, s.size (s.ptr^[i] (s.ptr f)) < nunits := by
      intro i hi
      have hle' : i ≤ Nat.find hback := (hi.trans_le hle).le
      exact Nat.lt_of_not_le fun hge => Nat.find_min hfit hi ⟨hle', hge⟩
    obtain ⟨q, hqM, hq, hrun⟩ := mallocSearch_skip hring sbrk hfM fun i hi => ⟨hmiss i hi, hpass i (hi.trans_le hle)⟩
    rw [← hq] at hsize
    refine ⟨q, hqM, hsize, Nat.find hfit + 1, fun bound fuel hfuel => ?_⟩
    obtain ⟨fuel, rfl⟩ := Nat.exists_eq_add_of_le' hfuel
    rw [show fuel + (Nat.find hfit + 1) = fuel + 1 + Nat.find hfit by omega, hrun, mallocSearch, if_pos hsize]
  · have hmiss : ∀ j ≤ Nat.find hback, s.size (s.ptr^[j] (s.ptr f)) < nunits := fun j hj =>
      Nat.lt_of_not_le fun hge => hfit ⟨j, hj, hge⟩
    refine .inr ⟨fun b hb => ?_, Nat.find hback, ?_⟩
    · obtain ⟨j, hj, rfl⟩ := hring.visits hfM hb (Nat.find_spec hback)
      exact hmiss j hj
    · obtain ⟨q, -, hq, hrun⟩ := mallocSearch_skip hring sbrk hfM fun i hi => ⟨hmiss i hi.le, hpass i hi⟩
      rw [hq, Nat.find_spec hback] at hrun
      exact ⟨q, hrun⟩

/-- The same headers with other memory from `sbrk`. -/
def Heap.setMemory (s : Heap) (brk : Nat) (chunks : List (Nat × Nat)) : Heap := { s with brk := brk, chunks := chunks }

/-- `free` looks at the headers only. -/
theorem free_setMemory (s : Heap) (fuel ap brk : Nat) (chunks : List (Nat × Nat)) :
    free fuel ap (s.setMemory brk chunks) = (free fuel ap s).map fun t => t.setMemory brk chunks := by
  have hsearch : ∀ bp p, freeSearch (s.setMemory brk chunks) bp fuel p = freeSearch s bp fuel p := by
    intro bp
    induction fuel with
    | zero => exact fun p => rfl
    | succ fuel ih =>
      intro p
      simp only [freeSearch, ih]
      rfl
  have hupper : ∀ bp p, joinUpper (s.setMemory brk chunks) bp p = (joinUpper s bp p).setMemory brk chunks := by
    intro bp p
    rw [joinUpper, joinUpper, apply_ite fun u : Heap => u.setMemory brk chunks]
    rfl
  have hlower : ∀ (s : Heap) bp p, joinLower (s.setMemory brk chunks) bp p =
      (joinLower s bp p).setMemory brk chunks := by
    intro s bp p
    rw [joinLower, joinLower, apply_ite fun u : Heap => u.setMemory brk chunks]
    rfl
  have hfreep : (s.setMemory brk chunks).freep = s.freep := rfl
  rw [free, free, hfreep]
  split
  · rfl
  · simp only [hsearch, hupper, hlower, Option.map_map]
    rfl

/-- What a call of `malloc` does with the free list `M`: it takes a block that fits, gets no memory, or takes the
upper end of the block that `morecore` has made. -/
inductive Outcome (s : Heap) (M : Finset Nat) (nunits : Nat) (sbrk : Sbrk) : Option Nat × Heap → Prop
  | fits {q : Nat} : q ∈ M → nunits ≤ s.size (s.ptr q) → Outcome s M nunits sbrk (take s nunits q (s.ptr q))
  | null : (∀ b ∈ M, s.size b < nunits) → sbrk.result s.brk (sbrkArg (coreUnits nunits)) = none →
    Outcome s M nunits sbrk (none, s)
  | grown {hp : Nat} {r : Option Nat × Heap} : (∀ b ∈ M, s.size b < nunits) →
    sbrk.result s.brk (sbrkArg (coreUnits nunits)) = some hp →
    r.1 = some (hp + headerSize * (coreUnits nunits - nunits) + headerSize) →
    r.2.chunks = (hp, (sbrkArg (coreUnits nunits)).toNat) :: s.chunks → Outcome s M nunits sbrk r

/-- The block that `morecore` has made is the only one that fits, and it ends where the list ends. -/
theorem Inv.only_fit (h : Inv s live M) {hp nu : Nat} (hpos : 0 < nunits) (hlt : nu < 2 ^ 32) (habove : s.brk ≤ hp)
    (hsmall : ∀ b ∈ M, s.size b < nunits) (hnew : hp ∉ blocks s live M) {t : Heap} {M' : Finset Nat}
    (hfreed : Freed (s.grow hp nu (nu * headerSize)) t (insert hp live) hp M M')
    (hframe : Frame (s.grow hp nu (nu * headerSize)) t) (hc : t.Counts) {p : Nat} (hpM : p ∈ M')
    (hfit : nunits ≤ t.size p) : p + t.len p = hp + nu * headerSize ∧ t.size p < 2 ^ 32 := by
  obtain ⟨b, hb⟩ := hfreed.kept
  have hhp : (s.grow hp nu (nu * headerSize)).len hp = nu * headerSize := by
    rw [len, show (s.grow hp nu (nu * headerSize)).size hp = nu from setSize_self s hp hlt, Nat.mul_comm]
  have hpb : p = b := by
    by_contra hne
    obtain ⟨hold, hsize⟩ := hb.others p hpM hne
    have hp' : p ≠ hp := by
      rintro rfl
      have hbase : p ≠ s.base := by
        have := h.base_low
        rw [headerSize] at this
        omega
      exact hnew (mem_blocks.mpr (.inl ⟨hbase, hold⟩))
    have hkept : (s.grow hp nu (nu * headerSize)).size p = s.size p := update_of_ne hp' _ _
    have := hsmall p hold
    omega
  have hbase : p ≠ t.base := by
    rintro rfl
    rw [hfreed.inv.base_size] at hfit
    omega
  have hblock : p ∈ blocks t ((insert hp live).erase hp) M' := mem_blocks.mpr (.inl ⟨hbase, hpM⟩)
  have hhigh := hfreed.inv.high p hblock
  have hbrk : t.brk = hp + nu * headerSize := hframe.brk
  have hup := hb.up
  rw [hhp, ← hpb] at hup
  exact ⟨by omega, hfreed.inv.size_lt hc hblock⟩

theorem Inv.mallocSearch_outcome (h : Inv s live M) (hfM : f ∈ M) (hf : s.freep = some f) (hpos : 0 < nunits)
    (hn : nunits < 2 ^ 32) (hroom : s.total + coreUnits nunits * headerSize < headerSize * 2 ^ 32) (sbrk : Sbrk) :
    ∃ r, Outcome s M nunits sbrk r ∧
      ∃ n, ∀ fuel, n ≤ fuel → Malloc.mallocSearch fuel nunits sbrk fuel f (s.ptr f) s = some r := by
  rcases round h.ring hfM hf nunits sbrk with ⟨q, hq, hfit, n, hr⟩ | ⟨hsmall, k, q, hskip⟩
  · exact ⟨_, .fits hq hfit, n, fun fuel hfuel => hr fuel fuel hfuel⟩
  -- the search is back at `freep` and asks for memory
  have hfull : ¬ s.size f ≥ nunits := Nat.not_le.mpr (hsmall f hfM)
  cases hsbrk : sbrk.result s.brk (sbrkArg (coreUnits nunits)) with
  | none =>
    refine ⟨_, .null hsmall hsbrk, k + 1, fun fuel hfuel => ?_⟩
    obtain ⟨extra, rfl⟩ := Nat.exists_eq_add_of_le' hfuel
    have hnone : ∀ bound, Malloc.morecore bound nunits sbrk s = some (none, s) := by
      intro bound
      simp only [Malloc.morecore, hsbrk]
    rw [show extra + (k + 1) = extra + 1 + k by omega, hskip, Malloc.mallocSearch, if_neg hfull, if_pos hf, hnone]
  | some hp =>
    -- the headers are those of a heap that got all the memory recorded
    have habove := sbrk.above _ _ _ hsbrk
    have hlt := coreUnits_lt hn
    obtain ⟨hinv, hnew⟩ := h.grow (coreUnits_pos nunits) hlt habove (sbrk.aligned _ _ _ hsbrk)
    obtain ⟨t, n, hfree⟩ := hinv.free_returns (mem_insert_self ..) ⟨f, hfM, hf⟩
    have hframe := free_frame (hfree n le_rfl)
    have hcount : (s.grow hp (coreUnits nunits) (coreUnits nunits * headerSize)).Counts := by
      rw [Counts, grow_total]
      omega
    obtain ⟨M', hfreed⟩ := hinv.free hcount (mem_insert_self ..) ⟨f, hfM, hf⟩ (hfree n le_rfl)
    obtain ⟨f', hfM', hf'⟩ := hfreed.freep
    generalize hgot : (sbrkArg (coreUnits nunits)).toNat = got
    have hcore : ∀ bound, n ≤ bound → Malloc.morecore bound nunits sbrk s =
        some (some f', t.setMemory (hp + got) ((hp, got) :: s.chunks)) := by
      intro bound hbound
      have hset : s.grow hp (coreUnits nunits) got =
          (s.grow hp (coreUnits nunits) (coreUnits nunits * headerSize)).setMemory
          (hp + got) ((hp, got) :: s.chunks) := rfl
      simp only [Malloc.morecore, hsbrk, hgot]
      rw [hset, free_setMemory, hfree bound hbound]
      exact congrArg (fun o => some (o, _)) hf'
    -- in the second round the new block fits
    rcases round (s := t.setMemory (hp + got) ((hp, got) :: s.chunks)) hfreed.inv.ring hfM' hf' nunits sbrk with
      ⟨q', hq', hfit, n', hr⟩ | ⟨hsmall', -⟩
    · have hc : t.Counts := by
        rw [Counts, hframe.total]
        exact hcount
      obtain ⟨hend, hlt'⟩ := h.only_fit hpos hlt habove hsmall hnew hfreed hframe hc (hfreed.inv.ring.mem q' hq') hfit
      have hret : t.ptr q' + headerSize * (t.size (t.ptr q') - nunits) =
          hp + headerSize * (coreUnits nunits - nunits) := by
        have := le_coreUnits nunits
        have hfit : nunits ≤ t.size (t.ptr q') := hfit
        rw [len, headerSize] at hend
        rw [headerSize]
        omega
      refine ⟨_, .grown hsmall hsbrk ((take_fst q' hfit hlt').trans (hret ▸ rfl)) (hgot ▸ take_chunks ..),
        n + n' + k + 1, fun fuel hfuel => ?_⟩
      obtain ⟨extra, rfl⟩ := Nat.exists_eq_add_of_le' hfuel
      rw [show extra + (n + n' + k + 1) = extra + n + n' + 1 + k by omega, hskip, Malloc.mallocSearch, if_neg hfull,
        if_pos hf, hcore _ (by omega)]
      exact hr _ _ (by omega)
    · obtain ⟨b, hb⟩ := hfreed.kept
      have := hb.le
      have hsize : (s.grow hp (coreUnits nunits) (coreUnits nunits * headerSize)).size hp = coreUnits nunits :=
        setSize_self s hp hlt
      have hup := hb.up
      rw [len, len, hsize, headerSize] at hup
      have : t.size b < nunits := hsmall' b hb.mem
      have := le_coreUnits nunits
      omega

end Search

end Xv6Lab.Malloc
