import Xv6Lab.Malloc.Programs

/-!
# Requests of any size

`morecore` computes the bytes it needs in 64 bits and passes them to `sbrk`, whose parameter is an `int`. From
`2 ^ 31` bytes on the `int` is another number, and `sbrk` gives at most one header (`sbrkArg_le_header`). After a
program whose requests were small, a call of `malloc` gives only memory from `sbrk` exactly if its request is small
too, a free block is large enough, or `sbrk` fails (`malloc_backed_iff`).
-/

open Xv6Lab.Lib.Transition

namespace Xv6Lab.Malloc

open Finset

variable {s t : Heap} {live M : Finset Nat} {sbrk : Sbrk} {nbytes : Nat}

/-- The memory that a call of `malloc` gives comes from `sbrk`, and `sbrk` has supplied what `morecore` records. -/
def Backed (s : Heap) (nbytes : Nat) (r : Option Nat × Heap) : Prop :=
  (∀ ap ∈ r.1, ∀ x, ap ≤ x → x < ap + nbytes → r.2.Obtained x) ∧
    ∀ c ∈ r.2.chunks, c ∈ s.chunks ∨ coreUnits (unitsFor nbytes) * headerSize ≤ c.2

theorem unitsFor_lt (h : nbytes < 2 ^ 32) : unitsFor nbytes < 2 ^ 32 := by
  rw [unitsFor, headerSize]
  omega

/-- A request that does not fit the `int`: the number is negative, 0 or one header. -/
theorem sbrkArg_le_header (hn : nbytes < 2 ^ 32) (h : ¬ Small nbytes) :
    (sbrkArg (coreUnits (unitsFor nbytes))).toNat ≤ headerSize ∧ coreUnits (unitsFor nbytes) = unitsFor nbytes := by
  have hle : unitsFor nbytes ≤ 2 ^ 28 + 1 := by
    rw [unitsFor, headerSize]
    omega
  rw [Small, headerSize] at h
  have hcore : coreUnits (unitsFor nbytes) = unitsFor nbytes := if_neg (by omega)
  refine ⟨?_, hcore⟩
  simp only [hcore, sbrkArg, headerSize]
  split <;> omega

/-- Memory from `sbrk` lies below `brk`. -/
theorem Inv.lt_brk (h : Inv s live M) {x : Nat} (hx : s.Obtained x) : x < s.brk := by
  obtain ⟨b, hb, -, hlt⟩ := (h.tiles.cover x).mp hx
  exact hlt.trans_le (h.high b hb)

theorem Took.backed {q : Nat} (h : Took s t live q (unitsFor nbytes) M) {x : Nat} (hx : q + headerSize ≤ x)
    (hlt : x < q + headerSize + nbytes) : t.Obtained x := by
  have hmem : q ∈ blocks t (insert q live) M := mem_blocks.mpr (.inr (mem_insert_self ..))
  refine (h.inv.tiles.cover x).mpr ⟨q, hmem, by omega, ?_⟩
  have hle := le_unitsFor nbytes
  rw [Heap.len, h.size]
  omega

/-- Each way a call can go, and the memory it gives. -/
theorem Outcome.backed_iff (h : Inv s live M) (hc : s.Counts) (hn : nbytes < 2 ^ 32) {r : Option Nat × Heap}
    (hr : Outcome s M (unitsFor nbytes) sbrk r) :
    Backed s nbytes r ↔ Small nbytes ∨ (∃ b ∈ M, unitsFor nbytes ≤ s.size b) ∨
      sbrk.result s.brk (sbrkArg (coreUnits (unitsFor nbytes))) = none := by
  cases hr with
  | @fits q hq hfit =>
    refine iff_of_true ⟨?_, fun c hc => ?_⟩ (.inr (.inl ⟨_, h.ring.mem q hq, hfit⟩))
    · obtain ⟨b, t, M', htake, htook⟩ := h.take hc (unitsFor_pos nbytes) hq hfit
      rw [htake]
      rintro _ ⟨⟩ x hx hlt
      exact htook.backed hx hlt
    · rw [take_chunks] at hc
      exact .inl hc
  | null hsmall hnone => exact iff_of_true ⟨nofun, fun c hc => .inl hc⟩ (.inr (.inr hnone))
  | @grown hp r hsmall hsome hret hchunks =>
    by_cases hfit : Small nbytes
    · have hgot : (sbrkArg (coreUnits (unitsFor nbytes))).toNat = coreUnits (unitsFor nbytes) * headerSize := by
        rw [sbrkArg_of_lt (coreUnits_small hfit), Int.toNat_natCast]
      rw [hgot] at hchunks
      refine iff_of_true ⟨fun ap hap x hx hlt => ?_, ?_⟩ (.inl hfit)
      · cases hret.symm.trans hap
        have hle := le_unitsFor nbytes
        have := le_coreUnits (unitsFor nbytes)
        rw [headerSize] at hle hx hlt
        refine ⟨(hp, coreUnits (unitsFor nbytes) * headerSize), hchunks ▸ List.mem_cons_self, ?_⟩
        simp only [headerSize]
        omega
      · rw [hchunks]
        exact List.forall_mem_cons.mpr ⟨.inr le_rfl, fun c hc => .inl hc⟩
    · refine iff_of_false (fun hback => ?_) ?_
      · -- the block starts where `sbrk` has given at most its header
        obtain ⟨hgot, hcore⟩ := sbrkArg_le_header hn hfit
        have hpos : 0 < nbytes := Nat.pos_of_ne_zero fun hzero => hfit (hzero ▸ by decide)
        obtain ⟨c, hc, hle, hlt⟩ := hback.1 _ hret _ le_rfl (Nat.lt_add_of_pos_right hpos)
        rw [hcore, Nat.sub_self, Nat.mul_zero, Nat.add_zero] at hle hlt
        rw [hchunks] at hc
        rcases List.mem_cons.mp hc with rfl | hold
        · exact absurd hlt (Nat.not_lt.mpr (Nat.add_le_add_left hgot hp))
        · have := h.lt_brk ⟨c, hold, hle, hlt⟩
          have := sbrk.above _ _ _ hsome
          omega
      · rintro (hyes | ⟨b, hb, hle⟩ | hnone)
        · exact hfit hyes
        · exact absurd hle (Nat.not_le.mpr (hsmall b hb))
        · rw [hsome] at hnone
          cases hnone

/-- In every state of a program whose requests were small, as long as the size field can count the memory from `sbrk`
together with the request, `malloc` returns for a request of any size, and its memory comes from `sbrk` exactly if
the request is small, a free block is large enough, or `sbrk` fails. -/
theorem malloc_backed_iff {s : State} (hs : Reachable Init next noGuard s) (hn : nbytes < 2 ^ 32)
    (hroom : s.heap.total + coreUnits (unitsFor nbytes) * headerSize < headerSize * 2 ^ 32) (sbrk : Sbrk) :
    ∃ r n, (∀ fuel, n ≤ fuel → malloc fuel nbytes sbrk s.heap = some r) ∧
      (Backed s.heap nbytes r ↔ Small nbytes ∨ s.heap.Fits (unitsFor nbytes) ∨
        sbrk.result s.heap.brk (sbrkArg (coreUnits (unitsFor nbytes))) = none) := by
  have hc : s.heap.Counts := (Nat.le_add_right ..).trans_lt hroom
  obtain ⟨r, M, hinv, hout, hfits, n, hr⟩ :=
    (State.Good.of_reachable hs hc).malloc_outcome (unitsFor_lt hn) hroom sbrk
  -- the first call also sets up `base`, which takes nothing from `sbrk`
  have hframe := s.heap.init_frame
  rw [Heap.Counts, ← hframe.total] at hc
  have hiff := hout.backed_iff hinv hc hn
  rw [← hfits, hframe.brk, Backed, hframe.chunks] at hiff
  exact ⟨r, n, hr, hiff⟩

theorem malloc_backed_hundred : ∃ r n, (∀ fuel, n ≤ fuel → malloc fuel 100 contiguous emptyHeap.heap = some r) ∧
    Backed emptyHeap.heap 100 r := by
  obtain ⟨r, n, hr, hiff⟩ := @malloc_backed_iff 100 emptyHeap (.start init_emptyHeap) (by decide) (by decide) contiguous
  exact ⟨r, n, hr, hiff.mpr (.inl (by decide))⟩

/-- The largest request in a fresh program: `sbrk` is asked for 16 bytes, and `malloc` gives memory behind them. -/
theorem malloc_unbacked : ∃ ap t, malloc 5 (2 ^ 32 - 1) contiguous emptyHeap.heap = some (some ap, t) ∧
    ¬ t.Obtained ap := by
  have hrun : (malloc 5 (2 ^ 32 - 1) contiguous emptyHeap.heap).map (fun r => (r.1, r.2.chunks)) =
      some (some (8192 + headerSize), [(8192, headerSize)]) := by decide +kernel
  obtain ⟨⟨r, t⟩, hr, hres⟩ := Option.map_eq_some_iff.mp hrun
  obtain ⟨rfl, hchunks⟩ := Prod.mk.inj hres
  refine ⟨_, t, hr, ?_⟩
  dsimp only at hchunks
  simp [Heap.Obtained, hchunks]

end Xv6Lab.Malloc
