import Mathlib.Data.List.Nodup
import Xv6Lab.Logging.Model

/-!
# Commit and recovery under crashes

`view m d` is the contents `bread` returns for every block: the cached buffer, or the disk. Each
program of the log is given its exact write list over this view.
-/

namespace Xv6Lab.Logging

open Function Lib.Words List
open Lib.CrashDisk

/-- The contents `bread` returns for block `b`. -/
def view (m : Mem) (d : Nat → Block) (b : Nat) : Block := (m.cache b).getD (d b)

/-- Memories with the same log and pins. -/
def SameLog (m m' : Mem) : Prop := m'.log = m.log ∧ m'.pins = m.pins

section Buffers

variable {d : Nat → Block} {m : Mem}

open Emits

theorem emits_bread (b : Nat) :
    ∃ m', Emits (bread b) d m [] (view m d b) m' ∧ SameLog m m' ∧ view m' d = view m d := by
  cases hb : m.cache b with
  | some data =>
    refine ⟨m, ?_, ⟨rfl, rfl⟩, rfl⟩
    have hv : view m d b = data := by simp [view, hb]
    rw [hv]
    refine bindRead getMem ?_
    simp only [hb]
    exact pure data
  | none =>
    have hv : view m d b = d b := by simp [view, hb]
    rw [hv]
    refine ⟨{ m with cache := update m.cache b (some (d b)) }, ?_, ⟨rfl, rfl⟩, ?_⟩
    · refine bindRead getMem ?_
      simp only [hb]
      refine bindRead (devRead b) ?_
      exact bindRead (modifyMem _) (pure (d b))
    · funext c
      rcases eq_or_ne c b with rfl | hc
      · simp [view, hb]
      · simp [view, hc]

theorem emits_bwrite (b : Nat) (data : Block) :
    ∃ m', Emits (bwrite b data) d m [(b, data)] () m' ∧ SameLog m m' ∧
      view m' (applyWrites d [(b, data)]) = applyWrites (view m d) [(b, data)] := by
  refine ⟨{ m with cache := update m.cache b (some data) }, ?_, ⟨rfl, rfl⟩, ?_⟩
  · exact bindRead (modifyMem _) (devWrite b data)
  funext c
  rcases eq_or_ne c b with rfl | hc
  · simp [view, applyWrites]
  · simp [view, applyWrites, hc]

theorem emits_lhBlock {i : Nat} (hi : i < logBlocks) : Emits (lhBlock i) d m [] (m.log.lh.block i) m := by
  refine bindRead getMem ?_
  rw [if_pos hi]
  exact pure _

/-- `bunpin` in the commit path, nothing in the recovery path. -/
theorem emits_unpinInstalled (recovering : Bool) (home : Nat) :
    ∃ m', Emits (unpinInstalled recovering home) d m [] () m' ∧ m'.log = m.log ∧
      (∀ b, m'.pins b = m.pins b - if recovering then 0 else if home = b then 1 else 0) ∧
      ∀ e, view m' e = view m e := by
  cases recovering with
  | true => exact ⟨m, pure (), rfl, by simp, fun _ => rfl⟩
  | false =>
    have hpin : Emits (bunpin home) d m [] () { m with pins := update m.pins home (m.pins home - 1) } := modifyMem _
    refine ⟨_, hpin, rfl, fun b => ?_, fun _ => rfl⟩
    rcases eq_or_ne b home with rfl | hb
    · simp
    · simp [update_of_ne hb, Ne.symm hb]

end Buffers

/-! ## The loops -/

section Loops

/-- The writes of `write_log` from index `i` on: log slot `j` gets the buffer of the home block. -/
def logWrites (start : Nat) (block : Nat → Nat) (v : Nat → Block) (i k : Nat) : List (Nat × Block) :=
  (range' i k).map fun j => (start + j + 1, v (block j))

/-- The writes of `install_trans` from index `i` on: the home block gets the contents of slot `j`. -/
def homeWrites (start : Nat) (block : Nat → Nat) (v : Nat → Block) (i k : Nat) : List (Nat × Block) :=
  (range' i k).map fun j => (block j, v (start + j + 1))

/-- The home blocks with indices in `[i, i + k)` lie outside the log area. -/
def HomesOutside (start : Nat) (block : Nat → Nat) (i k : Nat) : Prop :=
  ∀ j, i ≤ j → j < i + k → ¬ InLogArea start (block j)

variable {start k : Nat} {block : Nat → Nat}

theorem HomesOutside.tail {i : Nat} (h : HomesOutside start block i (k + 1)) : HomesOutside start block (i + 1) k :=
  fun j hij hjk => h j (by omega) (by omega)

/-- A home block is no log slot. -/
theorem HomesOutside.ne_slot {i j l : Nat}
    (h : HomesOutside start block i k) (hij : i ≤ j) (hjk : j < i + k) (hl : l < logBlocks) :
    block j ≠ start + l + 1 := by
  intro he
  refine h j hij hjk ?_
  rw [he]
  exact ⟨by omega, by omega⟩

theorem emits_writeLogLoop : ∀ (k i : Nat) {d : Nat → Block} {m : Mem}, i + k ≤ logBlocks →
    HomesOutside m.log.start m.log.lh.block i k →
    ∃ m', Emits (writeLogLoop k i) d m (logWrites m.log.start m.log.lh.block (view m d) i k) () m' ∧ SameLog m m' ∧
      view m' (applyWrites d (logWrites m.log.start m.log.lh.block (view m d) i k)) =
        applyWrites (view m d) (logWrites m.log.start m.log.lh.block (view m d) i k)
  | 0, _, _, m, _, _ => ⟨m, Emits.pure (), ⟨rfl, rfl⟩, rfl⟩
  | k + 1, i, d, m, hik, hout => by
      obtain ⟨m1, hm1, ⟨hl1, hp1⟩, hv1⟩ := emits_bread (d := d) (m := m) (m.log.start + i + 1)
      obtain ⟨m2, hm2, ⟨hl2, hp2⟩, hv2⟩ := emits_bread (d := d) (m := m1) (m.log.lh.block i)
      obtain ⟨m3, hm3, ⟨hl3, hp3⟩, hv3⟩ := emits_bwrite (d := d) (m := m2) (m.log.start + i + 1)
        (view m1 d (m.log.lh.block i))
      have hlog : m3.log = m.log := by rw [hl3, hl2, hl1]
      have hpins : m3.pins = m.pins := by rw [hp3, hp2, hp1]
      rw [hv2, hv1] at hv3
      rw [hv1] at hm3
      obtain ⟨m4, hm4, ⟨hl4, hp4⟩, hv4⟩ := emits_writeLogLoop k (i + 1)
        (d := applyWrites d [(m.log.start + i + 1, view m d (m.log.lh.block i))]) (m := m3)
        (by omega) (hlog ▸ hout.tail)
      -- the write to slot `i` does not change the home blocks still to be copied
      have hrest : logWrites m3.log.start m3.log.lh.block
          (view m3 (applyWrites d [(m.log.start + i + 1, view m d (m.log.lh.block i))])) (i + 1) k =
          logWrites m.log.start m.log.lh.block (view m d) (i + 1) k := by
        rw [hlog, hv3]
        refine map_congr_left fun j hj => ?_
        rw [mem_range'_1] at hj
        have hne := hout.ne_slot (l := i) (by omega : i ≤ j) (by omega) (by omega)
        simp [applyWrites, hne]
      have hcons : logWrites m.log.start m.log.lh.block (view m d) i (k + 1) =
          [(m.log.start + i + 1, view m d (m.log.lh.block i))] ++
            logWrites m.log.start m.log.lh.block (view m d) (i + 1) k := by
        simp [logWrites, range'_succ]
      rw [hrest] at hm4 hv4
      refine ⟨m4, ?_, ⟨by rw [hl4, hlog], by rw [hp4, hpins]⟩, ?_⟩
      · rw [hcons]
        refine Emits.bindRead Emits.getMem (Emits.bindRead (emits_lhBlock (by omega)) ?_)
        refine Emits.bindRead hm1 (Emits.bindRead hm2 ?_)
        rw [hv1]
        exact Emits.bind hm3 hm4
      · rw [hcons, applyWrites_append, applyWrites_append, hv4, hv3]

theorem emits_installTransLoop (recovering : Bool) : ∀ (k i : Nat) {d : Nat → Block} {m : Mem},
    i + k ≤ logBlocks → HomesOutside m.log.start m.log.lh.block i k →
    ∃ m', Emits (installTransLoop recovering k i) d m
        (homeWrites m.log.start m.log.lh.block (view m d) i k) () m' ∧ m'.log = m.log ∧
      (∀ b, m'.pins b = m.pins b -
        if recovering then 0 else ((range' i k).map m.log.lh.block).count b) ∧
      view m' (applyWrites d (homeWrites m.log.start m.log.lh.block (view m d) i k)) =
        applyWrites (view m d) (homeWrites m.log.start m.log.lh.block (view m d) i k)
  | 0, _, _, m, _, _ => ⟨m, Emits.pure (), rfl, by simp, rfl⟩
  | k + 1, i, d, m, hik, hout => by
      obtain ⟨m1, hm1, ⟨hl1, hp1⟩, hv1⟩ := emits_bread (d := d) (m := m) (m.log.start + i + 1)
      obtain ⟨m2, hm2, ⟨hl2, hp2⟩, hv2⟩ := emits_bread (d := d) (m := m1) (m.log.lh.block i)
      obtain ⟨m3, hm3, ⟨hl3, hp3⟩, hv3⟩ := emits_bwrite (d := d) (m := m2) (m.log.lh.block i)
        (view m d (m.log.start + i + 1))
      rw [hv2, hv1] at hv3
      obtain ⟨m4, hm4, hl4, hp4, hv4⟩ := emits_unpinInstalled recovering (m.log.lh.block i) (m := m3)
        (d := applyWrites d [(m.log.lh.block i, view m d (m.log.start + i + 1))])
      have hlog : m4.log = m.log := by rw [hl4, hl3, hl2, hl1]
      obtain ⟨m5, hm5, hl5, hp5, hv5⟩ := emits_installTransLoop recovering k (i + 1)
        (d := applyWrites d [(m.log.lh.block i, view m d (m.log.start + i + 1))]) (m := m4)
        (by omega) (hlog ▸ hout.tail)
      -- the write to a home block does not change the log slots still to be installed
      have hrest : homeWrites m4.log.start m4.log.lh.block
          (view m4 (applyWrites d [(m.log.lh.block i, view m d (m.log.start + i + 1))])) (i + 1) k =
          homeWrites m.log.start m.log.lh.block (view m d) (i + 1) k := by
        rw [hlog, hv4, hv3]
        refine map_congr_left fun j hj => ?_
        rw [mem_range'_1] at hj
        have hne := hout.ne_slot (l := j) (Nat.le_refl i) (by omega) (by omega)
        simp [applyWrites, Ne.symm hne]
      have hcons : homeWrites m.log.start m.log.lh.block (view m d) i (k + 1) =
          [(m.log.lh.block i, view m d (m.log.start + i + 1))] ++
            homeWrites m.log.start m.log.lh.block (view m d) (i + 1) k := by
        simp [homeWrites, range'_succ]
      rw [hrest] at hm5 hv5
      refine ⟨m5, ?_, by rw [hl5, hlog], fun b => ?_, ?_⟩
      · rw [hcons]
        refine Emits.bindRead Emits.getMem (Emits.bindRead (emits_lhBlock (by omega)) ?_)
        refine Emits.bindRead hm1 (Emits.bindRead hm2 (Emits.bind hm3 ?_))
        exact Emits.bindRead hm4 hm5
      · rw [hp5, hp4, hp3, hp2, hp1, hlog]
        cases recovering with
        | true => simp
        | false =>
          simp only [Bool.false_eq_true, if_false, range'_succ, map_cons, count_cons, beq_iff_eq]
          split <;> push_cast <;> omega
      · rw [hcons, applyWrites_append, applyWrites_append, hv5, hv4, hv3]

end Loops

/-! ## The header block -/

/-- The field `n` of a header block. -/
def headN (buf : Block) : Int := toInt32 (wordAt buf 0)

theorem wordAt_storeBlocks (block : Nat → Nat) (buf : Block) : ∀ (k : Nat), k ≤ logBlocks → ∀ j,
    wordAt ((range k).foldl (fun d i => setWord d (i + 1) (block i)) buf) j =
      if 1 ≤ j ∧ j ≤ k then block (j - 1) % 2 ^ 32 else wordAt buf j
  | 0, _, j => by
      rw [if_neg (by omega)]
      rfl
  | k + 1, hk, j => by
      rw [range_succ, foldl_append, foldl_cons, foldl_nil]
      by_cases hj : k + 1 = j
      · subst hj
        have hlim : logBlocks = 30 := rfl
        have hsize : bsize = 1024 := rfl
        rw [wordAt_setWord_self _ _ _ (by omega), if_pos (by omega), Nat.add_sub_cancel]
      · rw [wordAt_setWord_ne _ _ hj, wordAt_storeBlocks block buf k (by omega) j]
        by_cases hjk : 1 ≤ j ∧ j ≤ k
        · rw [if_pos hjk, if_pos (by omega)]
        · rw [if_neg hjk, if_neg (by omega)]

theorem toInt32_ofInt32 {v : Int} (h0 : 0 ≤ v) (h1 : v < 2 ^ 31) : toInt32 (ofInt32 v % 2 ^ 32) = v := by
  have hv : ofInt32 v = v.toNat := by
    rw [ofInt32, Int.emod_eq_of_lt h0 (by omega)]
  have hlt : v.toNat < 2 ^ 31 := by omega
  rw [hv, Nat.mod_eq_of_lt (by omega), toInt32, if_pos hlt]
  omega

/-- The header that `write_head` stores carries the count of the in-memory header. -/
theorem headN_encodeHead (lh : LogHeader) (buf : Block) (h0 : 0 ≤ lh.n) (h1 : lh.n ≤ logBlocks) :
    headN (encodeHead lh buf) = lh.n := by
  have h := wordAt_storeBlocks lh.block (setWord buf 0 (ofInt32 lh.n)) lh.n.toNat (by omega) 0
  rw [if_neg (by omega), wordAt_setWord_self _ _ _ (by decide)] at h
  have hlim : logBlocks = 30 := rfl
  rw [headN, encodeHead, h]
  exact toInt32_ofInt32 h0 (by omega)

/-- Reading back a header that `write_head` stored gives the stored entries. -/
theorem decodeHead_encodeHead (lh lh' : LogHeader) (buf : Block) (h0 : 0 ≤ lh.n)
    (h1 : lh.n ≤ logBlocks) {i : Nat} (hi : (i : Int) < lh.n) (hb : lh.block i < 2 ^ 32) :
    (decodeHead (encodeHead lh buf) lh').block i = lh.block i := by
  have hn : toInt32 (wordAt (encodeHead lh buf) 0) = lh.n := headN_encodeHead lh buf h0 h1
  have h := wordAt_storeBlocks lh.block (setWord buf 0 (ofInt32 lh.n)) lh.n.toNat (by omega) (i + 1)
  rw [if_pos (by omega), Nat.add_sub_cancel, Nat.mod_eq_of_lt hb] at h
  simp only [decodeHead, hn, if_pos hi]
  exact h

/-! ## Write lists of the log programs -/

section Programs

variable {d : Nat → Block} {m : Mem}

theorem emits_writeHead (hn : m.log.lh.n ≤ logBlocks) :
    ∃ m', Emits writeHead d m [(m.log.start, encodeHead m.log.lh (view m d m.log.start))] () m' ∧ SameLog m m' ∧
      view m' (applyWrites d [(m.log.start, encodeHead m.log.lh (view m d m.log.start))]) =
        applyWrites (view m d) [(m.log.start, encodeHead m.log.lh (view m d m.log.start))] := by
  obtain ⟨m1, hm1, ⟨hl1, hp1⟩, hv1⟩ := emits_bread (d := d) (m := m) m.log.start
  obtain ⟨m2, hm2, ⟨hl2, hp2⟩, hv2⟩ := emits_bwrite (d := d) (m := m1) m.log.start
    (encodeHead m.log.lh (view m d m.log.start))
  refine ⟨m2, ?_, ⟨by rw [hl2, hl1], by rw [hp2, hp1]⟩, by rw [hv2, hv1]⟩
  refine Emits.bindRead Emits.getMem (Emits.bindRead hm1 ?_)
  rw [if_neg (by omega)]
  exact hm2

theorem emits_readHead (hn : headN (view m d m.log.start) ≤ logBlocks) :
    ∃ m', Emits readHead d m [] () m' ∧
      m'.log.start = m.log.start ∧ m'.log.lh = decodeHead (view m d m.log.start) m.log.lh ∧
      view m' d = view m d := by
  obtain ⟨m1, hm1, -, hv1⟩ := emits_bread (d := d) (m := m) m.log.start
  refine ⟨{ m1 with log := { m.log with lh := decodeHead (view m d m.log.start) m.log.lh } }, ?_, rfl, rfl, hv1⟩
  refine Emits.bindRead Emits.getMem (Emits.bindRead hm1 ?_)
  have hnot : ¬ (decodeHead (view m d m.log.start) m.log.lh).n > logBlocks := by
    show ¬ headN (view m d m.log.start) > logBlocks
    omega
  rw [if_neg hnot]
  exact Emits.modifyMem _

/-- The writes of `commit` for a non-empty log: the log slots, the header, the home blocks and the
cleared header. -/
def commitWrites (start : Nat) (lh : LogHeader) (v : Nat → Block) : List (Nat × Block) :=
  logWrites start lh.block v 0 lh.n.toNat ++ ([(start, encodeHead lh (v start))] ++
    ((lh.entries.map fun b => (b, v b)) ++ [(start, encodeHead { lh with n := 0 } (encodeHead lh (v start)))]))

theorem logWrites_keys (start : Nat) (block : Nat → Nat) (v : Nat → Block) (i k : Nat) :
    ((logWrites start block v i k).map Prod.fst).Nodup := by
  rw [logWrites, map_map]
  refine Nodup.map ?_ nodup_range'
  intro x y hxy
  simp only [comp] at hxy
  omega

/-- A log slot holds the logged buffer once `write_log` is done. -/
theorem applyWrites_logWrites_slot (v e : Nat → Block) {j : Nat}
    (hj : j < k) : applyWrites e (logWrites start block v 0 k) (start + j + 1) = v (block j) := by
  refine applyWrites_of_mem _ _ (logWrites_keys start block v 0 k) ?_
  refine mem_map.mpr ⟨j, ?_, rfl⟩
  rw [mem_range'_1]
  omega

/-- `write_log` only changes log slots. -/
theorem applyWrites_logWrites_of_ne {v e : Nat → Block} {b : Nat} {ws : List (Nat × Block)}
    (hws : ws ⊆ logWrites start block v 0 k) (hb : ∀ j < k, b ≠ start + j + 1) : applyWrites e ws b = e b := by
  refine applyWrites_of_not_mem _ _ fun w hw => ?_
  obtain ⟨j, hj, rfl⟩ := mem_map.mp (hws hw)
  rw [mem_range'_1] at hj
  exact (hb j (by omega)).symm

theorem homeWrites_ne_start {v : Nat → Block}
    (hout : HomesOutside start block 0 k) : ∀ w ∈ homeWrites start block v 0 k, w.1 ≠ start := by
  intro w hw
  obtain ⟨j, hj, rfl⟩ := mem_map.mp hw
  rw [mem_range'_1] at hj
  intro he
  refine hout j (Nat.zero_le j) (by omega) ?_
  rw [show block j = start from he]
  exact ⟨Nat.le_refl _, Nat.le_add_right _ _⟩

theorem emits_commit (hpos : 0 < m.log.lh.n) (hn : m.log.lh.n ≤ logBlocks)
    (hout : HomesOutside m.log.start m.log.lh.block 0 m.log.lh.n.toNat) :
    ∃ m', Emits commit d m (commitWrites m.log.start m.log.lh (view m d)) () m' ∧
      m'.log = { m.log with lh := { m.log.lh with n := 0 } } ∧
      (∀ b, m'.pins b = m.pins b - m.log.lh.entries.count b) ∧
      view m' (applyWrites d (commitWrites m.log.start m.log.lh (view m d))) =
        applyWrites (view m d) (commitWrites m.log.start m.log.lh (view m d)) := by
  -- 1. the log slots
  obtain ⟨m1, hm1, ⟨hl1, hp1⟩, hv1⟩ := emits_writeLogLoop (d := d) (m := m) m.log.lh.n.toNat 0 (by omega) hout
  set w1 := logWrites m.log.start m.log.lh.block (view m d) 0 m.log.lh.n.toNat with hw1
  have hstart1 : view m1 (applyWrites d w1) m.log.start = view m d m.log.start := by
    rw [hv1]
    exact applyWrites_logWrites_of_ne (Subset.refl _) fun j _ => by omega
  -- 2. the header
  obtain ⟨m2, hm2, ⟨hl2, hp2⟩, hv2⟩ := emits_writeHead (d := applyWrites d w1) (m := m1) (hl1 ▸ hn)
  rw [hl1, hstart1, hv1] at hv2
  rw [hl1, hstart1] at hm2
  set w2 := [(m.log.start, encodeHead m.log.lh (view m d m.log.start))] with hw2
  -- 3. the home blocks
  obtain ⟨m3, hm3, hl3, hp3, hv3⟩ := emits_installTransLoop false m.log.lh.n.toNat 0
    (d := applyWrites (applyWrites d w1) w2) (m := m2) (by omega) (by rw [hl2, hl1]; exact hout)
  have hw3 : homeWrites m2.log.start m2.log.lh.block (view m2 (applyWrites (applyWrites d w1) w2)) 0
      m.log.lh.n.toNat = m.log.lh.entries.map fun b => (b, view m d b) := by
    rw [hl2, hl1, hv2, homeWrites, LogHeader.entries, map_map, range_eq_range']
    refine map_congr_left fun j hj => ?_
    rw [mem_range'_1] at hj
    have hne : ∀ w ∈ w2, w.1 ≠ m.log.start + j + 1 := by
      intro w hw
      rw [hw2, mem_singleton] at hw
      rw [hw]
      omega
    rw [applyWrites_of_not_mem _ _ hne, hw1, applyWrites_logWrites_slot _ _ (by omega)]
    rfl
  rw [hw3] at hm3 hv3
  rw [hv2] at hv3
  set w3 := m.log.lh.entries.map fun b => (b, view m d b) with hw3def
  have hstart3 : view m3 (applyWrites (applyWrites (applyWrites d w1) w2) w3) m.log.start =
      encodeHead m.log.lh (view m d m.log.start) := by
    have hne : ∀ w ∈ w3, w.1 ≠ m.log.start := by
      rw [← hw3, hl2, hl1]
      exact homeWrites_ne_start hout
    rw [hv3, applyWrites_of_not_mem _ _ hne, hw2]
    simp [applyWrites]
  -- 4. the cleared header
  have hm4 : Emits clearN (applyWrites (applyWrites (applyWrites d w1) w2) w3) m3 [] ()
      { m3 with log := { m3.log with lh := { m3.log.lh with n := 0 } } } := Emits.modifyMem _
  have hlog4 : { m3.log with lh := { m3.log.lh with n := 0 } } =
      { m.log with lh := { m.log.lh with n := 0 } } := by rw [hl3, hl2, hl1]
  rw [hlog4] at hm4
  obtain ⟨m5, hm5, ⟨hl5, hp5⟩, hv5⟩ := emits_writeHead (d := applyWrites (applyWrites (applyWrites d w1) w2) w3)
    (m := { m3 with log := { m.log with lh := { m.log.lh with n := 0 } } }) (by simp)
  have hview4 : view { m3 with log := { m.log with lh := { m.log.lh with n := 0 } } }
      (applyWrites (applyWrites (applyWrites d w1) w2) w3) =
      view m3 (applyWrites (applyWrites (applyWrites d w1) w2) w3) := rfl
  rw [hview4] at hm5 hv5
  simp only [hstart3, hv3] at hm5 hv5
  refine ⟨m5, ?_, by rw [hl5], fun b => ?_, ?_⟩
  · refine Emits.bindRead Emits.getMem ?_
    rw [if_neg (by omega)]
    have hinstall : Emits (installTrans false) (applyWrites (applyWrites d w1) w2) m2 w3 () m3 := by
      refine Emits.bindRead Emits.getMem ?_
      rw [hl2, hl1]
      exact hm3
    refine Emits.bind (Emits.bindRead Emits.getMem hm1) (Emits.bind hm2 ?_)
    exact Emits.bind hinstall (Emits.bindRead hm4 hm5)
  · have hpins : m5.pins b = m3.pins b := by rw [hp5]
    rw [hpins, hp3, hp2, hp1, hl2, hl1, LogHeader.entries, range_eq_range']
    simp
  · rw [commitWrites]
    simp only [applyWrites_append]
    exact hv5

/-- The writes of `recover_from_log` when the header block decodes to `lh`. -/
def recoverWrites (start : Nat) (lh : LogHeader) (v : Nat → Block) : List (Nat × Block) :=
  homeWrites start lh.block v 0 lh.n.toNat ++ [(start, encodeHead { lh with n := 0 } (v start))]

theorem emits_recoverFromLog (lh : LogHeader) (hlh : decodeHead (view m d m.log.start) m.log.lh = lh)
    (hn : lh.n ≤ logBlocks) (hout : HomesOutside m.log.start lh.block 0 lh.n.toNat) :
    ∃ m', Emits recoverFromLog d m (recoverWrites m.log.start lh (view m d)) () m' := by
  obtain ⟨m1, hm1, hs1, hl1, hv1⟩ := emits_readHead (d := d) (m := m) (by rw [← hlh] at hn; exact hn)
  rw [hlh] at hl1
  obtain ⟨m2, hm2, hl2, -, hv2⟩ := emits_installTransLoop true lh.n.toNat 0 (d := d) (m := m1)
    (by omega) (by rw [hs1, hl1]; exact hout)
  rw [hv1, hs1, hl1] at hm2 hv2
  set w := homeWrites m.log.start lh.block (view m d) 0 lh.n.toNat with hw
  have hinstall : Emits (installTrans true) d m1 w () m2 := by
    refine Emits.bindRead Emits.getMem ?_
    rw [hl1]
    exact hm2
  have hstart : view m2 (applyWrites d w) m.log.start = view m d m.log.start := by
    rw [hv2]
    exact applyWrites_of_not_mem _ _ (homeWrites_ne_start hout)
  have hclear : Emits clearN (applyWrites d w) m2 [] ()
      { m2 with log := { m2.log with lh := { m2.log.lh with n := 0 } } } := Emits.modifyMem _
  obtain ⟨m3, hm3, -, -⟩ := emits_writeHead (d := applyWrites d w)
    (m := { m2 with log := { m2.log with lh := { m2.log.lh with n := 0 } } }) (by simp)
  have hview : ∀ log e, view { m2 with log := log } e = view m2 e := fun _ _ => rfl
  simp only [hview, hl2, hs1, hl1, hstart] at hm3 hclear
  exact ⟨m3, Emits.bindRead hm1 (Emits.bind hinstall (Emits.bindRead hclear hm3))⟩

end Programs

end Xv6Lab.Logging
