import Xv6Lab.FileSys.ByteLists

/-!
# Short writes

`writei` copies user bytes into the cached block before it knows that all of them can be read. When the copy of a
block fails part of the way, the bytes before the fault stay in the buffer: later reads see them while the buffer is
cached, and if the block is in the transaction they also reach the disk. `writei` reports none of them.
`short_write_iff` says that a write changes exactly what it reports, in the cache and after eviction, if and only if
these stray bytes agree with the old contents; `short_write_strays` is a write for which they do not.
-/

namespace Xv6Lab.FileSys

open Lib.Words Lib.Exec Lib.Accounting Lib.Segments

variable {sb : Superblock} {s t u v : Fs} {i k b n : Nat} {src : Source} {tot off : Nat} {r : Nat × Nat}

/-! ## The contents after the call -/

/-- What is read back once the buffers of the blocks that are not in the transaction have been evicted; the blocks
were in the state `s` when they were last written to the disk. -/
def evicted (s t : Fs) : Fs := { t with block := fun b => if b ∈ t.logged then t.block b else s.block b }

/-- A write of `q` bytes at `off` changed these bytes and no others, in the cache and after eviction. -/
def ChangesReported (sb : Superblock) (i : Nat) (src : Source) (off q : Nat) (s t : Fs) : Prop :=
  content sb t i = splice (content sb s i) off (seg src.bytes 0 q) ∧
    content sb (evicted s t) i = splice (content sb s i) off (seg src.bytes 0 q)

/-- The bytes that precede the fault in its block have the values that the file has there. -/
def StraysAgree (src : Source) (old : List UInt8) (off n : Nat) : Prop :=
  ∀ l, src.limit = some l → l < n → ∀ j, l - min l ((off + l) % bsize) ≤ j → j < l →
    ∀ b, old[off + j]? = some b → src.bytes j = b

theorem seg_inj {α : Type} {f g : Nat → α} {m : Nat} : seg f 0 m = seg g 0 m ↔ ∀ k < m, f k = g k := by
  simp [seg]

section Outcome

variable {d : Dinode}

theorem Recorded.evicted (h : Recorded s u) : evicted s (storeInode sb u i d) = storeInode sb u i d := by
  refine congrArg (fun f => { storeInode sb u i d with block := f }) (funext fun c => ?_)
  by_cases hc : c ∈ (storeInode sb u i d).logged
  · exact if_pos hc
  · rw [if_neg hc]
    exact (h.kept c fun hl => hc (Finset.mem_insert_of_mem hl)).symm

/-- Eviction takes the change of a block out of the file if the block is not in the transaction. -/
theorem Recorded.evicted_writeBlock (h : Recorded s u) (b : Nat) (e : Block) :
    FileSys.evicted s (storeInode sb (writeBlock u b e) i d) = storeInode sb (writeBlock u b e) i d ∨
      FileSys.evicted s (storeInode sb (writeBlock u b e) i d) = storeInode sb u i d := by
  have hold : ∀ c ∉ (storeInode sb u i d).logged, s.block c = u.block c :=
    fun c hc => (h.kept c fun hl => hc (Finset.mem_insert_of_mem hl)).symm
  by_cases hb : b ∈ (storeInode sb u i d).logged
  · refine .inl (congrArg (fun f => { storeInode sb u i d with block := f }) (funext fun c => ?_))
    by_cases hc : c ∈ (storeInode sb u i d).logged
    · exact if_pos hc
    · have hne : c ≠ b := fun he => hc (he ▸ hb)
      exact (if_neg hc).trans ((hold c hc).trans (writeBlock_block_ne e hne).symm)
  · refine .inr (congrArg (fun f => { storeInode sb u i d with block := f }) (funext fun c => ?_))
    by_cases hc : c ∈ (storeInode sb u i d).logged
    · have hne : c ≠ b := fun he => hb (he ▸ hc)
      exact (if_pos hc).trans (writeBlock_block_ne e hne)
    · exact (if_neg hc).trans (hold c hc)

/-- The round at which the copy stops begins where the block of the fault begins, or the write does. -/
theorem Exact.round_le {l : Nat} (h : Exact sb i src n s 0 off r u) (hl : src.limit = some l) (hln : l < n) :
    r.1 ≤ l - min l ((off + l) % bsize) ∧
      (l < r.1 + (bsize - r.2 % bsize) → r.1 = l - min l ((off + l) % bsize)) := by
  have hread := h.readable l hl
  have halign := h.aligned
  have hr : r.2 = off + r.1 := h.off_eq
  have hb : bsize = 1024 := rfl
  rw [hb] at halign ⊢
  omega

variable (h : Exact sb i src n s 0 off r u) (hsz : Sized sb s i) (ht : d.type = (u.icache i).ip.type)
  (ha : d.addrs = (u.icache i).ip.addrs) (hd : d.size = max (view s i).size r.2)

include h hsz

/-- Without a fault in a block nothing is left behind. -/
theorem Exact.straysAgree (hend : r.1 < n → fileBlock sb s i (r.2 / bsize) = 0 ∧ Full sb u) :
    StraysAgree src (FileSys.content sb s i) off n := by
  intro l hl hln j hj _ b hb
  obtain ⟨hround, -⟩ := h.round_le hl hln
  have hlt : off + j < (view s i).size := by
    rw [FileSys.content, getElem?_seg] at hb
    by_contra hge
    rw [if_neg hge] at hb
    cases hb
  obtain ⟨hmiss, -⟩ := hend (by omega)
  have hr : r.2 = off + r.1 := h.off_eq
  have hle := Nat.div_mul_le_self r.2 bsize
  exact absurd hmiss (hsz _ (by omega))

include ht ha hd

/-- The stray bytes change the file where they differ from it. -/
theorem Exact.stray_iff {l : Nat} (hoff : off ≤ (view s i).size) (hl : src.limit = some l) (hln : l < n)
    (hlt : l < r.1 + (bsize - r.2 % bsize)) (hblock : fileBlock sb u i (r.2 / bsize) ≠ 0) :
    FileSys.content sb (storeInode sb (stray sb i src r l u) i d) i =
        splice (FileSys.content sb s i) off (seg src.bytes 0 r.1) ↔
      StraysAgree src (FileSys.content sb s i) off n := by
  obtain ⟨hround, hstart⟩ := h.round_le hl hln
  have hr : r.2 = off + r.1 := h.off_eq
  have hthere : ∀ k < (view s i).size, fileBlock sb s i (k / bsize) ≠ 0 :=
    fun k hk => hsz _ ((Nat.div_mul_le_self k bsize).trans_lt hk)
  have hheld : Held sb i (stray sb i src r l u) := (h.held.writeBlock rfl hblock).1
  obtain ⟨hout, hin⟩ := h.held.overwriteBlock src r.1 (.refl sb i u) rfl hblock le_rfl (c := l - r.1) (by omega) rfl
  rw [← h.content hsz hoff ht ha hd, FileSys.content, FileSys.content, view_storeInode_self, view_storeInode_self, hd,
    seg_inj]
  simp only [hheld.fileByte_storeInode ht ha, h.held.fileByte_storeInode ht ha]
  constructor
  · intro hsame l' hl' _ j hj hjl b hb
    obtain rfl : l = l' := Option.some.inj (hl.symm.trans hl')
    rw [FileSys.content, getElem?_seg] at hb
    obtain ⟨hk, hb⟩ := Option.ite_none_right_eq_some.mp hb
    have hbyte := hsame (off + j) (by omega)
    rw [stray, (hin (off + j) (by omega) (by omega)).2, h.kept _ (hthere _ hk) (by omega)] at hbyte
    rw [← Option.some.inj hb, Nat.zero_add, ← hbyte]
    exact congrArg src.bytes (by omega)
  · intro hagree k hk
    by_cases hstray : r.2 ≤ k ∧ k < off + l
    · have hk : k < (view s i).size := by omega
      rw [stray, (hin k hstray.1 (by omega)).2, h.kept k (hthere k hk) (.inr hstray.1)]
      refine (congrArg src.bytes (by omega)).trans (hagree l hl hln (k - off) (by omega) (by omega) _ ?_)
      rw [FileSys.content, getElem?_seg, Nat.zero_add, show off + (k - off) = k by omega, if_pos hk]
    · refine hout k ?_ (by omega)
      rcases Nat.lt_or_ge k (view s i).size with hk' | hk'
      · exact h.wrote.fileBlock_ne (hthere k hk')
      · exact (h.bytes k (by omega) (by omega)).1

end Outcome

/-- A write that returns has changed exactly the bytes it reports if and only if the bytes before the fault in the
block of the fault agree with the file. -/
theorem short_write_iff {off n : UInt32} {q : Int} (h : Consistent sb s) (hv : (s.icache i).valid = true)
    (hrun : writei sb i src off n s = .ok q t) (hq : 0 ≤ q) :
    ChangesReported sb i src off.toNat q.toNat s t ↔ StraysAgree src (content sb s i) off.toNat n.toNat := by
  have hspec : wp (writei sb i src off n) (fun q t => 0 ≤ q → (ChangesReported sb i src off.toNat q.toNat s t ↔
      StraysAgree src (content sb s i) off.toNat n.toNat)) Anyhow s := by
    have hsz := h.sized hv
    rw [writei, wp_bind, wp_inode, ← view_of_valid hv]
    split
    · exact wp_pure.mpr (by simp)
    next hgood =>
    obtain ⟨hoff, -⟩ := not_badRange_iff.mp hgood
    rw [toNat_add_of_range hgood]
    split
    · exact wp_pure.mpr (by simp)
    next hle =>
    refine wp_seq (writeiLoop_spec src n.toNat 0 off.toNat s (by omega) (Nat.zero_le _) (not_lt.mp hle) (h.held hv)
      (covers_writeBlocks ..)) (fun _ _ => trivial) ?_
    rintro r t ⟨⟨u, hu, hend⟩, -⟩
    refine wp_modify_iupdate (fun _ _ => trivial) (wp_pure.mpr fun _ => ?_)
    rw [Int.toNat_natCast]
    have hsame : (u.icache i).ip.size = (view s i).size := by
      obtain ⟨a, ha⟩ := hu.wrote.self
      rw [ha, view_of_valid hv]
    have hsize : (if (u.icache i).ip.size < r.2 then r.2 else (u.icache i).ip.size) = max (view s i).size r.2 := by
      rw [hsame]
      split <;> omega
    have hexact := hu.content (d := { (u.icache i).ip with
      size := if (u.icache i).ip.size < r.2 then r.2 else (u.icache i).ip.size }) hsz hoff rfl rfl hsize
    rcases hend with ⟨rfl, hend⟩ | ⟨l, hl, hln, hlt, hblock, rfl⟩
    · exact iff_of_true ⟨hexact, by rw [hu.recorded.evicted]; exact hexact⟩ (hu.straysAgree hsz hend)
    have hiff := hu.stray_iff (d := { (u.icache i).ip with
      size := if (u.icache i).ip.size < r.2 then r.2 else (u.icache i).ip.size }) hsz rfl rfl hsize hoff hl hln
      hlt hblock
    refine ⟨fun hreported => hiff.mp hreported.1, fun hagree => ⟨hiff.mpr hagree, ?_⟩⟩
    rcases hu.recorded.evicted_writeBlock (fileBlock sb u i (r.2 / bsize)) _ with he | he
    · exact (congrArg (content sb · i) he).trans (hiff.mpr hagree)
    · exact (congrArg (content sb · i) he).trans hexact
  exact wp_ok hspec hrun hq

/-- A write to an empty file of which only four bytes can be read. -/
theorem short_write_empty : ∃ t, writei blankSb 1 { bytes := fun _ => 66, limit := some 4 } 0 10 blankFs = .ok 0 t ∧
    ChangesReported blankSb 1 { bytes := fun _ => 66, limit := some 4 } 0 0 blankFs t := by
  have hrun : yields (writei blankSb 1 { bytes := fun _ => 66, limit := some 4 } 0 10) blankFs
      (fun q _ => decide (q = 0)) = true := by decide +kernel
  obtain ⟨q, t, hrun, hq⟩ := yields_true hrun
  obtain rfl := of_decide_eq_true hq
  refine ⟨t, hrun, (short_write_iff blankFs_consistent rfl hrun le_rfl).mpr ?_⟩
  intro l _ _ j _ _ b hb
  cases hb

/-- A file of ten bytes 65, with the operation that wrote them committed. -/
def tenBytes : FsM Unit := do
  let _ ← writei blankSb 1 { bytes := fun _ => 65, limit := none } 0 10
  modify fun s => { s with logged := ∅ }

/-- A write of ten bytes 66 of which four can be read returns 0. Reads see the four bytes until the block is evicted. -/
theorem short_write_strays : ∃ s t, Consistent blankSb s ∧ (s.icache 1).valid = true ∧
    writei blankSb 1 { bytes := fun _ => 66, limit := some 4 } 0 10 s = .ok 0 t ∧
    content blankSb s 1 = List.replicate 10 65 ∧
    content blankSb t 1 = List.replicate 4 66 ++ List.replicate 6 65 ∧
    content blankSb (evicted s t) 1 = List.replicate 10 65 ∧
    ¬ ChangesReported blankSb 1 { bytes := fun _ => 66, limit := some 4 } 0 0 s t := by
  have hrun : yields tenBytes blankFs (fun _ s => (s.icache 1).valid &&
      decide (content blankSb s 1 = List.replicate 10 65) &&
      yields (writei blankSb 1 { bytes := fun _ => 66, limit := some 4 } 0 10) s fun q t => decide (q = 0 ∧
        content blankSb t 1 = List.replicate 4 66 ++ List.replicate 6 65 ∧
        content blankSb (evicted s t) 1 = List.replicate 10 65)) = true := by
    decide +kernel
  obtain ⟨_, s, hten, htest⟩ := yields_true hrun
  simp only [Bool.and_eq_true, decide_eq_true_eq] at htest
  obtain ⟨⟨hvalid, hold⟩, hrun⟩ := htest
  obtain ⟨q, t, hrun, htest⟩ := yields_true hrun
  obtain ⟨rfl, hnew, hevicted⟩ := of_decide_eq_true htest
  have hcons : Consistent blankSb s := by
    obtain ⟨q, u, hwrite, hs⟩ := bind_eq_ok hten
    cases hs
    have hwritten := (wp_ok (writei_spec (i := 1) blankFs_consistent rfl _ 0 10) hwrite).2 (by decide) (by decide)
    exact hwritten.consistent.setLogged ∅
  refine ⟨s, t, hcons, hvalid, hrun, hold, hnew, hevicted, fun hreported => ?_⟩
  have hsame := hreported.1
  rw [hnew, hold] at hsame
  exact absurd hsame (by decide)

end Xv6Lab.FileSys
