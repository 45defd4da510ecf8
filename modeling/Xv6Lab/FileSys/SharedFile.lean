import Xv6Lab.FileSys.Reading

/-!
# Processes that share an open file

After `fork`, `thread_create` or `dup` several processes read and write through one `struct file`. Each turn of
`filewrite_inode` and each `fileread_inode` uses and moves `f->off` in one section under the inode's lock; between two
turns of a long write other processes have theirs. `shared_file_tiled`: in every run the ranges that the sections
report follow each other from the first offset on, and the bytes that they wrote or delivered are those of the file.
-/

namespace Xv6Lab.FileSys

open Function Lib.Exec Lib.Segments Lib.Transition

variable {P : Type} {sb : Superblock} {s t : Fs} {i n off : Nat} {src : Source} {r : Nat × Nat}

/-! ## The system -/

/-- A user buffer from its byte `i` on. -/
def Source.drop (src : Source) (i : Nat) : Source := ⟨fun k => src.bytes (i + k), src.limit.map (· - i)⟩

/-- A call of `filewrite_inode` in its loop, with `i` of `n` bytes written. -/
structure Write where
  src : Source
  n : Nat
  i : Nat

/-- `n1`, the length of the next chunk. -/
def Write.n1 (w : Write) : Nat := min (w.n - w.i) ((maxOpBlocks - 1 - 1 - 2) / 2 * bsize)

/-- The loop after a chunk of which `writei` reported `r` bytes; no result when it is left. -/
def Write.turn (w : Write) (r : Int) : Option Write :=
  if r = w.n1 ∧ w.i + w.n1 < w.n then some { w with i := w.i + w.n1 } else none

/-- What a section reports: where it started, the number of bytes, and the bytes that it wrote or delivered. -/
structure Chunk where
  start : Nat
  len : Nat
  bytes : Nat → UInt8

/-- The file system, the shared file, the writes under way and, newest first, the chunks so far. -/
structure Shared (P : Type) where
  fs : Fs
  file : File
  write : P → Option Write
  done : List Chunk

/-- A process enters `filewrite`, has one turn of its loop, or calls `fileread` with `l` bytes of its buffer writable;
or commits change the blocks in the log. -/
inductive SharedAction (P : Type) where
  | filewrite (p : P) (src : Source) (n : Int32)
  | chunk (p : P)
  | fileread (p : P) (l : Nat) (n : Int32)
  | log (l : Finset Nat)

/-- The end of a section in which `readi` or `writei` returned `r`. -/
def Shared.transfer (x : Shared P) (write : P → Option Write) (r : Int) (t : Fs) (bytes : Nat → UInt8) :
    Shared P where
  fs := t
  file := { x.file with off := if 0 < r then (x.file.off + r.toNat) % 2 ^ 32 else x.file.off }
  write := write
  done := ⟨x.file.off, r.toNat, bytes⟩ :: x.done

def sharedNext [DecidableEq P] (sb : Superblock) (x : Shared P) : SharedAction P → Option (Shared P)
  | .filewrite p src n =>
    if (x.write p).isNone ∧ x.file.writable = true ∧ 0 < n.toInt then
      some { x with write := update x.write p (some ⟨src, n.toInt.toNat, 0⟩) }
    else none
  | .chunk p =>
    (x.write p).bind fun w =>
      match writei sb x.file.ip (w.src.drop w.i) (UInt32.ofNat x.file.off) (UInt32.ofNat w.n1) x.fs with
      | .ok r t => some (x.transfer (update x.write p (w.turn r)) r t (w.src.drop w.i).bytes)
      | .error _ _ => none
  | .fileread p l n =>
    if (x.write p).isNone ∧ x.file.readable = true then
      match readi sb x.file.ip (some l) (UInt32.ofNat x.file.off) n.toUInt32 x.fs with
      | .ok r t => some (x.transfer x.write r.1 t (r.2.getD · 0))
      | .error _ _ => none
    else none
  | .log l => some { x with fs := setLogged x.fs l }

/-- No call is under way; `sys_open` has locked the inode, so that its entry is valid while the file is open. -/
def SharedInit (sb : Superblock) (first : Nat) (x : Shared P) : Prop :=
  Consistent sb x.fs ∧ (x.fs.icache x.file.ip).valid = true ∧ x.file.off = first ∧ first < 2 ^ 32 ∧
    (∀ p, x.write p = none) ∧ x.done = []

/-! ## What is to hold -/

/-- The chunks follow each other from `first` to `off`. -/
def Consecutive (first : Nat) : List Chunk → Nat → Prop
  | [], off => off = first
  | c :: cs, off => off = c.start + c.len ∧ Consecutive first cs c.start

/-- The bytes of a chunk stand in the file at its range. -/
def Chunk.Stored (c : Chunk) (l : List UInt8) : Prop := ∀ k < c.len, l[c.start + k]? = some (c.bytes k)

/-- The chunks are consecutive and disjoint, the offset is the first one plus their lengths, and what was written or
delivered is there. -/
structure Tiled (sb : Superblock) (first : Nat) (x : Shared P) : Prop where
  consecutive : Consecutive first x.done x.file.off
  disjoint : x.done.Pairwise fun c d => d.start + d.len ≤ c.start
  total : x.file.off = first + (x.done.map Chunk.len).sum
  stored : ∀ c ∈ x.done, c.Stored (content sb x.fs x.file.ip)

section Consecutive

variable {first : Nat} {cs : List Chunk}

theorem Consecutive.le (h : Consecutive first cs off) : ∀ c ∈ cs, c.start + c.len ≤ off := by
  induction cs generalizing off with
  | nil => simp
  | cons d ds ih =>
    intro c hc
    rw [h.1]
    rcases List.mem_cons.mp hc with rfl | hc
    · exact le_rfl
    · exact (ih h.2 c hc).trans (Nat.le_add_right ..)

theorem Consecutive.pairwise (h : Consecutive first cs off) : cs.Pairwise fun c d => d.start + d.len ≤ c.start := by
  induction cs generalizing off with
  | nil => exact .nil
  | cons d ds ih => exact .cons h.2.le (ih h.2)

theorem Consecutive.sum (h : Consecutive first cs off) : off = first + (cs.map Chunk.len).sum := by
  induction cs generalizing off with
  | nil => exact h
  | cons d ds ih =>
    rw [h.1, ih h.2, List.map_cons, List.sum_cons]
    omega

end Consecutive

/-! ## One section -/

/-- The loop of `writei` keeps the bytes before `off` and puts the bytes it counts behind them, whatever else a failed
copy leaves in the file. -/
theorem LoopEnds.bytes (h : LoopEnds sb i src n s 0 off r t) : r.2 = off + r.1 ∧ r.1 ≤ n ∧
    (∀ k < off, fileBlock sb s i (k / bsize) ≠ 0 → fileByte sb t i k = fileByte sb s i k) ∧
    ∀ k < r.1, fileByte sb t i (off + k) = src.bytes k := by
  obtain ⟨u, hu, hend⟩ := h
  have hr : r.2 = off + r.1 := hu.off_eq
  have hsame : ∀ k < r.2, fileBlock sb u i (k / bsize) ≠ 0 → fileByte sb t i k = fileByte sb u i k := by
    intro k hk hblock
    rcases hend with ⟨rfl, -⟩ | ⟨l, -, -, hlt, hthere, rfl⟩
    · rfl
    · exact (hu.held.overwriteBlock src r.1 (.refl sb i u) rfl hthere le_rfl (c := l - r.1) (by omega) rfl).1 k
        hblock (.inl hk)
  refine ⟨hr, hu.le, fun k hk hblock => ?_, fun k hk => ?_⟩
  · rw [hsame k (by omega) (hu.wrote.fileBlock_ne hblock)]
    exact hu.kept k hblock (.inl hk)
  · obtain ⟨hblock, hbyte⟩ := hu.bytes (off + k) (by omega) (by omega)
    rw [hsame _ (by omega) hblock, hbyte]
    simp

/-- A section at `off` that reports `m` bytes keeps what is before them. -/
structure Kept (sb : Superblock) (i off m : Nat) (s t : Fs) : Prop where
  consistent : Consistent sb t
  valid : (t.icache i).valid = true
  lt : off + m < 2 ^ 32
  bytes : ∀ k < off, (content sb t i)[k]? = (content sb s i)[k]?

section Transfer

variable (h : Consistent sb s) (hv : (s.icache i).valid = true)
include h hv

theorem writei_kept (src : Source) (off n : UInt32) :
    wp (writei sb i src off n) (fun q t => Kept sb i off.toNat q.toNat s t ∧
      ∀ k < q.toNat, (content sb t i)[off.toNat + k]? = some (src.bytes k)) Anyhow s := by
  have hfail : Kept sb i off.toNat (-1 : Int).toNat s s := ⟨h, hv, off.toNat_lt, fun _ _ => rfl⟩
  rw [writei, wp_bind, wp_inode, ← view_of_valid hv]
  split
  · exact wp_pure.mpr ⟨hfail, by simp⟩
  next hgood =>
  obtain ⟨hoff, hlt⟩ := not_badRange_iff.mp hgood
  rw [toNat_add_of_range hgood]
  split
  · exact wp_pure.mpr ⟨hfail, by simp⟩
  next hle =>
  refine wp_seq (writeiLoop_spec src n.toNat 0 off.toNat s (by omega) (Nat.zero_le _) (not_lt.mp hle) (h.held hv)
    (covers_writeBlocks ..)) (fun _ _ => trivial) ?_
  rintro r t ⟨hend, -⟩
  refine wp_modify_iupdate (fun _ _ => trivial) (wp_pure.mpr ?_)
  obtain ⟨hr, hrn, hold, hnew⟩ := hend.bytes
  have hheld := hend.facts.1
  have hget : ∀ k < r.2, (content sb (storeInode sb t i { (t.icache i).ip with
      size := if (t.icache i).ip.size < r.2 then r.2 else (t.icache i).ip.size }) i)[k]? =
      some (fileByte sb t i k) := by
    intro k hk
    rw [content, getElem?_seg, view_storeInode_self, if_pos (by dsimp only; split <;> omega), Nat.zero_add]
    apply congrArg some
    apply hheld.fileByte_storeInode
    · rfl
    · rfl
  refine ⟨⟨(hend.written h hv hoff rfl rfl).consistent, ?_, ?_, fun k hk => ?_⟩, fun k hk => ?_⟩
  · rw [storeInode_icache_self]
    exact hheld.valid
  · rw [Int.toNat_natCast]
    omega
  · have hblock := h.sized hv _ ((Nat.div_mul_le_self k bsize).trans_lt (hk.trans_le hoff))
    rw [hget k (by omega), hold k hk hblock, content, getElem?_seg, if_pos (by omega), Nat.zero_add]
  · rw [hget _ (by omega), hnew k hk]

theorem readi_kept (l : Nat) (off n : UInt32) :
    wp (readi sb i (some l) off n) (fun r t => Kept sb i off.toNat r.1.toNat s t ∧
      ∀ k < r.1.toNat, (content sb t i)[off.toNat + k]? = some (r.2.getD k 0)) (fun _ => False) s := by
  refine wp_post (readi_exact (h.held hv) (h.sized hv) (some l) off n rfl) ?_
  rintro r t ⟨rfl, hret, hr⟩
  have hlt := readLength_lt (view t i).size off n
  split at hret
  next hall =>
    rw [hall] at hr
    rw [hret, Int.toNat_natCast]
    refine ⟨⟨h, hv, hlt, fun _ _ => rfl⟩, fun k hk => ?_⟩
    have hin : off.toNat + k < (view t i).size := by
      rw [readLength] at hk
      split at hk <;> omega
    rw [content, getElem?_seg, if_pos hin, hr, List.getD_eq_getElem?_getD, getElem?_seg, if_pos hk, Nat.zero_add]
    rfl
  · rw [hret]
    exact ⟨⟨h, hv, off.toNat_lt, fun _ _ => rfl⟩, by simp⟩

end Transfer

/-! ## Runs -/

section Runs

variable {first : Nat} {x y : Shared P}

/-- What every section keeps. -/
structure SharedInv (sb : Superblock) (first : Nat) (x : Shared P) : Prop where
  consistent : Consistent sb x.fs
  valid : (x.fs.icache x.file.ip).valid = true
  lt : x.file.off < 2 ^ 32
  consecutive : Consecutive first x.done x.file.off
  stored : ∀ c ∈ x.done, c.Stored (content sb x.fs x.file.ip)

theorem SharedInv.transfer (h : SharedInv sb first x) {r : Int} {write : P → Option Write}
    {bytes : Nat → UInt8} (hk : Kept sb x.file.ip x.file.off r.toNat x.fs t)
    (hnew : Chunk.Stored ⟨x.file.off, r.toNat, bytes⟩ (content sb t x.file.ip)) :
    SharedInv sb first (x.transfer write r t bytes) := by
  have hoff : (x.transfer write r t bytes).file.off = x.file.off + r.toNat := by
    dsimp only [Shared.transfer]
    split
    · exact Nat.mod_eq_of_lt hk.lt
    · omega
  refine ⟨hk.consistent, hk.valid, hoff ▸ hk.lt, ⟨hoff, h.consecutive⟩, fun c hc => ?_⟩
  rcases List.mem_cons.mp hc with rfl | hc
  · exact hnew
  -- an older chunk ends before the section starts
  intro k hlen
  have hle := h.consecutive.le c hc
  exact (hk.bytes _ (by omega)).trans (h.stored c hc k hlen)

theorem SharedInv.next [DecidableEq P] (h : SharedInv sb first x) {a : SharedAction P}
    (hn : sharedNext sb x a = some y) : SharedInv sb first y := by
  have hoff : (UInt32.ofNat x.file.off).toNat = x.file.off := by
    rw [UInt32.toNat_ofNat', Nat.mod_eq_of_lt h.lt]
  cases a with
  | filewrite p src n =>
    obtain ⟨-, rfl⟩ := Option.ite_some_none_eq_some.mp hn
    exact { h with }
  | chunk p =>
    obtain ⟨w, -, hn⟩ := Option.bind_eq_some_iff.mp hn
    split at hn
    next r t hrun =>
      cases hn
      obtain ⟨hk, hb⟩ := wp_ok (writei_kept h.consistent h.valid ..) hrun
      rw [hoff] at hk hb
      exact h.transfer hk hb
    · cases hn
  | fileread p l n =>
    obtain ⟨-, hn⟩ := Option.ite_none_right_eq_some.mp hn
    split at hn
    next r t hrun =>
      cases hn
      obtain ⟨hk, hb⟩ := wp_ok (readi_kept h.consistent h.valid ..) hrun
      rw [hoff] at hk hb
      exact h.transfer hk hb
    · cases hn
  | log l =>
    cases hn
    exact { h with consistent := h.consistent.setLogged l }

/-- In every interleaving of calls of any processes. -/
theorem shared_file_tiled [DecidableEq P] (h : Reachable (SharedInit sb first) (sharedNext sb) noGuard x) :
    Tiled sb first x := by
  have hinv : SharedInv sb first x := by
    apply h.invariant
    · rintro x ⟨hc, hv, hoff, hlt, -, hdone⟩
      refine ⟨hc, hv, hoff ▸ hlt, ?_, ?_⟩
      · rw [hdone]
        exact hoff
      · simp [hdone]
    · exact fun x a y hx _ hn => hx.next hn
  exact ⟨hinv.consecutive, hinv.consecutive.pairwise, hinv.consecutive.sum, hinv.stored⟩

end Runs

/-- The empty file, open for writing in two processes. -/
def sharedBlank : Shared Bool :=
  ⟨blankFs, { kind := .inode, ref := 2, readable := true, writable := true, ip := 1, off := 0, major := 0 },
    fun _ => none, []⟩

/-- Two processes write three and two bytes, and one of them then reads at the end of the file. -/
theorem shared_file_tiled_two : ∃ x, run (sharedNext blankSb) sharedBlank
      [.filewrite true ⟨fun _ => 65, none⟩ 3, .filewrite false ⟨fun _ => 66, none⟩ 2, .chunk false, .chunk true,
        .fileread true 9 4] = some x ∧ x.done.length = 3 ∧ Tiled blankSb 0 x := by
  have hrun : (run (sharedNext blankSb) sharedBlank
      [.filewrite true ⟨fun _ => 65, none⟩ 3, .filewrite false ⟨fun _ => 66, none⟩ 2, .chunk false, .chunk true,
        .fileread true 9 4]).map (fun x => x.done.length) = some 3 := by decide +kernel
  obtain ⟨x, hx, hlen⟩ := Option.map_eq_some_iff.mp hrun
  refine ⟨x, hx, hlen, shared_file_tiled (reachable_run (.start ?_) hx)⟩
  exact ⟨blankFs_consistent, rfl, rfl, by decide, fun _ => rfl, rfl⟩

end Xv6Lab.FileSys
