import Xv6Lab.Console.Model
import Xv6Lab.FileSys.Nodes
import Xv6Lab.FileSys.ByteLists
import Xv6Lab.FileSys.Syscalls
import Xv6Lab.Pipes.Model

/-!
# Reading from an open file

`fileread` on a pipe, the console and an inode. Each backend stores bytes from the start of the user's buffer on, so
a read is described by the value it returns and the bytes it stores. The pipe and the console compare the signed
length with a counter; `readi` gets it as an unsigned number and clips it to the end of the file, so that a negative
length reads the rest of the file when the offset is smaller than its magnitude (`read_negative_length`).
`fileread_within_buffer` says exactly when a read stays within its buffer.
-/

namespace Xv6Lab.FileSys

open Lib.Exec

variable {sb : Superblock} {s : Fs} {i : Nat} {r : Int × List UInt8}

/-- `NDEV`. -/
def ndev : Int := 10

/-- `CONSOLE`, the only device with a `read` function. -/
def consoleMajor : Int := 1

/-! ## The calls -/

/-- `piperead` of `n` bytes. The call runs in sections, one after each return of `sleep`, and other processes change
the pipe in between; each section is given with the pipe it finds. No result means that the call still sleeps. -/
def piperead (n : Int) : List (Pipes.ReadEnv × Pipes.Pipe) → Option (Int × List UInt8)
  | [] => none
  | (env, pi) :: rest =>
    match Pipes.pipereadSection env n pi with
    | (.fail, _, bytes) => some (-1, bytes)
    | (.sleep _, _, _) => piperead n rest
    | (.done r, _, bytes) => some (r, bytes)

/-- The bytes that a section of `consoleread` stores. -/
def stored (got : List Console.Delivery) : List UInt8 :=
  got.filterMap fun d =>
    match d with
    | .byte c => some c
    | .eof | .lost _ => none

/-- `consoleread` of `target` bytes with `n` left to read, again in sections. -/
def consolereadFrom (target : Nat) : Nat → List (Console.ReadEnv × Console.Cons) → Option (Int × List UInt8)
  | _, [] => none
  | n, (env, cons) :: rest =>
    match Console.readSection env target n cons with
    | (.returned v, _, got) => some (v, stored got)
    | (.sleep left, _, got) => (consolereadFrom target left rest).map fun r => (r.1, stored got ++ r.2)

/-- `consoleread`; its loop is not entered when `n` is not positive. -/
def consoleread (n : Int) (visits : List (Console.ReadEnv × Console.Cons)) : Option (Int × List UInt8) :=
  consolereadFrom n.toNat n.toNat visits

/-- What a reader meets: the sections on the pipe or the console, and how many bytes from the buffer's address on
can be written. -/
structure ReadEnv where
  pipe : List (Pipes.ReadEnv × Pipes.Pipe)
  console : List (Console.ReadEnv × Console.Cons)
  writable : Nat

def filereadPipe (env : ReadEnv) (n : Int32) : Option (Int × List UInt8) := piperead n.toInt env.pipe

def filereadDevice (e : File) (env : ReadEnv) (n : Int32) : Option (Int × List UInt8) :=
  if e.major < 0 ∨ ndev ≤ e.major ∨ e.major ≠ consoleMajor then some (-1, []) else consoleread n.toInt env.console

def filereadInode (sb : Superblock) (f : Fin nfile) (e : File) (env : ReadEnv) (n : Int32) :
    FsM (Int × List UInt8) := do
  ilock sb e.ip
  let r ← readi sb e.ip (some env.writable) (UInt32.ofNat e.off) n.toUInt32
  if 0 < r.1 then setFile f { e with off := (e.off + r.1.toNat) % 2 ^ 32 } else pure ()
  pure r

/-- `fileread`: the value it returns and the bytes it stores from the start of the buffer on. -/
def fileread (sb : Superblock) (f : Fin nfile) (env : ReadEnv) (n : Int32) : FsM (Option (Int × List UInt8)) := do
  let s ← get
  let e := s.ftable f
  if e.readable = false then pure (some (-1, []))
  else
    match e.kind with
    | .pipe => pure (filereadPipe env n)
    | .device => pure (filereadDevice e env n)
    | .inode => some <$> filereadInode sb f e env n
    | .none => throw (.panic "fileread")

/-! ## Pipe and console -/

/-- A read returns at most `n` and stores at most `n` bytes, with a negative length counted as 0. -/
def Within (n : Int) (r : Int × List UInt8) : Prop := r.1 ≤ max n 0 ∧ (r.2.length : Int) ≤ max n 0

theorem within_failed (n : Int) : Within n (-1, []) := by
  constructor
  · omega
  · exact le_max_right n 0

/-- The loop of `piperead` with `k` bytes left. -/
theorem pipereadLoop_le (env : Pipes.ReadEnv) (k i : Nat) (pi : Pipes.Pipe) :
    (Pipes.pipereadLoop env k i pi).1 ≤ i + k ∧ (Pipes.pipereadLoop env k i pi).2.2.length ≤ k := by
  induction k generalizing i pi with
  | zero => simp [Pipes.pipereadLoop]
  | succ k ih =>
    rw [Pipes.pipereadLoop]
    split
    · simp
      omega
    split
    · split
      · simp
        omega
      · simp
        omega
    · obtain ⟨hret, hlen⟩ := ih (i + 1) { pi with ring := pi.ring.pop }
      constructor
      · refine hret.trans ?_
        push_cast
        omega
      · exact Nat.succ_le_succ hlen

theorem piperead_within {n : Int} {visits : List (Pipes.ReadEnv × Pipes.Pipe)}
    (h : piperead n visits = some r) : Within n r := by
  induction visits with
  | nil => cases h
  | cons visit rest ih =>
    obtain ⟨env, pi⟩ := visit
    rw [piperead, Pipes.pipereadSection] at h
    by_cases hwait : (pi.empty && pi.writeopen) = true
    · simp only [if_pos hwait] at h
      by_cases hkilled : env.killed = true
      · simp only [if_pos hkilled, Option.some.injEq] at h
        rw [← h]
        exact within_failed n
      · simp only [if_neg hkilled] at h
        exact ih h
    · simp only [if_neg hwait, Option.some.injEq] at h
      rw [← h]
      obtain ⟨hret, hlen⟩ := pipereadLoop_le env n.toNat 0 pi
      constructor
      · omega
      · show ((Pipes.pipereadLoop env n.toNat 0 pi).2.2.length : Int) ≤ max n 0
        omega

@[simp] theorem stored_byte (c : UInt8) (got : List Console.Delivery) :
    stored (.byte c :: got) = c :: stored got := rfl

/-- A section of `consoleread` stores a byte for each one that it takes off the count. -/
theorem readSection_within (env : Console.ReadEnv) {target n : Nat} (cons : Console.Cons) (hn : n ≤ target) :
    (∀ v, (Console.readSection env target n cons).1 = .returned v → v ≤ target ∧
      (stored (Console.readSection env target n cons).2.2).length ≤ n) ∧
    ∀ left, (Console.readSection env target n cons).1 = .sleep left → left ≤ n ∧
      (stored (Console.readSection env target n cons).2.2).length = n - left := by
  induction n generalizing cons with
  | zero =>
    rw [Console.readSection]
    refine ⟨fun v hv => ?_, fun left hleft => ?_⟩
    · cases hv
      exact ⟨le_rfl, le_rfl⟩
    · cases hleft
  | succ n ih =>
    rw [Console.readSection]
    split
    · refine ⟨fun v hv => ?_, fun left hleft => ?_⟩
      · split at hv
        · cases hv
          exact ⟨by omega, Nat.zero_le _⟩
        · cases hv
      · split at hleft
        · cases hleft
        · cases hleft
          exact ⟨le_rfl, by simp [stored]⟩
    dsimp only
    split
    · -- an end of file ends the call
      split
      all_goals
        refine ⟨fun v hv => ?_, nofun⟩
        cases hv
        exact ⟨by omega, Nat.zero_le _⟩
    split
    · refine ⟨fun v hv => ?_, nofun⟩
      cases hv
      exact ⟨by omega, Nat.zero_le _⟩
    split
    · refine ⟨fun v hv => ?_, nofun⟩
      cases hv
      exact ⟨by omega, by simp [stored]⟩
    obtain ⟨hret, hsleep⟩ := ih { cons with r := cons.r + 1#32 } (by omega)
    refine ⟨fun v hv => ?_, fun left hleft => ?_⟩
    · obtain ⟨hv, hlen⟩ := hret v hv
      exact ⟨hv, Nat.succ_le_succ hlen⟩
    obtain ⟨hle, hlen⟩ := hsleep left hleft
    refine ⟨by omega, ?_⟩
    rw [stored_byte, List.length_cons, hlen]
    omega

theorem consolereadFrom_within {target n : Nat} (hn : n ≤ target) {visits : List (Console.ReadEnv × Console.Cons)}
    (h : consolereadFrom target n visits = some r) : r.1 ≤ target ∧ r.2.length ≤ n := by
  induction visits generalizing n r with
  | nil => cases h
  | cons visit rest ih =>
    obtain ⟨env, cons⟩ := visit
    obtain ⟨hret, hsleep⟩ := readSection_within env cons hn
    rw [consolereadFrom] at h
    revert h hret hsleep
    rcases Console.readSection env target n cons with ⟨out, cons', got⟩
    intro h hret hsleep
    cases out with
    | returned v =>
      cases h
      exact hret v rfl
    | sleep left =>
      obtain ⟨r', hr', rfl⟩ := Option.map_eq_some_iff.mp h
      obtain ⟨hle, hlen⟩ := hsleep left rfl
      obtain ⟨hret', hlen'⟩ := ih (hle.trans hn) hr'
      refine ⟨hret', ?_⟩
      rw [List.length_append]
      dsimp only at hlen
      omega

theorem consoleread_within {n : Int} {visits : List (Console.ReadEnv × Console.Cons)}
    (h : consoleread n visits = some r) : Within n r := by
  obtain ⟨hret, hlen⟩ := consolereadFrom_within le_rfl h
  constructor <;> omega

/-! ## Inodes -/

/-- A read does not take the offset around. -/
theorem readLength_lt (size : Nat) (off n : UInt32) : off.toNat + readLength size off n < 2 ^ 32 := by
  rw [readLength]
  split
  · exact off.toNat_lt
  next hgood =>
    have hrange := (not_badRange_iff.mp hgood).2
    omega

theorem readi_user (h : Held sb i s) (hsz : Sized sb s i) (l : Nat) (off n : UInt32) :
    wp (readi sb i (some l) off n)
      (fun r t => t = s ∧
        r.1 = (if readLength (view s i).size off n ≤ l then (readLength (view s i).size off n : Int) else -1) ∧
        r.2.length = min (readLength (view s i).size off n) l)
      (fun _ => False) s := by
  refine wp_post (readi_exact h hsz (some l) off n rfl) ?_
  rintro r t ⟨ht, hret, hr⟩
  have hcopy : ∀ m, copyable (some l) 0 m = min m l := fun m => rfl
  rw [hcopy] at hret hr
  refine ⟨ht, hret.trans (if_congr min_eq_left_iff rfl rfl), ?_⟩
  rw [hr, Lib.Segments.length_seg]

/-- `ilock` of an inode in use that has a reference loads what the kernel sees of it already. -/
theorem ilock_open (h : Consistent sb s) (href : 0 < (s.icache i).ref) (halloc : Allocated sb s i) :
    wp (ilock sb i)
      (fun _ t => Consistent sb t ∧ (t.icache i).valid = true ∧ view t i = view s i ∧ t.ftable = s.ftable)
      (fun _ => False) s := by
  have hkeeps : wp (ilock sb i) (fun _ t => view t i = view s i ∧ t.ftable = s.ftable) (fun _ => False) s := by
    rw [ilock, wp_bind, wp_get, if_neg (by omega)]
    split
    · exact wp_pure.mpr ⟨rfl, rfl⟩
    next hv =>
    have hview : view s i = s.dinode i := if_neg hv
    rw [if_neg (not_le.mpr halloc.1), wp_bind, wp_setEntry, if_neg (hview ▸ halloc.2)]
    refine wp_pure.mpr ⟨?_, rfl⟩
    rw [hview, view]
    simp
  refine wp_mono (wp_and hkeeps (ilock_spec h i)) ?_ fun _ he => he.1
  rintro _ t ⟨⟨hview, hfiles⟩, hc, -, hvalid⟩
  exact ⟨hc, hvalid, hview, hfiles⟩

/-- A read stays within the buffer, and the offset moves by what it returns, if that is positive and the file an
inode. -/
structure ReadOk (n : Int) (f : Fin nfile) (s t : Fs) (r : Int × List UInt8) : Prop where
  within : Within n r
  off : (t.ftable f).off = (s.ftable f).off + if (s.ftable f).kind = .inode then r.1.toNat else 0

/-- The read of an inode at offset `off`, in full. -/
theorem filereadInode_spec {f : Fin nfile} (env : ReadEnv) {n : Int32} {e : File} (h : Consistent sb s)
    (hoff : e.off < 2 ^ 32) (href : 0 < (s.icache e.ip).ref) (halloc : Allocated sb s e.ip) (he : s.ftable f = e)
    {len : Nat} (hlen : len = readLength (view s e.ip).size (UInt32.ofNat e.off) n.toUInt32) :
    wp (filereadInode sb f e env n)
      (fun r t => r.1 = (if len ≤ env.writable then (len : Int) else -1) ∧ r.2.length = min len env.writable ∧
        (t.ftable f).off = e.off + r.1.toNat)
      (fun _ => False) s := by
  rw [filereadInode]
  refine wp_seq (ilock_open h href halloc) (fun _ hf => hf) ?_
  rintro _ t ⟨hc, hvalid, hview, hfiles⟩
  refine wp_seq (readi_user (hc.held hvalid) (hc.sized hvalid) env.writable _ _) (fun _ hf => hf) ?_
  rintro r u ⟨rfl, hret, hbytes⟩
  rw [hview, ← hlen] at hret hbytes
  by_cases hpos : 0 < r.1
  · rw [if_pos hpos, wp_bind, setFile, wp_modify]
    refine wp_pure.mpr ⟨hret, hbytes, ?_⟩
    have hfit : len ≤ env.writable := by
      by_contra hnot
      rw [if_neg hnot] at hret
      omega
    rw [if_pos hfit] at hret
    have hsum := readLength_lt (view s e.ip).size (UInt32.ofNat e.off) n.toUInt32
    rw [← hlen, UInt32.toNat_ofNat', Nat.mod_eq_of_lt hoff] at hsum
    dsimp only
    rw [Function.update_self]
    apply Nat.mod_eq_of_lt
    omega
  · rw [if_neg hpos]
    refine wp_pure.mpr ⟨hret, hbytes, ?_⟩
    rw [hfiles, he]
    omega

/-- A signed length as an unsigned one. -/
theorem toNat_toUInt32 (n : Int32) :
    (n.toUInt32.toNat : Int) = if 0 ≤ n.toInt then n.toInt else n.toInt + 2 ^ 32 := by
  have hsigned : n.toInt = n.toBitVec.toInt := rfl
  have hunsigned : n.toUInt32.toNat = n.toBitVec.toNat := rfl
  rw [hsigned, hunsigned, BitVec.toInt_eq_toNat_cond]
  split <;> split <;> omega

/-- A read at most clips its length: it sets out to copy at most `n` bytes if `n` is not negative, and nothing for a
negative `n` only where the offset is past the end or at least the magnitude of `n`. -/
theorem readLength_signed (size : Nat) {off : Nat} (n : Int32) (hoff : off < 2 ^ 32) :
    (0 ≤ n.toInt → (readLength size (UInt32.ofNat off) n.toUInt32 : Int) ≤ n.toInt) ∧
    (n.toInt < 0 → (readLength size (UInt32.ofNat off) n.toUInt32 = 0 ↔ -n.toInt ≤ off ∨ size ≤ off)) := by
  have hofNat : (UInt32.ofNat off).toNat = off := by
    rw [UInt32.toNat_ofNat', Nat.mod_eq_of_lt hoff]
  have hn := toNat_toUInt32 n
  have hmin := n.le_toInt
  have hrange := @not_badRange_iff size (UInt32.ofNat off) n.toUInt32
  unfold ReadRange at hrange
  rw [hofNat] at hrange
  unfold readLength
  rw [hofNat]
  constructor
  · intro hpos
    rw [if_pos hpos] at hn
    split <;> omega
  intro hneg
  rw [if_neg (by omega)] at hn
  split
  next hbad =>
    have hnot : ¬ (off ≤ size ∧ off + n.toUInt32.toNat < 2 ^ 32) := fun hr => hrange.mpr hr hbad
    omega
  next hgood =>
    have hr := hrange.mp hgood
    omega

/-- For every open file: a read stays within its buffer, exactly unless it is a read of an inode with a negative
length whose magnitude exceeds the offset, with bytes left in the file and a first byte of the buffer that can be
written. -/
theorem fileread_within_buffer {f : Fin nfile} {env : ReadEnv} {n : Int32} (h : Consistent sb s)
    (hkind : (s.ftable f).kind ≠ .none) (hoff : (s.ftable f).off < 2 ^ 32)
    (hopen : (s.ftable f).kind = .inode → 0 < (s.icache (s.ftable f).ip).ref ∧ Allocated sb s (s.ftable f).ip) :
    wp (fileread sb f env n) (fun res t => ∀ r, res = some r → ReadOk n.toInt f s t r) (fun _ => False) s ↔
      ((s.ftable f).readable = true → (s.ftable f).kind = .inode →
        0 ≤ n.toInt ∨ -n.toInt ≤ (s.ftable f).off ∨ (view s (s.ftable f).ip).size ≤ (s.ftable f).off ∨
          env.writable = 0) := by
  rw [fileread, wp_bind, wp_get]
  -- a read that leaves the file table alone is within the buffer
  have hsame : ∀ {res : Option (Int × List UInt8)}, (s.ftable f).kind ≠ .inode →
      (∀ r, res = some r → Within n.toInt r) → ∀ r, res = some r → ReadOk n.toInt f s s r := by
    intro res hne hres r hr
    refine ⟨hres r hr, ?_⟩
    rw [if_neg hne]
    rfl
  by_cases hread : (s.ftable f).readable = false
  · rw [if_pos hread]
    constructor
    · intro _ htrue
      rw [hread] at htrue
      cases htrue
    intro _
    refine wp_pure.mpr fun r hr => ?_
    obtain rfl := Option.some.inj hr
    refine ⟨within_failed _, ?_⟩
    split <;> rfl
  rw [if_neg hread]
  have hread : (s.ftable f).readable = true := Bool.not_eq_false _ ▸ hread
  cases hk : (s.ftable f).kind with
  | none => exact absurd hk hkind
  | pipe =>
    refine ⟨fun _ _ => nofun, fun _ => wp_pure.mpr (hsame (hk ▸ nofun) fun r hr => ?_)⟩
    exact piperead_within hr
  | device =>
    refine ⟨fun _ _ => nofun, fun _ => wp_pure.mpr (hsame (hk ▸ nofun) fun r hr => ?_)⟩
    unfold filereadDevice at hr
    split at hr
    · obtain rfl := Option.some.inj hr
      exact within_failed _
    · exact consoleread_within hr
  | inode =>
    obtain ⟨href, halloc⟩ := hopen hk
    obtain ⟨r, t, hrun, hret, hbytes, hmoved⟩ :=
      wp_returns (filereadInode_spec env h hoff href halloc rfl rfl) fun _ hf => hf
    obtain ⟨hpos, hneg⟩ := readLength_signed (view s (s.ftable f).ip).size n hoff
    have hok : ReadOk n.toInt f s t r ↔ Within n.toInt r := by
      refine ⟨fun hr => hr.within, fun hr => ⟨hr, ?_⟩⟩
      rw [if_pos hk, hmoved]
    rw [wp_map, wp_iff_of_ok hrun]
    constructor
    · intro hall _ _
      obtain ⟨-, hlen⟩ := hok.mp (hall r rfl)
      rw [hbytes] at hlen
      by_cases hsign : 0 ≤ n.toInt
      · exact .inl hsign
      · have hnone := hneg (not_le.mp hsign)
        omega
    · intro hcond r' hr'
      obtain rfl := Option.some.inj hr'
      refine hok.mpr ⟨?_, ?_⟩
      · have hcond := hcond hread rfl
        rw [hret]
        split <;> omega
      · have hcond := hcond hread rfl
        rw [hbytes]
        omega

/-- The first entry of the file table. -/
def firstFile : Fin nfile := ⟨0, by decide⟩

/-- Five bytes are written to the empty file and it is opened for reading. -/
def fiveBytes : Option Fs :=
  (contentStep blankSb blankFs (.writei 1 { bytes := fun _ => 65, limit := none } 0 5)).map fun t =>
    { t with ftable := fun _ =>
        { kind := .inode, ref := 1, readable := true, writable := false, ip := 1, off := 0, major := 0 } }

/-- A reader with a page of writable memory. -/
def onePage : ReadEnv := ⟨[], [], 4096⟩

theorem fiveBytes_consistent (h : fiveBytes = some s) : Consistent blankSb s := by
  obtain ⟨t, ht, rfl⟩ := Option.map_eq_some_iff.mp h
  have hc := blankFs_consistent.contentStep ht
  exact ⟨⟨hc.blocks.accounts, hc.blocks.sized⟩, hc.synced, hc.marked⟩

/-- A read of three of the five bytes. -/
theorem fileread_within_buffer_three : ∃ s, fiveBytes = some s ∧
    wp (fileread blankSb firstFile onePage 3) (fun res t => ∀ r, res = some r → ReadOk 3 firstFile s t r)
      (fun _ => False) s := by
  have hsome : (fiveBytes.map fun s => ((s.ftable firstFile).kind, (s.ftable firstFile).off,
      (s.ftable firstFile).ip, (s.icache 1).ref, (s.icache 1).valid)) = some (.inode, 0, 1, 1, true) := by
    decide +kernel
  obtain ⟨s, hs, hfields⟩ := Option.map_eq_some_iff.mp hsome
  simp only [Prod.mk.injEq] at hfields
  obtain ⟨hkind, hoff, hip, href, hvalid⟩ := hfields
  have hc := fiveBytes_consistent hs
  refine ⟨s, hs, ?_⟩
  apply (fileread_within_buffer (n := 3) hc _ _ _).mpr
  · intro _ _
    exact .inl (by decide)
  · rw [hkind]
    decide
  · rw [hoff]
    decide
  · intro _
    rw [hip, href]
    exact ⟨Nat.one_pos, (hc.held hvalid).allocated⟩

/-- `read(fd, buf, -1)` at the start of the file returns 5 and stores all five bytes of it. -/
theorem read_negative_length :
    (fiveBytes.bind fun s => match fileread blankSb firstFile onePage (-1) s with
      | .ok (some r) t => some (r.1, r.2.length, (t.ftable firstFile).off)
      | _ => none) = some (5, 5, 5) ∧ ∀ s, fiveBytes = some s → Consistent blankSb s := by
  refine ⟨?_, fun s hs => fiveBytes_consistent hs⟩
  decide +kernel

end Xv6Lab.FileSys
