import Xv6Lab.Console.Model
import Xv6Lab.Pipes.Model
import Xv6Lab.Process.Model

/-!
# Wait loops and the killed flag

The six system calls that wait for other processes or for the outside world: `pipewrite`, `piperead`, `consoleread`,
`sys_pause`, `kwait` and `sys_mutex_lock`. `round` runs a call from the head of its wait loop to its return or to the
next time it gives up the CPU, with the flag as `killed` reads it. What the call waits for is an argument (`World`),
since other processes may have left it in any state.

All loops but one look at the flag before they sleep. `sys_mutex_lock` never does: a killed caller returns exactly if
the word it reads is 0 or cannot be read (`killed_returns_iff`), and otherwise it yields for as long as the word
stays locked (`killed_mutex_lock_spins`).
-/

namespace Xv6Lab.Process.Waiting

/-- A call at the head of its wait loop, with its arguments and its progress. -/
inductive WaitCall where
  /-- `i` of `n` bytes are written -/
  | pipewrite (n : Int) (i : Nat)
  | piperead (n : Int)
  /-- `n` of `target` bytes are left to read -/
  | consoleread (target n : Nat)
  | pause (n : Nat) (ticks0 : BitVec 32)
  | kwait (p : Fin nproc) (addr : Nat)
  | mutexLock (addr : Nat)

/-- What the calls read: the pipe, the console, the clock, each entry of the process table as it is when its lock is
taken, and what `copyin` and `copyout` answer. -/
structure World where
  pipe : Pipes.Pipe
  cons : Console.Cons
  ticks : BitVec 32
  proc : Fin nproc → Proc
  copyin : Nat → Option UInt8
  copyout : Nat → Bool
  /-- The 32-bit word at an address. -/
  word : Nat → Option (BitVec 32)

/-- How a round ends. -/
inductive Outcome where
  | returns (v : Int)
  | sleeps (c : WaitCall)
  | yields (c : WaitCall)

/-- The scan of `kwait` over the entries that are left, and the test after it. -/
def kwaitScan (killed : Bool) (w : World) (p : Fin nproc) (addr : Nat) : List (Fin nproc) → Bool → Outcome
  | [], havekids => if havekids = false ∨ killed = true then .returns (-1) else .sleeps (.kwait p addr)
  | i :: is, havekids =>
    if (w.proc i).parent = some p then
      if (w.proc i).state = .zombie then
        if addr ≠ 0 ∧ w.copyout 0 = false then .returns (-1) else .returns (w.proc i).pid
      else kwaitScan killed w p addr is true
    else kwaitScan killed w p addr is havekids

/-- One round of `sys_mutex_lock`. -/
def mutexLockRound (w : World) (addr : Nat) : Outcome :=
  match w.word addr with
  | none => .returns (-1)
  | some val =>
    if val = 0 then (if w.copyout 0 then .returns 0 else .returns (-1)) else .yields (.mutexLock addr)

/-- A call from the head of its wait loop. -/
def round (killed : Bool) (w : World) : WaitCall → Outcome
  | .pipewrite n i =>
    match (Pipes.pipewriteLoop ⟨fun _ => killed, w.copyin⟩ (n - i).toNat i w.pipe).1 with
    | .fail => .returns (-1)
    | .sleep j => .sleeps (.pipewrite n j)
    | .done v => .returns v
  | .piperead n =>
    match (Pipes.pipereadSection ⟨killed, w.copyout⟩ n w.pipe).1 with
    | .fail => .returns (-1)
    | .sleep _ => .sleeps (.piperead n)
    | .done v => .returns v
  | .consoleread target n =>
    match (Console.readSection ⟨killed, w.copyout⟩ target n w.cons).1 with
    | .returned v => .returns v
    | .sleep m => .sleeps (.consoleread target m)
  | .pause n ticks0 =>
    if (w.ticks - ticks0).toNat < n then
      if killed then .returns (-1) else .sleeps (.pause n ticks0)
    else .returns 0
  | .kwait p addr => kwaitScan killed w p addr (List.finRange nproc) false
  | .mutexLock addr => mutexLockRound w addr

/-- What a call returns if it gets the CPU back once in each of the given worlds. -/
def resume (killed : Bool) : WaitCall → List World → Option Int
  | _, [] => none
  | c, w :: ws =>
    match round killed w c with
    | .returns v => some v
    | .sleeps c => resume killed c ws
    | .yields c => resume killed c ws

/-! ## The loops of a killed caller -/

theorem pipewriteLoop_killed (copyin : Nat → Option UInt8) (pi : Pipes.Pipe) (k i : Nat) :
    (Pipes.pipewriteLoop ⟨fun _ => true, copyin⟩ k i pi).1 = if k = 0 then .done i else .fail := by
  cases k with
  | zero => rfl
  | succ k => simp [Pipes.pipewriteLoop]

theorem pipereadSection_killed (copyout : Nat → Bool) (n : Int) (pi : Pipes.Pipe) (j : Nat) :
    (Pipes.pipereadSection ⟨true, copyout⟩ n pi).1 ≠ .sleep j := by
  rw [Pipes.pipereadSection]
  split <;> simp

/-- A killed reader of the console takes what is there and then returns. -/
theorem readSection_killed (copyout : Nat → Bool) (target m : Nat) : ∀ (n : Nat) (s : Console.Cons),
    (Console.readSection ⟨true, copyout⟩ target n s).1 ≠ .sleep m
  | 0, s => by simp [Console.readSection]
  | n + 1, s => by
      have ih := readSection_killed copyout target m n { s with r := s.r + 1#32 }
      rw [Console.readSection]
      split
      · simp
      · dsimp only
        repeat' split
        all_goals first | exact ih | simp

theorem kwaitScan_killed (w : World) (p : Fin nproc) (addr : Nat) : ∀ (is : List (Fin nproc)) (havekids : Bool),
    ∃ v, kwaitScan true w p addr is havekids = .returns v
  | [], havekids => ⟨-1, by simp [kwaitScan]⟩
  | i :: is, havekids => by
      have ih := kwaitScan_killed w p addr is
      rw [kwaitScan]
      split
      · split
        · split
          · exact ⟨_, rfl⟩
          · exact ⟨_, rfl⟩
        · exact ih true
      · exact ih havekids

theorem mutexLockRound_returns (w : World) (addr : Nat) :
    (∃ v, mutexLockRound w addr = .returns v) ↔ w.word addr = none ∨ w.word addr = some 0 := by
  rw [mutexLockRound]
  cases w.word addr with
  | none => simp
  | some val =>
    by_cases hval : val = 0#32
    · cases w.copyout 0 <;> simp [hval]
    · simp [hval]

/-- A killed caller at the head of its wait loop returns without giving up the CPU, whatever it waits for, unless it
is `sys_mutex_lock` and reads a word that is not 0. -/
theorem killed_returns_iff (c : WaitCall) (w : World) : (∃ v, round true w c = .returns v) ↔
      ∀ addr, c = .mutexLock addr → w.word addr = none ∨ w.word addr = some 0 := by
  cases c with
  | pipewrite n i =>
    refine iff_of_true ?_ (by simp)
    rw [round, pipewriteLoop_killed]
    split
    · exact ⟨-1, rfl⟩
    · next hsleep => split at hsleep <;> cases hsleep
    · exact ⟨_, rfl⟩
  | piperead n =>
    refine iff_of_true ?_ (by simp)
    rw [round]
    split
    · exact ⟨-1, rfl⟩
    · next hsleep => exact absurd hsleep (pipereadSection_killed _ _ _ _)
    · exact ⟨_, rfl⟩
  | consoleread target n =>
    refine iff_of_true ?_ (by simp)
    rw [round]
    split
    · exact ⟨_, rfl⟩
    · next hsleep => exact absurd hsleep (readSection_killed _ _ _ _ _)
  | pause n ticks0 =>
    refine iff_of_true ?_ (by simp)
    rw [round]
    split
    · exact ⟨-1, rfl⟩
    · exact ⟨0, rfl⟩
  | kwait p addr =>
    refine iff_of_true ?_ (by simp)
    exact kwaitScan_killed w p addr _ false
  | mutexLock addr =>
    rw [round, mutexLockRound_returns]
    constructor
    · intro h addr' heq
      cases heq
      exact h
    · intro h
      exact h addr rfl

/-- A world in which the word at every address is 1, as an owner of the mutex leaves it. -/
def lockedWorld : World where
  pipe := ⟨⟨fun _ => 0, 0, 0⟩, true, true⟩
  cons := ⟨fun _ => 0, 0, 0, 0⟩
  ticks := 0
  proc := fun _ => ⟨.unused, 0, false, 0, 0, 0, none, .forkret⟩
  copyin := fun _ => none
  copyout := fun _ => true
  word := fun _ => some 1

/-- A killed caller of `mutex_lock` yields in a world where the word is 1, and does not return however often it gets
the CPU back there. -/
theorem killed_mutex_lock_spins :
    round true lockedWorld (.mutexLock 4096) = .yields (.mutexLock 4096) ∧
      ∀ k, resume true (.mutexLock 4096) (List.replicate k lockedWorld) = none := by
  have hround : round true lockedWorld (.mutexLock 4096) = .yields (.mutexLock 4096) := rfl
  refine ⟨hround, fun k => ?_⟩
  induction k with
  | zero => rfl
  | succ k ih =>
    rw [List.replicate_succ, resume, hround]
    exact ih

end Xv6Lab.Process.Waiting
