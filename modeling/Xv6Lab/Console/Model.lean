import Xv6Lab.Lib.RingBuffer
import Xv6Lab.Lib.Transition

/-!
# Console input

The model of `consoleintr` and `consoleread` in `console.c`. Input is kept in a ring of `INPUT_BUF_SIZE` bytes with
three 32-bit counters: `r` for the next byte to read, `w` for the end of the committed lines, `e` for the end of the
line being edited. Any number of processes call `consoleread`; `cons.lock` is held from the start of a call, or from
the return of `sleep`, to the next `sleep` or the end of the call, and each such section is one step, as is each
`consoleintr`. The state records what was typed and what readers were given.
-/

namespace Xv6Lab.Console

open Function Lib.RingBuffer

abbrev inputBufSize : Nat := 128

/-! ## Characters -/

abbrev ctrlP : UInt8 := 16
abbrev ctrlU : UInt8 := 21
abbrev ctrlH : UInt8 := 8
abbrev ctrlD : UInt8 := 4
abbrev del : UInt8 := 0x7f
abbrev newline : UInt8 := 10
abbrev carriageReturn : UInt8 := 13

/-- `(c == '\r') ? '\n' : c`. -/
def mapReturn (c : UInt8) : UInt8 := if c = carriageReturn then newline else c

/-! ## The buffer -/

/-- The fields of `cons`. -/
structure Cons where
  buf : Nat → UInt8
  r : BitVec 32
  w : BitVec 32
  e : BitVec 32

/-- The loop of `^U`; it runs `e - w` times at most. -/
def killLoop : Nat → Cons → Cons
  | 0, s => s
  | k + 1, s =>
    if s.e ≠ s.w ∧ s.buf ((s.e - 1#32).toNat % inputBufSize) ≠ newline then killLoop k { s with e := s.e - 1#32 }
    else s

/-- `^H` and delete. -/
def erase (s : Cons) : Cons := if s.e ≠ s.w then { s with e := s.e - 1#32 } else s

/-- A character is stored, and the line committed if it is complete or the buffer full. -/
def store (s : Cons) (c : UInt8) : Cons × Bool :=
  let s := { s with buf := update s.buf (s.e.toNat % inputBufSize) c, e := s.e + 1#32 }
  if c = newline ∨ c = ctrlD ∨ s.e - s.r = BitVec.ofNat 32 inputBufSize then ({ s with w := s.e }, true)
  else (s, false)

/-- `consoleintr`; the flag says that it calls `wakeup(&cons.r)`. -/
def consoleintr (s : Cons) (c : UInt8) : Cons × Bool :=
  if c = ctrlP then (s, false)
  else if c = ctrlU then (killLoop (s.e - s.w).toNat s, false)
  else if c = ctrlH ∨ c = del then (erase s, false)
  else if c ≠ 0 ∧ s.e - s.r < BitVec.ofNat 32 inputBufSize then store s (mapReturn c)
  else (s, false)

/-- How a section of `consoleread` ends: the call returns a value, or sleeps with `n` bytes left to read. -/
inductive ReadEnd where
  | returned (v : Int)
  | sleep (n : Nat)
  deriving DecidableEq

/-- What becomes of a character that a reader takes: it is copied out, it is an end of file that ends a 0-byte read,
or it cannot be copied out and is lost. -/
inductive Delivery where
  | byte (c : UInt8)
  | eof
  | lost (c : UInt8)
  deriving DecidableEq

/-- The character of the input that a delivery stands for. -/
def Delivery.char : Delivery → UInt8
  | .byte c => c
  | .eof => ctrlD
  | .lost c => c

/-- Whether the reading process is killed when it looks, and whether `either_copyout` succeeds for each byte. -/
structure ReadEnv where
  killed : Bool
  copyout : Nat → Bool

/-- A section of `consoleread` with `n` bytes left of `target`: how it ends, the buffer after it, and what becomes of
the characters it takes. -/
def readSection (env : ReadEnv) (target : Nat) : Nat → Cons → ReadEnd × Cons × List Delivery
  | 0, s => (.returned target, s, [])
  | n + 1, s =>
    if s.r = s.w then (if env.killed then .returned (-1) else .sleep (n + 1), s, [])
    else
      let c := s.buf (s.r.toNat % inputBufSize)
      let s := { s with r := s.r + 1#32 }
      if c = ctrlD then
        if n + 1 < target then (.returned (target - (n + 1 : Nat)), { s with r := s.r - 1#32 }, [])
        else (.returned (target - (n + 1 : Nat)), s, [.eof])
      else if env.copyout (target - (n + 1)) = false then (.returned (target - (n + 1 : Nat)), s, [.lost c])
      else if c = newline then (.returned (target - n), s, [.byte c])
      else
        let (o, s, got) := readSection env target n s
        (o, s, .byte c :: got)

/-! ## Readers -/

/-- Where a process stands: outside, after a call that returned `v`; or in a `consoleread` of `target` bytes with
`n` bytes left, running or asleep. -/
inductive Pc where
  | out (v : Option Int)
  | reading (target n : Nat)
  | asleep (target n : Nat)
  deriving DecidableEq

/-- What happens to the input: a character arrives, or readers go past `k` characters. -/
inductive Event where
  | typed (c : UInt8)
  | passed (k : Nat)

structure State (P : Type) where
  cons : Cons
  pc : P → Pc
  /-- The events so far, in order. -/
  events : List Event
  /-- What readers have taken so far, in order. -/
  log : List Delivery

/-- `consoleread` with `n ≤ 0` returns 0 at once, as one with `n = 0` does. -/
inductive Action (P : Type) where
  | consoleintr (c : UInt8)
  | consoleread (p : P) (n : Int)
  | read (p : P) (env : ReadEnv)
  | kkill (p : P)

/-- `wakeup(&cons.r)`. -/
def wake : Pc → Pc
  | .asleep target n => .reading target n
  | x => x

variable {P : Type} [DecidableEq P]

def intrStep (s : State P) (c : UInt8) : State P :=
  { s with
    cons := (consoleintr s.cons c).1
    pc := fun p => if (consoleintr s.cons c).2 then wake (s.pc p) else s.pc p
    events := s.events ++ [.typed c] }

/-- Where a process stands after a section of `consoleread`. -/
def ReadEnd.pc (target : Nat) : ReadEnd → Pc
  | .returned v => .out (some v)
  | .sleep n => .asleep target n

def readStep (s : State P) (p : P) (env : ReadEnv) (target n : Nat) : State P :=
  let out := readSection env target n s.cons
  { cons := out.2.1
    pc := update s.pc p (out.1.pc target)
    events := s.events ++ [.passed out.2.2.length]
    log := s.log ++ out.2.2 }

def next (s : State P) : Action P → Option (State P)
  | .consoleintr c => some (intrStep s c)
  | .consoleread p n =>
    match s.pc p with
    | .out _ => some { s with pc := update s.pc p (.reading n.toNat n.toNat) }
    | _ => none
  | .read p env =>
    match s.pc p with
    | .reading target n => some (readStep s p env target n)
    | _ => none
  | .kkill p => some { s with pc := update s.pc p (wake (s.pc p)) }

/-- The buffer after boot. -/
structure Init (s : State P) : Prop where
  r : s.cons.r = 0
  w : s.cons.w = 0
  e : s.cons.e = 0
  pc : ∀ p, s.pc p = .out none
  events : s.events = []
  log : s.log = []

end Xv6Lab.Console
