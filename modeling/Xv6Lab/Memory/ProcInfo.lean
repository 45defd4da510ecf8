import Xv6Lab.Memory.Copies
import Xv6Lab.Process.Model

/-!
# Process information

`sys_getpinfo` copies a `struct pinfo` of the first table entry with a pid to the caller. The state in it is the value of
`enum procstate`, which has a `USED` that the documented coding does not know, and the search does not skip unused entries.
So no call that succeeds reports what is documented (`getpinfo_reports_iff`).
-/

namespace Xv6Lab.Memory

open Lib.Exec Process

/-! ## The call -/

/-- The process table with the names of the processes. -/
structure ProcTable where
  proc : Fin nproc → Proc
  name : Fin nproc → List UInt8

/-- The values of `enum procstate`. -/
def stateValue : ProcState → Nat
  | .unused => 0
  | .used => 1
  | .sleeping => 2
  | .runnable => 3
  | .running => 4
  | .zombie => 5

/-- The coding of states at `struct pinfo`. -/
def documentedState : ProcState → Option Nat
  | .unused => some 0
  | .used => none
  | .sleeping => some 1
  | .runnable => some 2
  | .running => some 3
  | .zombie => some 4

/-- The bytes of an `int`. -/
def intBytes (n : Int) : List UInt8 :=
  (List.range 4).map fun k => UInt8.ofNat ((BitVec.ofInt 32 n).toNat / 2 ^ (8 * k))

/-- `sizeof(struct pinfo)`. -/
abbrev pinfoSize : Nat := 28

namespace ProcTable

/-- `p->parent ? p->parent->pid : 0`. -/
def ppid (T : ProcTable) (i : Fin nproc) : Int :=
  match (T.proc i).parent with
  | none => 0
  | some q => (T.proc q).pid

/-- The name without its zero, cut to the 15 characters that fit. -/
def shortName (T : ProcTable) (i : Fin nproc) : List UInt8 := ((T.name i).takeWhile (· ≠ 0)).take 15

/-- A `struct pinfo` with the given state, up to the zero after the name. -/
def pinfo (T : ProcTable) (i : Fin nproc) (state : Nat) : List UInt8 :=
  intBytes (T.proc i).pid ++ intBytes state ++ intBytes (T.ppid i) ++ T.shortName i ++ [0]

/-- The structure that is copied out. `safestrcpy` writes a second zero after a short name; what follows is what was on
the kernel stack. -/
def info (T : ProcTable) (stack : Nat → UInt8) (i : Fin nproc) (k : Nat) : UInt8 :=
  (T.pinfo i (stateValue (T.proc i).state) ++ if (T.shortName i).length < 15 then [0] else []).getD k (stack k)

/-- The search of the table. -/
def find (T : ProcTable) (pid : BitVec 32) : Option (Fin nproc) :=
  (List.finRange nproc).find? fun i => (T.proc i).pid = pid.toInt

end ProcTable

/-- `sys_getpinfo`; it only reads the process table. -/
def sysGetpinfo (img : Image) (caller : Space) (T : ProcTable) (stack : Nat → UInt8) (pid : BitVec 32) (addr : Nat) :
    VmM Int :=
  if addr = 0 then pure (-1)
  else match T.find pid with
    | none => pure (-1)
    | some i => do
        let ok ← copyout img caller caller.pagetable addr (T.info stack i) pinfoSize
        pure (if ok then 0 else -1)

/-! ## What is documented -/

/-- The range at `addr` can be written, or faulted in, by a copy of what the call found. -/
def Writable (img : Image) (s : Vm) (caller : Space) (T : ProcTable) (stack : Nat → UInt8) (pid : BitVec 32) (addr : Nat) :
    Prop :=
  ∀ i, T.find pid = some i → ∀ k < pinfoSize,
    UserWritable s caller ((addr + k) / pgsize) ∨ FaultsIn img s caller addr (T.info stack i) ((addr + k) / pgsize)

/-- The documented outcome: 0 exactly for a process in use and a range that can be written, with the record of that
process, and else -1. -/
structure Reported (img : Image) (s : Vm) (caller : Space) (T : ProcTable) (stack : Nat → UInt8) (pid : BitVec 32)
    (addr : Nat) (r : Int) (t : Vm) : Prop where
  zero_iff : r = 0 ↔ addr ≠ 0 ∧ Writable img s caller T stack pid addr ∧
    ∃ i, (T.proc i).state ≠ .unused ∧ (T.proc i).pid = pid.toInt
  record : r = 0 → ∀ i, (T.proc i).state ≠ .unused → (T.proc i).pid = pid.toInt →
    ∃ code, documentedState (T.proc i).state = some code ∧
      ∀ k < (T.pinfo i code).length, userView t caller (addr + k) = some ((T.pinfo i code).getD k 0)
  failed : r ≠ 0 → r = -1
  frame : ∀ a, ¬ (addr ≤ a ∧ a < addr + pinfoSize) → userView t caller a = userView s caller a

section Getpinfo

variable {img : Image} {s t : Vm} {caller : Space} {T : ProcTable} {stack : Nat → UInt8} {pid : BitVec 32} {addr : Nat}

theorem find_eq_some {i : Fin nproc} (h : T.find pid = some i) : (T.proc i).pid = pid.toInt :=
  of_decide_eq_true (List.find?_some h :)

theorem find_eq_none (h : T.find pid = none) (i : Fin nproc) : (T.proc i).pid ≠ pid.toInt := fun hi =>
  List.find?_eq_none.mp h i (List.mem_finRange i) (decide_eq_true hi)

/-- The state is the fifth byte, whatever the rest of the record is. -/
theorem pinfo_state (T : ProcTable) (i : Fin nproc) {state : Nat} (hs : state < 256) (rest : List UInt8) (d : UInt8) :
    4 < (T.pinfo i state).length ∧ (T.pinfo i state ++ rest).getD 4 d = UInt8.ofNat state := by
  constructor
  · simp only [ProcTable.pinfo, intBytes, List.length_append, List.length_map, List.length_range]
    omega
  · have hbits : state % 4294967296 = state := Nat.mod_eq_of_lt (by omega)
    simp [ProcTable.pinfo, intBytes, List.range_succ, hbits]

/-- No process in use is reported with its documented state, neither by its own value nor by that of an unused entry. -/
theorem state_differs {a b : ProcState} {code : Nat} (hab : a = .unused ∨ b = a) (hb : b ≠ .unused)
    (hcode : documentedState b = some code) : code < 256 ∧ UInt8.ofNat (stateValue a) ≠ UInt8.ofNat code := by
  cases b <;> cases hcode <;> rcases hab with rfl | rfl <;> first | exact absurd rfl hb | decide

/-- A call that fails as documented. -/
theorem reported_failed (hframe : ∀ a, ¬ (addr ≤ a ∧ a < addr + pinfoSize) → userView t caller a = userView s caller a)
    (hnot : ¬ (addr ≠ 0 ∧ Writable img s caller T stack pid addr ∧
      ∃ i, (T.proc i).state ≠ .unused ∧ (T.proc i).pid = pid.toInt)) :
    Reported img s caller T stack pid addr (-1) t where
  zero_iff := iff_of_false (by decide) hnot
  record h := absurd h (by decide)
  failed _ := rfl
  frame := hframe

/-- A call does what is documented exactly if it fails: there is no address, no entry has the pid, or the range cannot be
written. -/
theorem getpinfo_reports_iff (h : SpaceInv img s caller) (T : ProcTable) (stack : Nat → UInt8) (pid : BitVec 32)
    (addr : Nat) :
    wp (sysGetpinfo img caller T stack pid addr) (Reported img s caller T stack pid addr) Never s ↔
      addr = 0 ∨ (∀ i, (T.proc i).pid ≠ pid.toInt) ∨ ¬ Writable img s caller T stack pid addr := by
  obtain ⟨A, hgood, hp⟩ := h
  by_cases haddr : addr = 0
  · refine iff_of_true ?_ (.inl haddr)
    rw [sysGetpinfo, if_pos haddr]
    exact wp_pure.mpr (reported_failed (fun _ _ => rfl) fun hall => hall.1 haddr)
  cases hf : T.find pid with
  | none =>
    refine iff_of_true ?_ (.inr (.inl (find_eq_none hf)))
    rw [sysGetpinfo, if_neg haddr, hf]
    refine wp_pure.mpr (reported_failed (fun _ _ => rfl) ?_)
    rintro ⟨-, -, i, -, hi⟩
    exact find_eq_none hf i hi
  | some i =>
    have hpid := find_eq_some hf
    obtain ⟨ok, t, hrun, ⟨B, -, hframe, hbytes⟩, hfails⟩ :=
      wp_returns (x := copyout img caller caller.pagetable addr (T.info stack i) pinfoSize)
        (wp_and (copyout_spec (T.info stack i) hgood hp) (copyout_fails (T.info stack i) hgood hp)) fun _ he => he.1
    have hcall : sysGetpinfo img caller T stack pid addr s = .ok (if ok then 0 else -1) t := by
      rw [sysGetpinfo, if_neg haddr, hf]
      exact bind_of_ok hrun
    rw [wp_iff_of_ok hcall]
    cases ok with
    | false =>
      obtain ⟨k, hk, hnot⟩ := hfails.mp rfl
      have hw : ¬ Writable img s caller T stack pid addr := fun hall => (hall i hf k hk).elim hnot.1 hnot.2
      exact iff_of_true (reported_failed hframe fun hall => hw hall.2.1) (.inr (.inr hw))
    | true =>
      refine iff_of_false (fun hrep => ?_) ?_
      · obtain ⟨-, -, j, hused, hj⟩ := hrep.zero_iff.mp rfl
        -- the record of the entry itself, or of a process that shares the pid with an unused entry
        have hbad : ∃ j, ((T.proc i).state = .unused ∨ (T.proc j).state = (T.proc i).state) ∧
            (T.proc j).state ≠ .unused ∧ (T.proc j).pid = pid.toInt := by
          by_cases hi : (T.proc i).state = .unused
          · exact ⟨j, .inl hi, hused, hj⟩
          · exact ⟨i, .inr rfl, hi, hpid⟩
        obtain ⟨j, hij, hused, hj⟩ := hbad
        obtain ⟨code, hcode, hview⟩ := hrep.record rfl j hused hj
        obtain ⟨hlt, hne⟩ := state_differs hij hused hcode
        have hsmall : stateValue (T.proc i).state < 256 := by cases (T.proc i).state <;> decide
        have hthere := hview 4 (pinfo_state T j hlt [] 0).1
        rw [(hbytes rfl 4 (by decide)).1, ProcTable.info, (pinfo_state T i hsmall _ _).2,
          ← List.append_nil (T.pinfo j code), (pinfo_state T j hlt [] 0).2] at hthere
        exact hne (Option.some.inj hthere)
      · rintro (h0 | hnone | hw)
        · exact haddr h0
        · exact hnone i hpid
        refine hw fun j hj k hk => ?_
        cases hf.symm.trans hj
        by_contra hnot
        exact Bool.false_ne_true (hfails.mpr ⟨k, hk, not_or.mp hnot⟩).symm

end Getpinfo

/-- A table with `init` asleep, and unused entries. -/
def initTable : ProcTable where
  proc i := if i.val = 0 then ⟨.sleeping, 7, false, 0, 1, 0, none, .inSleep⟩ else ⟨.unused, 0, false, 0, 0, 0, none, .forkret⟩
  name i := if i.val = 0 then [105, 110, 105, 116, 0] else []

/-- A pid that nobody has. -/
theorem getpinfo_reports_absent : ∃ s p, SpaceInv smallImage s p ∧
    wp (sysGetpinfo smallImage p initTable (fun _ => 0) 9 64) (Reported smallImage s p initTable (fun _ => 0) 9 64)
      Never s := by
  have hrun : yields (smallProc 4096) smallVm (fun r _ => r.any fun _ => true) = true := by decide +kernel
  obtain ⟨p, s, hproc, -⟩ := yields_some hrun
  have hinv := smallProc_inv (by decide) hproc
  exact ⟨s, p, hinv, (getpinfo_reports_iff hinv initTable _ 9 64).mpr (.inr (.inl (by decide)))⟩

/-- `getpinfo(1, &info)` reports the sleeping `init` with the state 2, which stands for a runnable process. -/
theorem getpinfo_wrong_state : ∃ s p t, SpaceInv smallImage s p ∧
    sysGetpinfo smallImage p initTable (fun _ => 0) 1 64 s = .ok 0 t ∧ userView t p 68 = some 2 ∧
    ¬ Reported smallImage s p initTable (fun _ => 0) 1 64 0 t := by
  have hrun : yields (smallProc 4096) smallVm (fun r s => r.any fun p =>
      yields (sysGetpinfo smallImage p initTable (fun _ => 0) 1 64) s fun r t =>
        decide (r = 0) && decide (userView t p 68 = some 2)) = true := by decide +kernel
  obtain ⟨p, s, hproc, hrun⟩ := yields_some hrun
  obtain ⟨r, t, hcall, htest⟩ := yields_true hrun
  obtain ⟨rfl, hbyte⟩ : r = 0 ∧ userView t p 68 = some 2 := by simpa using htest
  refine ⟨s, p, t, smallProc_inv (by decide) hproc, hcall, hbyte, fun hrep => ?_⟩
  obtain ⟨code, hcode, hview⟩ := hrep.record rfl ⟨0, by decide⟩ (by decide) (by decide)
  cases hcode
  have hthere : userView t p 68 = some 1 := hview 4 (by decide)
  rw [hbyte] at hthere
  exact absurd hthere (by decide)

end Xv6Lab.Memory
