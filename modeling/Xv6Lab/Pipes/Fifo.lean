import Mathlib.Data.List.Count
import Xv6Lab.Pipes.Model

/-!
# Pipes are byte streams

In every state the bytes stored in a pipe, in the order in which they were stored, are the bytes delivered to
readers followed by the bytes between the two counters (`Inv.stream`), also after the counters have wrapped.
`pipe_fifo` says so for every interleaving of the sections of any number of readers and writers, with what
`pipewrite` and `piperead` return.
-/

namespace Xv6Lab.Pipes

open Function Lib.RingBuffer Lib.Transition List

/-! ## The loops -/

theorem pipeSize_dvd : pipeSize ∣ 2 ^ 32 := ⟨2 ^ 23, rfl⟩

theorem pipeSize_lt : pipeSize < 2 ^ 32 := by decide

/-- A loop of `pipewrite` from byte `i` on stores what `copyin` gives from there on. -/
theorem pipewriteLoop_bytes (env : WriteEnv) (k i : Nat) (pi : Pipe) :
    (pipewriteLoop env k i pi).2.2.map some =
      (List.range' i (pipewriteLoop env k i pi).2.2.length).map env.copyin := by
  induction k generalizing i pi with
  | zero => rfl
  | succ k ih =>
    unfold pipewriteLoop
    split
    · rfl
    split
    · rfl
    cases hcopy : env.copyin i with
    | none => rfl
    | some ch =>
      simp only [map_cons, length_cons, range'_succ, hcopy, ih]

/-- A loop of `pipewrite` appends the bytes it stores, and its index counts them. -/
theorem pipewriteLoop_spec (env : WriteEnv) : ∀ (k i : Nat) (pi : Pipe), pi.ring.used ≤ pipeSize →
    (pipewriteLoop env k i pi).2.1.ring.used ≤ pipeSize ∧
      (pipewriteLoop env k i pi).2.1.ring.contents = pi.ring.contents ++ (pipewriteLoop env k i pi).2.2 ∧
      (∀ j, (pipewriteLoop env k i pi).1 = .sleep j → j = i + (pipewriteLoop env k i pi).2.2.length) ∧
      ∀ r, (pipewriteLoop env k i pi).1 = .done r → r = ((i + (pipewriteLoop env k i pi).2.2.length : Nat) : Int)
  | 0, _, _, hle => ⟨hle, (append_nil _).symm, by simp [pipewriteLoop], fun _ h => (Outcome.done.inj h).symm⟩
  | k + 1, i, pi, hle => by
      unfold pipewriteLoop
      split
      · exact ⟨hle, (append_nil _).symm, by simp, by simp⟩
      split
      · exact ⟨hle, (append_nil _).symm, fun _ h => (Outcome.sleep.inj h).symm, by simp⟩
      next hroom =>
      cases env.copyin i with
      | none => exact ⟨hle, (append_nil _).symm, by simp, fun _ h => (Outcome.done.inj h).symm⟩
      | some ch =>
        have hfull : pi.ring.isFull = false := by
          simpa [Pipe.canWrite] using hroom
        have hlt := RingBuf.used_lt hle hfull
        have hused : (pi.ring.push ch).used = pi.ring.used + 1 :=
          RingBuf.used_push (lt_of_le_of_lt hlt pipeSize_lt) ch
        obtain ⟨hle', hcont, hsleep, hdone⟩ := pipewriteLoop_spec env k (i + 1)
          { pi with ring := pi.ring.push ch } (hused.trans_le hlt)
        refine ⟨hle', hcont.trans ?_, fun j hj => (hsleep j hj).trans (Nat.succ_add_eq_add_succ i _),
          fun r hr => (hdone r hr).trans (congrArg Nat.cast (Nat.succ_add_eq_add_succ i _))⟩
        rw [RingBuf.contents_push pipeSize_dvd pipeSize_lt hlt, append_assoc, singleton_append]

/-- A loop of `piperead` takes the bytes it delivers from the front of the pipe, up to the first one that
`copyout` refuses. -/
theorem pipereadLoop_contents (env : ReadEnv) : ∀ (k i : Nat) (pi : Pipe), pi.ring.used ≤ pipeSize →
    (pipereadLoop env k i pi).2.1.ring.used ≤ pipeSize ∧
      pi.ring.contents = (pipereadLoop env k i pi).2.2 ++ (pipereadLoop env k i pi).2.1.ring.contents ∧
      ∀ j < (pipereadLoop env k i pi).2.2.length, env.copyout (i + j) = true
  | 0, _, _, hle => ⟨hle, rfl, fun j hj => absurd hj (Nat.not_lt_zero j)⟩
  | k + 1, i, pi, hle => by
      unfold pipereadLoop
      split
      · exact ⟨hle, rfl, fun j hj => absurd hj (Nat.not_lt_zero j)⟩
      next hsome =>
      split
      · exact ⟨hle, rfl, fun j hj => absurd hj (Nat.not_lt_zero j)⟩
      next hcopy =>
      have hpos : 0 < pi.ring.used := Nat.pos_of_ne_zero fun h => hsome (RingBuf.isEmpty_iff.mpr h)
      have hpop := RingBuf.used_pop hpos
      obtain ⟨hle', hcont, hout⟩ := pipereadLoop_contents env k (i + 1)
        { pi with ring := pi.ring.pop } ((Nat.le_succ _).trans (hpop.trans_le hle))
      refine ⟨hle', ?_, fun j hj => ?_⟩
      · rw [RingBuf.contents_eq_cons pipeSize_dvd hpos]
        exact congrArg (pi.ring.front :: ·) hcont
      cases j with
      | zero => exact Bool.eq_true_of_not_eq_false hcopy
      | succ j =>
        rw [show i + (j + 1) = i + 1 + j by omega]
        exact hout j (Nat.lt_of_succ_lt_succ hj)

/-- Past its first byte `piperead` returns at least the bytes it has read. -/
theorem pipereadLoop_ge (env : ReadEnv) : ∀ (k i : Nat) (pi : Pipe), 0 < i → (i : Int) ≤ (pipereadLoop env k i pi).1
  | 0, _, _, _ => le_rfl
  | k + 1, i, pi, hi => by
      unfold pipereadLoop
      split
      · exact le_rfl
      split
      · rw [if_neg hi.ne']
      · have hge := pipereadLoop_ge env k (i + 1) { pi with ring := pi.ring.pop } (Nat.succ_pos i)
        show (i : Int) ≤ (pipereadLoop env k (i + 1) _).1
        omega

variable {env : ReadEnv} {pi : Pipe} {id : Nat} {n : Int}

/-- `piperead` of a positive number of bytes returns 0 only if it finds no byte. -/
theorem pipereadLoop_eq_zero {k : Nat} (h : (pipereadLoop env (k + 1) 0 pi).1 = 0) : pi.empty = true := by
  unfold pipereadLoop at h
  split at h
  next hempty => exact hempty
  · split at h
    · cases h
    · have hge := pipereadLoop_ge env k 1 { pi with ring := pi.ring.pop } one_pos
      have hzero : (pipereadLoop env k 1 { pi with ring := pi.ring.pop }).1 = 0 := h
      omega

/-! ## The invariant -/

/-- The call of `pipewrite` a process is in, and the bytes it has stored. -/
def Pc.call : Pc → Option (Nat × Nat)
  | .writing id _ i => some (id, i)
  | .writeSleep id _ i => some (id, i)
  | _ => none

@[simp] theorem call_wakeReaders (x : Pc) : (wakeReaders x).call = x.call := by cases x <;> rfl

@[simp] theorem call_wakeWriters (x : Pc) : (wakeWriters x).call = x.call := by cases x <;> rfl

/-- How many bytes of call `id` were accepted. -/
def acceptedOf (accepted : List (Nat × UInt8)) (id : Nat) : Nat := accepted.countP fun e => e.1 = id

theorem acceptedOf_append (accepted : List (Nat × UInt8)) (bs : List UInt8) (id' : Nat) :
    acceptedOf (accepted ++ bs.map fun b => (id, b)) id' =
      acceptedOf accepted id' + if id' = id then bs.length else 0 := by
  rw [acceptedOf, countP_append, countP_map, acceptedOf]
  split
  next heq => simp [heq]
  next hne => simp [Ne.symm hne]

variable {P : Type} {s t : State P} {p q : P}

structure Inv (s : State P) : Prop where
  bounded : s.pipe.ring.used ≤ pipeSize
  stream : s.accepted.map Prod.snd = s.delivered ++ s.pipe.ring.contents
  /-- A running call counts its bytes. -/
  counts : ∀ p id i, (s.pc p).call = some (id, i) → id < s.calls ∧ acceptedOf s.accepted id = i
  own : ∀ p q id i j, (s.pc p).call = some (id, i) → (s.pc q).call = some (id, j) → p = q
  /-- A call that has returned runs no more, and returned the number of its bytes or -1. -/
  returned : ∀ id r, (id, r) ∈ s.returns → id < s.calls ∧ (∀ p i, (s.pc p).call ≠ some (id, i)) ∧
    (0 ≤ r → r = acceptedOf s.accepted id)
  fresh : ∀ id, s.calls ≤ id → acceptedOf s.accepted id = 0

/-- A step in which every process stays in its call and nothing is accepted. -/
theorem Inv.stay (h : Inv s) (hcall : ∀ q i, (t.pc q).call = some i → (s.pc q).call = some i)
    (hcalls : t.calls = s.calls) (hacc : t.accepted = s.accepted) (hret : t.returns = s.returns)
    (hbound : t.pipe.ring.used ≤ pipeSize)
    (hstream : s.delivered ++ s.pipe.ring.contents = t.delivered ++ t.pipe.ring.contents) : Inv t where
  bounded := hbound
  stream := by
    rw [hacc, h.stream, hstream]
  counts p id i hp := by
    rw [hcalls, hacc]
    exact h.counts p id i (hcall p _ hp)
  own p q id i j hp hq := h.own p q id i j (hcall p _ hp) (hcall q _ hq)
  returned id r hr := by
    rw [hret] at hr
    rw [hcalls, hacc]
    obtain ⟨hlt, hnone, hcount⟩ := h.returned id r hr
    exact ⟨hlt, fun p i hp => hnone p i (hcall p _ hp), hcount⟩
  fresh id hid := by
    rw [hacc]
    exact h.fresh id (hcalls ▸ hid)

variable [DecidableEq P]

/-- A process that is in no call afterwards, while the others stay in theirs. -/
theorem call_update {pc : P → Pc} {f : Pc → Pc} {x : Pc} (hf : ∀ y, (f y).call = y.call) (hx : x.call = none) (q : P)
    (i : Nat × Nat) (hq : (update (fun q => f (pc q)) p x q).call = some i) : (pc q).call = some i ∧ q ≠ p := by
  rcases eq_or_ne q p with rfl | hne
  · rw [update_self, hx] at hq
    cases hq
  · rw [update_of_ne hne, hf] at hq
    exact ⟨hq, hne⟩

/-- A new call of `pipewrite`. -/
theorem Inv.callWrite (h : Inv s) (n : Int) :
    Inv { s with pc := update s.pc p (.writing s.calls n 0), calls := s.calls + 1 } := by
  have hcall : ∀ q id i, (update s.pc p (.writing s.calls n 0) q).call = some (id, i) →
      q = p ∧ id = s.calls ∧ i = 0 ∨ (s.pc q).call = some (id, i) ∧ id < s.calls := by
    intro q id i hq
    rcases eq_or_ne q p with rfl | hne
    · rw [update_self] at hq
      cases hq
      exact .inl ⟨rfl, rfl, rfl⟩
    · rw [update_of_ne hne] at hq
      exact .inr ⟨hq, (h.counts q id i hq).1⟩
  refine ⟨h.bounded, h.stream, fun q id i hq => ?_, fun q r id i j hq hr => ?_, fun id r hr => ?_,
    fun id hid => h.fresh id (Nat.le_of_succ_le hid)⟩
  · rcases hcall q id i hq with ⟨-, rfl, rfl⟩ | ⟨hq, hlt⟩
    · exact ⟨Nat.lt_succ_self _, h.fresh _ le_rfl⟩
    · exact ⟨Nat.lt_succ_of_lt hlt, (h.counts q id i hq).2⟩
  · rcases hcall q id i hq with ⟨rfl, rfl, -⟩ | ⟨hq, hlt⟩
    · rcases hcall r _ j hr with ⟨rfl, -, -⟩ | ⟨-, hlt⟩
      · rfl
      · exact absurd hlt (Nat.lt_irrefl _)
    · rcases hcall r id j hr with ⟨-, rfl, -⟩ | ⟨hr, -⟩
      · exact absurd hlt (Nat.lt_irrefl _)
      · exact h.own q r id i j hq hr
  · obtain ⟨hlt, hnone, hcount⟩ := h.returned id r hr
    refine ⟨Nat.lt_succ_of_lt hlt, fun q i hq => ?_, hcount⟩
    rcases hcall q id i hq with ⟨-, rfl, -⟩ | ⟨hq, -⟩
    · exact absurd hlt (Nat.lt_irrefl _)
    · exact hnone q i hq

omit [DecidableEq P] in
/-- A section of `pipewrite` that stores the bytes `bs` for the call `id` and leaves the process at `x`. -/
theorem Inv.accept (h : Inv s) {i : Nat} {bs : List UInt8} {x : Pc} {pc : P → Pc} {returns : List (Nat × Int)}
    (hp : (s.pc p).call = some (id, i)) (hbound : pi.ring.used ≤ pipeSize)
    (hcont : pi.ring.contents = s.pipe.ring.contents ++ bs)
    (hself : pc p = x) (hpc : ∀ q ≠ p, (pc q).call = (s.pc q).call)
    (hx : x.call = some (id, i + bs.length) ∧ returns = s.returns ∨
      x.call = none ∧ ∃ r, returns = (id, r) :: s.returns ∧ (0 ≤ r → r = ((i + bs.length : Nat) : Int))) :
    Inv { s with pipe := pi, accepted := s.accepted ++ bs.map (fun b => (id, b)), pc := pc, returns := returns } := by
  obtain ⟨hlt, hcount⟩ := h.counts p id i hp
  have hnew : acceptedOf (s.accepted ++ bs.map fun b => (id, b)) id = i + bs.length := by
    rw [acceptedOf_append, if_pos rfl, hcount]
  have hsame : ∀ id' ≠ id, acceptedOf (s.accepted ++ bs.map fun b => (id, b)) id' = acceptedOf s.accepted id' := by
    intro id' hne
    rw [acceptedOf_append, if_neg hne, Nat.add_zero]
  have hcall : ∀ q id' j, (pc q).call = some (id', j) →
      q = p ∧ id' = id ∧ j = i + bs.length ∧ x.call = some (id, i + bs.length) ∨
        (s.pc q).call = some (id', j) ∧ id' ≠ id := by
    intro q id' j hq
    rcases eq_or_ne q p with rfl | hne
    · rw [hself] at hq
      rcases hx with ⟨hx, -⟩ | ⟨hx, -⟩
      · obtain ⟨rfl, rfl⟩ := Prod.mk.inj (Option.some.inj (hx.symm.trans hq))
        exact .inl ⟨rfl, rfl, rfl, hx⟩
      · rw [hx] at hq
        cases hq
    · rw [hpc q hne] at hq
      refine .inr ⟨hq, ?_⟩
      rintro rfl
      exact hne (h.own q p _ j i hq hp)
  refine
    { bounded := hbound
      stream := ?_
      counts := fun q id' j hq => ?_
      own := fun q r id' j k hq hr => ?_
      returned := fun id' r hr => ?_
      fresh := fun id' hid => ?_ }
  · rw [map_append, h.stream, hcont, append_assoc, map_map]
    congr 2
    exact map_id' bs
  · rcases hcall q id' j hq with ⟨-, rfl, rfl, -⟩ | ⟨hq, hne⟩
    · exact ⟨hlt, hnew⟩
    · obtain ⟨hlt', hcount'⟩ := h.counts q id' j hq
      exact ⟨hlt', (hsame _ hne).trans hcount'⟩
  · rcases hcall q id' j hq with ⟨rfl, rfl, -, -⟩ | ⟨hq, hne⟩
    · rcases hcall r _ k hr with ⟨rfl, -, -, -⟩ | ⟨-, hne⟩
      · rfl
      · exact absurd rfl hne
    · rcases hcall r id' k hr with ⟨-, rfl, -, -⟩ | ⟨hr, -⟩
      · exact absurd rfl hne
      · exact h.own q r id' j k hq hr
  · -- the calls that had returned before are not this one
    have hold : (id', r) ∈ s.returns → id' < s.calls ∧ (∀ q j, (pc q).call ≠ some (id', j)) ∧
        (0 ≤ r → r = acceptedOf (s.accepted ++ bs.map fun b => (id, b)) id') := by
      intro hr
      obtain ⟨hlt', hnone, hcount'⟩ := h.returned id' r hr
      have hne : id' ≠ id := by
        rintro rfl
        exact hnone p i hp
      refine ⟨hlt', fun q j hq => ?_, fun hnonneg => ?_⟩
      · rcases hcall q id' j hq with ⟨-, rfl, -, -⟩ | ⟨hq, -⟩
        · exact absurd rfl hne
        · exact hnone q j hq
      · rw [hsame _ hne]
        exact hcount' hnonneg
    rcases hx with ⟨-, hret⟩ | ⟨hx, r', hret, hr'⟩
    · exact hold (hret ▸ hr)
    have hr : (id', r) ∈ (id, r') :: s.returns := hret ▸ hr
    rcases mem_cons.mp hr with heq | hr
    · obtain ⟨rfl, rfl⟩ := Prod.mk.inj heq
      refine ⟨hlt, fun q j hq => ?_, fun hnonneg => ?_⟩
      · rcases hcall q _ j hq with ⟨-, -, -, hcall'⟩ | ⟨-, hne⟩
        · rw [hx] at hcall'
          cases hcall'
        · exact absurd rfl hne
      · rw [hr' hnonneg, ← hnew]
    · exact hold hr
  · have hid : s.calls ≤ id' := hid
    rw [hsame _ (by omega)]
    exact h.fresh id' hid

theorem Inv.write (h : Inv s) {i : Nat} (hp : s.pc p = .writing id n i) (env : WriteEnv) :
    Inv (writeStep s p env id n i) := by
  have hcall : (s.pc p).call = some (id, i) := by
    rw [hp]
    rfl
  have hwake : ∀ (x : Pc) (q : P), q ≠ p → (update (fun q => wakeReaders (s.pc q)) p x q).call = (s.pc q).call := by
    intro x q hne
    rw [update_of_ne hne, call_wakeReaders]
  obtain ⟨hbound, hcont, hout⟩ := pipewriteLoop_spec env (n - i).toNat i s.pipe h.bounded
  unfold writeStep
  generalize pipewriteLoop env (n - i).toNat i s.pipe = res at hbound hcont hout
  obtain ⟨o, pi, bs⟩ := res
  cases o with
  | fail =>
    refine h.accept hcall hbound hcont (update_self ..) (fun q hne => ?_)
      (.inr ⟨rfl, -1, rfl, fun hneg => absurd hneg (by decide)⟩)
    rw [update_of_ne hne]
  | sleep j =>
    obtain rfl : j = i + bs.length := hout.1 j rfl
    exact h.accept hcall hbound hcont (update_self ..) (hwake _) (.inl ⟨rfl, rfl⟩)
  | done r =>
    exact h.accept hcall hbound hcont (update_self ..) (hwake _) (.inr ⟨rfl, r, rfl, fun _ => hout.2 r rfl⟩)

/-- What a section of `piperead` delivers comes from the front of the pipe, and all of it was copied out. -/
theorem pipereadSection_contents (env : ReadEnv) (n : Int) (hle : pi.ring.used ≤ pipeSize) :
    (pipereadSection env n pi).2.1.ring.used ≤ pipeSize ∧
      pi.ring.contents = (pipereadSection env n pi).2.2 ++ (pipereadSection env n pi).2.1.ring.contents ∧
      ∀ j < (pipereadSection env n pi).2.2.length, env.copyout j = true := by
  unfold pipereadSection
  split
  · exact ⟨hle, rfl, fun j hj => absurd hj (Nat.not_lt_zero j)⟩
  obtain ⟨hle', hcont, hout⟩ := pipereadLoop_contents env n.toNat 0 pi hle
  refine ⟨hle', hcont, fun j hj => ?_⟩
  rw [← Nat.zero_add j]
  exact hout j hj

theorem readStep_pipe (s : State P) (p : P) (env : ReadEnv) (n : Int) :
    (readStep s p env n).pipe = (pipereadSection env n s.pipe).2.1 ∧
      (readStep s p env n).delivered = s.delivered ++ (pipereadSection env n s.pipe).2.2 := by
  unfold readStep
  generalize pipereadSection env n s.pipe = res
  obtain ⟨o, pi, bs⟩ := res
  cases o <;> exact ⟨rfl, rfl⟩

theorem Inv.read (h : Inv s) (env : ReadEnv) (n : Int) : Inv (readStep s p env n) := by
  obtain ⟨hbound, hcont, -⟩ := pipereadSection_contents env n h.bounded
  have hstream : ∀ c d : List UInt8, s.pipe.ring.contents = c ++ d →
      s.delivered ++ s.pipe.ring.contents = s.delivered ++ c ++ d := by
    intro c d hcd
    rw [hcd, append_assoc]
  unfold readStep
  generalize pipereadSection env n s.pipe = res at hbound hcont
  obtain ⟨o, pi, bs⟩ := res
  cases o with
  | fail | sleep =>
    exact h.stay (fun q i hq => (call_update (f := id) (fun _ => rfl) rfl q i hq).1) rfl rfl rfl hbound
      (hstream _ _ hcont)
  | done r =>
    exact h.stay (fun q i hq => (call_update call_wakeWriters rfl q i hq).1) rfl rfl rfl hbound (hstream _ _ hcont)

omit [DecidableEq P] in
theorem Inv.pipeclose (h : Inv s) (writable : Bool) : Inv (pipecloseStep s writable) := by
  have hring : (s.pipe.close writable).ring = s.pipe.ring := by
    unfold Pipe.close
    split <;> rfl
  refine h.stay (fun q i hq => ?_) rfl rfl rfl ?_ ?_
  · have hq : (if writable then wakeReaders (s.pc q) else wakeWriters (s.pc q)).call = some i := hq
    split at hq
    · rwa [call_wakeReaders] at hq
    · rwa [call_wakeWriters] at hq
  · show (s.pipe.close writable).ring.used ≤ pipeSize
    rw [hring]
    exact h.bounded
  · show _ = s.delivered ++ (s.pipe.close writable).ring.contents
    rw [hring]

omit [DecidableEq P] in
theorem Inv.init (h : Init s) : Inv s := by
  have hcall : ∀ p i, (s.pc p).call ≠ some i := by
    intro p i hp
    rw [h.pc p] at hp
    cases hp
  have hused : s.pipe.ring.used = 0 := by
    rw [RingBuf.used, h.nread, h.nwrite]
    rfl
  refine
    { bounded := hused.trans_le (Nat.zero_le _)
      stream := ?_
      counts := fun p id i hp => absurd hp (hcall p _)
      own := fun p _ id i _ hp => absurd hp (hcall p _)
      returned := fun id r hr => ?_
      fresh := fun id _ => ?_ }
  · have hnil : s.pipe.ring.contents = [] := by
      rw [← length_eq_zero_iff, RingBuf.length_contents, hused]
    rw [h.accepted, h.delivered, hnil]
    rfl
  · rw [h.returns] at hr
    cases hr
  · rw [h.accepted]
    rfl

/-- One step keeps the invariant. -/
theorem Inv.next (h : Inv s) {a : Action P} (ht : next s a = some t) : Inv t := by
  obtain ⟨-, ht⟩ := Option.ite_none_left_eq_some.mp ht
  cases a with
  | callWrite p n =>
    dsimp only at ht
    split at ht
    · cases ht
      exact h.callWrite n
    · cases ht
  | callRead p n =>
    dsimp only at ht
    split at ht
    · cases ht
      exact h.stay (fun q i hq => (call_update (f := id) (fun _ => rfl) rfl q i hq).1) rfl rfl rfl h.bounded rfl
    · cases ht
  | write p env =>
    dsimp only at ht
    split at ht
    next id n i hp =>
      cases ht
      exact h.write hp env
    · cases ht
  | read p env =>
    dsimp only at ht
    split at ht
    next n _ =>
      cases ht
      exact h.read env n
    · cases ht
  | pipeclose writable =>
    cases ht
    exact h.pipeclose writable
  | kkill p =>
    cases ht
    refine h.stay (fun q i hq => ?_) rfl rfl rfl h.bounded rfl
    have hq : (update s.pc p (wakeReaders (wakeWriters (s.pc p))) q).call = some i := hq
    rcases eq_or_ne q p with rfl | hne
    · rwa [update_self, call_wakeReaders, call_wakeWriters] at hq
    · rwa [update_of_ne hne] at hq

/-! ## The bytes of a call -/

/-- The bytes accepted for call `id`, in order. -/
def bytesOf (accepted : List (Nat × UInt8)) (id : Nat) : List UInt8 :=
  (accepted.filter fun e => e.1 = id).map Prod.snd

theorem bytesOf_append (accepted : List (Nat × UInt8)) (bs : List UInt8) (id' : Nat) :
    bytesOf (accepted ++ bs.map fun b => (id, b)) id' = bytesOf accepted id' ++ if id' = id then bs else [] := by
  rw [bytesOf, filter_append, map_append, bytesOf]
  congr 1
  split
  next heq => simp [heq, filter_map, comp_def]
  next hne => simp [filter_map, comp_def, Ne.symm hne]

/-- `copyin` of call `id` reads the buffer `buf id`. -/
def Reads (buf : Nat → Nat → UInt8) (s : State P) : Action P → Prop
  | .write p env => ∀ id n i, s.pc p = .writing id n i → ∀ j b, env.copyin j = some b → b = buf id j
  | _ => True

/-- A step of a writer that stands at its byte `i` accepts bytes from there on; the other steps accept nothing. -/
theorem next_accepted {a : Action P} (ht : next s a = some t) :
    t.accepted = s.accepted ∨ ∃ p env id n i, ∃ bs : List UInt8, a = .write p env ∧ s.pc p = .writing id n i ∧
      bs.map some = (List.range' i bs.length).map env.copyin ∧
      t.accepted = s.accepted ++ bs.map fun b => (id, b) := by
  obtain ⟨-, ht⟩ := Option.ite_none_left_eq_some.mp ht
  cases a with
  | callWrite | callRead =>
    dsimp only at ht
    split at ht <;> cases ht
    exact .inl rfl
  | pipeclose | kkill =>
    cases ht
    exact .inl rfl
  | read p env =>
    dsimp only at ht
    split at ht <;> cases ht
    next n _ =>
      left
      unfold readStep
      generalize pipereadSection env n s.pipe = res
      obtain ⟨o, pi, bs⟩ := res
      cases o <;> rfl
  | write p env =>
    dsimp only at ht
    split at ht <;> cases ht
    next id n i hp =>
      refine .inr ⟨p, env, id, n, i, _, rfl, hp, pipewriteLoop_bytes env (n - i).toNat i s.pipe, ?_⟩
      unfold writeStep
      generalize pipewriteLoop env (n - i).toNat i s.pipe = res
      obtain ⟨o, pi, bs⟩ := res
      cases o <;> rfl

/-- While the buffers of the writers stay as they are, a call accepts its buffer from the first byte on. -/
theorem bytesOf_reads {buf : Nat → Nat → UInt8} (h : Reachable Init next (Reads buf) s) :
    Inv s ∧ ∀ id, bytesOf s.accepted id = (List.range (acceptedOf s.accepted id)).map (buf id) := by
  apply h.invariant fun s => Inv s ∧ ∀ id, bytesOf s.accepted id = (List.range (acceptedOf s.accepted id)).map (buf id)
  · intro s hinit
    refine ⟨Inv.init hinit, fun id => ?_⟩
    rw [hinit.accepted]
    rfl
  · intro s a t hs hreads ht
    obtain ⟨hinv, hbytes⟩ := hs
    refine ⟨hinv.next ht, fun id' => ?_⟩
    rcases next_accepted ht with hacc | ⟨p, env, id, n, i, bs, rfl, hp, hbs, hacc⟩
    · rw [hacc]
      exact hbytes id'
    -- the section goes on where the call stands
    obtain rfl : acceptedOf s.accepted id = i := (hinv.counts p id i (by rw [hp]; rfl)).2
    rw [hacc, bytesOf_append, acceptedOf_append, hbytes id']
    split
    next heq =>
      subst heq
      have hmap : bs = (List.range' (acceptedOf s.accepted id') bs.length).map (buf id') := by
        apply map_injective_iff.mpr (Option.some_injective UInt8)
        rw [hbs, map_map]
        refine map_congr_left fun j hj => ?_
        obtain ⟨b, -, hb⟩ := mem_map.mp (hbs ▸ mem_map_of_mem hj : env.copyin j ∈ bs.map some)
        rw [← hb, hreads id' n _ hp j b hb.symm, comp_apply]
      rw [range_eq_range', range_eq_range', ← range'_append_1, map_append, Nat.zero_add, ← hmap]
    · rw [append_nil, Nat.add_zero]

theorem next_read (hp : s.pc p = .reading n) (ht : next s (.read p env) = some t) : t = readStep s p env n := by
  obtain ⟨-, ht⟩ := Option.ite_none_left_eq_some.mp ht
  simp only [hp, Option.some.injEq] at ht
  exact ht.symm

/-- A `piperead` of `n > 0` bytes that returns 0 found the pipe empty and its write end closed. -/
theorem readStep_eq_zero (hn : 0 < n) (h : (readStep s p env n).pc p = .out (some 0)) :
    s.pipe.empty = true ∧ s.pipe.writeopen = false := by
  obtain ⟨k, rfl⟩ : ∃ k : Nat, n = k + 1 := ⟨(n - 1).toNat, by omega⟩
  have hk : ((k : Int) + 1).toNat = k + 1 := rfl
  unfold readStep pipereadSection at h
  rw [hk] at h
  by_cases hwait : (s.pipe.empty && s.pipe.writeopen) = true
  · rw [if_pos hwait] at h
    cases hkill : env.killed with
    | true | false =>
      simp [hkill] at h
  · rw [if_neg hwait] at h
    have hret : (pipereadLoop env (k + 1) 0 s.pipe).1 = 0 := by
      have h : update (fun q => wakeWriters (s.pc q)) p
        (.out (some (pipereadLoop env (k + 1) 0 s.pipe).1)) p = .out (some 0) := h
      rw [update_self] at h
      exact Option.some.inj (Pc.out.inj h)
    have hempty := pipereadLoop_eq_zero hret
    rw [hempty, Bool.true_and] at hwait
    exact ⟨hempty, Bool.eq_false_of_not_eq_true hwait⟩

/-- Pipes are byte streams: for any readers and writers and every interleaving of their sections, the counters
are at most `PIPESIZE` apart, the bytes accepted are the bytes delivered followed by those in the pipe, a section of
`pipewrite` accepts what `copyin` gives from the number of bytes its call has had accepted on (so the accepted bytes of
a call are the first bytes of its buffer, if that stays as it is), a `pipewrite` that does not fail returns that number
at its end, a byte that `copyout` refuses stays in the pipe, and a `piperead` of at least one byte returns 0 only if
the pipe is empty and its write end is closed. -/
theorem pipe_fifo (h : Reachable Init next noGuard s) :
    (s.pipe.ring.nwrite - s.pipe.ring.nread).toNat ≤ pipeSize ∧
      s.accepted.map Prod.snd = s.delivered ++ s.pipe.ring.contents ∧
      (∀ id r, (id, r) ∈ s.returns → 0 ≤ r → r = acceptedOf s.accepted id) ∧
      (∀ p env id n i t, s.pc p = .writing id n i → next s (.write p env) = some t → i = acceptedOf s.accepted id ∧
        ∃ bs : List UInt8, bs.map some = (List.range' i bs.length).map env.copyin ∧
          t.accepted = s.accepted ++ bs.map fun b => (id, b)) ∧
      (∀ buf, Reachable Init next (Reads buf) s →
        ∀ id, bytesOf s.accepted id = (List.range (acceptedOf s.accepted id)).map (buf id)) ∧
      ∀ p env n t, s.pc p = .reading n → next s (.read p env) = some t →
        (∀ k, env.copyout k = false → s.pipe.ring.contents.drop k <:+ t.pipe.ring.contents) ∧
        (0 < n → t.pc p = .out (some 0) → s.pipe.ring.contents = [] ∧ s.pipe.writeopen = false) := by
  have hinv : Inv s := h.invariant Inv (fun _ hinit => Inv.init hinit) fun _ _ _ hs _ ht => hs.next ht
  refine ⟨hinv.bounded, hinv.stream, fun id r hr => (hinv.returned id r hr).2.2, fun p env id n i t hp ht => ?_,
    fun buf hreads => (bytesOf_reads hreads).2, ?_⟩
  · refine ⟨(hinv.counts p id i (by rw [hp]; rfl)).2.symm, ?_⟩
    rcases next_accepted ht with hacc | ⟨p', env', id', n', i', bs, heq, hp', hbs, hacc⟩
    · exact ⟨[], rfl, hacc.trans (append_nil _).symm⟩
    · cases heq
      cases hp.symm.trans hp'
      exact ⟨bs, hbs, hacc⟩
  intro p env n t hp ht
  obtain rfl := next_read hp ht
  refine ⟨fun k hk => ?_, fun hn hzero => ?_⟩
  · obtain ⟨-, hcont, hout⟩ := pipereadSection_contents env n hinv.bounded
    have hle : (pipereadSection env n s.pipe).2.2.length ≤ k := by
      by_contra hlt
      rw [hout k (Nat.lt_of_not_le hlt)] at hk
      cases hk
    rw [(readStep_pipe s p env n).1, hcont, drop_append, drop_eq_nil_of_le hle, nil_append]
    exact drop_suffix _ _
  · obtain ⟨hempty, hclosed⟩ := readStep_eq_zero hn hzero
    refine ⟨?_, hclosed⟩
    rw [← length_eq_zero_iff, RingBuf.length_contents]
    exact RingBuf.isEmpty_iff.mp hempty

/-- A pipe with both ends open and two processes. -/
def bootPipe : State (Fin 2) where
  pipe := ⟨⟨fun _ => 0, 0, 0⟩, true, true⟩
  freed := false
  pc := fun _ => .out none
  calls := 0
  accepted := []
  delivered := []
  returns := []

theorem bootPipe_init : Init bootPipe :=
  ⟨rfl, rfl, rfl, rfl, rfl, fun _ => rfl, rfl, rfl, rfl, rfl⟩

def writer : Fin 2 := ⟨0, Nat.zero_lt_two⟩

def reader : Fin 2 := ⟨1, Nat.one_lt_two⟩

/-- One process writes three bytes; the other asks for three and gets two, because `copyout` refuses the
third. -/
def shortRead : List (Action (Fin 2)) :=
  [.callWrite writer 3, .write writer ⟨fun _ => false, fun i => some (UInt8.ofNat (65 + i))⟩,
    .callRead reader 3, .read reader ⟨false, fun i => i < 2⟩]

/-- After the short read the third byte is still in the pipe. -/
theorem pipe_fifo_short : ∃ s : State (Fin 2), s.delivered = [65, 66] ∧ s.returns = [(0, 3)] ∧
    s.accepted.map Prod.snd = s.delivered ++ s.pipe.ring.contents := by
  have hrun : ((run next bootPipe shortRead).map fun s => (s.delivered, s.returns)) =
      some ([65, 66], [(0, 3)]) := by
    decide +kernel
  obtain ⟨s, hs, hres⟩ := Option.map_eq_some_iff.mp hrun
  have hfifo := pipe_fifo (reachable_run (.start bootPipe_init) hs)
  exact ⟨s, congrArg Prod.fst hres, congrArg Prod.snd hres, hfifo.2.1⟩

end Xv6Lab.Pipes
