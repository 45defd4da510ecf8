import Xv6Lab.Lib.Handles
import Xv6Lab.Lib.Transition
import Xv6Lab.Files.Model

/-!
# References to open files

`f->ref` is the number of descriptors that point to `f`, between any two system calls of any run
(`file_refs_exact`). Inside a call there are references that no descriptor holds yet, or any more, and descriptors
that are not counted yet: `Inv s loose owed pending ends` is the invariant with these differences, and each
function has one rule that says how it changes them.
-/

namespace Xv6Lab.Files

open Function

open Xv6Lab.FileSys (FileKind FileType)
open Xv6Lab.Process (Proc)
open Lib.Exec Lib.Handles Lib.Transition

/-! ## The invariant -/

/-- The resource that an entry of the file table stands for. -/
def File.token (e : File) : Option Token :=
  match e.kind with
  | .none => none
  | .pipe => some (e.opening, .pipeEnd e.pipe e.writable)
  | .inode => some (e.opening, .inode e.ip)
  | .device => some (e.opening, .inode e.ip)

/-- The end of a pipe that an entry of the file table stands for. -/
def File.pipeEnd (e : File) : Option (Nat × Bool) :=
  if e.kind = .pipe then some (e.pipe, e.writable) else none

namespace State

/-- All descriptors of all processes. -/
def hold (s : State) (x : Fin nproc × Fin nofile) : Option (Fin nfile) := s.ofile x.1 x.2

def refs (s : State) (f : Fin nfile) : Nat := (s.file f).ref

/-- The resource is acquired and not given back. -/
def Outstanding (s : State) (k : Token) : Prop := k ∈ s.acquired ∧ k ∉ s.released

/-- The end of the pipe is open. -/
def EndOpen (s : State) (x : Nat × Bool) : Prop :=
  ∃ e, s.pipe x.1 = some e ∧ (if x.2 then e.writeopen else e.readopen) = true

end State

structure Inv (s : State) (loose owed : Multiset (Fin nfile)) (pending : List Token)
    (ends : List (Nat × Bool)) : Prop where
  refs : Exact s.hold s.refs loose owed
  unused : ∀ f, (s.file f).ref = 0 → (s.file f).kind = .none
  tokens : Matched (fun f => (s.file f).token) s.Outstanding pending
  pipes : Matched (fun f => (s.file f).pipeEnd) s.EndOpen ends
  numbers : ∀ k ∈ s.acquired, k.1 < s.acquired.length
  once : s.released.Nodup
  known : ∀ k ∈ s.released, k ∈ s.acquired
  idle : ∀ p, ¬ Live s p → ∀ fd, s.ofile p fd = none

/-- The invariant between system calls. -/
abbrev Steady (s : State) : Prop := Inv s 0 0 [] []

/-- The descriptors and the process table are the same. -/
def SameProcs (s t : State) : Prop := t.ofile = s.ofile ∧ t.proc = s.proc

theorem SameProcs.live {s t : State} (h : SameProcs s t) {p : Fin nproc} (hp : Live s p) : Live t p := by
  rw [Live, h.2]
  exact hp

theorem SameProcs.trans {s t u : State} (h : SameProcs s t) (h' : SameProcs t u) : SameProcs s u :=
  ⟨h'.1.trans h.1, h'.2.trans h.2⟩

theorem bootFiles_steady (initproc : Fin nproc) : Steady (bootFiles initproc) where
  refs := exact_empty (fun _ => rfl) fun _ => rfl
  unused _ _ := rfl
  tokens := matched_empty (fun _ => rfl) fun k hk => List.not_mem_nil hk.1
  pipes := matched_empty (fun _ => rfl) fun x hx => by
    obtain ⟨e, he, -⟩ := hx
    cases he
  numbers k hk := absurd hk List.not_mem_nil
  once := List.nodup_nil
  known k hk := absurd hk List.not_mem_nil
  idle _ _ _ := rfl

section Changes

variable {s : State} {loose owed : Multiset (Fin nfile)} {pending : List Token} {ends : List (Nat × Bool)}
  {p : Fin nproc} {fd : Fin nofile} {f : Fin nfile} {e : File}

/-! ## Changes of one entry of the file table -/

theorem refs_setFile_self : State.refs { s with file := update s.file f e } f = e.ref :=
  congrArg (fun x : File => x.ref) (update_self f e s.file)

theorem refs_setFile_of_ne (g : Fin nfile) (hg : g ≠ f) :
    State.refs { s with file := update s.file f e } g = s.refs g :=
  congrArg (fun x : File => x.ref) (update_of_ne hg e s.file)

/-- A map of the entries after a change of one of them that keeps it. -/
theorem apply_update_of_eq {β : Type} (g : File → β) (hg : g e = g (s.file f)) (x : Fin nfile) :
    g (update s.file f e x) = g (s.file x) := by
  rcases eq_or_ne x f with rfl | hx
  · rw [update_self, hg]
  · rw [update_of_ne hx]

theorem unused_setFile (h : ∀ g, (s.file g).ref = 0 → (s.file g).kind = .none)
    (hkind : e.ref = 0 → e.kind = .none) (g : Fin nfile) (hg : (update s.file f e g).ref = 0) :
    (update s.file f e g).kind = .none := by
  rcases eq_or_ne g f with rfl | hgf
  · rw [update_self] at hg ⊢
    exact hkind hg
  · rw [update_of_ne hgf] at hg ⊢
    exact h g hg

/-- Only the count of an entry changes. -/
theorem Inv.setRef (h : Inv s loose owed pending ends) {loose' owed' : Multiset (Fin nfile)}
    (htoken : e.token = (s.file f).token) (hend : e.pipeEnd = (s.file f).pipeEnd) (hkind : e.ref = 0 → e.kind = .none)
    (hrefs : Exact s.hold (State.refs { s with file := update s.file f e }) loose' owed') :
    Inv { s with file := update s.file f e } loose' owed' pending ends where
  refs := hrefs
  unused := unused_setFile h.unused hkind
  tokens := h.tokens.congr (apply_update_of_eq File.token htoken) fun _ => Iff.rfl
  pipes := h.pipes.congr (apply_update_of_eq File.pipeEnd hend) fun _ => Iff.rfl
  numbers := h.numbers
  once := h.once
  known := h.known
  idle := h.idle

/-- The last reference to an entry goes away: what it stands for has to be given back. -/
theorem Inv.clear (h : Inv s (f ::ₘ loose) owed pending ends) (hone : (s.file f).ref = 1) :
    Inv { s with file := update s.file f { s.file f with ref := 0, kind := .none } } loose owed
      ((s.file f).token.toList ++ pending) ((s.file f).pipeEnd.toList ++ ends) where
  refs := by
    refine h.refs.drop ?_ refs_setFile_of_ne
    rw [refs_setFile_self]
    exact hone.symm
  unused := unused_setFile h.unused fun _ => rfl
  tokens := by
    refine h.tokens.clear (e := f) ?_ fun g hg => ?_
    · show File.token (update s.file f _ f) = none
      rw [update_self]
      rfl
    · show File.token (update s.file f _ g) = _
      rw [update_of_ne hg]
  pipes := by
    refine h.pipes.clear (e := f) ?_ fun g hg => ?_
    · show File.pipeEnd (update s.file f _ f) = none
      rw [update_self]
      rfl
    · show File.pipeEnd (update s.file f _ g) = _
      rw [update_of_ne hg]
  numbers := h.numbers
  once := h.once
  known := h.known
  idle := h.idle

/-- An entry that stands for nothing gets the resource acquired last. -/
theorem Inv.attach {k : Token} {ends' : List (Nat × Bool)} (h : Inv s loose owed (k :: pending) ends)
    (hnone : (s.file f).kind = .none) (href : e.ref = (s.file f).ref) (hpos : 0 < (s.file f).ref)
    (htoken : e.token = some k) (hpipes : Matched (fun g => (update s.file f e g).pipeEnd) s.EndOpen ends') :
    Inv { s with file := update s.file f e } loose owed pending ends' where
  refs := by
    have hrefs : State.refs { s with file := update s.file f e } = s.refs :=
      funext (apply_update_of_eq (fun x => x.ref) href)
    rw [hrefs]
    exact h.refs
  unused := unused_setFile h.unused fun h0 => absurd (href.symm.trans h0) hpos.ne'
  tokens := by
    refine h.tokens.attach (e := f) ?_ ?_ fun g hg => ?_
    · rw [File.token, hnone]
    · show File.token (update s.file f e f) = _
      rw [update_self, htoken]
    · show File.token (update s.file f e g) = _
      rw [update_of_ne hg]
  pipes := hpipes
  numbers := h.numbers
  once := h.once
  known := h.known
  idle := h.idle

/-! ## Resources -/

theorem Inv.acquire (h : Inv s loose owed pending ends) (r : Resource) :
    Inv { s with acquired := (s.acquired.length, r) :: s.acquired } loose owed
      ((s.acquired.length, r) :: pending) ends where
  refs := h.refs
  unused := h.unused
  tokens := by
    have hnew : (s.acquired.length, r) ∉ s.acquired := fun hk => lt_irrefl _ (h.numbers _ hk)
    refine h.tokens.acquire (fun hout => hnew hout.1) fun k => ?_
    constructor
    · rintro ⟨hk, hrel⟩
      rcases List.mem_cons.mp hk with rfl | hk
      · exact .inl rfl
      · exact .inr ⟨hk, hrel⟩
    · rintro (rfl | ⟨hk, hrel⟩)
      · exact ⟨List.mem_cons_self, fun hrel => hnew (h.known _ hrel)⟩
      · exact ⟨List.mem_cons_of_mem _ hk, hrel⟩
  pipes := h.pipes
  numbers k hk := by
    rcases List.mem_cons.mp hk with rfl | hk
    · exact Nat.lt_succ_self _
    · exact Nat.lt_succ_of_lt (h.numbers k hk)
  once := h.once
  known k hk := List.mem_cons_of_mem _ (h.known k hk)
  idle := h.idle

theorem Inv.release {k : Token} (h : Inv s loose owed (k :: pending) ends) :
    Inv { s with released := k :: s.released } loose owed pending ends := by
  have hout : s.Outstanding k := (h.tokens.cover k).mpr (.inr List.mem_cons_self)
  refine ⟨h.refs, h.unused, h.tokens.release fun q => ?_, h.pipes, h.numbers,
    List.nodup_cons.mpr ⟨hout.2, h.once⟩, fun q hq => ?_, h.idle⟩
  · constructor
    · rintro ⟨hq, hrel⟩
      exact ⟨List.ne_of_not_mem_cons hrel, hq, List.not_mem_of_not_mem_cons hrel⟩
    · rintro ⟨hne, hq, hrel⟩
      exact ⟨hq, List.not_mem_cons_of_ne_of_not_mem hne hrel⟩
  · rcases List.mem_cons.mp hq with rfl | hq
    · exact hout.1
    · exact h.known q hq

theorem endOpen_setPipe {pi : Nat} {v : Option PipeEnds} {q : Nat × Bool} :
    State.EndOpen { s with pipe := update s.pipe pi v } q ↔
      (q.1 = pi ∧ ∃ e, v = some e ∧ (if q.2 then e.writeopen else e.readopen) = true) ∨ (q.1 ≠ pi ∧ s.EndOpen q) := by
  unfold State.EndOpen
  dsimp only
  rcases eq_or_ne q.1 pi with heq | hne
  · rw [heq, update_self]
    exact ⟨fun h => .inl ⟨rfl, h⟩, fun h => h.elim (fun h => h.2) fun h => absurd rfl h.1⟩
  · rw [update_of_ne hne]
    exact ⟨fun h => .inr ⟨hne, h⟩, fun h => h.elim (fun h => absurd h.1 hne) fun h => h.2⟩

/-- Closing an end closes no other end, and frees the page when no end is left. -/
theorem endOpen_close {pi : Nat} {x : PipeEnds} (hpipe : s.pipe pi = some x) (w : Bool) (q : Nat × Bool) :
    State.EndOpen { s with pipe := update s.pipe pi (x.close w).rest } q ↔ q ≠ (pi, w) ∧ s.EndOpen q := by
  rw [endOpen_setPipe]
  obtain ⟨a, b⟩ := q
  obtain ⟨r, o⟩ := x
  rcases eq_or_ne a pi with rfl | hne
  · unfold State.EndOpen
    rw [hpipe]
    cases w <;> cases b <;> cases r <;> cases o <;> simp [PipeEnds.close, PipeEnds.rest]
  · refine ⟨fun h => ⟨fun heq => hne (congrArg Prod.fst heq), ?_⟩, fun h => .inr ⟨hne, h.2⟩⟩
    exact h.elim (fun h => absurd h.1 hne) fun h => h.2

theorem Inv.closeEnd {pi : Nat} {w : Bool} {x : PipeEnds} (h : Inv s loose owed pending ((pi, w) :: ends))
    (hpipe : s.pipe pi = some x) :
    Inv { s with pipe := update s.pipe pi (x.close w).rest } loose owed pending ends :=
  ⟨h.refs, h.unused, h.tokens, h.pipes.release (endOpen_close hpipe w), h.numbers, h.once, h.known, h.idle⟩

/-- A page without a pipe gets one with both ends open. -/
theorem Inv.openEnds {pi : Nat} (h : Inv s loose owed pending ends) (hpipe : s.pipe pi = none) :
    Inv { s with pipe := update s.pipe pi (some ⟨true, true⟩) } loose owed pending
      ((pi, false) :: (pi, true) :: ends) := by
  have hclosed : ∀ w, ¬ s.EndOpen (pi, w) := by
    rintro w ⟨e, he, -⟩
    exact Option.some_ne_none e (he.symm.trans hpipe)
  have hwrite : Matched (fun f => (s.file f).pipeEnd) (fun q => q = (pi, true) ∨ s.EndOpen q)
      ((pi, true) :: ends) := h.pipes.acquire (hclosed true) fun _ => Iff.rfl
  refine ⟨h.refs, h.unused, h.tokens, hwrite.acquire ?_ fun q => ?_, h.numbers, h.once, h.known, h.idle⟩
  · rintro (heq | hopen)
    · cases heq
    · exact hclosed false hopen
  rw [endOpen_setPipe]
  obtain ⟨a, b⟩ := q
  rcases eq_or_ne a pi with rfl | hne
  · cases b <;> simp [hclosed]
  · simp [hne]

/-! ## Descriptors and processes -/

theorem hold_setOfile (v : Option (Fin nfile)) :
    State.hold { s with ofile := update s.ofile p (update (s.ofile p) fd v) } = update s.hold (p, fd) v := by
  funext ⟨q, x⟩
  unfold State.hold
  dsimp only
  rcases eq_or_ne q p with rfl | hq
  · rw [update_self]
    rcases eq_or_ne x fd with rfl | hx
    · rw [update_self, update_self]
    · rw [update_of_ne hx, update_of_ne fun heq => hx (congrArg Prod.snd heq)]
  · rw [update_of_ne hq, update_of_ne fun heq => hq (congrArg Prod.fst heq)]

section Descriptors

variable {o : Fin nproc → Fin nofile → Option (Fin nfile)}

theorem ofile_setOfile_self (v : Option (Fin nfile)) : update o p (update (o p) fd v) p fd = v := by
  rw [update_self, update_self]

theorem ofile_setOfile_of_ne {x : Fin nofile} (hx : x ≠ fd) (v : Option (Fin nfile)) :
    update o p (update (o p) fd v) p x = o p x := by
  rw [update_self, update_of_ne hx]

end Descriptors

theorem Inv.setOfile {loose' owed' : Multiset (Fin nfile)} {v : Option (Fin nfile)}
    (h : Inv s loose owed pending ends) (hlive : v = none ∨ Live s p)
    (hrefs : Exact (update s.hold (p, fd) v) s.refs loose' owed') :
    Inv { s with ofile := update s.ofile p (update (s.ofile p) fd v) } loose' owed' pending ends where
  refs := by
    rw [hold_setOfile]
    exact hrefs
  unused := h.unused
  tokens := h.tokens
  pipes := h.pipes
  numbers := h.numbers
  once := h.once
  known := h.known
  idle q hq x := by
    have hnone := h.idle q hq x
    show update s.ofile p (update (s.ofile p) fd v) q x = none
    rcases eq_or_ne q p with rfl | hqp
    · rcases eq_or_ne x fd with rfl | hx
      · rw [ofile_setOfile_self]
        exact hlive.resolve_right hq
      · rw [ofile_setOfile_of_ne hx]
        exact hnone
    · rw [update_of_ne hqp]
      exact hnone

/-- A descriptor is cleared. -/
theorem Inv.take (h : Inv s loose owed pending ends) (hfull : s.ofile p fd = some f) :
    Inv { s with ofile := update s.ofile p (update (s.ofile p) fd none) } (f ::ₘ loose) owed
      pending ends :=
  h.setOfile (.inl rfl) (h.refs.take (h := (p, fd)) hfull)

/-- A loose reference goes to an empty descriptor of a live process. -/
theorem Inv.store (h : Inv s (f ::ₘ loose) owed pending ends) (hlive : Live s p) (hempty : s.ofile p fd = none) :
    Inv { s with ofile := update s.ofile p (update (s.ofile p) fd (some f)) } loose owed
      pending ends :=
  h.setOfile (.inr hlive) ((exact_store (h := (p, fd)) hempty).mpr h.refs)

theorem inv_borrow : Inv s (f ::ₘ loose) (f ::ₘ owed) pending ends ↔ Inv s loose owed pending ends := by
  refine ⟨fun h => ?_, fun h => ?_⟩
  · exact ⟨exact_borrow.mp h.refs, h.unused, h.tokens, h.pipes, h.numbers, h.once, h.known, h.idle⟩
  · exact ⟨exact_borrow.mpr h.refs, h.unused, h.tokens, h.pipes, h.numbers, h.once, h.known, h.idle⟩

/-- The process table changes; a process that stops being live has no descriptors. -/
theorem Inv.setProcs {proc : Fin nproc → Proc} {n : Int} (h : Inv s loose owed pending ends)
    (hidle : ∀ q, Live s q → ¬ ((proc q).state ≠ .unused ∧ (proc q).state ≠ .zombie) → ∀ fd, s.ofile q fd = none) :
    Inv { s with proc := proc, nextpid := n } loose owed pending ends where
  refs := h.refs
  unused := h.unused
  tokens := h.tokens
  pipes := h.pipes
  numbers := h.numbers
  once := h.once
  known := h.known
  idle q hq := by
    by_cases hlive : Live s q
    · exact hidle q hlive hq
    · exact h.idle q hlive

/-- One entry of the process table changes. -/
theorem Inv.setProc {x : Proc} {n : Int} (h : Inv s loose owed pending ends)
    (hidle : x.state = .unused ∨ x.state = .zombie → ∀ fd, s.ofile p fd = none) :
    Inv { s with proc := update s.proc p x, nextpid := n } loose owed pending ends := by
  refine h.setProcs fun q hlive hq => ?_
  rcases eq_or_ne q p with rfl | hqp
  · rw [update_self, ← not_or, not_not] at hq
    exact hidle hq
  · rw [update_of_ne hqp] at hq
    exact absurd hlive hq

end Changes

end Xv6Lab.Files
