import Xv6Lab.Lib.Transition
import Xv6Lab.Process.Children

/-!
# Every exit is reaped once

The table seen as a family: an entry in use is a member, `initproc` is the root (`family`). Each section of `kfork`,
`sys_thread_create`, `kexit` and `kwait` changes the family by one of the operations of a family or not at all; what
the operations need comes from the places of the processes in the code and from `wait_lock` (`Ctl`). So the family
stays well formed in every run, and `kwait` returns every child at most once, to its parent and with its status
(`exits_reaped_once`).
-/

namespace Xv6Lab.Process.Children

open Function Lib.Lineage Lib.Transition Option Entry ProcState State

/-! ## The family -/

def Entry.member (x : Entry) : Option (Member Slot Int) :=
  match x.state with
  | .unused => none
  | .used => some ⟨.building, x.parent, x.gen, x.creator⟩
  | .zombie => some ⟨.left x.xstate, x.parent, x.gen, x.creator⟩
  | .sleeping | .runnable | .running => some ⟨.alive, x.parent, x.gen, x.creator⟩

def family (s : State) : Family Slot Int := ⟨fun q => (s.proc q).member, s.births, s.exits, s.reaps⟩

theorem member_unused {x : Entry} (h : x.state = .unused) : x.member = none := by
  rw [member, h]

theorem member_runnable {x : Entry} (h : x.state = .runnable) :
    x.member = some ⟨.alive, x.parent, x.gen, x.creator⟩ := by
  rw [member, h]

theorem member_zombie {x : Entry} (h : x.state = .zombie) :
    x.member = some ⟨.left x.xstate, x.parent, x.gen, x.creator⟩ := by
  rw [member, h]

variable {m : Member Slot Int}

/-- A member has the parent, the number and the creator of its entry. -/
theorem member_eq_some {x : Entry} (h : x.member = some m) :
    x.state ≠ .unused ∧ m.parent = x.parent ∧ m.gen = x.gen ∧ m.creator = x.creator := by
  cases hs : x.state with
  | unused =>
    rw [member_unused hs] at h
    cases h
  | used | sleeping | runnable | running | zombie =>
    rw [member, hs] at h
    cases h
    exact ⟨noConfusion, rfl, rfl, rfl⟩

/-- A process whose creation is complete is a member that is not under construction. -/
theorem member_complete {x : Entry} (hused : x.state ≠ .unused) (hbuilt : x.state ≠ .used) :
    ∃ m, x.member = some m ∧ m.stage ≠ .building := by
  cases hs : x.state with
  | unused => exact absurd hs hused
  | used => exact absurd hs hbuilt
  | sleeping | runnable | running | zombie =>
    rw [member, hs]
    exact ⟨_, rfl, nofun⟩

theorem family_setProc (s : State) (q : Slot) (x : Entry) : family (s.setProc q x) = (family s).set q x.member := by
  have hmember : (fun r => (update s.proc q x r).member) =
      update (fun r => (s.proc r).member) q x.member :=
    comp_update member s.proc q x
  unfold family Family.set
  rw [← hmember]
  rfl

/-- A change of an entry that the family does not see. -/
theorem family_quiet {s : State} {q : Slot} {x : Entry} (h : x.member = (s.proc q).member) :
    family (s.setProc q x) = family s := by
  rw [family_setProc, h]
  unfold Family.set
  rw [show (s.proc q).member = (family s).member q from rfl, update_eq_self]

theorem member_wakeup (x : Entry) (chan : Nat) : (x.map (Proc.wakeup · chan)).member = x.member := by
  unfold Entry.map Proc.wakeup
  dsimp only
  split
  next h => simp [member, h.1]
  · rfl

theorem member_kkill (x : Entry) : (x.map Proc.kkill).member = x.member := by
  unfold Entry.map Proc.kkill
  cases hs : x.state <;> simp [member, hs]

/-! ## Places in the code -/

/-- The process is in no call. -/
def Pc.idle : Pc → Bool
  | .user _ | .gone => true
  | _ => false

/-- The process holds `wait_lock` in `kexit`. -/
def Pc.exiting : Pc → Bool
  | .reparent _ _ | .reparentWake _ _ _ | .exitWake _ _ _ | .exitZombie _ => true
  | _ => false

/-- The process holds `wait_lock`. -/
def Pc.holds : Pc → Bool
  | .waitScan _ _ _ | .waitCheck _ _ | .waitSleep _ => true
  | x => x.exiting

/-- The process is in `kexit`. -/
def Pc.leaves : Pc → Bool
  | .exitLock _ => true
  | x => x.exiting

/-- The process that is being constructed. -/
def Pc.builds : Pc → Option Slot
  | .forkParent q | .forkReady q => some q
  | _ => none

/-- The process has seen that it is not the parent of `q`. -/
def Pc.clears (q : Slot) : Pc → Prop
  | .reparent _ i => q.val < i
  | .reparentWake _ i _ => q.val ≤ i
  | .exitWake _ _ _ | .exitZombie _ => True
  | .waitScan _ i false => q.val < i
  | .waitCheck _ false => True
  | _ => False

variable {x : Pc}

theorem holds_of_clears {q : Slot} (h : x.clears q) : x.holds = true := by
  cases x with
  | reparent | reparentWake | exitWake | exitZombie | waitScan | waitCheck => rfl
  | _ => exact h.elim

theorem holds_of_idle (h : x.idle = true) : x.holds = false := by
  cases x with
  | user | gone => rfl
  | _ => cases h

/-- What the place `x` says about the process `p` and the family. -/
structure Place (initproc : Slot) (F : Family Slot Int) (pc : Slot → Pc) (p : Slot) (x : Pc) : Prop where
  active : x.idle = false → ∃ m, F.member p = some m ∧ m.stage = .alive
  builds : ∀ q, x.builds = some q → (∀ r ≠ p, (pc r).builds ≠ some q) ∧
    ∃ m mp, F.member q = some m ∧ m.stage = .building ∧ F.member p = some mp ∧ m.creator = mp.gen ∧
      m.parent = if x = .forkReady q then some p else none
  clears : ∀ q m, x.clears q → F.member q = some m → m.parent ≠ some p
  leaves : x.leaves = true → p ≠ initproc

/-- What the places of the processes say about the family and about `wait_lock`. -/
structure Ctl (initproc : Slot) (F : Family Slot Int) (pc : Slot → Pc) (lock : Option Slot) : Prop where
  place : ∀ p, Place initproc F pc p (pc p)
  lock : ∀ p, (pc p).holds = true ↔ lock = some p

section Control

variable {initproc p q : Slot} {F F' : Family Slot Int} {pc : Slot → Pc} {lock lock' : Option Slot}

/-- Nothing is known of a process that is in no call. -/
theorem place_idle (hx : x.idle = true) : Place initproc F pc p x := by
  cases x with
  | user | gone => exact ⟨Bool.noConfusion, fun q hq => (by cases hq), fun q m hc => hc.elim, Bool.noConfusion⟩
  | _ => cases hx

/-- How a process and `wait_lock` move together. -/
inductive LockMove (p : Slot) : Bool → Option Slot → Bool → Option Slot → Prop
  | stay {b : Bool} {l : Option Slot} : LockMove p b l b l
  | acquire : LockMove p false none true (some p)
  | release : LockMove p true (some p) false none

section

variable {b b' : Bool} (h : LockMove p b lock b' lock')
include h

theorem LockMove.self (hold : b = true ↔ lock = some p) : b' = true ↔ lock' = some p := by
  cases h with
  | stay => exact hold
  | acquire => exact iff_of_true rfl rfl
  | release => exact iff_of_false Bool.false_ne_true (some_ne_none p).symm

theorem LockMove.other (hq : q ≠ p) : lock = some q ↔ lock' = some q := by
  cases h with
  | stay => rfl
  | acquire => exact iff_of_false (some_ne_none q).symm fun heq => hq (some.inj heq).symm
  | release => exact iff_of_false (fun heq => hq (some.inj heq).symm) (some_ne_none q).symm

end

section

variable (h : Ctl initproc F pc lock)
include h

/-- A process goes on while the family stays as it is. -/
theorem Ctl.move (hx : Place initproc F pc p x) (hlock : LockMove p (pc p).holds lock x.holds lock') :
    Ctl initproc F (update pc p x) lock' := by
  have hself : update pc p x p = x := update_self ..
  have hne : ∀ r ≠ p, update pc p x r = pc r := fun r hr => update_of_ne hr ..
  refine ⟨fun r => ?_, fun r => ?_⟩
  · rcases eq_or_ne r p with rfl | hrp
    · rw [hself]
      refine { hx with builds := fun q hq => ⟨fun u hu => ?_, (hx.builds q hq).2⟩ }
      rw [hne u hu]
      exact (hx.builds q hq).1 u hu
    · rw [hne r hrp]
      refine { h.place r with builds := fun q hq => ⟨fun u hu hb => ?_, ((h.place r).builds q hq).2⟩ }
      rcases eq_or_ne u p with rfl | hup
      · rw [hself] at hb
        exact (hx.builds q hb).1 r hrp hq
      · rw [hne u hup] at hb
        exact ((h.place r).builds q hq).1 u hu hb
  · rcases eq_or_ne r p with rfl | hrp
    · rw [hself]
      exact hlock.self (h.lock r)
    · rw [hne r hrp, h.lock r]
      exact hlock.other hrp

/-- A process leaves its call. -/
theorem Ctl.idle (hx : x.idle = true)
    (hlock : LockMove p (pc p).holds lock false lock') : Ctl initproc F (update pc p x) lock' := by
  rw [← holds_of_idle hx] at hlock
  exact h.move (place_idle hx) hlock

/-- The family changes in a slot that no process constructs. -/
theorem Ctl.change {m : Option (Member Slot Int)}
    (hF : F'.member = (F.set q m).member) (hactive : (pc q).idle = false → ∀ x, F.member q = some x →
      ∃ x', m = some x' ∧ x'.stage = x.stage ∧ x'.gen = x.gen) (hbuilds : ∀ r, (pc r).builds ≠ some q)
    (hclears : ∀ r x, (pc r).clears q → m = some x → x.parent ≠ some r) : Ctl initproc F' pc lock := by
  have hne : ∀ r ≠ q, F'.member r = F.member r := fun r hr => by rw [hF, set_member_ne F m hr]
  have hself : F'.member q = m := by rw [hF, set_member_self]
  have halive : ∀ r, (pc r).idle = false → ∀ x, F.member r = some x →
      ∃ x', F'.member r = some x' ∧ x'.stage = x.stage ∧ x'.gen = x.gen := by
    intro r hr x hx
    rcases eq_or_ne r q with rfl | hrq
    · rw [hself]
      exact hactive hr x hx
    · exact ⟨x, (hne r hrq).trans hx, rfl, rfl⟩
  refine ⟨fun r => ⟨fun hr => ?_, fun u hr => ⟨((h.place r).builds u hr).1, ?_⟩, fun u x hr hu => ?_,
    (h.place r).leaves⟩, h.lock⟩
  · obtain ⟨x, hx, hal⟩ := (h.place r).active hr
    obtain ⟨x', hx', hst, -⟩ := halive r hr x hx
    exact ⟨x', hx', hst.trans hal⟩
  · obtain ⟨-, x, xp, hx, hst, hxp, hcre, hpar⟩ := (h.place r).builds u hr
    have huq : u ≠ q := by
      rintro rfl
      exact hbuilds r hr
    have hidle : (pc r).idle = false := by
      cases hpc : pc r with
      | user | gone => rw [hpc] at hr; cases hr
      | _ => rfl
    obtain ⟨xp', hxp', -, hgen⟩ := halive r hidle xp hxp
    exact ⟨x, xp', (hne u huq).trans hx, hst, hxp', hcre.trans hgen.symm, hpar⟩
  · rcases eq_or_ne u q with rfl | huq
    · rw [hself] at hu
      exact hclears r x hr hu
    · rw [hne u huq] at hu
      exact (h.place r).clears u x hr hu

/-- A process changes a slot of the family and goes on. -/
theorem Ctl.changeMove {m : Option (Member Slot Int)}
    (hF : F'.member = (F.set q m).member) (hlock : LockMove p (pc p).holds lock x.holds lock')
    (hactive : q ≠ p → (pc q).idle = false → ∀ y, F.member q = some y →
      ∃ y', m = some y' ∧ y'.stage = y.stage ∧ y'.gen = y.gen) (hbuilds : ∀ r ≠ p, (pc r).builds ≠ some q)
    (hclears : ∀ r y, r ≠ p → (pc r).clears q → m = some y → y.parent ≠ some r)
    (hx : Place initproc F' pc p x) : Ctl initproc F' (update pc p x) lock' := by
  -- the process leaves its call, the family changes, and the process is at its new place
  obtain ⟨lock₀, hfirst, hsecond⟩ : ∃ lock₀, LockMove p (pc p).holds lock false lock₀ ∧
      LockMove p false lock₀ x.holds lock' := by
    have hold := h.lock p
    revert hlock hold
    generalize (pc p).holds = b
    generalize x.holds = b'
    intro hlock hold
    cases hlock with
    | stay =>
      cases b with
      | false => exact ⟨lock, .stay, .stay⟩
      | true =>
        obtain rfl := hold.mp rfl
        exact ⟨none, .release, .acquire⟩
    | acquire => exact ⟨none, .stay, .acquire⟩
    | release => exact ⟨none, .release, .stay⟩
  have hself : update pc p (.user none) p = .user none := update_self ..
  have hne : ∀ r ≠ p, update pc p (.user none) r = pc r :=
    fun r hr => update_of_ne hr ..
  have hidle : Ctl initproc F (update pc p (.user none)) lock₀ := h.idle rfl hfirst
  have hchange : Ctl initproc F' (update pc p (.user none)) lock₀ := by
    refine hidle.change hF (fun hq => ?_) (fun r hr => ?_) fun r y hr => ?_
    · rcases eq_or_ne q p with rfl | hqp
      · rw [hself] at hq
        cases hq
      · rw [hne q hqp] at hq
        exact hactive hqp hq
    · rcases eq_or_ne r p with rfl | hrp
      · rw [hself] at hr
        cases hr
      · rw [hne r hrp] at hr
        exact hbuilds r hrp hr
    · rcases eq_or_ne r p with rfl | hrp
      · rw [hself] at hr
        exact hr.elim
      · rw [hne r hrp] at hr
        exact hclears r y hrp hr
  rw [← update_idem (.user none) x pc]
  refine hchange.move { hx with builds := fun u hu => ⟨fun r hr => ?_, (hx.builds u hu).2⟩ } ?_
  · rw [hne r hr]
    exact (hx.builds u hu).1 r hr
  · rw [hself]
    exact hsecond

/-- A member that is alive or has left is not under construction. -/
theorem Ctl.not_builds (hq : F.member q = some m)
    (hstage : m.stage ≠ .building) (r : Slot) : (pc r).builds ≠ some q := by
  intro hr
  obtain ⟨-, x, -, hx, hst, -⟩ := (h.place r).builds q hr
  obtain rfl : m = x := some.inj (hq.symm.trans hx)
  exact hstage hst

theorem Ctl.not_builds_none (hq : F.member q = none) (r : Slot) : (pc r).builds ≠ some q := by
  intro hr
  obtain ⟨-, x, -, hx, -⟩ := (h.place r).builds q hr
  rw [hq] at hx
  cases hx

/-- A slot without a living member is in no call. -/
theorem Ctl.idle_of_dead (hq : ∀ m, F.member q = some m → m.stage ≠ .alive) : (pc q).idle = true := by
  by_contra hidle
  obtain ⟨m, hm, hal⟩ := (h.place q).active (Bool.eq_false_of_not_eq_true hidle)
  exact hq m hm hal

end

/-- The processes that have left, and the one that is leaving and holds `wait_lock`. -/
def leaving (F : Family Slot Int) (pc : Slot → Pc) (lock : Option Slot) : Set Nat :=
  { id | id ∈ F.exited ∨ ∃ p m, lock = some p ∧ (pc p).exiting = true ∧ F.member p = some m ∧ m.gen = id }

theorem holds_of_exiting (h : x.exiting = true) : x.holds = true := by
  cases x with
  | reparent | reparentWake | exitWake | exitZombie => rfl
  | _ => cases h

theorem idle_of_exiting (h : x.exiting = true) : x.idle = false := by
  cases x with
  | reparent | reparentWake | exitWake | exitZombie => rfl
  | _ => cases h

/-- Nobody who is leaving is forgotten. -/
theorem leaving_step (h : Ctl initproc F pc lock)
    (hlock : LockMove p (pc p).holds lock x.holds lock') (hexits : ∀ id ∈ F.exited, id ∈ F'.exited)
    (hkeep : ∀ r m, r ≠ p → (pc r).idle = false → F.member r = some m →
      ∃ m', F'.member r = some m' ∧ m'.gen = m.gen) (hself : ∀ m, (pc p).exiting = true → F.member p = some m →
      m.gen ∈ F'.exited ∨ x.exiting = true ∧ ∃ m', F'.member p = some m' ∧ m'.gen = m.gen) :
    leaving F pc lock ⊆ leaving F' (update pc p x) lock' := by
  rintro id (hid | ⟨r, m, rfl, hexit, hm, rfl⟩)
  · exact .inl (hexits id hid)
  rcases eq_or_ne r p with rfl | hrp
  · rcases hself m hexit hm with hid | ⟨hx, m', hm', hgen⟩
    · exact .inl hid
    refine .inr ⟨r, m', (hlock.self (h.lock r)).mp (holds_of_exiting hx), ?_, hm', hgen⟩
    rw [update_self]
    exact hx
  · obtain ⟨m', hm', hgen⟩ := hkeep r m hrp (idle_of_exiting hexit) hm
    refine .inr ⟨r, m', (hlock.other hrp).mp rfl, ?_, hm', hgen⟩
    rw [update_of_ne hrp]
    exact hexit

end Control

/-! ## The invariant -/

/-- Unused entries have no parent, and the others a positive pid. -/
structure Tidy (s : State) : Prop where
  unused : ∀ q, (s.proc q).state = .unused → (s.proc q).parent = none
  pid : ∀ q, (s.proc q).state ≠ .unused → 1 ≤ (s.proc q).pid
  nextpid : 1 ≤ s.nextpid

structure Inv (initproc : Slot) (s : State) : Prop where
  tidy : Tidy s
  ctl : Ctl initproc (family s) s.pc s.waitLock
  valid : Valid initproc (leaving (family s) s.pc s.waitLock) (family s)

variable {initproc p q : Slot} {s t : State} {copyok : Bool} {w : Pc}

theorem Tidy.same (h : Tidy s) (hproc : t.proc = s.proc) (hnext : t.nextpid = s.nextpid) : Tidy t := by
  refine ⟨?_, ?_, ?_⟩
  · rw [hproc]
    exact h.unused
  · rw [hproc]
    exact h.pid
  · rw [hnext]
    exact h.nextpid

theorem Tidy.setProc (h : Tidy s) {x : Entry} (hunused : x.state = .unused → x.parent = none)
    (hpid : x.state ≠ .unused → 1 ≤ x.pid) : Tidy (s.setProc q x) := by
  refine ⟨fun r hr => ?_, fun r hr => ?_, h.nextpid⟩
  · rcases eq_or_ne r q with rfl | hne
    · rw [setProc_self] at hr ⊢
      exact hunused hr
    · rw [setProc_ne s x hne] at hr ⊢
      exact h.unused r hr
  · rcases eq_or_ne r q with rfl | hne
    · rw [setProc_self] at hr ⊢
      exact hpid hr
    · rw [setProc_ne s x hne] at hr ⊢
      exact h.pid r hr

/-- The parent of a member, read from its entry. -/
theorem Tidy.parent (h : Tidy s) {r : Slot} (hq : (s.proc q).parent = some r) :
    ∃ m, (family s).member q = some m ∧ m.parent = some r := by
  have hused : (s.proc q).state ≠ .unused := by
    intro hunused
    rw [h.unused q hunused] at hq
    cases hq
  cases hm : (s.proc q).member with
  | none =>
    cases hs : (s.proc q).state with
    | unused => exact absurd hs hused
    | used | sleeping | runnable | running | zombie =>
      rw [member, hs] at hm
      cases hm
  | some m => exact ⟨m, hm, (member_eq_some hm).2.1.trans hq⟩

/-- A step of a process from `w` to `x` that the family does not see. -/
theorem Inv.quiet (h : Inv initproc s) (hfam : family t = family s) (hpc : t.pc = update s.pc p x)
    (hrun : (s.proc p).state = .runnable) (hw : s.pc p = w) (hlock : LockMove p w.holds s.waitLock x.holds t.waitLock)
    (hbuilds : x.builds = none) (hclears : ∀ q m, x.clears q → (family s).member q = some m → m.parent ≠ some p)
    (hleaves : x.leaves = true → p ≠ initproc) (hexit : w.exiting = true → x.exiting = true)
    (htidy : Tidy t) : Inv initproc t := by
  subst hw
  have hctl : Ctl initproc (family s) (update s.pc p x) t.waitLock := by
    refine h.ctl.move ⟨fun _ => ⟨_, member_runnable hrun, rfl⟩, fun q hq => ?_, hclears, hleaves⟩ hlock
    rw [hbuilds] at hq
    cases hq
  refine ⟨htidy, ?_, ?_⟩
  · rw [hfam, hpc]
    exact hctl
  · rw [hfam, hpc]
    refine h.valid.mono (leaving_step h.ctl hlock (fun _ hid => hid) (fun r m _ _ hm => ⟨m, hm, rfl⟩) ?_)
    exact fun m hex hm => .inr ⟨hexit hex, m, hm, rfl⟩

/-! ## Steps -/

/-- A step to a place where nothing is held, built or known. -/
theorem Inv.goesOn (h : Inv initproc s) (hfam : family t = family s)
    (hpc : t.pc = update s.pc p x) (hrun : (s.proc p).state = .runnable) (hw : s.pc p = w)
    (hlock : t.waitLock = s.waitLock) (hholds : w.holds = false) (hx : x.holds = false)
    (hbuilds : x.builds = none) (hleaves : x.leaves = true → p ≠ initproc) (htidy : Tidy t) :
    Inv initproc t := by
  refine h.quiet hfam hpc hrun hw ?_ hbuilds (fun q m hc => ?_) hleaves (fun hex => ?_) htidy
  · rw [hholds, hx, hlock]
    exact .stay
  · rw [holds_of_clears hc] at hx
    cases hx
  · rw [holds_of_exiting hex] at hholds
    cases hholds

/-- A process outside `wait_lock` goes on to such a place. -/
theorem Inv.moves (h : Inv initproc s) (hrun : (s.proc p).state = .runnable) (hw : s.pc p = w)
    (hholds : w.holds = false) (hx : x.holds = false) (hbuilds : x.builds = none)
    (hleaves : x.leaves = true → p ≠ initproc) : Inv initproc (s.setPc p x) :=
  h.goesOn rfl rfl hrun hw rfl hholds hx hbuilds hleaves (h.tidy.same rfl rfl)

/-- `allocproc` takes the entry `q`, which becomes `y`, and its caller goes on at `x`. -/
theorem Inv.newborn (h : Inv initproc s) (hrun : (s.proc p).state = .runnable)
    (hholds : (s.pc p).holds = false) (hq : (s.proc q).state = .unused) {y : Entry}
    (hparent : ∀ m, y.member = some m → m.parent = none ∨ m.parent = some p)
    (hx : x.holds = false) (hleaves : x.leaves = false)
    (hbuilds : ∀ r, x.builds = some r → r = q ∧ x = .forkParent q ∧
      y.member = some ⟨.building, none, s.births, (s.proc p).gen⟩)
    (hvalid : Valid initproc (leaving (family s) s.pc s.waitLock)
      { (family s).set q y.member with births := s.births + 1 })
    (hunused : y.state = .unused → y.parent = none) (hpid : y.state ≠ .unused → 1 ≤ y.pid) :
    Inv initproc (((allocated s p q).setProc q y).setPc p x) := by
  have hnone : (family s).member q = none := member_unused hq
  have hpq : p ≠ q := by
    rintro rfl
    rw [hrun] at hq
    cases hq
  have hidle : (s.pc q).idle = true := h.ctl.idle_of_dead fun m hm => by
    rw [hnone] at hm
    cases hm
  set F : Family Slot Int := { (family s).set q y.member with births := s.births + 1 }
  have hfam : family (((allocated s p q).setProc q y).setPc p x) = F := by
    refine (family_setProc (allocated s p q) q y).trans ?_
    show ({ (family (s.setProc q _)) with births := s.births + 1 } : Family Slot Int).set q y.member = _
    rw [family_setProc]
    exact congrArg (fun F : Family Slot Int => { F with births := s.births + 1 }) (set_set (family s) q _ y.member)
  have hpc : (((allocated s p q).setProc q y).setPc p x).pc = update (update s.pc q (.user none)) p x := rfl
  -- the new process has run nothing, then it joins the family, then its creator goes on
  have hfresh : Ctl initproc (family s) (update s.pc q (.user none)) s.waitLock := by
    refine h.ctl.idle rfl ?_
    rw [holds_of_idle hidle]
    exact .stay
  have hpcp : update s.pc q (.user none) p = s.pc p := update_of_ne hpq ..
  have hjoin : Ctl initproc F (update s.pc q (.user none)) s.waitLock := by
    refine hfresh.change rfl (fun hact => ?_) (hfresh.not_builds_none hnone) fun r m hclear hm hr => ?_
    · rw [update_self] at hact
      cases hact
    rcases hparent m hm with hp | hp
    · rw [hp] at hr
      cases hr
    obtain rfl : p = r := some.inj (hp.symm.trans hr)
    have hholds' := holds_of_clears hclear
    rw [hpcp, hholds] at hholds'
    cases hholds'
  have hpmem : F.member p = some ⟨.alive, (s.proc p).parent, (s.proc p).gen, (s.proc p).creator⟩ :=
    (set_member_ne (family s) y.member hpq).trans (member_runnable hrun)
  refine ⟨?_, ?_, ?_⟩
  · have htidy : Tidy ((allocated s p q).setProc q y) := by
      have halloc : Tidy (allocated s p q) := by
        have hnew := h.tidy.setProc (q := q) (x := (s.proc q).alloc s.nextpid s.births (s.proc p).gen)
          nofun fun _ => h.tidy.nextpid
        exact ⟨hnew.unused, hnew.pid, Int.le_add_one h.tidy.nextpid⟩
      exact halloc.setProc hunused hpid
    exact htidy.same rfl rfl
  · rw [hfam, hpc]
    refine hjoin.move ⟨fun _ => ⟨_, hpmem, rfl⟩, fun r hr => ?_, fun r m hc => ?_, fun hl => ?_⟩ ?_
    · obtain ⟨rfl, rfl, hy⟩ := hbuilds r hr
      refine ⟨fun u _ => hfresh.not_builds_none hnone u, _, _,
        (set_member_self (family s) r y.member).trans hy, rfl, hpmem, rfl, ?_⟩
      rw [if_neg Pc.noConfusion]
    · rw [holds_of_clears hc] at hx
      cases hx
    · rw [hleaves] at hl
      cases hl
    · rw [hpcp, hholds, hx]
      exact .stay
  · rw [hfam, hpc]
    have hmono : leaving (family s) s.pc s.waitLock ⊆ leaving (family s) (update s.pc q (.user none)) s.waitLock := by
      refine leaving_step h.ctl ?_ (fun _ hid => hid) (fun r m _ _ hm => ⟨m, hm, rfl⟩) fun m hex => ?_
      · rw [holds_of_idle hidle]
        exact .stay
      · rw [idle_of_exiting hex] at hidle
        cases hidle
    refine hvalid.mono (hmono.trans (leaving_step hfresh ?_ (fun _ hid => hid) ?_ fun m hex => ?_))
    · rw [hpcp, hholds, hx]
      exact .stay
    · intro r m _ hact hm
      have hrq : r ≠ q := by
        rintro rfl
        rw [update_self] at hact
        cases hact
      exact ⟨m, (set_member_ne (family s) y.member hrq).trans hm, rfl⟩
    · rw [hpcp] at hex
      rw [holds_of_exiting hex] at hholds
      cases hholds

theorem setProc_proc (s : State) (q : Slot) : s.setProc q (s.proc q) = s := by
  unfold setProc
  rw [update_eq_self]

/-- A new process that is finished at once. -/
theorem Inv.valid_thread (h : Inv initproc s) (hrun : (s.proc p).state = .runnable)
    (hq : (s.proc q).state = .unused) :
    Valid initproc (leaving (family s) s.pc s.waitLock)
      { (family s).set q (some ⟨.alive, some p, s.births, (s.proc p).gen⟩) with births := s.births + 1 } := by
  have hpq : p ≠ q := by
    rintro rfl
    rw [hrun] at hq
    cases hq
  have hcreate := h.valid.create (member_unused hq : (family s).member q = none) (s.proc p).gen
  have hpmem := (set_member_ne (family s) (some ⟨.building, none, s.births, (s.proc p).gen⟩) hpq).trans
    (member_runnable hrun)
  have hthread := hcreate.replace (n := ⟨.alive, some p, s.births, (s.proc p).gen⟩)
    (set_member_self (family s) q _) rfl (.inr ⟨rfl, rfl⟩) (fun _ _ => (some_ne_none p))
    (fun r hr => by cases hr; exact ⟨_, hpmem, rfl⟩) fun r mr hr hmr => by
      cases hr
      obtain rfl := some.inj (hpmem.symm.trans hmr)
      exact .inl rfl
  rw [← set_set (family s) q (some ⟨.building, none, s.births, (s.proc p).gen⟩)]
  exact hthread

/-- `allocproc` visits entry `q`. -/
theorem Inv.allocVisit (h : Inv initproc s) (hrun : (s.proc p).state = .runnable) (hw : s.pc p = w)
    (hholds : w.holds = false) (thread mem : Bool) (i : Nat) :
    Inv initproc (allocVisit s p q thread mem i) := by
  subst hw
  unfold allocVisit
  split
  next hq =>
    have hnone : (family s).member q = none := member_unused hq
    have hparent : (s.proc q).parent = none := h.tidy.unused q hq
    have hcreate := h.valid.create hnone (s.proc p).gen
    have halloc : ((s.proc q).alloc s.nextpid s.births (s.proc p).gen).member =
        some ⟨.building, none, s.births, (s.proc p).gen⟩ := by
      rw [← hparent]
      rfl
    have hself : (allocated s p q).proc q = (s.proc q).alloc s.nextpid s.births (s.proc p).gen := setProc_self ..
    dsimp only
    rw [hself]
    cases mem with
    | false =>
      refine h.newborn hrun hholds hq (fun m hm => by cases hm) rfl rfl (fun r hr => by cases hr) ?_
        (fun _ => rfl) fun hne => absurd rfl hne
      have hsame : (family s).set q none = family s := by
        unfold Family.set
        rw [← hnone, update_eq_self]
      show Valid initproc _ { (family s).set q none with births := s.births + 1 }
      rw [hsame]
      exact h.valid.fail
    | true =>
      cases thread with
      | true =>
        refine h.newborn hrun hholds hq (fun m hm => ?_) rfl rfl (fun r hr => by cases hr) ?_
          nofun fun _ => h.tidy.nextpid
        · cases hm
          exact .inr rfl
        · exact h.valid_thread hrun hq
      | false =>
        have hnew := h.newborn (y := (allocated s p q).proc q) (x := .forkParent q) hrun hholds hq
          (fun m hm => ?_) rfl rfl (fun r hr => ?_) ?_ (fun hun => ?_) fun _ => ?_
        · rwa [setProc_proc] at hnew
        · rw [hself, halloc] at hm
          cases hm
          exact .inl rfl
        · cases hr
          exact ⟨rfl, rfl, by rw [hself, halloc]⟩
        · rw [hself, halloc]
          exact hcreate
        · rw [hself] at hun
          cases hun
        · rw [hself]
          exact h.tidy.nextpid
  · split
    · exact h.moves hrun rfl hholds rfl rfl Bool.noConfusion
    · exact h.moves hrun rfl hholds rfl rfl Bool.noConfusion

theorem state_of_building {x : Entry} (h : x.member = some m) (hst : m.stage = .building) : x.state = .used := by
  cases hs : x.state with
  | used => rfl
  | unused | sleeping | runnable | running | zombie =>
    rw [member, hs] at h
    cases h
    try cases hst

/-- A member in another place of its life has another parent, and nothing else is new. -/
theorem member_setParent {x : Entry} (h : x.member = some m) (r : Option Slot) :
    ({ x with parent := r } : Entry).member = some { m with parent := r } := by
  cases hs : x.state with
  | unused =>
    rw [member, hs] at h
    cases h
  | used | sleeping | runnable | running | zombie =>
    rw [member, hs] at h
    cases h
    simp only [member]

section

variable (h : Inv initproc s)
include h

/-- A step of `p` from `w` to `x` that changes the slot `q` of the family. -/
theorem Inv.changes {m : Option (Member Slot Int)} (hF : (family t).member = ((family s).set q m).member)
    (hpc : t.pc = update s.pc p x) (hw : s.pc p = w) (hlock : LockMove p w.holds s.waitLock x.holds t.waitLock)
    (hactive : q ≠ p → (s.pc q).idle = false → ∀ y, (family s).member q = some y →
      ∃ y', m = some y' ∧ y'.stage = y.stage ∧ y'.gen = y.gen) (hbuilds : ∀ r ≠ p, (s.pc r).builds ≠ some q)
    (hclears : ∀ r y, r ≠ p → (s.pc r).clears q → m = some y → y.parent ≠ some r)
    (hx : Place initproc (family t) s.pc p x) (hexits : ∀ id ∈ (family s).exited, id ∈ (family t).exited)
    (hself : ∀ y, w.exiting = true → (family s).member p = some y → y.gen ∈ (family t).exited ∨
        x.exiting = true ∧ ∃ y', (family t).member p = some y' ∧ y'.gen = y.gen)
    (hvalid : Valid initproc (leaving (family s) s.pc s.waitLock) (family t)) (htidy : Tidy t) :
    Inv initproc t := by
  subst hw
  refine ⟨htidy, ?_, ?_⟩
  · rw [hpc]
    exact h.ctl.changeMove hF hlock hactive hbuilds hclears hx
  rw [hpc]
  refine hvalid.mono (leaving_step h.ctl hlock hexits (fun r y hrp hact hy => ?_) hself)
  rw [hF]
  rcases eq_or_ne r q with rfl | hrq
  · obtain ⟨y', hy', -, hgen⟩ := hactive hrp hact y hy
    exact ⟨y', (set_member_self (family s) r m).trans hy', hgen⟩
  · exact ⟨y, (set_member_ne (family s) m hrq).trans hy, rfl⟩

section

variable (hrun : (s.proc p).state = .runnable)
include hrun

/-- The builder of a process, and the process. -/
theorem Inv.building (hb : (s.pc p).builds = some q) :
    ∃ m mp, (s.proc q).member = some m ∧ m.stage = .building ∧ (s.proc q).state = .used ∧ p ≠ q ∧
      (family s).member p = some mp ∧ mp.stage = .alive ∧ m.creator = mp.gen ∧
      (m.parent = if s.pc p = .forkReady q then some p else none) ∧ (s.pc q).idle = true ∧
      ∀ r ≠ p, (s.pc r).builds ≠ some q := by
  obtain ⟨hone, m, mp, hq, hst, hp, hcre, hpar⟩ := (h.ctl.place p).builds q hb
  have hused : (s.proc q).state = .used := state_of_building hq hst
  have hpq : p ≠ q := by
    rintro rfl
    rw [hused] at hrun
    cases hrun
  have hmp : mp.stage = .alive := by
    obtain rfl := some.inj ((member_runnable hrun).symm.trans hp)
    rfl
  refine ⟨m, mp, hq, hst, hused, hpq, hp, hmp, hcre, hpar, h.ctl.idle_of_dead fun y hy => ?_, hone⟩
  obtain rfl : m = y := some.inj (hq.symm.trans hy)
  rw [hst]
  exact nofun

/-- `kfork` sets the parent of the new process. -/
theorem Inv.forkParent (hpc : s.pc p = .forkParent q) :
    Inv initproc ((s.setProc q { s.proc q with parent := some p }).setPc p (.forkReady q)) := by
  have hb : (s.pc p).builds = some q := by
    rw [hpc]
    rfl
  obtain ⟨m, mp, hq, hst, hused, hpq, hp, hmp, hcre, -, hidle, hone⟩ := h.building hrun hb
  have hfam : family ((s.setProc q { s.proc q with parent := some p }).setPc p (.forkReady q)) =
      (family s).set q (some { m with parent := some p }) := by
    refine (family_setProc s q _).trans ?_
    rw [member_setParent hq]
  have hpmem : ((family s).set q (some { m with parent := some p })).member p = some mp :=
    (set_member_ne (family s) _ hpq).trans hp
  have htidy : Tidy (s.setProc q { s.proc q with parent := some p }) := by
    refine h.tidy.setProc (fun hun => ?_) fun hun => h.tidy.pid q hun
    rw [hused] at hun
    cases hun
  refine h.changes (congrArg Family.member hfam) rfl hpc .stay (fun _ hact => ?_) hone (fun r y hrp _ hy => ?_)
    ⟨fun _ => ?_, fun u hu => ?_, fun u y hc => hc.elim, Bool.noConfusion⟩
    (fun _ hid => hid) (fun y hex => Bool.noConfusion hex) ?_ (htidy.same rfl rfl)
  · rw [hidle] at hact
    cases hact
  · cases hy
    exact fun heq => hrp (some.inj heq).symm
  · rw [hfam]
    exact ⟨mp, hpmem, hmp⟩
  · cases hu
    refine ⟨hone, ?_⟩
    rw [hfam, if_pos rfl]
    exact ⟨_, mp, set_member_self (family s) q _, hst, hpmem, hcre, rfl⟩
  · rw [hfam]
    refine h.valid.replace (n := { m with parent := some p }) hq rfl (.inl rfl)
      (fun _ _ => some_ne_none p) (fun r hr => ?_) fun r mr hr hmr => ?_
    · cases hr
      exact ⟨mp, hp, hmp⟩
    · cases hr
      obtain rfl : mp = mr := some.inj (hp.symm.trans hmr)
      exact .inl hcre.symm

/-- `kfork` makes the new process runnable. -/
theorem Inv.forkReady (hpc : s.pc p = .forkReady q) :
    Inv initproc ((s.setProc q { s.proc q with state := .runnable }).setPc p (.user (some (s.proc q).pid))) := by
  have hb : (s.pc p).builds = some q := by
    rw [hpc]
    rfl
  obtain ⟨m, mp, hq, hst, hused, hpq, hp, hmp, hcre, hpar, hidle, hone⟩ := h.building hrun hb
  rw [if_pos hpc] at hpar
  have hmember : ({ s.proc q with state := .runnable } : Entry).member = some { m with stage := .alive } := by
    rw [member, hused] at hq
    cases hq
    rfl
  have hfam : family ((s.setProc q { s.proc q with state := .runnable }).setPc p
      (.user (some (s.proc q).pid))) = (family s).set q (some { m with stage := .alive }) := by
    refine (family_setProc s q _).trans ?_
    rw [hmember]
  have htidy : Tidy (s.setProc q { s.proc q with state := .runnable }) := by
    refine h.tidy.setProc nofun fun _ => h.tidy.pid q ?_
    rw [hused]
    exact noConfusion
  refine h.changes (congrArg Family.member hfam) rfl hpc .stay (fun _ hact => ?_) hone (fun r y hrp hc hy => ?_)
    (place_idle rfl) (fun _ hid => hid) (fun y hex => Bool.noConfusion hex) ?_ (htidy.same rfl rfl)
  · rw [hidle] at hact
    cases hact
  · cases hy
    exact (h.ctl.place r).clears q m hc hq
  · rw [hfam]
    refine h.valid.replace (n := { m with stage := .alive }) hq rfl (.inr ⟨hst, rfl⟩) (fun _ _ => ?_)
      (fun r hr => ?_) fun r mr hr hmr => ?_
    · rw [hpar]
      exact some_ne_none p
    · exact h.valid.parent_alive q m r hq hr
    · exact h.valid.creator q m r mr hq hr hmr

/-- `reparent` hands a child to `initproc`. -/
theorem Inv.handOver {status : Int} (hpc : s.pc p = .reparent status q.val) (hchild : (s.proc q).parent = some p) :
    Inv initproc ((s.setProc q { s.proc q with parent := some initproc }).setPc p
      (.reparentWake status q.val 0)) := by
  have hinit : p ≠ initproc := (h.ctl.place p).leaves (hpc ▸ rfl)
  have hheld : s.waitLock = some p := (h.ctl.lock p).mp (hpc ▸ rfl)
  obtain ⟨m, hq, hpar⟩ := h.tidy.parent hchild
  have hp := member_runnable hrun
  have hfam : family ((s.setProc q { s.proc q with parent := some initproc }).setPc p
      (.reparentWake status q.val 0)) = (family s).set q (some { m with parent := some initproc }) := by
    refine (family_setProc s q _).trans ?_
    rw [member_setParent hq]
  -- a member with its stage and number, wherever `p` is
  have hpmem : ∃ y, ((family s).set q (some { m with parent := some initproc })).member p = some y ∧
      y.stage = .alive ∧ y.gen = (s.proc p).gen := by
    rcases eq_or_ne p q with rfl | hpq
    · obtain rfl := some.inj (hp.symm.trans hq)
      exact ⟨_, set_member_self (family s) p _, rfl, rfl⟩
    · exact ⟨_, (set_member_ne (family s) _ hpq).trans hp, rfl, rfl⟩
  have htidy : Tidy (s.setProc q { s.proc q with parent := some initproc }) := by
    have hused := (member_eq_some hq).1
    exact h.tidy.setProc (fun hun => absurd hun hused) fun hun => h.tidy.pid q hun
  refine h.changes (congrArg Family.member hfam) rfl hpc .stay (fun _ _ y hy => ?_) (fun r hrp hb => ?_)
    (fun r y hrp hc => ?_) ⟨fun _ => ?_, fun u hu => (by cases hu), fun u y hc hy => ?_, fun _ => hinit⟩
    (fun _ hid => hid) (fun y _ hy => ?_) ?_ (htidy.same rfl rfl)
  · obtain rfl : m = y := some.inj (hq.symm.trans hy)
    exact ⟨_, rfl, rfl, rfl⟩
  · obtain ⟨-, x, -, hx, -, -, -, hxpar⟩ := (h.ctl.place r).builds q hb
    obtain rfl : m = x := some.inj (hq.symm.trans hx)
    rw [hpar] at hxpar
    split at hxpar
    · exact hrp (some.inj hxpar).symm
    · cases hxpar
  · have hother := (h.ctl.lock r).mp (holds_of_clears hc)
    exact absurd (some.inj (hother.symm.trans hheld)) hrp
  · rw [hfam]
    obtain ⟨y, hy, hal, -⟩ := hpmem
    exact ⟨y, hy, hal⟩
  · rw [hfam] at hy
    rcases set_member_eq_some hy with ⟨-, heq⟩ | ⟨hne, hy⟩
    · cases heq
      exact fun heq => hinit (some.inj heq).symm
    · refine (h.ctl.place p).clears u y ?_ hy
      rw [hpc]
      exact lt_of_le_of_ne hc fun heq => hne (Fin.ext heq)
  · rw [hfam]
    obtain ⟨y', hy', -, hgen⟩ := hpmem
    obtain rfl := some.inj (hp.symm.trans hy)
    exact .inr ⟨rfl, y', hy', hgen⟩
  · rw [hfam]
    obtain ⟨mr, hmr, hal, -⟩ := h.valid.root_alive
    refine h.valid.replace (n := { m with parent := some initproc }) hq rfl (.inl rfl)
      (fun _ _ => some_ne_none initproc) (fun r hr => ?_) fun r y hr _ => ?_
    · cases hr
      exact ⟨mr, hmr, hal⟩
    cases hr
    refine .inr ⟨rfl, ?_⟩
    rcases h.valid.creator q m p _ hq hpar hp with hgen | ⟨hroot, -⟩
    · exact .inr ⟨p, _, hheld, hpc ▸ rfl, hp, hgen⟩
    · exact absurd hroot hinit

/-- The end of `kexit`. -/
theorem Inv.zombie {status : Int} (hpc : s.pc p = .exitZombie status) :
    Inv initproc { ((s.setProc p ((s.proc p).map (Proc.kexit · status))).setPc p .gone).unlock with
      exits := ((s.proc p).gen, status) :: s.exits } := by
  have hinit : p ≠ initproc := (h.ctl.place p).leaves (hpc ▸ rfl)
  have hheld : s.waitLock = some p := (h.ctl.lock p).mp (hpc ▸ rfl)
  have hp := member_runnable hrun
  have hnone : ∀ q x, (family s).member q = some x → x.parent ≠ some p := by
    intro q x hx
    refine (h.ctl.place p).clears q x ?_ hx
    rw [hpc]
    trivial
  have hfam : family { ((s.setProc p ((s.proc p).map (Proc.kexit · status))).setPc p
      .gone).unlock with exits := ((s.proc p).gen, status) :: s.exits } =
      { (family s).set p (some ⟨.left status, (s.proc p).parent, (s.proc p).gen, (s.proc p).creator⟩) with
        exits := ((s.proc p).gen, status) :: s.exits } :=
    congrArg (fun F : Family Slot Int => { F with exits := ((s.proc p).gen, status) :: s.exits })
      (family_setProc s p ((s.proc p).map (Proc.kexit · status)))
  have htidy : Tidy (s.setProc p ((s.proc p).map (Proc.kexit · status))) := by
    refine h.tidy.setProc nofun fun _ => h.tidy.pid p ?_
    rw [hrun]
    exact noConfusion
  refine h.changes (m := some ⟨.left status, (s.proc p).parent, (s.proc p).gen, (s.proc p).creator⟩)
    (by rw [hfam]) rfl hpc (hheld ▸ .release) (absurd rfl)
    (fun r _ => h.ctl.not_builds hp nofun r) (fun r y _ hc hy => ?_)
    (place_idle rfl) (fun id hid => ?_) (fun y _ hy => ?_) ?_ (htidy.same rfl rfl)
  · have hpar := (h.ctl.place r).clears p _ hc hp
    cases hy
    exact hpar
  · rw [hfam]
    exact List.mem_cons_of_mem _ hid
  · rw [hfam]
    obtain rfl := some.inj (hp.symm.trans hy)
    exact .inl List.mem_cons_self
  · rw [hfam]
    exact h.valid.exit hp rfl hinit hnone status

/-- `kwait` returns the child `q`. -/
theorem Inv.reap {addr havekids : Bool} {i : Nat} {e : Reap Int}
    (hpc : s.pc p = .waitScan addr i havekids) (hchild : (s.proc q).parent = some p)
    (hzombie : (s.proc q).state = .zombie) (he : e = ⟨(s.proc q).gen, (s.proc q).creator, (s.proc p).gen,
      if addr then some (s.proc q).xstate else none⟩) :
    Inv initproc { ((s.setProc q ((s.proc q).map Proc.free)).setPc p (.user (some (s.proc q).pid))).unlock with
      reaps := e :: s.reaps } := by
  have hheld : s.waitLock = some p := (h.ctl.lock p).mp (hpc ▸ rfl)
  have hp := member_runnable hrun
  have hq := member_zombie hzombie
  have hfam : family { ((s.setProc q ((s.proc q).map Proc.free)).setPc p (.user (some (s.proc q).pid))).unlock with
      reaps := e :: s.reaps } = { (family s).set q none with reaps := e :: s.reaps } :=
    congrArg (fun F : Family Slot Int => { F with reaps := e :: s.reaps }) (family_setProc s q ((s.proc q).map Proc.free))
  have htidy : Tidy (s.setProc q ((s.proc q).map Proc.free)) :=
    h.tidy.setProc (fun _ => rfl) fun hun => absurd rfl hun
  have hdead : (s.pc q).idle = true := by
    refine h.ctl.idle_of_dead fun m hm => ?_
    obtain rfl := some.inj (hq.symm.trans hm)
    exact nofun
  refine h.changes (m := none) (by rw [hfam]) rfl hpc (hheld ▸ .release) (fun _ hact => ?_)
    (fun r _ => h.ctl.not_builds hq nofun r) (fun r y _ _ hy => by cases hy)
    (place_idle rfl) (fun id hid => ?_) (fun y hex => Bool.noConfusion hex) ?_ (htidy.same rfl rfl)
  · rw [hdead] at hact
    cases hact
  · rw [hfam]
    exact hid
  · rw [hfam, he]
    refine h.valid.reap hq rfl hchild hp (fun id hid => ?_) fun x hx => ?_
    · rcases hid with hid | ⟨r, y, hr, hex, -⟩
      · exact hid
      · obtain rfl : p = r := some.inj (hheld.symm.trans hr)
        rw [hpc] at hex
        cases hex
    · split at hx
      · exact (some.inj hx).symm
      · cases hx

end

end

/-! ## Runs -/

theorem Tidy.kkill (h : Tidy s) (q : Slot) : Tidy (s.setProc q ((s.proc q).map Proc.kkill)) := by
  have hstate : ((s.proc q).map Proc.kkill).state = .unused ↔ (s.proc q).state = .unused := by
    unfold Entry.map Proc.kkill
    cases hs : (s.proc q).state <;> simp
  exact h.setProc (fun hun => h.unused q (hstate.mp hun)) fun hun => h.pid q fun hs => hun (hstate.mpr hs)

theorem Tidy.wakeupVisit (h : Tidy s) (p q : Slot) (chan : Nat) : Tidy (wakeupVisit s p q chan) := by
  unfold Children.wakeupVisit
  split
  · exact h
  unfold Entry.map Proc.wakeup
  dsimp only
  split
  next hs =>
    refine h.setProc nofun fun _ => h.pid q ?_
    rw [hs.1]
    exact noConfusion
  · rw [setProc_proc]
    exact h

theorem family_wakeupVisit (s : State) (p q : Slot) (chan : Nat) :
    family (wakeupVisit s p q chan) = family s := by
  unfold wakeupVisit
  split
  · rfl
  · exact family_quiet (member_wakeup _ _)

theorem wakeupVisit_pc (s : State) (p q : Slot) (chan : Nat) :
    (wakeupVisit s p q chan).pc = s.pc ∧ (wakeupVisit s p q chan).waitLock = s.waitLock := by
  unfold wakeupVisit
  split <;> exact ⟨rfl, rfl⟩

section

variable (h : Inv initproc s) (hrun : (s.proc p).state = .runnable)
include h hrun

/-- A process that holds `wait_lock` visits an entry with `wakeup`. -/
theorem Inv.wakes (chan : Nat) (hw : s.pc p = w) (hholds : w.holds = true) (hx : x.holds = true)
    (hbuilds : x.builds = none) (hclears : ∀ q, x.clears q → w.clears q) (hleaves : x.leaves = true → w.leaves = true)
    (hexit : w.exiting = true → x.exiting = true) (q : Slot) :
    Inv initproc ((wakeupVisit s p q chan).setPc p x) := by
  subst hw
  obtain ⟨hpc, hlock⟩ := wakeupVisit_pc s p q chan
  refine h.quiet (family_wakeupVisit s p q chan) ?_ hrun rfl ?_ hbuilds
    (fun r m hc hm => (h.ctl.place p).clears r m (hclears r hc) hm) (fun hl => (h.ctl.place p).leaves (hleaves hl)) hexit
    ((h.tidy.wakeupVisit p q chan).same rfl rfl)
  · show update (wakeupVisit s p q chan).pc p x = _
    rw [hpc]
  · show LockMove p (s.pc p).holds s.waitLock x.holds (wakeupVisit s p q chan).waitLock
    rw [hlock, hholds, hx]
    exact .stay

/-- A process that holds `wait_lock` goes on holding it. -/
theorem Inv.keeps (hw : s.pc p = w) (hholds : w.holds = true) (hx : x.holds = true) (hbuilds : x.builds = none)
    (hclears : ∀ q m, x.clears q → (family s).member q = some m → m.parent ≠ some p)
    (hleaves : x.leaves = true → w.leaves = true)
    (hexit : w.exiting = true → x.exiting = true) : Inv initproc (s.setPc p x) := by
  subst hw
  refine h.quiet rfl rfl hrun rfl ?_ hbuilds hclears (fun hl => (h.ctl.place p).leaves (hleaves hl)) hexit
    (h.tidy.same rfl rfl)
  rw [hholds, hx]
  exact .stay

/-- A process takes `wait_lock`. -/
theorem Inv.acquires (hw : s.pc p = w) (hfree : s.waitLock = none) (hx : x.holds = true) (hbuilds : x.builds = none)
    (hclears : ∀ q, ¬ x.clears q) (hleaves : x.leaves = true → w.leaves = true)
    (hholds : w.holds = false) : Inv initproc ((s.setPc p x).lock p) := by
  subst hw
  refine h.quiet rfl rfl hrun rfl ?_ hbuilds (fun q m hc => absurd hc (hclears q))
    (fun hl => (h.ctl.place p).leaves (hleaves hl)) (fun hex => ?_) (h.tidy.same rfl rfl)
  · rw [hholds, hx, hfree]
    exact .acquire
  · rw [holds_of_exiting hex] at hholds
    cases hholds

/-- A process in `kwait` releases `wait_lock`. -/
theorem Inv.releases (hfam : family t = family s) (hpc : t.pc = update s.pc p x) (hlock : t.waitLock = none)
    (htidy : Tidy t) (hw : s.pc p = w) (hholds : w.holds = true) (hexit : w.exiting = false) (hx : x.holds = false)
    (hbuilds : x.builds = none) (hleaves : x.leaves = false) : Inv initproc t := by
  subst hw
  have hheld := (h.ctl.lock p).mp hholds
  refine h.quiet hfam hpc hrun rfl ?_ hbuilds (fun q m hc => ?_) (fun hl => ?_) (fun hex => ?_) htidy
  · rw [hholds, hx, hheld, hlock]
    exact .release
  · rw [holds_of_clears hc] at hx
    cases hx
  · rw [hleaves] at hl
    cases hl
  · rw [hexit] at hex
    cases hex

end

/-- What a process knows from its place in the code. -/
theorem Inv.knows (h : Inv initproc s) (hw : s.pc p = w) (hc : w.clears q) (hm : (family s).member q = some m) :
    m.parent ≠ some p := (h.ctl.place p).clears q m (hw ▸ hc) hm

/-- A process that knows the parents of the entries before `i` learns that of entry `i`. -/
theorem Inv.learns (h : Inv initproc s) (hw : s.pc p = w) {i : Nat} (hi : i < nproc)
    (hold : ∀ q : Slot, q.val < i → w.clears q) (hnew : (s.proc ⟨i, hi⟩).parent ≠ some p)
    (q : Slot) (m : Member Slot Int) (hq : q.val < i + 1) (hm : (family s).member q = some m) :
    m.parent ≠ some p := by
  rcases Nat.lt_succ_iff_lt_or_eq.mp hq with hlt | heq
  · exact h.knows hw (hold q hlt) hm
  · obtain rfl : q = ⟨i, hi⟩ := Fin.ext heq
    rw [(member_eq_some hm).2.1]
    exact hnew

/-- One section of a process. -/
theorem Inv.step (h : Inv initproc s) (hrun : (s.proc p).state = .runnable)
    (ht : step initproc s p copyok (s.pc p) = some t) : Inv initproc t := by
  generalize hpc : s.pc p = w at ht
  cases w with
  | user r =>
    cases ht
  | gone =>
    cases ht
  | forkAlloc mem i =>
    cases ht
    split
    · exact h.allocVisit hrun hpc rfl false mem i
    · exact h.moves hrun hpc rfl rfl rfl Bool.noConfusion
  | threadAlloc mem i =>
    cases ht
    split
    · exact h.allocVisit hrun hpc rfl true mem i
    · exact h.moves hrun hpc rfl rfl rfl Bool.noConfusion
  | forkParent q =>
    obtain ⟨-, rfl⟩ := ite_some_none_eq_some.mp ht
    exact h.forkParent hrun hpc
  | forkReady q =>
    cases ht
    exact h.forkReady hrun hpc
  | kill pid i =>
    cases ht
    split
    next hi =>
      split
      · exact h.goesOn (family_quiet (member_kkill _)) rfl hrun hpc rfl rfl rfl rfl
          Bool.noConfusion ((h.tidy.kkill _).same rfl rfl)
      · exact h.moves hrun hpc rfl rfl rfl Bool.noConfusion
    · exact h.moves hrun hpc rfl rfl rfl Bool.noConfusion
  | exitLock status =>
    obtain ⟨hfree, rfl⟩ := ite_some_none_eq_some.mp ht
    exact h.acquires hrun hpc hfree rfl rfl (fun q => Nat.not_lt_zero _) (fun _ => rfl) rfl
  | reparent status i =>
    cases ht
    split
    next hi =>
      split
      next hchild => exact h.handOver (q := ⟨i, hi⟩) hrun hpc hchild
      next hother =>
        exact h.keeps hrun hpc rfl rfl rfl (h.learns hpc hi (fun _ hq => hq) hother) (fun _ => rfl) fun _ => rfl
    next hend =>
      refine h.keeps hrun hpc rfl rfl rfl (fun q m _ hm => ?_) (fun _ => rfl) fun _ => rfl
      exact h.knows hpc (by omega : q.val < i) hm
  | reparentWake status i j =>
    cases ht
    split
    next hj =>
      refine h.wakes hrun _ hpc rfl rfl rfl (fun q hq => ?_) (fun _ => rfl) (fun _ => rfl) ⟨j, hj⟩
      exact hq
    · refine h.keeps hrun hpc rfl rfl rfl (fun q m hq hm => ?_) (fun _ => rfl) fun _ => rfl
      exact h.knows hpc (Nat.le_of_lt_succ hq : q.val ≤ i) hm
  | exitWake status chan j =>
    cases ht
    split
    next hj =>
      refine h.wakes hrun _ hpc rfl rfl rfl (fun q hq => ?_) (fun _ => rfl) (fun _ => rfl) ⟨j, hj⟩
      exact hq
    · exact h.keeps hrun hpc rfl rfl rfl (fun q m hq hm => h.knows hpc hq hm) (fun _ => rfl) fun _ => rfl
  | exitZombie status =>
    cases ht
    exact h.zombie hrun hpc
  | waitLock addr =>
    obtain ⟨hfree, rfl⟩ := ite_some_none_eq_some.mp ht
    exact h.acquires hrun hpc hfree rfl rfl (fun q => Nat.not_lt_zero _) Bool.noConfusion rfl
  | waitScan addr i havekids =>
    cases ht
    split
    next hi =>
      unfold waitVisit
      dsimp only
      split
      next hchild =>
        split
        next hzombie =>
          split
          · exact h.releases hrun rfl rfl rfl (h.tidy.same rfl rfl) hpc rfl rfl rfl rfl rfl
          · exact h.reap hrun hpc hchild hzombie rfl
        · exact h.keeps hrun hpc rfl rfl rfl (fun q m hc => hc.elim) Bool.noConfusion Bool.noConfusion
      next hother =>
        refine h.keeps hrun hpc rfl rfl rfl (fun q m hc => ?_) Bool.noConfusion Bool.noConfusion
        cases havekids with
        | true => exact hc.elim
        | false =>
          exact h.learns hpc hi (fun _ hq => hq) hother q m hc
    next hend =>
      refine h.keeps hrun hpc rfl rfl rfl (fun q m hc hm => ?_) Bool.noConfusion Bool.noConfusion
      cases havekids with
      | true => exact hc.elim
      | false =>
        exact h.knows hpc (by omega : q.val < i) hm
  | waitCheck addr havekids =>
    cases ht
    split
    · exact h.releases hrun rfl rfl rfl (h.tidy.same rfl rfl) hpc rfl rfl rfl rfl rfl
    · exact h.keeps hrun hpc rfl rfl rfl (fun q m hc => hc.elim) Bool.noConfusion Bool.noConfusion
  | waitSleep addr =>
    cases ht
    have htidy : Tidy (s.setProc p ((s.proc p).map (Proc.sleep · (chanOf p)))) := by
      refine h.tidy.setProc nofun fun _ => h.tidy.pid p ?_
      rw [hrun]
      exact noConfusion
    exact h.releases hrun (family_quiet (member_runnable hrun).symm) rfl rfl (htidy.same rfl rfl) hpc rfl rfl rfl rfl rfl
  | waitWoken addr =>
    cases ht
    have htidy : Tidy (s.setProc p { s.proc p with chan := 0 }) :=
      h.tidy.setProc (h.tidy.unused p) fun hun => h.tidy.pid p hun
    exact h.goesOn (family_quiet rfl) rfl hrun hpc rfl rfl rfl rfl Bool.noConfusion (htidy.same rfl rfl)

/-- One step keeps the invariant. -/
theorem Inv.next (h : Inv initproc s) {a : Action} (ht : next initproc s a = some t) : Inv initproc t := by
  cases a with
  | step p copyok =>
    obtain ⟨hrun, ht⟩ := ite_none_right_eq_some.mp ht
    exact h.step hrun ht
  | call p f =>
    obtain ⟨hrun, ht⟩ := ite_none_right_eq_some.mp ht
    generalize hpc : s.pc p = w at ht
    cases w with
    | user r =>
      have hcall : ∀ x : Pc, x.holds = false → x.builds = none → (x.leaves = true → p ≠ initproc) →
          Inv initproc (s.setPc p x) := fun x hx hb hl => h.moves hrun hpc rfl hx hb hl
      cases f with
      | kexit status =>
        obtain ⟨hne, ht⟩ := ite_none_left_eq_some.mp ht
        cases ht
        exact hcall _ rfl rfl fun _ => hne
      | kfork | threadCreate | kkill | kwait =>
        cases ht
        exact hcall _ rfl rfl Bool.noConfusion
    | _ => cases ht

theorem boot_proc_self (initproc : Slot) : (boot initproc).proc initproc = first := by
  simp [boot]

theorem boot_proc_ne {q : Slot} (h : q ≠ initproc) : (boot initproc).proc q = zero := by
  simp [boot, h]

theorem boot_member (initproc q : Slot) (m : Member Slot Int)
    (hm : ((boot initproc).proc q).member = some m) : q = initproc ∧ m = ⟨.alive, none, 0, 0⟩ := by
  rcases eq_or_ne q initproc with rfl | hne
  · rw [boot_proc_self] at hm
    exact ⟨rfl, (some.inj hm).symm⟩
  · rw [boot_proc_ne hne] at hm
    cases hm

theorem inv_boot (initproc : Slot) : Inv initproc (boot initproc) := by
  have hroot : ((boot initproc).proc initproc).member = some ⟨.alive, none, 0, 0⟩ := by
    rw [boot_proc_self]
    rfl
  refine ⟨?_, ?_, ?_⟩
  · refine ⟨fun q hq => ?_, fun q hq => ?_, (by decide : (1 : Int) ≤ 2)⟩
    · rcases eq_or_ne q initproc with rfl | hne
      · rw [boot_proc_self]
        rfl
      · rw [boot_proc_ne hne]
        rfl
    · rcases eq_or_ne q initproc with rfl | hne
      · rw [boot_proc_self]
        exact le_rfl
      · rw [boot_proc_ne hne] at hq
        exact absurd rfl hq
  · exact ⟨fun p => place_idle rfl, fun p => iff_of_false Bool.false_ne_true (some_ne_none p).symm⟩
  · refine
      { root_alive := ⟨_, hroot, rfl, rfl⟩
        parent_alive := fun q m r hm hr => ?_
        has_parent := fun q m hm hne => absurd (boot_member initproc q m hm).1 hne
        creator := fun q m r mr hm hr => ?_
        gen_lt := fun q m hm => ?_
        gen_inj := fun q r m m' hm hm' _ => (boot_member initproc q m hm).1.trans (boot_member initproc r m' hm').1.symm
        exits_lt := fun e he => by cases he
        exits_nodup := List.nodup_nil
        exited_left := fun e he => by cases he
        left_exited := fun q m status hm hst => ?_
        reaps_nodup := List.nodup_nil
        reaped_gone := fun e he => by cases he
        reap_status := fun e he => by cases he
        reap_parent := fun e he => by cases he }
    · obtain ⟨-, rfl⟩ := boot_member initproc q m hm
      cases hr
    · obtain ⟨-, rfl⟩ := boot_member initproc q m hm
      cases hr
    · obtain ⟨-, rfl⟩ := boot_member initproc q m hm
      exact Nat.zero_lt_one
    · obtain ⟨-, rfl⟩ := boot_member initproc q m hm
      cases hst

/-! ## The theorem -/

/-- The process is in a `kwait`, with or without an address for the status. -/
def Pc.waits : Pc → Option Bool
  | .waitLock addr | .waitScan addr _ _ | .waitCheck addr _ | .waitSleep addr | .waitWoken addr => some addr
  | _ => none

/-- A step of a `kwait` in process `p`. It frees only zombies that are children of `p`. Where it returns -1, `p` has
no children, or `p` is killed, or `copyout` failed for a zombie that stays as it is. Where it returns something else,
that is the pid of a zombie child of `p`, the child is freed and nothing else changes in the table, and there is one new
record: the child with the status of its `kexit`, which is stored exactly when there is an address for it. In every
other step no child is returned and no process is freed, and the call goes on unless it returned. -/
structure WaitStep (s : State) (p : Slot) (addr copyok : Bool) (t : State) : Prop where
  frees : ∀ q, (s.proc q).state ≠ .unused → (t.proc q).state = .unused →
    (s.proc q).state = .zombie ∧ (s.proc q).parent = some p
  fails : t.pc p = .user (some (-1)) → (∀ q, (s.proc q).parent ≠ some p) ∨ (s.proc p).killed = true ∨
    ∃ q, (s.proc q).parent = some p ∧ (s.proc q).state = .zombie ∧ copyok = false ∧ t.proc q = s.proc q
  returns : ∀ r, t.pc p = .user (some r) → r ≠ -1 → ∃ q status, (s.proc q).parent = some p ∧
    (s.proc q).state = .zombie ∧ (s.proc q).pid = r ∧ ((s.proc q).gen, status) ∈ s.exits ∧
    t.proc = update s.proc q ((s.proc q).map Proc.free) ∧
    t.reaps = ⟨(s.proc q).gen, (s.proc q).creator, (s.proc p).gen, if addr then some status else none⟩ :: s.reaps
  keeps : (∀ r, t.pc p = .user (some r) → r = -1) →
    t.reaps = s.reaps ∧ ∀ q, (s.proc q).state ≠ .unused → (t.proc q).state ≠ .unused
  goesOn : (t.pc p).waits = some addr ∨ ∃ r, t.pc p = .user (some r)

variable {addr : Bool}

/-- A step of `kwait` that frees nothing and does not return. -/
theorem waitStep_goesOn (hstate : ∀ q, (t.proc q).state = .unused → (s.proc q).state = .unused)
    (hreaps : t.reaps = s.reaps) (hpc : t.pc p = x) (hx : x.waits = some addr) : WaitStep s p addr copyok t := by
  have hnot : ∀ r, t.pc p ≠ .user r := by
    intro r huser
    rw [← hpc, huser] at hx
    cases hx
  refine ⟨?_, fun huser => absurd huser (hnot _), fun r huser => absurd huser (hnot _), fun _ => ⟨hreaps, ?_⟩, .inl ?_⟩
  · exact fun q hused hun => absurd (hstate q hun) hused
  · exact fun q hused hun => hused (hstate q hun)
  · rw [hpc, hx]

/-- A step in which `kwait` returns -1. -/
theorem waitStep_fails (hproc : t.proc = s.proc) (hreaps : t.reaps = s.reaps) (hpc : t.pc p = .user (some (-1)))
    (hwhy : (∀ q, (s.proc q).parent ≠ some p) ∨ (s.proc p).killed = true ∨
      ∃ q, (s.proc q).parent = some p ∧ (s.proc q).state = .zombie ∧ copyok = false) :
    WaitStep s p addr copyok t := by
  refine ⟨fun q hused hun => ?_, fun _ => ?_, fun r hr hne => ?_, fun _ => ⟨hreaps, ?_⟩, .inr ⟨_, hpc⟩⟩
  · rw [hproc] at hun
    exact absurd hun hused
  · rw [hproc]
    exact hwhy.imp_right (.imp_right fun ⟨q, hchild, hzombie, hcopy⟩ => ⟨q, hchild, hzombie, hcopy, rfl⟩)
  · exact absurd (some.inj (Pc.user.inj (hr.symm.trans hpc))) hne
  · rw [hproc]
    exact fun q hused => hused

theorem Inv.waitVisit (h : Inv initproc s) (q : Slot) (addr : Bool) (i : Nat) (havekids copyok : Bool) :
    WaitStep s p addr copyok (waitVisit s p q addr i havekids copyok) := by
  unfold Children.waitVisit
  dsimp only
  split
  next hchild =>
    split
    next hzombie =>
      split
      next hfail =>
        refine waitStep_fails rfl rfl (setPc_self ..) (.inr (.inr ⟨q, hchild, hzombie, ?_⟩))
        cases copyok with
        | false => rfl
        | true => simp at hfail
      · have hpc : update s.pc p (.user (some (s.proc q).pid)) p = .user (some (s.proc q).pid) := update_self ..
        have hpid : (s.proc q).pid ≠ -1 := by
          intro heq
          have hpid := h.tidy.pid q (hzombie ▸ noConfusion)
          rw [heq] at hpid
          exact absurd hpid (by decide)
        refine ⟨fun r hused hun => ?_, fun huser => ?_, fun r hr _ => ?_, fun hr => absurd (hr _ hpc) hpid, .inr ⟨_, hpc⟩⟩
        · rcases eq_or_ne r q with rfl | hne
          · exact ⟨hzombie, hchild⟩
          · have hun : ((s.setProc q ((s.proc q).map Proc.free)).proc r).state = .unused := hun
            rw [setProc_ne s _ hne] at hun
            exact absurd hun hused
        · exact absurd (some.inj (Pc.user.inj (hpc.symm.trans huser))) hpid
        · obtain rfl := some.inj (Pc.user.inj (hpc.symm.trans hr))
          exact ⟨q, _, hchild, hzombie, rfl, h.valid.left_exited q _ _ (member_zombie hzombie) rfl, rfl, rfl⟩
    · exact waitStep_goesOn (fun r hun => hun) rfl (setPc_self ..) rfl
  · exact waitStep_goesOn (fun r hun => hun) rfl (setPc_self ..) rfl

theorem Inv.waitStep (h : Inv initproc s) (hrun : (s.proc p).state = .runnable)
    (hwait : (s.pc p).waits = some addr) (ht : Children.step initproc s p copyok (s.pc p) = some t) :
    WaitStep s p addr copyok t := by
  have hself : ∀ (y : Entry), y.state ≠ .unused → ∀ q, ((s.setProc p y).proc q).state = .unused →
      (s.proc q).state = .unused := by
    intro y hy q hun
    rcases eq_or_ne q p with rfl | hne
    · rw [setProc_self] at hun
      exact absurd hun hy
    · rwa [setProc_ne s y hne] at hun
  generalize hpc : s.pc p = w at ht hwait
  cases w with
  | waitLock addr =>
    cases hwait
    obtain ⟨-, rfl⟩ := ite_some_none_eq_some.mp ht
    exact waitStep_goesOn (fun q hun => hun) rfl (setPc_self ..) rfl
  | waitScan addr i havekids =>
    cases hwait
    cases ht
    split
    · exact h.waitVisit _ addr i havekids copyok
    · exact waitStep_goesOn (fun q hun => hun) rfl (setPc_self ..) rfl
  | waitCheck addr havekids =>
    cases hwait
    cases ht
    split
    next hend =>
      refine waitStep_fails rfl rfl (setPc_self ..) ?_
      rcases Bool.or_eq_true_iff.mp hend with hnone | hkilled
      · left
        intro q hq
        obtain ⟨m, hm, hpar⟩ := h.tidy.parent hq
        obtain rfl : havekids = false := by simpa using hnone
        exact h.knows hpc trivial hm hpar
      · exact .inr (.inl hkilled)
    · exact waitStep_goesOn (fun q hun => hun) rfl (setPc_self ..) rfl
  | waitSleep addr =>
    cases hwait
    cases ht
    exact waitStep_goesOn (hself _ noConfusion) rfl (setPc_self ..) rfl
  | waitWoken addr =>
    cases hwait
    cases ht
    refine waitStep_goesOn (hself _ ?_) rfl (setPc_self ..) rfl
    rw [hrun]
    exact noConfusion
  | _ => cases hwait

/-- In every run: whenever `wait_lock` is free, every process other than `initproc` whose creation is complete has a
parent in the table that is no zombie. A process that exits is returned by at most one `kwait`, which stores the
status of its `kexit` and is called by its creator or, if the creator has exited, by `initproc`. Every step of a
`kwait` is a `WaitStep`. -/
theorem exits_reaped_once (h : Reachable (fun s => s = boot initproc) (next initproc) noGuard s) :
    (s.waitLock = none → ∀ q, q ≠ initproc → (s.proc q).state ≠ .unused → (s.proc q).state ≠ .used →
      ∃ r, (s.proc q).parent = some r ∧ (s.proc r).state ≠ .unused ∧ (s.proc r).state ≠ .zombie) ∧
    (s.exits.map Prod.fst).Nodup ∧ (s.reaps.map Reap.child).Nodup ∧
    (∀ e ∈ s.reaps, ∃ status, (e.child, status) ∈ s.exits ∧ ∀ x, e.stored = some x → x = status) ∧
    (∀ e ∈ s.reaps, e.caller = e.creator ∨ e.caller = 0 ∧ e.creator ∈ s.exits.map Prod.fst) ∧
    ∀ p addr copyok t, (s.pc p).waits = some addr → next initproc s (.step p copyok) = some t →
      WaitStep s p addr copyok t := by
  have hinv : Inv initproc s := by
    refine h.invariant (Inv initproc) ?_ fun _ _ _ hs _ ht => hs.next ht
    rintro s rfl
    exact inv_boot initproc
  refine ⟨fun _ q hne hused hbuilt => ?_, hinv.valid.exits_nodup, hinv.valid.reaps_nodup,
    hinv.valid.reap_status, hinv.valid.reap_parent, fun p addr copyok t hwait ht => ?_⟩
  · obtain ⟨m, hm, hstage⟩ := member_complete hused hbuilt
    obtain ⟨r, hr⟩ := ne_none_iff_exists'.mp (hinv.valid.has_parent q m hm hne hstage)
    obtain ⟨mr, hmr, halive⟩ := hinv.valid.parent_alive q m r hm hr
    obtain ⟨hused', -⟩ := member_eq_some hmr
    refine ⟨r, (member_eq_some hm).2.1.symm.trans hr, hused', fun hzombie => ?_⟩
    obtain rfl := some.inj ((member_zombie hzombie).symm.trans hmr)
    cases halive
  · obtain ⟨hrun, ht⟩ := ite_none_right_eq_some.mp ht
    exact hinv.waitStep hrun hwait ht

/-- `initproc` forks a child, which exits with status 7; then `initproc` waits for it. -/
def forkExitWait : List Action :=
  [.call 0 (.kfork true)] ++ List.replicate 4 (.step 0 true) ++
    [.call 1 (.kexit 7)] ++ List.replicate 132 (.step 1 true) ++
    [.call 0 (.kwait true)] ++ List.replicate 3 (.step 0 true)

/-- The child, with number 1, has exited with status 7, and `initproc` has stored it. -/
theorem exits_reaped_once_child : ∃ s : State, s.exits = [(1, 7)] ∧ s.reaps.map Reap.stored = [some 7] ∧
    s.pc 0 = .user (some 2) ∧ (s.reaps.map Reap.child).Nodup := by
  have hrun : ((run (next 0) (boot 0) forkExitWait).map fun s =>
      (s.exits, s.reaps.map Reap.stored, s.pc 0)) = some ([(1, 7)], [some 7], .user (some 2)) := by
    decide +kernel
  obtain ⟨s, hs, heq⟩ := map_eq_some_iff.mp hrun
  obtain ⟨hexits, heq⟩ := Prod.mk.inj heq
  obtain ⟨hreaps, hpc⟩ := Prod.mk.inj heq
  have hreaped := exits_reaped_once (reachable_run (.start rfl) hs)
  exact ⟨s, hexits, hreaps, hpc, hreaped.2.2.1⟩

end Xv6Lab.Process.Children
