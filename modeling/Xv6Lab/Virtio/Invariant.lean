import Xv6Lab.Virtio.Descriptors

/-!
# Requests in flight

From the allocation of its descriptors to their release a call of `virtio_disk_rw` has a request in flight. Its chain
goes from the driver through the avail ring, the device and the used ring, and `Stage` says where it is; a head is at
one stage only. `Inv` ties the stages to the contents of the rings, to what the device is doing and to the calls, and
`Inv.step` is the rule by which every step is shown to keep it: the thread that moves is looked at, and for the others
it is enough that the step does not touch what their requests rest on.
-/

namespace Xv6Lab.Virtio

open Lib.RingBuffer

/-! ## Flights -/

inductive Phase
  | format
  | enqueue
  | publish
  | sent
  | finish
  deriving DecidableEq

/-- A request in flight. -/
structure Flight where
  call : Call
  idx : Idx
  phase : Phase

def Rw.flight (c : Call) : Rw → Option Flight
  | .enter => none
  | .alloc => none
  | .noDesc => none
  | .format i => some ⟨c, i, .format⟩
  | .enqueue i => some ⟨c, i, .enqueue⟩
  | .publish i => some ⟨c, i, .publish⟩
  | .test i => some ⟨c, i, .sent⟩
  | .wait i => some ⟨c, i, .sent⟩
  | .finish i => some ⟨c, i, .finish⟩

def Place.flight : Place → Option Flight
  | .rw c pc => pc.flight c
  | _ => none

def Rw.locked : Rw → Bool
  | .enter => false
  | .noDesc => false
  | .wait _ => false
  | _ => true

/-- The thread holds `vdisk_lock`. -/
def Place.locked : Place → Bool
  | .rw _ pc => pc.locked
  | .intrTest => true
  | .intrBody => true
  | _ => false

theorem rw_of_flight {x : Place} {f : Flight} (h : x.flight = some f) : ∃ pc, x = .rw f.call pc := by
  cases x with
  | rw c pc =>
    cases pc with
    | enter => cases h
    | alloc => cases h
    | noDesc => cases h
    | _ =>
      cases h
      exact ⟨_, rfl⟩
  | _ => cases h

/-! ## Stages -/

/-- Where a chain head is. -/
inductive Stage
  | absent
  | avail
  | fetched
  | executed (r : Req)
  | used

/-- A request that was sent: `b->disk` is set until the driver has seen the completion. -/
inductive Sent (d : Disk) (done : List Req) (f : Flight) : Stage → Prop
  | avail (hon : d.onDisk f.call.req.buf = true) (hdone : done = f.call.before) : Sent d done f .avail
  | fetched (hon : d.onDisk f.call.req.buf = true) (hdone : done = f.call.before) : Sent d done f .fetched
  | executed (hon : d.onDisk f.call.req.buf = true) (hdone : done = f.call.before)
      (hstatus : d.infoStatus f.idx.head = 0) : Sent d done f (.executed f.call.req)
  | used (hon : d.onDisk f.call.req.buf = true) (hdone : done = f.call.before ++ [f.call.req])
      (hstatus : d.infoStatus f.idx.head = 0) : Sent d done f .used
  | absent (hoff : d.onDisk f.call.req.buf = false) (hdone : done = f.call.before ++ [f.call.req]) :
      Sent d done f .absent

/-- What holds of a request in each phase. -/
def Progress (d : Disk) (done : List Req) (x : Stage) (f : Flight) : Prop :=
  match f.phase with
  | .format => x = .absent ∧ done = f.call.before
  | .enqueue => Formatted d f.call.req f.idx ∧ x = .absent ∧ d.onDisk f.call.req.buf = true ∧ done = f.call.before
  | .publish => Formatted d f.call.req f.idx ∧ x = .absent ∧ d.onDisk f.call.req.buf = true ∧ done = f.call.before
  | .sent => Formatted d f.call.req f.idx ∧ Sent d done f x
  | .finish => Formatted d f.call.req f.idx ∧ x = .absent ∧ done = f.call.before ++ [f.call.req]

/-- The descriptors are three, and allocated. -/
structure IdxOk (d : Disk) (i : Idx) : Prop where
  nodup : i.list.Nodup
  busy : ∀ j ∈ i.list, j < num ∧ d.free j = false

/-- What a thread between two steps of a critical section relies on. -/
def CellOk (d : Disk) : Place → Prop
  | .rw _ (.publish i) => d.avail.data (d.avail.nwrite.toNat % num) = i.head
  | .intrBody => 0 < d.used.used
  | _ => True

theorem cellOk_of_unlocked {d : Disk} {x : Place} (h : x.locked = false) : CellOk d x := by
  cases x with
  | rw c pc =>
    cases pc with
    | publish => cases h
    | _ => trivial
  | intrBody => cases h
  | _ => trivial

/-! ## The invariant -/

/-- The stage of a head that the device works on. -/
def Work.stage : Work → Stage
  | .fetched => .fetched
  | .executed r => .executed r

/-- The entries of a ring are the heads at the stage `x`. -/
structure Ring (st : Nat → Stage) (x : Stage) (l : List Nat) : Prop where
  nodup : l.Nodup
  mem : ∀ h, h ∈ l ↔ st h = x

/-- The stages of the heads are where the rings and the device have them. -/
structure Queues (st : Nat → Stage) (s : State) : Prop where
  avail : Ring st .avail s.disk.avail.contents
  used : Ring st .used s.disk.used.contents
  work : ∀ h w, s.work h = some w ↔ st h = w.stage

/-- What holds of thread `p` at the place `y`. -/
structure At (st : Nat → Stage) (s : State) (p : Nat) (y : Place) : Prop where
  lock : y.locked = true → s.lock = some p
  call : ∀ c pc, y = .rw c pc → s.owner c.req.buf = some p ∧ (pc.flight c = none → s.done c.req.buf = c.before)
  flight : ∀ f, y.flight = some f → IdxOk s.disk f.idx ∧ Progress s.disk (s.done f.call.req.buf) (st f.idx.head) f
  cell : CellOk s.disk y

structure Inv (st : Nat → Stage) (s : State) : Prop where
  panicked : s.panicked = none
  thread : ∀ p, At st s p (s.place p)
  disjoint : ∀ p q f g, p ≠ q → (s.place p).flight = some f → (s.place q).flight = some g →
    ∀ j ∈ f.idx.list, j ∉ g.idx.list
  sent : ∀ h, st h ≠ .absent → ∃ p f, (s.place p).flight = some f ∧ f.phase = .sent ∧ f.idx.head = h
  queues : Queues st s

section

variable {st : Nat → Stage} {s : State} (h : Inv st s) (p : Nat)
include h

theorem Inv.lock (hp : (s.place p).locked = true) : s.lock = some p := (h.thread p).lock hp

theorem Inv.owner (c : Call) (pc : Rw) (hp : s.place p = .rw c pc) : s.owner c.req.buf = some p :=
  ((h.thread p).call c pc hp).1

theorem Inv.early (c : Call) (pc : Rw) (hp : s.place p = .rw c pc) : pc.flight c = none → s.done c.req.buf = c.before :=
  ((h.thread p).call c pc hp).2

theorem Inv.idx (f : Flight) (hf : (s.place p).flight = some f) : IdxOk s.disk f.idx := ((h.thread p).flight f hf).1

theorem Inv.progress (f : Flight) (hf : (s.place p).flight = some f) :
    Progress s.disk (s.done f.call.req.buf) (st f.idx.head) f := ((h.thread p).flight f hf).2

end

/-! ## What a request rests on -/

/-- A step leaves alone what the request rests on. -/
structure Keeps (f : Flight) (d d' : Disk) : Prop where
  desc : ∀ j ∈ f.idx.list, d'.desc j = d.desc j
  free : ∀ j ∈ f.idx.list, d'.free j = d.free j
  ops : d'.ops f.idx.head = d.ops f.idx.head
  infoB : d'.infoB f.idx.head = d.infoB f.idx.head
  infoStatus : d'.infoStatus f.idx.head = d.infoStatus f.idx.head
  onDisk : d'.onDisk f.call.req.buf = d.onDisk f.call.req.buf

theorem Keeps.refl (f : Flight) (d : Disk) : Keeps f d d := ⟨fun _ _ => rfl, fun _ _ => rfl, rfl, rfl, rfl, rfl⟩

variable {d d' : Disk} {f : Flight} {done : List Req} {x : Stage}

theorem head_mem (i : Idx) : i.head ∈ i.list := List.mem_cons_self

theorem data_mem (i : Idx) : i.data ∈ i.list := List.mem_cons_of_mem _ List.mem_cons_self

theorem status_mem (i : Idx) : i.status ∈ i.list :=
  List.mem_cons_of_mem _ (List.mem_cons_of_mem _ List.mem_cons_self)

theorem IdxOk.keep (h : IdxOk d f.idx) (hkeep : Keeps f d d') : IdxOk d' f.idx := by
  refine ⟨h.nodup, fun j hj => ?_⟩
  rw [hkeep.free j hj]
  exact h.busy j hj

theorem Formatted.keep (h : Formatted d f.call.req f.idx) (hkeep : Keeps f d d') :
    Formatted d' f.call.req f.idx where
  head := (hkeep.desc _ (head_mem _)).trans h.head
  data := (hkeep.desc _ (data_mem _)).trans h.data
  status := (hkeep.desc _ (status_mem _)).trans h.status
  op := hkeep.ops.trans h.op
  buf := hkeep.infoB.trans h.buf

theorem Sent.keep (h : Sent d done f x) (hkeep : Keeps f d d') : Sent d' done f x := by
  cases h with
  | avail hon hdone => exact .avail (hkeep.onDisk.trans hon) hdone
  | fetched hon hdone => exact .fetched (hkeep.onDisk.trans hon) hdone
  | executed hon hdone hstatus =>
    exact .executed (hkeep.onDisk.trans hon) hdone (hkeep.infoStatus.trans hstatus)
  | used hon hdone hstatus => exact .used (hkeep.onDisk.trans hon) hdone (hkeep.infoStatus.trans hstatus)
  | absent hoff hdone => exact .absent (hkeep.onDisk.trans hoff) hdone

theorem Progress.keep (h : Progress d done x f) (hkeep : Keeps f d d') : Progress d' done x f := by
  obtain ⟨c, i, phase⟩ := f
  cases phase with
  | format => exact h
  | enqueue | publish => exact ⟨h.1.keep hkeep, h.2.1, hkeep.onDisk.trans h.2.2.1, h.2.2.2⟩
  | sent => exact ⟨h.1.keep hkeep, h.2.keep hkeep⟩
  | finish => exact ⟨h.1.keep hkeep, h.2⟩

/-! ## Steps of one thread -/

/-- What a step of `p` must leave to the other threads. -/
structure Others (p : Nat) (st st' : Nat → Stage) (s t : State) : Prop where
  place : ∀ q, q ≠ p → t.place q = s.place q
  lock : ∀ q, q ≠ p → (s.place q).locked = true → t.lock = some q
  call : ∀ q c pc, q ≠ p → s.place q = .rw c pc → t.owner c.req.buf = some q ∧ t.done c.req.buf = s.done c.req.buf
  flight : ∀ q f, q ≠ p → (s.place q).flight = some f → Keeps f s.disk t.disk ∧ st' f.idx.head = st f.idx.head
  cell : ∀ q, q ≠ p → CellOk s.disk (s.place q) → CellOk t.disk (s.place q)

variable {st st' : Nat → Stage} {s t : State} {p : Nat}

theorem Inv.step (h : Inv st s) (ho : Others p st st' s t) (hp : At st' t p (t.place p))
    (hdisjoint : ∀ f q g, (t.place p).flight = some f → q ≠ p → (s.place q).flight = some g →
      ∀ j ∈ f.idx.list, j ∉ g.idx.list) (hq : Queues st' t)
    (hsent : ∀ h, st' h ≠ .absent → (∃ f, (t.place p).flight = some f ∧ f.phase = .sent ∧ f.idx.head = h) ∨
      (st h ≠ .absent ∧ ∀ f, (s.place p).flight = some f → f.idx.head ≠ h))
    (hpanic : t.panicked = none) : Inv st' t where
  panicked := hpanic
  thread q := by
    rcases eq_or_ne q p with rfl | hqp
    · exact hp
    rw [ho.place q hqp]
    refine ⟨ho.lock q hqp, fun c pc hplace => ?_, fun f hf => ?_, ho.cell q hqp (h.thread q).cell⟩
    · obtain ⟨howner, hdone⟩ := ho.call q c pc hqp hplace
      exact ⟨howner, fun hnone => hdone.trans (h.early q c pc hplace hnone)⟩
    · obtain ⟨hkeep, hstage⟩ := ho.flight q f hqp hf
      obtain ⟨pc, hplace⟩ := rw_of_flight hf
      rw [(ho.call q _ pc hqp hplace).2, hstage]
      exact ⟨(h.idx q f hf).keep hkeep, (h.progress q f hf).keep hkeep⟩
  disjoint q r f g hne hf hg := by
    rcases eq_or_ne q p with rfl | hqp
    · rw [ho.place r hne.symm] at hg
      exact hdisjoint f r g hf hne.symm hg
    rw [ho.place q hqp] at hf
    rcases eq_or_ne r p with rfl | hrp
    · exact fun j hj hj' => hdisjoint g q f hg hqp hf j hj' hj
    · rw [ho.place r hrp] at hg
      exact h.disjoint q r f g hne hf hg
  sent k hk := by
    rcases hsent k hk with ⟨f, hf, hphase, hhead⟩ | ⟨hst, hne⟩
    · exact ⟨p, f, hf, hphase, hhead⟩
    obtain ⟨q, f, hf, hphase, hhead⟩ := h.sent k hst
    have hqp : q ≠ p := by
      rintro rfl
      exact hne f hf hhead
    exact ⟨q, f, by rw [ho.place q hqp]; exact hf, hphase, hhead⟩
  queues := hq

/-! ## Facts about other threads -/

/-- While `p` holds the lock no other thread does. -/
theorem Inv.unlocked (h : Inv st s) (hp : s.lock = some p ∨ s.lock = none) {q : Nat} (hqp : q ≠ p) :
    (s.place q).locked = false := by
  by_contra hlocked
  have hq := h.lock q (Bool.eq_true_of_not_eq_false hlocked)
  rcases hp with hp | hp
  · rw [hp] at hq
    exact hqp (Option.some.inj hq).symm
  · rw [hp] at hq
    cases hq

/-- The heads of two requests are different. -/
theorem Inv.head_ne (h : Inv st s) {q : Nat} {f g : Flight} (hqp : q ≠ p) (hf : (s.place p).flight = some f)
    (hg : (s.place q).flight = some g) : ∀ j ∈ f.idx.list, ∀ k ∈ g.idx.list, k ≠ j := by
  rintro j hj k hk rfl
  exact h.disjoint q p g f hqp hg hf k hk hj

/-- Two calls are for different buffers. -/
theorem Inv.buf_ne (h : Inv st s) {q : Nat} {b : Nat} {c : Call} {pc : Rw} (hqp : q ≠ p)
    (hb : s.owner b = some p) (hq : s.place q = .rw c pc) : c.req.buf ≠ b := by
  rintro rfl
  have := h.owner q c pc hq
  rw [hb] at this
  exact hqp (Option.some.inj this).symm

/-- The thread a head belongs to. -/
theorem Inv.sent_flight (h : Inv st s) {k : Nat} (hk : st k ≠ .absent) :
    ∃ p c i, (s.place p = .rw c (.test i) ∨ s.place p = .rw c (.wait i)) ∧ i.head = k ∧
      Formatted s.disk c.req i ∧ Sent s.disk (s.done c.req.buf) ⟨c, i, .sent⟩ (st k) := by
  obtain ⟨p, f, hf, hphase, rfl⟩ := h.sent k hk
  have hprogress := h.progress p f hf
  obtain ⟨c, i, phase⟩ := f
  cases hphase
  cases hplace : s.place p with
  | rw c' pc =>
    rw [hplace] at hf
    cases pc with
    | test j =>
      cases hf
      exact ⟨p, c, i, .inl hplace, rfl, hprogress⟩
    | wait j =>
      cases hf
      exact ⟨p, c, i, .inr hplace, rfl, hprogress⟩
    | _ => cases hf
  | _ =>
    rw [hplace] at hf
    cases hf

theorem flight_of_sent {c : Call} {i : Idx} (h : s.place p = .rw c (.test i) ∨ s.place p = .rw c (.wait i)) :
    (s.place p).flight = some ⟨c, i, .sent⟩ := by
  rcases h with h | h
  · rw [h]
    rfl
  · rw [h]
    rfl

end Xv6Lab.Virtio
