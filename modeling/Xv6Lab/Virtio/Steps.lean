import Mathlib.Data.List.Perm.Subperm
import Xv6Lab.Virtio.Invariant

/-!
# Every step keeps the invariant

The steps of the driver and of the device, one lemma for each. The rings never fill up: their entries are heads of
different requests in flight, and while one more head is added it is not yet among them (`Inv.avail_used_lt`,
`Inv.used_used_lt`).
-/

namespace Xv6Lab.Virtio

open Function Lib.RingBuffer Stage List RingBuf

variable {st : Nat → Stage} {s t : State} {p k : Nat} {c : Call} {i : Idx} {x : Stage} {l : Option Nat} {q : Nat}
  {pc : Rw}

theorem num_dvd : num ∣ 2 ^ 16 := ⟨2 ^ 13, by decide⟩

theorem Queues.congr (h : Queues st s) (havail : t.disk.avail.contents = s.disk.avail.contents)
    (hused : t.disk.used.contents = s.disk.used.contents) (hwork : t.work = s.work) : Queues st t := by
  constructor
  · rw [havail]
    exact h.avail
  · rw [hused]
    exact h.used
  · rw [hwork]
    exact h.work

section Rings

variable {l l' : List Nat} {y : Stage} (h : Ring st y l)
include h

/-- The head `k` moves to the stage `x`; all the others stay where they are. -/
theorem Ring.move (hnodup : l'.Nodup) (hothers : ∀ j ≠ k, (j ∈ l' ↔ j ∈ l)) (hself : k ∈ l' ↔ x = y) :
    Ring (update st k x) y l' := by
  refine ⟨hnodup, fun j => ?_⟩
  rcases eq_or_ne j k with rfl | hj
  · rw [update_self]
    exact hself
  · rw [update_of_ne hj, hothers j hj]
    exact h.mem j

theorem Ring.outside (hk : st k ≠ y) (hx : x ≠ y) : Ring (update st k x) y l :=
  h.move h.nodup (fun _ _ => Iff.rfl) (iff_of_false (fun hmem => hk ((h.mem k).mp hmem)) hx)

theorem Ring.comes (hk : st k ≠ y) (hl : l' = l ++ [k]) : Ring (update st k y) y l' := by
  rw [hl]
  refine h.move ?_ (fun j hj => ?_) (iff_of_true (mem_append_right _ mem_cons_self) rfl)
  · rw [← concat_eq_append]
    exact h.nodup.concat fun hmem => hk ((h.mem k).mp hmem)
  · rw [mem_append, mem_singleton]
    exact or_iff_left hj

theorem Ring.leaves (hl : l = k :: l') (hx : x ≠ y) : Ring (update st k x) y l' := by
  have hnodup := h.nodup
  rw [hl, nodup_cons] at hnodup
  refine h.move hnodup.2 (fun j hj => ?_) (iff_of_false hnodup.1 hx)
  rw [hl, mem_cons]
  exact (or_iff_right hj).symm

end Rings

/-- The work on the head `k` is that of the stage `x`. -/
theorem Queues.move (h : Queues st s) (ha : Ring (update st k x) .avail t.disk.avail.contents)
    (hu : Ring (update st k x) .used t.disk.used.contents) (hw : ∀ j ≠ k, t.work j = s.work j)
    (hwk : ∀ w : Work, t.work k = some w ↔ x = w.stage) : Queues (update st k x) t := by
  refine ⟨ha, hu, fun j w => ?_⟩
  rcases eq_or_ne j k with rfl | hj
  · rw [update_self]
    exact hwk w
  · rw [update_of_ne hj, hw j hj]
    exact h.work j w

/-- The device has a head at this stage. -/
def Stage.atDevice : Stage → Bool
  | .fetched | .executed _ => true
  | _ => false

/-- A head the device does not have. -/
theorem Queues.work_eq_none (h : Queues st s) (hst : st k = x) (hx : x.atDevice = false) : s.work k = none := by
  cases hwork : s.work k with
  | none => rfl
  | some w =>
    rw [← hst, (h.work k w).mp hwork] at hx
    cases w with
    | fetched | executed => cases hx

/-- A stage at which the device does not have the head. -/
theorem work_iff_of_none {w' : Option Work} (hw : w' = none) (hx : x.atDevice = false) (w : Work) :
    w' = some w ↔ x = w.stage := by
  rw [hw]
  refine iff_of_false nofun ?_
  rintro rfl
  cases w with
  | fetched => cases hx
  | executed r => cases hx

/-! ## Room in the rings -/

/-- A head at some stage is a descriptor. -/
theorem Inv.stage_lt (h : Inv st s) (hk : st k ≠ .absent) : k < num ∧ s.disk.free k = false := by
  obtain ⟨q, f, hf, -, rfl⟩ := h.sent k hk
  exact (h.idx q f hf).busy _ (head_mem _)

/-- Different descriptors, one of them left out, are fewer than `NUM`. -/
theorem length_lt_num {l : List Nat} (hnodup : l.Nodup) (hlt : ∀ k ∈ l, k < num) (hk : k < num)
    (hnot : k ∉ l) : l.length < num := by
  have hcons : (k :: l).Nodup := nodup_cons.mpr ⟨hnot, hnodup⟩
  have hsub : k :: l ⊆ range num := by
    intro j hj
    rcases mem_cons.mp hj with rfl | hj
    · exact mem_range.mpr hk
    · exact mem_range.mpr (hlt j hj)
  have hle := (subperm_of_subset hcons hsub).length_le
  rw [length_range, length_cons] at hle
  exact hle

/-- A ring whose entries are at one stage has room for a head that is at another. -/
theorem Inv.length_lt (h : Inv st s) {l : List Nat} (hl : Ring st x l) (hx : x ≠ .absent) (hk : k < num)
    (hst : st k ≠ x) : l.length < num := by
  apply length_lt_num hl.nodup _ hk (fun hmem => hst ((hl.mem k).mp hmem))
  intro j hj
  refine (h.stage_lt ?_).1
  rw [(hl.mem j).mp hj]
  exact hx

theorem Inv.avail_used_lt (h : Inv st s) (hk : k < num) (hst : st k ≠ .avail) : s.disk.avail.used < num := by
  rw [← length_contents]
  exact h.length_lt h.queues.avail Stage.noConfusion hk hst

theorem Inv.used_used_lt (h : Inv st s) (hk : k < num) (hst : st k ≠ .used) : s.disk.used.used < num := by
  rw [← length_contents]
  exact h.length_lt h.queues.used Stage.noConfusion hk hst

/-! ## Steps that only move a thread -/

section

variable (h : Inv st s)
include h

/-- A step of `p`. The others have to be left their requests, and the lock and what they rely on if they hold it. -/
theorem Inv.stepTo {st' : Nat → Stage} {d' : Disk} {y : Place}
    (hlock : ∀ q ≠ p, (s.place q).locked = true → l = some q ∧ (CellOk s.disk (s.place q) → CellOk d' (s.place q)))
    (hother : ∀ q f, q ≠ p → (s.place q).flight = some f → Keeps f s.disk d' ∧ st' f.idx.head = st f.idx.head)
    (hy : At st' { ({ s with disk := d' } : State).goTo p y with lock := l } p y)
    (hdisjoint : ∀ g q g', y.flight = some g → q ≠ p → (s.place q).flight = some g' →
      ∀ j ∈ g.idx.list, j ∉ g'.idx.list)
    (hq : Queues st' { ({ s with disk := d' } : State).goTo p y with lock := l })
    (hsent : ∀ h, st' h ≠ .absent → (∃ f, y.flight = some f ∧ f.phase = .sent ∧ f.idx.head = h) ∨
      (st h ≠ .absent ∧ ∀ f, (s.place p).flight = some f → f.idx.head ≠ h)) :
    Inv st' { ({ s with disk := d' } : State).goTo p y with lock := l } := by
  have hself : (({ s with disk := d' } : State).goTo p y).place p = y := update_self ..
  apply h.step (p := p)
  · refine ⟨fun q hq => update_of_ne hq .., fun q hqp hq => (hlock q hqp hq).1,
      fun q c pc _ hq => ⟨h.owner q c pc hq, rfl⟩, hother, fun q hqp hcell => ?_⟩
    by_cases hq : (s.place q).locked = true
    · exact (hlock q hqp hq).2 hcell
    · exact cellOk_of_unlocked (Bool.eq_false_iff.mpr hq)
  · rw [hself]
    exact hy
  · rw [hself]
    exact hdisjoint
  · exact hq
  · rw [hself]
    exact hsent
  · exact h.panicked

/-- While `p` holds the lock no other thread does. -/
theorem Inv.alone {P : Prop} (hp : (s.place p).locked = true) (hqp : q ≠ p) (hq : (s.place q).locked = true) : P := by
  rw [h.unlocked (.inl (h.lock p hp)) hqp] at hq
  cases hq

theorem Inv.goTo {y : Place}
    (hlock : ∀ q ≠ p, (s.place q).locked = true → l = some q) (hmine : y.locked = true → l = some p)
    (hrw : ∀ c pc, y = .rw c pc → s.owner c.req.buf = some p ∧ (pc.flight c = none → s.done c.req.buf = c.before))
    (hflight : ∀ g, y.flight = some g → (∃ f, (s.place p).flight = some f ∧ g.idx = f.idx) ∧
      Progress s.disk (s.done g.call.req.buf) (st g.idx.head) g)
    (hsent : ∀ f, (s.place p).flight = some f → st f.idx.head ≠ .absent →
      ∃ g, y.flight = some g ∧ g.phase = .sent ∧ g.idx = f.idx)
    (hcell : CellOk s.disk y) : Inv st { s.goTo p y with lock := l } := by
  apply h.stepTo (fun q hqp hq => ⟨hlock q hqp hq, id⟩)
  · exact fun q f _ _ => ⟨.refl f _, rfl⟩
  · refine ⟨hmine, hrw, fun g hg => ?_, hcell⟩
    obtain ⟨⟨f, hf, heq⟩, hprogress⟩ := hflight g hg
    refine ⟨?_, hprogress⟩
    rw [heq]
    exact h.idx p f hf
  · intro g q g' hg hqp hg'
    obtain ⟨⟨f, hf, heq⟩, -⟩ := hflight g hg
    rw [heq]
    exact h.disjoint p q f g' hqp.symm hf hg'
  · exact h.queues.congr rfl rfl rfl
  · intro k hk
    by_cases hp : ∃ f, (s.place p).flight = some f ∧ f.idx.head = k
    · obtain ⟨f, hf, rfl⟩ := hp
      obtain ⟨g, hg, hphase, hidx⟩ := hsent f hf hk
      exact .inl ⟨g, hg, hphase, by rw [hidx]⟩
    · exact .inr ⟨hk, fun f hf heq => hp ⟨f, hf, heq⟩⟩

/-- No other thread holds a lock that is free. -/
theorem Inv.lock_of_free (hfree : s.lock = none) (hq : (s.place q).locked = true) : l = some q := by
  have := h.lock q hq
  rw [hfree] at this
  cases this

/-- A thread outside the driver, or about to enter it, has no request. -/
theorem Inv.goTo_noFlight {y : Place} (hx : (s.place p).flight = none) (hy : y.flight = none)
    (hlock : ∀ q ≠ p, (s.place q).locked = true → l = some q) (hmine : y.locked = true → l = some p)
    (hrw : ∀ c pc, y = .rw c pc → s.owner c.req.buf = some p ∧ s.done c.req.buf = c.before)
    (hcell : CellOk s.disk y) : Inv st { s.goTo p y with lock := l } := by
  apply h.goTo hlock hmine
  · exact fun c pc hy' => ⟨(hrw c pc hy').1, fun _ => (hrw c pc hy').2⟩
  · intro g hg
    rw [hy] at hg
    cases hg
  · intro f hf
    rw [hx] at hf
    cases hf
  · exact hcell

theorem Inv.enter_alloc (hplace : s.place p = .rw c pc) (hpc : pc.flight c = none)
    (hlock : s.lock = none) : Inv st { s.goTo p (.rw c .alloc) with lock := some p } := by
  apply h.goTo_noFlight
  · rw [hplace]
    exact hpc
  · rfl
  · exact fun q _ hq => h.lock_of_free hlock hq
  · exact fun _ => rfl
  · intro c' pc' heq
    cases heq
    exact ⟨h.owner p c pc hplace, h.early p c pc hplace hpc⟩
  · trivial

/-- A thread that waits for its request, inside the lock or outside. -/
theorem Inv.goTo_sent {pc' : Rw} (hplace : s.place p = .rw c pc)
    (hpc : pc.flight c = some ⟨c, i, .sent⟩) (hpc' : pc'.flight c = some ⟨c, i, .sent⟩)
    (hlock : ∀ q ≠ p, (s.place q).locked = true → l = some q) (hmine : pc'.locked = true → l = some p)
    (hcell : CellOk s.disk (.rw c pc')) : Inv st { s.goTo p (.rw c pc') with lock := l } := by
  have hflight : (s.place p).flight = some ⟨c, i, .sent⟩ := by rw [hplace]; exact hpc
  apply h.goTo (y := .rw c pc') hlock hmine
  · intro c₁ pc₁ heq
    cases heq
    refine ⟨h.owner p c _ hplace, fun hnone => ?_⟩
    cases hpc'.symm.trans hnone
  · intro g hg
    cases hpc'.symm.trans hg
    exact ⟨⟨_, hflight, rfl⟩, h.progress p _ hflight⟩
  · intro f hf _
    cases hflight.symm.trans hf
    exact ⟨_, hpc', rfl, rfl⟩
  · exact hcell

theorem Inv.wait_test (hplace : s.place p = .rw c (.wait i)) (hlock : s.lock = none) :
    Inv st { s.goTo p (.rw c (.test i)) with lock := some p } :=
  h.goTo_sent hplace rfl rfl (fun _ _ hq => h.lock_of_free hlock hq) (fun _ => rfl) trivial

theorem Inv.test_wait (hplace : s.place p = .rw c (.test i)) : Inv st (s.release p (.rw c (.wait i))) :=
  h.goTo_sent hplace rfl rfl (fun _ => h.alone (hplace ▸ rfl)) nofun trivial

/-- When `b->disk` is clear the request has been completed. -/
theorem Inv.test_finish (hplace : s.place p = .rw c (.test i))
    (hoff : s.disk.onDisk c.req.buf = false) : Inv st (s.goTo p (.rw c (.finish i))) := by
  have hflight : (s.place p).flight = some ⟨c, i, .sent⟩ := hplace ▸ rfl
  obtain ⟨hformatted, hsent⟩ := h.progress p _ hflight
  obtain ⟨hstage, hdone⟩ : st i.head = .absent ∧ s.done c.req.buf = c.before ++ [c.req] := by
    generalize st i.head = x at hsent ⊢
    cases hsent with
    | absent _ hdone => exact ⟨rfl, hdone⟩
    | avail hon | fetched hon | executed hon | used hon => rw [hoff] at hon; cases hon
  apply h.goTo (l := s.lock)
  · exact fun q _ hq => h.lock q hq
  · exact fun _ => h.lock p (hplace ▸ rfl)
  · intro c' pc' heq
    cases heq
    exact ⟨h.owner p c _ hplace, nofun⟩
  · rintro g ⟨⟩
    exact ⟨⟨_, hflight, rfl⟩, hformatted, hstage, hdone⟩
  · intro f hf hst
    rw [hflight] at hf
    cases hf
    exact absurd hstage hst
  · trivial

end

/-! ## Steps that move a request -/

section Requests

variable {d' : Disk} {y : Place} {l : Option Nat}

section

variable {st' : Nat → Stage} (h : Inv st s) (hlocked : (s.place p).locked = true)
include h hlocked

/-- A step of a thread that has a request and keeps the lock and the descriptors. -/
theorem Inv.stepFlight {x x' : Phase} (hx : (s.place p).flight = some ⟨c, i, x⟩)
    (hy : pc.flight c = some ⟨c, i, x'⟩) (hfree : ∀ j ∈ i.list, d'.free j = s.disk.free j)
    (hother : ∀ q f, q ≠ p → (s.place q).flight = some f → Keeps f s.disk d' ∧ st' f.idx.head = st f.idx.head)
    (hprogress : Progress d' (s.done c.req.buf) (st' i.head) ⟨c, i, x'⟩) (hcell : CellOk d' (.rw c pc))
    (hq : Queues st' (({ s with disk := d' } : State).goTo p (.rw c pc)))
    (hstage : ∀ k ≠ i.head, st' k = st k) (hsent : st' i.head ≠ .absent → x' = .sent) :
    Inv st' (({ s with disk := d' } : State).goTo p (.rw c pc)) := by
  obtain ⟨pc₀, hplace⟩ := rw_of_flight hx
  have hidx := h.idx p _ hx
  apply h.stepTo (l := s.lock) (fun _ => h.alone hlocked)
  · exact hother
  · refine ⟨fun _ => h.lock p hlocked, fun c' pc' heq => ?_, fun g hg => ?_, hcell⟩
    · cases heq
      refine ⟨h.owner p c _ hplace, fun hnone => ?_⟩
      rw [hy] at hnone
      cases hnone
    · obtain rfl := Option.some.inj (hy.symm.trans hg)
      exact ⟨⟨hidx.nodup, fun j hj => ⟨(hidx.busy j hj).1, (hfree j hj).trans (hidx.busy j hj).2⟩⟩, hprogress⟩
  · intro g q g' hg hqp
    obtain rfl := Option.some.inj (hy.symm.trans hg)
    exact h.disjoint p q ⟨c, i, x⟩ g' hqp.symm hx
  · exact hq
  · intro k hk
    rcases eq_or_ne k i.head with rfl | heq
    · exact .inl ⟨_, hy, hsent hk, rfl⟩
    right
    rw [hstage k heq] at hk
    refine ⟨hk, fun f hf hhead => ?_⟩
    obtain rfl := Option.some.inj (hx.symm.trans hf)
    exact heq hhead.symm

end

end Requests

theorem Inv.alloc (h : Inv st s) (hplace : s.place p = .rw c .alloc) (hnodup : i.list.Nodup)
    (hfree : ∀ j ∈ i.list, j < num ∧ s.disk.free j = true) :
    Inv st (({ s with disk := taken i.list s.disk } : State).goTo p (.rw c (.format i))) := by
  have hlocked : (s.place p).locked = true := hplace ▸ rfl
  have hnone : (s.place p).flight = none := hplace ▸ rfl
  -- the descriptors of the others are not free
  have hdisjoint : ∀ q g, (s.place q).flight = some g → ∀ j ∈ i.list, j ∉ g.idx.list := by
    intro q g hg j hj hj'
    have := ((h.idx q g hg).busy j hj').2
    rw [(hfree j hj).2] at this
    cases this
  apply h.stepTo (l := s.lock) (fun _ => h.alone hlocked)
  · intro q f _ hf
    refine ⟨⟨fun _ _ => rfl, fun j hj => ?_, rfl, rfl, rfl, rfl⟩, rfl⟩
    exact if_neg fun hj' => hdisjoint q f hf j hj' hj
  · refine ⟨fun _ => h.lock p hlocked, fun c' pc' heq => ?_, fun g hg => ?_, trivial⟩
    · cases heq
      exact ⟨h.owner p c _ hplace, nofun⟩
    · cases hg
      refine ⟨⟨hnodup, fun j hj => ⟨(hfree j hj).1, if_pos hj⟩⟩, ?_, h.early p c _ hplace rfl⟩
      -- a head that is on its way is not free
      by_contra hst
      have := (h.stage_lt hst).2
      rw [(hfree _ (head_mem i)).2] at this
      cases this
  · rintro g q g' ⟨⟩ -
    exact hdisjoint q g'
  · exact h.queues.congr rfl rfl rfl
  · intro k hk
    right
    refine ⟨hk, fun f hf => ?_⟩
    rw [hnone] at hf
    cases hf

theorem Inv.alloc_fails (h : Inv st s) (hplace : s.place p = .rw c .alloc) {js : List Nat}
    (hjs : ∀ j ∈ js, s.disk.free j = true) :
    Inv st (({ s with disk := { s.disk with desc := fun i => if i ∈ js then noDesc else s.disk.desc i } } :
      State).release p (.rw c .noDesc)) := by
  have hlocked : (s.place p).locked = true := hplace ▸ rfl
  have hnone : (s.place p).flight = none := hplace ▸ rfl
  apply h.stepTo (l := none) (fun _ => h.alone hlocked)
  · intro q f _ hf
    refine ⟨⟨fun j hj => if_neg fun hj' => ?_, fun _ _ => rfl, rfl, rfl, rfl, rfl⟩, rfl⟩
    have := ((h.idx q f hf).busy j hj).2
    rw [hjs j hj'] at this
    cases this
  · refine ⟨Bool.noConfusion, fun c' pc' heq => ?_, fun g hg => (by cases hg), trivial⟩
    cases heq
    exact ⟨h.owner p c _ hplace, fun _ => h.early p c _ hplace rfl⟩
  · rintro g q g' ⟨⟩
  · exact h.queues.congr rfl rfl rfl
  · intro k hk
    right
    refine ⟨hk, fun f hf => ?_⟩
    rw [hnone] at hf
    cases hf

/-- Formatting one chain leaves the others. -/
theorem keeps_format {f : Flight} (d : Disk) {r : Req} (hidx : ∀ j ∈ i.list, ∀ k ∈ f.idx.list, k ≠ j)
    (hbuf : f.call.req.buf ≠ r.buf) : Keeps f d (format d r i) := by
  have hhead := hidx i.head (head_mem i)
  have hdata := hidx i.data (data_mem i)
  have hstatus := hidx i.status (status_mem i)
  constructor
  · intro j hj
    simp [format, hhead j hj, hdata j hj, hstatus j hj]
  · exact fun _ _ => rfl
  · simp [format, hhead _ (head_mem _)]
  · simp [format, hhead _ (head_mem _)]
  · simp [format, hhead _ (head_mem _)]
  · simp [format, hbuf]

theorem Inv.format (h : Inv st s) (hplace : s.place p = .rw c (.format i)) :
    Inv st (({ s with disk := format s.disk c.req i } : State).goTo p (.rw c (.enqueue i))) := by
  have hflight : (s.place p).flight = some ⟨c, i, .format⟩ := hplace ▸ rfl
  obtain ⟨hstage, hdone⟩ := h.progress p _ hflight
  apply h.stepFlight (hplace ▸ rfl) hflight rfl
  · exact fun _ _ => rfl
  · intro q f hqp hf
    obtain ⟨pc, hq⟩ := rw_of_flight hf
    exact ⟨keeps_format s.disk (h.head_ne hqp hflight hf) (h.buf_ne hqp (h.owner p c _ hplace) hq), rfl⟩
  · exact ⟨formatted_format s.disk c.req (h.idx p _ hflight).nodup, hstage, update_self .., hdone⟩
  · trivial
  · exact h.queues.congr rfl rfl rfl
  · exact fun _ _ => rfl
  · exact absurd hstage

theorem Inv.enqueue_used_lt (h : Inv st s) (hplace : s.place p = .rw c (.enqueue i)) : s.disk.avail.used < num := by
  have hflight : (s.place p).flight = some ⟨c, i, .enqueue⟩ := hplace ▸ rfl
  obtain ⟨-, hstage, -⟩ := h.progress p _ hflight
  apply h.avail_used_lt ((h.idx p _ hflight).busy _ (head_mem i)).1
  rw [hstage]
  exact Stage.noConfusion

theorem Inv.enqueue (h : Inv st s) (hplace : s.place p = .rw c (.enqueue i)) :
    Inv st (({ s with disk := { s.disk with avail := s.disk.avail.store i.head } } : State).goTo p
      (.rw c (.publish i))) := by
  have hflight : (s.place p).flight = some ⟨c, i, .enqueue⟩ := hplace ▸ rfl
  have hkeep : ∀ f, Keeps f s.disk { s.disk with avail := s.disk.avail.store i.head } :=
    fun f => ⟨fun _ _ => rfl, fun _ _ => rfl, rfl, rfl, rfl, rfl⟩
  have hprogress := (h.progress p _ hflight).keep (hkeep _)
  apply h.stepFlight (hplace ▸ rfl) hflight rfl
  · exact fun _ _ => rfl
  · exact fun q f _ _ => ⟨hkeep f, rfl⟩
  · exact hprogress
  · exact update_self ..
  · exact h.queues.congr (contents_store num_dvd (h.enqueue_used_lt hplace) _) rfl rfl
  · exact fun _ _ => rfl
  · exact absurd hprogress.2.1

theorem Inv.publish_contents (h : Inv st s) (hplace : s.place p = .rw c (.publish i)) :
    s.disk.avail.advance.contents = s.disk.avail.contents ++ [i.head] := by
  have hflight : (s.place p).flight = some ⟨c, i, .publish⟩ := hplace ▸ rfl
  obtain ⟨-, hstage, -⟩ := h.progress p _ hflight
  have hroom : s.disk.avail.used < num := by
    apply h.avail_used_lt ((h.idx p _ hflight).busy _ (head_mem i)).1
    rw [hstage]
    exact Stage.noConfusion
  have hcell : s.disk.avail.data (s.disk.avail.nwrite.toNat % num) = i.head := by
    have := (h.thread p).cell
    rw [hplace] at this
    exact this
  have hadvance := contents_advance num_dvd (lt_of_le_of_lt hroom (by decide))
  rw [hcell] at hadvance
  exact hadvance

theorem Inv.publish (h : Inv st s) (hplace : s.place p = .rw c (.publish i)) :
    Inv (update st i.head .avail)
      (({ s with disk := { s.disk with avail := s.disk.avail.advance } } : State).goTo p (.rw c (.test i))) := by
  have hflight : (s.place p).flight = some ⟨c, i, .publish⟩ := hplace ▸ rfl
  have hkeep : ∀ f, Keeps f s.disk { s.disk with avail := s.disk.avail.advance } :=
    fun f => ⟨fun _ _ => rfl, fun _ _ => rfl, rfl, rfl, rfl, rfl⟩
  obtain ⟨hformatted, hstage, hon, hdone⟩ := h.progress p _ hflight
  have hcontents := h.publish_contents hplace
  apply h.stepFlight (hplace ▸ rfl) hflight rfl
  · exact fun _ _ => rfl
  · intro q f hqp hf
    exact ⟨hkeep f, update_of_ne (h.head_ne hqp hflight hf _ (head_mem i) _ (head_mem _)) ..⟩
  · refine ⟨hformatted.keep (f := ⟨c, i, .sent⟩) (hkeep _), ?_⟩
    rw [update_self]
    exact .avail hon hdone
  · trivial
  · apply h.queues.move
    · exact h.queues.avail.comes (hstage ▸ Stage.noConfusion) hcontents
    · exact h.queues.used.outside (hstage ▸ Stage.noConfusion) Stage.noConfusion
    · exact fun _ _ => rfl
    · exact work_iff_of_none (h.queues.work_eq_none hstage rfl) rfl
  · exact fun k hk => update_of_ne hk ..
  · exact fun _ => rfl

/-- The call returns: its descriptors are free. -/
theorem Inv.finish (h : Inv st s) (hplace : s.place p = .rw c (.finish i)) :
    Inv st (({ s with disk := freed i.list { s.disk with infoB := update s.disk.infoB i.head none } } :
      State).release p .idle) := by
  have hlocked : (s.place p).locked = true := hplace ▸ rfl
  have hflight : (s.place p).flight = some ⟨c, i, .finish⟩ := hplace ▸ rfl
  obtain ⟨-, hstage, -⟩ := h.progress p _ hflight
  apply h.stepTo (l := none) (fun _ => h.alone hlocked)
  · intro q f hqp hf
    have hne := h.disjoint q p f _ hqp hf hflight
    refine ⟨⟨fun j hj => if_neg (hne j hj), fun j hj => if_neg (hne j hj), rfl, ?_, rfl, rfl⟩, rfl⟩
    exact update_of_ne (h.head_ne hqp hflight hf _ (head_mem i) _ (head_mem _)) ..
  · exact ⟨Bool.noConfusion, fun c' pc' hy => (by cases hy), fun g hg => (by cases hg), trivial⟩
  · rintro g q g' ⟨⟩
  · exact h.queues.congr rfl rfl rfl
  · intro k hk
    right
    refine ⟨hk, fun f hf hhead => ?_⟩
    obtain rfl := Option.some.inj (hflight.symm.trans hf)
    exact hk (hhead ▸ hstage)

/-! ## What a step changes -/

/-- What a step of `virtio_disk_rw` can be. -/
inductive RwStep (s : State) (p : Nat) (c : Call) : Rw → State → Prop
  | enter (pc : Rw) (hpc : pc = .enter ∨ pc = .noDesc) (hlock : s.lock = none) :
      RwStep s p c pc { s.goTo p (.rw c .alloc) with lock := some p }
  | alloc (i : Idx) (hnodup : i.list.Nodup) (hfree : ∀ j ∈ i.list, j < num ∧ s.disk.free j = true) :
      RwStep s p c .alloc (({ s with disk := taken i.list s.disk } : State).goTo p (.rw c (.format i)))
  | noDesc (js : List Nat) (hjs : ∀ j ∈ js, s.disk.free j = true) :
      RwStep s p c .alloc (({ s with disk := { s.disk with
        desc := fun i => if i ∈ js then noDesc else s.disk.desc i } } : State).release p (.rw c .noDesc))
  | format (i : Idx) :
      RwStep s p c (.format i) (({ s with disk := format s.disk c.req i } : State).goTo p (.rw c (.enqueue i)))
  | enqueue (i : Idx) :
      RwStep s p c (.enqueue i) (({ s with disk := { s.disk with avail := s.disk.avail.store i.head } } :
        State).goTo p (.rw c (.publish i)))
  | publish (i : Idx) :
      RwStep s p c (.publish i) (({ s with disk := { s.disk with avail := s.disk.avail.advance } } :
        State).goTo p (.rw c (.test i)))
  | sleep (i : Idx) : RwStep s p c (.test i) (s.release p (.rw c (.wait i)))
  | seen (i : Idx) (hoff : s.disk.onDisk c.req.buf = false) :
      RwStep s p c (.test i) (s.goTo p (.rw c (.finish i)))
  | wake (i : Idx) (hlock : s.lock = none) :
      RwStep s p c (.wait i) { s.goTo p (.rw c (.test i)) with lock := some p }
  | finish (i : Idx) :
      RwStep s p c (.finish i) (({ s with disk := freed i.list { s.disk with
        infoB := update s.disk.infoB i.head none } } : State).release p .idle)

/-- The effect of a step on the places, the rings and the work of the device. -/
inductive Moves (s : State) : State → Prop
  | owner (b : Nat) (o : Option Nat) : Moves s { s with owner := update s.owner b o }
  | outside (p : Nat) (y : Place) (l : Option Nat) (hp : ∀ c pc, s.place p ≠ .rw c pc) :
      Moves s { s.goTo p y with lock := l }
  | rw (p : Nat) (c : Call) (pc : Rw) (t : State) (hplace : s.place p = .rw c pc) (hstep : RwStep s p c pc t) :
      Moves s t
  | turn (p b : Nat) (hp : s.place p = .intrBody)
      (hcontents : s.disk.used.contents = s.disk.used.front :: s.disk.used.pop.contents) :
      Moves s (({ s with disk := { s.disk with
        onDisk := update s.disk.onDisk b false
        used := s.disk.used.pop } } : State).goTo p .intrTest)
  | fetch (w : Nat → Option Work) (hcontents : s.disk.avail.contents = s.disk.avail.front :: s.disk.avail.pop.contents) :
      Moves s { s with disk := { s.disk with avail := s.disk.avail.pop }, work := w }
  | execute (w : Nat → Option Work) (x : Nat → Nat) :
      Moves s { s with disk := { s.disk with infoStatus := x }, work := w }
  | complete (k : Nat) (w : Nat → Option Work) (x : Nat → List Req)
      (hcontents : (s.disk.used.push k).contents = s.disk.used.contents ++ [k]) :
      Moves s { s with disk := { s.disk with used := s.disk.used.push k }, work := w, done := x }

/-! ## Steps of the device and of the interrupt handler -/

/-- A step that moves the request of one call, which waits for it, to another stage. -/
theorem Inv.restage (h : Inv st s) (hq : s.place q = .rw c (.test i) ∨ s.place q = .rw c (.wait i))
    {d' : Disk} {work' : Nat → Option Work} {done' : Nat → List Req}
    (hdesc : d'.desc = s.disk.desc) (hfree : d'.free = s.disk.free) (hops : d'.ops = s.disk.ops)
    (hinfoB : d'.infoB = s.disk.infoB) (hstatus : ∀ k ≠ i.head, d'.infoStatus k = s.disk.infoStatus k)
    (hon : ∀ b ≠ c.req.buf, d'.onDisk b = s.disk.onDisk b)
    (hdone : ∀ b ≠ c.req.buf, done' b = s.done b)
    (hsent : Sent d' (done' c.req.buf) ⟨c, i, .sent⟩ x)
    (hcell : ∀ r, CellOk s.disk (s.place r) → CellOk d' (s.place r))
    (hqueues : Queues (update st i.head x) { s with disk := d', work := work', done := done' }) :
    Inv (update st i.head x) { s with disk := d', work := work', done := done' } := by
  have hflight := flight_of_sent hq
  have hidx := h.idx q _ hflight
  obtain ⟨hformatted, -⟩ := h.progress q _ hflight
  obtain ⟨pc, hplace⟩ := rw_of_flight hflight
  apply h.step (p := q) (t := { s with disk := d', work := work', done := done' })
  · refine ⟨fun _ _ => rfl, fun r _ hr => h.lock r hr, ?_, ?_, fun r _ hr => hcell r hr⟩
    · intro r c' pc' hrq hr
      exact ⟨h.owner r c' pc' hr, hdone _ (h.buf_ne hrq (h.owner q _ _ hplace) hr)⟩
    intro r f hrq hf
    obtain ⟨pc', hr⟩ := rw_of_flight hf
    have hhead := h.head_ne hrq hflight hf _ (head_mem i) _ (head_mem _)
    refine ⟨⟨fun j _ => by rw [hdesc], fun j _ => by rw [hfree], by rw [hops], by rw [hinfoB], hstatus _ hhead, ?_⟩,
      update_of_ne hhead ..⟩
    exact hon _ (h.buf_ne hrq (h.owner q _ _ hplace) hr)
  · refine ⟨h.lock q, fun c' pc' hr => ⟨h.owner q c' pc' hr, fun hnone => ?_⟩, fun f hf => ?_,
      hcell q (h.thread q).cell⟩
    · have hr : s.place q = .rw c' pc' := hr
      rw [hr] at hflight
      exact absurd (hflight.symm.trans hnone) (Option.some_ne_none _)
    · obtain rfl := Option.some.inj (hflight.symm.trans hf)
      refine ⟨⟨hidx.nodup, fun j hj => by rw [hfree]; exact hidx.busy j hj⟩, ⟨⟨?_, ?_, ?_, ?_⟩, ?_⟩, ?_⟩
      · rw [hdesc]
        exact hformatted.head
      · rw [hdesc]
        exact hformatted.data
      · rw [hdesc]
        exact hformatted.status
      · rw [hops]
        exact hformatted.op
      · rw [hinfoB]
        exact hformatted.buf
      · rw [update_self]
        exact hsent
  · exact fun f r g hf hrq hg => h.disjoint q r f g hrq.symm hf hg
  · exact hqueues
  · intro k hk
    by_cases heq : k = i.head
    · exact .inl ⟨_, hflight, rfl, heq.symm⟩
    right
    rw [update_of_ne heq] at hk
    refine ⟨hk, fun f hf hhead => ?_⟩
    obtain rfl := Option.some.inj (hflight.symm.trans hf)
    exact heq hhead.symm
  · exact h.panicked

/-- The entries of a ring that is not empty. -/
theorem contents_of_not_isEmpty {r : RingBuf Nat num 16} (h : r.isEmpty = false) :
    0 < r.used ∧ r.contents = r.front :: r.pop.contents := by
  have hpos : 0 < r.used := by
    apply Nat.pos_of_ne_zero
    intro hzero
    rw [isEmpty_iff.mpr hzero] at h
    cases h
  exact ⟨hpos, contents_eq_cons num_dvd hpos⟩

/-- The device does not touch what a thread inside the lock relies on. -/
theorem CellOk.mono {d d' : Disk} {x : Place} (h : CellOk d x) (hdata : d'.avail.data = d.avail.data)
    (hnwrite : d'.avail.nwrite = d.avail.nwrite) (hused : 0 < d.used.used → 0 < d'.used.used) : CellOk d' x := by
  cases x with
  | rw c pc =>
    cases pc with
    | publish j =>
      show d'.avail.data (d'.avail.nwrite.toNat % num) = j.head
      rw [hdata, hnwrite]
      exact h
    | _ => trivial
  | intrBody => exact hused h
  | _ => trivial

section

variable (h : Inv st s)
include h

theorem Inv.fetch (hfetch : fetch s = some t) : Moves s t ∧ ∃ st', Inv st' t := by
  rw [Virtio.fetch] at hfetch
  split at hfetch
  · cases hfetch
  next hempty =>
  obtain ⟨-, hcontents⟩ := contents_of_not_isEmpty (Bool.eq_false_iff.mpr hempty)
  have hstage : st s.disk.avail.front = .avail := by
    rw [← h.queues.avail.mem, hcontents]
    exact mem_cons_self
  rw [if_pos (h.queues.work_eq_none hstage rfl)] at hfetch
  cases hfetch
  refine ⟨.fetch _ hcontents, ?_⟩
  obtain ⟨q, c, i, hq, hhead, -, hsent⟩ := h.sent_flight (by rw [hstage]; exact Stage.noConfusion)
  rw [hstage] at hsent
  obtain ⟨hon, hdone⟩ : s.disk.onDisk c.req.buf = true ∧ s.done c.req.buf = c.before := by
    cases hsent with
    | avail hon hdone => exact ⟨hon, hdone⟩
  rw [← hhead] at hstage hcontents ⊢
  refine ⟨_, h.restage hq (x := .fetched) rfl rfl rfl rfl (fun _ _ => rfl) (fun _ _ => rfl) (fun _ _ => rfl)
    (.fetched hon hdone) (fun r hr => hr.mono rfl rfl id) ?_⟩
  apply h.queues.move
  · exact h.queues.avail.leaves hcontents Stage.noConfusion
  · exact h.queues.used.outside (hstage ▸ Stage.noConfusion) Stage.noConfusion
  · exact fun j hj => update_of_ne hj ..
  · intro w
    show update s.work i.head (some .fetched) i.head = some w ↔ _
    rw [update_self]
    cases w with
    | fetched => exact iff_of_true rfl rfl
    | executed r => exact iff_of_false nofun Stage.noConfusion

theorem Inv.execute (hexec : execute s k = some t) : Moves s t ∧ ∃ st', Inv st' t := by
  rw [Virtio.execute] at hexec
  split at hexec
  next hwork =>
    have hstage : st k = .fetched := (h.queues.work k _).mp hwork
    obtain ⟨q, c, i, hq, rfl, hformatted, hsent⟩ := h.sent_flight (by rw [hstage]; exact Stage.noConfusion)
    rw [hstage] at hsent
    obtain ⟨hon, hdone⟩ : s.disk.onDisk c.req.buf = true ∧ s.done c.req.buf = c.before := by
      cases hsent with
      | fetched hon hdone => exact ⟨hon, hdone⟩
    rw [hformatted.request] at hexec
    cases hexec
    refine ⟨.execute _ _, _, h.restage hq (x := .executed c.req) rfl rfl rfl rfl (fun j hj => update_of_ne hj ..)
      (fun _ _ => rfl) (fun _ _ => rfl) (.executed hon hdone (update_self ..))
      (fun r hr => hr.mono rfl rfl id) ?_⟩
    apply h.queues.move
    · exact h.queues.avail.outside (hstage ▸ Stage.noConfusion) Stage.noConfusion
    · exact h.queues.used.outside (hstage ▸ Stage.noConfusion) Stage.noConfusion
    · exact fun j hj => update_of_ne hj ..
    · intro w
      show update s.work i.head (some (.executed c.req)) i.head = some w ↔ _
      rw [update_self]
      cases w with
      | fetched => exact iff_of_false nofun Stage.noConfusion
      | executed r =>
        constructor
        · rintro ⟨⟩
          rfl
        · rintro ⟨⟩
          rfl
  · cases hexec

/-- The used ring takes the head of a request that was executed. -/
theorem Inv.push_used {r : Req} (hwork : s.work k = some (.executed r)) :
    s.disk.used.used < num ∧ (s.disk.used.push k).contents = s.disk.used.contents ++ [k] := by
  have hstage : st k = .executed r := (h.queues.work k _).mp hwork
  have hroom : s.disk.used.used < num := by
    apply h.used_used_lt (h.stage_lt (by rw [hstage]; exact Stage.noConfusion)).1
    rw [hstage]
    exact Stage.noConfusion
  exact ⟨hroom, contents_push num_dvd (by decide) hroom k⟩

theorem Inv.complete (hcomplete : complete s k = some t) : Moves s t ∧ ∃ st', Inv st' t := by
  rw [Virtio.complete] at hcomplete
  split at hcomplete
  next r hwork =>
    cases hcomplete
    obtain ⟨hroom, hcontents⟩ := h.push_used hwork
    have hstage : st k = .executed r := (h.queues.work k _).mp hwork
    obtain ⟨q, c, i, hq, rfl, hformatted, hsent⟩ := h.sent_flight (by rw [hstage]; exact Stage.noConfusion)
    rw [hstage] at hsent
    obtain ⟨rfl, hon, hdone, hstatus⟩ : r = c.req ∧ s.disk.onDisk c.req.buf = true ∧ s.done c.req.buf = c.before ∧
        s.disk.infoStatus i.head = 0 := by
      cases hsent with
      | executed hon hdone hstatus => exact ⟨rfl, hon, hdone, hstatus⟩
    have hdone' : update s.done c.req.buf (s.done c.req.buf ++ [c.req]) c.req.buf = c.before ++ [c.req] := by
      rw [update_self, hdone]
    refine ⟨.complete _ _ _ hcontents, _, h.restage hq (x := .used) rfl rfl rfl rfl (fun _ _ => rfl) (fun _ _ => rfl)
      (fun b hb => update_of_ne hb ..) (.used hon hdone' hstatus) (fun r hr => hr.mono rfl rfl ?_) ?_⟩
    · intro _
      rw [← length_contents, hcontents, length_append]
      exact Nat.succ_pos _
    apply h.queues.move
    · exact h.queues.avail.outside (hstage ▸ Stage.noConfusion) Stage.noConfusion
    · exact h.queues.used.comes (hstage ▸ Stage.noConfusion) hcontents
    · exact fun j hj => update_of_ne hj ..
    · exact work_iff_of_none (update_self ..) rfl
  · cases hcomplete

/-- The completion that a turn of the interrupt handler finds, and the call it belongs to. -/
theorem Inv.intr_found (hplace : s.place p = .intrBody) :
    ∃ q c i, (s.place q = .rw c (.test i) ∨ s.place q = .rw c (.wait i)) ∧ i.head = s.disk.used.front ∧
      st i.head = .used ∧ s.disk.used.contents = i.head :: s.disk.used.pop.contents ∧
      s.disk.infoB i.head = some c.req.buf ∧ s.disk.infoStatus i.head = 0 ∧
      s.disk.onDisk c.req.buf = true ∧ s.done c.req.buf = c.before ++ [c.req] := by
  have hpos : 0 < s.disk.used.used := by
    have := (h.thread p).cell
    rw [hplace] at this
    exact this
  have hcontents := contents_eq_cons num_dvd hpos
  have hstage : st s.disk.used.front = .used := by
    rw [← h.queues.used.mem, hcontents]
    exact mem_cons_self
  obtain ⟨q, c, i, hq, hhead, hformatted, hsent⟩ := h.sent_flight (by rw [hstage]; exact Stage.noConfusion)
  rw [hstage] at hsent
  cases hsent with
  | used hon hdone hstatus =>
    rw [← hhead] at hstage hcontents
    exact ⟨q, c, i, hq, hhead, hstage, hcontents, hformatted.buf, hstatus, hon, hdone⟩

end

/-- What a turn of the handler does, in terms of the call it is for. -/
theorem intrTurn_eq {b : Nat} (hbuf : s.disk.infoB s.disk.used.front = some b)
    (hstatus : s.disk.infoStatus s.disk.used.front = 0) :
    intrTurn s p = ({ s with disk := { s.disk with
      onDisk := update s.disk.onDisk b false
      used := s.disk.used.pop } } : State).goTo p .intrTest := by
  rw [intrTurn]
  simp only [hstatus, hbuf, ne_eq, not_true_eq_false, if_false]

theorem Inv.intrTurn (h : Inv st s) (hplace : s.place p = .intrBody) :
    Moves s (intrTurn s p) ∧ ∃ st', Inv st' (intrTurn s p) := by
  obtain ⟨q, c, i, hq, hhead, hstage, hcontents, hbuf, hstatus, hon, hdone⟩ := h.intr_found hplace
  have hlocked : (s.place p).locked = true := hplace ▸ rfl
  have hqp : q ≠ p := by
    rintro rfl
    rw [hplace] at hq
    rcases hq with hq | hq <;> cases hq
  rw [intrTurn_eq (hhead ▸ hbuf) (hhead ▸ hstatus)]
  -- first the handler goes on, then the request is taken off the used ring
  have hgone : Inv st (s.goTo p .intrTest) := by
    apply h.goTo_noFlight (l := s.lock)
    · rw [hplace]
      rfl
    · rfl
    · exact fun r _ hr => h.lock r hr
    · exact fun _ => h.lock p hlocked
    · rintro c' pc' ⟨⟩
    · trivial
  have hq' : (s.goTo p .intrTest).place q = .rw c (.test i) ∨ (s.goTo p .intrTest).place q = .rw c (.wait i) := by
    have : (s.goTo p .intrTest).place q = s.place q := update_of_ne hqp ..
    rw [this]
    exact hq
  have hcell : ∀ d' r, CellOk d' ((s.goTo p .intrTest).place r) := by
    intro d' r
    by_cases hr : r = p
    · have : (s.goTo p .intrTest).place r = .intrTest := by rw [hr]; exact update_self ..
      rw [this]
      trivial
    · have : (s.goTo p .intrTest).place r = s.place r := update_of_ne hr ..
      rw [this]
      exact cellOk_of_unlocked (h.unlocked (.inl (h.lock p hlocked)) hr)
  refine ⟨.turn p _ hplace (hhead ▸ hcontents), _, hgone.restage hq' (x := .absent) rfl rfl rfl rfl (fun _ _ => rfl)
    (fun b hb => update_of_ne hb ..) (fun _ _ => rfl) (.absent (update_self ..) hdone)
    (fun r _ => hcell _ r) ?_⟩
  apply hgone.queues.move
  · exact h.queues.avail.outside (hstage ▸ Stage.noConfusion) Stage.noConfusion
  · exact h.queues.used.leaves hcontents Stage.noConfusion
  · exact fun _ _ => rfl
  · exact work_iff_of_none (h.queues.work_eq_none hstage rfl) rfl

end Xv6Lab.Virtio
