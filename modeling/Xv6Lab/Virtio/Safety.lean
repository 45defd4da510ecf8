import Xv6Lab.Virtio.Steps

/-!
# The driver and the device

The invariant holds in every state that threads, interrupt handlers and the device reach in any order
(`reachable_inv`). `disk_requests_safe` reads it back: what it says about descriptors, the rings, and the two steps
that end a request, the turn of the interrupt handler and the return of `virtio_disk_rw`.
-/

namespace Xv6Lab.Virtio

open Function Lib.RingBuffer Lib.Transition Option Virtio

variable {st : Nat → Stage} {s t : State} {p : Nat} {c : Call} {i : Idx} {pc : Rw}

/-! ## Every step -/

theorem acquire_eq_some {x : Place} (h : s.acquire p x = some t) :
    s.lock = none ∧ t = { s.goTo p x with lock := some p } := by
  rw [State.acquire] at h
  split at h
  next hlock => exact ⟨hlock, (some.inj h).symm⟩
  · cases h

theorem Inv.stepRw_cases (h : Inv st s) (hplace : s.place p = .rw c pc) (hstep : stepRw s p c pc = some t) :
    RwStep s p c pc t := by
  cases pc with
  | enter =>
    obtain ⟨hlock, rfl⟩ := acquire_eq_some hstep
    exact .enter _ (.inl rfl) hlock
  | noDesc =>
    obtain ⟨hlock, rfl⟩ := acquire_eq_some hstep
    exact .enter _ (.inr rfl) hlock
  | wait i =>
    obtain ⟨hlock, rfl⟩ := acquire_eq_some hstep
    exact .wake i hlock
  | alloc =>
    have hcases := alloc3Desc_cases s.disk
    rw [stepRw] at hstep
    generalize alloc3Desc s.disk = r at hcases hstep
    cases hcases with
    | some idx hnodup hlen hidx =>
      obtain ⟨a, b, d, rfl⟩ := List.length_eq_three.mp hlen
      cases hstep
      exact .alloc ⟨a, b, d⟩ hnodup hidx
    | none js hjs =>
      cases hstep
      exact .noDesc js hjs
  | format i =>
    cases hstep
    exact .format i
  | enqueue i =>
    cases hstep
    exact .enqueue i
  | publish i =>
    cases hstep
    exact .publish i
  | test i =>
    rw [stepRw] at hstep
    split at hstep
    · cases hstep
      exact .sleep i
    next hoff =>
      cases hstep
      exact .seen i (Bool.eq_false_iff.mpr hoff)
  | finish i =>
    have hflight : (s.place p).flight = some ⟨c, i, .finish⟩ := hplace ▸ rfl
    have hidx := h.idx p _ hflight
    obtain ⟨hformatted, -⟩ := h.progress p _ hflight
    -- the chain the call has made is still in place
    have hchain : Chain { s.disk with infoB := update s.disk.infoB i.head none } c.req i :=
      ⟨hformatted.head, hformatted.data, hformatted.status, hformatted.op⟩
    rw [stepRw, hchain.freeChain hidx.nodup hidx.busy] at hstep
    cases hstep
    exact .finish i

theorem Inv.stepRw (h : Inv st s) (hplace : s.place p = .rw c pc) (hstep : RwStep s p c pc t) : ∃ st', Inv st' t := by
  cases hstep with
  | enter pc hpc hlock =>
    refine ⟨st, h.enter_alloc hplace ?_ hlock⟩
    rcases hpc with rfl | rfl <;> rfl
  | alloc i hnodup hfree => exact ⟨st, h.alloc hplace hnodup hfree⟩
  | noDesc js hjs => exact ⟨st, h.alloc_fails hplace hjs⟩
  | format i => exact ⟨st, h.format hplace⟩
  | enqueue i => exact ⟨st, h.enqueue hplace⟩
  | publish i => exact ⟨_, h.publish hplace⟩
  | sleep i => exact ⟨st, h.test_wait hplace⟩
  | seen i hoff => exact ⟨st, h.test_finish hplace hoff⟩
  | wake i hlock => exact ⟨st, h.wait_test hplace hlock⟩
  | finish i => exact ⟨st, h.finish hplace⟩

/-- The owner of a buffer changes only while no call is made on it. -/
theorem Inv.setOwner (h : Inv st s) {b : Nat} (hb : ∀ q c pc, s.place q = .rw c pc → c.req.buf ≠ b) (o : Option Nat) :
    Inv st { s with owner := update s.owner b o } :=
  { h with
    thread := fun q =>
      { h.thread q with
        call := fun c pc hq => ⟨(update_of_ne (hb q c pc hq) ..).trans (h.owner q c pc hq), h.early q c pc hq⟩ }
    queues := h.queues.congr rfl rfl rfl }

theorem Inv.stepOf (h : Inv st s) (hstep : stepOf s p (s.place p) = some t) : Moves s t ∧ ∃ st', Inv st' t := by
  cases hplace : s.place p with
  | idle =>
    rw [hplace] at hstep
    cases hstep
  | rw c pc =>
    rw [hplace] at hstep
    have hcases := h.stepRw_cases hplace hstep
    exact ⟨.rw p c pc t hplace hcases, h.stepRw hplace hcases⟩
  | intrEnter =>
    rw [hplace] at hstep
    obtain ⟨hlock, rfl⟩ := acquire_eq_some hstep
    exact ⟨.outside p _ _ fun c pc hp => (by rw [hplace] at hp; cases hp), st,
      h.goTo_noFlight (hplace ▸ rfl) rfl (fun q _ hq => h.lock_of_free hlock hq) (fun _ => rfl) nofun trivial⟩
  | intrTest =>
    have hlocked : (s.place p).locked = true := hplace ▸ rfl
    have hnone : (s.place p).flight = none := hplace ▸ rfl
    have hout : ∀ c pc, s.place p ≠ .rw c pc := fun c pc hp => by rw [hplace] at hp; cases hp
    rw [hplace, Virtio.stepOf] at hstep
    split at hstep
    · cases hstep
      exact ⟨.outside p _ _ hout, st, h.goTo_noFlight hnone rfl (fun _ => h.alone hlocked) nofun nofun trivial⟩
    next hempty =>
      cases hstep
      have hpos := (contents_of_not_isEmpty (Bool.eq_false_iff.mpr hempty)).1
      exact ⟨.outside p _ s.lock hout, st,
        h.goTo_noFlight (l := s.lock) hnone rfl (fun q _ hq => h.lock q hq) (fun _ => h.lock p hlocked) nofun hpos⟩
  | intrBody =>
    rw [hplace] at hstep
    cases hstep
    exact h.intrTurn hplace

theorem Inv.next (h : Inv st s) {a : Action} (hnext : next s a = some t) : Moves s t ∧ ∃ st', Inv st' t := by
  have hout : ∀ {q}, s.place q = .idle → ∀ c pc, s.place q ≠ .rw c pc := by
    intro q hq c pc hrw
    rw [hq] at hrw
    cases hrw
  rw [Virtio.next, if_pos h.panicked] at hnext
  cases a with
  | lock p b =>
    obtain ⟨⟨-, howner⟩, rfl⟩ := ite_some_none_eq_some.mp hnext
    refine ⟨.owner b _, st, h.setOwner (fun q c pc hq hb => ?_) _⟩
    have := h.owner q c pc hq
    rw [hb, howner] at this
    cases this
  | unlock p b =>
    obtain ⟨⟨hidle, howner⟩, rfl⟩ := ite_some_none_eq_some.mp hnext
    refine ⟨.owner b _, st, h.setOwner (fun q c pc hq hb => ?_) _⟩
    have := h.owner q c pc hq
    rw [hb, howner] at this
    cases this
    rw [hidle] at hq
    cases hq
  | call p b write blockno =>
    obtain ⟨⟨hidle, howner⟩, rfl⟩ := ite_some_none_eq_some.mp hnext
    refine ⟨.outside p _ s.lock (hout hidle), st,
      h.goTo_noFlight (l := s.lock) (hidle ▸ rfl) rfl (fun q _ hq => h.lock q hq) nofun ?_ trivial⟩
    rintro c pc ⟨⟩
    exact ⟨howner, rfl⟩
  | intr p =>
    obtain ⟨hidle, rfl⟩ := ite_some_none_eq_some.mp hnext
    exact ⟨.outside p _ s.lock (hout hidle), st,
      h.goTo_noFlight (l := s.lock) (hidle ▸ rfl) rfl (fun q _ hq => h.lock q hq) nofun nofun trivial⟩
  | step p => exact h.stepOf hnext
  | fetch => exact h.fetch hnext
  | execute k => exact h.execute hnext
  | complete k => exact h.complete hnext

theorem init_inv (h : Init s) : Inv (fun _ => .absent) s := by
  have hempty : ∀ {r : RingBuf Nat num 16}, r.nread = 0#16 ∧ r.nwrite = 0#16 → r.contents = [] := by
    intro r hr
    apply List.eq_nil_of_length_eq_zero
    rw [RingBuf.length_contents, RingBuf.used, hr.1, hr.2]
    rfl
  have hnoflight : ∀ p f, (s.place p).flight ≠ some f := by
    intro p f hf
    rw [h.place p] at hf
    cases hf
  refine ⟨h.panicked, fun p => ?_, fun p q f g _ hf => absurd hf (hnoflight p f), fun k hk => absurd rfl hk, ?_⟩
  · rw [h.place p]
    exact ⟨Bool.noConfusion, fun c pc hp => (by cases hp), fun f hf => (by cases hf), trivial⟩
  · have hring : ∀ x, x ≠ .absent → Ring (fun _ => .absent) x [] := fun x hx =>
      ⟨List.nodup_nil, fun _ => iff_of_false List.not_mem_nil hx.symm⟩
    refine ⟨?_, ?_, fun k w => ?_⟩
    · rw [hempty h.avail]
      exact hring _ Stage.noConfusion
    · rw [hempty h.used]
      exact hring _ Stage.noConfusion
    · rw [h.work k]
      cases w with
      | fetched | executed => exact iff_of_false (by simp) Stage.noConfusion

theorem reachable_inv (hs : Reachable Init next noGuard s) : ∃ st, Inv st s := by
  apply hs.invariant (fun s => ∃ st, Inv st s)
  · exact fun s h => ⟨_, init_inv h⟩
  · rintro s a t ⟨st, h⟩ - hnext
    exact (h.next hnext).2

/-! ## The rings -/

/-- A ring goes on as a queue: entries are added at the end and taken from the front, and no other entry changes. -/
def Handed (old new : List Nat) : Prop := new = old ∨ (∃ h, new = old ++ [h]) ∨ ∃ h, old = h :: new

theorem Inv.handed_stepRw (h : Inv st s) (hplace : s.place p = .rw c pc) (hstep : RwStep s p c pc t) :
    Handed s.disk.avail.contents t.disk.avail.contents ∧ Handed s.disk.used.contents t.disk.used.contents := by
  cases hstep with
  | enqueue i =>
    exact ⟨.inl (RingBuf.contents_store num_dvd (h.enqueue_used_lt hplace) i.head), .inl rfl⟩
  | publish i => exact ⟨.inr (.inl ⟨i.head, h.publish_contents hplace⟩), .inl rfl⟩
  | _ => exact ⟨.inl rfl, .inl rfl⟩

theorem Inv.handed (h : Inv st s) (hmoves : Moves s t) :
    Handed s.disk.avail.contents t.disk.avail.contents ∧ Handed s.disk.used.contents t.disk.used.contents := by
  cases hmoves with
  | rw p c pc t hplace hstep => exact h.handed_stepRw hplace hstep
  | turn p b hp hcontents => exact ⟨.inl rfl, .inr (.inr ⟨_, hcontents⟩)⟩
  | fetch w hcontents => exact ⟨.inr (.inr ⟨_, hcontents⟩), .inl rfl⟩
  | complete k w x hcontents => exact ⟨.inl rfl, .inr (.inl ⟨k, hcontents⟩)⟩
  | _ => exact ⟨.inl rfl, .inl rfl⟩

/-! ## The return of a call -/

/-- The call returns: the device has completed its request, and nothing else for the buffer, since it was made, and
its descriptors are free. -/
structure Returned (s t : State) (p : Nat) (c : Call) (i : Idx) : Prop where
  place : t.place p = .idle
  completed : s.done c.req.buf = c.before ++ [c.req]
  free : ∀ j ∈ i.list, t.disk.free j = true

theorem Inv.returned (h : Inv st s) (hplace : s.place p = .rw c (.finish i)) :
    Returned s (({ s with disk := freed i.list { s.disk with
      infoB := update s.disk.infoB i.head none } } : State).release p .idle) p c i := by
  have hflight : (s.place p).flight = some ⟨c, i, .finish⟩ := hplace ▸ rfl
  exact ⟨update_self .., (h.progress p _ hflight).2.2, fun j hj => if_pos hj⟩

/-- A step of a call leaves it in the call, or returns. -/
theorem Inv.stays_stepRw (h : Inv st s) (hplace : s.place p = .rw c pc) (hstep : RwStep s p c pc t) :
    (∃ pc', t.place p = .rw c pc') ∨ ∃ i, pc = .finish i ∧ Returned s t p c i := by
  cases hstep with
  | finish i => exact .inr ⟨i, rfl, h.returned hplace⟩
  | _ => exact .inl ⟨_, update_self ..⟩

theorem stepRw_other {q : Nat} (hqp : q ≠ p) (hstep : RwStep s p c pc t) : t.place q = s.place q := by
  cases hstep <;> exact update_of_ne hqp ..

/-- A step of another thread, or of the device, leaves a call where it is. -/
theorem Inv.stays (h : Inv st s) (hmoves : Moves s t) (hplace : s.place p = .rw c pc) :
    (∃ pc', t.place p = .rw c pc') ∨ ∃ i, pc = .finish i ∧ Returned s t p c i := by
  cases hmoves with
  | owner b o => exact .inl ⟨pc, hplace⟩
  | outside q y l hq =>
    have hpq : p ≠ q := by
      rintro rfl
      exact hq c pc hplace
    exact .inl ⟨pc, (update_of_ne hpq ..).trans hplace⟩
  | rw q c' pc' t hq hstep =>
    rcases eq_or_ne p q with rfl | hpq
    · rw [hplace] at hq
      cases hq
      exact h.stays_stepRw hplace hstep
    · exact .inl ⟨pc, (stepRw_other hpq hstep).trans hplace⟩
  | turn q b hq _ =>
    have hpq : p ≠ q := by
      rintro rfl
      rw [hplace] at hq
      cases hq
    exact .inl ⟨pc, (update_of_ne hpq ..).trans hplace⟩
  | _ => exact .inl ⟨pc, hplace⟩

/-! ## Safety -/

/-- The turn of the interrupt handler clears `b->disk` of the buffer whose call the completion is for, and of no
other buffer. -/
structure Cleared (s t : State) : Prop where
  issuer : ∃ q c i, (s.place q = .rw c (.test i) ∨ s.place q = .rw c (.wait i)) ∧ i.head = s.disk.used.front ∧
    s.done c.req.buf = c.before ++ [c.req] ∧ s.disk.onDisk c.req.buf = true ∧
    t.disk.onDisk = update s.disk.onDisk c.req.buf false

/-- In every state that is reached: the descriptors of requests in flight are three each, allocated, and belong to no
other request; nothing has panicked; the rings lose and overwrite no entry, and have room when one is added; a call
that is left has had its request, and only that, completed by the device, and its descriptors are free; and a turn of
the interrupt handler clears `b->disk` of the buffer that issued the request. -/
theorem disk_requests_safe (hs : Reachable Init next noGuard s) :
    (∀ p f, (s.place p).flight = some f → f.idx.list.Nodup ∧ ∀ j ∈ f.idx.list, j < num ∧ s.disk.free j = false) ∧
    (∀ p q f g, p ≠ q → (s.place p).flight = some f → (s.place q).flight = some g →
      ∀ j ∈ f.idx.list, j ∉ g.idx.list) ∧
    s.panicked = none ∧
    (∀ a t, next s a = some t →
      Handed s.disk.avail.contents t.disk.avail.contents ∧ Handed s.disk.used.contents t.disk.used.contents) ∧
    (∀ p c i, s.place p = .rw c (.enqueue i) → s.disk.avail.used < num) ∧
    (∀ k r, s.work k = some (.executed r) → s.disk.used.used < num) ∧
    (∀ a t p c pc, next s a = some t → s.place p = .rw c pc →
      (∃ pc', t.place p = .rw c pc') ∨ ∃ i, pc = .finish i ∧ Returned s t p c i) ∧
    (∀ p t, s.place p = .intrBody → next s (.step p) = some t → Cleared s t) := by
  obtain ⟨st, h⟩ := reachable_inv hs
  refine ⟨fun p f hf => ⟨(h.idx p f hf).nodup, (h.idx p f hf).busy⟩, h.disjoint, h.panicked,
    fun a t hnext => h.handed (h.next hnext).1, fun p c i hplace => h.enqueue_used_lt hplace,
    fun k r hwork => (h.push_used hwork).1, fun a t p c pc hnext hplace => h.stays (h.next hnext).1 hplace, ?_⟩
  intro p t hplace hnext
  obtain ⟨q, c, i, hq, hhead, -, -, hbuf, hstatus, hon, hdone⟩ := h.intr_found hplace
  have hstep : stepOf s p (s.place p) = some t := by
    rw [next, if_pos h.panicked] at hnext
    exact hnext
  rw [hplace] at hstep
  have heq : intrTurn s p = t := some.inj hstep
  rw [intrTurn_eq (hhead ▸ hbuf) (hhead ▸ hstatus)] at heq
  subst heq
  exact ⟨q, c, i, hq, hhead, hdone, hon, rfl⟩

/-- The state after `virtio_disk_init`. -/
def bootState : State where
  disk :=
    { desc := fun _ => noDesc
      avail := ⟨fun _ => 0, 0#16, 0#16⟩
      used := ⟨fun _ => 0, 0#16, 0#16⟩
      free := fun i => i < num
      infoB := fun _ => none
      infoStatus := fun _ => 0
      ops := fun _ => ⟨false, 0⟩
      onDisk := fun _ => false }
  lock := none
  owner := fun _ => none
  place := fun _ => .idle
  work := fun _ => none
  done := fun _ => []
  panicked := none

theorem init_bootState : Init bootState where
  free _ hi := decide_eq_true hi
  avail := ⟨rfl, rfl⟩
  used := ⟨rfl, rfl⟩
  lock := rfl
  owner _ := rfl
  place _ := rfl
  work _ := rfl
  panicked := rfl

/-- Thread 0 writes buffer 5 and thread 1 reads buffer 6; the device completes the second request first, and the
handler, thread 2, has found its completion. -/
def twoRequests : List Action :=
  [.lock 0 5, .call 0 5 true 7] ++ List.replicate 6 (.step 0) ++ [.lock 1 6, .call 1 6 false 9] ++
    List.replicate 6 (.step 1) ++ [.fetch, .fetch, .execute 3, .execute 0, .complete 3, .intr 2, .step 2, .step 2]

theorem two_requests_in_flight : ∃ s, Reachable Init next noGuard s ∧
    (s.place 0).flight.map Flight.idx = some ⟨0, 1, 2⟩ ∧ (s.place 1).flight.map Flight.idx = some ⟨3, 4, 5⟩ ∧
    s.disk.used.front = 3 ∧ s.panicked = none ∧ ∀ t, next s (.step 2) = some t → Cleared s t := by
  have hrun : (run next bootState twoRequests).map (fun s => ((s.place 0).flight.map Flight.idx,
      (s.place 1).flight.map Flight.idx, s.disk.used.front, s.place 2)) =
      some (some ⟨0, 1, 2⟩, some ⟨3, 4, 5⟩, 3, .intrBody) := by decide +kernel
  obtain ⟨s, hs, hres⟩ := map_eq_some_iff.mp hrun
  simp only [Prod.mk.injEq] at hres
  have hreach := reachable_run (.start init_bootState) hs
  obtain ⟨-, -, hpanic, -, -, -, -, hcleared⟩ := disk_requests_safe hreach
  exact ⟨s, hreach, hres.1, hres.2.1, hres.2.2.1, hpanic, fun t => hcleared 2 t hres.2.2.2⟩

end Xv6Lab.Virtio
