import Xv6Lab.Buffers.Model

/-!
# One buffer per block

The invariant of the cache as far as it is about identities and counts: the pointers lay out all buffers, no
two buffers hold the same block of a real device, a session's buffer holds the session's block, the sleep-lock
names its holder, and a reference count is the number of sessions on the buffer plus its pins.

`Inv.next` shows that every step keeps it. A step changes one session and one buffer, which keeps its block
(`Inv.change`); only where `bget` recycles a buffer is that different (`Inv.miss`).
-/

namespace Xv6Lab.Buffers

open Function Lib.LinkedList Lib.Tally Lib.Transition State List Option
open Logging.BufferCache (nbuf Slot)

variable {n : Nat} {D : Type} {logdev : Nat} {s t : State n D} {u v : Fin n} {x : Session} {k l : Slot}
  {stage : Stage} {b : Buf n D}

theorem Stage.holds_of_reads (h : stage.reads = true) : stage.holds = true := by
  cases stage <;> simp_all [Stage.reads, Stage.holds]

/-! ## Sessions on a buffer -/

/-- The number of sessions on the buffer. -/
def State.refs (s : State n D) (k : Slot) : Nat := tally Finset.univ (fun u => (s.use u).map Session.buf) (some k)

theorem State.refs_pos (h : s.use u = some x) : 0 < s.refs x.buf := by
  apply tally_pos.mpr
  exact ⟨u, Finset.mem_univ u, h ▸ rfl⟩

theorem State.ne_buf (h : s.refs k = 0) (hx : s.use u = some x) : x.buf ≠ k := by
  rintro rfl
  exact absurd h (refs_pos hx).ne'

/-- The session of `u` on a buffer comes, goes or changes its stage, and the buffer becomes `b`, which holds the same
block. -/
structure Change (s t : State n D) (u : Fin n) (x : Session) (p q : Option Stage) (b : Buf n D) : Prop where
  here : s.use u = p.map fun stage => { x with stage }
  use : t.use = update s.use u (q.map fun stage => { x with stage })
  buf : t.buf = update s.buf x.buf b
  dev : b.dev = (s.buf x.buf).dev
  blockno : b.blockno = (s.buf x.buf).blockno
  valid : (s.buf x.buf).valid = true → b.valid = true

/-- No buffer comes to hold another block or loses its data. -/
def KeepsBlocks (s t : State n D) : Prop :=
  ∀ k, (t.buf k).dev = (s.buf k).dev ∧ (t.buf k).blockno = (s.buf k).blockno ∧
    ((s.buf k).valid = true → (t.buf k).valid = true)

variable {p q : Option Stage}

/-- The counts after a session has come, gone or changed its stage. -/
theorem State.refs_change (here : s.use u = p.map fun stage => { x with stage })
    (use : t.use = update s.use u (q.map fun stage => { x with stage })) :
    t.refs x.buf + p.isSome.toNat = s.refs x.buf + q.isSome.toNat ∧ ∀ k ≠ x.buf, t.refs k = s.refs k := by
  have hmap : (fun v => (t.use v).map Session.buf) =
      update (fun v => (s.use v).map Session.buf) u (q.map fun _ => x.buf) := by
    funext v
    rw [use]
    rcases eq_or_ne v u with rfl | hv
    · cases q <;> simp
    · simp [update_of_ne hv]
  have hbefore : (s.use u).map Session.buf = p.map fun _ => x.buf := by
    rw [here, Option.map_map]
    rfl
  have hcount : ∀ k, t.refs k + (if p.map (fun _ => x.buf) = some k then 1 else 0) =
      s.refs k + if q.map (fun _ => x.buf) = some k then 1 else 0 := by
    intro k
    rw [refs, hmap, ← hbefore]
    exact tally_update (Finset.mem_univ u) _
  refine ⟨?_, fun k hk => ?_⟩
  · have hself := hcount x.buf
    cases p <;> cases q <;> simpa using hself
  · have hother := hcount k
    cases p <;> cases q <;> simpa [hk.symm] using hother

section

variable (h : Change s t u x p q b)
include h

theorem Change.self : t.buf x.buf = b := by
  rw [h.buf, update_self]

theorem Change.other (hk : k ≠ x.buf) : t.buf k = s.buf k := by
  rw [h.buf, update_of_ne hk]

theorem Change.keeps : KeepsBlocks s t := by
  intro k
  rcases eq_or_ne k x.buf with rfl | hk
  · rw [h.self]
    exact ⟨h.dev, h.blockno, h.valid⟩
  · rw [h.other hk]
    exact ⟨rfl, rfl, id⟩

end

/-- Every session on a buffer holds its lock, waits for it or has released it. -/
theorem State.refs_eq (s : State n D) (k : Slot) : s.refs k = s.holders k + s.waiters k + s.leavers k := by
  simp only [refs, holders, waiters, leavers, sessions, tally, Finset.card_filter, ← Finset.sum_add_distrib]
  apply Finset.sum_congr rfl
  intro u _
  cases s.use u with
  | none => rfl
  | some x =>
    obtain ⟨dev, blockno, buf, stage⟩ := x
    by_cases hbuf : buf = k
    · cases stage <;> simp [hbuf, Stage.holds]
    · cases stage <;> simp [hbuf]

/-! ## The invariant -/

structure Inv (logdev : Nat) (s : State n D) : Prop where
  list : ∃ l, Linked s.links l ∧ ∀ k, k ∈ l
  unique : ∀ k l, 1 ≤ (s.buf k).dev → (s.buf k).dev = (s.buf l).dev → (s.buf k).blockno = (s.buf l).blockno → k = l
  session : ∀ u x, s.use u = some x → (s.buf x.buf).dev = x.dev ∧ (s.buf x.buf).blockno = x.blockno ∧ 1 ≤ x.dev
  lock : ∀ u x, s.use u = some x → x.stage.holds = true → (s.buf x.buf).lock = some u
  refcnt : ∀ k, (s.buf k).refcnt = s.refs k + s.pins logdev k
  pinned : ∀ b ∈ s.pending, ∃ k, (s.buf k).dev = logdev ∧ (s.buf k).blockno = b
  nodup : s.log.Nodup
  inOp : 0 < s.outstanding → s.commit = none

/-- Two sessions cannot hold the lock of one buffer. -/
theorem Inv.holder_unique (h : Inv logdev s) {y : Session} (hx : s.use u = some x) (hy : s.use v = some y)
    (hxs : x.stage.holds = true) (hys : y.stage.holds = true) (hbuf : x.buf = y.buf) : u = v := by
  have hu := h.lock u x hx hxs
  rw [hbuf, h.lock v y hy hys] at hu
  exact (some.inj hu).symm

/-- A pinned buffer has a reference. -/
theorem Inv.refcnt_pos (h : Inv logdev s) (hdev : (s.buf k).dev = logdev) (hmem : (s.buf k).blockno ∈ s.pending) :
    0 < (s.buf k).refcnt := by
  rw [h.refcnt, pins, if_pos ⟨hdev, hmem⟩]
  omega

/-! ## Steps of a session -/

theorem KeepsBlocks.pins (h : KeepsBlocks s t) (k : Slot) :
    t.pins logdev k = if (s.buf k).dev = logdev ∧ (s.buf k).blockno ∈ t.pending then 1 else 0 := by
  rw [State.pins, (h k).1, (h k).2.1]

section

variable (h : Inv logdev s) (hc : Change s t u x p q b)
  (hblock : (s.buf x.buf).dev = x.dev ∧ (s.buf x.buf).blockno = x.blockno ∧ 1 ≤ x.dev)
  (hlist : ∃ l, Linked t.links l ∧ ∀ k, k ∈ l)
  (hlock : b.lock = (s.buf x.buf).lock ∨ (s.buf x.buf).lock = none ∨ (s.buf x.buf).lock = some u)
  (hmine : q.any Stage.holds = true → b.lock = some u)
include h hc hblock hlist hlock hmine

/-- The lock of the buffer stays as it is, or only `u` can have had it. -/
theorem Inv.change (hcount : b.refcnt + p.isSome.toNat + s.pins logdev x.buf =
      (s.buf x.buf).refcnt + q.isSome.toNat + t.pins logdev x.buf)
    (hpins : ∀ k ≠ x.buf, t.pins logdev k = s.pins logdev k)
    (hpinned : ∀ b ∈ t.pending, ∃ k, (s.buf k).dev = logdev ∧ (s.buf k).blockno = b)
    (hnodup : t.log.Nodup) (hinOp : 0 < t.outstanding → t.commit = none) : Inv logdev t ∧ KeepsBlocks s t := by
  have hkeeps := hc.keeps
  refine ⟨?_, hkeeps⟩
  -- a session of `t` is one of `s`, or that of `u`
  have hback : ∀ v y, t.use v = some y → v ≠ u ∧ s.use v = some y ∨
      v = u ∧ ∃ stage, q = some stage ∧ y = { x with stage } := by
    intro v y hy
    rw [hc.use] at hy
    rcases eq_or_ne v u with rfl | hv
    · rw [update_self] at hy
      obtain ⟨stage, hq, rfl⟩ := map_eq_some_iff.mp hy
      exact .inr ⟨rfl, stage, hq, rfl⟩
    · rw [update_of_ne hv] at hy
      exact .inl ⟨hv, hy⟩
  constructor
  · exact hlist
  · intro k l
    rw [(hkeeps k).1, (hkeeps l).1, (hkeeps k).2.1, (hkeeps l).2.1]
    exact h.unique k l
  · intro v y hy
    rw [(hkeeps _).1, (hkeeps _).2.1]
    rcases hback v y hy with ⟨-, hold⟩ | ⟨-, stage, -, rfl⟩
    · exact h.session v y hold
    · exact hblock
  · intro v y hy hholds
    rcases hback v y hy with ⟨hv, hold⟩ | ⟨rfl, stage, rfl, rfl⟩
    · have hheld := h.lock v y hold hholds
      rcases eq_or_ne y.buf x.buf with hbuf | hbuf
      · rw [hbuf] at hheld ⊢
        rw [hc.self]
        rcases hlock with hsame | hnone | hself
        · exact hsame.trans hheld
        · rw [hnone] at hheld
          cases hheld
        · rw [hself] at hheld
          exact absurd (some.inj hheld).symm hv
      · rw [hc.other hbuf]
        exact hheld
    · rw [hc.self]
      exact hmine hholds
  · intro k
    obtain ⟨hself, hother⟩ := refs_change hc.here hc.use
    have hrefcnt := h.refcnt k
    rcases eq_or_ne k x.buf with rfl | hk
    · rw [hc.self]
      omega
    · rw [hc.other hk, hother k hk, hpins k hk]
      exact hrefcnt
  · intro b hb
    obtain ⟨k, hk⟩ := hpinned b hb
    rw [← (hkeeps k).1, ← (hkeeps k).2.1] at hk
    exact ⟨k, hk⟩
  · exact hnodup
  · exact hinOp

/-- A step that leaves the log alone. -/
theorem Inv.touch (hlog : t.log = s.log ∧ t.commit = s.commit ∧ t.outstanding = s.outstanding)
    (hcount : b.refcnt + p.isSome.toNat = (s.buf x.buf).refcnt + q.isSome.toNat) :
    Inv logdev t ∧ KeepsBlocks s t := by
  obtain ⟨hlog, hcommit, hout⟩ := hlog
  have hpending : t.pending = s.pending := by rw [pending, pending, hlog, hcommit]
  have hpins : ∀ k, t.pins logdev k = s.pins logdev k := by
    intro k
    rw [hc.keeps.pins, hpending, State.pins]
  apply h.change hc hblock hlist hlock hmine
  · rw [hpins, hcount]
  · exact fun k _ => hpins k
  · rw [hpending]
    exact h.pinned
  · rw [hlog]
    exact h.nodup
  · rw [hout, hcommit]
    exact h.inOp

end

/-! ## Updates -/

@[simp] theorem setBuf_self : (s.setBuf k b).buf k = b := update_self ..

theorem setBuf_of_ne (h : l ≠ k) : (s.setBuf k b).buf l = s.buf l := update_of_ne h ..

/-- The entry that is installed next is no longer pending. -/
theorem pending_unpin {i b : Nat} (hcommit : s.commit = some i) (hentry : s.log[i]? = some b) (hlog : t.log = s.log)
    (hnext : t.commit = some (i + 1)) : s.pending = b :: t.pending := by
  obtain ⟨hi, hget⟩ := List.getElem?_eq_some_iff.mp hentry
  rw [pending, pending, hcommit, hnext, hlog, getD_some, getD_some, drop_eq_getElem_cons hi, hget]

section

variable (h : Inv logdev s) (hx : s.use u = some x) (hdev : x.dev = logdev) (hmine : (s.buf x.buf).lock = some u)
include h hx hdev hmine

omit hmine in
/-- The only buffer of the log's device that can hold the block of a session. -/
theorem Inv.not_other (hl : l ≠ x.buf) : ¬ ((s.buf l).dev = logdev ∧ (s.buf l).blockno = x.blockno) := by
  rintro ⟨hd, hb⟩
  obtain ⟨hsame, hblockno, hreal⟩ := h.session u x hx
  exact hl (h.unique l x.buf (by omega) (by omega) (hb.trans hblockno.symm))

/-- A block new to the log pins its buffer. -/
theorem Inv.pin (hout : 0 < s.outstanding) (hnew : x.blockno ∉ s.log)
    (hc : Change s t u x (some x.stage) (some stage) { s.buf x.buf with refcnt := (s.buf x.buf).refcnt + 1 })
    (hlinks : t.links = s.links) (hlog : t.log = s.log ++ [x.blockno])
    (hsame : t.commit = s.commit ∧ t.outstanding = s.outstanding) : Inv logdev t ∧ KeepsBlocks s t := by
  obtain ⟨hdev', hblockno, -⟩ := h.session u x hx
  have hcommit := h.inOp hout
  have hpending : s.pending = s.log := by simp [pending, hcommit]
  have hpending' : t.pending = s.log ++ [x.blockno] := by simp [pending, hsame.1, hcommit, hlog]
  apply h.change hc (h.session u x hx) (hlinks ▸ h.list) (.inl rfl) fun _ => hmine
  · rw [hc.keeps.pins, State.pins, hpending, hpending', hblockno, if_neg fun hold => hnew hold.2,
      if_pos ⟨hdev'.trans hdev, mem_append_right _ mem_cons_self⟩]
    rfl
  · intro l hl
    rw [hc.keeps.pins, State.pins, hpending, hpending']
    simp only [mem_append, mem_singleton, and_or_left, or_iff_left (h.not_other hx hdev hl)]
  · intro b hb
    rw [hpending', mem_append, mem_singleton] at hb
    rcases hb with hold | rfl
    · exact h.pinned b (by rwa [hpending])
    · exact ⟨x.buf, hdev'.trans hdev, hblockno⟩
  · rw [hlog]
    exact Nodup.append h.nodup (nodup_singleton _) (disjoint_singleton.mpr hnew)
  · rw [hsame.1, hsame.2]
    exact h.inOp

/-- An installed block unpins its buffer. -/
theorem Inv.unpin {i : Nat} (hcommit : s.commit = some i) (hentry : s.log[i]? = some x.blockno)
    (hc : Change s t u x (some x.stage) (some stage) { s.buf x.buf with refcnt := (s.buf x.buf).refcnt - 1 })
    (hlinks : t.links = s.links) (hlog : t.log = s.log) (hnext : t.commit = some (i + 1))
    (hout : t.outstanding = s.outstanding) : Inv logdev t ∧ KeepsBlocks s t := by
  obtain ⟨hdev', hblockno, -⟩ := h.session u x hx
  have hpending := pending_unpin hcommit hentry hlog hnext
  have hgone : x.blockno ∉ t.pending := by
    have hnodup : s.pending.Nodup := h.nodup.sublist (drop_sublist _ _)
    rw [hpending, nodup_cons] at hnodup
    exact hnodup.1
  have hpos := h.refcnt_pos (hdev'.trans hdev) (by rw [hblockno, hpending]; exact mem_cons_self)
  apply h.change hc (h.session u x hx) (hlinks ▸ h.list) (.inl rfl) fun _ => hmine
  · rw [hc.keeps.pins, State.pins, hpending, hblockno, if_pos ⟨hdev'.trans hdev, mem_cons_self⟩,
      if_neg fun hold => hgone hold.2]
    show (s.buf x.buf).refcnt - 1 + 1 + 1 = (s.buf x.buf).refcnt + 1 + 0
    omega
  · intro l hl
    rw [hc.keeps.pins, State.pins, hpending]
    simp only [mem_cons, and_or_left, or_iff_right (h.not_other hx hdev hl)]
  · intro b hb
    apply h.pinned b
    rw [hpending]
    exact mem_cons_of_mem _ hb
  · rw [hlog]
    exact h.nodup
  · intro hpos
    rw [hout] at hpos
    rw [h.inOp hpos] at hcommit
    cases hcommit

end

/-! ## The list and its searches -/

section

variable (h : Inv logdev s)
include h

theorem Inv.forwards : Linked s.links s.forwards ∧ s.forwards.Perm (finRange nbuf) ∧
    s.backwards = s.forwards.reverse := by
  obtain ⟨l, hl, hall⟩ := h.list
  have hperm : l.Perm (finRange nbuf) := by
    rw [perm_ext_iff_of_nodup hl.nodup (nodup_finRange nbuf)]
    intro k
    simp [hall k]
  have hlen : l.length < nbuf + 1 := by
    rw [hperm.length_eq, length_finRange]
    exact Nat.lt_succ_self nbuf
  have hforwards : s.forwards = l := follow_eq hl.forward hlen
  have hbackwards : s.backwards = l.reverse := follow_eq hl.backward (by rwa [length_reverse])
  rw [hforwards, hbackwards]
  exact ⟨hl, hperm, rfl⟩

/-- The first loop of `bget` finds the buffer that holds the block. -/
theorem Inv.cached_some {dev b : Nat} (hk : s.cached dev b = some k) :
    (s.buf k).dev = dev ∧ (s.buf k).blockno = b := by
  obtain ⟨hl, hperm, -⟩ := h.forwards
  rw [cached, search_eq hl.forward (by rw [hperm.length_eq, length_finRange]; omega)] at hk
  simpa using find?_some hk

theorem Inv.cached_none {dev b : Nat} (hk : s.cached dev b = none) (k : Slot) (hdev : (s.buf k).dev = dev) :
    (s.buf k).blockno ≠ b := by
  obtain ⟨hl, hperm, -⟩ := h.forwards
  rw [cached, search_eq hl.forward (by rw [hperm.length_eq, length_finRange]; omega), find?_eq_none] at hk
  simpa [hdev] using hk k (hperm.mem_iff.mpr (mem_finRange k))

/-- The second loop finds an unused buffer. -/
theorem Inv.unused_some (hk : s.unused = some k) : (s.buf k).refcnt = 0 := by
  obtain ⟨hl, hperm, -⟩ := h.forwards
  have hlen : s.forwards.reverse.length < nbuf + 1 := by
    rw [length_reverse, hperm.length_eq, length_finRange]
    omega
  rw [unused, search_eq hl.backward hlen] at hk
  simpa using find?_some hk

/-! ## `bget` and `brelse` -/

theorem Inv.hit {dev b : Nat} (hu : s.use u = none) (hk : s.cached dev b = some k)
    (ht : t = (s.bpin k).setUse u (some ⟨dev, b, k, .waiting⟩)) : (1 ≤ dev → Inv logdev t) ∧ KeepsBlocks s t := by
  obtain ⟨hdev, hblockno⟩ := h.cached_some hk
  have hc : Change s t u ⟨dev, b, k, .waiting⟩ none (some .waiting)
      { s.buf k with refcnt := (s.buf k).refcnt + 1 } := by
    subst ht
    exact ⟨hu, rfl, rfl, rfl, rfl, id⟩
  subst ht
  refine ⟨fun hreal => ?_, hc.keeps⟩
  exact (h.touch hc ⟨hdev, hblockno, hreal⟩ h.list (.inl rfl) Bool.noConfusion ⟨rfl, rfl, rfl⟩ rfl).1

omit h in
/-- A session has got buffer `k` for a block that was not cached. -/
theorem recycle_cases {dev b : Nat} (ht : t = (s.recycle k dev b).setUse u (some ⟨dev, b, k, .waiting⟩)) :
    t.buf k = { s.buf k with dev, blockno := b, valid := false, refcnt := 1 } ∧ (∀ l ≠ k, t.buf l = s.buf l) ∧
      t.use = update s.use u (some ⟨dev, b, k, .waiting⟩) ∧
      t.disk = s.disk ∧ t.left = s.left ∧ t.pending = s.pending := by
  subst ht
  exact ⟨setBuf_self, fun l hl => setBuf_of_ne hl, rfl, rfl, rfl, rfl⟩

/-- A block that is not cached gets an unused buffer. -/
theorem Inv.miss {dev b : Nat} (hu : s.use u = none) (hreal : 1 ≤ dev) (hnone : s.cached dev b = none)
    (hk : s.unused = some k) (ht : t = (s.recycle k dev b).setUse u (some ⟨dev, b, k, .waiting⟩)) : Inv logdev t := by
  have hzero : s.refs k = 0 ∧ s.pins logdev k = 0 := by
    have hcount := h.refcnt k
    rw [h.unused_some hk] at hcount
    omega
  obtain ⟨hself, hother, huse, -, -, hpending⟩ := recycle_cases ht
  have hrefs := refs_change (x := ⟨dev, b, k, .waiting⟩) (p := none) (q := some .waiting) hu huse
  -- a pending block of the log's device is cached, so it is not the new one
  have hnew : ¬ (dev = logdev ∧ b ∈ s.pending) := by
    rintro ⟨rfl, hmem⟩
    obtain ⟨l, hdev, hblockno⟩ := h.pinned b hmem
    exact h.cached_none hnone l hdev hblockno
  have hback : ∀ v y, t.use v = some y → (v = u ∧ y = ⟨dev, b, k, .waiting⟩) ∨ (s.use v = some y ∧ y.buf ≠ k) := by
    intro v y hy
    rw [huse] at hy
    rcases eq_or_ne v u with rfl | hv
    · rw [update_self] at hy
      cases hy
      exact .inl ⟨rfl, rfl⟩
    · rw [update_of_ne hv] at hy
      exact .inr ⟨hy, ne_buf hzero.1 hy⟩
  constructor
  · rw [ht]
    exact h.list
  · intro l m
    by_cases hl : l = k <;> by_cases hm : m = k
    · intros
      rw [hl, hm]
    · subst hl
      rw [hself, hother m hm]
      intro _ hdev hblockno
      exact absurd hblockno.symm (h.cached_none hnone m hdev.symm)
    · subst hm
      rw [hself, hother l hl]
      intro _ hdev hblockno
      exact absurd hblockno (h.cached_none hnone l hdev)
    · rw [hother l hl, hother m hm]
      exact h.unique l m
  · intro v y hy
    rcases hback v y hy with ⟨-, rfl⟩ | ⟨hold, hne⟩
    · simpa [hself] using hreal
    · rw [hother _ hne]
      exact h.session v y hold
  · intro v y hy hholds
    rcases hback v y hy with ⟨-, rfl⟩ | ⟨hold, hne⟩
    · cases hholds
    · rw [hother _ hne]
      exact h.lock v y hold hholds
  · intro l
    rw [pins, hpending]
    rcases eq_or_ne l k with rfl | hl
    · simp only [hself, if_neg hnew]
      exact (hrefs.1.trans (congrArg (· + 1) hzero.1)).symm
    · rw [hother l hl, hrefs.2 l hl]
      exact h.refcnt l
  · intro b' hb'
    rw [hpending] at hb'
    obtain ⟨l, hdev, hblockno⟩ := h.pinned b' hb'
    -- a pinned buffer has a reference, so it is not the recycled one
    have hl : l ≠ k := by
      rintro rfl
      have hpos := h.refcnt_pos hdev (by rwa [hblockno])
      rw [h.unused_some hk] at hpos
      exact absurd hpos (Nat.lt_irrefl 0)
    rw [← hother l hl] at hdev hblockno
    exact ⟨l, hdev, hblockno⟩
  · rw [ht]
    exact h.nodup
  · rw [ht]
    exact h.inOp

end

/-- Moving a buffer to the front keeps the list. -/
theorem linked_moveFront {L : Links Slot} (h : ∃ l, Linked L l ∧ ∀ k, k ∈ l) (k : Slot) :
    ∃ l, Linked ((L.remove k).insertFront k) l ∧ ∀ k, k ∈ l := by
  obtain ⟨l, hl, hall⟩ := h
  obtain ⟨l₁, l₂, rfl⟩ := append_of_mem (hall k)
  have hnodup := hl.nodup
  rw [nodup_append, nodup_cons] at hnodup
  obtain ⟨-, ⟨hk₂, -⟩, hdisjoint⟩ := hnodup
  have hk : k ∉ l₁ ++ l₂ := by
    rw [mem_append, not_or]
    exact ⟨fun hk₁ => hdisjoint k hk₁ k mem_cons_self rfl, hk₂⟩
  refine ⟨k :: (l₁ ++ l₂), hl.remove.insertFront hk, fun j => ?_⟩
  have hj := hall j
  simp only [mem_append, mem_cons] at hj ⊢
  tauto

/-- `log_write` absorbs the block or adds it to the log. -/
theorem logWrite_eq_some (h : s.logWrite k = some t) : 0 < s.outstanding ∧
    ((s.buf k).blockno ∈ s.log ∧ t = s ∨
      (s.buf k).blockno ∉ s.log ∧ t = { s.bpin k with log := s.log ++ [(s.buf k).blockno] }) := by
  rw [logWrite] at h
  split at h
  · cases h
  split at h
  · cases h
  next hout =>
  refine ⟨by omega, ?_⟩
  split at h
  next hmem => exact .inl ⟨hmem, (some.inj h).symm⟩
  next hnew => exact .inr ⟨hnew, (some.inj h).symm⟩

section

variable (h : Inv logdev s) (hx : s.use u = some x)
include h hx

theorem Inv.drop : Inv logdev ((s.brelse x.buf).setUse u none) ∧ KeepsBlocks s ((s.brelse x.buf).setUse u none) := by
  have hpos := refs_pos hx
  have hcount := h.refcnt x.buf
  have hless : (s.buf x.buf).refcnt - 1 + 1 = (s.buf x.buf).refcnt + 0 := by omega
  rw [brelse]
  split
  · exact h.touch (p := some x.stage) (q := none) ⟨hx, rfl, rfl, rfl, rfl, id⟩ (h.session u x hx)
      (linked_moveFront h.list x.buf) (.inl rfl) Bool.noConfusion ⟨rfl, rfl, rfl⟩ hless
  · exact h.touch (p := some x.stage) (q := none) ⟨hx, rfl, rfl, rfl, rfl, id⟩ (h.session u x hx) h.list (.inl rfl)
      Bool.noConfusion ⟨rfl, rfl, rfl⟩ hless

/-! ## Every step -/

/-- The lock of the buffer of a session that reads is its own. -/
theorem Inv.lock_of_reads (hreads : x.stage.reads = true) : (s.buf x.buf).lock = some u := by
  exact h.lock u x hx (Stage.holds_of_reads hreads)

/-- The session that holds the lock goes on. -/
theorem Inv.own (hmine : (s.buf x.buf).lock = some u) (hc : Change s t u x (some x.stage) (some stage) b)
    (hsame : t.links = s.links ∧ t.log = s.log ∧ t.commit = s.commit ∧ t.outstanding = s.outstanding)
    (hlock : stage.holds = true → b.lock = some u) (hcount : b.refcnt = (s.buf x.buf).refcnt) :
    Inv logdev t ∧ KeepsBlocks s t :=
  h.touch hc (h.session u x hx) (hsame.1 ▸ h.list) (.inr (.inr hmine)) hlock hsame.2 (congrArg (· + 1) hcount)

theorem Inv.act {o : Op D} (hact : act logdev s u x o = some t) : Inv logdev t ∧ KeepsBlocks s t := by
  obtain ⟨hdev, hblockno, hreal⟩ := h.session u x hx
  have hsame : s.buf = update s.buf x.buf (s.buf x.buf) := (update_eq_self ..).symm
  cases o with
  | acquiresleep =>
    obtain ⟨⟨-, hfree⟩, rfl⟩ := ite_some_none_eq_some.mp hact
    exact h.touch (p := some x.stage) (q := some .locked) ⟨hx, rfl, rfl, rfl, rfl, id⟩ ⟨hdev, hblockno, hreal⟩ h.list
      (.inr (.inl hfree)) (fun _ => rfl) ⟨rfl, rfl, rfl⟩ rfl
  | bread =>
    obtain ⟨hlocked, rfl⟩ := ite_some_none_eq_some.mp hact
    have hmine := h.lock u x hx (hlocked ▸ rfl)
    rw [bread]
    split
    · exact h.own hx hmine ⟨hx, rfl, hsame, rfl, rfl, id⟩ ⟨rfl, rfl, rfl, rfl⟩ (fun _ => hmine) rfl
    · exact h.own hx hmine ⟨hx, rfl, rfl, rfl, rfl, fun _ => rfl⟩ ⟨rfl, rfl, rfl, rfl⟩ (fun _ => hmine) rfl
  | modify v =>
    obtain ⟨hreads, rfl⟩ := ite_some_none_eq_some.mp hact
    have hmine := h.lock_of_reads hx hreads
    exact h.own hx hmine ⟨hx, rfl, rfl, rfl, rfl, id⟩ ⟨rfl, rfl, rfl, rfl⟩ (fun _ => hmine) rfl
  | logWrite =>
    obtain ⟨⟨hreads, hlogdev⟩, ht⟩ := ite_none_right_eq_some.mp hact
    obtain ⟨t', ht', rfl⟩ := map_eq_some_iff.mp ht
    have hmine := h.lock_of_reads hx hreads
    rcases logWrite_eq_some ht' with ⟨hout, ⟨-, rfl⟩ | ⟨hnew, rfl⟩⟩
    · exact h.own hx hmine ⟨hx, rfl, hsame, rfl, rfl, id⟩ ⟨rfl, rfl, rfl, rfl⟩ (fun _ => hmine) rfl
    · rw [hblockno] at hnew
      exact h.pin hx hlogdev hmine hout hnew ⟨hx, rfl, rfl, rfl, rfl, id⟩ rfl
        (congrArg (fun b => s.log ++ [b]) hblockno) ⟨rfl, rfl⟩
  | bwrite =>
    obtain ⟨hreads, rfl⟩ := ite_some_none_eq_some.mp hact
    have hmine := h.lock_of_reads hx hreads
    exact h.own hx hmine ⟨hx, rfl, hsame, rfl, rfl, id⟩ ⟨rfl, rfl, rfl, rfl⟩ (fun _ => hmine) rfl
  | releasesleep =>
    obtain ⟨hstage, rfl⟩ := ite_some_none_eq_some.mp hact
    have hmine := h.lock u x hx (by rcases hstage with hs | hs <;> rw [hs] <;> rfl)
    exact h.own hx hmine ⟨hx, rfl, rfl, rfl, rfl, id⟩ ⟨rfl, rfl, rfl, rfl⟩ Bool.noConfusion rfl
  | brelse =>
    obtain ⟨-, rfl⟩ := ite_some_none_eq_some.mp hact
    exact h.drop hx
  | bunpin =>
    rw [Buffers.act] at hact
    split at hact
    next i hcommit =>
      obtain ⟨⟨hstage, hlogdev, hentry⟩, rfl⟩ := ite_some_none_eq_some.mp hact
      exact h.unpin hx hlogdev (h.lock u x hx (hstage ▸ rfl)) hcommit hentry ⟨hx, rfl, rfl, rfl, rfl, id⟩ rfl rfl rfl
        rfl
    · cases hact

end

/-- The log changes and the same blocks are pending. -/
theorem Inv.setLog {log : List Nat} {outstanding : Nat} {commit : Option Nat} (h : Inv logdev s)
    (hpending : pending { s with log, outstanding, commit } = s.pending) (hnodup : log.Nodup)
    (hinOp : 0 < outstanding → commit = none) : Inv logdev { s with log, outstanding, commit } := by
  refine ⟨h.list, h.unique, h.session, h.lock, fun k => ?_, fun b hb => ?_, hnodup, hinOp⟩
  · rw [pins, hpending]
    exact h.refcnt k
  · rw [hpending] at hb
    exact h.pinned b hb

/-- `bget` finds the block or recycles a buffer. -/
theorem next_bget {dev b : Nat} (h : next logdev s (.bget u dev b) = some t) : s.use u = none ∧
    ((∃ k, s.cached dev b = some k ∧ t = (s.bpin k).setUse u (some ⟨dev, b, k, .waiting⟩)) ∨
      s.cached dev b = none ∧
        ∃ k, s.unused = some k ∧ t = (s.recycle k dev b).setUse u (some ⟨dev, b, k, .waiting⟩)) := by
  rw [next] at h
  split at h
  next hu =>
    obtain ⟨r, hr, rfl⟩ := map_eq_some_iff.mp h
    refine ⟨hu, ?_⟩
    rw [bget] at hr
    split at hr
    next k hk =>
      cases hr
      exact .inl ⟨k, hk, rfl⟩
    next hnone =>
    split at hr
    next k hk =>
      cases hr
      exact .inr ⟨hnone, k, hk, rfl⟩
    · cases hr
  · cases h

/-- Every step on real devices keeps the invariant, and no step recycles a buffer with references. -/
theorem Inv.next {a : Action n D} (h : Inv logdev s) (hnext : next logdev s a = some t) :
    (RealDevices s a → Inv logdev t) ∧ ∀ k, 0 < (s.buf k).refcnt → (t.buf k).dev = (s.buf k).dev ∧
      (t.buf k).blockno = (s.buf k).blockno ∧ ((s.buf k).valid = true → (t.buf k).valid = true) := by
  cases a with
  | bget u dev b =>
    obtain ⟨hu, ⟨k, hk, rfl⟩ | ⟨hnone, k, hk, rfl⟩⟩ := next_bget hnext
    · exact (h.hit hu hk rfl).imp_right fun hkeeps k _ => hkeeps k
    · refine ⟨fun hreal => h.miss hu hreal hnone hk rfl, fun l hpos => ?_⟩
      have hl : l ≠ k := by
        rintro rfl
        rw [h.unused_some hk] at hpos
        exact absurd hpos (Nat.lt_irrefl 0)
      have hbuf : ((s.recycle k dev b).setUse u (some ⟨dev, b, k, .waiting⟩)).buf l = s.buf l := setBuf_of_ne hl
      rw [hbuf]
      exact ⟨rfl, rfl, id⟩
  | op u o =>
    obtain ⟨x, hx, hact⟩ := bind_eq_some_iff.mp hnext
    exact (h.act hx hact).imp (fun hinv _ => hinv) fun hkeeps k _ => hkeeps k
  | beginOp =>
    obtain ⟨hcond, ht⟩ := ite_none_left_eq_some.mp hnext
    cases ht
    rw [not_or, not_isSome_iff_eq_none] at hcond
    exact ⟨fun _ => h.setLog rfl h.nodup fun _ => hcond.1, fun k _ => ⟨rfl, rfl, id⟩⟩
  | endOp =>
    obtain ⟨hout, ht⟩ := ite_none_left_eq_some.mp hnext
    have hcommit := h.inOp (Nat.pos_of_ne_zero hout)
    split at ht
    · -- the last operation starts the commit, with no entry installed yet
      cases ht
      refine ⟨fun _ => h.setLog ?_ h.nodup fun hpos => absurd hpos (Nat.lt_irrefl 0), fun k _ => ⟨rfl, rfl, id⟩⟩
      simp [pending, hcommit]
    · cases ht
      exact ⟨fun _ => h.setLog rfl h.nodup fun _ => hcommit, fun k _ => ⟨rfl, rfl, id⟩⟩
  | clear =>
    obtain ⟨hcommit, rfl⟩ := ite_some_none_eq_some.mp hnext
    refine ⟨fun _ => h.setLog ?_ nodup_nil fun _ => rfl, fun k _ => ⟨rfl, rfl, id⟩⟩
    simp [pending, hcommit]

/-! ## The start -/

theorem linked_foldl {L : Links Slot} {l : List Slot} (h : Linked L l) (ks : List Slot) (hks : (ks ++ l).Nodup) :
    Linked (ks.foldl Links.insertFront L) (ks.reverse ++ l) := by
  induction ks generalizing L l with
  | nil => exact h
  | cons k ks ih =>
    rw [cons_append, nodup_cons, mem_append, not_or] at hks
    rw [foldl_cons, reverse_cons, append_assoc]
    apply ih (h.insertFront hks.1.2)
    rw [nodup_middle, nodup_cons, mem_append, not_or]
    exact hks

theorem linked_binit : Linked binit (finRange nbuf).reverse := by
  have h := linked_foldl linked_empty (finRange nbuf) (by simpa using nodup_finRange nbuf)
  rwa [append_nil] at h

theorem Inv.initial (hinit : Initial s) : Inv logdev s := by
  obtain ⟨data, disk, rfl⟩ := hinit
  constructor
  · exact ⟨_, linked_binit, fun k => by simp⟩
  · intro k l hdev
    exact absurd hdev (Nat.not_succ_le_zero 0)
  · intro u x hx
    cases hx
  · intro u x hx
    cases hx
  · intro k
    have hrefs : (initial (n := n) data disk).refs k = 0 := by
      apply tally_eq_zero.mpr
      intro u _ heq
      cases heq
    rw [hrefs]
    simp [pins, pending, initial]
  · intro b hb
    cases hb
  · exact nodup_nil
  · intro _
    rfl

/-! ## The order of recycling

`brelse` moves a buffer that nobody uses any more to the front of the list, and the second loop of `bget` goes
through the list from its end. With a clock, the list is in the order of the last releases. -/

/-- The buffer whose last reference the step gives back in `brelse`. -/
def freed (s : State n D) : Action n D → Option Slot
  | .op u .brelse => (s.use u).bind fun x => if ((s.bunpin x.buf).buf x.buf).refcnt = 0 then some x.buf else none
  | _ => none

/-- A cache with a clock and the times of the last release of the buffers. -/
structure Timed (n : Nat) (D : Type) where
  cache : State n D
  clock : Nat
  released : Slot → Nat

/-- After `binit` no buffer has been released. -/
def Timed.Init (t : Timed n D) : Prop := Initial t.cache ∧ ∀ k, t.released k = 0

def Timed.next (logdev : Nat) (t : Timed n D) (a : Action n D) : Option (Timed n D) :=
  (Buffers.next logdev t.cache a).map fun s =>
    ⟨s, t.clock + 1, (freed t.cache a).elim t.released fun k => update t.released k (t.clock + 1)⟩

/-- The list is in the order of the releases, the last one first. -/
def Timed.Ordered (t : Timed n D) : Prop :=
  (∀ k, t.released k ≤ t.clock) ∧ ∃ l, Linked t.cache.links l ∧ (∀ k, k ∈ l) ∧
    l.Pairwise fun a b => t.released b ≤ t.released a

/-- Only a release changes the list. -/
theorem next_links {s s' : State n D} {a : Action n D} (h : next logdev s a = some s') :
    s'.links = (freed s a).elim s.links fun k => (s.links.remove k).insertFront k := by
  cases a with
  | bget u dev b => grind [next, State.bget, bpin, recycle, setBuf, setUse, freed]
  | op u o =>
    obtain ⟨x, hx, hact⟩ := bind_eq_some_iff.mp h
    cases o with
    | brelse => grind [act, State.brelse, State.bunpin, setBuf, setUse, freed]
    | bread => grind [act, State.bread, setBuf, setUse, freed]
    | logWrite => grind [act, State.logWrite, bpin, leave, setBuf, setUse, freed]
    | acquiresleep | modify | bwrite | releasesleep | bunpin =>
      grind [act, State.bwrite, State.bunpin, leave, setBuf, setUse, freed]
  | beginOp | endOp | clear => grind [next, freed]

theorem Timed.Ordered.next {t t' : Timed n D} {a : Action n D} (h : t.Ordered) (hnext : t.next logdev a = some t') :
    t'.Ordered := by
  obtain ⟨hclock, l, hl, hall, hsorted⟩ := h
  obtain ⟨s, hs, rfl⟩ := map_eq_some_iff.mp hnext
  have hlinks := next_links hs
  have hpast : ∀ k, t.released k ≤ t.clock + 1 := fun k => (hclock k).trans (Nat.le_succ _)
  cases hf : freed t.cache a with
  | none =>
    rw [hf] at hlinks
    exact ⟨hpast, l, hlinks ▸ hl, hall, hsorted⟩
  | some k =>
    rw [hf] at hlinks
    obtain ⟨l₁, l₂, rfl⟩ := append_of_mem (hall k)
    have hk : k ∉ l₁ ++ l₂ := (nodup_cons.mp (nodup_middle.mp hl.nodup)).1
    have hne : ∀ {j}, j ∈ l₁ ++ l₂ → j ≠ k := fun hj => ne_of_mem_of_not_mem hj hk
    refine ⟨fun j => ?_, k :: (l₁ ++ l₂), hlinks ▸ hl.remove.insertFront hk, fun j => ?_, ?_⟩
    · by_cases hjk : j = k
      · simp [hjk]
      · simpa [hjk] using hpast j
    · exact perm_middle.mem_iff.mp (hall j)
    · -- the buffer moved to the front has the latest time, the others keep theirs
      have hrest := hsorted.sublist ((sublist_cons_self k l₂).append_left l₁)
      refine pairwise_cons.mpr ⟨fun j hj => ?_, hrest.imp_of_mem fun hi hj hle => ?_⟩
      · simpa [hne hj] using hpast j
      · simpa [hne hi, hne hj] using hle

/-- Where `bget` does not find the block and some buffer is unused, it recycles the unused buffer that was
released longest ago. -/
theorem bget_recycles_oldest {t : Timed n D} (h : Reachable Timed.Init (Timed.next logdev) noGuard t)
    {dev blockno : Nat} (hmiss : t.cache.cached dev blockno = none) {j : Slot} (hj : (t.cache.buf j).refcnt = 0) :
    ∃ k s, t.cache.bget dev blockno = some (k, s) ∧ (t.cache.buf k).refcnt = 0 ∧ t.released k ≤ t.released j := by
  have hinv : t.Ordered := by
    apply h.invariant Timed.Ordered
    · rintro ⟨s, clock, released⟩ ⟨⟨data, disk, rfl⟩, h0⟩
      exact ⟨fun k => (h0 k).trans_le (Nat.zero_le _), _, linked_binit, by simp,
        pairwise_of_forall fun a b => (h0 b).trans_le (Nat.zero_le _)⟩
    · exact fun t a t' ht _ hnext => ht.next hnext
  obtain ⟨-, l, hl, hall, hsorted⟩ := hinv
  have hlen : l.length ≤ nbuf := by simpa using hl.nodup.length_le_card
  have hfind : t.cache.unused = l.reverse.find? fun k => (t.cache.buf k).refcnt = 0 :=
    search_eq hl.backward (by simpa using Nat.lt_succ_of_le hlen)
  have hsome : (l.reverse.find? fun k => (t.cache.buf k).refcnt = 0).isSome :=
    find?_isSome.mpr ⟨j, by simp [hall, hj]⟩
  obtain ⟨k, hk⟩ := isSome_iff_exists.mp hsome
  obtain ⟨h0, l₁, l₂, heq, hused⟩ := find?_eq_some_iff_append.mp hk
  refine ⟨k, _, by rw [State.bget, hmiss, hfind, hk], by simpa using h0, ?_⟩
  -- the buffers passed before are in use, and those after were released later
  have hmem : j ∈ l₁ ++ k :: l₂ := heq ▸ mem_reverse.mpr (hall j)
  rw [← pairwise_reverse, heq, pairwise_append, pairwise_cons] at hsorted
  rcases mem_append.mp hmem with hl₁ | hl₂
  · simpa [hj] using hused j hl₁
  · rcases mem_cons.mp hl₂ with rfl | hl₂
    · exact Nat.le_refl _
    · exact hsorted.2.1.1 j hl₂

/-- A buffer is used and released, and another block is read. -/
theorem bget_recycles_oldest_second : ∃ (t : Timed 1 Nat) (k : Slot) (s : State 1 Nat),
    t.released 0 = 5 ∧ t.cache.bget 1 6 = some (k, s) ∧ t.released k ≤ t.released 0 := by
  have hrun : (run (Timed.next 1) ⟨initial 0 fun _ => 0, 0, fun _ => 0⟩ [.bget (0 : Fin 1) 1 5,
      .op 0 .acquiresleep, .op 0 .bread, .op 0 .releasesleep, .op 0 .brelse]).map (fun t =>
        (t.cache.cached 1 6, (t.cache.buf 0).refcnt, t.released 0)) = some (none, 0, 5) := by decide +kernel
  obtain ⟨t, ht, hres⟩ := map_eq_some_iff.mp hrun
  simp only [Prod.mk.injEq] at hres
  have hinit : Timed.Init (⟨initial 0 fun _ => 0, 0, fun _ => 0⟩ : Timed 1 Nat) := ⟨⟨0, _, rfl⟩, fun _ => rfl⟩
  obtain ⟨k, s, hk, -, hle⟩ := bget_recycles_oldest (reachable_run (.start hinit) ht) hres.1 hres.2.1
  exact ⟨t, k, s, hres.2.2, hk, hle⟩

end Xv6Lab.Buffers
