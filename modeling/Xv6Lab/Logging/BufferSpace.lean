import Mathlib.Algebra.BigOperators.Ring.Finset
import Xv6Lab.Lib.RefCache
import Xv6Lab.Lib.Tally
import Xv6Lab.Logging.BufferCache

/-!
# The buffer cache runs out of buffers

Every block in the log pins a buffer until it is installed, and `NBUF` equals `LOGBLOCKS`. Three operations
that write ten blocks each fill the log and pin all buffers; the commit then needs a buffer for the first
block of the log area and `bget` panics (`commit_without_buffers`). `bget` finds a buffer as long as the
blocks in the log and two buffers for each running operation fit into the cache, and the log is shorter than
the cache during a commit (`bget_finds_buffer`).
-/

namespace Xv6Lab.Logging.BufferCache

open Function Lib.Transition Lib.RefCache Lib.Tally Cache Option List Multiset Finset Io BufferCache.Pc

variable {P : Type} {c c' : Cache P} {pins : Multiset Nat} {refs : Multiset Slot} {x y : Slot} {b : Nat}
  {todo : List Cmd} {n : Int} {pc : P → Pc}

/-! ## The cache -/

/-- The block a buffer holds. -/
def Cache.key (c : Cache P) (x : Slot) : Option Nat :=
  if (c.buf x).dev = rootdev then some (c.buf x).blockno else none

def Cache.table (c : Cache P) : Table Slot Nat := ⟨c.key, fun x => (c.buf x).refcnt⟩

/-- All buffers are in the list, and every reference is accounted for. -/
structure CacheOk (c : Cache P) (pins : Multiset Nat) (refs : Multiset Slot) : Prop where
  order : ∀ x, x ∈ c.order
  accounted : Accounted c.table pins refs

theorem key_eq_some : c.key x = some b ↔ (c.buf x).dev = rootdev ∧ (c.buf x).blockno = b := by
  unfold key
  split
  next h => exact ⟨fun heq => ⟨h, some_inj.mp heq⟩, fun heq => congrArg some heq.2⟩
  next h => exact ⟨fun heq => absurd heq (some_ne_none b).symm, fun heq => absurd heq.1 h⟩

theorem setBuf_self (c : Cache P) (x : Slot) (d : Buf P) : (c.setBuf x d).buf x = d :=
  update_self ..

theorem setBuf_ne (c : Cache P) (d : Buf P) (h : y ≠ x) : (c.setBuf x d).buf y = c.buf y :=
  update_of_ne h ..

theorem key_setBuf {d : Buf P} (hdev : d.dev = (c.buf x).dev) (hb : d.blockno = (c.buf x).blockno) :
    (c.setBuf x d).key = c.key := by
  funext y
  unfold key
  rcases eq_or_ne y x with rfl | hy
  · rw [setBuf_self, hdev, hb]
  · rw [setBuf_ne c d hy]

/-- The block of a buffer with the same key. -/
theorem key_eq_iff (h : c'.key x = c.key x) (hx : (c.buf x).dev = rootdev) :
    (c'.buf x).dev = rootdev ∧ (c'.buf x).blockno = (c.buf x).blockno :=
  key_eq_some.mp (h.trans (key_eq_some.mpr ⟨hx, rfl⟩))

theorem cached_eq_some (h : c.cached b = some x) : c.key x = some b := by
  have hx := find?_some h
  exact key_eq_some.mpr (of_decide_eq_true hx)

theorem CacheOk.cached_eq_none (h : CacheOk c pins refs) (hn : c.cached b = none) (x : Slot) :
    c.key x ≠ some b := fun hkey =>
  absurd (decide_eq_true (key_eq_some.mp hkey)) (find?_eq_none.mp hn x (h.order x))

theorem unused_eq_some (h : c.unused = some x) : (c.buf x).refcnt = 0 := by
  have hx := find?_some h
  exact of_decide_eq_true hx

section

variable (h : CacheOk c pins refs)
include h

theorem CacheOk.bpin_hit (x : Slot) : CacheOk (c.bpin x) pins (x ::ₘ refs) := by
  refine ⟨h.order, h.accounted.hit ?_ ?_ fun y hy => ?_⟩
  · exact key_setBuf rfl rfl
  · exact congrArg Buf.refcnt (setBuf_self ..)
  · exact congrArg Buf.refcnt (setBuf_ne _ _ hy)

/-- `bget` adds a reference to the buffer of the block and keeps the blocks of the buffers in use. -/
theorem CacheOk.bget (hb : c.bget b = some (x, c')) :
    CacheOk c' pins (x ::ₘ refs) ∧ c'.key x = some b ∧ ∀ y, 0 < (c.buf y).refcnt → c'.key y = c.key y := by
  unfold Cache.bget at hb
  split at hb
  next z hz =>
    cases hb
    have hkey : (c.bpin x).key = c.key := key_setBuf rfl rfl
    exact ⟨h.bpin_hit x, hkey ▸ cached_eq_some hz, fun y _ => congrFun hkey y⟩
  next hnone =>
    split at hb
    next z hz =>
      cases hb
      have hzero := unused_eq_some hz
      have hself : (c.recycle x b).key x = some b := by
        refine key_eq_some.mpr ?_
        rw [recycle, setBuf_self]
        exact ⟨rfl, rfl⟩
      have hne : ∀ y ≠ x, (c.recycle x b).buf y = c.buf y := fun y hy => setBuf_ne _ _ hy
      have hkeys : ∀ y ≠ x, (c.recycle x b).key y = c.key y := fun y hy => by
        rw [key, key, hne y hy]
      refine ⟨⟨h.order, h.accounted.recycle hzero (h.cached_eq_none hnone) hself hkeys ?_ ?_⟩, hself, ?_⟩
      · exact congrArg Buf.refcnt (setBuf_self ..)
      · exact fun y hy => congrArg Buf.refcnt (hne y hy)
      intro y hy
      refine hkeys y fun heq => ?_
      rw [heq, hzero] at hy
      exact absurd hy (lt_irrefl 0)
    · cases hb

/-- `bget` finds a buffer if the block is in the cache or a buffer is left. -/
theorem CacheOk.bget_ne_none (hroom : (∃ x, c.key x = some b) ∨ pins.card + refs.card < nbuf) : c.bget b ≠ none := by
  unfold Cache.bget
  cases hc : c.cached b with
  | some x => exact some_ne_none _
  | none =>
    have hfree : ∃ x, (c.buf x).refcnt = 0 := by
      rcases hroom with ⟨x, hx⟩ | hlt
      · exact absurd hx (h.cached_eq_none hc x)
      · exact h.accounted.exists_unused ((Fintype.card_fin nbuf).symm ▸ hlt)
    obtain ⟨x, hx⟩ := hfree
    cases hu : c.unused with
    | some y => exact some_ne_none _
    | none =>
      exact absurd (decide_eq_true hx) (find?_eq_none.mp hu x (mem_reverse.mpr (h.order x)))

theorem CacheOk.bpin (hx : c.key x = some b) : CacheOk (c.bpin x) (b ::ₘ pins) refs := by
  refine ⟨h.order, h.accounted.pin hx ?_ ?_ fun y hy => ?_⟩
  · exact key_setBuf rfl rfl
  · exact congrArg Buf.refcnt (setBuf_self ..)
  · exact congrArg Buf.refcnt (setBuf_ne _ _ hy)

end

theorem key_bunpin (c : Cache P) (x : Slot) : (c.bunpin x).key = c.key := key_setBuf rfl rfl

theorem CacheOk.bunpin (h : CacheOk c pins refs) (hb : b ∈ pins) (hx : c.key x = some b) :
    CacheOk (c.bunpin x) (pins.erase b) refs := by
  refine ⟨h.order, h.accounted.unpin hb hx (key_bunpin c x) ?_ fun y hy => ?_⟩
  · exact congrArg Buf.refcnt (setBuf_self ..)
  · exact congrArg Buf.refcnt (setBuf_ne _ _ hy)

theorem brelse_buf (c : Cache P) (x : Slot) : (c.brelse x).buf = (c.bunpin x).buf := by
  unfold brelse
  split <;> rfl

theorem mem_brelse_order (c : Cache P) (hy : y ∈ c.order) : y ∈ (c.brelse x).order := by
  unfold brelse
  split
  · rcases eq_or_ne y x with rfl | hne
    · exact mem_cons_self
    · exact List.mem_cons_of_mem _ ((List.mem_erase_of_ne hne).mpr hy)
  · exact hy

theorem key_brelse (c : Cache P) (x : Slot) : (c.brelse x).key = c.key := by
  funext y
  rw [← key_bunpin c x, key, key, brelse_buf]

theorem CacheOk.brelse (h : CacheOk c pins refs) (hx : x ∈ refs) : CacheOk (c.brelse x) pins (refs.erase x) := by
  refine ⟨fun y => mem_brelse_order c (h.order y), h.accounted.drop hx (key_brelse c x) ?_ fun y hy => ?_⟩
  · show ((c.brelse x).buf x).refcnt = _
    rw [brelse_buf]
    exact congrArg Buf.refcnt (setBuf_self ..)
  · show ((c.brelse x).buf y).refcnt = _
    rw [brelse_buf]
    exact congrArg Buf.refcnt (setBuf_ne _ _ hy)

theorem key_setLock (c : Cache P) (x : Slot) (l : Option P) : (c.setLock x l).key = c.key :=
  key_setBuf rfl rfl

theorem CacheOk.setLock (h : CacheOk c pins refs) (x : Slot) (l : Option P) : CacheOk (c.setLock x l) pins refs := by
  have htable : (c.setLock x l).table = c.table := by
    refine congrArg₂ Table.mk (key_setLock c x l) (funext fun y => ?_)
    show ((c.setBuf x _).buf y).refcnt = _
    rcases eq_or_ne y x with rfl | hy
    · rw [setBuf_self]
    · rw [setBuf_ne _ _ hy]
  exact ⟨h.order, htable ▸ h.accounted⟩

/-! ## The commit as a list of buffer operations -/

/-- The operations can be carried out by a process that has references to the buffers of the blocks `hold`
while the blocks `pin` are pinned and `log.lh.n` is `n`: a block is read with no other reference or is pinned,
what is released or unpinned is there, and nothing is left at the end. -/
def Safe : List Cmd → Multiset Nat → List Nat → Int → Prop
  | [], _, _, _ => False
  | .bread b :: todo, hold, pin, n => (hold = 0 ∨ b ∈ pin) ∧ Safe todo (b ::ₘ hold) pin n
  | .brelse b :: todo, hold, pin, n => b ∈ hold ∧ Safe todo (hold.erase b) pin n
  | .bunpin b :: todo, hold, pin, n => b ∈ pin ∧ b ∈ hold ∧ Safe todo hold (pin.erase b) n
  | .clearN :: todo, hold, pin, _ => pin = [] ∧ Safe todo hold pin 0
  | .finish :: _, hold, pin, n => hold = 0 ∧ pin = [] ∧ n = 0

theorem safe_writeHead (start : Nat) {pin : List Nat}
    (h : Safe todo 0 pin n) : Safe (writeHead start ++ todo) 0 pin n := by
  refine ⟨.inl rfl, mem_cons_self _ _, ?_⟩
  rw [Multiset.erase_cons_head]
  exact h

theorem safe_writeLog (start : Nat) {pin : List Nat}
    (h : Safe todo 0 pin n) : ∀ (entries : List Nat) (k : Nat), (∀ b ∈ entries, b ∈ pin) →
      Safe ((entries.zipIdx k).flatMap (fun (b, i) =>
        [.bread (start + i + 1), .bread b, .brelse b, .brelse (start + i + 1)]) ++ todo) 0 pin n
  | [], _, _ => h
  | b :: entries, k, hsub => by
      have hrest := safe_writeLog start h entries (k + 1) fun c hc => hsub c (mem_cons_of_mem b hc)
      rw [zipIdx_cons, flatMap_cons, append_assoc]
      refine ⟨.inl rfl, .inr (hsub b mem_cons_self), mem_cons_self _ _, ?_⟩
      rw [Multiset.erase_cons_head]
      refine ⟨mem_cons_self _ _, ?_⟩
      rw [Multiset.erase_cons_head]
      exact hrest

theorem safe_installTrans (start : Nat) (h : Safe todo 0 [] n) :
    ∀ (entries : List Nat) (k : Nat),
      Safe ((entries.zipIdx k).flatMap (fun (b, i) =>
        [.bread (start + i + 1), .bread b, .bunpin b, .brelse (start + i + 1), .brelse b]) ++ todo)
        0 entries n
  | [], _ => h
  | b :: entries, k => by
      have hrest := safe_installTrans start h entries (k + 1)
      rw [zipIdx_cons, flatMap_cons, append_assoc]
      have hmem : b ∈ (b ::ₘ (start + k + 1) ::ₘ (0 : Multiset Nat)).erase (start + k + 1) := by
        rcases eq_or_ne b (start + k + 1) with heq | hne
        · rw [← heq, Multiset.erase_cons_head]
          exact mem_cons_self _ _
        · exact (Multiset.mem_erase_of_ne hne).mpr (Multiset.mem_cons_self _ _)
      refine ⟨.inl rfl, .inr mem_cons_self, mem_cons_self, mem_cons_self _ _,
        mem_cons_of_mem (mem_cons_self _ _), hmem, ?_⟩
      rw [Multiset.erase_comm, Multiset.erase_cons_head, Multiset.erase_cons_head, List.erase_cons_head]
      exact hrest

/-- `commit` reads, unpins and releases in order. -/
theorem safe_commit (start : Nat) (entries : List Nat) : Safe (commit start entries) 0 entries entries.length := by
  have hend : Safe ([.clearN] ++ (writeHead start ++ [.finish])) 0 [] entries.length :=
    ⟨rfl, safe_writeHead start ⟨rfl, rfl, rfl⟩⟩
  unfold commit
  split
  next hnil =>
    rw [hnil]
    exact ⟨rfl, rfl, rfl⟩
  · rw [append_assoc, append_assoc, append_assoc, append_assoc]
    exact safe_writeLog start (safe_writeHead start (safe_installTrans start hend entries 0)) entries 0 fun _ hb => hb

/-! ## The invariant -/

variable {s t : State P} {p q : P} {a : Action P}

/-- The blocks of the buffers in `refs`. -/
def blocks (c : Cache P) (refs : Multiset Slot) : Multiset Nat := refs.map fun x => (c.buf x).blockno

theorem heldSlot_eq_some (hx : heldSlot s p b = some x) : x ∈ s.refs p ∧ (s.cache.buf x).blockno = b := by
  have hmem := find?_some hx
  exact of_decide_eq_true hmem

variable [Fintype P]

/-- All references of processes. -/
def held (s : State P) : Multiset Slot := ∑ p, s.refs p

/-- The number of processes inside an operation. -/
def running (pc : P → Pc) : Nat := tally univ pc .inOp

/-- Where a process is decides how many references it has; a commit is one that can be carried out. -/
def Place (s : State P) (refs : Multiset Slot) (i : Io) : Pc → Prop
  | .inOp => refs.card ≤ 2
  | .commit todo => (s.log.committing = true ∧ s.log.outstanding = 0) ∧
      Safe todo (blocks s.cache refs) s.pinned s.log.lh.n ∧
      ∀ x, i = .releasing x → ∃ rest, todo = .brelse (s.cache.buf x).blockno :: rest
  | _ => refs = 0

/-- A process with the references `refs`. -/
structure ProcOk (s : State P) (refs : Multiset Slot) (i : Io) (x : Pc) : Prop where
  keyed : ∀ y ∈ refs, (s.cache.buf y).dev = rootdev
  io : ∀ y, i = .locking y ∨ i = .releasing y → y ∈ refs
  place : Place s refs i x

structure Inv (s : State P) : Prop where
  cache : CacheOk s.cache s.pinned (held s)
  nonneg : 0 ≤ s.log.lh.n
  pins_le : (s.pinned.length : Int) ≤ s.log.lh.n
  free : s.log.committing = false → s.pinned = s.log.lh.entries
  counts : (running s.pc : Int) = s.log.outstanding
  proc : ∀ p, ProcOk s (s.refs p) (s.io p) (s.pc p)
  committer : ∀ p q todo todo', s.pc p = .commit todo → s.pc q = .commit todo' → p = q

omit [Fintype P] in
/-- A process that does not take part in a step; if it commits, the log stays as it is. -/
theorem ProcOk.other {i : Io} {pc : Pc} (h : ProcOk s refs i pc)
    (hkey : ∀ y ∈ refs, t.cache.key y = s.cache.key y)
    (hlog : ∀ todo, pc = .commit todo → t.log = s.log ∧ t.pinned = s.pinned) : ProcOk t refs i pc := by
  have hkept := fun y hy => key_eq_iff (hkey y hy) (h.keyed y hy)
  refine ⟨fun y hy => (hkept y hy).1, h.io, ?_⟩
  cases pc with
  | inOp | idle | testing | asleep => exact h.place
  | commit todo =>
    obtain ⟨hlog, hpinned⟩ := hlog todo rfl
    obtain ⟨hcom, hsafe, hrel⟩ := h.place
    rw [Place, hlog, hpinned, blocks, map_congr rfl fun y hy => (hkept y hy).2]
    refine ⟨hcom, hsafe, fun y hy => ?_⟩
    rw [(hkept y (h.io y (.inr hy))).2]
    exact hrel y hy

theorem running_congr {pc' : P → Pc} (h : ∀ q, pc' q = .inOp ↔ pc q = .inOp) :
    running pc' = running pc := tally_congr fun q _ => h q

theorem Inv.outstanding_pos (h : Inv s) (hp : s.pc p = .inOp) : 1 ≤ s.log.outstanding := by
  have hpos : 0 < running s.pc := tally_pos.mpr ⟨p, mem_univ p, hp⟩
  have hcounts := h.counts
  omega

theorem Inv.place {x : Pc} (h : Inv s) (hp : s.pc p = x) : Place s (s.refs p) (s.io p) x := hp ▸ (h.proc p).place

/-- A process outside operations and commits has no references. -/
theorem Inv.quiet (h : Inv s) (hop : s.pc p ≠ .inOp) (hcommit : ∀ todo, s.pc p ≠ .commit todo) : s.refs p = 0 := by
  cases hp : s.pc p with
  | inOp => exact absurd hp hop
  | commit todo => exact absurd hp (hcommit todo)
  | idle | testing | asleep => exact h.place hp

/-- While an operation runs nobody commits. -/
theorem Inv.no_commit (h : Inv s) (hp : s.pc p = .inOp) (q : P) (todo : List Cmd) : s.pc q ≠ .commit todo := by
  intro hq
  obtain ⟨⟨-, hzero⟩, -⟩ := h.place hq
  have hpos := h.outstanding_pos hp
  omega

/-- While a process commits nobody else has a reference. -/
theorem Inv.alone (h : Inv s) (hp : s.pc p = .commit todo) (hq : q ≠ p) :
    s.refs q = 0 ∧ ∀ todo', s.pc q ≠ .commit todo' := by
  have hcommit : ∀ todo', s.pc q ≠ .commit todo' := fun todo' hc => hq (h.committer q p todo' todo hc hp)
  exact ⟨h.quiet (fun hop => h.no_commit hop p todo hp) hcommit, hcommit⟩

theorem Inv.held_commit (h : Inv s) (hp : s.pc p = .commit todo) : held s = s.refs p := by
  refine sum_eq_single p (fun q _ hq => (h.alone hp hq).1) fun hp => ?_
  exact absurd (mem_univ p) hp

theorem mem_held (hx : x ∈ s.refs p) : x ∈ held s :=
  mem_sum.mpr ⟨p, mem_univ p, hx⟩

/-- `bget` keeps the blocks of the buffers that processes have references to. -/
theorem Inv.bget_keeps (h : Inv s) (hb : s.cache.bget b = some (x, c')) (hy : y ∈ s.refs p) :
    c'.key y = s.cache.key y := by
  have hpos := h.cache.accounted.pos (.inl (mem_held hy))
  exact (h.cache.bget hb).2.2 y hpos

/-- A block that `commit` reads finds a buffer. -/
theorem Inv.commit_bget (h : Inv s) (hp : s.pc p = .commit (.bread b :: todo))
    (hn : s.log.lh.n < nbuf) : s.cache.bget b ≠ none := by
  obtain ⟨-, ⟨hcase, -⟩, -⟩ := h.place hp
  refine h.cache.bget_ne_none ?_
  rcases hcase with hzero | hpin
  · right
    have hrefs : s.refs p = 0 := map_eq_zero.mp hzero
    have hpins := h.pins_le
    rw [h.held_commit hp, hrefs, card_zero, coe_card]
    omega
  · exact .inl (h.cache.accounted.present b (mem_coe.mpr hpin))

theorem Inv.panic (h : Inv s) (msg : String) : Inv (s.panic msg) :=
  { h with proc := fun p => (h.proc p).other (fun _ _ => rfl) fun _ _ => ⟨rfl, rfl⟩ }

theorem Inv.init (h : Init s) : Inv s := by
  refine ⟨⟨h.order, ?_⟩, h.empty.ge, ?_, fun _ => ?_, ?_, fun p => ?_, fun p q todo _ hp => ?_⟩
  · have hkey : ∀ x, s.cache.key x = none := by
      intro x
      rw [key, (h.buf x).1, if_neg (by decide)]
    have hheld : held s = 0 := sum_eq_zero fun p _ => h.refs p
    rw [h.pinned]
    rw [hheld]
    exact accounted_empty hkey fun x => (h.buf x).2
  · rw [h.pinned, h.empty]
    rfl
  · rw [h.pinned]
    refine (length_eq_zero_iff.mp ?_).symm
    rw [LogHeader.length_entries, h.empty]
    rfl
  · rw [h.outstanding, running, tally_eq_zero.mpr fun p _ => by rw [h.pc p]; exact nofun]
    rfl
  · rw [h.refs p, h.io p, h.pc p]
    exact ⟨fun x hx => absurd hx (notMem_zero x), fun x hx => hx.elim Io.noConfusion Io.noConfusion, rfl⟩
  · exact absurd ((h.pc p).symm.trans hp) nofun

/-- The sleepers are woken. -/
theorem Inv.wakeup (h : Inv s) : Inv { s with pc := wakeup s.pc } := by
  have hcommit : ∀ q todo, Logging.wakeup s.pc q = .commit todo → s.pc q = .commit todo :=
    fun q todo => (wakeup_eq_iff (x := .commit todo) s.pc q nofun nofun).mp
  refine
    { h with
      counts := (congrArg Nat.cast (running_congr fun q => wakeup_eq_iff s.pc q nofun nofun)).trans h.counts
      proc := fun q => ⟨(h.proc q).keyed, (h.proc q).io, ?_⟩
      committer := fun q r todo todo' hq hr => h.committer q r todo todo' (hcommit q todo hq) (hcommit r todo' hr) }
  show Place s (s.refs q) (s.io q) (Logging.wakeup s.pc q)
  unfold Logging.wakeup
  split
  next hq =>
    have hzero : s.refs q = 0 := h.place hq
    exact hzero
  next => exact (h.proc q).place

variable [DecidableEq P]

theorem running_enter (hp : pc p ≠ .inOp) : running (update pc p .inOp) = running pc + 1 := by
  have h := tally_update (b := .inOp) (g := pc) (mem_univ p) .inOp
  rwa [if_neg hp, if_pos rfl] at h

theorem running_leave {x : Pc} (hp : pc p = .inOp) (hx : x ≠ .inOp) : running (update pc p x) + 1 = running pc := by
  have h := tally_update (b := .inOp) (g := pc) (mem_univ p) x
  rwa [if_pos hp, if_neg hx] at h

/-- Running operations have at most two references each. -/
theorem Inv.held_le (h : Inv s) (hp : s.pc p = .inOp) : (held s).card + 2 ≤ (s.refs p).card + 2 * running s.pc := by
  have hle : ∀ q, (s.refs q).card ≤ 2 * if s.pc q = .inOp then 1 else 0 := by
    intro q
    split
    next hq => exact h.place hq
    next hq =>
      rw [h.quiet hq (h.no_commit hp q), card_zero]
  have hsum : (held s).card = ∑ q, (s.refs q).card := card_sum ..
  have hrun : 2 * running s.pc = ∑ q, 2 * if s.pc q = .inOp then 1 else 0 := by
    rw [running, tally, card_filter, mul_sum]
  have hrest : ∑ q ∈ univ.erase p, (s.refs q).card ≤
      ∑ q ∈ univ.erase p, 2 * if s.pc q = .inOp then 1 else 0 :=
    sum_le_sum fun q _ => hle q
  rw [hsum, hrun, ← add_sum_erase _ _ (mem_univ p),
    ← add_sum_erase _ (fun q => 2 * if s.pc q = .inOp then 1 else 0) (mem_univ p), if_pos hp]
  omega

/-- All references after a process took one. -/
theorem sum_cons (refs : P → Multiset Slot) (p : P) (x : Slot) :
    ∑ q, update refs p (x ::ₘ refs p) q = x ::ₘ ∑ q, refs q := by
  rw [sum_update_of_mem (mem_univ p), cons_add, ← add_sum_erase univ refs (mem_univ p), sdiff_singleton_eq_erase]

/-- All references after a process gave one up. -/
theorem sum_erase (refs : P → Multiset Slot) (hx : x ∈ refs p) :
    ∑ q, update refs p ((refs p).erase x) q = (∑ q, refs q).erase x := by
  have hsame : update (update refs p ((refs p).erase x)) p (x ::ₘ update refs p ((refs p).erase x) p) = refs := by
    rw [update_idem, update_self, cons_erase hx, update_eq_self]
  have hcons := sum_cons (update refs p ((refs p).erase x)) p x
  rw [hsame] at hcons
  rw [hcons, Multiset.erase_cons_head]

/-! ## Steps -/

theorem running_stays {x : Pc} (hx : x = .inOp ↔ pc p = .inOp) : running (update pc p x) = running pc := by
  refine running_congr fun q => ?_
  rcases eq_or_ne q p with rfl | hne
  · rw [update_self]
    exact hx
  · rw [update_of_ne hne]

/-- A process that stays inside or outside of operations does not change their number. -/
theorem Inv.counts_stays {x : Pc} (h : Inv s) (hx : x = .inOp ↔ s.pc p = .inOp) :
    (running (update s.pc p x) : Int) = s.log.outstanding := by
  rw [running_stays hx]
  exact h.counts

/-- A step of the process `p`, which is then at `x`. If another process commits, the log stays as it is. -/
theorem Inv.goesTo (h : Inv s) {x : Pc} {i : Io} (hpc : t.pc = update s.pc p x)
    (hrefs : t.refs = update s.refs p refs) (hio : t.io = update s.io p i)
    (hkey : ∀ q, ∀ y ∈ s.refs q, t.cache.key y = s.cache.key y)
    (hlog : ∀ q ≠ p, ∀ todo, s.pc q = .commit todo →
      (t.log = s.log ∧ t.pinned = s.pinned) ∧ ∀ todo', x ≠ .commit todo')
    (hself : ProcOk t refs i x) (hcache : CacheOk t.cache t.pinned (held t)) (hn : 0 ≤ t.log.lh.n)
    (hpins : (t.pinned.length : Int) ≤ t.log.lh.n) (hfree : t.log.committing = false → t.pinned = t.log.lh.entries)
    (hcounts : (running (update s.pc p x) : Int) = t.log.outstanding) : Inv t := by
  refine ⟨hcache, hn, hpins, hfree, hpc ▸ hcounts, fun q => ?_, fun q r todo todo' hq hr => ?_⟩
  · rw [hpc, hrefs, hio]
    rcases eq_or_ne q p with rfl | hne
    · rw [update_self, update_self, update_self]
      exact hself
    · rw [update_of_ne hne, update_of_ne hne, update_of_ne hne]
      exact (h.proc q).other (hkey q) fun todo hc => (hlog q hne todo hc).1
  · rw [hpc] at hq hr
    by_contra hqr
    rcases eq_or_ne q p with rfl | hqp
    · rw [update_self] at hq
      rw [update_of_ne (Ne.symm hqr)] at hr
      exact (hlog r (Ne.symm hqr) todo' hr).2 todo hq
    · rw [update_of_ne hqp] at hq
      rcases eq_or_ne r p with rfl | hrp
      · rw [update_self] at hr
        exact (hlog q hqp todo hq).2 todo' hr
      · rw [update_of_ne hrp] at hr
        exact hqr (h.committer q r todo todo' hq hr)

/-- The place is neither in an operation nor in a commit. -/
def Pc.outside : Pc → Bool
  | .inOp | .commit _ => false
  | _ => true

/-- A process moves between places outside operations and commits. -/
theorem Inv.move (h : Inv s) {w x : Pc} (hp : s.pc p = w) (hw : w.outside = true) (hx : x.outside = true) :
    Inv (s.setPc p x) := by
  have hne : ∀ {v y : Pc}, v.outside = true → y.outside = false → v ≠ y := by
    rintro v y hv hy rfl
    exact Bool.noConfusion (hv.symm.trans hy)
  have hzero : s.refs p = 0 := h.quiet (hp ▸ hne hw rfl) fun todo => hp ▸ hne hw rfl
  refine h.goesTo rfl (update_eq_self p s.refs).symm (update_eq_self p s.io).symm (fun _ _ _ => rfl)
    (fun q _ todo _ => ⟨⟨rfl, rfl⟩, fun todo' => hne hx rfl⟩) ⟨(h.proc p).keyed, (h.proc p).io, ?_⟩ h.cache h.nonneg
    h.pins_le h.free (h.counts_stays (iff_of_false (hne hx rfl) (hp ▸ hne hw rfl)))
  cases x with
  | inOp | commit => cases hx
  | idle | testing | asleep => exact hzero

omit [Fintype P] in
theorem pc_eq_update {x : Pc} (hp : s.pc p = x) : s.pc = update s.pc p x := by
  rw [← hp, update_eq_self]

/-- `bread` by a process that then is at `y`, where nobody else commits. -/
theorem Inv.bread (h : Inv s) {pc : P → Pc} {y : Pc} (hb : s.cache.bget b = some (x, c'))
    (hpc : pc = update s.pc p y) (halone : ∀ q ≠ p, ∀ todo, s.pc q ≠ .commit todo)
    (hop : y = .inOp ↔ s.pc p = .inOp) (hplace : Place (s.setCache c') (x ::ₘ s.refs p) (.locking x) y) :
    Inv { breadStep s p b with pc := pc } := by
  obtain ⟨hcache, hkey, -⟩ := h.cache.bget hb
  rw [breadStep, hb]
  refine h.goesTo hpc rfl rfl (fun q y hy => h.bget_keeps hb hy) (fun q hq todo hc => absurd hc (halone q hq todo))
    ⟨fun y hy => ?_, fun y hy => ?_, hplace⟩ ?_ h.nonneg h.pins_le h.free (h.counts_stays hop)
  · rcases mem_cons.mp hy with rfl | hy
    · exact (key_eq_some.mp hkey).1
    · exact (key_eq_iff (h.bget_keeps hb hy) ((h.proc p).keyed y hy)).1
  · obtain rfl : x = y := hy.elim Io.locking.inj Io.noConfusion
    exact mem_cons_self x _
  · show CacheOk c' s.pinned (∑ q, update s.refs p (x ::ₘ s.refs p) q)
    rw [sum_cons]
    exact hcache

/-- `bread` in an operation. -/
theorem Inv.opBread (h : Inv s) (hp : s.pc p = .inOp) (hone : (s.refs p).card ≤ 1)
    (hb : s.cache.bget b ≠ none) : Inv (breadStep s p b) := by
  obtain ⟨⟨x, c'⟩, hb⟩ := ne_none_iff_exists'.mp hb
  have hinv := h.bread hb (pc_eq_update hp) (fun q _ => h.no_commit hp q) (iff_of_true rfl hp) ?_
  · rw [breadStep, hb] at hinv ⊢
    exact hinv
  · show (x ::ₘ s.refs p).card ≤ 2
    rw [Multiset.card_cons]
    exact Nat.succ_le_succ hone

/-- `bread` in a commit. -/
theorem Inv.commitBread (h : Inv s) (hp : s.pc p = .commit (.bread b :: todo))
    (hb : s.cache.bget b ≠ none) : Inv ((breadStep s p b).setPc p (.commit todo)) := by
  obtain ⟨⟨x, c'⟩, hb⟩ := ne_none_iff_exists'.mp hb
  have hkey := (h.cache.bget hb).2.1
  obtain ⟨hcom, ⟨-, hsafe⟩, -⟩ := h.place hp
  have hpc : (breadStep s p b).pc = s.pc := by
    rw [breadStep, hb]
    rfl
  refine h.bread (y := .commit todo) hb (by rw [hpc]) (fun q hq => (h.alone hp hq).2)
    (by simp [hp]) ⟨hcom, ?_, fun _ => Io.noConfusion⟩
  have hblocks : blocks c' (x ::ₘ s.refs p) = b ::ₘ blocks s.cache (s.refs p) := by
    rw [blocks, Multiset.map_cons, (key_eq_some.mp hkey).2, map_congr rfl fun y hy =>
      (key_eq_iff (h.bget_keeps hb hy) ((h.proc p).keyed y hy)).2]
    rfl
  show Safe todo (blocks c' (x ::ₘ s.refs p)) s.pinned s.log.lh.n
  rw [hblocks]
  exact hsafe

/-- The sleep-lock of a buffer is taken or released. -/
theorem Inv.lock (h : Inv s) {l : Option P} {i : Io} (hi : ∀ y, i = .locking y ∨ i = .releasing y → y ∈ s.refs p)
    (hrel : ∀ y todo, i = .releasing y → s.pc p = .commit todo →
      ∃ rest, todo = .brelse (s.cache.buf y).blockno :: rest) :
    Inv ((s.setCache (s.cache.setLock x l)).setIo p i) := by
  have hkey : (s.cache.setLock x l).key = s.cache.key := key_setLock s.cache x l
  have hself : ProcOk s (s.refs p) i (s.pc p) := by
    refine ⟨(h.proc p).keyed, hi, ?_⟩
    cases hp : s.pc p with
    | inOp | idle | testing | asleep => exact h.place hp
    | commit todo =>
      obtain ⟨hcom, hsafe, -⟩ := h.place hp
      exact ⟨hcom, hsafe, fun y hy => hrel y todo hy hp⟩
  exact h.goesTo (update_eq_self p s.pc).symm (update_eq_self p s.refs).symm rfl (fun _ y _ => congrFun hkey y)
    (fun q hq todo hc => ⟨⟨rfl, rfl⟩, fun todo' hp => hq (h.committer q p todo todo' hc hp)⟩)
    (hself.other (fun y _ => congrFun hkey y) fun _ _ => ⟨rfl, rfl⟩) (h.cache.setLock x l) h.nonneg h.pins_le h.free
    (h.counts_stays Iff.rfl)

/-- The end of `brelse`: only a process in an operation or in a commit has references. -/
theorem Inv.brelse (h : Inv s) (hio : s.io p = .releasing x) :
    Inv ((brelseStep s p x).setPc p (s.pc p).afterRelse) := by
  have hx := (h.proc p).io x (.inr hio)
  have hkept : ∀ q, ∀ y ∈ s.refs q, ((s.cache.brelse x).buf y).dev = rootdev ∧
      ((s.cache.brelse x).buf y).blockno = (s.cache.buf y).blockno :=
    fun q y hy => key_eq_iff (congrFun (key_brelse s.cache x) y) ((h.proc q).keyed y hy)
  have hcache : CacheOk (s.cache.brelse x) s.pinned (∑ q, update s.refs p ((s.refs p).erase x) q) := by
    rw [sum_erase s.refs hx]
    exact h.cache.brelse (mem_held hx)
  have hgoes : ∀ {y}, (∀ q ≠ p, ∀ todo, s.pc q ≠ .commit todo) → (y = .inOp ↔ s.pc p = .inOp) →
      Place (s.setCache (s.cache.brelse x)) ((s.refs p).erase x) .ready y → Inv ((brelseStep s p x).setPc p y) :=
    fun halone hop hplace => h.goesTo rfl rfl rfl (fun q y _ => congrFun (key_brelse s.cache x) y)
      (fun q hq todo hc => absurd hc (halone q hq todo))
      ⟨fun y hy => (hkept p y (mem_of_mem_erase hy)).1, fun y hy => hy.elim Io.noConfusion Io.noConfusion, hplace⟩
      hcache h.nonneg h.pins_le h.free (h.counts_stays hop)
  cases hp : s.pc p with
  | idle | testing | asleep =>
    have hzero : s.refs p = 0 := h.place hp
    rw [hzero] at hx
    exact absurd hx (notMem_zero x)
  | inOp => exact hgoes (fun q _ => h.no_commit hp q) (iff_of_true rfl hp) (Multiset.card_erase_le.trans (h.place hp))
  | commit todo =>
    obtain ⟨hcom, hsafe, hrel⟩ := h.place hp
    obtain ⟨rest, rfl⟩ := hrel x hio
    refine hgoes (fun q hq => (h.alone hp hq).2) (by simp [hp, Pc.afterRelse]) ⟨hcom, ?_, fun _ => Io.noConfusion⟩
    have hblocks : blocks (s.cache.brelse x) ((s.refs p).erase x) =
        (blocks s.cache (s.refs p)).erase (s.cache.buf x).blockno := by
      rw [blocks, map_congr rfl fun y hy => (hkept p y (mem_of_mem_erase hy)).2]
      exact map_erase_of_mem _ _ hx
    show Safe rest (blocks (s.cache.brelse x) ((s.refs p).erase x)) s.pinned s.log.lh.n
    rw [hblocks]
    exact hsafe.2

/-- `log_write`. -/
theorem Inv.logWrite (h : Inv s) (hp : s.pc p = .inOp) (hx : x ∈ s.refs p) : Inv (logWriteStep s p x) := by
  have hkey : s.cache.key x = some (s.cache.buf x).blockno := key_eq_some.mpr ⟨(h.proc p).keyed x hx, rfl⟩
  unfold logWriteStep
  cases hsec : s.log.logWriteSection (s.cache.buf x).blockno with
  | error msg => exact h.panic msg
  | ok r =>
    obtain ⟨log, new⟩ := r
    obtain ⟨-, -, hout, hcom, hn, hcase⟩ := Log.logWriteSection_eq_ok h.nonneg hsec
    have hpins := h.pins_le
    have hlen := s.log.lh.length_entries
    have hlen' := log.lh.length_entries
    have hkeys : ∀ y, (if new then s.cache.bpin x else s.cache).key y = s.cache.key y := by
      intro y
      split
      · have hbpin : (s.cache.bpin x).key = s.cache.key := key_setBuf rfl rfl
        exact congrFun hbpin y
      · rfl
    have hnone := h.no_commit hp
    refine h.goesTo (update_eq_self p s.pc).symm (update_eq_self p s.refs).symm (update_eq_self p s.io).symm
      (fun _ y _ => hkeys y) (fun q _ todo hc => absurd hc (hnone q todo))
      ((h.proc p).other (fun y _ => hkeys y) fun todo hc => absurd hc (hnone p todo)) ?_ hn ?_ (fun hfalse => ?_)
      ((h.counts_stays Iff.rfl).trans hout.symm)
    all_goals rcases hcase with ⟨-, rfl, hent⟩ | ⟨-, rfl, hent⟩
    · exact h.cache
    · have hcache := h.cache.bpin hkey
      rwa [cons_coe, coe_eq_coe.mpr (perm_append_singleton (s.cache.buf x).blockno s.pinned).symm] at hcache
    · rw [hent] at hlen'
      show (s.pinned.length : Int) ≤ log.lh.n
      omega
    · rw [hent, length_append, length_singleton] at hlen'
      show ((s.pinned ++ [(s.cache.buf x).blockno]).length : Int) ≤ log.lh.n
      rw [length_append, length_singleton]
      omega
    · exact (h.free (hcom ▸ hfalse)).trans hent.symm
    · show s.pinned ++ [(s.cache.buf x).blockno] = log.lh.entries
      rw [h.free (hcom ▸ hfalse), hent]

/-- `begin_op` lets the process in. -/
theorem Inv.enter (h : Inv s) {log : Log} (hp : s.pc p = .testing) (htry : s.log.tryBeginOp = some log) :
    Inv { s.setPc p .inOp with log := log, wrote := update s.wrote p ∅ } := by
  obtain ⟨hfalse, rfl, -⟩ := Log.tryBeginOp_eq_some htry
  have hzero : s.refs p = 0 := h.place hp
  refine h.goesTo rfl (update_eq_self p s.refs).symm (update_eq_self p s.io).symm (fun _ _ _ => rfl)
    (fun q _ todo hc => ?_) ⟨(h.proc p).keyed, (h.proc p).io, ?_⟩ h.cache h.nonneg h.pins_le h.free ?_
  · rw [(h.place hc).1.1] at hfalse
    cases hfalse
  · show (s.refs p).card ≤ 2
    rw [hzero, card_zero]
    exact Nat.zero_le 2
  · show ((running (update s.pc p .inOp) : Nat) : Int) = s.log.outstanding + 1
    rw [running_enter (hp ▸ nofun), ← h.counts]
    rfl

/-- A process without references leaves its operation or commit, and the sleepers are woken. -/
theorem Inv.rest (h : Inv s) {log : Log} (hzero : s.refs p = 0) (hlh : log.lh = s.log.lh)
    (hcommit : ∀ q ≠ p, ∀ todo, s.pc q ≠ .commit todo)
    (hcounts : (running (update s.pc p .idle) : Int) = log.outstanding) (hfree : s.pinned = log.lh.entries) :
    Inv { s with log := log, pc := Logging.wakeup (update s.pc p .idle) } := by
  have hidle : Inv { s with log := log, pc := update s.pc p .idle } :=
    h.goesTo rfl (update_eq_self p s.refs).symm (update_eq_self p s.io).symm (fun _ _ _ => rfl)
      (fun q hq todo hc => absurd hc (hcommit q hq todo)) ⟨(h.proc p).keyed, (h.proc p).io, hzero⟩ h.cache
      (hlh ▸ h.nonneg) (hlh ▸ h.pins_le) (fun _ => hfree) hcounts
  exact hidle.wakeup

/-- The last operation ends: its process commits. -/
theorem Inv.startCommit (h : Inv s) (hp : s.pc p = .inOp) (hio : s.io p = .ready) (hzero : s.refs p = 0)
    (hfree : s.log.committing = false) (hone : s.log.outstanding = 1) :
    Inv { s.setPc p (.commit (commit s.log.start s.log.lh.entries)) with
      log := { s.log with outstanding := 0, committing := true } } := by
  have hrun := running_leave (x := .commit (commit s.log.start s.log.lh.entries)) hp nofun
  have hcounts := h.counts
  refine h.goesTo rfl (update_eq_self p s.refs).symm (update_eq_self p s.io).symm (fun _ _ _ => rfl)
    (fun q _ todo hc => absurd hc (h.no_commit hp q todo))
    ⟨(h.proc p).keyed, (h.proc p).io, ⟨rfl, rfl⟩, ?_, fun y hy => absurd (hio.symm.trans hy) Io.noConfusion⟩ h.cache
    h.nonneg h.pins_le Bool.noConfusion ?_
  · have hlen : (s.log.lh.entries.length : Int) = s.log.lh.n := by
      rw [LogHeader.length_entries]
      exact Int.toNat_of_nonneg h.nonneg
    show Safe _ (blocks s.cache (s.refs p)) s.pinned s.log.lh.n
    rw [hzero, h.free hfree, ← hlen]
    exact safe_commit s.log.start s.log.lh.entries
  · show ((running (update s.pc p _) : Nat) : Int) = 0
    omega

theorem Inv.endOp (h : Inv s) (hp : s.pc p = .inOp) (hio : s.io p = .ready) (hzero : s.refs p = 0) :
    Inv (endOpStep s p) := by
  unfold endOpStep
  obtain ⟨-, heq⟩ | ⟨hfree, hone, heq⟩ | ⟨hfree, -, heq⟩ := s.log.leaveOp_cases s.pc p
    (BufferCache.commit s.log.start s.log.lh.entries)
  · rw [heq]
    exact h.panic _
  · rw [heq]
    exact h.startCommit hp hio hzero hfree hone
  · rw [heq]
    have hrun := running_leave (x := .idle) hp nofun
    have hcounts := h.counts
    refine h.rest hzero rfl (fun q _ => h.no_commit hp q) ?_ (h.free hfree)
    show _ = s.log.outstanding - 1
    omega

/-- A block that an operation reads finds a buffer. -/
theorem Inv.op_bget (h : Inv s) (hp : s.pc p = .inOp) (hone : (s.refs p).card ≤ 1)
    (hn : s.log.lh.n + 2 * s.log.outstanding ≤ nbuf) : s.cache.bget b ≠ none := by
  refine h.cache.bget_ne_none (.inr ?_)
  have hheld := h.held_le hp
  have hcounts := h.counts
  have hpins := h.pins_le
  rw [coe_card]
  omega

/-- A step of the committing process that leaves its references alone. -/
theorem Inv.commitGoesOn (h : Inv s) {todo' : List Cmd} (hp : s.pc p = .commit todo) (hio : s.io p = .ready)
    (hpc : t.pc = update s.pc p (.commit todo')) (hrefs : t.refs = s.refs) (hti : t.io = s.io)
    (hkey : t.cache.key = s.cache.key) (hcom : t.log.committing = s.log.committing)
    (hout : t.log.outstanding = s.log.outstanding) (hcache : CacheOk t.cache t.pinned (held t))
    (hn : 0 ≤ t.log.lh.n) (hpins : (t.pinned.length : Int) ≤ t.log.lh.n)
    (hsafe : Safe todo' (blocks s.cache (s.refs p)) t.pinned t.log.lh.n) : Inv t := by
  obtain ⟨⟨htrue, hzero⟩, -⟩ := h.place hp
  have hkept : ∀ y ∈ s.refs p, (t.cache.buf y).dev = rootdev ∧
      (t.cache.buf y).blockno = (s.cache.buf y).blockno :=
    fun y hy => key_eq_iff (congrFun hkey y) ((h.proc p).keyed y hy)
  refine h.goesTo hpc (hrefs.trans (update_eq_self p s.refs).symm) (hti.trans (update_eq_self p s.io).symm)
    (fun _ y _ => congrFun hkey y) (fun q hq todo hc => absurd hc ((h.alone hp hq).2 todo))
    ⟨fun y hy => (hkept y hy).1, (h.proc p).io, ⟨hcom.trans htrue, hout.trans hzero⟩, ?_,
      fun y hy => absurd (hio.symm.trans hy) Io.noConfusion⟩ hcache hn hpins
    (fun hfalse => absurd (htrue.symm.trans (hcom.symm.trans hfalse)) Bool.noConfusion)
    ((h.counts_stays (by simp [hp])).trans hout.symm)
  rw [blocks, map_congr rfl fun y hy => (hkept y hy).2]
  exact hsafe

/-- A buffer operation of `commit`. -/
theorem Inv.commit (h : Inv s) (hp : s.pc p = .commit todo) (hio : s.io p = .ready)
    (hn : s.log.lh.n < nbuf) (ht : commitStep s p todo = some t) : Inv t := by
  obtain ⟨⟨-, hout⟩, hsafe, -⟩ := h.place hp
  cases todo with
  | nil => cases ht
  | cons cmd todo =>
    cases cmd with
    | bread b =>
      cases ht
      exact h.commitBread hp (h.commit_bget hp hn)
    | brelse b =>
      obtain ⟨x, hx, rfl⟩ := map_eq_some_iff.mp ht
      obtain ⟨hmem, hb⟩ := heldSlot_eq_some hx
      refine h.lock (fun y hy => ?_) fun y todo' hy hq => ?_
      · obtain rfl : x = y := hy.elim Io.noConfusion Io.releasing.inj
        exact hmem
      · obtain rfl : x = y := releasing.inj hy
        obtain rfl : Cmd.brelse b :: todo = todo' := Pc.commit.inj (hp.symm.trans hq)
        exact ⟨todo, by rw [hb]⟩
    | bunpin b =>
      obtain ⟨x, hx, rfl⟩ := map_eq_some_iff.mp ht
      obtain ⟨hmem, hb⟩ := heldSlot_eq_some hx
      obtain ⟨hpin, -, hsafe⟩ := hsafe
      have hcache := h.cache.bunpin (mem_coe.mpr hpin) (key_eq_some.mpr ⟨(h.proc p).keyed x hmem, hb⟩)
      rw [Multiset.coe_erase] at hcache
      have hpins := h.pins_le
      have hlen := length_erase_le (a := b) (l := s.pinned)
      refine h.commitGoesOn hp hio rfl rfl rfl (key_bunpin s.cache x) rfl rfl hcache h.nonneg ?_ hsafe
      show ((s.pinned.erase b).length : Int) ≤ s.log.lh.n
      omega
    | clearN =>
      cases ht
      obtain ⟨hpin, hsafe⟩ := hsafe
      refine h.commitGoesOn hp hio rfl rfl rfl rfl rfl rfl h.cache le_rfl ?_ hsafe
      show (s.pinned.length : Int) ≤ 0
      rw [hpin]
      exact le_rfl
    | finish =>
      cases ht
      obtain ⟨hhold, hpin, hzero⟩ := hsafe
      refine h.rest (map_eq_zero.mp hhold) rfl (fun q hq => (h.alone hp hq).2)
        (h.counts_stays (by simp [hp])) ?_
      rw [hpin]
      refine (length_eq_zero_iff.mp ?_).symm
      rw [LogHeader.length_entries, show s.log.lh.n = 0 from hzero]
      rfl

/-! ## Runs -/

/-- An operation reads a block only with at most one buffer in hand, and writes at most `MAXOPBLOCKS` distinct
blocks. -/
def WellBehaved (s : State P) : Action P → Prop
  | .bread p _ => (s.refs p).card ≤ 1
  | .logWrite p x => (insert (s.cache.buf x).blockno (s.wrote p)).card ≤ maxOpBlocks
  | _ => True

instance decidableWellBehaved (s : State P) (a : Action P) : Decidable (WellBehaved s a) :=
  match a with
  | .bread p _ => inferInstanceAs (Decidable ((s.refs p).card ≤ 1))
  | .logWrite p x =>
    inferInstanceAs (Decidable ((insert (s.cache.buf x).blockno (s.wrote p)).card ≤ maxOpBlocks))
  | .callBegin _ | .testBegin _ | .kkill _ | .acquiresleep _ | .releasesleep _ _ | .brelse _ | .endOp _
  | .commit _ => inferInstanceAs (Decidable True)

/-- An operation reads a block while the blocks in the log and two buffers for each running operation fit into
the cache; a commit goes on while the log is shorter than the cache. -/
def BufferRoom (s : State P) : Action P → Prop
  | .bread _ _ => s.log.lh.n + 2 * s.log.outstanding ≤ nbuf
  | .commit _ => s.log.lh.n < nbuf
  | _ => True

instance decidableBufferRoom (s : State P) (a : Action P) : Decidable (BufferRoom s a) :=
  match a with
  | .bread _ _ => inferInstanceAs (Decidable (s.log.lh.n + 2 * s.log.outstanding ≤ nbuf))
  | .commit _ => inferInstanceAs (Decidable (s.log.lh.n < nbuf))
  | .callBegin _ | .testBegin _ | .kkill _ | .acquiresleep _ | .releasesleep _ _ | .brelse _ | .endOp _
  | .logWrite _ _ => inferInstanceAs (Decidable True)

/-- The steps of the machine. -/
inductive Step (s : State P) : Action P → State P → Prop
  | callBegin {p : P} (hp : s.pc p = .idle) : Step s (.callBegin p) (s.setPc p .testing)
  | testBegin {p : P} (hp : s.pc p = .testing) : Step s (.testBegin p) (testBeginStep s p)
  | kkill {p : P} (hp : s.pc p = .asleep) : Step s (.kkill p) (s.setPc p .testing)
  | bread {p : P} {b : Nat} (hp : s.pc p = .inOp) : Step s (.bread p b) (breadStep s p b)
  | acquiresleep {p : P} {x : Slot} :
      Step s (.acquiresleep p) ((s.setCache (s.cache.setLock x (some p))).setIo p .ready)
  | releasesleep {p : P} {x : Slot} (hp : s.pc p = .inOp) (hx : x ∈ s.refs p) :
      Step s (.releasesleep p x) (releaseStep s p x)
  | brelse {p : P} {x : Slot} (hio : s.io p = .releasing x) :
      Step s (.brelse p) ((brelseStep s p x).setPc p (s.pc p).afterRelse)
  | logWrite {p : P} {x : Slot} (hp : s.pc p = .inOp) (hx : x ∈ s.refs p) :
      Step s (.logWrite p x) (logWriteStep s p x)
  | endOp {p : P} (hp : s.pc p = .inOp) (hio : s.io p = .ready) (hzero : s.refs p = 0) :
      Step s (.endOp p) (endOpStep s p)
  | commit {p : P} {todo : List Cmd} {t : State P} (hp : s.pc p = .commit todo) (hio : s.io p = .ready)
      (ht : commitStep s p todo = some t) : Step s (.commit p) t

omit [Fintype P] in
theorem step_of_next (ht : next s a = some t) : s.panicked = none ∧ Step s a t := by
  obtain ⟨hrun, ht⟩ := ite_none_left_eq_some.mp ht
  refine ⟨not_isSome_iff_eq_none.mp hrun, ?_⟩
  cases a with
  | callBegin p =>
    obtain ⟨hp, rfl⟩ := ite_some_none_eq_some.mp ht
    exact .callBegin hp
  | testBegin p =>
    obtain ⟨hp, rfl⟩ := ite_some_none_eq_some.mp ht
    exact .testBegin hp
  | kkill p =>
    obtain ⟨hp, rfl⟩ := ite_some_none_eq_some.mp ht
    exact .kkill hp
  | bread p b =>
    obtain ⟨⟨hp, -⟩, rfl⟩ := ite_some_none_eq_some.mp ht
    exact .bread hp
  | acquiresleep p =>
    dsimp only at ht
    split at ht
    next x hio =>
      obtain ⟨-, rfl⟩ := ite_some_none_eq_some.mp ht
      exact .acquiresleep
    · cases ht
  | releasesleep p x =>
    obtain ⟨⟨hp, -, hx, -⟩, rfl⟩ := ite_some_none_eq_some.mp ht
    exact .releasesleep hp hx
  | brelse p =>
    dsimp only at ht
    split at ht
    next x hio =>
      cases ht
      exact .brelse hio
    · cases ht
  | logWrite p x =>
    obtain ⟨⟨hp, -, hx, -⟩, rfl⟩ := ite_some_none_eq_some.mp ht
    exact .logWrite hp hx
  | endOp p =>
    obtain ⟨⟨hp, hio, hzero⟩, rfl⟩ := ite_some_none_eq_some.mp ht
    exact .endOp hp hio hzero
  | commit p =>
    dsimp only at ht
    split at ht
    next todo hp =>
      obtain ⟨hio, ht⟩ := ite_none_right_eq_some.mp ht
      exact .commit hp hio ht
    · cases ht

/-- One step keeps the invariant where there is room. -/
theorem Inv.step (h : Inv s) (hwell : WellBehaved s a) (hroom : BufferRoom s a) (ht : Step s a t) : Inv t := by
  cases ht with
  | callBegin hp | kkill hp => exact h.move hp rfl rfl
  | @testBegin p hp =>
    unfold testBeginStep Log.testBegin
    cases htry : s.log.tryBeginOp with
    | none => exact h.move hp rfl rfl
    | some log => exact h.enter hp htry
  | bread hp => exact h.opBread hp hwell (h.op_bget hp hwell hroom)
  | acquiresleep =>
    exact h.lock (fun y hy => (hy.elim Io.noConfusion Io.noConfusion)) fun y todo hy => Io.noConfusion hy
  | releasesleep hp hx =>
    refine h.lock (fun y hy => ?_) fun y todo _ hq => absurd (hp.symm.trans hq) nofun
    rw [← hy.elim Io.noConfusion Io.releasing.inj]
    exact hx
  | brelse hio => exact h.brelse hio
  | logWrite hp hx => exact h.logWrite hp hx
  | endOp hp hio hzero => exact h.endOp hp hio hzero
  | commit hp hio ht => exact h.commit hp hio hroom ht

omit [Fintype P] in
theorem breadStep_panicked (hb : s.cache.bget b ≠ none) : (breadStep s p b).panicked = s.panicked := by
  obtain ⟨⟨x, c'⟩, hb⟩ := ne_none_iff_exists'.mp hb
  rw [breadStep, hb]
  rfl

theorem Inv.logWrite_panicked (h : Inv s) (hp : s.pc p = .inOp) (hrun : s.panicked = none) :
    (logWriteStep s p x).panicked ≠ some "bget: no buffers" := by
  unfold logWriteStep
  cases hsec : s.log.logWriteSection (s.cache.buf x).blockno with
  | error msg =>
    obtain ⟨rfl, -⟩ := Log.logWriteSection_eq_error (h.outstanding_pos hp) hsec
    show some "too big transaction" ≠ some "bget: no buffers"
    decide
  | ok r =>
    rw [hrun]
    exact (some_ne_none _).symm

omit [Fintype P] in
theorem endOpStep_panicked (hrun : s.panicked = none) : (endOpStep s p).panicked ≠ some "bget: no buffers" := by
  unfold endOpStep
  obtain ⟨-, heq⟩ | ⟨-, -, heq⟩ | ⟨-, -, heq⟩ := s.log.leaveOp_cases s.pc p
    (BufferCache.commit s.log.start s.log.lh.entries)
  · rw [heq]
    show some "log.committing" ≠ some "bget: no buffers"
    decide
  · simp [heq, hrun]
  · simp [heq, hrun]

/-- A commit does not stop the kernel where there is room. -/
theorem Inv.commit_panicked (h : Inv s) (hp : s.pc p = .commit todo)
    (hn : s.log.lh.n < nbuf) (ht : commitStep s p todo = some t) : t.panicked = s.panicked := by
  cases todo with
  | nil => cases ht
  | cons cmd todo =>
    cases cmd with
    | bread b =>
      cases ht
      exact breadStep_panicked (h.commit_bget hp hn)
    | brelse | bunpin =>
      obtain ⟨x, -, rfl⟩ := map_eq_some_iff.mp ht
      rfl
    | clearN | finish =>
      cases ht
      rfl

/-- One step does not stop the kernel in `bget` where there is room. -/
theorem Inv.step_panicked (h : Inv s) (hwell : WellBehaved s a) (hroom : BufferRoom s a)
    (hrun : s.panicked = none) (ht : Step s a t) : t.panicked ≠ some "bget: no buffers" := by
  have hsame : ∀ m, m = s.panicked → m ≠ some "bget: no buffers" := by
    rintro m rfl
    rw [hrun]
    exact (some_ne_none _).symm
  cases ht with
  | callBegin | kkill | acquiresleep | releasesleep | brelse => exact hsame _ rfl
  | testBegin =>
    unfold testBeginStep Log.testBegin
    cases s.log.tryBeginOp with
    | none | some => exact hsame _ rfl
  | bread hp => exact hsame _ (breadStep_panicked (h.op_bget hp hwell hroom))
  | logWrite hp => exact h.logWrite_panicked hp hrun
  | endOp => exact endOpStep_panicked hrun
  | commit hp _ ht => exact hsame _ (h.commit_panicked hp hroom ht)

/-- In every run in which operations have at most two buffers each, the log and two buffers for each running
operation fit into the cache whenever an operation reads, and the log is shorter than the cache during commits,
`bget` finds a buffer. -/
theorem bget_finds_buffer (h : Reachable Init next (fun s a => WellBehaved s a ∧ BufferRoom s a) s) :
    s.panicked ≠ some "bget: no buffers" := by
  have hinv : Inv s ∧ s.panicked ≠ some "bget: no buffers" := by
    refine h.invariant (fun s => Inv s ∧ s.panicked ≠ some "bget: no buffers") (fun s hinit => ?_)
      fun s a t hs hok ht => ?_
    · refine ⟨Inv.init hinit, ?_⟩
      rw [hinit.panicked]
      exact (some_ne_none _).symm
    · obtain ⟨hrun, hstep⟩ := step_of_next ht
      exact ⟨hs.1.step hok.1 hok.2 hstep, hs.1.step_panicked hok.1 hok.2 hrun hstep⟩
  exact hinv.2

/-- The cache after `binit`, an empty log and three processes. -/
def bootThree : State (Fin 3) where
  log := ⟨2, 0, false, ⟨0, fun _ => 0⟩⟩
  cache := ⟨fun _ => ⟨0, 0, 0, none⟩, (finRange nbuf).reverse⟩
  pc := fun _ => .idle
  io := fun _ => .ready
  refs := fun _ => 0
  pinned := []
  wrote := fun _ => ∅
  panicked := none

theorem bootThree_init : Init bootThree where
  order x := mem_reverse.mpr (mem_finRange x)
  buf _ := ⟨rfl, rfl⟩
  outstanding := rfl
  committing := rfl
  empty := rfl
  pc _ := rfl
  io _ := rfl
  refs _ := rfl
  pinned := rfl
  panicked := rfl

/-- An operation of process `p` writes block `b`, whose buffer `bget` puts into slot `x`. -/
def writeBlock {P : Type} (p : P) (b : Nat) (x : Slot) : List (Action P) :=
  [.bread p b, .acquiresleep p, .logWrite p x, .releasesleep p x, .brelse p]

/-- The commit of process `p` goes through its buffer operations. -/
def commitActions {P : Type} (p : P) (todo : List Cmd) : List (Action P) :=
  todo.flatMap fun
    | .bread _ => [.commit p, .acquiresleep p]
    | .brelse _ => [.commit p, .brelse p]
    | _ => [.commit p]

/-- After one operation has written block 50 and committed, the kernel runs. -/
theorem bget_finds_buffer_one : ∃ s : State (Fin 3), s.log.lh.n = 0 ∧ (s.cache.buf 0).blockno = 50 ∧
    s.panicked ≠ some "bget: no buffers" := by
  have hrun : ((run (guarded next fun s a => WellBehaved s a ∧ BufferRoom s a) bootThree
      ([.callBegin 0, .testBegin 0] ++ writeBlock 0 50 0 ++ [.endOp 0] ++ commitActions 0 (commit 2 [50]))).map
        fun s => (s.log.lh.n, (s.cache.buf 0).blockno)) = some (0, 50) := by
    decide +kernel
  obtain ⟨s, hs, hn⟩ := map_eq_some_iff.mp hrun
  have hbget := bget_finds_buffer (reachable_guarded_run (.start bootThree_init) hs)
  exact ⟨s, congrArg Prod.fst hn, congrArg Prod.snd hn, hbget⟩

/-- Three operations write ten blocks each and end. -/
def fillCache : List (Action (Fin 3)) :=
  (finRange 3).flatMap (fun p => [.callBegin p, .testBegin p]) ++ (finRange nbuf).flatMap
      (fun x : Slot => writeBlock (Fin.ofNat 3 (x.val / 10)) (100 + x.val) x) ++
    (finRange 3).map Action.endOp

/-- The commit of a full log finds all buffers pinned and stops the kernel. Every operation has written ten
distinct blocks and had one buffer at a time. -/
theorem commit_without_buffers : ∃ s : State (Fin 3), Reachable Init next WellBehaved s ∧
    s.panicked = some "bget: no buffers" := by
  have hpanic : ((run (guarded next WellBehaved) bootThree (fillCache ++ [.commit 2])).map
      State.panicked) = some (some "bget: no buffers") := by
    decide +kernel
  obtain ⟨s, hs, hpan⟩ := map_eq_some_iff.mp hpanic
  exact ⟨s, reachable_guarded_run (.start bootThree_init) hs, hpan⟩

end Xv6Lab.Logging.BufferCache
