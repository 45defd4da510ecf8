import Xv6Lab.Lib.Exec
import Xv6Lab.Logging.CrashSafety
import Xv6Lab.Logging.Sections

/-!
# Crash atomicity of the boot path

A transaction is a `begin_op`, a list of buffer changes each followed by `log_write`, and an `end_op`
that commits. Between the changes the buffer cache may recycle buffers that are not pinned. After a
crash the kernel starts with zeroed memory and runs `initlog`.

`initlog` calls `install_trans` without reading the header from the disk, so it installs nothing: the
home blocks after the reboot are the ones the crash left. They are the state after exactly the
committed transactions if and only if the crash did not separate the header write from an
installation that changes a block (`initlog_atomic_iff`). A crash right after the header write of a
one-block transaction is a failing case (`initlog_loses_committed`).
-/

namespace Xv6Lab.Logging

open Function Lib.CrashDisk List Emits LogHeader
open Lib.Exec

/-- What a transaction does between `begin_op` and `end_op`: change the buffer of a block and call
`log_write`, or let the buffer cache recycle an unused buffer. -/
inductive Action where
  | write (b : Nat) (data : Block)
  | evict (b : Nat)

/-- The changes of one transaction. -/
abbrev Tx := List Action

def doAction : Action → LogM Unit
  | .write b data => do
      let _ ← bread b
      setBuf b data
      logWrite b
  | .evict b => do
      let m ← getMem
      if m.pins b = 0 then modifyMem fun m => { m with cache := update m.cache b none }
      else pure ()

def doActions : Tx → LogM Unit
  | [] => pure ()
  | a :: tx => do
      doAction a
      doActions tx

/-- A transaction up to its `end_op`. -/
def openTx (tx : Tx) : LogM Unit := do
  beginOp
  doActions tx

def runTxs : List Tx → LogM Unit
  | [] => pure ()
  | tx :: txs => do
      openTx tx
      endOp
      runTxs txs

/-- A fresh kernel runs `initlog` and then the given transactions. -/
def bootAndRun (start : Nat) (txs : List Tx) : LogM Unit := do
  initlog start
  runTxs txs

/-! ## The intended effect -/

def Action.apply (v : Nat → Block) : Action → Nat → Block
  | .write b data => update v b data
  | .evict _ => v

/-- The contents after the changes of a transaction. -/
def replayTx (v : Nat → Block) : Tx → Nat → Block
  | [] => v
  | a :: tx => replayTx (a.apply v) tx

/-- The contents after a list of transactions. -/
def replay (v : Nat → Block) : List Tx → Nat → Block
  | [] => v
  | tx :: txs => replay (replayTx v tx) txs

def Action.addBlock (bs : List Nat) : Action → List Nat
  | .write b _ => if b ∈ bs then bs else bs ++ [b]
  | .evict _ => bs

/-- The blocks a transaction logs, in the order of their first `log_write`, after those of `bs`. -/
def txBlocksFrom (bs : List Nat) : Tx → List Nat
  | [] => bs
  | a :: tx => txBlocksFrom (a.addBlock bs) tx

def txBlocks (tx : Tx) : List Nat := txBlocksFrom [] tx

/-! ## States inside and between transactions -/

/-- Inside a transaction that has logged the blocks `bs` and whose buffers show the contents `v`. -/
structure InTx (start : Nat) (d : Nat → Block) (m : Mem) (bs : List Nat) (v : Nat → Block) :
    Prop where
  start_eq : m.log.start = start
  outstanding : m.log.outstanding = 1
  committing : m.log.committing = false
  nonneg : 0 ≤ m.log.lh.n
  le : m.log.lh.n ≤ logBlocks
  entries : m.log.lh.entries = bs
  pins : ∀ b, m.pins b = if b ∈ bs then 1 else 0
  view_eq : view m d = v
  distinct : bs.Nodup
  unlogged : ∀ b, b ∉ bs → v b = d b

/-- Between transactions: nothing is logged or pinned and every buffer agrees with the disk. -/
structure Quiet (start : Nat) (d : Nat → Block) (m : Mem) : Prop where
  start_eq : m.log.start = start
  outstanding : m.log.outstanding = 0
  committing : m.log.committing = false
  empty : m.log.lh.n = 0
  pins : ∀ b, m.pins b = 0
  view_eq : view m d = d

variable {d v : Nat → Block} {start b : Nat} {bs : List Nat} {m : Mem} {s : Sys Mem Block}

theorem InTx.count (h : InTx start d m bs v) : m.log.lh.n = bs.length := by
  have h0 := h.nonneg
  rw [← h.entries, length_entries]
  omega

theorem Quiet.beginOp (h : Quiet start d m) :
    ∃ m', beginOp ⟨d, none, m⟩ = .ok () ⟨d, none, m'⟩ ∧ InTx start d m' [] d := by
  have htry : m.log.tryBeginOp = some { m.log with outstanding := m.log.outstanding + 1 } := by
    simp [Log.tryBeginOp, h.committing, h.empty, h.outstanding]
  refine ⟨{ m with log := { m.log with outstanding := m.log.outstanding + 1 } }, ?_, ?_⟩
  · rw [Logging.beginOp, getMem_bind]
    simp only [htry]
    rfl
  refine ⟨h.start_eq, by simp [h.outstanding], h.committing, by simp [h.empty], by simp [h.empty],
    ?_, ?_, h.view_eq, nodup_nil, fun _ _ => rfl⟩
  · simp [entries, h.empty]
  · intro b
    simpa using h.pins b

/-- Setting the buffer of a block shows in the view. -/
theorem view_setCache (m : Mem) (d : Nat → Block) (b : Nat) (data : Block) (m' : Mem)
    (h : m'.cache = update m.cache b (some data)) :
    view m' d = update (view m d) b data := by
  funext c
  rcases eq_or_ne c b with rfl | hc
  · simp [view, h]
  · simp [view, h, hc]

theorem InTx.write (h : InTx start d m bs v) {data : Block}
    (hrun : doAction (.write b data) ⟨d, none, m⟩ = .ok () s) :
    ∃ m', s = ⟨d, none, m'⟩ ∧ InTx start d m' (Action.addBlock bs (.write b data)) (update v b data) := by
  obtain ⟨m1, hm1, ⟨hl1, hp1⟩, hv1⟩ := emits_bread (d := d) (m := m) b
  set m2 : Mem := { m1 with cache := update m1.cache b (some data) } with hm2
  have hset : setBuf b data ⟨d, none, m1⟩ = .ok () ⟨d, none, m2⟩ := rfl
  have hview : view m2 d = update v b data := by
    rw [view_setCache m1 d b data m2 rfl, hv1, h.view_eq]
  rw [doAction, bind_of_ok hm1.run, applyWrites, bind_of_ok hset, logWrite, getMem_bind] at hrun
  have hlog2 : m2.log = m.log := hl1
  cases hsec : m2.log.logWriteSection b with
  | error msg =>
    simp only [hsec] at hrun
    cases hrun
  | ok r =>
    obtain ⟨log', new⟩ := r
    simp only [hsec] at hrun
    rw [hlog2] at hsec
    obtain ⟨hn, hst, hos, hcm, h0, hcase⟩ := Log.logWriteSection_eq_ok h.nonneg hsec
    have hle : log'.lh.n ≤ logBlocks := by
      have hlen : log'.lh.entries.length ≤ m.log.lh.entries.length + 1 := by
        rcases hcase with ⟨-, -, hent⟩ | ⟨-, -, hent⟩ <;> simp [hent]
      rw [length_entries, length_entries] at hlen
      have := h.nonneg
      omega
    rcases hcase with ⟨hmem, rfl, hent⟩ | ⟨hmem, rfl, hent⟩
    · -- absorbed
      rw [h.entries] at hmem
      cases hrun
      refine ⟨{ m2 with log := log' }, rfl, ?_⟩
      have hadd : Action.addBlock bs (.write b data) = bs := if_pos hmem
      rw [hadd]
      refine ⟨by rw [hst, h.start_eq], by rw [hos, h.outstanding], by rw [hcm, h.committing], h0, hle,
        by rw [hent, h.entries], ?_, hview, h.distinct, ?_⟩
      · intro c
        rw [hp1]
        exact h.pins c
      intro c hc
      have hcb : c ≠ b := by
        rintro rfl
        exact hc hmem
      rw [update_of_ne hcb]
      exact h.unlogged c hc
    · -- appended and pinned
      rw [h.entries] at hmem
      cases hrun
      refine ⟨{ m2 with log := log', pins := update m2.pins b (m2.pins b + 1) }, rfl, ?_⟩
      have hadd : Action.addBlock bs (.write b data) = bs ++ [b] := if_neg hmem
      rw [hadd]
      refine ⟨by rw [hst, h.start_eq], by rw [hos, h.outstanding], by rw [hcm, h.committing], h0, hle,
        by rw [hent, h.entries], ?_, hview, ?_, ?_⟩
      · intro c
        rw [hp1]
        rcases eq_or_ne c b with rfl | hc
        · simp [h.pins c, hmem]
        · simp [h.pins c, hc]
      · rw [nodup_append]
        refine ⟨h.distinct, by simp, ?_⟩
        intro x hx y hy
        rw [mem_singleton] at hy
        rintro rfl
        exact hmem (hy ▸ hx)
      · intro c hc
        rw [mem_append, mem_singleton, not_or] at hc
        rw [update_of_ne hc.2]
        exact h.unlogged c hc.1

/-- Recycling an unpinned buffer does not show: it was not logged, so it agreed with the disk. -/
theorem InTx.evict (h : InTx start d m bs v) (hrun : doAction (.evict b) ⟨d, none, m⟩ = .ok () s) :
    ∃ m', s = ⟨d, none, m'⟩ ∧ InTx start d m' bs v := by
  rw [doAction, getMem_bind] at hrun
  by_cases hpin : m.pins b = 0
  · rw [if_pos hpin] at hrun
    cases hrun
    have hb : b ∉ bs := by
      intro hb
      have := h.pins b
      rw [if_pos hb, hpin] at this
      exact absurd this (by decide)
    refine ⟨{ m with cache := update m.cache b none }, rfl, { h with view_eq := ?_ }⟩
    funext c
    rcases eq_or_ne c b with rfl | hc
    · rw [h.unlogged c hb]
      simp [view]
    · rw [← h.view_eq]
      simp [view, hc]
  · rw [if_neg hpin] at hrun
    cases hrun
    exact ⟨m, rfl, h⟩

theorem InTx.doActions {tx : Tx} : ∀ {m : Mem} {bs : List Nat}
    {v : Nat → Block} {s : Sys Mem Block}, InTx start d m bs v →
    doActions tx ⟨d, none, m⟩ = .ok () s →
    ∃ m', s = ⟨d, none, m'⟩ ∧ InTx start d m' (txBlocksFrom bs tx) (replayTx v tx) := by
  induction tx with
  | nil =>
    intro m bs v s h hrun
    injection hrun with _ hrun
    exact ⟨m, hrun.symm, h⟩
  | cons a tx ih =>
    intro m bs v s h hrun
    rw [Logging.doActions] at hrun
    obtain ⟨u, t, hfirst, hrest⟩ := bind_eq_ok hrun
    cases a with
    | write b data =>
      obtain ⟨m1, rfl, h1⟩ := h.write hfirst
      exact ih h1 hrest
    | evict b =>
      obtain ⟨m1, rfl, h1⟩ := h.evict hfirst
      exact ih h1 hrest

/-- A transaction that reaches its `end_op` has written nothing to the disk. -/
theorem Quiet.openTx (h : Quiet start d m) {tx : Tx} (hrun : openTx tx ⟨d, none, m⟩ = .ok () s) :
    ∃ m', s = ⟨d, none, m'⟩ ∧ InTx start d m' (txBlocks tx) (replayTx d tx) := by
  obtain ⟨m1, hbegin, h1⟩ := h.beginOp
  rw [Logging.openTx, bind_of_ok hbegin] at hrun
  exact h1.doActions hrun

/-! ## The commit in `end_op` -/

/-- Block numbers of a transaction: outside the log area, and 32 bits wide as `uint` is. -/
def HomeBlocks (start : Nat) (bs : List Nat) : Prop := ∀ b ∈ bs, ¬ InLogArea start b ∧ b < 2 ^ 32

/-- The entries that the commit of the blocks `bs` with contents `v` installs. -/
def entriesOf (bs : List Nat) (v : Nat → Block) : List (Nat × Block) := bs.map fun b => (b, v b)

theorem map_fst_entriesOf (bs : List Nat) (v : Nat → Block) : (entriesOf bs v).map Prod.fst = bs := by
  rw [entriesOf, map_map]
  exact map_id bs

theorem InTx.logged (h : InTx start d m bs v) (hout : HomeBlocks start bs) {m1 : Mem}
    (hstart : m1.log.start = m.log.start) (hlh : m1.log.lh = m.log.lh) (hc : m1.cache = m.cache) :
    Logged start d m1 (entriesOf bs v) := by
  have hlen : (entriesOf bs v).length = bs.length := length_map _
  have hview : view m1 d = v := by
    rw [← h.view_eq]
    funext b
    simp [view, hc]
  have hmem : ∀ p ∈ entriesOf bs v, p.1 ∈ bs ∧ v p.1 = p.2 := by
    intro p hp
    obtain ⟨b, hb, rfl⟩ := mem_map.mp hp
    exact ⟨hb, rfl⟩
  refine ⟨by rw [hstart, h.start_eq], by rw [hlh, h.count, hlen], ?_, ?_, ?_, ?_, ?_, ?_, ?_⟩
  · have hle := h.le
    rw [h.count] at hle
    omega
  · rw [hlh, h.entries, map_fst_entriesOf]
  · intro p hp
    rw [hview]
    exact (hmem p hp).2
  · intro b hb
    rw [hview]
    exact h.unlogged b fun hbs => (hout b hbs).1 hb
  · rw [map_fst_entriesOf]
    exact h.distinct
  · exact fun p hp => (hout p.1 (hmem p hp).1).1
  · exact fun p hp => (hout p.1 (hmem p hp).1).2

/-- Installing some of the entries gives the final contents exactly when the others do not change
their blocks. -/
theorem installed_take_iff (h : InTx start d m bs v) (hout : HomeBlocks start bs) (j : Nat) :
    (∀ b, ¬ InLogArea start b → applyWrites d ((entriesOf bs v).take j) b = v b) ↔
      ∀ i (hi : i < bs.length), j ≤ i → v bs[i] = d bs[i] := by
  have hkeys : ((entriesOf bs v).take j).map Prod.fst = bs.take j := by
    rw [map_take, map_fst_entriesOf]
  have hnd : (bs.take j).Nodup := h.distinct.sublist (take_sublist j bs)
  have hwritten : ∀ b ∈ bs.take j, applyWrites d ((entriesOf bs v).take j) b = v b := by
    intro b hb
    refine applyWrites_of_mem _ _ (hkeys ▸ hnd) ?_
    rw [entriesOf, ← map_take]
    exact mem_map.mpr ⟨b, hb, rfl⟩
  have hkept : ∀ b ∉ bs.take j, applyWrites d ((entriesOf bs v).take j) b = d b := by
    intro b hb
    refine applyWrites_of_not_mem _ _ fun w hw he => hb ?_
    rw [← hkeys, ← he]
    exact mem_map.mpr ⟨w, hw, rfl⟩
  constructor
  · intro hall i hi hji
    have hnot : bs[i] ∉ bs.take j := by
      intro hmem
      obtain ⟨x, hx, hget⟩ := getElem_of_mem hmem
      rw [length_take] at hx
      rw [getElem_take] at hget
      have := (Nodup.getElem_inj_iff h.distinct).mp hget
      omega
    rw [← hall bs[i] (hout _ (getElem_mem hi)).1, hkept _ hnot]
  · intro hsame b _
    by_cases hb : b ∈ bs.take j
    · exact hwritten b hb
    rw [hkept b hb]
    by_cases hbs : b ∈ bs
    · obtain ⟨i, hi, rfl⟩ := getElem_of_mem hbs
      refine (hsame i hi ?_).symm
      by_contra hlt
      refine hb ?_
      rw [mem_take_iff_getElem]
      exact ⟨i, by omega, rfl⟩
    · exact (h.unlogged b hbs).symm

theorem emits_endOp {m1 m2 : Mem} {w : List (Nat × Block)} (hsec : m.log.endOpSection = .ok (m1.log, true))
    (hm1 : m1 = { m with log := m1.log }) (hem : Emits commit d m1 w () m2) :
    Emits endOp d m w () { m2 with log := { m2.log with committing := false } } := by
  refine bindRead getMem ?_
  rw [hsec]
  have hset : Emits (setLog m1.log) d m [] () m1 := by
    rw [hm1]
    exact modifyMem _
  refine bindRead hset ?_
  have hlast : Emits (do commit; modifyMem fun m => { m with log := { m.log with committing := false } }
      : LogM Unit) d m1 (w ++ []) () { m2 with log := { m2.log with committing := false } } :=
    bind hem (modifyMem _)
  rw [append_nil] at hlast
  exact hlast

/-- The home blocks after `k` writes of a commit: its first writes go to the log area, then the
entries are installed in order. -/
theorem Logged.home_take {l : List (Nat × Block)} (h : Logged start d m l) (k : Nat) (hb : ¬ InLogArea start b) :
    applyWrites d ((commitWrites m.log.start m.log.lh (view m d)).take k) b =
      applyWrites d (l.take (k - (l.length + 1))) b := by
  have hle := h.le
  have hskip : ∀ (e : Nat → Block) (ws : List (Nat × Block)), (∀ w ∈ ws, InLogArea start w.1) →
      ∀ j, applyWrites e (ws.take j) b = e b := by
    intro e ws hws j
    refine applyWrites_of_not_mem _ _ fun w hw he => ?_
    exact hb (he ▸ hws w (mem_of_mem_take hw))
  have hhead : ∀ c : Block, ∀ w ∈ [(start, c)], InLogArea start w.1 := by
    intro c w hw
    rw [mem_singleton] at hw
    rw [hw]
    exact ⟨Nat.le_refl _, Nat.le_add_right _ _⟩
  have hslots : ∀ w ∈ logWrites start m.log.lh.block (view m d) 0 l.length, InLogArea start w.1 := by
    intro w hw
    obtain ⟨j, hj, rfl⟩ := mem_map.mp hw
    rw [mem_range'_1] at hj
    exact ⟨by omega, by omega⟩
  have hlen : (logWrites start m.log.lh.block (view m d) 0 l.length).length = l.length := by
    rw [logWrites, length_map, length_range']
  rw [h.commitWrites_eq, take_append, take_append, take_append, applyWrites_append,
    applyWrites_append, applyWrites_append, hskip _ _ (hhead _), hlen, length_singleton,
    Nat.sub_sub]
  refine applyWrites_congr _ ?_
  rw [hskip _ _ (hhead _), hskip _ _ hslots]

/-- The `end_op` of the only operation: its writes, the home blocks after any number of them, and
the state once it returns. -/
theorem InTx.endOp (h : InTx start d m bs v) (hout : HomeBlocks start bs) :
    ∃ w m', Emits endOp d m w () m' ∧ Quiet start (applyWrites d w) m' ∧
      (∀ k b, ¬ InLogArea start b →
        applyWrites d (w.take k) b = applyWrites d ((entriesOf bs v).take (k - (bs.length + 1))) b) ∧
      bs.length ≤ w.length - (bs.length + 1) := by
  set m1 : Mem := { m with log := { m.log with outstanding := 0, committing := true } } with hm1
  have hsec : m.log.endOpSection = .ok (m1.log, true) := by
    simp [Log.endOpSection, h.committing, h.outstanding, hm1]
  have hlog : Logged start d m1 (entriesOf bs v) := h.logged hout rfl rfl rfl
  have hlen : (entriesOf bs v).length = bs.length := length_map _
  have hn : m1.log.lh.n = bs.length := h.count
  by_cases hnil : bs = []
  · -- nothing was logged and nothing is written
    subst hnil
    have hem : Emits commit d m1 [] () m1 := by
      refine bindRead getMem ?_
      rw [if_pos (hn ▸ rfl)]
      exact pure ()
    refine ⟨_, _, emits_endOp hsec rfl hem, ⟨h.start_eq, rfl, rfl, hn, fun b => ?_, ?_⟩,
      fun k b _ => ?_, Nat.zero_le _⟩
    · simpa using h.pins b
    · refine Eq.trans h.view_eq (funext fun b => ?_)
      exact h.unlogged b not_mem_nil
    · rw [entriesOf, map_nil, take_nil, take_nil]
  have hpos : 0 < bs.length := length_pos_of_ne_nil hnil
  have hle := hlog.le
  obtain ⟨m2, hm2, hl2, hp2, hv2⟩ := emits_commit (d := d) (m := m1) (by omega) (by omega) hlog.homesOutside
  refine ⟨_, _, emits_endOp hsec rfl hm2, ⟨?_, ?_, rfl, ?_, fun b => ?_, ?_⟩, fun k b hb => ?_, ?_⟩
  · rw [hl2]
    exact h.start_eq
  · rw [hl2]
  · rw [hl2]
  · -- each logged block was pinned once and is unpinned once
    have hent : m1.log.lh.entries = bs := h.entries
    rw [hp2, hent]
    rw [h.pins b]
    by_cases hb : b ∈ bs
    · rw [if_pos hb, count_eq_one_of_mem h.distinct hb]
      rfl
    · rw [if_neg hb, count_eq_zero_of_not_mem hb]
      rfl
  · refine Eq.trans hv2 (applyWrites_eq_of_agree _ fun b hb => ?_)
    have hview : view m1 d = v := h.view_eq
    rw [hview]
    refine h.unlogged b fun hbs => ?_
    -- the commit writes every logged block
    rw [hlog.commitWrites_eq] at hb
    exact hb (b, v b) (by simp [entriesOf, hbs]) rfl
  · rw [hlog.home_take k hb, hlen]
  · rw [hlog.commitWrites_eq]
    simp only [length_append, length_singleton, logWrites, length_map, length_range', hlen]
    omega

/-! ## Runs from a boot -/

theorem replayTx_congr {u : Nat → Block} (tx : Tx) (h : u b = v b) : replayTx u tx b = replayTx v tx b := by
  induction tx generalizing u v with
  | nil => exact h
  | cons a tx ih =>
    refine ih ?_
    cases a with
    | write c data =>
      rcases eq_or_ne b c with rfl | hb
      · simp [Action.apply]
      · simp [Action.apply, update_of_ne hb, h]
    | evict c => exact h

theorem replay_congr {u : Nat → Block} (txs : List Tx) (h : u b = v b) : replay u txs b = replay v txs b := by
  induction txs generalizing u v with
  | nil => exact h
  | cons tx txs ih => exact ih (replayTx_congr tx h)

theorem replay_append (v : Nat → Block) (txs : List Tx) (tx : Tx) :
    replay v (txs ++ [tx]) = replayTx (replay v txs) tx := by
  induction txs generalizing v with
  | nil => rfl
  | cons t txs ih => exact ih _

/-- `initlog` in a fresh kernel installs nothing, whatever the disk holds. -/
theorem emits_initlog (start : Nat) (e : Nat → Block) :
    Emits (initlog start) e (bootMem 0) [] () (bootMem start) := by
  rw [initlog, if_neg (by decide)]
  have hset : Emits (modifyMem fun m => { m with log := { m.log with start := start } }) e (bootMem 0)
      [] () (bootMem start) := modifyMem _
  exact bindRead hset (bindRead getMem (pure ()))

theorem quiet_bootMem (start : Nat) (d : Nat → Block) : Quiet start d (bootMem start) :=
  ⟨rfl, rfl, rfl, rfl, fun _ => rfl, rfl⟩

/-- Completed transactions leave the home blocks they are meant to. -/
theorem Quiet.runTxs {txs : List Tx} : ∀ {d : Nat → Block} {m : Mem}
    {s : Sys Mem Block}, Quiet start d m → (∀ tx ∈ txs, HomeBlocks start (txBlocks tx)) →
    runTxs txs ⟨d, none, m⟩ = .ok () s →
    ∃ d' m', s = ⟨d', none, m'⟩ ∧ Quiet start d' m' ∧ ∀ b, ¬ InLogArea start b → d' b = replay d txs b := by
  induction txs with
  | nil =>
    intro d m s h _ hrun
    injection hrun with _ hrun
    exact ⟨d, m, hrun.symm, h, fun _ _ => rfl⟩
  | cons tx txs ih =>
    intro d m s h hout hrun
    rw [Logging.runTxs] at hrun
    obtain ⟨u, t, hopen, hrest⟩ := bind_eq_ok hrun
    obtain ⟨m1, rfl, h1⟩ := h.openTx hopen
    obtain ⟨w, m2, hm2, hquiet, hhome, hlen⟩ := h1.endOp (hout tx mem_cons_self)
    rw [bind_of_ok hm2.run] at hrest
    obtain ⟨d', m', hs, h', hd'⟩ := ih hquiet (fun t ht => hout t (mem_cons_of_mem _ ht)) hrest
    refine ⟨d', m', hs, h', fun b hb => ?_⟩
    have hall : applyWrites d w b = replayTx d tx b := by
      have hb' := hhome w.length b hb
      rw [take_length] at hb'
      rw [hb']
      exact (installed_take_iff h1 (hout tx mem_cons_self) _).mpr (fun i hi hji => by omega) b hb
    rw [hd' b hb]
    exact replay_congr txs hall

/-- The state in which transaction `tx` reaches its `end_op` after the completed ones. -/
theorem reach_endOp {disk : Nat → Block} {done : List Tx} {tx : Tx} (hout : ∀ t ∈ done, HomeBlocks start (txBlocks t))
    (hrun : (do bootAndRun start done; openTx tx : LogM Unit) ⟨disk, none, bootMem 0⟩ = .ok () s) :
    ∃ d m, s = ⟨d, none, m⟩ ∧ InTx start d m (txBlocks tx) (replayTx d tx) ∧
      ∀ b, ¬ InLogArea start b → d b = replay disk done b := by
  obtain ⟨u, t, hdone, hopen⟩ := bind_eq_ok hrun
  rw [bootAndRun, bind_of_ok (emits_initlog start disk).run] at hdone
  obtain ⟨d, m, rfl, hquiet, hd⟩ := (quiet_bootMem start disk).runTxs hout hdone
  obtain ⟨m', hs, hin⟩ := hquiet.openTx hopen
  exact ⟨d, m', hs, hin, hd⟩

/-! ## The reboot -/

/-- After a crash with `k` writes of the `end_op` in state `s` done, the rebooted kernel returns from
`initlog` with home blocks that hold the completed transactions and, if its header reached the disk,
the interrupted one. -/
def BootAtomic (start : Nat) (disk : Nat → Block) (done : List Tx) (tx : Tx) (s : Sys Mem Block) (k : Nat) : Prop :=
  ∃ e m', initlog start ⟨diskAfter (endOp ⟨s.disk, some k, s.mem⟩), none, bootMem 0⟩ = .ok () ⟨e, none, m'⟩ ∧
    ∀ b, ¬ InLogArea start b → e b = replay disk (done ++ if headerReached s.disk s.mem k then [tx] else []) b

/-- The boot path is atomic for a crash after `k` writes of a commit exactly when the header was not
yet written, or every block not yet installed already held its new contents. -/
theorem initlog_atomic_iff {start : Nat} {disk : Nat → Block} {done : List Tx} {tx : Tx} {s : Sys Mem Block}
    (hout : ∀ t ∈ done ++ [tx], HomeBlocks start (txBlocks t))
    (hrun : (do bootAndRun start done; openTx tx : LogM Unit) ⟨disk, none, bootMem 0⟩ = .ok () s) (k : Nat) :
    BootAtomic start disk done tx s k ↔ k ≤ (txBlocks tx).length ∨
        ∀ i (hi : i < (txBlocks tx).length), k ≤ (txBlocks tx).length + 1 + i →
          replay disk (done ++ [tx]) (txBlocks tx)[i] = replay disk done (txBlocks tx)[i] := by
  have houtTx : HomeBlocks start (txBlocks tx) := hout tx (by simp)
  obtain ⟨d, m, rfl, hin, hd⟩ := reach_endOp (fun t ht => hout t (by simp [ht])) hrun
  obtain ⟨w, m2, hm2, -, hhome, -⟩ := hin.endOp houtTx
  have hreached : headerReached d m k =
      (decide (entriesOf (txBlocks tx) (replayTx d tx) ≠ []) && decide ((txBlocks tx).length < k)) := by
    rw [(hin.logged houtTx rfl rfl rfl).headerReached_eq, entriesOf, length_map]
  have hafter : ∀ b, ¬ InLogArea start b → replayTx d tx b = replay disk (done ++ [tx]) b := by
    intro b hb
    rw [replay_append]
    exact replayTx_congr tx (hd b hb)
  -- `initlog` leaves the crashed disk as it is
  have hboot : BootAtomic start disk done tx ⟨d, none, m⟩ k ↔ ∀ b, ¬ InLogArea start b →
      applyWrites d ((entriesOf (txBlocks tx) (replayTx d tx)).take (k - ((txBlocks tx).length + 1))) b =
        replay disk (done ++ if headerReached d m k then [tx] else []) b := by
    have hini := (emits_initlog start (applyWrites d (w.take k))).run
    constructor
    · rintro ⟨e, m', he, hall⟩ b hb
      rw [← hhome k b hb, ← hall b hb]
      rw [hm2.diskAfter, hini] at he
      injection he with _ he
      exact congrArg (fun s => s.disk b) he
    · intro hall
      refine ⟨applyWrites d (w.take k), bootMem start, ?_, fun b hb => ?_⟩
      · rw [hm2.diskAfter]
        exact hini
      · rw [hhome k b hb]
        exact hall b hb
  rw [hboot]
  by_cases hk : k ≤ (txBlocks tx).length
  · -- the header was not written and nothing is installed
    refine iff_of_true (fun b hb => ?_) (Or.inl hk)
    have hfalse : headerReached d m k = false := by
      rw [hreached]
      simp [Nat.not_lt.mpr hk]
    rw [Nat.sub_eq_zero_of_le (by omega), take_zero, hfalse]
    simpa [applyWrites] using hd b hb
  have hwindow := installed_take_iff hin houtTx (k - ((txBlocks tx).length + 1))
  have hgoal : ∀ b, ¬ InLogArea start b →
      replay disk (done ++ if headerReached d m k then [tx] else []) b = replayTx d tx b := by
    intro b hb
    rw [hafter b hb, hreached]
    by_cases hnil : txBlocks tx = []
    · -- a transaction without writes changes nothing, committed or not
      have hsame : replayTx d tx b = d b := hin.unlogged b (by simp [hnil])
      rw [← hafter b hb, hsame, hd b hb]
      simp [entriesOf, hnil]
    · have hlt : (txBlocks tx).length < k := by omega
      simp [entriesOf, hnil, hlt]
  constructor
  · intro hall
    refine Or.inr fun i hi hki => ?_
    have hb := (houtTx _ (getElem_mem hi)).1
    rw [← hafter _ hb, ← hd _ hb]
    refine hwindow.mp (fun b hb => ?_) i hi (by omega)
    rw [hall b hb, hgoal b hb]
  · rintro (hk' | hsame) b hb
    · exact absurd hk' hk
    rw [hgoal b hb]
    refine hwindow.mpr (fun i hi hji => ?_) b hb
    have hb' := (houtTx _ (getElem_mem hi)).1
    rw [hafter _ hb', hd _ hb']
    exact hsame i hi (by omega)

/-- A transaction that sets block 50 to `oneBlock`. -/
def oneWriteTx : Tx := [.write 50 oneBlock]

/-- The state in which it reaches `end_op` after a boot on a zero disk with the log area at block 2. -/
def oneWriteState : Sys Mem Block where
  disk := fun _ => zeroBlock
  power := none
  mem := { cache := update (update (fun _ => none) 50 (some zeroBlock)) 50 (some oneBlock)
           pins := update (fun _ => 0) 50 1
           log := { start := 2, outstanding := 1, committing := false,
                    lh := { n := 1, block := update (fun _ => 0) 0 50 } } }

theorem oneWriteTx_reaches : (do bootAndRun 2 []; openTx oneWriteTx : LogM Unit)
    ⟨fun _ => zeroBlock, none, bootMem 0⟩ = .ok () oneWriteState := rfl

theorem initlog_atomic_oneWriteTx : BootAtomic 2 (fun _ => zeroBlock) [] oneWriteTx oneWriteState 1 := by
  refine (initlog_atomic_iff ?_ oneWriteTx_reaches 1).mpr (Or.inl (by decide))
  intro t ht b hb
  rw [nil_append, mem_singleton] at ht
  subst ht
  have hb50 : b = 50 := by simpa [txBlocks, txBlocksFrom, oneWriteTx, Action.addBlock] using hb
  subst hb50
  decide

/-- A crash right after the header write: the transaction is committed and the reboot loses it. -/
theorem initlog_loses_committed :
    (do bootAndRun 2 []; openTx oneWriteTx : LogM Unit) ⟨fun _ => zeroBlock, none, bootMem 0⟩ = .ok () oneWriteState ∧
      headerReached oneWriteState.disk oneWriteState.mem 2 = true ∧
      ¬ BootAtomic 2 (fun _ => zeroBlock) [] oneWriteTx oneWriteState 2 := by
  have hreached : headerReached oneWriteState.disk oneWriteState.mem 2 = true := by decide
  refine ⟨oneWriteTx_reaches, hreached, ?_⟩
  rintro ⟨e, m', hrun, hall⟩
  have hnew : e 50 = oneBlock := by
    rw [hall 50 (by decide), hreached]
    rfl
  have hbyte : (diskAfter (initlog 2 ⟨diskAfter (endOp ⟨oneWriteState.disk, some 2, oneWriteState.mem⟩),
      none, bootMem 0⟩) 50) 0 = 0 := by decide
  rw [hrun] at hbyte
  have hzero : e 50 0 = 0 := hbyte
  rw [hnew] at hzero
  exact absurd hzero (by decide)

end Xv6Lab.Logging
