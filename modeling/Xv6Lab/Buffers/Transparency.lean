import Xv6Lab.Buffers.Invariant

/-!
# The cache is transparent

On one device, and for blocks whose sectors fit in 32 bits, a session that has read a block and has not changed
it sees what was last left in the block by a holder that logged or wrote it (`buffer_cache_transparent`).

A block without a valid buffer is up to date on the disk, and so is a block whose buffer is not pinned; that is
why recycling an unused buffer loses nothing. `Contents.own` treats the steps of a session that has the lock:
they change one buffer and one block.
-/

namespace Xv6Lab.Buffers

open Function Lib.LinkedList Lib.Tally Lib.Transition Option State
open Logging.BufferCache (nbuf Slot)

variable {n : Nat} {D : Type} {logdev : Nat} {s t : State n D} {u v : Fin n} {x : Session} {k l : Slot}
  {p q : Option Stage} {c : Buf n D}

/-- The sector of the block fits in 32 bits. -/
def Fits (b : Nat) : Prop := b * (bsize / 512) < 2 ^ 32

theorem sector_inj {b c : Nat} (hb : Fits b) (hc : Fits c) (h : sector b = sector c) : b = c := by
  rw [sector, sector, Nat.mod_eq_of_lt hb, Nat.mod_eq_of_lt hc] at h
  exact Nat.eq_of_mul_eq_mul_right (by decide) h

/-- A session has changed the data of the buffer and has not yet logged or written them. -/
def Dirty (s : State n D) (k : Slot) : Prop := ∃ u x, s.use u = some x ∧ x.buf = k ∧ x.stage = .dirty

/-- What the buffers and the disk hold of the blocks of the log's device. -/
structure Contents (logdev : Nat) (s : State n D) : Prop where
  dev : ∀ k, (s.buf k).dev = 0 ∨ (s.buf k).dev = logdev ∧ Fits (s.buf k).blockno
  uncached : ∀ b, Fits b → (∀ k, (s.buf k).dev = logdev → (s.buf k).blockno = b → (s.buf k).valid = false) →
    s.disk (sector b) = s.left logdev b
  data : ∀ k, (s.buf k).dev = logdev → (s.buf k).valid = true → ¬ Dirty s k →
    (s.buf k).data = s.left logdev (s.buf k).blockno
  stored : ∀ k, (s.buf k).dev = logdev → (s.buf k).valid = true → (s.buf k).blockno ∉ s.pending →
    s.disk (sector (s.buf k).blockno) = s.left logdev (s.buf k).blockno
  written : ∀ u x, s.use u = some x → x.stage = .written → s.disk (sector x.blockno) = s.left logdev x.blockno
  valid : ∀ u x, s.use u = some x → x.stage.reads = true → (s.buf x.buf).valid = true

/-- The buffers hold the same blocks with the same data. -/
def SameData (s t : State n D) : Prop :=
  ∀ k, (t.buf k).dev = (s.buf k).dev ∧ (t.buf k).blockno = (s.buf k).blockno ∧
    (t.buf k).valid = (s.buf k).valid ∧ (t.buf k).data = (s.buf k).data

/-- Steps that change neither data nor disk, and after which no session reads that did not read before. -/
theorem Contents.frame (h : Contents logdev s) (hsame : SameData s t) (hdisk : t.disk = s.disk)
    (hleft : t.left = s.left) (hpending : ∀ b ∈ s.pending, b ∈ t.pending)
    (hreads : ∀ v y, t.use v = some y → y.stage.reads = true → s.use v = some y)
    (hdirty : ∀ v y, s.use v = some y → y.stage = .dirty → t.use v = some y) : Contents logdev t := by
  constructor
  · intro k
    rw [(hsame k).1, (hsame k).2.1]
    exact h.dev k
  · intro b hb hnone
    rw [hdisk, hleft]
    apply h.uncached b hb
    intro k hdev hblockno
    rw [← (hsame k).2.2.1]
    exact hnone k ((hsame k).1.trans hdev) ((hsame k).2.1.trans hblockno)
  · intro k hdev hvalid hclean
    rw [(hsame k).1] at hdev
    rw [(hsame k).2.2.1] at hvalid
    rw [(hsame k).2.2.2, (hsame k).2.1, hleft]
    apply h.data k hdev hvalid
    rintro ⟨v, y, hy, hbuf, hstage⟩
    exact hclean ⟨v, y, hdirty v y hy hstage, hbuf, hstage⟩
  · intro k hdev hvalid hfree
    rw [(hsame k).1] at hdev
    rw [(hsame k).2.2.1] at hvalid
    rw [(hsame k).2.1] at hfree ⊢
    rw [hdisk, hleft]
    exact h.stored k hdev hvalid fun hmem => hfree (hpending _ hmem)
  · intro v y hy hstage
    rw [hdisk, hleft]
    exact h.written v y (hreads v y hy (hstage ▸ rfl)) hstage
  · intro v y hy hstage
    rw [(hsame _).2.2.1]
    exact h.valid v y (hreads v y hy hstage) hstage

/-- The block of a session is on the log's device. -/
theorem Contents.session (h : Contents logdev s) (hinv : Inv logdev s) (hx : s.use u = some x) :
    x.dev = logdev ∧ Fits x.blockno := by
  obtain ⟨hdev, hblockno, hreal⟩ := hinv.session u x hx
  rcases h.dev x.buf with hzero | ⟨hd, hb⟩
  · omega
  · exact ⟨hdev.symm.trans hd, hblockno ▸ hb⟩

/-- A step of a session that has the lock: it leaves the other buffers and the other blocks alone. -/
theorem Contents.own {g : Stage} (h : Contents logdev s) (hinv : Inv logdev s) (hlogdev : 1 ≤ logdev)
    (hc : Change s t u x (some x.stage) (some g) c) (hholds : x.stage.holds = true)
    (hotherDisk : ∀ b, sector b ≠ sector x.blockno → t.disk (sector b) = s.disk (sector b))
    (hleft : ∀ b ≠ x.blockno, t.left logdev b = s.left logdev b)
    (hpending : ∀ b ∈ s.pending, b ≠ x.blockno → b ∈ t.pending) (hvalid : c.valid = true)
    (hdata : g ≠ .dirty → c.data = t.left logdev x.blockno)
    (hstored : x.blockno ∉ t.pending ∨ g = .written →
      t.disk (sector x.blockno) = t.left logdev x.blockno) : Contents logdev t := by
  have hx : s.use u = some x := hc.here
  have hself : t.use u = some { x with stage := g } := by
    rw [hc.use, update_self]
    rfl
  obtain ⟨hdev, hblockno, hreal⟩ := hinv.session u x hx
  have hmine := h.session hinv hx
  -- another buffer of the device holds another block
  have hother : ∀ k ≠ x.buf, (s.buf k).dev = logdev → Fits (s.buf k).blockno ∧ (s.buf k).blockno ≠ x.blockno := by
    intro k hk hd
    constructor
    · rcases h.dev k with hzero | ⟨-, hb⟩
      · omega
      · exact hb
    · intro hb
      exact hk (hinv.unique k x.buf (by omega) (by omega) (hb.trans hblockno.symm))
  have hdisk : ∀ b, Fits b → b ≠ x.blockno → t.disk (sector b) = s.disk (sector b) := by
    intro b hb hne
    exact hotherDisk b fun heq => hne (sector_inj hb hmine.2 heq)
  -- another session that reads has another buffer
  have hback : ∀ v y, v ≠ u → t.use v = some y → s.use v = some y := by
    intro v y hv hy
    rwa [hc.use, update_of_ne hv] at hy
  have hbuf : ∀ v y, v ≠ u → s.use v = some y → y.stage.reads = true → y.buf ≠ x.buf := by
    intro v y hv hy hreads heq
    exact hv (hinv.holder_unique hy hx (Stage.holds_of_reads hreads) hholds heq)
  constructor
  · intro k
    rw [(hc.keeps k).1, (hc.keeps k).2.1]
    exact h.dev k
  · intro b hb hnone
    by_cases heq : b = x.blockno
    · -- the block of the session has a valid buffer
      have hfalse := hnone x.buf (by rw [hc.self, hc.dev, hdev, hmine.1]) (by rw [hc.self, hc.blockno, hblockno, heq])
      rw [hc.self, hvalid] at hfalse
      cases hfalse
    rw [hdisk b hb heq, hleft b heq]
    apply h.uncached b hb
    intro k hd hbk
    have hk : k ≠ x.buf := by
      rintro rfl
      exact heq (hbk.symm.trans hblockno)
    rw [← hc.other hk] at hd hbk ⊢
    exact hnone k hd hbk
  · intro k hd hv hclean
    rcases eq_or_ne k x.buf with rfl | hk
    · rw [hc.self, hc.blockno, hblockno]
      apply hdata
      rintro rfl
      exact hclean ⟨u, _, hself, rfl, rfl⟩
    rw [hc.other hk] at hd hv ⊢
    rw [hleft _ (hother k hk hd).2]
    apply h.data k hd hv
    rintro ⟨v, y, hy, hyk, hdirty⟩
    apply hclean
    have hvu : v ≠ u := by
      rintro rfl
      rw [hx] at hy
      cases hy
      exact hk hyk.symm
    refine ⟨v, y, ?_, hyk, hdirty⟩
    rw [hc.use, update_of_ne hvu]
    exact hy
  · intro k hd hv hfree
    rcases eq_or_ne k x.buf with rfl | hk
    · rw [hc.self, hc.blockno, hblockno] at hfree ⊢
      exact hstored (.inl hfree)
    rw [hc.other hk] at hd hv hfree ⊢
    obtain ⟨hfits, hne⟩ := hother k hk hd
    rw [hdisk _ hfits hne, hleft _ hne]
    exact h.stored k hd hv fun hmem => hfree (hpending _ hmem hne)
  · intro v y hy hstage
    rcases eq_or_ne v u with rfl | hv
    · rw [hself] at hy
      cases hy
      exact hstored (.inr hstage)
    have hold := hback v y hv hy
    have hreads : y.stage.reads = true := hstage ▸ rfl
    obtain ⟨hyd, hyb, -⟩ := hinv.session v y hold
    have hyk := hbuf v y hv hold hreads
    obtain ⟨hfits, hne⟩ := hother y.buf hyk (hyd.trans (h.session hinv hold).1)
    rw [hyb] at hfits hne
    rw [hdisk _ hfits hne, hleft _ hne]
    exact h.written v y hold hstage
  · intro v y hy hreads
    rcases eq_or_ne v u with rfl | hv
    · rw [hself] at hy
      cases hy
      rw [hc.self]
      exact hvalid
    · have hold := hback v y hv hy
      rw [hc.other (hbuf v y hv hold hreads)]
      exact h.valid v y hold hreads

/-! ## The steps -/

theorem Inv.not_dirty (h : Inv logdev s) (hx : s.use u = some x) (hholds : x.stage.holds = true)
    (hstage : x.stage ≠ .dirty) : ¬ Dirty s x.buf := by
  rintro ⟨v, y, hy, hbuf, hdirty⟩
  have hv := h.holder_unique hy hx (hdirty ▸ rfl) hholds hbuf
  subst hv
  rw [hx] at hy
  cases hy
  exact hstage hdirty

/-- A session comes, goes or passes to a stage in which it does not read; it had not changed the data. -/
theorem Contents.restage (h : Contents logdev s) (hc : Change s t u x p q c)
    (hsame : c.valid = (s.buf x.buf).valid ∧ c.data = (s.buf x.buf).data)
    (hrest : t.disk = s.disk ∧ t.left = s.left ∧ t.pending = s.pending) (hq : q.any Stage.reads = false)
    (hclean : p ≠ some .dirty) : Contents logdev t := by
  obtain ⟨hdisk, hleft, hpending⟩ := hrest
  apply h.frame _ hdisk hleft
  · intro b hb
    rwa [hpending]
  · intro v z hz hreads
    rw [hc.use] at hz
    rcases eq_or_ne v u with rfl | hv
    · rw [update_self] at hz
      obtain ⟨stage, rfl, rfl⟩ := map_eq_some_iff.mp hz
      exact absurd (hreads.symm.trans hq) Bool.noConfusion
    · rwa [update_of_ne hv] at hz
  · intro v z hz hdirty
    have hv : v ≠ u := by
      rintro rfl
      rw [hc.here] at hz
      obtain ⟨stage, rfl, rfl⟩ := map_eq_some_iff.mp hz
      exact hclean (congrArg some hdirty)
    rw [hc.use, update_of_ne hv]
    exact hz
  · intro k
    rcases eq_or_ne k x.buf with rfl | hk
    · rw [hc.self]
      exact ⟨hc.dev, hc.blockno, hsame⟩
    · rw [hc.other hk]
      exact ⟨rfl, rfl, rfl, rfl⟩

/-- What a session leaves in its block. -/
theorem leave_left (b : Nat) (hdev : x.dev = logdev) :
    (s.leave x).left logdev b = if b = x.blockno then (s.buf x.buf).data else s.left logdev b := by
  subst hdev
  simp [leave, update_apply]

/-- What `log_write` does: the block is pending, and nothing else is lost. -/
theorem Inv.logWrite_some (h : Inv logdev s) (ht : s.logWrite k = some t) :
    (∃ refcnt, t.buf = update s.buf k { s.buf k with refcnt }) ∧ t.use = s.use ∧ t.disk = s.disk ∧ t.left = s.left ∧
      (s.buf k).blockno ∈ t.pending ∧ ∀ b ∈ s.pending, b ∈ t.pending := by
  obtain ⟨hout, hcase⟩ := logWrite_eq_some ht
  have hcommit := h.inOp hout
  have hpending : s.pending = s.log := by simp [pending, hcommit]
  rcases hcase with ⟨hmem, rfl⟩ | ⟨-, rfl⟩
  · exact ⟨⟨_, (update_eq_self ..).symm⟩, rfl, rfl, rfl, by rwa [hpending], fun _ hb => hb⟩
  · have hpending' : pending { s.bpin k with log := s.log ++ [(s.buf k).blockno] } =
        s.log ++ [(s.buf k).blockno] := by
      simp [pending, bpin, setBuf, hcommit]
    rw [hpending, hpending']
    exact ⟨⟨_, rfl⟩, rfl, rfl, rfl, List.mem_append_right _ List.mem_cons_self, fun _ => List.mem_append_left _⟩

section Session

variable (h : Contents logdev s) (hinv : Inv logdev s) (hlogdev : 1 ≤ logdev) (hx : s.use u = some x)

include h hinv hlogdev hx

/-- The rest of `bread`: a valid buffer is up to date, and a block without a valid buffer is so on the disk. -/
theorem Contents.bread (hstage : x.stage = .locked) :
    Contents logdev ((s.bread x.buf).setUse u (some { x with stage := .clean })) := by
  obtain ⟨hdev, hblockno, -⟩ := hinv.session u x hx
  obtain ⟨hmine, hfits⟩ := h.session hinv hx
  have hholds : x.stage.holds = true := hstage ▸ rfl
  rw [State.bread]
  split
  next hvalid =>
    refine h.own (g := .clean) hinv hlogdev ⟨hx, rfl, (update_eq_self ..).symm, rfl, rfl, id⟩ hholds (fun _ _ => rfl)
      (fun _ _ => rfl) (fun _ hb _ => hb) hvalid ?_ ?_
    · intro _
      rw [← hblockno]
      exact h.data x.buf (hdev.trans hmine) hvalid (hinv.not_dirty hx hholds (by rw [hstage]; decide))
    · rw [← hblockno]
      exact fun hcase => h.stored x.buf (hdev.trans hmine) hvalid (hcase.resolve_right Stage.noConfusion)
  next hvalid =>
    -- the only buffer of the block is not valid
    have hdisk : s.disk (sector x.blockno) = s.left logdev x.blockno := by
      apply h.uncached x.blockno hfits
      intro k hd hb
      rw [hinv.unique k x.buf (by omega) (by omega) (by omega)]
      exact Bool.eq_false_iff.mpr hvalid
    refine h.own (g := .clean) hinv hlogdev ⟨hx, rfl, rfl, rfl, rfl, fun _ => rfl⟩ hholds (fun _ _ => rfl)
      (fun _ _ => rfl) (fun _ hb _ => hb) rfl ?_ ?_
    · intro _
      rw [hblockno]
      exact hdisk
    · exact fun _ => hdisk

theorem Contents.modify (hreads : x.stage.reads = true) (v : D) :
    Contents logdev ((s.setBuf x.buf { s.buf x.buf with data := v }).setUse u (some { x with stage := .dirty })) := by
  obtain ⟨hdev, hblockno, -⟩ := hinv.session u x hx
  have hvalid := h.valid u x hx hreads
  refine h.own (g := .dirty) hinv hlogdev ⟨hx, rfl, rfl, rfl, rfl, id⟩ (Stage.holds_of_reads hreads) (fun _ _ => rfl)
    (fun _ _ => rfl) (fun _ hb _ => hb) hvalid ?_ ?_
  · exact fun hne => absurd rfl hne
  · rw [← hblockno]
    exact fun hcase => h.stored x.buf (hdev.trans (h.session hinv hx).1) hvalid (hcase.resolve_right Stage.noConfusion)

/-- The data that are logged are what was last left in the block, which is pinned. -/
theorem Contents.logWrite (hreads : x.stage.reads = true) (ht : s.logWrite x.buf = some t) :
    Contents logdev ((t.leave x).setUse u (some { x with stage := .clean })) := by
  obtain ⟨-, hblockno, -⟩ := hinv.session u x hx
  have hmine := (h.session hinv hx).1
  obtain ⟨⟨refcnt, hbuf⟩, huse, hdisk, hleft, hnew, hsub⟩ := hinv.logWrite_some ht
  have hdata : (t.buf x.buf).data = (s.buf x.buf).data := by rw [hbuf, update_self]
  have hleave : ∀ b, ((t.leave x).setUse u (some { x with stage := .clean })).left logdev b =
      if b = x.blockno then (t.buf x.buf).data else t.left logdev b := fun b => leave_left b hmine
  refine h.own (g := .clean) hinv hlogdev ⟨hx, huse ▸ rfl, hbuf, rfl, rfl, id⟩ (Stage.holds_of_reads hreads)
    (fun b _ => congrFun hdisk (sector b)) (fun b hb => ?_) (fun b hb _ => hsub b hb) (h.valid u x hx hreads) ?_ ?_
  · rw [hleave, if_neg hb, hleft]
  · intro _
    rw [hleave, if_pos rfl, hdata]
  · rw [hblockno] at hnew
    exact fun hcase => absurd hnew (hcase.resolve_right Stage.noConfusion)

theorem Contents.bwrite (hreads : x.stage.reads = true) :
    Contents logdev (((s.bwrite x.buf).leave x).setUse u (some { x with stage := .written })) := by
  obtain ⟨-, hblockno, -⟩ := hinv.session u x hx
  have hmine := (h.session hinv hx).1
  have hleave : ∀ b, (((s.bwrite x.buf).leave x).setUse u (some { x with stage := .written })).left logdev b =
      if b = x.blockno then (s.buf x.buf).data else s.left logdev b := fun b => leave_left b hmine
  have hdisk : ∀ c, (((s.bwrite x.buf).leave x).setUse u (some { x with stage := .written })).disk c =
      if c = sector x.blockno then (s.buf x.buf).data else s.disk c := by
    intro c
    rw [← hblockno]
    exact update_apply ..
  refine h.own (g := .written) hinv hlogdev ⟨hx, rfl, (update_eq_self ..).symm, rfl, rfl, id⟩
    (Stage.holds_of_reads hreads) (fun b hb => ?_) (fun b hb => ?_) (fun b hb _ => hb) (h.valid u x hx hreads) ?_ ?_
  · rw [hdisk, if_neg hb]
  · rw [hleave, if_neg hb]
  · intro _
    rw [hleave, if_pos rfl]
    rfl
  · intro _
    rw [hdisk, if_pos rfl, hleave, if_pos rfl]

/-- Only a block that is written is unpinned. -/
theorem Contents.bunpin {i : Nat} (hstage : x.stage = .written) (hcommit : s.commit = some i)
    (hentry : s.log[i]? = some x.blockno)
    (ht : t = { (s.bunpin x.buf).setUse u (some { x with stage := .clean }) with commit := some (i + 1) }) :
    Contents logdev t := by
  obtain ⟨hdev, hblockno, -⟩ := hinv.session u x hx
  have hmine := (h.session hinv hx).1
  have hholds : x.stage.holds = true := hstage ▸ rfl
  have hvalid := h.valid u x hx (hstage ▸ rfl)
  subst ht
  have hpending := pending_unpin (t := { (s.bunpin x.buf).setUse u (some { x with stage := .clean }) with
    commit := some (i + 1) }) hcommit hentry rfl rfl
  refine h.own (g := .clean) hinv hlogdev ⟨hx, rfl, rfl, rfl, rfl, id⟩ hholds (fun _ _ => rfl) (fun _ _ => rfl)
    (fun b hb hne => ?_) hvalid ?_ ?_
  · rw [hpending, List.mem_cons] at hb
    exact hb.resolve_left hne
  · intro _
    rw [← hblockno]
    exact h.data x.buf (hdev.trans hmine) hvalid (hinv.not_dirty hx hholds (by rw [hstage]; decide))
  · exact fun _ => h.written u x hx hstage

theorem Contents.act {o : Op D} (hact : act logdev s u x o = some t) : Contents logdev t := by
  cases o with
  | acquiresleep =>
    obtain ⟨⟨hstage, -⟩, rfl⟩ := ite_some_none_eq_some.mp hact
    refine h.restage (p := some x.stage) (q := some .locked) ⟨hx, rfl, rfl, rfl, rfl, id⟩ ⟨rfl, rfl⟩ ⟨rfl, rfl, rfl⟩
      rfl ?_
    rw [hstage]
    decide
  | bread =>
    obtain ⟨hstage, rfl⟩ := ite_some_none_eq_some.mp hact
    exact h.bread hinv hlogdev hx hstage
  | modify v =>
    obtain ⟨hreads, rfl⟩ := ite_some_none_eq_some.mp hact
    exact h.modify hinv hlogdev hx hreads v
  | logWrite =>
    obtain ⟨⟨hreads, -⟩, ht⟩ := ite_none_right_eq_some.mp hact
    obtain ⟨t', ht', rfl⟩ := map_eq_some_iff.mp ht
    exact h.logWrite hinv hlogdev hx hreads ht'
  | bwrite =>
    obtain ⟨hreads, rfl⟩ := ite_some_none_eq_some.mp hact
    exact h.bwrite hinv hlogdev hx hreads
  | releasesleep =>
    obtain ⟨hstage, rfl⟩ := ite_some_none_eq_some.mp hact
    refine h.restage (p := some x.stage) (q := some .leaving) ⟨hx, rfl, rfl, rfl, rfl, id⟩ ⟨rfl, rfl⟩ ⟨rfl, rfl, rfl⟩
      rfl ?_
    rcases hstage with hs | hs <;> rw [hs] <;> decide
  | brelse =>
    obtain ⟨hstage, rfl⟩ := ite_some_none_eq_some.mp hact
    have hclean : some x.stage ≠ some .dirty := by
      rw [hstage]
      decide
    rw [brelse]
    split
    · exact h.restage (p := some x.stage) (q := none) ⟨hx, rfl, rfl, rfl, rfl, id⟩ ⟨rfl, rfl⟩ ⟨rfl, rfl, rfl⟩ rfl
        hclean
    · exact h.restage (p := some x.stage) (q := none) ⟨hx, rfl, rfl, rfl, rfl, id⟩ ⟨rfl, rfl⟩ ⟨rfl, rfl, rfl⟩ rfl
        hclean
  | bunpin =>
    rw [Buffers.act] at hact
    split at hact
    next i hcommit =>
      obtain ⟨⟨hstage, -, hentry⟩, ht⟩ := ite_none_right_eq_some.mp hact
      exact h.bunpin hinv hlogdev hx hstage hcommit hentry (some.inj ht).symm
    · cases hact

end Session

/-- An unused buffer is not pinned, so its block is up to date on the disk. -/
theorem Contents.miss {dev b : Nat} (h : Contents logdev s) (hinv : Inv logdev s) (hlogdev : 1 ≤ logdev)
    (hu : s.use u = none) (hdev : dev = logdev) (hfits : Fits b) (hk : s.unused = some k) :
    Contents logdev ((s.recycle k dev b).setUse u (some ⟨dev, b, k, .waiting⟩)) := by
  subst hdev
  have hzero := hinv.unused_some hk
  have hrefs : s.refs k = 0 := by
    have hcount := hinv.refcnt k
    omega
  obtain ⟨t, ht⟩ : ∃ t, t = (s.recycle k dev b).setUse u (some ⟨dev, b, k, .waiting⟩) := ⟨_, rfl⟩
  obtain ⟨hself, hother, huse, hrest⟩ := recycle_cases ht
  -- a session that reads has a buffer with a reference
  have hreads : ∀ v y, t.use v = some y → y.stage.reads = true → s.use v = some y ∧ y.buf ≠ k := by
    intro v y hy hstage
    rw [huse] at hy
    rcases eq_or_ne v u with rfl | hv
    · rw [update_self] at hy
      cases hy
      cases hstage
    · rw [update_of_ne hv] at hy
      exact ⟨hy, ne_buf hrefs hy⟩
  rw [← ht]
  constructor
  · intro l
    rcases eq_or_ne l k with rfl | hl
    · rw [hself]
      exact .inr ⟨rfl, hfits⟩
    · rw [hother l hl]
      exact h.dev l
  · intro c hc hinvalid
    rw [hrest.1, hrest.2.1]
    by_cases hold : (s.buf k).dev = dev ∧ (s.buf k).blockno = c ∧ (s.buf k).valid = true
    · -- the block that loses its buffer
      obtain ⟨hd, rfl, hvalid⟩ := hold
      apply h.stored k hd hvalid
      intro hmem
      have hpos := hinv.refcnt_pos hd hmem
      omega
    · apply h.uncached c hc
      intro l hd hb
      rcases eq_or_ne l k with rfl | hl
      · rw [Bool.eq_false_iff]
        intro hvalid
        exact hold ⟨hd, hb, hvalid⟩
      · rw [← hother l hl] at hd hb ⊢
        exact hinvalid l hd hb
  · intro l hd hvalid hclean
    have hl : l ≠ k := by
      rintro rfl
      rw [hself] at hvalid
      cases hvalid
    rw [hother l hl] at hd hvalid ⊢
    rw [hrest.2.1]
    apply h.data l hd hvalid
    rintro ⟨v, y, hy, hbuf, hdirty⟩
    have hv : v ≠ u := by
      rintro rfl
      rw [hu] at hy
      cases hy
    refine hclean ⟨v, y, ?_, hbuf, hdirty⟩
    rw [huse, update_of_ne hv]
    exact hy
  · intro l hd hvalid hfree
    have hl : l ≠ k := by
      rintro rfl
      rw [hself] at hvalid
      cases hvalid
    rw [hother l hl] at hd hvalid hfree ⊢
    rw [hrest.2.2] at hfree
    rw [hrest.1, hrest.2.1]
    exact h.stored l hd hvalid hfree
  · intro v y hy hstage
    rw [hrest.1, hrest.2.1]
    exact h.written v y (hreads v y hy (hstage ▸ rfl)).1 hstage
  · intro v y hy hstage
    obtain ⟨hold, hne⟩ := hreads v y hy hstage
    rw [hother _ hne]
    exact h.valid v y hold hstage

/-- The log changes without losing a pending block. -/
theorem Contents.setLog {log : List Nat} {outstanding : Nat} {commit : Option Nat} (h : Contents logdev s)
    (hpending : ∀ b ∈ s.pending, b ∈ pending { s with log, outstanding, commit }) :
    Contents logdev { s with log, outstanding, commit } :=
  h.frame (fun _ => ⟨rfl, rfl, rfl, rfl⟩) rfl rfl hpending (fun _ _ hy _ => hy) fun _ _ hy _ => hy

theorem Contents.next {a : Action n D} (h : Contents logdev s) (hinv : Inv logdev s) (hlogdev : 1 ≤ logdev)
    (hok : OneDevice logdev s a) (hnext : next logdev s a = some t) : Contents logdev t := by
  cases a with
  | bget u dev b =>
    obtain ⟨hdev, hfits⟩ := hok
    obtain ⟨hu, ⟨k, hk, rfl⟩ | ⟨-, k, hk, rfl⟩⟩ := next_bget hnext
    · exact h.restage (x := ⟨dev, b, k, .waiting⟩) (p := none) (q := some .waiting) ⟨hu, rfl, rfl, rfl, rfl, id⟩
        ⟨rfl, rfl⟩ ⟨rfl, rfl, rfl⟩ rfl (by decide)
    · exact h.miss hinv hlogdev hu hdev hfits hk
  | op u o =>
    obtain ⟨x, hx, hact⟩ := bind_eq_some_iff.mp hnext
    exact h.act hinv hlogdev hx hact
  | beginOp =>
    obtain ⟨-, ht⟩ := ite_none_left_eq_some.mp hnext
    cases ht
    exact h.setLog fun _ hb => hb
  | endOp =>
    obtain ⟨hout, ht⟩ := ite_none_left_eq_some.mp hnext
    have hcommit := hinv.inOp (Nat.pos_of_ne_zero hout)
    split at ht
    · cases ht
      apply h.setLog
      intro b hb
      simpa [pending, hcommit] using hb
    · cases ht
      exact h.setLog fun _ hb => hb
  | clear =>
    obtain ⟨hcommit, rfl⟩ := ite_some_none_eq_some.mp hnext
    apply h.setLog
    intro b hb
    simp [pending, hcommit] at hb

theorem Contents.initial (hinit : Initial s) (hlogdev : 1 ≤ logdev) : Contents logdev s := by
  obtain ⟨data, disk, rfl⟩ := hinit
  constructor
  · intro k
    exact .inl rfl
  · intro b _ _
    rfl
  · intro k hdev
    rw [← hdev] at hlogdev
    cases hlogdev
  · intro k hdev
    rw [← hdev] at hlogdev
    cases hlogdev
  · intro u x hx
    cases hx
  · intro u x hx
    cases hx

/-! ## Runs -/

theorem inv_of_reachable (h : Reachable Initial (next logdev) RealDevices s) : Inv logdev s :=
  h.invariant (Inv logdev) (fun _ => Inv.initial) fun _ _ _ hinv hok hnext => (hinv.next hnext).1 hok

theorem contents_of_reachable (hlogdev : 1 ≤ logdev) (h : Reachable Initial (next logdev) (OneDevice logdev) s) :
    Inv logdev s ∧ Contents logdev s := by
  apply h.invariant fun s => Inv logdev s ∧ Contents logdev s
  · intro s hinit
    exact ⟨Inv.initial hinit, Contents.initial hinit hlogdev⟩
  intro s a t hs hok hnext
  have hreal : RealDevices s a := by
    cases a with
    | bget u dev b => exact hok.1 ▸ hlogdev
    | op | beginOp | endOp | clear => trivial
  exact ⟨(hs.1.next hnext).1 hreal, hs.2.next hs.1 hlogdev hok hnext⟩

/-- The cache keeps one copy per block and is transparent. In every run on real devices the list has each buffer
once in both directions, no two buffers hold the same block, a buffer with references is not recycled, and a
reference count is the number of holders, waiters, sessions that are leaving `brelse`, and pins. In every run
on the log's device, whoever has read a block and not changed it since sees what was last left in it. -/
theorem buffer_cache_transparent (hlogdev : 1 ≤ logdev) :
    (∀ s : State n D, Reachable Initial (next logdev) RealDevices s →
      (s.forwards.Perm (List.finRange nbuf) ∧ s.backwards = s.forwards.reverse) ∧
      (∀ k l, 1 ≤ (s.buf k).dev → (s.buf k).dev = (s.buf l).dev → (s.buf k).blockno = (s.buf l).blockno → k = l) ∧
      (∀ a t k, next logdev s a = some t → 0 < (s.buf k).refcnt →
        (t.buf k).dev = (s.buf k).dev ∧ (t.buf k).blockno = (s.buf k).blockno ∧
          ((s.buf k).valid = true → (t.buf k).valid = true)) ∧
      ∀ k, (s.buf k).refcnt = s.holders k + s.waiters k + s.leavers k + s.pins logdev k) ∧
    ∀ s : State n D, Reachable Initial (next logdev) (OneDevice logdev) s →
      ∀ u x, s.use u = some x → x.stage.reads = true → x.stage ≠ .dirty →
        (s.buf x.buf).dev = x.dev ∧ (s.buf x.buf).blockno = x.blockno ∧
          (s.buf x.buf).data = s.left x.dev x.blockno := by
  constructor
  · intro s hs
    have hinv := inv_of_reachable hs
    obtain ⟨-, hperm, hback⟩ := hinv.forwards
    refine ⟨⟨hperm, hback⟩, hinv.unique, fun a t k hnext => (hinv.next hnext).2 k, fun k => ?_⟩
    rw [hinv.refcnt, refs_eq]
  · intro s hs u x hx hreads hclean
    obtain ⟨hinv, hcontents⟩ := contents_of_reachable hlogdev hs
    obtain ⟨hdev, hblockno, -⟩ := hinv.session u x hx
    have hmine := (hcontents.session hinv hx).1
    refine ⟨hdev, hblockno, ?_⟩
    rw [hmine, ← hblockno]
    apply hcontents.data x.buf (hdev.trans hmine) (hcontents.valid u x hx hreads)
    exact hinv.not_dirty hx (Stage.holds_of_reads hreads) hclean

/-- A block is read, changed, logged and released by one session and then read by another, which sees the
change. -/
theorem logged_block_read_back : ∃ s : State 2 Nat, Reachable Initial (next 1) (OneDevice 1) s ∧
    ∃ x, s.use 1 = some x ∧ x.blockno = 5 ∧ (s.buf x.buf).data = 7 := by
  have hrun : (run (next 1) (initial 0 fun _ => 0) [.beginOp, .bget 0 1 5, .op 0 .acquiresleep, .op 0 .bread,
      .op 0 (.modify 7), .op 0 .logWrite, .op 0 .releasesleep, .op 0 .brelse, .bget (1 : Fin 2) 1 5,
      .op 1 .acquiresleep, .op 1 .bread]).map (fun s => (s.use 1, s.left 1 5)) =
      some (some ⟨1, 5, 0, .clean⟩, 7) := by
    decide +kernel
  obtain ⟨s, hs, hres⟩ := map_eq_some_iff.mp hrun
  simp only [Prod.mk.injEq] at hres
  have hreach : Reachable Initial (next 1) (OneDevice 1) s :=
    reachable_run_of (.start ⟨0, _, rfl⟩) (by simp [OneDevice, bsize]) hs
  obtain ⟨-, -, hdata⟩ := (buffer_cache_transparent (le_refl 1)).2 s hreach 1 _ hres.1 rfl (by decide)
  exact ⟨s, hreach, _, hres.1, rfl, hdata.trans hres.2⟩

/-- What does not hold. A session that has released the sleep-lock and not yet its reference is counted, but
neither holds nor waits. Two devices share one disk, so a block of one device shows what was written to the
other. And on one device the sectors of two blocks can coincide in 32 bits. -/
theorem counts_and_contents_elsewhere :
    (∃ s : State 1 Nat, Reachable Initial (next 1) RealDevices s ∧
      ∃ k, (s.buf k).refcnt ≠ s.holders k + s.waiters k + s.pins 1 k) ∧
    (∃ s : State 2 Nat, Reachable Initial (next 1) RealDevices s ∧
      ∃ u x, s.use u = some x ∧ x.stage = .clean ∧ x.dev = 2 ∧ (s.buf x.buf).data ≠ s.left x.dev x.blockno) ∧
    ∃ s : State 2 Nat, Reachable Initial (next 1) RealDevices s ∧ (∀ k, (s.buf k).dev ≤ 1) ∧
      ∃ u x, s.use u = some x ∧ x.stage = .clean ∧ x.dev = 1 ∧ (s.buf x.buf).data ≠ s.left x.dev x.blockno := by
  refine ⟨?_, ?_, ?_⟩
  · have hrun : (run (next 1) (initial 0 fun _ => 0) [.bget (0 : Fin 1) 1 5, .op 0 .acquiresleep, .op 0 .bread,
        .op 0 .releasesleep]).map (fun s => ((s.buf 0).refcnt, s.holders 0 + s.waiters 0 + s.pins 1 0)) =
        some (1, 0) := by
      decide +kernel
    obtain ⟨s, hs, hres⟩ := map_eq_some_iff.mp hrun
    simp only [Prod.mk.injEq] at hres
    refine ⟨s, reachable_run_of (.start ⟨0, _, rfl⟩) (by simp [RealDevices]) hs, 0, ?_⟩
    rw [hres.1, hres.2]
    decide
  · have hrun : (run (next 1) (initial 0 fun _ => 0) [.bget (0 : Fin 2) 1 5, .op 0 .acquiresleep, .op 0 .bread,
        .op 0 (.modify 7), .op 0 .bwrite, .bget 1 2 5, .op 1 .acquiresleep, .op 1 .bread]).map
          (fun s => (s.use 1, (s.buf 1).data, s.left 2 5)) = some (some ⟨2, 5, 1, .clean⟩, 7, 0) := by
      decide +kernel
    obtain ⟨s, hs, hres⟩ := map_eq_some_iff.mp hrun
    simp only [Prod.mk.injEq] at hres
    refine ⟨s, reachable_run_of (.start ⟨0, _, rfl⟩) (by simp [RealDevices]) hs, 1, _, hres.1, rfl, rfl, ?_⟩
    rw [hres.2.1, hres.2.2]
    decide
  · have hrun : (run (next 1) (initial 0 fun _ => 0) [.bget (0 : Fin 2) 1 5, .op 0 .acquiresleep, .op 0 .bread,
        .op 0 (.modify 7), .op 0 .bwrite, .bget 1 1 (2 ^ 31 + 5), .op 1 .acquiresleep, .op 1 .bread]).map
          (fun s => (s.use 1, (s.buf 1).data, s.left 1 (2 ^ 31 + 5), decide (∀ k, (s.buf k).dev ≤ 1))) =
        some (some ⟨1, 2 ^ 31 + 5, 1, .clean⟩, 7, 0, true) := by
      decide +kernel
    obtain ⟨s, hs, hres⟩ := map_eq_some_iff.mp hrun
    simp only [Prod.mk.injEq, decide_eq_true_eq] at hres
    refine ⟨s, reachable_run_of (.start ⟨0, _, rfl⟩) (by simp [RealDevices]) hs, hres.2.2.2, 1, _, hres.1, rfl,
      rfl, ?_⟩
    rw [hres.2.1, hres.2.2.1]
    decide

end Xv6Lab.Buffers
