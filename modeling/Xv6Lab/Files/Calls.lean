import Xv6Lab.Files.References

/-!
# The calls keep the counts exact

One rule for each function of the file layer, then one for each system call, on every path. `file_refs_exact`
follows by induction over a run.
-/

namespace Xv6Lab.Files

open Function List File

open Xv6Lab.FileSys (FileKind FileType)
open Xv6Lab.Process (Proc ProcState adoptAll)
open Lib.Exec Lib.Handles Lib.Transition

variable {s : State} {loose owed : Multiset (Fin nfile)} {pending : List Token} {ends : List (Nat × Bool)}
  {initproc p np : Fin nproc} {fd : Fin nofile} {f : Fin nfile} {pi opening : Nat} {x : Int}

/-- The program does not stop. -/
abbrev Never : Stop → Prop := fun _ => False

section Effects

variable {Q : Unit → State → Prop} {E : Stop → Prop}

theorem wp_setFile {e : File} : wp (setFile f e) Q E s ↔ Q () { s with file := update s.file f e } := wp_modify

theorem wp_setOfile {v : Option (Fin nfile)} : wp (setOfile p fd v) Q E s ↔
    Q () { s with ofile := update s.ofile p (update (s.ofile p) fd v) } := wp_modify

theorem wp_modifyProc {g : Proc → Proc} :
    wp (modifyProc p g) Q E s ↔ Q () { s with proc := update s.proc p (g (s.proc p)) } := wp_modify

theorem wp_setPipe {v : Option PipeEnds} :
    wp (setPipe pi v) Q E s ↔ Q () { s with pipe := update s.pipe pi v } := wp_modify

theorem wp_release {k : Token} : wp (release k) Q E s ↔ Q () { s with released := k :: s.released } := wp_modify

theorem wp_acquire {P : Nat → State → Prop} {r : Resource} : wp (acquire r) P E s ↔
    P s.acquired.length { s with acquired := (s.acquired.length, r) :: s.acquired } := by
  unfold acquire
  rw [wp_bind, wp_get, wp_bind, wp_set, wp_pure]

end Effects

/-! ## The file table -/

/-- `filealloc` returns an entry that stands for nothing, with one reference that nothing holds. -/
theorem filealloc_spec (h : Inv s loose owed pending ends) :
    wp filealloc (fun r t => match r with
      | none => t = s
      | some f => Inv t (f ::ₘ loose) owed pending ends ∧ (t.file f).kind = .none ∧ SameProcs s t ∧
          (s.file f).ref = 0 ∧ ∀ g ≠ f, t.file g = s.file g) Never s := by
  refine wp_bind.mpr (wp_get.mpr ?_)
  split
  · exact wp_pure.mpr rfl
  next f hf =>
  have href : (s.file f).ref = 0 := by simpa using find?_some hf
  have hkind : (s.file f).kind = .none := h.unused f href
  refine wp_bind.mpr (wp_setFile.mpr (wp_pure.mpr ⟨?_, ?_, ⟨rfl, rfl⟩, href, fun g hg => ?_⟩))
  · refine h.setRef rfl rfl (fun h0 => absurd h0 Nat.one_ne_zero) (h.refs.count ?_ refs_setFile_of_ne)
    rw [refs_setFile_self, State.refs, href]
  · show (update s.file f _ f).kind = .none
    rw [update_self]
    exact hkind
  · exact update_of_ne hg _ _

/-- The first entry without a reference is the one that `filealloc` returns. -/
theorem filealloc_first (hunused : (s.file f).ref = 0) (hfirst : ∀ g < f, (s.file g).ref ≠ 0) :
    ∃ t, filealloc s = .ok (some f) t := by
  have hfind : (finRange nfile).find? (fun g => (s.file g).ref = 0) = some f := by
    rw [find?_eq_some_iff_getElem]
    refine ⟨decide_eq_true hunused, f.val, ?_, ?_, fun j hj => ?_⟩
    · rw [length_finRange]
      exact f.isLt
    · exact getElem_finRange _
    have hj' : j < nfile := hj.trans f.isLt
    have hne : (s.file ⟨j, hj'⟩).ref ≠ 0 := hfirst _ hj
    rw [getElem_finRange]
    exact congrArg Bool.not (decide_eq_false hne)
  unfold filealloc
  rw [bind_of_ok (x := get) (s := s) (a := s) (t := s) rfl, hfind]
  exact ⟨_, rfl⟩

theorem filedup_spec (h : Inv s loose owed pending ends) (hpos : 0 < (s.file f).ref) :
    wp (filedup f) (fun _ t => Inv t (f ::ₘ loose) owed pending ends ∧ SameProcs s t) Never s := by
  refine wp_bind.mpr (wp_get.mpr ?_)
  rw [if_neg (by omega)]
  refine wp_setFile.mpr ⟨?_, rfl, rfl⟩
  refine h.setRef rfl rfl (fun h0 => absurd h0 (Nat.succ_ne_zero _)) (h.refs.count ?_ refs_setFile_of_ne)
  rw [refs_setFile_self, State.refs]

theorem pipeclose_spec {w : Bool} (h : Inv s loose owed ((opening, .pipeEnd pi w) :: pending) ((pi, w) :: ends)) :
    wp (pipeclose pi w opening) (fun _ t => Inv t loose owed pending ends ∧ SameProcs s t) Never s := by
  obtain ⟨e, he, -⟩ := (h.pipes.cover (pi, w)).mpr (.inr mem_cons_self)
  refine wp_bind.mpr (wp_get.mpr ?_)
  rw [show s.pipe pi = some e from he]
  exact wp_bind.mpr (wp_setPipe.mpr (wp_release.mpr ⟨(h.closeEnd he).release, rfl, rfl⟩))

theorem iput_spec {ip : Nat} (h : Inv s loose owed ((opening, .inode ip) :: pending) ends) :
    wp (iput ip opening) (fun _ t => Inv t loose owed pending ends ∧ SameProcs s t) Never s :=
  wp_release.mpr ⟨h.release, rfl, rfl⟩

/-- `fileclose` gives up a reference; with the last one it gives back what the entry stands for. -/
theorem fileclose_spec (h : Inv s (f ::ₘ loose) owed pending ends) (hpos : 0 < (s.file f).ref) :
    wp (fileclose f) (fun _ t => Inv t loose owed pending ends ∧ SameProcs s t) Never s := by
  refine wp_bind.mpr (wp_get.mpr ?_)
  rw [if_neg (by omega)]
  split
  next hmore =>
    refine wp_setFile.mpr ⟨?_, rfl, rfl⟩
    refine h.setRef rfl rfl (fun h0 => ?_) (h.refs.drop ?_ refs_setFile_of_ne)
    · exact absurd h0 hmore.ne'
    · rw [refs_setFile_self, State.refs]
      exact Nat.sub_add_cancel hpos
  next hlast =>
    have hone : (s.file f).ref = 1 := by omega
    have hclear := h.clear hone
    refine wp_bind.mpr (wp_setFile.mpr ?_)
    cases hkind : (s.file f).kind with
    | none =>
      rw [token, pipeEnd, hkind] at hclear
      exact wp_pure.mpr ⟨hclear, rfl, rfl⟩
    | pipe =>
      rw [token, pipeEnd, hkind] at hclear
      exact pipeclose_spec hclear
    | inode | device =>
      rw [token, pipeEnd, hkind] at hclear
      exact iput_spec hclear

/-- Closing a reference that nothing holds. -/
theorem fileclose_loose (h : Inv s (f ::ₘ loose) 0 pending ends) :
    wp (fileclose f) (fun _ t => Inv t loose 0 pending ends ∧ SameProcs s t) Never s :=
  fileclose_spec h h.refs.pos_of_loose

/-! ## Descriptors -/

theorem argfd_eq_some (h : argfd s p x = some (fd, f)) : s.ofile p fd = some f := by
  unfold argfd at h
  split at h
  · obtain ⟨g, hg, heq⟩ := Option.map_eq_some_iff.mp h
    cases heq
    exact hg
  · cases h

/-- `fdalloc` moves a loose reference into an empty descriptor. -/
theorem fdalloc_spec (h : Inv s (f ::ₘ loose) owed pending ends) (hlive : Live s p) :
    wp (fdalloc p f) (fun r t => match r with
      | none => t = s
      | some fd => Inv t loose owed pending ends ∧ s.ofile p fd = none ∧
          t = { s with ofile := update s.ofile p (update (s.ofile p) fd (some f)) })
      Never s := by
  refine wp_bind.mpr (wp_get.mpr ?_)
  split
  · exact wp_pure.mpr rfl
  next fd hfd =>
    have hfound := find?_some hfd
    have hempty : s.ofile p fd = none := Option.isNone_iff_eq_none.mp hfound
    exact wp_bind.mpr (wp_setOfile.mpr (wp_pure.mpr ⟨h.store hlive hempty, hempty, rfl⟩))

theorem sysDup_spec (h : Steady s) (hlive : Live s p) : wp (sysDup p x) (fun _ t => Steady t) Never s := by
  refine wp_bind.mpr (wp_get.mpr ?_)
  split
  · exact wp_pure.mpr h
  next y f hf =>
  have hpos : 0 < s.refs f := h.refs.pos_of_hold (h := (p, y)) (argfd_eq_some hf)
  -- the new descriptor is there before its reference is counted
  refine wp_then (fdalloc_spec (inv_borrow.mpr h) hlive) fun r t ht => ?_
  cases r with
  | none =>
    obtain rfl : t = s := ht
    exact wp_pure.mpr h
  | some fd =>
    obtain ⟨hinv, -, rfl⟩ := ht
    refine wp_then (filedup_spec hinv hpos) fun _ u hu => ?_
    exact wp_pure.mpr (inv_borrow.mp hu.1)

theorem sysClose_spec (h : Steady s) : wp (sysClose p x) (fun _ t => Steady t) Never s := by
  refine wp_bind.mpr (wp_get.mpr ?_)
  split
  · exact wp_pure.mpr h
  next fd f hf =>
    refine wp_bind.mpr (wp_setOfile.mpr ?_)
    refine wp_then (fileclose_loose (h.take (argfd_eq_some hf))) fun _ t ht => ?_
    exact wp_pure.mpr ht.1

/-! ## Opening files -/

theorem openInode_token (e : File) (ip : Found) (omode : BitVec 32) (opening : Nat) :
    (e.openInode ip omode opening).token = some (opening, .inode ip.ip) := by
  unfold openInode
  split <;> rfl

theorem openInode_pipeEnd (e : File) (ip : Found) (omode : BitVec 32) (opening : Nat) :
    (e.openInode ip omode opening).pipeEnd = none := by
  unfold openInode
  split <;> rfl

theorem openInode_ref (e : File) (ip : Found) (omode : BitVec 32) (opening : Nat) :
    (e.openInode ip omode opening).ref = e.ref := by
  unfold openInode
  split <;> rfl

/-- On a failing path the reference to the inode is given back. -/
theorem iput_fail {ip : Nat} (h : Inv s 0 0 [(opening, .inode ip)] []) :
    wp (do iput ip opening; pure (-1 : Int)) (fun _ t => Steady t) Never s :=
  wp_then (iput_spec h) fun _ _ ht => wp_pure.mpr ht.1

theorem sysOpen_spec {omode : BitVec 32} {found : Option Found} (h : Steady s) (hlive : Live s p) :
    wp (sysOpen p omode found) (fun _ t => Steady t) Never s := by
  cases found with
  | none => exact wp_pure.mpr h
  | some ip =>
    have hacq := h.acquire (.inode ip.ip)
    refine wp_bind.mpr (wp_acquire.mpr ?_)
    split
    · exact iput_fail hacq
    split
    · exact iput_fail hacq
    refine wp_then (filealloc_spec hacq) fun r t ht => ?_
    cases r with
    | none =>
      subst ht
      exact iput_fail hacq
    | some f =>
      obtain ⟨hinv, hkind, hsame, -⟩ := ht
      refine wp_then (fdalloc_spec hinv (hsame.live hlive)) fun r u hu => ?_
      cases r with
      | none =>
        subst hu
        -- the entry still stands for nothing, so `fileclose` does not call `iput`
        refine wp_then (fileclose_loose hinv) fun _ v hv => ?_
        exact iput_fail hv.1
      | some fd =>
        obtain ⟨hstored, -, rfl⟩ := hu
        have hheld : 0 < (t.file f).ref := hinv.refs.pos_of_loose
        refine wp_bind.mpr (wp_get.mpr (wp_bind.mpr (wp_setFile.mpr (wp_pure.mpr ?_))))
        refine hstored.attach hkind (openInode_ref _ _ _ _) hheld (openInode_token _ _ _ _) ?_
        refine hstored.pipes.congr (apply_update_of_eq pipeEnd ?_) fun _ => Iff.rfl
        rw [openInode_pipeEnd, pipeEnd, if_neg]
        rw [hkind]
        exact FileKind.noConfusion

/-! ## Pipes -/

/-- An entry that stands for nothing becomes an open end of a pipe. -/
theorem setEnd_spec {w : Bool} (h : Inv s loose owed pending ((pi, w) :: ends))
    (hkind : (s.file f).kind = .none) (hpos : 0 < (s.file f).ref) :
    wp (setEnd f pi w) (fun _ t => Inv t loose owed pending ends ∧ SameProcs s t ∧
      ∀ g ≠ f, t.file g = s.file g) Never s := by
  refine wp_bind.mpr (wp_acquire.mpr (wp_bind.mpr (wp_get.mpr (wp_setFile.mpr ⟨?_, ⟨rfl, rfl⟩, ?_⟩))))
  · refine (h.acquire (.pipeEnd pi w)).attach hkind rfl hpos rfl ?_
    refine h.pipes.attach (e := f) ?_ ?_ fun g hg => ?_
    · rw [pipeEnd, if_neg]
      rw [hkind]
      exact FileKind.noConfusion
    · rw [update_self]
      rfl
    · rw [update_of_ne hg]
  · intro g hg
    exact update_of_ne hg _ _

theorem kalloc_eq_some {page : Option Nat} (h : kalloc page s = some pi) : s.pipe pi = none := by
  obtain ⟨-, hfree⟩ := Option.filter_eq_some_iff.mp h
  exact Option.isNone_iff_eq_none.mp hfree

theorem pipealloc_spec {page : Option Nat} (h : Steady s) :
    wp (pipealloc page) (fun r t => SameProcs s t ∧ match r with
      | none => Steady t
      | some (rf, wf) => Inv t (rf ::ₘ wf ::ₘ 0) 0 [] []) Never s := by
  refine wp_then (filealloc_spec h) fun r t ht => ?_
  cases r with
  | none =>
    subst ht
    exact wp_pure.mpr ⟨⟨rfl, rfl⟩, h⟩
  | some f0 =>
    obtain ⟨hinv, hkind0, hsame, -⟩ := ht
    have hpos0 : 0 < t.refs f0 := hinv.refs.pos_of_loose
    refine wp_then (filealloc_spec hinv) fun r u hu => ?_
    cases r with
    | none =>
      subst hu
      refine wp_then (fileclose_loose hinv) fun _ v hv => ?_
      exact wp_pure.mpr ⟨hsame.trans hv.2, hv.1⟩
    | some f1 =>
      obtain ⟨hinv1, hkind1, hsame1, href1, hframe⟩ := hu
      have hpos1 : 0 < u.refs f1 := hinv1.refs.pos_of_loose
      have hne : f0 ≠ f1 := by
        rintro rfl
        exact hpos0.ne' href1
      have hsame01 := hsame.trans hsame1
      rw [Multiset.cons_swap] at hinv1
      refine wp_bind.mpr (wp_get.mpr ?_)
      split
      · refine wp_then (fileclose_loose hinv1) fun _ v hv => ?_
        refine wp_then (fileclose_loose hv.1) fun _ w hw => ?_
        exact wp_pure.mpr ⟨hsame01.trans (hv.2.trans hw.2), hw.1⟩
      next pi hpi =>
      have hopen := hinv1.openEnds (kalloc_eq_some hpi)
      rw [← hframe f0 hne] at hkind0
      have hpos0 : 0 < u.refs f0 := hinv1.refs.pos_of_loose
      refine wp_bind.mpr (wp_setPipe.mpr ?_)
      refine wp_then (setEnd_spec hopen hkind0 hpos0) fun _ v hv => ?_
      obtain ⟨hinv2, hsame2, hframe2⟩ := hv
      have hf1 : v.file f1 = u.file f1 := hframe2 f1 hne.symm
      refine wp_then (setEnd_spec hinv2 (f := f1) ?_ ?_) fun _ w hw => ?_
      · rw [hf1]
        exact hkind1
      · rw [hf1]
        exact hpos1
      · exact wp_pure.mpr ⟨hsame01.trans (hsame2.trans hw.2.1), hw.1⟩

/-- The failing paths of `pipeCall` close both ends. -/
theorem closeBoth_spec {rf wf : Fin nfile} (h : Inv s (rf ::ₘ wf ::ₘ 0) 0 [] []) :
    wp (do fileclose rf; fileclose wf; pure (-1 : Int)) (fun _ t => Steady t) Never s := by
  refine wp_then (fileclose_loose h) fun _ t ht => ?_
  refine wp_then (fileclose_loose ht.1) fun _ u hu => ?_
  exact wp_pure.mpr hu.1

/-- A call that cannot report its descriptors takes them back. -/
theorem takeBoth_spec {rf wf : Fin nfile} {fd0 fd1 : Fin nofile} (h : Steady s) (hne : fd0 ≠ fd1)
    (h0 : s.ofile p fd0 = some rf) (h1 : s.ofile p fd1 = some wf) :
    wp (do setOfile p fd0 none; setOfile p fd1 none; fileclose rf; fileclose wf; pure (-1 : Int))
      (fun _ t => Steady t) Never s := by
  refine wp_bind.mpr (wp_setOfile.mpr (wp_bind.mpr (wp_setOfile.mpr ?_)))
  have htaken := (h.take h0).take ((ofile_setOfile_of_ne hne.symm none).trans h1)
  rw [Multiset.cons_swap] at htaken
  exact closeBoth_spec htaken

theorem pipeCall_spec {env : PipeEnv} (h : Steady s) (hlive : Live s p) :
    wp (pipeCall p env) (fun _ t => Steady t) Never s := by
  refine wp_then (pipealloc_spec h) fun r t ht => ?_
  obtain ⟨hsame, ht⟩ := ht
  match r with
  | none => exact wp_pure.mpr ht
  | some (rf, wf) =>
    have hlive1 := hsame.live hlive
    refine wp_then (fdalloc_spec ht hlive1) fun r u hu => ?_
    cases r with
    | none =>
      subst hu
      exact closeBoth_spec ht
    | some fd0 =>
      obtain ⟨hinv, -, rfl⟩ := hu
      refine wp_then (fdalloc_spec hinv hlive1) fun r v hv => ?_
      cases r with
      | none =>
        subst hv
        refine wp_bind.mpr (wp_setOfile.mpr ?_)
        exact closeBoth_spec (hinv.take (ofile_setOfile_self _))
      | some fd1 =>
        obtain ⟨hinv1, hempty1, rfl⟩ := hv
        have hrf := @ofile_setOfile_self p fd0 t.ofile (some rf)
        have hne : fd0 ≠ fd1 := by
          rintro rfl
          exact Option.some_ne_none rf (hrf.symm.trans hempty1)
        dsimp only
        split
        · refine takeBoth_spec hinv1 hne ?_ (ofile_setOfile_self _)
          exact (ofile_setOfile_of_ne hne (some wf)).trans hrf
        · exact wp_pure.mpr hinv1

/-! ## Processes -/

/-- The entry that `allocproc` returns was unused; otherwise nothing changes. -/
theorem allocproc_spec {env : ForkEnv} (h : Steady s) :
    wp (allocproc env) (fun r t => Steady t ∧ t.ofile = s.ofile ∧ match r with
      | none => True
      | some np => (s.proc np).state = .unused ∧ Live t np) Never s := by
  refine wp_bind.mpr (wp_get.mpr ?_)
  split
  · exact wp_pure.mpr ⟨h, rfl, trivial⟩
  next np hnp =>
  have hfound := find?_some hnp
  have hunused : (s.proc np).state = .unused := of_decide_eq_true hfound
  have hidle : ∀ fd, s.ofile np fd = none := h.idle np fun hlive => hlive.1 hunused
  have hused : Steady { s with proc := update s.proc np ((s.proc np).alloc s.nextpid), nextpid := s.nextpid + 1 } :=
    h.setProc fun _ => hidle
  refine wp_bind.mpr (wp_set.mpr ?_)
  split
  · refine wp_bind.mpr (wp_modifyProc.mpr (wp_pure.mpr ⟨hused.setProc fun _ => hidle, rfl, trivial⟩))
  refine wp_pure.mpr ⟨hused, rfl, hunused, ?_⟩
  rw [Live]
  dsimp only
  rw [update_self]
  exact ⟨ProcState.noConfusion, ProcState.noConfusion⟩

/-- The loop over the descriptors of the parent; those of the child that are still to come are empty. -/
theorem dupFiles_spec (fds : List (Fin nofile)) (h : Steady s) (hlive : Live s np)
    (hnodup : fds.Nodup) (hempty : ∀ fd ∈ fds, s.ofile np fd = none) :
    wp (dupFiles p np fds) (fun _ t => Steady t) Never s := by
  induction fds generalizing s with
  | nil => exact wp_pure.mpr h
  | cons fd fds ih =>
    obtain ⟨hnotin, hnodup⟩ := nodup_cons.mp hnodup
    refine wp_bind.mpr (wp_get.mpr ?_)
    split
    · exact ih h hlive hnodup fun x hx => hempty x (mem_cons_of_mem fd hx)
    next f hf =>
    have hpos : 0 < s.refs f := h.refs.pos_of_hold (h := (p, fd)) hf
    refine wp_then (filedup_spec h hpos) fun _ t ht => ?_
    obtain ⟨hinv, hsame⟩ := ht
    have hempty' : ∀ x ∈ fd :: fds, t.ofile np x = none := by
      rw [hsame.1]
      exact hempty
    have hstored := hinv.store (hsame.live hlive) (hempty' fd mem_cons_self)
    refine wp_bind.mpr (wp_setOfile.mpr (ih hstored (hsame.live hlive) hnodup fun x hx => ?_))
    have hx' : x ≠ fd := by
      rintro rfl
      exact hnotin hx
    exact (ofile_setOfile_of_ne hx' _).trans (hempty' x (mem_cons_of_mem fd hx))

theorem spawn_spec {env : ForkEnv} (h : Steady s) : wp (spawn p env) (fun _ t => Steady t) Never s := by
  refine wp_then (allocproc_spec h) fun r t ht => ?_
  obtain ⟨hinv, hofile, ht⟩ := ht
  cases r with
  | none => exact wp_pure.mpr hinv
  | some np =>
    obtain ⟨hunused, hnp⟩ := ht
    have hidle : ∀ fd, t.ofile np fd = none := by
      rw [hofile]
      exact h.idle np fun hl => hl.1 hunused
    dsimp only
    split
    · exact wp_bind.mpr (wp_modifyProc.mpr (wp_pure.mpr (hinv.setProc fun _ => hidle)))
    refine wp_then (dupFiles_spec _ hinv hnp (nodup_finRange nofile) fun fd _ => hidle fd) fun _ u hu => ?_
    refine wp_bind.mpr (wp_modifyProc.mpr (wp_pure.mpr (hu.setProc ?_)))
    rintro (hst | hst)
    · cases hst
    · cases hst

/-- The loop over the descriptors of a process that exits. -/
theorem closeFiles_spec (fds : List (Fin nofile)) (h : Steady s) :
    wp (closeFiles p fds) (fun _ t => Steady t ∧
      ∀ fd, fd ∈ fds ∨ s.ofile p fd = none → t.ofile p fd = none) Never s := by
  induction fds generalizing s with
  | nil => exact wp_pure.mpr ⟨h, fun fd hfd => hfd.resolve_left not_mem_nil⟩
  | cons fd fds ih =>
    refine wp_bind.mpr (wp_get.mpr ?_)
    split
    next hnone =>
      refine wp_post (ih h) fun _ t ht => ⟨ht.1, fun x hx => ht.2 x ?_⟩
      rcases hx with hx | hx
      · rcases mem_cons.mp hx with rfl | hx
        · exact .inr hnone
        · exact .inl hx
      · exact .inr hx
    next f hf =>
      -- the file is closed while the descriptor still points to it
      have hpos : 0 < s.refs f := h.refs.pos_of_hold (h := (p, fd)) hf
      refine wp_then (fileclose_spec (inv_borrow.mpr h) hpos) fun _ t ht => ?_
      obtain ⟨hinv, hsame⟩ := ht
      have hfd : t.ofile p fd = some f := by
        rw [hsame.1]
        exact hf
      have htaken := inv_borrow.mp (hinv.take hfd)
      refine wp_bind.mpr (wp_setOfile.mpr (wp_post (ih htaken) fun _ u hu => ⟨hu.1, fun x hx => hu.2 x ?_⟩))
      rcases eq_or_ne x fd with rfl | hxfd
      · exact .inr (ofile_setOfile_self none)
      rcases hx with hx | hx
      · exact .inl ((mem_cons.mp hx).resolve_left hxfd)
      right
      refine (ofile_setOfile_of_ne hxfd none).trans ?_
      rw [hsame.1]
      exact hx

theorem wp_never {α : Type} {prog : EStateM Stop State α} {Q : α → State → Prop} {E : Stop → Prop}
    (h : wp prog Q Never s) : wp prog Q E s :=
  wp_mono h (fun _ _ => id) fun _ => False.elim

theorem adoptAll_state (initproc p q : Fin nproc) (proc : Fin nproc → Proc) :
    (adoptAll initproc p proc q).state = (proc q).state := by
  unfold adoptAll
  split <;> rfl

theorem kexit_spec {status : Int} (h : Steady s) :
    wp (kexit initproc p status) (fun _ t => Steady t) (fun e => e = .panic "init exiting") s := by
  unfold kexit
  split
  · exact wp_throw.mpr rfl
  · refine wp_then (wp_never (closeFiles_spec _ h)) fun _ t ht => ?_
    have hadopted : Steady { t with proc := adoptAll initproc p t.proc } := by
      refine ht.1.setProcs fun q hlive hq => ?_
      rw [adoptAll_state] at hq
      exact absurd hlive hq
    refine wp_bind.mpr (wp_modify.mpr (wp_modifyProc.mpr ?_))
    exact hadopted.setProc fun _ fd => ht.2 fd (.inl (mem_finRange fd))

theorem kwait_spec {q : Fin nproc} (h : Steady s) : wp (kwait p q) (fun _ t => Steady t) Never s := by
  refine wp_bind.mpr (wp_get.mpr ?_)
  split
  next hchild => exact wp_modifyProc.mpr (h.setProc fun _ => h.idle q fun hl => hl.2 hchild.2)
  · exact wp_pure.mpr h

/-! ## Runs -/

/-- A call keeps the invariant; the only panic is that of `kexit` in `initproc`. -/
theorem Call.prog_spec (h : Steady s) (hlive : Live s p) (c : Call) :
    wp (c.prog initproc p) (fun _ t => Steady t) (fun e => e = .panic "init exiting") s := by
  cases c with
  | sysOpen omode found => exact wp_map.mpr (wp_never (sysOpen_spec h hlive))
  | sysPipe env => exact wp_map.mpr (wp_never (pipeCall_spec h hlive))
  | sysPipe2 env flags => exact wp_map.mpr (wp_never (pipeCall_spec h hlive))
  | sysDup fd => exact wp_map.mpr (wp_never (sysDup_spec h hlive))
  | sysClose fd => exact wp_map.mpr (wp_never (sysClose_spec h))
  | kfork env => exact wp_map.mpr (wp_never (spawn_spec h))
  | sysThreadCreate stack env =>
    refine wp_map.mpr (wp_never ?_)
    unfold Files.sysThreadCreate
    split
    · exact wp_pure.mpr h
    · exact spawn_spec h
  | kexit status => exact kexit_spec h
  | kwait q => exact wp_never (kwait_spec h)

theorem reachable_steady (h : Reachable (fun s => s = bootFiles initproc) (next initproc) noGuard s) : Steady s := by
  refine h.invariant Steady ?_ fun s a t hs _ hnext => ?_
  · rintro s rfl
    exact bootFiles_steady initproc
  · obtain ⟨hlive, hafter⟩ := Option.ite_none_right_eq_some.mp hnext
    exact wp_after (Call.prog_spec hs hlive a.2) (fun _ _ => id) hafter

/-- A descriptor of process `p` stands for the resource `k`. -/
def Describes (s : State) (p : Fin nproc) (fd : Fin nofile) (k : Token) : Prop :=
  ∃ f, s.ofile p fd = some f ∧ (s.file f).token = some k

/-- A resource is outstanding as long as a descriptor stands for it. -/
theorem outstanding_iff (h : Steady s) (k : Token) : s.Outstanding k ↔ ∃ p fd, Describes s p fd k := by
  rw [h.tokens.cover k]
  constructor
  · rintro (⟨f, hf⟩ | hk)
    · have hpos : 0 < s.refs f := by
        refine Nat.pos_of_ne_zero fun h0 => ?_
        rw [token, h.unused f h0] at hf
        cases hf
      rw [h.refs.ref_eq f] at hpos
      obtain ⟨⟨p, fd⟩, -, hhold⟩ := Lib.Tally.tally_pos.mp hpos
      exact ⟨p, fd, f, hhold, hf⟩
    · cases hk
  · rintro ⟨p, fd, f, -, hf⟩
    exact .inl ⟨f, hf⟩

/-- The end of a pipe is open as long as a descriptor stands for it. -/
theorem endOpen_iff (h : Steady s) (pi : Nat) (w : Bool) :
    s.EndOpen (pi, w) ↔ ∃ p fd opening, Describes s p fd (opening, .pipeEnd pi w) := by
  have hend : ∀ f, (s.file f).pipeEnd = some (pi, w) ↔
      (s.file f).token = some ((s.file f).opening, .pipeEnd pi w) := by
    intro f
    unfold pipeEnd token
    cases (s.file f).kind <;> simp
  rw [h.pipes.cover (pi, w)]
  constructor
  · rintro (⟨f, hf⟩ | hk)
    · obtain ⟨p, fd, hd⟩ := (outstanding_iff h _).mp (h.tokens.isOpen_of_carries ((hend f).mp hf))
      exact ⟨p, fd, _, hd⟩
    · cases hk
  · rintro ⟨p, fd, n, f, -, hf⟩
    refine .inl ⟨f, (hend f).mpr ?_⟩
    have hn : n = (s.file f).opening := by
      unfold token at hf
      cases hk : (s.file f).kind <;> rw [hk] at hf <;> simp at hf
      exact hf.1.symm
    rw [hf, hn]

/-- Between any two system calls of any run: the count of an entry of the file table is the number of descriptors
that point to it; an entry with count 0 is pointed to by none, and `filealloc` can return it; no call panics in
`filedup` or `fileclose`, or uses a pipe that is gone; and an end of a pipe or a reference to an inode that a call
acquired has not been given back while a descriptor stands for it, and has been given back once after that. -/
theorem file_refs_exact (h : Reachable (fun s => s = bootFiles initproc) (next initproc) noGuard s) :
    (∀ f, (s.file f).ref = (Finset.univ.filter fun x : Fin nproc × Fin nofile => s.ofile x.1 x.2 = some f).card) ∧
    (∀ f, (s.file f).ref = 0 → (∀ p fd, s.ofile p fd ≠ some f) ∧
      ((∀ g < f, (s.file g).ref ≠ 0) → ∃ t, filealloc s = .ok (some f) t)) ∧
    (∀ p c e, Live s p → stopOf (Call.prog initproc p c) s = some e → e = .panic "init exiting") ∧
    (∀ k ∈ s.acquired, ((∃ p fd, Describes s p fd k) → k ∉ s.released) ∧
      ((¬ ∃ p fd, Describes s p fd k) → s.released.count k = 1)) ∧
    (∀ k ∈ s.released, k ∈ s.acquired) ∧
    ∀ pi w, s.EndOpen (pi, w) ↔ ∃ p fd opening, Describes s p fd (opening, .pipeEnd pi w) := by
  have hinv := reachable_steady h
  refine ⟨hinv.refs.ref_eq, fun f h0 => ⟨fun p fd hfd => ?_, filealloc_first h0⟩, fun p c e hlive he => ?_,
    fun k hk => ⟨fun hd => ?_, fun hd => ?_⟩, hinv.known, endOpen_iff hinv⟩
  · exact (hinv.refs.pos_of_hold (h := (p, fd)) hfd).ne' h0
  · exact wp_stopOf (E := fun e => e = .panic "init exiting") (Call.prog_spec hinv hlive c) he
  · exact ((outstanding_iff hinv k).mpr hd).2
  · refine count_eq_one_of_mem hinv.once ?_
    by_contra hrel
    exact hd ((outstanding_iff hinv k).mp ⟨hk, hrel⟩)

/-- `initproc` opens the console and duplicates the descriptor, fails to report the descriptors of a pipe, and
forks; the child closes one of its descriptors. -/
def consoleTrace (page : Nat) : List (Fin nproc × Call) :=
  [(0, .sysOpen oRdwr (some ⟨7, .device, 1⟩)), (0, .sysDup 0), (0, .sysPipe ⟨some page, true, false⟩),
    (0, .kfork ⟨true, true⟩), (1, .sysClose 0)]

/-- Three descriptors are left for the console, and both ends of the pipe have been given back. -/
theorem file_refs_exact_console : ∃ s : State, (s.file 0).ref = 3 ∧ s.released.length = 2 ∧
    (Finset.univ.filter fun x : Fin nproc × Fin nofile => s.ofile x.1 x.2 = some 0).card = 3 := by
  have hrun : ((run (next 0) (bootFiles 0) (consoleTrace 5)).map fun s =>
      ((s.file 0).ref, s.released.length)) = some (3, 2) := by
    decide +kernel
  obtain ⟨s, hs, heq⟩ := Option.map_eq_some_iff.mp hrun
  obtain ⟨href, hrel⟩ := Prod.mk.inj heq
  obtain ⟨hexact, -⟩ := file_refs_exact (reachable_run (.start rfl) hs)
  exact ⟨s, href, hrel, (hexact 0).symm.trans href⟩

end Xv6Lab.Files
