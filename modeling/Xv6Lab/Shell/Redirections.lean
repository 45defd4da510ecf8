import Xv6Lab.Params
import Xv6Lab.Shell.Acceptance

/-!
# Redirections of a simple command

The parser nests the redirections of a command in the order they are written, the last one outermost, and `runcmd`
opens the files from the outside in. The last open for a descriptor is therefore the one written first
(`runcmd_wrap`): a command with two redirections of one descriptor runs with the file of the first one
(`redirections_reversed`). Each descriptor has the file of its last redirection exactly if that is the file of its
first one (`redirections_iff`).
-/

namespace Xv6Lab.Shell

open Function

/-! ## Descriptors -/

/-- What a descriptor refers to: a file opened by the shell, or something it was started with. -/
inductive Target
  | file (name : List UInt8) (mode : Nat)
  | inherited (k : Nat)
  deriving DecidableEq

/-- `p->ofile`. -/
abbrev Table := Nat → Option Target

abbrev oRdwr : Nat := 0x002

/-- The loop of `fdalloc`. -/
def fdalloc (t : Table) : Option Nat := (List.range nofile).find? fun fd => t fd = none

def close (t : Table) (fd : Nat) : Table := update t fd none

/-- `open` of a file that can be opened. -/
def openFile (name : List UInt8) (mode : Nat) (t : Table) : Option (Nat × Table) :=
  (fdalloc t).map fun fd => (fd, update t fd (some (.file name mode)))

def console : List UInt8 := ['c', 'o', 'n', 's', 'o', 'l', 'e'].map ofChar

/-- The first loop of `main`; a fourth round finds no descriptor below 3. -/
def openConsole : Nat → Table → Table
  | 0, t => t
  | n + 1, t =>
    match openFile console oRdwr t with
    | none => t
    | some (fd, u) => if 3 ≤ fd then close u fd else openConsole n u

/-- `runcmd` up to `exec`, with the descriptors `exec` finds; `none` if the process exits before. A command that is
not simple forks instead of calling `exec` itself. -/
def runcmd (buf : Buf) : Cmd → Table → Option Table
  | .exec argv, t => if argv = [] then none else some t
  | .redir cmd file _ mode fd, t =>
    (openFile (cstring buf file) mode (close t fd)).bind fun r => runcmd buf cmd r.2
  | .pipe _ _, _ | .list _ _, _ | .back _, _ => none

/-- A line that `main` hands to a child; `t` are the descriptors the shell is started with. -/
def runLine (fuel : Nat) (buf : Buf) (t : Table) : Option Table :=
  match parsecmd fuel buf with
  | .ok (cmd, buf') => runcmd buf' cmd (openConsole 4 t)
  | .error _ => none

/-! ## Opening the standard descriptors -/

/-- Descriptors 0 and 1 are open. -/
def Std (t : Table) : Prop := t 0 ≠ none ∧ t 1 ≠ none

theorem fdalloc_spec {t : Table} : (fdalloc t = none ∧ ∀ fd < nofile, t fd ≠ none) ∨
      ∃ fd, fdalloc t = some fd ∧ t fd = none ∧ ∀ k < fd, t k ≠ none := by
  cases h : fdalloc t with
  | none =>
    left
    simpa [fdalloc] using h
  | some fd =>
    right
    simp only [fdalloc, List.find?_range_eq_some, decide_eq_true_eq] at h
    refine ⟨fd, rfl, h.1, fun k hk => ?_⟩
    simpa using h.2.2 k hk

/-- Every round fills the lowest free descriptor, so that the loop ends with the first three open. -/
theorem openConsole_std (n : Nat) : ∀ t : Table, (∀ k, k + n < 4 → t k ≠ none) → Std (openConsole n t) := by
  induction n with
  | zero =>
    intro t h
    exact ⟨h 0 (by decide), h 1 (by decide)⟩
  | succ n ih =>
    intro t h
    rw [openConsole, openFile]
    rcases fdalloc_spec (t := t) with ⟨hnone, hfull⟩ | ⟨fd, hsome, hfree, hbelow⟩
    · rw [hnone]
      exact ⟨hfull 0 (by decide), hfull 1 (by decide)⟩
    rw [hsome]
    simp only [Option.map_some]
    split
    next h3 =>
      simp only [close, update_idem, Std]
      rw [update_of_ne (by omega), update_of_ne (by omega)]
      exact ⟨hbelow 0 (by omega), hbelow 1 (by omega)⟩
    · refine ih _ fun k hk => ?_
      rcases Nat.lt_trichotomy k fd with hlt | rfl | hgt
      · rw [update_of_ne hlt.ne]
        exact hbelow k hlt
      · simp
      · exact absurd hfree (h fd (by omega))

/-! ## Opening the files of the redirections -/

variable {buf : Buf} {t : Table} {fd : Nat}

/-- With descriptors 0 and 1 open, a redirection puts its file at its descriptor. -/
theorem openFile_close (h : Std t) (op : RedirOp) (name : List UInt8) :
    openFile name op.mode (close t op.fd) = some (op.fd, update t op.fd (some (.file name op.mode))) := by
  have hfd : op.fd = 0 ∨ op.fd = 1 := by cases op <;> simp [RedirOp.fd]
  rcases fdalloc_spec (t := close t op.fd) with ⟨-, hfull⟩ | ⟨k, hk, hfree, hbelow⟩
  · exact absurd (update_self ..) (hfull op.fd (by rcases hfd with h | h <;> rw [h] <;> decide))
  have hle : k ≤ op.fd := by
    by_contra hlt
    exact hbelow op.fd (by omega) (update_self ..)
  have hkey : k = op.fd := by
    by_contra hne
    rw [close, update_of_ne hne] at hfree
    have h0 : k = 0 := by omega
    exact h.1 (h0 ▸ hfree)
  rw [openFile, hk, hkey, Option.map_some, close, update_idem]

/-- The descriptors after the files of some redirections have been opened from the last to the first. -/
def opened (buf : Buf) (rs : List Redir) (t : Table) : Table :=
  rs.foldr (fun r t => update t r.op.fd (some (.file (cstring buf r.file) r.op.mode))) t

theorem std_opened (h : Std t) (rs : List Redir) : Std (opened buf rs t) := by
  induction rs with
  | nil => exact h
  | cons r rs ih =>
    constructor <;> simp only [opened, List.foldr_cons, update_apply] <;> split
    · simp
    · exact ih.1
    · simp
    · exact ih.2

/-- `runcmd` opens the files from the last redirection to the first. -/
theorem runcmd_wrap (h : Std t) (cmd : Cmd) (rs : List Redir) :
    runcmd buf (wrap cmd rs) t = runcmd buf cmd (opened buf rs t) := by
  induction rs generalizing cmd with
  | nil => rfl
  | cons r rs ih =>
    -- the first redirection is the innermost node
    refine (ih (.redir cmd r.file r.efile r.op.mode r.op.fd)).trans ?_
    rw [runcmd, openFile_close (std_opened h rs), Option.bind_some]
    rfl

/-- The redirections of a descriptor. -/
def redirsOf (rs : List Redir) (fd : Nat) : List Redir := rs.filter fun r => r.op.fd = fd

/-- A descriptor has the file of its first redirection. -/
theorem opened_eq (rs : List Redir) : opened buf rs t fd =
    (redirsOf rs fd).head?.elim (t fd) fun r => some (.file (cstring buf r.file) r.op.mode) := by
  induction rs with
  | nil => rfl
  | cons r rs ih =>
    rw [opened, List.foldr_cons, update_apply, redirsOf, List.filter_cons]
    by_cases hr : r.op.fd = fd
    · simp [hr]
    · simp only [hr, Ne.symm hr, decide_false, if_false]
      exact ih

/-! ## Which redirection takes effect -/

/-- The descriptor refers to the file of its last redirection, or is unchanged if it has none. -/
def LastWins (buf : Buf) (rs : List Redir) (fd : Nat) (t u : Table) : Prop :=
  (redirsOf rs fd).getLast?.elim (u fd = t fd) fun r => ∃ mode, u fd = some (.file (text buf (r.file, r.efile)) mode)

/-- The first and the last redirection of the descriptor name the same file. -/
def FirstIsLast (buf : Buf) (rs : List Redir) (fd : Nat) : Prop :=
  (redirsOf rs fd).head?.map (fun r => text buf (r.file, r.efile)) =
    (redirsOf rs fd).getLast?.map fun r => text buf (r.file, r.efile)

theorem lastWins_iff {buf' : Buf} {rs : List Redir}
    (htext : ∀ r ∈ rs, cstring buf' r.file = text buf (r.file, r.efile)) :
    LastWins buf rs fd t (opened buf' rs t) ↔ FirstIsLast buf rs fd := by
  rw [LastWins, FirstIsLast, opened_eq]
  cases hrs : redirsOf rs fd with
  | nil => simp
  | cons r rest =>
    have hr : r ∈ rs := by
      have hmem : r ∈ redirsOf rs fd := hrs ▸ List.mem_cons_self
      exact (List.mem_filter.mp hmem).1
    rw [List.getLast?_cons]
    simp [htext r hr]

/-- For every line that is a simple command within the word limit, whatever descriptors the shell is started with:
the line is parsed and `exec` is reached, and then descriptors 0 and 1 have the files of their last redirections
if and only if these are the files of their first ones. -/
theorem redirections_iff (buf : Buf) {fuel : Nat} (hfuel : parseFuel buf ≤ fuel) (rs : List Redir) (as : List Arg)
    (hyield : (Exec.simple rs as).yield = lineTokens buf) (hword : as ≠ []) (hfits : as.length ≤ maxargs - 1)
    (t : Table) : ∃ u, runLine fuel buf t = some u ∧
      ((∀ fd < 2, LastWins buf (rs ++ as.flatMap Arg.redirs) fd (openConsole 4 t) u) ↔
        ∀ fd < 2, FirstIsLast buf (rs ++ as.flatMap Arg.redirs) fd) := by
  have hline : (Line.last (.last (.simple rs as)) 0).yield = lineTokens buf := by
    rw [← hyield, Line.yield, List.replicate_zero, List.append_nil, Pipe.yield]
  have hparse := parsecmd_complete hfuel hline hfits
  have hstd : Std (openConsole 4 t) := openConsole_std 4 t fun k hk => absurd hk (by omega)
  obtain ⟨-, hwords⟩ := parsecmd_sound hparse
  have htree : (Line.last (.last (.simple rs as)) 0).tree =
    wrap (.exec (argv as)) (rs ++ as.flatMap Arg.redirs) := rfl
  rw [htree] at hparse hwords
  generalize rs ++ as.flatMap Arg.redirs = all at *
  have htext : ∀ r ∈ all, cstring (nulterminate (wrap (.exec (argv as)) all) buf) r.file =
      text buf (r.file, r.efile) := by
    intro r hr
    refine (hwords (r.file, r.efile) ?_).2
    rw [words_wrap]
    refine List.mem_append_right _ (mem_wordsOf.mpr ?_)
    exact List.mem_flatMap.mpr ⟨r, hr, by simp⟩
  refine ⟨_, ?_, forall_congr' fun fd => imp_congr_right fun _ => lastWins_iff htext⟩
  have hargv : argv as ≠ [] := by simpa [argv] using hword
  rw [runLine, hparse]
  exact (runcmd_wrap hstd _ _).trans (if_neg hargv)

/-- `a<b>c` -/
def oneEach : Buf := ['a', '<', 'b', '>', 'c', '\n'].map ofChar

/-- With one redirection for each descriptor both take effect. -/
theorem redirections_one_each : ∃ u, runLine (parseFuel oneEach) oneEach (fun _ => none) = some u ∧
    ∀ fd < 2, LastWins oneEach [⟨.input, 2, 3⟩, ⟨.output, 4, 5⟩] fd (openConsole 4 fun _ => none) u := by
  obtain ⟨u, hu, hiff⟩ := redirections_iff oneEach (Nat.le_refl _) [] [⟨0, 1, [⟨.input, 2, 3⟩, ⟨.output, 4, 5⟩]⟩]
    (by decide +kernel) (by simp) (by decide) fun _ => none
  refine ⟨u, hu, hiff.mpr fun fd hfd => ?_⟩
  rcases (by omega : fd = 0 ∨ fd = 1) with rfl | rfl
  · rfl
  · rfl

/-- `a>b>c` -/
def twoOutputs : Buf := ['a', '>', 'b', '>', 'c', '\n'].map ofChar

/-- The output goes to the file of the first of two redirections. -/
theorem redirections_reversed : (runLine (parseFuel twoOutputs) twoOutputs fun _ => none).bind (· 1) =
      some (.file (text twoOutputs (2, 3)) RedirOp.output.mode) ∧
    (redirsOf [⟨.output, 2, 3⟩, ⟨.output, 4, 5⟩] 1).getLast? = some ⟨.output, 4, 5⟩ ∧
    text twoOutputs (2, 3) ≠ text twoOutputs (4, 5) := by
  decide +kernel

end Xv6Lab.Shell
