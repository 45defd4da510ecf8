import Mathlib.Logic.Function.Iterate
import Xv6Lab.Shell.Tokens

/-!
# The grammar of command lines

The grammar the shell is meant to accept:

* `line ::= pipe '&'* (';' line)?`
* `pipe ::= exec ('|' pipe)?`
* `exec ::= '(' line ')' redir* | redir* (word redir*)*`
* `redir ::= ('<' | '>' | '>>') word`

Its derivations are the values of `Line`, `Pipe` and `Exec`. A derivation has a yield, the tokens it derives, and a
tree, the command it stands for; `Fits` is the limit on the number of words of one command.
-/

namespace Xv6Lab.Shell

/-! ## Derivations -/

inductive RedirOp
  | input
  | output
  | append
  deriving DecidableEq, Repr

/-- `redir ::= ('<' | '>' | '>>') word`. -/
structure Redir where
  op : RedirOp
  file : Nat
  efile : Nat
  deriving DecidableEq, Repr

/-- `word redir*`. -/
structure Arg where
  start : Nat
  stop : Nat
  redirs : List Redir
  deriving DecidableEq, Repr

mutual

/-- `line ::= pipe '&'* (';' line)?`. -/
inductive Line
  | last (p : Pipe) (amps : Nat)
  | seq (p : Pipe) (amps : Nat) (rest : Line)

/-- `pipe ::= exec ('|' pipe)?`. -/
inductive Pipe
  | last (e : Exec)
  | bar (e : Exec) (rest : Pipe)

/-- `exec ::= '(' line ')' redir* | redir* (word redir*)*`. -/
inductive Exec
  | block (l : Line) (redirs : List Redir)
  | simple (redirs : List Redir) (args : List Arg)

end

/-! ## Yields -/

def RedirOp.sym : RedirOp → Sym
  | .input => .less
  | .output => .greater
  | .append => .append

def redirsYield (rs : List Redir) : List Tok := rs.flatMap fun r => [.sym r.op.sym, .word r.file r.efile]

def argsYield (as : List Arg) : List Tok := as.flatMap fun a => .word a.start a.stop :: redirsYield a.redirs

mutual

def Line.yield : Line → List Tok
  | .last p amps => p.yield ++ List.replicate amps (.sym .amp)
  | .seq p amps rest => p.yield ++ (List.replicate amps (.sym .amp) ++ .sym .semi :: rest.yield)

def Pipe.yield : Pipe → List Tok
  | .last e => e.yield
  | .bar e rest => e.yield ++ .sym .bar :: rest.yield

def Exec.yield : Exec → List Tok
  | .block l redirs => .sym .lparen :: (l.yield ++ .sym .rparen :: redirsYield redirs)
  | .simple redirs args => redirsYield redirs ++ argsYield args

end

/-! ## Trees -/

/-- The mode a redirection opens its file with. -/
def RedirOp.mode : RedirOp → Nat
  | .input => oRdonly
  | .output => oWronly ||| oCreate ||| oTrunc
  | .append => oWronly ||| oCreate

/-- The descriptor a redirection replaces. -/
def RedirOp.fd : RedirOp → Nat
  | .input => 0
  | .output => 1
  | .append => 1

/-- Redirections nest in the order they are written, the last one outermost. -/
def wrap (cmd : Cmd) (rs : List Redir) : Cmd :=
  rs.foldl (fun cmd r => .redir cmd r.file r.efile r.op.mode r.op.fd) cmd

/-- The bounds of the words of a simple command. -/
def argv (as : List Arg) : List (Nat × Nat) := as.map fun a => (a.start, a.stop)

mutual

def Line.tree : Line → Cmd
  | .last p amps => Cmd.back^[amps] p.tree
  | .seq p amps rest => .list (Cmd.back^[amps] p.tree) rest.tree

def Pipe.tree : Pipe → Cmd
  | .last e => e.tree
  | .bar e rest => .pipe e.tree rest.tree

def Exec.tree : Exec → Cmd
  | .block l redirs => wrap l.tree redirs
  | .simple redirs args => wrap (.exec (argv args)) (redirs ++ args.flatMap Arg.redirs)

end

/-! ## The word limit -/

mutual

/-- No command has more than `MAXARGS - 1` words. -/
def Line.Fits : Line → Prop
  | .last p _ => p.Fits
  | .seq p _ rest => p.Fits ∧ rest.Fits

def Pipe.Fits : Pipe → Prop
  | .last e => e.Fits
  | .bar e rest => e.Fits ∧ rest.Fits

def Exec.Fits : Exec → Prop
  | .block l _ => l.Fits
  | .simple _ args => args.length ≤ maxargs - 1

end

/-! ## Words of a command -/

/-- The bounds of the words and file names of a command. -/
def Cmd.words : Cmd → List (Nat × Nat)
  | .exec argv => argv
  | .redir cmd file efile _ _ => cmd.words ++ [(file, efile)]
  | .pipe left right => left.words ++ right.words
  | .list left right => left.words ++ right.words
  | .back cmd => cmd.words

/-- The words among some tokens. -/
def wordsOf (ts : List Tok) : List (Nat × Nat) :=
  ts.filterMap fun t => match t with
    | .word q e => some (q, e)
    | _ => none

@[simp] theorem wordsOf_append (ts us : List Tok) : wordsOf (ts ++ us) = wordsOf ts ++ wordsOf us :=
  List.filterMap_append

@[simp] theorem wordsOf_sym (k : Sym) (ts : List Tok) : wordsOf (.sym k :: ts) = wordsOf ts := rfl

@[simp] theorem wordsOf_word (q e : Nat) (ts : List Tok) : wordsOf (.word q e :: ts) = (q, e) :: wordsOf ts := rfl

theorem mem_wordsOf {ts : List Tok} {w : Nat × Nat} : w ∈ wordsOf ts ↔ Tok.word w.1 w.2 ∈ ts := by
  induction ts with
  | nil => exact iff_of_false List.not_mem_nil List.not_mem_nil
  | cons t ts ih =>
    cases t with
    | eof => simpa [wordsOf] using ih
    | sym k => simpa using ih
    | word q e => simp [ih, Prod.ext_iff]

theorem words_back (n : Nat) (cmd : Cmd) : (Cmd.back^[n] cmd).words = cmd.words := by
  induction n generalizing cmd with
  | zero => rfl
  | succ n ih => exact ih (.back cmd)

/-- Redirections add their file names to the words of a command. -/
theorem words_wrap (cmd : Cmd) (rs : List Redir) : (wrap cmd rs).words = cmd.words ++ wordsOf (redirsYield rs) := by
  induction rs generalizing cmd with
  | nil => exact (List.append_nil _).symm
  | cons r rs ih =>
    show (wrap _ rs).words = _
    rw [ih]
    simp [redirsYield, Cmd.words]

theorem mem_wordsOf_args (as : List Arg) {w : Nat × Nat} :
    w ∈ argv as ++ wordsOf (redirsYield (as.flatMap Arg.redirs)) → w ∈ wordsOf (argsYield as) := by
  induction as with
  | nil => exact id
  | cons a as ih =>
    intro hw
    simp only [argv, List.map_cons, List.cons_append, List.mem_cons, List.mem_append, List.flatMap_cons,
      redirsYield, List.flatMap_append, wordsOf_append, argsYield, wordsOf_word] at hw ih ⊢
    rcases hw with rfl | hw | hw | hw
    · exact .inl rfl
    · exact .inr (.inr (ih (.inl hw)))
    · exact .inr (.inl hw)
    · exact .inr (.inr (ih (.inr hw)))

theorem wordsOf_amps (n : Nat) : wordsOf (List.replicate n (.sym .amp)) = [] := by
  induction n with
  | zero => rfl
  | succ n ih => exact ih

mutual

/-- The words of the tree are among the tokens that are derived. -/
theorem Line.words_subset : ∀ (d : Line) {w : Nat × Nat}, w ∈ d.tree.words → w ∈ wordsOf d.yield
  | .last p amps, w, hw => by
      rw [Line.tree, words_back] at hw
      rw [Line.yield, wordsOf_append]
      exact List.mem_append_left _ (Pipe.words_subset p hw)
  | .seq p amps rest, w, hw => by
      rw [Line.tree, Cmd.words, words_back, List.mem_append] at hw
      simp only [Line.yield, wordsOf_append, wordsOf_sym, wordsOf_amps, List.nil_append, List.mem_append]
      exact hw.imp (Pipe.words_subset p) (Line.words_subset rest)

theorem Pipe.words_subset : ∀ (d : Pipe) {w : Nat × Nat}, w ∈ d.tree.words → w ∈ wordsOf d.yield
  | .last e, w, hw => Exec.words_subset e hw
  | .bar e rest, w, hw => by
      rw [Pipe.tree, Cmd.words, List.mem_append] at hw
      simp only [Pipe.yield, wordsOf_append, wordsOf_sym, List.mem_append]
      exact hw.imp (Exec.words_subset e) (Pipe.words_subset rest)

theorem Exec.words_subset : ∀ (d : Exec) {w : Nat × Nat}, w ∈ d.tree.words → w ∈ wordsOf d.yield
  | .block l redirs, w, hw => by
      rw [Exec.tree, words_wrap, List.mem_append] at hw
      simp only [Exec.yield, wordsOf_sym, wordsOf_append, List.mem_append]
      exact hw.imp (Line.words_subset l) id
  | .simple redirs args, w, hw => by
      have hargs := mem_wordsOf_args args (w := w)
      rw [Exec.tree, words_wrap, redirsYield, List.flatMap_append, wordsOf_append] at hw
      rw [Exec.yield, wordsOf_append]
      simp only [Cmd.words, List.mem_append] at hw hargs ⊢
      rcases hw with hw | hw | hw
      · exact .inr (hargs (.inl hw))
      · exact .inl hw
      · exact .inr (hargs (.inr hw))

end

end Xv6Lab.Shell
