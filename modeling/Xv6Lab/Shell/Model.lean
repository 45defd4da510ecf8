import Xv6Lab.Lib.Exec
import Xv6Lab.Lib.Scan

/-!
# The command parser of the shell

The model of the parser in `sh.c`. The input line is a byte buffer, read from offset 0 and never beyond `es`, the
offset of its first NUL; pointers into it are offsets. The functions of the parser share one cursor, `*ps`, which is
the state of the programs below. `panic` ends the program. The mutually recursive functions and their loops run on
fuel, and running out of it is an error of its own.

`nulterminate` writes into the same buffer the tokens point into.
-/

namespace Xv6Lab.Shell

open Lib.Scan

/-! ## Characters -/

/-- A character literal as a byte. -/
def ofChar (c : Char) : UInt8 := UInt8.ofNat c.toNat

/-- The bytes of the buffer; what follows them reads as NUL. -/
abbrev Buf := List UInt8

def byteAt (buf : Buf) (i : Nat) : UInt8 := buf.getD i 0

/-- `strlen(buf)`. -/
def strlen (buf : Buf) : Nat := (buf.takeWhile (· ≠ 0)).length

/-- `strchr(s, c) != 0`; `strchr` does not find the NUL that ends `s`. -/
def strchr (s : List Char) (c : UInt8) : Bool := (s.map ofChar).contains c

def whitespace : List Char := [' ', '\t', '\r', '\n', '\x0b']

def symbols : List Char := ['<', '|', '>', '&', ';', '(', ')']

/-! ## Tokens -/

/-- The tokens that are not words. -/
inductive Sym
  | bar
  | lparen
  | rparen
  | semi
  | amp
  | less
  | greater
  | append
  deriving DecidableEq, Repr

/-- The first character of a symbol. -/
def Sym.char : Sym → Char
  | .bar => '|'
  | .lparen => '('
  | .rparen => ')'
  | .semi => ';'
  | .amp => '&'
  | .less => '<'
  | .greater => '>'
  | .append => '>'

/-- What `gettoken` returns: `0`, a symbol, or `'a'` with the bounds `*q` and `*eq` of the word. -/
inductive Tok
  | eof
  | sym (k : Sym)
  | word (q eq : Nat)
  deriving DecidableEq, Repr

/-- `while(s < es && strchr(whitespace, *s)) s++`. -/
def skipSpace (buf : Buf) (es s : Nat) : Nat := scan (fun i => strchr whitespace (byteAt buf i)) es s

/-- `while(s < es && !strchr(whitespace, *s) && !strchr(symbols, *s)) s++`. -/
def skipWord (buf : Buf) (es s : Nat) : Nat :=
  scan (fun i => !strchr whitespace (byteAt buf i) && !strchr symbols (byteAt buf i)) es s

/-- The symbols of one character that no other symbol starts with. -/
def plainSym (c : UInt8) : Option Sym :=
  [Sym.bar, .lparen, .rparen, .semi, .amp, .less].find? fun k => c == ofChar k.char

/-- The switch of `gettoken` at the first character of the token, and the end of the token. -/
def tokenAt (buf : Buf) (es s : Nat) : Tok × Nat :=
  let c := byteAt buf s
  if c = 0 then (.eof, s)
  else
    match plainSym c with
    | some k => (.sym k, s + 1)
    | none =>
      if c = ofChar '>' then
        if byteAt buf (s + 1) = ofChar '>' then (.sym .append, s + 2) else (.sym .greater, s + 1)
      else (.word s (skipWord buf es s), skipWord buf es s)

/-- The token after `s`, and the place where the next one starts. -/
def token (buf : Buf) (es s : Nat) : Tok × Nat :=
  let (tok, e) := tokenAt buf es (skipSpace buf es s)
  (tok, skipSpace buf es e)

/-! ## Commands -/

/-- `struct cmd` and its five kinds; words and file names are given by their bounds in the buffer. -/
inductive Cmd
  | exec (argv : List (Nat × Nat))
  | redir (cmd : Cmd) (file efile mode fd : Nat)
  | pipe (left right : Cmd)
  | list (left right : Cmd)
  | back (cmd : Cmd)
  deriving DecidableEq, Repr

abbrev maxargs : Nat := 10

abbrev oRdonly : Nat := 0x000
abbrev oWronly : Nat := 0x001
abbrev oCreate : Nat := 0x200
abbrev oTrunc : Nat := 0x400

/-- `cmd->argv[argc] = q; cmd->eargv[argc] = eq`, where `cmd` is the `EXEC` node under the `REDIR` nodes of `ret`. -/
def Cmd.addArg (w : Nat × Nat) : Cmd → Cmd
  | .exec argv => .exec (argv ++ [w])
  | .redir cmd file efile mode fd => .redir (cmd.addArg w) file efile mode fd
  | .pipe left right => .pipe left right
  | .list left right => .list left right
  | .back cmd => .back cmd

/-! ## The parser -/

inductive Stop
  | panic (msg : String)
  | fuel
  deriving DecidableEq, Repr

/-- Programs that move the cursor `*ps`. -/
abbrev ShM := EStateM Stop Nat

def gettoken (buf : Buf) (es : Nat) : ShM Tok := do
  let s ← get
  set (token buf es s).2
  pure (token buf es s).1

def peek (buf : Buf) (es : Nat) (toks : List Char) : ShM Bool := do
  let s ← get
  set (skipSpace buf es s)
  pure (byteAt buf (skipSpace buf es s) ≠ 0 && strchr toks (byteAt buf (skipSpace buf es s)))

/-- The switch of `parseredirs`. -/
def redirect (cmd : Cmd) (q eq : Nat) : Tok → Cmd
  | .sym .less => .redir cmd q eq oRdonly 0
  | .sym .greater => .redir cmd q eq (oWronly ||| oCreate ||| oTrunc) 1
  | .sym .append => .redir cmd q eq (oWronly ||| oCreate) 1
  | _ => cmd

def parseredirs (buf : Buf) (es : Nat) : Nat → Cmd → ShM Cmd
  | 0, _ => throw .fuel
  | n + 1, cmd => do
      if ← peek buf es ['<', '>'] then
        let tok ← gettoken buf es
        match ← gettoken buf es with
        | .word q eq => parseredirs buf es n (redirect cmd q eq tok)
        | _ => throw (.panic "missing file for redirection")
      else pure cmd

/-- The loop of `parseexec`. -/
def execLoop (buf : Buf) (es : Nat) : Nat → Cmd → Nat → ShM Cmd
  | 0, _, _ => throw .fuel
  | n + 1, ret, argc => do
      if ← peek buf es ['|', ')', '&', ';'] then pure ret
      else
        match ← gettoken buf es with
        | .eof => pure ret
        | .sym _ => throw (.panic "syntax")
        | .word q eq =>
          if maxargs ≤ argc + 1 then throw (.panic "too many args")
          else
            let ret ← parseredirs buf es n (ret.addArg (q, eq))
            execLoop buf es n ret (argc + 1)

/-- The loop of `parseline`. -/
def backLoop (buf : Buf) (es : Nat) : Nat → Cmd → ShM Cmd
  | 0, _ => throw .fuel
  | n + 1, cmd => do
      if ← peek buf es ['&'] then
        let _ ← gettoken buf es
        backLoop buf es n (.back cmd)
      else pure cmd

mutual

def parseline (buf : Buf) (es : Nat) : Nat → ShM Cmd
  | 0 => throw .fuel
  | n + 1 => do
      let cmd ← parsepipe buf es n
      let cmd ← backLoop buf es n cmd
      if ← peek buf es [';'] then
        let _ ← gettoken buf es
        let right ← parseline buf es n
        pure (.list cmd right)
      else pure cmd

def parsepipe (buf : Buf) (es : Nat) : Nat → ShM Cmd
  | 0 => throw .fuel
  | n + 1 => do
      let cmd ← parseexec buf es n
      if ← peek buf es ['|'] then
        let _ ← gettoken buf es
        let right ← parsepipe buf es n
        pure (.pipe cmd right)
      else pure cmd

def parseexec (buf : Buf) (es : Nat) : Nat → ShM Cmd
  | 0 => throw .fuel
  | n + 1 => do
      if ← peek buf es ['('] then parseblock buf es n
      else
        let ret ← parseredirs buf es n (.exec [])
        execLoop buf es n ret 0

def parseblock (buf : Buf) (es : Nat) : Nat → ShM Cmd
  | 0 => throw .fuel
  | n + 1 => do
      if ← peek buf es ['('] then
        let _ ← gettoken buf es
        let cmd ← parseline buf es n
        if ← peek buf es [')'] then
          let _ ← gettoken buf es
          parseredirs buf es n cmd
        else throw (.panic "syntax - missing )")
      else throw (.panic "parseblock")

end

/-! ## Terminating the words -/

/-- `*s = 0`. -/
def putNul (buf : Buf) (s : Nat) : Buf := buf.set s 0

def nulterminate : Cmd → Buf → Buf
  | .exec argv, buf => argv.foldl (fun buf w => putNul buf w.2) buf
  | .redir cmd _ efile _ _, buf => putNul (nulterminate cmd buf) efile
  | .pipe left right, buf => nulterminate right (nulterminate left buf)
  | .list left right, buf => nulterminate right (nulterminate left buf)
  | .back cmd, buf => nulterminate cmd buf

/-- `parsecmd` on the string at the start of `buf`: the command and the buffer it leaves. -/
def parsecmd (fuel : Nat) (buf : Buf) : Except Stop (Cmd × Buf) :=
  let es := strlen buf
  let parse : ShM Cmd := do
    let cmd ← parseline buf es fuel
    let _ ← peek buf es []
    pure cmd
  match parse.run 0 with
  | .ok cmd s => if s ≠ es then .error (.panic "syntax") else .ok (cmd, nulterminate cmd buf)
  | .error e _ => .error e

end Xv6Lab.Shell
