/-
# The parser of the shell

`gettoken` to `nulterminate` of `user/sh.c`.  The parsers share one cursor into the string, here an
offset that is passed along (`*ps`); a word is the pair of offsets `q` and `eq` that `gettoken`
stores.  A parser takes a number of turns, and `Stop.turns` is the end of those, not of the program.
-/

import Xv6.Kernel.File

namespace Xv6.Sh

/-! ### Commands -/

/-- `struct cmd`, with words of type `W`. -/
inductive Cmd (W : Type) where
  | exec (argv : List W)
  | redir (cmd : Cmd W) (file : W) (mode : UInt32) (fd : ℕ)
  | pipe (left right : Cmd W)
  | list (left right : Cmd W)
  | back (cmd : Cmd W)
  deriving DecidableEq, Repr

abbrev MAXARGS : ℕ := 10

/-- `cmd->argv[argc] = q`, where `cmd` is the `execcmd` under the redirections of `ret`. -/
def Cmd.push {W : Type} (w : W) : Cmd W → Cmd W
  | .exec argv => .exec (argv ++ [w])
  | .redir cmd file mode fd => .redir (cmd.push w) file mode fd
  | cmd => cmd

/-- How a parser ends without a tree. -/
inductive Stop where
  | panic (s : String)
  | turns
  deriving DecidableEq, Repr

abbrev Parse := Except Stop

/-! ### Tokens -/

def tab : UInt8 := 9
def bar : UInt8 := 124
def lparen : UInt8 := 40
def rparen : UInt8 := 41
def semi : UInt8 := 59
def amp : UInt8 := 38
def less : UInt8 := 60
def greater : UInt8 := 62

def codeWord : UInt8 := 97

def codeAppend : UInt8 := 43

def whitespace : List UInt8 := [32, tab, 13, 10, 11]
def symbols : List UInt8 := [less, bar, greater, amp, semi, lparen, rparen]

def isWord (c : UInt8) : Bool := decide (c ∉ whitespace ∧ c ∉ symbols)

/-- The offsets of a word and of its end, `q` and `eq`. -/
abbrev Span := ℕ × ℕ

/-- What a call of `gettoken` gives. -/
structure Token where
  ret : UInt8
  q : ℕ
  eq : ℕ
  ps : ℕ

section Code

variable (str : List UInt8)

def char (s : ℕ) : UInt8 := str.getD s 0

/-- `while(s < es && p(*s)) s++`, with `n` characters before `es`. -/
def skipWhile (p : UInt8 → Bool) : ℕ → ℕ → ℕ
  | 0, s => s
  | n + 1, s => if p (char str s) = true then skipWhile p n (s + 1) else s

def skipBlanks (s : ℕ) : ℕ := skipWhile str (fun c => decide (c ∈ whitespace)) (str.length - s) s

/-- The `switch` of `gettoken`: the code, and `s` after it. -/
def scanToken (s : ℕ) : UInt8 × ℕ :=
  let c := char str s
  if c = 0 then (0, s)
  else if c ∈ [bar, lparen, rparen, semi, amp, less] then (c, s + 1)
  else if c = greater then
    if char str (s + 1) = greater then (codeAppend, s + 2) else (c, s + 1)
  else (codeWord, skipWhile str isWord (str.length - s) s)

def gettoken (s : ℕ) : Token :=
  let q := skipBlanks str s
  let (ret, eq) := scanToken str q
  { ret, q, eq, ps := skipBlanks str eq }

def peek (s : ℕ) (toks : List UInt8) : Bool × ℕ :=
  let s := skipBlanks str s
  (decide (char str s ≠ 0 ∧ char str s ∈ toks), s)

/-! ### The parsers -/

/-- The command that a redirection makes of `cmd`. -/
def redirect (tok : UInt8) (cmd : Cmd Span) (file : Span) : Cmd Span :=
  if tok = less then .redir cmd file O_RDONLY 0
  else if tok = greater then .redir cmd file (O_WRONLY ||| O_CREATE ||| O_TRUNC) 1
  else if tok = codeAppend then .redir cmd file (O_WRONLY ||| O_CREATE) 1
  else cmd

def parseredirs : ℕ → Cmd Span → ℕ → Parse (Cmd Span × ℕ)
  | 0, _, _ => .error .turns
  | k + 1, cmd, s =>
    let (more, s) := peek str s [less, greater]
    if more = true then
      let tok := gettoken str s
      let file := gettoken str tok.ps
      if file.ret ≠ codeWord then .error (.panic "missing file for redirection")
      else parseredirs k (redirect tok.ret cmd (file.q, file.eq)) file.ps
    else .ok (cmd, s)

def parseargs : ℕ → Cmd Span → ℕ → ℕ → Parse (Cmd Span × ℕ)
  | 0, _, _, _ => .error .turns
  | k + 1, ret, argc, s =>
    let (stop, s) := peek str s [bar, rparen, amp, semi]
    if stop = true then .ok (ret, s)
    else
      let tok := gettoken str s
      if tok.ret = 0 then .ok (ret, tok.ps)
      else if tok.ret ≠ codeWord then .error (.panic "syntax")
      else
        let ret := ret.push (tok.q, tok.eq)
        let argc := argc + 1
        if MAXARGS ≤ argc then .error (.panic "too many args")
        else do
          let (ret, s) ← parseredirs str k ret tok.ps
          parseargs k ret argc s

def parseamps : ℕ → Cmd Span → ℕ → Parse (Cmd Span × ℕ)
  | 0, _, _ => .error .turns
  | k + 1, cmd, s =>
    let (more, s) := peek str s [amp]
    if more = true then parseamps k (.back cmd) (gettoken str s).ps else .ok (cmd, s)

mutual

def parseline : ℕ → ℕ → Parse (Cmd Span × ℕ)
  | 0, _ => .error .turns
  | k + 1, s => do
    let (cmd, s) ← parsepipe k s
    let (cmd, s) ← parseamps str k cmd s
    let (more, s) := peek str s [semi]
    if more = true then
      let (right, s) ← parseline k (gettoken str s).ps
      return (.list cmd right, s)
    else return (cmd, s)

def parsepipe : ℕ → ℕ → Parse (Cmd Span × ℕ)
  | 0, _ => .error .turns
  | k + 1, s => do
    let (cmd, s) ← parseexec k s
    let (more, s) := peek str s [bar]
    if more = true then
      let (right, s) ← parsepipe k (gettoken str s).ps
      return (.pipe cmd right, s)
    else return (cmd, s)

def parseexec : ℕ → ℕ → Parse (Cmd Span × ℕ)
  | 0, _ => .error .turns
  | k + 1, s =>
    let (block, s) := peek str s [lparen]
    if block = true then parseblock k s
    else do
      let (ret, s) ← parseredirs str k (.exec []) s
      parseargs str k ret 0 s

def parseblock : ℕ → ℕ → Parse (Cmd Span × ℕ)
  | 0, _ => .error .turns
  | k + 1, s =>
    let (opened, s) := peek str s [lparen]
    if opened = false then .error (.panic "parseblock")
    else do
      let (cmd, s) ← parseline k (gettoken str s).ps
      let (closed, s) := peek str s [rparen]
      if closed = false then .error (.panic "syntax - missing )")
      else parseredirs str k cmd (gettoken str s).ps

end

end Code

def nulterminate : Cmd Span → List UInt8 → List UInt8
  | .exec argv, buf => argv.foldl (fun buf arg => buf.set arg.2 0) buf
  | .redir cmd file _ _, buf => (nulterminate cmd buf).set file.2 0
  | .pipe left right, buf => nulterminate right (nulterminate left buf)
  | .list left right, buf => nulterminate right (nulterminate left buf)
  | .back cmd, buf => nulterminate cmd buf

/-- `parsecmd(s)`: the tree, and the memory that its words are in. -/
def parsecmd (k : ℕ) (str : List UInt8) : Parse (Cmd Span × List UInt8) := do
  let (cmd, s) ← parseline str k 0
  let (_, s) := peek str s []
  if s ≠ str.length then .error (.panic "syntax")
  else return (cmd, nulterminate cmd (str ++ [0]))

def cstring (buf : List UInt8) (arg : Span) : List UInt8 := (buf.drop arg.1).takeWhile (· ≠ 0)

/-- The tree with its words as strings. -/
def Cmd.map {V W : Type} (f : V → W) : Cmd V → Cmd W
  | .exec argv => .exec (argv.map f)
  | .redir cmd file mode fd => .redir (cmd.map f) (f file) mode fd
  | .pipe left right => .pipe (left.map f) (right.map f)
  | .list left right => .list (left.map f) (right.map f)
  | .back cmd => .back (cmd.map f)

end Xv6.Sh
