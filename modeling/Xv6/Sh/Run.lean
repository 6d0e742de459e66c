/-
# The shell runs a command

`runcmd` of `user/sh.c`, with the descriptor table as the kernel keeps it.  `fork`, `pipe` and
`open` succeed as long as there is a free descriptor.  A step is one system call of one process; a
`wait` may return at any time.  Which node of the tree a pipe and a process belong to is bookkeeping
(`Sys.pipes`, `Proc.path`).
-/

import Xv6.Sh.Grammar
import Xv6.Lib.Runs

namespace Xv6.Sh

open Function

variable {W : Type}

/-! ### Descriptors -/

/-- What a descriptor stands for. -/
inductive Target (W : Type) where
  | given (fd : ℕ)
  | opened (file : W) (mode : UInt32)
  | readEnd (i : ℕ)
  | writeEnd (i : ℕ)
  deriving DecidableEq, Repr

/-- `p->ofile`. -/
abbrev Fds (W : Type) := ℕ → Option (Target W)

def fdalloc (fds : Fds W) (f : Target W) : Option (ℕ × Fds W) :=
  ((List.range NOFILE).find? fun fd => (fds fd).isNone).map fun fd => (fd, update fds fd (some f))

/-- `pipe(p)`, for the pipe `i`: `p[0]`, `p[1]` and the table. -/
def pipe (fds : Fds W) (i : ℕ) : Option (ℕ × ℕ × Fds W) :=
  (fdalloc fds (.readEnd i)).bind fun r => (fdalloc r.2 (.writeEnd i)).map fun w => (r.1, w.1, w.2)

/-- The calls that `runcmd` makes between two forks. -/
inductive Call (W : Type) where
  | close (fd : ℕ)
  | dup (fd : ℕ)
  | open (file : W) (mode : UInt32)

/-- The table after a call; `none` if `open` fails.  Nobody looks at what `close` and `dup` return.
-/
def Call.run : Call W → Fds W → Option (Fds W)
  | .close fd, fds => some (update fds fd none)
  | .dup fd, fds => some (((fds fd).bind (fdalloc fds)).elim fds Prod.snd)
  | .open file mode, fds => (fdalloc fds (.opened file mode)).map Prod.snd

/-! ### Processes -/

/-- A branch of the command tree. -/
inductive Turn where
  | left
  | right
  | redir
  | first
  | rest
  | back
  deriving DecidableEq, Repr

/-- What a process of the shell has left to do. -/
inductive Code (W : Type) where
  | runcmd (cmd : Cmd W)
  | exec (argv : List W)
  | calls (cs : List (Call W)) (next : Code W)
  /-- after `pipe(p)` -/
  | forkLeft (left right : Cmd W) (p0 p1 : ℕ)
  /-- at the second `fork1()` of a pipe -/
  | forkRight (right : Cmd W) (p0 p1 : ℕ)
  /-- `wait(0)`, `n` times, and then `runcmd(next)` or `exit(0)` -/
  | wait (n : ℕ) (next : Option (Cmd W))
  /-- it has exited, or runs another program -/
  | gone

/-- A process, and its place in the tree. -/
structure Proc (W : Type) where
  code : Code W
  fds : Fds W
  path : List Turn

/-- The next call of a process, for the pipe `i` if it makes one: the process after it, its new
child, and whether it has made a pipe. -/
def Proc.step (i : ℕ) (q : Proc W) : Option (Proc W × Option (Proc W) × Bool) :=
  match q.code with
  | .runcmd (.exec []) => some ({ q with code := .gone }, none, false)
  | .runcmd (.exec argv) => some ({ q with code := .exec argv }, none, false)
  | .runcmd (.redir cmd file mode fd) =>
    let code := .calls [.close fd, .open file mode] (.runcmd cmd)
    some ({ q with code, path := q.path ++ [.redir] }, none, false)
  | .runcmd (.list left right) =>
    let child := { q with code := .runcmd left, path := q.path ++ [.first] }
    some ({ q with code := .wait 1 (some right) }, some child, false)
  | .runcmd (.pipe left right) =>
    match pipe q.fds i with
    | none => some ({ q with code := .gone }, none, false)
    | some (p0, p1, fds) => some ({ q with code := .forkLeft left right p0 p1, fds }, none, true)
  | .runcmd (.back cmd) =>
    let child := { q with code := .runcmd cmd, path := q.path ++ [.back] }
    some ({ q with code := .gone }, some child, false)
  | .forkLeft left right p0 p1 =>
    let code := .calls [.close 1, .dup p1, .close p0, .close p1] (.runcmd left)
    some ({ q with code := .forkRight right p0 p1 },
      some { q with code, path := q.path ++ [.left] }, false)
  | .forkRight right p0 p1 =>
    let code := .calls [.close 0, .dup p0, .close p0, .close p1] (.runcmd right)
    let parent := { q with code := .calls [.close p0, .close p1] (.wait 2 none) }
    some (parent, some { q with code, path := q.path ++ [.right] }, false)
  | .calls [] next => some ({ q with code := next }, none, false)
  | .calls (c :: cs) next =>
    match c.run q.fds with
    | none => some ({ q with code := .gone }, none, false)
    | some fds => some ({ q with code := .calls cs next, fds }, none, false)
  | .wait (n + 1) next => some ({ q with code := .wait n next }, none, false)
  | .wait 0 (some right) =>
    some ({ q with code := .runcmd right, path := q.path ++ [.rest] }, none, false)
  | .wait 0 none => some ({ q with code := .gone }, none, false)
  | .exec _ => some ({ q with code := .gone }, none, false)
  | .gone => none

/-- All processes, and for each pipe who made it at which node. -/
structure Sys (W : Type) where
  procs : List (Proc W)
  pipes : List (ℕ × List Turn)

def Sys.step (s : Sys W) (p : ℕ) : Option (Sys W) := do
  let q ← s.procs[p]?
  let (q', child, made) ← q.step s.pipes.length
  return {
    procs := s.procs.set p q' ++ child.toList
    pipes := if made then s.pipes ++ [(p, q.path)] else s.pipes }

/-- One process, at `runcmd(root)`, with the descriptors 0, 1 and 2 open. -/
def Sys.start (root : Cmd W) : Sys W where
  procs :=
    [{ code := .runcmd root, path := []
       fds := fun fd => if fd < 3 then some (.given fd) else none }]
  pipes := []

/-! ### What the tree says -/

/-- What the descriptors of the command at `path` are to be: the settings on the way down from the
root, deeper ones over the others.  Pipe `i` is the one of a node if it was made there. -/
inductive Walk (root : Cmd W) (pipes : List (ℕ × List Turn)) :
    List Turn → Cmd W → (ℕ → Target W) → Prop where
  | root : Walk root pipes [] root .given
  | left {path left right set p i} (h : Walk root pipes path (.pipe left right) set)
    (hi : pipes[i]? = some (p, path)) :
    Walk root pipes (path ++ [.left]) left (update set 1 (.writeEnd i))
  | right {path left right set p i} (h : Walk root pipes path (.pipe left right) set)
    (hi : pipes[i]? = some (p, path)) :
    Walk root pipes (path ++ [.right]) right (update set 0 (.readEnd i))
  | redir {path cmd file mode fd set} (h : Walk root pipes path (.redir cmd file mode fd) set) :
    Walk root pipes (path ++ [.redir]) cmd (update set fd (.opened file mode))
  | first {path left right set} (h : Walk root pipes path (.list left right) set) :
    Walk root pipes (path ++ [.first]) left set
  | rest {path left right set} (h : Walk root pipes path (.list left right) set) :
    Walk root pipes (path ++ [.rest]) right set
  | back {path cmd set} (h : Walk root pipes path (.back cmd) set) :
    Walk root pipes (path ++ [.back]) cmd set

end Xv6.Sh
