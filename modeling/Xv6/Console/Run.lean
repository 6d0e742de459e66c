/-
# Console input, as steps of its readers and its interrupts

`consoleread` and `consoleintr` of `kernel/console.c`, for any number of readers.  One character is
one step; a step of a reader goes from one read of `p->killed` to the next.  Echoes and the list of
`^P` are left out.  `sent` and `taken` are not in the source: the bytes handed over to readers and
those they took.
-/

import Xv6.Kernel.File
import Xv6.Pipe.Run

namespace Xv6.Console

open Lib

abbrev INPUT_BUF : ℕ := 128

/-- `C('P')`, `C('U')`, `C('H')`, `'\x7f'` and `'\r'`. -/
def ctrlP : UInt8 := 16
def ctrlU : UInt8 := 21
def ctrlH : UInt8 := 8
def del : UInt8 := 127
def carriageReturn : UInt8 := 13

/-- `cons`, without its lock. -/
structure Cons where
  buf : Bytes INPUT_BUF
  r : UInt32
  w : UInt32
  e : UInt32

namespace Cons

def byte (c : Cons) (i : UInt32) : UInt8 := c.buf.get (i.toNat % INPUT_BUF)

def killLine (c : Cons) : ℕ → Cons
  | 0 => c
  | k + 1 =>
    if c.e ≠ c.w ∧ c.byte (c.e - 1) ≠ lineFeed then killLine { c with e := c.e - 1 } k else c

def put (c : Cons) (ch : UInt8) : Cons :=
  { c with buf := c.buf.splice (c.e.toNat % INPUT_BUF) [ch], e := c.e + 1 }

/-- `consoleintr(ch)`: `cons` after it, and whether it calls `wakeup(&cons.r)`. -/
def consoleintr (c : Cons) (ch : UInt8) : Cons × Bool :=
  if ch = ctrlP then (c, false)
  -- the loop ends when `e` has come to `w`
  else if ch = ctrlU then (c.killLine (count c.w c.e), false)
  else if ch = ctrlH ∨ ch = del then (if c.e ≠ c.w then { c with e := c.e - 1 } else c, false)
  else if ch ≠ 0 ∧ c.e - c.r < UInt32.ofNat INPUT_BUF then
    let ch := if ch = carriageReturn then lineFeed else ch
    let c := c.put ch
    if ch = lineFeed ∨ ch = ctrlD ∨ c.e = c.r + UInt32.ofNat INPUT_BUF then
      ({ c with w := c.e }, true)
    else (c, false)
  else (c, false)

end Cons

/-- Where a process is in `consoleread`.  In a call, `n` is how many bytes it still wants, and `got`
what it has copied to its caller. -/
inductive Pc
  /-- In no call; what the last one returned, and what it had copied. -/
  | out (last : Option (ℤ × List UInt8))
  /-- Before it has `cons.lock`: on entry, or at the end of `sleep`. -/
  | acquire (a : ReadArgs) (n : ℤ) (got : List UInt8)
  /-- At the test of the outer `while`. -/
  | loop (a : ReadArgs) (n : ℤ) (got : List UInt8)
  /-- Nothing to read, and the process not killed: before `sleep`. -/
  | empty (a : ReadArgs) (n : ℤ) (got : List UInt8)
  | sleep (a : ReadArgs) (n : ℤ) (got : List UInt8)

/-- The console and its readers. -/
structure Sys (N : ℕ) where
  cons : Cons
  lock : Option (Fin N)
  pc : Fin N → Pc
  killed : Fin N → Bool
  sent : List UInt8
  taken : List UInt8

variable {N : ℕ}

namespace Sys

def init (N : ℕ) (buf : Bytes INPUT_BUF) : Sys N where
  cons := ⟨buf, 0, 0, 0⟩
  lock := none
  pc _ := .out none
  killed _ := false
  sent := []
  taken := []

def goto (s : Sys N) (p : Fin N) (c : Pc) : Sys N := { s with pc := Function.update s.pc p c }

def leave (s : Sys N) (p : Fin N) (c : Pc) : Sys N := { s with lock := none }.goto p c

def wakeup (s : Sys N) : Sys N :=
  { s with pc := fun q => match s.pc q with | .sleep a n got => .acquire a n got | c => c }

def intr (s : Sys N) (ch : UInt8) : Sys N :=
  let (cons, woken) := s.cons.consoleintr ch
  let s := { s with cons := cons, sent := s.sent ++ queue INPUT_BUF cons.buf.get s.cons.w cons.w }
  if woken then s.wakeup else s

/-- `consoleread` from the test of its outer `while` on. -/
def readLoop (s : Sys N) (p : Fin N) (a : ReadArgs) (n : ℤ) (got : List UInt8) : Sys N :=
  if 0 < n then
    if s.cons.r = s.cons.w then
      if s.killed p = true then s.leave p (.out (some (-1, got))) else s.goto p (.empty a n got)
    else
      let c := s.cons.byte s.cons.r
      let cons := { s.cons with r := s.cons.r + 1 }
      if c = ctrlD then
        -- save `^D` for next time, to make sure the caller gets a 0-byte result
        if n < a.n then { s with cons := { cons with r := cons.r - 1 } }.leave p
          (.out (some (a.n - n, got)))
        else { s with cons := cons, taken := s.taken ++ [c] }.leave p (.out (some (a.n - n, got)))
      else
        let s := { s with cons := cons, taken := s.taken ++ [c] }
        if a.copyout got.length then
          if c = lineFeed then s.leave p (.out (some (a.n - (n - 1), got ++ [c])))
          else s.goto p (.loop a (n - 1) (got ++ [c]))
        else s.leave p (.out (some (a.n - n, got)))
  else s.leave p (.out (some (a.n - n, got)))

def advance (s : Sys N) (p : Fin N) : Pc → Option (Sys N)
  | .out _ | .sleep .. => none
  | .acquire a n got =>
    if s.lock = none then some ({ s with lock := some p }.goto p (.loop a n got)) else none
  | .loop a n got => some (s.readLoop p a n got)
  | .empty a n got => some (s.leave p (.sleep a n got))

def kill (s : Sys N) (p : Fin N) : Sys N :=
  let s := { s with killed := Function.update s.killed p true }
  match s.pc p with
  | .sleep a n got => s.goto p (.acquire a n got)
  | _ => s

end Sys

inductive Action (N : ℕ)
  | key (ch : UInt8)
  | read (p : Fin N) (a : ReadArgs)
  | kill (p : Fin N)
  | run (p : Fin N)

def Sys.step (s : Sys N) : Action N → Option (Sys N)
  | .key ch => if s.lock = none then some (s.intr ch) else none
  | .read p a => match s.pc p with
    | .out _ => some (s.goto p (.acquire a a.n []))
    | _ => none
  | .kill p => some (s.kill p)
  | .run p => s.advance p (s.pc p)

/-- Every `copyout` of a read succeeds. -/
def Sys.Valid (_ : Sys N) : Action N → Prop
  | .read _ a => ∀ i, a.copyout i = true
  | _ => True

end Xv6.Console
