/-
# A pipe, as steps of the processes that use it

`pipewrite`, `piperead` and `pipeclose` of `kernel/pipe.c` and `kill`, for any number of processes
on one pipe.  `kill` does not take `pi->lock`, so a step goes from one read of `pr->killed` to the
next; to release the lock and to be asleep are one step.  `sent` and `got` are not in the source:
the bytes that writes stored and that reads copied out.
-/

import Xv6.Kernel.State
import Xv6.Lib.Circular
import Xv6.Lib.Runs

namespace Xv6

open Lib

/-- The arguments of `piperead`: how many bytes, and which `copyout` to `addr + i`
succeed. -/
structure ReadArgs where
  n : ℤ
  copyout : ℕ → Bool

/-- The arguments of `pipewrite`: how many bytes, and what `copyin` from `addr + i`
finds, `none` where it fails. -/
structure WriteArgs where
  n : ℤ
  copyin : ℕ → Option UInt8

/-- Where a process is. -/
inductive PipePc
  /-- In no call; what the last one returned. -/
  | out (v : Option ℤ)
  /-- In `pipewrite` with `i` bytes done, before it has `pi->lock`: on entry, or at the end
  of `sleep`. -/
  | writeAcquire (w : WriteArgs) (i : ℕ)
  /-- At the tests of the `for` and of the `while` of `pipewrite`. -/
  | writeLoop (w : WriteArgs) (i : ℕ)
  /-- Full, and neither the read end closed nor the process killed: before `wakeup`. -/
  | writeFull (w : WriteArgs) (i : ℕ)
  | writeSleep (w : WriteArgs) (i : ℕ)
  /-- In `piperead`, before it has `pi->lock`: on entry, or at the end of `sleep`. -/
  | readAcquire (r : ReadArgs)
  | readTest (r : ReadArgs)
  /-- Empty, and the process not killed: before `sleep`. -/
  | readEmpty (r : ReadArgs)
  | readSleep (r : ReadArgs)
  /-- At the test of the `for` of `piperead`, with `i` bytes done. -/
  | readLoop (r : ReadArgs) (i : ℕ)

/-- The process stands between `acquire(&pi->lock)` and `release(&pi->lock)`. -/
def PipePc.holds : PipePc → Prop
  | .writeLoop .. | .writeFull .. | .readTest _ | .readEmpty _ | .readLoop .. => True
  | _ => False

/-- One pipe and its users. -/
structure PipeSys (N : ℕ) where
  pipe : Pipe
  lock : Option (Fin N)
  pc : Fin N → PipePc
  killed : Fin N → Bool
  sent : List UInt8
  got : List UInt8

/-! ### The bytes in the pipe -/

/-- The content of the pipe, between `nread` and `nwrite`. -/
def Pipe.buffered (q : Pipe) : List UInt8 := queue PIPESIZE q.data.get q.nread q.nwrite

def Pipe.put (q : Pipe) (ch : UInt8) : Pipe :=
  { q with
    data := q.data.splice (q.nwrite.toNat % PIPESIZE) [ch]
    nwrite := q.nwrite + 1 }

/-- `ch = pi->data[pi->nread++ % PIPESIZE]`: the byte, and the pipe after it. -/
def Pipe.take (q : Pipe) : UInt8 × Pipe :=
  (q.data.get (q.nread.toNat % PIPESIZE), { q with nread := q.nread + 1 })

def Pipe.full (q : Pipe) : Prop := q.nwrite = q.nread + UInt32.ofNat PIPESIZE

def Pipe.empty (q : Pipe) : Prop := q.nread = q.nwrite

instance (q : Pipe) : Decidable q.full := inferInstanceAs (Decidable (q.nwrite = _))

instance (q : Pipe) : Decidable q.empty := inferInstanceAs (Decidable (q.nread = _))

/-! ### The steps -/

variable {N : ℕ}

namespace PipeSys

def init (N : ℕ) (data : Bytes PIPESIZE) : PipeSys N where
  pipe := { data, nread := 0, nwrite := 0, readopen := true, writeopen := true }
  lock := none
  pc _ := .out none
  killed _ := false
  sent := []
  got := []

def goto (s : PipeSys N) (p : Fin N) (c : PipePc) : PipeSys N :=
  { s with pc := Function.update s.pc p c }

def wakeupNread (s : PipeSys N) : PipeSys N :=
  { s with pc := fun q => match s.pc q with | .readSleep r => .readAcquire r | c => c }

def wakeupNwrite (s : PipeSys N) : PipeSys N :=
  { s with pc := fun q => match s.pc q with | .writeSleep w i => .writeAcquire w i | c => c }

def leave (s : PipeSys N) (p : Fin N) (c : PipePc) : PipeSys N := { s with lock := none }.goto p c

/-- `acquire(&pi->lock)` by process `p`, which goes on at `c`; it spins while another
process has the lock. -/
def acquire (s : PipeSys N) (p : Fin N) (c : PipePc) : Option (PipeSys N) :=
  match s.lock with
  | none => some ({ s with lock := some p }.goto p c)
  | some _ => none

def writeDone (s : PipeSys N) (p : Fin N) (i : ℕ) : PipeSys N :=
  s.wakeupNread.leave p (.out (some i))

def readDone (s : PipeSys N) (p : Fin N) (i : ℕ) : PipeSys N :=
  s.wakeupNwrite.leave p (.out (some i))

def writeLoop (s : PipeSys N) (p : Fin N) (w : WriteArgs) (i : ℕ) : PipeSys N :=
  if (i : ℤ) < w.n then
    if s.pipe.full then
      if s.pipe.readopen = false ∨ s.killed p = true then s.leave p (.out (some (-1)))
      else s.goto p (.writeFull w i)
    else
      match w.copyin i with
      | none => s.writeDone p i
      | some ch =>
        { s with pipe := s.pipe.put ch, sent := s.sent ++ [ch] }.goto p (.writeLoop w (i + 1))
  else s.writeDone p i

def readTest (s : PipeSys N) (p : Fin N) (r : ReadArgs) : PipeSys N :=
  if s.pipe.empty ∧ s.pipe.writeopen = true then
    if s.killed p = true then s.leave p (.out (some (-1))) else s.goto p (.readEmpty r)
  else s.goto p (.readLoop r 0)

def readLoop (s : PipeSys N) (p : Fin N) (r : ReadArgs) (i : ℕ) : PipeSys N :=
  if (i : ℤ) < r.n then
    if s.pipe.empty then s.readDone p i
    else
      let (ch, pipe) := s.pipe.take
      if r.copyout i then
        { s with pipe := pipe, got := s.got ++ [ch] }.goto p (.readLoop r (i + 1))
      else { s with pipe := pipe }.readDone p i
  else s.readDone p i

def pipeclose (s : PipeSys N) (writable : Bool) : PipeSys N :=
  if writable then { s with pipe := { s.pipe with writeopen := false } }.wakeupNread
  else { s with pipe := { s.pipe with readopen := false } }.wakeupNwrite

def kill (s : PipeSys N) (p : Fin N) : PipeSys N :=
  let s := { s with killed := Function.update s.killed p true }
  match s.pc p with
  | .readSleep r => s.goto p (.readAcquire r)
  | .writeSleep w i => s.goto p (.writeAcquire w i)
  | _ => s

def advance (s : PipeSys N) (p : Fin N) : PipePc → Option (PipeSys N)
  | .out _ | .writeSleep .. | .readSleep _ => none
  | .writeAcquire w i => s.acquire p (.writeLoop w i)
  | .writeLoop w i => some (s.writeLoop p w i)
  | .writeFull w i => some (s.wakeupNread.leave p (.writeSleep w i))
  | .readAcquire r => s.acquire p (.readTest r)
  | .readTest r => some (s.readTest p r)
  | .readEmpty r => some (s.leave p (.readSleep r))
  | .readLoop r i => some (s.readLoop p r i)

end PipeSys

inductive PipeAction (N : ℕ)
  | read (p : Fin N) (r : ReadArgs)
  | write (p : Fin N) (w : WriteArgs)
  /-- Process `p` drops the last reference to one end and calls `pipeclose`. -/
  | close (p : Fin N) (writable : Bool)
  | kill (p : Fin N)
  | run (p : Fin N)

def PipeSys.step (s : PipeSys N) : PipeAction N → Option (PipeSys N)
  | .read p r => match s.pc p with
    | .out _ => some (s.goto p (.readAcquire r))
    | _ => none
  | .write p w => match s.pc p with
    | .out _ => some (s.goto p (.writeAcquire w 0))
    | _ => none
  | .close p writable => match s.pc p, s.lock with
    | .out _, none => some (s.pipeclose writable)
    | _, _ => none
  | .kill p => some (s.kill p)
  | .run p => s.advance p (s.pc p)

end Xv6
