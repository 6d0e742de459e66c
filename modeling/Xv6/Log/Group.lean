/-
# Group commit, as steps of many processes

`begin_op`, `end_op`, `log_write` and `commit` of `kernel/log.c`, for any number of processes.  What
is done under `log.lock` is one step, and what is done without it a step of its own: the test of
`log_write` for the length of `log.lh`, and each access of `commit`.  `used`, the blocks that an
operation has passed to `log_write`, is not in the source.
-/

import Xv6.Log.Disk
import Mathlib.Data.Finset.Card
import Mathlib.Data.Fintype.Basic

namespace Xv6

open Function
namespace Log

/-- Where a process is in `commit`. -/
inductive CommitPc
  /-- At `if (log.lh.n > 0)`. -/
  | test
  /-- In `write_log`, before the iteration `tail`. -/
  | writeLog (tail : ℕ)
  /-- At the committing `write_head`. -/
  | writeHead
  /-- In `install_trans`, before the iteration `tail`. -/
  | installTrans (tail : ℕ)
  | clear
  /-- At the `write_head` that erases the transaction. -/
  | eraseHead
  /-- Back in `end_op`, before `log.committing = 0`. -/
  | done
  deriving DecidableEq

/-- Where a process is. -/
inductive Pc
  | out
  /-- In `begin_op`, at the head of its loop. -/
  | begin
  /-- In `begin_op`, in `sleep(&log, &log.lock)`. -/
  | sleeping
  /-- Between `begin_op` and `end_op`. -/
  | op (used : Finset ℕ)
  /-- In `log_write`, the checks passed, before `acquire(&log.lock)`. -/
  | append (b : ℕ) (used : Finset ℕ)
  /-- In `end_op`, committing. -/
  | commit (c : CommitPc)
  deriving DecidableEq

/-- The panics of `log.c` that an operation can run into. -/
inductive Panic
  | tooBig
  | outsideOfTrans
  | committing
  deriving DecidableEq

/-- The state of the logging code for `N` processes: the fields `outstanding`,
`committing` and `lh` of `struct log`, for each block the references that `bpin`
and `bunpin` made and dropped, and the program counters. -/
structure Group (N : ℕ) where
  outstanding : ℤ
  committing : Bool
  lh : List ℕ
  pins : ℕ → ℤ
  pc : Fin N → Pc
  panic : Option Panic

variable {N : ℕ}

namespace Group

def goto (s : Group N) (p : Fin N) (c : Pc) : Group N := { s with pc := update s.pc p c }

def wakeup (s : Group N) : Group N :=
  { s with pc := fun q => if s.pc q = .sleeping then .begin else s.pc q }

/-- The loop of `begin_op`, once, under `log.lock`. -/
def beginOp (s : Group N) (p : Fin N) : Group N :=
  if s.committing then s.goto p .sleeping
  else if s.lh.length + (s.outstanding + 1) * MAXOPBLOCKS > LOGSIZE then s.goto p .sleeping
  else { s with outstanding := s.outstanding + 1 }.goto p (.op ∅)

/-- The checks of `log_write`, made without the lock. -/
def logWrite (log : Region) (s : Group N) (p : Fin N) (b : ℕ) (used : Finset ℕ) : Group N :=
  if s.lh.length ≥ LOGSIZE ∨ (s.lh.length : ℤ) ≥ log.size - 1 then { s with panic := some .tooBig }
  else if s.outstanding < 1 then { s with panic := some .outsideOfTrans }
  else s.goto p (.append b used)

/-- The rest of `log_write`, under `log.lock`: log absorption, or a new block. -/
def append (s : Group N) (p : Fin N) (b : ℕ) (used : Finset ℕ) : Group N :=
  if b ∈ s.lh then s.goto p (.op (insert b used))
  else { s with
    lh := s.lh ++ [b]
    pins := update s.pins b (s.pins b + 1) }.goto p (.op (insert b used))

def endOp (s : Group N) (p : Fin N) : Group N :=
  let s := { s with outstanding := s.outstanding - 1 }
  if s.committing then { s with panic := some .committing }
  else if s.outstanding = 0 then { s with committing := true }.goto p (.commit .test)
  else s.wakeup.goto p .out

/-- One step of `commit`, and of what `end_op` does after it. -/
def commitStep (s : Group N) (p : Fin N) : CommitPc → Group N
  | .test => s.goto p (.commit (if s.lh.length > 0 then .writeLog 0 else .done))
  | .writeLog tail =>
    s.goto p (.commit (if tail < s.lh.length then .writeLog (tail + 1) else .writeHead))
  | .writeHead => s.goto p (.commit (.installTrans 0))
  | .installTrans tail =>
    match s.lh[tail]? with
    | some b =>
      { s with pins := update s.pins b (s.pins b - 1) }.goto p (.commit (.installTrans (tail + 1)))
    | none => s.goto p (.commit .clear)
  | .clear => { s with lh := [] }.goto p (.commit .eraseHead)
  | .eraseHead => s.goto p (.commit .done)
  | .done => { s with committing := false }.wakeup.goto p .out

end Group

/-- What process `p` does. -/
inductive Action (N : ℕ)
  | call (p : Fin N)
  /-- The next round of the loop of `begin_op`. -/
  | beginOp (p : Fin N)
  /-- Call `log_write` on block `b`, up to its checks. -/
  | logWrite (p : Fin N) (b : ℕ)
  | append (p : Fin N)
  | endOp (p : Fin N)
  | commit (p : Fin N)

/-- **The step function.**  An action is possible when the process is where the
action continues, and nothing is after a panic. -/
def step (log : Region) (s : Group N) : Action N → Option (Group N)
  | .call p => if s.panic = none ∧ s.pc p = .out then some (s.goto p .begin) else none
  | .beginOp p => if s.panic = none ∧ s.pc p = .begin then some (s.beginOp p) else none
  | .logWrite p b =>
    match s.panic, s.pc p with
    | none, .op used => some (s.logWrite log p b used)
    | _, _ => none
  | .append p =>
    match s.panic, s.pc p with
    | none, .append b used => some (s.append p b used)
    | _, _ => none
  | .endOp p =>
    match s.panic, s.pc p with
    | none, .op _ => some (s.endOp p)
    | _, _ => none
  | .commit p =>
    match s.panic, s.pc p with
    | none, .commit c => some (s.commitStep p c)
    | _, _ => none

/-- The state after `initlog`, with the references `pins` in the buffer cache. -/
def Group.init (N : ℕ) (pins : ℕ → ℤ) : Group N := ⟨0, false, [], pins, fun _ => .out, none⟩

/-- The promise of the callers: an operation passes at most `MAXOPBLOCKS` distinct
blocks to `log_write`. -/
def Budgeted (s : Group N) : Action N → Prop
  | .logWrite p b =>
    ∀ used ∈ (match s.pc p with | .op u => some u | _ => none), (insert b used).card ≤ MAXOPBLOCKS
  | _ => True

end Log
end Xv6
