/-
# Console output, and the locks it sleeps with

`consolewrite` of `kernel/console.c` and `uartputc`, `uartstart` and the transmit half of `uartintr`
of `kernel/uart.c`, for any number of writers.  `uartputc` takes `uart_tx_lock` with `cons.lock`
held and gives up only the first to sleep.  A spin lock turns interrupts off, so `mycpu()->noff` is
the number of locks of the thread.  The line status register is answered from outside, and a panic
ends the run.
-/

import Xv6.Lib.Spin
import Xv6.Pipe.Run

namespace Xv6.Console

open Lib

abbrev UART_TX_BUF_SIZE : ℕ := 32

/-- The transmit buffer: `uart_tx_buf`, `uart_tx_w` and `uart_tx_r`. -/
structure Uart where
  buf : Bytes UART_TX_BUF_SIZE
  w : ℕ
  r : ℕ

namespace Uart

def full (u : Uart) : Prop := (u.w + 1) % UART_TX_BUF_SIZE = u.r

instance (u : Uart) : Decidable u.full := inferInstanceAs (Decidable (_ = _))

def put (u : Uart) (c : UInt8) : Uart :=
  { u with buf := u.buf.splice u.w [c], w := (u.w + 1) % UART_TX_BUF_SIZE }

def take (u : Uart) : UInt8 × Uart := (u.buf.get u.r, { u with r := (u.r + 1) % UART_TX_BUF_SIZE })

end Uart

/-- `cons.lock`, `uart_tx_lock` and the lock of each process. -/
inductive Lock (N : ℕ)
  | cons
  | tx
  | proc (p : Fin N)
  deriving DecidableEq

/-- A process, or the interrupt handler. -/
inductive Thread (N : ℕ)
  | proc (p : Fin N)
  | intr
  deriving DecidableEq

/-- The calls of `panic` on the way. -/
inductive WritePanic
  /-- `acquire` of a lock that the CPU holds. -/
  | acquire
  /-- `release` of a lock that it does not hold. -/
  | release
  | schedProcLock
  | schedLocks
  deriving DecidableEq

inductive StartPc
  | loop
  /-- In `wakeup(&uart_tx_r)`, before process `k`; `c` is still to be written to `THR`. -/
  | wake (c : UInt8) (k : ℕ)

/-- Where a process is in `consolewrite`, with `i` bytes done. -/
inductive WritePc
  /-- In no call; what the last one returned. -/
  | out (v : Option ℤ)
  /-- Before `acquire(&cons.lock)`. -/
  | enter (a : WriteArgs)
  | loop (a : WriteArgs) (i : ℕ)
  /-- In `uartputc`, before it has `uart_tx_lock`: on entry, or at the end of `sleep`. -/
  | putEnter (a : WriteArgs) (i : ℕ) (c : UInt8)
  | test (a : WriteArgs) (i : ℕ) (c : UInt8)
  | start (a : WriteArgs) (i : ℕ) (q : StartPc)
  /-- At the call of `sleep(&uart_tx_r, &uart_tx_lock)`. -/
  | sleepEnter (a : WriteArgs) (i : ℕ) (c : UInt8)
  /-- In `sleep`, with `p->lock`, before `release(lk)`. -/
  | sleepRelease (a : WriteArgs) (i : ℕ) (c : UInt8)
  /-- At the call of `sched`, with `p->state = SLEEPING`. -/
  | sched (a : WriteArgs) (i : ℕ) (c : UInt8)
  | asleep (a : WriteArgs) (i : ℕ) (c : UInt8)
  | runnable (a : WriteArgs) (i : ℕ) (c : UInt8)
  /-- `sched` has returned, with `p->lock` from the scheduler. -/
  | tidy (a : WriteArgs) (i : ℕ) (c : UInt8)

structure WriteSys (N : ℕ) where
  uart : Uart
  spin : Spin (Lock N) (Thread N)
  pc : Fin N → WritePc
  /-- The handler, while it has `uart_tx_lock`. -/
  intr : Option StartPc
  panic : Option WritePanic
  thr : List UInt8

variable {N : ℕ}

namespace WriteSys

def init (N : ℕ) (buf : Bytes UART_TX_BUF_SIZE) : WriteSys N where
  uart := ⟨buf, 0, 0⟩
  spin := Spin.free
  pc _ := .out none
  intr := none
  panic := none
  thr := []

def goto (s : WriteSys N) (p : Fin N) (c : WritePc) : WriteSys N :=
  { s with pc := Function.update s.pc p c }

/-- `acquire`: a thread spins while another one has the lock. -/
def acquire (s : WriteSys N) (t : Thread N) (l : Lock N) : Option (WriteSys N) :=
  match s.spin.owner l with
  | none => some { s with spin := s.spin.take t l }
  | some u => if u = t then some { s with panic := some .acquire } else none

def release (s : WriteSys N) (t : Thread N) (l : Lock N) : WriteSys N :=
  if s.spin.owner l = some t then { s with spin := s.spin.drop t l } else
    { s with panic := some .release }

def wake (s : WriteSys N) (p : Fin N) : WriteSys N :=
  match s.pc p with
  | .asleep a i c => s.goto p (.runnable a i c)
  | _ => s

/-- `acquire(&p->lock)`, a look at `p->state`, `release(&p->lock)`. -/
def wakeLocked (s : WriteSys N) (t : Thread N) (p : Fin N) : Option (WriteSys N) :=
  match s.spin.owner (.proc p) with
  | none => some (s.wake p)
  | some u => if u = t then some { s with panic := some .acquire } else none

/-- The next step of `uartstart` and where it goes on, `none` if it returns; `idle` is the answer of
the line status register. -/
def uartstart (s : WriteSys N) (t : Thread N) (idle : Bool) :
    StartPc → Option (WriteSys N × Option StartPc)
  | .loop =>
    if s.uart.w = s.uart.r then some (s, none)
    else if idle = false then some (s, none)
    else
      let (c, uart) := s.uart.take
      some ({ s with uart := uart }, some (.wake c 0))
  | .wake c k =>
    if h : k < N then (s.wakeLocked t ⟨k, h⟩).map fun s => (s, some (.wake c (k + 1)))
    else some ({ s with thr := s.thr ++ [c] }, some .loop)

/-- `sched()`, to where the scheduler has given `p->lock` back.  The process is not `RUNNING`, and
interrupts are off while a lock is held, so its other two tests pass. -/
def schedule (s : WriteSys N) (p : Fin N) (c : WritePc) : WriteSys N :=
  if s.spin.owner (.proc p) ≠ some (.proc p) then { s with panic := some .schedProcLock }
  else if s.spin.noff (.proc p) ≠ 1 then { s with panic := some .schedLocks }
  else (s.release (.proc p) (.proc p)).goto p c

def advance (s : WriteSys N) (p : Fin N) (idle : Bool) : WritePc → Option (WriteSys N)
  | .out _ | .asleep .. => none
  | .enter a => (s.acquire (.proc p) .cons).map fun s => s.goto p (.loop a 0)
  | .loop a i =>
    let done := (s.release (.proc p) .cons).goto p (.out (some i))
    if i < a.n then
      match a.copyin i with
      | none => some done
      | some c => some (s.goto p (.putEnter a i c))
    else some done
  | .putEnter a i c => (s.acquire (.proc p) .tx).map fun s => s.goto p (.test a i c)
  | .test a i c =>
    if s.uart.full then some (s.goto p (.sleepEnter a i c))
    else some ({ s with uart := s.uart.put c }.goto p (.start a i .loop))
  | .start a i q => (s.uartstart (.proc p) idle q).map fun x => match x.2 with
    | some q => x.1.goto p (.start a i q)
    | none => (x.1.release (.proc p) .tx).goto p (.loop a (i + 1))
  | .sleepEnter a i c => (s.acquire (.proc p) (.proc p)).map fun s => s.goto p (.sleepRelease a i c)
  | .sleepRelease a i c => some ((s.release (.proc p) .tx).goto p (.sched a i c))
  | .sched a i c => some (s.schedule p (.asleep a i c))
  | .runnable a i c => (s.acquire (.proc p) (.proc p)).map fun s => s.goto p (.tidy a i c)
  | .tidy a i c => some ((s.release (.proc p) (.proc p)).goto p (.putEnter a i c))

def handle (s : WriteSys N) (idle : Bool) : Option (WriteSys N) :=
  match s.intr with
  | none => (s.acquire .intr .tx).map fun s => { s with intr := some .loop }
  | some q => (s.uartstart .intr idle q).map fun x => match x.2 with
    | some q => { x.1 with intr := some q }
    | none => { x.1.release .intr .tx with intr := none }

end WriteSys

/-- What can happen next; `idle` is the answer of the line status register, if it is read. -/
inductive WriteAction (N : ℕ)
  | write (p : Fin N) (a : WriteArgs)
  /-- Some process kills process `p`, which wakes it. -/
  | kill (p : Fin N)
  | run (p : Fin N) (idle : Bool)
  /-- The interrupt handler starts, or goes one step on. -/
  | intr (idle : Bool)

def WritePc.callsSleep : WritePc → Bool
  | .sleepEnter .. => true
  | _ => false

/-- At the test for a full buffer. -/
def WritePc.tests : WritePc → Bool
  | .test .. => true
  | _ => false

namespace WriteSys

def step (s : WriteSys N) (a : WriteAction N) : Option (WriteSys N) :=
  if s.panic ≠ none then none
  else match a with
    | .write p a => match s.pc p with
      | .out _ => some (s.goto p (.enter a))
      | _ => none
    | .kill p => if s.spin.owner (.proc p) = none then some (s.wake p) else none
    | .run p idle => s.advance p idle (s.pc p)
    | .intr idle => s.handle idle

def CallsSleep (s : WriteSys N) (p : Fin N) : Prop := (s.pc p).callsSleep = true

/-- Process `p` has exactly the spin lock that it passes to `sleep`. -/
def HoldsTxOnly (s : WriteSys N) (p : Fin N) : Prop :=
  ∀ l, s.spin.owner l = some (.proc p) ↔ l = .tx

/-- No byte comes to a full buffer. -/
def Drains (s : WriteSys N) : WriteAction N → Prop
  | .run p _ => (s.pc p).tests = true → ¬s.uart.full
  | _ => True

instance (s : WriteSys N) : (a : WriteAction N) → Decidable (s.Drains a)
  | .run p _ => inferInstanceAs (Decidable ((s.pc p).tests = true → ¬s.uart.full))
  | .write .. | .kill _ | .intr _ => inferInstanceAs (Decidable True)

end WriteSys

end Xv6.Console
