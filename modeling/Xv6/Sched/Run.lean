/-
# Processes on several CPUs

`kernel/proc.c` as a transition system: `N` slots of `proc[]`, `M` CPUs in `scheduler()`, in any
interleaving.  A stack is a list of calls, each at one of the places of its source function
(`Frame`).

A step is one critical section, or one move to the next place where a lock is taken or given back;
what is read without a lock is read in a step of its own.  `p->lock` goes over `swtch` from thread
to thread.  Where the code would panic, or spins, there is no step.  The rest of the kernel is one
place, `Frame.kernel`.  Four fields are history that no step reads.
-/

import Xv6.Kernel.State

namespace Xv6.Sched

/-! ### Places in the code -/

/-- What a process sleeps on: the address of a process, of a counter of a pipe, of `cons.r`, of
`ticks`, or another. -/
inductive Chan (N : ℕ)
  | proc (p : Fin N)
  | nread (pi : ℕ)
  | nwrite (pi : ℕ)
  | consR
  | ticks
  | other (addr : ℕ)
deriving DecidableEq

/-- A spin lock other than those of processes. -/
inductive Spin
  | pipe (pi : ℕ)
  | cons
  | tickslock
  | other (addr : ℕ)
deriving DecidableEq

/-- Where the code tests `p->killed` under a lock of its own and then sleeps. -/
inductive Site
  | piperead (pi : ℕ)
  | pipewrite (pi : ℕ)
  | consoleread
  | sysSleep
deriving DecidableEq

def Site.chan {N : ℕ} : Site → Chan N
  | .piperead pi => .nread pi
  | .pipewrite pi => .nwrite pi
  | .consoleread => .consR
  | .sysSleep => .ticks

def Site.lock : Site → Spin
  | .piperead pi | .pipewrite pi => .pipe pi
  | .consoleread => .cons
  | .sysSleep => .tickslock

/-- Whom the process wakes up between the test and the sleep. -/
def Site.wakes {N : ℕ} : Site → Option (Chan N)
  | .pipewrite pi => some (.nread pi)
  | _ => none

/-- How the allocations inside `fork` will end. -/
inductive Memory
  /-- There is no page for the trapframe. -/
  | noTrapframe
  /-- There is one, but not enough for the page table or the copy of the parent. -/
  | noPages
  | enough
deriving DecidableEq

/-- A call that has not returned, and the place it has come to. -/
inductive Frame (N : ℕ)
  | kernel
  /-- `sleep(chan, lk)`: before `acquire(&p->lock)`. -/
  | sleepEnter (chan : Chan N) (lk : Spin)
  /-- Before `release(lk)`. -/
  | sleepLocked (chan : Chan N) (lk : Spin)
  /-- Before `p->chan` and `p->state` are set; no `lk` if it is `p->lock` itself. -/
  | sleepGo (chan : Chan N) (lk : Option Spin)
  /-- In `sched()`. -/
  | sleepParked (chan : Chan N) (lk : Option Spin)
  /-- Before `acquire(lk)`. -/
  | sleepRelock (lk : Spin)
  | wakeup (chan : Chan N) (i : ℕ)
  /-- `yield`: before `acquire(&p->lock)`. -/
  | yieldEnter
  /-- In `sched()`. -/
  | yieldParked
  | kill (pid : BitVec 32) (i : ℕ)
  /-- `allocproc` in `fork`, at slot `i`. -/
  | forkScan (mem : Memory) (i : ℕ)
  /-- `fork` with `np->lock` held. -/
  | forkHave (mem : Memory) (np : Fin N)
  /-- A new process, before it releases its lock. -/
  | forkret
  /-- `exit(status)`: before `init` is woken. -/
  | exitWake (status : ℤ)
  /-- Before `p->parent` is copied. -/
  | exitRead (status : ℤ)
  /-- Before `acquire(&original_parent->lock)`. -/
  | exitLockParent (status : ℤ) (parent : Fin N)
  /-- Before `acquire(&p->lock)`. -/
  | exitLockSelf (status : ℤ) (parent : Fin N)
  /-- `reparent`, before slot `i` is looked at. -/
  | exitScan (status : ℤ) (parent : Fin N) (i : ℕ)
  /-- `reparent`, before slot `i` is locked. -/
  | exitGive (status : ℤ) (parent : Fin N) (i : Fin N)
  /-- Before the parent is woken and the state set. -/
  | exitZombie (status : ℤ) (parent : Fin N)
  | exitSwitch
  | exitParked
  /-- `wait`: before `acquire(&p->lock)`; `copyout` says whether the status can be copied. -/
  | waitEnter (copyout : Bool)
  | waitScan (copyout : Bool) (i : ℕ) (havekids : Bool)
  | waitChild (copyout : Bool) (i : Fin N)
  /-- A loop that sleeps while a condition holds, before its test; it will be found true
  `n` times. -/
  | killTest (site : Site) (n : ℕ)
  /-- After the test of `p->killed`. -/
  | killTested (site : Site) (n : ℕ)
  | killReady (site : Site) (n : ℕ)
  /-- `scheduler()`, before slot `i` is locked. -/
  | scheduler (i : ℕ)
  /-- `scheduler()` in `swtch` to process `p`, or just back from it. -/
  | switched (p : Fin N)
deriving DecidableEq

/-! ### The state -/

/-- `struct proc`, with the kernel stack. -/
structure Proc (N : ℕ) where
  state : ProcState
  chan : Option (Chan N)
  parent : Option (Fin N)
  killed : Bool
  xstate : ℤ
  pid : BitVec 32
  stack : List (Frame N)

/-- `struct cpu`, with the stack of its `scheduler()`. -/
structure Cpu (N : ℕ) where
  proc : Option (Fin N)
  /-- The process on whose kernel stack the CPU runs. -/
  on : Option (Fin N)
  stack : List (Frame N)

/-- A process that has exited: its slot, which of the processes in that slot it was, its pid and
its status. -/
structure Exited (N : ℕ) where
  slot : Fin N
  birth : ℕ
  pid : BitVec 32
  status : ℤ

/-- What a successful `wait` has returned, who called it, and whose child it then was. -/
structure Reaped (N : ℕ) where
  child : Exited N
  parent : Option (Fin N)
  caller : Fin N

/-- The process table and the CPUs. -/
structure Sys (N M : ℕ) where
  proc : Fin N → Proc N
  cpu : Fin M → Cpu N
  /-- The CPU that has `p->lock`. -/
  plock : Fin N → Option (Fin M)
  /-- The other spin locks that are held, and by which CPU. -/
  held : List (Spin × Fin M)
  initproc : Fin N
  nextpid : BitVec 32
  sleeps : Fin N → ℕ
  births : Fin N → ℕ
  exited : List (Exited N)
  reaped : List (Reaped N)

variable {N M : ℕ}

/-- After `userinit`, on CPUs that have come to `scheduler()`. -/
def Sys.boot (N M : ℕ) (initproc : Fin N) : Sys N M where
  proc p :=
    if p = initproc then ⟨.runnable, none, none, false, 0, 1, [.forkret, .kernel]⟩
    else ⟨.unused, none, none, false, 0, 0, []⟩
  cpu _ := ⟨none, none, [.scheduler 0]⟩
  plock _ := none
  held := []
  initproc := initproc
  nextpid := 2
  sleeps _ := 0
  births _ := 0
  exited := []
  reaped := []

/-! ### Critical sections -/

def Proc.free (pr : Proc N) : Proc N :=
  { pr with pid := 0, parent := none, chan := none, killed := false, xstate := 0, state := .unused }

def Proc.wake (chan : Chan N) (pr : Proc N) : Proc N :=
  if pr.state = .sleeping ∧ pr.chan = some chan then { pr with state := .runnable } else pr

def Proc.kill (pr : Proc N) : Proc N :=
  { pr with killed := true, state := if pr.state = .sleeping then .runnable else pr.state }

namespace Sys

def setProc (s : Sys N M) (q : Fin N) (g : Proc N → Proc N) : Sys N M :=
  { s with proc := Function.update s.proc q (g (s.proc q)) }

def setCpu (s : Sys N M) (c : Fin M) (g : Cpu N → Cpu N) : Sys N M :=
  { s with cpu := Function.update s.cpu c (g (s.cpu c)) }

def setLock (s : Sys N M) (q : Fin N) (o : Option (Fin M)) : Sys N M :=
  { s with plock := Function.update s.plock q o }

def setStack (s : Sys N M) (p : Fin N) (st : List (Frame N)) : Sys N M :=
  s.setProc p fun pr => { pr with stack := st }

def acquire (s : Sys N M) (c : Fin M) (q : Fin N) : Option (Sys N M) :=
  if s.plock q = none then some (s.setLock q (some c)) else none

def release (s : Sys N M) (c : Fin M) (q : Fin N) : Option (Sys N M) :=
  if s.plock q = some c then some (s.setLock q none) else none

def acquireSpin (s : Sys N M) (c : Fin M) (lk : Spin) : Option (Sys N M) :=
  if ∀ x ∈ s.held, x.1 ≠ lk then some { s with held := (lk, c) :: s.held } else none

def releaseSpin (s : Sys N M) (c : Fin M) (lk : Spin) : Option (Sys N M) :=
  if (lk, c) ∈ s.held then some { s with held := s.held.erase (lk, c) } else none

/-- A critical section of `q->lock` that ends in the step in which it starts. -/
def critical (s : Sys N M) (q : Fin N) (g : Proc N → Proc N) : Option (Sys N M) :=
  if s.plock q = none then some (s.setProc q g) else none

def noff (s : Sys N M) (c : Fin M) : ℕ :=
  s.held.countP (fun x => x.2 = c) + (List.finRange N).countP fun q => s.plock q = some c

def sched (s : Sys N M) (c : Fin M) (p : Fin N) : Option (Sys N M) :=
  if s.plock p = some c ∧ s.noff c = 1 ∧ (s.proc p).state ≠ .running then
    some (s.setCpu c fun k => { k with on := none })
  else none

/-- `sleep(chan, lk)` is called by process `p` on CPU `c`, with `lk` held. -/
def callSleep (s : Sys N M) (c : Fin M) (p : Fin N) (chan : Chan N) (lk : Spin)
    (st : List (Frame N)) : Option (Sys N M) :=
  if (lk, c) ∈ s.held then
    some ({ s with sleeps := Function.update s.sleeps p (s.sleeps p + 1) }.setStack p
      (.sleepEnter chan lk :: st))
  else none

/-! ### The steps -/

/-- The next step of process `p` on CPU `c`, whose innermost call is at the place given. -/
def procStep (s : Sys N M) (c : Fin M) (p : Fin N) (rest : List (Frame N)) :
    Frame N → Option (Sys N M)
  | .kernel => none
  | .sleepEnter chan lk => do
    let s ← s.acquire c p
    some (s.setStack p (.sleepLocked chan lk :: rest))
  | .sleepLocked chan lk => do
    let s ← s.releaseSpin c lk
    some (s.setStack p (.sleepGo chan (some lk) :: rest))
  | .sleepGo chan lk =>
    (s.setProc p fun pr =>
      { pr with chan := some chan, state := .sleeping, stack := .sleepParked chan lk ::
      rest }).sched c p
  | .sleepParked _ lk =>
    let s := s.setProc p fun pr => { pr with chan := none }
    match lk with
    | none => some (s.setStack p rest)
    | some lk => do
      let s ← s.release c p
      some (s.setStack p (.sleepRelock lk :: rest))
  | .sleepRelock lk => do
    let s ← s.acquireSpin c lk
    some (s.setStack p rest)
  | .wakeup chan i =>
    if h : i < N then do
      let s ← s.critical ⟨i, h⟩ (Proc.wake chan)
      some (s.setStack p (.wakeup chan (i + 1) :: rest))
    else some (s.setStack p rest)
  | .yieldEnter => do
    let s ← s.acquire c p
    (s.setProc p fun pr => { pr with state := .runnable, stack := .yieldParked :: rest }).sched c p
  | .yieldParked | .forkret => do
    let s ← s.release c p
    some (s.setStack p rest)
  | .kill pid i =>
    if h : i < N then
      if (s.proc ⟨i, h⟩).pid = pid then do
        let s ← s.critical ⟨i, h⟩ Proc.kill
        some (s.setStack p rest)
      else do
        let s ← s.critical ⟨i, h⟩ id
        some (s.setStack p (.kill pid (i + 1) :: rest))
    else some (s.setStack p rest)
  | .forkScan mem i =>
    if h : i < N then do
      let s ← s.acquire c ⟨i, h⟩
      if (s.proc ⟨i, h⟩).state = .unused then
        -- `allocpid`
        let s :=
          { s.setProc ⟨i, h⟩ fun pr => { pr with pid := s.nextpid } with nextpid := s.nextpid + 1 }
        some (s.setStack p (.forkHave mem ⟨i, h⟩ :: rest))
      else
        let s ← s.release c ⟨i, h⟩
        some (s.setStack p (.forkScan mem (i + 1) :: rest))
    else some (s.setStack p rest)
  | .forkHave mem np => do
    let s := match mem with
      | .noTrapframe => s
      | .noPages => s.setProc np Proc.free
      | .enough =>
        { s.setProc np fun pr =>
            { pr with parent := some p, stack := [.forkret, .kernel], state := .runnable } with
          births := Function.update s.births np (s.births np + 1) }
    let s ← s.release c np
    some (s.setStack p rest)
  | .exitWake status => do
    let s ← s.critical s.initproc (Proc.wake (.proc s.initproc))
    some (s.setStack p (.exitRead status :: rest))
  | .exitRead status =>
    if s.plock p = none then do
      let parent ← (s.proc p).parent
      some (s.setStack p (.exitLockParent status parent :: rest))
    else none
  | .exitLockParent status parent => do
    let s ← s.acquire c parent
    some (s.setStack p (.exitLockSelf status parent :: rest))
  | .exitLockSelf status parent => do
    let s ← s.acquire c p
    some (s.setStack p (.exitScan status parent 0 :: rest))
  | .exitScan status parent i =>
    if h : i < N then
      if (s.proc ⟨i, h⟩).parent = some p then
        some (s.setStack p (.exitGive status parent ⟨i, h⟩ :: rest))
      else some (s.setStack p (.exitScan status parent (i + 1) :: rest))
    else some (s.setStack p (.exitZombie status parent :: rest))
  | .exitGive status parent i => do
    let s ← s.critical i fun pr => { pr with parent := some s.initproc }
    some (s.setStack p (.exitScan status parent (i + 1) :: rest))
  | .exitZombie status parent =>
    let s := { s with exited := ⟨p, s.births p, (s.proc p).pid, status⟩ :: s.exited }
    let s := s.setProc parent (Proc.wake (.proc parent))
    let s := s.setProc p fun pr =>
      { pr with xstate := status, state := .zombie, stack := .exitSwitch :: rest }
    s.release c parent
  | .exitSwitch => (s.setStack p (.exitParked :: rest)).sched c p
  | .exitParked => none
  | .waitEnter copyout => do
    let s ← s.acquire c p
    some (s.setStack p (.waitScan copyout 0 false :: rest))
  | .waitScan copyout i havekids =>
    if h : i < N then
      if (s.proc ⟨i, h⟩).parent = some p then
        some (s.setStack p (.waitChild copyout ⟨i, h⟩ :: rest))
      else some (s.setStack p (.waitScan copyout (i + 1) havekids :: rest))
    else if havekids = false ∨ (s.proc p).killed = true then do
      let s ← s.release c p
      some (s.setStack p rest)
    else
      -- `sleep(p, &p->lock)`
      some ({ s with sleeps := Function.update s.sleeps p (s.sleeps p + 1) }.setStack p
        (.sleepGo (.proc p) none :: .waitScan copyout 0 false :: rest))
  | .waitChild copyout i =>
    if (s.proc i).state = .zombie then
      if copyout then do
        let child : Exited N := ⟨i, s.births i, (s.proc i).pid, (s.proc i).xstate⟩
        let s' ← s.critical i Proc.free
        let s' ← s'.release c p
        some ({ s' with reaped := ⟨child, (s.proc i).parent, p⟩ :: s.reaped }.setStack p rest)
      else do
        let s ← s.critical i id
        let s ← s.release c p
        some (s.setStack p rest)
    else do
      let s ← s.critical i id
      some (s.setStack p (.waitScan copyout (i + 1) true :: rest))
  | .killTest site n =>
    match n with
    | 0 => some (s.setStack p rest)
    | n + 1 =>
      if (s.proc p).killed = true then do
        let s ← s.releaseSpin c site.lock
        some (s.setStack p rest)
      else some (s.setStack p (.killTested site n :: rest))
  | .killTested site n =>
    match site.wakes with
    | none => some (s.setStack p (.killReady site n :: rest))
    | some chan => some (s.setStack p (.wakeup chan 0 :: .killReady site n :: rest))
  | .killReady site n => s.callSleep c p site.chan site.lock (.killTest site n :: rest)
  | .scheduler _ | .switched _ => none

def cpuStep (s : Sys N M) (c : Fin M) (rest : List (Frame N)) : Frame N → Option (Sys N M)
  | .scheduler i =>
    if h : i < N then
      if (s.proc ⟨i, h⟩).state = .runnable then do
        let s ← s.acquire c ⟨i, h⟩
        let s := s.setProc ⟨i, h⟩ fun pr => { pr with state := .running }
        some (s.setCpu c fun _ => ⟨some ⟨i, h⟩, some ⟨i, h⟩, .switched ⟨i, h⟩ :: rest⟩)
      else do
        let s ← s.critical ⟨i, h⟩ id
        some (s.setCpu c fun k => { k with stack := .scheduler (i + 1) :: rest })
    else some (s.setCpu c fun k => { k with stack := .scheduler 0 :: rest })
  | .switched p => do
    let s ← s.release c p
    some (s.setCpu c fun k => { k with proc := none, stack := .scheduler (p + 1) :: rest })
  | .wakeup chan i =>
    if h : i < N then do
      let s ← s.critical ⟨i, h⟩ (Proc.wake chan)
      some (s.setCpu c fun k => { k with stack := .wakeup chan (i + 1) :: rest })
    else some (s.setCpu c fun k => { k with stack := rest })
  | _ => none

end Sys

/-- What a running process can call. -/
inductive Call (N : ℕ)
  | sleep (chan : Chan N) (lk : Spin)
  | wakeup (chan : Chan N)
  | kill (pid : BitVec 32)
  | fork (mem : Memory)
  | exit (status : ℤ)
  | wait (copyout : Bool)
  /-- A loop of one of the calls that sleep unless they are killed, with its lock held. -/
  | loop (site : Site) (n : ℕ)

/-- What a CPU does next. -/
inductive Act (N : ℕ)
  | run
  | call (f : Call N)
  | acquire (lk : Spin)
  | release (lk : Spin)
  /-- Return from the handler of an interrupt. -/
  | ret
  | interrupt
  /-- The timer interrupts, and the handler calls `yield`. -/
  | preempt

namespace Sys

def enter (s : Sys N M) (c : Fin M) (p : Fin N) (st : List (Frame N)) : Call N → Option (Sys N M)
  | .sleep chan lk => s.callSleep c p chan lk st
  | .wakeup chan => some (s.setStack p (.wakeup chan 0 :: st))
  | .kill pid => some (s.setStack p (.kill pid 0 :: st))
  | .fork mem => some (s.setStack p (.forkScan mem 0 :: st))
  -- `panic("init exiting")`
  | .exit status => if p = s.initproc then none else some (s.setStack p (.exitWake status :: st))
  | .wait copyout => some (s.setStack p (.waitEnter copyout :: st))
  | .loop site n =>
    if (site.lock, c) ∈ s.held then some (s.setStack p (.killTest site n :: st)) else none

def procAct (s : Sys N M) (c : Fin M) (p : Fin N) (f : Frame N) (rest : List (Frame N)) :
    Act N → Option (Sys N M)
  | .run => s.procStep c p rest f
  | .call g => if f = .kernel then s.enter c p (f :: rest) g else none
  | .acquire lk => if f = .kernel then s.acquireSpin c lk else none
  | .release lk => if f = .kernel then s.releaseSpin c lk else none
  | .ret => if f = .kernel ∧ rest ≠ [] then some (s.setStack p rest) else none
  | .interrupt => if s.noff c = 0 then some (s.setStack p (.kernel :: f :: rest)) else none
  | .preempt => if s.noff c = 0 then some (s.setStack p (.yieldEnter :: f :: rest)) else none

/-- A step of CPU `c` outside processes, where interrupt handlers wake up others. -/
def cpuAct (s : Sys N M) (c : Fin M) (f : Frame N) (rest : List (Frame N)) :
    Act N → Option (Sys N M)
  | .run => s.cpuStep c rest f
  | .call g =>
    match f, g with
    | .kernel, .wakeup chan =>
    some (s.setCpu c fun k => { k with stack := .wakeup chan 0 :: f :: rest })
    | _, _ => none
  | .acquire lk => if f = .kernel then s.acquireSpin c lk else none
  | .release lk => if f = .kernel then s.releaseSpin c lk else none
  | .ret => if f = .kernel then some (s.setCpu c fun k => { k with stack := rest }) else none
  | .interrupt =>
    if s.noff c = 0 then
    some (s.setCpu c fun k => { k with stack := .kernel :: f :: rest }) else none
  | .preempt => none

def step (s : Sys N M) (a : Fin M × Act N) : Option (Sys N M) :=
  match (s.cpu a.1).on with
  | some p =>
    match (s.proc p).stack with
    | [] => none
    | f :: rest => s.procAct a.1 p f rest a.2
  | none =>
    match (s.cpu a.1).stack with
    | [] => none
    | f :: rest => s.cpuAct a.1 f rest a.2

end Sys

end Xv6.Sched
