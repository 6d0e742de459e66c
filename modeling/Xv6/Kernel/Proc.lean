/-
# Processes

`kernel/proc.c`: making, growing, copying and ending processes.  The pages of kernel
stacks are taken once, at boot, and are not part of a process here.
-/

import Xv6.Kernel.File

namespace Xv6

open Lib

variable (b : Board) (sb : Superblock)

/-! ### The trapframe -/

/-- `sizeof(struct trapframe)`. -/
abbrev TRAPFRAMESIZE : ℕ := 288

/-- Where `struct trapframe` has the program counter, the stack pointer and the first two
arguments. -/
abbrev TF_EPC : ℕ := 24
abbrev TF_SP : ℕ := 48
abbrev TF_A0 : ℕ := 112
abbrev TF_A1 : ℕ := 120

def setReg (trapframe reg v : ℕ) : MemM PUnit := modify fun m =>
  m.setPage trapframe ((m.page trapframe).setField 8 reg v)

def copyTrapframe (dst src : ℕ) : MemM PUnit := modify fun m =>
  m.setPage dst ((m.page dst).splice 0 ((m.page src).read 0 TRAPFRAMESIZE))

/-! ### Making and freeing a process -/

def freeproc (p : Pp) : KernelM PUnit := do
  match ((← get).proc p).trapframe with
  | none => freeTable p
  | some trapframe =>
    onMem (kfree b trapframe)
    freeTable p
where
  freeTable (p : Pp) : KernelM PUnit := do
    setProc p fun pr => { pr with trapframe := none }
    let pr := (← get).proc p
    match pr.pagetable with
    | none => clear p
    | some pagetable =>
      onMem (procFreepagetable b pagetable pr.sz)
      clear p
  clear (p : Pp) : KernelM PUnit := setProc p fun pr =>
    { pr with
      pagetable := none
      sz := 0
      pid := 0
      parent := none
      killed := false
      xstate := 0
      state := .unused }

/-- Look in the process table for an unused proc, and initialize what it needs to run in
the kernel. -/
def allocproc : KernelM (Option Pp) := do
  let s ← get
  match (List.finRange NPROC).find? fun p => (s.proc p).state = .unused with
  | none => return none
  | some p =>
    setProc p fun pr => { pr with pid := s.nextpid }
    modify fun s => { s with nextpid := s.nextpid + 1 }
    match ← onMem kalloc with
    | none =>
      setProc p fun pr => { pr with trapframe := none }
      return none
    | some trapframe =>
      setProc p fun pr => { pr with trapframe := some trapframe }
      let pagetable ← onMem (procPagetable b trapframe)
      setProc p fun pr => { pr with pagetable := pagetable }
      if pagetable = none then
        freeproc b p
        return none
      else return some p

/-- A user program that calls `exec("/init")`. -/
def initcode : List UInt8 := [0x17, 0x05, 0x00, 0x00, 0x13, 0x05, 0x45, 0x02,
   0x97, 0x05, 0x00, 0x00, 0x93, 0x85, 0x35, 0x02,
   0x93, 0x08, 0x70, 0x00, 0x73, 0x00, 0x00, 0x00,
   0x93, 0x08, 0x20, 0x00, 0x73, 0x00, 0x00, 0x00,
   0xef, 0xf0, 0x9f, 0xff, 0x2f, 0x69, 0x6e, 0x69,
   0x74, 0x00, 0x00, 0x24, 0x00, 0x00, 0x00, 0x00,
   0x00, 0x00, 0x00, 0x00]

/-- Load the initcode into address 0 of `pagetable`.  What `mappages` returns is
ignored. -/
def uvminit (pagetable : ℕ) (src : List UInt8) : KernelM PUnit := do
  if PGSIZE ≤ src.length then throw (.panic .inituvm)
  else
    let mem ← deref (← onMem kalloc)
    onMem (setPage mem (memset 0))
    let _ ← onMem (mappages pagetable 0 PGSIZE mem (PTE_W ||| PTE_R ||| PTE_X ||| PTE_U))
    onMem (modify fun m => m.setPage mem ((m.page mem).splice 0 src))

def rootPath : List UInt8 := [slash]

def userinit : KernelM PUnit := do
  let p ← allocproc b
  modify fun s => { s with initproc := p }
  let p ← deref p
  let pagetable ← deref ((← get).proc p).pagetable
  uvminit pagetable initcode
  setProc p fun pr => { pr with sz := PGSIZE }
  let trapframe ← deref ((← get).proc p).trapframe
  onMem (setReg trapframe TF_EPC 0)
  onMem (setReg trapframe TF_SP PGSIZE)
  -- an absolute path, so the current directory does not matter
  let cwd ← onFs (namei sb firstIp rootPath)
  setProc p fun pr => { pr with cwd := cwd }
  setProc p fun pr => { pr with state := .runnable }

/-! ### The calls of a process -/

def addInt (sz : ℕ) (n : ℤ) : ℕ := (((sz : ℤ) + n) % 2 ^ 32).toNat

def growproc (p : Pp) (n : ℤ) : KernelM ℤ := do
  let pr := (← get).proc p
  let pagetable ← deref pr.pagetable
  let sz := pr.sz % 2 ^ 32
  if 0 < n then
    let sz ← onMem (uvmalloc b pagetable sz (addInt sz n))
    if sz % 2 ^ 32 = 0 then return -1
    else
      setProc p fun pr => { pr with sz := sz % 2 ^ 32 }
      return 0
  else if n < 0 then
    let sz ← onMem (uvmdealloc b pagetable sz (addInt sz n))
    setProc p fun pr => { pr with sz := sz % 2 ^ 32 }
    return 0
  else
    setProc p fun pr => { pr with sz := sz }
    return 0

/-- `sys_sbrk`: the size before, as an `int`. -/
def sysSbrk (p : Pp) (n : ℤ) : KernelM ℤ := do
  let addr := int32 (((← get).proc p).sz % 2 ^ 32)
  if (← growproc b p n) < 0 then return -1 else return addr

def fork (p : Pp) : KernelM ℤ := do
  match ← allocproc b with
  | none => return -1
  | some np =>
    let s ← get
    let old ← deref (s.proc p).pagetable
    let new ← deref (s.proc np).pagetable
    if (← onMem (uvmcopy b old new (s.proc p).sz)) < 0 then
      freeproc b np
      return -1
    else
      setProc np fun pr => { pr with sz := (s.proc p).sz, parent := some p }
      let dst ← deref (s.proc np).trapframe
      let src ← deref (s.proc p).trapframe
      onMem (copyTrapframe dst src)
      onMem (setReg dst TF_A0 0)
      forM (List.finRange NOFILE) (dupOfile p np)
      let cwd ← deref (s.proc p).cwd
      let cwd ← onFs (idup cwd)
      setProc np fun pr => { pr with cwd := some cwd }
      setProc np fun pr => { pr with state := .runnable }
      return (s.proc np).pid.toInt
where
  /-- Increment the reference count of an open file, and give it to the child. -/
  dupOfile (p np : Pp) (i : Fin NOFILE) : KernelM PUnit := do
    match ((← get).proc p).ofile i with
    | none => return
    | some f =>
      let f ← filedup f
      setOfile np i (some f)

def reparent (p : Pp) : KernelM PUnit := modify fun s =>
  { s with proc := fun q => if (s.proc q).parent = some p then
    { s.proc q with parent := s.initproc } else s.proc q }

def exit (p : Pp) (status : ℤ) : KernelM PUnit := do
  if (← get).initproc = some p then throw (.panic .initExiting)
  else
    forM (List.finRange NOFILE) (closeOfile p)
    let cwd ← deref ((← get).proc p).cwd
    onFs beginOp
    onFs (iput sb cwd)
    onFs endOp
    setProc p fun pr => { pr with cwd := none }
    reparent p
    setProc p fun pr => { pr with xstate := status, state := .zombie }
where
  closeOfile (p : Pp) (fd : Fin NOFILE) : KernelM PUnit := do
    match ((← get).proc p).ofile fd with
    | none => return
    | some f =>
      fileclose b sb f
      setOfile p fd none

def wait (p : Pp) (addr : ℕ) : KernelM ℤ := do
  let s ← get
  match (List.finRange NPROC).find? fun np =>
      (s.proc np).parent = some p ∧ (s.proc np).state = .zombie with
  | some np =>
    if ← report np then
      let pid := (s.proc np).pid
      freeproc b np
      return pid.toInt
    else return -1
  | none =>
    if (∀ np, (s.proc np).parent ≠ some p) ∨ (s.proc p).killed then return -1
    else throw .asleep
where
  /-- Copy the exit status to the user, if asked to; whether that worked. -/
  report (np : Pp) : KernelM Bool := do
    if addr = 0 then return true
    else
      let r ← copyoutProc p addr (le 4 (((← get).proc np).xstate % 2 ^ 32).toNat)
      return 0 ≤ r

/-- Kill the process with the given pid: it will end when it next returns to user space. -/
def kill (pid : BitVec 32) : KernelM ℤ := do
  let s ← get
  match (List.finRange NPROC).find? fun p => (s.proc p).pid = pid with
  | none => return -1
  | some p =>
    setProc p fun pr =>
      { pr with
        killed := true
        state := if pr.state = .sleeping then .runnable else pr.state }
    return 0

end Xv6
