/-
# The state of the kernel

`kernel/file.h`, `kernel/proc.h` and the tables of `kernel/file.c`, `kernel/pipe.c` and
`kernel/proc.c`.  A pointer into a table is its index, a pointer to a page its number, and a null
pointer `none`.  Calls run one after the other, so there are no spin locks, and a call that has to
sleep does not complete.  `p->name`, `p->chan`, `p->context` and `p->kstack` are read by no call.
-/

import Xv6.Fs.Dir
import Xv6.Vm.Table

namespace Xv6

open Lib Function

inductive FdType
  | none | pipe | inode | device
deriving DecidableEq, Repr

/-- `struct file`. -/
structure File where
  type : FdType
  ref : ℕ
  readable : Bool
  writable : Bool
  /-- The page of the pipe, for `FD_PIPE`. -/
  pipe : ℕ
  /-- For `FD_INODE` and `FD_DEVICE`. -/
  ip : Ip
  /-- For `FD_INODE`. -/
  off : UInt32
  /-- For `FD_DEVICE`. -/
  major : UInt16

/-- Bytes of a pipe's buffer. -/
abbrev PIPESIZE : ℕ := 512

/-- `struct pipe`. -/
structure Pipe where
  data : Bytes PIPESIZE
  nread : UInt32
  nwrite : UInt32
  readopen : Bool
  writeopen : Bool

/-- `enum procstate`. -/
inductive ProcState
  | unused | sleeping | runnable | running | zombie
deriving DecidableEq, Repr

/-- A pointer into `ftable.file`. -/
abbrev Fp : Type := Fin NFILE

/-- A pointer into `proc`. -/
abbrev Pp : Type := Fin NPROC

/-- The address space of a process. -/
structure Image where
  sz : ℕ
  pagetable : Option ℕ
  /-- Data page for `trampoline.S`. -/
  trapframe : Option ℕ

/-- `struct proc`. -/
structure Proc extends Image where
  state : ProcState
  parent : Option Pp
  killed : Bool
  xstate : ℤ
  pid : BitVec 32
  ofile : Fin NOFILE → Option Fp
  cwd : Option Ip

/-- What the system calls share. -/
structure Kernel where
  fs : Fs
  mem : Mem
  pipe : ℕ → Pipe
  file : Fp → File
  proc : Pp → Proc
  nextpid : BitVec 32
  initproc : Option Pp

abbrev KernelM : Type → Type := Prog Kernel Halt

variable {α : Type}

def onFs (x : FsM α) : KernelM α := zoom Kernel.fs (fun s fs => { s with fs := fs }) x

def onMem (x : MemM α) : KernelM α := zoom Kernel.mem (fun s mem => { s with mem := mem }) x

def setFile (f : Fp) (g : File → File) : KernelM PUnit := modify fun s =>
  { s with file := update s.file f (g (s.file f)) }

def setProc (p : Pp) (g : Proc → Proc) : KernelM PUnit := modify fun s =>
  { s with proc := update s.proc p (g (s.proc p)) }

def setPipe (pi : ℕ) (g : Pipe → Pipe) : KernelM PUnit := modify fun s =>
  { s with pipe := update s.pipe pi (g (s.pipe pi)) }

def setOfile (p : Pp) (fd : Fin NOFILE) (f : Option Fp) : KernelM PUnit :=
  setProc p fun pr => { pr with ofile := update pr.ofile fd f }

def deref (x : Option α) : KernelM α :=
  match x with
  | none => throw .fault
  | some a => return a

/-! ### Arguments of system calls -/

def argfd (p : Pp) (fd : ℤ) : KernelM (Option (Fin NOFILE × Fp)) := do
  if h : 0 ≤ fd ∧ fd.toNat < NOFILE then
    let i : Fin NOFILE := ⟨fd.toNat, h.2⟩
    return (((← get).proc p).ofile i).map fun f => (i, f)
  else return none

def argstr (p : Pp) (addr : ℕ) : KernelM (Option (List UInt8)) := do
  let s ← get
  let pagetable ← deref (s.proc p).pagetable
  return s.mem.copyinstr pagetable addr MAXPATH

def copyoutProc (p : Pp) (dst : ℕ) (src : List UInt8) : KernelM ℤ := do
  let pagetable ← deref ((← get).proc p).pagetable
  onMem (copyout pagetable dst src)

end Xv6
