/-
# Running a program

`kernel/exec.c` and `sys_exec`.  The headers of the ELF file are the bytes read from it,
with the fields at the offsets that `kernel/elf.h` gives.
-/

import Xv6.Kernel.Proc

namespace Xv6

open Lib

variable (b : Board) (sb : Superblock)

/-! ### The ELF file -/

abbrev ELFHDRSIZE : ℕ := 64

abbrev PROGHDRSIZE : ℕ := 56

abbrev ELF_MAGIC : ℕ := 0x464C457F

abbrev ELF_PROG_LOAD : ℕ := 1

def headerField (l : List UInt8) (o w : ℕ) : ℕ := ofLE ((l.drop o).take w)

/-- `struct elfhdr`, the fields that `exec` reads. -/
structure Elfhdr where
  magic : ℕ
  entry : ℕ
  phoff : ℕ
  phnum : ℕ

def Elfhdr.parse (l : List UInt8) : Elfhdr :=
  ⟨headerField l 0 4, headerField l 24 8, headerField l 32 8, headerField l 56 2⟩

/-- `struct proghdr`, the fields that `exec` reads. -/
structure Proghdr where
  type : ℕ
  off : ℕ
  vaddr : ℕ
  filesz : ℕ
  memsz : ℕ

def Proghdr.parse (l : List UInt8) : Proghdr :=
  ⟨headerField l 0 4, headerField l 8 8, headerField l 16 8, headerField l 32 8, headerField l 40 8⟩

/-- The loop of `loadseg` from byte `i` on, with `n` pages to go; whether it read the
whole segment. -/
def loadsegFrom (pagetable va : ℕ) (ip : Ip) (offset sz : ℕ) : ℕ → ℕ → KernelM Bool
  | 0, _ => return true
  | n + 1, i => do
    match (← get).mem.walkaddr pagetable (va + i) with
    | none => throw (.panic .loadsegExist)
    | some pa =>
      let k := min (sz - i) PGSIZE
      let data ← onFs (readi sb ip kernelDst (UInt32.ofNat (offset + i)) (UInt32.ofNat k))
      onMem (modify fun m => m.setPage pa ((m.page pa).splice 0 data))
      if data.length = k then loadsegFrom pagetable va ip offset sz n (i + PGSIZE)
      else return false

/-- Load a program segment into `pagetable` at virtual address `va`.  `offset` and `sz` are
`uint`s. -/
def loadseg (pagetable va : ℕ) (ip : Ip) (offset sz : ℕ) : KernelM Bool := do
  if va % PGSIZE ≠ 0 then throw (.panic .loadsegAlign)
  else loadsegFrom sb pagetable va ip offset sz ((sz + PGSIZE - 1) / PGSIZE) 0

/-- The loop of `exec` over the program headers, with `n` to go from `off` on: the size so
far, and whether all went well. -/
def loadSegments (pagetable : ℕ) (ip : Ip) : ℕ → ℕ → ℕ → KernelM (ℕ × Bool)
  | 0, _, sz => return (sz, true)
  | n + 1, off, sz => do
    let data ← onFs (readi sb ip kernelDst (UInt32.ofNat off) (UInt32.ofNat PROGHDRSIZE))
    let ph := Proghdr.parse data
    if data.length ≠ PROGHDRSIZE then return (sz, false)
    else if ph.type ≠ ELF_PROG_LOAD then loadSegments pagetable ip n (off + PROGHDRSIZE) sz
    else if ph.memsz < ph.filesz then return (sz, false)
    else if (ph.vaddr + ph.memsz) % 2 ^ 64 < ph.vaddr then return (sz, false)
    else
      let sz1 ← onMem (uvmalloc b pagetable sz ((ph.vaddr + ph.memsz) % 2 ^ 64))
      if sz1 = 0 then return (sz, false)
      else if ph.vaddr % PGSIZE ≠ 0 then return (sz1, false)
      else if ← loadseg sb pagetable ph.vaddr ip (ph.off % 2 ^ 32) (ph.filesz % 2 ^ 32) then
        loadSegments pagetable ip n (off + PROGHDRSIZE) sz1
      else return (sz1, false)

/-! ### The stack -/

def Mem.str (m : Mem) (pa : ℕ) : List UInt8 := ((m.page pa).read 0 PGSIZE).takeWhile (· ≠ 0)

/-- `sp -= n; sp -= sp % 16`, on 64 bits. -/
def pushDown (sp n : ℕ) : ℕ :=
  let sp := (sp + 2 ^ 64 - n) % 2 ^ 64
  sp - sp % 16

/-- Push the argument strings: the stack pointer, and the addresses of the strings
before it. -/
def pushStrings (pagetable stackbase : ℕ) : List ℕ → ℕ → List ℕ → KernelM (Option (ℕ × List ℕ))
  | [], sp, ustack => return some (sp, ustack)
  | arg :: argv, sp, ustack => do
    let s := (← get).mem.str arg
    if MAXARG ≤ ustack.length then return none
    else
      let sp := pushDown sp (s.length + 1)
      if sp < stackbase then return none
      else if (← onMem (copyout pagetable sp (s ++ [0]))) < 0 then return none
      else pushStrings pagetable stackbase argv sp (ustack ++ [sp])

/-- Push the strings and the array of pointers to them: the stack pointer. -/
def pushArgs (pagetable stackbase : ℕ) (argv : List ℕ) (sp : ℕ) : KernelM (Option ℕ) := do
  match ← pushStrings pagetable stackbase argv sp [] with
  | none => return none
  | some (sp, ustack) =>
    let sp := pushDown sp ((ustack.length + 1) * 8)
    if sp < stackbase then return none
    else if (← onMem (copyout pagetable sp ((ustack ++ [0]).flatMap (le 8)))) < 0 then return none
    else return some sp

/-! ### `exec` -/

def exec (p : Pp) (path : List UInt8) (argv : List ℕ) : KernelM ℤ := do
  let cwd ← deref ((← get).proc p).cwd
  match ← onFs (openProgram cwd path) with
  | none => return -1
  | some ip =>
    let data ← onFs (readi sb ip kernelDst 0 (UInt32.ofNat ELFHDRSIZE))
    let elf := Elfhdr.parse data
    if data.length ≠ ELFHDRSIZE ∨ elf.magic ≠ ELF_MAGIC then
      onFs (closeProgram ip)
      return -1
    else
      let trapframe ← deref ((← get).proc p).trapframe
      match ← onMem (procPagetable b trapframe) with
      | none =>
        onFs (closeProgram ip)
        return -1
      | some pagetable =>
        let (sz, ok) ← loadSegments b sb pagetable ip elf.phnum (elf.phoff % 2 ^ 32) 0
        if ok then
          onFs (closeProgram ip)
          stack pagetable sz elf.entry
        else
          onMem (procFreepagetable b pagetable sz)
          onFs (closeProgram ip)
          return -1
where
  openProgram (cwd : Ip) (path : List UInt8) : FsM (Option Ip) := do
    beginOp
    match ← namei sb cwd path with
    | none =>
      endOp
      return none
    | some ip =>
      ilock sb ip
      return some ip
  closeProgram (ip : Ip) : FsM PUnit := do
    iunlockput sb ip
    endOp
  /-- Allocate the stack, push the arguments, and commit to the user image. -/
  stack (pagetable sz entry : ℕ) : KernelM ℤ := do
    let sz := pgroundup sz
    let sz1 ← onMem (uvmalloc b pagetable sz (sz + 2 * PGSIZE))
    if sz1 = 0 then bad pagetable sz
    else
      onMem (uvmclear pagetable (sz1 - 2 * PGSIZE))
      match ← pushArgs pagetable (sz1 - PGSIZE) argv sz1 with
      | none => bad pagetable sz1
      | some sp =>
        commit pagetable sz1 entry sp
        return argv.length
  bad (pagetable sz : ℕ) : KernelM ℤ := do
    onMem (procFreepagetable b pagetable sz)
    return -1
  commit (pagetable sz entry sp : ℕ) : KernelM PUnit := do
    let pr := (← get).proc p
    let trapframe ← deref pr.trapframe
    let oldpagetable ← deref pr.pagetable
    onMem (setReg trapframe TF_A1 sp)
    setProc p fun pr => { pr with pagetable := some pagetable, sz := sz }
    onMem (setReg trapframe TF_EPC entry)
    onMem (setReg trapframe TF_SP sp)
    onMem (procFreepagetable b oldpagetable pr.sz)

/-- `fetchaddr`: the `uint64` at a user address. -/
def fetchaddr (p : Pp) (addr : ℕ) : KernelM (Option ℕ) := do
  let s ← get
  let pr := s.proc p
  if pr.sz ≤ addr ∨ pr.sz < (addr + 8) % 2 ^ 64 then return none
  else
    let pagetable ← deref pr.pagetable
    let r := s.mem.copyin pagetable addr 8
    return if r.2 then some (ofLE r.1) else none

/-- The loop of `sys_exec` that fetches the arguments, with `n` places of `argv` to go: the
pages that hold them, and whether all could be fetched. -/
def fetchArgs (p : Pp) (uargv : ℕ) : ℕ → List ℕ → KernelM (List ℕ × Bool)
  | 0, argv => return (argv, false)
  | n + 1, argv => do
    match ← fetchaddr p ((uargv + 8 * argv.length) % 2 ^ 64) with
    | none => return (argv, false)
    | some 0 => return (argv, true)
    | some uarg =>
      match ← onMem kalloc with
      | none => return (argv, false)
      | some page =>
        let s ← get
        let pagetable ← deref (s.proc p).pagetable
        match s.mem.copyinstr pagetable uarg PGSIZE with
        | none => return (argv ++ [page], false)
        | some str =>
          onMem (modify fun m => m.setPage page ((m.page page).splice 0 (str ++ [0])))
          fetchArgs p uargv n (argv ++ [page])

def sysExec (p : Pp) (path uargv : ℕ) : KernelM ℤ := do
  match ← argstr p path with
  | none => return -1
  | some path =>
    let (argv, ok) ← fetchArgs p uargv MAXARG []
    let ret ← if ok then exec b sb p path argv else pure (-1)
    forM argv fun page => onMem (kfree b page)
    return ret

end Xv6
