/-
# Files, pipes and the calls on them

`kernel/file.c`, `kernel/pipe.c` and the calls of `kernel/sysfile.c`.  `p` is
`myproc()`; a user pointer is an address.
-/

import Xv6.Kernel.State

namespace Xv6

open Lib

variable (b : Board) (sb : Superblock)

/-! ### `kernel/file.c` and `kernel/pipe.c` -/

def filealloc : KernelM (Option Fp) := do
  let s ← get
  match (List.finRange NFILE).find? fun f => (s.file f).ref = 0 with
  | none => return none
  | some f =>
    setFile f fun fl => { fl with ref := 1 }
    return some f

def filedup (f : Fp) : KernelM Fp := do
  if ((← get).file f).ref < 1 then throw (.panic .filedup)
  else
    setFile f fun fl => { fl with ref := fl.ref + 1 }
    return f

/-- Close one end; the second to close frees the page. -/
def pipeclose (pi : ℕ) (writable : Bool) : KernelM PUnit := do
  setPipe pi fun q => if writable then { q with writeopen := false } else
    { q with readopen := false }
  let q := (← get).pipe pi
  if q.readopen = false ∧ q.writeopen = false then onMem (kfree b pi)

/-- Close file `f`.  (Decrement ref count, close when reaches 0.) -/
def fileclose (f : Fp) : KernelM PUnit := do
  let ff := (← get).file f
  if ff.ref < 1 then throw (.panic .fileclose)
  else if 1 < ff.ref then setFile f fun fl => { fl with ref := fl.ref - 1 }
  else
    setFile f fun fl => { fl with ref := 0, type := .none }
    match ff.type with
    | .none => return
    | .pipe => pipeclose b ff.pipe ff.writable
    | .inode | .device =>
      onFs beginOp
      onFs (iput sb ff.ip)
      onFs endOp

def pipealloc : KernelM (Option (Fp × Fp)) := do
  match ← filealloc with
  | none => return none
  | some f0 =>
    match ← filealloc with
    | none =>
      fileclose b sb f0
      return none
    | some f1 =>
      match ← onMem kalloc with
      | none =>
        fileclose b sb f0
        fileclose b sb f1
        return none
      | some pi =>
        setPipe pi fun _ =>
          { data := fun _ => 5, nread := 0, nwrite := 0, readopen := true, writeopen := true }
        setFile f0 fun fl =>
          { fl with type := .pipe, readable := true, writable := false, pipe := pi }
        setFile f1 fun fl =>
          { fl with type := .pipe, readable := false, writable := true, pipe := pi }
        return some (f0, f1)

def pipewriteFrom (p : Pp) (pi addr : ℕ) : ℕ → ℕ → KernelM ℤ
  | 0, i => return i
  | k + 1, i => do
    let s ← get
    let q := s.pipe pi
    if q.nwrite = q.nread + UInt32.ofNat PIPESIZE then
      if q.readopen = false ∨ (s.proc p).killed then return -1 else throw .asleep
    else
      let pagetable ← deref (s.proc p).pagetable
      let ch := s.mem.copyin pagetable ((addr + i) % 2 ^ 64) 1
      if ch.2 then
        setPipe pi fun q =>
          { q with
            data := q.data.splice (q.nwrite.toNat % PIPESIZE) ch.1
            nwrite := q.nwrite + 1 }
        pipewriteFrom p pi addr k (i + 1)
      else return i

def pipewrite (p : Pp) (pi addr : ℕ) (n : ℤ) : KernelM ℤ := pipewriteFrom p pi addr n.toNat 0

/-- The major number of the console. -/
abbrev CONSOLE : ℕ := 1

/-- `consolewrite`: the bytes before the first that cannot be read go to the UART. -/
def consolewrite (p : Pp) (addr : ℕ) (n : ℤ) : KernelM ℤ := do
  let s ← get
  let pagetable ← deref (s.proc p).pagetable
  return ((List.range n.toNat).takeWhile fun i =>
    (s.mem.copyin pagetable ((addr + i) % 2 ^ 64) 1).2).length

theorem Mem.copyinFrom_length (m : Mem) (pagetable : ℕ) (fuel srcva len : ℕ)
    (h : len ≤ fuel) : (m.copyinFrom pagetable fuel srcva len).1.length ≤ len ∧
    ((m.copyinFrom pagetable fuel srcva len).2 = true →
      (m.copyinFrom pagetable fuel srcva len).1.length = len) := by
  induction fuel generalizing srcva len with
  | zero =>
    obtain rfl : len = 0 := Nat.le_zero.1 h
    simp [Mem.copyinFrom]
  | succ fuel ih =>
    rw [Mem.copyinFrom]
    split_ifs with h₀
    · simp [h₀]
    cases m.walkaddr pagetable (pgrounddown srcva) with
    | none => simp
    | some pa =>
      have hpos : 0 < PGSIZE - srcva % PGSIZE := Nat.sub_pos_of_lt (Nat.mod_lt _ (by decide))
      have hrec :=
        ih (pgrounddown srcva + PGSIZE) (len - min len (PGSIZE - srcva % PGSIZE)) (by omega)
      simp only [List.length_append, Bytes.length_read]
      exact ⟨by omega, fun hok => by have := hrec.2 hok; omega⟩

def userSrc (m : Mem) (pagetable addr : ℕ) : Source where
  copyin tot n := m.copyin pagetable ((addr + tot) % 2 ^ 64) n
  length_le _ n := (m.copyinFrom_length pagetable n _ n le_rfl).1
  length_ok _ n := (m.copyinFrom_length pagetable n _ n le_rfl).2

/-- How much of a write goes into one transaction. -/
abbrev WRITEMAX : ℕ := (MAXOPBLOCKS - 1 - 1 - 2) / 2 * BSIZE

/-- The loop of `filewrite` on an inode; returns the final `i`.  Every round but the last
writes a byte or more, so `n` rounds are enough. -/
def filewriteFrom (p : Pp) (f : Fp) (addr n : ℕ) : ℕ → ℕ → KernelM ℕ
  | 0, i => return i
  | fuel + 1, i => do
    if i < n then
      let s ← get
      let n1 := min (n - i) WRITEMAX
      let pagetable ← deref (s.proc p).pagetable
      let ip := (s.file f).ip
      onFs beginOp
      onFs (ilock sb ip)
      let r ← onFs (writei sb ip (userSrc s.mem pagetable ((addr + i) % 2 ^ 64)) (s.file f).off
        (UInt32.ofNat n1))
      setFile f fun fl => if 0 < r then { fl with off := fl.off + UInt32.ofNat r.toNat } else fl
      onFs (iunlock ip)
      onFs endOp
      if r < 0 then return i
      else if r ≠ n1 then throw (.panic .shortFilewrite)
      else filewriteFrom p f addr n fuel (i + n1)
    else return i

def filewrite (p : Pp) (f : Fp) (addr : ℕ) (n : ℤ) : KernelM ℤ := do
  let fl := (← get).file f
  if fl.writable = false then return -1
  else
    match fl.type with
    | .pipe => pipewrite p fl.pipe addr n
    | .device => if fl.major.toNat = CONSOLE then consolewrite p addr n else return -1
    | .inode =>
      let i ← filewriteFrom sb p f addr n.toNat n.toNat 0
      return if (i : ℤ) = n then n else -1
    | .none => throw (.panic .filewrite)

def pipereadFrom (p : Pp) (pi addr : ℕ) : ℕ → ℕ → KernelM ℤ
  | 0, i => return i
  | k + 1, i => do
    let q := (← get).pipe pi
    if q.nread = q.nwrite then return i
    else
      setPipe pi fun q => { q with nread := q.nread + 1 }
      let ch := q.data.get (q.nread.toNat % PIPESIZE)
      if (← copyoutProc p ((addr + i) % 2 ^ 64) [ch]) = -1 then return i
      else pipereadFrom p pi addr k (i + 1)

def piperead (p : Pp) (pi addr : ℕ) (n : ℤ) : KernelM ℤ := do
  let s ← get
  let q := s.pipe pi
  if q.nread = q.nwrite ∧ q.writeopen = true then
    if (s.proc p).killed then return -1 else throw .asleep
  else pipereadFrom p pi addr n.toNat 0

/-- The bytes that end a read from the console: `^D`, and a line feed. -/
def ctrlD : UInt8 := 4
def lineFeed : UInt8 := 10

/-- `consoleread`, where `input` is what is typed from the start of the call on; after `i`
bytes of it there are `k` to go.  What is left in `cons.buf` is the business of the console. -/
def consolereadFrom (p : Pp) (addr : ℕ) : List UInt8 → ℕ → ℕ → KernelM ℤ
  | _, 0, i => return i
  | [], _ + 1, _ => do if ((← get).proc p).killed then return -1 else throw .asleep
  | c :: input, k + 1, i => do
    if c = ctrlD then return i
    else if (← copyoutProc p ((addr + i) % 2 ^ 64) [c]) = -1 then return i
    else if c = lineFeed then return i + 1
    else consolereadFrom p addr input k (i + 1)

/-- The user memory at `addr` as a destination: does the copy of a piece succeed?  A copy
does not change the page table, so that all pieces can be tried in the same memory. -/
def userDst (m : Mem) (pagetable addr : ℕ) : ℕ → List UInt8 → Bool := fun tot piece =>
  match (copyout pagetable ((addr + tot) % 2 ^ 64) piece).run m with
  | .ok (r, _) => r = 0
  | .error _ => false

/-- Read from file `f`.  For an inode, `readi` copies piece by piece to the user, up to the
first byte that cannot be written. -/
def fileread (p : Pp) (f : Fp) (addr : ℕ) (n : ℤ) (input : List UInt8) : KernelM ℤ := do
  let s ← get
  let fl := s.file f
  if fl.readable = false then return -1
  else
    match fl.type with
    | .pipe => piperead p fl.pipe addr n
    | .device =>
    if fl.major.toNat = CONSOLE then consolereadFrom p addr input n.toNat 0 else return -1
    | .inode =>
      let len := UInt32.ofNat (n % 2 ^ 32).toNat
      let pagetable ← deref (s.proc p).pagetable
      onFs (ilock sb fl.ip)
      let data ← onFs (readi sb fl.ip (userDst s.mem pagetable addr) fl.off len)
      let bytes ← onFs (readi sb fl.ip kernelDst fl.off len)
      let _ ← copyoutProc p addr bytes
      setFile f fun fl => { fl with off := fl.off + UInt32.ofNat data.length }
      onFs (iunlock fl.ip)
      return data.length
    | .none => throw (.panic .fileread)

/-- `struct stat` of an inode, with the padding before `size`. -/
def stati (i : Inode) : List UInt8 :=
  le 4 i.dev ++ le 4 i.inum ++ le 2 i.type.toNat ++ le 2 i.nlink.toNat ++ List.replicate 4 0 ++
    le 8 i.size.toNat

def filestat (p : Pp) (f : Fp) (addr : ℕ) : KernelM ℤ := do
  let fl := (← get).file f
  if fl.type = .inode ∨ fl.type = .device then
    onFs (ilock sb fl.ip)
    let st := stati ((← get).fs.inode fl.ip)
    onFs (iunlock fl.ip)
    if (← copyoutProc p addr st) < 0 then return -1 else return 0
  else return -1

/-! ### `kernel/sysfile.c` -/

def fdalloc (p : Pp) (f : Fp) : KernelM (Option (Fin NOFILE)) := do
  let pr := (← get).proc p
  match (List.finRange NOFILE).find? fun fd => pr.ofile fd = none with
  | none => return none
  | some fd =>
    setOfile p fd (some f)
    return some fd

def sysDup (p : Pp) (fd : ℤ) : KernelM ℤ := do
  match ← argfd p fd with
  | none => return -1
  | some (_, f) =>
    match ← fdalloc p f with
    | none => return -1
    | some fd =>
      let _ ← filedup f
      return fd.val

def sysRead (p : Pp) (fd : ℤ) (addr : ℕ) (n : ℤ) (input : List UInt8) : KernelM ℤ := do
  match ← argfd p fd with
  | none => return -1
  | some (_, f) => fileread sb p f addr n input

def sysFstat (p : Pp) (fd : ℤ) (addr : ℕ) : KernelM ℤ := do
  match ← argfd p fd with
  | none => return -1
  | some (_, f) => filestat sb p f addr

def sysWrite (p : Pp) (fd : ℤ) (addr : ℕ) (n : ℤ) : KernelM ℤ := do
  match ← argfd p fd with
  | none => return -1
  | some (_, f) => filewrite sb p f addr n

def sysClose (p : Pp) (fd : ℤ) : KernelM ℤ := do
  match ← argfd p fd with
  | none => return -1
  | some (fd, f) =>
    setOfile p fd none
    fileclose b sb f
    return 0

def sysLink (p : Pp) (old new : ℕ) : KernelM ℤ := do
  match ← argstr p old with
  | none => return -1
  | some old =>
    match ← argstr p new with
    | none => return -1
    | some new =>
      let cwd ← deref ((← get).proc p).cwd
      onFs (link sb cwd old new)

def sysUnlink (p : Pp) (path : ℕ) : KernelM ℤ := do
  match ← argstr p path with
  | none => return -1
  | some path =>
    let cwd ← deref ((← get).proc p).cwd
    onFs (unlink sb cwd path)

def sysMkdir (p : Pp) (path : ℕ) : KernelM ℤ := do
  let path ← argstr p path
  let cwd ← deref ((← get).proc p).cwd
  onFs (mkdir sb cwd path)

def sysMknod (p : Pp) (path : ℕ) (major minor : UInt16) : KernelM ℤ := do
  let path ← argstr p path
  let cwd ← deref ((← get).proc p).cwd
  onFs (mknod sb cwd path major minor)

def O_RDONLY : UInt32 := 0x000
def O_WRONLY : UInt32 := 0x001
def O_RDWR : UInt32 := 0x002
def O_CREATE : UInt32 := 0x200
def O_TRUNC : UInt32 := 0x400

def openedFile (i : Inode) (ip : Ip) (omode : UInt32) (fl : File) : File :=
  let fl := if i.type = T_DEVICE then { fl with type := .device, major := i.major }
    else { fl with type := .inode, off := 0 }
  { fl with
    ip := ip
    readable := omode &&& O_WRONLY = 0
    writable := omode &&& O_WRONLY ≠ 0 ∨ omode &&& O_RDWR ≠ 0 }

def sysOpen (p : Pp) (path : ℕ) (omode : UInt32) : KernelM ℤ := do
  match ← argstr p path with
  | none => return -1
  | some path =>
    let cwd ← deref ((← get).proc p).cwd
    match ← onFs (openInode cwd path omode) with
    | none => return -1
    | some ip =>
      let i := (← get).fs.inode ip
      if i.type = T_DEVICE ∧ NDEV ≤ i.major.toNat then fail ip
      else
        match ← filealloc with
        | none => fail ip
        | some f =>
          match ← fdalloc p f with
          | none =>
            fileclose b sb f
            fail ip
          | some fd =>
            setFile f (openedFile i ip omode)
            onFs (finish ip omode)
            return fd.val
where
  /-- Find or create the inode, and lock it. -/
  openInode (cwd : Ip) (path : List UInt8) (omode : UInt32) : FsM (Option Ip) := do
    beginOp
    if omode &&& O_CREATE ≠ 0 then
      match ← create sb cwd path T_FILE 0 0 with
      | none =>
        endOp
        return none
      | some ip => return some ip
    else
      match ← namei sb cwd path with
      | none =>
        endOp
        return none
      | some ip =>
        ilock sb ip
        if ((← get).inode ip).type = T_DIR ∧ omode ≠ O_RDONLY then
          iunlockput sb ip
          endOp
          return none
        else return some ip
  fail (ip : Ip) : KernelM ℤ := do
    onFs (iunlockput sb ip)
    onFs endOp
    return -1
  finish (ip : Ip) (omode : UInt32) : FsM PUnit := do
    if omode &&& O_TRUNC ≠ 0 ∧ ((← get).inode ip).type = T_FILE then
      itrunc sb ip
      iunlock ip
      endOp
    else
      iunlock ip
      endOp

def sysChdir (p : Pp) (path : ℕ) : KernelM ℤ := do
  let path ← argstr p path
  let cwd ← deref ((← get).proc p).cwd
  match ← onFs (enter cwd path) with
  | none => return -1
  | some ip =>
    setProc p fun pr => { pr with cwd := some ip }
    return 0
where
  /-- Take the new directory, and drop the old one. -/
  enter (cwd : Ip) (path : Option (List UInt8)) : FsM (Option Ip) := do
    beginOp
    match path with
    | none =>
      endOp
      return none
    | some path =>
      match ← namei sb cwd path with
      | none =>
        endOp
        return none
      | some ip =>
        ilock sb ip
        if ((← get).inode ip).type ≠ T_DIR then
          iunlockput sb ip
          endOp
          return none
        else
          iunlock ip
          iput sb cwd
          endOp
          return some ip

def sysPipe (p : Pp) (fdarray : ℕ) : KernelM ℤ := do
  match ← pipealloc b sb with
  | none => return -1
  | some (rf, wf) =>
    match ← fdalloc p rf with
    | none => close rf wf
    | some fd0 =>
      match ← fdalloc p wf with
      | none =>
        setOfile p fd0 none
        close rf wf
      | some fd1 =>
        if ← report fd0 fd1 then return 0
        else
          setOfile p fd0 none
          setOfile p fd1 none
          close rf wf
where
  close (rf wf : Fp) : KernelM ℤ := do
    fileclose b sb rf
    fileclose b sb wf
    return -1
  /-- Tell the user the descriptors; whether that worked. -/
  report (fd0 fd1 : Fin NOFILE) : KernelM Bool := do
    if (← copyoutProc p fdarray (le 4 fd0)) < 0 then return false
    else if (← copyoutProc p ((fdarray + 4) % 2 ^ 64) (le 4 fd1)) < 0 then return false
    else return true

end Xv6
