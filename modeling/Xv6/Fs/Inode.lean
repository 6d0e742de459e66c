/-
# Blocks and inodes

`kernel/fs.c` up to `writei`, over the blocks as `bread` returns them, the inode cache, and the
log's count and list.  A pointer to an inode is its index in `icache.inode`; a buffer is changed
together with the `log_write` that follows.  User memory is not seen here: `writei` takes a
`Source`, `readi` the test whether a copy succeeds.
-/

import Xv6.Fs.Layout
import Xv6.Halt
import Xv6.Lib.Wp

namespace Xv6

open Lib Function

/-- `struct inode`, an entry of `icache`. -/
structure Inode extends Dinode where
  dev : ℕ
  inum : ℕ
  ref : ℕ
  locked : Bool
  valid : Bool

/-- An inode pointer: an index in `icache.inode`. -/
abbrev Ip : Type := Fin NINODE

def firstIp : Ip := ⟨0, NINODE_pos⟩

/-- The disk, the log and the inode cache. -/
structure Fs where
  /-- What `bread` returns for each block. -/
  blocks : Disk
  inode : Ip → Inode
  outstanding : ℕ
  /-- `log.lh.block[0..log.lh.n)`. -/
  lh : List ℕ

/-- One inode of the cache changed. -/
def Fs.setInode (s : Fs) (ip : Ip) (f : Inode → Inode) : Fs :=
  { s with inode := update s.inode ip (f (s.inode ip)) }

/-- One buffer changed and entered in the log, where an entry for its block absorbs
it. -/
def Fs.logWrite (s : Fs) (b : ℕ) (data : Block) : Fs :=
  { s with
    blocks := update s.blocks b data
    lh := if b ∈ s.lh then s.lh else s.lh ++ [b] }

section

variable (s : Fs) (ip : Ip) (f g : Inode → Inode) (b : ℕ) (data : Block)

@[simp] theorem Fs.blocks_setInode : (s.setInode ip f).blocks = s.blocks := rfl

@[simp] theorem Fs.inode_setInode_self : (s.setInode ip f).inode ip = f (s.inode ip) :=
  update_self ..

@[simp] theorem Fs.inode_logWrite : (s.logWrite b data).inode = s.inode := rfl

theorem Fs.setInode_setInode :
    (s.setInode ip f).setInode ip g = s.setInode ip fun i => g (f i) := by
  simp [Fs.setInode]

theorem Fs.logWrite_setInode :
    (s.setInode ip f).logWrite b data = (s.logWrite b data).setInode ip f := rfl

end

abbrev FsM : Type → Type := Prog Fs Halt

variable (sb : Superblock)

def setInode (ip : Ip) (f : Inode → Inode) : FsM PUnit := modify fun s => s.setInode ip f

def bread (b : ℕ) : FsM Block := do return (← get).blocks b

/-! ### The log, as its callers see it -/

/-- Called at the start of each system call that writes.  Calls here run one at a
time, so no commit is going on; without room for one more operation the caller
sleeps. -/
def beginOp : FsM PUnit := do
  let s ← get
  if s.lh.length + (s.outstanding + 1) * MAXOPBLOCKS > LOGSIZE then throw .asleep
  else set { s with outstanding := s.outstanding + 1 }

/-- The last outstanding operation commits and empties the log. -/
def endOp : FsM PUnit := modify fun s =>
  { s with outstanding := s.outstanding - 1, lh := if s.outstanding - 1 = 0 then [] else s.lh }

/-- Put `data` into the buffer of block `b` and `log_write` it.  The size checks come
before absorption, so they fail on an absorbed block too. -/
def logWrite (b : ℕ) (data : Block) : FsM PUnit := do
  let s ← get
  if LOGSIZE ≤ s.lh.length ∨ sb.nlog ≤ s.lh.length + 1 then throw (.panic .logTooBig)
  else if s.outstanding < 1 then throw (.panic .logOutside)
  else set (s.logWrite b data)

/-- Change the buffer of block `b` without `log_write`. -/
def scribble (b : ℕ) (data : Block) : FsM PUnit :=
  modify fun s => { s with blocks := update s.blocks b data }

/-! ### Blocks -/

def zeroBlock : Block := fun _ => 0

def bzero (b : ℕ) : FsM PUnit := logWrite sb b zeroBlock

/-- The inner loop of `balloc`: the first clear bit among those of blocks
`b, b+1, …` that are in this block of the free map and on the disk. -/
def findFree (bp : Block) (b : ℕ) : Option ℕ :=
  (List.range (min BPB (sb.size - b))).find? fun bi => !bitSet bp bi

def ballocFrom : List ℕ → FsM UInt32
  | [] => throw (.panic .ballocOutOfBlocks)
  | b :: bs => do
    let bp ← bread (sb.BBLOCK b)
    match findFree sb bp b with
    | some bi =>
      logWrite sb (sb.BBLOCK b) (setBit bp bi)
      bzero sb (b + bi)
      return UInt32.ofNat (b + bi)
    | none => ballocFrom bs

def balloc : FsM UInt32 := ballocFrom sb ((List.range ((sb.size + BPB - 1) / BPB)).map (· * BPB))

def bfree (b : UInt32) : FsM PUnit := do
  let bp ← bread (sb.BBLOCK b.toNat)
  if bitSet bp (b.toNat % BPB) = false then throw (.panic .bfreeFree)
  else logWrite sb (sb.BBLOCK b.toNat) (clearBit bp (b.toNat % BPB))

/-! ### Inodes -/

def iupdate (ip : Ip) : FsM PUnit := do
  let i := (← get).inode ip
  let bp ← bread (sb.IBLOCK i.inum)
  logWrite sb (sb.IBLOCK i.inum) (putDinode bp (i.inum % IPB) i.toDinode)

/-- Find the inode in the cache, or recycle the first free entry for it. -/
def iget (dev inum : ℕ) : FsM Ip := do
  let s ← get
  match (List.finRange NINODE).find? fun ip =>
      0 < (s.inode ip).ref ∧ (s.inode ip).dev = dev ∧ (s.inode ip).inum = inum with
  | some ip =>
    setInode ip fun i => { i with ref := i.ref + 1 }
    return ip
  | none =>
    match (List.finRange NINODE).find? fun ip => (s.inode ip).ref = 0 with
    | none => throw (.panic .igetNoInodes)
    | some ip =>
      setInode ip fun i => { i with dev := dev, inum := inum, ref := 1, valid := false }
      return ip

def iallocFrom (dev : ℕ) (type : UInt16) : List ℕ → FsM Ip
  | [] => throw (.panic .iallocNoInodes)
  | inum :: inums => do
    let bp ← bread (sb.IBLOCK inum)
    if (getDinode bp (inum % IPB)).type = 0 then
      logWrite sb (sb.IBLOCK inum) (putDinode bp (inum % IPB) (Dinode.fresh type))
      iget dev inum
    else iallocFrom dev type inums

def ialloc (dev : ℕ) (type : UInt16) : FsM Ip :=
  iallocFrom sb dev type (List.range' 1 (sb.ninodes - 1))

def idup (ip : Ip) : FsM Ip := do
  setInode ip fun i => { i with ref := i.ref + 1 }
  return ip

def acquiresleep (ip : Ip) : FsM PUnit := do
  if ((← get).inode ip).locked then throw .asleep
  else setInode ip fun i => { i with locked := true }

def ilock (ip : Ip) : FsM PUnit := do
  if ((← get).inode ip).ref < 1 then throw (.panic .ilock)
  else
    acquiresleep ip
    let i := (← get).inode ip
    if i.valid then return
    else
      let bp ← bread (sb.IBLOCK i.inum)
      let d := getDinode bp (i.inum % IPB)
      setInode ip fun i => { i with toDinode := d, valid := true }
      if d.type = 0 then throw (.panic .ilockNoType) else return

def iunlock (ip : Ip) : FsM PUnit := do
  let i := (← get).inode ip
  if i.locked = false ∨ i.ref < 1 then throw (.panic .iunlock)
  else setInode ip fun i => { i with locked := false }

/-! ### Inode content -/

def setAddr (ip : Ip) (k : Fin (NDIRECT + 1)) (a : UInt32) : FsM PUnit :=
  setInode ip fun i => { i with toDinode := i.toDinode.setAddr k a }

def bmapAddr (ip : Ip) (k : Fin (NDIRECT + 1)) : FsM UInt32 := do
  let addr := ((← get).inode ip).addrs k
  if addr = 0 then
    let addr ← balloc sb
    setAddr ip k addr
    return addr
  else return addr

/-- `addr = a[j]` in the indirect block, allocating the block if there is none. -/
def bmapEntry (ind : UInt32) (j : ℕ) : FsM UInt32 := do
  let addr := UInt32.ofNat (u32 (← bread ind.toNat) (4 * j))
  if addr = 0 then
    let addr ← balloc sb
    let bp ← bread ind.toNat
    logWrite sb ind.toNat (bp.setField 4 (4 * j) addr.toNat)
    return addr
  else return addr

/-- The disk block address of the `bn`-th block of the inode, allocating it if there
is none. -/
def bmap (ip : Ip) (bn : ℕ) : FsM UInt32 := do
  if h : bn < NDIRECT then bmapAddr sb ip ⟨bn, Nat.lt_succ_of_lt h⟩
  else if bn - NDIRECT < NINDIRECT then
    let ind ← bmapAddr sb ip (Fin.last NDIRECT)
    bmapEntry sb ind (bn - NDIRECT)
  else throw (.panic .bmapOutOfRange)

def truncDirect (ip : Ip) (i : Fin NDIRECT) : FsM PUnit := do
  let addr := ((← get).inode ip).addrs i.castSucc
  if addr ≠ 0 then
    bfree sb addr
    setAddr ip i.castSucc 0

/-- The part of `itrunc` for the indirect block and its entries. -/
def truncIndirect (ip : Ip) : FsM PUnit := do
  let ind := ((← get).inode ip).addrs (Fin.last NDIRECT)
  if ind ≠ 0 then
    let bp ← bread ind.toNat
    forM (List.range NINDIRECT) fun j => do
      let a := UInt32.ofNat (u32 bp (4 * j))
      if a ≠ 0 then bfree sb a
    bfree sb ind
    setAddr ip (Fin.last NDIRECT) 0

def itrunc (ip : Ip) : FsM PUnit := do
  forM (List.finRange NDIRECT) (truncDirect sb ip)
  truncIndirect sb ip
  setInode ip fun i => { i with size := 0 }
  iupdate sb ip

/-- Drop a reference to an in-memory inode; the last reference to an inode without
links frees it. -/
def iput (ip : Ip) : FsM PUnit := do
  let i := (← get).inode ip
  if i.ref = 1 ∧ i.valid ∧ i.nlink = 0 then
    acquiresleep ip
    itrunc sb ip
    setInode ip fun i => { i with type := 0 }
    iupdate sb ip
    setInode ip fun i => { i with valid := false }
    setInode ip fun i => { i with locked := false }
  setInode ip fun i => { i with ref := i.ref - 1 }

def iunlockput (ip : Ip) : FsM PUnit := do
  iunlock ip
  iput sb ip

/-- The loop of `readi`.  `fuel` bounds the iterations; each copies at least one
byte, so `n` of them are enough.  `copyout` tells for each piece whether
`either_copyout` succeeds. -/
def readiLoop (ip : Ip) (copyout : ℕ → List UInt8 → Bool) (n : ℕ) : ℕ → ℕ → ℕ → FsM (List UInt8)
  | 0, _, _ => return []
  | fuel + 1, tot, off => do
    if tot < n then
      let bp ← bread (← bmap sb ip (off / BSIZE)).toNat
      let m := min (n - tot) (BSIZE - off % BSIZE)
      let piece := bp.read (off % BSIZE) m
      if copyout tot piece then
        return piece ++ (← readiLoop ip copyout n fuel (tot + m) (off + m))
      else return []
    else return []

/-- Read data from inode: the bytes copied out, as many as `readi` returns. -/
def readi (ip : Ip) (copyout : ℕ → List UInt8 → Bool) (off n : UInt32) : FsM (List UInt8) := do
  let size := ((← get).inode ip).size
  if off > size ∨ off + n < off then return []
  else
    let n := if off + n > size then size - off else n
    readiLoop sb ip copyout n.toNat n.toNat 0 off.toNat

/-- A kernel destination: `memmove` does not fail. -/
def kernelDst : ℕ → List UInt8 → Bool := fun _ _ => true

/-- What `either_copyin` brings from a source: for the `m` bytes at `src+tot`, the
bytes it copied before it returned, and whether it succeeded. -/
structure Source where
  copyin : ℕ → ℕ → List UInt8 × Bool
  length_le : ∀ tot m, (copyin tot m).1.length ≤ m
  length_ok : ∀ tot m, (copyin tot m).2 = true → (copyin tot m).1.length = m

def kernelSrc (data : ℕ → UInt8) : Source where
  copyin tot m := ((List.range m).map fun i => data (tot + i), true)
  length_le := by simp
  length_ok := by simp

/-- The loop of `writei`; returns the final `off`. -/
def writeiLoop (ip : Ip) (src : Source) (n : ℕ) : ℕ → ℕ → ℕ → FsM ℕ
  | 0, _, off => return off
  | fuel + 1, tot, off => do
    if tot < n then
      let addr ← bmap sb ip (off / BSIZE)
      let bp ← bread addr.toNat
      let m := min (n - tot) (BSIZE - off % BSIZE)
      let r := src.copyin tot m
      let bp := bp.splice (off % BSIZE) r.1
      if r.2 then
        logWrite sb addr.toNat bp
        writeiLoop ip src n fuel (tot + m) (off + m)
      else
        scribble addr.toNat bp
        return off
    else return off

def writei (ip : Ip) (src : Source) (off n : UInt32) : FsM ℤ := do
  let size := ((← get).inode ip).size
  if off > size ∨ off + n < off then return -1
  else if (off + n).toNat > MAXFILE * BSIZE then return -1
  else
    let off ← writeiLoop sb ip src n.toNat n.toNat 0 off.toNat
    if n > 0 then
      if off > ((← get).inode ip).size.toNat then
        setInode ip fun i => { i with size := UInt32.ofNat off }
      iupdate sb ip
    return n.toNat

end Xv6
