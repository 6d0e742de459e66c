/-
# Directories, path names and the calls on them

The second half of `kernel/fs.c`, and of `kernel/sysfile.c` `create` and the bodies of `link`,
`unlink`, `mkdir` and `mknod` after their arguments have been fetched.  A path is the bytes of the
string before its NUL; `cwd` is `myproc()->cwd`.
-/

import Xv6.Fs.Inode

namespace Xv6

open Lib

variable (sb : Superblock)

/-! ### Directory entries -/

/-- `struct dirent`. -/
structure Dirent where
  inum : ℕ
  name : List UInt8

def Dirent.parse (l : List UInt8) : Dirent := ⟨ofLE (l.take 2), l.drop 2⟩

/-- `strncpy(s, t, n)`: the bytes of `t` up to `n`, padded with NULs. -/
def strncpy (t : List UInt8) (n : ℕ) : List UInt8 := t.take n ++ List.replicate (n - t.length) 0

def direntBytes (inum : ℕ) (name : List UInt8) : List UInt8 := le 2 inum ++ strncpy name DIRSIZ

/-- `strncmp(p, q, n)`, for strings that end in a NUL after their last byte. -/
def strncmp : List UInt8 → List UInt8 → ℕ → ℤ
  | _, _, 0 => 0
  | p, q, n + 1 =>
    if p.headD 0 ≠ 0 ∧ p.headD 0 = q.headD 0 then strncmp p.tail q.tail n
    else (p.headD 0).toNat - (q.headD 0).toNat

def namecmp (s t : List UInt8) : ℤ := strncmp s t DIRSIZ

/-- The offsets `0, 16, 32, …` below `size`. -/
def direntOffs (size : ℕ) : List ℕ := (List.range ((size + DIRENT - 1) / DIRENT)).map (DIRENT * ·)

def readDirent (dp : Ip) (off : ℕ) (p : Panic) : FsM Dirent := do
  let de ← readi sb dp kernelDst (UInt32.ofNat off) (UInt32.ofNat DIRENT)
  if de.length = DIRENT then return Dirent.parse de else throw (.panic p)

/-- Write the 16 bytes `de` at `off`; the result of `writei`. -/
def writeDirent (dp : Ip) (off : ℕ) (de : List UInt8) : FsM ℤ :=
  writei sb dp (kernelSrc fun i => de.getD i 0) (UInt32.ofNat off) (UInt32.ofNat DIRENT)

def dirlookupFrom (dp : Ip) (name : List UInt8) : List ℕ → FsM (Option (Ip × ℕ))
  | [] => return none
  | off :: offs => do
    let de ← readDirent sb dp off .dirlookupRead
    if de.inum ≠ 0 ∧ namecmp name de.name = 0 then
      let ip ← iget ((← get).inode dp).dev de.inum
      return some (ip, off)
    else dirlookupFrom dp name offs

/-- Look for a directory entry in a directory: the inode, and the offset of the
entry. -/
def dirlookup (dp : Ip) (name : List UInt8) : FsM (Option (Ip × ℕ)) := do
  let d := (← get).inode dp
  if d.type = T_DIR then dirlookupFrom sb dp name (direntOffs d.size.toNat)
  else throw (.panic .dirlookupNotDir)

/-- The search of `dirlink` for an empty entry; past the last one if there is none. -/
def findEmptyFrom (dp : Ip) (stop : ℕ) : List ℕ → FsM ℕ
  | [] => return stop
  | off :: offs => do
    let de ← readDirent sb dp off .dirlinkRead
    if de.inum = 0 then return off else findEmptyFrom dp stop offs

def dirlink (dp : Ip) (name : List UInt8) (inum : ℕ) : FsM ℤ := do
  match ← dirlookup sb dp name with
  | some (ip, _) =>
    iput sb ip
    return -1
  | none =>
    let size := ((← get).inode dp).size.toNat
    let offs := direntOffs size
    let off ← findEmptyFrom sb dp (DIRENT * offs.length) offs
    let r ← writeDirent sb dp off (direntBytes inum name)
    if r = DIRENT then return 0 else throw (.panic .dirlink)

/-! ### Paths -/

def slash : UInt8 := 47

/-- The next path element and the rest of the path, without leading slashes. -/
def skipelem (path : List UInt8) : Option (List UInt8 × List UInt8) :=
  match path.dropWhile (· == slash) with
  | [] => none
  | s =>
    some ((s.takeWhile (· != slash)).take DIRSIZ, (s.dropWhile (· != slash)).dropWhile (· == slash))

theorem length_lt_of_skipelem (h : skipelem path = some (name, rest)) :
    rest.length < path.length := by
  unfold skipelem at h
  have hdrop : ∀ (p : UInt8 → Bool) (l : List UInt8), (l.dropWhile p).length ≤ l.length :=
    fun p l => (List.dropWhile_suffix p).length_le
  cases hs : path.dropWhile (· == slash) with
  | nil => simp [hs] at h
  | cons c s =>
    have hc : (c == slash) = false := by
      have := List.head_dropWhile_not (l := path) (· == slash) (by simp [hs])
      simpa [hs] using this
    simp only [hs, Option.some.injEq, Prod.mk.injEq] at h
    obtain ⟨-, rfl⟩ := h
    have h₁ := hdrop (· == slash) path
    have h₂ := hdrop (· == slash) ((c :: s).dropWhile (· != slash))
    have h₃ := hdrop (· != slash) s
    have hcons : (c :: s).dropWhile (· != slash) = s.dropWhile (· != slash) := by
      simp [bne, hc]
    rw [hs, List.length_cons] at h₁
    rw [hcons] at h₂ ⊢
    omega

/-- The loop of `namex`; the name that comes with the inode is the last element, for
`nameiparent`. -/
def namexFrom (parent : Bool) (ip : Ip) (path : List UInt8) : FsM (Option (Ip × List UInt8)) :=
  match _h : skipelem path with
  | none => do
    if parent then
      iput sb ip
      return none
    else return some (ip, [])
  | some (name, rest) => do
    ilock sb ip
    if ((← get).inode ip).type ≠ T_DIR then
      iunlockput sb ip
      return none
    else if parent ∧ rest = [] then
      iunlock ip
      return some (ip, name)
    else
      match ← dirlookup sb ip name with
      | none =>
        iunlockput sb ip
        return none
      | some (next, _) =>
        iunlockput sb ip
        namexFrom parent next rest
termination_by path.length
decreasing_by exact length_lt_of_skipelem _h

def namex (cwd : Ip) (path : List UInt8) (parent : Bool) : FsM (Option (Ip × List UInt8)) := do
  let ip ← if path.head? = some slash then iget ROOTDEV ROOTINO else idup cwd
  namexFrom sb parent ip path

def namei (cwd : Ip) (path : List UInt8) : FsM (Option Ip) := do
  return (← namex sb cwd path false).map Prod.fst

def nameiparent (cwd : Ip) (path : List UInt8) : FsM (Option (Ip × List UInt8)) :=
  namex sb cwd path true

/-! ### `kernel/sysfile.c` -/

def dot : List UInt8 := [46]

def dotdot : List UInt8 := [46, 46]

def setNlink (ip : Ip) (f : UInt16 → UInt16) : FsM PUnit :=
  setInode ip fun i => { i with nlink := f i.nlink }

/-- `sys_link` after its arguments: create the path `new` as a link to the same inode
as `old`. -/
def link (cwd : Ip) (old new : List UInt8) : FsM ℤ := do
  beginOp
  match ← namei sb cwd old with
  | none =>
    endOp
    return -1
  | some ip =>
    ilock sb ip
    if ((← get).inode ip).type = T_DIR then
      iunlockput sb ip
      endOp
      return -1
    else
      setNlink ip (· + 1)
      iupdate sb ip
      iunlock ip
      if ← linkEntry ip then
        iput sb ip
        endOp
        return 0
      else
        -- bad:
        ilock sb ip
        setNlink ip (· - 1)
        iupdate sb ip
        iunlockput sb ip
        endOp
        return -1
where
  /-- Enter `new` in its directory; whether that worked. -/
  linkEntry (ip : Ip) : FsM Bool := do
    match ← nameiparent sb cwd new with
    | none => return false
    | some (dp, name) =>
      ilock sb dp
      let s ← get
      if (s.inode dp).dev ≠ (s.inode ip).dev then
        iunlockput sb dp
        return false
      else
        let r ← dirlink sb dp name (s.inode ip).inum
        iunlockput sb dp
        return 0 ≤ r

def isdiremptyFrom (dp : Ip) : List ℕ → FsM Bool
  | [] => return true
  | off :: offs => do
    let de ← readDirent sb dp off .isdirempty
    if de.inum ≠ 0 then return false else isdiremptyFrom dp offs

/-- Is the directory `dp` empty except for `.` and `..`? -/
def isdirempty (dp : Ip) : FsM Bool := do
  isdiremptyFrom sb dp ((direntOffs ((← get).inode dp).size.toNat).drop 2)

/-- `sys_unlink` after its arguments. -/
def unlink (cwd : Ip) (path : List UInt8) : FsM ℤ := do
  beginOp
  match ← nameiparent sb cwd path with
  | none =>
    endOp
    return -1
  | some (dp, name) =>
    ilock sb dp
    if namecmp name dot = 0 ∨ namecmp name dotdot = 0 then bad dp
    else
      match ← dirlookup sb dp name with
      | none => bad dp
      | some (ip, off) =>
        ilock sb ip
        let i := (← get).inode ip
        if (i.nlink.toNat = 0 ∨ 2 ^ 15 ≤ i.nlink.toNat) then throw (.panic .unlinkNlink)
        else if ← (if i.type = T_DIR then return !(← isdirempty sb ip) else return false) then
          iunlockput sb ip
          bad dp
        else erase dp ip off
where
  /-- Empty the directory entry, and count the links down. -/
  erase (dp ip : Ip) (off : ℕ) : FsM ℤ := do
    let r ← writeDirent sb dp off (List.replicate DIRENT 0)
    if r ≠ DIRENT then throw (.panic .unlinkWritei)
    else
      if ((← get).inode ip).type = T_DIR then
        setNlink dp (· - 1)
        iupdate sb dp
      finish dp ip
  finish (dp ip : Ip) : FsM ℤ := do
    iunlockput sb dp
    setNlink ip (· - 1)
    iupdate sb ip
    iunlockput sb ip
    endOp
    return 0
  bad (dp : Ip) : FsM ℤ := do
    iunlockput sb dp
    endOp
    return -1

/-- Make a new inode of the given type and enter it under `path`; the inode is
returned locked.  `T_FILE` also takes a file or a device that exists. -/
def create (cwd : Ip) (path : List UInt8) (type major minor : UInt16) : FsM (Option Ip) := do
  match ← nameiparent sb cwd path with
  | none => return none
  | some (dp, name) =>
    ilock sb dp
    match ← dirlookup sb dp name with
    | some (ip, _) =>
      iunlockput sb dp
      ilock sb ip
      let t := ((← get).inode ip).type
      if type = T_FILE ∧ (t = T_FILE ∨ t = T_DEVICE) then return some ip
      else
        iunlockput sb ip
        return none
    | none =>
      let ip ← ialloc sb ((← get).inode dp).dev type
      ilock sb ip
      setInode ip fun i => { i with major := major, minor := minor, nlink := 1 }
      iupdate sb ip
      if type = T_DIR then
        setNlink dp (· + 1)
        iupdate sb dp
        createDots dp ip
      enter dp name ip
where
  /-- Create the entries `.` and `..`. -/
  createDots (dp ip : Ip) : FsM PUnit := do
    let r ← dirlink sb ip dot ((← get).inode ip).inum
    if r < 0 then throw (.panic .createDots)
    else
      let r ← dirlink sb ip dotdot ((← get).inode dp).inum
      if r < 0 then throw (.panic .createDots)
  /-- Enter the new inode in its directory. -/
  enter (dp : Ip) (name : List UInt8) (ip : Ip) : FsM (Option Ip) := do
    let r ← dirlink sb dp name ((← get).inode ip).inum
    if r < 0 then throw (.panic .createDirlink)
    else
      iunlockput sb dp
      return some ip

/-- `sys_mkdir` and `sys_mknod`: their argument fetch comes after `begin_op`, so a bad
argument is `none` here. -/
def make (cwd : Ip) (type major minor : UInt16) (path : Option (List UInt8)) : FsM ℤ := do
  beginOp
  match path with
  | none =>
    endOp
    return -1
  | some path =>
    match ← create sb cwd path type major minor with
    | none =>
      endOp
      return -1
    | some ip =>
      iunlockput sb ip
      endOp
      return 0

def mkdir (cwd : Ip) (path : Option (List UInt8)) : FsM ℤ := make sb cwd T_DIR 0 0 path

def mknod (cwd : Ip) (path : Option (List UInt8)) (major minor : UInt16) : FsM ℤ :=
  make sb cwd T_DEVICE major minor path

end Xv6
