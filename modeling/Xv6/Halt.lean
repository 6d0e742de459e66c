/-
# How a call ends without returning

`panic` stops the machine with a message.  A call that has to wait (`begin_op` for
log space, `acquiresleep` for a lock) goes to sleep; where calls run one after the
other nobody is left to wake it, so such a call does not complete either.
-/

import Mathlib.Data.Nat.Notation

namespace Xv6

/-- The panics of the file system, of the memory allocator, of the page tables and
of the system calls. -/
inductive Panic
  | logTooBig | logOutside
  | ballocOutOfBlocks | bfreeFree
  | iallocNoInodes | igetNoInodes | ilock | ilockNoType | iunlock | bmapOutOfRange
  | dirlookupNotDir | dirlookupRead | dirlinkRead | dirlink
  | filedup | fileclose | fileread | filewrite | shortFilewrite
  | unlinkNlink | unlinkWritei | isdirempty | createIalloc | createDots | createDirlink
  | kfree | walk | remap | uvmunmapAlign | uvmunmapWalk | uvmunmapNotMapped | uvmunmapNotLeaf
  | freewalkLeaf | uvmcopyExist | uvmcopyPresent | uvmclear | inituvm
  | loadsegAlign | loadsegExist | initExiting
deriving DecidableEq, Repr

/-- Why a call does not return.  `fault` is for following a null pointer, `diverge` for
a recursion that the model bounds and that went beyond its bound. -/
inductive Halt
  | panic (p : Panic)
  | asleep
  | fault
  | diverge
deriving DecidableEq, Repr

/-- The panics that exact bookkeeping of blocks, references and pages does not rule out: the
machine ran out of something; a directory on the disk is damaged, as when an entry names an
inode that is free and `ilock` finds no type; `log_write` runs outside a transaction; or `init`
exits. -/
def Panic.tolerated : Panic → Bool
  | .logTooBig | .logOutside | .ballocOutOfBlocks | .iallocNoInodes | .igetNoInodes
  | .ilockNoType | .dirlookupNotDir | .dirlookupRead | .dirlinkRead | .dirlink
  | .unlinkNlink | .unlinkWritei | .isdirempty | .createIalloc | .createDots | .createDirlink
  | .initExiting => true
  | _ => false

/-- A call may end this way in a kernel whose bookkeeping is exact. -/
def Tolerated : Halt → Prop
  | .asleep => True
  | .panic p => p.tolerated = true
  | .fault => False
  | .diverge => False

instance : DecidablePred Tolerated
  | .asleep => isTrue trivial
  | .panic p => inferInstanceAs (Decidable (p.tolerated = true))
  | .fault => isFalse id
  | .diverge => isFalse id

/-- The same without the panic of `unlink` that a link count is not positive. -/
def Usual (e : Halt) : Prop := Tolerated e ∧ e ≠ .panic .unlinkNlink

instance : DecidablePred Usual :=
  fun e => inferInstanceAs (Decidable (Tolerated e ∧ e ≠ .panic .unlinkNlink))

end Xv6
