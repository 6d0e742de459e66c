/-
# Constants of the kernel and of the disk format

`kernel/param.h` and `kernel/fs.h`, under their own names.
-/

import Xv6.Lib.Bytes

namespace Xv6

open Lib

/-- Maximum number of processes. -/
abbrev NPROC : ℕ := 64

/-- Open files per process. -/
abbrev NOFILE : ℕ := 16

/-- Open files per system. -/
abbrev NFILE : ℕ := 100

/-- Maximum number of active i-nodes. -/
abbrev NINODE : ℕ := 50

/-- Maximum major device number. -/
abbrev NDEV : ℕ := 10

/-- Device number of the file system root disk. -/
abbrev ROOTDEV : ℕ := 1

/-- Maximum number of `exec` arguments. -/
abbrev MAXARG : ℕ := 32

/-- Maximum file path name. -/
abbrev MAXPATH : ℕ := 128

/-- Maximum number of blocks any file system operation writes. -/
abbrev MAXOPBLOCKS : ℕ := 10

/-- Maximum number of data blocks in the on-disk log, `MAXOPBLOCKS*3`. -/
abbrev LOGSIZE : ℕ := 30

/-- Size of the disk block cache, `MAXOPBLOCKS*3`. -/
abbrev NBUF : ℕ := 30

/-- Root i-number. -/
abbrev ROOTINO : ℕ := 1

abbrev BSIZE : ℕ := 1024

theorem NINODE_pos : 0 < NINODE := Nat.zero_lt_succ _

theorem LOGSIZE_eq : LOGSIZE = 30 := rfl

theorem BSIZE_eq : BSIZE = 1024 := rfl

abbrev Block : Type := Bytes BSIZE

/-- The contents of the disk, by block number. -/
abbrev Disk : Type := ℕ → Block

/-- The 32-bit field of a block at byte `o`, as a `uint`. -/
abbrev u32 (b : Block) (o : ℕ) : ℕ := b.field 4 o

/-- The 16-bit field of a block at byte `o`, as a `ushort`. -/
abbrev u16 (b : Block) (o : ℕ) : ℕ := b.field 2 o

/-- A `uint` read as an `int`, two's complement. -/
def int32 (v : ℕ) : ℤ := if v < 2 ^ 31 then v else (v : ℤ) - 2 ^ 32

theorem int32_of_lt (h : v < 2 ^ 31) : int32 v = v := if_pos h

end Xv6
