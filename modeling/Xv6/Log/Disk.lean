/-
# The redo log on disk

`install_trans`, `read_head`, `write_head`, `recover_from_log`, `write_log` and `commit` of
`kernel/log.c`, as the sequence of disk writes they issue.  The log is a header block at
`log.start`, with the count `n` and the home block numbers, and one log block for each.  A power cut
keeps a prefix of the `trace` and nothing of the cache.
-/

import Xv6.Param
import Xv6.Lib.Writes

namespace Xv6
namespace Log

open Lib

/-- Where the log lies: the fields `start` and `size` of `struct log`. -/
structure Region where
  /-- Block number of the header block. -/
  start : ℕ
  /-- Number of log blocks, the header block counted. -/
  size : ℕ
  pos : 0 < size

/-- Block `b` belongs to the log, `[log.start, log.start + log.size)`. -/
def Region.Mem (log : Region) (b : ℕ) : Prop := log.start ≤ b ∧ b < log.start + log.size

instance (log : Region) (b : ℕ) : Decidable (log.Mem b) := inferInstanceAs (Decidable (_ ∧ _))

def headN (b : Block) : ℤ := int32 (u32 b 0)

def headBlocks (b : Block) : List ℕ := (List.range (headN b).toNat).map fun i => u32 b (4 + 4 * i)

/-- The loop of `write_head`: store the numbers from index `i` on. -/
def putBlocks (b : Block) (i : ℕ) : List ℕ → Block
  | [] => b
  | x :: xs => putBlocks (b.setField 4 (4 + 4 * i) x) (i + 1) xs

/-- The header block that `write_head` leaves in the buffer that held `b`. -/
def putHead (b : Block) (lh : List ℕ) : Block := putBlocks (b.setField 4 0 lh.length) 0 lh

/-- The kernel's side of the disk.  `cache` is what `bread` returns, `lh` the
block numbers of `log.lh` (so `log.lh.n` is its length), and `trace` the block
writes issued so far, oldest first. -/
structure Machine where
  cache : Disk
  lh : List ℕ
  trace : List (ℕ × Block)

/-- `memmove(dst->data, src->data, BSIZE)` between two cached blocks. -/
def Machine.memmove (m : Machine) (dst src : ℕ) : Machine :=
  { m with cache := Function.update m.cache dst (m.cache src) }

def Machine.bwrite (m : Machine) (b : ℕ) : Machine :=
  { m with trace := m.trace ++ [(b, m.cache b)] }

/-- The loop of `write_log` from index `tail` on: copy each modified block to its
log block and write that. -/
def writeLogFrom (log : Region) : ℕ → List ℕ → Machine → Machine
  | _, [], m => m
  | tail, b :: bs, m =>
    writeLogFrom log (tail + 1) bs
    ((m.memmove (log.start + tail + 1) b).bwrite (log.start + tail + 1))

def writeLog (log : Region) (m : Machine) : Machine := writeLogFrom log 0 m.lh m

/-- The loop of `install_trans` from index `tail` on: copy each log block to its
home and write that. -/
def installTransFrom (log : Region) : ℕ → List ℕ → Machine → Machine
  | _, [], m => m
  | tail, b :: bs, m =>
    installTransFrom log (tail + 1) bs ((m.memmove b (log.start + tail + 1)).bwrite b)

def installTrans (log : Region) (m : Machine) : Machine := installTransFrom log 0 m.lh m

def readHead (log : Region) (m : Machine) : Machine :=
  { m with lh := headBlocks (m.cache log.start) }

/-- `write_head`: write the in-memory header to disk.  This is the true point at
which the current transaction commits. -/
def writeHead (log : Region) (m : Machine) : Machine :=
  { m with
    cache := Function.update m.cache log.start (putHead (m.cache log.start) m.lh) }.bwrite log.start

def recoverFromLog (log : Region) (m : Machine) : Machine :=
  writeHead log { installTrans log (readHead log m) with lh := [] }

def commit (log : Region) (m : Machine) : Machine :=
  if m.lh = [] then m
  else writeHead log { installTrans log (writeHead log (writeLog log m)) with lh := [] }

def boot (d : Disk) : Machine := ⟨d, [], []⟩

/-- A transaction, as the blocks its operations passed to `log_write` with their
final contents.  `log_write` lists a block once, and panics when the list is as
long as `LOGSIZE` or as `log.size - 1`. -/
structure Tx (log : Region) where
  writes : List (ℕ × Block)
  nodup : (writes.map Prod.fst).Nodup
  fits : writes.length + 1 ≤ log.size
  fitsHeader : writes.length ≤ LOGSIZE
  home : ∀ w ∈ writes, ¬ log.Mem w.1
  uint : ∀ w ∈ writes, w.1 < 2 ^ 32

variable {log : Region}

/-- The blocks of a transaction modified in the cache and listed in `log.lh`. -/
def Tx.logged (t : Tx log) (m : Machine) : Machine :=
  { m with cache := applyWrites m.cache t.writes, lh := t.writes.map Prod.fst }

/-- Transactions one after the other, each committed before the next begins. -/
def session (log : Region) (ts : List (Tx log)) (m : Machine) : Machine :=
  ts.foldl (fun m t => commit log (t.logged m)) m

/-- The contents that transactions produce, starting from the disk `d`. -/
def contents (d : Disk) (ts : List (Tx log)) : Disk :=
  ts.foldl (fun d t => applyWrites d t.writes) d

/-- The disk after a boot whose recovery is cut off after `c` of its writes. -/
def cutRecovery (log : Region) (d : Disk) (c : ℕ) : Disk :=
  applyWrites d ((recoverFromLog log (boot d)).trace.take c)

/-- The disk after a boot whose recovery runs to its end. -/
def recovery (log : Region) (d : Disk) : Disk := applyWrites d (recoverFromLog log (boot d)).trace

/-- The disk after recoveries cut off at `cuts` and a last one that completes. -/
def recoveries (log : Region) (cuts : List ℕ) (d : Disk) : Disk :=
  recovery log (cuts.foldl (cutRecovery log) d)

/-- A write that commits: a header with `n > 0`. -/
def IsCommit (log : Region) (w : ℕ × Block) : Prop := w.1 = log.start ∧ 0 < headN w.2

instance (log : Region) (w : ℕ × Block) : Decidable (IsCommit log w) :=
  inferInstanceAs (Decidable (_ ∧ _))

end Log
end Xv6
