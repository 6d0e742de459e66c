/-
# The buffer cache

`kernel/bio.c`, for any number of processes.  What is done under `bcache.lock` is one step, and so
is a transfer between a buffer and the disk.  A pointer to a buffer is its index in `bcache.buf`,
and `none` is `&bcache.head`.

Three fields are not in the source: `pins`, the `bpin`s that no `bunpin` has undone; `dirty`, for a
buffer that was changed and not written; and `left`, the data that the last holder of a block left.
-/

import Xv6.Lib.Linked
import Xv6.Lib.Runs
import Xv6.Param

namespace Xv6

open Lib Function

/-- A pointer to a buffer. -/
abbrev Bp : Type := Fin NBUF

/-- `struct buf`, without its links and its lock. -/
structure Buf where
  valid : Bool
  dev : ℕ
  blockno : ℕ
  refcnt : UInt32
  data : Block

/-- Where a process is. -/
inductive BioPc
  | out
  /-- In `bget`, at `acquiresleep(&b->lock)`. -/
  | acquiring (b : Bp) (dev blockno : ℕ)
  /-- In `bread`, at `if(!b->valid)`. -/
  | reading (b : Bp) (dev blockno : ℕ)
  /-- In `brelse`, after `releasesleep(&b->lock)`. -/
  | releasing (b : Bp)
  deriving DecidableEq

/-- The buffer cache, the disks, and the processes that use them. -/
structure Bio (N : ℕ) where
  links : Links Bp
  buf : Bp → Buf
  lock : Bp → Option (Fin N)
  disk : ℕ → Disk
  pc : Fin N → BioPc
  pins : Bp → ℕ
  dirty : Bp → Bool
  left : ℕ → Disk

variable {N : ℕ}

namespace Bio

/-- `binit`: every buffer is put in behind the head, in order. -/
def binit (N : ℕ) (disk : ℕ → Disk) : Bio N where
  links := (List.finRange NBUF).foldl Links.insert ⟨fun _ => none, fun _ => none⟩
  buf _ := { valid := false, dev := 0, blockno := 0, refcnt := 0, data := fun _ => 0 }
  lock _ := none
  disk := disk
  pc _ := .out
  pins _ := 0
  dirty _ := false
  left := disk

/-- Buffer `b` is for this block. -/
def Carries (s : Bio N) (b : Bp) (dev blockno : ℕ) : Prop :=
  (s.buf b).dev = dev ∧ (s.buf b).blockno = blockno

instance (s : Bio N) (b : Bp) (dev blockno : ℕ) : Decidable (s.Carries b dev blockno) :=
  inferInstanceAs (Decidable (_ ∧ _))

/-- The first loop of `bget`: is the block already cached? -/
def cached (s : Bio N) (dev blockno : ℕ) : Option Bp :=
  Links.search s.links.next (fun b => decide (s.Carries b dev blockno)) (NBUF + 1)
    (s.links.next none)

/-- The second loop of `bget`: the least recently used buffer that is not in use. -/
def unused (s : Bio N) : Option Bp :=
  Links.search s.links.prev (fun b => decide ((s.buf b).refcnt = 0)) (NBUF + 1) (s.links.prev none)

/-- `b->refcnt++`, and process `p` goes on to the sleep lock. -/
def hit (s : Bio N) (p : Fin N) (b : Bp) (dev blockno : ℕ) : Bio N :=
  { s with
    buf := update s.buf b { s.buf b with refcnt := (s.buf b).refcnt + 1 }
    pc := update s.pc p (.acquiring b dev blockno) }

/-- `b` is given to another block, and process `p` goes on to the sleep lock. -/
def recycle (s : Bio N) (p : Fin N) (b : Bp) (dev blockno : ℕ) : Bio N :=
  { s with
    buf := update s.buf b { s.buf b with dev, blockno, valid := false, refcnt := 1 }
    pc := update s.pc p (.acquiring b dev blockno) }

/-- `bget`, up to `acquiresleep`; nothing where it panics with `bget: no buffers`. -/
def bget (s : Bio N) (p : Fin N) (dev blockno : ℕ) : Option (Bio N) :=
  match s.cached dev blockno with
  | some b => some (s.hit p b dev blockno)
  | none => s.unused.map fun b => s.recycle p b dev blockno

/-- `acquiresleep(&b->lock)` in `bget`, when the lock is free. -/
def acquiresleep (s : Bio N) (p : Fin N) (b : Bp) (dev blockno : ℕ) : Bio N :=
  { s with
    lock := update s.lock b (some p)
    pc := update s.pc p (.reading b dev blockno) }

/-- The rest of `bread`: `virtio_disk_rw(b, 0)` if the buffer is not valid. -/
def bread (s : Bio N) (p : Fin N) (b : Bp) : Bio N :=
  let data := if (s.buf b).valid then (s.buf b).data else s.disk (s.buf b).dev (s.buf b).blockno
  { s with
    buf := update s.buf b { s.buf b with valid := true, data }
    pc := update s.pc p .out }

def modify (s : Bio N) (b : Bp) (data : Block) : Bio N :=
  { s with
    buf := update s.buf b { s.buf b with data }
    dirty := update s.dirty b true }

/-- The disks after block `blockno` of `dev` is written. -/
def putBlock (disk : ℕ → Disk) (dev blockno : ℕ) (data : Block) : ℕ → Disk :=
  update disk dev (update (disk dev) blockno data)

def bwrite (s : Bio N) (b : Bp) : Bio N :=
  { s with
    disk := putBlock s.disk (s.buf b).dev (s.buf b).blockno (s.buf b).data
    dirty := update s.dirty b false }

/-- `brelse`, up to `releasesleep(&b->lock)`. -/
def brelse (s : Bio N) (p : Fin N) (b : Bp) : Bio N :=
  { s with
    lock := update s.lock b none
    pc := update s.pc p (.releasing b)
    left := putBlock s.left (s.buf b).dev (s.buf b).blockno (s.buf b).data }

/-- The rest of `brelse`: drop the reference, and if it was the last move the buffer to the
head of the most-recently-used list. -/
def unref (s : Bio N) (p : Fin N) (b : Bp) : Bio N :=
  let refcnt := (s.buf b).refcnt - 1
  { s with
    buf := update s.buf b { s.buf b with refcnt }
    links := if refcnt = 0 then (s.links.unlink b).insert b else s.links
    pc := update s.pc p .out }

def bpin (s : Bio N) (b : Bp) : Bio N :=
  { s with
    buf := update s.buf b { s.buf b with refcnt := (s.buf b).refcnt + 1 }
    pins := update s.pins b (s.pins b + 1) }

def bunpin (s : Bio N) (b : Bp) : Bio N :=
  { s with
    buf := update s.buf b { s.buf b with refcnt := (s.buf b).refcnt - 1 }
    pins := update s.pins b (s.pins b - 1) }

end Bio

/-- What process `p` does. -/
inductive BioAction (N : ℕ)
  /-- Call `bread`, and run it up to `acquiresleep`. -/
  | bget (p : Fin N) (dev blockno : ℕ)
  | acquiresleep (p : Fin N)
  | bread (p : Fin N)
  | modify (p : Fin N) (b : Bp) (data : Block)
  | bwrite (p : Fin N) (b : Bp)
  /-- Call `brelse`, and run it up to `releasesleep`. -/
  | brelse (p : Fin N) (b : Bp)
  | unref (p : Fin N)
  | bpin (p : Fin N) (b : Bp)
  | bunpin (p : Fin N) (b : Bp)

/-- One step.  There is none where the process is elsewhere, where a lock is taken, and
where the code panics: `bwrite` and `brelse` without the lock, `bget` without a buffer. -/
def Bio.step (s : Bio N) : BioAction N → Option (Bio N)
  | .bget p dev blockno => if s.pc p = .out then s.bget p dev blockno else none
  | .acquiresleep p => match s.pc p with
    | .acquiring b dev blockno =>
      if s.lock b = none then some (s.acquiresleep p b dev blockno) else none
    | _ => none
  | .bread p => match s.pc p with
    | .reading b _ _ => some (s.bread p b)
    | _ => none
  | .modify p b data => if s.pc p = .out ∧ s.lock b = some p then some (s.modify b data) else none
  | .bwrite p b => if s.pc p = .out ∧ s.lock b = some p then some (s.bwrite b) else none
  | .brelse p b => if s.pc p = .out ∧ s.lock b = some p then some (s.brelse p b) else none
  | .unref p => match s.pc p with
    | .releasing b => some (s.unref p b)
    | _ => none
  | .bpin p b => if s.pc p = .out then some (s.bpin b) else none
  | .bunpin p b => if s.pc p = .out then some (s.bunpin b) else none

end Xv6
