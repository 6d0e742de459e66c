/-
# The disk driver and its device, step by step

`virtio_disk_rw` of `kernel/virtio_disk.c` for any number of processes, and `virtio_disk_intr`, with
a virtio device on the other side of the rings `avail` and `used`.  `disk.vdisk_lock` is held from
`acquire` to `release` or `sleep`, so what only the driver uses is one step; a place that the device
uses too is a step of its own.  The device completes what it has taken in any order, and sets its
interrupt status some time later.

`requests`, `taken`, `completed` and `marked` are not in the source.
-/

import Xv6.Lib.Runs
import Xv6.Param
import Mathlib.Data.UInt

namespace Xv6.Virtio

open Function

abbrev NUM : ℕ := 8

/-- `VRING_DESC_F_NEXT` and `VRING_DESC_F_WRITE`. -/
def descNext : UInt16 := 1
def descWrite : UInt16 := 2

/-- `VIRTIO_BLK_T_IN` and `VIRTIO_BLK_T_OUT`. -/
def blkIn : UInt32 := 0
def blkOut : UInt32 := 1

/-- What the address in a descriptor is the address of; `B` are the buffers. -/
inductive Addr (B : Type)
  | null
  /-- `buf0`, on a kernel stack. -/
  | header (type : UInt32) (sector : UInt64)
  | data (b : B)
  | status (i : ℕ)

/-- `struct VRingDesc`. -/
structure VRingDesc (B : Type) where
  addr : Addr B
  len : ℕ
  flags : UInt16
  next : ℕ

structure Info (B : Type) where
  b : Option B
  status : UInt8

/-- What the driver keeps about descriptors. -/
structure Driver (B : Type) where
  free : ℕ → Bool
  desc : ℕ → VRingDesc B
  info : ℕ → Info B

/-- The panics of the driver. -/
inductive Panic
  /-- `virtio_disk_intr 1`: no such descriptor. -/
  | intr1
  /-- `virtio_disk_intr 2`: a free descriptor. -/
  | intr2
  | status
  /-- `info[id].b` is null. -/
  | fault
  deriving DecidableEq

/-- `idx[0]`, `idx[1]` and `idx[2]`. -/
structure Chain where
  i0 : ℕ
  i1 : ℕ
  i2 : ℕ
  deriving DecidableEq

def Chain.toList (c : Chain) : List ℕ := [c.i0, c.i1, c.i2]

/-- The arguments of `virtio_disk_rw`: the buffer, its `blockno`, and `write`. -/
structure Args (B : Type) where
  b : B
  blockno : UInt32
  write : Bool

/-- The result of `alloc3_desc`: three descriptors, or none, and whether it had to free one again.
-/
inductive Alloc
  | got (c : Chain)
  | none (freed : Bool)

namespace Driver

variable {B : Type}

def reserved (d : Driver B) (i : ℕ) : Driver B := { d with free := update d.free i false }

def allocDesc (d : Driver B) : Option (ℕ × Driver B) :=
  ((List.range NUM).find? fun i => d.free i).map fun i => (i, d.reserved i)

def freed (d : Driver B) (i : ℕ) : Driver B :=
  { d with
    desc := update d.desc i { d.desc i with addr := .null }
    free := update d.free i true }

/-- `free_desc`, without its `wakeup`. -/
def freeDesc (d : Driver B) (i : ℕ) : Except Panic (Driver B) :=
  if NUM ≤ i then .error .intr1
  else if d.free i = true then .error .intr2
  else .ok (d.freed i)

/-- `free_chain`, for at most `k` turns of its loop: no descriptor can be freed twice, so more than
`NUM` turns end in a panic. -/
def freeChain : ℕ → Driver B → ℕ → Except Panic (Driver B)
  | 0, d, _ => .ok d
  | k + 1, d, i => do
    let d ← d.freeDesc i
    if (d.desc i).flags &&& descNext ≠ 0 then freeChain k d (d.desc i).next else .ok d

def alloc3Desc (d : Driver B) : Except Panic (Driver B × Alloc) :=
  match d.allocDesc with
  | none => .ok (d, .none false)
  | some (i0, d) => match d.allocDesc with
    | none => do
      let d ← d.freeDesc i0
      .ok (d, .none true)
    | some (i1, d) => match d.allocDesc with
      | none => do
        let d ← d.freeDesc i0
        let d ← d.freeDesc i1
        .ok (d, .none true)
      | some (i2, d) => .ok (d, .got ⟨i0, i1, i2⟩)

def setDesc (d : Driver B) (i : ℕ) (x : VRingDesc B) : Driver B :=
  { d with desc := update d.desc i x }

def setInfo (d : Driver B) (i : ℕ) (x : Info B) : Driver B := { d with info := update d.info i x }

/-- The three descriptors are formatted, and `info[idx[0]]` is set. -/
def format (d : Driver B) (a : Args B) (c : Chain) : Driver B :=
  let sector := (a.blockno * UInt32.ofNat (BSIZE / 512)).toUInt64
  let d := d.setDesc c.i0 ⟨.header (if a.write then blkOut else blkIn) sector, 16, descNext, c.i1⟩
  let d := d.setDesc c.i1 ⟨.data a.b, BSIZE, (if a.write then 0 else descWrite) ||| descNext, c.i2⟩
  let d := d.setDesc c.i2 ⟨.status c.i0, 1, descWrite, 0⟩
  d.setInfo c.i0 ⟨some a.b, 0⟩

/-- The device goes along the chain of descriptor `i` and writes status 0 where the third descriptor
says. -/
def succeed (d : Driver B) (i : ℕ) : Driver B :=
  match (d.desc (d.desc (d.desc i).next).next).addr with
  | .status j => d.setInfo j { d.info j with status := 0 }
  | _ => d

end Driver

/-- The two rings, how far each side has looked, and what has happened to them.  A request on its
way is the first descriptor of its chain with its number. -/
structure Rings (B : Type) where
  /-- `disk.avail[2...]` and `disk.avail[1]`. -/
  availRing : ℕ → ℕ
  availIdx : UInt16
  /-- `disk.used->elems[...].id` and `disk.used->id`. -/
  usedElems : ℕ → ℕ
  usedId : UInt16
  usedIdx : UInt16
  /-- The device: how far it is in the available ring, the requests it has taken, and the one whose
  entry of the used ring it has written. -/
  lastAvail : UInt16
  inflight : List (ℕ × ℕ)
  writing : Option (ℕ × ℕ)
  requests : List B
  taken : ℕ
  completed : List (ℕ × ℕ)
  marked : List B

namespace Rings

variable {B : Type}

def init (B : Type) : Rings B where
  availRing _ := 0
  availIdx := 0
  usedElems _ := 0
  usedId := 0
  usedIdx := 0
  lastAvail := 0
  inflight := []
  writing := none
  requests := []
  taken := 0
  completed := []
  marked := []

def post (r : Rings B) (i : ℕ) : Rings B :=
  { r with availRing := update r.availRing (r.availIdx.toNat % NUM) i }

def publish (r : Rings B) (b : B) : Rings B :=
  { r with availIdx := r.availIdx + 1, requests := r.requests ++ [b] }

def take (r : Rings B) : Option (Rings B) :=
  if r.lastAvail ≠ r.availIdx then
    some { r with
      inflight := r.inflight ++ [(r.availRing (r.lastAvail.toNat % NUM), r.taken)]
      lastAvail := r.lastAvail + 1
      taken := r.taken + 1 }
  else none

/-- The device writes the entry of the used ring for `x`, the `i`th of the requests it has taken. -/
def complete (r : Rings B) (i : ℕ) (x : ℕ × ℕ) : Rings B :=
  { r with
    inflight := r.inflight.eraseIdx i
    usedElems := update r.usedElems (r.usedId.toNat % NUM) x.1
    writing := some x }

def advance (r : Rings B) (x : ℕ × ℕ) : Rings B :=
  { r with usedId := r.usedId + 1, completed := r.completed ++ [x], writing := none }

/-- There is an entry of the used ring to process. -/
def Unprocessed (r : Rings B) : Prop := r.usedIdx.toNat % NUM ≠ r.usedId.toNat % NUM

instance (r : Rings B) : Decidable r.Unprocessed := inferInstanceAs (Decidable (_ ≠ _))

def usedElem (r : Rings B) : ℕ := r.usedElems r.usedIdx.toNat

/-- `disk.used_idx = (disk.used_idx + 1) % NUM`, after `b` was marked. -/
def mark (r : Rings B) (b : B) : Rings B :=
  { r with usedIdx := (r.usedIdx + 1) % UInt16.ofNat NUM, marked := r.marked ++ [b] }

end Rings

/-- How far a call of `virtio_disk_rw` is. -/
inductive Job (B : Type)
  | idle
  /-- It wants three descriptors. -/
  | asking (a : Args B)
  | has (a : Args B) (c : Chain)
  /-- They are formatted. -/
  | linked (a : Args B) (c : Chain)
  /-- The entry of the available ring is written, before `avail[1]` is advanced. -/
  | posted (a : Args B) (c : Chain)
  /-- At the `while`, with request `k`. -/
  | waiting (a : Args B) (c : Chain) (k : ℕ)

/-- Where a process is. -/
inductive Place
  /-- Before it has `disk.vdisk_lock`: on entry, or at the end of `sleep`. -/
  | spin
  | inside
  /-- `SLEEPING`, on `&disk.free[0]` if it is asking for descriptors, and on `b` if it waits. -/
  | asleep
  deriving DecidableEq

/-- Where the handler is, with the lock. -/
inductive IntrPc
  | loop
  /-- Before the read of `elems[disk.used_idx].id`. -/
  | item
  /-- Before the test of `info[id].status`. -/
  | check (id : ℕ)
  /-- Before the read of the interrupt status. -/
  | ackRead
  /-- Before the write of the acknowledgement. -/
  | ackWrite (v : UInt32)
  | release
  deriving DecidableEq

/-- Who can have the lock. -/
inductive Thread (N : ℕ)
  | proc (p : Fin N)
  | intr
  deriving DecidableEq

/-- The driver, the device and the processes. -/
structure Sys (N : ℕ) (B : Type) where
  drv : Driver B
  rings : Rings B
  lock : Option (Thread N)
  /-- `b->disk` and the holder of `b->lock`. -/
  disk : B → Bool
  owner : B → Option (Fin N)
  job : Fin N → Job B
  place : Fin N → Place
  intr : Option IntrPc
  panic : Option Panic
  /-- How many completions the interrupt status does not show yet. -/
  unsignalled : ℕ
  irq : UInt32

variable {N : ℕ} {B : Type}

namespace Sys

def init (N : ℕ) (B : Type) : Sys N B where
  drv := ⟨fun _ => true, fun _ => ⟨.null, 0, 0, 0⟩, fun _ => ⟨none, 0⟩⟩
  rings := Rings.init B
  lock := none
  disk _ := false
  owner _ := none
  job _ := .idle
  place _ := .spin
  intr := none
  panic := none
  unsignalled := 0
  irq := 0

def setJob (s : Sys N B) (p : Fin N) (j : Job B) : Sys N B := { s with job := update s.job p j }

def setPlace (s : Sys N B) (p : Fin N) (x : Place) : Sys N B :=
  { s with place := update s.place p x }

/-- `release(&disk.vdisk_lock)` by process `p`, which is then at `x`. -/
def leave (s : Sys N B) (p : Fin N) (x : Place) : Sys N B := { s with lock := none }.setPlace p x

def wakeFree (s : Sys N B) : Sys N B :=
  { s with place := fun q => match s.job q, s.place q with
    | .asking _, .asleep => .spin
    | _, x => x }

variable [DecidableEq B]

def wakeBuf (s : Sys N B) (b : B) : Sys N B :=
  { s with place := fun q => match s.job q, s.place q with
    | .waiting a _ _, .asleep => if a.b = b then .spin else .asleep
    | _, x => x }

/-- The next step of process `p` in `virtio_disk_rw`, with the lock. -/
def diskRwInside (s : Sys N B) (p : Fin N) : Job B → Option (Sys N B)
  | .idle => none
  | .asking a => match s.drv.alloc3Desc with
    | .error e => some { s with panic := some e }
    | .ok (d, .got c) => some ({ s with drv := d }.setJob p (.has a c))
    | .ok (d, .none freed) =>
      let s := { s with drv := d }
      some ((if freed then s.wakeFree else s).leave p .asleep)
  | .has a c =>
    some ({ s with drv := s.drv.format a c, disk := update s.disk a.b true }.setJob p (.linked a c))
  | .linked a c => some ({ s with rings := s.rings.post c.i0 }.setJob p (.posted a c))
  | .posted a c =>
    some ({ s with rings := s.rings.publish a.b }.setJob p (.waiting a c s.rings.requests.length))
  | .waiting a c _ =>
    if s.disk a.b = true then some (s.leave p .asleep)
    else
      match Driver.freeChain (NUM + 1)
        (s.drv.setInfo c.i0 { s.drv.info c.i0 with b := none }) c.i0 with
      | .error e => some { s with panic := some e }
      | .ok d => some (({ s with drv := d }.wakeFree.setJob p .idle).leave p .spin)

def diskRw (s : Sys N B) (p : Fin N) : Option (Sys N B) :=
  match s.place p, s.job p with
  | .asleep, _ | .spin, .idle => none
  | .spin, _ =>
    if s.lock = none then some ({ s with lock := some (.proc p) }.setPlace p .inside) else none
  | .inside, j => s.diskRwInside p j

def diskIntr (s : Sys N B) : Option (Sys N B) :=
  match s.intr with
  | none => if s.lock = none then some { s with lock := some .intr, intr := some .loop } else none
  | some .loop => some { s with intr := some (if s.rings.Unprocessed then .item else .ackRead) }
  | some .item => some { s with intr := some (.check s.rings.usedElem) }
  | some (.check id) =>
    if (s.drv.info id).status ≠ 0 then some { s with panic := some .status }
    else match (s.drv.info id).b with
      | none => some { s with panic := some .fault }
      | some b => some { ({ s with disk := update s.disk b false }.wakeBuf b) with
          rings := s.rings.mark b
          intr := some .loop }
  | some .ackRead => some { s with intr := some (.ackWrite (s.irq &&& 3)) }
  | some (.ackWrite v) => some { s with irq := s.irq &&& ~~~v, intr := some .release }
  | some .release => some { s with lock := none, intr := none }

end Sys

inductive Action (N : ℕ) (B : Type)
  /-- Process `p` gets `b->lock`, or gives it back. -/
  | acquiresleep (p : Fin N) (b : B)
  | releasesleep (p : Fin N) (b : B)
  | call (p : Fin N) (a : Args B)
  /-- Some process kills process `p`, which wakes it. -/
  | kill (p : Fin N)
  | run (p : Fin N)
  | intr
  | take
  /-- The device completes the `i`th of the requests it has taken and writes the entry of the used
  ring. -/
  | complete (i : ℕ)
  | advance
  | signal

def Sys.step [DecidableEq B] (s : Sys N B) (a : Action N B) : Option (Sys N B) :=
  if s.panic ≠ none then none
  else match a with
    | .acquiresleep p b => match s.job p with
      | .idle =>
        if s.owner b = none then some { s with owner := update s.owner b (some p) } else none
      | _ => none
    | .releasesleep p b => match s.job p with
      | .idle => if s.owner b = some p then some { s with owner := update s.owner b none } else none
      | _ => none
    | .call p a => match s.job p with
      | .idle =>
        if s.owner a.b = some p then some ((s.setJob p (.asking a)).setPlace p .spin) else none
      | _ => none
    | .kill p => some (if s.place p = .asleep then s.setPlace p .spin else s)
    | .run p => s.diskRw p
    | .intr => s.diskIntr
    | .take => s.rings.take.map fun r => { s with rings := r }
    | .complete i => match s.rings.writing, s.rings.inflight[i]? with
      | none, some x => some { s with drv := s.drv.succeed x.1, rings := s.rings.complete i x }
      | _, _ => none
    | .advance => s.rings.writing.map fun x =>
      { s with rings := s.rings.advance x, unsignalled := s.unsignalled + 1 }
    | .signal => match s.unsignalled with
      | n + 1 => some { s with unsignalled := n, irq := s.irq ||| 1 }
      | 0 => none

end Xv6.Virtio
