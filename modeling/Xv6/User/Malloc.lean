/-
# `malloc` and `free`

`user/umalloc.c`.  A block is a header and the memory after it; sizes count headers.  Memory is what
is at each address when it is read as a header; a program may store into a block that it has.
`sbrk` fails, or returns memory behind all that it has returned, with any gap.  The loops take a
number of turns.
-/

import Xv6.Lib.Ring
import Xv6.Lib.Runs
import Xv6.Lib.Tiling
import Xv6.Lib.Turns

namespace Xv6.Malloc

open Lib Function

/-- The header of a block. -/
structure Header where
  ptr : ℕ
  size : UInt32
  deriving DecidableEq, Repr

/-- `sizeof(Header)`. -/
abbrev headerSize : ℕ := 16

/-- `p + n`, for a pointer `p` to a header. -/
def plus (p : ℕ) (n : UInt32) : ℕ := p + headerSize * n.toNat

structure Heap where
  mem : ℕ → Header
  freep : ℕ
  /-- the end of what `sbrk` has returned -/
  brk : ℕ
  /-- what it has returned -/
  regions : List Extent

/-! ### The code -/

def search (mem : ℕ → Header) (bp : ℕ) : ℕ → ℕ → Option ℕ
  | 0, _ => none
  | k + 1, p =>
    if p < bp ∧ bp < (mem p).ptr then some p
    else if (mem p).ptr ≤ p ∧ (p < bp ∨ bp < (mem p).ptr) then some p
    else search mem bp k (mem p).ptr

/-- `bp` is joined to the block after it, or linked to it. -/
def linkNext (mem : ℕ → Header) (bp p : ℕ) : ℕ → Header :=
  let next := (mem p).ptr
  if plus bp (mem bp).size = next then
    update mem bp { ptr := (mem next).ptr, size := (mem bp).size + (mem next).size }
  else update mem bp { mem bp with ptr := next }

/-- `bp` is joined to the block before it, or linked to it. -/
def linkPrev (mem : ℕ → Header) (bp p : ℕ) : ℕ → Header :=
  if plus p (mem p).size = bp then
    update mem p { ptr := (mem bp).ptr, size := (mem p).size + (mem bp).size }
  else update mem p { mem p with ptr := bp }

def free (k ap : ℕ) (h : Heap) : Option Heap :=
  let bp := ap - headerSize
  (search h.mem bp k h.freep).map fun p =>
    { h with mem := linkPrev (linkNext h.mem bp p) bp p, freep := p }

def sbrk (n : ℕ) (gap : Option ℕ) (h : Heap) : Option ℕ × Heap :=
  match gap with
  | none => (none, h)
  | some g =>
    (some (h.brk + g), { h with brk := h.brk + g + n, regions := (h.brk + g, n) :: h.regions })

def morecore (k : ℕ) (nu : UInt32) (gap : Option ℕ) (h : Heap) : Option (Bool × Heap) :=
  let nu := if nu < 4096 then 4096 else nu
  match sbrk (headerSize * nu.toNat) gap h with
  | (none, h) => some (false, h)
  | (some hp, h) =>
    let mem := update h.mem hp { h.mem hp with size := nu }
    (free k (hp + headerSize) { h with mem }).map fun h => (true, h)

/-- A block that is large enough is found at `p`: the pointer that `malloc` returns, and the heap.
-/
def take (nunits : UInt32) (prevp p : ℕ) (h : Heap) : ℕ × Heap :=
  if (h.mem p).size = nunits then
    let mem := update h.mem prevp { h.mem prevp with ptr := (h.mem p).ptr }
    (p + headerSize, { h with mem, freep := prevp })
  else
    let mem := update h.mem p { h.mem p with size := (h.mem p).size - nunits }
    let p := plus p (mem p).size
    let mem := update mem p { mem p with size := nunits }
    (p + headerSize, { h with mem, freep := prevp })

def mallocLoop (nunits : UInt32) : ℕ → List (Option ℕ) → ℕ → ℕ → Heap → Option (ℕ × Heap)
  | 0, _, _, _, _ => none
  | k + 1, gaps, prevp, p, h =>
    if nunits ≤ (h.mem p).size then some (take nunits prevp p h)
    else if p = h.freep then
      match morecore k nunits (gaps.headD none) h with
      | none => none
      | some (false, h) => some (0, h)
      | some (true, h) => mallocLoop nunits k gaps.tail h.freep (h.mem h.freep).ptr h
    else mallocLoop nunits k gaps p (h.mem p).ptr h

/-- The size of a block for `nbytes`, with its header. -/
def unitsFor (nbytes : UInt32) : UInt32 :=
  UInt32.ofNat ((nbytes.toNat + headerSize - 1) / headerSize + 1)

/-- `if((prevp = freep) == 0)`: the list is `base` alone. -/
def start (base : ℕ) (h : Heap) : Heap :=
  if h.freep = 0 then { h with mem := update h.mem base { ptr := base, size := 0 }, freep := base }
  else h

/-- `malloc(nbytes)`: the pointer, 0 if there is no memory, and the heap. -/
def malloc (base k : ℕ) (nbytes : UInt32) (gaps : List (Option ℕ)) (h : Heap) : Option (ℕ × Heap) :=
  let h := start base h
  mallocLoop (unitsFor nbytes) k gaps h.freep (h.mem h.freep).ptr h

/-! ### Programs -/

/-- The heap, and the pointers that a program has, with the bytes it asked for. -/
structure Sys where
  heap : Heap
  live : List (ℕ × UInt32)

/-- What a program does to its heap. -/
inductive Act where
  | malloc (k : ℕ) (nbytes : UInt32) (gaps : List (Option ℕ))
  | free (k ap : ℕ)
  /-- what is at `a`, read as a header, becomes `v` -/
  | store (a : ℕ) (v : Header)

def step (base : ℕ) (s : Sys) : Act → Option Sys
  | .malloc k nbytes gaps => (malloc base k nbytes gaps s.heap).map fun r =>
      { heap := r.2, live := if r.1 = 0 then s.live else (r.1, nbytes) :: s.live }
  | .free k ap =>
    (free k ap s.heap).map fun heap => { heap, live := s.live.eraseP fun x => x.1 = ap }
  | .store a v => some { s with heap := { s.heap with mem := update s.heap.mem a v } }

/-- A program asks for less than `2 ^ 31` bytes at a time, frees what it has, and stores into what
it has. -/
def Proper (s : Sys) : Act → Prop
  | .malloc _ nbytes _ => headerSize * (unitsFor nbytes).toNat < 2 ^ 31
  | .free _ ap => ∃ x ∈ s.live, x.1 = ap
  | .store a _ => ∃ x ∈ s.live, x.1 < a + headerSize ∧ a < x.1 + x.2.toNat

/-- Before the first call; `brk` is behind the data of the program. -/
def init (brk : ℕ) (mem : ℕ → Header) : Sys where
  heap := { mem, freep := 0, brk, regions := [] }
  live := []

/-! ### The heap invariant -/

/-- The block of a pointer that `malloc` returned. -/
def liveBlock (x : ℕ × UInt32) : Extent := (x.1 - headerSize, headerSize * (unitsFor x.2).toNat)

/-- A free block, from its address and its size. -/
def freeBlock (b : ℕ × ℕ) : Extent := (b.1, headerSize * b.2)

/-- The free blocks `fs`, each with its address and size, are a circular list through `base` that is
sorted by address and has no adjacent neighbours; with the live blocks they are the memory that
`sbrk` returned. -/
structure Sound (base : ℕ) (s : Sys) (fs : List (ℕ × ℕ)) : Prop where
  ring : Circles (fun a => (s.heap.mem a).ptr) (base :: fs.map Prod.fst)
  size : ∀ b ∈ fs, (s.heap.mem b.1).size.toNat = b.2
  freep : s.heap.freep ∈ base :: fs.map Prod.fst
  sorted : (base :: fs.map Prod.fst).Pairwise (· < ·)
  gaps : ∀ a ∈ base :: fs.map Prod.fst, (s.heap.mem a).ptr ≠ a →
    plus a (s.heap.mem a).size ≠ (s.heap.mem a).ptr
  tiles : Tiles (fs.map freeBlock ++ s.live.map liveBlock) s.heap.regions
  usable : ∀ x ∈ s.live, headerSize ≤ x.1 ∧ x.2.toNat + headerSize ≤ (liveBlock x).2

end Xv6.Malloc
