/-
# Pages and page tables

`kernel/kalloc.c` and `kernel/vm.c`.  Physical memory is a page for each page number; a pointer to a
page-table entry is the page and the index in it.  `Mem.entry m root d v` is the entry at depth `d`
on the way to the virtual pages that start with the digits `v` in base 512.  `uint64`s are natural
numbers, with the wrap-around written out where it can happen.
-/

import Xv6.Halt
import Xv6.Lib.Bytes
import Xv6.Lib.Radix
import Xv6.Lib.Wp

namespace Xv6

open Lib

/-- Bytes per page. -/
abbrev PGSIZE : ℕ := 4096

/-- Entries of a page-table page. -/
abbrev NPTE : ℕ := 512

abbrev KERNBASE : ℕ := 0x80000000

/-- End of the RAM that the kernel uses. -/
abbrev PHYSTOP : ℕ := KERNBASE + 128 * 1024 * 1024

/-- One bit less than the most that Sv39 allows. -/
abbrev MAXVA : ℕ := 2 ^ 38

abbrev TRAMPOLINE : ℕ := MAXVA - PGSIZE

abbrev TRAPFRAME : ℕ := TRAMPOLINE - PGSIZE

def pgroundup (sz : ℕ) : ℕ := (sz + PGSIZE - 1) % 2 ^ 64 / PGSIZE * PGSIZE

def pgrounddown (a : ℕ) : ℕ := a / PGSIZE * PGSIZE

abbrev Page : Type := Bytes PGSIZE

def memset (c : UInt8) : Page := fun _ => c

/-! ### Page-table entries -/

abbrev PTE_V : ℕ := 1
abbrev PTE_R : ℕ := 2
abbrev PTE_W : ℕ := 4
abbrev PTE_X : ℕ := 8
abbrev PTE_U : ℕ := 16

/-- `*pte & PTE_V`. -/
abbrev PteValid (pte : ℕ) : Prop := pte % 2 = 1

/-- `*pte & (PTE_R|PTE_W|PTE_X)`. -/
abbrev PteLeaf (pte : ℕ) : Prop := pte / 2 % 8 ≠ 0

/-- `*pte & PTE_U`. -/
abbrev PteUser (pte : ℕ) : Prop := pte / 16 % 2 = 1

def pteFlags (pte : ℕ) : ℕ := pte % 1024

/-- The page number of `PTE2PA(pte)`. -/
def ptePage (pte : ℕ) : ℕ := pte / 1024 % 2 ^ 52

/-- `PA2PTE(pa) | perm | PTE_V` for the page `pa`. -/
def mkPte (pa perm : ℕ) : ℕ := pa * 1024 % 2 ^ 64 + (perm ||| PTE_V)

/-- A table of 512 entries, as the MMU walks it. -/
def sv39 : Radix ℕ ℕ where
  child pte := if PteValid pte then some (ptePage pte) else none
  zero := 0
  B := NPTE
  child_zero := rfl
  B_pos := Nat.succ_pos _

/-! ### Physical memory -/

/-- Physical memory, and the list of free pages. -/
structure Mem where
  page : ℕ → Page
  freelist : List ℕ

/-- What the linker decides: the address `end`, and the page of the trampoline code,
which is inside the kernel. -/
structure Board where
  kend : ℕ
  trampoline : ℕ
  trampoline_ge : KERNBASE ≤ trampoline * PGSIZE
  trampoline_lt : trampoline * PGSIZE + PGSIZE ≤ kend

abbrev MemM : Type → Type := Prog Mem Halt

variable (b : Board)

/-- The pages that the allocator manages. -/
abbrev Board.Manages (pa : ℕ) : Prop := b.kend ≤ pa * PGSIZE ∧ pa * PGSIZE < PHYSTOP

def Mem.setPage (m : Mem) (pa : ℕ) (pg : Page) : Mem :=
  { m with page := Function.update m.page pa pg }

def Mem.pte (m : Mem) (pagetable i : ℕ) : ℕ := (m.page pagetable).field 8 (8 * i)

def Mem.setPte (m : Mem) (pagetable i pte : ℕ) : Mem :=
  m.setPage pagetable ((m.page pagetable).setField 8 (8 * i) pte)

/-- The entry that the walk from `root` finds at depth `d` on the path `v`. -/
def Mem.entry (m : Mem) (root d v : ℕ) : ℕ := sv39.entry m.pte root d v

def kfree (pa : ℕ) : MemM PUnit := do
  if b.Manages pa then
    modify fun m => { m.setPage pa (memset 1) with freelist := pa :: m.freelist }
  else throw (.panic .kfree)

def kalloc : MemM (Option ℕ) := do
  let m ← get
  match m.freelist with
  | [] => return none
  | r :: next =>
    set { m.setPage r (memset 5) with freelist := next }
    return some r

def setPage (pa : ℕ) (pg : Page) : MemM PUnit := modify fun m => m.setPage pa pg

def setPte (pagetable i pte : ℕ) : MemM PUnit := modify fun m => m.setPte pagetable i pte

/-! ### `walk` and `mappages` -/

def PX (level va : ℕ) : ℕ := va / PGSIZE / NPTE ^ level % NPTE

def walkFrom (va : ℕ) (alloc : Bool) : ℕ → ℕ → MemM (Option (ℕ × ℕ))
  | 0, pagetable => return some (pagetable, PX 0 va)
  | level + 1, pagetable => do
    let pte := (← get).pte pagetable (PX (level + 1) va)
    if PteValid pte then walkFrom va alloc level (ptePage pte)
    else if alloc then
      match ← kalloc with
      | none => return none
      | some next =>
        setPage next (memset 0)
        setPte pagetable (PX (level + 1) va) (mkPte next 0)
        walkFrom va alloc level next
    else return none

/-- Return the address of the PTE in page table `pagetable` that corresponds to virtual
address `va`.  If `alloc`, create any required page-table pages. -/
def walk (pagetable va : ℕ) (alloc : Bool) : MemM (Option (ℕ × ℕ)) := do
  if MAXVA ≤ va then throw (.panic .walk) else walkFrom va alloc 2 pagetable

/-- Look up a virtual address: the physical page, if it is mapped for the user.  Page 0
counts as not mapped. -/
def Mem.walkaddr (m : Mem) (pagetable va : ℕ) : Option ℕ :=
  let pte := m.entry pagetable 2 (va / PGSIZE)
  if va < MAXVA ∧ PteValid pte ∧ PteUser pte ∧ ptePage pte ≠ 0 then some (ptePage pte) else none

/-- One round of `mappages`: whether there was room for the entry. -/
def mapPage (pagetable perm a pa : ℕ) : MemM Bool := do
  match ← walk pagetable a true with
  | none => return false
  | some (pt, i) =>
    if PteValid ((← get).pte pt i) then throw (.panic .remap)
    else
      setPte pt i (mkPte pa perm)
      return true

def mappagesFrom (pagetable perm : ℕ) : ℕ → ℕ → ℕ → MemM ℤ
  | 0, a, pa => do
    if ← mapPage pagetable perm a pa then return 0 else return -1
  | n + 1, a, pa => do
    if ← mapPage pagetable perm a pa then mappagesFrom pagetable perm n (a + PGSIZE) (pa + 1)
    else return -1

/-- Create PTEs for virtual addresses starting at `va` that refer to physical pages
starting at `pa`. -/
def mappages (pagetable va size pa perm : ℕ) : MemM ℤ :=
  let a := pgrounddown va
  let last := pgrounddown (va + size - 1)
  mappagesFrom pagetable perm ((last - a) / PGSIZE) a pa

/-! ### User address spaces -/

def unmapPage (pagetable a : ℕ) (doFree : Bool) : MemM PUnit := do
  match ← walk pagetable a false with
  | none => throw (.panic .uvmunmapWalk)
  | some (pt, i) =>
    let pte := (← get).pte pt i
    if ¬PteValid pte then throw (.panic .uvmunmapNotMapped)
    else if pteFlags pte = PTE_V then throw (.panic .uvmunmapNotLeaf)
    else
      if doFree then kfree b (ptePage pte)
      setPte pt i 0

/-- Remove `npages` of mappings starting from `va`.  The mappings must exist.
Optionally free the physical memory. -/
def uvmunmap (pagetable va npages : ℕ) (doFree : Bool) : MemM PUnit := do
  if va % PGSIZE ≠ 0 then throw (.panic .uvmunmapAlign)
  else forM (List.range npages) fun k => unmapPage b pagetable (va + k * PGSIZE) doFree

def uvmcreate : MemM (Option ℕ) := do
  match ← kalloc with
  | none => return none
  | some pagetable =>
    setPage pagetable (memset 0)
    return some pagetable

def uvmdealloc (pagetable oldsz newsz : ℕ) : MemM ℕ := do
  if oldsz ≤ newsz then return oldsz
  else
    if pgroundup newsz < pgroundup oldsz then
      uvmunmap b pagetable (pgroundup newsz) ((pgroundup oldsz - pgroundup newsz) / PGSIZE) true
    return newsz

/-- The loop of `uvmalloc`, with `n` pages to go from `a` on; whether it got them all. -/
def uvmallocFrom (pagetable oldsz : ℕ) : ℕ → ℕ → MemM Bool
  | 0, _ => return true
  | n + 1, a => do
    match ← kalloc with
    | none =>
      let _ ← uvmdealloc b pagetable a oldsz
      return false
    | some mem =>
      setPage mem (memset 0)
      if (← mappages pagetable a PGSIZE mem (PTE_W ||| PTE_X ||| PTE_R ||| PTE_U)) ≠ 0 then
        kfree b mem
        let _ ← uvmdealloc b pagetable a oldsz
        return false
      else uvmallocFrom pagetable oldsz n (a + PGSIZE)

/-- Allocate PTEs and physical memory to grow process from `oldsz` to `newsz`, which need
not be page aligned.  Returns the new size or 0 on error. -/
def uvmalloc (pagetable oldsz newsz : ℕ) : MemM ℕ := do
  if newsz < oldsz then return oldsz
  else
    let oldsz := pgroundup oldsz
    if ← uvmallocFrom b pagetable oldsz ((newsz - oldsz + PGSIZE - 1) / PGSIZE) oldsz then
    return newsz else return 0

/-- Recursively free page-table pages.  All leaf mappings must already have been
removed. -/
def freewalk : ℕ → ℕ → MemM PUnit
  | 0, _ => throw .diverge
  | fuel + 1, pagetable => do
    forM (List.range NPTE) fun i => do
      let pte := (← get).pte pagetable i
      if PteValid pte ∧ ¬PteLeaf pte then
        freewalk fuel (ptePage pte)
        setPte pagetable i 0
      else if PteValid pte then throw (.panic .freewalkLeaf)
    kfree b pagetable

def uvmfree (pagetable sz : ℕ) : MemM PUnit := do
  if 0 < sz then uvmunmap b pagetable 0 (pgroundup sz / PGSIZE) true
  freewalk b 3 pagetable

def uvmcopyFrom (old new : ℕ) : ℕ → ℕ → MemM ℤ
  | 0, _ => return 0
  | n + 1, i => do
    match ← walk old (i * PGSIZE) false with
    | none => throw (.panic .uvmcopyExist)
    | some (pt, j) =>
      let pte := (← get).pte pt j
      if ¬PteValid pte then throw (.panic .uvmcopyPresent)
      else
        match ← kalloc with
        | none => err i
        | some mem =>
          setPage mem ((← get).page (ptePage pte))
          if (← mappages new (i * PGSIZE) PGSIZE mem (pteFlags pte)) ≠ 0 then
            kfree b mem
            err i
          else uvmcopyFrom old new n (i + 1)
where
  err (i : ℕ) : MemM ℤ := do
    uvmunmap b new 0 i true
    return -1

/-- Given a parent process's page table, copy its memory into a child's page table. -/
def uvmcopy (old new sz : ℕ) : MemM ℤ := uvmcopyFrom b old new ((sz + PGSIZE - 1) / PGSIZE) 0

def uvmclear (pagetable va : ℕ) : MemM PUnit := do
  match ← walk pagetable va false with
  | none => throw (.panic .uvmclear)
  | some (pt, i) =>
    let pte := (← get).pte pt i
    setPte pt i (if PteUser pte then pte - PTE_U else pte)

/-! ### Copying between kernel and user -/

/-- The loop of `copyout`; `fuel` bounds the rounds, of which each copies a byte or
more. -/
def copyoutFrom (pagetable : ℕ) : ℕ → ℕ → List UInt8 → MemM ℤ
  | 0, _, _ => return 0
  | fuel + 1, dstva, src => do
    if src = [] then return 0
    else
      match (← get).walkaddr pagetable (pgrounddown dstva) with
      | none => return -1
      | some pa =>
        let n := PGSIZE - dstva % PGSIZE
        setPage pa (((← get).page pa).splice (dstva % PGSIZE) (src.take n))
        copyoutFrom pagetable fuel (pgrounddown dstva + PGSIZE) (src.drop n)

def copyout (pagetable dstva : ℕ) (src : List UInt8) : MemM ℤ :=
  copyoutFrom pagetable src.length dstva src

/-- The loop of `copyin`: the bytes copied, and whether all of them were. -/
def Mem.copyinFrom (m : Mem) (pagetable : ℕ) : ℕ → ℕ → ℕ → List UInt8 × Bool
  | 0, _, _ => ([], true)
  | fuel + 1, srcva, len =>
    if len = 0 then ([], true)
    else match m.walkaddr pagetable (pgrounddown srcva) with
      | none => ([], false)
      | some pa =>
        let n := min len (PGSIZE - srcva % PGSIZE)
        let r := m.copyinFrom pagetable fuel (pgrounddown srcva + PGSIZE) (len - n)
        ((m.page pa).read (srcva % PGSIZE) n ++ r.1, r.2)

def Mem.copyin (m : Mem) (pagetable srcva len : ℕ) : List UInt8 × Bool :=
  m.copyinFrom pagetable len srcva len

def Mem.copyinstrFrom (m : Mem) (pagetable : ℕ) : ℕ → ℕ → ℕ → Option (List UInt8)
  | 0, _, _ => none
  | fuel + 1, srcva, max =>
    if max = 0 then none
    else match m.walkaddr pagetable (pgrounddown srcva) with
      | none => none
      | some pa =>
        let n := min max (PGSIZE - srcva % PGSIZE)
        let p := (m.page pa).read (srcva % PGSIZE) n
        let str := p.takeWhile (· ≠ 0)
        if str.length < p.length then some str
        else (m.copyinstrFrom pagetable fuel (pgrounddown srcva + PGSIZE) (max - n)).map (p ++ ·)

/-- Copy a null-terminated string from user to kernel: its bytes before the NUL. -/
def Mem.copyinstr (m : Mem) (pagetable srcva max : ℕ) : Option (List UInt8) :=
  m.copyinstrFrom pagetable max srcva max

/-! ### The page table of a process -/

/-- Create a user page table for a process with the given trapframe, with no user
memory, but with trampoline pages. -/
def procPagetable (trapframe : ℕ) : MemM (Option ℕ) := do
  match ← uvmcreate with
  | none => return none
  | some pagetable =>
    if (← mappages pagetable TRAMPOLINE PGSIZE b.trampoline (PTE_R ||| PTE_X)) < 0 then
      uvmfree b pagetable 0
      return none
    else if (← mappages pagetable TRAPFRAME PGSIZE trapframe (PTE_R ||| PTE_W)) < 0 then
      uvmunmap b pagetable TRAMPOLINE 1 false
      uvmfree b pagetable 0
      return none
    else return some pagetable

def procFreepagetable (pagetable sz : ℕ) : MemM PUnit := do
  uvmunmap b pagetable TRAMPOLINE 1 false
  uvmunmap b pagetable TRAPFRAME 1 false
  uvmfree b pagetable sz

end Xv6
