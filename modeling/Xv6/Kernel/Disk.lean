/-
# The disk between calls

`Consistent` is what `fsck` would check of an image: the free map marks the metadata and the blocks
that an inode points to, no block is pointed to twice, files have no holes, and a directory names
inodes that the disk has.  It holds after every completed call if it holds at boot.
-/

import Xv6.Kernel.Kill

namespace Xv6

open Lib

variable {b : Board} {sb : Superblock} {K : Multiset ℕ} {P : Finset ℕ} {s s₀ : Kernel} {p : Pp}
  {blocks : Disk} {mem : Mem}

/-! ### Consistent images -/

/-- The address of the `bn`-th block of a file, if it has one. -/
def Dinode.blockAddr (blocks : Disk) (d : Dinode) (bn : ℕ) : Option ℕ :=
  (slotOf bn).bind (d.place blocks)

/-- Every allocated inode has an address for each block below its size. -/
def Whole (sb : Superblock) (blocks : Disk) : Prop :=
  ∀ i < sb.ninodes, (dinodeAt sb blocks i).type ≠ 0 →
    ∀ bn < ((dinodeAt sb blocks i).size.toNat + BSIZE - 1) / BSIZE, (dinodeAt sb blocks i).blockAddr
    blocks bn ≠ none

instance : Decidable (Whole sb blocks) := inferInstanceAs (Decidable (∀ i < _, _ → ∀ bn < _, _))

def diskTable (sb : Superblock) (blocks : Disk) : Table sb := fun i => dinodeAt sb blocks i

/-- A well-formed image: exact bitmap, whole files, proper directories. -/
structure Consistent (sb : Superblock) (blocks : Disk) : Prop where
  bits : ∀ c < sb.nmeta, bitAt sb blocks c = true
  own : Exact (places (diskTable sb blocks) blocks) 0 (InUse sb blocks)
  full : Whole sb blocks
  dirs : ∀ i < sb.ninodes, (dinodeAt sb blocks i).type = T_DIR →
    ∀ k, DIRENT * k + DIRENT ≤ (dinodeAt sb blocks i).size.toNat →
      ofLE (bytesAt ((dinodeAt sb blocks i).fileBlock blocks) (DIRENT * k) 2) < sb.ninodes

theorem fileBlock_eq_map (blocks : Disk) (d : Dinode) (bn : ℕ) :
    d.fileBlock blocks bn = (d.blockAddr blocks bn).map blocks := by
  rw [Dinode.fileBlock, Dinode.blockAddr]
  cases slotOf bn <;> rfl

theorem lt_blocks_iff : bn < (size + BSIZE - 1) / BSIZE ↔ bn * BSIZE < size := by
  simp only [BSIZE]
  omega

theorem noHoles_iff :
    NoHoles blocks d ↔ ∀ bn < (d.size.toNat + BSIZE - 1) / BSIZE, d.blockAddr blocks bn ≠ none := by
  have hnone : ∀ bn, d.fileBlock blocks bn = none ↔ d.blockAddr blocks bn = none := fun bn => by
    rw [fileBlock_eq_map, Option.map_eq_none_iff]
  constructor
  · intro h bn hbn
    have := h (bn * BSIZE) (lt_blocks_iff.1 hbn)
    rwa [Nat.mul_div_cancel _ (by decide), ne_eq, hnone] at this
  · intro h p hp
    rw [ne_eq, hnone]
    refine h _ (lt_blocks_iff.2 ((Nat.div_mul_le_self p BSIZE).trans_lt hp))

theorem Consistent.inv (h : Consistent sb blocks) : Inv sb 0 ∅ ∅ (Fs.boot blocks) := by
  have hzero : ∀ ip : Ip, ¬0 < (0 : Ip → ℕ) ip := fun _ => lt_irrefl 0
  refine ⟨diskTable sb blocks,
    ⟨⟨h.bits, h.own, fun _ _ => rfl⟩, fun ip => ?_, fun ip _ hr => absurd hr (hzero ip)⟩,
    fun i ht => noHoles_iff.2 (h.full i i.isLt ht), fun i => h.dirs i i.isLt⟩
  exact ⟨rfl, fun hr => absurd hr (hzero ip), fun _ hr => absurd hr (hzero ip), by
    simp [Fs.boot], by simp, by simp⟩

theorem Inv.consistent (h : Inv sb R L W fs) : Consistent sb fs.blocks := by
  obtain ⟨T, ⟨hd, -⟩, hfile⟩ := h
  have hT : T = diskTable sb fs.blocks := funext fun i => (hd.disk i (Set.notMem_empty i)).symm
  subst hT
  exact ⟨hd.bits, hd.own, fun i hi ht => noHoles_iff.1 (hfile.full ⟨i, hi⟩ ht),
    fun i hi => hfile.dirs ⟨i, hi⟩⟩

/-- A block is marked if and only if it is metadata or one place names it, and no two places name
it. -/
def Owned (sb : Superblock) (blocks : Disk) : Prop := ∀ c < sb.size,
    (bitAt sb blocks c = true ↔ c < sb.nmeta ∨
      ∃! x, places (diskTable sb blocks) blocks x = some c) ∧
    ∀ x y, places (diskTable sb blocks) blocks x = some c →
      places (diskTable sb blocks) blocks y = some c → x = y

theorem owned_of_exact (hbits : ∀ c < sb.nmeta, bitAt sb blocks c = true)
    (h : Exact (places (diskTable sb blocks) blocks) 0 (InUse sb blocks)) : Owned sb blocks := by
  refine fun c hc => ⟨?_, fun x y hx hy => h.unique hx hy⟩
  rw [← h.used_iff]
  constructor
  · intro hbit
    rcases Nat.lt_or_ge c sb.nmeta with hlt | hge
    · exact .inl hlt
    · exact .inr ⟨hge, hc, hbit⟩
  · rintro (hlt | ⟨-, -, hbit⟩)
    · exact hbits c hlt
    · exact hbit

/-! ### Reads -/

/-- The read path, as it is between calls on a disk that stays as it is. -/
theorem read_rules (B : Disk) : ReadRules sb (fun e => e ≠ .panic .logOutside)
    (fun R L W fs => Inv sb R L W fs ∧ fs.blocks = B)
    (fun R L W fs => Inv sb R L W fs ∧ fs.blocks = B) where
  asleep := by simp
  weaken h := h
  ilock := by
    rintro R W fs ip ⟨⟨T, h, hfile⟩, hB⟩ hr
    exact h.wp_ilock_of (by simp) (by simp) hr fun s' _ h' hb _ =>
      ⟨⟨T, h', by rwa [hb]⟩, hb.trans hB⟩
  iunlock := by
    rintro R W fs ip ⟨⟨T, h, hfile⟩, hB⟩
    refine h.wp_iunlock (Finset.mem_singleton_self ip) fun s' h' hb _ =>
      ⟨⟨T, ?_, by rwa [hb]⟩, hb.trans hB⟩
    rwa [Finset.erase_singleton] at h'
  readi h := wp_readi_locked h.1 (Finset.mem_singleton_self _) fun _ => h

/-! ### Runs -/

/-- **Block ownership is exact.**  From a consistent image, after every completed sequence of calls
by any processes: a block is marked in the free map if and only if it is metadata or exactly one
slot of an allocated inode, or entry of its indirect block, points to it, and no block has two such
places.  So no call frees a free block. -/
theorem blocks_stay_owned (himg : Consistent sb blocks) (hm : Owns b.pages mem K)
    (hlen : 9 ≤ mem.freelist.length) (hb : Boots b sb blocks mem s₀)
    (h : Reach (Kernel.step b sb) Kernel.Calls s₀ s) : Owned sb s.fs.blocks ∧
    ∀ p (c : Call), (s.proc p).Live → (c.run b sb p).run s ≠ .error (.panic .bfreeFree) := by
  obtain ⟨P, hk⟩ := KInv.reach inv_rules himg.inv hm hlen hb h
  have hdisk := hk.fs.consistent
  refine ⟨owned_of_exact hdisk.bits hdisk.own, fun p c hl hrun => ?_⟩
  have := hk.stops inv_rules hl hrun
  cases this

/-- **Files never acquire holes.**  From a consistent image, after every completed sequence of calls
by any processes, with good or bad pointers and offsets shared by any descriptors: every allocated
inode has an address for each block below its size.  So a `read` leaves the disk as it is, and does
not reach the panic of `log_write` outside a transaction. -/
theorem files_stay_full (himg : Consistent sb blocks) (hm : Owns b.pages mem K)
    (hlen : 9 ≤ mem.freelist.length) (hb : Boots b sb blocks mem s₀)
    (h : Reach (Kernel.step b sb) Kernel.Calls s₀ s) : Whole sb s.fs.blocks ∧
    ∀ p fd addr n input, (s.proc p).Live → wp (sysRead sb p fd addr n input)
    (fun e => e ≠ .panic .logOutside)
        (fun _ s' => s'.fs.blocks = s.fs.blocks) s := by
  obtain ⟨P, hk⟩ := KInv.reach inv_rules himg.inv hm hlen hb h
  refine ⟨hk.fs.consistent.full, fun p fd addr n input hl => ?_⟩
  refine wp_mono (wp_sysRead (read_rules s.fs.blocks) (hk.withFs ⟨hk.fs, rfl⟩) hl) ?_
  rintro r s' ⟨P', hk', -⟩
  exact hk'.fs.2

/-! ### The image of `mkfs` -/

theorem tinyMem_owns : Owns tinyBoard.pages tinyMem 0 := by
  show (tinyMem.freelist : Multiset ℕ) + 0 =
    (Finset.Ico (npages tinyBoard.kend) (PHYSTOP / PGSIZE)).val
  decide +kernel

theorem diskTable_of_disk (h : DiskInv T ∅ 0 blocks) : diskTable sb blocks = T :=
  funext fun i => h.disk i (Set.notMem_empty i)

theorem mkfsImage_consistent : Consistent mkfsSb mkfsImage where
  bits := mkfsImage_disk.bits
  own := by
    rw [diskTable_of_disk mkfsImage_disk]
    exact mkfsImage_disk.own
  full := by decide +kernel
  dirs i hi ht k hk := by
    have hone : i = 1 := by
      have hall : ∀ i < mkfsSb.ninodes, (dinodeAt mkfsSb mkfsImage i).type = T_DIR → i = 1 := by
        decide +kernel
      exact hall i hi ht
    subst hone
    have hsize : (dinodeAt mkfsSb mkfsImage 1).size.toNat = 1024 := by decide +kernel
    have hall :
      ∀ k < 64, ofLE (bytesAt ((dinodeAt mkfsSb mkfsImage 1).fileBlock mkfsImage) (DIRENT * k) 2) <
        mkfsSb.ninodes := by decide +kernel
    refine hall k ?_
    rw [hsize] at hk
    simp only [DIRENT] at hk
    omega

theorem exists_after_boot (image : Disk) (as : List (Pp × Call)) (P : Kernel → Prop)
    [DecidablePred P] (h : wp (userinit tinyBoard mkfsSb) (fun _ => False) (fun _ s₀ =>
      (run (Kernel.step tinyBoard mkfsSb) Kernel.Calls s₀ as).map
      (fun s => decide (P s)) = some true) (Kernel.start image tinyMem)) :
    ∃ s₀ s : Kernel, Boots tinyBoard mkfsSb image tinyMem s₀ ∧
      Reach (Kernel.step tinyBoard mkfsSb) Kernel.Calls s₀ s ∧ P s := by
  obtain ⟨⟨⟩, s₀, hboot, hrun⟩ := exists_run_of_wp h
  obtain ⟨s, hreach, hs⟩ := exists_reach_of_run hrun
  exact ⟨s₀, s, hboot, hreach, of_decide_eq_true hs⟩

/-- Init opens the file `f` of `mkfsImage` and writes one byte to it. -/
def mkfsRun : List (Pp × Call) :=
  [(0, .store 2048 [102, 0]), (0, .open 2048 O_RDWR), (0, .write 0 3000 1)]

def openRun : List (Pp × Call) := mkfsRun.take 2

theorem blocks_stay_owned_mkfs : ∃ s₀ s : Kernel, Consistent mkfsSb mkfsImage ∧
    Owns tinyBoard.pages tinyMem 0 ∧ 9 ≤ tinyMem.freelist.length ∧
    Boots tinyBoard mkfsSb mkfsImage tinyMem s₀ ∧
    Reach (Kernel.step tinyBoard mkfsSb) Kernel.Calls s₀ s ∧
    (dinodeAt mkfsSb s.fs.blocks 2).size = 1 ∧ Owned mkfsSb s.fs.blocks ∧ (s.proc 0).Live ∧
    ((Call.unlink 2048).run tinyBoard mkfsSb 0).run s ≠ .error (.panic .bfreeFree) := by
  obtain ⟨s₀, s, hboot, hreach, hsize, hlive⟩ := exists_after_boot mkfsImage mkfsRun
    (fun s => (dinodeAt mkfsSb s.fs.blocks 2).size = 1 ∧ (s.proc 0).Live) (by decide +kernel)
  obtain ⟨hown, hfree⟩ :=
    blocks_stay_owned mkfsImage_consistent tinyMem_owns (by decide) hboot hreach
  exact ⟨s₀, s, mkfsImage_consistent, tinyMem_owns, by decide, hboot, hreach, hsize, hown, hlive,
    hfree 0 (.unlink 2048) hlive⟩

theorem files_stay_full_mkfs :
    ∃ s₀ s : Kernel, Consistent mkfsSb mkfsImage ∧ Owns tinyBoard.pages tinyMem 0 ∧
    9 ≤ tinyMem.freelist.length ∧ Boots tinyBoard mkfsSb mkfsImage tinyMem s₀ ∧
    Reach (Kernel.step tinyBoard mkfsSb) Kernel.Calls s₀ s ∧
    (dinodeAt mkfsSb s.fs.blocks 2).size = 1 ∧ Whole mkfsSb s.fs.blocks ∧ (s.proc 0).Live ∧
    wp (sysRead mkfsSb 0 0 1024 1 []) (fun e => e ≠ .panic .logOutside)
      (fun _ s' => s'.fs.blocks = s.fs.blocks) s := by
  obtain ⟨s₀, s, hboot, hreach, hsize, hlive⟩ := exists_after_boot mkfsImage mkfsRun
    (fun s => (dinodeAt mkfsSb s.fs.blocks 2).size = 1 ∧ (s.proc 0).Live) (by decide +kernel)
  obtain ⟨hfull, hread⟩ := files_stay_full mkfsImage_consistent tinyMem_owns
    (by decide) hboot hreach
  exact ⟨s₀, s, mkfsImage_consistent, tinyMem_owns, by decide, hboot, hreach, hsize, hfull, hlive,
    hread 0 0 1024 1 [] hlive⟩

/-! ### Damaged images -/

/-- The root directory of `mkfsImage` with an entry for inode 208, which the disk does not have:
where it would be is the free map. -/
def strayDir : Block :=
  fun o => if o.val = 32 then 208 else if o.val = 34 then 103 else mkfsRootDir o

def strayImage : Disk := Function.update mkfsImage 46 strayDir

theorem strayImage_owned : Owned mkfsSb strayImage := by
  have hind : ∀ i, places mkfsTable mkfsImage (i, .indirect) ≠ some 46 := fun i => by
    rw [places_mkfsImage, Function.update_of_ne (by simp)]
    simp
  have h : DiskInv mkfsTable ∅ 0 strayImage := mkfsImage_disk.write_data le_rfl hind strayDir
  refine owned_of_exact h.bits ?_
  rw [diskTable_of_disk h]
  exact h.own

theorem three_lt_ninodes : 3 < mkfsSb.ninodes := by decide

def newNum : Fin mkfsSb.ninodes := ⟨3, three_lt_ninodes⟩

/-- Init opens `g`, the stray entry, and a new file `h`, writes one byte to `h` and one to `g`, and
closes `h`. -/
def strayRun : List (Pp × Call) :=
  [(0, .store 2048 [103, 0, 104, 0]), (0, .open 2048 O_RDWR), (0, .open 2050 (O_CREATE ||| O_RDWR)),
    (0, .write 1 3000 1), (0, .write 0 3000 1), (0, .close 1)]

/-- **A stray directory entry breaks the free map.**  Block ownership is exact on the image and no
file has a hole.  The write to inode 208 puts the copy of it that was read at `open` back into the
free map, and so clears the bit of the block that `h` got in between.  Unlinking `h` then panics. -/
theorem stray_entry_frees_free_block : Owned mkfsSb strayImage ∧ Whole mkfsSb strayImage ∧
    ∃ s₀ s : Kernel, Boots tinyBoard mkfsSb strayImage tinyMem s₀ ∧
      Reach (Kernel.step tinyBoard mkfsSb) Kernel.Calls s₀ s ∧ ¬Owned mkfsSb s.fs.blocks ∧
      (s.proc 0).Live ∧
      ((Call.unlink 2050).run tinyBoard mkfsSb 0).run s = .error (.panic .bfreeFree) := by
  have hfull : Whole mkfsSb strayImage := by decide +kernel
  obtain ⟨s₀, s, hboot, hreach, hbit, hplace, hlive, hunlink⟩ :=
    exists_after_boot strayImage strayRun (fun s =>
    bitAt mkfsSb s.fs.blocks 47 = false ∧
      places (diskTable mkfsSb s.fs.blocks) s.fs.blocks (newNum, .direct 0) = some 47 ∧
      (s.proc 0).Live ∧
      wp ((Call.unlink 2050).run tinyBoard mkfsSb 0) (fun e => e = .panic .bfreeFree)
        (fun _ _ => False) s)
    (by decide +kernel)
  refine ⟨strayImage_owned, hfull, s₀, s, hboot, hreach, fun hown => ?_, hlive, ?_⟩
  · obtain ⟨hiff, huniq⟩ := hown 47 (by decide)
    have := hiff.2 (.inr ⟨_, hplace, fun y hy => huniq y _ hy hplace⟩)
    rw [hbit] at this
    cases this
  · exact run_error_of_wp hunlink

/-- A file of 13 blocks, the last of them through the indirect block 62. -/
def longFile : Dinode where
  type := T_FILE
  major := 0
  minor := 0
  nlink := 1
  size := 13312
  addrs k := 50 + UInt32.ofNat k

/-- A file of four bytes, with the same block 62. -/
def sharedFile : Dinode where
  type := T_FILE
  major := 0
  minor := 0
  nlink := 1
  size := 4
  addrs k := if k.val = 0 then 62 else 0

def sharedDir : Block :=
  fun o => if o.val = 48 then 3 else if o.val = 50 then 103 else mkfsRootDir o

def sharedImage : Disk := fun b =>
  if b = 32 then putDinode (putDinode (putDinode zeroBlock 1 mkfsRoot) 2 longFile) 3 sharedFile
  else if b = 45 then fun o => if o.val < 8 then 255 else 0
  else if b = 46 then sharedDir
  else if b = 62 then fun o => if o.val = 0 then 63 else 0
  else zeroBlock

def sharedRun : List (Pp × Call) :=
  [(0, .store 2048 [103, 0]), (0, .open 2048 O_RDWR), (0, .write 0 3000 4)]

/-- **A shared block makes a hole.**  No file of the image has a hole, but the bytes of `g` are an
address of `f`: after the write the last block of `f` is gone. -/
theorem shared_block_makes_hole : Whole mkfsSb sharedImage ∧
    ∃ s₀ s : Kernel, Boots tinyBoard mkfsSb sharedImage tinyMem s₀ ∧
      Reach (Kernel.step tinyBoard mkfsSb) Kernel.Calls s₀ s ∧ ¬Whole mkfsSb s.fs.blocks := by
  have hfull : Whole mkfsSb sharedImage := by decide +kernel
  exact ⟨hfull, exists_after_boot sharedImage sharedRun (fun s => ¬Whole mkfsSb s.fs.blocks)
    (by decide +kernel)⟩

end Xv6
