/-
# A disk as `mkfs` lays it out

The super block that `mkfs` computes for 1000 blocks, 200 inodes and a log of 30 blocks, and an
image with a root directory, inode 1, and one empty file `f` in it, inode 2.  It satisfies every
invariant of the file system.
-/

import Xv6.Fs.Content
import Mathlib.Algebra.BigOperators.Ring.Finset

namespace Xv6

open Lib Function

theorem mkfs_size_lt : 1000 < 2 ^ 31 := by norm_num

theorem mkfs_root_fits : ROOTINO < 200 := by norm_num

/-- The super block of `mkfs`: 46 metadata blocks, 954 data blocks. -/
def mkfsSb : Superblock where
  size := 1000
  nblocks := 954
  ninodes := 200
  nlog := LOGSIZE
  logstart := 2
  inodestart := 32
  bmapstart := 45
  super_fits := le_rfl
  log_fits := le_rfl
  root_fits := mkfs_root_fits
  inodes_fit := le_rfl
  bitmap_fits := le_rfl
  size_lt := mkfs_size_lt

theorem one_lt_ninodes : 1 < mkfsSb.ninodes := by decide

theorem two_lt_ninodes : 2 < mkfsSb.ninodes := by decide

def rootNum : Fin mkfsSb.ninodes := ⟨1, one_lt_ninodes⟩

def fileNum : Fin mkfsSb.ninodes := ⟨2, two_lt_ninodes⟩

/-- The free map with its first 47 bits set. -/
def mkfsBitmap : Block := fun o => if o.val < 5 then 255 else if o.val = 5 then 127 else 0

def mkfsRootDir : Block := fun o =>
  if o.val = 0 ∨ o.val = 16 then 1
  else if o.val = 2 ∨ o.val = 18 ∨ o.val = 19 then 46
  else if o.val = 32 then 2
  else if o.val = 34 then 102
  else 0

def mkfsRoot : Dinode where
  type := T_DIR
  major := 0
  minor := 0
  nlink := 1
  size := 1024
  addrs k := if k = 0 then 46 else 0

def mkfsFile : Dinode := { Dinode.fresh T_FILE with nlink := 1 }

def mkfsImage : Disk := fun b =>
  if b = 32 then putDinode (putDinode zeroBlock 1 mkfsRoot) 2 mkfsFile
  else if b = 45 then mkfsBitmap
  else if b = 46 then mkfsRootDir
  else zeroBlock

def mkfsTable : Table mkfsSb := fun i =>
  if i.val = 1 then mkfsRoot else if i.val = 2 then mkfsFile else Dinode.fresh 0

theorem field_zeroBlock (w o : ℕ) : zeroBlock.field w o = 0 := by
  have hread : zeroBlock.read o w = List.replicate w 0 := by
    refine List.ext_getElem (by simp) fun i h₁ h₂ => ?_
    simp [Bytes.read, get_zeroBlock]
  have hzero : ∀ w, ofLE (List.replicate w 0) = 0 := by
    intro w
    induction w with
    | zero => rfl
    | succ w ih => simp [List.replicate_succ, ofLE, ih]
  rw [Bytes.field, hread, hzero]

theorem getDinode_zeroBlock (k : ℕ) : getDinode zeroBlock k = Dinode.fresh 0 := by
  ext <;> simp [getDinode, u16, u32, field_zeroBlock, Dinode.fresh]

theorem dinodeAt_mkfsImage (i : Fin mkfsSb.ninodes) :
    dinodeAt mkfsSb mkfsImage i = mkfsTable i := by
  have hi : i.val < 200 := i.isLt
  have hB : mkfsSb.IBLOCK i = i.val / 16 + 32 := rfl
  unfold dinodeAt mkfsTable
  rw [hB]
  by_cases h16 : i.val / 16 = 0
  · have hmod : i.val % IPB = i.val := by simp only [IPB]; omega
    rw [h16, hmod, mkfsImage, if_pos rfl]
    split_ifs with h₁ h₂
    · rw [h₁, getDinode_putDinode_of_ne _ (by decide), getDinode_putDinode _ (by decide)]
    · rw [h₂, getDinode_putDinode _ (by decide)]
    · rw [getDinode_putDinode_of_ne _ h₂, getDinode_putDinode_of_ne _ h₁, getDinode_zeroBlock]
  · have h₁ : i.val ≠ 1 := fun h => h16 (by rw [h])
    have h₂ : i.val ≠ 2 := fun h => h16 (by rw [h])
    rw [mkfsImage, if_neg (by omega), if_neg (by omega), if_neg (by omega), if_neg h₁, if_neg h₂,
      getDinode_zeroBlock]

theorem bitAt_mkfsImage (h : b < 1000) : bitAt mkfsSb mkfsImage b = decide (b < 47) := by
  have hall : ∀ b < 1000, bitSet mkfsBitmap b = decide (b < 47) := by decide +kernel
  have hB : mkfsSb.BBLOCK b = 45 := by
    show b / 8192 + 45 = 45
    omega
  have hmod : b % BPB = b := by simp only [BPB]; omega
  rw [bitAt, hB, hmod]
  exact hall b h

theorem place_of_addrs_zero {d : Dinode} (h : ∀ k, d.addrs k = 0) (blocks : Disk) (sl : Slot) :
    d.place blocks sl = none := by
  by_cases ht : d.type = 0
  · exact Dinode.place_of_free ht sl
  · cases sl with
    | direct i => rw [Dinode.place_direct ht, h, ptr_zero]
    | indirect => rw [Dinode.place_indirect ht, h, ptr_zero]
    | entry j => rw [Dinode.place_entry ht, Dinode.place_indirect ht, h, ptr_zero, Option.bind_none]

theorem place_mkfsRoot (blocks : Disk) (sl : Slot) :
    mkfsRoot.place blocks sl = if sl = .direct 0 then some 46 else none := by
  have ht : mkfsRoot.type ≠ 0 := by decide
  have hlast : mkfsRoot.addrs (Fin.last NDIRECT) = 0 := rfl
  cases sl with
  | direct i =>
    rw [Dinode.place_direct ht]
    by_cases hi : i = 0
    · rw [hi, if_pos rfl]
      rfl
    · have hz : mkfsRoot.addrs i.castSucc = 0 :=
        if_neg fun hc => hi (Fin.ext (by simpa using congrArg Fin.val hc))
      rw [hz, if_neg (by simpa using hi), ptr_zero]
  | indirect => rw [Dinode.place_indirect ht, hlast, ptr_zero, if_neg (by simp)]
  | entry j =>
    rw [Dinode.place_entry ht, Dinode.place_indirect ht, hlast, ptr_zero, Option.bind_none,
      if_neg (by simp)]

theorem places_mkfsImage :
    places mkfsTable mkfsImage = update (fun _ => none) (rootNum, .direct 0) (some 46) := by
  funext p
  obtain ⟨i, sl⟩ := p
  by_cases hi : i = rootNum
  · rw [hi]
    have hplace : places mkfsTable mkfsImage (rootNum, sl) = mkfsRoot.place mkfsImage sl := rfl
    rw [hplace, place_mkfsRoot, update_apply]
    simp
  · have hi' : i.val ≠ 1 := fun h => hi (Fin.ext h)
    rw [update_of_ne (by simp [hi])]
    refine place_of_addrs_zero (fun k => ?_) _ sl
    simp only [mkfsTable, if_neg hi']
    split_ifs <;> rfl

/-- **The image has exact block ownership.** -/
theorem mkfsImage_disk : DiskInv mkfsTable ∅ 0 mkfsImage where
  bits b hb := by
    have hb : b < 46 := hb
    rw [bitAt_mkfsImage (by omega), decide_eq_true_eq]
    omega
  own := by
    rw [places_mkfsImage]
    refine Exact.store (a := 46) (fun b => ?_) rfl
    have hnone : owners (fun _ : Fin mkfsSb.ninodes × Slot => none) b = 0 := by simp [owners]
    have huse : InUse mkfsSb mkfsImage b ↔ b = 46 := by
      constructor
      · rintro ⟨h₁, h₂, h₃⟩
        have h₁ : 46 ≤ b := h₁
        rw [bitAt_mkfsImage h₂, decide_eq_true_eq] at h₃
        omega
      · rintro rfl
        exact ⟨le_rfl, by decide, by rw [bitAt_mkfsImage (by decide)]; rfl⟩
    rw [hnone, Nat.zero_add, Multiset.cons_zero, Multiset.count_singleton]
    exact if_congr huse.symm rfl rfl
  disk i _ := dinodeAt_mkfsImage i

/-- The image in memory: the file is in the first entry of the inode cache, locked, and
a transaction is open. -/
def mkfsFs : Fs where
  blocks := mkfsImage
  inode ip :=
    if ip = 0 then { mkfsFile with dev := ROOTDEV, inum := 2, ref := 1, locked := true, valid := true }
    else { Dinode.fresh 0 with dev := 0, inum := 0, ref := 0, locked := false, valid := false }
  outstanding := 1
  lh := []

def mkfsRefs : Ip → ℕ := fun ip => if ip = 0 then 1 else 0

theorem eq_zero_of_mkfsRefs (h : 0 < mkfsRefs ip) : ip = 0 := by
  by_contra hne
  rw [mkfsRefs, if_neg hne] at h
  exact absurd h (by decide)

theorem mkfsFs_inv : FsInv mkfsTable ∅ mkfsRefs {0} ∅ mkfsFs where
  disk := mkfsImage_disk
  cache :=
    { entry := fun ip => by
        by_cases hip : ip = 0
        · subst hip
          exact ⟨rfl, fun _ => ⟨rfl, by decide⟩, fun n _ hn _ => by
              have hn : n = fileNum := Fin.ext hn.symm
              subst hn
              exact ⟨rfl, by decide⟩,
            by simp [mkfsFs], fun _ => ⟨by decide, rfl⟩, by simp⟩
        · have hr : mkfsRefs ip = 0 := if_neg hip
          rw [hr]
          exact ⟨by simp [mkfsFs, hip], fun h => absurd h (by decide),
            fun _ h => absurd h (by decide), by simp [mkfsFs, hip], by simp [hip], by simp⟩
      uniq := fun ip jp hi hj _ => by rw [eq_zero_of_mkfsRefs hi, eq_zero_of_mkfsRefs hj] }

theorem mkfsFs_live : Live mkfsRefs mkfsFs.inode 0 fileNum := ⟨by decide, rfl, rfl⟩

end Xv6
