/-
# The on-disk format

`kernel/fs.h`: the disk is

    boot block | super block | log | inode blocks | free bit map | data blocks

An inode is 64 bytes; the free map has one bit per block; a directory is a sequence of 16-byte
entries.  The C fields are fixed-width here, so that reading a `struct dinode` back has no side
condition.
-/

import Xv6.Param
import Mathlib.Tactic.IntervalCases

namespace Xv6

open Lib

/-- Direct block addresses of an inode. -/
abbrev NDIRECT : ℕ := 12

/-- Block addresses in an indirect block, `BSIZE / sizeof(uint)`. -/
abbrev NINDIRECT : ℕ := 256

/-- Largest file, in blocks. -/
abbrev MAXFILE : ℕ := 268

/-- Inodes per block, `BSIZE / sizeof(struct dinode)`. -/
abbrev IPB : ℕ := 16

/-- Bitmap bits per block, `BSIZE*8`. -/
abbrev BPB : ℕ := 8192

/-- Length of the name in a directory entry. -/
abbrev DIRSIZ : ℕ := 14

abbrev DIRENT : ℕ := 16

abbrev T_DIR : UInt16 := 1
abbrev T_FILE : UInt16 := 2
abbrev T_DEVICE : UInt16 := 3

/-- The super block, with the order of the parts of the disk that the header comment
of `fs.h` draws and `mkfs` produces.  `size` is at most what `balloc`'s `int` loop
variable can count to. -/
structure Superblock where
  size : ℕ
  nblocks : ℕ
  ninodes : ℕ
  nlog : ℕ
  logstart : ℕ
  inodestart : ℕ
  bmapstart : ℕ
  super_fits : 2 ≤ logstart
  log_fits : logstart + nlog ≤ inodestart
  root_fits : ROOTINO < ninodes
  inodes_fit : inodestart + (ninodes / IPB + 1) ≤ bmapstart
  bitmap_fits : bmapstart + (size / BPB + 1) + nblocks ≤ size
  size_lt : size < 2 ^ 31

namespace Superblock

variable (sb : Superblock) {i j k o : ℕ}

/-- Number of metadata blocks: everything before the data blocks. -/
def nmeta : ℕ := sb.size - sb.nblocks

def IBLOCK (i : ℕ) : ℕ := i / IPB + sb.inodestart

def BBLOCK (b : ℕ) : ℕ := b / BPB + sb.bmapstart

variable {sb}

theorem nmeta_le : sb.nmeta ≤ sb.size := Nat.sub_le _ _

theorem nmeta_pos : 0 < sb.nmeta := by
  have h := sb.bitmap_fits
  simp only [nmeta, BPB] at h ⊢
  omega

theorem IBLOCK_lt (h : i < sb.ninodes) : sb.IBLOCK i < sb.bmapstart := by
  have h₁ : i / IPB ≤ sb.ninodes / IPB := Nat.div_le_div_right h.le
  have h₂ := sb.inodes_fit
  simp only [IBLOCK]
  omega

theorem bmapstart_le_BBLOCK (b : ℕ) : sb.bmapstart ≤ sb.BBLOCK b := Nat.le_add_left _ _

theorem BBLOCK_lt (h : b < sb.size) : sb.BBLOCK b < sb.nmeta := by
  have h₁ : b / BPB ≤ sb.size / BPB := Nat.div_le_div_right h.le
  have h₂ := sb.bitmap_fits
  simp only [BBLOCK, nmeta]
  omega

theorem bmapstart_lt_nmeta : sb.bmapstart < sb.nmeta := by
  have h := sb.bitmap_fits
  simp only [nmeta, BPB] at h ⊢
  omega

theorem IBLOCK_ne_BBLOCK (h : i < sb.ninodes) (b : ℕ) : sb.IBLOCK i ≠ sb.BBLOCK b := by
  have h₁ := IBLOCK_lt h
  have h₂ : sb.bmapstart ≤ sb.BBLOCK b := bmapstart_le_BBLOCK b
  omega

theorem IBLOCK_lt_nmeta (h : i < sb.ninodes) : sb.IBLOCK i < sb.nmeta :=
  (IBLOCK_lt h).trans bmapstart_lt_nmeta

theorem eq_of_IBLOCK_eq (h : sb.IBLOCK i = sb.IBLOCK j) (hm : i % IPB = j % IPB) : i = j := by
  simp only [IBLOCK, IPB] at h hm
  omega

theorem eq_of_BBLOCK_eq (h : sb.BBLOCK b = sb.BBLOCK c) (hm : b % BPB = c % BPB) : b = c := by
  simp only [BBLOCK, BPB] at h hm
  omega

end Superblock

/-! ### Inodes on disk -/

/-- `struct dinode`, an inode on the disk. -/
@[ext] structure Dinode where
  type : UInt16
  major : UInt16
  minor : UInt16
  nlink : UInt16
  size : UInt32
  addrs : Fin (NDIRECT + 1) → UInt32

/-- `memset(dip, 0, sizeof(*dip))` followed by `dip->type = type`. -/
def Dinode.fresh (type : UInt16) : Dinode := ⟨type, 0, 0, 0, 0, fun _ => 0⟩

def Dinode.setAddr (d : Dinode) (k : Fin (NDIRECT + 1)) (a : UInt32) : Dinode :=
  { d with addrs := Function.update d.addrs k a }

section

variable (d : Dinode) (k : Fin (NDIRECT + 1)) (a : UInt32)
include d k a

@[simp] theorem Dinode.addrs_setAddr : (d.setAddr k a).addrs = Function.update d.addrs k a := rfl

@[simp] theorem Dinode.type_setAddr : (d.setAddr k a).type = d.type := rfl

end

/-- The twelve bytes of an inode before its block addresses. -/
def Dinode.header (d : Dinode) : List UInt8 :=
  le 2 d.type.toNat ++ le 2 d.major.toNat ++ le 2 d.minor.toNat ++ le 2 d.nlink.toNat ++
    le 4 d.size.toNat

def Dinode.encode (d : Dinode) : List UInt8 :=
  d.header ++ (List.ofFn fun i => le 4 (d.addrs i).toNat).flatten

def getDinode (b : Block) (k : ℕ) : Dinode where
  type := UInt16.ofNat (u16 b (64 * k))
  major := UInt16.ofNat (u16 b (64 * k + 2))
  minor := UInt16.ofNat (u16 b (64 * k + 4))
  nlink := UInt16.ofNat (u16 b (64 * k + 6))
  size := UInt32.ofNat (u32 b (64 * k + 8))
  addrs i := UInt32.ofNat (u32 b (64 * k + 12 + 4 * i.val))

def putDinode (b : Block) (k : ℕ) (d : Dinode) : Block := b.splice (64 * k) d.encode

@[simp] theorem Dinode.length_header (d : Dinode) : d.header.length = 12 := by
  simp [Dinode.header]

@[simp] theorem Dinode.length_encode (d : Dinode) : d.encode.length = 64 := by
  simp [Dinode.encode, List.ofFn_succ]

theorem field_putDinode {b : Block} {d : Dinode} (hk : k < IPB) (ho : o + w ≤ 64) :
    (putDinode b k d).field w (64 * k + o) = ofLE ((d.encode.drop o).take w) := by
  simp only [IPB] at hk
  refine Bytes.field_splice_sub b (by simpa using ho) ?_
  simp only [Dinode.length_encode, BSIZE]
  omega

theorem Dinode.encode_addr (d : Dinode) (i : Fin (NDIRECT + 1)) :
    (d.encode.drop (12 + 4 * i.val)).take 4 = le 4 (d.addrs i).toNat := by
  have hw : ∀ l ∈ List.ofFn (fun i => le 4 (d.addrs i).toNat), l.length = 4 := by
    simp
  have h := take_drop_flatten hw (i := i.val) (by simp)
  rw [Dinode.encode, List.drop_append, d.length_header, Nat.add_sub_cancel_left,
    List.drop_eq_nil_of_le (by rw [d.length_header]; omega), List.nil_append, h, List.getElem_ofFn]

/-- **What `iupdate` writes is what `ilock` reads.** -/
theorem getDinode_putDinode (b : Block) (hk : k < IPB) (d : Dinode) :
    getDinode (putDinode b k d) k = d := by
  have htype : d.encode.take 2 = le 2 d.type.toNat := by
    simp [Dinode.encode, Dinode.header, le]
  have hmajor : (d.encode.drop 2).take 2 = le 2 d.major.toNat := by
    simp [Dinode.encode, Dinode.header, le]
  have hminor : (d.encode.drop 4).take 2 = le 2 d.minor.toNat := by
    simp [Dinode.encode, Dinode.header, le]
  have hnlink : (d.encode.drop 6).take 2 = le 2 d.nlink.toNat := by
    simp [Dinode.encode, Dinode.header, le]
  have hsize : (d.encode.drop 8).take 4 = le 4 d.size.toNat := by
    simp [Dinode.encode, Dinode.header, le]
  ext i
  · have h := field_putDinode (w := 2) (b := b) (d := d) (o := 0) hk (by omega)
    rw [Nat.add_zero, List.drop_zero, htype] at h
    simp [getDinode, h, ofLE_le]
  · simp [getDinode, field_putDinode hk, hmajor, ofLE_le]
  · simp [getDinode, field_putDinode hk, hminor, ofLE_le]
  · simp [getDinode, field_putDinode hk, hnlink, ofLE_le]
  · simp [getDinode, field_putDinode hk, hsize, ofLE_le]
  · have hi : 12 + 4 * i.val + 4 ≤ 64 := by have := i.isLt; simp only [NDIRECT] at this; omega
    have h := field_putDinode (w := 4) (b := b) (d := d) hk hi
    rw [d.encode_addr, ← Nat.add_assoc] at h
    simp [getDinode, h, ofLE_le]

theorem getDinode_putDinode_of_ne (b : Block) (h : j ≠ k) (d : Dinode) :
    getDinode (putDinode b k d) j = getDinode b j := by
  have hd : ∀ w o, o + w ≤ 64 → (putDinode b k d).field w (64 * j + o) = b.field w (64 * j + o) :=
    fun w o ho => Bytes.field_splice_of_disjoint b (by simp only [Dinode.length_encode]; omega)
  have h0 := hd 2 0 (by omega)
  rw [Nat.add_zero] at h0
  ext i
  · simp only [getDinode, u16, h0]
  · simp only [getDinode, u16, hd 2 2 (by omega)]
  · simp only [getDinode, u16, hd 2 4 (by omega)]
  · simp only [getDinode, u16, hd 2 6 (by omega)]
  · simp only [getDinode, u32, hd 4 8 (by omega)]
  · have hi : 12 + 4 * i.val + 4 ≤ 64 := by have := i.isLt; simp only [NDIRECT] at this; omega
    simp only [getDinode, u32, Nat.add_assoc, hd 4 _ hi]

theorem encode_getDinode (b : Block) (k : ℕ) : (getDinode b k).encode = b.read (64 * k) 64 := by
  have h16 (o : ℕ) : le 2 (UInt16.ofNat (u16 b o)).toNat = b.read o 2 := by
    have hlt : u16 b o < 2 ^ 16 := Bytes.field_lt 2 b o
    rw [UInt16.toNat_ofNat', Nat.mod_eq_of_lt hlt]
    have hread := le_ofLE (b.read o 2)
    rwa [Bytes.length_read] at hread
  have h32 (o : ℕ) : le 4 (UInt32.ofNat (u32 b o)).toNat = b.read o 4 := by
    have hlt : u32 b o < 2 ^ 32 := Bytes.field_lt 4 b o
    rw [UInt32.toNat_ofNat', Nat.mod_eq_of_lt hlt]
    have hread := le_ofLE (b.read o 4)
    rwa [Bytes.length_read] at hread
  simp only [Dinode.encode, Dinode.header, getDinode, h16, h32]
  rw [Bytes.flatten_read, ← Bytes.read_add, ← Bytes.read_add, ← Bytes.read_add, ← Bytes.read_add,
    ← Bytes.read_add]
  rfl

theorem putDinode_undo (b : Block) (k : ℕ) (d : Dinode) :
    putDinode (putDinode b k d) k (getDinode b k) = b := by
  have h := b.splice_splice_read (64 * k) d.encode
  rwa [d.length_encode, ← encode_getDinode] at h

def dinodeAt (sb : Superblock) (blocks : Disk) (inum : ℕ) : Dinode :=
  getDinode (blocks (sb.IBLOCK inum)) (inum % IPB)

/-! ### The free map -/

def bitSet (b : Block) (i : ℕ) : Bool := (b.get (i / 8)).toNat.testBit (i % 8)

def setBit (b : Block) (i : ℕ) : Block :=
  b.splice (i / 8) [b.get (i / 8) ||| UInt8.ofNat (2 ^ (i % 8))]

def clearBit (b : Block) (i : ℕ) : Block :=
  b.splice (i / 8) [b.get (i / 8) &&& ~~~UInt8.ofNat (2 ^ (i % 8))]

def bitAt (sb : Superblock) (blocks : Disk) (b : ℕ) : Bool :=
  bitSet (blocks (sb.BBLOCK b)) (b % BPB)

theorem get_splice_byte (b : Block) (v : UInt8) (ho : o < BSIZE) :
    (b.splice o [v]).get p = if p = o then v else b.get p := by
  split_ifs with h
  · subst h
    simpa using Bytes.get_splice_of_mem b p [v] (p := 0) (by simp)
      (by simpa [Nat.succ_le_iff] using ho)
  · exact Bytes.get_splice_of_not_mem b o [v] (by simp only [List.length_singleton]; omega)

theorem testBit_or_pow (v : UInt8) (hk : k < 8) (hj : j < 8) :
    (v ||| UInt8.ofNat (2 ^ k)).toNat.testBit j = (decide (j = k) || v.toNat.testBit j) := by
  have hm : (2 ^ k % 256).testBit j = decide (j = k) := by
    interval_cases k <;> interval_cases j <;> rfl
  simp [Nat.testBit_or, hm, Bool.or_comm]

theorem testBit_and_not_pow (v : UInt8) (hk : k < 8) (hj : j < 8) :
    (v &&& ~~~UInt8.ofNat (2 ^ k)).toNat.testBit j = (!decide (j = k) && v.toNat.testBit j) := by
  have hm : (~~~UInt8.ofNat (2 ^ k)).toNat.testBit j = !decide (j = k) := by
    interval_cases k <;> interval_cases j <;> rfl
  rw [UInt8.toNat_and, Nat.testBit_and, hm, Bool.and_comm]

theorem bitSet_setBit (b : Block) (hi : i < BPB) :
    bitSet (setBit b i) j = (decide (j = i) || bitSet b j) := by
  simp only [BPB] at hi
  have hb : i / 8 < BSIZE := by simp only [BSIZE]; omega
  simp only [bitSet, setBit, get_splice_byte b _ hb]
  split_ifs with h
  · rw [testBit_or_pow _ (Nat.mod_lt _ (by omega)) (Nat.mod_lt _ (by omega)), h]
    congr 1
    exact decide_eq_decide.2 (by omega)
  · have hji : j ≠ i := fun he => h (by rw [he])
    simp [hji]

theorem bitSet_clearBit (b : Block) (hi : i < BPB) :
    bitSet (clearBit b i) j = (!decide (j = i) && bitSet b j) := by
  simp only [BPB] at hi
  have hb : i / 8 < BSIZE := by simp only [BSIZE]; omega
  simp only [bitSet, clearBit, get_splice_byte b _ hb]
  split_ifs with h
  · rw [testBit_and_not_pow _ (Nat.mod_lt _ (by omega)) (Nat.mod_lt _ (by omega)), h]
    congr 2
    exact decide_eq_decide.2 (by omega)
  · have hji : j ≠ i := fun he => h (by rw [he])
    simp [hji]

end Xv6
