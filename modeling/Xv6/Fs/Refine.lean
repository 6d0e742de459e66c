/-
# A file is a byte array

The abstract file is a list of bytes.  `content` reads it off the disk through the addresses of the
inode and the indirect block; `overwrite` and `window` say what writing and reading mean for a list.
-/

import Xv6.Fs.Image

namespace Xv6

open Lib Function

variable {d : Dinode} {data : ℕ → UInt8}

/-- The content of an inode: its bytes below `size`. -/
def content (blocks : Disk) (d : Dinode) : List UInt8 := bytesAt (d.fileBlock blocks) 0 d.size.toNat

/-- No hole: every byte below `size` lies in a block that is there. -/
def NoHoles (blocks : Disk) (d : Dinode) : Prop :=
  ∀ p < d.size.toNat, d.fileBlock blocks (p / BSIZE) ≠ none

/-- `c` with the bytes from position `off` on replaced by `src`, and extended if
`src` reaches further. -/
def overwrite (c : List UInt8) (off : ℕ) (src : List UInt8) : List UInt8 :=
  c.take off ++ src ++ c.drop (off + src.length)

/-- The bytes `[off, min (off + len) c.length)` of `c`. -/
def window (c : List UInt8) (off len : ℕ) : List UInt8 := (c.drop off).take len

theorem window_content (blocks : Disk) (d : Dinode) (off len : ℕ) :
    window (content blocks d) off len = bytesAt (d.fileBlock blocks) off
    (min len (d.size.toNat - off)) := by
  refine List.ext_getElem (by simp [window, content]) fun i h₁ h₂ => ?_
  simp only [window, content, List.getElem_take, List.getElem_drop, getElem_bytesAt]
  rw [Nat.zero_add]

/-- **Writing the range overwrites the content.** -/
theorem content_overwrite (hoff : off ≤ d.size.toNat)
    (hsize : d'.size.toNat = max d.size.toNat (off + len))
    (hout : ∀ p, p < off ∨ off + len ≤ p → byteAt (d'.fileBlock blocks') p = byteAt
      (d.fileBlock blocks) p)
    (hin : ∀ p, off ≤ p → p < off + len → byteAt (d'.fileBlock blocks') p = data (p - off)) :
    content blocks' d' = overwrite (content blocks d) off ((List.range len).map data) := by
  refine List.ext_getElem ?_ fun i h₁ h₂ => ?_
  · simp only [content, overwrite, length_bytesAt, List.length_append, List.length_take,
      List.length_drop, List.length_map, List.length_range]
    omega
  simp only [content, length_bytesAt] at h₁
  simp only [content, overwrite, getElem_bytesAt, List.getElem_append, List.length_append,
    List.length_take, length_bytesAt, List.length_map, List.length_range, Nat.zero_add]
  split_ifs with h₃ h₄
  · rw [List.getElem_take, getElem_bytesAt, Nat.zero_add]
    exact hout i (.inl (by omega))
  · rw [List.getElem_map, List.getElem_range, hin i (by omega) (by omega)]
    congr 1
    omega
  · rw [List.getElem_drop, getElem_bytesAt, Nat.zero_add]
    have : off + len + (i - (min off d.size.toNat + len)) = i := by omega
    rw [this]
    exact hout i (.inr (by omega))

variable {sb : Superblock} {T : Table sb} {R : Ip → ℕ} {L W : Finset Ip} {ip : Ip}
  {n : Fin sb.ninodes} {s : Fs} {E : Halt → Prop}

theorem NoHoles.size_le (h : NoHoles blocks d) : d.size.toNat ≤ MAXFILE * BSIZE := by
  by_contra hlt
  refine h (MAXFILE * BSIZE) (by omega) ?_
  rw [Nat.mul_div_cancel _ (by decide), Dinode.fileBlock, slotOf_eq_none_iff.2 le_rfl,
    Option.bind_none]

def freshBlocks (T : Table sb) (blocks : Disk) (n : Fin sb.ninodes) (off len : ℕ) : ℕ :=
  need (files T blocks n) (T n) (off / BSIZE) ((off + len + BSIZE - 1) / BSIZE)

/-- The transaction has room for a write of `[off, off + len)`: for every block of the
file that it touches, for the free map, the indirect block and the inode. -/
def HasRoom (sb : Superblock) (s : Fs) (off len : ℕ) : Prop := 1 ≤ s.outstanding ∧
    s.lh.length + touched off len + (sb.size / BPB + 1) + 2 ≤ min LOGSIZE (sb.nlog - 1)

instance (off len : ℕ) : Decidable (HasRoom sb s off len) := inferInstanceAs (Decidable (_ ∧ _))

theorem HasRoom.budget (h : HasRoom sb s off len) (d : Dinode) :
    Budget sb E ∅ (touched off len) d s := by
  obtain ⟨ho, hlt⟩ := h
  have hcard : (bitmapBlocks sb).card ≤ sb.size / BPB + 1 := card_bitmapBlocks_le
  have hsd : ∀ A : Finset ℕ, (A \ s.lh.toFinset).card ≤ A.card := fun A =>
    Finset.card_le_card Finset.sdiff_subset
  by_cases hind : d.addrs (Fin.last NDIRECT) = 0
  · refine ⟨bitmapBlocks sb, by simp, subset_rfl, fun hc => absurd hind hc, .inr ⟨ho, ?_⟩⟩
    have h₁ := hsd (bitmapBlocks sb)
    rw [if_pos hind]
    omega
  · refine ⟨insert (d.addrs (Fin.last NDIRECT)).toNat (bitmapBlocks sb), by simp,
      Finset.subset_insert .., fun _ => Finset.mem_insert_self .., .inr ⟨ho, ?_⟩⟩
    have h₁ := hsd (insert (d.addrs (Fin.last NDIRECT)).toNat (bitmapBlocks sb))
    have h₂ := Finset.card_insert_le (d.addrs (Fin.last NDIRECT)).toNat (bitmapBlocks sb)
    rw [if_neg hind]
    omega

theorem WroteFile.content (h : WroteFile T R L W n src off len s d off' s')
    (hsrc : src.Gives data 0 len) (hoff : off ≤ (T n).size.toNat) :
    Xv6.content s'.blocks d = overwrite (Xv6.content s.blocks (T n)) off
    ((List.range len).map data) := by
  have hfile : files (update T n d) s'.blocks n = d.fileBlock s'.blocks := by
    rw [files, update_self]
  obtain ⟨hend, hin⟩ := h.inside data hsrc
  have hout := h.outside
  rw [hfile] at hin hout
  refine content_overwrite hoff ?_ hout hin
  rw [h.size_eq, hend]
  split_ifs <;> omega

/-- `writei` leaves no hole: what lies below the new size was there before or has just
been written. -/
theorem WroteFile.noHoles (h : WroteFile T R L W n src off len s d off' s')
    (hoff : off ≤ (T n).size.toNat) (hh : NoHoles s.blocks (T n)) : NoHoles s'.blocks d := by
  have hfile : files (update T n d) s'.blocks n = d.fileBlock s'.blocks := by
    rw [files, update_self]
  intro p hp
  rw [← hfile]
  by_cases hlt : p < (T n).size.toNat
  · exact h.kept _ (hh p hlt)
  · refine h.filled p (by omega) ?_
    rw [h.size_eq] at hp
    split_ifs at hp <;> omega

theorem le_size_of_not_rejects (h : ¬Rejects size off len) : off.toNat ≤ size.toNat := by
  unfold Rejects at h
  simp only [not_or, gt_iff_lt, UInt32.lt_iff_toNat_lt] at h
  omega

/-- **The file layer refines a byte array.**  In a state with exact block ownership,
for a cached inode without holes: a write that is in range, that the log has room for
and the disk blocks for, returns its length, overwrites the content, and changes no
other file; a write out of range returns -1 and changes nothing; a read returns the
window of the content, up to the size; and whatever the source or destination does,
`bmap` is never asked for a block out of range. -/
theorem file_refines_bytes (h : FsInv T ∅ R L W s) (hl : Live R s.inode ip n)
    (hh : NoHoles s.blocks (T n)) (off len : UInt32) :
    (∀ data : ℕ → UInt8, ¬Rejects (T n).size off len → HasRoom sb s off.toNat len.toNat →
      freshBlocks T s.blocks n off.toNat len.toNat ≤ freeCount sb s.blocks →
      wp (writei sb ip (kernelSrc data) off len) (fun _ => False)
        (fun r s' => r = len.toNat ∧ ∃ T' : Table sb, FsInv T' ∅ R L W s' ∧
          NoHoles s'.blocks (T' n) ∧ (T' n).size.toNat ≤ MAXFILE * BSIZE ∧
          content s'.blocks (T' n) = overwrite (content s.blocks (T n)) off.toNat
          ((List.range len.toNat).map data) ∧ ∀ i, i ≠ n → T' i = T i ∧
          content s'.blocks (T' i) = content s.blocks (T i)) s) ∧
    (∀ src, Rejects (T n).size off len →
      wp (writei sb ip src off len) (fun _ => False) (fun r s' => r = -1 ∧ s' = s) s) ∧
    wp (readi sb ip kernelDst off len) (fun _ => False)
      (fun l s' => s' = s ∧ l = if off > (T n).size ∨ off + len < off then []
        else window (content s.blocks (T n)) off.toNat len.toNat) s ∧
    (∀ src, wp (writei sb ip src off len) (fun e => e ≠ .panic .bmapOutOfRange)
      (fun _ _ => True) s) ∧
    ∀ copyout, wp (readi sb ip copyout off len) (fun _ => False) (fun _ _ => True) s := by
  refine ⟨fun data hacc hroom hfree => ?_, fun src hrej => ?_, ?_, fun src => ?_, fun copyout => ?_⟩
  · refine wp_writei h hl (hroom.budget _) (.inr hfree) (fun hrej => absurd hrej hacc)
      fun d off' s' _ _ hw => ?_
    have hoff := le_size_of_not_rejects hacc
    have hnh := hw.noHoles hoff hh
    refine ⟨rfl, update T n d, hw.inv, ?_, ?_, ?_, fun i hi => ?_⟩
    · rwa [update_self]
    · rw [update_self]
      exact hnh.size_le
    · rw [update_self]
      exact hw.content kernelSrc_gives hoff
    · have hf := hw.other i hi
      simp only [files, update_of_ne hi] at hf
      rw [update_of_ne hi]
      exact ⟨rfl, by rw [content, hf, content]⟩
  · have hsize : (s.inode ip).size = (T n).size := by rw [← h.cache.eq_table hl]
    simp only [writei, wp_bind, wp_get, wp_ite, wp_pure, hsize]
    refine ⟨fun _ => ⟨trivial, trivial⟩, fun hin => ⟨fun _ => ⟨trivial, trivial⟩, fun hfit => ?_⟩⟩
    unfold Rejects at hrej
    tauto
  · refine wp_mono (wp_readi h hl hh) ?_
    rintro l s' ⟨rfl, r, -, rfl, hr⟩
    refine ⟨rfl, ?_⟩
    rw [hr rfl, readLen, window_content]
    split_ifs <;> rfl
  · exact wp_writei h hl (Budget.of_admits (by simp) (by simp)) (.inl (by simp))
      (fun _ => trivial) fun _ _ _ _ _ _ => trivial
  · exact wp_mono (wp_readi h hl hh) fun _ _ _ => trivial

theorem mkfsFile_noHoles : NoHoles mkfsFs.blocks (mkfsTable fileNum) :=
  fun p hp => absurd hp (Nat.not_lt_zero p)

/-- The hypotheses hold on the image of `mkfs`: three thousand bytes go into the empty
file. -/
theorem file_refines_bytes_mkfs :
    wp (writei mkfsSb 0 (kernelSrc fun i => UInt8.ofNat i) 0 3000) (fun _ => False)
      (fun r s' => r = (3000 : UInt32).toNat ∧ ∃ T' : Table mkfsSb, FsInv T' ∅ mkfsRefs {0} ∅ s' ∧
        NoHoles s'.blocks (T' fileNum) ∧ (T' fileNum).size.toNat ≤ MAXFILE * BSIZE ∧
        content s'.blocks (T' fileNum) = overwrite (content mkfsFs.blocks (mkfsTable fileNum))
        (0 : UInt32).toNat
            ((List.range (3000 : UInt32).toNat).map fun i => UInt8.ofNat i) ∧
        ∀ i, i ≠ fileNum → T' i = mkfsTable i ∧
          content s'.blocks (T' i) = content mkfsFs.blocks (mkfsTable i)) mkfsFs :=
  (file_refines_bytes mkfsFs_inv mkfsFs_live mkfsFile_noHoles 0 3000).1 _ (by decide +kernel)
    (by decide +kernel) (by decide +kernel)

/-- **A write can overrun the log.**  On the same image, in a transaction that has
logged nothing yet, 28 blocks are in range of the file and the disk has room for them,
but the log has not: `log_write` panics. -/
theorem writei_overruns_log :
    FsInv mkfsTable ∅ mkfsRefs {0} ∅ mkfsFs ∧ Live mkfsRefs mkfsFs.inode 0 fileNum ∧
      NoHoles mkfsFs.blocks (mkfsTable fileNum) ∧
      ¬Rejects (mkfsTable fileNum).size 0 28672 ∧
      freshBlocks mkfsTable mkfsFs.blocks fileNum 0 28672 ≤ freeCount mkfsSb mkfsFs.blocks ∧
      wp (writei mkfsSb 0 (kernelSrc fun _ => 0) 0 28672) (fun e => e = .panic .logTooBig)
        (fun _ _ => False) mkfsFs :=
  ⟨mkfsFs_inv, mkfsFs_live, mkfsFile_noHoles, by decide, by decide +kernel, by decide +kernel⟩

end Xv6
