/-
# The free map

`DiskInv` ties the disk to a table of inodes: a data block whose bit is set has exactly one owner,
and the inode blocks hold the table except for the inodes in `dirty`, whose cached copy is ahead.  A
routine needs room in the log and free blocks, unless its caller is ready for the panic; `Room` and
`Avail` carry both readings.
-/

import Xv6.Fs.Place

namespace Xv6

open Lib Function

/-- The data block `b` is marked in the free map. -/
def InUse (sb : Superblock) (blocks : Disk) (b : ℕ) : Prop :=
  sb.nmeta ≤ b ∧ b < sb.size ∧ bitAt sb blocks b = true

instance (sb : Superblock) (blocks : Disk) : DecidablePred (InUse sb blocks) :=
  fun _ => inferInstanceAs (Decidable (_ ∧ _ ∧ _))

variable {sb : Superblock} {Q : UInt32 → Fs → Prop} {bp : Block} {bi j : ℕ}

/-- The disk holds the inode table `T`, with exact block ownership. -/
structure DiskInv (T : Table sb) (dirty : Set (Fin sb.ninodes)) (held : Multiset ℕ)
    (blocks : Disk) : Prop where
  bits : ∀ b < sb.nmeta, bitAt sb blocks b = true
  own : Exact (places T blocks) held (InUse sb blocks)
  disk : ∀ i ∉ dirty, dinodeAt sb blocks i = T i

variable {T : Table sb} {dirty : Set (Fin sb.ninodes)} {held : Multiset ℕ} {blocks : Disk} {b : ℕ}

theorem DiskInv.place_ge (h : DiskInv T dirty held blocks) (hp : places T blocks p = some b) :
    sb.nmeta ≤ b :=
  (h.own.used_of_place hp).1

theorem DiskInv.place_ne_of_meta (h : DiskInv T dirty held blocks) (hb : b < sb.nmeta)
    (p : Fin sb.ninodes × Slot) : places T blocks p ≠ some b :=
  fun hp => absurd (h.place_ge hp) (Nat.not_le.2 hb)

theorem bitAt_update_of_ge (hb : sb.nmeta ≤ b) (hc : c < sb.size) (data : Block) :
    bitAt sb (update blocks b data) c = bitAt sb blocks c := by
  have hne : sb.BBLOCK c ≠ b := by have := Superblock.BBLOCK_lt hc; omega
  rw [bitAt, bitAt, update_of_ne hne]

theorem InUse_update_of_ge (hb : sb.nmeta ≤ b) (data : Block) (c : ℕ) :
    InUse sb (update blocks b data) c ↔ InUse sb blocks c := by
  unfold InUse
  refine and_congr_right fun _ => and_congr_right fun hc => ?_
  rw [bitAt_update_of_ge hb hc]

theorem dinodeAt_update_of_ge (hb : sb.nmeta ≤ b) (data : Block) (i : Fin sb.ninodes) :
    dinodeAt sb (update blocks b data) i = dinodeAt sb blocks i := by
  have hne : sb.IBLOCK i ≠ b := by have := Superblock.IBLOCK_lt_nmeta i.isLt; omega
  rw [dinodeAt, dinodeAt, update_of_ne hne]

theorem DiskInv.write_data (h : DiskInv T dirty held blocks) (hb : sb.nmeta ≤ b)
    (hi : ∀ i, places T blocks (i, .indirect) ≠ some b) (data : Block) :
    DiskInv T dirty held (update blocks b data) where
  bits c hc := by rw [bitAt_update_of_ge hb (hc.trans_le Superblock.nmeta_le), h.bits c hc]
  own := by
    rw [places_update_block hi]
    exact h.own.congr (InUse_update_of_ge hb data)
  disk i hd := by rw [dinodeAt_update_of_ge hb, h.disk i hd]

/-! ### Marking and clearing a bit -/

theorem bitAt_setBit (b c : ℕ) :
    bitAt sb (update blocks (sb.BBLOCK b) (setBit (blocks (sb.BBLOCK b)) (b % BPB))) c =
      (decide (c = b) || bitAt sb blocks c) := by
  have hlt : b % BPB < BPB := Nat.mod_lt _ (by decide)
  unfold bitAt
  by_cases hB : sb.BBLOCK c = sb.BBLOCK b
  · rw [hB, update_self, bitSet_setBit _ hlt]
    congr 1
    exact decide_eq_decide.2 ⟨fun he => Superblock.eq_of_BBLOCK_eq hB he, fun he => by rw [he]⟩
  · have hne : c ≠ b := fun he => hB (by rw [he])
    rw [update_of_ne hB, decide_eq_false hne, Bool.false_or]

theorem bitAt_clearBit (b c : ℕ) :
    bitAt sb (update blocks (sb.BBLOCK b) (clearBit (blocks (sb.BBLOCK b)) (b % BPB))) c =
      (!decide (c = b) && bitAt sb blocks c) := by
  have hlt : b % BPB < BPB := Nat.mod_lt _ (by decide)
  unfold bitAt
  by_cases hB : sb.BBLOCK c = sb.BBLOCK b
  · rw [hB, update_self, bitSet_clearBit _ hlt]
    congr 2
    exact decide_eq_decide.2 ⟨fun he => Superblock.eq_of_BBLOCK_eq hB he, fun he => by rw [he]⟩
  · have hne : c ≠ b := fun he => hB (by rw [he])
    rw [update_of_ne hB, decide_eq_false hne, Bool.not_false, Bool.true_and]

theorem dinodeAt_update_BBLOCK (b : ℕ) (data : Block) (i : Fin sb.ninodes) :
    dinodeAt sb (update blocks (sb.BBLOCK b) data) i = dinodeAt sb blocks i := by
  rw [dinodeAt, dinodeAt, update_of_ne (Superblock.IBLOCK_ne_BBLOCK i.isLt b)]

/-- The disk after `balloc` returned `b`: its bit set, its contents zero. -/
def allocBlocks (sb : Superblock) (blocks : Disk) (b : ℕ) : Disk := update
    (update blocks (sb.BBLOCK b) (setBit (blocks (sb.BBLOCK b)) (b % BPB))) b zeroBlock

def freeBlocks (sb : Superblock) (blocks : Disk) (b : ℕ) : Disk :=
  update blocks (sb.BBLOCK b) (clearBit (blocks (sb.BBLOCK b)) (b % BPB))

theorem DiskInv.nmeta_le_of_free (h : DiskInv T dirty held blocks)
    (hb : bitAt sb blocks b = false) : sb.nmeta ≤ b := by
  by_contra hlt
  rw [h.bits b (Nat.not_le.1 hlt)] at hb
  cases hb

/-- **`balloc` takes a free block into the hand** and disturbs no file. -/
theorem DiskInv.alloc (h : DiskInv T dirty held blocks) (hlt : b < sb.size)
    (hb : bitAt sb blocks b = false) :
    DiskInv T dirty (b ::ₘ held) (allocBlocks sb blocks b) ∧ places T (allocBlocks sb blocks b) =
    places T blocks ∧ files T (allocBlocks sb blocks b) = files T blocks := by
  have hge := h.nmeta_le_of_free hb
  have hfree : ¬InUse sb blocks b := fun hu => by rw [hu.2.2] at hb; cases hb
  have hBm : ∀ p, places T blocks p ≠ some (sb.BBLOCK b) :=
    h.place_ne_of_meta (Superblock.BBLOCK_lt hlt)
  have hnb : ∀ p, places T blocks p ≠ some b := fun p hp => hfree (h.own.used_of_place hp)
  set mid := update blocks (sb.BBLOCK b) (setBit (blocks (sb.BBLOCK b)) (b % BPB))
    with hmid
  have hpm : places T mid = places T blocks := places_update_block (fun i => hBm (i, .indirect)) _
  have hfm : files T mid = files T blocks := files_update_of_not_place hBm _
  have hinv : DiskInv T dirty (b ::ₘ held) mid :=
    { bits := fun c hc => by rw [hmid, bitAt_setBit, h.bits c hc, Bool.or_true]
      own := by
        rw [hpm]
        refine h.own.acquire hfree fun c => ?_
        unfold InUse
        rw [hmid, bitAt_setBit]
        by_cases hcb : c = b
        · subst hcb
          simp [hge, hlt]
        · simp [hcb]
      disk := fun i hd => by rw [hmid, dinodeAt_update_BBLOCK, h.disk i hd] }
  have hnb' : ∀ p, places T mid p ≠ some b := by rw [hpm]; exact hnb
  refine ⟨hinv.write_data hge (fun i => hnb' (i, .indirect)) zeroBlock, ?_, ?_⟩
  · rw [allocBlocks, ← hmid, places_update_block fun i => hnb' (i, .indirect), hpm]
  · rw [allocBlocks, ← hmid, files_update_of_not_place hnb', hfm]

@[simp] theorem allocBlocks_self : allocBlocks sb blocks b b = zeroBlock := update_self ..

/-- **`bfree` gives back a block from the hand**: its bit is set, and no file is
disturbed. -/
theorem DiskInv.free (h : DiskInv T dirty (b ::ₘ held) blocks) :
    bitAt sb blocks b = true ∧ DiskInv T dirty held (freeBlocks sb blocks b) ∧
    places T (freeBlocks sb blocks b) = places T blocks ∧ files T (freeBlocks sb blocks b) =
    files T blocks := by
  have hu : InUse sb blocks b := h.own.used_of_held (Multiset.mem_cons_self ..)
  have hBm : ∀ p, places T blocks p ≠ some (sb.BBLOCK b) :=
    h.place_ne_of_meta (Superblock.BBLOCK_lt hu.2.1)
  have hp : places T (freeBlocks sb blocks b) = places T blocks :=
    places_update_block (fun i => hBm (i, .indirect)) _
  refine ⟨hu.2.2, ⟨fun c hc => ?_, ?_, fun i hd => ?_⟩, hp, files_update_of_not_place hBm _⟩
  · have hcb : c ≠ b := by have := hu.1; omega
    rw [freeBlocks, bitAt_clearBit, h.bits c hc, decide_eq_false hcb]
    rfl
  · rw [hp]
    refine h.own.release fun c => ?_
    unfold InUse
    rw [freeBlocks, bitAt_clearBit]
    by_cases hcb : c = b <;> simp [hcb]
  · rw [freeBlocks, dinodeAt_update_BBLOCK, h.disk i hd]

/-! ### Room in the log -/

variable {E : Halt → Prop} {A : Finset ℕ} {k : ℕ} {s : Fs}

/-- Either the caller admits the panics of `log_write`, or a transaction is open and
the log can take the blocks of `A` and `k` more without filling up. -/
def Room (sb : Superblock) (E : Halt → Prop) (A : Finset ℕ) (k : ℕ) (s : Fs) : Prop :=
  E (.panic .logTooBig) ∧ E (.panic .logOutside) ∨
    1 ≤ s.outstanding ∧ s.lh.length + (A \ s.lh.toFinset).card + k < LOGSIZE ∧
      s.lh.length + (A \ s.lh.toFinset).card + k + 1 < sb.nlog

theorem Room.of_admits (h₁ : E (.panic .logTooBig)) (h₂ : E (.panic .logOutside)) :
    Room sb E A k s := .inl ⟨h₁, h₂⟩

theorem Room.mono (h : Room sb E A k s)
    (hA : (A₁ \ s.lh.toFinset).card + k₁ ≤ (A \ s.lh.toFinset).card + k) : Room sb E A₁ k₁ s := by
  rcases h with h | ⟨ho, h₁, h₂⟩
  · exact .inl h
  · exact .inr ⟨ho, by omega, by omega⟩

theorem Room.extend (h : Room sb E A (k + 1) s) (b : ℕ) : Room sb E (insert b A) k s := by
  refine h.mono ?_
  have hsub : insert b A \ s.lh.toFinset ⊆ insert b (A \ s.lh.toFinset) := by
    intro x hx
    simp only [Finset.mem_sdiff, Finset.mem_insert] at hx ⊢
    tauto
  have := (Finset.card_le_card hsub).trans (Finset.card_insert_le ..)
  omega

/-- Logging one of the expected blocks does not use up more room: it is absorbed, or
no longer expected. -/
theorem Room.logWrite (h : Room sb E A k s) (hb : b ∈ A) (data : Block) :
    Room sb E A k (s.logWrite b data) := by
  rcases h with h | ⟨ho, h₁, h₂⟩
  · exact .inl h
  have hsum : (s.logWrite b data).lh.length + (A \ (s.logWrite b data).lh.toFinset).card =
      s.lh.length + (A \ s.lh.toFinset).card := by
    unfold Fs.logWrite
    simp only
    split_ifs with hmem
    · rfl
    have hin : b ∈ A \ s.lh.toFinset := by simp [hb, hmem]
    have herase : A \ (s.lh ++ [b]).toFinset = (A \ s.lh.toFinset).erase b := by
      ext x
      simp only [Finset.mem_sdiff, List.mem_toFinset, List.mem_append, List.mem_singleton,
        Finset.mem_erase]
      tauto
    have hpos := Finset.card_pos.2 ⟨b, hin⟩
    rw [herase, Finset.card_erase_of_mem hin, List.length_append, List.length_singleton]
    omega
  exact .inr ⟨ho, by omega, by omega⟩

theorem wp_logWrite {Q : PUnit → Fs → Prop} (h : Room sb E A k s) {data : Block}
    (hQ : Q ⟨⟩ (s.logWrite b data)) : wp (logWrite sb b data) E Q s := by
  simp only [Xv6.logWrite, wp_bind, wp_get, wp_ite, wp_throw, wp_set]
  rcases h with h | ⟨ho, h₁, h₂⟩
  · exact ⟨fun _ => h.1, fun _ => ⟨fun _ => h.2, fun _ => hQ⟩⟩
  · exact ⟨fun hbig => by omega, fun _ => ⟨fun hout => by omega, fun _ => hQ⟩⟩

/-! ### Free blocks -/

def freeCount (sb : Superblock) (blocks : Disk) : ℕ :=
  ((Finset.range sb.size).filter fun b => bitAt sb blocks b = false).card

/-- Either the caller admits `balloc`'s panic, or `k` blocks are free. -/
def Avail (sb : Superblock) (E : Halt → Prop) (k : ℕ) (blocks : Disk) : Prop :=
  E (.panic .ballocOutOfBlocks) ∨ k ≤ freeCount sb blocks

theorem Avail.mono (h : Avail sb E k blocks) (hk : k' ≤ k) : Avail sb E k' blocks :=
  h.imp_right hk.trans

theorem freeCount_update_of_ge (hb : sb.nmeta ≤ b) (data : Block) :
    freeCount sb (update blocks b data) = freeCount sb blocks := by
  unfold freeCount
  congr 1
  refine Finset.filter_congr fun c hc => ?_
  rw [bitAt_update_of_ge hb (Finset.mem_range.1 hc)]

theorem Avail.write_data (h : Avail sb E k blocks) (hb : sb.nmeta ≤ b) (data : Block) :
    Avail sb E k (update blocks b data) := by
  unfold Avail
  rwa [freeCount_update_of_ge hb]

theorem Avail.alloc (hd : DiskInv T dirty held blocks) (h : Avail sb E (k + 1) blocks)
    (hlt : b < sb.size) (hb : bitAt sb blocks b = false) :
    Avail sb E k (allocBlocks sb blocks b) := by
  refine h.imp_right fun hk => ?_
  have hfree : freeCount sb (allocBlocks sb blocks b) + 1 = freeCount sb blocks := by
    rw [allocBlocks, freeCount_update_of_ge (hd.nmeta_le_of_free hb)]
    have hmem : b ∈ (Finset.range sb.size).filter fun c => bitAt sb blocks c = false := by
      simp [hlt, hb]
    rw [freeCount, freeCount, ← Finset.card_erase_add_one hmem]
    congr 2
    ext c
    simp only [bitAt_setBit, Finset.mem_filter, Finset.mem_erase, Bool.or_eq_false_iff,
      decide_eq_false_iff_not]
    tauto
  omega

/-! ### The two routines -/

def bitmapBlocks (sb : Superblock) : Finset ℕ :=
  (Finset.range (sb.size / BPB + 1)).image (· + sb.bmapstart)

theorem BBLOCK_mem_bitmapBlocks (hb : b < sb.size) : sb.BBLOCK b ∈ bitmapBlocks sb := by
  have hle : b / BPB ≤ sb.size / BPB := Nat.div_le_div_right hb.le
  exact Finset.mem_image.2 ⟨b / BPB, Finset.mem_range.2 (by omega), rfl⟩

theorem card_bitmapBlocks_le : (bitmapBlocks sb).card ≤ sb.size / BPB + 1 :=
  Finset.card_image_le.trans (by simp)

def Fs.alloc (sb : Superblock) (s : Fs) (b : ℕ) : Fs :=
  (s.logWrite (sb.BBLOCK b) (setBit (s.blocks (sb.BBLOCK b)) (b % BPB))).logWrite b zeroBlock

@[simp] theorem Fs.blocks_alloc : (s.alloc sb b).blocks = allocBlocks sb s.blocks b := rfl

@[simp] theorem Fs.inode_alloc : (s.alloc sb b).inode = s.inode := rfl

theorem Room.alloc (h : Room sb E A (k + 1) s) (hA : bitmapBlocks sb ⊆ A) (hb : b < sb.size) :
    Room sb E (insert b A) k (s.alloc sb b) :=
  ((h.logWrite (hA (BBLOCK_mem_bitmapBlocks hb)) _).extend b).logWrite (Finset.mem_insert_self ..) _

theorem findFree_eq_some (h : findFree sb bp b = some bi) :
    bi < BPB ∧ b + bi < sb.size ∧ bitSet bp bi = false := by
  have hmem := List.mem_of_find?_eq_some h
  have hbit := List.find?_some h
  rw [List.mem_range] at hmem
  refine ⟨by omega, by omega, ?_⟩
  simpa using hbit

theorem findFree_ne_none (hi : bi < BPB) (hb : b + bi < sb.size)
    (hbit : bitSet bp bi = false) : findFree sb bp b ≠ none := by
  intro h
  have := List.find?_eq_none.1 h bi (List.mem_range.2 (by omega))
  simp [hbit] at this

/-- What is left to do when the search has found the free block `b`. -/
def ballocFound (sb : Superblock) (b : ℕ) (bp : Block) : FsM UInt32 := do
  logWrite sb (sb.BBLOCK b) (setBit bp (b % BPB))
  bzero sb b
  return UInt32.ofNat b

theorem wp_ballocFrom
    (hQ : ∀ b < sb.size, bitAt sb s.blocks b = false →
      wp (ballocFound sb b (s.blocks (sb.BBLOCK b))) E Q s)
    (bs : List ℕ) (hbs : ∀ b ∈ bs, BPB ∣ b)
    (hav : E (.panic .ballocOutOfBlocks) ∨ ∃ b < sb.size, bitAt sb s.blocks b = false ∧
      b / BPB * BPB ∈ bs) :
    wp (ballocFrom sb bs) E Q s := by
  induction bs with
  | nil =>
    rcases hav with h | ⟨b, -, -, hmem⟩
    · exact (wp_throw _).2 h
    · cases hmem
  | cons b bs ih =>
    obtain ⟨q, hq⟩ := hbs b (.head _)
    simp only [ballocFrom, bread, wp_bind, wp_get, wp_pure]
    cases hf : findFree sb (s.blocks (sb.BBLOCK b)) b with
    | some bi =>
      obtain ⟨hi, hlt, hbit⟩ := findFree_eq_some hf
      have hdiv : (b + bi) / BPB = b / BPB ∧ (b + bi) % BPB = bi := by
        simp only [BPB] at hq hi ⊢
        omega
      have hB : sb.BBLOCK (b + bi) = sb.BBLOCK b := by
        rw [Superblock.BBLOCK, Superblock.BBLOCK, hdiv.1]
      have hclear : bitAt sb s.blocks (b + bi) = false := by rw [bitAt, hB, hdiv.2, hbit]
      have hres := hQ (b + bi) hlt hclear
      rwa [ballocFound, hB, hdiv.2] at hres
    | none =>
      refine ih (fun c hc => hbs c (.tail _ hc)) (hav.imp_right ?_)
      rintro ⟨c, hlt, hclear, hmem⟩
      refine ⟨c, hlt, hclear, (List.mem_cons.1 hmem).resolve_left fun he => ?_⟩
      have hB : sb.BBLOCK c = sb.BBLOCK b := by
        rw [Superblock.BBLOCK, Superblock.BBLOCK, ← he, Nat.mul_div_cancel _ (by decide)]
      have hsum : b + c % BPB = c := by
        simp only [BPB] at he ⊢
        omega
      refine findFree_ne_none (Nat.mod_lt c (by decide)) (by omega) ?_ hf
      rw [← hclear, bitAt, hB]

theorem wp_balloc_found (hav : Avail sb E (j + 1) s.blocks)
    (hQ : ∀ b < sb.size, bitAt sb s.blocks b = false →
      wp (ballocFound sb b (s.blocks (sb.BBLOCK b))) E Q s) :
    wp (balloc sb) E Q s := by
  refine wp_ballocFrom hQ _ (fun b hb => ?_) (hav.imp_right fun hj => ?_)
  · obtain ⟨q, -, rfl⟩ := List.mem_map.1 hb
    exact Nat.dvd_mul_left ..
  obtain ⟨b, hb⟩ := Finset.card_pos.1 (show 0 < freeCount sb s.blocks by omega)
  obtain ⟨hlt, hclear⟩ := Finset.mem_filter.1 hb
  refine ⟨b, Finset.mem_range.1 hlt, hclear, List.mem_map.2 ⟨b / BPB, ?_, rfl⟩⟩
  have := Finset.mem_range.1 hlt
  rw [List.mem_range]
  simp only [BPB]
  omega

/-- **`balloc`** returns a free block, marked and zeroed. -/
theorem wp_balloc (hr : Room sb E A (k + 1) s) (hA : bitmapBlocks sb ⊆ A)
    (hav : Avail sb E (j + 1) s.blocks)
    (hQ : ∀ b < sb.size, bitAt sb s.blocks b = false → Q (UInt32.ofNat b) (s.alloc sb b)) :
    wp (balloc sb) E Q s := by
  refine wp_balloc_found hav fun b hlt hclear => ?_
  simp only [ballocFound, bzero, wp_bind, wp_pure]
  exact wp_logWrite hr (wp_logWrite (hr.logWrite (hA (BBLOCK_mem_bitmapBlocks hlt)) _)
    (hQ b hlt hclear))

def Fs.free (sb : Superblock) (s : Fs) (b : ℕ) : Fs :=
  s.logWrite (sb.BBLOCK b) (clearBit (s.blocks (sb.BBLOCK b)) (b % BPB))

@[simp] theorem Fs.blocks_free : (s.free sb b).blocks = freeBlocks sb s.blocks b := rfl

@[simp] theorem Fs.inode_free : (s.free sb b).inode = s.inode := rfl

/-- **`bfree`** does not panic on a block in the hand. -/
theorem wp_bfree {Q : PUnit → Fs → Prop} {a : UInt32} (hr : Room sb E A k s)
    (hd : DiskInv T dirty (a.toNat ::ₘ held) s.blocks) (hQ : Q ⟨⟩ (s.free sb a.toNat)) :
    wp (bfree sb a) E Q s := by
  have hbit : bitSet (s.blocks (sb.BBLOCK a.toNat)) (a.toNat % BPB) = true := hd.free.1
  simp only [bfree, bread, wp_bind, wp_get, wp_pure, wp_ite, hbit]
  exact ⟨fun h => (by cases h), fun _ => wp_logWrite hr hQ⟩

end Xv6
