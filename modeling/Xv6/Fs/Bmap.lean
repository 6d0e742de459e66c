/-
# The inode cache and `bmap`

`CacheInv` ties the inode cache to the table of inodes: which entries are referenced and how often
(`R`), which are locked (`L`), and that a valid entry is the table's inode.  `W` are entries that
somebody relies on not to be directories.  After `bmap` the cached inode may be ahead of the disk.
-/

import Xv6.Fs.Alloc

namespace Xv6

open Lib Function

variable {sb : Superblock} {sl : Slot} {k : Fin (NDIRECT + 1)} {a : UInt32} {bn : ℕ}
  {Q : UInt32 → Fs → Prop} {B : Finset ℕ}

/-- An entry of the inode cache with `r` references, as it relates to the table. -/
structure Entry (T : Table sb) (r : ℕ) (locked pinned : Prop) (i : Inode) : Prop where
  ref : i.ref = r
  num : 0 < r → i.dev = ROOTDEV ∧ i.inum < sb.ninodes
  sync : ∀ n : Fin sb.ninodes, 0 < r → i.inum = n → i.valid = true → i.toDinode = T n ∧
    (T n).type ≠ 0
  lock : i.locked = true ↔ locked
  held : locked → 0 < r ∧ i.valid = true
  pin : pinned → 0 < r ∧ i.valid = true ∧ i.type ≠ T_DIR

/-- The inode cache holds entries of the table `T`, with reference counts `R` and
locks `L`, and one entry for each inode. -/
structure CacheInv (T : Table sb) (R : Ip → ℕ) (L W : Finset Ip) (c : Ip → Inode) : Prop where
  entry : ∀ ip, Entry T (R ip) (ip ∈ L) (ip ∈ W) (c ip)
  uniq : ∀ ip jp, 0 < R ip → 0 < R jp → (c ip).inum = (c jp).inum → ip = jp

/-- `ip` is a referenced entry, read from disk, of inode `n`. -/
structure Live (R : Ip → ℕ) (c : Ip → Inode) (ip : Ip) (n : Fin sb.ninodes) : Prop where
  ref : 0 < R ip
  inum : (c ip).inum = n
  valid : (c ip).valid = true

variable {T T' : Table sb} {R R' : Ip → ℕ} {L L' W W' : Finset Ip} {c : Ip → Inode} {ip : Ip}
  {n : Fin sb.ninodes} {d : Dinode} {i : Inode}

theorem CacheInv.eq_table (h : CacheInv T R L W c) (hl : Live R c ip n) :
    (c ip).toDinode = T n := ((h.entry ip).sync n hl.ref hl.inum hl.valid).1

theorem CacheInv.type_ne (h : CacheInv T R L W c) (hl : Live R c ip n) : (T n).type ≠ 0 :=
  ((h.entry ip).sync n hl.ref hl.inum hl.valid).2

theorem CacheInv.live (h : CacheInv T R L W c) (hL : ip ∈ L) :
    ∃ n : Fin sb.ninodes, Live R c ip n := by
  obtain ⟨hr, hv⟩ := (h.entry ip).held hL
  exact ⟨⟨(c ip).inum, ((h.entry ip).num hr).2⟩, hr, rfl, hv⟩

theorem Entry.congr (h : Entry T r locked pinned i)
    (hT : ∀ m : Fin sb.ninodes, 0 < r → i.inum = m → T' m = T m) : Entry T' r locked pinned i :=
  { h with
    sync := fun m hr hm hv => by
      rw [hT m hr hm]
      exact h.sync m hr hm hv }

/-- **One entry of the cache changes.**  The others keep their references, locks and
inodes, and none of them is for the inode of the changed entry. -/
theorem CacheInv.update (h : CacheInv T R L W c)
    (he : Entry T' (R' ip) (ip ∈ L') (ip ∈ W') i) (hR : ∀ jp, jp ≠ ip → R' jp = R jp)
    (hL : ∀ jp, jp ≠ ip → (jp ∈ L' ↔ jp ∈ L)) (hW : ∀ jp, jp ≠ ip → (jp ∈ W' ↔ jp ∈ W))
    (hT : ∀ jp, jp ≠ ip → ∀ m : Fin sb.ninodes, 0 < R jp → (c jp).inum = m → T' m = T m)
    (hu : 0 < R' ip → ∀ jp, jp ≠ ip → 0 < R jp → (c jp).inum ≠ i.inum) :
    CacheInv T' R' L' W' (Function.update c ip i) where
  entry jp := by
    by_cases hj : jp = ip
    · subst hj
      rwa [Function.update_self]
    · rw [Function.update_of_ne hj, hR jp hj, hL jp hj, hW jp hj]
      exact (h.entry jp).congr (hT jp hj)
  uniq jp kp hj hk he := by
    by_cases hjp : jp = ip <;> by_cases hkp : kp = ip
    · rw [hjp, hkp]
    · subst hjp
      rw [Function.update_self, Function.update_of_ne hkp] at he
      rw [hR kp hkp] at hk
      exact absurd he.symm (hu hj kp hkp hk)
    · subst hkp
      rw [Function.update_self, Function.update_of_ne hjp] at he
      rw [hR jp hjp] at hj
      exact absurd he (hu hk jp hjp hj)
    · rw [Function.update_of_ne hjp, Function.update_of_ne hkp] at he
      rw [hR jp hjp] at hj
      rw [hR kp hkp] at hk
      exact h.uniq jp kp hj hk he

theorem CacheInv.setDinode (h : CacheInv T R L W c) (hl : Live R c ip n) (ht : d.type ≠ 0)
    (hW : ip ∈ W → d.type ≠ T_DIR) :
    CacheInv (Function.update T n d) R L W (Function.update c ip { c ip with toDinode := d }) := by
  have hother : ∀ jp, jp ≠ ip → 0 < R jp → (c jp).inum ≠ (c ip).inum :=
    fun jp hj hr he => hj (h.uniq jp ip hr hl.ref he)
  refine h.update { h.entry ip with sync := ?_, pin := ?_ } (fun _ _ => rfl) (fun _ _ => Iff.rfl)
    (fun _ _ => Iff.rfl) (fun jp hj m hr hm => ?_) fun _ jp hj hr => hother jp hj hr
  · intro m _ hm _
    have hmn : m = n := Fin.ext (hm.symm.trans hl.inum)
    rw [hmn, Function.update_self]
    exact ⟨rfl, ht⟩
  · intro hp
    obtain ⟨hr, hv, -⟩ := (h.entry ip).pin hp
    exact ⟨hr, hv, hW hp⟩
  · refine Function.update_of_ne (fun he => hother jp hj hr ?_) _ _
    rw [hm, hl.inum, he]

theorem Live.setDinode (hl : Live R c ip n) :
    Live R (update c ip { c ip with toDinode := d }) ip n :=
  ⟨hl.ref, by simpa using hl.inum, by simpa using hl.valid⟩

/-! ### The file system between two steps -/

variable {dirty : Set (Fin sb.ninodes)} {held : Multiset ℕ} {blocks : Disk} {b : ℕ} {s : Fs}

/-- Disk and cache hold the table `T`, and no block is in a routine's hand. -/
structure FsInv (T : Table sb) (dirty : Set (Fin sb.ninodes)) (R : Ip → ℕ) (L W : Finset Ip)
    (s : Fs) : Prop where
  disk : DiskInv T dirty 0 s.blocks
  cache : CacheInv T R L W s.inode

theorem DiskInv.disk_update (h : DiskInv T dirty held blocks) {i : Fin sb.ninodes}
    (hi : i ∉ insert n dirty) : dinodeAt sb blocks i = update T n d i := by
  have hin : i ≠ n := fun he => hi (.inl he)
  rw [update_of_ne hin]
  exact h.disk i fun hd => hi (Set.mem_insert_of_mem _ hd)

theorem DiskInv.store (h : DiskInv T dirty (b ::ₘ held) blocks)
    (hp : places T blocks (n, sl) = none)
    (hpl : places (update T n d) blocks = update (places T blocks) (n, sl) (some b)) :
    DiskInv (update T n d) (insert n dirty) held blocks where
  bits := h.bits
  own := by
    rw [hpl]
    exact h.own.store hp
  disk _ := h.disk_update

def Slot.ofAddr (k : Fin (NDIRECT + 1)) : Slot :=
  if h : k.val < NDIRECT then .direct ⟨k, h⟩ else .indirect

theorem Slot.ofAddr_castSucc (j : Fin NDIRECT) : Slot.ofAddr j.castSucc = .direct j :=
  dif_pos j.isLt

theorem Slot.ofAddr_last : Slot.ofAddr (Fin.last NDIRECT) = .indirect :=
  dif_neg (by simp [Fin.last])

theorem Dinode.place_ofAddr (ht : d.type ≠ 0) (k : Fin (NDIRECT + 1)) :
    d.place blocks (Slot.ofAddr k) = ptr (d.addrs k) := by
  refine Fin.lastCases ?_ (fun j => ?_) k
  · rw [Slot.ofAddr_last, place_indirect ht]
  · rw [Slot.ofAddr_castSucc, place_direct ht]

theorem Dinode.place_setAddr (ht : d.type ≠ 0) (h₀ : d.addrs k = 0) (ha : a ≠ 0)
    (hz : blocks a.toNat = zeroBlock) :
    (d.setAddr k a).place blocks = update (d.place blocks) (Slot.ofAddr k) (some a.toNat) := by
  rw [← ptr_eq_some ha]
  revert h₀
  refine Fin.lastCases (fun h₀ => ?_) (fun j _ => ?_) k
  · rw [Slot.ofAddr_last, place_setIndirect ht h₀ ha hz]
  · rw [Slot.ofAddr_castSucc, place_setDirect ht]

theorem toNat_ofNat_of_lt_size (hb : b < sb.size) : (UInt32.ofNat b).toNat = b := by
  have := sb.size_lt
  simp only [UInt32.toNat_ofNat']
  omega

theorem ofNat_ne_zero (hb : b < sb.size) (hge : sb.nmeta ≤ b) : UInt32.ofNat b ≠ 0 := by
  intro he
  have ha := toNat_ofNat_of_lt_size hb
  have hpos : 0 < sb.nmeta := Superblock.nmeta_pos
  rw [he, UInt32.toNat_zero] at ha
  omega

theorem Dinode.setAddr_self (d : Dinode) (k : Fin (NDIRECT + 1)) : d.setAddr k (d.addrs k) = d := by
  rw [Dinode.setAddr, update_eq_self]

theorem Dinode.fileBlock_eq_none (hs : slotOf bn = some sl) :
    d.fileBlock blocks bn = none ↔ d.place blocks sl = none := by
  rw [Dinode.fileBlock, hs, Option.bind_some, Option.map_eq_none_iff]

/-- The blocks of a file after `bmap` made sure that slot `sl` is filled. -/
def fill (V : ℕ → Option Block) (sl : Slot) : ℕ → Option Block := fun bn =>
  if slotOf bn = some sl then some ((V bn).getD zeroBlock) else V bn

theorem fill_of_ne_none (h : ∀ bn, slotOf bn = some sl → V bn ≠ none) : fill V sl = V := by
  funext bn
  unfold fill
  split_ifs with hs
  · obtain ⟨v, hv⟩ := Option.ne_none_iff_exists'.1 (h bn hs)
    rw [hv, Option.getD_some]
  · rfl

theorem fill_indirect (V : ℕ → Option Block) : fill V .indirect = V :=
  fill_of_ne_none fun _ hs => absurd rfl (slotOf_ne_indirect hs)

theorem fill_of_slotOf (hs : slotOf bn = some sl) (V : ℕ → Option Block) :
    fill V sl = update V bn (some ((V bn).getD zeroBlock)) := by
  funext bn'
  unfold fill
  by_cases h : bn' = bn
  · rw [h, if_pos hs, update_self]
  · rw [if_neg fun hs' => h (slotOf_inj hs' hs), update_of_ne h]

variable {E : Halt → Prop} {A : Finset ℕ} {m j : ℕ}

/-- **An address of the inode, allocated if it was missing.** -/
theorem wp_bmapAddr (h : FsInv T dirty R L W s) (hl : Live R s.inode ip n)
    (hA : bitmapBlocks sb ⊆ A) (hr : Room sb E A (m + if (T n).addrs k = 0 then 1 else 0) s)
    (hav : Avail sb E (j + if (T n).addrs k = 0 then 1 else 0) s.blocks)
    (hQ : ∀ a s', a ≠ 0 → ((T n).addrs k ≠ 0 → a = (T n).addrs k) →
      FsInv (update T n ((T n).setAddr k a)) (insert n dirty) R L W s' →
      Live R s'.inode ip n →
      files (update T n ((T n).setAddr k a)) s'.blocks =
        update (files T s.blocks) n (fill (files T s.blocks n) (Slot.ofAddr k)) →
      Room sb E (if (T n).addrs k = 0 then insert a.toNat A else A) m s' →
      Avail sb E j s'.blocks → Q a s') :
    wp (bmapAddr sb ip k) E Q s := by
  have ht := h.cache.type_ne hl
  have hd := h.cache.eq_table hl
  have haddr : (s.inode ip).addrs k = (T n).addrs k := by rw [← hd]
  simp only [bmapAddr, setAddr, setInode, wp_bind, wp_get, wp_pure, wp_ite, wp_modify, haddr]
  refine ⟨fun h₀ => ?_, fun h₀ => ?_⟩
  · rw [if_pos h₀] at hr hav
    refine wp_balloc hr hA hav fun b hb hfree => ?_
    obtain ⟨hdisk, hplaces, hfiles⟩ := h.disk.alloc hb hfree
    have ha : (UInt32.ofNat b).toNat = b := toNat_ofNat_of_lt_size hb
    have hne : UInt32.ofNat b ≠ 0 := ofNat_ne_zero hb (h.disk.nmeta_le_of_free hfree)
    have hz : allocBlocks sb s.blocks b (UInt32.ofNat b).toNat = zeroBlock := by
      rw [ha, allocBlocks_self]
    have hpl := Dinode.place_setAddr ht h₀ hne hz
    rw [ha] at hpl
    have hnone : places T (allocBlocks sb s.blocks b) (n, Slot.ofAddr k) = none := by
      rw [places, Dinode.place_ofAddr ht, h₀, ptr_zero]
    have hupd := places_update_inode (T := T) (n := n) hpl fun i _ => rfl
    refine hQ _ _ hne (absurd h₀) ⟨hdisk.store hnone hupd, ?_⟩ ?_ ?_ ?_
      (Avail.alloc h.disk hav hb hfree)
    · have hset := h.cache.setDinode hl (d := (T n).setAddr k (UInt32.ofNat b)) ht fun hw => by
        rw [Dinode.type_setAddr, ← hd]
        exact ((h.cache.entry ip).pin hw).2.2
      simpa only [Fs.setInode, Fs.inode_alloc, hd] using hset
    · exact hl.setDinode
    · have hf := files_update_inode (T := T) (n := n) hpl (fun i _ => rfl) fun _ _ _ _ => rfl
      rw [Fs.setInode, Fs.blocks_alloc, hf, hfiles]
      congr 1
      funext bn
      unfold fill
      split_ifs with hs
      · have hbn : files T s.blocks n bn = none := by
          rw [files, Dinode.fileBlock_eq_none hs, Dinode.place_ofAddr ht, h₀, ptr_zero]
        rw [hbn, Option.map_some, allocBlocks_self, Option.getD_none]
      · rfl
    · rw [if_pos h₀, ha]
      exact hr.alloc hA hb
  · rw [if_neg h₀] at hr hav
    refine hQ _ _ h₀ (fun _ => rfl) ?_ hl ?_ (by rwa [if_neg h₀]) hav
    · rw [Dinode.setAddr_self, update_eq_self]
      refine ⟨{ h.disk with disk := fun i hi => h.disk.disk i fun hd' => ?_ }, h.cache⟩
      exact hi (Set.mem_insert_of_mem _ hd')
    · rw [Dinode.setAddr_self, update_eq_self, fill_of_ne_none, update_eq_self]
      intro bn hs
      rw [files, Ne, Dinode.fileBlock_eq_none hs, Dinode.place_ofAddr ht, ptr_eq_none_iff]
      exact h₀

theorem DiskInv.storeEntry {ind : ℕ} {k : Fin NINDIRECT}
    (h : DiskInv T dirty (a.toNat ::ₘ held) blocks) (ht : (T n).type ≠ 0) (ha : a ≠ 0)
    (hind : (T n).place blocks .indirect = some ind) (hk : (T n).place blocks (.entry k) = none)
    {blocks' : Disk}
    (hb : blocks' = update blocks ind ((blocks ind).setField 4 (4 * k.val) a.toNat)) :
    DiskInv T dirty held blocks' ∧ (T n).place blocks' (.entry k) = some a.toNat ∧
    files T blocks' = update (files T blocks) n fun bn => if slotOf bn = some (.entry k) then
    some (blocks a.toNat) else files T blocks n bn := by
  subst hb
  have hind' : places T blocks (n, .indirect) = some ind := hind
  have hge := h.place_ge hind'
  have hpl := Dinode.place_setEntry ht hind k a
  rw [ptr_eq_some ha] at hpl
  have ho :
    ∀ i, i ≠ n → (T i).place (update blocks ind ((blocks ind).setField 4 (4 * k.val) a.toNat)) =
        (T i).place blocks := by
    refine fun i hi => Dinode.place_update_block (fun hp => hi ?_) _
    exact congrArg Prod.fst (h.own.unique (p := (i, .indirect)) hp hind')
  have hplaces := places_update_inode hpl ho
  rw [update_eq_self] at hplaces
  have hane : a.toNat ≠ ind := fun he =>
    h.own.place_ne_of_held (Multiset.mem_cons_self ..) (he ▸ hind')
  refine ⟨⟨fun c hc => ?_, ?_, fun i hd => ?_⟩, ?_, ?_⟩
  · rw [bitAt_update_of_ge hge (hc.trans_le Superblock.nmeta_le), h.bits c hc]
  · rw [hplaces]
    exact (h.own.store (p := (n, .entry k)) hk).congr (InUse_update_of_ge hge _)
  · rw [dinodeAt_update_of_ge hge, h.disk i hd]
  · rw [hpl, update_self]
  have hf := files_update_inode hpl ho fun p c hp hne => by
    have hcne : c ≠ ind := fun he =>
      hne (congrArg Prod.snd (h.own.unique (he ▸ hp) hind'))
    rw [update_of_ne hcne]
  rw [update_eq_self] at hf
  rw [hf, Option.map_some, update_of_ne hane]

/-- **An entry of the indirect block, allocated if it was missing.** -/
theorem wp_bmapEntry {ind : UInt32} {k : Fin NINDIRECT} (h : FsInv T dirty R L W s)
    (ht : (T n).type ≠ 0) (hind : (T n).place s.blocks .indirect = some ind.toNat)
    (hA : bitmapBlocks sb ⊆ A) (hindA : ind.toNat ∈ A)
    (hr : Room sb E A (m + if (T n).place s.blocks (.entry k) = none then 1 else 0) s)
    (hav : Avail sb E (j + if (T n).place s.blocks (.entry k) = none then 1 else 0) s.blocks)
    (hQ : ∀ a s', FsInv T dirty R L W s' → s'.inode = s.inode →
      (T n).place s'.blocks (.entry k) = some a.toNat →
      files T s'.blocks = update (files T s.blocks) n (fill (files T s.blocks n) (.entry k)) →
      Room sb E (if (T n).place s.blocks (.entry k) = none then insert a.toNat A else A) m s' →
      Avail sb E j s'.blocks → Q a s') :
    wp (bmapEntry sb ind k) E Q s := by
  have hentry : (T n).place s.blocks (.entry k) = ptr (indirectEntry (s.blocks ind.toNat) k) := by
    rw [Dinode.place_entry ht, hind, Option.bind_some]
  simp only [bmapEntry, bread, wp_bind, wp_get, wp_pure, wp_ite]
  refine ⟨fun h₀ => ?_, fun h₀ => ?_⟩
  · have hnone : (T n).place s.blocks (.entry k) = none := by rw [hentry, ptr_eq_none_iff]; exact h₀
    rw [if_pos hnone] at hr hav
    refine wp_balloc hr hA hav fun b hb hfree => ?_
    obtain ⟨hdisk, hplaces, hfiles⟩ := h.disk.alloc hb hfree
    have ha : (UInt32.ofNat b).toNat = b := toNat_ofNat_of_lt_size hb
    have hge : sb.nmeta ≤ b := h.disk.nmeta_le_of_free hfree
    have hne : UInt32.ofNat b ≠ 0 := ofNat_ne_zero hb hge
    have hr' := hr.alloc hA hb
    have hind₁ : (T n).place (allocBlocks sb s.blocks b) .indirect = some ind.toNat :=
      (congrFun hplaces (n, .indirect)).trans hind
    have hk₁ : (T n).place (allocBlocks sb s.blocks b) (.entry k) = none :=
      (congrFun hplaces (n, .entry k)).trans hnone
    have hindge : sb.nmeta ≤ ind.toNat := h.disk.place_ge (p := (n, .indirect)) hind
    have hdisk' : DiskInv T dirty ((UInt32.ofNat b).toNat ::ₘ 0) (allocBlocks sb s.blocks b) := by
      rwa [ha]
    refine wp_logWrite hr' ?_
    obtain ⟨hd', hpl, hf⟩ := hdisk'.storeEntry ht hne hind₁ hk₁ rfl
    refine hQ _ _ ⟨hd', h.cache⟩ rfl hpl ?_ ?_ ?_
    · refine hf.trans ?_
      rw [hfiles, ha, allocBlocks_self]
      congr 1
      funext bn
      unfold fill
      split_ifs with hs
      · have hbn : files T s.blocks n bn = none := by
          rw [files, Dinode.fileBlock_eq_none hs, hnone]
        rw [hbn, Option.getD_none]
      · rfl
    · rw [if_pos hnone, ha]
      exact hr'.logWrite (Finset.mem_insert_of_mem hindA) _
    · exact (Avail.alloc h.disk hav hb hfree).write_data hindge _
  · have hsome : (T n).place s.blocks (.entry k) ≠ none := by
      rw [hentry, Ne, ptr_eq_none_iff]; exact h₀
    rw [if_neg hsome] at hr hav
    refine hQ _ _ h rfl ?_ ?_ (by rwa [if_neg hsome]) hav
    · exact hentry.trans (ptr_eq_some h₀)
    · rw [fill_of_ne_none, update_eq_self]
      intro bn hs
      rwa [files, Ne, Dinode.fileBlock_eq_none hs]

/-- What a routine that maps blocks of inode `d` may still log: the blocks of `B`, the
free map, the indirect block whether or not it exists yet, and `k` more. -/
def Budget (sb : Superblock) (E : Halt → Prop) (B : Finset ℕ) (k : ℕ) (d : Dinode)
    (s : Fs) : Prop :=
  ∃ A, B ⊆ A ∧ bitmapBlocks sb ⊆ A ∧
    (d.addrs (Fin.last NDIRECT) ≠ 0 → (d.addrs (Fin.last NDIRECT)).toNat ∈ A) ∧
    Room sb E A (k + if d.addrs (Fin.last NDIRECT) = 0 then 1 else 0) s

theorem Budget.of_admits (h₁ : E (.panic .logTooBig)) (h₂ : E (.panic .logOutside)) :
    Budget sb E B m d s :=
  ⟨insert (d.addrs (Fin.last NDIRECT)).toNat (B ∪ bitmapBlocks sb),
    Finset.subset_union_left.trans (Finset.subset_insert ..),
    Finset.subset_union_right.trans (Finset.subset_insert ..),
    fun _ => Finset.mem_insert_self .., Room.of_admits h₁ h₂⟩

theorem Budget.room (h : Budget sb E B m d s) :
    ∃ A, B ⊆ A ∧ bitmapBlocks sb ⊆ A ∧ Room sb E A m s := by
  obtain ⟨A, hB, hA, -, hr⟩ := h
  exact ⟨A, hB, hA, hr.mono (by omega)⟩

theorem Budget.logWrite (h : Budget sb E B m d s) (hb : b ∈ B) (data : Block) :
    Budget sb E B m d (s.logWrite b data) := by
  obtain ⟨A, hB, hA, hi, hr⟩ := h
  exact ⟨A, hB, hA, hi, hr.logWrite (hB hb) data⟩

theorem Budget.mono {B' : Finset ℕ} {k : ℕ} (h : Budget sb E B m d s) (hB : B' ⊆ B) (hk : k ≤ m) :
    Budget sb E B' k d s := by
  obtain ⟨A, hBA, hA, hi, hr⟩ := h
  exact ⟨A, hB.trans hBA, hA, hi, hr.mono (by omega)⟩

/-- How many blocks `bmap` has to allocate for block `bn` of inode `n`. -/
def missing (T : Table sb) (blocks : Disk) (n : Fin sb.ninodes) (bn : ℕ) : ℕ :=
  (if files T blocks n bn = none then 1 else 0) +
    if NDIRECT ≤ bn ∧ (T n).addrs (Fin.last NDIRECT) = 0 then 1 else 0

/-- What `bmap` leaves: a new version `d` of inode `n`, which differs from the old one
in its addresses only and has `a` as its `bn`-th block. -/
structure Mapped (T : Table sb) (dirty : Set (Fin sb.ninodes)) (R : Ip → ℕ) (L W : Finset Ip)
    (ip : Ip) (n : Fin sb.ninodes) (bn : ℕ) (s : Fs) (a : UInt32) (d : Dinode) (s' : Fs) :
    Prop where
  meta_eq : d = { T n with addrs := d.addrs }
  last_eq : bn < NDIRECT → d.addrs (Fin.last NDIRECT) = (T n).addrs (Fin.last NDIRECT)
  last_ne : ¬bn < NDIRECT → d.addrs (Fin.last NDIRECT) ≠ 0
  inv : FsInv (update T n d) (insert n dirty) R L W s'
  live : Live R s'.inode ip n
  place_eq : ∃ sl, slotOf bn = some sl ∧ d.place s'.blocks sl = some a.toNat
  files_eq : files (update T n d) s'.blocks = update (files T s.blocks) n
      (update (files T s.blocks n) bn (some ((files T s.blocks n bn).getD zeroBlock)))

section

variable (h : FsInv T dirty R L W s) (hl : Live R s.inode ip n) (hb : Budget sb E B (m + 1) (T n) s)
  (hav : Avail sb E (j + missing T s.blocks n bn) s.blocks)
  (hQ : ∀ a d s', Mapped T dirty R L W ip n bn s a d s' →
    Budget sb E (insert a.toNat B) m d s' → Avail sb E j s'.blocks → Q a s')
include h hl hb hav hQ

theorem wp_bmap_direct (hlt : bn < NDIRECT) :
    wp (bmapAddr sb ip ⟨bn, Nat.lt_succ_of_lt hlt⟩) E Q s := by
  obtain ⟨A, hBA, hA, hiA, hr⟩ := hb
  have ht := h.cache.type_ne hl
  set k : Fin (NDIRECT + 1) := ⟨bn, Nat.lt_succ_of_lt hlt⟩ with hk
  have hkc : k = Fin.castSucc ⟨bn, hlt⟩ := rfl
  have hs : slotOf bn = some (Slot.ofAddr k) := by
    rw [slotOf_of_lt hlt, hkc, Slot.ofAddr_castSucc]
  have hmiss : (T n).addrs k = 0 ↔ files T s.blocks n bn = none := by
    rw [files, Dinode.fileBlock_eq_none hs, Dinode.place_ofAddr ht, ptr_eq_none_iff]
  have hlast : ∀ a, ((T n).setAddr k a).addrs (Fin.last NDIRECT) = (T n).addrs (Fin.last NDIRECT) :=
    fun a => by
    rw [Dinode.addrs_setAddr, update_of_ne]
    rw [hkc]
    exact (Fin.castSucc_ne_last _).symm
  have hdir : ¬(NDIRECT ≤ bn ∧ (T n).addrs (Fin.last NDIRECT) = 0) := fun hc => by omega
  rw [missing, if_neg hdir, Nat.add_zero, ← if_congr hmiss rfl rfl] at hav
  -- the block costs one entry of the log, whether it is new or not
  refine wp_bmapAddr (m := m + (if (T n).addrs (Fin.last NDIRECT) = 0 then 1 else 0) +
    if (T n).addrs k = 0 then 0 else 1) (j := j) h hl hA (hr.mono ?_) hav ?_
  · split_ifs <;> omega
  intro a s' ha _ hinv hlive hfiles hroom hav'
  have ht' : ((T n).setAddr k a).type ≠ 0 := ht
  refine hQ a ((T n).setAddr k a) s' ⟨rfl, fun _ => hlast a, fun hc => absurd hlt hc, hinv,
    hlive, ⟨_, hs, ?_⟩, ?_⟩ ⟨insert a.toNat A, Finset.insert_subset_insert _ hBA,
      hA.trans (Finset.subset_insert ..), fun hne => ?_, ?_⟩ hav'
  · rw [Dinode.place_ofAddr ht', Dinode.addrs_setAddr, update_self, ptr_eq_some ha]
  · rw [hfiles, fill_of_slotOf hs]
  · rw [hlast] at hne ⊢
    exact Finset.mem_insert_of_mem (hiA hne)
  · rw [hlast]
    by_cases h₀ : (T n).addrs k = 0
    · rwa [if_pos h₀, if_pos h₀, Nat.add_zero] at hroom
    · rw [if_neg h₀, if_neg h₀] at hroom
      exact hroom.extend _

theorem wp_bmap_indirect (hge : ¬bn < NDIRECT) (hlt : bn - NDIRECT < NINDIRECT) :
    wp (bmapAddr sb ip (Fin.last NDIRECT)) E
    (fun ind s' => wp (bmapEntry sb ind (bn - NDIRECT)) E Q s') s := by
  obtain ⟨A, hBA, hA, hiA, hr⟩ := hb
  have ht := h.cache.type_ne hl
  set k : Fin NINDIRECT := ⟨bn - NDIRECT, hlt⟩ with hk
  have hs : slotOf bn = some (.entry k) := slotOf_of_ge hge hlt
  have hind : NDIRECT ≤ bn ∧ (T n).addrs (Fin.last NDIRECT) = 0 ↔
      (T n).addrs (Fin.last NDIRECT) = 0 := and_iff_right (Nat.not_lt.1 hge)
  rw [missing, if_congr hind rfl rfl, ← Nat.add_assoc] at hav
  refine wp_bmapAddr h hl hA hr hav ?_
  intro ind s₁ hne hold hinv hlive hfiles hroom hav₁
  rw [Slot.ofAddr_last, fill_indirect, update_eq_self] at hfiles
  set d := (T n).setAddr (Fin.last NDIRECT) ind with hd
  have ht' : d.type ≠ 0 := ht
  have hT : update T n d n = d := update_self ..
  have hlast : d.addrs (Fin.last NDIRECT) = ind := by rw [hd, Dinode.addrs_setAddr, update_self]
  have hpind : (update T n d n).place s₁.blocks .indirect = some ind.toNat := by
    rw [hT, Dinode.place_indirect ht', hlast, ptr_eq_some hne]
  have hmiss : (update T n d n).place s₁.blocks (.entry k) = none ↔
      files T s.blocks n bn = none := by
    rw [← hfiles, files, Dinode.fileBlock_eq_none hs]
  set A₁ := if (T n).addrs (Fin.last NDIRECT) = 0 then insert ind.toNat A else A with hA₁
  have hsub : A ⊆ A₁ := by
    rw [hA₁]
    split_ifs
    · exact Finset.subset_insert ..
    · exact subset_rfl
  have hindA : ind.toNat ∈ A₁ := by
    rw [hA₁]
    split_ifs with h₀
    · exact Finset.mem_insert_self ..
    · rw [hold h₀]
      exact hiA h₀
  refine wp_bmapEntry (n := n) (k := k) (m := m + if files T s.blocks n bn = none then 0 else 1)
    (j := j) hinv (by rwa [hT]) hpind (hA.trans hsub) hindA (hroom.mono ?_) ?_ ?_
  · rw [if_congr hmiss rfl rfl]
    split_ifs <;> omega
  · rwa [if_congr hmiss rfl rfl]
  intro a s₂ hinv₂ hinode hplace hfiles₂ hroom₂ hav₂
  rw [hT] at hplace
  rw [hfiles, fill_of_slotOf hs] at hfiles₂
  refine hQ a d s₂ ⟨rfl, fun hc => absurd hc hge, fun _ => by rwa [hlast], hinv₂, hinode ▸ hlive,
    ⟨_, hs, hplace⟩, hfiles₂⟩ ⟨insert a.toNat A₁, Finset.insert_subset_insert _ (hBA.trans hsub),
      (hA.trans hsub).trans (Finset.subset_insert ..), fun _ => ?_, ?_⟩ hav₂
  · rw [hlast]
    exact Finset.mem_insert_of_mem hindA
  rw [hlast, if_neg hne, Nat.add_zero]
  rw [if_congr hmiss rfl rfl] at hroom₂
  by_cases h₀ : files T s.blocks n bn = none
  · rwa [if_pos h₀, if_pos h₀, Nat.add_zero] at hroom₂
  · rw [if_neg h₀, if_neg h₀] at hroom₂
    exact hroom₂.extend _

/-- **`bmap`** returns the block of the file, allocating what is missing. -/
theorem wp_bmap (hbn : bn < MAXFILE) :
    wp (bmap sb ip bn) E Q s := by
  simp only [bmap, wp_dite, wp_ite, wp_bind, wp_throw]
  refine ⟨fun hlt => wp_bmap_direct h hl hb hav hQ hlt, fun hge => ⟨fun hlt =>
    wp_bmap_indirect h hl hb hav hQ hge hlt, fun hge' => absurd hge' ?_⟩⟩
  simp only [NDIRECT, NINDIRECT, MAXFILE] at *
  omega

end

end Xv6
