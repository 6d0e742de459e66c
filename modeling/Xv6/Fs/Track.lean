/-
# What the routines do to the inodes

`Fs.Keep` says that the routines of `kernel/fs.c` keep the file system in order.  Here the table of
inodes is in view: `dirlink` fills a slot of one directory, or finds the name and changes nothing; a
change of a link count changes one inode and no file.
-/

import Xv6.Fs.Walk

namespace Xv6

open Lib Function

variable {sb : Superblock} {T : Table sb} {R : Ip → ℕ} {L W : Finset Ip} {ip dp : Ip}
  {n : Fin sb.ninodes} {d : Dinode} {s s' : Fs} {E : Halt → Prop} {dirty : Set (Fin sb.ninodes)}

theorem FsInv.congr (h : FsInv T dirty R L W s) (hb : s'.blocks = s.blocks)
    (hi : s'.inode = s.inode) : FsInv T dirty R L W s' := by
  refine ⟨?_, ?_⟩
  · rw [hb]
    exact h.disk
  · rw [hi]
    exact h.cache

theorem FsInv.covers (h : FsInv T dirty R L W s) : Covers R L W := fun jp hjp =>
  hjp.elim (fun hL => ((h.cache.entry jp).held hL).1) fun hW => ((h.cache.entry jp).pin hW).1

theorem Covers.lock (h : Covers R L W) : Covers (R + Pi.single ip 1) (insert ip L) W :=
  fun jp hjp => by
  by_cases hj : jp = ip
  · rw [hj]
    exact single_pos
  · exact add_single_pos
      (h jp (hjp.imp (fun hmem => (Finset.mem_insert.1 hmem).resolve_left hj) id))

theorem FsInv.live (h : FsInv T dirty R L W s) (hL : ip ∈ L) (hn : (s.inode ip).inum = n) :
    Live R s.inode ip n :=
  ⟨((h.cache.entry ip).held hL).1, hn, ((h.cache.entry ip).held hL).2⟩

theorem FsInv.exists_num (h : FsInv T dirty R L W s) (ip : Ip) (hr : 0 < R ip) :
    ∃ n : Fin sb.ninodes, (s.inode ip).inum = n :=
  ⟨⟨_, ((h.cache.entry ip).num hr).2⟩, rfl⟩

/-! ### Directories -/

theorem EntryWritten.fileInv (h : EntryWritten T R L W dp n k de s d s')
    (hfile : FileInv T (files T s.blocks)) (ht : (T n).type = T_DIR)
    (hde : ∀ key ino, (Dirent.parse de).slot = some (key, ino) → ino < sb.ninodes) :
    FileInv (update T n d) (files (update T n d) s'.blocks) := by
  have hself : files (update T n d) s'.blocks n = d.fileBlock s'.blocks := by
    rw [files, update_self]
  refine hfile.update h.other (fun _ p hp => ?_) fun _ => ?_
  · rw [hself]
    exact h.full p hp
  rw [hself]
  refine dirs_iff.2 fun key ino hmem => ?_
  rw [h.slots] at hmem
  by_cases hslot : (Dirent.parse de).slot = some (key, ino)
  · exact hde key ino hslot
  · exact hfile.slot_lt ht (Slots.mem_setAt _ hslot hmem)

/-- **`dirlink`** finds the name and changes nothing, or fills a slot. -/
theorem FsInv.wp_dirlink {Q : ℤ → Fs → Prop} {name : List UInt8} {inum : ℕ}
    (hE : ∀ e, Usual e → E e) (h : FsInv T ∅ R L W s) (hl : Live R s.inode dp n)
    (hfile : FileInv T (files T s.blocks)) (ht : (T n).type = T_DIR)
    (hthere : cstring DIRSIZ name ∈ Slots.keys (entries (content s.blocks (T n))) →
      ∀ s', FsInv T ∅ R L W s' → s'.blocks = s.blocks → SameNums R s s' → Q (-1) s')
    (hnew : cstring DIRSIZ name ∉ Slots.keys (entries (content s.blocks (T n))) → ∀ k d s',
      Slots.Vacant (entries (content s.blocks (T n))) k → EntryWritten T R L W dp n k
      (direntBytes inum name) s d s' → Q 0 s') :
    wp (dirlink sb dp name inum) E Q s := by
  have hfull : NoHoles s.blocks (T n) := hfile.full n (h.cache.type_ne hl)
  have hlen : (entries (content s.blocks (T n))).length = (T n).size.toNat / DIRENT := by
    rw [length_entries, content, length_bytesAt]
  simp only [dirlink, wp_bind]
  refine h.wp_dirlookup hl hfile ht (hE _ (by decide)) (.inl (hE _ (by decide)))
    (fun hs hwhole => ?_) fun k ino ip s₁ hs htaken => ?_
  · obtain ⟨k, hk, hvacant⟩ := Slots.vacant_gap (i := 0) (t := entries (content s.blocks (T n)))
    rw [Nat.zero_add] at hk
    simp only [wp_bind, wp_get, wp_ite, wp_throw, wp_pure, h.cache.eq_table hl]
    rw [direntOffs_eq, if_pos hwhole, List.append_nil, ← hlen]
    refine wp_findEmptyFrom_scan _ 0 (h.readsAs hl hfull) (by simp) ?_
    rw [hk]
    refine h.wp_writeDirent hl hfull (.inl hwhole) ⟨hE _ (by decide), hE _ (by decide),
      hE _ (by decide)⟩ (length_direntBytes inum name) hvacant.1
      (fun _ => ⟨fun hr => absurd hr (by decide), fun _ => hE _ (by decide)⟩) fun d s' hw =>
      ⟨fun _ => hnew (Slots.search_eq_none.1 hs) k d s' hvacant hw, fun hne => absurd rfl hne⟩
  · have hmem : cstring DIRSIZ name ∈ Slots.keys (entries (content s.blocks (T n))) := by
      by_contra hno
      rw [Slots.search_eq_none.2 hno] at hs
      cases hs
    obtain ⟨m, hm⟩ := htaken.inv.exists_num ip single_pos
    simp only [wp_bind, wp_pure]
    refine htaken.inv.wp_iput h.covers hm (.inl ⟨hE _ (by decide), hE _ (by decide)⟩)
      (fun s' h' hb hnums => hthere hmem s' h' (hb.trans htaken.blocks) (htaken.nums.trans hnums))
      fun s' hfreed _ _ => ?_
    have hvalid := hfreed.valid
    rw [htaken.fresh hfreed.last] at hvalid
    cases hvalid

/-! ### Fields of an inode -/

/-- **Fields of an inode change** that say nothing about its blocks, in the cache and on disk; no
file sees it. -/
theorem FsInv.wp_setMeta {Q : PUnit → Fs → Prop} {f : Inode → Inode} (h : FsInv T ∅ R L W s)
    (hl : Live R s.inode ip n) (hlog : E (.panic .logTooBig) ∧ E (.panic .logOutside))
    (ht : d.type = (T n).type) (ha : d.addrs = (T n).addrs)
    (hf : f (s.inode ip) = { s.inode ip with toDinode := d })
    (hQ : ∀ s', FsInv (update T n d) ∅ R L W s' → Live R s'.inode ip n →
      s'.blocks = updateInode sb s.blocks n d → files (update T n d) s'.blocks = files T s.blocks →
      SameNums R s s' → Q ⟨⟩ s') :
    wp (iupdate sb ip) E Q (s.setInode ip f) := by
  obtain ⟨hinv, hlive, hfiles⟩ := h.setMeta hl ht ha hf
  refine wp_iupdate (A := ∅) (k := 0) hinv hlive (Room.of_admits hlog.1 hlog.2)
    fun s' hs' hinv' hfiles' => ?_
  rw [update_self] at hs'
  refine hQ s' (by simpa using hinv') ?_ (by rw [hs']; rfl) (hfiles'.trans hfiles) ?_
  · rw [hs']
    exact hlive
  · have hset : SameNums R s (s.setInode ip f) := .setInode fun jp => by
      rw [hf]
    rw [hs']
    exact hset

theorem FsInv.wp_setNlink {Q : PUnit → Fs → Prop} {f : UInt16 → UInt16} (h : FsInv T ∅ R L W s)
    (hl : Live R s.inode ip n) (hlog : E (.panic .logTooBig) ∧ E (.panic .logOutside))
    (hd : d = { T n with nlink := f (T n).nlink })
    (hQ : ∀ s', FsInv (update T n d) ∅ R L W s' → Live R s'.inode ip n →
      s'.blocks = updateInode sb s.blocks n d → files (update T n d) s'.blocks = files T s.blocks →
      SameNums R s s' → Q ⟨⟩ s') :
    wp (iupdate sb ip) E Q (s.setInode ip fun i => { i with nlink := f i.nlink }) := by
  have hT := h.cache.eq_table hl
  exact h.wp_setMeta hl hlog (by rw [hd]) (by rw [hd]) (by rw [hd, ← hT]) hQ

/-! ### New inodes -/

/-- **A free inode is claimed on disk.**  It had no places, and it has none now; the
cache cannot have had a valid copy of it. -/
theorem FsInv.claim {type : UInt16} (h : FsInv T ∅ R L W s) (h₀ : (T n).type = 0) (s' : Fs)
    (hb : s'.blocks = updateInode sb s.blocks n (Dinode.fresh type)) (hi : s'.inode = s.inode) :
    FsInv (update T n (Dinode.fresh type)) ∅ R L W s' ∧ ∀ m, m ≠ n →
    files (update T n (Dinode.fresh type)) s'.blocks m = files T s.blocks m := by
  have hplace : (Dinode.fresh type).place s.blocks = (T n).place s.blocks := by
    funext sl
    rw [Dinode.place_of_free h₀, Dinode.place_of_empty rfl]
  obtain ⟨hset, hsame⟩ := h.disk.setMeta hplace
  rw [insert_empty_eq] at hset
  obtain ⟨hdisk', hfiles⟩ := hset.updateInode (n := n)
  rw [update_self, ← hb] at hdisk' hfiles
  rw [Set.sdiff_self] at hdisk'
  refine ⟨⟨hdisk', fun ip => ?_, ?_⟩, fun m hm => ?_⟩
  · have he := h.cache.entry ip
    rw [hi]
    refine { he with sync := fun m hr hm hv => ?_ }
    obtain ⟨heq, hne⟩ := he.sync m hr hm hv
    have hmn : m ≠ n := by
      rintro rfl
      exact hne h₀
    rw [update_of_ne hmn]
    exact ⟨heq, hne⟩
  · rw [hi]
    exact h.cache.uniq
  · rw [hfiles, hsame]

theorem FileInv.claim {type : UInt16} {V V' : Fin sb.ninodes → ℕ → Option Block} (h : FileInv T V)
    (ho : ∀ m, m ≠ n → V' m = V m) : FileInv (Function.update T n (Dinode.fresh type)) V' := by
  have hsize : (Dinode.fresh type).size.toNat = 0 := rfl
  refine h.update ho (fun _ p hp => ?_) fun _ k hk => ?_
  · omega
  · simp only [DIRENT] at hk
    omega

/-- The free inode `n` was claimed and is in entry `ip` of the cache. -/
structure Claimed (T : Table sb) (R : Ip → ℕ) (L W : Finset Ip) (type : UInt16) (n : Fin sb.ninodes)
    (s : Fs) (ip : Ip) (s' : Fs) : Prop where
  free : (T n).type = 0
  inv : FsInv (update T n (Dinode.fresh type)) ∅ (R + Pi.single ip 1) L W s'
  other : ∀ m, m ≠ n → files (update T n (Dinode.fresh type)) s'.blocks m = files T s.blocks m
  inum : (s'.inode ip).inum = n
  pos : n.val ≠ 0
  nums : SameNums R s s'

theorem Claimed.fileInv {type : UInt16} (h : Claimed T R L W type n s ip s')
    (hfile : FileInv T (files T s.blocks)) :
    FileInv (update T n (Dinode.fresh type)) (files (update T n (Dinode.fresh type)) s'.blocks) :=
  hfile.claim h.other

section

variable {Q : Ip → Fs → Prop} {dev : ℕ} {type : UInt16}
  (hE : (E (.panic .logTooBig) ∧ E (.panic .logOutside)) ∧ E (.panic .igetNoInodes) ∧
  E (.panic .iallocNoInodes))
  (h : FsInv T ∅ R L W s) (hd : dev = ROOTDEV)
  (hQ : ∀ (n : Fin sb.ninodes) ip s', Claimed T R L W type n s ip s' → Q ip s')

include hE h hd hQ

theorem FsInv.wp_iallocFrom (inums : List ℕ) (hn : ∀ inum ∈ inums, inum ≠ 0 ∧ inum < sb.ninodes) :
    wp (iallocFrom sb dev type inums) E Q s := by
  induction inums with
  | nil =>
    simp only [iallocFrom, wp_throw]
    exact hE.2.2
  | cons inum inums ih =>
    obtain ⟨hpos, hlt⟩ := hn inum (.head _)
    have hT : getDinode (s.blocks (sb.IBLOCK inum)) (inum % IPB) = T ⟨inum, hlt⟩ :=
      h.disk.disk ⟨inum, hlt⟩ (Set.notMem_empty _)
    simp only [iallocFrom, bread, wp_bind, wp_get, wp_ite, wp_pure, hT]
    refine ⟨fun h₀ => wp_logWrite (A := ∅) (k := 0) (Room.of_admits hE.1.1 hE.1.2) ?_,
      fun _ => ih fun i hi => hn i (.tail _ hi)⟩
    obtain ⟨hinv, hother⟩ := h.claim h₀ (s.logWrite (sb.IBLOCK inum) _) rfl rfl
    refine hinv.wp_iget hE.2.1 hd hlt fun ip s' ht => hQ ⟨inum, hlt⟩ ip s'
      ⟨h₀, ht.inv, fun m hm => ?_, ht.inum, hpos, ht.nums⟩
    rw [ht.blocks]
    exact hother m hm

/-- **`ialloc`** claims a free inode and takes a reference to it. -/
theorem FsInv.wp_ialloc : wp (ialloc sb dev type) E Q s := by
  refine h.wp_iallocFrom hE hd hQ _ fun inum hi => ?_
  have := List.mem_range'_1.1 hi
  omega

end

end Xv6
