/-
# A directory is a finite map

The names in a directory stay distinct, so it is a finite map from names, cut to `DIRSIZ` bytes, to
inode numbers.  The routines work on one locked entry of the inode cache (`DirHeld`); their rules,
which speak of the whole cache, are used on a cache with that entry alone and carried back
(`Local.of_graft`).
-/

import Xv6.Fs.Entries

namespace Xv6

open Lib Function

/-! ### `iget` and `iput` around a lookup -/

section

variable {sb : Superblock} {s : Fs} {E : Halt → Prop} {Q : ℤ → Fs → Prop} {ip : Ip}

/-- **`iget`** of any inode number: one more reference to the entry of the inode, or an entry
without references is recycled. -/
theorem wp_iget_cases {Q : Ip → Fs → Prop} {dev inum : ℕ} (hE : E (.panic .igetNoInodes))
    (hold : ∀ ip, 0 < (s.inode ip).ref → (s.inode ip).inum = inum →
      Q ip (s.setInode ip fun i => { i with ref := i.ref + 1 }))
    (hnew : ∀ ip, (s.inode ip).ref = 0 →
      Q ip (s.setInode ip fun i => { i with dev := dev, inum := inum, ref := 1, valid := false })) :
    wp (iget dev inum) E Q s := by
  simp only [iget, setInode, wp_bind, wp_get]
  split
  · rename_i ip hfind
    have hip := List.find?_some hfind
    simp only [decide_eq_true_eq] at hip
    simp only [wp_bind, wp_modify, wp_pure]
    exact hold ip hip.1 hip.2.2
  · split
    · rw [wp_throw]
      exact hE
    · rename_i ip hfind
      have hip := List.find?_some hfind
      simp only [decide_eq_true_eq] at hip
      simp only [wp_bind, wp_modify, wp_pure]
      exact hnew ip hip

/-- `iput` of an entry that is not the last reference to an inode that was read. -/
theorem wp_iput_keeps {Q : PUnit → Fs → Prop}
    (h : (s.inode ip).ref ≠ 1 ∨ (s.inode ip).valid = false)
    (hQ : Q ⟨⟩ (s.setInode ip fun i => { i with ref := i.ref - 1 })) : wp (iput sb ip) E Q s := by
  simp only [iput, setInode, wp_bind, wp_get, wp_ite, wp_modify]
  refine ⟨fun hlast => ?_, fun _ => hQ⟩
  rcases h with h | h
  · exact absurd hlast.1 h
  · rw [h] at hlast
    exact absurd hlast.2.1 Bool.false_ne_true

end

/-! ### A directory in the hands of a routine -/

/-- The entry `dp` of the cache is locked and holds the directory with number `n`. -/
structure DirHeld {sb : Superblock} (T : Table sb) (n : Fin sb.ninodes) (dp : Ip)
    (s : Fs) : Prop where
  disk : DiskInv T ∅ 0 s.blocks
  dev : (s.inode dp).dev = ROOTDEV
  inum : (s.inode dp).inum = n
  ref : 0 < (s.inode dp).ref
  locked : (s.inode dp).locked = true
  valid : (s.inode dp).valid = true
  table : (s.inode dp).toDinode = T n
  type : (T n).type = T_DIR
  full : NoHoles s.blocks (T n)
  whole : DIRENT ∣ (T n).size.toNat

/-- The slots of the directory that entry `dp` of the cache holds. -/
def slotsOf (dp : Ip) (s : Fs) : List (Option (List UInt8 × ℕ)) :=
  entries (content s.blocks (s.inode dp).toDinode)

def unusedInode : Inode :=
  { Dinode.fresh 0 with dev := 0, inum := 0, ref := 0, locked := false, valid := false }

namespace DirHeld

variable {sb : Superblock} {T : Table sb} {n : Fin sb.ninodes} {dp : Ip} {s s' : Fs}
  {E : Halt → Prop} {name : List UInt8}

section

variable (h : DirHeld T n dp s)
include h

theorem slotsOf_eq : slotsOf dp s = entries (content s.blocks (T n)) := by
  rw [slotsOf, h.table]

theorem congr (hi : s'.inode dp = { s.inode dp with ref := r }) (hr : 0 < r)
    (hb : s'.blocks = s.blocks) : DirHeld T n dp s' ∧ slotsOf dp s' = slotsOf dp s := by
  refine ⟨⟨?_, ?_, ?_, ?_, ?_, ?_, ?_, h.type, ?_, h.whole⟩, ?_⟩
  · rw [hb]
    exact h.disk
  · rw [hi]
    exact h.dev
  · rw [hi]
    exact h.inum
  · rw [hi]
    exact hr
  · rw [hi]
    exact h.locked
  · rw [hi]
    exact h.valid
  · rw [hi]
    exact h.table
  · rw [hb]
    exact h.full
  · rw [slotsOf, hb, hi, slotsOf]

theorem elsewhere (hr : (s.inode ip).ref = 0) (f : Inode → Inode) :
    DirHeld T n dp (s.setInode ip f) ∧ slotsOf dp (s.setInode ip f) = slotsOf dp s := by
  have hne : dp ≠ ip := fun he => by
    have := h.ref
    rw [he, hr] at this
    exact absurd this (by decide)
  have hentry : (s.setInode ip f).inode dp = s.inode dp := update_of_ne hne _ _
  exact h.congr hentry h.ref rfl

theorem fsInv :
    FsInv T ∅ (Pi.single dp (s.inode dp).ref) {dp} ∅ (s.graft dp fun _ => unusedInode) where
  disk := h.disk
  cache := by
    refine ⟨fun ip => ?_, fun ip jp hi hj _ => ?_⟩
    · by_cases hip : ip = dp
      · subst hip
        rw [Fs.inode_graft, Pi.single_eq_same]
        refine ⟨rfl, fun _ => ⟨h.dev, h.inum ▸ n.isLt⟩, fun m _ hm _ => ?_, ?_,
          fun _ => ⟨h.ref, h.valid⟩, ?_⟩
        · have hmn : m = n := Fin.ext (hm.symm.trans h.inum)
          rw [hmn, h.type]
          exact ⟨h.table, by decide⟩
        · simp [h.locked]
        · simp
      · have hzero : (Pi.single dp (s.inode dp).ref : Ip → ℕ) ip = 0 := Pi.single_eq_of_ne hip _
        have hun : (s.graft dp fun _ => unusedInode).inode ip = unusedInode := by
          simp [Fs.graft, hip]
        rw [hzero, hun]
        exact ⟨rfl, fun h => absurd h (by decide), fun _ h => absurd h (by decide), by
          simp [hip, unusedInode],
          by simp [hip], by simp⟩
    · have honly (kp : Ip) (hk : 0 < (Pi.single dp (s.inode dp).ref : Ip → ℕ) kp) : kp = dp := by
        by_contra hne
        rw [Pi.single_eq_of_ne hne] at hk
        exact absurd hk (by decide)
      rw [honly ip hi, honly jp hj]

theorem live : Live (Pi.single dp (s.inode dp).ref) (s.graft dp fun _ => unusedInode).inode dp n :=
  ⟨by rw [Pi.single_eq_same]; exact h.ref, by rw [Fs.inode_graft]; exact h.inum,
    by rw [Fs.inode_graft]; exact h.valid⟩

theorem readsAs (p : Panic) : ReadsAs sb dp p E s 0 (slotsOf dp s) := by
  rw [h.slotsOf_eq]
  intro i hi
  refine (local_readDirent _ _).of_graft s _ (wp_mono (h.fsInv.readsAs h.live h.full i hi) ?_)
  rintro de s' ⟨rfl, hde⟩
  exact ⟨Fs.graft_graft .., hde⟩

theorem offs_eq :
    direntOffs (s.inode dp).size.toNat = (List.range' 0 (slotsOf dp s).length).map
    (DIRENT * ·) := by
  have hlen : (slotsOf dp s).length = (T n).size.toNat / DIRENT := by
    rw [h.slotsOf_eq, length_entries, content, length_bytesAt]
  have hsize : (s.inode dp).size = (T n).size := by rw [← h.table]
  rw [hlen, hsize, direntOffs_eq, if_pos h.whole, List.append_nil]

/-- **`dirlookup`** is the search for the name, and takes a reference to what it finds. -/
theorem wp_dirlookup {Q : Option (Ip × ℕ) → Fs → Prop}
    (hnone : Slots.search (cstring DIRSIZ name) 0 (slotsOf dp s) = none → Q none s)
    (hsome : ∀ k ino, Slots.search (cstring DIRSIZ name) 0 (slotsOf dp s) = some (k, ino) →
      wp (iget ROOTDEV ino) E (fun ip s' => Q (some (ip, DIRENT * k)) s') s) :
    wp (dirlookup sb dp name) E Q s := by
  have htype : (s.inode dp).type = T_DIR := by rw [← h.type, ← h.table]
  simp only [dirlookup, wp_bind, wp_get, wp_ite]
  refine ⟨fun _ => ?_, fun hne => absurd htype hne⟩
  rw [h.offs_eq, ← List.append_nil ((List.range' 0 _).map _)]
  refine wp_dirlookupFrom_scan _ 0 [] (h.readsAs _) (fun hs => wp_pure.2 (hnone hs))
    fun k ino hs => ?_
  rw [h.dev]
  exact hsome k ino hs

variable (hE : E (.panic .logTooBig) ∧ E (.panic .logOutside) ∧ E (.panic .ballocOutOfBlocks))
include hE

/-- **Writing an entry** replaces a slot, or adds one; only the file's largest size can make it
fail. -/
theorem wp_writeDirent
    (hde : de.length = DIRENT) (hk : k ≤ (slotsOf dp s).length)
    (hrej : MAXFILE * BSIZE < DIRENT * k + DIRENT → Q (-1) s)
    (hQ : ∀ T' s', DirHeld T' n dp s' → slotsOf dp s' = Slots.setAt (slotsOf dp s) k
      (Dirent.parse de).slot → Q DIRENT s') : wp (writeDirent sb dp (DIRENT * k) de) E Q s := by
  rw [h.slotsOf_eq] at hk hQ
  refine (local_writei _ _ _).of_graft s _
    (h.fsInv.wp_writeDirent h.live h.full (.inl h.whole) hE hde hk (fun hbig => by
      rw [Fs.graft_graft]; exact hrej hbig) fun d s' hw => ?_)
  have hself : update T n d n = d := update_self ..
  have hentry := hw.inv.cache.entry dp
  have hdin : (s'.inode dp).toDinode = d := by rw [hw.inv.cache.eq_table hw.live, hself]
  have hs' : (s'.graft dp s.inode).inode dp = s'.inode dp := Fs.inode_graft ..
  refine hQ (update T n d) (s'.graft dp s.inode) ?_ ?_
  · have hnum := hentry.num hw.live.ref
    refine ⟨hw.inv.disk, ?_, ?_, ?_, ?_, ?_, ?_, ?_, ?_, ?_⟩
    · rw [hs']
      exact hnum.1
    · rw [hs']
      exact hw.live.inum
    · rw [hs', hentry.ref]
      exact hw.live.ref
    · rw [hs', hentry.lock]
      exact Finset.mem_singleton_self dp
    · rw [hs']
      exact hw.live.valid
    · rw [hs', hdin, hself]
    · rw [hself, hw.meta_eq]
      exact h.type
    · rw [hself]
      exact hw.full
    · rw [hself]
      exact hw.whole h.whole
  · rw [slotsOf, hs', hdin]
    exact hw.slots

/-- **`dirlink`**: the name is there and nothing changes, or it gets a slot. -/
theorem wp_dirlink {inum : ℕ}
    (hget : E (.panic .igetNoInodes))
    (hroom : (T n).size.toNat + DIRENT ≤ MAXFILE * BSIZE ∨ E (.panic .dirlink))
    (hthere : cstring DIRSIZ name ∈ Slots.keys (slotsOf dp s) → ∀ s', DirHeld T n dp s' →
      s'.blocks = s.blocks → slotsOf dp s' = slotsOf dp s → Q (-1) s')
    (hnew : cstring DIRSIZ name ∉ Slots.keys (slotsOf dp s) → ∀ T' k s', DirHeld T' n dp s' →
      Slots.Vacant (slotsOf dp s) k →
      slotsOf dp s' = Slots.setAt (slotsOf dp s) k (Dirent.parse (direntBytes inum name)).slot →
      Q 0 s') :
    wp (dirlink sb dp name inum) E Q s := by
  simp only [dirlink, wp_bind]
  refine h.wp_dirlookup (fun hs => ?_) fun k ino hs => ?_
  · have habsent := Slots.search_eq_none.1 hs
    obtain ⟨k, hk, hvacant⟩ := Slots.vacant_gap (i := 0) (t := slotsOf dp s)
    rw [Nat.zero_add] at hk
    have hlen : (slotsOf dp s).length = (T n).size.toNat / DIRENT := by
      rw [h.slotsOf_eq, length_entries, content, length_bytesAt]
    simp only [wp_bind, wp_get, wp_ite, wp_throw, wp_pure]
    rw [h.offs_eq]
    refine wp_findEmptyFrom_scan _ 0 (h.readsAs _) (by simp) ?_
    rw [hk]
    refine h.wp_writeDirent hE (length_direntBytes inum name) hvacant.1
      (fun hbig => ⟨fun hr => ?_, fun _ => ?_⟩) fun T' s' h' hslots =>
        ⟨fun _ => hnew habsent T' k s' h' hvacant hslots, fun hne => absurd rfl hne⟩
    · exact absurd hr (by decide)
    · refine hroom.resolve_left fun hfit => ?_
      have := hvacant.1
      simp only [DIRENT] at *
      omega
  · have hmem : cstring DIRSIZ name ∈ Slots.keys (slotsOf dp s) := by
      by_contra hno
      rw [Slots.search_eq_none.2 hno] at hs
      cases hs
    simp only [wp_bind, wp_pure]
    refine wp_iget_cases hget (fun ip hr _ => ?_) fun ip hr => ?_
    · refine wp_iput_keeps (.inl ?_) ?_
      · rw [Fs.inode_setInode_self]
        show (s.inode ip).ref + 1 ≠ 1
        omega
      · rw [Fs.setInode_setInode]
        have hsame : (s.setInode ip fun i => { i with ref := i.ref + 1 - 1 }) = s := by
          simp [Fs.setInode]
        have := hthere hmem s h rfl rfl
        rwa [← hsame] at this
    · refine wp_iput_keeps (.inr (by rw [Fs.inode_setInode_self])) ?_
      rw [Fs.setInode_setInode]
      obtain ⟨h', hslots⟩ := h.elsewhere hr fun i =>
        { i with dev := ROOTDEV, inum := ino, ref := 1 - 1, valid := false }
      exact hthere hmem _ h' rfl hslots

omit hE in
theorem wp_iget {Q : Ip → Fs → Prop} {dev ino : ℕ} (hE : E (.panic .igetNoInodes))
    (hQ : ∀ ip s', DirHeld T n dp s' → slotsOf dp s' = slotsOf dp s →
      (s'.inode ip).inum = ino → Q ip s') :
    wp (iget dev ino) E Q s := by
  refine wp_iget_cases hE (fun ip hr hnum => ?_) fun ip hr => ?_
  · have hentry : (s.setInode ip fun i => { i with ref := i.ref + 1 }).inode dp =
        { s.inode dp with ref := if dp = ip then (s.inode dp).ref + 1 else (s.inode dp).ref } := by
      by_cases hdp : dp = ip
      · subst hdp
        simp [Fs.setInode]
      · simp [Fs.setInode, hdp]
    have hpos : 0 < if dp = ip then (s.inode dp).ref + 1 else (s.inode dp).ref := by
      have := h.ref
      split_ifs <;> omega
    obtain ⟨h', hslots⟩ := h.congr hentry hpos rfl
    exact hQ ip _ h' hslots (by simpa [Fs.setInode] using hnum)
  · obtain ⟨h', hslots⟩ :=
      h.elsewhere hr fun i => { i with dev := dev, inum := ino, ref := 1, valid := false }
    exact hQ ip _ h' hslots (by simp [Fs.setInode])

/-- **The erasure of an entry**: zeros over the entry that the search for the name ends at. -/
theorem wp_erase
    (hs : Slots.search key 0 (slotsOf dp s) = some (k, ino))
    (hQ : ∀ T' s', DirHeld T' n dp s' → slotsOf dp s' = Slots.setAt (slotsOf dp s) k none →
      Q DIRENT s') :
    wp (writeDirent sb dp (DIRENT * k) (List.replicate DIRENT 0)) E Q s := by
  obtain ⟨a, b, ht, -, hk⟩ := Slots.search_eq_some.1 hs
  have hlt : k < (slotsOf dp s).length := by
    rw [ht, hk]
    simp
  have hfits : DIRENT * k + DIRENT ≤ (T n).size.toNat := by
    rw [h.slotsOf_eq, length_entries, content, length_bytesAt] at hlt
    simp only [DIRENT] at *
    omega
  refine h.wp_writeDirent hE List.length_replicate hlt.le (fun hbig => ?_) fun T' s' h' hslots =>
    hQ T' s' h' ?_
  · have := h.full.size_le
    omega
  · rw [hslots, slot_zero]

end

end DirHeld

/-! ### Any sequence of operations -/

/-- Entry `dp` of the cache holds a directory, locked, and the file system is in order. -/
def HoldsDir (sb : Superblock) (dp : Ip) (s : Fs) : Prop :=
  ∃ (T : Table sb) (n : Fin sb.ninodes), DirHeld T n dp s

/-- What happens to a directory while its lock is held, and then held again.  `dirlink` enters a
name; `unlink` looks a name up, locks and checks what it finds, and writes an empty entry over the
one with the name; or something else goes on that does not change the directory, after which it may
be in hand through another entry of the cache. -/
inductive DirRun (sb : Superblock) (dp₀ : Ip) (s₀ : Fs) : Ip → Fs → Prop
  | start : DirRun sb dp₀ s₀ dp₀ s₀
  | link {dp : Ip} {s s' : Fs} {name : List UInt8} {inum : ℕ} {r : ℤ} (h : DirRun sb dp₀ s₀ dp s)
    (hname : 0 ∉ name)
      (hpos : inum ≠ 0) (hlt : inum < 2 ^ 16)
      (hrun : (dirlink sb dp name inum).run s = .ok (r, s')) : DirRun sb dp₀ s₀ dp s'
  | erase {dp ip : Ip} {s s₁ s₂ s' : Fs} {name : List UInt8} {off : ℕ} {r : ℤ}
    (h : DirRun sb dp₀ s₀ dp s)
      (hname : 0 ∉ name) (hfound : (dirlookup sb dp name).run s = .ok (some (ip, off), s₁))
      (hheld : HoldsDir sb dp s₂) (hsame : slotsOf dp s₂ = slotsOf dp s₁)
      (hrun : (writeDirent sb dp off (List.replicate DIRENT 0)).run s₂ = .ok (r, s')) :
    DirRun sb dp₀ s₀ dp s'
  | other {dp dp' : Ip} {s s' : Fs} (h : DirRun sb dp₀ s₀ dp s) (hheld : HoldsDir sb dp' s')
      (hsame : slotsOf dp' s' = slotsOf dp s) : DirRun sb dp₀ s₀ dp' s'

section

variable {sb : Superblock} {dp₀ dp : Ip} {s₀ s : Fs} {E : Halt → Prop}
  {name : List UInt8} {inum : ℕ}

structure LookedUp (sb : Superblock) (dp : Ip) (name : List UInt8) (s : Fs) (r : Option (Ip × ℕ))
    (s' : Fs) : Prop where
  held : HoldsDir sb dp s'
  same : slotsOf dp s' = slotsOf dp s
  value : r.map (fun x => (s'.inode x.1).inum) = Slots.lookup (slotsOf dp s) (name.take DIRSIZ)
  offset : ∀ ip off, r = some (ip, off) →
    ∃ k ino, off = DIRENT * k ∧ Slots.search (name.take DIRSIZ) 0 (slotsOf dp s) = some (k, ino)

theorem HoldsDir.wp_dirlookup (h : HoldsDir sb dp s) (hget : E (.panic .igetNoInodes))
    (hname : 0 ∉ name) : wp (dirlookup sb dp name) E (LookedUp sb dp name s) s := by
  have hheld := h
  obtain ⟨T, n, h⟩ := h
  refine h.wp_dirlookup (fun hs => ?_) fun k ino hs => ?_
  · rw [cstring_of_not_mem hname] at hs
    exact ⟨hheld, rfl, by simp [Slots.lookup, hs], fun ip off hr => absurd hr (by simp)⟩
  · rw [cstring_of_not_mem hname] at hs
    refine h.wp_iget hget fun ip s₁ h₁ hslots hnum =>
      ⟨⟨T, n, h₁⟩, hslots, by simp [Slots.lookup, hs, hnum], ?_⟩
    rintro ip' off hr
    simp only [Option.some.injEq, Prod.mk.injEq] at hr
    exact ⟨k, ino, hr.2.symm, hs⟩

/-- What `dirlink` of the name to the inode has done. -/
structure EntryAdded (sb : Superblock) (dp : Ip) (name : List UInt8) (inum : ℕ) (s : Fs) (r : ℤ)
    (s' : Fs) : Prop where
  held : HoldsDir sb dp s'
  distinct : Slots.Distinct (slotsOf dp s')
  fails_iff : r = -1 ↔ name.take DIRSIZ ∈ Slots.keys (slotsOf dp s)
  unchanged : r = -1 → s'.blocks = s.blocks ∧ slotsOf dp s' = slotsOf dp s
  linked : r ≠ -1 → r = 0 ∧ ∀ k, Slots.lookup (slotsOf dp s') k =
    if k = name.take DIRSIZ then some inum else Slots.lookup (slotsOf dp s) k

theorem HoldsDir.wp_dirlink (h : HoldsDir sb dp s) (hd : Slots.Distinct (slotsOf dp s))
    (hE : E (.panic .logTooBig) ∧ E (.panic .logOutside) ∧ E (.panic .ballocOutOfBlocks))
    (hget : E (.panic .igetNoInodes))
    (hroom : (s.inode dp).size.toNat + DIRENT ≤ MAXFILE * BSIZE ∨ E (.panic .dirlink))
    (hname : 0 ∉ name) (hpos : inum ≠ 0) (hlt : inum < 2 ^ 16) :
    wp (dirlink sb dp name inum) E (EntryAdded sb dp name inum s) s := by
  obtain ⟨T, n, h⟩ := h
  have hkey := cstring_of_not_mem hname DIRSIZ
  have hsize : (s.inode dp).size = (T n).size := by rw [← h.table]
  rw [hsize] at hroom
  refine h.wp_dirlink hE hget hroom (fun hmem s' h' hb hslots => ?_)
    fun habsent T' k s' h' hvacant hslots => ?_
  · rw [hkey] at hmem
    exact ⟨⟨T, n, h'⟩, hslots ▸ hd, iff_of_true rfl hmem, fun _ => ⟨hb, hslots⟩,
      fun hne => absurd rfl hne⟩
  rw [slot_direntBytes hpos hlt, hkey] at hslots
  rw [hkey] at habsent
  refine ⟨⟨T', n, h'⟩, hslots ▸ hd.setAt hvacant habsent inum, iff_of_false (by decide) habsent,
    fun hr => absurd hr (by decide), fun _ => ⟨rfl, fun k' => ?_⟩⟩
  rw [hslots]
  exact Slots.lookup_put hd hvacant habsent inum

structure EntryErased (sb : Superblock) (dp : Ip) (name : List UInt8) (s : Fs) (r : ℤ)
    (s' : Fs) : Prop where
  held : HoldsDir sb dp s'
  distinct : Slots.Distinct (slotsOf dp s')
  whole : r = DIRENT
  erased : ∀ k, Slots.lookup (slotsOf dp s') k = if k = name.take DIRSIZ then none else Slots.lookup
    (slotsOf dp s) k

theorem HoldsDir.wp_erase (h : HoldsDir sb dp s) (hd : Slots.Distinct (slotsOf dp s))
    (hE : E (.panic .logTooBig) ∧ E (.panic .logOutside) ∧ E (.panic .ballocOutOfBlocks))
    (hname : 0 ∉ name) (hfound : (dirlookup sb dp name).run s = .ok (some (ip, off), s₁))
    (hheld : HoldsDir sb dp s₂) (hsame : slotsOf dp s₂ = slotsOf dp s₁) :
    wp (writeDirent sb dp off (List.replicate DIRENT 0)) E (EntryErased sb dp name s) s₂ := by
  have hlooked := (wp_of_run_ok hfound).1 (h.wp_dirlookup (E := fun _ => True) trivial hname)
  obtain ⟨k, ino, rfl, hs⟩ := hlooked.offset ip off rfl
  obtain ⟨T, n, hdir⟩ := hheld
  have hslots : slotsOf dp s₂ = slotsOf dp s := hsame.trans hlooked.same
  rw [← hslots] at hs
  refine hdir.wp_erase hE hs fun T' s' h' hset => ⟨⟨T', n, h'⟩, ?_, rfl, fun k' => ?_⟩
  · rw [hset, hslots]
    exact hd.clear k
  · rw [hslots] at hset hs
    rw [hset]
    exact Slots.lookup_clear hd hs

theorem DirRun.distinct (h : DirRun sb dp₀ s₀ dp s) (h₀ : HoldsDir sb dp₀ s₀)
    (hd₀ : Slots.Distinct (slotsOf dp₀ s₀)) : HoldsDir sb dp s ∧ Slots.Distinct (slotsOf dp s) := by
  induction h with
  | start => exact ⟨h₀, hd₀⟩
  | link _ hname hpos hlt hrun ih =>
    have hadded :=
      (wp_of_run_ok hrun).1
        (ih.1.wp_dirlink (E := fun _ => True) ih.2 ⟨trivial, trivial, trivial⟩ trivial
        (.inr trivial) hname hpos hlt)
    exact ⟨hadded.held, hadded.distinct⟩
  | erase _ hname hfound hheld hsame hrun ih =>
    have herased :=
      (wp_of_run_ok hrun).1
        (ih.1.wp_erase (E := fun _ => True) ih.2 ⟨trivial, trivial, trivial⟩ hname hfound
        hheld hsame)
    exact ⟨herased.held, herased.distinct⟩
  | other _ hheld hsame ih => exact ⟨hheld, hsame ▸ ih.2⟩

/-- The machine ran out of log space, blocks or entries of the inode cache. -/
def Exhausted (e : Halt) : Prop :=
  e = .panic .logTooBig ∨ e = .panic .logOutside ∨ e = .panic .ballocOutOfBlocks ∨
    e = .panic .igetNoInodes

/-- **A directory is a finite map.**  However names are linked and erased in it, no two entries have
the same name in their first `DIRSIZ` bytes.  `dirlookup` finds what the map says; with room in the
file `dirlink` fails, and changes nothing, exactly if the name is there, and otherwise puts it into
the map; an erased name is gone; and neither changes what another name means. -/
theorem directory_is_map (h : DirRun sb dp₀ s₀ dp s) (h₀ : HoldsDir sb dp₀ s₀)
    (hd₀ : Slots.Distinct (slotsOf dp₀ s₀)) :
    Slots.Distinct (slotsOf dp s) ∧
    (∀ name, 0 ∉ name → wp (dirlookup sb dp name) Exhausted (LookedUp sb dp name s) s) ∧
    (∀ name inum, 0 ∉ name → inum ≠ 0 → inum < 2 ^ 16 → (s.inode dp).size.toNat + DIRENT ≤
      MAXFILE * BSIZE → wp (dirlink sb dp name inum) Exhausted (EntryAdded sb dp name inum s) s) ∧
    ∀ name ip off s₁ s₂, 0 ∉ name → (dirlookup sb dp name).run s = .ok (some (ip, off), s₁) →
    HoldsDir sb dp s₂ → slotsOf dp s₂ = slotsOf dp s₁ →
      wp (writeDirent sb dp off (List.replicate DIRENT 0)) Exhausted
        (EntryErased sb dp name s) s₂ := by
  obtain ⟨hheld, hd⟩ := h.distinct h₀ hd₀
  have hE : Exhausted (.panic .logTooBig) ∧ Exhausted (.panic .logOutside) ∧
      Exhausted (.panic .ballocOutOfBlocks) :=
    ⟨.inl rfl, .inr (.inl rfl), .inr (.inr (.inl rfl))⟩
  have hget : Exhausted (.panic .igetNoInodes) := .inr (.inr (.inr rfl))
  exact ⟨hd, fun name hname => hheld.wp_dirlookup hget hname,
    fun name inum hname hpos hlt hroom => hheld.wp_dirlink hd hE hget (.inl hroom) hname hpos hlt,
    fun name ip off s₁ s₂ hname hfound hheld₂ hsame =>
      hheld.wp_erase hd hE hname hfound hheld₂ hsame⟩

end

/-- The image with the root directory in the first entry of the cache, locked. -/
def rootFs : Fs :=
  { mkfsFs with
    inode := fun ip =>
      if ip.val = 0 then
        { mkfsRoot with dev := ROOTDEV, inum := 1, ref := 1, locked := true, valid := true }
      else unusedInode }

theorem rootFs_held : DirHeld mkfsTable rootNum 0 rootFs where
  disk := mkfsImage_disk
  dev := rfl
  inum := rfl
  ref := by decide
  locked := rfl
  valid := rfl
  table := rfl
  type := rfl
  full p hp := by
    have hp : p < 1024 := hp
    have hblock : p / BSIZE = 0 := Nat.div_eq_of_lt hp
    rw [hblock]
    decide +kernel
  whole := by decide

/-- The root directory of the image, after the name `g` was linked to the file. -/
theorem directory_is_map_root :
    ∃ r s, (dirlink mkfsSb 0 [103] 2).run rootFs = .ok (r, s) ∧ Slots.Distinct (slotsOf 0 s) := by
  have hrun : wp (dirlink mkfsSb 0 [103] 2) (fun _ => False) (fun _ _ => True) rootFs := by
    decide +kernel
  obtain ⟨r, s, hr, -⟩ := exists_run_of_wp hrun
  have hdir : DirRun mkfsSb 0 rootFs 0 s := .link .start (by decide) (by decide) (by decide) hr
  exact ⟨r, s, hr, (directory_is_map hdir ⟨mkfsTable, rootNum, rootFs_held⟩ (by decide +kernel)).1⟩

end Xv6
