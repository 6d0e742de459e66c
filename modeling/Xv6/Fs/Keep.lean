/-
# What every routine of the file system keeps

`Inv sb R L W` is the invariant that callers see: some table of inodes is on disk and in the cache,
with exact block ownership and no holes; `R` counts the references to each cache entry, `L` are the
locked ones, and the entries in `W` are not directories.  Each routine is specified by what it does
to `R` and `L`.
-/

import Xv6.Fs.Local
import Xv6.Fs.Trunc

namespace Xv6

open Lib Function

variable {sb : Superblock} {T : Table sb} {R : Ip → ℕ} {L W : Finset Ip} {ip : Ip}
  {n : Fin sb.ninodes} {d : Dinode} {dirty : Set (Fin sb.ninodes)} {s : Fs} {dev inum k : ℕ}
  {blocks : Disk}
  {f : Inode → Inode} {E : Halt → Prop} {Q : PUnit → Fs → Prop}

/-- Files have no holes, and directories name inodes of the disk. -/
structure FileInv (T : Table sb) (V : Fin sb.ninodes → ℕ → Option Block) : Prop where
  full : ∀ i, (T i).type ≠ 0 → ∀ p < (T i).size.toNat, V i (p / BSIZE) ≠ none
  dirs : ∀ i, (T i).type = T_DIR → ∀ k, DIRENT * k + DIRENT ≤ (T i).size.toNat →
    ofLE (bytesAt (V i) (DIRENT * k) 2) < sb.ninodes

/-- The file system is in order, with references `R`, locks `L`, and no directory in
`W`. -/
def Inv (sb : Superblock) (R : Ip → ℕ) (L W : Finset Ip) (s : Fs) : Prop :=
  ∃ T : Table sb, FsInv T ∅ R L W s ∧ FileInv T (files T s.blocks)

theorem FileInv.update (h : FileInv T V) (ho : ∀ i, i ≠ n → V' i = V i)
    (hfull : d.type ≠ 0 → ∀ p < d.size.toNat, V' n (p / BSIZE) ≠ none)
    (hdirs : d.type = T_DIR → ∀ k, DIRENT * k + DIRENT ≤ d.size.toNat →
      ofLE (bytesAt (V' n) (DIRENT * k) 2) < sb.ninodes) :
    FileInv (Function.update T n d) V' where
  full i ht p hp := by
    by_cases hi : i = n
    · subst hi
      rw [Function.update_self] at ht hp
      exact hfull ht p hp
    · rw [Function.update_of_ne hi] at ht hp
      rw [ho i hi]
      exact h.full i ht p hp
  dirs i ht k hk := by
    by_cases hi : i = n
    · subst hi
      rw [Function.update_self] at ht hk
      exact hdirs ht k hk
    · rw [Function.update_of_ne hi] at ht hk
      rw [ho i hi]
      exact h.dirs i ht k hk

theorem logWrite_admitted : Tolerated (.panic .logTooBig) ∧ Tolerated (.panic .logOutside) :=
  ⟨rfl, rfl⟩

theorem tolerated_room : Room sb Tolerated A k s :=
  Room.of_admits logWrite_admitted.1 logWrite_admitted.2

theorem tolerated_budget : Budget sb Tolerated B k d s :=
  Budget.of_admits logWrite_admitted.1 logWrite_admitted.2

theorem tolerated_avail : Avail sb Tolerated k blocks := .inl rfl

/-! ### The cache -/

theorem FsInv.setEntry (h : FsInv T dirty R L W s)
    (he : Entry T (R' ip) (ip ∈ L') (ip ∈ W') (f (s.inode ip))) (hR : ∀ jp, jp ≠ ip → R' jp = R jp)
    (hL : ∀ jp, jp ≠ ip → (jp ∈ L' ↔ jp ∈ L)) (hW : ∀ jp, jp ≠ ip → (jp ∈ W' ↔ jp ∈ W))
    (hu : 0 < R' ip → ∀ jp, jp ≠ ip → 0 < R jp → (s.inode jp).inum ≠ (f (s.inode ip)).inum) :
    FsInv T dirty R' L' W' (s.setInode ip f) :=
  ⟨h.disk, h.cache.update he hR hL hW (fun _ _ _ _ _ => rfl) hu⟩

theorem FsInv.other_inum (h : FsInv T dirty R L W s) (hr : 0 < R ip) (jp : Ip) (hj : jp ≠ ip)
    (hrj : 0 < R jp) : (s.inode jp).inum ≠ (s.inode ip).inum :=
  fun he => hj (h.cache.uniq jp ip hrj hr he)

theorem add_single_self (R : Ip → ℕ) (ip : Ip) : (R + Pi.single ip 1 : Ip → ℕ) ip = R ip + 1 := by
  simp

theorem add_single_of_ne (R : Ip → ℕ) {ip jp : Ip} (h : jp ≠ ip) :
    (R + Pi.single ip 1 : Ip → ℕ) jp = R jp := by
  simp [Pi.single_eq_of_ne h]

theorem add_single_pos {ip jp : Ip} (h : 0 < R jp) : 0 < (R + Pi.single ip 1 : Ip → ℕ) jp :=
  Nat.add_pos_left h _

theorem single_pos : 0 < (R + Pi.single ip 1 : Ip → ℕ) ip := by
  rw [add_single_self]
  exact Nat.succ_pos _

theorem FsInv.addRef (h : FsInv T dirty R L W s) (hr : 0 < R ip) :
    FsInv T dirty (R + Pi.single ip 1) L W
    (s.setInode ip fun i => { i with ref := i.ref + 1 }) := by
  refine h.setEntry ?_ (fun _ hj => add_single_of_ne R hj) (fun _ _ => Iff.rfl)
    (fun _ _ => Iff.rfl) fun _ jp hj hrj => h.other_inum hr jp hj hrj
  have he := h.cache.entry ip
  rw [add_single_self]
  exact ⟨by rw [he.ref], fun _ => he.num hr, fun m _ => he.sync m hr, he.lock,
    fun hL => ⟨Nat.succ_pos _, (he.held hL).2⟩, fun hp => ⟨Nat.succ_pos _, (he.pin hp).2⟩⟩

/-- A reference to inode `inum` was taken, through entry `ip`; an entry that nobody used is not read
yet. -/
structure Taken (T : Table sb) (dirty : Set (Fin sb.ninodes)) (R : Ip → ℕ) (L W : Finset Ip)
    (inum : ℕ) (s : Fs) (ip : Ip) (s' : Fs) : Prop where
  inv : FsInv T dirty (R + Pi.single ip 1) L W s'
  blocks : s'.blocks = s.blocks
  inum : (s'.inode ip).inum = inum
  nums : SameNums R s s'
  fresh : R ip = 0 → (s'.inode ip).valid = false

theorem FsInv.wp_iget {Q : Ip → Fs → Prop} (hE : E (.panic .igetNoInodes))
    (h : FsInv T dirty R L W s) (hd : dev = ROOTDEV) (hn : inum < sb.ninodes)
    (hQ : ∀ ip s', Taken T dirty R L W inum s ip s' → Q ip s') : wp (iget dev inum) E Q s := by
  have href : ∀ ip, (s.inode ip).ref = R ip := fun ip => (h.cache.entry ip).ref
  simp only [iget, setInode, wp_bind, wp_get]
  split
  · rename_i ip hfind
    have hip := List.find?_some hfind
    simp only [decide_eq_true_eq, href] at hip
    simp only [wp_bind, wp_modify, wp_pure]
    exact hQ ip _ ⟨h.addRef hip.1, rfl, by simpa [Fs.setInode] using hip.2.2,
      .setInode fun _ => rfl, fun h0 => by omega⟩
  rename_i hnone
  split
  · rw [wp_throw]
    exact hE
  rename_i ip hfind
  have hip := List.find?_some hfind
  simp only [decide_eq_true_eq, href] at hip
  simp only [wp_bind, wp_modify, wp_pure]
  refine hQ ip _ ⟨h.setEntry ?_ (fun _ hj => add_single_of_ne R hj)
    (fun _ _ => Iff.rfl) (fun _ _ => Iff.rfl) fun _ jp hj hrj he => ?_, rfl, by simp [Fs.setInode],
    .setInode fun hr => ?_, fun _ => by simp [Fs.setInode]⟩
  · have he := h.cache.entry ip
    rw [add_single_self, hip]
    refine ⟨rfl, fun _ => ⟨hd, hn⟩, fun m _ _ hv => (by cases hv), he.lock, fun hL => ?_,
      fun hp => ?_⟩
    · have := (he.held hL).1
      omega
    · have := (he.pin hp).1
      omega
  · have hdev : (s.inode jp).dev = ROOTDEV := ((h.cache.entry jp).num hrj).1
    have := List.find?_eq_none.1 hnone jp (List.mem_finRange jp)
    simp only [decide_eq_true_eq, href, hdev, hd] at this
    exact this ⟨hrj, trivial, he⟩
  · rw [hip] at hr
    exact absurd hr (lt_irrefl 0)

theorem wp_acquiresleep (hE : E .asleep ∨ (s.inode ip).locked = false)
    (hQ : (s.inode ip).locked = false → Q ⟨⟩ (s.setInode ip fun i => { i with locked := true })) :
    wp (acquiresleep ip) E Q s := by
  simp only [acquiresleep, setInode, wp_bind, wp_get, wp_ite, wp_throw, wp_modify]
  refine ⟨fun hlocked => hE.resolve_right fun hopen => ?_, fun hf => hQ (by simpa using hf)⟩
  rw [hopen] at hlocked
  cases hlocked

/-- `ilock` locks the entry and reads the inode if that is still to be done.  It waits if the entry
is locked, and panics if the inode is free. -/
theorem FsInv.wp_ilock_of (hsleep : E .asleep ∨ ip ∉ L)
    (hfree : E (.panic .ilockNoType) ∨ ∀ n : Fin sb.ninodes, (s.inode ip).inum = n → (T n).type ≠ 0)
    (h : FsInv T ∅ R L W s) (hr : 0 < R ip)
    (hQ : ∀ s', ip ∉ L → FsInv T ∅ R (insert ip L) W s' → s'.blocks = s.blocks →
      SameNums R s s' → Q ⟨⟩ s') :
    wp (ilock sb ip) E Q s := by
  have he := h.cache.entry ip
  have hne : ¬(s.inode ip).ref < 1 := by rw [he.ref]; omega
  have hother : ∀ jp, jp ≠ ip → (jp ∈ insert ip L ↔ jp ∈ L) := fun jp hj => by simp [hj]
  have hopen (hL : ip ∉ L) : (s.inode ip).locked = false :=
    Bool.eq_false_iff.2 fun hl => hL (he.lock.1 hl)
  simp only [ilock, wp_bind, wp_get, wp_ite, wp_throw, wp_pure]
  refine ⟨fun hlt => absurd hlt hne, fun _ => wp_acquiresleep (hsleep.imp id hopen) fun hopen => ?_⟩
  have hL : ip ∉ L := fun hL => by rw [he.lock.2 hL] at hopen; cases hopen
  have hnum := (he.num hr).2
  have hdisk := h.disk.disk ⟨(s.inode ip).inum, hnum⟩ (Set.notMem_empty _)
  rw [dinodeAt] at hdisk
  simp only [bread, setInode, wp_bind, wp_get, wp_modify, wp_pure, Fs.setInode_setInode,
    Fs.inode_setInode_self, Fs.blocks_setInode, hdisk]
  refine ⟨fun hv => ?_, fun hv => ⟨fun hty => hfree.resolve_right fun hne => hne _ rfl hty,
    fun hty => ?_⟩⟩
  · refine hQ _ hL (h.setEntry ?_ (fun _ _ => rfl) hother (fun _ _ => Iff.rfl)
      fun _ jp hj hrj => h.other_inum hr jp hj hrj) rfl (.setInode fun _ => rfl)
    exact ⟨he.ref, he.num, he.sync, by simp, fun _ => ⟨hr, hv⟩, he.pin⟩
  refine hQ _ hL (h.setEntry ?_ (fun _ _ => rfl) hother (fun _ _ => Iff.rfl)
    fun _ jp hj hrj => h.other_inum hr jp hj hrj) rfl (.setInode fun _ => rfl)
  refine ⟨he.ref, he.num, fun m _ hm _ => ?_, by simp, fun _ => ⟨hr, rfl⟩, fun hp => ?_⟩
  · have hmn : (⟨(s.inode ip).inum, hnum⟩ : Fin sb.ninodes) = m := Fin.ext hm
    rw [← hmn]
    exact ⟨rfl, hty⟩
  · rw [(he.pin hp).2.1] at hv
    exact absurd rfl hv

theorem FsInv.wp_ilock (h : FsInv T ∅ R L W s) (hr : 0 < R ip)
    (hQ : ∀ s', ip ∉ L → FsInv T ∅ R (insert ip L) W s' → s'.blocks = s.blocks →
      SameNums R s s' → Q ⟨⟩ s') :
    wp (ilock sb ip) Tolerated Q s :=
  h.wp_ilock_of (.inl trivial) (.inl rfl) hr hQ

theorem FsInv.lock (h : FsInv T dirty R L W s) (hr : 0 < R ip) (hv : (s.inode ip).valid = true) :
    FsInv T dirty R (insert ip L) W (s.setInode ip fun i => { i with locked := true }) := by
  have he := h.cache.entry ip
  refine h.setEntry ?_ (fun _ _ => rfl) (fun jp hj => by simp [hj]) (fun _ _ => Iff.rfl)
    fun _ jp hj hrj => h.other_inum hr jp hj hrj
  exact ⟨he.ref, he.num, he.sync, by simp, fun _ => ⟨hr, hv⟩, he.pin⟩

theorem FsInv.wp_iunlock (h : FsInv T dirty R L W s)
    (hL : ip ∈ L) (hQ : ∀ s', FsInv T dirty R (L.erase ip) W s' → s'.blocks = s.blocks →
      SameNums R s s' → Q ⟨⟩ s') : wp (iunlock ip) E Q s := by
  have he := h.cache.entry ip
  have hr := (he.held hL).1
  simp only [iunlock, setInode, wp_bind, wp_get, wp_ite, wp_throw, wp_modify]
  refine ⟨fun hbad => ?_, fun _ => hQ _ (h.setEntry ?_ (fun _ _ => rfl) (fun jp hj => by simp [hj])
    (fun _ _ => Iff.rfl) fun _ jp hj hrj => h.other_inum hr jp hj hrj) rfl (.setInode fun _ => rfl)⟩
  · rw [he.lock.2 hL, he.ref] at hbad
    simp only [Bool.true_eq_false, false_or] at hbad
    omega
  · exact ⟨he.ref, he.num, he.sync, by simp, by simp, he.pin⟩

theorem FsInv.dropRef (h : FsInv T dirty (R + Pi.single ip 1) L W s) (hL : ip ∈ L → 0 < R ip)
    (hW : ip ∈ W → 0 < R ip) :
    FsInv T dirty R L W (s.setInode ip fun i => { i with ref := i.ref - 1 }) := by
  have he := h.cache.entry ip
  have hpos : 0 < (R + Pi.single ip 1 : Ip → ℕ) ip := single_pos
  refine h.setEntry ?_ (fun _ hj => (add_single_of_ne R hj).symm) (fun _ _ => Iff.rfl)
    (fun _ _ => Iff.rfl) fun _ jp hj hrj => h.other_inum hpos jp hj hrj
  refine ⟨?_, fun _ => he.num hpos, fun m _ => he.sync m hpos, he.lock,
    fun hl => ⟨hL hl, (he.held hl).2⟩, fun hp => ⟨hW hp, (he.pin hp).2⟩⟩
  have := he.ref
  rw [add_single_self] at this
  simp only [this, Nat.add_sub_cancel]

/-! ### Dropping the last reference -/

theorem Dinode.place_of_empty (h : d.addrs = fun _ => 0) (sl : Slot) :
    d.place blocks sl = none := by
  unfold Dinode.place
  cases sl <;> simp [h]

def freed (d : Dinode) : Dinode := { d with type := 0 }

/-- **The free branch of `iput`**, after `itrunc`: the inode gets type 0 on disk and the
entry goes. -/
theorem FsInv.release (hs : FsInv (update T n d) ∅ (R + Pi.single ip 1) (insert ip L) W s₁)
    (hl : Live (R + Pi.single ip 1) s₁.inode ip n) (hr : R ip = 0) (hL : ip ∉ L) (hW : ip ∉ W)
    (hd : d.addrs = fun _ => 0) (hb : s'.blocks = updateInode sb s₁.blocks n (freed d))
    (hi : s'.inode = update s₁.inode ip i) (href : i.ref = 0) (hlk : i.locked = false) :
    FsInv (update T n (freed d)) ∅ R L W s' ∧ ∀ m, m ≠ n →
    files (update T n (freed d)) s'.blocks m = files (update T n d) s₁.blocks m := by
  have hplace : (freed d).place s₁.blocks = (update T n d n).place s₁.blocks := by
    funext sl
    rw [update_self, Dinode.place_of_empty hd, Dinode.place_of_empty (d := freed d) hd]
  obtain ⟨hset, hsame⟩ := hs.disk.setMeta hplace
  rw [update_idem, insert_empty_eq] at hset
  rw [update_idem] at hsame
  obtain ⟨hdisk', hfiles⟩ := hset.updateInode (n := n)
  rw [update_self, ← hb] at hdisk' hfiles
  rw [Set.sdiff_self] at hdisk'
  refine ⟨⟨hdisk', ?_⟩, fun m hm => ?_⟩
  · rw [hi]
    refine hs.cache.update ⟨?_, ?_, ?_, ?_, ?_, ?_⟩ (fun _ hj => (add_single_of_ne R hj).symm)
      (fun jp hj => by simp [hj]) (fun _ _ => Iff.rfl) (fun jp hj m hrj hm => ?_) fun h₀ => ?_
    · rw [href, hr]
    · intro h₀
      omega
    · intro m h₀
      omega
    · simp [hlk, hL]
    · exact fun h => absurd h hL
    · exact fun h => absurd h hW
    · have hmn : m ≠ n := by
        rintro rfl
        exact hs.other_inum hl.ref jp hj hrj (by rw [hm, hl.inum])
      rw [update_of_ne hmn, update_of_ne hmn]
    · omega
  · rw [hfiles, hsame]

/-- Every entry that is locked or relied on has a reference of its own. -/
def Covers (R : Ip → ℕ) (L W : Finset Ip) : Prop := ∀ jp, jp ∈ L ∨ jp ∈ W → 0 < R jp

theorem Inv.covers (h : Inv sb R L W s) : Covers R L W := by
  obtain ⟨T, h, -⟩ := h
  rintro jp (hL | hW)
  · exact ((h.cache.entry jp).held hL).1
  · exact ((h.cache.entry jp).pin hW).1

theorem Covers.add (h : Covers R L W) : Covers (R + Pi.single ip 1) L W :=
  fun jp hjp => add_single_pos (h jp hjp)

def emptied (d : Dinode) : Dinode := { d with type := 0, addrs := fun _ => 0, size := 0 }

/-- What `iput` does besides dropping the reference: nothing, or it frees the inode `n`, which had
no links and no other reference. -/
structure Freed (T : Table sb) (R : Ip → ℕ) (ip : Ip) (n : Fin sb.ninodes) (s s' : Fs) : Prop where
  last : R ip = 0
  valid : (s.inode ip).valid = true
  type_ne : (T n).type ≠ 0
  nlink : (T n).nlink = 0
  other : ∀ m, m ≠ n → files (update T n (emptied (T n))) s'.blocks m = files T s.blocks m

/-- **`iput`** drops a reference; if it was the last one to an inode without links, the
inode and its blocks are freed. -/
theorem FsInv.wp_iput (h : FsInv T ∅ (R + Pi.single ip 1) L W s) (hc : Covers R L W)
    (hn : (s.inode ip).inum = n) (hlog : (E (.panic .logTooBig) ∧ E (.panic .logOutside)) ∨
      ¬(R ip = 0 ∧ (s.inode ip).valid = true ∧ (T n).type ≠ 0 ∧ (T n).nlink = 0))
    (hkeep : ∀ s', FsInv T ∅ R L W s' → s'.blocks = s.blocks → SameNums R s s' → Q ⟨⟩ s')
    (hfree : ∀ s', Freed T R ip n s s' → FsInv (update T n (emptied (T n))) ∅ R L W s' →
      SameNums R s s' → Q ⟨⟩ s') :
    wp (iput sb ip) E Q s := by
  have hL : ip ∈ L → 0 < R ip := fun hL => hc ip (.inl hL)
  have hW : ip ∈ W → 0 < R ip := fun hW => hc ip (.inr hW)
  have he := h.cache.entry ip
  have href := he.ref
  rw [add_single_self] at href
  simp only [iput, setInode, wp_bind, wp_get, wp_ite, wp_modify]
  refine ⟨fun hlast => ?_, fun _ => hkeep _ (h.dropRef hL hW) rfl (.setInode fun _ => rfl)⟩
  obtain ⟨hone, hv, hlink⟩ := hlast
  have hr : R ip = 0 := by omega
  have hpos : 0 < (R + Pi.single ip 1 : Ip → ℕ) ip := single_pos
  obtain ⟨hT, htype⟩ := he.sync n hpos hn hv
  rw [hT] at hlink
  have hE := hlog.resolve_right fun hnot => hnot ⟨hr, hv, htype, hlink⟩
  have hLn : ip ∉ L := fun hm => by have := hL hm; omega
  have hWn : ip ∉ W := fun hm => by have := hW hm; omega
  have hopen : (s.inode ip).locked = false := Bool.eq_false_iff.2 fun hl => hLn (he.lock.1 hl)
  refine wp_acquiresleep (.inr hopen) fun _ => ?_
  have hlive :
      Live (R + Pi.single ip 1) (s.setInode ip fun i => { i with locked := true }).inode ip n :=
    ⟨hpos, by simpa [Fs.setInode] using hn, by simpa [Fs.setInode] using hv⟩
  refine wp_itrunc hE (h.lock hpos hv) hlive fun d s₁ hd hs₁ hi₁ hother => ?_
  have hlive₁ : Live (R + Pi.single ip 1) s₁.inode ip n := by
    rw [hi₁]
    exact hlive.setDinode
  have hdi : (s₁.inode ip).toDinode = d := by rw [hs₁.cache.eq_table hlive₁, update_self]
  have href₁ := (hs₁.cache.entry ip).ref
  rw [add_single_self, hr] at href₁
  have hempty : freed d = emptied (T n) := by rw [hd, freed, emptied]
  have hdone (s' : Fs) (i : Inode) (hb : s'.blocks = updateInode sb s₁.blocks n (freed d))
      (hi : s'.inode = update s₁.inode ip i) (href : i.ref = 0) (hlk : i.locked = false) :
      Q ⟨⟩ s' := by
    obtain ⟨hinv, hfiles⟩ := hs₁.release hlive₁ hr hLn hWn (by rw [hd]) hb hi href hlk
    rw [hempty] at hinv hfiles
    refine hfree s' ⟨hr, hv, htype, hlink, fun m hm => (hfiles m hm).trans (hother m hm)⟩ hinv
      fun jp hrj => ?_
    have hj : jp ≠ ip := fun he => by
      rw [he, hr] at hrj
      exact absurd hrj (lt_irrefl 0)
    rw [hi, hi₁, update_of_ne hj, update_of_ne hj]
    exact congrArg Inode.inum (update_of_ne hj ..)
  simp only [iupdate, bread, wp_bind, wp_get, wp_pure, Fs.inode_setInode_self]
  refine wp_logWrite (A := ∅) (k := 0) (Room.of_admits hE.1 hE.2) ?_
  simp only [Fs.logWrite_setInode, Fs.setInode_setInode, hlive₁.inum]
  refine hdone _ _ ?_ rfl ?_ rfl
  · rw [← hdi]
    rfl
  · simp only [Fs.inode_logWrite, href₁]

theorem FileInv.emptied (h : FileInv T V)
    (ho : ∀ m, m ≠ n → V' m = V m) : FileInv (Function.update T n (Xv6.emptied d)) V' :=
  h.update ho (fun h₀ => absurd rfl h₀) fun h₀ => (by cases h₀)

theorem wp_iput (h : Inv sb (R + Pi.single ip 1) L W s) (hc : Covers R L W)
    (hQ : ∀ s', Inv sb R L W s' → Q ⟨⟩ s') : wp (iput sb ip) Tolerated Q s := by
  obtain ⟨T, h, hfile⟩ := h
  have hnum := ((h.cache.entry ip).num single_pos).2
  exact h.wp_iput hc (n := ⟨_, hnum⟩) rfl (.inl logWrite_admitted)
    (fun s' h' hb _ => hQ s' ⟨T, h', by rwa [hb]⟩) fun s' hfreed h' _ =>
      hQ s' ⟨_, h', hfile.emptied hfreed.other⟩

/-! ### The routines as their callers see them -/

section

variable (h : Inv sb R L W s)
include h

theorem Inv.congr (hb : s'.blocks = s.blocks) (hi : s'.inode = s.inode) : Inv sb R L W s' := by
  obtain ⟨T, h, hfile⟩ := h
  refine ⟨T, ⟨?_, ?_⟩, ?_⟩
  · rw [hb]
    exact h.disk
  · rw [hi]
    exact h.cache
  · rwa [hb]

theorem Inv.num (hr : 0 < R ip) : (s.inode ip).dev = ROOTDEV ∧ (s.inode ip).inum < sb.ninodes := by
  obtain ⟨T, h, -⟩ := h
  exact (h.cache.entry ip).num hr

theorem Inv.pin (hL : ip ∈ L) (ht : (s.inode ip).type ≠ T_DIR) : Inv sb R L (insert ip W) s := by
  obtain ⟨T, h, hfile⟩ := h
  obtain ⟨hr, hv⟩ := (h.cache.entry ip).held hL
  refine ⟨T, ⟨h.disk, fun jp => ?_, h.cache.uniq⟩, hfile⟩
  have he := h.cache.entry jp
  exact { he with
    pin := fun hp => (Finset.mem_insert.1 hp).elim (fun hj => hj ▸ ⟨hr, hv, ht⟩) he.pin }

theorem Inv.mono_pin (hW : W' ⊆ W) : Inv sb R L W' s := by
  obtain ⟨T, h, hfile⟩ := h
  exact ⟨T, ⟨h.disk, fun jp => { h.cache.entry jp with
    pin := fun hp => (h.cache.entry jp).pin (hW hp) }, h.cache.uniq⟩, hfile⟩

theorem Inv.type_ne_of_pin (hW : ip ∈ W) : (s.inode ip).type ≠ T_DIR := by
  obtain ⟨T, h, -⟩ := h
  exact ((h.cache.entry ip).pin hW).2.2

theorem wp_beginOp (hQ : ∀ s', Inv sb R L W s' → Q ⟨⟩ s') : wp beginOp Tolerated Q s := by
  simp only [beginOp, wp_bind, wp_get, wp_ite, wp_throw, wp_set]
  exact ⟨fun _ => trivial, fun _ => hQ _ (h.congr rfl rfl)⟩

theorem wp_endOp (hQ : ∀ s', Inv sb R L W s' → Q ⟨⟩ s') : wp endOp E Q s := by
  simp only [endOp, wp_modify]
  exact hQ _ (h.congr rfl rfl)

/-- **`iget`** takes a reference. -/
theorem wp_iget {Q : Ip → Fs → Prop} (hd : dev = ROOTDEV) (hn : inum < sb.ninodes)
    (hQ : ∀ ip s', Inv sb (R + Pi.single ip 1) L W s' → Q ip s') :
    wp (iget dev inum) Tolerated Q s := by
  obtain ⟨T, h, hfile⟩ := h
  exact h.wp_iget rfl hd hn fun ip s' ht => hQ ip s' ⟨T, ht.inv, by rwa [ht.blocks]⟩

/-- **`idup`** takes one more. -/
theorem wp_idup {Q : Ip → Fs → Prop} (hr : 0 < R ip)
    (hQ : ∀ s', Inv sb (R + Pi.single ip 1) L W s' → Q ip s') : wp (idup ip) E Q s := by
  obtain ⟨T, h, hfile⟩ := h
  simp only [idup, setInode, wp_bind, wp_modify, wp_pure]
  exact hQ _ ⟨T, h.addRef hr, hfile⟩

/-- **`ilock`** locks an entry that was not locked. -/
theorem wp_ilock (hr : 0 < R ip) (hQ : ∀ s', ip ∉ L → Inv sb R (insert ip L) W s' → Q ⟨⟩ s') :
    wp (ilock sb ip) Tolerated Q s := by
  obtain ⟨T, h, hfile⟩ := h
  exact h.wp_ilock hr fun s' hL h' hb _ => hQ s' hL ⟨T, h', by rwa [hb]⟩

end

/-- **`iunlock`** unlocks it again. -/
theorem wp_iunlock (h : Inv sb R (insert ip L) W s)
    (hL : ip ∉ L) (hQ : ∀ s', Inv sb R L W s' → Q ⟨⟩ s') : wp (iunlock ip) E Q s := by
  obtain ⟨T, h, hfile⟩ := h
  refine h.wp_iunlock (Finset.mem_insert_self ..) fun s' h' hb _ => hQ s' ⟨T, ?_, by rwa [hb]⟩
  rwa [Finset.erase_insert hL] at h'

theorem wp_iunlockput (h : Inv sb (R + Pi.single ip 1) (insert ip L) W s) (hL : ip ∉ L)
    (hc : Covers R L W) (hQ : ∀ s', Inv sb R L W s' → Q ⟨⟩ s') :
    wp (iunlockput sb ip) Tolerated Q s := by
  simp only [iunlockput, wp_bind]
  exact wp_iunlock h hL fun s' h' => wp_iput h' hc hQ

theorem wp_iupdate_meta (h : Inv sb R L W s) (hL : ip ∈ L)
    (hf : f (s.inode ip) = { s.inode ip with toDinode := d }) (ht : d.type = (s.inode ip).type)
    (hs : d.size = (s.inode ip).size) (ha : d.addrs = (s.inode ip).addrs)
    (hQ : ∀ s', Inv sb R L W s' → Q ⟨⟩ s') : wp (iupdate sb ip) Tolerated Q (s.setInode ip f) := by
  obtain ⟨T, h, hfile⟩ := h
  obtain ⟨n, hl⟩ := h.cache.live hL
  have hT := h.cache.eq_table hl
  obtain ⟨hinv, hlive, hfiles⟩ := h.setMeta hl (by rw [ht, ← hT]) (by rw [ha, ← hT]) hf
  refine wp_iupdate (A := ∅) (k := 0) hinv hlive tolerated_room fun s' _ hinv' hfiles' => ?_
  have hV : files (update T n d) s'.blocks = files T s.blocks := hfiles'.trans hfiles
  refine hQ s' ⟨_, by simpa using hinv', hfile.update (fun i _ => by rw [hV]) ?_ ?_⟩
  · intro h₀ p hp
    rw [hV]
    refine hfile.full n ?_ p ?_
    · rwa [← hT, ← ht]
    · rwa [← hT, ← hs]
  · intro h₀ k hk
    rw [hV]
    refine hfile.dirs n ?_ k ?_
    · rwa [← hT, ← ht]
    · rwa [← hT, ← hs]

/-- **`itrunc`** of a locked inode. -/
theorem wp_itrunc_locked (h : Inv sb R L W s) (hL : ip ∈ L)
    (hQ : ∀ s', Inv sb R L W s' → Q ⟨⟩ s') : wp (itrunc sb ip) Tolerated Q s := by
  obtain ⟨T, h, hfile⟩ := h
  obtain ⟨n, hl⟩ := h.cache.live hL
  refine wp_itrunc logWrite_admitted h hl fun d s' hd h' _ hother => ?_
  have hsize : d.size.toNat = 0 := by rw [hd]; rfl
  refine hQ s' ⟨_, h', hfile.update hother ?_ ?_⟩
  · intro _ p hp
    omega
  · intro _ k hk
    simp only [DIRENT] at hk
    omega

end Xv6
