/-
# Looking a path up

`namex` goes from directory to directory with a reference to one inode at a time.  Putting that
reference back frees the inode if it has no links and nobody else refers to it, so a lookup can
change the disk (`Sheds`).  It never reads what it has freed, because `ilock` panics on a free
inode.
-/

import Xv6.Fs.Keep
import Xv6.Fs.Path

namespace Xv6

open Lib Function

variable {sb : Superblock} {T T' : Table sb} {R R' : Ip → ℕ} {L W : Finset Ip} {ip dp : Ip}
  {n : Fin sb.ninodes} {d : Dinode} {s s' : Fs} {E : Halt → Prop} {s₁ : Fs}
  {Q : Option (Ip × List UInt8) → Fs → Prop}

/-! ### `dirlookup` -/

theorem dirs_iff : (∀ k, DIRENT * k + DIRENT ≤ d.size.toNat →
      ofLE (bytesAt (d.fileBlock blocks) (DIRENT * k) 2) < sb.ninodes) ↔
    ∀ key ino, some (key, ino) ∈ entries (content blocks d) → ino < sb.ninodes := by
  have hbytes (k : ℕ) (hk : DIRENT * k + DIRENT ≤ d.size.toNat) :
    bytesAt (d.fileBlock blocks) (DIRENT * k) 2 =
      (window (content blocks d) (DIRENT * k) DIRENT).take 2 := by
    rw [window_content, min_eq_left (by omega), show DIRENT = 2 + 14 from rfl, bytesAt_append,
      List.take_left' (length_bytesAt ..)]
  have hlen : (entries (content blocks d)).length = d.size.toNat / DIRENT := by
    rw [length_entries, content, length_bytesAt]
  constructor
  · intro h key ino hmem
    obtain ⟨k, hk, hslot⟩ := List.getElem_of_mem hmem
    rw [getElem_entries] at hslot
    have hin : DIRENT * k + DIRENT ≤ d.size.toNat := by
      simp only [DIRENT] at *
      omega
    unfold Dirent.slot at hslot
    split_ifs at hslot
    simp only [Option.some.injEq, Prod.mk.injEq] at hslot
    rw [← hslot.2, Dirent.parse, ← hbytes k hin]
    exact h k hin
  · intro h k hk
    have hlt : k < (entries (content blocks d)).length := by
      simp only [DIRENT] at *
      omega
    have hslot := getElem_entries (content blocks d) k hlt
    by_cases h0 : (Dirent.parse (window (content blocks d) (DIRENT * k) DIRENT)).inum = 0
    · have h0 : ofLE ((window (content blocks d) (DIRENT * k) DIRENT).take 2) = 0 := h0
      rw [hbytes k hk, h0]
      exact (Nat.zero_le _).trans_lt sb.root_fits
    · rw [Dirent.slot, if_neg h0] at hslot
      rw [hbytes k hk]
      exact h _ _ (hslot ▸ List.getElem_mem hlt)

theorem FileInv.slot_lt (h : FileInv T (files T s.blocks)) (ht : (T n).type = T_DIR)
    (hmem : some (key, ino) ∈ entries (content s.blocks (T n))) : ino < sb.ninodes :=
  dirs_iff.1 (h.dirs n ht) key ino hmem

/-- **`dirlookup`** in a locked directory is the search for the name, and takes a reference to what
it finds. -/
theorem FsInv.wp_dirlookup {Q : Option (Ip × ℕ) → Fs → Prop} {name : List UInt8}
    (h : FsInv T ∅ R L W s) (hl : Live R s.inode dp n) (hfile : FileInv T (files T s.blocks))
    (ht : (T n).type = T_DIR) (hget : E (.panic .igetNoInodes))
    (hread : E (.panic .dirlookupRead) ∨ DIRENT ∣ (T n).size.toNat)
    (hnone : Slots.search (cstring DIRSIZ name) 0 (entries (content s.blocks (T n))) = none →
      DIRENT ∣ (T n).size.toNat → Q none s)
    (hsome : ∀ k ino ip s', Slots.search (cstring DIRSIZ name) 0
      (entries (content s.blocks (T n))) = some (k, ino) → Taken T ∅ R L W ino s ip s' →
      Q (some (ip, DIRENT * k)) s') :
    wp (dirlookup sb dp name) E Q s := by
  have hT := h.cache.eq_table hl
  have hfull : NoHoles s.blocks (T n) := hfile.full n (h.cache.type_ne hl)
  have hlen : (entries (content s.blocks (T n))).length = (T n).size.toNat / DIRENT := by
    rw [length_entries, content, length_bytesAt]
  simp only [dirlookup, wp_bind, wp_get, wp_ite, wp_throw, hT]
  refine ⟨fun _ => ?_, fun hne => absurd ht hne⟩
  rw [direntOffs_eq, ← hlen]
  refine wp_dirlookupFrom_scan _ 0 _ (h.readsAs hl hfull) (fun hs => ?_) fun k ino hs => ?_
  · split_ifs with hdvd
    · exact wp_pure.2 (hnone hs hdvd)
    -- the bytes behind the last slot are fewer than an entry
    simp only [dirlookupFrom, readDirent, wp_bind, wp_ite, wp_throw]
    refine wp_mono (wp_readi h hl hfull) ?_
    rintro l s' ⟨rfl, r, hr, rfl, -⟩
    rw [length_bytesAt]
    refine ⟨fun hr' => ?_, fun _ => hread.resolve_right hdvd⟩
    have hsize := (T n).size.toNat_lt
    unfold readLen at hr
    split_ifs at hr
    · rw [hr'] at hr
      exact absurd hr (by decide)
    have hoff : (UInt32.ofNat (DIRENT * ((T n).size.toNat / DIRENT))).toNat =
        DIRENT * ((T n).size.toNat / DIRENT) := by
      rw [UInt32.toNat_ofNat', Nat.mod_eq_of_lt]
      simp only [DIRENT] at *
      omega
    rw [hlen, hoff] at hr
    simp only [DIRENT] at *
    omega
  · obtain ⟨a, b, hslots, -, -⟩ := Slots.search_eq_some.1 hs
    have hmem : some (cstring DIRSIZ name, ino) ∈ entries (content s.blocks (T n)) := by
      rw [hslots]
      simp
    exact h.wp_iget hget ((h.cache.entry dp).num hl.ref).1 (hfile.slot_lt ht hmem) fun ip s' =>
      hsome k ino ip s' hs

/-! ### What a lookup may free -/

/-- Inode `i` is the root directory, or an entry of a directory names it. -/
def Named (T : Table sb) (blocks : Disk) (i : ℕ) : Prop :=
  i = ROOTINO ∨ ∃ j key, (T j).type = T_DIR ∧ some (key, i) ∈ entries (content blocks (T j))

/-- An inode that is in use and has a name, but no links, is referred to. -/
def Held (T : Table sb) (R : Ip → ℕ) (s : Fs) : Prop :=
  ∀ i : Fin sb.ninodes, Named T s.blocks i → (T i).type ≠ 0 → (T i).nlink = 0 → ∃ jp, 0 < R jp ∧
    (s.inode jp).inum = i

/-- Between `s` and `s'` some inodes were freed that had names but no links, and that `R` does not
refer to; nothing else happened to the files. -/
structure Sheds (R : Ip → ℕ) (T : Table sb) (s : Fs) (T' : Table sb) (s' : Fs) : Prop where
  file : FileInv T' (files T' s'.blocks)
  nums : SameNums R s s'
  change : ∀ i, (T' i = T i ∧ files T' s'.blocks i = files T s.blocks i) ∨
    ((T' i).type = 0 ∧ (T i).type ≠ 0 ∧ (T i).nlink = 0 ∧ Named T s.blocks i ∧ ∀ jp, 0 < R jp →
    (s.inode jp).inum ≠ i)
  blocks : T' = T → s'.blocks = s.blocks

theorem Sheds.refl (h : FileInv T (files T s.blocks)) : Sheds R T s T s :=
  ⟨h, .refl, fun _ => .inl ⟨rfl, rfl⟩, fun _ => rfl⟩

theorem Sheds.same (h : Sheds R T s T' s₁) (hb : s'.blocks = s₁.blocks) (hn : SameNums R s₁ s') :
    Sheds R T s T' s' where
  file := by rw [hb]; exact h.file
  nums := h.nums.trans hn
  change := by rw [hb]; exact h.change
  blocks := by rw [hb]; exact h.blocks

theorem Sheds.kept (h : Sheds R T s T' s') (ht : (T' n).type ≠ 0) :
    T' n = T n ∧ content s'.blocks (T' n) = content s.blocks (T n) := by
  rcases h.change n with ⟨hT, hfile⟩ | hfree
  · refine ⟨hT, ?_⟩
    unfold files at hfile
    rw [content, hfile, hT, content]
  · exact absurd hfree.1 ht

/-- Where every inode without links is referred to, nothing is freed. -/
theorem Sheds.eq_of_held (h : Sheds R T s T' s') (hheld : Held T R s) :
    T' = T ∧ s'.blocks = s.blocks := by
  have hT : T' = T := funext fun i => (h.change i).elim And.left fun hfree => by
    obtain ⟨-, ht, hlink, hname, hno⟩ := hfree
    obtain ⟨jp, hr, hjp⟩ := hheld i hname ht hlink
    exact absurd hjp (hno jp hr)
  exact ⟨hT, h.blocks hT⟩

theorem Sheds.free (h : Sheds R T s T' s₁) (hR : ∀ jp, 0 < R jp → 0 < R' jp)
    (hinv : FsInv T' ∅ (R' + Pi.single ip 1) L W s₁) (hn : (s₁.inode ip).inum = n)
    (hname : Named T s.blocks n) (hfreed : Freed T' R' ip n s₁ s') (hnums : SameNums R s₁ s') :
    Sheds R T s (update T' n (emptied (T' n))) s' := by
  have hTn : T' n = T n := (h.kept hfreed.type_ne).1
  refine ⟨h.file.emptied hfreed.other, h.nums.trans hnums, fun i => ?_, fun heq => ?_⟩
  · by_cases hi : i = n
    · subst hi
      rw [update_self]
      refine .inr ⟨rfl, hTn ▸ hfreed.type_ne, hTn ▸ hfreed.nlink, hname, fun jp hr hjp => ?_⟩
      have hjp₁ : (s₁.inode jp).inum = (s₁.inode ip).inum := by rw [h.nums jp hr, hjp, hn]
      have := hinv.cache.uniq jp ip (add_single_pos (hR jp hr)) single_pos hjp₁
      have hpos := hR jp hr
      rw [this, hfreed.last] at hpos
      exact absurd hpos (lt_irrefl 0)
    · rw [update_of_ne hi, hfreed.other i hi]
      exact h.change i
  · have hzero : (emptied (T' n)).type = 0 := rfl
    have := congrFun heq n
    rw [update_self] at this
    rw [this, ← hTn] at hzero
    exact absurd hzero hfreed.type_ne

/-- The last reference to an inode with a name is not dropped while the inode has no links. -/
theorem Held.nlink_ne (h : Held T R s) (hnums : SameNums R s s₁)
    (hR : ∀ jp, 0 < R jp → 0 < R' jp) (hinv : FsInv T' dirty (R' + Pi.single ip 1) L W s₁)
    (hr : R' ip = 0) (hn : (s₁.inode ip).inum = n) (hname : Named T s.blocks n)
    (ht : (T n).type ≠ 0) : (T n).nlink ≠ 0 := by
  intro hlink
  obtain ⟨jp, hjr, hjp⟩ := h n hname ht hlink
  have hpos := hR jp hjr
  have hsame : (s₁.inode jp).inum = (s₁.inode ip).inum := by rw [hnums jp hjr, hjp, hn]
  rw [hinv.cache.uniq jp ip (add_single_pos hpos) single_pos hsame, hr] at hpos
  exact absurd hpos (lt_irrefl 0)

section

variable {Q : PUnit → Fs → Prop} (hs : Sheds R T s T' s₁) (hR : ∀ jp, 0 < R jp → 0 < R' jp)
  (hc : Covers R' L W) (hname : R' ip = 0 → Named T s.blocks (s₁.inode ip).inum)
  (hlog : (E (.panic .logTooBig) ∧ E (.panic .logOutside)) ∨ Held T R s)
include hs hR hc hname hlog

theorem Sheds.wp_iput (h : FsInv T' ∅ (R' + Pi.single ip 1) L W s₁)
    (hQ : ∀ T'' s', FsInv T'' ∅ R' L W s' → Sheds R T s T'' s' → SameNums R' s₁ s' → Q ⟨⟩ s') :
    wp (iput sb ip) E Q s₁ := by
  have hnum := ((h.cache.entry ip).num single_pos).2
  refine h.wp_iput (n := ⟨_, hnum⟩) hc rfl (hlog.imp id fun hheld => ?_)
    (fun s' h' hb hnums => hQ T' s' h' (hs.same hb (hnums.mono hR)) hnums)
    fun s' hfreed h' hnums =>
      hQ _ s' h' (hs.free hR h rfl (hname hfreed.last) hfreed (hnums.mono hR)) hnums
  rintro ⟨hr, -, ht, hlink⟩
  have hTn := (hs.kept ht).1
  exact hheld.nlink_ne hs.nums hR h hr rfl (hname hr) (hTn ▸ ht) (hTn ▸ hlink)

theorem Sheds.wp_iunlockput (h : FsInv T' ∅ (R' + Pi.single ip 1) (insert ip L) W s₁) (hL : ip ∉ L)
    (hQ : ∀ T'' s', FsInv T'' ∅ R' L W s' → Sheds R T s T'' s' → SameNums R' s₁ s' → Q ⟨⟩ s') :
    wp (iunlockput sb ip) E Q s₁ := by
  simp only [iunlockput, wp_bind]
  refine h.wp_iunlock (Finset.mem_insert_self ..) fun s₂ h₂ hb₂ hnums₂ => ?_
  rw [Finset.erase_insert hL] at h₂
  have hnums : SameNums R' s₁ s₂ := hnums₂.mono fun _ => add_single_pos
  rw [← hnums₂ ip single_pos] at hname
  exact (hs.same hb₂ (hnums.mono hR)).wp_iput hR hc hname hlog h₂
    fun T'' s' h' hs' hn' => hQ T'' s' h' hs' (hnums.trans hn')

end

/-! ### The walk -/

/-- The disk is one on which a lookup does not get stuck: what has a name has links or is referred
to, entries name inodes that are in use, and directories have whole entries. -/
structure Sound (T : Table sb) (R : Ip → ℕ) (s : Fs) : Prop where
  held : Held T R s
  named : ∀ i, (T i).type = T_DIR → ∀ key ino, some (key, ino) ∈ entries (content s.blocks (T i)) →
    (dinodeAt sb s.blocks ino).type ≠ 0
  whole : ∀ i, (T i).type = T_DIR → DIRENT ∣ (T i).size.toNat

/-- The caller admits every halt that a routine of the file system may end in, or only the one of a
full inode cache where no other is possible. -/
def Admits (E : Halt → Prop) (L : Finset Ip) (T : Table sb) (R : Ip → ℕ) (s : Fs) : Prop :=
  (∀ e, Usual e → E e) ∨ E (.panic .igetNoInodes) ∧ L = ∅ ∧ Sound T R s

theorem tolerant (T : Table sb) (R : Ip → ℕ) (L : Finset Ip) (s : Fs) : Admits Tolerated L T R s :=
  .inl fun _ => And.left

theorem Admits.full (h : Admits E L T R s) : E (.panic .igetNoInodes) :=
  h.elim (fun h => h _ (by decide)) And.left

theorem Admits.asleep (h : Admits E L T R s) : E .asleep ∨ ip ∉ L :=
  h.imp (fun h => h _ (by decide)) fun h => by simp [h.2.1]

theorem Admits.log (h : Admits E L T R s) :
    (E (.panic .logTooBig) ∧ E (.panic .logOutside)) ∨ Held T R s :=
  h.imp (fun h => ⟨h _ (by decide), h _ (by decide)⟩) fun h => h.2.2.held

theorem Admits.read (h : Admits E L T R s) (ht : (T n).type = T_DIR) :
    E (.panic .dirlookupRead) ∨ DIRENT ∣ (T n).size.toNat :=
  h.imp (fun h => h _ (by decide)) fun h => h.2.2.whole n ht

theorem isDir_iff (h : FsInv T ∅ R L W s) : IsDir sb s.blocks n ↔ (T n).type = T_DIR := by
  rw [IsDir, h.disk.disk n (Set.notMem_empty _)]

theorem dirSlots_eq (h : FsInv T ∅ R L W s) :
    dirSlots sb s.blocks n = entries (content s.blocks (T n)) := by
  rw [dirSlots, h.disk.disk n (Set.notMem_empty _)]

/-- The inode at the end of a path: it was referred to before, or it has a name; it is a directory
if the path has one more element. -/
structure Arrived (T : Table sb) (R : Ip → ℕ) (parent : Bool) (s : Fs) (T' : Table sb) (jp : Ip)
    (s' : Fs) : Prop where
  named : R jp = 0 → Named T s.blocks (s'.inode jp).inum
  dir : parent = true → ∀ n : Fin sb.ninodes, (s'.inode jp).inum = n → (T' n).type = T_DIR

/-- **The loop of `namex`** goes the way of the disk on which it began. -/
theorem Sheds.wp_namexFrom {parent : Bool} (h₀ : FsInv T ∅ R L W s)
    (hc : Covers R L W) (hE : Admits E L T R s) (path : List UInt8) (ip : Ip)
    (T₁ : Table sb) (s₁ : Fs) (h : FsInv T₁ ∅ (R + Pi.single ip 1) L W s₁) (hs : Sheds R T s T₁ s₁)
    (hstart : E (.panic .ilockNoType) ∨ ∀ n : Fin sb.ninodes, (s₁.inode ip).inum = n →
      (T₁ n).type ≠ 0)
    (hnamed : R ip = 0 → Named T s.blocks (s₁.inode ip).inum)
    (hnone : ∀ T' s', FsInv T' ∅ R L W s' → Sheds R T s T' s' →
      (0 ∉ path → route sb s.blocks parent (s₁.inode ip).inum (components path) = none) → Q none s')
    (hsome : ∀ jp name T' s', FsInv T' ∅ (R + Pi.single jp 1) L W s' → Sheds R T s T' s' →
      Arrived T R parent s T' jp s' →
      (0 ∉ path → route sb s.blocks parent (s₁.inode ip).inum (components path) =
      some ((s'.inode jp).inum, name)) → Q (some (jp, name)) s') :
    wp (namexFrom sb parent ip path) E Q s₁ := by
  induction hlen : path.length using Nat.strong_induction_on generalizing path ip T₁ s₁ with
  | _ k ih =>
    rw [namexFrom]
    split <;> rename_i hskip
    · rw [components_of_skipelem_none hskip, route] at hnone hsome
      cases parent with
      | false =>
        exact wp_pure.2 (hsome ip [] T₁ s₁ h hs ⟨hnamed, fun hp => by cases hp⟩ fun _ => rfl)
      | true =>
        simp only [if_true, wp_bind, wp_pure]
        exact hs.wp_iput (fun _ => id) hc hnamed hE.log h fun T' s' h' hs' _ => hnone T' s' h' hs'
          fun _ => rfl
    · rename_i name rest
      obtain ⟨hcomp, hlast, hsub⟩ := components_of_skipelem hskip
      have hrest (hpath : 0 ∉ path) : 0 ∉ rest := fun hmem => hpath (hsub 0 hmem)
      have hlt := length_lt_of_skipelem hskip
      obtain ⟨n, hn⟩ : ∃ n : Fin sb.ninodes, (s₁.inode ip).inum = n :=
        ⟨⟨_, ((h.cache.entry ip).num single_pos).2⟩, rfl⟩
      rw [hcomp, route, hn] at hnone hsome
      simp only [wp_bind, wp_get, wp_ite, wp_pure]
      refine h.wp_ilock_of hE.asleep hstart single_pos fun s₂ hL h₂ hb₂ hnums₂ => ?_
      have hs₂ : Sheds R T s T₁ s₂ := hs.same hb₂ (hnums₂.mono fun _ => add_single_pos)
      have hn₂ : (s₂.inode ip).inum = n := (hnums₂ ip single_pos).trans hn
      rw [← hnums₂ ip single_pos] at hnamed
      have hlive : Live (R + Pi.single ip 1) s₂.inode ip n :=
        ⟨single_pos, hn₂, ((h₂.cache.entry ip).held (Finset.mem_insert_self ..)).2⟩
      obtain ⟨hTn, hcontent⟩ := hs₂.kept (h₂.cache.type_ne hlive)
      have htype : (s₂.inode ip).type = (T n).type := by rw [h₂.cache.eq_table hlive, hTn]
      have hdir := isDir_iff (n := n) h₀
      rw [htype]
      refine ⟨fun hnd => ?_, fun hd => ⟨fun hend => ?_, fun hmore => ?_⟩⟩
      · exact hs₂.wp_iunlockput (fun _ => id) hc hnamed hE.log h₂ hL fun T' s' h' hs' _ =>
          hnone T' s' h' hs' fun _ => if_pos fun hd => hnd (hdir.1 hd)
      · refine h₂.wp_iunlock (Finset.mem_insert_self ..) fun s₃ h₃ hb₃ hnums₃ => ?_
        rw [Finset.erase_insert hL] at h₃
        rw [← hnums₃ ip single_pos] at hnamed
        have hn₃ : (s₃.inode ip).inum = n := (hnums₃ ip single_pos).trans hn₂
        refine hsome ip name T₁ s₃ h₃ (hs₂.same hb₃ (hnums₃.mono fun _ => add_single_pos))
          ⟨hnamed, fun _ m hm => ?_⟩ fun _ => ?_
        · rw [← Fin.ext (hn₃.symm.trans hm), hTn]
          exact not_not.1 hd
        · rw [if_neg (not_not.2 (hdir.2 (not_not.1 hd))), if_pos ⟨hend.1, hlast.1 hend.2⟩, hn₃]
      have hd := not_not.1 hd
      have htail : ¬(parent = true ∧ components rest = []) := fun hp => hmore ⟨hp.1, hlast.2 hp.2⟩
      have hname (hpath : 0 ∉ path) := cstring_of_skipelem hpath hskip
      rw [if_neg (not_not.2 (hdir.2 hd)), if_neg htail, dirSlots_eq h₀, ← hcontent] at hnone hsome
      have hread := hE.read hd
      rw [← hTn] at hread hd
      refine h₂.wp_dirlookup hlive hs₂.file hd hE.full hread (fun hsearch _ => ?_)
        fun k ino next s₃ hsearch htaken => ?_
      · simp only [wp_bind, wp_pure]
        refine hs₂.wp_iunlockput (fun _ => id) hc hnamed hE.log h₂ hL fun T' s' h' hs' _ =>
          hnone T' s' h' hs' fun hpath => ?_
        rw [hname hpath] at hsearch
        rw [Slots.lookup, hsearch]
        rfl
      simp only [wp_bind]
      obtain ⟨a, b, hslots, -, -⟩ := Slots.search_eq_some.1 hsearch
      have hmem : some (cstring DIRSIZ name, ino) ∈ entries (content s.blocks (T n)) := by
        rw [← hcontent, hslots]
        simp
      have h₃ := htaken.inv
      rw [add_right_comm] at h₃
      have hs₃ : Sheds R T s T₁ s₃ :=
        hs₂.same htaken.blocks (htaken.nums.mono fun _ => add_single_pos)
      refine hs₃.wp_iunlockput (fun _ => add_single_pos) hc.add (fun hr => ?_) hE.log h₃ hL
        fun T₄ s₄ h₄ hs₄ hnums₄ => ?_
      · rw [htaken.nums ip single_pos]
        exact hnamed (Nat.eq_zero_of_add_eq_zero_right hr)
      have hnext : (s₄.inode next).inum = ino := (hnums₄ next single_pos).trans htaken.inum
      have hwalk (hpath : 0 ∉ path) : (Slots.lookup (entries (content s₂.blocks (T₁ n))) name).bind
          (fun j => route sb s.blocks parent j (components rest)) =
            route sb s.blocks parent (s₄.inode next).inum (components rest) := by
        rw [hname hpath] at hsearch
        rw [Slots.lookup, hsearch, hnext]
        rfl
      refine ih rest.length (by omega) rest next T₄ s₄ h₄ hs₄ (hE.imp (fun h => h _ (by decide)) ?_)
        (fun _ => .inr ⟨n, _, hTn ▸ hd, hnext ▸ hmem⟩)
        (fun T' s' h' hs' hroute => hnone T' s' h' hs' fun hp => (hwalk hp).trans
          (hroute (hrest hp)))
        (fun jp name' T' s' h' hs' harr hroute =>
          hsome jp name' T' s' h' hs' harr fun hp => (hwalk hp).trans (hroute (hrest hp))) rfl
      rintro ⟨-, -, hsound⟩ m hm
      have hused := hsound.named n (hTn ▸ hd) _ ino hmem
      rw [(hs₄.eq_of_held hsound.held).1]
      rwa [← hnext, hm, h₀.disk.disk m (Set.notMem_empty _)] at hused

/-- The number of the inode at which a lookup starts. -/
def startOf (s : Fs) (cwd : Ip) (path : List UInt8) : ℕ :=
  if path.head? = some slash then ROOTINO else (s.inode cwd).inum

section

variable {cwd : Ip} {path : List UInt8} {parent : Bool}

theorem FsInv.startOf_lt (h : FsInv T ∅ R L W s) (hcwd : 0 < R cwd) :
    startOf s cwd path < sb.ninodes := by
  unfold startOf
  split
  · exact sb.root_fits
  · exact ((h.cache.entry cwd).num hcwd).2

/-- **`namex`** goes the way of the disk from the root or the current directory, and takes a
reference to the inode at its end. -/
theorem FsInv.wp_namex (h : FsInv T ∅ R L W s)
    (hfile : FileInv T (files T s.blocks)) (hcwd : 0 < R cwd) (hE : Admits E L T R s)
    (hstart : E (.panic .ilockNoType) ∨ (dinodeAt sb s.blocks (startOf s cwd path)).type ≠ 0)
    (hnone : ∀ T' s', FsInv T' ∅ R L W s' → Sheds R T s T' s' →
      (0 ∉ path → route sb s.blocks parent (startOf s cwd path) (components path) = none) →
      Q none s')
    (hsome : ∀ jp name T' s', FsInv T' ∅ (R + Pi.single jp 1) L W s' → Sheds R T s T' s' →
      Arrived T R parent s T' jp s' →
      (0 ∉ path → route sb s.blocks parent (startOf s cwd path) (components path) =
      some ((s'.inode jp).inum, name)) → Q (some (jp, name)) s') :
    wp (namex sb cwd path parent) E Q s := by
  have hc : Covers R L W := fun jp hjp => hjp.elim (fun hL => ((h.cache.entry jp).held hL).1)
    fun hW => ((h.cache.entry jp).pin hW).1
  have hgo (ip : Ip) (s₁ : Fs) (h₁ : FsInv T ∅ (R + Pi.single ip 1) L W s₁)
    (hb : s₁.blocks = s.blocks)
      (hnums : SameNums R s s₁) (hip : (s₁.inode ip).inum = startOf s cwd path)
      (hnamed : R ip = 0 → Named T s.blocks (s₁.inode ip).inum) :
        wp (namexFrom sb parent ip path) E Q s₁ := by
    rw [← hip] at hnone hsome hstart
    refine Sheds.wp_namexFrom h hc hE path ip T s₁ h₁ ((Sheds.refl hfile).same hb hnums)
      (hstart.imp id fun ht n hn => ?_) hnamed hnone hsome
    rwa [hn, h.disk.disk n (Set.notMem_empty _)] at ht
  unfold startOf at hgo
  simp only [namex, wp_bind, wp_ite]
  refine ⟨fun hroot => ?_, fun hrel => ?_⟩
  · rw [if_pos hroot] at hgo
    exact h.wp_iget hE.full rfl sb.root_fits fun ip s₁ ht =>
      hgo ip s₁ ht.inv ht.blocks ht.nums ht.inum fun _ => .inl ht.inum
  · rw [if_neg hrel] at hgo
    simp only [idup, setInode, wp_bind, wp_modify, wp_pure]
    exact hgo cwd _ (h.addRef hcwd) rfl (.setInode fun _ => rfl) (by rw [Fs.inode_setInode_self])
      fun hr => by omega

/-- `nameiparent` and then the lookup of the last name in the directory that it found. -/
def lookupInParent (sb : Superblock) (cwd : Ip) (path : List UInt8) : FsM (Option Ip) := do
  match ← nameiparent sb cwd path with
  | none => return none
  | some (dp, name) =>
    ilock sb dp
    return (← dirlookup sb dp name).map Prod.fst

/-- A lookup stops only for a reason that the file system tolerates; and where nothing is locked and
the disk is `Sound`, only because the inode cache is full. -/
def LookupStops (sb : Superblock) (T : Table sb) (R : Ip → ℕ) (L : Finset Ip) (s : Fs) (start : ℕ)
    (e : Halt) : Prop :=
  Tolerated e ∧ (L = ∅ → Sound T R s → (dinodeAt sb s.blocks start).type ≠ 0 →
    e = .panic .igetNoInodes)

theorem lookupStops_admits (start : ℕ) : Admits (LookupStops sb T R L s start) L T R s ∧
    (LookupStops sb T R L s start (.panic .ilockNoType) ∨
      (dinodeAt sb s.blocks start).type ≠ 0) := by
  by_cases hcalm : L = ∅ ∧ Sound T R s ∧ (dinodeAt sb s.blocks start).type ≠ 0
  · exact ⟨.inr ⟨⟨rfl, fun _ _ _ => rfl⟩, hcalm.1, hcalm.2.1⟩, .inr hcalm.2.2⟩
  · have hany (e : Halt) (he : Usual e) : LookupStops sb T R L s start e :=
      ⟨he.1, fun hL hsound ht => absurd ⟨hL, hsound, ht⟩ hcalm⟩
    exact ⟨.inl hany, .inl (hany _ (by decide))⟩

theorem FsInv.wp_lookupInParent (h : FsInv T ∅ R L W s) (hfile : FileInv T (files T s.blocks))
    (hcwd : 0 < R cwd) (hE : Admits E L T R s) (hpath : 0 ∉ path) (hne : components path ≠ [])
    (hstart : E (.panic .ilockNoType) ∨ (dinodeAt sb s.blocks (startOf s cwd path)).type ≠ 0) :
    wp (lookupInParent sb cwd path) E (fun r s' => r.map (fun ip => (s'.inode ip).inum) =
      resolve sb s.blocks (startOf s cwd path) (components path)) s := by
  simp only [lookupInParent, nameiparent, wp_bind]
  refine h.wp_namex hfile hcwd hE hstart (fun T' s' _ _ hroute => ?_)
    fun dp name T' s' h' hs' _ hroute => ?_
  · rw [wp_pure, resolve_eq_follow_parent _ hne, hroute hpath]
    rfl
  have hroute := hroute hpath
  obtain ⟨hdir, hmem⟩ := isDir_of_route hroute
  obtain ⟨n, hn⟩ : ∃ n : Fin sb.ninodes, (s'.inode dp).inum = n :=
    ⟨⟨_, ((h'.cache.entry dp).num single_pos).2⟩, rfl⟩
  rw [hn] at hdir
  have htype := (isDir_iff h).1 hdir
  rw [resolve_eq_follow_parent _ hne, hroute, Option.bind_some, hn, follow, if_pos hdir,
    dirSlots_eq h]
  simp only [wp_bind, wp_pure]
  refine h'.wp_ilock_of hE.asleep
    (hE.imp (fun hall => hall _ (by decide)) fun hcalm m hm => ?_) single_pos
    fun s₁ hL h₁ hb₁ hnums₁ => ?_
  · rw [(hs'.eq_of_held hcalm.2.2.held).1, ← Fin.ext (hn.symm.trans hm), htype]
    decide
  have hs₁ : Sheds R T s T' s₁ := hs'.same hb₁ (hnums₁.mono fun _ => add_single_pos)
  have hlive : Live (R + Pi.single dp 1) s₁.inode dp n :=
    ⟨single_pos, (hnums₁ dp single_pos).trans hn,
      ((h₁.cache.entry dp).held (Finset.mem_insert_self ..)).2⟩
  obtain ⟨hTn, hcontent⟩ := hs₁.kept (h₁.cache.type_ne hlive)
  have hname := cstring_of_mem_components hpath hmem
  have hread := hE.read htype
  rw [← hTn] at hread htype
  rw [← hcontent]
  refine h₁.wp_dirlookup hlive hs₁.file htype hE.full hread (fun hsearch _ => ?_)
    fun k ino next s₂ hsearch htaken => ?_
  · rw [hname] at hsearch
    rw [Slots.lookup, hsearch]
    rfl
  · rw [hname] at hsearch
    rw [Slots.lookup, hsearch, ← htaken.inum]
    rfl

/-- **Path resolution.**  `skipelem` yields the non-empty pieces of the path between slashes, each
cut to `DIRSIZ` bytes, whatever its buffer holds.  `namei` is the fold of the lookups over them,
from the root or the current directory, and fails exactly if a part of the path leads to no
directory or to one without the next name. `nameiparent` fails on a path without elements, and
otherwise finds a directory, and a name in it that means what `namei` finds. -/
theorem path_resolution (h : FsInv T ∅ R L W s) (hfile : FileInv T (files T s.blocks))
    (hcwd : 0 < R cwd) (hpath : 0 ∉ path) (start : ℕ) (hstart : start = startOf s cwd path) :
    elements path = components path ∧
    (∀ parent ip buf, namexFrom sb parent ip path = (do
      let r ← namexInto sb parent ip path buf
      return r.1.map fun ip => (ip, if parent then cstring DIRSIZ r.2 else []))) ∧
    wp (namei sb cwd path) (LookupStops sb T R L s start) (fun r s' =>
      r.map (fun ip => (s'.inode ip).inum) = resolve sb s.blocks start (components path)) s ∧
    (resolve sb s.blocks start (components path) = none ↔
      ∃ before name after i, components path = before ++ name :: after ∧
      resolve sb s.blocks start before = some i ∧
        (¬IsDir sb s.blocks i ∨ name ∉ Slots.keys (dirSlots sb s.blocks i))) ∧
    wp (nameiparent sb cwd path) (LookupStops sb T R L s start) (fun r s' =>
      r.map (fun x => ((s'.inode x.1).inum, x.2)) = route sb s.blocks true start (components path) ∧
      (components path = [] → r = none) ∧ ∀ x ∈ r, IsDir sb s.blocks (s'.inode x.1).inum) s ∧
    (components path ≠ [] → wp (lookupInParent sb cwd path) (LookupStops sb T R L s start)
      (fun r s' =>
      r.map (fun ip => (s'.inode ip).inum) = resolve sb s.blocks start (components path)) s) := by
  subst hstart
  obtain ⟨hE, hfree⟩ := lookupStops_admits (T := T) (R := R) (L := L) (s := s) (startOf s cwd path)
  refine ⟨elements_eq_components path, fun parent ip buf => namexFrom_eq sb parent ip path
    buf hpath, ?_, resolve_eq_none_iff _ _, ?_, fun hne =>
      h.wp_lookupInParent hfile hcwd hE hpath hne hfree⟩
  · simp only [namei, wp_bind, wp_pure]
    refine h.wp_namex hfile hcwd hE hfree (fun T' s' _ _ hroute => ?_)
      fun ip name T' s' _ _ _ hroute => ?_
    all_goals have hroute := hroute hpath
    · rw [route_false, Option.map_eq_none_iff] at hroute
      rw [hroute]
      rfl
    · rw [route_false, Option.map_eq_some_iff] at hroute
      obtain ⟨i, hi, heq⟩ := hroute
      rw [hi]
      exact congrArg some (Prod.mk.inj heq).1.symm
  · refine h.wp_namex hfile hcwd hE hfree (fun T' s' _ _ hroute => ?_)
      fun dp name T' s' _ _ _ hroute => ?_
    all_goals have hroute := hroute hpath
    · exact ⟨hroute.symm, fun _ => rfl, by simp⟩
    · refine ⟨hroute.symm, fun hnil => ?_, fun x hx => ?_⟩
      · rw [hnil] at hroute
        cases hroute
      · cases hx
        exact (isDir_of_route hroute).1

end

theorem mkfsImage_files : FileInv mkfsTable (files mkfsTable mkfsImage) where
  full i ht p hp := by
    by_cases hroot : i.val = 1
    · have hi : i = rootNum := Fin.ext hroot
      subst hi
      have hp : p < 1024 := hp
      have hblock : p / BSIZE = 0 := Nat.div_eq_of_lt hp
      rw [hblock]
      decide +kernel
    · unfold mkfsTable at hp
      rw [if_neg hroot] at hp
      split_ifs at hp <;> exact absurd hp (Nat.not_lt_zero p)
  dirs i ht k hk := by
    have hroot : i.val = 1 := by
      by_contra hne
      unfold mkfsTable at ht
      rw [if_neg hne] at ht
      split_ifs at ht <;> cases ht
    have hi : i = rootNum := Fin.ext hroot
    subst hi
    have hall : ∀ k < 64, ofLE (bytesAt (files mkfsTable mkfsImage rootNum) (DIRENT * k) 2) <
        mkfsSb.ninodes := by
      decide +kernel
    have hk : 16 * k + 16 ≤ 1024 := hk
    exact hall k (by omega)

/-- The image of `mkfs` with the root directory in the first entry of the inode cache, as the
current directory. -/
def mkfsCwd : Fs where
  blocks := mkfsImage
  inode ip :=
    if ip.val = 0 then
      { mkfsRoot with dev := ROOTDEV, inum := 1, ref := 1, locked := false, valid := true }
    else { Dinode.fresh 0 with dev := 0, inum := 0, ref := 0, locked := false, valid := false }
  outstanding := 0
  lh := []

theorem mkfsCwd_cache {T : Table mkfsSb} (hT : T rootNum = mkfsRoot) :
    CacheInv T mkfsRefs ∅ ∅ mkfsCwd.inode where
  entry ip := by
    by_cases hip : ip = 0
    · subst hip
      refine ⟨rfl, fun _ => ⟨rfl, by decide⟩, fun n _ hn _ => ?_, by simp [mkfsCwd], by
        simp, by simp⟩
      have hn : n = rootNum := Fin.ext hn.symm
      subst hn
      rw [hT]
      exact ⟨rfl, by decide⟩
    · have hr : mkfsRefs ip = 0 := if_neg hip
      rw [hr]
      exact ⟨by simp [mkfsCwd, hip], fun h => absurd h (by decide), fun _ h => absurd h (by decide),
        by simp [mkfsCwd, hip], by simp, by simp⟩
  uniq ip jp hi hj _ := by rw [eq_zero_of_mkfsRefs hi, eq_zero_of_mkfsRefs hj]

theorem mkfsCwd_inv : FsInv mkfsTable ∅ mkfsRefs ∅ ∅ mkfsCwd := ⟨mkfsImage_disk, mkfsCwd_cache rfl⟩

theorem path_resolution_mkfs : 0 < mkfsRefs 0 ∧
    wp (lookupInParent mkfsSb 0 [47, 47, 102, 47])
      (LookupStops mkfsSb mkfsTable mkfsRefs ∅ mkfsCwd ROOTINO)
      (fun r s' => r.map (fun ip => (s'.inode ip).inum) = some 2) mkfsCwd := by
  have hroute : resolve mkfsSb mkfsCwd.blocks ROOTINO (components [47, 47, 102, 47]) = some 2 := by
    decide +kernel
  have hcwd : 0 < mkfsRefs 0 := by decide
  have hnul : (0 : UInt8) ∉ [47, 47, 102, 47] := by decide
  have hpath := path_resolution mkfsCwd_inv mkfsImage_files hcwd hnul ROOTINO rfl
  rw [hroute] at hpath
  exact ⟨hcwd, hpath.2.2.2.2.2 (by decide)⟩

end Xv6
