/-
# `link` does all or nothing

`sys_link` raises the link count of the old file, on disk, before it looks the new name up, and four
things can go wrong afterwards.  Then it lowers the count again; but a file whose count has become 0
is freed by a `link` that fails (`failed_link_frees_file`).
-/

import Xv6.Fs.Track

namespace Xv6

open Lib Function

variable {sb : Superblock} {T T' : Table sb} {R R' : Ip → ℕ} {L W : Finset Ip} {ip dp : Ip}
  {n m : Fin sb.ninodes} {d : Dinode} {s s' : Fs} {Q : PUnit → Fs → Prop}

theorem FsInv.wp_iput_linked (h : FsInv T ∅ (R + Pi.single ip 1) L W s) (hc : Covers R L W)
    (hn : (s.inode ip).inum = n) (hlink : R ip = 0 → (T n).type ≠ 0 → (T n).nlink ≠ 0)
    (hQ : ∀ s', FsInv T ∅ R L W s' → s'.blocks = s.blocks → SameNums R s s' → Q ⟨⟩ s') :
    wp (iput sb ip) Tolerated Q s :=
  h.wp_iput hc hn (.inl ⟨rfl, rfl⟩) hQ fun _ hfreed _ _ => absurd hfreed.nlink
    (hlink hfreed.last hfreed.type_ne)

theorem FsInv.wp_iunlockput_linked (h : FsInv T ∅ (R + Pi.single ip 1) (insert ip L) W s)
    (hL : ip ∉ L) (hc : Covers R L W) (hn : (s.inode ip).inum = n)
    (hlink : R ip = 0 → (T n).type ≠ 0 → (T n).nlink ≠ 0)
    (hQ : ∀ s', FsInv T ∅ R L W s' → s'.blocks = s.blocks → SameNums R s s' → Q ⟨⟩ s') :
    wp (iunlockput sb ip) Tolerated Q s := by
  simp only [iunlockput, wp_bind]
  refine h.wp_iunlock (Finset.mem_insert_self ..) fun s₁ h₁ hb₁ hnums₁ => ?_
  rw [Finset.erase_insert hL] at h₁
  exact h₁.wp_iput_linked hc ((hnums₁ ip single_pos).trans hn) hlink fun s' h' hb hnums =>
    hQ s' h' (hb.trans hb₁) ((hnums₁.mono fun _ => add_single_pos).trans hnums)

/-! ### The new entry -/

/-- The entry `name` for inode `n` was put into slot `k` of the directory `m`, whose inode is `d`
now. -/
structure Entered (T : Table sb) (R : Ip → ℕ) (L W : Finset Ip) (n m : Fin sb.ninodes)
    (name : List UInt8) (k : ℕ) (s : Fs) (d : Dinode) (s' : Fs) : Prop where
  dir : (T m).type = T_DIR
  vacant : Slots.Vacant (entries (content s.blocks (T m))) k
  absent : name ∉ Slots.keys (entries (content s.blocks (T m)))
  short : cstring DIRSIZ name = name
  meta_eq : d = { T m with addrs := d.addrs, size := d.size }
  inv : FsInv (update T m d) ∅ R L W s'
  file : FileInv (update T m d) (files (update T m d) s'.blocks)
  slots : entries (content s'.blocks d) =
    Slots.setAt (entries (content s.blocks (T m))) k (Dirent.parse (direntBytes n name)).slot
  other : ∀ i, i ≠ m → files (update T m d) s'.blocks i = files T s.blocks i
  nums : SameNums R s s'

/-- **`linkEntry`** changes nothing, or puts one entry into the directory of the new path. -/
theorem FsInv.wp_linkEntry {Q : Bool → Fs → Prop} {cwd : Ip} {new : List UInt8}
    (h : FsInv T ∅ R L W s) (hfile : FileInv T (files T s.blocks)) (hheld : Held T R s)
    (hcwd : 0 < R cwd) (hr : 0 < R ip) (hn : (s.inode ip).inum = n) (hnew : 0 ∉ new)
    (hfail : ∀ s', FsInv T ∅ R L W s' → s'.blocks = s.blocks → SameNums R s s' → Q false s')
    (hok : ∀ m name k d s', route sb s.blocks true (startOf s cwd new) (components new) =
      some (m.val, name) → Entered T R L W n m name k s d s' → Q true s') :
    wp (link.linkEntry sb cwd new ip) Tolerated Q s := by
  have hc := h.covers
  simp only [link.linkEntry, nameiparent, wp_bind]
  refine h.wp_namex hfile hcwd (tolerant ..) (.inl rfl) (fun T₁ s₁ h₁ hs₁ _ => ?_)
    fun dp name T₁ s₁ h₁ hs₁ harr hroute => ?_
  · obtain ⟨rfl, hb₁⟩ := hs₁.eq_of_held hheld
    exact wp_pure.2 (hfail s₁ h₁ hb₁ hs₁.nums)
  obtain ⟨rfl, hb₁⟩ := hs₁.eq_of_held hheld
  obtain ⟨m, hm⟩ := h₁.exists_num dp single_pos
  have hroute := hroute hnew
  have hnamed := harr.named
  have ht := harr.dir rfl m hm
  rw [hm] at hroute hnamed
  obtain ⟨-, hmem⟩ := isDir_of_route hroute
  have hname := cstring_of_mem_components hnew hmem
  simp only [wp_bind, wp_get, wp_ite, wp_pure]
  refine h₁.wp_ilock single_pos fun s₂ hL h₂ hb₂ hnums₂ => ?_
  have hnums₂' : SameNums R s s₂ := hs₁.nums.trans (hnums₂.mono fun _ => add_single_pos)
  have hm₂ : (s₂.inode dp).inum = m := (hnums₂ dp single_pos).trans hm
  have hblocks : s₂.blocks = s.blocks := hb₂.trans hb₁
  have hlink (hr : R dp = 0) (ht : (T₁ m).type ≠ 0) : (T₁ m).nlink ≠ 0 :=
    hheld.nlink_ne hnums₂' (fun _ => id) h₂ hr hm₂ (hnamed hr) ht
  refine ⟨fun hdev => ?_, fun _ => ?_⟩
  · exact h₂.wp_iunlockput_linked hL hc hm₂ hlink fun s' h' hb' hnums' =>
      hfail s' h' (hb'.trans hblocks) (hnums₂'.trans hnums')
  have hlive := h₂.live (Finset.mem_insert_self ..) hm₂
  have hfile₂ : FileInv T₁ (files T₁ s₂.blocks) := by rwa [hblocks]
  have hino : (s₂.inode ip).inum = n := (hnums₂' ip hr).trans hn
  rw [hino]
  refine h₂.wp_dirlink (fun _ => And.left) hlive hfile₂ ht (fun _ s₃ h₃ hb₃ hnums₃ => ?_)
    fun habsent k d s₃ hvacant hw => ?_
  · have hm₃ : (s₃.inode dp).inum = m := (hnums₃ dp single_pos).trans hm₂
    exact h₃.wp_iunlockput_linked hL hc hm₃ hlink fun s' h' hb' hnums' =>
      hfail s' h' (hb'.trans (hb₃.trans hblocks))
        (hnums₂'.trans ((hnums₃.mono fun _ => add_single_pos).trans hnums'))
  have hself : update T₁ m d m = d := update_self ..
  have hlink₃ (hr : R dp = 0) (ht : (update T₁ m d m).type ≠ 0) : (update T₁ m d m).nlink ≠ 0 := by
    rw [hself, hw.meta_eq] at ht ⊢
    exact hlink hr ht
  refine hw.inv.wp_iunlockput_linked hL hc hw.live.inum hlink₃ fun s' h' hb' hnums' =>
    hok m name k d s' hroute ?_
  rw [hblocks, hname] at habsent
  rw [hblocks] at hvacant
  have hfile' := hw.fileInv hfile₂ ht fun _ _ hslot => (slot_direntBytes_le hslot).trans_lt n.isLt
  refine ⟨ht, hvacant, habsent, hname, hw.meta_eq, h', by rwa [hb'], ?_, fun i hi => ?_, ?_⟩
  · rw [hb', hw.slots, hblocks]
  · rw [hb', hw.other i hi, hblocks]
  · exact hnums₂'.trans (((hw.nums hlive).mono fun _ => add_single_pos).trans hnums')

/-! ### The whole call -/

theorem content_congr {blocks blocks' : Disk} {T' : Table sb} {i : Fin sb.ninodes}
    (hs : (T' i).size = (T i).size) (hf : files T' blocks' i = files T blocks i) :
    content blocks' (T' i) = content blocks (T i) := by
  unfold files at hf
  rw [content, hf, hs, content]

section Bump

variable (hd : d = { T n with nlink := d.nlink }) {s₁ : Fs}
  (hfiles : files (Function.update T n d) s₁.blocks = files T s.blocks)

include hd

theorem type_bump (i : Fin sb.ninodes) : (update T n d i).type = (T i).type :=
  apply_update_of_eq Dinode.type (by rw [hd]) i

include hfiles

theorem content_bump (i : Fin sb.ninodes) :
    content s₁.blocks (update T n d i) = content s.blocks (T i) :=
  content_congr (apply_update_of_eq Dinode.size (by rw [hd]) i) (congrFun hfiles i)

theorem Held.bump (h : Held T R s) (hnums : SameNums R s s₁) (hn : (s₁.inode ip).inum = n) :
    Held (update T n d) (R + Pi.single ip 1) s₁ := by
  intro i hname ht hlink
  by_cases hi : i = n
  · exact ⟨ip, single_pos, hi ▸ hn⟩
  have hname' : Named T s.blocks i := hname.imp id fun hentry => by
    obtain ⟨j, key, hj, hmem⟩ := hentry
    rw [type_bump hd] at hj
    rw [content_bump hd hfiles] at hmem
    exact ⟨j, key, hj, hmem⟩
  rw [update_of_ne hi] at ht hlink
  obtain ⟨jp, hr, hjp⟩ := h i hname' ht hlink
  exact ⟨jp, add_single_pos hr, (hnums jp hr).trans hjp⟩

theorem FileInv.bump (h : FileInv T (files T s.blocks)) :
    FileInv (Function.update T n d) (files (Function.update T n d) s₁.blocks) := by
  have hsize : d.size = (T n).size := by rw [hd]
  have htype : d.type = (T n).type := by rw [hd]
  rw [hfiles]
  refine h.update (fun _ _ => rfl) ?_ ?_
  · rw [hsize, htype]
    exact h.full n
  · rw [hsize, htype]
    exact h.dirs n

end Bump

theorem route_bump {s₁ : Fs} {R₁ : Ip → ℕ} {L₁ W₁ : Finset Ip} {parent : Bool}
    (h : FsInv T ∅ R L W s) (hfile : FileInv T (files T s.blocks))
    (h₁ : FsInv (update T n d) ∅ R₁ L₁ W₁ s₁) (hd : d = { T n with nlink := d.nlink })
    (hfiles : files (update T n d) s₁.blocks = files T s.blocks) {i : ℕ} (hi : i < sb.ninodes)
    (names : List (List UInt8)) :
    route sb s₁.blocks parent i names = route sb s.blocks parent i names := by
  refine route_congr (fun j hj => ?_) (fun j hj => ?_) (fun j hj hdir key ino hmem => ?_) hi names
  · rw [isDir_iff (n := ⟨j, hj⟩) h₁, isDir_iff (n := ⟨j, hj⟩) h, type_bump hd]
  · rw [dirSlots_eq (n := ⟨j, hj⟩) h₁, dirSlots_eq (n := ⟨j, hj⟩) h, content_bump hd hfiles]
  · have ht : (T ⟨j, hj⟩).type = T_DIR := (isDir_iff (n := ⟨j, hj⟩) h).1 hdir
    rw [dirSlots_eq (n := ⟨j, hj⟩) h] at hmem
    exact hfile.slot_lt ht hmem

/-- The only changes that `link` makes when it returns 0: inode `n` has one link more, and the
directory `m` an entry for it. -/
structure LinkMade (T : Table sb) (n m : Fin sb.ninodes) (name : List UInt8) (s : Fs)
    (T' : Table sb) (s' : Fs) : Prop where
  count : T' n = { T n with nlink := (T n).nlink + 1 }
  file : files T' s'.blocks n = files T s.blocks n
  dir : (T m).type = T_DIR
  absent : name ∉ Slots.keys (entries (content s.blocks (T m)))
  grown : T' m = { T m with addrs := (T' m).addrs, size := (T' m).size }
  slots : ∃ k, Slots.Vacant (entries (content s.blocks (T m))) k ∧
    entries (content s'.blocks (T' m)) = Slots.setAt (entries (content s.blocks (T m))) k
    (Dirent.parse (direntBytes n name)).slot
  entry : n.val ≠ 0 → n.val < 2 ^ 16 → (Dirent.parse (direntBytes n name)).slot = some (name, n.val)
  other : ∀ i, i ≠ n → i ≠ m → T' i = T i ∧ files T' s'.blocks i = files T s.blocks i

theorem Entered.linkMade {k : ℕ} {name : List UInt8} {d' : Dinode} {s₁ s₂ : Fs}
    (h : Entered (update T n d) R' L W n m name k s₁ d' s₂)
    (hd : d = { T n with nlink := (T n).nlink + 1 })
    (hfiles : files (update T n d) s₁.blocks = files T s.blocks) (hdir : (T n).type ≠ T_DIR)
    (hb : s'.blocks = s₂.blocks) : LinkMade T n m name s (update (update T n d) m d') s' := by
  have hraised : d = { T n with nlink := d.nlink } := by rw [hd]
  have hne : m ≠ n := fun hmn => hdir (by rw [← h.dir, type_bump hraised, hmn])
  have hcontent := content_bump hraised hfiles m
  have hTm : update T n d m = T m := update_of_ne hne ..
  have hvacant := h.vacant
  have habsent := h.absent
  have hslots := h.slots
  rw [hcontent] at hvacant habsent hslots
  refine ⟨?_, ?_, hTm ▸ h.dir, habsent, ?_, ⟨k, hvacant, ?_⟩, fun hpos hlt => ?_,
    fun i hin him => ?_⟩
  · rw [update_of_ne hne.symm, update_self, hd]
  · rw [hb, h.other n hne.symm, hfiles]
  · have hmeta := h.meta_eq
    rw [hTm] at hmeta
    rw [update_self]
    exact hmeta
  · rw [hb, update_self, hslots]
  · rw [slot_direntBytes hpos hlt, h.short]
  · exact ⟨by rw [update_of_ne him, update_of_ne hin], by rw [hb, h.other i him, hfiles]⟩

theorem wp_endOp_pure {α : Type} {E : Halt → Prop} {Q : α → Fs → Prop} {r : α}
    (hQ : ∀ s', s'.blocks = s.blocks → s'.inode = s.inode → Q r s') :
    wp (do endOp; pure r) E Q s := by
  simp only [endOp, wp_bind, wp_modify, wp_pure]
  exact hQ _ rfl rfl

/-- **The exit `bad`.**  A link that failed lowers the count again, and the blocks are those it
began with. -/
theorem FsInv.wp_undoLink {Q : ℤ → Fs → Prop} {s₁ : Fs} (h : FsInv T ∅ R L W s)
    (h₁ : FsInv (update T n d) ∅ (R + Pi.single ip 1) L W s₁)
    (hd : d = { T n with nlink := (T n).nlink + 1 }) (hb : s₁.blocks = updateInode sb s.blocks n d)
    (hn : (s₁.inode ip).inum = n) (hlink : R ip = 0 → (T n).type ≠ 0 → (T n).nlink ≠ 0)
    (hQ : ∀ s', FsInv T ∅ R L W s' → s'.blocks = s.blocks → Q (-1) s') :
    wp (do ilock sb ip; setNlink ip (· - 1); iupdate sb ip; iunlockput sb ip; endOp; pure (-1))
    Tolerated Q s₁ := by
  rw [wp_bind]
  refine h₁.wp_ilock single_pos fun s₂ hL h₂ hb₂ hnums₂ => ?_
  rw [wp_bind, setNlink, setInode, wp_modify, wp_bind]
  have hn₂ : (s₂.inode ip).inum = n := (hnums₂ ip single_pos).trans hn
  have hback : T n = { update T n d n with nlink := (update T n d n).nlink - 1 } := by
    rw [update_self, hd]
    simp
  refine h₂.wp_setNlink (f := (· - 1)) (h₂.live (Finset.mem_insert_self ..) hn₂) ⟨rfl, rfl⟩ hback
    fun s₃ h₃ hlive₃ hb₃ _ _ => ?_
  rw [update_idem, update_eq_self] at h₃
  rw [wp_bind]
  refine h₃.wp_iunlockput_linked hL h.covers hlive₃.inum hlink fun s₄ h₄ hb₄ _ => ?_
  have hblocks : s₄.blocks = s.blocks := by
    rw [hb₄, hb₃, hb₂, hb, ← h.disk.disk n (Set.notMem_empty _), updateInode_undo]
  exact wp_endOp_pure fun s' hb' hi => hQ s' (h₄.congr hb' hi) (hb'.trans hblocks)

/-- **`link`** changes nothing, or raises a link count and fills a slot of a directory. -/
theorem FsInv.wp_link {Q : ℤ → Fs → Prop} {cwd : Ip} {old new : List UInt8} (h : FsInv T ∅ R L W s)
    (hfile : FileInv T (files T s.blocks)) (hheld : Held T R s) (hcwd : 0 < R cwd) (hold : 0 ∉ old)
    (hnew : 0 ∉ new) (hfail : ∀ s', FsInv T ∅ R L W s' → s'.blocks = s.blocks → Q (-1) s')
    (hok : ∀ (n m : Fin sb.ninodes) name s', resolve sb s.blocks (startOf s cwd old)
      (components old) = some n.val → route sb s.blocks true (startOf s cwd new) (components new) =
      some (m.val, name) →
      ((T n).nlink + 1 ≠ 0 → ∃ T', FsInv T' ∅ R L W s' ∧ LinkMade T n m name s T' s') → Q 0 s') :
    wp (link sb cwd old new) Tolerated Q s := by
  have hc := h.covers
  have h₀ : FsInv T ∅ R L W { s with outstanding := s.outstanding + 1 } := h.congr rfl rfl
  simp only [link, namei, wp_bind, beginOp, wp_get, wp_ite, wp_throw, wp_set, wp_pure]
  refine ⟨fun _ => trivial, fun _ => ?_⟩
  refine h₀.wp_namex hfile hcwd (tolerant ..) (.inl rfl) (fun T₁ s₁ h₁ hs₁ _ => ?_)
    fun ip name₀ T₁ s₁ h₁ hs₁ harr hroute => ?_
  · obtain ⟨rfl, hb₁⟩ := hs₁.eq_of_held hheld
    exact wp_endOp_pure fun s' hb hi => hfail s' (h₁.congr hb hi) (hb.trans hb₁)
  obtain ⟨rfl, hb₁⟩ := hs₁.eq_of_held hheld
  obtain ⟨n, hn⟩ := h₁.exists_num ip single_pos
  have hroute := hroute hold
  have hnamed := harr.named
  rw [hn] at hroute hnamed
  have hlink (hr : R ip = 0) (ht : (T₁ n).type ≠ 0) : (T₁ n).nlink ≠ 0 :=
    hheld.nlink_ne hs₁.nums (fun _ => id) h₁ hr hn (hnamed hr) ht
  simp only [Option.map_some]
  rw [wp_bind]
  refine h₁.wp_ilock single_pos fun s₂ hL h₂ hb₂ hnums₂ => ?_
  have hn₂ : (s₂.inode ip).inum = n := (hnums₂ ip single_pos).trans hn
  have hlive := h₂.live (Finset.mem_insert_self ..) hn₂
  rw [wp_bind, wp_get, wp_ite]
  refine ⟨fun _ => ?_, fun hdir => ?_⟩
  · rw [wp_bind]
    refine h₂.wp_iunlockput_linked hL hc hn₂ hlink fun s' h' hb' _ => ?_
    exact wp_endOp_pure fun s'' hb hi => hfail s'' (h'.congr hb hi)
      (hb.trans (hb'.trans (hb₂.trans hb₁)))
  rw [h₂.cache.eq_table hlive] at hdir
  obtain ⟨d, hd⟩ : ∃ d, d = { T₁ n with nlink := (T₁ n).nlink + 1 } := ⟨_, rfl⟩
  rw [wp_bind, setNlink, setInode, wp_modify, wp_bind]
  refine h₂.wp_setNlink (f := (· + 1)) hlive ⟨rfl, rfl⟩ hd fun s₃ h₃ hlive₃ hb₃ hfiles₃ hnums₃ => ?_
  rw [wp_bind]
  refine h₃.wp_iunlock (Finset.mem_insert_self ..) fun s₄ h₄ hb₄ hnums₄ => ?_
  rw [Finset.erase_insert hL] at h₄
  have hnums : SameNums R s s₄ :=
    hs₁.nums.trans ((hnums₂.trans (hnums₃.trans hnums₄)).mono fun _ => add_single_pos)
  have hn₄ : (s₄.inode ip).inum = n := (hnums₄ ip single_pos).trans hlive₃.inum
  have hraised : d = { T₁ n with nlink := d.nlink } := by rw [hd]
  have hb₄' : s₄.blocks = updateInode sb s.blocks n d := by rw [hb₄, hb₃, hb₂, hb₁]
  have hfiles : files (update T₁ n d) s₄.blocks = files T₁ s.blocks := by
    rw [hb₄, hfiles₃, hb₂, hb₁]
  have hstart : startOf s₄ cwd new = startOf s cwd new := by
    rw [startOf, startOf, hnums cwd hcwd]
  rw [wp_bind]
  refine h₄.wp_linkEntry (hfile.bump hraised hfiles) (hheld.bump hraised hfiles hnums hn₄)
    (add_single_pos hcwd) single_pos hn₄ hnew (fun s₅ h₅ hb₅ hnums₅ => ?_)
    fun m name k d' s₅ hroute₅ hmade => ?_
  · rw [if_neg Bool.false_ne_true]
    exact h.wp_undoLink h₅ hd (hb₅.trans hb₄') ((hnums₅ ip single_pos).trans hn₄) hlink hfail
  rw [hstart, route_bump h hfile h₄ hraised hfiles (h.startOf_lt hcwd)] at hroute₅
  have hresolve : resolve sb s.blocks (startOf s cwd old) (components old) = some n.val := by
    rw [route_false, Option.map_eq_some_iff] at hroute
    obtain ⟨j, hj, heq⟩ := hroute
    rw [← (Prod.mk.inj heq).1]
    exact hj
  have hn₅ : (s₅.inode ip).inum = n := (hmade.nums ip single_pos).trans hn₄
  rw [if_pos rfl, wp_bind]
  by_cases hz : (T₁ n).nlink + 1 = 0
  · have hdone (s' : Fs) : wp (do endOp; pure 0) Tolerated Q s' :=
      wp_endOp_pure fun s'' _ _ => hok n m name s'' hresolve hroute₅ fun hnz => absurd hz hnz
    exact hmade.inv.wp_iput hc hn₅ (.inl ⟨rfl, rfl⟩) (fun s' _ _ _ => hdone s')
      fun s' _ _ _ => hdone s'
  · refine hmade.inv.wp_iput_linked hc hn₅ (fun _ _ => ?_) fun s' h' hb' _ => ?_
    · rw [(hmade.linkMade hd hfiles hdir rfl).count]
      exact hz
    · refine wp_endOp_pure fun s'' hb hi => hok n m name s'' hresolve hroute₅ fun _ => ?_
      exact ⟨_, h'.congr hb hi, hmade.linkMade hd hfiles hdir (hb.trans hb')⟩

/-- **`link` does all or nothing.**  If it returns -1, the disk is as before, byte for byte, and so
are the references and locks of every entry of the inode cache.  If it returns 0, the old path leads
to an inode with one link more, and the directory of the new path has an entry for it; nothing else
has changed. -/
theorem link_all_or_nothing {cwd : Ip} {old new : List UInt8} (h : FsInv T ∅ R L W s)
    (hfile : FileInv T (files T s.blocks)) (hheld : Held T R s) (hcwd : 0 < R cwd) (hold : 0 ∉ old)
    (hnew : 0 ∉ new) : wp (link sb cwd old new) Tolerated (fun r s' =>
      (r = -1 → s'.blocks = s.blocks ∧ FsInv T ∅ R L W s') ∧
      (r ≠ -1 → r = 0 ∧ ∃ n m : Fin sb.ninodes, ∃ name,
        resolve sb s.blocks (startOf s cwd old) (components old) = some n.val ∧
        route sb s.blocks true (startOf s cwd new) (components new) = some (m.val, name) ∧
        ((T n).nlink + 1 ≠ 0 → ∃ T', FsInv T' ∅ R L W s' ∧ LinkMade T n m name s T' s'))) s := by
  refine h.wp_link hfile hheld hcwd hold hnew
    (fun s' h' hb => ⟨fun _ => ⟨hb, h'⟩, fun hne => absurd rfl hne⟩) fun n m name s' hn hm hmade =>
      ⟨fun hr => absurd hr (by decide), fun _ => ⟨rfl, n, m, name, hn, hm, hmade⟩⟩

theorem mkfsCwd_held : Held mkfsTable mkfsRefs mkfsCwd := fun i _ ht hz => by
  unfold mkfsTable at ht hz
  split_ifs at ht hz
  · exact absurd hz (by decide)
  · exact absurd hz (by decide)
  · exact absurd rfl ht

theorem link_all_or_nothing_mkfs :
    0 < mkfsRefs 0 ∧ ∃ s', (link mkfsSb 0 [102] [103]).run mkfsCwd = .ok (0, s') ∧
    ∃ n m : Fin mkfsSb.ninodes, ∃ name T', FsInv T' ∅ mkfsRefs ∅ ∅ s' ∧
    LinkMade mkfsTable n m name mkfsCwd T' s' := by
  have hcwd : 0 < mkfsRefs 0 := by decide
  have hrun : wp (link mkfsSb 0 [102] [103]) (fun _ => False) (fun r _ => r = 0) mkfsCwd := by
    decide +kernel
  obtain ⟨r, s', hs', hr⟩ := exists_run_of_wp hrun
  subst hr
  have hold : (0 : UInt8) ∉ [102] := by decide
  have hnew : (0 : UInt8) ∉ [103] := by decide
  have hall :=
    (wp_of_run_ok hs').1
      (link_all_or_nothing mkfsCwd_inv mkfsImage_files mkfsCwd_held hcwd hold hnew)
  obtain ⟨-, n, m, name, hn, -, hmade⟩ := hall.2 (by decide)
  have hresolve : resolve mkfsSb mkfsCwd.blocks (startOf mkfsCwd 0 [102]) (components [102]) =
      some 2 := by
    decide +kernel
  have hfile : n = fileNum := Fin.ext (Option.some_inj.1 (hn.symm.trans hresolve))
  obtain ⟨T', h', hmade⟩ := hmade (by rw [hfile]; decide)
  exact ⟨hcwd, s', hs', n, m, name, T', h', hmade⟩

/-- The image of `mkfs` with the file `f` at link count 0. -/
def unlinkedFile : Dinode := { mkfsFile with nlink := 0 }

def unlinkedTable : Table mkfsSb := update mkfsTable fileNum unlinkedFile

def unlinkedFs : Fs := { mkfsCwd with blocks := updateInode mkfsSb mkfsImage fileNum unlinkedFile }

theorem unlinkedFs_inv : FsInv unlinkedTable ∅ mkfsRefs ∅ ∅ unlinkedFs ∧
    FileInv unlinkedTable (files unlinkedTable unlinkedFs.blocks) := by
  obtain ⟨hset, hfiles⟩ := mkfsImage_disk.setMeta (n := fileNum) (d := unlinkedFile)
    (Dinode.place_congr rfl rfl _)
  obtain ⟨hdisk, hfiles'⟩ := hset.updateInode (n := fileNum)
  rw [update_self] at hdisk hfiles'
  rw [insert_empty_eq, Set.sdiff_self] at hdisk
  have hroot : unlinkedTable rootNum = mkfsRoot := update_of_ne (by decide) ..
  refine ⟨⟨hdisk, mkfsCwd_cache hroot⟩, ?_⟩
  have hsame : files unlinkedTable unlinkedFs.blocks = files mkfsTable mkfsCwd.blocks :=
    hfiles'.trans hfiles
  exact mkfsImage_files.bump (s := mkfsCwd) rfl hsame

/-- **A file at link count 0 does not survive a link that fails.**  Its name is there, and
`link("f", "x/y")` returns -1, as there is no `x`; but the last `iput` then frees the inode. -/
theorem failed_link_frees_file : FsInv unlinkedTable ∅ mkfsRefs ∅ ∅ unlinkedFs ∧
    FileInv unlinkedTable (files unlinkedTable unlinkedFs.blocks) ∧
    ∃ s', (link mkfsSb 0 [102] [120, 47, 121]).run unlinkedFs = .ok (-1, s') ∧
      dinodeAt mkfsSb unlinkedFs.blocks 2 = unlinkedFile ∧
      (dinodeAt mkfsSb s'.blocks 2).type = 0 := by
  have hrun : wp (link mkfsSb 0 [102] [120, 47, 121]) (fun _ => False)
      (fun r s' => r = -1 ∧ (dinodeAt mkfsSb s'.blocks 2).type = 0) unlinkedFs := by decide +kernel
  obtain ⟨r, s', hs', hr, hfreed⟩ := exists_run_of_wp hrun
  subst hr
  exact ⟨unlinkedFs_inv.1, unlinkedFs_inv.2, s', hs', dinodeAt_updateInode fileNum, hfreed⟩

end Xv6
