/-
# `create` for `open`

`sys_open` calls `create` with type `T_FILE`.  Where every inode with a name has links or is
referred to (`Held`), `create` changes nothing on the disk unless it makes a new file: it makes one
exactly if the path leads to a directory that has no entry of the last name (`Vacant`), and
otherwise it fails or finds a file or a device (`FsInv.wp_createFile`).
-/

import Xv6.Fs.Link

namespace Xv6

open Lib Function

variable {sb : Superblock} {T : Table sb} {R : Ip → ℕ} {L W : Finset Ip} {ip dp cwd : Ip}
  {n m : Fin sb.ninodes} {s : Fs} {path name : List UInt8} {Q : Option Ip → Fs → Prop}

/-- The names lead to a directory that has no entry of the last name. -/
def Vacant (sb : Superblock) (blocks : Disk) (start : ℕ) (names : List (List UInt8)) : Prop :=
  route sb blocks true start names ≠ none ∧ resolve sb blocks start names = none

theorem FsInv.wp_enterFile
    (h : FsInv T ∅ (R + Pi.single ip 1 + Pi.single dp 1) (insert dp (insert ip L)) W s)
    (hfile : FileInv T (files T s.blocks)) (hc : Covers (R + Pi.single ip 1) (insert ip L) W)
    (hdp : dp ∉ insert ip L) (hm : (s.inode dp).inum = m) (hn : (s.inode ip).inum = n)
    (hdir : (T m).type = T_DIR) (hne : n ≠ m)
    (hQ : ∀ T' s', FsInv T' ∅ (R + Pi.single ip 1) (insert ip L) W s' → (s'.inode ip).inum = n →
      T' n = T n → Q (some ip) s') :
    wp (create.enter sb dp name ip) Tolerated Q s := by
  have hlive := h.live (Finset.mem_insert_self ..) hm
  simp only [create.enter, wp_bind, wp_get, wp_ite, wp_throw, wp_pure]
  refine h.wp_dirlink (fun _ => And.left) hlive hfile hdir
    (fun _ s₁ _ _ _ => ⟨fun _ => rfl, fun hr => absurd (by decide) hr⟩)
    fun _ k d s₁ _ hw => ⟨fun _ => rfl, fun _ => ?_⟩
  have hn₁ : (s₁.inode ip).inum = n := (hw.nums hlive ip (add_single_pos single_pos)).trans hn
  have hTn : update T m d n = T n := update_of_ne hne ..
  simp only [iunlockput, wp_bind]
  refine hw.inv.wp_iunlock (Finset.mem_insert_self ..) fun s₂ h₂ _ hnums₂ => ?_
  rw [Finset.erase_insert hdp] at h₂
  have hm₂ : (s₂.inode dp).inum = m := (hnums₂ dp single_pos).trans hw.live.inum
  have hn₂ : (s₂.inode ip).inum = n := (hnums₂ ip (add_single_pos single_pos)).trans hn₁
  refine h₂.wp_iput hc hm₂ (.inl ⟨rfl, rfl⟩) (fun s' h' _ hnums' => hQ _ s' h' ?_ hTn)
    fun s' _ h' hnums' => hQ _ s' h' ?_ ?_
  · exact (hnums' ip single_pos).trans hn₂
  · exact (hnums' ip single_pos).trans hn₂
  · rw [update_of_ne hne, hTn]

/-- **`create`** of a file. -/
theorem FsInv.wp_createFile (h : FsInv T ∅ R L W s) (hfile : FileInv T (files T s.blocks))
    (hheld : Held T R s) (hcwd : 0 < R cwd) (hpath : 0 ∉ path)
    (hnone : ∀ s', FsInv T ∅ R L W s' → s'.blocks = s.blocks →
      ¬Vacant sb s.blocks (startOf s cwd path) (components path) → Q none s')
    (hfound : ∀ ip (n : Fin sb.ninodes) s', ip ∉ L →
      FsInv T ∅ (R + Pi.single ip 1) (insert ip L) W s' → s'.blocks = s.blocks →
      (s'.inode ip).inum = n → (R ip = 0 → (T n).type ≠ 0 → (T n).nlink ≠ 0) →
      ¬Vacant sb s.blocks (startOf s cwd path) (components path) → Q (some ip) s')
    (hmade : ∀ ip (n : Fin sb.ninodes) T' s', ip ∉ L →
      FsInv T' ∅ (R + Pi.single ip 1) (insert ip L) W s' → (s'.inode ip).inum = n →
      (T n).type = 0 → T' n = { Dinode.fresh T_FILE with nlink := 1 } →
      Vacant sb s.blocks (startOf s cwd path) (components path) → Q (some ip) s') :
    wp (create sb cwd path T_FILE 0 0) Tolerated Q s := by
  have hc := h.covers
  simp only [create, nameiparent, wp_bind]
  refine h.wp_namex hfile hcwd (tolerant ..) (.inl rfl) (fun T₁ s₁ h₁ hs₁ hroute => ?_)
    fun dp name T₁ s₁ h₁ hs₁ harr hroute => ?_
  · obtain ⟨rfl, hb₁⟩ := hs₁.eq_of_held hheld
    exact wp_pure.2 (hnone s₁ h₁ hb₁ fun hvacant => hvacant.1 (hroute hpath))
  obtain ⟨rfl, hb₁⟩ := hs₁.eq_of_held hheld
  obtain ⟨m, hm⟩ := h₁.exists_num dp single_pos
  have hnamed := harr.named
  have hdir := harr.dir rfl m hm
  have hroute := hroute hpath
  rw [hm] at hnamed hroute
  simp only [wp_bind]
  refine h₁.wp_ilock single_pos fun s₂ hdL h₂ hb₂ hnums₂ => ?_
  have hblocks : s₂.blocks = s.blocks := hb₂.trans hb₁
  have hm₂ : (s₂.inode dp).inum = m := (hnums₂ dp single_pos).trans hm
  have hlive := h₂.live (Finset.mem_insert_self ..) hm₂
  have hfile₂ : FileInv T₁ (files T₁ s₂.blocks) := by rwa [hblocks]
  obtain ⟨hisdir, hmem⟩ := isDir_of_route hroute
  have hresolve : resolve sb s.blocks (startOf s cwd path) (components path) =
      Slots.lookup (entries (content s₂.blocks (T₁ m))) (cstring DIRSIZ name) := by
    rw [resolve_eq_follow_parent _ (List.ne_nil_of_mem hmem), hroute, Option.bind_some, follow,
      if_pos hisdir, dirSlots_eq h, hblocks, cstring_of_mem_components hpath hmem]
  refine h₂.wp_dirlookup hlive hfile₂ hdir rfl (.inl rfl) (fun hsearch _ => ?_)
    fun k ino ip s₃ hsearch htaken => ?_
  · have hvacant : Vacant sb s.blocks (startOf s cwd path) (components path) := by
      refine ⟨fun hnot => ?_, ?_⟩
      · rw [hroute] at hnot
        cases hnot
      · rw [hresolve, Slots.lookup, hsearch]
        rfl
    simp only [wp_bind, wp_get, wp_ite, setInode, setNlink, wp_modify]
    refine h₂.wp_ialloc ⟨logWrite_admitted, rfl, rfl⟩ ((h₂.cache.entry dp).num single_pos).1
      fun n ip s₃ hnew => ?_
    have hne : m ≠ n := fun he => by
      have hfree := hnew.free
      rw [← he, hdir] at hfree
      cases hfree
    refine hnew.inv.wp_ilock single_pos fun s₄ hipL h₄ hb₄ hnums₄ => ?_
    have hn₄ : (s₄.inode ip).inum = n := (hnums₄ ip single_pos).trans hnew.inum
    have hm₄ : (s₄.inode dp).inum = m :=
      (hnums₄ dp (add_single_pos single_pos)).trans ((hnew.nums dp single_pos).trans hm₂)
    have hlive₄ := h₄.live (Finset.mem_insert_self ..) hn₄
    have hT₄ := h₄.cache.eq_table hlive₄
    rw [update_self] at hT₄
    refine h₄.wp_setMeta hlive₄ logWrite_admitted
      (d := { Dinode.fresh T_FILE with nlink := 1 }) ?_ ?_ ?_ fun s₅ h₅ hlive₅ _ hfiles₅ hnums₅ =>
        ⟨fun hd => absurd hd (by decide), fun _ => ?_⟩
    · rw [update_self]
    · rw [update_self]
    · have hfresh : s₄.inode ip = { s₄.inode ip with toDinode := Dinode.fresh T_FILE } := by
        rw [← hT₄]
      rw [hfresh]
      rfl
    rw [add_right_comm, Finset.insert_comm] at h₅
    refine h₅.wp_enterFile ?_ hc.lock ?_ ((hnums₅ dp (add_single_pos single_pos)).trans hm₄)
      hlive₅.inum ?_ hne.symm fun T' s' h' hn' hT' =>
        hmade ip n T' s' ?_ h' hn' hnew.free ?_ hvacant
    · have hfile₄ := hnew.fileInv hfile₂
      rw [← hb₄] at hfile₄
      refine hfile₄.bump (s := s₄) ?_ hfiles₅
      rw [update_self]
    · exact fun hmem => (Finset.mem_insert.1 hmem).elim
        (fun he => hipL (he ▸ Finset.mem_insert_self ..)) hdL
    · rw [update_of_ne hne, update_of_ne hne, hdir]
    · exact fun hipL' => hipL (Finset.mem_insert_of_mem hipL')
    · rw [hT', update_self]
  · have hnums₃ : SameNums R s s₃ :=
      hs₁.nums.trans ((hnums₂.trans htaken.nums).mono fun _ => add_single_pos)
    have hm₃ : (s₃.inode dp).inum = m := (htaken.nums dp single_pos).trans hm₂
    have h₃ := htaken.inv
    rw [add_right_comm] at h₃
    simp only [wp_bind, wp_get, wp_ite, wp_pure]
    refine h₃.wp_iunlockput_linked hdL hc.add hm₃ (fun hr ht => ?_) fun s₄ h₄ hb₄ hnums₄ => ?_
    · exact hheld.nlink_ne hnums₃ (fun _ => add_single_pos) h₃ hr hm₃
        (hnamed (Nat.eq_zero_of_add_eq_zero_right hr)) ht
    have hnums₄' : SameNums R s s₄ := hnums₃.trans (hnums₄.mono fun _ => add_single_pos)
    obtain ⟨n, hn⟩ := h₄.exists_num ip single_pos
    have hino : n.val = ino := by rw [← hn, hnums₄ ip single_pos, htaken.inum]
    have hname : Named T₁ s.blocks n := by
      obtain ⟨a, b, hslots, -, -⟩ := Slots.search_eq_some.1 hsearch
      refine .inr ⟨m, cstring DIRSIZ name, hdir, ?_⟩
      rw [← hblocks, hslots, hino]
      simp
    refine h₄.wp_ilock single_pos fun s₅ hL h₅ hb₅ hnums₅ => ?_
    have hn₅ : (s₅.inode ip).inum = n := (hnums₅ ip single_pos).trans hn
    have hb₅' : s₅.blocks = s.blocks := by rw [hb₅, hb₄, htaken.blocks, hblocks]
    have hlink (hr : R ip = 0) (ht : (T₁ n).type ≠ 0) : (T₁ n).nlink ≠ 0 :=
      hheld.nlink_ne hnums₄' (fun _ => id) h₄ hr hn hname ht
    have hthere : ¬Vacant sb s.blocks (startOf s cwd path) (components path) := fun hvacant => by
      have hnot := hvacant.2
      rw [hresolve, Slots.lookup, hsearch] at hnot
      cases hnot
    refine ⟨fun _ => hfound ip n s₅ hL h₅ hb₅' hn₅ hlink hthere, fun _ => ?_⟩
    exact h₅.wp_iunlockput_linked hL hc hn₅ hlink fun s' h' hb' _ =>
      hnone s' h' (hb'.trans hb₅') hthere

end Xv6
