/-
# What the calls on directories and paths keep

Every routine of `Fs.Dir` keeps the invariant of `Fs.Keep`.  `namex` walks a path with one reference
and at most one lock in its hands, and returns with one reference or none; `create` returns one
reference and its lock.  The other calls return with what they were called with.
-/

import Xv6.Fs.Track

namespace Xv6

open Lib Function

variable {sb : Superblock} {T : Table sb} {R : Ip → ℕ} {L W : Finset Ip} {ip dp : Ip}
  {n : Fin sb.ninodes} {d : Dinode} {s : Fs} {src : Source} {off : ℕ} {name path : List UInt8}
  {type : UInt16}

/-! ### Writing into a file or a directory -/

theorem WroteFile.full (h : WroteFile T R L W n src off len s d off' s')
    (hoff : off ≤ (T n).size.toNat)
    (hfull : ∀ p < (T n).size.toNat, files T s.blocks n (p / BSIZE) ≠ none) (p : ℕ)
    (hp : p < d.size.toNat) : files (update T n d) s'.blocks n (p / BSIZE) ≠ none := by
  by_cases hold : p < (T n).size.toNat
  · exact h.kept _ (hfull p hold)
  · have hsize := h.size_eq
    split_ifs at hsize with h₀
    · omega
    · exact h.filled p (by omega) (by omega)

theorem bytesAt_two (V : ℕ → Option (Bytes B)) (off : ℕ) :
    bytesAt V off 2 = [byteAt V off, byteAt V (off + 1)] := rfl

theorem WroteFile.dirs (h : WroteFile T R L W n (kernelSrc data) (DIRENT * k) DIRENT s d off' s')
    (hoff : DIRENT * k ≤ (T n).size.toNat) (hdata : ofLE [data 0, data 1] < sb.ninodes)
    (hdirs : ∀ j, DIRENT * j + DIRENT ≤ (T n).size.toNat →
      ofLE (bytesAt (files T s.blocks n) (DIRENT * j) 2) < sb.ninodes) (j : ℕ)
    (hj : DIRENT * j + DIRENT ≤ d.size.toNat) :
    ofLE (bytesAt (files (update T n d) s'.blocks n) (DIRENT * j) 2) < sb.ninodes := by
  obtain ⟨hend, hin⟩ := h.inside data kernelSrc_gives
  have hsize := h.size_eq
  simp only [DIRENT] at *
  rw [if_neg (by decide)] at hsize
  rw [bytesAt_two]
  by_cases hjk : j = k
  · subst hjk
    rw [hin (16 * j) le_rfl (by omega), hin (16 * j + 1) (by omega) (by omega)]
    simpa using hdata
  · rw [h.outside (16 * j) (by omega), h.outside (16 * j + 1) (by omega)]
    exact hdirs j (by omega)

/-- **`writei`** of a locked inode: any bytes into a file, a whole entry into a
directory. -/
theorem wp_writei_locked {Q : ℤ → Fs → Prop} {off len : UInt32} (h : Inv sb R L W s) (hL : ip ∈ L)
    (hdir : (s.inode ip).type = T_DIR → DIRENT ∣ off.toNat ∧ len.toNat = DIRENT ∧
      ∃ data, src = kernelSrc data ∧ ofLE [data 0, data 1] < sb.ninodes)
    (hQ : ∀ (r : ℤ) s', r = -1 ∨ r = len.toNat → Inv sb R L W s' → Q r s') :
    wp (writei sb ip src off len) Tolerated Q s := by
  have hinv := h
  obtain ⟨T, h, hfile⟩ := h
  obtain ⟨n, hl⟩ := h.cache.live hL
  have hT := h.cache.eq_table hl
  refine wp_writei h hl tolerated_budget tolerated_avail (fun _ => hQ _ s (.inl rfl) hinv)
    fun d off' s' hacc _ hw => hQ _ s' (.inr rfl) ⟨_, hw.inv, hfile.update hw.other ?_ ?_⟩
  all_goals
    have hoff : off.toNat ≤ (T n).size.toNat := by
      have := (not_or.1 hacc).1
      rwa [gt_iff_lt, UInt32.lt_iff_toNat_lt, Nat.not_lt] at this
    have ht : d.type = (T n).type := by rw [hw.meta_eq]
  · intro h₀
    exact hw.full hoff (hfile.full n (by rwa [← ht]))
  intro h₀
  have hd : (s.inode ip).type = T_DIR := by rw [← h₀, ht, ← hT]
  obtain ⟨⟨k, hk⟩, hlen, data, rfl, hdata⟩ := hdir hd
  rw [hk] at hoff hw
  rw [hlen] at hw
  exact hw.dirs hoff hdata (hfile.dirs n (by rw [← ht, h₀]))

theorem wp_readi_locked {E : Halt → Prop} {Q : List UInt8 → Fs → Prop}
    {copyout : ℕ → List UInt8 → Bool} {off len : UInt32} (h : Inv sb R L W s) (hL : ip ∈ L)
    (hQ : ∀ l, Q l s) : wp (readi sb ip copyout off len) E Q s := by
  obtain ⟨T, h, hfile⟩ := h
  obtain ⟨n, hl⟩ := h.cache.live hL
  refine wp_mono (wp_readi h hl (hfile.full n (h.cache.type_ne hl))) ?_
  rintro l s' ⟨rfl, -⟩
  exact hQ l

/-! ### Directory entries -/

theorem dvd_toNat_ofNat (h : DIRENT ∣ off) : DIRENT ∣ (UInt32.ofNat off).toNat := by
  rw [UInt32.toNat_ofNat']
  simp only [DIRENT] at *
  omega

/-- **`readDirent`** changes nothing, and what it finds in a directory is the number of
an inode. -/
theorem wp_readDirent {Q : Dirent → Fs → Prop} {p : Panic} (h : Inv sb R L W s)
    (hL : dp ∈ L) (hoff : DIRENT ∣ off) (hp : p.tolerated = true)
    (hQ : ∀ de : Dirent, ((s.inode dp).type = T_DIR → de.inum < sb.ninodes) → Q de s) :
    wp (readDirent sb dp off p) Tolerated Q s := by
  obtain ⟨T, h, hfile⟩ := h
  obtain ⟨n, hl⟩ := h.cache.live hL
  have hT := h.cache.eq_table hl
  simp only [readDirent, wp_bind, wp_ite, wp_throw, wp_pure]
  refine wp_mono (wp_readi h hl (hfile.full n (h.cache.type_ne hl))) ?_
  rintro l s' ⟨rfl, r, hr, rfl, -⟩
  refine ⟨fun hlen => hQ _ fun hd => ?_, fun _ => hp⟩
  rw [length_bytesAt] at hlen
  subst hlen
  obtain ⟨k, hk⟩ := dvd_toNat_ofNat hoff
  have hle : (UInt32.ofNat off).toNat + DIRENT ≤ (T n).size.toNat := by
    unfold readLen at hr
    split_ifs at hr with hout
    · simp [DIRENT] at hr
    · simp only [DIRENT] at *
      omega
  rw [hk] at hle
  have := hfile.dirs n (by rw [← hT, hd]) k hle
  rwa [Dirent.parse, hk]

/-- **`writeDirent`** replaces one entry. -/
theorem wp_writeDirent {Q : ℤ → Fs → Prop} {de : List UInt8} (h : Inv sb R L W s)
    (hL : dp ∈ L) (hoff : DIRENT ∣ off) (hde : ofLE [de.getD 0 0, de.getD 1 0] < sb.ninodes)
    (hQ : ∀ r s', Inv sb R L W s' → Q r s') : wp (writeDirent sb dp off de) Tolerated Q s :=
  wp_writei_locked h hL (fun _ => ⟨dvd_toNat_ofNat hoff, rfl, _, rfl, hde⟩) fun r s' _ => hQ r s'

theorem dvd_of_mem_direntOffs (h : off ∈ direntOffs size) : DIRENT ∣ off := by
  obtain ⟨k, -, rfl⟩ := List.mem_map.1 h
  exact Nat.dvd_mul_right ..

section

variable (h : Inv sb R L W s) (hL : dp ∈ L)
include h hL

/-- **`dirlookup`** changes nothing, or takes a reference to the inode it found. -/
theorem wp_dirlookup {Q : Option (Ip × ℕ) → Fs → Prop} (hnone : Q none s)
    (hsome : ∀ ip off s', DIRENT ∣ off → Inv sb (R + Pi.single ip 1) L W s' →
      Q (some (ip, off)) s') :
    wp (dirlookup sb dp name) Tolerated Q s := by
  obtain ⟨T, h, hfile⟩ := h
  obtain ⟨n, hl⟩ := h.cache.live hL
  by_cases ht : (T n).type = T_DIR
  · exact h.wp_dirlookup hl hfile ht rfl (.inl rfl) (fun _ _ => hnone) fun k ino ip s' _ htaken =>
      hsome ip _ s' (Nat.dvd_mul_right ..) ⟨T, htaken.inv, htaken.blocks ▸ hfile⟩
  · simp only [dirlookup, wp_bind, wp_get, wp_ite, wp_throw, h.cache.eq_table hl]
    exact ⟨fun hd => absurd hd ht, fun _ => rfl⟩

/-- **`dirlink`** writes an entry, or drops the reference it took to the inode of that
name. -/
theorem wp_dirlink {Q : ℤ → Fs → Prop} {inum : ℕ} (hn : inum < sb.ninodes)
    (hQ : ∀ r s', Inv sb R L W s' → Q r s') : wp (dirlink sb dp name inum) Tolerated Q s := by
  obtain ⟨T, h, hfile⟩ := h
  obtain ⟨n, hl⟩ := h.cache.live hL
  by_cases ht : (T n).type = T_DIR
  · exact h.wp_dirlink (fun _ he => he.1) hl hfile ht
      (fun _ s' h' hb _ => hQ _ s' ⟨T, h', hb ▸ hfile⟩) fun _ k d s' _ hw =>
        hQ _ s'
          ⟨_, hw.inv, hw.fileInv hfile ht fun _ _ hslot => (slot_direntBytes_le hslot).trans_lt hn⟩
  · simp only [dirlink, dirlookup, wp_bind, wp_get, wp_ite, wp_throw, h.cache.eq_table hl]
    exact ⟨fun hd => absurd hd ht, fun _ => rfl⟩

theorem wp_isdiremptyFrom {Q : Bool → Fs → Prop} (hQ : ∀ b, Q b s) (offs : List ℕ)
    (hoffs : ∀ off ∈ offs, DIRENT ∣ off) : wp (isdiremptyFrom sb dp offs) Tolerated Q s := by
  induction offs with
  | nil =>
    simp only [isdiremptyFrom, wp_pure]
    exact hQ true
  | cons off offs ih =>
    simp only [isdiremptyFrom, wp_bind, wp_ite, wp_pure]
    exact wp_readDirent h hL (hoffs off (.head _)) rfl fun de _ =>
      ⟨fun _ => hQ false, fun _ => ih fun o ho => hoffs o (.tail _ ho)⟩

theorem wp_isdirempty {Q : Bool → Fs → Prop} (hQ : ∀ b, Q b s) :
    wp (isdirempty sb dp) Tolerated Q s := by
  simp only [isdirempty, wp_bind, wp_get]
  exact wp_isdiremptyFrom h hL hQ _ fun _ ho => dvd_of_mem_direntOffs (List.mem_of_mem_drop ho)

end

/-! ### Path names -/

/-- **`namex`** returns a reference to the inode it found, or none. -/
theorem wp_namex {Q : Option (Ip × List UInt8) → Fs → Prop} {cwd : Ip} {parent : Bool}
    (h : Inv sb R L W s) (hcwd : 0 < R cwd) (hnone : ∀ s', Inv sb R L W s' → Q none s')
    (hsome : ∀ ip name s', Inv sb (R + Pi.single ip 1) L W s' → Q (some (ip, name)) s') :
    wp (namex sb cwd path parent) Tolerated Q s := by
  obtain ⟨T, h, hfile⟩ := h
  exact h.wp_namex hfile hcwd (tolerant ..) (.inl rfl)
    (fun T' s' h' hs _ => hnone s' ⟨T', h', hs.file⟩) fun ip name T' s' h' hs _ _ =>
      hsome ip name s' ⟨T', h', hs.file⟩

theorem wp_namei {Q : Option Ip → Fs → Prop} {cwd : Ip} (h : Inv sb R L W s)
    (hcwd : 0 < R cwd) (hnone : ∀ s', Inv sb R L W s' → Q none s')
    (hsome : ∀ ip s', Inv sb (R + Pi.single ip 1) L W s' → Q (some ip) s') :
    wp (namei sb cwd path) Tolerated Q s := by
  simp only [namei, wp_bind, wp_pure]
  exact wp_namex h hcwd hnone fun ip _ s' h' => hsome ip s' h'

/-! ### New inodes -/

theorem wp_ialloc {Q : Ip → Fs → Prop} {dev : ℕ} (h : Inv sb R L W s) (hd : dev = ROOTDEV)
    (hQ : ∀ (T : Table sb) (n : Fin sb.ninodes) ip s', FsInv T ∅ (R + Pi.single ip 1) L W s' →
      FileInv T (files T s'.blocks) → (s'.inode ip).inum = n → (T n).type = type → Q ip s') :
    wp (ialloc sb dev type) Tolerated Q s := by
  obtain ⟨T, h, hfile⟩ := h
  refine h.wp_ialloc ⟨logWrite_admitted, rfl, rfl⟩ hd fun n ip s' hnew =>
    hQ _ n ip s' hnew.inv (hnew.fileInv hfile) hnew.inum ?_
  rw [update_self]
  rfl

/-- The entries to rely on not to be directories after one of type `type` is made. -/
def pinNew (type : UInt16) (W : Finset Ip) (ip : Ip) : Finset Ip :=
  if type = T_DIR then W else insert ip W

theorem wp_ilock_new {Q : PUnit → Fs → Prop} (h : FsInv T ∅ R L W s)
    (hfile : FileInv T (files T s.blocks)) (hr : 0 < R ip) (hn : (s.inode ip).inum = n)
    (hty : (T n).type = type) (hQ : ∀ s', ip ∉ L → Inv sb R (insert ip L) (pinNew type W ip) s' →
      Q ⟨⟩ s') : wp (ilock sb ip) Tolerated Q s
    := by
  refine h.wp_ilock hr fun s₁ hL h₁ hb hnum => hQ s₁ hL ?_
  have hmem : ip ∈ insert ip L := Finset.mem_insert_self ..
  have hinv : Inv sb R (insert ip L) W s₁ := ⟨T, h₁, by rwa [hb]⟩
  have hl : Live R s₁.inode ip n := ⟨hr, (hnum ip hr).trans hn, ((h₁.cache.entry ip).held hmem).2⟩
  unfold pinNew
  split_ifs with hd
  · exact hinv
  · exact hinv.pin hmem (by rwa [h₁.cache.eq_table hl, hty])

theorem wp_createDots {Q : PUnit → Fs → Prop} (h : Inv sb R L W s) (hip : ip ∈ L) (hdp : dp ∈ L)
    (hQ : ∀ s', Inv sb R L W s' → Q ⟨⟩ s') : wp (create.createDots sb dp ip) Tolerated Q s := by
  simp only [create.createDots, wp_bind, wp_get, wp_ite, wp_throw, wp_pure]
  refine wp_dirlink h hip (h.num (h.covers ip (.inl hip))).2 fun r s₁ h₁ =>
    ⟨fun _ => rfl, fun _ => ?_⟩
  exact wp_dirlink h₁ hip (h₁.num (h₁.covers dp (.inl hdp))).2 fun r s₂ h₂ =>
    ⟨fun _ => rfl, fun _ => hQ s₂ h₂⟩

theorem Covers.new (h : Covers R L W) (type : UInt16) :
    Covers (R + Pi.single ip 1) (insert ip L) (pinNew type W ip) := by
  have hW : pinNew type W ip ⊆ insert ip W := by
    unfold pinNew
    split_ifs
    · exact Finset.subset_insert ..
    · exact subset_rfl
  intro jp hjp
  by_cases hj : jp = ip
  · subst hj
    exact single_pos
  · refine h.add jp (hjp.imp (fun h₁ => ?_) fun h₂ => ?_)
    · exact (Finset.mem_insert.1 h₁).resolve_left hj
    · exact (Finset.mem_insert.1 (hW h₂)).resolve_left hj

theorem wp_createEnter {Q : Option Ip → Fs → Prop}
    (h : Inv sb (R + Pi.single ip 1 + Pi.single dp 1) (insert dp (insert ip L))
      (pinNew type W ip) s)
    (hc : Covers R L W) (hdp : dp ∉ insert ip L)
    (hQ : ∀ s', Inv sb (R + Pi.single ip 1) (insert ip L) (pinNew type W ip) s' → Q (some ip) s') :
    wp (create.enter sb dp name ip) Tolerated Q s := by
  simp only [create.enter, wp_bind, wp_get, wp_ite, wp_throw, wp_pure]
  refine wp_dirlink h (Finset.mem_insert_self ..) (h.num (add_single_pos single_pos)).2
    fun r s₁ h₁ => ⟨fun _ => rfl, fun _ => wp_iunlockput h₁ hdp (hc.new type) hQ⟩

/-- **`create`** returns a locked inode with a reference, or nothing. -/
theorem wp_create {Q : Option Ip → Fs → Prop} {cwd : Ip} {major minor : UInt16}
    (h : Inv sb R L W s) (hcwd : 0 < R cwd) (hnone : ∀ s', Inv sb R L W s' → Q none s')
    (hsome : ∀ ip s', ip ∉ L → Inv sb (R + Pi.single ip 1) (insert ip L) (pinNew type W ip) s' →
      Q (some ip) s') :
    wp (create sb cwd path type major minor) Tolerated Q s := by
  have hc := h.covers
  simp only [create, nameiparent, wp_bind]
  refine wp_namex h hcwd (fun s₁ h₁ => wp_pure.2 (hnone s₁ h₁)) fun dp name s₁ h₁ => ?_
  simp only [wp_bind]
  refine wp_ilock h₁ single_pos fun s₂ hdL h₂ => ?_
  refine wp_dirlookup h₂ (Finset.mem_insert_self ..) ?_ fun ip off s₃ _ h₃ => ?_
  · simp only [wp_bind, wp_get, wp_ite, setInode, setNlink, wp_modify]
    have hdev := (h₂.num single_pos).1
    refine wp_ialloc h₂ hdev fun T n ip s₃ h₃ hfile hn hty => ?_
    refine wp_ilock_new h₃ hfile single_pos hn hty fun s₄ hipL h₄ => ?_
    rw [add_right_comm, Finset.insert_comm] at h₄
    have hdp : dp ∉ insert ip L := fun hm => (Finset.mem_insert.1 hm).elim
      (fun he => hipL (he ▸ Finset.mem_insert_self ..)) hdL
    have hip : ip ∉ L := fun hm => hipL (Finset.mem_insert_of_mem hm)
    have hmem : ip ∈ insert dp (insert ip L) := Finset.mem_insert_of_mem (Finset.mem_insert_self ..)
    refine wp_iupdate_meta h₄ hmem rfl rfl rfl rfl fun s₅ h₅ => ⟨fun _ => ?_, fun _ => ?_⟩
    · refine wp_iupdate_meta h₅ (Finset.mem_insert_self ..) rfl rfl rfl rfl fun s₆ h₆ => ?_
      refine wp_createDots h₆ hmem (Finset.mem_insert_self ..) fun s₇ h₇ => ?_
      exact wp_createEnter h₇ hc hdp fun s₈ h₈ => hsome ip s₈ hip h₈
    · exact wp_createEnter h₅ hc hdp fun s₆ h₆ => hsome ip s₆ hip h₆
  · rw [add_right_comm] at h₃
    simp only [wp_bind, wp_get, wp_ite, wp_pure]
    refine wp_iunlockput h₃ hdL hc.add fun s₄ h₄ => ?_
    refine wp_ilock h₄ single_pos fun s₅ hL h₅ => ⟨fun ht => hsome ip s₅ hL ?_, fun _ =>
      wp_iunlockput h₅ hL hc hnone⟩
    rw [pinNew, if_neg (by rw [ht.1]; decide)]
    exact h₅.pin (Finset.mem_insert_self ..) (by rcases ht.2 with h' | h' <;> rw [h'] <;> decide)

/-! ### The calls -/

section

variable {Q : ℤ → Fs → Prop} {cwd : Ip} (h : Inv sb R L W s) (hcwd : 0 < R cwd)
  (hQ : ∀ r s', Inv sb R L W s' → Q r s')

include h hcwd hQ

/-- **`mkdir` and `mknod`** keep the invariant. -/
theorem wp_make {major minor : UInt16} {path : Option (List UInt8)} :
    wp (make sb cwd type major minor path) Tolerated Q s := by
  have hc := h.covers
  simp only [make, wp_bind]
  refine wp_beginOp h fun s₁ h₁ => ?_
  cases path with
  | none =>
    simp only [wp_bind, wp_pure]
    exact wp_endOp h₁ fun s₂ h₂ => hQ _ s₂ h₂
  | some path =>
    simp only [wp_bind]
    refine wp_create h₁ hcwd (fun s₂ h₂ => ?_) fun ip s₂ hL h₂ => ?_
    · simp only [wp_bind, wp_pure]
      exact wp_endOp h₂ fun s₃ h₃ => hQ _ s₃ h₃
    simp only [wp_bind, wp_pure]
    have hW : W ⊆ pinNew type W ip := by
      unfold pinNew
      split_ifs
      · exact subset_rfl
      · exact Finset.subset_insert ..
    exact wp_iunlockput (h₂.mono_pin hW) hL hc fun s₃ h₃ => wp_endOp h₃ fun s₄ h₄ => hQ _ s₄ h₄

end

theorem wp_linkEntry {Q : Bool → Fs → Prop} {cwd : Ip} {new : List UInt8} (h : Inv sb R L W s)
    (hcwd : 0 < R cwd) (hip : 0 < R ip) (hQ : ∀ b s', Inv sb R L W s' → Q b s') :
    wp (link.linkEntry sb cwd new ip) Tolerated Q s := by
  have hc := h.covers
  simp only [link.linkEntry, nameiparent, wp_bind]
  refine wp_namex h hcwd (fun s₁ h₁ => wp_pure.2 (hQ _ s₁ h₁)) fun dp name s₁ h₁ => ?_
  simp only [wp_bind, wp_get, wp_ite, wp_pure]
  refine wp_ilock h₁ single_pos fun s₂ hL h₂ => ⟨fun _ => ?_, fun _ => ?_⟩
  · exact wp_iunlockput h₂ hL hc fun s₃ h₃ => hQ _ s₃ h₃
  · refine wp_dirlink h₂ (Finset.mem_insert_self ..) (h₂.num (add_single_pos hip)).2
      fun r s₃ h₃ => ?_
    exact wp_iunlockput h₃ hL hc fun s₄ h₄ => hQ _ s₄ h₄

/-- **`link`** keeps the invariant. -/
theorem wp_link {Q : ℤ → Fs → Prop} {cwd : Ip} {old new : List UInt8} (h : Inv sb R L W s)
    (hcwd : 0 < R cwd) (hQ : ∀ r s', Inv sb R L W s' → Q r s') :
    wp (link sb cwd old new) Tolerated Q s := by
  have hc := h.covers
  simp only [link, wp_bind]
  refine wp_beginOp h fun s₁ h₁ => wp_namei h₁ hcwd (fun s₂ h₂ => ?_) fun ip s₂ h₂ => ?_
  · simp only [wp_bind, wp_pure]
    exact wp_endOp h₂ fun s₃ h₃ => hQ _ s₃ h₃
  simp only [wp_bind, wp_get, wp_ite, wp_pure, setNlink, setInode, wp_modify]
  refine wp_ilock h₂ single_pos fun s₃ hL h₃ => ⟨fun _ => ?_, fun _ => ?_⟩
  · exact wp_iunlockput h₃ hL hc fun s₄ h₄ => wp_endOp h₄ fun s₅ h₅ => hQ _ s₅ h₅
  refine wp_iupdate_meta h₃ (Finset.mem_insert_self ..) rfl rfl rfl rfl fun s₄ h₄ => ?_
  refine wp_iunlock h₄ hL fun s₅ h₅ => ?_
  refine wp_linkEntry h₅ (add_single_pos hcwd) single_pos fun b s₆ h₆ => ⟨fun _ => ?_, fun _ => ?_⟩
  · exact wp_iput h₆ hc fun s₇ h₇ => wp_endOp h₇ fun s₈ h₈ => hQ _ s₈ h₈
  · refine wp_ilock h₆ single_pos fun s₇ hL h₇ => ?_
    refine wp_iupdate_meta h₇ (Finset.mem_insert_self ..) rfl rfl rfl rfl fun s₈ h₈ => ?_
    exact wp_iunlockput h₈ hL hc fun s₉ h₉ => wp_endOp h₉ fun s' h' => hQ _ s' h'

theorem wp_unlinkBad {Q : ℤ → Fs → Prop} (h : Inv sb (R + Pi.single dp 1) (insert dp L) W s)
    (hL : dp ∉ L) (hc : Covers R L W) (hQ : ∀ r s', Inv sb R L W s' → Q r s') :
    wp (unlink.bad sb dp) Tolerated Q s := by
  simp only [unlink.bad, wp_bind, wp_pure]
  exact wp_iunlockput h hL hc fun s₁ h₁ => wp_endOp h₁ fun s₂ h₂ => hQ _ s₂ h₂

section

variable (h : Inv sb (R + Pi.single dp 1 + Pi.single ip 1) (insert ip (insert dp L)) W s)
  (hdp : dp ∉ L) (hip : ip ∉ insert dp L) (hc : Covers R L W)
include h hdp hip hc

theorem wp_unlinkFinish {Q : ℤ → Fs → Prop}
    (hQ : ∀ r s', Inv sb R L W s' → Q r s') : wp (unlink.finish sb dp ip) Tolerated Q s := by
  have hip' : ip ∉ L := fun hm => hip (Finset.mem_insert_of_mem hm)
  have hdp' : dp ∉ insert ip L := fun hm => (Finset.mem_insert.1 hm).elim
    (fun he => hip (he ▸ Finset.mem_insert_self ..)) hdp
  have hc' : Covers (R + Pi.single ip 1) (insert ip L) W := fun jp hjp =>
    hc.new T_DIR jp hjp
  rw [add_right_comm, Finset.insert_comm] at h
  simp only [unlink.finish, setNlink, setInode, wp_bind, wp_modify, wp_pure]
  refine wp_iunlockput h hdp' hc' fun s₁ h₁ => ?_
  refine wp_iupdate_meta h₁ (Finset.mem_insert_self ..) rfl rfl rfl rfl fun s₂ h₂ => ?_
  exact wp_iunlockput h₂ hip' hc fun s₃ h₃ => wp_endOp h₃ fun s₄ h₄ => hQ _ s₄ h₄

theorem wp_unlinkErase {Q : ℤ → Fs → Prop} (hoff : DIRENT ∣ off)
    (hQ : ∀ r s', Inv sb R L W s' → Q r s') : wp (unlink.erase sb dp ip off) Tolerated Q s := by
  have hmem : dp ∈ insert ip (insert dp L) := Finset.mem_insert_of_mem (Finset.mem_insert_self ..)
  have hzero : ofLE [(List.replicate DIRENT (0 : UInt8)).getD 0 0,
      (List.replicate DIRENT (0 : UInt8)).getD 1 0] < sb.ninodes :=
    (Nat.zero_le _).trans_lt sb.root_fits
  simp only [unlink.erase, wp_bind, wp_get, wp_ite, wp_throw, setNlink, setInode, wp_modify]
  refine wp_writeDirent h hmem hoff hzero fun r s₁ h₁ =>
    ⟨fun _ => rfl, fun _ => ⟨fun _ => ?_, fun _ => ?_⟩⟩
  · exact wp_iupdate_meta h₁ hmem rfl rfl rfl rfl fun s₂ h₂ => wp_unlinkFinish h₂ hdp hip hc hQ
  · exact wp_unlinkFinish h₁ hdp hip hc hQ

end

/-- **`unlink`** keeps the invariant. -/
theorem wp_unlink {Q : ℤ → Fs → Prop} {cwd : Ip} (h : Inv sb R L W s) (hcwd : 0 < R cwd)
    (hQ : ∀ r s', Inv sb R L W s' → Q r s') : wp (unlink sb cwd path) Tolerated Q s := by
  have hc := h.covers
  simp only [unlink, nameiparent, wp_bind]
  refine wp_beginOp h fun s₁ h₁ => wp_namex h₁ hcwd (fun s₂ h₂ => ?_) fun dp name s₂ h₂ => ?_
  · simp only [wp_bind, wp_pure]
    exact wp_endOp h₂ fun s₃ h₃ => hQ _ s₃ h₃
  simp only [wp_bind, wp_ite]
  refine wp_ilock h₂ single_pos fun s₃ hdL h₃ => ⟨fun _ => wp_unlinkBad h₃ hdL hc hQ, fun _ => ?_⟩
  refine wp_dirlookup h₃ (Finset.mem_insert_self ..) (wp_unlinkBad h₃ hdL hc hQ)
    fun ip off s₄ hoff h₄ => ?_
  have hc₄ : Covers (R + Pi.single dp 1) (insert dp L) W := h₃.covers
  simp only [wp_bind, wp_get, wp_ite, wp_throw, wp_pure]
  refine wp_ilock h₄ single_pos fun s₅ hip h₅ => ⟨fun _ => rfl, fun _ => ?_⟩
  refine ⟨fun _ => ?_, fun _ => ⟨fun hf => (by cases hf), fun _ => ?_⟩⟩
  · refine wp_isdirempty h₅ (Finset.mem_insert_self ..) fun b => ⟨fun _ => ?_, fun _ => ?_⟩
    · exact wp_iunlockput h₅ hip hc₄ fun s₆ h₆ => wp_unlinkBad h₆ hdL hc hQ
    · exact wp_unlinkErase h₅ hdL hip hc hoff hQ
  · exact wp_unlinkErase h₅ hdL hip hc hoff hQ

end Xv6
