/-
# When `open` fails

`sys_open` looks the inode up or makes it before it asks for a struct file and a descriptor.  A call
that fails leaves the disk as it was unless it made a file first, and no struct file or no
descriptor is free; then it leaves the new file behind (`failed_open_creates_file`).
-/

import Xv6.Fs.Create
import Xv6.Kernel.Disk
import Xv6.Vm.Copy

namespace Xv6

open Lib

/-! ### Finding the inode -/

section

variable {sb : Superblock} {T : Table sb} {R : Ip → ℕ} {L W : Finset Ip} {s : Fs} {cwd : Ip}
  {path : List UInt8} {omode : UInt32} {blocks : Disk}

/-- **`openInode`** changes nothing on the disk unless it makes a file. -/
theorem FsInv.wp_openInode (h : FsInv T ∅ R L W s) (hfile : FileInv T (files T s.blocks))
    (hheld : Held T R s) (hcwd : 0 < R cwd) (hpath : 0 ∉ path)
    {makes : Prop} (hmakes : makes ↔ omode &&& O_CREATE ≠ 0 ∧
      Vacant sb s.blocks (startOf s cwd path) (components path))
    (hnone : ∀ s', s'.blocks = s.blocks → ¬makes → Q none s')
    (hfound : ∀ ip (n : Fin sb.ninodes) s', ip ∉ L →
      FsInv T ∅ (R + Pi.single ip 1) (insert ip L) W s' → s'.blocks = s.blocks →
      (s'.inode ip).inum = n → (R ip = 0 → (T n).type ≠ 0 → (T n).nlink ≠ 0) → ¬makes →
      Q (some ip) s')
    (hmade : ∀ ip (n : Fin sb.ninodes) T' s', ip ∉ L →
      FsInv T' ∅ (R + Pi.single ip 1) (insert ip L) W s' → (s'.inode ip).inum = n →
      (T n).type = 0 → T' n = { Dinode.fresh T_FILE with nlink := 1 } → makes → Q (some ip) s') :
    wp (sysOpen.openInode sb cwd path omode) Tolerated Q s := by
  have hc := h.covers
  have h₀ : FsInv T ∅ R L W { s with outstanding := s.outstanding + 1 } := h.congr rfl rfl
  simp only [sysOpen.openInode, wp_bind, beginOp, wp_get, wp_ite, wp_throw, wp_set]
  refine ⟨fun _ => trivial, fun _ => ⟨fun hcreate => ?_, fun hcreate => ?_⟩⟩
  · have hiff : Vacant sb s.blocks (startOf s cwd path) (components path) → makes :=
      fun hvacant => hmakes.2 ⟨hcreate, hvacant⟩
    have hnot : ¬Vacant sb s.blocks (startOf s cwd path) (components path) → ¬makes :=
      fun hvacant hm => hvacant (hmakes.1 hm).2
    refine h₀.wp_createFile hfile hheld hcwd hpath (fun s₁ _ hb₁ hvacant => ?_)
      (fun ip n s₁ hL h₁ hb₁ hn hlink hvacant =>
        wp_pure.2 (hfound ip n s₁ hL h₁ hb₁ hn hlink (hnot hvacant)))
      fun ip n T₁ s₁ hL h₁ hn hfree hT hvacant =>
        wp_pure.2 (hmade ip n T₁ s₁ hL h₁ hn hfree hT (hiff hvacant))
    exact wp_endOp_pure fun s' hb _ => hnone s' (hb.trans hb₁) (hnot hvacant)
  have hnot : ¬makes := fun hm => hcreate (hmakes.1 hm).1
  simp only [namei, wp_bind, wp_pure]
  refine h₀.wp_namex hfile hcwd (tolerant ..) (.inl rfl) (fun T₁ s₁ h₁ hs₁ _ => ?_)
    fun ip name₀ T₁ s₁ h₁ hs₁ harr _ => ?_
  all_goals obtain ⟨rfl, hb₁⟩ := hs₁.eq_of_held hheld
  · exact wp_endOp_pure fun s' hb _ => hnone s' (hb.trans hb₁) hnot
  obtain ⟨n, hn⟩ := h₁.exists_num ip single_pos
  have hnamed := harr.named
  rw [hn] at hnamed
  have hlink (hr : R ip = 0) (ht : (T₁ n).type ≠ 0) : (T₁ n).nlink ≠ 0 :=
    hheld.nlink_ne hs₁.nums (fun _ => id) h₁ hr hn (hnamed hr) ht
  simp only [Option.map_some]
  rw [wp_bind]
  refine h₁.wp_ilock single_pos fun s₂ hL h₂ hb₂ hnums₂ => ?_
  have hn₂ : (s₂.inode ip).inum = n := (hnums₂ ip single_pos).trans hn
  rw [wp_bind, wp_get, wp_ite]
  refine ⟨fun _ => ?_,
    fun _ => wp_pure.2 (hfound ip n s₂ hL h₂ (hb₂.trans hb₁) hn₂ hlink hnot)⟩
  rw [wp_bind]
  refine h₂.wp_iunlockput_linked hL hc hn₂ hlink fun s₃ _ hb₃ _ => ?_
  exact wp_endOp_pure fun s' hb _ => hnone s' (hb.trans (hb₃.trans (hb₂.trans hb₁))) hnot

end

/-! ### The call -/

variable {b : Board} {sb : Superblock} {K : Multiset ℕ} {P : Finset ℕ} {s s' : Kernel} {p : Pp}
  {path : ℕ} {omode : UInt32}

/-- The call has to make a new file: it is asked to, and its path leads to a directory that has no
entry of the last name. -/
def Creates (sb : Superblock) (s : Kernel) (p : Pp) (path : ℕ) (omode : UInt32) : Prop :=
  omode &&& O_CREATE ≠ 0 ∧ ∃ root str cwd, (s.proc p).pagetable = some root ∧
    s.mem.copyinstr root path MAXPATH = some str ∧ (s.proc p).cwd = some cwd ∧
    Vacant sb s.fs.blocks (startOf s.fs cwd str) (components str)

theorem creates_iff {root : ℕ} {str : List UInt8} {cwd : Ip} (hr : (s.proc p).pagetable = some root)
    (hcwd : (s.proc p).cwd = some cwd) (hstr : s.mem.copyinstr root path MAXPATH = some str) :
    Creates sb s p path omode ↔ omode &&& O_CREATE ≠ 0 ∧
      Vacant sb s.fs.blocks (startOf s.fs cwd str) (components str) := by
  refine and_congr_right fun _ => ⟨?_, fun hvacant => ⟨root, str, cwd, hr, hstr, hcwd, hvacant⟩⟩
  rintro ⟨root', str', cwd', hr', hstr', hcwd', hvacant⟩
  cases hr.symm.trans hr'
  cases hcwd.symm.trans hcwd'
  cases hstr.symm.trans hstr'
  exact hvacant

/-- A struct file and a descriptor of the process are free. -/
def Spare (s : Kernel) (p : Pp) : Prop :=
  (∃ f, (s.file f).ref = 0) ∧ ∃ fd, (s.proc p).ofile fd = none

theorem wp_openFinish_fd {ip : Ip} {fd : Fin NOFILE} {Q : ℤ → Kernel → Prop}
    (hQ : ∀ r s', r ≠ -1 → Q r s') :
    wp (do onFs (sysOpen.finish sb ip omode); return (fd.val : ℤ)) (fun _ => True) Q s := by
  rw [wp_bind]
  refine wp_of_forall fun _ s' => wp_pure.2 (hQ _ s' ?_)
  omega

/-- **`sys_open` once it has its inode** `ip`, which `fail` leaves with its links: it succeeds if
there is room, or fails, and the disk is as it was when the inode was found. -/
theorem FsInv.wp_openRest {T : Table sb} {R : Ip → ℕ} {L W : Finset Ip} {ip : Ip}
    {n : Fin sb.ninodes} {Q : ℤ → Kernel → Prop}
    (h : FsInv T ∅ (R + Pi.single ip 1) (insert ip L) W s.fs) (hL : ip ∉ L) (hc : Covers R L W)
    (hn : (s.fs.inode ip).inum = n) (hlink : R ip = 0 → (T n).type ≠ 0 → (T n).nlink ≠ 0)
    (hidle : ∀ f, (s.file f).ref = 0 → (s.file f).type = .none)
    (hdone : ∀ r s', r ≠ -1 → Spare s p → Q r s')
    (hfail : ∀ s', FsInv T ∅ R L W s'.fs → s'.fs.blocks = s.fs.blocks →
      ((s.fs.inode ip).type ≠ T_DEVICE → ¬Spare s p) → Q (-1) s') :
    wp (do
      let i := (← get).fs.inode ip
      if i.type = T_DEVICE ∧ NDEV ≤ i.major.toNat then sysOpen.fail sb ip
      else
        match ← filealloc with
        | none => sysOpen.fail sb ip
        | some f =>
          match ← fdalloc p f with
          | none =>
            fileclose b sb f
            sysOpen.fail sb ip
          | some fd =>
            setFile f (openedFile i ip omode)
            onFs (sysOpen.finish sb ip omode)
            return (fd.val : ℤ)) (fun _ => True) Q s := by
  have hback {k : Kernel} (hfs : k.fs = s.fs) (hwhy : (s.fs.inode ip).type ≠ T_DEVICE →
    ¬Spare s p) : wp (sysOpen.fail sb ip) (fun _ => True) Q k := by
    rw [← hfs] at h hn
    simp only [sysOpen.fail, wp_bind, wp_onFs, wp_pure, endOp, wp_modify]
    exact wp_mono_stop (h.wp_iunlockput_linked hL hc hn hlink fun fs' h' hb' _ =>
      hfail _ (h'.congr rfl rfl) (hb'.trans (by rw [hfs])) hwhy) fun _ _ => trivial
  simp only [wp_bind, wp_get]
  rw [wp_ite]
  refine ⟨fun hdev => hback rfl fun hnot => absurd hdev.1 hnot, fun _ => ?_⟩
  rw [wp_bind]
  refine wp_filealloc (fun hfull => hback rfl fun _ hroom => ?_) fun f hf => ?_
  · obtain ⟨⟨f, hf⟩, -⟩ := hroom
    exact hfull f hf
  rw [wp_bind]
  refine wp_fdalloc (fun hfull => ?_) fun fd hfd => ?_
  · rw [wp_bind]
    refine wp_fileclose_fresh (by simp) (by simpa using hidle f hf) (hback rfl fun _ hroom => ?_)
    obtain ⟨-, fd, hfd⟩ := hroom
    exact hfull fd hfd
  · rw [wp_bind, wp_setFile]
    exact wp_openFinish_fd fun r s' hr => hdone r s' hr ⟨⟨f, hf⟩, fd, hfd⟩

/-- **An `open` that fails leaves the disk as it is**, if and only if a struct file and a descriptor
are free wherever it has to make a file. -/
theorem failed_open_changes_nothing {r : ℤ} (hk : KInv b (Inv sb) K P s) (hl : (s.proc p).Live)
    (hheld : Held (diskTable sb s.fs.blocks) (irefs s.file s.proc) s.fs)
    (hrun : (sysOpen b sb p path omode).run s = .ok (r, s')) :
    (r = -1 → s'.fs.blocks = s.fs.blocks) ↔ (Creates sb s p path omode → Spare s p) := by
  obtain ⟨root, tf, cwd, hr, -, hcwd⟩ := hk.live hl
  obtain ⟨T, hinv, hfile⟩ := hk.fs
  have hsame {r' : ℤ} {k : Kernel} (hb : k.fs.blocks = s.fs.blocks)
      (hnot : ¬Creates sb s p path omode) :
      (r' = -1 → k.fs.blocks = s.fs.blocks) ↔ (Creates sb s p path omode → Spare s p) :=
    iff_of_true (fun _ => hb) fun hc => absurd hc hnot
  rw [diskTable_of_disk hinv.disk] at hheld
  have hwp : wp (sysOpen b sb p path omode) (fun _ => True) (fun r s' =>
      (r = -1 → s'.fs.blocks = s.fs.blocks) ↔ (Creates sb s p path omode → Spare s p)) s := by
    simp only [sysOpen, argstr, wp_bind, wp_get, wp_deref hr, wp_pure]
    cases hstr : s.mem.copyinstr root path MAXPATH with
    | none =>
      refine wp_pure.2 (hsame rfl ?_)
      rintro ⟨-, root', str, cwd', hr', hstr', -⟩
      rw [hr] at hr'
      cases hr'
      rw [hstr] at hstr'
      cases hstr'
    | some str =>
      have hmakes : Creates sb s p path omode ↔ _ := creates_iff hr hcwd hstr
      simp only [wp_bind, wp_get, wp_deref hcwd, wp_onFs]
      refine wp_mono_stop (hinv.wp_openInode hfile hheld (irefs_pos_of_cwd hcwd)
        (zero_notMem_copyinstr hstr) hmakes (fun fs₁ hb₁ hnot => wp_pure.2 (hsame hb₁ hnot))
        (fun ip n fs₁ hL h₁ hb₁ hn hlink hnot => ?_)
        fun ip n T₁ fs₁ hL h₁ hn hfree hT₁ hmake => ?_) fun _ _ => trivial
      · refine h₁.wp_openRest (s := { s with fs := fs₁ }) hL hinv.covers hn hlink hk.file.idle
          (fun r s' hr _ => ?_) fun s' _ hb' _ => hsame (hb'.trans hb₁) hnot
        exact iff_of_true (fun heq => absurd heq hr) fun hc => absurd hc hnot
      · refine h₁.wp_openRest (s := { s with fs := fs₁ }) hL hinv.covers hn ?_ hk.file.idle
          (fun r s' hr hroom => ?_) fun s' h' hb' hwhy => ?_
        · intro _ _
          rw [hT₁]
          decide
        · exact iff_of_true (fun heq => absurd heq hr) fun _ => hroom
        · refine iff_of_false (fun hback => ?_) fun hroom => ?_
          · -- the new inode was free before
            have hnew := h'.disk.disk n (Set.notMem_empty n)
            rw [hback rfl, hinv.disk.disk n (Set.notMem_empty n)] at hnew
            rw [hnew, hT₁] at hfree
            exact absurd hfree (by decide)
          · have hlive := h₁.live (Finset.mem_insert_self ..) hn
            refine hwhy ?_ (hroom hmake)
            show (fs₁.inode ip).type ≠ T_DEVICE
            rw [h₁.cache.eq_table hlive, hT₁]
            decide
  exact (wp_of_run_ok hrun).1 hwp

/-- Init opens `f`, and has the name of another file in its memory. -/
def nameRun : List (Pp × Call) := (firstProc, .store 2050 [103, 0]) :: openRun

def fullRun : List (Pp × Call) := nameRun ++ List.replicate 15 (firstProc, .dup 0)

theorem held_of_nlink {T : Table sb} {R : Ip → ℕ} {s : Fs}
    (h : ∀ i, (T i).type ≠ 0 → (T i).nlink ≠ 0) : Held T R s :=
  fun i _ ht hz => absurd hz (h i ht)

theorem failed_open_changes_nothing_g : ∃ (P : Finset ℕ) (s s' : Kernel),
    KInv tinyBoard (Inv mkfsSb) 0 P s ∧ (s.proc 0).Live ∧
    Held (diskTable mkfsSb s.fs.blocks) (irefs s.file s.proc) s.fs ∧
    (sysOpen tinyBoard mkfsSb 0 2050 O_RDWR).run s = .ok (-1, s') ∧
    s'.fs.blocks = s.fs.blocks := by
  obtain ⟨s₀, s, hboot, hreach, hlive, hlinks, hopen⟩ :=
    exists_after_boot mkfsImage nameRun (fun s =>
    (s.proc 0).Live ∧ (∀ i : Fin mkfsSb.ninodes, (diskTable mkfsSb s.fs.blocks i).type ≠ 0 →
      (diskTable mkfsSb s.fs.blocks i).nlink ≠ 0) ∧
      wp (sysOpen tinyBoard mkfsSb 0 2050 O_RDWR) (fun _ => False) (fun r _ => r = -1) s)
    (by decide +kernel)
  obtain ⟨P, hk⟩ :=
    KInv.reach inv_rules mkfsImage_consistent.inv tinyMem_owns (by decide) hboot hreach
  obtain ⟨r, s', hopen, rfl⟩ := exists_run_of_wp hopen
  have hheld : Held (diskTable mkfsSb s.fs.blocks) (irefs s.file s.proc) s.fs :=
    held_of_nlink hlinks
  have hsame := failed_open_changes_nothing hk hlive hheld hopen
  exact ⟨P, s, s', hk, hlive, hheld, hopen,
    hsame.2 (fun hcreate => absurd hcreate.1 (by decide)) rfl⟩

/-- **An `open` that fails leaves a new file behind.**  Init has all its descriptors in use, and
asks for `g` with `O_CREATE`: the call returns -1, and the file is there. -/
theorem failed_open_creates_file : ∃ s₀ s s' : Kernel, Boots tinyBoard mkfsSb mkfsImage tinyMem s₀ ∧
    Reach (Kernel.step tinyBoard mkfsSb) Kernel.Calls s₀ s ∧ (s.proc 0).Live ∧
    (sysOpen tinyBoard mkfsSb 0 2050 (O_CREATE ||| O_RDWR)).run s = .ok (-1, s') ∧
    resolve mkfsSb s.fs.blocks ROOTINO [[103]] = none ∧ resolve mkfsSb s'.fs.blocks ROOTINO
    [[103]] = some 3 ∧ (dinodeAt mkfsSb s.fs.blocks 3).type = 0 ∧
    (dinodeAt mkfsSb s'.fs.blocks 3).type = T_FILE := by
  obtain ⟨s₀, s, hboot, hreach, hlive, hbefore, hfree, hopen⟩ :=
    exists_after_boot mkfsImage fullRun (fun s =>
    (s.proc 0).Live ∧ resolve mkfsSb s.fs.blocks ROOTINO [[103]] = none ∧
      (dinodeAt mkfsSb s.fs.blocks 3).type = 0 ∧
      wp (sysOpen tinyBoard mkfsSb 0 2050 (O_CREATE ||| O_RDWR)) (fun _ => False)
        (fun r s' => r = -1 ∧ resolve mkfsSb s'.fs.blocks ROOTINO [[103]] = some 3 ∧
        (dinodeAt mkfsSb s'.fs.blocks 3).type = T_FILE) s)
    (by decide +kernel)
  obtain ⟨r, s', hopen, rfl, hafter, htype⟩ := exists_run_of_wp hopen
  exact ⟨s₀, s, s', hboot, hreach, hlive, hopen, hbefore, hafter, hfree, htype⟩

end Xv6
