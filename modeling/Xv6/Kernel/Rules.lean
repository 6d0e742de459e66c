/-
# What the rest of the kernel needs of the file system

The calls of `kernel/sysfile.c` and `kernel/proc.c` are verified from what `FsRules sb E J J'` says
of the file system alone: `J` holds between calls and wherever a call has taken a reference or a
lock; `J'` holds after a call that changed names.  A call may stop for the reasons in `E`.
-/

import Xv6.Fs.Calls
import Xv6.Kernel.Inv

namespace Xv6

open Lib

variable {Q : Option Ip → Fs → Prop} {omode : UInt32}

/-- `sys_open` after it found the inode `ip` and locked it: it can give up, or go on to the end
with a file that pins the inode only if it is not a directory. -/
structure Opened (sb : Superblock) (E : Halt → Prop) (J' : FsPred) (R : Ip → ℕ) (W : Finset Ip)
    (ip : Ip) (omode : UInt32) (s : Fs) : Prop where
  fail : wp (iunlockput sb ip >>= fun _ => endOp) E (fun _ s' => J' R ∅ W s') s
  finish : ∀ W', W' = W ∨ W' = insert ip W ∧ omode ≠ O_RDONLY →
    wp (sysOpen.finish sb ip omode) E (fun _ s' => J' (R + Pi.single ip 1) ∅ W' s') s

/-- What calls that only read rely on. -/
structure ReadRules (sb : Superblock) (E : Halt → Prop) (J J' : FsPred) : Prop where
  asleep : E .asleep
  weaken : ∀ {R L W s}, J R L W s → J' R L W s
  ilock : ∀ {R W s ip}, J R ∅ W s → 0 < R ip → wp (ilock sb ip) E (fun _ s' => J R {ip} W s') s
  iunlock : ∀ {R W s ip}, J R {ip} W s → wp (iunlock ip) E (fun _ s' => J R ∅ W s') s
  readi : ∀ {R W s ip copyout off len}, J R {ip} W s →
    wp (readi sb ip copyout off len) E (fun _ s' => J R {ip} W s') s

/-- What all calls rely on. -/
structure FsRules (sb : Superblock) (E : Halt → Prop) (J J' : FsPred) :
    Prop extends ReadRules sb E J J' where
  initExiting : E (.panic .initExiting)
  mono_pin : ∀ {R L W W' s}, J R L W s → W' ⊆ W → J R L W' s
  beginOp : ∀ {R L W s}, J R L W s → wp beginOp E (fun _ s' => J R L W s') s
  endOp : ∀ {R L W s}, J R L W s → wp endOp E (fun _ s' => J R L W s') s
  idup : ∀ {R W s ip}, J R ∅ W s → 0 < R ip →
    wp (idup ip) E (fun jp s' => jp = ip ∧ J (R + Pi.single ip 1) ∅ W s') s
  iput : ∀ {R W s ip}, J (R + Pi.single ip 1) ∅ W s → Covers R ∅ W →
    wp (iput sb ip) E (fun _ s' => J R ∅ W s') s
  writei : ∀ {R W s ip src off len}, J R {ip} W s → ip ∈ W →
    wp (writei sb ip src off len) E (fun r s' => (r = -1 ∨ r = len.toNat) ∧ J R {ip} W s') s
  openProgram : ∀ {R W s cwd path}, J R ∅ W s → 0 < R cwd → wp (exec.openProgram sb cwd path) E
      (fun r s' => r.elim (J R ∅ W s') fun ip => J (R + Pi.single ip 1) {ip} W s') s
  closeProgram : ∀ {R W s ip}, J (R + Pi.single ip 1) {ip} W s → Covers R ∅ W →
    wp (exec.closeProgram sb ip) E (fun _ s' => J R ∅ W s') s
  enter : ∀ {R W s cwd path}, J (R + Pi.single cwd 1) ∅ W s → Covers R ∅ W →
    wp (sysChdir.enter sb cwd path) E (fun r s' => J (R + Pi.single (r.getD cwd) 1) ∅ W s') s
  link : ∀ {R W s cwd old new}, J R ∅ W s → 0 < R cwd → wp (link sb cwd old new) E
    (fun _ s' => J' R ∅ W s') s
  unlink : ∀ {R W s cwd path}, J R ∅ W s → 0 < R cwd → wp (unlink sb cwd path) E
    (fun _ s' => J' R ∅ W s') s
  make : ∀ {R W s cwd type major minor path}, J R ∅ W s → 0 < R cwd → type = T_DIR ∨
    type = T_DEVICE → wp (make sb cwd type major minor path) E (fun _ s' => J' R ∅ W s') s
  openInode : ∀ {R W s cwd path omode}, J R ∅ W s → 0 < R cwd →
    wp (sysOpen.openInode sb cwd path omode) E
      (fun r s' => r.elim (J' R ∅ W s') fun ip => Opened sb E J' R W ip omode s') s
  root : ∀ {R W s cwd}, J R ∅ W s →
    wp (namei sb cwd rootPath) E (fun r s' => ∃ ip, r = some ip ∧ J (R + Pi.single ip 1) ∅ W s') s

theorem wp_namei_root {sb : Superblock} {E : Halt → Prop} {s : Fs} {cwd : Ip}
    (h : wp (iget ROOTDEV ROOTINO) E (fun ip s' => Q (some ip) s') s) :
    wp (namei sb cwd rootPath) E Q s := by
  have hhead : rootPath.head? = some slash := rfl
  simp only [namei, namex, wp_bind, wp_pure, if_pos hhead]
  refine wp_mono h fun ip s' hQ => ?_
  rw [namexFrom]
  split
  · exact wp_pure.2 hQ
  · rename_i hskip
    cases hskip

/-! ### The bookkeeping has the rules -/

variable {sb : Superblock} {R : Ip → ℕ} {W : Finset Ip} {s : Fs} {cwd ip : Ip}

theorem wp_chdirEnter (hi : Inv sb (R + Pi.single cwd 1) ∅ W s) (hc : Covers R ∅ W)
    (hnone : ∀ s', Inv sb (R + Pi.single cwd 1) ∅ W s' → Q none s')
    (hsome : ∀ ip s', Inv sb (R + Pi.single ip 1) ∅ W s' → Q (some ip) s') :
    wp (sysChdir.enter sb cwd path) Tolerated Q s := by
  simp only [sysChdir.enter, wp_bind]
  refine wp_beginOp hi fun s₁ h₁ => ?_
  cases path with
  | none =>
    simp only [wp_bind, wp_pure]
    exact wp_endOp h₁ fun s₂ h₂ => hnone s₂ h₂
  | some path =>
    simp only [wp_bind]
    refine wp_namei h₁ single_pos (fun s₂ h₂ => ?_) fun ip s₂ h₂ => ?_
    · simp only [wp_bind, wp_pure]
      exact wp_endOp h₂ fun s₃ h₃ => hnone s₃ h₃
    simp only [wp_bind]
    refine wp_ilock h₂ single_pos fun s₃ hL h₃ => ?_
    simp only [wp_get, wp_ite, wp_bind, wp_pure]
    constructor
    · intro _
      exact wp_iunlockput h₃ hL hc.add fun s₄ h₄ => wp_endOp h₄ fun s₅ h₅ => hnone s₅ h₅
    · intro _
      refine wp_iunlock h₃ hL fun s₄ h₄ => ?_
      rw [add_right_comm] at h₄
      exact wp_iput h₄ hc.add fun s₅ h₅ => wp_endOp h₅ fun s₆ h₆ => hsome ip s₆ h₆

theorem wp_openInode (hi : Inv sb R ∅ W s) (hcwd : 0 < R cwd)
    (hnone : ∀ s', Inv sb R ∅ W s' → Q none s')
    (hsome : ∀ ip s', Inv sb (R + Pi.single ip 1) (insert ip ∅) W s' →
      ((s'.inode ip).type = T_DIR → omode = O_RDONLY) → Q (some ip) s') :
    wp (sysOpen.openInode sb cwd path omode) Tolerated Q s := by
  simp only [sysOpen.openInode, wp_bind]
  refine wp_beginOp hi fun s₁ h₁ => ?_
  simp only [wp_ite, wp_bind]
  constructor
  · intro _
    refine wp_create h₁ hcwd (fun s₂ h₂ => ?_) fun ip s₂ _ h₂ => ?_
    · simp only [wp_bind, wp_pure]
      exact wp_endOp h₂ fun s₃ h₃ => hnone s₃ h₃
    · rw [pinNew, if_neg (by decide)] at h₂
      have ht := h₂.type_ne_of_pin (Finset.mem_insert_self ip W)
      exact wp_pure.2 (hsome ip s₂ (h₂.mono_pin (Finset.subset_insert ip W)) fun hd => absurd hd ht)
  · intro _
    refine wp_namei h₁ hcwd (fun s₂ h₂ => ?_) fun ip s₂ h₂ => ?_
    · simp only [wp_bind, wp_pure]
      exact wp_endOp h₂ fun s₃ h₃ => hnone s₃ h₃
    simp only [wp_bind]
    refine wp_ilock h₂ single_pos fun s₃ hL h₃ => ?_
    simp only [wp_get, wp_ite, wp_bind, wp_pure]
    constructor
    · intro _
      exact wp_iunlockput h₃ hL hi.covers fun s₄ h₄ => wp_endOp h₄ fun s₅ h₅ => hnone s₅ h₅
    · intro hn
      exact hsome ip s₃ h₃ fun hd => not_not.1 fun ho => hn ⟨hd, ho⟩

theorem wp_openFinish {Q : PUnit → Fs → Prop} (hi : Inv sb R (insert ip ∅) W s)
    (hQ : ∀ s', Inv sb R ∅ W s' → Q ⟨⟩ s') : wp (sysOpen.finish sb ip omode) Tolerated Q s := by
  have hL : ip ∉ (∅ : Finset Ip) := Finset.notMem_empty ip
  simp only [sysOpen.finish, wp_bind, wp_get, wp_ite]
  constructor
  · intro _
    exact wp_itrunc_locked hi (Finset.mem_insert_self ..) fun s₁ h₁ => wp_iunlock h₁ hL fun s₂ h₂ =>
      wp_endOp h₂ hQ
  · intro _
    exact wp_iunlock hi hL fun s₂ h₂ => wp_endOp h₂ hQ

/-- **The bookkeeping of the file system has the rules.** -/
theorem inv_rules : FsRules sb Tolerated (Inv sb) (Inv sb) where
  asleep := trivial
  initExiting := rfl
  weaken h := h
  mono_pin h hW := h.mono_pin hW
  beginOp h := wp_beginOp h fun _ h' => h'
  endOp h := wp_endOp h fun _ h' => h'
  idup h hr := wp_idup h hr fun _ h' => ⟨rfl, h'⟩
  iput h hc := wp_iput h hc fun _ h' => h'
  ilock h hr := wp_ilock h hr fun _ _ h' => h'
  iunlock h := wp_iunlock h (Finset.notMem_empty _) fun _ h' => h'
  readi h := wp_readi_locked h (Finset.mem_singleton_self _) fun _ => h
  writei h hW := wp_writei_locked h (Finset.mem_singleton_self _)
    (fun ht => absurd ht (h.type_ne_of_pin hW)) fun _ _ hr h' => ⟨hr, h'⟩
  openProgram h hcwd := by
    simp only [exec.openProgram, wp_bind]
    refine wp_beginOp h fun s₁ h₁ => wp_namei h₁ hcwd (fun s₂ h₂ => ?_) fun ip s₂ h₂ => ?_
    · simp only [wp_bind, wp_pure]
      exact wp_endOp h₂ fun s₃ h₃ => h₃
    · simp only [wp_bind, wp_pure]
      exact wp_ilock h₂ single_pos fun s₃ _ h₃ => h₃
  closeProgram h hc := by
    simp only [exec.closeProgram, wp_bind]
    exact wp_iunlockput h (Finset.notMem_empty _) hc fun s₁ h₁ => wp_endOp h₁ fun s₂ h₂ => h₂
  enter h hc := wp_chdirEnter h hc (fun _ h' => h') fun _ _ h' => h'
  link h hcwd := wp_link h hcwd fun _ _ h' => h'
  unlink h hcwd := wp_unlink h hcwd fun _ _ h' => h'
  make h hcwd _ := wp_make h hcwd fun _ _ h' => h'
  openInode h hcwd := by
    refine wp_openInode h hcwd (fun s' h' => h') fun ip s' h' hdir => ⟨?_, fun W' hW' => ?_⟩
    · simp only [wp_bind]
      exact wp_iunlockput h' (Finset.notMem_empty ip) h.covers fun s₁ h₁ =>
        wp_endOp h₁ fun s₂ h₂ => h₂
    · refine wp_openFinish ?_ fun s₁ h₁ => h₁
      rcases hW' with rfl | ⟨rfl, ho⟩
      · exact h'
      · exact h'.pin (Finset.mem_insert_self ..) fun hd => ho (hdir hd)
  root h := wp_namei_root (wp_iget h rfl sb.root_fits fun ip _ h' => ⟨ip, rfl, h'⟩)

end Xv6
