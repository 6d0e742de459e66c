/-
# One entry of the inode cache

Most routines work on a single entry of the cache, which the caller has locked.  Such a routine does
the same whatever is in the other entries (`Local`), so it can be looked at with any other cache
around the entry (`Fs.graft`), and it leaves the other entries alone (`Local.frame`).
-/

import Xv6.Fs.Dir

namespace Xv6

open Lib Function

variable {sb : Superblock} {ip : Ip} {s : Fs} {E : Halt → Prop}

/-- The state with another cache around entry `ip`. -/
def Fs.graft (s : Fs) (ip : Ip) (c : Ip → Inode) : Fs :=
  { s with inode := update c ip (s.inode ip) }

variable (s) (c : Ip → Inode)

@[simp] theorem Fs.blocks_graft : (s.graft ip c).blocks = s.blocks := rfl

@[simp] theorem Fs.inode_graft : (s.graft ip c).inode ip = s.inode ip := update_self ..

@[simp] theorem Fs.outstanding_graft : (s.graft ip c).outstanding = s.outstanding := rfl

@[simp] theorem Fs.lh_graft : (s.graft ip c).lh = s.lh := rfl

@[simp] theorem Fs.logWrite_graft (b : ℕ) (data : Block) :
    (s.graft ip c).logWrite b data = (s.logWrite b data).graft ip c := rfl

@[simp] theorem Fs.setInode_graft (f : Inode → Inode) :
    (s.graft ip c).setInode ip f = (s.setInode ip f).graft ip c := by
  simp [Fs.graft, Fs.setInode]

/-- A routine that reads and changes no other entry of the cache. -/
def Local {α : Type} (ip : Ip) (m : FsM α) : Prop :=
  ∀ (c : Ip → Inode) (s : Fs) (E : Halt → Prop) (Q : α → Fs → Prop),
    wp m E Q (s.graft ip c) ↔ wp m E (fun a s' => Q a (s'.graft ip c)) s

theorem local_logWrite (b : ℕ) (data : Block) : Local ip (logWrite sb b data) := fun c s E Q => by
  simp only [logWrite, wp_bind, wp_get, wp_ite, wp_throw, wp_set, Fs.outstanding_graft, Fs.lh_graft,
    Fs.logWrite_graft]

theorem local_ballocFrom (bs : List ℕ) : Local ip (ballocFrom sb bs) := fun c s E Q => by
  induction bs with
  | nil => simp only [ballocFrom, wp_throw]
  | cons b bs ih =>
    simp only [ballocFrom, bread, bzero, wp_bind, wp_get, wp_pure, Fs.blocks_graft]
    cases findFree sb (s.blocks (sb.BBLOCK b)) b with
    | none => exact ih
    | some bi => simp only [wp_bind, wp_pure, local_logWrite _ _ _ _ _ _]

theorem local_bmapAddr (k : Fin (NDIRECT + 1)) : Local ip (bmapAddr sb ip k) := fun c s E Q => by
  simp only [bmapAddr, balloc, setAddr, setInode, wp_bind, wp_get, wp_ite, wp_pure, wp_modify,
    Fs.inode_graft, local_ballocFrom _ _ _ _ _, Fs.setInode_graft]

theorem local_bmapEntry (ind : UInt32) (j : ℕ) : Local ip (bmapEntry sb ind j) := fun c s E Q => by
  simp only [bmapEntry, balloc, bread, wp_bind, wp_get, wp_ite, wp_pure, Fs.blocks_graft,
    local_ballocFrom _ _ _ _ _, local_logWrite _ _ _ _ _ _]

theorem local_bmap (bn : ℕ) : Local ip (bmap sb ip bn) := fun c s E Q => by
  simp only [bmap, wp_bind, wp_dite, wp_ite, wp_throw, local_bmapAddr _ _ _ _ _,
    local_bmapEntry _ _ _ _ _ _]

theorem local_writeiLoop (src : Source) (n fuel tot off : ℕ) :
    Local ip (writeiLoop sb ip src n fuel tot off) :=
    fun c s E Q => by
  induction fuel generalizing tot off s with
  | zero => simp only [writeiLoop, wp_pure]
  | succ fuel ih =>
    have hscribble (s : Fs) (b : ℕ) (data : Block) :
        { s.graft ip c with blocks := update s.blocks b data } =
          Fs.graft { s with blocks := update s.blocks b data } ip c := rfl
    simp only [writeiLoop, bread, scribble, wp_bind, wp_get, wp_ite, wp_pure, wp_modify,
      local_bmap _ _ _ _ _, Fs.blocks_graft, local_logWrite _ _ _ _ _ _, ih, hscribble]

theorem local_iupdate : Local ip (iupdate sb ip) := fun c s E Q => by
  simp only [iupdate, bread, wp_bind, wp_get, wp_pure, Fs.inode_graft, Fs.blocks_graft,
    local_logWrite _ _ _ _ _ _]

/-- **`writei`** depends on the cached inode that it is called for, and on no other. -/
theorem local_writei (src : Source) (off n : UInt32) : Local ip (writei sb ip src off n) :=
  fun c s E Q => by
  simp only [writei, setInode, wp_bind, wp_get, wp_ite, wp_pure, wp_modify, Fs.inode_graft,
    local_writeiLoop _ _ _ _ _ _ _ _ _, local_iupdate _ _ _ _, Fs.setInode_graft]

theorem local_readiLoop (copyout : ℕ → List UInt8 → Bool) (n fuel tot off : ℕ) :
    Local ip (readiLoop sb ip copyout n fuel tot off) := fun c s E Q => by
  induction fuel generalizing tot off s Q with
  | zero => simp only [readiLoop, wp_pure]
  | succ fuel ih =>
    simp only [readiLoop, bread, wp_bind, wp_get, wp_ite, wp_pure, local_bmap _ _ _ _ _,
      Fs.blocks_graft, ih]

theorem local_readDirent (off : ℕ) (p : Panic) : Local ip (readDirent sb ip off p) :=
  fun c s E Q => by
  simp only [readDirent, readi, wp_bind, wp_get, wp_ite, wp_pure, wp_throw, Fs.inode_graft,
    local_readiLoop _ _ _ _ _ _ _ _ _]

theorem Fs.graft_graft (c : Ip → Inode) : (s.graft ip c).graft ip s.inode = s := by
  simp [Fs.graft]

/-- What such a routine does with one cache around the entry it does with any other. -/
theorem Local.of_graft (hm : Local ip m)
    (h : wp m E (fun a s' => Q a (s'.graft ip s.inode)) (s.graft ip c)) : wp m E Q s := by
  have := (hm s.inode (s.graft ip c) E Q).2 h
  rwa [Fs.graft_graft] at this

theorem Local.frame (hm : Local ip m)
    (h : wp m E (fun a s' => (∀ jp, jp ≠ ip → s'.inode jp = s.inode jp) → Q a s') s) :
    wp m E Q s := by
  have hframe : wp m (fun _ => True) (fun _ s' => ∀ jp, jp ≠ ip → s'.inode jp = s.inode jp) s :=
    hm.of_graft s s.inode (wp_of_forall fun _ _ _ hj => update_of_ne hj ..)
  exact wp_mono_stop (wp_mono (wp_and h hframe) fun a s' hboth => hboth.1 hboth.2) fun e he => he.1

/-! ### The numbers of the cached inodes -/

section

variable {R : Ip → ℕ}

/-- Referenced entries of the cache stay entries of the same inodes. -/
def SameNums (R : Ip → ℕ) (s s' : Fs) : Prop :=
  ∀ jp, 0 < R jp → (s'.inode jp).inum = (s.inode jp).inum

variable {s s' s'' : Fs}

theorem SameNums.refl : SameNums R s s := fun _ _ => rfl

theorem SameNums.trans (h : SameNums R s s') (h' : SameNums R s' s'') : SameNums R s s'' :=
  fun jp hr => (h' jp hr).trans (h jp hr)

theorem SameNums.mono (h : SameNums R' s s') (hR : ∀ jp, 0 < R jp → 0 < R' jp) :
    SameNums R s s' := fun jp hr => h jp (hR jp hr)

theorem SameNums.setInode (h : 0 < R ip → (f (s.inode ip)).inum = (s.inode ip).inum) :
    SameNums R s (s.setInode ip f) := by
  intro jp hr
  by_cases hj : jp = ip
  · rw [hj, Fs.inode_setInode_self, h (hj ▸ hr)]
  · show (update s.inode ip (f (s.inode ip)) jp).inum = _
    rw [update_of_ne hj]

end

end Xv6
