/-
# `fork` copies, and the copies are apart

`fork` may run out of memory at a slot, a trapframe, a page table and each page (`GaveUp`).
Otherwise the child has the parent's memory, registers but for `a0`, and files (`Forked`).  From
then on the two share no page of user memory, because every page has one owner.
-/

import Xv6.Kernel.Disk

namespace Xv6

open Lib

variable {b : Board} {sb : Superblock} {J : FsPred} {K : Multiset ℕ} {P : Finset ℕ} {s : Kernel}
  {p q : Pp} {root : ℕ}

/-- What `q` writes to its memory does not change `p` or its memory. -/
def Isolated (s : Kernel) (q p : Pp) : Prop :=
  ∀ va bytes r s', (copyoutProc q va bytes).run s = .ok (r, s') → s'.proc p = s.proc p ∧
    ∀ root, (s.proc p).pagetable = some root → SameUser root (npages (s.proc p).sz) s.mem s'.mem

/-- **Two processes share no page.** -/
theorem MemInv.pages_disjoint (hm : MemInv b m img H) (hne : q ≠ p) :
    Disjoint ((img q).pages m) ((img p).pages m) := by
  have hnd := hm.own.nodup b.managed
  rw [← pages_add_others m img p, add_assoc] at hnd
  have hdis := (Multiset.nodup_add.1 hnd).2.2
  exact (hdis.mono_right ((image_le_others hne).trans le_self_add)).symm

theorem frames_le_pages {m : Mem} {i : Image} (hr : i.pagetable = some root) :
    frames (m.entry root 2) 0 (npages i.sz) ≤ i.pages m :=
  le_add_self.trans (Image.space_le hr)

/-- **A process writes to its own pages only.** -/
theorem KInv.isolated (hk : KInv b J K P s) (hne : q ≠ p) : Isolated s q p := by
  intro va bytes r s' hrun
  cases hq : (s.proc q).pagetable with
  | none =>
    have hstop : wp (copyoutProc q va bytes) (fun _ => True) (fun _ _ => False) s := by
      simp only [copyoutProc, wp_bind, wp_get, hq, deref, wp_throw]
    exact ((wp_of_run_ok hrun).1 hstop).elim
  | some rootq =>
    obtain ⟨tf, ht, -⟩ := hk.mem.ok q rootq hq
    have hwp : wp (copyoutProc q va bytes) (fun _ => True) (fun _ s' => s'.proc p = s.proc p ∧
        ∀ root, (s.proc p).pagetable = some root →
        SameUser root (npages (s.proc p).sz) s.mem s'.mem) s := by
      simp only [copyoutProc, wp_bind, wp_get, wp_deref hq, wp_onMem]
      refine (hk.mem.space hq ht).wp_copyout b.managed fun r m₁ hst =>
        ⟨trivial, fun root hr => .of_pages ?_⟩
      have hothers :
          others s.mem (images s.proc) q ≤ tf ::ₘ (others s.mem (images s.proc) q + (P.val + K)) :=
        le_self_add.trans (Multiset.le_cons_self _ _)
      refine hst.2.mono
        (((Image.space_le (i := images s.proc p) hr).trans (image_le_others hne.symm)).trans ?_)
      exact hothers.trans le_add_self
    exact (wp_of_run_ok hrun).1 hwp

/-- What a successful `fork` gives, now and in all that follows. -/
structure Separate (b : Board) (sb : Superblock) (p np : Pp) (s : Kernel) : Prop where
  frames : ∀ old new, (s.proc p).pagetable = some old → (s.proc np).pagetable = some new →
    Disjoint (frames (s.mem.entry old 2) 0 (npages (s.proc p).sz))
      (frames (s.mem.entry new 2) 0 (npages (s.proc np).sz))
  later : ∀ t, Reach (Kernel.step b sb) Kernel.Calls s t → Isolated t p np ∧ Isolated t np p

theorem KInv.separate (hk : KInv b (Inv sb) K P s) {np : Pp} (hne : p ≠ np) :
    Separate b sb p np s where
  frames old new hold hnew :=
    (hk.mem.pages_disjoint hne).mono (frames_le_pages (i := images s.proc p) hold)
      (frames_le_pages (i := images s.proc np) hnew)
  later t ht := by
    obtain ⟨P', hk'⟩ := ht.invariant (I := fun s => ∃ P, KInv b (Inv sb) K P s) ⟨P, hk⟩
      fun s a s' hI hl hs => by
      obtain ⟨P₁, hk₁⟩ := hI
      obtain ⟨P₂, hk₂, -⟩ := hk₁.step inv_rules hl hs
      exact ⟨P₂, hk₂⟩
    exact ⟨hk'.isolated hne, hk'.isolated hne.symm⟩

/-- Init opens `f` and has a second descriptor for it. -/
def twiceRun : List (Pp × Call) := openRun ++ [(firstProc, .dup 0)]

end Xv6
