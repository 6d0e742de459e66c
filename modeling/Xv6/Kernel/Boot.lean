/-
# The first process

At boot the tables of the kernel are zero, the allocator has its pages but for those that the kernel
keeps, and nothing of the disk is cached.  `uvminit` ignores what `mappages` returns, so the first
page would be lost if there was no memory for its page table.
-/

import Xv6.Kernel.Load

namespace Xv6

open Lib Function

variable {b : Board} {sb : Superblock} {J J' : FsPred} {K H : Multiset ℕ} {s : Kernel}
  {E : Halt → Prop} {root tf : ℕ} {np : Pp} {blocks : Disk} {mem : Mem}

def Fs.boot (blocks : Disk) : Fs where
  blocks := blocks
  inode _ := { Dinode.fresh 0 with dev := 0, inum := 0, ref := 0, locked := false, valid := false }
  outstanding := 0
  lh := []

def Kernel.start (blocks : Disk) (mem : Mem) : Kernel where
  fs := Fs.boot blocks
  mem := mem
  pipe _ := ⟨fun _ => 0, 0, 0, false, false⟩
  file _ := ⟨.none, 0, false, false, 0, firstIp, 0, 0⟩
  proc _ :=
    { sz := 0
      pagetable := none
      trapframe := none
      state := .unused
      parent := none
      killed := false
      xstate := 0
      pid := 0
      ofile := fun _ => none
      cwd := none }
  nextpid := 1
  initproc := none

def Boots (b : Board) (sb : Superblock) (blocks : Disk) (mem : Mem) (s : Kernel) : Prop :=
  (userinit b sb).run (Kernel.start blocks mem) = .ok (⟨⟩, s)

theorem owners_none [Fintype ι] [DecidableEq α] : owners (fun _ : ι => (none : Option α)) = 0 := by
  funext a
  simp [owners]

theorem KInv.start (hJ : J 0 ∅ ∅ (Fs.boot blocks)) (hm : Owns b.pages mem K) :
    KInv b J K ∅ (Kernel.start blocks mem) := by
  have hinodes : inodeRefs (Kernel.start blocks mem).file = fun _ => none := rfl
  have hcwds : cwds (Kernel.start blocks mem).proc = fun _ => none := rfl
  have hslots : slots (Kernel.start blocks mem).proc = fun _ => none := rfl
  have hends : pipeEnds (Kernel.start blocks mem).file = fun _ => none := rfl
  refine ⟨⟨?_, ?_, ?_, ?_⟩, fun p => ?_⟩
  · have hrefs : irefs (Kernel.start blocks mem).file (Kernel.start blocks mem).proc = 0 := by
      rw [irefs, hinodes, hcwds, owners_none, owners_none, add_zero]
    have hpins : pins (Kernel.start blocks mem).file = ∅ := by
      simp [pins, File.pin, Kernel.start]
    rw [hrefs, hpins]
    exact hJ
  · rw [hslots]
    refine ⟨fun f => ?_, fun _ _ => rfl, fun _ _ => .inr rfl, fun f hf => (by cases hf)⟩
    rw [owners_none]
    rfl
  · rw [hends]
    refine ⟨fun e => ?_, fun pi => ?_⟩
    · have hclosed : ¬((Kernel.start blocks mem).pipe e.1).isOpen e.2 = true := by
        simp [Kernel.start, Pipe.isOpen]
      rw [owners_none, if_neg hclosed]
      rfl
    · simp [Kernel.start]
  · refine ⟨?_, fun p => Image.ok_none⟩
    have hsum : ∑ p, (images (Kernel.start blocks mem).proc p).pages
        (Kernel.start blocks mem).mem = 0 :=
      Finset.sum_eq_zero fun p _ => rfl
    rw [hsum, zero_add, Finset.empty_val, zero_add]
    exact hm
  · exact ⟨fun _ => rfl, fun hn => absurd rfl hn, fun _ => ⟨fun _ => rfl, rfl⟩,
      fun hn => absurd rfl hn⟩

/-- **`uvminit`** gives a prepared process its first page. -/
theorem MemInv.wp_uvminit (hm : MemInv b s.mem img H)
    (hnp : img np = ⟨0, some root, some tf⟩) (hlen : 3 ≤ s.mem.freelist.length)
    (hQ : ∀ m, MemInv b m (Function.update img np ⟨PGSIZE, some root, some tf⟩) H →
      Q ⟨⟩ { s with mem := m }) :
    wp (uvminit root initcode) E Q s := by
  have hsize : ¬PGSIZE ≤ initcode.length := by decide
  simp only [uvminit, wp_bind, wp_ite, wp_throw, wp_onMem]
  refine ⟨fun h => absurd h hsize, fun _ => ?_⟩
  refine hm.wp_kalloc (fun hnone => ?_) fun x m₁ hm₁ _ hlen₁ => ?_
  · rw [hnone] at hlen
    exact absurd hlen (by decide)
  have hsp := hm₁.space (p := np) (by rw [hnp]) (by rw [hnp])
  rw [hnp] at hsp
  simp only [npages_zero] at hsp
  have hhand : tf ::ₘ (others m₁ img np + x ::ₘ H) = x ::ₘ (tf ::ₘ (others m₁ img np + H)) := by
    rw [Multiset.add_cons, Multiset.cons_swap]
  rw [hhand] at hsp
  obtain ⟨hsp₂, hs₂⟩ := hsp.setPage b.managed (memset 0)
  simp only [wp_deref_some, Xv6.setPage, wp_modify]
  have hperm : (PTE_W ||| PTE_R ||| PTE_X ||| PTE_U) < 1024 := by decide
  have hfirst : mappages root 0 PGSIZE x (PTE_W ||| PTE_R ||| PTE_X ||| PTE_U) =
      mappages root (0 * PGSIZE) PGSIZE x (PTE_W ||| PTE_R ||| PTE_X ||| PTE_U) := by
        rw [Nat.zero_mul]
  rw [hfirst]
  refine hsp₂.wp_mappages b.managed hperm (by decide) (fun m₃ _ _ _ hless => ?_)
    fun m₃ h₃ hs₃ _ hentry _ => ?_
  · have hfree : (m₁.setPage x (memset 0)).freelist = m₁.freelist := rfl
    rw [hfree] at hless
    omega
  -- the page is now the first of the space
  have hx : x < 2 ^ 20 := by
    refine (b.managed.manages x (hsp.own.mem ?_)).lt
    exact Multiset.mem_add.2 (.inr (Multiset.mem_cons_self ..))
  have hframe : x ∈ frames (m₃.entry root 2) 0 (0 + 1) := by
    rw [frames_last _ (Nat.zero_le 0), hentry, ptePage_mkPte (hx.trans (by decide)) hperm]
    exact Multiset.mem_cons_self ..
  have hst := h₃.setUser b.managed hframe ((m₃.page x).splice 0 initcode)
  have hone : npages PGSIZE = 0 + 1 := by decide
  have hput := hst.1
  rw [← hone] at hput
  refine hQ _ (hm₁.putSpace np ?_ hput)
  have hle : others m₁ img np ≤ tf ::ₘ (others m₁ img np + H) :=
    le_self_add.trans (Multiset.le_cons_self _ _)
  exact ((hs₂.mono (hle.trans le_add_self)).trans (hs₃.mono hle)).trans
    (hst.2.mono (hle.trans le_add_self))

/-- **`userinit`**, where it returns, makes a first process with exact counts. -/
theorem wp_userinit (hF : FsRules sb E J J') (hk : KInv b J K ∅ s)
    (hlen : 9 ≤ s.mem.freelist.length) :
    wp (userinit b sb) (fun _ => True) (fun _ s' => KInv b J K ∅ s') s := by
  simp only [userinit, wp_bind]
  refine wp_allocproc hk (fun s' _ _ => ?_) fun np s₁ root tf hprep => ?_
  · simp only [wp_modify]
    exact (wp_throw _).2 trivial
  obtain ⟨hu, ⟨m, k, pid, rfl⟩, hm, -, hleft⟩ := hprep
  have hidle := (hk.proc np).idle (.inl hu)
  have hleft : 3 ≤ m.freelist.length := by
    have : s.mem.freelist.length ≤ m.freelist.length + 6 := hleft
    omega
  simp only [wp_modify, wp_deref_some, wp_get, update_self]
  refine MemInv.wp_uvminit hm (update_self ..) hleft fun m₁ hm₁ => ?_
  simp only [update_idem] at hm₁
  simp only [wp_setProc, update_self, update_idem, wp_deref_some, wp_onMem]
  refine hm₁.wp_setReg (p := np) (by simp) fun m₂ hm₂ _ => hm₂.wp_setReg (p := np) (by simp)
    fun m₃ hm₃ _ => ?_
  set s₃ : Kernel := { s with
    mem := m₃, nextpid := k, initproc := some np
    proc := update s.proc np { s.proc np with
      pid := pid, sz := PGSIZE, pagetable := some root, trapframe := some tf } } with hs₃
  have he₃ : Exactly b J ∅ (slots s₃.proc) 0 K s₃ := by
    have hslots : slots s₃.proc = slots s.proc := slots_congr rfl
    rw [hslots]
    have hset : Exactly b J ∅ (slots s.proc) 0 K { s with mem := m₃, proc := s₃.proc } :=
      hk.toExactly.setProc np _ rfl hm₃
    exact ⟨hset.fs, hset.file, hset.pipe, hset.mem⟩
  rw [wp_onFs]
  refine wp_mono (wp_mono_stop (hF.root he₃.fs) fun _ _ => trivial) fun r fs₄ h₄ => ?_
  obtain ⟨ip, rfl, h₄⟩ := h₄
  have hstart : KInv b J K ∅ { s₃ with
      fs := fs₄
      proc := update s₃.proc np { s₃.proc np with cwd := some ip, state := .runnable } } := by
    refine he₃.start (fun q hq => ?_) ?_ ?_ ⟨by simp, by simp⟩ h₄
    · simp only [hs₃, update_of_ne hq]
      exact hk.proc q
    · simp [hs₃]
    · simp only [hs₃, update_self]
      exact hidle.2
  simpa [hs₃] using hstart

/-- **After boot the counts are exact.** -/
theorem KInv.boot (hF : FsRules sb E J J') (hJ : J 0 ∅ ∅ (Fs.boot blocks)) (hm : Owns b.pages mem K)
    (hlen : 9 ≤ mem.freelist.length) (h : Boots b sb blocks mem s) : KInv b J K ∅ s :=
  (wp_of_run_ok h).1 (wp_userinit hF (KInv.start hJ hm) hlen)

end Xv6
