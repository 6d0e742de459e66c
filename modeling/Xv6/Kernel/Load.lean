/-
# `exec` keeps the counts exact

`exec` builds a second address space beside the one that the process has, with the inode of the
program locked, and then throws one of the two away.  While it builds, the pages of the new space
are in its hands (`Building`); every error exit gives them back.
-/

import Xv6.Kernel.Procs

namespace Xv6

open Lib Function

variable {b : Board} {sb : Superblock} {J J' : FsPred} {K H : Multiset ℕ} {P : Finset ℕ}
  {s : Kernel} {p : Pp} {E : Halt → Prop} {m m₀ : Mem} {F : Multiset ℕ} {root tf npg : ℕ}
  {R : Ip → ℕ} {W : Finset Ip} {ip : Ip} {m₁ : Mem} {Q : Option ℕ → Kernel → Prop}
  {entry new offset old sp stackbase sz uargv va : ℕ} {argv : List ℕ} {img : Pp → Image}

/-- A new address space at `root`, in hand; the pages `F` of all others are as in `m₀`. -/
structure Building (b : Board) (m₀ : Mem) (F : Multiset ℕ) (root tf npg : ℕ) (m : Mem) : Prop where
  space : Space b b.pages m root tf npg F
  same : Same F m₀ m

theorem Building.stored (hb : Building b m₀ F root tf npg m)
    (hst : Stored b b.pages root tf npg F m m₁) : Building b m₀ F root tf npg m₁ :=
  ⟨hst.1, hb.same.trans (hst.2.mono le_add_self)⟩

theorem Building.step (hb : Building b m₀ F root tf npg m)
    (h : Space b b.pages m₁ root tf npg' F) (hs : Same F m m₁) : Building b m₀ F root tf npg' m₁ :=
  ⟨h, hb.same.trans hs⟩

/-! ### Loading the segments -/

section

-- The address space covers the segment, so that `loadseg` finds every page.
variable {i : ℕ} (hF : FsRules sb E J J') {Q : Bool → Kernel → Prop} (hfs : J R {ip} W s.fs)
  (hb : Building b m₀ F root tf npg s.mem) (hu : AllUser s.mem root npg) (hva : va % PGSIZE = 0)
  (hsz : va + sz ≤ npg * PGSIZE)
  (hQ : ∀ ok fs m, J R {ip} W fs → Building b m₀ F root tf npg m → AllUser m root npg →
    Q ok { s with fs := fs, mem := m })

include hF hfs hb hu hva hsz hQ

theorem wp_loadsegFrom (n : ℕ) (hi : i % PGSIZE = 0) (hn : n * PGSIZE + i < sz + PGSIZE) :
    wp (loadsegFrom sb root va ip offset sz n i) E Q s := by
  induction n generalizing i s with
  | zero => exact wp_pure.2 (hQ true s.fs s.mem hfs hb hu)
  | succ n ih =>
    have hv : (va + i) / PGSIZE < npg := by
      simp only [PGSIZE] at hva hi hsz hn ⊢
      omega
    obtain ⟨pa, hpa⟩ := hb.space.exists_walkaddr b.managed hu hv
    simp only [loadsegFrom, wp_bind, wp_get, hpa, wp_onFs, wp_onMem, wp_modify, wp_ite, wp_pure]
    refine wp_mono (hF.readi hfs) fun data fs₁ h₁ => ?_
    have hst := hb.space.setUser b.managed (hb.space.is.walkaddr_mem hpa)
      ((s.mem.page pa).splice 0 data)
    have hb₁ := hb.stored hst
    have hu₁ := hu.congr (hst.2.mono le_self_add)
    refine ⟨fun _ => ?_, fun _ => hQ false _ _ h₁ hb₁ hu₁⟩
    have hi' : (i + PGSIZE) % PGSIZE = 0 := by
      simp only [PGSIZE] at hi ⊢
      omega
    have hn' : n * PGSIZE + (i + PGSIZE) < sz + PGSIZE := by
      rwa [Nat.succ_mul, Nat.add_right_comm, Nat.add_assoc] at hn
    exact ih h₁ hb₁ hu₁ hQ hi' hn'

theorem wp_loadseg : wp (loadseg sb root va ip offset sz) E Q s := by
  simp only [loadseg, wp_ite, wp_throw]
  refine ⟨fun hn => absurd hva hn, fun _ => ?_⟩
  refine wp_loadsegFrom hF hfs hb hu hva hsz hQ _ rfl ?_
  simp only [PGSIZE]
  omega

end

theorem le_npages_mul (sz : ℕ) : sz ≤ npages sz * PGSIZE := by
  simp only [npages, PGSIZE]
  omega

theorem headerField_lt (l : List UInt8) (o w : ℕ) : headerField l o w < 256 ^ w :=
  (ofLE_lt _).trans_le (Nat.pow_le_pow_right (by decide) (by simp))

/-- The checks of `exec` on a segment: its end does not wrap around, and it holds the
bytes of the file. -/
theorem segment_le {ph : Proghdr} (hv : ph.vaddr < 2 ^ 64) (hm : ph.memsz < 2 ^ 64)
    (hfile : ¬ph.memsz < ph.filesz) (hwrap : ¬(ph.vaddr + ph.memsz) % 2 ^ 64 < ph.vaddr) :
    ph.vaddr + ph.filesz ≤ (ph.vaddr + ph.memsz) % 2 ^ 64 := by
  omega

theorem wp_loadSegments (hF : FsRules sb E J J') {Q : ℕ × Bool → Kernel → Prop} (n off sz : ℕ)
    (hfs : J R {ip} W s.fs) (hb : Building b m₀ F root tf (npages sz) s.mem)
    (hu : AllUser s.mem root (npages sz))
    (hQ : ∀ sz ok fs m, J R {ip} W fs → Building b m₀ F root tf (npages sz) m →
      Q (sz, ok) { s with fs := fs, mem := m }) :
    wp (loadSegments b sb root ip n off sz) E Q s := by
  induction n generalizing off sz s with
  | zero => exact wp_pure.2 (hQ sz true s.fs s.mem hfs hb)
  | succ n ih =>
    simp only [loadSegments, wp_bind, wp_onFs, wp_ite, wp_pure, wp_onMem]
    refine wp_mono (hF.readi hfs) fun data fs₁ h₁ => ?_
    have hstop := hQ sz false fs₁ s.mem h₁ hb
    refine ⟨fun _ => hstop, fun _ => ⟨fun _ => ih _ _ h₁ hb hu fun sz ok fs m => hQ sz ok fs m,
      fun _ => ⟨fun _ => hstop, fun hmem => ⟨fun _ => hstop, fun hwrap => ?_⟩⟩⟩⟩
    -- one segment: `sz₁` is the size after `uvmalloc`, and it covers the segment
    have hseg : ∀ sz₁ m₁, Building b m₀ F root tf (npages sz₁) m₁ → AllUser m₁ root (npages sz₁) →
        (Proghdr.parse data).vaddr + (Proghdr.parse data).filesz ≤ sz₁ →
        ((Proghdr.parse data).vaddr % PGSIZE ≠ 0 → Q (sz₁, false) { s with fs := fs₁, mem := m₁ }) ∧
        (¬(Proghdr.parse data).vaddr % PGSIZE ≠ 0 →
          wp (loadseg sb root (Proghdr.parse data).vaddr ip ((Proghdr.parse data).off % 2 ^ 32)
            ((Proghdr.parse data).filesz % 2 ^ 32)) E (fun a s' =>
              (a = true → wp (loadSegments b sb root ip n (off + PROGHDRSIZE) sz₁) E Q s') ∧
              (¬a = true → Q (sz₁, false) s')) { s with fs := fs₁, mem := m₁ }) := by
      intro sz₁ m₁ hb₁ hu₁ hle
      refine ⟨fun _ => hQ sz₁ false fs₁ m₁ h₁ hb₁, fun hal => ?_⟩
      have hfile : (Proghdr.parse data).filesz % 2 ^ 32 ≤ (Proghdr.parse data).filesz :=
        Nat.mod_le ..
      refine wp_loadseg hF h₁ hb₁ hu₁ (not_not.1 hal) ?_ fun ok fs₂ m₂ h₂ hb₂ hu₂ => ?_
      · exact ((Nat.add_le_add_left hfile _).trans hle).trans (le_npages_mul sz₁)
      · exact ⟨fun _ => ih _ sz₁ h₂ hb₂ hu₂ hQ, fun _ => hQ sz₁ false fs₂ m₂ h₂ hb₂⟩
    have hle := segment_le (headerField_lt data 16 8) (headerField_lt data 40 8) hmem hwrap
    refine wp_uvmalloc b.managed hb.space (fun hless => ⟨fun _ => hstop, fun _ => ?_⟩)
      (fun m₁ hge hsp hs₁ hus hnew => ⟨fun h₀ => ?_, fun _ => ?_⟩) fun m₁ _ hsp hs₁ _ =>
        ⟨fun _ => ?_, fun h₀ => ?_⟩
    · exact hseg sz s.mem hb hu (hle.trans hless.le)
    · rw [h₀] at hge hsp
      rw [← Nat.le_zero.1 hge] at hsp
      exact hQ sz false fs₁ m₁ h₁ (hb.step hsp hs₁)
    · exact hseg _ m₁ (hb.step hsp hs₁) (hu.grow hus hnew) hle
    · exact hQ sz false fs₁ m₁ h₁ (hb.step hsp hs₁)
    · exact absurd rfl h₀

/-! ### The stack -/

theorem wp_pushStrings {Q : Option (ℕ × List ℕ) → Kernel → Prop} (argv : List ℕ) (sp : ℕ)
    (ustack : List ℕ) (hb : Building b m₀ F root tf npg s.mem)
    (hQ : ∀ r m, Building b m₀ F root tf npg m → Q r { s with mem := m }) :
    wp (pushStrings root stackbase argv sp ustack) E Q s := by
  induction argv generalizing sp ustack s with
  | nil => exact wp_pure.2 (hQ _ s.mem hb)
  | cons arg argv ih =>
    simp only [pushStrings, wp_bind, wp_get, wp_ite, wp_pure, wp_onMem]
    refine ⟨fun _ => hQ none s.mem hb, fun _ => ⟨fun _ => hQ none s.mem hb, fun _ => ?_⟩⟩
    refine hb.space.wp_copyout b.managed fun r m₁ hst =>
      ⟨fun _ => hQ none m₁ (hb.stored hst), fun _ => ?_⟩
    exact ih _ _ (hb.stored hst) hQ

theorem wp_pushArgs (hb : Building b m₀ F root tf npg s.mem)
    (hQ : ∀ r m, Building b m₀ F root tf npg m → Q r { s with mem := m }) :
    wp (pushArgs root stackbase argv sp) E Q s := by
  simp only [pushArgs, wp_bind]
  refine wp_pushStrings argv sp [] hb fun r m₁ hb₁ => ?_
  cases r with
  | none => exact wp_pure.2 (hQ none m₁ hb₁)
  | some r =>
    obtain ⟨sp, ustack⟩ := r
    simp only [wp_bind, wp_ite, wp_pure, wp_onMem]
    refine ⟨fun _ => hQ none m₁ hb₁, fun _ => ?_⟩
    exact hb₁.space.wp_copyout b.managed fun r m₂ hst =>
      ⟨fun _ => hQ none m₂ (hb₁.stored hst), fun _ => hQ _ m₂ (hb₁.stored hst)⟩

/-! ### `exec` -/

/-- The old address space of a process, in hand. -/
structure Replaced (b : Board) (img : Pp → Image) (H : Multiset ℕ) (old tf npg : ℕ)
    (m : Mem) : Prop where
  mem : MemInv b m img (spacePages m old npg + H)
  is : IsSpace b m old tf npg

/-- **The new space takes the place of the old one.** -/
theorem Building.replace (hm : MemInv b m₀ img H)
    (hb : Building b m₀ (∑ q, (img q).pages m₀ + H) new tf (npages sz) m)
    (hr : (img p).pagetable = some old) (ht : (img p).trapframe = some tf) :
    Replaced b (update img p ⟨sz, some new, some tf⟩) H old tf (npages (img p).sz) m := by
  have hsame := hb.same.mono le_self_add
  have hp : Same ((img p).pages m₀) m₀ m := hsame.mono (image_le_sum p)
  have htab : Same (tablePages m₀ old) m₀ m := hp.mono (Image.table_le hr)
  obtain ⟨tf', ht', hold⟩ := hm.ok p old hr
  rw [ht] at ht'
  obtain rfl := Option.some.inj ht'
  refine ⟨hm.update p (hsame.mono ?_) ?_ ?_, hold.congr htab⟩
  · rw [← pages_add_others m₀ img p]
    exact le_add_self
  · have ho := hb.space.own
    rw [← pages_add_others m₀ img p, Image.pages_eq hr ht] at ho
    rw [Image.pages_eq rfl rfl, spacePages_congr htab]
    simp only [← Multiset.singleton_add] at ho ⊢
    convert ho using 1
    abel
  · intro root hroot
    cases hroot
    exact ⟨tf, rfl, hb.space.is⟩

theorem Replaced.setTrapframe (h : Replaced b img H old tf npg m)
    (ht : (img p).trapframe = some tf) (pg : Page) :
    Replaced b img H old tf npg (m.setPage tf pg) := by
  have hnot : tf ∉ tablePages m old := fun hin => by
    have hnd := h.mem.own.nodup b.managed
    have htf : tf ∈ ∑ q, (img q).pages m := by
      refine Multiset.mem_of_le (image_le_sum p) ?_
      rw [Image.pages, ht]
      exact Multiset.mem_add.2 (.inl (Multiset.mem_singleton_self tf))
    refine Multiset.disjoint_left.1 (Multiset.nodup_add.1 hnd).2.2 htf
      (Multiset.mem_add.2 (.inl ?_))
    exact Multiset.mem_add.2 (.inl hin)
  have hs : Same (tablePages m old) m (m.setPage tf pg) := Same.setPage hnot pg
  refine ⟨?_, h.is.congr hs⟩
  rw [spacePages_congr hs]
  exact (h.mem.setTrapframe ht pg).1

theorem Replaced.wp_free {Q : PUnit → Mem → Prop} (h : Replaced b img H old tf (npages sz) m)
    (htf : tf < 2 ^ 20) (hQ : ∀ m₁, MemInv b m₁ img H → Same (∑ q, (img q).pages m + H) m m₁ →
      Q ⟨⟩ m₁) :
    wp (procFreepagetable b old sz) E Q m := by
  have ho := h.mem.own
  rw [add_left_comm] at ho
  refine wp_procFreepagetable b.managed ⟨h.is, ho⟩ htf fun m₁ ho₁ hs₁ => hQ m₁ ?_ hs₁
  exact h.mem.congr (hs₁.mono le_self_add) ho₁

theorem MemInv.trapframe_lt (hm : MemInv b m img H) (ht : (img p).trapframe = some tf) :
    tf < 2 ^ 20 := by
  refine (b.managed.manages tf (hm.own.mem (Multiset.mem_add.2 (.inl ?_)))).lt
  refine Multiset.mem_of_le (image_le_sum p) ?_
  rw [Image.pages, ht]
  exact Multiset.mem_add.2 (.inl (Multiset.mem_singleton_self tf))

def execTrapframe (pg : Page) (entry sp : ℕ) : Page :=
  ((pg.setField 8 TF_A1 sp).setField 8 TF_EPC entry).setField 8 TF_SP sp

/-- **The end of `exec`**: the new image takes the place of the old one. -/
theorem wp_execCommit {Q : PUnit → Kernel → Prop} (hk : KInv b J K P s) (hl : (s.proc p).Live)
    (ht : (s.proc p).trapframe = some tf)
    (hb : Building b s.mem (∑ q, (images s.proc q).pages s.mem + (P.val + K)) new tf (npages sz) m)
    (hQ : ∀ m₁, KInv b J K P
        { s with
          mem := m₁, proc := update s.proc p { s.proc p with pagetable := some new, sz := sz } } →
      m₁.page tf = execTrapframe (m.page tf) entry sp → SameUser new (npages sz) m m₁ →
      Q ⟨⟩ { s with
        mem := m₁, proc := update s.proc p { s.proc p with pagetable := some new, sz := sz } }) :
    wp (exec.commit b p new sz entry sp) E Q { s with mem := m } := by
  obtain ⟨old, -, cwd, hr, -, -⟩ := hk.live hl
  have hrep := Building.replace (p := p) hk.mem hb hr ht
  have ht' : (update (images s.proc) p ⟨sz, some new, some tf⟩ p).trapframe = some tf := by
    rw [update_self]
  have hwrites : ((m.setPage tf ((m.page tf).setField 8 TF_A1 sp)).setPage tf
      (((m.setPage tf ((m.page tf).setField 8 TF_A1 sp)).page tf).setField 8 TF_EPC entry)).setPage
      tf
      ((((m.setPage tf ((m.page tf).setField 8 TF_A1 sp)).setPage tf
        (((m.setPage tf ((m.page tf).setField 8 TF_A1 sp)).page tf).setField 8 TF_EPC entry)).page
        tf).setField 8 TF_SP sp) =
      m.setPage tf (execTrapframe (m.page tf) entry sp) := by
    simp only [execTrapframe, Mem.setPage, update_self, update_idem]
  simp only [exec.commit, wp_bind, wp_get, wp_deref ht, wp_deref hr, wp_onMem, wp_setProc,
    setReg, wp_modify]
  rw [hwrites]
  set m₁ := m.setPage tf (execTrapframe (m.page tf) entry sp) with hm₁
  obtain ⟨-, hu₁⟩ : _ ∧ SameUser new _ m m₁ :=
    hrep.mem.same_setTrapframe (p := p) (by rw [update_self]) ht'
      (execTrapframe (m.page tf) entry sp)
  simp only [update_self] at hu₁
  refine (hrep.setTrapframe ht' _).wp_free (hk.mem.trapframe_lt ht) fun m₂ hm₂ hs₂ =>
    hQ m₂ ⟨?_, ?_⟩ ?_ (hu₁.trans ?_)
  · have hset := hk.toExactly.setProc p { s.proc p with pagetable := some new, sz := sz }
      rfl (ht ▸ hm₂)
    have hslots : slots (update s.proc p { s.proc p with pagetable := some new, sz := sz }) =
      slots s.proc := slots_congr rfl
    exact ⟨hset.fs, hslots ▸ hset.file, hset.pipe, hset.mem⟩
  · exact ok_update (fun q _ => hk.proc q)
      ⟨fun hu => absurd hu hl.1, fun _ => Option.some_ne_none _, fun hs => absurd hs (not_or.2 hl),
      (hk.proc p).live⟩
  · refine (hs₂ tf (Multiset.mem_add.2 (.inl (Multiset.mem_of_le (image_le_sum p) ?_)))).trans ?_
    · rw [Image.pages, ht']
      exact Multiset.mem_add.2 (.inl (Multiset.mem_singleton_self tf))
    · exact update_self ..
  · have hspace :
        spacePages m₁ new (npages sz) ≤
        (update (images s.proc) p ⟨sz, some new, some tf⟩ p).pages m₁ := by
      rw [update_self]
      exact Image.space_le (i := ⟨sz, some new, some tf⟩) rfl
    exact .of_pages (hs₂.mono (hspace.trans ((image_le_sum p).trans le_self_add)))

theorem KInv.withMem (hk : KInv b J K P s) (hm : MemInv b m (images s.proc) (P.val + K')) :
    KInv b J K' P { s with mem := m } :=
  ⟨⟨hk.fs, hk.file, hk.pipe, hm⟩, hk.proc⟩

theorem KInv.restore (hk : KInv b J K P s)
    (ho : Owns b.pages m (∑ q, (images s.proc q).pages s.mem + (P.val + K)))
    (hs : Same (∑ q, (images s.proc q).pages s.mem + (P.val + K)) s.mem m) :
    KInv b J K P { s with mem := m } :=
  hk.withMem (hk.mem.congr (hs.mono le_self_add) ho)

/-- `exec` with `n` arguments returned `r`: it succeeded, or only the file system and free pages
have changed, and the pages `F` are in use as before. -/
def Ended (b : Board) (F : Multiset ℕ) (n : ℕ) (s : Kernel) (r : ℤ) (s' : Kernel) : Prop :=
  r = n ∨ r = -1 ∧ ∃ fs m, s' = { s with fs := fs, mem := m } ∧ Owns b.pages m F ∧ Same F s.mem m

section Exec

variable (hk : KInv b J K P s)
include hk

theorem wp_execBad {Q : ℤ → Kernel → Prop} (htf : tf < 2 ^ 20)
    (hb : Building b s.mem (s.pages + (P.val + K)) new tf (npages sz) m)
    (hQ : ∀ m₁, KInv b J K P { s with mem := m₁ } → Owns b.pages m₁ (s.pages + (P.val + K)) →
      Same (s.pages + (P.val + K)) s.mem m₁ → Q (-1) { s with mem := m₁ }) :
    wp (exec.bad b new sz) E Q { s with mem := m } := by
  simp only [exec.bad, wp_bind, wp_onMem, wp_pure]
  refine wp_procFreepagetable b.managed hb.space htf fun m₁ ho₁ hs₁ => ?_
  have hs := hb.same.trans hs₁
  exact hQ m₁ (hk.restore ho₁ hs) ho₁ hs

variable (hl : (s.proc p).Live)
include hl

theorem wp_execStack (ht : (s.proc p).trapframe = some tf)
    (hb : Building b s.mem (s.pages + (P.val + K)) new tf (npages sz) m) :
    wp (exec.stack b p argv new sz entry) E
      (fun r s' => KInv b J K P s' ∧ Ended b (s.pages + (P.val + K)) argv.length s r s')
      { s with mem := m } := by
  have htf := hk.mem.trapframe_lt (p := p) ht
  have hlt := hb.space.npg_lt b.managed
  have hsz : pgroundup sz = npages sz * PGSIZE := pgroundup_eq <| by
    simp only [npages, PGSIZE] at hlt
    omega
  have htop : npages sz * PGSIZE + 2 * PGSIZE = (npages sz + 2) * PGSIZE := (Nat.add_mul ..).symm
  have hround : npages (npages sz * PGSIZE) = npages sz := npages_mul _
  have hround₂ : npages ((npages sz + 2) * PGSIZE) = npages sz + 2 := npages_mul _
  simp only [exec.stack, wp_bind, wp_onMem, wp_ite, hsz, htop]
  rw [← hround] at hb
  refine wp_uvmalloc b.managed hb.space (fun hless => ?_) (fun m₁ _ h₁ hs₁ _ _ => ?_)
    fun m₁ _ h₁ hs₁ _ => ?_
  · simp only [PGSIZE] at hless
    omega
  · refine ⟨fun h₀ => ?_, fun _ => ?_⟩
    · simp only [PGSIZE] at h₀
      omega
    -- the guard page is the one below the stack
    have hguard : (npages sz + 2) * PGSIZE - 2 * PGSIZE = npages sz * PGSIZE := by
      rw [← htop, Nat.add_sub_cancel]
    have hb₁ := hb.step h₁ hs₁
    rw [hguard]
    refine wp_uvmclear b.managed h₁ (by rw [hround₂]; omega) fun m₂ h₂ hs₂ _ _ => ?_
    refine wp_pushArgs (hb₁.step h₂ hs₂) fun r m₃ hb₃ => ?_
    cases r with
    | none =>
      exact wp_execBad (s := s) hk htf hb₃ fun m₄ h₄ ho₄ hs₄ =>
        ⟨h₄, .inr ⟨rfl, s.fs, m₄, rfl, ho₄, hs₄⟩⟩
    | some sp =>
      simp only [wp_bind, wp_pure]
      exact wp_execCommit (s := s) hk hl ht hb₃ fun m₄ h₄ _ _ => ⟨h₄, .inl rfl⟩
  · refine ⟨fun _ => ?_, fun h₀ => absurd rfl h₀⟩
    exact wp_execBad (s := s) hk htf (hb.step h₁ hs₁) fun m₂ h₂ ho₂ hs₂ =>
      ⟨h₂, .inr ⟨rfl, s.fs, m₂, rfl, ho₂, hs₂⟩⟩

/-- **`exec`** replaces the memory of a process, or leaves it. -/
theorem wp_exec (hF : FsRules sb E J J') {path : List UInt8} : wp (exec b sb p path argv) E
    (fun r s' => KInv b J K P s' ∧ Ended b (s.pages + (P.val + K)) argv.length s r s') s := by
  obtain ⟨-, tf, cwd, -, ht, hcwd⟩ := hk.live hl
  have htf := hk.mem.trapframe_lt (p := p) ht
  have hfailed : ∀ fs m, J (irefs s.file s.proc) ∅ (pins s.file) fs →
      Owns b.pages m (s.pages + (P.val + K)) →
      Same (s.pages + (P.val + K)) s.mem m → KInv b J K P { s with fs := fs, mem := m } ∧
        Ended b (s.pages + (P.val + K)) argv.length s (-1) { s with fs := fs, mem := m } :=
    fun fs m h ho hs => ⟨(hk.withFs h).restore ho hs, .inr ⟨rfl, fs, m, rfl, ho, hs⟩⟩
  simp only [exec, wp_bind, wp_get, wp_deref hcwd, wp_onFs]
  refine wp_mono (hF.openProgram hk.fs (irefs_pos_of_cwd hcwd)) fun r fs₁ h₁ => ?_
  cases r with
  | none => exact wp_pure.2 (hfailed fs₁ s.mem h₁ hk.mem.own Same.refl)
  | some ip =>
    -- whatever was built, the program's file is closed
    have hclose : ∀ {fs : Fs} {Q : PUnit → Fs → Prop},
        J (irefs s.file s.proc + Pi.single ip 1) {ip} (pins s.file) fs →
        (∀ fs', J (irefs s.file s.proc) ∅ (pins s.file) fs' → Q ⟨⟩ fs') →
        wp (exec.closeProgram sb ip) E Q fs := fun h hQ =>
      wp_mono (hF.closeProgram h (covers_pins _ _)) fun _ fs' h' => hQ fs' h'
    simp only [wp_bind, wp_onFs, wp_ite, wp_pure, wp_get, wp_deref ht, wp_onMem]
    refine wp_mono (hF.readi h₁) fun data fs₂ h₂ => ⟨fun _ => ?_, fun _ => ?_⟩
    · exact hclose h₂ fun fs₃ h₃ => hfailed fs₃ s.mem h₃ hk.mem.own Same.refl
    refine wp_procPagetable b.managed hk.mem.own htf (fun m₁ ho₁ hs₁ => ?_)
      fun root m₁ hsp hs₁ _ => ?_
    · simp only [wp_bind, wp_onFs, wp_pure]
      exact hclose h₂ fun fs₃ h₃ => hfailed fs₃ m₁ h₃ ho₁ hs₁
    rw [← npages_zero] at hsp
    simp only [wp_bind]
    refine wp_loadSegments hF _ _ 0 h₂ ⟨hsp, hs₁⟩ (fun v hv => ?_) fun sz ok fs₃ m₂ h₃ hb => ?_
    · rw [npages_zero] at hv
      exact absurd hv (Nat.not_lt_zero v)
    simp only [wp_ite, wp_bind, wp_onFs, wp_onMem, wp_pure]
    constructor
    · intro _
      exact hclose h₃ fun fs₄ h₄ => wp_execStack (hk.withFs h₄) hl ht hb
    · intro _
      refine wp_procFreepagetable b.managed hb.space htf fun m₃ ho₃ hs₃ => ?_
      exact hclose h₃ fun fs₄ h₄ => hfailed fs₄ m₃ h₄ ho₃ (hb.same.trans hs₃)

end Exec

/-! ### `sys_exec` -/

theorem MemInv.setHeld (hm : MemInv b m img H) (hx : x ∈ H) (pg : Page) :
    MemInv b (m.setPage x pg) img H := by
  refine (hm.of_tables (fun q root hr => Same.setPage (fun hin => ?_) pg) rfl).1
  have hdis := (Multiset.nodup_add.1 (hm.own.nodup b.managed)).2.2
  refine Multiset.disjoint_left.1 hdis ?_ hx
  exact Multiset.mem_of_le ((Image.table_le hr).trans (image_le_sum q)) hin

theorem wp_fetchaddr (hr : (s.proc p).pagetable = some root) (hQ : ∀ r, Q r s) :
    wp (fetchaddr p addr) E Q s := by
  simp only [fetchaddr, wp_bind, wp_get, wp_ite, wp_pure, wp_deref hr]
  exact ⟨fun _ => hQ none, fun _ => hQ _⟩

theorem wp_fetchArgs {Q : List ℕ × Bool → Kernel → Prop} (n : ℕ) (argv : List ℕ)
    (hk : KInv b J (↑argv + K) P s) (hl : (s.proc p).Live)
    (hQ : ∀ argv ok m, KInv b J (↑argv + K) P { s with mem := m } →
      Q (argv, ok) { s with mem := m }) :
    wp (fetchArgs p uargv n argv) E Q s := by
  obtain ⟨root, -, -, hr, -, -⟩ := hk.live hl
  induction n generalizing argv s with
  | zero => exact wp_pure.2 (hQ argv false s.mem hk)
  | succ n ih =>
    simp only [fetchArgs, wp_bind]
    refine wp_fetchaddr hr fun r => ?_
    rcases r with _ | _ | uarg
    · exact wp_pure.2 (hQ argv false s.mem hk)
    · exact wp_pure.2 (hQ argv true s.mem hk)
    simp only [wp_bind, wp_onMem]
    refine hk.mem.wp_kalloc (fun _ => wp_pure.2 (hQ argv false s.mem hk)) fun page m₁ hm₁ _ _ => ?_
    have hhand : page ::ₘ (P.val + (↑argv + K)) = P.val + (↑(argv ++ [page]) + K) := by
      rw [← Multiset.coe_add, Multiset.coe_singleton, ← Multiset.singleton_add]
      abel
    rw [hhand] at hm₁
    simp only [wp_bind, wp_get, wp_deref hr]
    cases hstr : m₁.copyinstr root (uarg + 1) PGSIZE with
    | none => exact wp_pure.2 (hQ _ false m₁ (hk.withMem hm₁))
    | some str =>
      simp only [wp_bind, wp_onMem, wp_modify]
      refine ih _ (hk.withMem (hm₁.setHeld ?_ _)) hl hQ hr
      simp

theorem wp_freeArgs (argv : List ℕ) (hk : KInv b J (↑argv + K) P s) :
    wp (forM argv fun page => onMem (kfree b page)) E (fun _ s' => KInv b J K P s') s := by
  induction argv generalizing s with
  | nil =>
    rw [Multiset.coe_nil, zero_add] at hk
    exact wp_pure.2 hk
  | cons page argv ih =>
    have hm := hk.mem
    rw [← Multiset.cons_coe, Multiset.cons_add, Multiset.add_cons] at hm
    simp only [List.forM_cons, wp_bind, wp_onMem]
    exact hm.wp_kfree fun m₁ hm₁ _ => ih (hk.withMem hm₁)

/-- **`sys_exec`**. -/
theorem wp_sysExec (hF : FsRules sb E J J') {path : ℕ} (hk : KInv b J K P s)
    (hl : (s.proc p).Live) : wp (sysExec b sb p path uargv) E (fun _ s' => Kept b J' K P s') s := by
  obtain ⟨root, -, -, hr, -, -⟩ := hk.live hl
  simp only [sysExec, wp_bind]
  refine wp_argstr hr fun r => ?_
  cases r with
  | none => exact wp_pure.2 (hk.done hF)
  | some path =>
    simp only [wp_bind]
    have hk₀ : KInv b J (↑([] : List ℕ) + K) P s := by rwa [Multiset.coe_nil, zero_add]
    refine wp_fetchArgs MAXARG [] hk₀ hl fun argv ok m hk₁ => ?_
    have hfree : ∀ (r : ℤ) s', KInv b J (↑argv + K) P s' →
      wp (forM argv fun page => onMem (kfree b page)) E
        (fun _ s'' => wp (pure r : KernelM ℤ) E (fun _ s' => Kept b J' K P s') s'') s' :=
        fun r s' hk' =>
      wp_mono (wp_freeArgs argv hk') fun _ s'' hk'' => wp_pure.2 (hk''.done hF)
    cases ok with
    | false => simpa only [Bool.false_eq_true, if_false, wp_bind, wp_pure] using hfree (-1) _ hk₁
    | true =>
      simp only [if_true, wp_bind]
      exact wp_mono (wp_exec hk₁ hl hF) fun r s' h => hfree r s' h.1

end Xv6
