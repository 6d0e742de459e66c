/-
# The calls on processes keep the counts exact

`sbrk`, `fork`, `exit` and `wait`, and what a process stores in its own memory.  `allocproc` and
`freeproc` move a trapframe and an address space between the free list and a process; `fork` adds a
reference to every open file and to the current directory, and `exit` drops them.
-/

import Xv6.Kernel.Files

namespace Xv6

open Lib Function

variable {b : Board} {sb : Superblock} {J J' : FsPred} {K H : Multiset ℕ} {P : Finset ℕ}
  {s : Kernel} {p : Pp} {f : Fp} {sl : Pp × Fin NOFILE → Option Fp} {h : Fp → ℕ}
  {E : Halt → Prop} {m m₁ : Mem} {img : Pp → Image} {root tf addr sz : ℕ} {n : ℤ}
  {Q : PUnit → Kernel → Prop} {pr : Proc} {fs : Fs}

/-! ### Memory -/

theorem Exactly.setProc (he : Exactly b J P sl h H s) (p : Pp) (pr : Proc)
    (hcwd : pr.cwd = (s.proc p).cwd)
    (hm : MemInv b m (update (images s.proc) p pr.toImage) (P.val + H')) :
    Exactly b J P sl h H' { s with mem := m, proc := update s.proc p pr } where
  fs := by
    have hfs := he.fs
    rwa [← irefs_proc_congr (p := p) hcwd] at hfs
  file := he.file
  pipe := he.pipe
  mem := by rwa [← images_update] at hm

theorem KInv.setMem (hk : KInv b J K P s) (hl : (s.proc p).Live)
    (hr : (s.proc p).pagetable = some root)
    (hm : MemInv b m (update (images s.proc) p ⟨sz, some root, (s.proc p).trapframe⟩) (P.val + K)) :
    KInv b J K P { s with mem := m, proc := update s.proc p { s.proc p with sz := sz } } := by
  refine ⟨?_, ok_update (fun q _ => hk.proc q) ?_⟩
  · have hslots : slots (update s.proc p { s.proc p with sz := sz }) = slots s.proc :=
      slots_congr rfl
    rw [← hr] at hm
    simp only [hslots]
    exact hk.toExactly.setProc p { s.proc p with sz := sz } rfl hm
  · exact ⟨fun hu => absurd hu hl.1, (hk.proc p).used, fun hs => absurd hs (not_or.2 hl),
      (hk.proc p).live⟩

/-- What `growproc(n)` returns, and the size and the memory that it leaves to a process of `sz`
bytes. -/
structure Grown (sz : ℕ) (n : ℤ) (root : ℕ) (m : Mem) (r : ℤ) (new : ℕ) (m₁ : Mem) : Prop where
  ret : r = 0 ∨ r = -1
  ok : 0 ≤ sz + n → n < 2 ^ 31 → r = 0 → (new : ℤ) = sz + n
  shrink : n ≤ 0 → r = 0
  fail : r = -1 → new = sz
  user : SameUser root (min (npages sz) (npages new)) m m₁
  fresh : NewPages m₁ root (npages sz) (npages new)

theorem Grown.same (hok : 0 ≤ sz + n → n < 2 ^ 31 → (sz : ℤ) = sz + n) :
    Grown sz n root m 0 sz m :=
  ⟨.inl rfl, fun h₀ hn _ => hok h₀ hn, fun _ => rfl, fun _ => rfl, SameUser.refl, NewPages.self _⟩

theorem Grown.refused (hn : 0 < n) (hu : SameUser root (npages sz) m m₁) :
    Grown sz n root m (-1) sz m₁ :=
  ⟨.inr rfl, fun _ _ h => absurd h (by decide), fun h => absurd hn h.not_gt, fun _ => rfl,
    by rwa [min_self], NewPages.self _⟩

/-- **`growproc`** takes an address space to one of the new size, or leaves it. -/
theorem MemInv.wp_growproc {Q : ℤ → Kernel → Prop} (hm : MemInv b s.mem (images s.proc) H)
    (hr : (s.proc p).pagetable = some root) (ht : (s.proc p).trapframe = some tf)
    (hQ : ∀ r sz m₁, MemInv b m₁ (Function.update (images s.proc) p ⟨sz, some root, some tf⟩) H →
      Grown (s.proc p).sz n root s.mem r sz m₁ →
      Q r { s with mem := m₁, proc := Function.update s.proc p { s.proc p with sz := sz } }) :
    wp (growproc b p n) E Q s := by
  have hsp := hm.space (p := p) hr ht
  have hlt := hsp.npg_lt_ram b.managed
  have hram : (s.proc p).sz < 2 ^ 27 := by
    simp only [images, npages, PGSIZE] at hlt
    omega
  have hsz : (s.proc p).sz < 2 ^ 32 := hram.trans (by norm_num)
  -- the space after the call, whatever its size
  have hput : ∀ r sz m₁, Space b b.pages m₁ root tf (npages sz)
    (tf ::ₘ (others s.mem (images s.proc) p + H)) →
      Same (tf ::ₘ (others s.mem (images s.proc) p + H)) s.mem m₁ →
      Grown (s.proc p).sz n root s.mem r sz m₁ →
      Q r { s with mem := m₁, proc := Function.update s.proc p { s.proc p with sz := sz } } := by
    intro r sz m₁ h₁ hs₁
    refine hQ r sz m₁ (hm.putSpace p (hs₁.mono ?_) h₁)
    exact le_self_add.trans (Multiset.le_cons_self _ _)
  have hsame : ∀ m₁, Space b b.pages m₁ root tf (npages (s.proc p).sz)
    (tf ::ₘ (others s.mem (images s.proc) p + H)) →
      Same (tf ::ₘ (others s.mem (images s.proc) p + H)) s.mem m₁ →
      SameUser root (npages (s.proc p).sz) s.mem m₁ →
      0 < n → Q (-1) { s with mem := m₁ } := by
    intro m₁ h₁ hs₁ hu₁ hpos
    have := hput (-1) _ m₁ h₁ hs₁ (Grown.refused hpos hu₁)
    rwa [Function.update_eq_self] at this
  have hadd : addInt (s.proc p).sz n < 2 ^ 32 := by
    simp only [addInt]
    omega
  have hexact : 0 ≤ (s.proc p).sz + n → n < 2 ^ 31 →
      (addInt (s.proc p).sz n : ℤ) = (s.proc p).sz + n := by
    simp only [addInt]
    omega
  simp only [growproc, wp_bind, wp_get, wp_deref hr, wp_ite, wp_onMem, wp_pure, wp_setProc,
    Nat.mod_eq_of_lt hsz]
  refine ⟨fun hpos => ?_, fun hpos => ⟨fun hneg => ?_, fun hneg => ?_⟩⟩
  · refine wp_uvmalloc b.managed hsp (fun hless => ?_) (fun m₁ hle h₁ hs₁ hu₁ hnew => ?_)
      fun m₁ _ h₁ hs₁ hu₁ => ?_
    · rw [Nat.mod_eq_of_lt hsz]
      refine ⟨fun _ => ?_, fun _ => hput 0 _ _ hsp Same.refl (Grown.same fun h₀ hn => ?_)⟩
      · exact hsame _ hsp Same.refl SameUser.refl hpos
      · have := hexact h₀ hn
        omega
    · rw [Nat.mod_eq_of_lt hadd]
      refine ⟨fun h₀ => hsame m₁ ?_ hs₁ hu₁ hpos, fun _ => hput 0 _ m₁ h₁ hs₁ ⟨.inl rfl,
        fun h₀ hn _ => hexact h₀ hn, fun _ => rfl, fun h => absurd h (by decide),
        hu₁.mono (min_le_left ..), hnew⟩⟩
      rw [h₀] at hle h₁
      rwa [Nat.le_zero.1 hle]
    · exact ⟨fun _ => hsame m₁ h₁ hs₁ hu₁ hpos, fun h₀ => absurd rfl h₀⟩
  · refine wp_uvmdealloc b.managed hsp (hsz.trans (by norm_num)) (fun hle => ?_)
      fun m₁ hless h₁ hs₁ hu₁ => ?_
    · rw [Nat.mod_eq_of_lt hsz]
      refine hput 0 _ _ hsp Same.refl (Grown.same fun h₀ hn => ?_)
      have := hexact h₀ hn
      omega
    · rw [Nat.mod_eq_of_lt hadd]
      refine hput 0 _ m₁ h₁ hs₁ ⟨.inl rfl, fun h₀ hn _ => hexact h₀ hn, fun _ => rfl,
        fun h => absurd h (by decide), hu₁.mono (min_le_right ..), fun v hv hv' => ?_⟩
      have := npages_mono hless.le
      omega
  · exact hput 0 _ _ hsp Same.refl (Grown.same fun _ _ => by omega)

theorem wp_growproc {Q : ℤ → Kernel → Prop} (hk : KInv b J K P s) (hl : (s.proc p).Live)
    (hQ : ∀ r s', KInv b J K P s' → Q r s') : wp (growproc b p n) E Q s := by
  obtain ⟨root, tf, cwd, hr, ht, -⟩ := hk.live hl
  refine hk.mem.wp_growproc hr ht fun r sz m₁ hm₁ _ => hQ r _ (hk.setMem hl hr ?_)
  rwa [ht]

/-! ### `allocproc` and `freeproc` -/

def Image.none : Image := ⟨0, Option.none, Option.none⟩

theorem Image.pages_none (m : Mem) : Image.none.pages m = 0 := rfl

theorem Image.ok_none : Image.none.Ok b m := fun root hr => by cases hr

def Proc.cleared (pr : Proc) : Proc :=
  { pr with
    toImage := Image.none
    pid := 0
    parent := none
    killed := false
    xstate := 0
    state := .unused }

theorem MemInv.dropImage (hm : MemInv b m img H) (p : Pp)
    (ho : Owns b.pages m₁ (others m img p + H)) (hs : Same (others m img p) m m₁) :
    MemInv b m₁ (Function.update img p Image.none) H := by
  refine hm.update p hs ?_ Image.ok_none
  rwa [Image.pages_none, zero_add]

/-- **`freeproc`** frees the trapframe and the address space of a process. -/
theorem wp_freeproc (hm : MemInv b s.mem (images s.proc) H)
    (hr : (s.proc p).pagetable = some root) (ht : (s.proc p).trapframe = some tf)
    (hQ : ∀ m, MemInv b m (update (images s.proc) p Image.none) H →
      Same (others s.mem (images s.proc) p + H) s.mem m →
      Q ⟨⟩ { s with mem := m, proc := update s.proc p (s.proc p).cleared }) :
    wp (freeproc b p) E Q s := by
  have hsp := hm.space (p := p) hr ht
  have htf : tf < 2 ^ 20 :=
    (b.managed.manages tf (hsp.own.mem (Multiset.mem_add.2 (.inr (Multiset.mem_cons_self ..))))).lt
  simp only [freeproc, wp_bind, wp_get, ht, wp_onMem]
  refine hsp.wp_kfree b.managed fun m₁ h₁ hs₁ => ?_
  simp only [freeproc.freeTable, wp_bind, wp_setProc, wp_get, update_self, hr, wp_onMem]
  refine wp_procFreepagetable b.managed h₁ htf fun m₂ h₂ hs₂ => ?_
  simp only [freeproc.clear, wp_setProc, update_self, update_idem]
  have hs := (hs₁.mono le_add_self).trans hs₂
  exact hQ m₂ (hm.dropImage p h₂ (hs.mono le_self_add)) hs

theorem wp_freeproc_trapframe (hm : MemInv b s.mem img (tf ::ₘ H))
    (hr : (s.proc p).pagetable = none) (ht : (s.proc p).trapframe = some tf)
    (hQ : ∀ m, MemInv b m img H → Same (∑ q, (img q).pages s.mem + H) s.mem m →
      Q ⟨⟩ { s with mem := m, proc := update s.proc p (s.proc p).cleared }) :
    wp (freeproc b p) E Q s := by
  simp only [freeproc, wp_bind, wp_get, ht, wp_onMem]
  refine hm.wp_kfree fun m₁ h₁ hs₁ => ?_
  simp only [freeproc.freeTable, freeproc.clear, wp_bind, wp_setProc, wp_get, update_self, hr,
    update_idem]
  exact hQ m₁ h₁ hs₁

theorem KInv.setUnused {k : BitVec 32} (hk : KInv b J K P s) {np : Pp}
    (hu : (s.proc np).state = .unused ∨ (s.proc np).state = .zombie)
    (hst : pr.state = .unused) (himg : pr.toImage = Image.none) (hof : pr.ofile = (s.proc np).ofile)
    (hcwd : pr.cwd = (s.proc np).cwd)
    (hm : MemInv b m (update (images s.proc) np Image.none) (P.val + K)) :
    KInv b J K P { s with mem := m, nextpid := k, proc := update s.proc np pr } := by
  rw [← himg] at hm
  have hset := hk.toExactly.setProc np pr hcwd hm
  have hidle := (hk.proc np).idle hu
  refine ⟨⟨hset.fs, ?_, hset.pipe, hset.mem⟩, ok_update (fun q _ => hk.proc q)
    ⟨fun _ => himg, ?_, fun _ => ?_, ?_⟩⟩
  · simp only [slots_congr hof]
    exact hset.file
  · exact fun hn => absurd hst hn
  · rwa [hof, hcwd]
  · exact fun hn => absurd hst hn

theorem others_of_unused {np : Pp} (hok : (s.proc np).Ok) (hu : (s.proc np).state = .unused)
    (hs : Same s.pages s.mem m) (i : Image) :
    others m (update (images s.proc) np i) np = s.pages := by
  have himg : images s.proc np = Image.none := hok.unused hu
  have hsum := pages_add_others m (images s.proc) np
  rw [himg, Image.pages_none, zero_add, sum_pages_congr hs] at hsum
  rw [others_update, hsum]
  rfl

/-- A call did not get what it needed: all that is in use is as before, and the same pages are free.
`H` are the pages that no process has. -/
structure GaveUp (H : Multiset ℕ) (s s' : Kernel) : Prop where
  proc : ∀ q, (s.proc q).state ≠ .unused → s'.proc q = s.proc q
  file : s'.file = s.file
  pipe : s'.pipe = s.pipe
  fs : s'.fs = s.fs
  free : (s'.mem.freelist : Multiset ℕ) = s.mem.freelist
  same : Same (s.pages + H) s.mem s'.mem

/-- An unused slot may change, and the order of the free pages. -/
theorem GaveUp.of_unused {np : Pp} {k : BitVec 32} (hm : MemInv b s.mem (images s.proc) H)
    (hm' : MemInv b m (images s.proc) H) (hu : (s.proc np).state = .unused)
    (hs : Same (s.pages + H) s.mem m) :
    GaveUp H s { s with mem := m, nextpid := k, proc := update s.proc np pr } where
  proc q hq := by
    refine update_of_ne ?_ _ _
    rintro rfl
    exact hq hu
  file := rfl
  pipe := rfl
  fs := rfl
  free := by
    have ho := hm'.own
    rw [sum_pages_congr (hs.mono le_self_add)] at ho
    exact add_right_cancel (ho.trans hm.own.symm)
  same := hs

structure Prepared (b : Board) (H : Multiset ℕ) (s : Kernel) (np : Pp) (s' : Kernel) (root tf : ℕ) :
    Prop where
  unused : (s.proc np).state = .unused
  state : ∃ m k pid, s' = { s with
    mem := m, nextpid := k
    proc := update s.proc np { s.proc np with
      pid := pid, pagetable := some root, trapframe := some tf } }
  mem : MemInv b s'.mem (update (images s.proc) np ⟨0, some root, some tf⟩) H
  same : Same (s.pages + H) s.mem s'.mem
  left : s.mem.freelist.length ≤ s'.mem.freelist.length + 6

/-- **`allocproc`** prepares an unused process, or gives up. -/
theorem wp_allocproc {Q : Option Pp → Kernel → Prop} (hk : KInv b J K P s)
    (hnone : ∀ s', KInv b J K P s' → GaveUp (P.val + K) s s' → Q none s')
    (hsome : ∀ np s' root tf, Prepared b (P.val + K) s np s' root tf → Q (some np) s') :
    wp (allocproc b) E Q s := by
  simp only [allocproc, wp_bind, wp_get]
  cases hfind : (List.finRange NPROC).find? fun p => decide ((s.proc p).state = .unused) with
  | none => exact wp_pure.2 (hnone s hk ⟨fun _ _ => rfl, rfl, rfl, rfl, rfl, Same.refl⟩)
  | some np =>
    have hu : (s.proc np).state = .unused := by simpa using List.find?_some hfind
    have himg : images s.proc np = Image.none := (hk.proc np).unused hu
    have hback : update (images s.proc) np Image.none = images s.proc := by
      rw [← himg, update_eq_self]
    simp only [wp_bind, wp_setProc, wp_modify, wp_onMem]
    refine hk.mem.wp_kalloc (fun _ => ?_) fun tf m₁ hm₁ hs₁ hlen₁ => ?_
    · simp only [wp_bind, wp_setProc, wp_pure, update_self, update_idem]
      refine hnone _ (hk.setUnused (.inl hu) hu ?_ rfl rfl (by rw [hback]; exact hk.mem))
        (.of_unused hk.mem hk.mem hu Same.refl)
      show (⟨(images s.proc np).sz, (images s.proc np).pagetable, none⟩ : Image) = _
      rw [himg]
      rfl
    have htf : tf < 2 ^ 20 := by
      refine (b.managed.manages tf (hm₁.own.mem ?_)).lt
      exact Multiset.mem_add.2 (.inr (Multiset.mem_cons_self ..))
    have hpages : ∑ q, (images s.proc q).pages m₁ = s.pages :=
      sum_pages_congr (hs₁.mono le_self_add)
    have hhand : s.pages + (P.val + K) ≤ s.pages + tf ::ₘ (P.val + K) :=
      Multiset.add_le_add_left (Multiset.le_cons_self _ _)
    simp only [wp_bind, wp_setProc, wp_onMem, update_self, update_idem]
    refine wp_procPagetable b.managed hm₁.own htf (fun m₂ ho₂ hs₂ => ?_)
      fun root m₂ h₂ hs₂ hlen₂ => ?_
    · simp only [wp_ite, wp_bind, wp_pure]
      have hm₂ := hm₁.congr (hs₂.mono le_self_add) ho₂
      have hpages₂ : ∑ q, (images s.proc q).pages m₂ = s.pages :=
        (sum_pages_congr (hs₂.mono le_self_add)).trans hpages
      rw [hpages] at hs₂
      refine ⟨fun _ => ?_, fun hn => absurd trivial hn⟩
      refine wp_freeproc_trapframe hm₂ (by simp) (by simp) fun m₃ hm₃ hs₃ => ?_
      simp only [update_self, update_idem]
      rw [hpages₂] at hs₃
      refine hnone _ (hk.setUnused (.inl hu) rfl rfl rfl rfl (by rwa [hback]))
        (.of_unused hk.mem hm₃ hu ?_)
      exact hs₁.trans ((hs₂.mono hhand).trans hs₃)
    · simp only [wp_ite, wp_bind, wp_pure]
      have hleft : s.mem.freelist.length ≤ m₂.freelist.length + 6 := by omega
      have hothers : ∑ q, (images s.proc q).pages m₁ = others m₁ (images s.proc) np := by
        rw [← pages_add_others m₁ _ np, himg, Image.pages_none, zero_add]
      have hs₂' := hs₂
      rw [hpages] at hs₂'
      refine ⟨fun hn => (by cases hn), fun _ => hsome np _ root tf ⟨hu, ⟨m₂, _, _, rfl⟩, ?_,
        hs₁.trans (hs₂'.mono hhand), hleft⟩⟩
      rw [hothers, Multiset.add_cons] at h₂ hs₂
      rw [← npages_zero] at h₂
      exact hm₁.putSpace np (hs₂.mono (le_self_add.trans (Multiset.le_cons_self _ _))) h₂

/-! ### `fork` -/

theorem MemInv.of_tables (hm : MemInv b m img H)
    (hs : ∀ q root, (img q).pagetable = some root → Same (tablePages m root) m m₁)
    (hfree : m₁.freelist = m.freelist) :
    MemInv b m₁ img H ∧ ∑ q, (img q).pages m₁ = ∑ q, (img q).pages m := by
  have hpages : ∑ q, (img q).pages m₁ = ∑ q, (img q).pages m := by
    refine Finset.sum_congr rfl fun q _ => ?_
    cases hr : (img q).pagetable with
    | none => simp only [Image.pages, hr, Option.elim_none]
    | some root => simp only [Image.pages, hr, Option.elim_some, spacePages_congr (hs q root hr)]
  refine ⟨⟨?_, fun q root hr => ?_⟩, hpages⟩
  · rw [hpages, Owns, hfree]
    exact hm.own
  · obtain ⟨tf, ht, hsp⟩ := hm.ok q root hr
    exact ⟨tf, ht, hsp.congr (hs q root hr)⟩

/-- **The trapframe of a process may be written.** -/
theorem MemInv.setTrapframe (hm : MemInv b m img H) (ht : (img p).trapframe = some tf) (pg : Page) :
    MemInv b (m.setPage tf pg) img H ∧ ∑ q, (img q).pages (m.setPage tf pg) = ∑ q,
    (img q).pages m := by
  refine hm.of_tables (fun q root hr => Same.setPage (fun hin => ?_) pg) rfl
  have hnd := hm.own.nodup b.managed
  rw [← pages_add_others m img p, add_assoc] at hnd
  obtain ⟨hndp, -, hdis⟩ := Multiset.nodup_add.1 hnd
  have hle : tablePages m root ≤ (img q).pages m := Image.table_le hr
  have htf : tf ∈ (img p).pages m := by
    rw [Image.pages, ht]
    exact Multiset.mem_add.2 (.inl (Multiset.mem_singleton_self tf))
  by_cases hq : q = p
  · subst hq
    rw [Image.pages_eq hr ht, Multiset.nodup_cons] at hndp
    exact hndp.1 (Multiset.mem_of_le le_self_add hin)
  · refine Multiset.disjoint_left.1 hdis htf (Multiset.mem_add.2 (.inl ?_))
    exact Multiset.mem_of_le (hle.trans (image_le_others hq)) hin

theorem MemInv.wp_setReg {Q : PUnit → Mem → Prop} {reg v : ℕ} (hm : MemInv b m img H)
    (ht : (img p).trapframe = some tf)
    (hQ : ∀ m₁, MemInv b m₁ img H → ∑ q, (img q).pages m₁ = ∑ q, (img q).pages m → Q ⟨⟩ m₁) :
    wp (setReg tf reg v) E Q m := by
  simp only [setReg, wp_modify]
  obtain ⟨hm₁, hpages⟩ := hm.setTrapframe ht ((m.page tf).setField 8 reg v)
  exact hQ _ hm₁ hpages

theorem MemInv.same_setTrapframe (hm : MemInv b m img H) (hr : (img p).pagetable = some root)
    (ht : (img p).trapframe = some tf) (pg : Page) : Same (others m img p + H) m (m.setPage tf pg) ∧
      SameUser root (npages (img p).sz) m (m.setPage tf pg) := by
  have ho := (hm.space hr ht).own
  rw [Multiset.add_cons] at ho
  have hs := Same.setPage (m := m) (b.managed.not_mem ho) pg
  exact ⟨hs.mono le_add_self, .of_pages (hs.mono le_self_add)⟩

/-- The trapframe that `fork` gives the child: that of the parent, with 0 for the value that the
call returns. -/
def childTrapframe (m : Mem) (dst src : ℕ) : Page :=
  ((m.page dst).splice 0 ((m.page src).read 0 TRAPFRAMESIZE)).setField 8 TF_A0 0

theorem get_childTrapframe (ho : o < TRAPFRAMESIZE) : (childTrapframe m dst src).get o =
    if TF_A0 ≤ o ∧ o < TF_A0 + 8 then 0 else (m.page src).get o := by
  have hpage : TRAPFRAMESIZE ≤ PGSIZE := by decide
  have hcopy : ((m.page dst).splice 0 ((m.page src).read 0 TRAPFRAMESIZE)).get o =
      (m.page src).get o := by
    have hin : o < ((m.page src).read 0 TRAPFRAMESIZE).length := by rwa [Bytes.length_read]
    have hget :=
      Bytes.get_splice_of_mem (m.page dst) 0 _ hin
        (by rw [Bytes.length_read, Nat.zero_add]; exact hpage)
    rw [Nat.zero_add] at hget
    rw [hget]
    simp [Bytes.read]
  rw [childTrapframe, Bytes.setField]
  split_ifs with hreg
  · obtain ⟨i, rfl⟩ := Nat.exists_eq_add_of_le hreg.1
    have hi : i < (le 8 0).length := by
      rw [length_le]
      omega
    rw [Bytes.get_splice_of_mem _ _ _ hi (by decide)]
    have hz : ∀ j (hj : j < (le 8 0).length), (le 8 0)[j] = 0 := by decide
    exact hz i hi
  · rw [Bytes.get_splice_of_not_mem _ _ _ (by rw [length_le]; omega), hcopy]

/-- The descriptors among `fds` that a process has for the struct file `f`. -/
def Proc.opens (pr : Proc) (fds : List (Fin NOFILE)) (f : Fp) : ℕ :=
  fds.countP fun fd => pr.ofile fd = some f

theorem Proc.opens_append (pr : Proc) (fds : List (Fin NOFILE)) (fd : Fin NOFILE) (f : Fp) :
    pr.opens (fds ++ [fd]) f = pr.opens fds f + if pr.ofile fd = some f then 1 else 0 := by
  simp [Proc.opens, List.countP_append, List.countP_singleton]

/-- How far `fork` has copied the descriptors of `p` to `np`, from the state `s` on. -/
structure Copying (b : Board) (J : FsPred) (K : Multiset ℕ) (P : Finset ℕ) (p np : Pp) (s : Kernel)
    (done : List (Fin NOFILE)) (s' : Kernel) : Prop where
  exact : Exactly b J P (slots s'.proc) 0 K s'
  proc : s'.proc = update s.proc np { s.proc np with ofile := (s'.proc np).ofile }
  left : ∀ fd, fd ∉ done → (s'.proc np).ofile fd = none
  copied : ∀ fd ∈ done, (s'.proc np).ofile fd = (s.proc p).ofile fd
  file : ∀ f, s'.file f = { s.file f with ref := (s.file f).ref + (s.proc p).opens done f }
  rest : s' = { s with file := s'.file, proc := s'.proc }

theorem Copying.parent {np : Pp} {done : List (Fin NOFILE)} {s' : Kernel}
    (h : Copying b J K P p np s done s') (hne : p ≠ np) : s'.proc p = s.proc p := by
  rw [h.proc, update_of_ne hne]

theorem wp_dupOfiles {np : Pp} (hne : p ≠ np) (he : Exactly b J P (slots s.proc) 0 K s)
    (hof : ∀ fd, (s.proc np).ofile fd = none) :
    wp (forM (List.finRange NOFILE) (fork.dupOfile p np)) E
    (fun _ s' => Copying b J K P p np s (List.finRange NOFILE) s') s := by
  refine wp_forM (Copying b J K P p np s) (fun ys fd zs s' hys hc => ?_)
    ⟨he, ?_, fun fd _ => hof fd, fun fd hfd => absurd hfd List.not_mem_nil, fun f => rfl, rfl⟩
  · have hfd : fd ∉ ys := by
      have hnd := List.nodup_finRange NOFILE
      rw [hys, List.nodup_append] at hnd
      exact fun hin => hnd.2.2 fd hin fd (.head _) rfl
    have hpar := hc.parent hne
    simp only [fork.dupOfile, wp_bind, wp_get]
    cases ho : (s'.proc p).ofile fd with
    | none =>
      rw [hpar] at ho
      refine wp_pure.2 ⟨hc.exact, hc.proc, fun e he => hc.left e fun hin => he ?_, fun e he => ?_,
        fun f => ?_, hc.rest⟩
      · exact List.mem_append_left _ hin
      · rcases List.mem_append.1 he with hin | hin
        · exact hc.copied e hin
        · rw [List.mem_singleton.1 hin, hc.left fd hfd, ho]
      · rw [Proc.opens_append, ho]
        exact hc.file f
    | some f =>
      have hr : 0 < (s'.file f).ref := hc.exact.file.ref_pos_of_slot (x := (p, fd)) ho
      rw [hpar] at ho
      simp only [filedup, wp_bind, wp_get, wp_ite, wp_throw, wp_setFile, wp_pure, wp_setOfile]
      refine ⟨fun hlt => absurd hr (by omega), fun _ => ⟨?_, ?_, fun e he => ?_, fun e he => ?_,
        fun g => ?_, ?_⟩⟩
      · have hdup := (hc.exact.file.dup hr).store (x := (np, fd)) (hc.left fd hfd)
        rw [← slots_setFd] at hdup
        exact (hc.exact.setFd np fd (some f)).setFile f _ rfl rfl rfl hdup
      · simp only [setFd_self]
        rw [setFd, hc.proc]
        simp only [update_self, update_idem]
      · simp only [setFd_self]
        have hef : e ≠ fd := fun hef => he (List.mem_append_right _ (List.mem_singleton.2 hef))
        rw [update_of_ne hef]
        exact hc.left e fun hin => he (List.mem_append_left _ hin)
      · simp only [setFd_self]
        by_cases hef : e = fd
        · rw [hef, update_self, ho]
        · rw [update_of_ne hef]
          refine hc.copied e ((List.mem_append.1 he).resolve_right fun hin => hef
            (List.mem_singleton.1 hin))
      · rw [Proc.opens_append, ho]
        by_cases hgf : g = f
        · subst hgf
          simp only [update_self, hc.file g, if_true]
          rw [Nat.add_assoc]
        · simp only [update_of_ne hgf, hc.file g, Option.some.injEq, Ne.symm hgf, if_false,
            Nat.add_zero]
      · have hrest := hc.rest
        rw [Kernel.mk.injEq] at hrest ⊢
        tauto
  · exact (update_eq_self np s.proc).symm

theorem MemInv.wp_uvmcopy {Q : ℤ → Mem → Prop} {np : Pp} {old new : ℕ} (hm : MemInv b m img H)
    (hne : p ≠ np) (hr : (img p).pagetable = some old) (hsz : (img p).sz = sz)
    (hnp : img np = ⟨0, some new, some tf⟩)
    (hfail : ∀ m₁, MemInv b m₁ img H → Same (others m img np + H) m m₁ → Q (-1) m₁)
    (hok : ∀ m₁, MemInv b m₁ (Function.update img np ⟨sz, some new, some tf⟩) H →
      Same (others m img np + H) m m₁ → CopiedPages old new 0 (npages sz) m m₁ → Q 0 m₁) :
    wp (uvmcopy b old new sz) E Q m := by
  subst hsz
  obtain ⟨tfp, htp, hold⟩ := hm.ok p old hr
  have hlt := (hm.space hr htp).npg_lt b.managed
  have hsp := hm.space (p := np) (by rw [hnp]) (by rw [hnp])
  rw [hnp] at hsp
  simp only [npages_zero] at hsp
  have hF : spacePages m old (npages (img p).sz) ≤ tf ::ₘ (others m img np + H) :=
    ((Image.space_le hr).trans (image_le_others hne)).trans
      (le_self_add.trans (Multiset.le_cons_self _ _))
  have hothers : others m img np ≤ tf ::ₘ (others m img np + H) :=
    le_self_add.trans (Multiset.le_cons_self _ _)
  refine Xv6.wp_uvmcopy b.managed hsp hF hold.shape.user hlt.le
    (fun m₁ h₁ hs₁ hc => hok m₁ ?_ ?_ hc) fun m₁ h₁ hs₁ =>
    hfail m₁ ?_ (hs₁.mono (Multiset.le_cons_self _ _))
  · exact hm.putSpace np (hs₁.mono hothers) h₁
  · exact hs₁.mono (Multiset.le_cons_self _ _)
  · rw [← npages_zero] at h₁
    have hput := hm.putSpace np (hs₁.mono hothers) h₁
    rwa [← hnp, Function.update_eq_self] at hput

theorem Exactly.start {np : Pp} {ip : Ip} {st : ProcState} (he : Exactly b J P (slots s.proc) 0 K s)
    (hok : ∀ q, q ≠ np → (s.proc q).Ok) (hr : (s.proc np).pagetable ≠ none)
    (hcwd : (s.proc np).cwd = none) (hst : st ≠ .unused ∧ st ≠ .zombie)
    (hfs : J (irefs s.file s.proc + Pi.single ip 1) ∅ (pins s.file) fs) :
    KInv b J K P { s with
      fs := fs
      proc := update s.proc np { s.proc np with cwd := some ip, state := st } } := by
  have hstore :
      irefs s.file (update s.proc np { s.proc np with cwd := some ip, state := st }) = _ :=
    irefs_cwd_store s.file hcwd rfl
  rw [← hstore] at hfs
  refine ⟨he.setProcs (slots_congr rfl) (images_congr rfl) hfs, ok_update hok ?_⟩
  exact ⟨fun hu => absurd hu hst.1, fun _ => hr, fun hs => absurd hs (not_or.2 hst),
    fun _ _ => by simp⟩

/-- **What `fork` of `p` made** in the slot `np`.  `H` are the pages that no process has. -/
structure Forked (H : Multiset ℕ) (p np : Pp) (s s' : Kernel) : Prop where
  unused : (s.proc np).state = .unused
  proc : ∀ q, q ≠ np → s'.proc q = s.proc q
  sz : (s'.proc np).sz = (s.proc p).sz
  ofile : (s'.proc np).ofile = (s.proc p).ofile
  cwd : (s'.proc np).cwd = (s.proc p).cwd
  parent : (s'.proc np).parent = some p
  state : (s'.proc np).state = .runnable
  file : ∀ f, s'.file f =
    { s.file f with ref := (s.file f).ref + (s.proc p).opens (List.finRange NOFILE) f }
  pipe : s'.pipe = s.pipe
  fs : ∃ cwd, (s.proc p).cwd = some cwd ∧ s'.fs = s.fs.setInode cwd fun i =>
    { i with ref := i.ref + 1 }
  same : Same (s.pages + H) s.mem s'.mem
  memory : ∃ old new, (s.proc p).pagetable = some old ∧ (s'.proc np).pagetable = some new ∧
    CopiedPages old new 0 (npages (s.proc p).sz) s.mem s'.mem
  regs : ∃ src dst, (s.proc p).trapframe = some src ∧ (s'.proc np).trapframe = some dst ∧
    ∀ o < TRAPFRAMESIZE, (s'.mem.page dst).get o =
      if TF_A0 ≤ o ∧ o < TF_A0 + 8 then 0 else (s.mem.page src).get o

/-- The state in which `fork` starts to copy the descriptors: the child has its memory `m`. -/
def forkState (s : Kernel) (p np : Pp) (m : Mem) (k pid : BitVec 32) (new tf : ℕ) : Kernel :=
  { s with
    mem := m
    nextpid := k
    proc := update s.proc np { s.proc np with
      pid := pid, sz := (s.proc p).sz, pagetable := some new, trapframe :=
        some tf, parent := some p } }

section

variable {np : Pp} {k pid : BitVec 32} {old new : ℕ} {s₄ : Kernel} {cwd : Ip}

theorem Copying.other
    (h : Copying b J K P p np (forkState s p np m k pid new tf) (List.finRange NOFILE) s₄)
    (hq : q ≠ np) : s₄.proc q = s.proc q := by
  rw [h.proc, update_of_ne hq]
  exact update_of_ne hq _ _

theorem Copying.child (hne : p ≠ np)
    (h : Copying b J K P p np (forkState s p np m k pid new tf) (List.finRange NOFILE) s₄) :
    s₄.proc np = { s.proc np with
      pid := pid, sz := (s.proc p).sz, pagetable := some new, trapframe := some tf, parent := some p
      ofile := (s.proc p).ofile } := by
  have hof : (s₄.proc np).ofile = (s.proc p).ofile := funext fun fd => by
    rw [h.copied fd (List.mem_finRange fd)]
    exact congrArg (fun pr => Proc.ofile pr fd) (update_of_ne hne _ _)
  rw [h.proc, update_self, hof]
  simp only [forkState, update_self]

theorem Copying.forked
    (h : Copying b J K P p np (forkState s p np m k pid new tf) (List.finRange NOFILE) s₄)
    (hne : p ≠ np) (hu : (s.proc np).state = .unused) (hr : (s.proc p).pagetable = some old)
    (ht : (s.proc p).trapframe = some root) (hc : (s.proc p).cwd = some cwd)
    (hs : Same (s.pages + H) s.mem m)
    (hcopied : CopiedPages old new 0 (npages (s.proc p).sz) s.mem m)
    (hregs : ∀ o < TRAPFRAMESIZE, (m.page tf).get o =
      if TF_A0 ≤ o ∧ o < TF_A0 + 8 then 0 else (s.mem.page root).get o) :
    Forked H p np s { s₄ with
      fs := s₄.fs.setInode cwd fun i => { i with ref := i.ref + 1 }
      proc := update s₄.proc np { s₄.proc np with cwd := some cwd, state := .runnable } } := by
  have hfs : s₄.fs = s.fs := by rw [h.rest]; rfl
  have hmem : s₄.mem = m := by rw [h.rest]; rfl
  have hpipe : s₄.pipe = s.pipe := by rw [h.rest]; rfl
  have hpar : (forkState s p np m k pid new tf).proc p = s.proc p := update_of_ne hne _ _
  constructor
  case unused => exact hu
  case proc => exact fun q hq => (update_of_ne hq _ _).trans (h.other hq)
  case file =>
    intro f
    have hfile := h.file f
    rwa [hpar] at hfile
  case pipe => exact hpipe
  case fs =>
    rw [hfs]
    exact ⟨cwd, hc, rfl⟩
  case same =>
    rw [hmem]
    exact hs
  case memory =>
    simp only [update_self, h.child hne, hmem]
    exact ⟨old, new, hr, rfl, hcopied⟩
  case regs =>
    simp only [update_self, h.child hne, hmem]
    exact ⟨root, tf, ht, rfl, hregs⟩
  all_goals simp only [update_self, h.child hne, hc]

end

theorem FsRules.idup_state (hF : FsRules sb E J J') (h : J R ∅ W fs)
    (hr : 0 < R ip) :
    J (R + Pi.single ip 1) ∅ W (fs.setInode ip fun i => { i with ref := i.ref + 1 }) := by
  have hidup := hF.idup h hr
  simpa only [Xv6.idup, Xv6.setInode, wp_bind, wp_modify, wp_pure, true_and] using hidup

/-- **`fork`** makes a copy of the process, or gives up. -/
theorem KInv.wp_forked {Q : ℤ → Kernel → Prop} (hk : KInv b J K P s) (hl : (s.proc p).Live)
    (hdup : ∀ {R W fs ip}, J R ∅ W fs → 0 < R ip →
      J (R + Pi.single ip 1) ∅ W (fs.setInode ip fun i => { i with ref := i.ref + 1 }))
    (hfail : ∀ s', KInv b J K P s' → GaveUp (P.val + K) s s' → Q (-1) s')
    (hok : ∀ np s', KInv b J K P s' → Forked (P.val + K) p np s s' → Q (s'.proc np).pid.toInt s') :
    wp (fork b p) E Q s := by
  obtain ⟨old, tfp, cwd, hr, ht, hc⟩ := hk.live hl
  simp only [fork, wp_bind]
  refine wp_allocproc hk (fun s' hk' hg => wp_pure.2 (hfail s' hk' hg)) fun np s₁ new tf hprep => ?_
  obtain ⟨hu, ⟨m, k, pid, rfl⟩, hm, hs, -⟩ := hprep
  have hne : p ≠ np := by
    rintro rfl
    exact hl.1 hu
  have hidle := (hk.proc np).idle (.inl hu)
  have himg : images s.proc np = Image.none := (hk.proc np).unused hu
  have hp : update (images s.proc) np ⟨0, some new, some tf⟩ p = images s.proc p :=
    update_of_ne hne _ _
  have hothers : ∀ {m'}, Same (s.pages + (P.val + K)) s.mem m' → ∀ i,
      others m' (update (images s.proc) np i) np = s.pages := fun hs' i =>
    others_of_unused (hk.proc np) hu (hs'.mono le_self_add) i
  simp only [wp_bind, wp_get, update_self, update_of_ne hne, wp_deref hr, wp_deref_some, ht, hc,
    wp_onMem, wp_ite]
  refine hm.wp_uvmcopy hne (by rw [hp]; exact hr) (by rw [hp]; rfl) (update_self ..)
    (fun m₁ hm₁ hs₁ => ⟨fun _ => ?_, fun hn => ?_⟩) fun m₁ hm₁ hs₁ hcopied =>
      ⟨fun hn => ?_, fun _ => ?_⟩
  · -- the new process goes, with all it was given
    rw [hothers hs] at hs₁
    have hs₁ := hs.trans hs₁
    have hzero : (s.proc np).sz = 0 := congrArg Image.sz himg
    refine wp_freeproc (H := P.val + K) ?_ (show _ = some new by simp) (show _ = some tf by simp)
      fun m₂ hm₂ hs₂ => wp_pure.2 ?_
    · simp only [images_update, hzero]
      exact hm₁
    · simp only [images_update, update_self, update_idem] at hm₂ hs₂ ⊢
      rw [hothers hs₁] at hs₂
      refine hfail _ (hk.setUnused (.inl hu) rfl rfl rfl rfl hm₂)
        (.of_unused hk.mem ?_ hu (hs₁.trans hs₂))
      rwa [← himg, update_eq_self] at hm₂
  · exact absurd (by decide) hn
  · exact absurd hn (by decide)
  rw [hothers hs] at hs₁
  have hs₁ := hs.trans hs₁
  have hpages : (images s.proc p).pages s.mem ≤ s.pages + (P.val + K) :=
    (image_le_sum p).trans le_self_add
  have hparent : SameUser old (npages (s.proc p).sz) s.mem m :=
    .of_pages (hs.mono ((Image.space_le (i := images s.proc p) hr).trans hpages))
  simp only [wp_setProc, update_self, update_idem, copyTrapframe, setReg, wp_modify] at hm₁ ⊢
  have hwrites :
    (m₁.setPage tf ((m₁.page tf).splice 0 ((m₁.page tfp).read 0 TRAPFRAMESIZE))).setPage tf
      (((m₁.setPage tf ((m₁.page tf).splice 0 ((m₁.page tfp).read 0 TRAPFRAMESIZE))).page
      tf).setField 8 TF_A0 0) =
      m₁.setPage tf (childTrapframe m₁ tf tfp) := by
    simp only [childTrapframe, Mem.setPage, update_self, update_idem]
  rw [hwrites]
  have hm₃ := (hm₁.setTrapframe (p := np) (show _ = some tf by simp) (childTrapframe m₁ tf tfp)).1
  obtain ⟨hs₃, hu₃⟩ := hm₁.same_setTrapframe (p := np) (show _ = some new by simp)
    (show _ = some tf by simp) (childTrapframe m₁ tf tfp)
  simp only [update_self] at hu₃
  rw [hothers hs₁] at hs₃
  set m₃ := m₁.setPage tf (childTrapframe m₁ tf tfp) with hm₃'
  have he₃ : Exactly b J P (slots (forkState s p np m₃ k pid new tf).proc) 0 K
      (forkState s p np m₃ k pid new tf) := by
    have hslots : slots (forkState s p np m₃ k pid new tf).proc = slots s.proc := slots_congr rfl
    have hset := hk.toExactly.setProc np ((forkState s p np m₃ k pid new tf).proc np)
      (by simp only [forkState, update_self]) (by simpa only [forkState, update_self] using hm₃)
    rw [hslots]
    simp only [forkState, update_self] at hset
    exact ⟨hset.fs, hset.file, hset.pipe, hset.mem⟩
  refine wp_mono (wp_dupOfiles hne he₃ (by simpa [forkState] using hidle.1)) fun _ s₄ h₄ => ?_
  have hcwd : cwds s₄.proc p = some cwd := by
    rw [cwds, h₄.other hne]
    exact hc
  have hidup := hdup h₄.exact.fs (irefs_pos_of_cwd hcwd)
  simp only [idup, setInode, wp_bind, wp_modify, wp_pure, wp_onFs]
  have hkinv := h₄.exact.start (fun q hq => by rw [h₄.other hq]; exact hk.proc q)
    (by rw [h₄.child hne]; simp) (by rw [h₄.child hne]; simpa using hidle.2)
    (show ProcState.runnable ≠ .unused ∧ ProcState.runnable ≠ .zombie by decide) hidup
  have hforked := h₄.forked hne hu hr ht hc (hs₁.trans hs₃) (fun v hv hv' => ?_) fun o ho => ?_
  · simpa [h₄.child hne] using hok np _ hkinv hforked
  · rw [hu₃.user hv', hcopied v hv hv', hparent.user hv']
  · have hsrc : m₁.page tfp = s.mem.page tfp := hs₁ tfp (Multiset.mem_of_le hpages ?_)
    · have hdst : m₃.page tf = childTrapframe m₁ tf tfp := update_self ..
      rw [hdst, get_childTrapframe ho, hsrc]
    · rw [Image.pages, show (images s.proc p).trapframe = some tfp from ht]
      exact Multiset.mem_add.2 (.inl (Multiset.mem_singleton_self tfp))

/-! ### `exit`, `wait` and `kill` -/

/-- How far `exit` has closed the descriptors of `p`, from the state `s` on. -/
structure Closing (b : Board) (J : FsPred) (K : Multiset ℕ) (p : Pp) (s : Kernel)
    (done : List (Fin NOFILE)) (s' : Kernel) : Prop where
  exact : ∃ P', Exactly b J P' (slots s'.proc) 0 K s'
  proc : s'.proc = update s.proc p { s.proc p with ofile := (s'.proc p).ofile }
  closed : ∀ fd ∈ done, (s'.proc p).ofile fd = none
  pages : s'.pages = s.pages

theorem wp_closeOfiles (hF : FsRules sb E J J') (he : Exactly b J P (slots s.proc) 0 K s) :
    wp (forM (List.finRange NOFILE) (exit.closeOfile b sb p)) E
      (fun _ s' => Closing b J K p s (List.finRange NOFILE) s') s := by
  refine wp_forM (Closing b J K p s) (fun ys fd zs s' _ hc => ?_)
    ⟨⟨P, he⟩, (update_eq_self p s.proc).symm, by simp, rfl⟩
  obtain ⟨P', hex⟩ := hc.exact
  simp only [exit.closeOfile, wp_bind, wp_get]
  cases ho : (s'.proc p).ofile fd with
  | none =>
    refine wp_pure.2 ⟨hc.exact, hc.proc, fun e he => ?_, hc.pages⟩
    rcases List.mem_append.1 he with he | he
    · exact hc.closed e he
    · rw [List.mem_singleton.1 he, ho]
  | some f =>
    have htake := hex.file.take (x := (p, fd)) ho
    simp only [wp_bind, wp_setOfile]
    refine wp_fileclose hF (h := 0) ⟨hex.fs, htake, hex.pipe, hex.mem⟩
      fun P₁ s₁ h₁ hproc _ hpages => ?_
    rw [hproc]
    refine ⟨⟨P₁, ?_⟩, ?_, fun e he => ?_, ?_⟩
    · rw [slots_setFd]
      have := h₁.setFd p fd none
      rwa [hproc] at this
    · simp only [setFd_self]
      rw [setFd, hc.proc]
      simp only [update_self, update_idem]
    · simp only [setFd_self]
      by_cases hef : e = fd
      · rw [hef, update_self]
      · rw [update_of_ne hef]
        refine hc.closed e ((List.mem_append.1 he).resolve_right fun h₁ => hef
          (List.mem_singleton.1 h₁))
    · rw [← hc.pages, ← hpages]
      simp only [Kernel.pages, images_setFd, hproc]

def reparented (proc : Pp → Proc) (p : Pp) (init : Option Pp) : Pp → Proc := fun q =>
  if (proc q).parent = some p then { proc q with parent := init } else proc q

theorem wp_reparent :
    wp (reparent p) E Q s ↔ Q ⟨⟩ { s with proc := reparented s.proc p s.initproc } := wp_modify _

theorem reparented_apply (proc : Pp → Proc) (p : Pp) (init : Option Pp) (q : Pp) :
    ∃ x, reparented proc p init q = { proc q with parent := x } := by
  unfold reparented
  split_ifs
  · exact ⟨init, rfl⟩
  · exact ⟨(proc q).parent, rfl⟩

/-- A process may become a zombie before or after `reparent`. -/
theorem update_reparented (proc : Pp → Proc) (p : Pp) (init : Option Pp) (status : ℤ) :
    update (reparented proc p init) p
    { reparented proc p init p with xstate := status, state := .zombie } =
      reparented (update proc p { proc p with xstate := status, state := .zombie }) p init := by
  funext q
  by_cases hq : q = p
  · subst hq
    simp only [reparented, update_self]
    split_ifs <;> rfl
  · rw [update_of_ne hq, reparented, reparented, update_of_ne hq]

theorem view_reparented (g : Proc → α) (hg : ∀ pr x, g { pr with parent := x } = g pr)
    (proc : Pp → Proc) (p : Pp) (init : Option Pp) :
    (fun q => g (reparented proc p init q)) = fun q => g (proc q) := by
  funext q
  obtain ⟨x, hx⟩ := reparented_apply proc p init q
  rw [hx, hg]

theorem images_reparented (proc : Pp → Proc) (p : Pp) (init : Option Pp) :
    images (reparented proc p init) = images proc :=
  view_reparented Proc.toImage (fun _ _ => rfl) ..

theorem KInv.reparent (hk : KInv b J K P s) (p : Pp) (init : Option Pp) :
    KInv b J K P { s with proc := reparented s.proc p init } := by
  have hcwds : cwds (reparented s.proc p init) = cwds s.proc :=
    view_reparented Proc.cwd (fun _ _ => rfl) ..
  have hslots : slots (reparented s.proc p init) = slots s.proc := by
    funext x
    exact congrFun (congrFun (view_reparented Proc.ofile (fun _ _ => rfl) ..) x.1) x.2
  have hfs := hk.fs
  rw [irefs, ← hcwds] at hfs
  refine ⟨hk.toExactly.setProcs hslots (images_reparented ..) hfs, fun q => ?_⟩
  obtain ⟨x, hx⟩ := reparented_apply s.proc p init q
  have hok := hk.proc q
  simp only [hx]
  exact ⟨hok.unused, hok.used, hok.idle, hok.live⟩

theorem KInv.zombie (hk : KInv b J K P s) (status : ℤ)
    (hl : (s.proc p).Live) (h₁ : Closing b J K p s (List.finRange NOFILE) s₁)
    (hex : Exactly b J P₁ (slots s₁.proc) 0 K s₁)
    (hfs : J (irefs s₁.file (update s₁.proc p { s₁.proc p with cwd := none })) ∅
      (pins s₁.file) fs) :
    KInv b J K P₁ { s₁ with
      fs := fs
      proc := update s₁.proc p
        { s₁.proc p with cwd := none, xstate := status, state := .zombie } } := by
  have hp : s₁.proc p = { s.proc p with ofile := (s₁.proc p).ofile } := by
    conv_lhs => rw [h₁.proc]
    exact update_self ..
  refine ⟨hex.setProcs (slots_congr rfl) (images_congr rfl) ?_,
    ok_update (fun q hq => ?_) ⟨nofun, fun _ => ?_, fun _ => ?_, fun _ hz => absurd rfl hz⟩⟩
  · rw [irefs, cwds_update] at hfs ⊢
    exact hfs
  · rw [h₁.proc, update_of_ne hq]
    exact hk.proc q
  · have hused := (hk.proc p).used hl.1
    show (s₁.proc p).pagetable ≠ none
    rwa [hp]
  · exact ⟨fun fd => h₁.closed fd (List.mem_finRange fd), rfl⟩

theorem wp_waitReport {Q : Bool → Kernel → Prop} {np : Pp} (hk : KInv b J K P s)
    (hl : (s.proc p).Live)
    (hQ : ∀ r m, KInv b J K P { s with mem := m } → Q r { s with mem := m }) :
    wp (wait.report p addr np) E Q s := by
  obtain ⟨root, tf, cwd, hr, -, -⟩ := hk.live hl
  simp only [wait.report, wp_ite, wp_pure, wp_bind, wp_get]
  refine ⟨fun _ => hQ true s.mem hk, fun _ => ?_⟩
  exact wp_copyoutProc hk.toExactly hr fun r m hm _ => hQ _ m ⟨hm, hk.proc⟩

def killedProc (pr : Proc) : Proc :=
  { pr with
    killed := true
    state := if pr.state = .sleeping then .runnable else pr.state }

theorem Proc.Ok.killed (h : pr.Ok) : (killedProc pr).Ok := by
  by_cases hs : pr.state = .sleeping
  · have hnot : pr.state ≠ .unused ∧ pr.state ≠ .zombie := by simp [hs]
    have hrun : (killedProc pr).state = .runnable := if_pos hs
    refine ⟨fun hu => ?_, fun _ => h.used hnot.1, fun hu => ?_, fun _ _ => h.live hnot.1 hnot.2⟩
    · rw [hrun] at hu
      cases hu
    · rw [hrun] at hu
      rcases hu with hu | hu <;> cases hu
  · have hsame : (killedProc pr).state = pr.state := if_neg hs
    exact ⟨fun hu => h.unused (hsame ▸ hu), fun hu => h.used (hsame ▸ hu),
      fun hu => h.idle (hsame ▸ hu), fun hu hz => h.live (hsame ▸ hu) (hsame ▸ hz)⟩

/-! ### The calls -/

section

variable (hF : FsRules sb E J J') (hk : KInv b J K P s)
include hF hk

theorem wp_kill {pid : BitVec 32} : wp (kill pid) E (fun _ => Kept b J' K P) s := by
  simp only [kill, wp_bind, wp_get]
  cases hfind : (List.finRange NPROC).find? fun p => decide ((s.proc p).pid = pid) with
  | none => exact wp_pure.2 (hk.done hF)
  | some q =>
    simp only [wp_bind, wp_setProc, wp_pure]
    have hfs := hk.fs
    rw [← irefs_proc_congr (p := q) (show (killedProc (s.proc q)).cwd = (s.proc q).cwd from
      rfl)] at hfs
    exact KInv.done (hk.setProc q _ rfl rfl (hk.proc q).killed hfs) hF

variable (hl : (s.proc p).Live)
include hl

theorem wp_sysSbrk : wp (sysSbrk b p n) E (fun _ => Kept b J' K P) s := by
  simp only [sysSbrk, wp_bind, wp_get, wp_ite, wp_pure]
  exact wp_growproc hk hl fun r s' hk' => ⟨fun _ => hk'.done hF, fun _ => hk'.done hF⟩

theorem wp_store : wp (copyoutProc p va src) E (fun _ => Kept b J' K P) s :=
  hk.wp_copyoutProc hl fun _ _ hk' => hk'.done hF

theorem wp_fork : wp (fork b p) E (fun _ => Kept b J' K P) s :=
  hk.wp_forked hl hF.idup_state (fun _ hk' _ => hk'.done hF) fun _ _ hk' _ => hk'.done hF

theorem wp_exit : wp (exit b sb p status) E (fun _ => Kept b J' K P) s := by
  obtain ⟨root, tf, cwd, hr, ht, hc⟩ := hk.live hl
  simp only [exit, wp_bind, wp_get, wp_ite, wp_throw]
  refine ⟨fun _ => hF.initExiting, fun _ => ?_⟩
  refine wp_mono (wp_closeOfiles hF hk.toExactly) fun _ s₁ h₁ => ?_
  have hcwd : (s₁.proc p).cwd = some cwd := by
    rw [h₁.proc, update_self]
    exact hc
  obtain ⟨P₁, hex⟩ := h₁.exact
  have hfs := hex.fs
  have htake :
      irefs s₁.file s₁.proc = irefs s₁.file (update s₁.proc p { s₁.proc p with cwd := none }) +
      Pi.single cwd 1 := irefs_cwd_take hcwd rfl
  rw [htake] at hfs
  simp only [hcwd, wp_deref_some, wp_onFs, wp_setProc, wp_reparent]
  refine wp_mono (hF.beginOp hfs) fun _ fs₁ hfs₁ => ?_
  refine wp_mono (hF.iput hfs₁ (covers_pins _ _)) fun _ fs₂ hfs₂ => wp_mono (hF.endOp hfs₂)
    fun _ fs₃ hfs₃ => ?_
  have hk₃ := (hk.zombie status hl h₁ hex hfs₃).reparent p s₁.initproc
  rw [update_reparented]
  simp only [update_self, update_idem]
  refine hk.kept_of_pages (hk₃.weaken hF) (Eq.trans ?_ h₁.pages)
  have himg :
      images (update s₁.proc p { s₁.proc p with cwd := none, xstate := status, state := .zombie }) =
      images s₁.proc := images_congr rfl
  simp only [Kernel.pages, images_reparented, himg]

theorem wp_wait : wp (wait b p addr) E (fun _ => Kept b J' K P) s := by
  simp only [wait, wp_bind, wp_get]
  cases hfind : (List.finRange NPROC).find? fun np =>
      decide ((s.proc np).parent = some p ∧ (s.proc np).state = .zombie) with
  | none =>
    simp only [wp_ite, wp_pure, wp_throw]
    exact ⟨fun _ => hk.done hF, fun _ => hF.asleep⟩
  | some np =>
    have hz : (s.proc np).parent = some p ∧ (s.proc np).state = .zombie := by
      simpa using List.find?_some hfind
    have hne : np ≠ p := by
      rintro rfl
      exact hl.2 hz.2
    simp only [wp_bind, wp_ite, wp_pure]
    refine wp_waitReport hk hl fun r m hk' => ⟨fun _ => ?_, fun _ => hk'.done hF⟩
    obtain ⟨root, hr⟩ := Option.ne_none_iff_exists'.1 ((hk.proc np).used (by simp [hz.2]))
    obtain ⟨tf, ht, -⟩ := hk.mem.ok np root hr
    refine wp_freeproc hk'.mem hr ht fun m₂ hm₂ _ => KInv.done ?_ hF
    exact hk.setUnused (k := s.nextpid) (.inr hz.2) rfl rfl rfl rfl hm₂

end

end Xv6
