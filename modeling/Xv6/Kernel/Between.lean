/-
# Between the calls of a run

`KInv` was made to be kept by every call.  Here it is read for what it says of a machine that was
booted from a consistent image (`FromBoot`), whatever its processes have called since: where each
page is, what each process can reach, and what the counts of inodes and files are.
-/

import Xv6.Kernel.Fork

namespace Xv6

open Lib

variable {b : Board} {sb : Superblock} {K : Multiset ℕ} {s s' : Kernel} {p : Pp}

/-- `s` lies between two calls of a run from the disk `blocks`, where the kernel kept the pages `K`.
-/
def FromDisk (b : Board) (sb : Superblock) (K : Multiset ℕ) (blocks : Disk) (s : Kernel) : Prop :=
  ∃ (mem : Mem) (s₀ : Kernel), Owns b.pages mem K ∧ 9 ≤ mem.freelist.length ∧
    Boots b sb blocks mem s₀ ∧ Reach (Kernel.step b sb) Kernel.Calls s₀ s

def FromBoot (b : Board) (sb : Superblock) (K : Multiset ℕ) (s : Kernel) : Prop :=
  ∃ blocks, Consistent sb blocks ∧ FromDisk b sb K blocks s

theorem FromBoot.kinv (h : FromBoot b sb K s) : ∃ P, KInv b (Inv sb) K P s := by
  obtain ⟨blocks, himg, mem, s₀, hm, hlen, hb, hr⟩ := h
  exact KInv.reach inv_rules himg.inv hm hlen hb hr

theorem FromBoot.call {c : Call} (h : FromBoot b sb K s) (hl : (s.proc p).Live)
    (hrun : (c.run b sb p).run s = .ok (r, s')) : FromBoot b sb K s' := by
  obtain ⟨blocks, himg, mem, s₀, hm, hlen, hb, hr⟩ := h
  exact ⟨blocks, himg, mem, s₀, hm, hlen, hb, hr.tail ⟨(p, c), hl, step_eq_some.2 ⟨r, hrun⟩⟩⟩

/-- Init opens `f` for writing, makes a pipe, and forks. -/
def busyRun : List (Pp × Call) := openRun ++ [(firstProc, .pipe 3000), (firstProc, .fork)]

theorem exists_busy : ∃ s, FromBoot tinyBoard mkfsSb 0 s ∧ (s.proc 0).Live ∧ (s.proc 1).Live ∧
    (s.proc 1).ofile 0 = some 0 ∧ (s.file 0).pin = some 1 := by
  obtain ⟨s₀, s, hboot, hreach, hs⟩ := exists_after_boot mkfsImage busyRun
    (fun s => (s.proc 0).Live ∧ (s.proc 1).Live ∧ (s.proc 1).ofile 0 = some 0 ∧
      (s.file 0).pin = some 1) (by decide +kernel)
  exact ⟨s, ⟨mkfsImage, mkfsImage_consistent, tinyMem, s₀, tinyMem_owns, by decide, hboot, hreach⟩,
    hs⟩

/-- **Every page has one use.**  The pages handed to the allocator are those of the free list, of
the processes (the trapframe, the page table, what `[0, sz)` is mapped to), of the open pipes and of
the kernel, each of them once; and a slot that is not in use has none. -/
theorem pages_partitioned (h : FromBoot b sb K s) : ∃ P : Finset ℕ,
    (∀ pi, pi ∈ P ↔ (s.pipe pi).readopen = true ∨ (s.pipe pi).writeopen = true) ∧
    (s.mem.freelist : Multiset ℕ) + (∑ p, (images s.proc p).pages s.mem + (P.val + K)) = b.pages ∧
    b.pages.Nodup ∧ ∀ p, (s.proc p).state = .unused → (images s.proc p).pages s.mem = 0 := by
  obtain ⟨P, hk⟩ := h.kinv
  refine ⟨P, hk.pipe.pages, hk.mem.own, b.managed.nodup, fun p hu => ?_⟩
  have himg : images s.proc p = ⟨0, none, none⟩ := (hk.proc p).unused hu
  rw [himg]
  rfl

theorem pages_partitioned_busy : ∃ s, FromBoot tinyBoard mkfsSb 0 s ∧ ∃ P : Finset ℕ,
    (∀ pi, pi ∈ P ↔ (s.pipe pi).readopen = true ∨ (s.pipe pi).writeopen = true) ∧
    (s.mem.freelist : Multiset ℕ) + (∑ p, (images s.proc p).pages s.mem + (P.val + 0)) =
    tinyBoard.pages := by
  obtain ⟨s, h, -⟩ := exists_busy
  obtain ⟨P, hP, hsum, -⟩ := pages_partitioned h
  exact ⟨s, h, P, hP, hsum⟩

/-- **Address spaces are apart.**  A process in use has a page table with a leaf for each page of
`[0, sz)`, the trapframe and the trampoline at the top, and nothing else.  No page stands twice in
it or belongs to another process, so that no store of another process can be seen. -/
theorem address_spaces_apart (h : FromBoot b sb K s) (p : Pp) (hp : (s.proc p).state ≠ .unused) :
    ∃ root tf, (s.proc p).pagetable = some root ∧ (s.proc p).trapframe = some tf ∧
    IsSpace b s.mem root tf (npages (s.proc p).sz) ∧ ((images s.proc p).pages s.mem).Nodup ∧
    ∀ q, q ≠ p → Disjoint ((images s.proc q).pages s.mem) ((images s.proc p).pages s.mem) ∧
    Isolated s q p := by
  obtain ⟨P, hk⟩ := h.kinv
  obtain ⟨root, hr⟩ := Option.ne_none_iff_exists'.1 ((hk.proc p).used hp)
  obtain ⟨tf, ht, hs⟩ := hk.mem.ok p root hr
  have hle :=
    (image_le_sum p).trans (Multiset.le_add_right (∑ q, (images s.proc q).pages s.mem) (P.val + K))
  exact ⟨root, tf, hr, ht, hs, Multiset.nodup_of_le hle (hk.mem.own.nodup b.managed),
    fun q hq => ⟨hk.mem.pages_disjoint hq, hk.isolated hq⟩⟩

theorem address_spaces_apart_busy :
    ∃ s, FromBoot tinyBoard mkfsSb 0 s ∧ (s.proc 1).state ≠ .unused ∧ Isolated s 0 1 := by
  obtain ⟨s, h, -, hl, -⟩ := exists_busy
  obtain ⟨root, tf, -, -, -, -, hq⟩ := address_spaces_apart h 1 hl.1
  exact ⟨s, h, hl.1, (hq 0 (by decide)).2⟩

/-! ### Counts -/

/-- **The reference counts of inodes are exact**: one for each struct file and each current
directory that refers to the entry.  No inode has two entries in use, and none is locked. -/
theorem inode_refs_exact (h : FromBoot b sb K s) :
    (∀ ip, (s.fs.inode ip).ref = irefs s.file s.proc ip ∧ (s.fs.inode ip).locked = false) ∧
    ∀ ip jp, 0 < (s.fs.inode ip).ref → 0 < (s.fs.inode jp).ref →
      (s.fs.inode ip).inum = (s.fs.inode jp).inum → ip = jp := by
  obtain ⟨P, hk⟩ := h.kinv
  obtain ⟨T, ⟨-, hc⟩, -⟩ := hk.fs
  have hent := hc.entry
  refine ⟨fun ip => ⟨(hent ip).ref, ?_⟩, fun ip jp hi hj => ?_⟩
  · have hlock := (hent ip).lock
    simpa using hlock
  · rw [(hent ip).ref] at hi
    rw [(hent jp).ref] at hj
    exact hc.uniq ip jp hi hj

theorem inode_refs_exact_busy : ∃ s, FromBoot tinyBoard mkfsSb 0 s ∧
    ∀ ip, (s.fs.inode ip).ref = irefs s.file s.proc ip := by
  obtain ⟨s, h, -⟩ := exists_busy
  exact ⟨s, h, fun ip => ((inode_refs_exact h).1 ip).1⟩

/-- **The counts of open files are exact.**  A struct file is referenced by as many descriptors as
it counts, and has a type if and only if there are any.  An end of a pipe is open if and only if one
struct file is that end.  The page of a pipe is not free while an end is open, and it is once a call
has closed the last. -/
theorem open_files_counted (h : FromBoot b sb K s) :
    (∀ f, (s.file f).ref = owners (slots s.proc) f ∧
      ((s.file f).ref = 0 ↔ (s.file f).type = .none)) ∧
    (∀ pi w, (s.pipe pi).isOpen w = true ↔ ∃! f, (s.file f).pipeEnd = some (pi, w)) ∧
    ∀ pi, (s.pipe pi).readopen = true ∨ (s.pipe pi).writeopen = true → pi ∉ s.mem.freelist ∧
      ∀ a s', s.Calls a → s.step b sb a = some s' →
        ¬((s'.pipe pi).readopen = true ∨ (s'.pipe pi).writeopen = true) → pi ∈ s'.mem.freelist := by
  obtain ⟨P, hk⟩ := h.kinv
  refine ⟨fun f => ⟨(hk.file.ref f).trans (Nat.add_zero _), hk.file.idle f, fun ht => ?_⟩,
    fun pi w => hk.pipe.own.used_iff (pi, w), fun pi hpi =>
      ⟨fun hfree => ?_, fun a s' hl hs hpi' => ?_⟩⟩
  · exact (hk.file.typed f ht).resolve_left (Finset.notMem_empty f)
  · have hown := hk.mem.own
    have hnd := b.managed.nodup
    rw [Owns] at hown
    rw [← hown] at hnd
    refine Multiset.disjoint_left.1 (Multiset.nodup_add.1 hnd).2.2 hfree ?_
    exact Multiset.mem_add.2 (.inr (Multiset.mem_add.2 (.inl ((hk.pipe.pages pi).2 hpi))))
  · obtain ⟨P', hk', hclosed⟩ := hk.step inv_rules hl hs
    exact hclosed pi ((hk.pipe.pages pi).2 hpi) fun hin => hpi' ((hk'.pipe.pages pi).1 hin)

theorem open_files_counted_busy : ∃ s, FromBoot tinyBoard mkfsSb 0 s ∧
    ∀ f, (s.file f).ref = owners (slots s.proc) f := by
  obtain ⟨s, h, -⟩ := exists_busy
  exact ⟨s, h, fun f => ((open_files_counted h).1 f).1⟩

/-! ### The inode cache -/

/-- **The inode cache is coherent.**  An entry that is in use and has been read is the inode on the
disk, and that inode is allocated.  The entry of an inode that a descriptor can write is in use, has
been read, and is no directory. -/
theorem inode_cache_coherent (h : FromBoot b sb K s) (ip : Ip) :
    (0 < (s.fs.inode ip).ref → (s.fs.inode ip).valid = true →
      (s.fs.inode ip).toDinode = dinodeAt sb s.fs.blocks (s.fs.inode ip).inum ∧
        (s.fs.inode ip).type ≠ 0) ∧
    ∀ p fd f, (s.proc p).ofile fd = some f → (s.file f).pin = some ip →
      0 < (s.fs.inode ip).ref ∧ (s.fs.inode ip).valid = true ∧ (s.fs.inode ip).type ≠ T_DIR := by
  obtain ⟨P, hk⟩ := h.kinv
  obtain ⟨T, ⟨hd, hc⟩, -⟩ := hk.fs
  have hent := hc.entry ip
  rw [hent.ref]
  refine ⟨fun hr hv => ?_, fun p fd f _ hpin => hent.pin (mem_pins.2 ⟨f, hpin⟩)⟩
  obtain ⟨heq, ht⟩ := hent.sync ⟨_, (hent.num hr).2⟩ hr rfl hv
  refine ⟨heq.trans (hd.disk _ (Set.notMem_empty _)).symm, ?_⟩
  rwa [← heq] at ht

theorem inode_cache_coherent_busy : ∃ s, FromBoot tinyBoard mkfsSb 0 s ∧
    (s.fs.inode 1).toDinode = dinodeAt mkfsSb s.fs.blocks (s.fs.inode 1).inum ∧
    (s.fs.inode 1).type ≠ T_DIR := by
  obtain ⟨s, h, -, -, hfd, hpin⟩ := exists_busy
  obtain ⟨hsync, hwrite⟩ := inode_cache_coherent h 1
  obtain ⟨hr, hv, ht⟩ := hwrite 1 0 0 hfd hpin
  exact ⟨s, h, (hsync hr hv).1, ht⟩

/-! ### How a call ends -/

/-- **A call returns, or stops for a reason that exact bookkeeping does not rule out.**  It follows
no null pointer, and reaches no panic of the allocator, of the page tables or of `kernel/file.c`,
nor those of `bfree`, `bmap` and `iunlock`, nor that of `ilock` for an entry without a reference.
The panic of `ilock` for an inode without a type is not ruled out: a directory may name a free
inode. -/
theorem call_ends (h : FromBoot b sb K s) (p : Pp) (hl : (s.proc p).Live) (c : Call) :
    (∃ r s', (c.run b sb p).run s = .ok (r, s') ∧ FromBoot b sb K s') ∨
    ∃ e, (c.run b sb p).run s = .error e ∧ Tolerated e := by
  obtain ⟨P, hk⟩ := h.kinv
  cases hrun : (c.run b sb p).run s with
  | error e => exact .inr ⟨e, rfl, hk.stops inv_rules hl hrun⟩
  | ok x => exact .inl ⟨x.1, x.2, rfl, h.call hl hrun⟩

theorem call_ends_busy : ∃ s, FromBoot tinyBoard mkfsSb 0 s ∧ (s.proc 1).Live ∧
    ((∃ r s', (Call.fork.run tinyBoard mkfsSb 1).run s = .ok (r, s') ∧
      FromBoot tinyBoard mkfsSb 0 s') ∨
    ∃ e, (Call.fork.run tinyBoard mkfsSb 1).run s = .error e ∧ Tolerated e) := by
  obtain ⟨s, h, -, hl, -⟩ := exists_busy
  exact ⟨s, h, hl, call_ends h 1 hl .fork⟩

/-! ### From boot to boot -/

/-- The machine is booted from `blocks` and switched off between two calls, with `blocks'` on the
disk. -/
def Session (b : Board) (sb : Superblock) (blocks blocks' : Disk) : Prop :=
  ∃ K s, FromDisk b sb K blocks s ∧ s.fs.blocks = blocks'

/-- **The disk is in order after any number of boots**, and with it all that holds between calls. -/
theorem sessions_keep_disk_consistent {blocks blocks' : Disk} (himg : Consistent sb blocks)
    (h : Relation.ReflTransGen (Session b sb) blocks blocks') :
    Consistent sb blocks' ∧ ∀ K s, FromDisk b sb K blocks' s → ∃ P, KInv b (Inv sb) K P s := by
  have hcons : Consistent sb blocks' := by
    induction h with
    | refl => exact himg
    | tail _ hs ih =>
      obtain ⟨K, s, hs, rfl⟩ := hs
      obtain ⟨P, hk⟩ := FromBoot.kinv ⟨_, ih, hs⟩
      exact hk.fs.consistent
  exact ⟨hcons, fun K s hs => FromBoot.kinv ⟨_, hcons, hs⟩⟩

theorem sessions_keep_disk_consistent_busy : ∃ blocks', Consistent mkfsSb mkfsImage ∧
    Session tinyBoard mkfsSb mkfsImage blocks' ∧ Consistent mkfsSb blocks' := by
  obtain ⟨s₀, s, hboot, hreach, -⟩ := exists_after_boot mkfsImage busyRun (fun _ => True)
    (by decide +kernel)
  have hs : Session tinyBoard mkfsSb mkfsImage s.fs.blocks :=
    ⟨0, s, ⟨tinyMem, s₀, tinyMem_owns, by decide, hboot, hreach⟩, rfl⟩
  exact ⟨_, mkfsImage_consistent, hs,
    (sessions_keep_disk_consistent mkfsImage_consistent (.single hs)).1⟩

end Xv6
