/-
# What `sbrk` reports

`growproc` adds a signed number to a 32-bit copy of the size of the process.  RAM is so small that a
sum of a size and a positive `int` does not wrap around.  So what it reports is what it did, exactly
if the new size is not negative: to shrink by more than there is always reports success.
-/

import Xv6.Kernel.Disk

namespace Xv6

open Lib Function

variable {b : Board} {H : Multiset ℕ} {s : Kernel} {p : Pp} {root tf : ℕ} {m m₁ : Mem}

/-- A call of `growproc(n)` for a process of `sz` bytes returned `r`, and left `new` bytes and the
memory `m₁`. -/
structure Resized (root sz : ℕ) (n : ℤ) (m : Mem) (r : ℤ) (new : ℕ) (m₁ : Mem) : Prop where
  ret : r = 0 ∨ r = -1
  size : r = 0 → (new : ℤ) = sz + n
  content : r = 0 → ∀ va < min sz new, m₁.user root (va / PGSIZE) = m.user root (va / PGSIZE)
  zero : r = 0 → ∀ v, ¬PteValid (m.entry root 2 v) → PteValid (m₁.entry root 2 v) →
    (m₁.user root v).2 = memset 0
  fail : r = -1 → new = sz ∧ (∀ v, m₁.entry root 2 v = m.entry root 2 v) ∧
    ∀ va < sz, m₁.user root (va / PGSIZE) = m.user root (va / PGSIZE)

theorem div_lt_npages (h : va < sz) : va / PGSIZE < npages sz := by
  simp only [npages, PGSIZE]
  omega

theorem SameUser.entry_eq (hu : SameUser root npg m m₁) (h : IsSpace b m root tf npg)
    (h₁ : IsSpace b m₁ root tf npg) (v : ℕ) : m₁.entry root 2 v = m.entry root 2 v := by
  by_cases hv : v < npg
  · exact hu.entry v hv
  · rw [h₁.shape.top v (Nat.not_lt.1 hv), h.shape.top v (Nat.not_lt.1 hv)]

theorem NewPages.contents_eq_zero (hn : NewPages m₁ root old new) (h : IsSpace b m root tf old)
    (h₁ : IsSpace b m₁ root tf new) (hv : ¬PteValid (m.entry root 2 v))
    (hv₁ : PteValid (m₁.entry root 2 v)) : (m₁.user root v).2 = memset 0 := by
  have hold : old ≤ v := by
    by_contra hlt
    exact hv (h.shape.user v (Nat.not_le.1 hlt)).1
  have hnew : v < new := by
    by_contra hge
    rw [h₁.shape.top v (Nat.not_lt.1 hge)] at hv₁
    rw [h.shape.top v hold] at hv
    exact hv hv₁
  rw [hn v hold hnew]

theorem Grown.resized (hg : Grown sz n root m r new m₁) (hn : n < 2 ^ 31) (hfit : 0 ≤ sz + n)
    (h : IsSpace b m root tf (npages sz)) (h₁ : IsSpace b m₁ root tf (npages new)) :
    Resized root sz n m r new m₁ where
  ret := hg.ret
  size := hg.ok hfit hn
  content _ va hva := hg.user.user (lt_min (div_lt_npages (hva.trans_le (min_le_left ..)))
    (div_lt_npages (hva.trans_le (min_le_right ..))))
  zero _ v hv hv₁ := hg.fresh.contents_eq_zero h h₁ hv hv₁
  fail hr := by
    obtain rfl := hg.fail hr
    have hu := hg.user
    rw [min_self] at hu
    exact ⟨rfl, hu.entry_eq h h₁, fun va hva => hu.user (div_lt_npages hva)⟩

/-- No size is the negative one that was asked for, and a request to shrink is never refused. -/
theorem Grown.not_resized (hg : Grown sz n root m r new m₁) (hneg : sz + n < 0) :
    ¬Resized root sz n m r new m₁ := fun h => by
  have := h.size (hg.shrink (by omega))
  omega

/-- **`growproc` does what it reports** exactly if the new size would not be negative. -/
theorem growproc_does_what_it_reports (hm : MemInv b s.mem (images s.proc) H)
    (hr : (s.proc p).pagetable = some root) {n : ℤ} (hn : n < 2 ^ 31) :
    ∃ r s', (growproc b p n).run s = .ok (r, s') ∧ (∀ q, q ≠ p → s'.proc q = s.proc q) ∧
      (Resized root (s.proc p).sz n s.mem r (s'.proc p).sz s'.mem ↔ 0 ≤ (s.proc p).sz + n) := by
  obtain ⟨tf, ht, hsp⟩ := hm.ok p root hr
  refine exists_run_of_wp
    (hm.wp_growproc hr ht fun r sz m₁ hm₁ hg => ⟨fun q hq => update_of_ne hq _ _, ?_⟩)
  obtain ⟨tf', ht', hsp₁⟩ := hm₁.ok p root (by rw [update_self])
  simp only [update_self, Option.some.injEq] at ht' hsp₁ ⊢
  subst ht'
  refine ⟨fun h => ?_, fun hfit => hg.resized hn hfit hsp hsp₁⟩
  by_contra hneg
  exact hg.not_resized (not_le.1 hneg) h

theorem growproc_does_what_it_reports_boot :
    ∃ s₀ root, Boots tinyBoard mkfsSb mkfsImage tinyMem s₀ ∧ MemInv tinyBoard s₀.mem
    (images s₀.proc) 0 ∧ (s₀.proc firstProc).pagetable = some root ∧
    (s₀.proc firstProc).sz = PGSIZE ∧ ∃ r s', (growproc tinyBoard firstProc 1).run s₀ =
    .ok (r, s') ∧ (∀ q, q ≠ firstProc → s'.proc q = s₀.proc q) ∧
      (Resized root (s₀.proc firstProc).sz 1 s₀.mem r (s'.proc firstProc).sz s'.mem ↔
        0 ≤ (s₀.proc firstProc).sz + (1 : ℤ)) := by
  have hrun : wp (userinit tinyBoard mkfsSb) (fun _ => False) (fun _ s₀ =>
      (s₀.proc firstProc).pagetable.isSome = true ∧ (s₀.proc firstProc).sz = PGSIZE)
      (Kernel.start mkfsImage tinyMem) := by decide +kernel
  obtain ⟨⟨⟩, s₀, hboot, hroot, hsz⟩ := exists_run_of_wp hrun
  obtain ⟨root, hroot⟩ := Option.isSome_iff_exists.1 hroot
  have hm := (KInv.boot inv_rules mkfsImage_consistent.inv tinyMem_owns (by decide) hboot).mem
  exact ⟨s₀, root, hboot, hm, hroot, hsz, growproc_does_what_it_reports hm hroot (by norm_num)⟩

/-- **To shrink by more than there is reports success**: init has a page, asks for 4097 bytes less,
and still has the page when `growproc` returns 0. -/
theorem shrink_below_zero_reports_success : ∃ s₀ s', Boots tinyBoard mkfsSb mkfsImage tinyMem s₀ ∧
    (s₀.proc firstProc).sz = PGSIZE ∧ (growproc tinyBoard firstProc (-4097)).run s₀ = .ok (0, s') ∧
    (s'.proc firstProc).sz = PGSIZE := by
  have hrun : wp (userinit tinyBoard mkfsSb) (fun _ => False)
    (fun _ s₀ => (s₀.proc firstProc).sz = PGSIZE ∧
      wp (growproc tinyBoard firstProc (-4097)) (fun _ => False) (fun r s' => r = 0 ∧
        (s'.proc firstProc).sz = PGSIZE) s₀)
      (Kernel.start mkfsImage tinyMem) := by decide +kernel
  obtain ⟨⟨⟩, s₀, hboot, hsz, hgrow⟩ := exists_run_of_wp hrun
  obtain ⟨r, s', hgrow, rfl, hsz'⟩ := exists_run_of_wp hgrow
  exact ⟨s₀, s', hboot, hsz, hgrow, hsz'⟩

end Xv6
