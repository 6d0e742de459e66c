/-
# A page table is a map

`walk`, `mappages` and `uvmunmap` of `kernel/vm.c`, on any table in order (`TableOk`): three levels,
no page in it twice or on the free list.  What it means is the map `Mem.lookup` from virtual pages
to a physical page and flags.  `uvmunmap` refuses an entry whose only flag is `PTE_V`
(`unmap_refuses_no_perm`).
-/

import Xv6.Vm.Space

namespace Xv6

open Lib Function

variable {b : Board} {U F : Multiset ℕ} {m m₁ : Mem} {root : ℕ} {f : ℕ → ℕ} {E : Halt → Prop}

/-! ### The map of a table -/

/-- What the virtual page `v` is mapped to: a physical page, and the flags. -/
def Mem.lookup (m : Mem) (root v : ℕ) : Option (ℕ × ℕ) :=
  if PteValid (m.entry root 2 v) then some (ptePage (m.entry root 2 v),
    pteFlags (m.entry root 2 v)) else none

/-- A table in order: its directories hold valid pointers or zeroes, and its pages and the free ones
are different pages that the allocator manages. -/
structure TableOk (b : Board) (m : Mem) (root : ℕ) : Prop where
  dir : ∀ d < 2, ∀ v, m.entry root d v = 0 ∨ PteValid (m.entry root d v) ∧
    ¬PteLeaf (m.entry root d v)
  managed : Managed b ((m.freelist : Multiset ℕ) + tablePages m root)

theorem TableOk.pt (h : TableOk b m root) :
    PT ((m.freelist : Multiset ℕ) + tablePages m root) m root (m.entry root 2) 0 :=
  ⟨h.dir, fun _ => rfl, by rw [Owns, add_zero]⟩

theorem PT.tableOk (hU : Managed b U) (h : PT U m root f 0) : TableOk b m root := by
  refine ⟨h.dir, ?_⟩
  have hown := h.own
  rw [Owns, add_zero] at hown
  rwa [hown]

theorem PT.lookup (h : PT U m root f F) (v : ℕ) :
    m.lookup root v = if PteValid (f v) then some (ptePage (f v), pteFlags (f v)) else none := by
  rw [Mem.lookup, h.leaf]

/-- **`walk` finds what the map says.** -/
theorem walk_finds_lookup (m : Mem) (root va : ℕ) (hva : va < MAXVA) :
    ∃ r, (walk root va false).run m = .ok (r, m) ∧ m.lookup root (va / PGSIZE) = r.bind fun p =>
      if PteValid (m.pte p.1 p.2) then
        some (ptePage (m.pte p.1 p.2), pteFlags (m.pte p.1 p.2)) else none := by
  have hwalk : wp (walk root va false) (fun _ => False) (fun r m' => m' = m ∧
      m.lookup root (va / PGSIZE) = r.bind fun p =>
        if PteValid (m.pte p.1 p.2) then
          some (ptePage (m.pte p.1 p.2), pteFlags (m.pte p.1 p.2)) else none) m := by
    refine wp_walk_noalloc hva (fun x _ hpte => ⟨rfl, ?_⟩) fun h => ⟨rfl, ?_⟩
    · rw [Option.bind_some, hpte, Mem.lookup]
    · rw [Mem.lookup, h, if_neg (by decide), Option.bind_none]
  obtain ⟨r, m', hrun, rfl, hr⟩ := exists_run_of_wp hwalk
  exact ⟨r, hrun, hr⟩

/-- The first entry of every page is valid and points to page 0. -/
def loopMem : Mem where
  page _ := (memset 0).setField 8 0 PTE_V
  freelist := []

theorem walk_finds_lookup_loop : (walk 0 0 false).run loopMem = .ok (some (0, 0), loopMem) ∧
    loopMem.lookup 0 0 = some (0, PTE_V) := by
  have hwalk : wp (walk 0 0 false) (fun _ => False) (fun r _ => r = some (0, 0)) loopMem := by
    decide +kernel
  obtain ⟨r, hrun, hlookup⟩ := walk_finds_lookup loopMem 0 0 (by decide)
  obtain rfl : r = some (0, 0) := (wp_of_run_ok hrun).1 hwalk
  have hpte : loopMem.pte 0 0 = PTE_V := by decide +kernel
  rw [Option.bind_some, hpte] at hlookup
  exact ⟨hrun, hlookup⟩

/-! ### `mappages` -/

/-- The map with `n` pages from `pa` on entered at `a`. -/
def mapRange (f : ℕ → ℕ) (a n pa perm v : ℕ) : ℕ :=
  if a ≤ v ∧ v < a + n then mkPte (pa + (v - a)) perm else f v

theorem mapRange_zero (f : ℕ → ℕ) (a pa perm : ℕ) : mapRange f a 0 pa perm = f := by
  funext v
  exact if_neg (by omega)

theorem mapRange_succ (f : ℕ → ℕ) (a n pa perm : ℕ) :
    mapRange (update f a (mkPte pa perm)) (a + 1) n (pa + 1) perm = mapRange f a
    (n + 1) pa perm := by
  funext v
  rw [mapRange, mapRange]
  by_cases hv : v = a
  · subst hv
    rw [if_neg (by omega), if_pos (by omega), update_self, Nat.sub_self, Nat.add_zero]
  · rw [update_of_ne hv]
    by_cases hin : a ≤ v ∧ v < a + (n + 1)
    · rw [if_pos hin, if_pos (by omega), show pa + 1 + (v - (a + 1)) = pa + (v - a) by omega]
    · rw [if_neg hin, if_neg (by omega)]

/-- **The loop of `mappages`** enters its pages, or those before the one for which there is no
memory. -/
theorem wp_mappagesFrom (hU : Managed b U)
    (h : PT U m root f F) (hmax : (v + n) * PGSIZE < MAXVA)
    (hf : ∀ u, v ≤ u → u ≤ v + n → ¬PteValid (f u)) (hpa : pa + n < 2 ^ 52) (hperm : perm < 1024)
    (hfail : ∀ j ≤ n, ∀ m₁, PT U m₁ root (mapRange f v j pa perm) F → Same F m m₁ →
      m₁.freelist = [] → Q (-1) m₁)
    (hok : ∀ m₁, PT U m₁ root (mapRange f v (n + 1) pa perm) F → Same F m m₁ → Q 0 m₁) :
    wp (mappagesFrom root perm n (v * PGSIZE) pa) E Q m := by
  have hv : v * PGSIZE < MAXVA := (Nat.mul_le_mul_right _ (Nat.le_add_right v n)).trans_lt hmax
  have hnone : ∀ m₁, PT U m₁ root f F → Same F m m₁ → m₁.freelist = [] → Q (-1) m₁ :=
    fun m₁ h₁ hs hnil => hfail 0 (Nat.zero_le n) m₁ (by rwa [mapRange_zero]) hs hnil
  induction n generalizing v pa m f with
  | zero =>
    simp only [mappagesFrom, wp_bind]
    refine wp_mapPage hU h hv (hf v le_rfl le_rfl) (by omega) hperm (fun m₁ h₁ hs _ hnil => ?_)
      fun m₁ h₁ hs _ => ?_
    · simpa using hnone m₁ h₁ hs hnil
    · have hdone := hok m₁ (by rwa [← mapRange_succ, mapRange_zero]) hs
      simpa using hdone
  | succ n ih =>
    simp only [mappagesFrom, wp_bind]
    refine wp_mapPage hU h hv (hf v le_rfl (Nat.le_add_right ..)) (by omega) hperm
      (fun m₁ h₁ hs _ hnil => ?_) fun m₁ h₁ hs _ => ?_
    · simpa using hnone m₁ h₁ hs hnil
    have hnext : v * PGSIZE + PGSIZE = (v + 1) * PGSIZE := by rw [Nat.add_mul, Nat.one_mul]
    have hrest : wp (mappagesFrom root perm n ((v + 1) * PGSIZE) (pa + 1)) E Q m₁ := by
      have hadd : v + 1 + n = v + (n + 1) := by omega
      have hmax' : (v + 1 + n) * PGSIZE < MAXVA := hadd ▸ hmax
      have hfail' :
        ∀ j ≤ n, ∀ m₂, PT U m₂ root (mapRange (update f v (mkPte pa perm)) (v + 1) j
        (pa + 1) perm) F → Same F m₁ m₂ → m₂.freelist = [] → Q (-1) m₂ := by
        intro j hj m₂ h₂ hs₂ hnil
        rw [mapRange_succ] at h₂
        exact hfail (j + 1) (by omega) m₂ h₂ (hs.trans hs₂) hnil
      refine ih h₁ hmax' (fun u hu hu' => ?_) (by omega) hfail' (fun m₂ h₂ hs₂ => ?_) ?_ ?_
      · rw [update_of_ne (by omega)]
        exact hf u (by omega) (by omega)
      · rw [mapRange_succ] at h₂
        exact hok m₂ h₂ (hs.trans hs₂)
      · exact (Nat.mul_le_mul_right _ (Nat.le_add_right (v + 1) n)).trans_lt hmax'
      · exact fun m₂ h₂ hs₂ hnil => hfail' 0 (Nat.zero_le n) m₂ (by rwa [mapRange_zero]) hs₂ hnil
    simpa [hnext] using hrest

theorem mappages_eq (root va size pa perm : ℕ) : mappages root va size pa perm =
    mappagesFrom root perm ((va + size - 1) / PGSIZE - va / PGSIZE) (va / PGSIZE * PGSIZE) pa := by
  have hdiv : ((va + size - 1) / PGSIZE * PGSIZE - va / PGSIZE * PGSIZE) / PGSIZE =
      (va + size - 1) / PGSIZE - va / PGSIZE := by
    rw [← Nat.sub_mul, Nat.mul_div_cancel _ (by decide)]
  rw [mappages, pgrounddown, pgrounddown, hdiv]

theorem lookup_mapRange (h : PT U m₁ root (mapRange (m.entry root 2) a n pa perm) F)
    (hpa : pa + n ≤ 2 ^ 52) (hperm : perm < 1024) (v : ℕ) : m₁.lookup root v =
      if a ≤ v ∧ v < a + n then some (pa + (v - a), perm ||| PTE_V) else m.lookup root v := by
  rw [h.lookup, mapRange]
  split_ifs with hin hvalid hvalid
  · have hlt : pa + (v - a) < 2 ^ 52 := by omega
    rw [ptePage_mkPte hlt hperm, pteFlags, mkPte_mod hlt hperm]
  · exact absurd (mkPte_valid (by omega) hperm) hvalid
  · rw [Mem.lookup, if_pos hvalid]
  · rw [Mem.lookup, if_neg hvalid]

theorem lookup_clear (h : PT U m₁ root (clear (m.entry root 2) a e) F) (v : ℕ) :
    m₁.lookup root v = if a ≤ v ∧ v < e then none else m.lookup root v := by
  rw [h.lookup, clear]
  split_ifs with hin hvalid hvalid
  · exact absurd hvalid (by decide)
  · rfl
  · rw [Mem.lookup, if_pos hvalid]
  · rw [Mem.lookup, if_neg hvalid]

structure MappedPages (b : Board) (root va size pa perm : ℕ) (m : Mem) (r : ℤ) (m₁ : Mem) :
    Prop where
  ok : TableOk b m₁ root
  ret : r = 0 ∨ r = -1
  entered : r = 0 → ∀ v, m₁.lookup root v = if va / PGSIZE ≤ v ∧ v ≤ (va + size - 1) / PGSIZE then
    some (pa + (v - va / PGSIZE), perm ||| PTE_V) else m.lookup root v
  failed : r = -1 → m₁.freelist = []
  one : r = -1 → va / PGSIZE = (va + size - 1) / PGSIZE → ∀ v, m₁.lookup root v = m.lookup root v

theorem TableOk.wp_mappages (h : TableOk b m root) (hsize : 0 < size)
    (hmax : va + size ≤ MAXVA) (hpa : pa * PGSIZE + size < 2 ^ 56) (hperm : perm < 1024)
    (hnone : ∀ v, va / PGSIZE ≤ v → v ≤ (va + size - 1) / PGSIZE → m.lookup root v = none) :
    wp (mappages root va size pa perm) E (MappedPages b root va size pa perm m) m := by
  have hle : va / PGSIZE ≤ (va + size - 1) / PGSIZE := Nat.div_le_div_right (by omega)
  have hsum : va / PGSIZE + ((va + size - 1) / PGSIZE - va / PGSIZE) = (va + size - 1) /
      PGSIZE := by omega
  have hbound : pa + ((va + size - 1) / PGSIZE - va / PGSIZE) + 1 ≤ 2 ^ 52 := by
    simp only [PGSIZE] at *
    omega
  rw [mappages_eq]
  refine wp_mappagesFrom h.managed h.pt ?_ (fun u hu hu' hvalid => ?_) (by omega) hperm
    (fun j hj m₁ h₁ _ hnil => ?_) fun m₁ h₁ _ => ?_
  · rw [hsum]
    exact (Nat.div_mul_le_self ..).trans_lt ((Nat.sub_lt (by omega) Nat.one_pos).trans_le hmax)
  · have hlook := hnone u hu (by omega)
    rw [Mem.lookup, if_pos hvalid] at hlook
    cases hlook
  · refine ⟨h₁.tableOk h.managed, .inr rfl, fun h0 => absurd h0 (by decide), fun _ => hnil,
      fun _ hone v => ?_⟩
    rw [lookup_mapRange h₁ (by omega) hperm, if_neg (by omega)]
  · refine ⟨h₁.tableOk h.managed, .inl rfl, fun _ v => ?_, fun h1 => absurd h1 (by decide),
      fun h1 => absurd h1 (by decide)⟩
    rw [lookup_mapRange h₁ (by omega) hperm]
    exact if_congr (by omega) rfl rfl

/-- **A page table is a map, and its update a map update.**  On a table in order, `mappages` of a
range without mapped pages enters its pages and changes no other; it fails only without a free page,
and then a call for one page has changed nothing.  `uvmunmap` takes its pages out and changes no
other; with `do_free` the physical pages have to be different pages of the allocator, in use and not
in the table. -/
theorem page_table_is_map (b : Board) (m : Mem) (root : ℕ) (h : TableOk b m root) :
    (∀ va size pa perm, 0 < size → va + size ≤ MAXVA → pa * PGSIZE + size < 2 ^ 56 → perm < 1024 →
      (∀ v, va / PGSIZE ≤ v → v ≤ (va + size - 1) / PGSIZE → m.lookup root v = none) →
      ∃ r m₁, (mappages root va size pa perm).run m = .ok (r, m₁) ∧
      MappedPages b root va size pa perm m r m₁) ∧
    ∀ a n, (a + n) * PGSIZE ≤ MAXVA → (∀ v, a ≤ v → v < a + n → Unmaps (m.entry root 2 v)) →
    ∀ doFree : Bool,
      (doFree = true →
      Managed b
      ((m.freelist : Multiset ℕ) + (tablePages m root + frames (m.entry root 2) a (a + n)))) →
      ∃ m₁, (uvmunmap b root (a * PGSIZE) n doFree).run m = .ok (⟨⟩, m₁) ∧ TableOk b m₁ root ∧
        ∀ v, m₁.lookup root v = if a ≤ v ∧ v < a + n then none else m.lookup root v := by
  constructor
  · intro va size pa perm hsize hmax hpa hperm hnone
    exact exists_run_of_wp (h.wp_mappages hsize hmax hpa hperm hnone)
  intro a n hmax hmapped doFree hfree
  have hrun : wp (uvmunmap b root (a * PGSIZE) n doFree) (fun _ => False)
    (fun _ m₁ => TableOk b m₁ root ∧
      ∀ v, m₁.lookup root v = if a ≤ v ∧ v < a + n then none else m.lookup root v) m := by
    cases doFree with
    | false =>
      exact wp_uvmunmap_nofree h.managed hmax hmapped h.pt fun m₁ h₁ _ =>
        ⟨h₁.tableOk h.managed, lookup_clear h₁⟩
    | true =>
      have hpt :
        PT ((m.freelist : Multiset ℕ) + (tablePages m root + frames (m.entry root 2) a (a + n))) m
        root
          (m.entry root 2) (frames (m.entry root 2) a (a + n) + 0) :=
          ⟨h.dir, fun _ => rfl, by rw [Owns, add_zero]⟩
      exact wp_uvmunmap (hfree rfl) hmax hmapped hpt fun m₁ h₁ _ =>
        ⟨h₁.tableOk (hfree rfl), lookup_clear h₁⟩
  obtain ⟨_, m₁, hrun, hres⟩ := exists_run_of_wp hrun
  exact ⟨m₁, hrun, hres⟩

/-! ### A table without entries -/

def emptyRoot : ℕ := PHYSTOP / PGSIZE - 3

/-- The page of the root, and two free ones. -/
def emptyMem : Mem where
  page _ := memset 0
  freelist := [PHYSTOP / PGSIZE - 1, PHYSTOP / PGSIZE - 2]

theorem pte_emptyMem (i : ℕ) : emptyMem.pte emptyRoot i = 0 := pte_memset_zero rfl

theorem emptyMem_ok : TableOk tinyBoard emptyMem emptyRoot := by
  refine ⟨fun d _ v => .inl (entry_of_empty (fun i _ => pte_emptyMem i) d v), ?_⟩
  rw [tablePages_of_empty fun i _ => pte_emptyMem i]
  exact ⟨by decide, by decide⟩

/-- Page 7 is entered at address 0 and taken out again. -/
theorem page_table_is_map_first :
    ∃ m₁ m₂, (mappages emptyRoot 0 PGSIZE 7 PTE_R).run emptyMem = .ok (0, m₁) ∧
    m₁.lookup emptyRoot 0 = some (7, PTE_R ||| PTE_V) ∧
    (uvmunmap tinyBoard emptyRoot 0 1 false).run m₁ = .ok (⟨⟩, m₂) ∧
    m₂.lookup emptyRoot 0 = none := by
  obtain ⟨r, m₁, hrun, hmapped⟩ :=
    (page_table_is_map tinyBoard emptyMem emptyRoot emptyMem_ok).1 0 PGSIZE 7 PTE_R (by decide)
      (by decide) (by decide) (by decide) fun v _ _ => by
      rw [Mem.lookup, entry_of_empty fun i _ => pte_emptyMem i, if_neg (by decide)]
  have hzero : wp (mappages emptyRoot 0 PGSIZE 7 PTE_R) (fun _ => False)
      (fun r _ => r = 0) emptyMem := by decide +kernel
  obtain rfl : r = 0 := (wp_of_run_ok hrun).1 hzero
  have hlookup := hmapped.entered rfl 0
  rw [if_pos (by decide)] at hlookup
  have hentry : Unmaps (m₁.entry emptyRoot 2 0) := by
    rw [Mem.lookup] at hlookup
    split_ifs at hlookup with hvalid
    obtain ⟨-, hperm⟩ := Prod.mk.inj (Option.some.inj hlookup)
    rw [Unmaps, hperm]
    exact ⟨hvalid, by decide⟩
  obtain ⟨m₂, hunmap, -, hgone⟩ := (page_table_is_map tinyBoard m₁ emptyRoot hmapped.ok).2 0 1
    (by decide) (fun v _ hv => Nat.lt_one_iff.1 hv ▸ hentry) false Bool.noConfusion
  exact ⟨m₁, m₂, hrun, hlookup, hunmap, (hgone 0).trans (if_pos (by decide))⟩

/-- **A page mapped without permissions cannot be unmapped**: its only flag is `PTE_V`, which
`uvmunmap` takes for the sign of a directory. -/
theorem unmap_refuses_no_perm : ∃ m₁, (mappages emptyRoot 0 PGSIZE 7 0).run emptyMem = .ok (0, m₁) ∧
    m₁.lookup emptyRoot 0 = some (7, PTE_V) ∧
    (uvmunmap tinyBoard emptyRoot 0 1 false).run m₁ = .error (.panic .uvmunmapNotLeaf) := by
  have hrun : wp (mappages emptyRoot 0 PGSIZE 7 0) (fun _ => False) (fun r m₁ => r = 0 ∧
      m₁.lookup emptyRoot 0 = some (7, PTE_V) ∧
      wp (uvmunmap tinyBoard emptyRoot 0 1 false) (fun e => e = .panic .uvmunmapNotLeaf)
        (fun _ _ => False) m₁)
      emptyMem := by decide +kernel
  obtain ⟨r, m₁, hrun, rfl, hlookup, hstop⟩ := exists_run_of_wp hrun
  exact ⟨m₁, hrun, hlookup, run_error_of_wp hstop⟩

end Xv6
