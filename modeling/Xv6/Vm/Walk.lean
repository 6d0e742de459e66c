/-
# Page tables as maps

`PT U m root f F` says that the page table at `root` maps each virtual page `v` to the entry `f v`,
and that the managed pages `U` are the free ones, those of the table, and the rest `F`, each once.
`mappages` and `uvmunmap` are updates of `f`, and leave the contents of the pages in `F` alone.
-/

import Xv6.Vm.Table

namespace Xv6

open Lib Function

/-! ### Arithmetic of entries -/

theorem Board.Manages.lt {b : Board} {pa : ℕ} (h : b.Manages pa) : pa < 2 ^ 20 := by
  have := h.2
  simp only [PGSIZE, PHYSTOP, KERNBASE] at this
  omega

theorem Board.trampoline_lt_phystop (b : Board) {pa : ℕ} (h : b.Manages pa) :
    b.trampoline < 2 ^ 20 := by
  have h₁ := b.trampoline_lt
  have h₂ := h.1
  have h₃ := h.2
  simp only [PGSIZE, PHYSTOP, KERNBASE] at *
  omega

theorem or_valid_lt {perm : ℕ} (h : perm < 1024) : perm ||| PTE_V < 1024 :=
  Nat.or_lt_two_pow (n := 10) h (by decide)

section

variable {pa perm : ℕ} (hpa : pa < 2 ^ 52) {m₂ : Mem} {G : Multiset ℕ} {d v va x : ℕ}
  {Q : Option (ℕ × ℕ) → Mem → Prop}

include hpa

theorem mkPte_eq (perm : ℕ) : mkPte pa perm = pa * 1024 + (perm ||| PTE_V) := by
  rw [mkPte, Nat.mod_eq_of_lt]
  omega

variable (hperm : perm < 1024)

include hperm

theorem mkPte_lt : mkPte pa perm < 256 ^ 8 := by
  have h := or_valid_lt hperm
  have h₈ : (256 : ℕ) ^ 8 = 2 ^ 64 := by norm_num
  rw [mkPte_eq hpa, h₈]
  omega

theorem ptePage_mkPte : ptePage (mkPte pa perm) = pa := by
  have := or_valid_lt hperm
  rw [ptePage, mkPte_eq hpa]
  omega

theorem mkPte_mod : mkPte pa perm % 1024 = perm ||| PTE_V := by
  have := or_valid_lt hperm
  rw [mkPte_eq hpa]
  omega

theorem mkPte_valid : PteValid (mkPte pa perm) := by
  have h₁ := mkPte_mod hpa hperm
  have h₂ : (perm ||| PTE_V) % 2 = 1 := Nat.or_mod_two_eq_one.2 (.inr rfl)
  rw [PteValid]
  omega

theorem mkPte_leaf_iff : PteLeaf (mkPte pa perm) ↔ PteLeaf perm := by
  have h₁ := mkPte_mod hpa hperm
  have h₂ : (perm ||| PTE_V) / 2 = perm / 2 := by
    rw [Nat.or_div_two]
    exact Nat.or_zero _
  rw [PteLeaf, PteLeaf, ← h₂, ← h₁]
  omega

end

/-! ### Ownership of memory -/

variable {b : Board} {U F : Multiset ℕ} {m m₁ : Mem} {root : ℕ} {f : ℕ → ℕ}

def tablePages (m : Mem) (root : ℕ) : Multiset ℕ := sv39.pages m.pte root 3

/-- The managed pages are the free ones and `F`. -/
def Owns (U : Multiset ℕ) (m : Mem) (F : Multiset ℕ) : Prop := (m.freelist : Multiset ℕ) + F = U

/-- The pages of `F` have the same contents. -/
def Same (F : Multiset ℕ) (m m₁ : Mem) : Prop := ∀ x ∈ F, m₁.page x = m.page x

theorem Same.refl : Same F m m := fun _ _ => rfl

theorem Same.trans (h : Same F m m₁) (h' : Same F m₁ m₂) : Same F m m₂ := fun x hx =>
  (h' x hx).trans (h x hx)

theorem Same.mono (h : Same F m m₁) (hG : G ≤ F) : Same G m m₁ := fun x hx =>
  h x (Multiset.mem_of_le hG hx)

theorem Same.setPage (hx : x ∉ F) (pg : Page) : Same F m (m.setPage x pg) := fun y hy => by
  have hyx : y ≠ x := fun he => hx (he ▸ hy)
  exact update_of_ne hyx _ _

/-- The managed pages are different from each other, and the allocator manages them. -/
structure Managed (b : Board) (U : Multiset ℕ) : Prop where
  nodup : U.Nodup
  manages : ∀ x ∈ U, b.Manages x

theorem Managed.not_mem (hU : Managed b U) (h : Owns U m (x ::ₘ F)) : x ∉ F := by
  have hn := hU.nodup
  rw [← h, Multiset.add_cons] at hn
  intro hx
  exact (Multiset.nodup_cons.1 hn).1 (Multiset.mem_add.2 (.inr hx))

theorem Owns.mem (h : Owns U m F) (hx : x ∈ F) : x ∈ U := by
  rw [← h]
  exact Multiset.mem_add.2 (.inr hx)

theorem Owns.nodup (hU : Managed b U) (h : Owns U m F) : F.Nodup :=
  Multiset.nodup_of_le (by rw [← h]; exact le_add_self) hU.nodup

variable {E : Halt → Prop}

/-- **`kalloc`** moves a page from the free list into the hand. -/
theorem wp_kalloc {Q : Option ℕ → Mem → Prop} (hU : Managed b U) (h : Owns U m F)
    (hnone : m.freelist = [] → Q none m)
    (hsome : ∀ r m₁, Owns U m₁ (r ::ₘ F) → Same F m m₁ →
      m.freelist.length = m₁.freelist.length + 1 → Q (some r) m₁) :
    wp kalloc E Q m := by
  simp only [kalloc, wp_bind, wp_get]
  cases hl : m.freelist with
  | nil => exact wp_pure.2 (hnone hl)
  | cons r next =>
    simp only [wp_bind, wp_set, wp_pure]
    have hown : Owns U { m.setPage r (memset 5) with freelist := next } (r ::ₘ F) := by
      rw [Owns, ← h, hl, ← Multiset.cons_coe, Multiset.cons_add, Multiset.add_cons]
    exact hsome r _ hown (Same.setPage (hU.not_mem hown) _) (congrArg List.length hl)

/-- **`kfree`** moves it back. -/
theorem wp_kfree {Q : PUnit → Mem → Prop} (hU : Managed b U) (h : Owns U m (x ::ₘ F))
    (hQ : ∀ m₁, Owns U m₁ F → Same F m m₁ → Q ⟨⟩ m₁) : wp (kfree b x) E Q m := by
  have hx := hU.manages x (h.mem (Multiset.mem_cons_self ..))
  simp only [kfree, wp_ite, wp_modify, wp_throw]
  refine ⟨fun _ => hQ _ ?_ (Same.setPage (hU.not_mem h) _), fun hn => absurd hx hn⟩
  rw [Owns, ← h, ← Multiset.cons_coe, Multiset.cons_add, Multiset.add_cons]

/-! ### One page table -/

theorem Mem.pte_congr (h : m₁.page x = m.page x) : m₁.pte x = m.pte x := by
  funext i
  rw [Mem.pte, Mem.pte, h]

theorem entry_congr (hd : d < 3) (h : Same (tablePages m root) m m₁) (v : ℕ) :
    m₁.entry root d v = m.entry root d v :=
  Radix.entry_congr fun _ he _ _ hx => Mem.pte_congr (h _ (Radix.mem_pages (he.trans_lt hd) hx))

theorem node_congr (hd : d ≤ 3) (h : Same (tablePages m root) m m₁) (w : ℕ) :
    sv39.node m₁.pte root d w = sv39.node m.pte root d w :=
  Radix.node_congr fun _ he _ _ hx => Mem.pte_congr (h _ (Radix.mem_pages (he.trans_le hd) hx))

theorem tablePages_congr (h : Same (tablePages m root) m m₁) :
    tablePages m₁ root = tablePages m root :=
  Radix.pages_congr fun x hx => Mem.pte_congr (h x hx)

/-- The table at `root` maps the virtual pages by `f`; the managed pages are the free
ones, those of the table, and `F`. -/
structure PT (U : Multiset ℕ) (m : Mem) (root : ℕ) (f : ℕ → ℕ) (F : Multiset ℕ) : Prop where
  dir : ∀ d < 2, ∀ v, m.entry root d v = 0 ∨ PteValid (m.entry root d v) ∧
    ¬PteLeaf (m.entry root d v)
  leaf : ∀ v, m.entry root 2 v = f v
  own : Owns U m (tablePages m root + F)

theorem PT.nodup (hU : Managed b U) (h : PT U m root f F) : (tablePages m root + F).Nodup :=
  h.own.nodup hU

theorem PT.table_nodup (hU : Managed b U) (h : PT U m root f F) : (tablePages m root).Nodup :=
  Multiset.nodup_of_le le_self_add (h.nodup hU)

theorem PT.not_mem_frame (hU : Managed b U) (h : PT U m root f F) (hx : x ∈ tablePages m root) :
    x ∉ F :=
  Multiset.disjoint_left.1 (Multiset.nodup_add.1 (h.nodup hU)).2.2 hx

theorem PT.congr (h : PT U m root f F) (hs : Same (tablePages m root) m m₁)
    (ho : Owns U m₁ (tablePages m root + G)) : PT U m₁ root f G where
  dir d hd v := by
    rw [entry_congr (by omega) hs]
    exact h.dir d hd v
  leaf v := by rw [entry_congr (by omega) hs, h.leaf]
  own := by rwa [tablePages_congr hs]

theorem node_eq_some (hd : d < 3) (h : sv39.node m.pte root d w = some x) :
    x ∈ tablePages m root := Radix.mem_pages hd h

theorem Mem.write_setPte {i pte w : ℕ} (hn : (tablePages m root).Nodup)
    (hx : sv39.node m.pte root d w = some x) (hd : d < 3) (hi : i < NPTE) (hp : pte < 256 ^ 8)
    (hempty : d < 2 → m.entry root d (w * NPTE + i) = 0)
    (hfresh : d < 2 → ∀ y, sv39.child pte = some y → (∀ j < NPTE, m.pte y j = 0) ∧
      y ∉ tablePages m root) :
    sv39.Write m.pte root 3 d w x i pte (m.setPte x i pte).pte where
  self := by
    simp only [Mem.pte, Mem.setPte, Mem.setPage, update_self]
    exact Bytes.field_setField 8 _ (by simp only [NPTE, PGSIZE] at *; omega) hp
  other j hj hne := by
    simp only [Mem.pte, Mem.setPte, Mem.setPage, update_self]
    exact Bytes.field_setField_of_disjoint 8 8 _ (by omega)
  page y hy := by
    refine Mem.pte_congr ?_
    simp only [Mem.setPte, Mem.setPage, update_of_ne hy]
  lt := hi
  depth := hd
  node := hx
  nodup := hn
  empty h := hempty (by omega)
  fresh h := hfresh (by omega)

/-- **A leaf entry is written**: the map changes at one virtual page. -/
theorem PT.set {pte : ℕ} (hU : Managed b U) (h : PT U m root f F)
    (hx : sv39.node m.pte root 2 (v / NPTE) = some x) (hp : pte < 256 ^ 8) :
    PT U (m.setPte x (v % NPTE) pte) root (update f v pte) F := by
  have hw := Mem.write_setPte (i := v % NPTE) (h.table_nodup hU) hx (by omega)
    (Nat.mod_lt _ (by decide)) hp (by omega) (by omega)
  have hv : v / NPTE * NPTE + v % NPTE = v := Nat.div_add_mod' ..
  refine ⟨fun d hd u => ?_, fun u => ?_, ?_⟩
  · have he := (hw.node_entry (show d < 3 by omega)).2 u
    rw [if_neg (by omega)] at he
    rw [Mem.entry, he]
    exact h.dir d hd u
  · have he := (hw.node_entry (show 2 < 3 by omega)).2 u
    simp only [true_and, sv39, hv] at he
    rw [Mem.entry, update_apply, ← h.leaf]
    exact he
  · have hpages : tablePages (m.setPte x (v % NPTE) pte) root = tablePages m root :=
      hw.pages_leaf rfl
    rw [Owns, hpages]
    exact h.own

/-! ### `walk` -/

theorem PX_eq (va level : ℕ) :
    va / PGSIZE / NPTE ^ (level + 1) * NPTE + PX level va = va / PGSIZE / NPTE ^ level := by
  rw [PX, pow_succ, ← Nat.div_div_eq_div_mul]
  exact Nat.div_add_mod' ..

theorem PX_lt (level va : ℕ) : PX level va < NPTE := Nat.mod_lt _ (by decide)

theorem entry_PX (hx : sv39.node m.pte root d (va / PGSIZE / NPTE ^ (level + 1)) = some x) :
    m.entry root d (va / PGSIZE / NPTE ^ level) = m.pte x (PX level va) := by
  have hdiv : va / PGSIZE / NPTE ^ level / NPTE = va / PGSIZE / NPTE ^ (level + 1) := by
    rw [pow_succ, Nat.div_div_eq_div_mul]
  exact Radix.entry_of_node (by rw [show sv39.B = NPTE from rfl, hdiv]; exact hx)

theorem node_of_entry (h : m.entry root d v = pte) (hv : PteValid pte) :
    sv39.node m.pte root (d + 1) v = some (ptePage pte) := by
  rw [Radix.node_succ]
  show sv39.child (m.entry root d v) = _
  rw [h]
  exact if_pos hv

theorem child_mkPte (hy : y < 2 ^ 52) : sv39.child (mkPte y 0) = some y := by
  have hv : PteValid (mkPte y 0) := mkPte_valid hy (by decide)
  have hp : ptePage (mkPte y 0) = y := ptePage_mkPte hy (by decide)
  show (if PteValid (mkPte y 0) then some (ptePage (mkPte y 0)) else none) = _
  rw [if_pos hv, hp]

theorem pte_memset_zero (h : m.page x = memset 0) : m.pte x i = 0 := by
  have hget : ∀ o, (memset 0).get o = 0 := by
    intro o
    unfold Bytes.get
    split_ifs <;> rfl
  simp [Mem.pte, h, Bytes.field, Bytes.read, hget, List.range_succ, ofLE]

/-- **A new table page is linked in**: the map stays. -/
theorem PT.link {w i y : ℕ} (hU : Managed b U) (h : PT U m root f (y ::ₘ F)) (hd : d < 2)
    (hx : sv39.node m.pte root d w = some x) (hi : i < NPTE)
    (hempty : m.entry root d (w * NPTE + i) = 0) (hz : m.page y = memset 0) :
    PT U (m.setPte x i (mkPte y 0)) root f F ∧ sv39.node (m.setPte x i (mkPte y 0)).pte root (d + 1)
    (w * NPTE + i) = some y := by
  have hlt : y < 2 ^ 52 :=
    (hU.manages y (h.own.mem (Multiset.mem_add.2 (.inr (Multiset.mem_cons_self ..))))).lt.trans
      (by decide)
  have hy : y ∉ tablePages m root := by
    have hn := h.nodup hU
    rw [Multiset.add_cons, Multiset.nodup_cons] at hn
    exact fun hm => hn.1 (Multiset.mem_add.2 (.inl hm))
  have hpte : mkPte y 0 < 256 ^ 8 := mkPte_lt hlt (by decide)
  have hw := Mem.write_setPte (h.table_nodup hU) hx (by omega) hi hpte (fun _ => hempty)
    fun _ z hzc => by
      rw [child_mkPte hlt] at hzc
      cases hzc
      exact ⟨fun j _ => pte_memset_zero hz, hy⟩
  refine ⟨⟨fun e he u => ?_, fun u => ?_, ?_⟩, ?_⟩
  · have hentry := (hw.node_entry (show e < 3 by omega)).2 u
    rw [Mem.entry, hentry]
    split_ifs
    · refine .inr ⟨mkPte_valid hlt (by decide), fun hl => ?_⟩
      exact absurd ((mkPte_leaf_iff hlt (show 0 < 1024 by decide)).1 hl) (by decide)
    · exact h.dir e he u
  · have hentry := (hw.node_entry (show 2 < 3 by omega)).2 u
    rw [if_neg (by omega)] at hentry
    rw [Mem.entry, hentry]
    exact h.leaf u
  · have hpages : tablePages (m.setPte x i (mkPte y 0)) root = y ::ₘ tablePages m root :=
      hw.pages_link (by omega) (child_mkPte hlt)
    rw [Owns, hpages, Multiset.cons_add, ← Multiset.add_cons]
    exact h.own
  · have hnode := (hw.node_entry (show d + 1 < 3 by omega)).1 (w * NPTE + i)
    rw [hnode]
    exact (if_pos ⟨rfl, rfl⟩).trans (child_mkPte hlt)

theorem PT.extend {y level : ℕ} (hU : Managed b U) (h : PT U m root f F)
    (ho : Owns U m₁ (y ::ₘ (tablePages m root + F))) (hs : Same (tablePages m root + F) m m₁)
    (hd : d < 2) (hx : sv39.node m.pte root d (va / PGSIZE / NPTE ^ (level + 1)) = some x)
    (hempty : m.entry root d (va / PGSIZE / NPTE ^ level) = 0)
    (hm₂ : m₂ = (m₁.setPage y (memset 0)).setPte x (PX level va) (mkPte y 0)) :
    PT U m₂ root f F ∧ Same F m m₂ ∧ sv39.node m₂.pte root (d + 1) (va / PGSIZE / NPTE ^ level) =
    some y := by
  have hy := hU.not_mem ho
  have hs₁ : Same (tablePages m root + F) m (m₁.setPage y (memset 0)) :=
    hs.trans (Same.setPage hy _)
  have hst : Same (tablePages m root) m (m₁.setPage y (memset 0)) := hs₁.mono le_self_add
  have hpt : PT U (m₁.setPage y (memset 0)) root f (y ::ₘ F) :=
    h.congr hst (by rw [Multiset.add_cons]; exact ho)
  rw [← PX_eq va level] at hempty
  have hlink := hpt.link hU hd (by rw [node_congr (by omega) hst, hx]) (PX_lt level va)
    (by rw [entry_congr (by omega) hst, hempty]) (update_self ..)
  rw [PX_eq, ← hm₂] at hlink
  refine ⟨hlink.1, ?_, hlink.2⟩
  rw [hm₂]
  exact (hs₁.mono le_add_self).trans
    (Same.setPage (h.not_mem_frame hU (node_eq_some (by omega) hx)) _)

theorem PX_zero (va : ℕ) : PX 0 va = va / PGSIZE % NPTE := by rw [PX, pow_zero, Nat.div_one]

section

variable {Q : Option (ℕ × ℕ) → Mem → Prop} (hU : Managed b U)
  (hnone : ∀ m₁, PT U m₁ root f F → Same F m m₁ → m.freelist.length < 2 →
  m₁.freelist = [] → Q none m₁)
  (hsome : ∀ x m₁, PT U m₁ root f F → Same F m m₁ → m.freelist.length ≤ m₁.freelist.length + 2 →
    sv39.node m₁.pte root 2 (va / PGSIZE / NPTE) = some x → Q (some (x, va / PGSIZE % NPTE)) m₁)
include hU hnone hsome

/-- `walk` with `alloc`, from one level down.  It takes a page for each level at most. -/
theorem wp_walkFrom (level d x : ℕ) (hd : d + level = 2) (m' : Mem) (h : PT U m' root f F)
    (hs : Same F m m') (hlen : m.freelist.length ≤ m'.freelist.length + d)
    (hx : sv39.node m'.pte root d (va / PGSIZE / NPTE ^ (level + 1)) = some x) :
    wp (walkFrom va true level x) E Q m' := by
  induction level generalizing d x m' with
  | zero =>
    obtain rfl : d = 2 := by omega
    simp only [walkFrom, wp_pure, PX_zero]
    exact hsome x m' h hs hlen (by simpa using hx)
  | succ level ih =>
    have hentry := entry_PX hx
    simp only [walkFrom, wp_bind, wp_get, wp_ite, if_true]
    refine ⟨fun hv => ?_, fun hv => ?_⟩
    · exact ih (d + 1) _ (by omega) m' h hs (by omega) (node_of_entry hentry hv)
    have hempty : m'.entry root d (va / PGSIZE / NPTE ^ (level + 1)) = 0 := by
      rcases h.dir d (by omega) (va / PGSIZE / NPTE ^ (level + 1)) with h₀ | ⟨h₁, -⟩
      · exact h₀
      · rw [hentry] at h₁
        exact absurd h₁ hv
    refine wp_kalloc hU h.own (fun hnil => wp_pure.2 (hnone m' h hs ?_ hnil))
      fun y m₁ ho hs₁ hlen₁ => ?_
    · rw [hnil, List.length_nil] at hlen
      omega
    · simp only [setPage, setPte, wp_bind, wp_modify]
      obtain ⟨h₂, hs₂, hx₂⟩ := h.extend hU ho hs₁ (by omega) hx hempty rfl
      refine ih (d + 1) y (by omega) _ h₂ (hs.trans hs₂) ?_ hx₂
      show m.freelist.length ≤ m₁.freelist.length + (d + 1)
      omega

omit hU hnone hsome in
theorem node_root (hva : va < MAXVA) :
    sv39.node m.pte root 0 (va / PGSIZE / NPTE ^ 3) = some root := by
  have h₀ : va / PGSIZE / NPTE ^ 3 = 0 := by
    simp only [MAXVA, PGSIZE, NPTE] at *
    omega
  rw [h₀, Radix.node_zero_zero]

/-- **`walk` with `alloc`** keeps the map, and returns the place of the entry or runs out
of memory. -/
theorem wp_walk_alloc (h : PT U m root f F) (hva : va < MAXVA) : wp (walk root va true) E Q m := by
  simp only [walk, wp_ite, wp_throw]
  exact ⟨fun hge => absurd hva (Nat.not_lt.2 hge), fun _ =>
    wp_walkFrom hU hnone hsome 2 0 root rfl m h Same.refl le_rfl (node_root hva)⟩

end

theorem entry_eq_zero_of_not_valid (level : ℕ) (hd : d + (level + 1) = 2)
    (hv : ¬PteValid (m.entry root d (u / NPTE ^ (level + 1)))) : m.entry root 2 u = 0 := by
  have hdown : ∀ {d v : ℕ}, ¬PteValid (m.entry root d (v / NPTE)) → m.entry root (d + 1) v = 0 := by
    intro d v hnot
    refine Radix.entry_of_none ?_
    rw [Radix.node_succ]
    exact if_neg hnot
  induction level generalizing d with
  | zero =>
    obtain rfl : d = 1 := by omega
    exact hdown (by rwa [zero_add, pow_one] at hv)
  | succ level ih =>
    refine ih (d := d + 1) (by omega) ?_
    rw [pow_succ, ← Nat.div_div_eq_div_mul] at hv
    rw [hdown hv]
    decide

theorem wp_walkFrom_noalloc (hnone : m.entry root 2 (va / PGSIZE) = 0 → Q none m)
    (hsome : ∀ x, sv39.node m.pte root 2 (va / PGSIZE / NPTE) = some x → Q (some (x, PX 0 va)) m)
    (level d x : ℕ) (hd : d + level = 2)
    (hx : sv39.node m.pte root d (va / PGSIZE / NPTE ^ (level + 1)) = some x) :
    wp (walkFrom va false level x) E Q m := by
  induction level generalizing d x with
  | zero =>
    obtain rfl : d = 2 := by omega
    simp only [walkFrom, wp_pure]
    exact hsome x (by simpa using hx)
  | succ level ih =>
    have hentry := entry_PX hx
    simp only [walkFrom, wp_bind, wp_get, wp_ite, wp_pure]
    refine ⟨fun hv => ih (d + 1) _ (by omega) (node_of_entry hentry hv),
      fun hv => ⟨fun h => ?_, fun _ => hnone ?_⟩⟩
    · cases h
    · rw [← hentry] at hv
      exact entry_eq_zero_of_not_valid level hd hv

section

variable {Q : Option (ℕ × ℕ) → Mem → Prop} (hva : va < MAXVA)
  (hsome : ∀ x, sv39.node m.pte root 2 (va / PGSIZE / NPTE) = some x →
    m.pte x (va / PGSIZE % NPTE) = m.entry root 2 (va / PGSIZE) →
    Q (some (x, va / PGSIZE % NPTE)) m)
include hva hsome

/-- **`walk` without `alloc`** finds the entry, or one on the way is not valid. -/
theorem wp_walk_noalloc (hnone : m.entry root 2 (va / PGSIZE) = 0 → Q none m) :
    wp (walk root va false) E Q m := by
  simp only [walk, wp_ite, wp_throw]
  refine ⟨fun hge => absurd hva (Nat.not_lt.2 hge), fun _ => ?_⟩
  refine wp_walkFrom_noalloc hnone (fun x hx => ?_) 2 0 root rfl (node_root hva)
  rw [PX_zero]
  exact hsome x hx (Radix.entry_of_node hx).symm

theorem wp_walk_mapped (hmapped : m.entry root 2 (va / PGSIZE) ≠ 0) :
    wp (walk root va false) E Q m := wp_walk_noalloc hva hsome fun h => absurd h hmapped

end

/-! ### Mapping and unmapping -/

theorem PT.pte_eq (h : PT U m root f F) (hx : sv39.node m.pte root 2 (v / NPTE) = some x) :
    m.pte x (v % NPTE) = f v := (Radix.entry_of_node hx).symm.trans (h.leaf v)

theorem Same.setPte (hx : x ∉ F) : Same F m (m.setPte x i pte) := by
  rw [Mem.setPte]
  exact Same.setPage hx _

theorem wp_mapPage {Q : Bool → Mem → Prop} {pa perm : ℕ} (hU : Managed b U)
    (h : PT U m root f F) (hv : v * PGSIZE < MAXVA) (hf : ¬PteValid (f v)) (hpa : pa < 2 ^ 52)
    (hperm : perm < 1024)
    (hfail : ∀ m₁, PT U m₁ root f F → Same F m m₁ → m.freelist.length < 2 → m₁.freelist = [] →
      Q false m₁)
    (hok : ∀ m₁, PT U m₁ root (update f v (mkPte pa perm)) F → Same F m m₁ →
      m.freelist.length ≤ m₁.freelist.length + 2 → Q true m₁) :
    wp (mapPage root perm (v * PGSIZE) pa) E Q m := by
  have hdiv : v * PGSIZE / PGSIZE = v := Nat.mul_div_cancel _ (by decide)
  simp only [mapPage, wp_bind]
  refine wp_walk_alloc hU (fun m₁ h₁ hs hlen hnil => ?_) (fun x m₁ h₁ hs hlen hx => ?_) h hv
  · exact wp_pure.2 (hfail m₁ h₁ hs hlen hnil)
  rw [hdiv] at hx ⊢
  simp only [wp_bind, wp_get, wp_ite, wp_throw, setPte, wp_modify, wp_pure, h₁.pte_eq hx]
  refine ⟨fun hvalid => absurd hvalid hf, fun _ => ?_⟩
  refine hok _ (h₁.set hU hx (mkPte_lt hpa hperm)) ?_ hlen
  exact hs.trans (Same.setPte (h₁.not_mem_frame hU (node_eq_some (by omega) hx)))

/-- **`mappages`** of one page enters it in the map, or runs out of memory. -/
theorem wp_mappages {Q : ℤ → Mem → Prop} {pa perm : ℕ} (hU : Managed b U)
    (h : PT U m root f F) (hv : v * PGSIZE < MAXVA) (hf : f v = 0) (hpa : pa < 2 ^ 20)
    (hperm : perm < 1024)
    (hfail : ∀ m₁, PT U m₁ root f F → Same F m m₁ → m.freelist.length < 2 → Q (-1) m₁)
    (hok : ∀ m₁, PT U m₁ root (update f v (mkPte pa perm)) F → Same F m m₁ →
      m.freelist.length ≤ m₁.freelist.length + 2 → Q 0 m₁) :
    wp (mappages root (v * PGSIZE) PGSIZE pa perm) E Q m := by
  have ha : pgrounddown (v * PGSIZE) = v * PGSIZE := by
    simp only [pgrounddown, PGSIZE]
    omega
  have hlast : pgrounddown (v * PGSIZE + PGSIZE - 1) = v * PGSIZE := by
    simp only [pgrounddown, PGSIZE]
    omega
  simp only [mappages, ha, hlast, Nat.sub_self, Nat.zero_div, mappagesFrom, wp_bind]
  refine wp_mapPage hU h hv (by rw [hf]; decide) (by omega) hperm (fun m₁ h₁ hs hlen _ => ?_)
    fun m₁ h₁ hs hlen => ?_
  · simpa using hfail m₁ h₁ hs hlen
  · simpa using hok m₁ h₁ hs hlen

/-- The condition under which the kernel unmaps a page. -/
def LeafPte (pte : ℕ) : Prop := PteValid pte ∧ PteLeaf pte

/-- What `uvmunmap` accepts: a valid entry with more flags than that one. -/
def Unmaps (pte : ℕ) : Prop := PteValid pte ∧ pteFlags pte ≠ PTE_V

theorem Unmaps.ne_zero (h : Unmaps pte) : pte ≠ 0 := by
  rintro rfl
  exact absurd h.1 (by decide)

theorem LeafPte.unmaps (h : LeafPte pte) : Unmaps pte := by
  refine ⟨h.1, fun hflags => ?_⟩
  have h₁ := h.1
  have h₂ := h.2
  simp only [PteValid, PteLeaf, pteFlags, PTE_V] at *
  omega

theorem LeafPte.ne_zero (h : LeafPte pte) : pte ≠ 0 := h.unmaps.ne_zero

/-- Up to the choice whether to free the page, one round of `uvmunmap`. -/
theorem wp_unmapPage {Q : PUnit → Mem → Prop} {doFree : Bool}
    (hU : Managed b U) (h : PT U m root f G) (hv : v * PGSIZE < MAXVA) (hf : Unmaps (f v))
    (hfree : wp (if doFree then kfree b (ptePage (f v)) else pure ⟨⟩) E
      (fun _ m₁ => PT U m₁ root f F ∧ Same (tablePages m root + F) m m₁) m)
    (hQ : ∀ m₁, PT U m₁ root (update f v 0) F → Same F m m₁ → Q ⟨⟩ m₁) :
    wp (unmapPage b root (v * PGSIZE) doFree) E Q m := by
  have hdiv : v * PGSIZE / PGSIZE = v := Nat.mul_div_cancel _ (by decide)
  simp only [unmapPage, wp_bind]
  refine wp_walk_mapped hv (fun x hx hpte => ?_) (by rw [hdiv, h.leaf]; exact hf.ne_zero)
  rw [hdiv, h.leaf] at hpte
  rw [hdiv] at hx ⊢
  simp only [wp_bind, wp_get, wp_ite, wp_throw, hpte]
  refine ⟨fun hn => absurd hf.1 hn, fun _ => ⟨fun he => absurd he hf.2, fun _ => ?_⟩⟩
  have hset : ∀ m₁, PT U m₁ root f F → Same (tablePages m root + F) m m₁ →
      Q ⟨⟩ (m₁.setPte x (v % NPTE) 0) := by
    intro m₁ h₁ hs
    have hx₁ : sv39.node m₁.pte root 2 (v / NPTE) = some x := by
      rw [node_congr (by omega) (hs.mono le_self_add), hx]
    refine hQ _ (h₁.set hU hx₁ (by decide)) ((hs.mono le_add_self).trans ?_)
    exact Same.setPte (h₁.not_mem_frame hU (node_eq_some (by omega) hx₁))
  cases doFree with
  | false =>
    rw [if_neg (by decide), wp_pure] at hfree
    simp only [Bool.false_eq_true, false_imp_iff, true_and, not_false_eq_true, true_imp_iff,
      setPte, wp_modify]
    exact hset _ hfree.1 hfree.2
  | true =>
    rw [if_pos rfl] at hfree
    simp only [true_imp_iff, not_true_eq_false, false_imp_iff, and_true, setPte, wp_modify]
    exact wp_mono hfree fun _ m₁ h₁ => hset m₁ h₁.1 h₁.2

/-- The map without the pages `[a, e)`. -/
def clear (f : ℕ → ℕ) (a e v : ℕ) : ℕ := if a ≤ v ∧ v < e then 0 else f v

/-- The physical pages that the virtual pages `[a, e)` are mapped to. -/
def frames (f : ℕ → ℕ) (a e : ℕ) : Multiset ℕ := ∑ v ∈ Finset.Ico a e, {ptePage (f v)}

theorem clear_self (f : ℕ → ℕ) (a : ℕ) : clear f a a = f := by
  funext v
  exact if_neg (by omega)

theorem clear_succ (f : ℕ → ℕ) (h : a ≤ e) : update (clear f a e) e 0 = clear f a (e + 1) := by
  funext v
  by_cases hv : v = e
  · subst hv
    rw [update_self, clear, if_pos (by omega)]
  · rw [update_of_ne hv, clear, clear]
    exact if_congr (by omega) rfl rfl

theorem frames_self (f : ℕ → ℕ) (a : ℕ) : frames f a a = 0 := by
  rw [frames, Finset.Ico_self, Finset.sum_empty]

theorem frames_head (f : ℕ → ℕ) (h : a < e) :
    frames f a e = ptePage (f a) ::ₘ frames f (a + 1) e := by
  rw [frames, Finset.sum_eq_sum_Ico_succ_bot h, Multiset.singleton_add, frames]

theorem frames_last (f : ℕ → ℕ) (h : a ≤ e) :
    frames f a (e + 1) = ptePage (f e) ::ₘ frames f a e := by
  rw [frames, Finset.sum_Ico_succ_top h, add_comm, Multiset.singleton_add, frames]

theorem frames_add (f : ℕ → ℕ) (h₁ : a ≤ c) (h₂ : c ≤ e) :
    frames f a c + frames f c e = frames f a e := Finset.sum_Ico_consecutive _ h₁ h₂

theorem frames_congr (h : ∀ v, a ≤ v → v < e → g v = f v) : frames g a e = frames f a e :=
  Finset.sum_congr rfl fun v hv => by
    have hv := Finset.mem_Ico.1 hv
    rw [h v hv.1 hv.2]

section

variable {Q : PUnit → Mem → Prop} {a n : ℕ} (hU : Managed b U) (hmax : (a + n) * PGSIZE ≤ MAXVA)
  (hf : ∀ v, a ≤ v → v < a + n → Unmaps (f v))
include hU hmax hf

/-- The rounds of `uvmunmap`, with the pages `G k` in hand after `k` of them. -/
theorem wp_uvmunmap_rounds {doFree : Bool} {G : ℕ → Multiset ℕ} (h : PT U m root f (G 0))
    (hF : ∀ k, F ≤ G k) (hfree : ∀ k < n, ∀ m', PT U m' root (clear f a (a + k)) (G k) →
      wp (if doFree then kfree b (ptePage (f (a + k))) else pure ⟨⟩) E (fun _ m₁ =>
        PT U m₁ root (clear f a (a + k)) (G (k + 1)) ∧ Same (tablePages m' root + G (k + 1)) m' m₁)
        m')
    (hQ : ∀ m₁, PT U m₁ root (clear f a (a + n)) (G n) → Same F m m₁ → Q ⟨⟩ m₁) :
    wp (uvmunmap b root (a * PGSIZE) n doFree) E Q m := by
  simp only [uvmunmap, wp_ite, wp_throw]
  refine ⟨fun hne => absurd (Nat.mul_mod_left ..) hne, fun _ => ?_⟩
  refine wp_forM_range (I := fun k m' => PT U m' root (clear f a (a + k)) (G k) ∧ Same F m m')
    (fun k hk m' hI => ?_) ⟨by rwa [Nat.add_zero, clear_self], Same.refl⟩ fun m' hI =>
      hQ m' hI.1 hI.2
  have hk₁ : a + k < a + n := Nat.add_lt_add_left hk a
  have hva : (a + k) * PGSIZE < MAXVA := (Nat.mul_lt_mul_of_pos_right hk₁ (by decide)).trans_le hmax
  have hat : clear f a (a + k) (a + k) = f (a + k) := if_neg (by omega)
  rw [← Nat.add_mul]
  refine wp_unmapPage hU hI.1 hva (hat ▸ hf _ (Nat.le_add_right ..) hk₁) (hat ▸ hfree k hk m' hI.1)
    fun m₁ h₁ hs₁ => ?_
  rw [clear_succ f (Nat.le_add_right a k)] at h₁
  exact ⟨h₁, hI.2.trans (hs₁.mono (hF _))⟩

/-- **`uvmunmap` with `do_free`** frees the pages that it unmaps. -/
theorem wp_uvmunmap (h : PT U m root f (frames f a (a + n) + F))
    (hQ : ∀ m₁, PT U m₁ root (clear f a (a + n)) F → Same F m m₁ → Q ⟨⟩ m₁) :
    wp (uvmunmap b root (a * PGSIZE) n true) E Q m := by
  refine wp_uvmunmap_rounds (G := fun k => frames f (a + k) (a + n) + F) hU hmax hf h
    (fun _ => le_add_self) (fun k hk m' h' => ?_) fun m₁ h₁ =>
      hQ m₁ (by simpa [frames_self] using h₁)
  have hown := h'.own
  rw [frames_head f (Nat.add_lt_add_left hk a), Multiset.cons_add, Multiset.add_cons] at hown
  rw [if_pos rfl]
  exact wp_kfree hU hown fun m₁ ho hs => ⟨h'.congr (hs.mono le_self_add) ho, hs⟩

/-- **`uvmunmap` without `do_free`** keeps the pages. -/
theorem wp_uvmunmap_nofree (h : PT U m root f F)
    (hQ : ∀ m₁, PT U m₁ root (clear f a (a + n)) F → Same F m m₁ → Q ⟨⟩ m₁) :
    wp (uvmunmap b root (a * PGSIZE) n false) E Q m :=
  wp_uvmunmap_rounds (G := fun _ => F) hU hmax hf h (fun _ => le_rfl)
    (fun _ _ _ h' => wp_pure.2 ⟨h', Same.refl⟩) hQ

end

theorem wp_uvmunmap_keep {Q : PUnit → Mem → Prop} (hU : Managed b U) (h : PT U m root f F)
    (hv : v * PGSIZE < MAXVA) (hf : LeafPte (f v))
    (hQ : ∀ m₁, PT U m₁ root (update f v 0) F → Same F m m₁ → Q ⟨⟩ m₁) :
    wp (uvmunmap b root (v * PGSIZE) 1 false) E Q m := by
  have hmax : (v + 1) * PGSIZE ≤ MAXVA := by
    simp only [MAXVA, PGSIZE] at *
    omega
  refine wp_uvmunmap_nofree hU hmax (fun u hu hu' => ?_) h fun m₁ h₁ hs => hQ m₁ ?_ hs
  · obtain rfl : u = v := by omega
    exact hf.unmaps
  · rwa [← clear_succ f le_rfl, clear_self] at h₁

/-! ### Freeing a table -/

/-- The `n` levels of tables from `x` down have no leaf. -/
def Clean (m : Mem) : ℕ → ℕ → Prop
  | 0, _ => False
  | n + 1, x =>
    ∀ i < NPTE, PteValid (m.pte x i) → ¬PteLeaf (m.pte x i) ∧ Clean m n (ptePage (m.pte x i))

theorem child_of_valid (h : PteValid pte) : sv39.child pte = some (ptePage pte) := if_pos h

theorem child_of_not_valid (h : ¬PteValid pte) : sv39.child pte = none := if_neg h

theorem Clean.congr (h : Clean m n x) (hs : Same (sv39.below m.pte n x) m m₁) : Clean m₁ n x := by
  induction n generalizing x with
  | zero => exact h
  | succ n ih =>
    intro i hi
    rw [Mem.pte_congr (hs x (Radix.mem_below_self n x))]
    intro hv
    obtain ⟨hleaf, hc⟩ := h i hi hv
    exact ⟨hleaf, ih hc (hs.mono (Radix.below_child_le n hi (child_of_valid hv)))⟩

theorem entry_of_node_digit (hx : sv39.node m.pte root d w = some x) (hi : i < NPTE) :
    m.entry root d (w * NPTE + i) = m.pte x i := by
  have h₁ : (w * NPTE + i) / NPTE = w := by
    simp only [NPTE] at *
    omega
  have h₂ : (w * NPTE + i) % NPTE = i := by
    simp only [NPTE] at *
    omega
  have hnode : sv39.node m.pte root d ((w * NPTE + i) / sv39.B) = some x := by
    rw [show sv39.B = NPTE from rfl, h₁]
    exact hx
  have := Radix.entry_of_node hnode
  rwa [show sv39.B = NPTE from rfl, h₂] at this

theorem PT.clean (h : PT U m root f F) (hf : ∀ v, f v = 0) (n : ℕ) (hd : d + n = 2)
    (hx : sv39.node m.pte root d w = some x) : Clean m (n + 1) x := by
  induction n generalizing d w x with
  | zero =>
    intro i hi hv
    obtain rfl : d = 2 := by omega
    rw [← entry_of_node_digit hx hi, h.leaf, hf] at hv
    exact absurd hv (by decide)
  | succ n ih =>
    intro i hi hv
    have he := entry_of_node_digit hx hi
    have hdir := h.dir d (by omega) (w * NPTE + i)
    rw [he] at hdir
    refine ⟨hdir.elim (fun h₀ => ?_) And.right, ih (d := d + 1) (by omega) (node_of_entry he hv)⟩
    rw [h₀] at hv
    exact absurd hv (by decide)

/-- **`freewalk`** frees the tables from `x` down, all of them and no other page. -/
theorem wp_freewalk {Q : PUnit → Mem → Prop} {n : ℕ} (hU : Managed b U) (hc : Clean m n x)
    (ho : Owns U m (sv39.below m.pte n x + F))
    (hQ : ∀ m₁, Owns U m₁ F → Same F m m₁ → Q ⟨⟩ m₁) : wp (freewalk b n x) E Q m := by
  induction n generalizing x m F Q with
  | zero => exact absurd hc id
  | succ n ih =>
    simp only [freewalk, wp_bind]
    -- what is below the entries from `k` on, as it was at the start
    set rest : ℕ → Multiset ℕ := fun k =>
      ∑ i ∈ Finset.Ico k NPTE, (sv39.child (m.pte x i)).elim 0 (sv39.below m.pte n) with hrest
    have hstep : ∀ k < NPTE, rest k =
        (sv39.child (m.pte x k)).elim 0 (sv39.below m.pte n) + rest (k + 1) := fun k hk =>
      Finset.sum_eq_sum_Ico_succ_bot hk _
    rw [Radix.below_succ, show sv39.B = NPTE from rfl, Finset.range_eq_Ico, add_assoc,
      Multiset.singleton_add] at ho
    refine wp_forM_range (I := fun k m' => Owns U m' (x ::ₘ (rest k + F)) ∧ Same (rest k + F) m m' ∧
      ∀ j < NPTE, k ≤ j → m'.pte x j = m.pte x j) (fun k hk m' hI => ?_)
      ⟨ho, Same.refl, fun _ _ _ => rfl⟩ fun m' hI => ?_
    · obtain ⟨ho', hs, hx⟩ := hI
      simp only [wp_bind, wp_get, hx k hk le_rfl, wp_ite, wp_throw, wp_pure]
      refine ⟨fun hv => ?_, fun hnv => ⟨fun hv => ?_, fun hv => ?_⟩⟩
      · -- the tables below the entry go to the free list
        have hk' := hstep k hk
        rw [child_of_valid hv.1, Option.elim_some] at hk'
        rw [hk', add_assoc] at ho' hs
        have hbelow : sv39.below m'.pte n (ptePage (m.pte x k)) = sv39.below m.pte n
            (ptePage (m.pte x k)) :=
          Radix.below_congr fun y hy => Mem.pte_congr (hs y (Multiset.mem_add.2 (.inl hy)))
        have hc' := (hc k hk hv.1).2.congr (hs.mono le_self_add)
        rw [← Multiset.add_cons, ← hbelow] at ho'
        refine ih hc' ho' fun m₁ ho₁ hs₁ => ?_
        have hnot := hU.not_mem ho₁
        simp only [setPte, wp_modify]
        refine ⟨ho₁, ?_, fun j hj hkj => ?_⟩
        · exact ((hs.mono le_add_self).trans (hs₁.mono (Multiset.le_cons_self _ _))).trans
            (Same.setPte hnot)
        · have hother : (m₁.setPte x k 0).pte x j = m₁.pte x j := by
            simp only [Mem.pte, Mem.setPte, Mem.setPage, update_self]
            exact Bytes.field_setField_of_disjoint 8 8 _ (by omega)
          rw [hother, Mem.pte_congr (hs₁ x (Multiset.mem_cons_self ..)), hx j hj (by omega)]
      · exact absurd (hc k hk hv).1 fun hleaf => hnv ⟨hv, hleaf⟩
      · have hk' := hstep k hk
        rw [child_of_not_valid hv, Option.elim_none, zero_add] at hk'
        rw [hk'] at ho' hs
        exact ⟨ho', hs, fun j hj hkj => hx j hj (by omega)⟩
    · have hend : rest NPTE = 0 := by
        simp only [hrest, Finset.Ico_self, Finset.sum_empty]
      obtain ⟨ho', hs, -⟩ := hI
      rw [hend, zero_add] at ho' hs
      exact wp_kfree hU ho' fun m₁ ho₁ hs₁ => hQ m₁ ho₁ (hs.trans hs₁)

theorem PT.wp_freewalk {Q : PUnit → Mem → Prop} (hU : Managed b U) (h : PT U m root f F)
    (hf : ∀ v, f v = 0) (hQ : ∀ m₁, Owns U m₁ F → Same F m m₁ → Q ⟨⟩ m₁) :
    wp (freewalk b 3 root) E Q m := by
  have ho := h.own
  rw [tablePages, Radix.pages_eq_below] at ho
  exact Xv6.wp_freewalk hU (h.clean hf 2 rfl Radix.node_zero_zero) ho hQ

end Xv6
