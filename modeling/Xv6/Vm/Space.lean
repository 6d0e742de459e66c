/-
# Address spaces

In the page table of a process the virtual pages `[0, npg)` are leaves, the trapframe and the
trampoline are mapped at the top without `PTE_U`, and nothing else is (`Shape`).  `Space b U m root
tf npg F` adds who owns what.  Each routine takes a `Space` to a `Space`, also where it fails.
-/

import Xv6.Vm.Walk

namespace Xv6

open Lib Function

variable {b : Board} {U F : Multiset ℕ} {m m₁ : Mem} {root tf npg : ℕ} {f : ℕ → ℕ} {E : Halt → Prop}
  {a e newsz old oldsz pa perm pte sz v va x : ℕ} {G : Multiset ℕ} {Q : PUnit → Mem → Prop}

/-- The pages that memory of `sz` bytes takes. -/
def npages (sz : ℕ) : ℕ := (sz + PGSIZE - 1) / PGSIZE

theorem pgroundup_eq (h : sz < 2 ^ 63) : pgroundup sz = npages sz * PGSIZE := by
  rw [pgroundup, npages, Nat.mod_eq_of_lt]
  simp only [PGSIZE]
  omega

theorem npages_mul (n : ℕ) : npages (n * PGSIZE) = n := by
  simp only [npages, PGSIZE]
  omega

theorem npages_zero : npages 0 = 0 := by decide

theorem npages_mono (h : s ≤ t) : npages s ≤ npages t := by
  simp only [npages, PGSIZE]
  omega

/-- The virtual page of the trapframe. -/
abbrev trapframeVpn : ℕ := TRAPFRAME / PGSIZE

/-- The virtual page of the trampoline. -/
abbrev trampolineVpn : ℕ := TRAMPOLINE / PGSIZE

theorem TRAPFRAME_eq : trapframeVpn * PGSIZE = TRAPFRAME := by decide

theorem TRAMPOLINE_eq : trampolineVpn * PGSIZE = TRAMPOLINE := by decide

/-- What is mapped above user memory. -/
def top (b : Board) (tf v : ℕ) : ℕ :=
  if v = trapframeVpn then mkPte tf (PTE_R ||| PTE_W)
  else if v = trampolineVpn then mkPte b.trampoline (PTE_R ||| PTE_X)
  else 0

/-- **The shape of an address space**: leaves on `[0, npg)`, and the top. -/
structure Shape (b : Board) (tf npg : ℕ) (f : ℕ → ℕ) : Prop where
  user : ∀ v < npg, LeafPte (f v)
  top : ∀ v, npg ≤ v → f v = top b tf v

/-- The table at `root` is one of tables, with the shape of an address space. -/
structure IsSpace (b : Board) (m : Mem) (root tf npg : ℕ) : Prop where
  dir : ∀ d < 2, ∀ v, m.entry root d v = 0 ∨ PteValid (m.entry root d v) ∧
    ¬PteLeaf (m.entry root d v)
  shape : Shape b tf npg (m.entry root 2)

/-- The pages of an address space: the table, and the user memory. -/
def spacePages (m : Mem) (root npg : ℕ) : Multiset ℕ :=
  tablePages m root + frames (m.entry root 2) 0 npg

/-- An address space, its pages, and who has the others. -/
structure Space (b : Board) (U : Multiset ℕ) (m : Mem) (root tf npg : ℕ) (F : Multiset ℕ) :
    Prop where
  is : IsSpace b m root tf npg
  own : Owns U m (spacePages m root npg + F)

theorem root_mem : root ∈ tablePages m root :=
  Radix.mem_pages (d := 0) (by omega) Radix.node_zero_zero

theorem PT.entry_eq (h : PT U m root f F) : m.entry root 2 = f := funext h.leaf

theorem Space.pt (h : Space b U m root tf npg F) :
    PT U m root (m.entry root 2) (frames (m.entry root 2) 0 npg + F) where
  dir := h.is.dir
  leaf _ := rfl
  own := by
    rw [← add_assoc]
    exact h.own

theorem PT.space (h : PT U m root f (frames f 0 npg + F)) (hs : Shape b tf npg f) :
    Space b U m root tf npg F where
  is := ⟨h.dir, by rwa [h.entry_eq]⟩
  own := by
    rw [spacePages, h.entry_eq, add_assoc]
    exact h.own

theorem IsSpace.congr (h : IsSpace b m root tf npg) (hs : Same (tablePages m root) m m₁) :
    IsSpace b m₁ root tf npg where
  dir d hd v := by
    rw [entry_congr (by omega) hs]
    exact h.dir d hd v
  shape := by
    rw [show m₁.entry root 2 = m.entry root 2 from funext (entry_congr (by omega) hs)]
    exact h.shape

theorem spacePages_congr (hs : Same (tablePages m root) m m₁) :
    spacePages m₁ root npg = spacePages m root npg := by
  rw [spacePages, spacePages, tablePages_congr hs,
    show m₁.entry root 2 = m.entry root 2 from funext (entry_congr (by omega) hs)]

theorem Space.congr (h : Space b U m root tf npg F)
    (hs : Same (tablePages m root) m m₁) (ho : Owns U m₁ (spacePages m root npg + G)) :
    Space b U m₁ root tf npg G where
  is := h.is.congr hs
  own := by rwa [spacePages_congr hs]

/-! ### What the user sees -/

/-- What stands at a virtual page: the flags, and the contents. -/
def Mem.user (m : Mem) (root v : ℕ) : ℕ × Page :=
  (pteFlags (m.entry root 2 v), m.page (ptePage (m.entry root 2 v)))

/-- The pages `[0, k)` are mapped as before, and have the same contents. -/
structure SameUser (root k : ℕ) (m m₁ : Mem) : Prop where
  entry : ∀ v < k, m₁.entry root 2 v = m.entry root 2 v
  page : Same (frames (m.entry root 2) 0 k) m m₁

theorem mem_frames (ha : a ≤ v) (he : v < e) : ptePage (f v) ∈ frames f a e := by
  rw [frames, Multiset.mem_sum]
  exact ⟨v, Finset.mem_Ico.2 ⟨ha, he⟩, Multiset.mem_singleton_self _⟩

section

variable {k : ℕ} {m₂ : Mem}

theorem SameUser.refl : SameUser root k m m := ⟨fun _ _ => rfl, Same.refl⟩

theorem SameUser.trans (h : SameUser root k m m₁) (h' : SameUser root k m₁ m₂) :
    SameUser root k m m₂ where
  entry v hv := (h'.entry v hv).trans (h.entry v hv)
  page := by
    have hp := h'.page
    rw [frames_congr fun v _ hv => h.entry v hv] at hp
    exact h.page.trans hp

theorem SameUser.mono (h : SameUser root k m m₁) (hj : j ≤ k) : SameUser root j m m₁ where
  entry v hv := h.entry v (hv.trans_le hj)
  page := h.page.mono (by
    rw [← frames_add _ (Nat.zero_le j) hj]
    exact le_self_add)

theorem SameUser.of_pages (h : Same (spacePages m root k) m m₁) : SameUser root k m m₁ where
  entry v _ := entry_congr (by omega) (h.mono le_self_add) v
  page := h.mono le_add_self

theorem SameUser.user (h : SameUser root k m m₁) (hv : v < k) : m₁.user root v = m.user root v := by
  rw [Mem.user, Mem.user, h.entry v hv, h.page _ (mem_frames (Nat.zero_le v) hv)]

end

/-! ### Sizes -/

section

variable (hU : Managed b U)
include hU

theorem Managed.card_lt : Multiset.card U < 2 ^ 15 := by
  have hsub : U ⊆ (Finset.Ico (KERNBASE / PGSIZE + 1) (PHYSTOP / PGSIZE)).val := by
    intro x hx
    have hm := hU.manages x hx
    have hge := b.trampoline_ge
    have hlt := b.trampoline_lt
    rw [Finset.mem_val, Finset.mem_Ico]
    simp only [Board.Manages, PGSIZE, PHYSTOP, KERNBASE] at *
    omega
  have hle := Multiset.card_le_card ((Multiset.le_iff_subset hU.nodup).2 hsub)
  have hcard : Multiset.card (Finset.Ico (KERNBASE / PGSIZE + 1) (PHYSTOP / PGSIZE)).val =
      2 ^ 15 - 1 :=
    Nat.card_Ico ..
  omega

omit hU in
theorem card_frames (f : ℕ → ℕ) (a e : ℕ) : Multiset.card (frames f a e) = e - a := by
  simp [frames]

theorem Owns.npages_lt (h : Owns U m G) (hle : frames f 0 npg ≤ G) : npg < 2 ^ 15 := by
  have h₁ := Multiset.card_le_card hle
  have h₂ : Multiset.card G ≤ Multiset.card U := by
    rw [← h, Multiset.card_add]
    omega
  have h₃ := hU.card_lt
  rw [card_frames] at h₁
  omega

theorem Space.npg_lt_ram (h : Space b U m root tf npg F) : npg < 2 ^ 15 := by
  refine h.own.npages_lt (f := m.entry root 2) hU ?_
  rw [spacePages, add_assoc]
  exact le_self_add.trans le_add_self

theorem Space.npg_lt (h : Space b U m root tf npg F) : npg < 2 ^ 20 :=
  (h.npg_lt_ram hU).trans (by decide)

theorem Managed.trampoline_lt (h : x ∈ U) : b.trampoline < 2 ^ 20 :=
  b.trampoline_lt_phystop (hU.manages x h)

omit hU in
theorem top_of_lt (h : v < 2 ^ 20) : top b tf v = 0 := by
  have h₁ : v ≠ trapframeVpn := fun he => absurd (he ▸ h) (by decide)
  have h₂ : v ≠ trampolineVpn := fun he => absurd (he ▸ h) (by decide)
  rw [top, if_neg h₁, if_neg h₂]

/-! ### Growing and shrinking -/

omit hU in
theorem leafPte_mkPte (hpa : pa < 2 ^ 20) (hperm : perm < 1024) (hleaf : PteLeaf perm) :
    LeafPte (mkPte pa perm) := by
  have hpa : pa < 2 ^ 52 := hpa.trans (by decide)
  exact ⟨mkPte_valid hpa hperm, (mkPte_leaf_iff hpa hperm).2 hleaf⟩

omit hU in
theorem Shape.grow (hs : Shape b tf npg f) (hpa : pa < 2 ^ 20) (hperm : perm < 1024)
    (hleaf : PteLeaf perm) : Shape b tf (npg + 1) (update f npg (mkPte pa perm)) where
  user v hv := by
    by_cases hvn : v = npg
    · rw [hvn, update_self]
      exact leafPte_mkPte hpa hperm hleaf
    · rw [update_of_ne hvn]
      exact hs.user v (by omega)
  top v hv := by
    rw [update_of_ne (by omega)]
    exact hs.top v (by omega)

omit hU in
theorem frames_grow (hpa : pa < 2 ^ 20) (hperm : perm < 1024) :
    frames (update f npg (mkPte pa perm)) 0 (npg + 1) = pa ::ₘ frames f 0 npg := by
  rw [frames_last _ (Nat.zero_le _), update_self, ptePage_mkPte (hpa.trans (by decide)) hperm,
    frames_congr fun v _ hv => update_of_ne hv.ne _ _]

omit hU in
theorem Shape.shrink {k : ℕ} (hs : Shape b tf npg f) (hk : k ≤ npg) (hlt : npg < 2 ^ 20) :
    Shape b tf k (clear f k npg) where
  user v hv := by
    rw [clear, if_neg (by omega)]
    exact hs.user v (by omega)
  top v hv := by
    by_cases hvn : v < npg
    · rw [clear, if_pos ⟨hv, hvn⟩, top_of_lt (by omega)]
    · rw [clear, if_neg (by omega)]
      exact hs.top v (by omega)

theorem Space.wp_uvmunmap {k : ℕ} (h : Space b U m root tf npg F) (hk : k ≤ npg)
    (hQ : ∀ m₁, Space b U m₁ root tf k F → Same F m m₁ → SameUser root k m m₁ → Q ⟨⟩ m₁) :
    wp (uvmunmap b root (k * PGSIZE) (npg - k) true) E Q m := by
  have hlt := h.npg_lt hU
  have hpt := h.pt
  have hadd : k + (npg - k) = npg := by omega
  rw [← frames_add _ (Nat.zero_le k) hk, add_comm (frames _ 0 k), add_assoc] at hpt
  refine Xv6.wp_uvmunmap (a := k) (n := npg - k) hU ?_ (fun v _ hv => ?_) (by rwa [hadd])
    fun m₁ h₁ hs => hQ m₁ ?_ (hs.mono le_add_self) ⟨fun v hv => ?_, hs.mono le_self_add⟩
  · rw [hadd]
    simp only [PGSIZE, MAXVA]
    omega
  · exact (h.is.shape.user v (by omega)).unmaps
  · rw [hadd] at h₁
    refine PT.space (f := clear (m.entry root 2) k npg) ?_ (h.is.shape.shrink hk hlt)
    rwa [frames_congr (g := clear (m.entry root 2) k npg) fun v _ hv => if_neg (by omega)]
  · rw [h₁.leaf, clear, if_neg (by omega)]

/-- **`uvmdealloc`** shrinks the space, unless the new size is not smaller. -/
theorem wp_uvmdealloc {Q : ℕ → Mem → Prop}
    (h : Space b U m root tf (npages oldsz) F) (hold : oldsz < 2 ^ 63)
    (hkeep : oldsz ≤ newsz → Q oldsz m)
    (hQ : ∀ m₁, newsz < oldsz → Space b U m₁ root tf (npages newsz) F → Same F m m₁ →
      SameUser root (npages newsz) m m₁ → Q newsz m₁) :
    wp (uvmdealloc b root oldsz newsz) E Q m := by
  simp only [uvmdealloc, wp_ite, wp_pure]
  refine ⟨hkeep, fun hlt => ?_⟩
  have hlt : newsz < oldsz := Nat.not_le.1 hlt
  have hmono := npages_mono hlt.le
  simp only [wp_bind, wp_pure, pgroundup_eq hold, pgroundup_eq (hlt.trans hold)]
  constructor
  · intro _
    rw [← Nat.sub_mul, Nat.mul_div_cancel _ (by decide)]
    exact h.wp_uvmunmap hU hmono fun m₁ h₁ hs hu => hQ m₁ hlt h₁ hs hu
  · intro hge
    have heq : npages oldsz = npages newsz :=
      le_antisymm (Nat.le_of_mul_le_mul_right (Nat.not_lt.1 hge) (by decide)) hmono
    exact hQ m hlt (heq ▸ h) Same.refl SameUser.refl

theorem Space.wp_mappages {Q : ℤ → Mem → Prop}
    (h : Space b U m root tf npg (pa ::ₘ F)) (hperm : perm < 1024) (hleaf : PteLeaf perm)
    (hfail : ∀ m₁, Space b U m₁ root tf npg (pa ::ₘ F) → Same F m m₁ → SameUser root npg m m₁ →
      m.freelist.length < 2 → Q (-1) m₁)
    (hok : ∀ m₁, Space b U m₁ root tf (npg + 1) F → Same F m m₁ → SameUser root npg m m₁ →
      m₁.entry root 2 npg = mkPte pa perm → m₁.page pa = m.page pa → Q 0 m₁) :
    wp (mappages root (npg * PGSIZE) PGSIZE pa perm) E Q m := by
  have hlt := h.npg_lt hU
  have hpa : pa < 2 ^ 20 :=
    (hU.manages pa (h.own.mem (Multiset.mem_add.2 (.inr (Multiset.mem_cons_self ..))))).lt
  have hF : F ≤ frames (m.entry root 2) 0 npg + pa ::ₘ F :=
    (Multiset.le_cons_self F pa).trans le_add_self
  refine Xv6.wp_mappages hU h.pt ?_ ?_ hpa hperm (fun m₁ h₁ hs hlen => ?_) fun m₁ h₁ hs _ => ?_
  · simp only [PGSIZE, MAXVA]
    omega
  · rw [h.is.shape.top npg le_rfl, top_of_lt hlt]
  · exact hfail m₁ (h₁.space h.is.shape) (hs.mono hF)
      ⟨fun v _ => h₁.leaf v, hs.mono le_self_add⟩ hlen
  refine hok m₁ (PT.space ?_ (h.is.shape.grow hpa hperm hleaf)) (hs.mono hF)
    ⟨fun v hv => ?_, hs.mono le_self_add⟩ ?_ (hs pa ?_)
  · rw [frames_grow hpa hperm, Multiset.cons_add, ← Multiset.add_cons]
    exact h₁
  · rw [h₁.leaf, update_of_ne hv.ne]
  · rw [h₁.leaf, update_self]
  · exact Multiset.mem_add.2 (.inr (Multiset.mem_cons_self ..))

omit hU in
theorem Owns.setPage (h : Owns U m F) : Owns U (m.setPage x pg) F := h

omit hU in
theorem Space.table_le : tablePages m root ≤ spacePages m root npg + F := by
  rw [spacePages, add_assoc]
  exact le_self_add

theorem Space.setPage (h : Space b U m root tf npg (x ::ₘ F)) (pg : Page) : Space b U
    (m.setPage x pg) root tf npg (x ::ₘ F) ∧ Same (spacePages m root npg + F) m
    (m.setPage x pg) := by
  have ho := h.own
  rw [Multiset.add_cons] at ho
  have hall := Same.setPage (m := m) (hU.not_mem ho) pg
  exact ⟨h.congr (hall.mono Space.table_le) h.own.setPage, hall⟩

theorem Space.wp_kalloc {Q : Option ℕ → Mem → Prop} (h : Space b U m root tf npg F)
    (hnone : m.freelist = [] → Q none m)
    (hsome : ∀ r m₁, Space b U m₁ root tf npg (r ::ₘ F) → Same (spacePages m root npg + F) m m₁ →
      m.freelist.length = m₁.freelist.length + 1 → Q (some r) m₁) : wp kalloc E Q m :=
  Xv6.wp_kalloc hU h.own hnone fun r m₁ ho hs hlen =>
    hsome r m₁ (h.congr (hs.mono Space.table_le) (by rwa [Multiset.add_cons])) hs hlen

theorem Space.wp_kfree (h : Space b U m root tf npg (x ::ₘ F))
    (hQ : ∀ m₁, Space b U m₁ root tf npg F → Same (spacePages m root npg + F) m m₁ → Q ⟨⟩ m₁) :
    wp (kfree b x) E Q m := by
  have ho := h.own
  rw [Multiset.add_cons] at ho
  exact Xv6.wp_kfree hU ho fun m₁ ho₁ hs => hQ m₁ (h.congr (hs.mono Space.table_le) ho₁) hs

theorem Space.wp_undo {Q : ℕ → Mem → Prop} {k : ℕ} (h : Space b U m root tf npg F) (hk : k ≤ npg)
    (hQ : ∀ r m₁, Space b U m₁ root tf k F → Same F m m₁ → SameUser root k m m₁ → Q r m₁) :
    wp (uvmdealloc b root (npg * PGSIZE) (k * PGSIZE)) E Q m := by
  have hlt := h.npg_lt hU
  refine wp_uvmdealloc hU (by rwa [npages_mul]) ?_ (fun hle => hQ _ m ?_ Same.refl SameUser.refl)
    fun m₁ _ h₁ hs hu => hQ _ m₁ (by rwa [npages_mul] at h₁) hs (by rwa [npages_mul] at hu)
  · simp only [PGSIZE]
    omega
  · have heq : npg = k := le_antisymm (Nat.le_of_mul_le_mul_right hle (by decide)) hk
    exact heq ▸ h

end

/-- The user may touch the pages `[0, npg)`. -/
def AllUser (m : Mem) (root npg : ℕ) : Prop := ∀ v < npg, PteUser (m.entry root 2 v)

theorem AllUser.congr (h : AllUser m root npg) (hs : Same (tablePages m root) m m₁) :
    AllUser m₁ root npg := fun v hv => by
  rw [entry_congr (by omega) hs]
  exact h v hv

/-- The permissions of user memory. -/
abbrev userPerm : ℕ := PTE_W ||| PTE_X ||| PTE_R ||| PTE_U

/-- The pages `[a, e)` are new: the user may do all with them, and they are zero. -/
def NewPages (m : Mem) (root a e : ℕ) : Prop :=
  ∀ v, a ≤ v → v < e → m.user root v = (userPerm ||| PTE_V, memset 0)

theorem NewPages.self (a : ℕ) : NewPages m root a a := fun v hv hv' => absurd hv (by omega)

theorem NewPages.cons (h : m₁.user root a = (userPerm ||| PTE_V, memset 0))
    (hu : SameUser root (a + 1) m₁ m) (hn : NewPages m root (a + 1) e) : NewPages m root a e :=
  fun v hv hv' => by
  by_cases hva : v = a
  · rw [hva, hu.user (Nat.lt_succ_self a), h]
  · exact hn v (by omega) hv'

theorem user_of_flags (h : pteFlags pte = userPerm ||| PTE_V) : PteUser pte := by
  simp only [PteUser, pteFlags, userPerm, PTE_W, PTE_X, PTE_R, PTE_U, PTE_V, Nat.reduceOr] at *
  omega

theorem AllUser.grow {k : ℕ} (h : AllUser m root npg) (hu : SameUser root npg m m₁)
    (hn : NewPages m₁ root npg k) : AllUser m₁ root k := fun v hv => by
  by_cases hvn : v < npg
  · rw [hu.entry v hvn]
    exact h v hvn
  · exact user_of_flags (congrArg Prod.fst (hn v (Nat.not_lt.1 hvn) hv))

theorem user_mkPte (hpa : pa < 2 ^ 52) (hperm : perm < 1024)
    (h : m.entry root 2 v = mkPte pa perm) : m.user root v = (perm ||| PTE_V, m.page pa) := by
  rw [Mem.user, h, ptePage_mkPte hpa hperm, pteFlags, mkPte_mod hpa hperm]

/-- The loop of `uvmalloc` gets all `n` pages, or gives back those it got. -/
theorem Space.wp_uvmallocFrom {Q : Bool → Mem → Prop} {k : ℕ} (hU : Managed b U) (n : ℕ)
    (h : Space b U m root tf npg F) (hk : k ≤ npg)
    (hok : ∀ m₁, Space b U m₁ root tf (npg + n) F → Same F m m₁ → SameUser root npg m m₁ →
      NewPages m₁ root npg (npg + n) → Q true m₁)
    (hfail : ∀ m₁, Space b U m₁ root tf k F → Same F m m₁ → SameUser root k m m₁ → Q false m₁) :
    wp (uvmallocFrom b root (k * PGSIZE) n (npg * PGSIZE)) E Q m := by
  induction n generalizing m npg with
  | zero => exact wp_pure.2 (hok m h Same.refl SameUser.refl (NewPages.self npg))
  | succ n ih =>
    simp only [uvmallocFrom, wp_bind]
    refine h.wp_kalloc hU (fun _ => ?_) fun r m₁ h₁ hs₁ _ => ?_
    · simp only [wp_bind]
      exact h.wp_undo hU hk fun _ m₁ h₁ hs hu => wp_pure.2 (hfail m₁ h₁ hs hu)
    simp only [wp_bind, Xv6.setPage, wp_modify]
    have hr : r < 2 ^ 52 := (hU.manages r (h₁.own.mem
      (Multiset.mem_add.2 (.inr (Multiset.mem_cons_self ..))))).lt.trans (by decide)
    obtain ⟨h₂, hs₂⟩ := h₁.setPage hU (memset 0)
    rw [spacePages_congr (hs₁.mono Space.table_le)] at hs₂
    have hall := hs₁.trans hs₂
    have hs₂ : Same F m _ := hall.mono le_add_self
    have hu₂ : SameUser root npg m _ := .of_pages (hall.mono le_self_add)
    refine h₂.wp_mappages hU (by decide) (by decide) (fun m₃ h₃ hs₃ hu₃ _ => ?_)
      fun m₃ h₃ hs₃ hu₃ he hz => ?_
    · simp only [wp_ite, wp_bind]
      refine ⟨fun _ => h₃.wp_kfree hU fun m₄ h₄ hs₄ => ?_, fun hn => absurd (by decide) hn⟩
      have hu₄ := (hu₂.trans hu₃).trans (.of_pages (hs₄.mono le_self_add))
      refine h₄.wp_undo hU hk fun _ m₅ h₅ hs₅ hu₅ =>
        wp_pure.2 (hfail m₅ h₅ ?_ ((hu₄.mono hk).trans hu₅))
      exact (hs₂.trans (hs₃.trans (hs₄.mono le_add_self))).trans hs₅
    have hs := hs₂.trans hs₃
    have hu := hu₂.trans hu₃
    have hnew : m₃.user root npg = (userPerm ||| PTE_V, memset 0) := by
      rw [user_mkPte hr (by decide) he, hz]
      exact congrArg _ (update_self ..)
    have hnext := ih h₃ (by omega) (fun m₄ h₄ hs₄ hu₄ hn₄ => hok m₄ ?_ (hs.trans hs₄)
      (hu.trans (hu₄.mono (Nat.le_succ npg))) ?_)
      fun m₄ h₄ hs₄ hu₄ => hfail m₄ h₄ (hs.trans hs₄) ((hu.mono hk).trans hu₄)
    · rw [Nat.succ_mul] at hnext
      simp only [wp_ite]
      exact ⟨fun hn => absurd rfl hn, fun _ => hnext⟩
    · rwa [Nat.add_right_comm, Nat.add_assoc] at h₄
    · rw [Nat.add_right_comm, Nat.add_assoc] at hn₄
      exact hn₄.cons hnew hu₄

/-- **`uvmalloc`** grows the space by pages of zeros, or leaves it as it was. -/
theorem wp_uvmalloc {Q : ℕ → Mem → Prop} (hU : Managed b U)
    (h : Space b U m root tf (npages oldsz) F) (hless : newsz < oldsz → Q oldsz m)
    (hok : ∀ m₁, oldsz ≤ newsz → Space b U m₁ root tf (npages newsz) F → Same F m m₁ →
      SameUser root (npages oldsz) m m₁ → NewPages m₁ root (npages oldsz) (npages newsz) →
      Q newsz m₁)
    (hfail : ∀ m₁, oldsz ≤ newsz → Space b U m₁ root tf (npages oldsz) F → Same F m m₁ →
      SameUser root (npages oldsz) m m₁ → Q 0 m₁) :
    wp (uvmalloc b root oldsz newsz) E Q m := by
  have hlt := h.npg_lt hU
  have hold : oldsz < 2 ^ 63 := by
    simp only [npages, PGSIZE] at hlt
    omega
  simp only [uvmalloc, wp_ite, wp_pure]
  refine ⟨hless, fun hge => ?_⟩
  have hge : oldsz ≤ newsz := Nat.not_lt.1 hge
  have hn : npages oldsz + (newsz - npages oldsz * PGSIZE + PGSIZE - 1) / PGSIZE =
      npages newsz := by
    have := npages_mono hge
    simp only [npages, PGSIZE] at *
    omega
  simp only [wp_bind, pgroundup_eq hold]
  refine h.wp_uvmallocFrom hU _ le_rfl (fun m₁ h₁ hs hu hnew => ?_) fun m₁ h₁ hs hu => ?_
  · rw [hn] at h₁ hnew
    simpa using hok m₁ hge h₁ hs hu hnew
  · simpa using hfail m₁ hge h₁ hs hu

/-! ### Copying an address space -/

theorem pteFlags_lt (pte : ℕ) : pteFlags pte < 1024 := Nat.mod_lt _ (by decide)

theorem pteFlags_leaf (h : LeafPte pte) : PteLeaf (pteFlags pte) := by
  have := h.2
  simp only [PteLeaf, pteFlags] at *
  omega

theorem pteFlags_or_valid (h : PteValid pte) : pteFlags pte ||| PTE_V = pteFlags pte := by
  have hdiv : (pteFlags pte ||| PTE_V) / 2 = pteFlags pte / 2 := by
    rw [Nat.or_div_two]
    exact Nat.or_zero _
  have hmod : (pteFlags pte ||| PTE_V) % 2 = 1 := Nat.or_mod_two_eq_one.2 (.inr rfl)
  simp only [PteValid, pteFlags] at *
  omega

/-- The pages `[a, e)` of the table `new` look in `m₁` as those of `old` do in `m`. -/
def CopiedPages (old new a e : ℕ) (m m₁ : Mem) : Prop :=
  ∀ v, a ≤ v → v < e → m₁.user new v = m.user old v

/-- **`uvmcopy`** gives the new space copies of the pages of the old one, or none.  The
old space is among the pages that stay as they are. -/
theorem wp_uvmcopyFrom {Q : ℤ → Mem → Prop} (hU : Managed b U) (n : ℕ)
    (h : Space b U m root tf npg F) (hF : spacePages m old (npg + n) ≤ F)
    (hold : ∀ v < npg + n, LeafPte (m.entry old 2 v)) (hmax : npg + n ≤ 2 ^ 20)
    (hok : ∀ m₁, Space b U m₁ root tf (npg + n) F → Same F m m₁ → SameUser root npg m m₁ →
      CopiedPages old root npg (npg + n) m m₁ → Q 0 m₁)
    (hfail : ∀ m₁, Space b U m₁ root tf 0 F → Same F m m₁ → Q (-1) m₁) :
    wp (uvmcopyFrom b old root n npg) E Q m := by
  induction n generalizing m npg with
  | zero => exact wp_pure.2 (hok m h Same.refl SameUser.refl fun v hv hv' => absurd hv (by omega))
  | succ n ih =>
    have hdiv : npg * PGSIZE / PGSIZE = npg := Nat.mul_div_cancel _ (by decide)
    have hmapped := hold npg (by omega)
    -- both error exits unmap what has been copied so far
    have herr : ∀ {m₁ : Mem}, Space b U m₁ root tf npg F → Same F m m₁ →
        wp (uvmcopyFrom.err b root npg) E Q m₁ := by
      intro m₁ h₁ hs
      simp only [uvmcopyFrom.err, wp_bind]
      have := h₁.wp_uvmunmap (E := E) (Q := fun _ m' => wp (pure (-1) : MemM ℤ) E Q m') hU
        (Nat.zero_le _) fun m₂ h₂ hs₂ _ => wp_pure.2 (hfail m₂ h₂ (hs.trans hs₂))
      rwa [Nat.zero_mul] at this
    simp only [uvmcopyFrom, wp_bind]
    refine wp_walk_mapped ?_ (fun x hx hpte => ?_) (by rw [hdiv]; exact hmapped.ne_zero)
    · simp only [PGSIZE, MAXVA]
      omega
    rw [hdiv] at hpte ⊢
    simp only [wp_bind, wp_get, wp_ite, wp_throw, hpte]
    refine ⟨fun hn => absurd hmapped.1 hn, fun _ => ?_⟩
    refine h.wp_kalloc hU (fun _ => herr h Same.refl) fun r m₁ h₁ hs₁ _ => ?_
    have hr : r < 2 ^ 52 := (hU.manages r (h₁.own.mem
      (Multiset.mem_add.2 (.inr (Multiset.mem_cons_self ..))))).lt.trans (by decide)
    simp only [wp_bind, wp_get, setPage, wp_modify]
    obtain ⟨h₂, hs₂⟩ := h₁.setPage hU (m₁.page (ptePage (m.entry old 2 npg)))
    rw [spacePages_congr (hs₁.mono Space.table_le)] at hs₂
    have hu₂ : SameUser root npg m _ := .of_pages ((hs₁.trans hs₂).mono le_self_add)
    have hs₁ : Same F m m₁ := hs₁.mono le_add_self
    have hs₂ := hs₁.trans (hs₂.mono (Multiset.le_add_left F _))
    refine h₂.wp_mappages hU (pteFlags_lt _) (pteFlags_leaf hmapped) (fun m₃ h₃ hs₃ _ _ => ?_)
      fun m₃ h₃ hs₃ hu₃ he hpage => ?_
    · simp only [wp_ite, wp_bind]
      refine ⟨fun _ => h₃.wp_kfree hU fun m₄ h₄ hs₄ => herr h₄ ?_, fun hn => absurd (by decide) hn⟩
      exact hs₂.trans (hs₃.trans (hs₄.mono le_add_self))
    have hs := hs₂.trans hs₃
    have hold' := SameUser.of_pages (hs.mono hF)
    have htab := (hs.mono hF).mono le_self_add
    have hnew : m₃.user root npg = m.user old npg := by
      rw [user_mkPte hr (pteFlags_lt _) he, pteFlags_or_valid hmapped.1, hpage, Mem.user]
      refine congrArg _ ((update_self ..).trans (hs₁ _ (Multiset.mem_of_le hF ?_)))
      exact Multiset.mem_add.2 (.inr (mem_frames (Nat.zero_le _) (by omega)))
    have hn : npg + 1 + n = npg + (n + 1) := by omega
    simp only [wp_ite]
    refine ⟨fun hn => absurd rfl hn, fun _ => ih h₃ (by rwa [spacePages_congr htab, hn]) ?_
      (by omega) ?_ ?_⟩
    · intro v hv
      rw [hold'.entry v (by omega)]
      exact hold v (by omega)
    · intro m₄ h₄ hs₄ hu₄ hc₄
      rw [hn] at h₄ hc₄
      refine hok m₄ h₄ (hs.trans hs₄) ((hu₂.trans hu₃).trans (hu₄.mono (Nat.le_succ npg)))
        fun v hv hv' => ?_
      by_cases hvn : v = npg
      · rw [hvn, hu₄.user (Nat.lt_succ_self npg), hnew]
      · rw [hc₄ v (by omega) hv', hold'.user hv']
    · exact fun m₄ h₄ hs₄ => hfail m₄ h₄ (hs.trans hs₄)

theorem wp_uvmcopy {Q : ℤ → Mem → Prop} (hU : Managed b U)
    (h : Space b U m root tf 0 F) (hF : spacePages m old (npages sz) ≤ F)
    (hold : ∀ v < npages sz, LeafPte (m.entry old 2 v)) (hmax : npages sz ≤ 2 ^ 20)
    (hok : ∀ m₁, Space b U m₁ root tf (npages sz) F → Same F m m₁ → CopiedPages old root 0
      (npages sz) m m₁ → Q 0 m₁)
    (hfail : ∀ m₁, Space b U m₁ root tf 0 F → Same F m m₁ → Q (-1) m₁) :
    wp (uvmcopy b old root sz) E Q m := by
  rw [← Nat.zero_add (npages sz)] at hF hold hmax
  refine wp_uvmcopyFrom hU (npages sz) h hF hold hmax (fun m₁ h₁ hs _ hc => ?_) hfail
  rw [Nat.zero_add] at h₁ hc
  exact hok m₁ h₁ hs hc

/-! ### The guard page -/

theorem leafPte_clearUser (h : LeafPte pte) (hu : PteUser pte) :
    LeafPte (pte - PTE_U) ∧ ptePage (pte - PTE_U) = ptePage pte := by
  have h₁ := h.1
  have h₂ := h.2
  simp only [LeafPte, PteValid, PteLeaf, PteUser, PTE_U, ptePage] at *
  omega

theorem field_lt (m : Mem) (x i : ℕ) : m.pte x i < 256 ^ 8 := Bytes.field_lt ..

/-- **`uvmclear`** changes a flag of a user page only. -/
theorem wp_uvmclear (hU : Managed b U) (h : Space b U m root tf npg F) (hv : v < npg)
    (hQ : ∀ m₁, Space b U m₁ root tf npg F → Same F m m₁ →
      (∀ w, w ≠ v → m₁.entry root 2 w = m.entry root 2 w) →
      (∀ w < npg, (m₁.user root w).2 = (m.user root w).2) → Q ⟨⟩ m₁) :
    wp (uvmclear root (v * PGSIZE)) E Q m := by
  have hlt := h.npg_lt hU
  have hdiv : v * PGSIZE / PGSIZE = v := Nat.mul_div_cancel _ (by decide)
  have hmapped := h.is.shape.user v hv
  simp only [uvmclear, wp_bind]
  refine wp_walk_mapped ?_ (fun x hx hpte => ?_) (by rw [hdiv]; exact hmapped.ne_zero)
  · simp only [PGSIZE, MAXVA]
    omega
  rw [hdiv] at hpte hx ⊢
  simp only [wp_bind, wp_get, setPte, wp_modify, hpte]
  set pte := m.entry root 2 v with hpte'
  set new := if PteUser pte then pte - PTE_U else pte with hnew
  have hkeep : LeafPte new ∧ ptePage new = ptePage pte := by
    rw [hnew]
    split_ifs with hu
    · exact leafPte_clearUser hmapped hu
    · exact ⟨hmapped, rfl⟩
  have hsmall : new < 256 ^ 8 := by
    have hle : new ≤ pte := by
      rw [hnew]
      split_ifs <;> omega
    exact hle.trans_lt (hpte ▸ field_lt m x _)
  have hpt := h.pt
  have hset := hpt.set hU hx hsmall
  have hnot := hpt.not_mem_frame hU (node_eq_some (by omega) hx)
  have hsame : Same _ m (m.setPte x (v % NPTE) new) := Same.setPte hnot
  have hpage : ∀ w, ptePage ((m.setPte x (v % NPTE) new).entry root 2 w) = ptePage
      (m.entry root 2 w) := by
    intro w
    rw [hset.leaf]
    exact apply_update_of_eq ptePage (f := m.entry root 2) hkeep.2 w
  refine hQ _ (PT.space (f := update (m.entry root 2) v new) ?_ ⟨fun w hw => ?_, fun w hw => ?_⟩)
    (hsame.mono le_add_self) (fun w hw => ?_) fun w hw => ?_
  · have hframes : frames (update (m.entry root 2) v new) 0 npg = frames
        (m.entry root 2) 0 npg := by
      refine Finset.sum_congr rfl fun w _ => ?_
      rw [apply_update_of_eq ptePage (f := m.entry root 2) hkeep.2]
    rw [hframes]
    exact hset
  · by_cases hwv : w = v
    · rw [hwv, update_self]
      exact hkeep.1
    · rw [update_of_ne hwv]
      exact h.is.shape.user w hw
  · rw [update_of_ne (by omega)]
    exact h.is.shape.top w hw
  · rw [hset.leaf, update_of_ne hw]
  · simp only [Mem.user, hpage]
    exact hsame _ (Multiset.mem_add.2 (.inl (mem_frames (Nat.zero_le w) hw)))

/-! ### Making and freeing an address space -/

/-- **`uvmfree`** of a table with user memory and no top. -/
theorem wp_uvmfree (hU : Managed b U) (h : PT U m root f (frames f 0 (npages sz) + F))
    (huser : ∀ v < npages sz, LeafPte (f v)) (htop : ∀ v, npages sz ≤ v → f v = 0)
    (hQ : ∀ m₁, Owns U m₁ F → Same F m m₁ → Q ⟨⟩ m₁) : wp (uvmfree b root sz) E Q m := by
  have hlt : npages sz < 2 ^ 15 := by
    refine h.own.npages_lt (f := f) hU ?_
    rw [add_left_comm]
    exact le_self_add
  have hsz : sz < 2 ^ 63 := by
    simp only [npages, PGSIZE] at hlt
    omega
  simp only [uvmfree, wp_bind, wp_ite, pgroundup_eq hsz]
  rw [Nat.mul_div_cancel _ (by decide)]
  constructor
  · intro _
    have hunmap :=
      Xv6.wp_uvmunmap (E := E) (Q := fun _ m' => wp (freewalk b 3 root) E Q m') (a := 0)
        (n := npages sz) (F := F) hU ?_ (fun v _ hv => (huser v (by omega)).unmaps)
        (by rwa [Nat.zero_add]) ?_
    · rwa [Nat.zero_mul] at hunmap
    · simp only [PGSIZE, MAXVA]
      omega
    intro m₁ h₁ hs
    refine h₁.wp_freewalk hU (fun v => ?_) fun m₂ h₂ hs₂ => hQ m₂ h₂ (hs.trans hs₂)
    rw [clear]
    split_ifs with hv
    · rfl
    · exact htop v (by omega)
  · intro hz
    have h₀ : npages sz = 0 := by
      simp only [npages, PGSIZE]
      omega
    rw [h₀, frames_self, zero_add] at h
    exact h.wp_freewalk hU (fun v => htop v (by omega)) hQ

/-- **`proc_freepagetable`** frees the pages of the space, all of them and no other. -/
theorem wp_procFreepagetable (hU : Managed b U) (h : Space b U m root tf (npages sz) F)
    (htf : tf < 2 ^ 20) (hQ : ∀ m₁, Owns U m₁ F → Same F m m₁ → Q ⟨⟩ m₁) :
    wp (procFreepagetable b root sz) E Q m := by
  have hlt := h.npg_lt hU
  have hroot : root ∈ U := h.own.mem (Multiset.mem_of_le Space.table_le root_mem)
  have htop := h.is.shape.top
  have h₁ : m.entry root 2 trampolineVpn = mkPte b.trampoline (PTE_R ||| PTE_X) := by
    rw [htop _ (hlt.le.trans (by decide)), top, if_neg (by decide), if_pos rfl]
  have h₂ : m.entry root 2 trapframeVpn = mkPte tf (PTE_R ||| PTE_W) := by
    rw [htop _ (hlt.le.trans (by decide)), top, if_pos rfl]
  simp only [procFreepagetable, wp_bind]
  rw [← TRAMPOLINE_eq, ← TRAPFRAME_eq]
  refine wp_uvmunmap_keep hU h.pt (by decide) ?_ fun m₁ hm₁ hs₁ => ?_
  · rw [h₁]
    exact leafPte_mkPte (hU.trampoline_lt hroot) (by decide) (by decide)
  refine wp_uvmunmap_keep hU hm₁ (by decide) ?_ fun m₂ hm₂ hs₂ => ?_
  · rw [update_of_ne (by decide), h₂]
    exact leafPte_mkPte htf (by decide) (by decide)
  set g := update (update (m.entry root 2) trampolineVpn 0) trapframeVpn 0 with hg
  have hlow : ∀ v < npages sz, g v = m.entry root 2 v := by
    intro v hv
    have hv : v < 2 ^ 20 := by omega
    rw [hg, update_of_ne fun he => absurd (he ▸ hv) (by decide),
      update_of_ne fun he => absurd (he ▸ hv) (by decide)]
  have hhigh : ∀ v, npages sz ≤ v → g v = 0 := by
    intro v hv
    rw [hg, update_apply, update_apply]
    split_ifs with hv₁ hv₂
    · rfl
    · rfl
    · rw [htop v hv, top, if_neg hv₁, if_neg hv₂]
  rw [← frames_congr (g := g) fun v _ hv => hlow v hv] at hm₂
  refine wp_uvmfree hU hm₂ (fun v hv => ?_) hhigh fun m₃ hm₃ hs₃ => hQ m₃ hm₃ ?_
  · rw [hlow v hv]
    exact h.is.shape.user v hv
  · exact ((hs₁.trans hs₂).mono le_add_self).trans hs₃

theorem entry_of_empty (h : ∀ i < NPTE, m.pte root i = 0) (d v : ℕ) : m.entry root d v = 0 := by
  induction d generalizing v with
  | zero =>
    rw [Mem.entry]
    by_cases hv : v / NPTE = 0
    · rw [Radix.entry_of_node (x := root) (by rw [show sv39.B = NPTE from rfl, hv]; rfl)]
      exact h _ (Nat.mod_lt _ (by decide))
    · exact Radix.entry_of_none (if_neg hv)
  | succ d ih =>
    refine Radix.entry_of_none ?_
    rw [Radix.node_succ, show sv39.entry m.pte root d _ = 0 from ih _]
    rfl

theorem tablePages_of_empty (h : ∀ i < NPTE, m.pte root i = 0) : tablePages m root = {root} := by
  rw [tablePages, Radix.pages_eq_below, Radix.below_succ, Finset.sum_eq_zero, add_zero]
  intro i hi
  rw [h i (Finset.mem_range.1 hi)]
  rfl

/-- **`uvmcreate`** makes a table that maps nothing. -/
theorem wp_uvmcreate {Q : Option ℕ → Mem → Prop} (hU : Managed b U) (h : Owns U m F)
    (hnone : Q none m) (hsome : ∀ root m₁, PT U m₁ root (fun _ => 0) F → Same F m m₁ →
      m.freelist.length = m₁.freelist.length + 1 → Q (some root) m₁) :
    wp uvmcreate E Q m := by
  simp only [uvmcreate, wp_bind]
  refine wp_kalloc hU h (fun _ => wp_pure.2 hnone) fun r m₁ ho hs hlen => ?_
  simp only [wp_bind, setPage, wp_modify, wp_pure]
  have hempty : ∀ i < NPTE, (m₁.setPage r (memset 0)).pte r i = 0 := fun i _ =>
    pte_memset_zero (update_self ..)
  refine hsome r _ ⟨fun d _ v => .inl (entry_of_empty hempty d v), entry_of_empty hempty 2, ?_⟩
    (hs.trans (Same.setPage (hU.not_mem ho) _)) hlen
  rw [tablePages_of_empty hempty, Multiset.singleton_add]
  exact ho

/-- **`proc_pagetable`** makes an address space without user memory, or nothing. -/
theorem wp_procPagetable {Q : Option ℕ → Mem → Prop} (hU : Managed b U) (h : Owns U m F)
    (htf : tf < 2 ^ 20) (hnone : ∀ m₁, Owns U m₁ F → Same F m m₁ → Q none m₁)
    (hsome : ∀ root m₁, Space b U m₁ root tf 0 F → Same F m m₁ →
      m.freelist.length ≤ m₁.freelist.length + 5 → Q (some root) m₁) :
    wp (procPagetable b tf) E Q m := by
  simp only [procPagetable, wp_bind]
  refine wp_uvmcreate hU h (wp_pure.2 (hnone m h Same.refl)) fun root m₁ h₁ hs₁ hlen₁ => ?_
  have htramp : b.trampoline < 2 ^ 20 :=
    hU.trampoline_lt (h₁.own.mem (Multiset.mem_add.2 (.inl root_mem)))
  -- both error exits free a table that maps nothing
  have herr : ∀ {m₂ : Mem} {g : ℕ → ℕ}, PT U m₂ root g F → (∀ v, g v = 0) → Same F m m₂ →
      wp (uvmfree b root 0 >>= fun _ => pure none) E Q m₂ := by
    intro m₂ g h₂ hg hs₂
    rw [wp_bind]
    refine wp_uvmfree hU (f := g) ?_ (fun v hv => absurd hv (by simp [npages, PGSIZE]))
      (fun v _ => hg v) fun m₃ h₃ hs₃ => wp_pure.2 (hnone m₃ h₃ (hs₂.trans hs₃))
    rwa [show npages 0 = 0 from rfl, frames_self, zero_add]
  simp only [wp_bind]
  rw [← TRAMPOLINE_eq, ← TRAPFRAME_eq]
  refine wp_mappages hU h₁ (by decide) rfl htramp (by decide) (fun m₂ h₂ hs₂ _ => ?_)
    fun m₂ h₂ hs₂ hlen₂ => ?_
  · rw [if_pos (by decide)]
    exact herr h₂ (fun _ => rfl) (hs₁.trans hs₂)
  rw [if_neg (by decide), wp_bind]
  have hs₂ := hs₁.trans hs₂
  refine wp_mappages hU h₂ (by decide) (update_of_ne (by decide) _ _) htf (by decide)
    (fun m₃ h₃ hs₃ _ => ?_) fun m₃ h₃ hs₃ hlen₃ => ?_
  · rw [if_pos (by decide), wp_bind]
    refine wp_uvmunmap_keep hU h₃ (by decide) ?_ fun m₄ h₄ hs₄ =>
      herr h₄ (fun v => ?_) ((hs₂.trans hs₃).trans hs₄)
    · rw [update_self]
      exact leafPte_mkPte htramp (by decide) (by decide)
    · rw [update_idem, update_apply]
      split_ifs <;> rfl
  · rw [if_neg (by decide), wp_pure]
    rw [← zero_add F, ← frames_self _ 0] at h₃
    refine hsome root m₃ (h₃.space ⟨fun v hv => absurd hv (Nat.not_lt_zero v), fun v _ => ?_⟩)
      (hs₂.trans hs₃) (by omega)
    rw [update_apply, update_apply, top]

/-! ### Writing user memory -/

theorem not_user_top : ¬PteUser (top b tf v) := by
  rw [top]
  split_ifs
  · simp only [PteUser, mkPte, PTE_R, PTE_W, PTE_V, Nat.reduceOr]
    omega
  · simp only [PteUser, mkPte, PTE_R, PTE_X, PTE_V, Nat.reduceOr]
    omega
  · decide

/-- **The kernel reaches user memory only** through the addresses of a process. -/
theorem IsSpace.walkaddr_mem (h : IsSpace b m root tf npg)
    (hw : m.walkaddr root va = some pa) : pa ∈ frames (m.entry root 2) 0 npg := by
  simp only [Mem.walkaddr] at hw
  split_ifs at hw with hc
  obtain ⟨-, -, hu, -⟩ := hc
  obtain rfl := Option.some.inj hw
  have hv : va / PGSIZE < npg := by
    by_contra hn
    rw [h.shape.top _ (Nat.not_lt.1 hn)] at hu
    exact not_user_top hu
  exact mem_frames (Nat.zero_le _) hv

/-- Where all user memory is for the user, the kernel reaches all of it. -/
theorem Space.exists_walkaddr (hU : Managed b U) (h : Space b U m root tf npg F)
    (hu : AllUser m root npg) (hv : va / PGSIZE < npg) : ∃ pa, m.walkaddr root va = some pa := by
  have hlt := h.npg_lt hU
  have hleaf := h.is.shape.user _ hv
  have hmem : ptePage (m.entry root 2 (va / PGSIZE)) ∈ frames (m.entry root 2) 0 npg :=
    mem_frames (Nat.zero_le _) hv
  have hpage : b.Manages (ptePage (m.entry root 2 (va / PGSIZE))) := by
    refine hU.manages _ (h.own.mem (Multiset.mem_add.2 (.inl ?_)))
    exact Multiset.mem_add.2 (.inr hmem)
  refine ⟨_, if_pos ⟨?_, hleaf.1, hu _ hv, ?_⟩⟩
  · simp only [PGSIZE, MAXVA] at *
    omega
  · have hpos := b.trampoline_lt
    have hge := hpage.1
    simp only [PGSIZE] at *
    omega

/-- What writing user memory does: the space stays, and so does everything but the
user memory itself. -/
def Stored (b : Board) (U : Multiset ℕ) (root tf npg : ℕ) (F : Multiset ℕ) (m m₁ : Mem) : Prop :=
  Space b U m₁ root tf npg F ∧ Same (tablePages m root + F) m m₁

theorem Space.setUser (hU : Managed b U) (h : Space b U m root tf npg F)
    (hpa : pa ∈ frames (m.entry root 2) 0 npg) (pg : Page) :
    Stored b U root tf npg F m (m.setPage pa pg) := by
  have hnd := h.own.nodup hU
  rw [spacePages, add_right_comm] at hnd
  have hnot : pa ∉ tablePages m root + F := fun hin =>
    Multiset.disjoint_left.1 (Multiset.nodup_add.1 hnd).2.2 hin hpa
  have hs := Same.setPage (m := m) hnot pg
  exact ⟨h.congr (hs.mono le_self_add) h.own.setPage, hs⟩

theorem Stored.trans {m₂ : Mem} (h : Stored b U root tf npg F m m₁)
    (h' : Stored b U root tf npg F m₁ m₂) : Stored b U root tf npg F m m₂ := by
  refine ⟨h'.1, h.2.trans ?_⟩
  have := h'.2
  rwa [tablePages_congr (h.2.mono le_self_add)] at this

/-- **`copyout`** writes user memory. -/
theorem Space.wp_copyout {Q : ℤ → Mem → Prop} {dstva : ℕ} {src : List UInt8} (hU : Managed b U)
    (h : Space b U m root tf npg F) (hQ : ∀ r m₁, Stored b U root tf npg F m m₁ → Q r m₁) :
    wp (copyout root dstva src) E Q m := by
  rw [copyout]
  generalize src.length = fuel
  induction fuel generalizing m dstva src with
  | zero => exact wp_pure.2 (hQ 0 m ⟨h, Same.refl⟩)
  | succ fuel ih =>
    simp only [copyoutFrom, wp_ite, wp_pure, wp_bind, wp_get]
    refine ⟨fun _ => hQ 0 m ⟨h, Same.refl⟩, fun _ => ?_⟩
    cases hw : m.walkaddr root (pgrounddown dstva) with
    | none => exact wp_pure.2 (hQ (-1) m ⟨h, Same.refl⟩)
    | some pa =>
      simp only [wp_bind, wp_get, Xv6.setPage, wp_modify]
      have hst := h.setUser hU (h.is.walkaddr_mem hw)
        ((m.page pa).splice (dstva % PGSIZE) (src.take (PGSIZE - dstva % PGSIZE)))
      exact ih hst.1 fun r m₁ hst₁ => hQ r m₁ (hst.trans hst₁)

/-! ### A small machine -/

theorem trampoline_ge_tiny : KERNBASE ≤ KERNBASE / PGSIZE * PGSIZE := by decide

theorem trampoline_lt_tiny :
    KERNBASE / PGSIZE * PGSIZE + PGSIZE ≤ PHYSTOP - 16 * PGSIZE := by decide

/-- A kernel that leaves 16 pages to the allocator. -/
def tinyBoard : Board where
  kend := PHYSTOP - 16 * PGSIZE
  trampoline := KERNBASE / PGSIZE
  trampoline_ge := trampoline_ge_tiny
  trampoline_lt := trampoline_lt_tiny

end Xv6
