/-
# User memory is flat

`copyout` and `copyin` of `kernel/vm.c` go through user memory page by page.  To the caller it is
one array of bytes: `Mem.translate` says where the byte at a user address is, `Reachable` which
ranges the user may name, and `copy_flat` that the two are a store and a load of a range.
-/

import Xv6.Vm.Space
import Mathlib.Data.List.TakeWhile

namespace Xv6

open Lib Function

variable {m m₁ m₂ : Mem} {root va len : ℕ} {src : List UInt8} {a k max n pte x : ℕ} {r : ℤ}
  {E : Halt → Prop} {str : List UInt8}

/-! ### User addresses -/

/-- The virtual page `v` is mapped for the user. -/
def UserPage (m : Mem) (root v : ℕ) : Prop :=
  v * PGSIZE < MAXVA ∧ PteValid (m.entry root 2 v) ∧ PteUser (m.entry root 2 v)

instance (m : Mem) (root v : ℕ) : Decidable (UserPage m root v) :=
  inferInstanceAs (Decidable (_ ∧ _ ∧ _))

/-- The physical page that the virtual page `v` is mapped to. -/
def Mem.frame (m : Mem) (root v : ℕ) : ℕ := ptePage (m.entry root 2 v)

/-- The page and the position in it that the user address `va` means. -/
def Mem.translate (m : Mem) (root va : ℕ) : Option (ℕ × ℕ) :=
  if UserPage m root (va / PGSIZE) then some (m.frame root (va / PGSIZE), va % PGSIZE) else none

def Mem.byte (m : Mem) (a : ℕ × ℕ) : UInt8 := (m.page a.1).get a.2

/-- The bytes of the range `[va, va + len)`, as far as they are there. -/
def Mem.load (m : Mem) (root va len : ℕ) : List (Option UInt8) :=
  (List.range len).map fun k => (m.translate root (va + k)).map m.byte

/-- User pages are different pages, none of them page 0. -/
structure Distinct (m : Mem) (root : ℕ) : Prop where
  ne_zero : ∀ v, UserPage m root v → m.frame root v ≠ 0
  inj : ∀ v w, UserPage m root v → UserPage m root w → m.frame root v = m.frame root w → v = w

/-- No user page is a page of the table. -/
def Apart (m : Mem) (root : ℕ) : Prop := ∀ v, UserPage m root v → m.frame root v ∉ tablePages m root

/-- The user may name the range `[va, va + len)`. -/
def Reachable (m : Mem) (root va len : ℕ) : Prop := len = 0 ∨ va + len - 1 < 2 ^ 64 ∧
    ∀ v, va / PGSIZE ≤ v → v ≤ (va + len - 1) / PGSIZE → UserPage m root v

theorem userPage_congr (h : Same (tablePages m root) m m₁) (v : ℕ) :
    UserPage m₁ root v ↔ UserPage m root v := by
  rw [UserPage, UserPage, entry_congr (by decide) h]

theorem frame_congr (h : Same (tablePages m root) m m₁) (v : ℕ) :
    m₁.frame root v = m.frame root v := by
  rw [Mem.frame, Mem.frame, entry_congr (by decide) h]

theorem translate_congr (h : Same (tablePages m root) m m₁) (va : ℕ) :
    m₁.translate root va = m.translate root va := by
  simp only [Mem.translate, userPage_congr h, frame_congr h]

theorem Distinct.congr (hd : Distinct m root) (h : Same (tablePages m root) m m₁) :
    Distinct m₁ root where
  ne_zero v hv := by
    rw [frame_congr h]
    exact hd.ne_zero v ((userPage_congr h v).1 hv)
  inj v w hv hw he := by
    rw [frame_congr h, frame_congr h] at he
    exact hd.inj v w ((userPage_congr h v).1 hv) ((userPage_congr h w).1 hw) he

theorem Apart.congr (ha : Apart m root) (h : Same (tablePages m root) m m₁) : Apart m₁ root :=
  fun v hv => by
  rw [frame_congr h, tablePages_congr h]
  exact ha v ((userPage_congr h v).1 hv)

theorem reachable_congr (h : Same (tablePages m root) m m₁) :
    Reachable m₁ root va len ↔ Reachable m root va len := by
  simp only [Reachable, userPage_congr h]

/-- **Different addresses mean different bytes.** -/
theorem Distinct.translate_inj (hd : Distinct m root) {b : ℕ} {x : ℕ × ℕ}
    (ha : m.translate root a = some x) (hb : m.translate root b = some x) : a = b := by
  rw [Mem.translate] at ha hb
  split_ifs at ha hb with hva hvb
  have heq := (Option.some.inj ha).trans (Option.some.inj hb).symm
  rw [Prod.mk.injEq] at heq
  have hpage := hd.inj _ _ hva hvb heq.1
  rw [← Nat.div_add_mod a PGSIZE, ← Nat.div_add_mod b PGSIZE, hpage, heq.2]

/-- No page that is mapped for the user is page 0 of physical memory. -/
def NoPageZero (m : Mem) (root : ℕ) : Prop := ∀ v, UserPage m root v → m.frame root v ≠ 0

theorem NoPageZero.walkaddr_eq (hz : NoPageZero m root) (va : ℕ) :
    m.walkaddr root (pgrounddown va) = if UserPage m root (va / PGSIZE) then
    some (m.frame root (va / PGSIZE)) else none := by
  have hdiv : pgrounddown va / PGSIZE = va / PGSIZE := Nat.mul_div_cancel _ (by decide)
  simp only [Mem.walkaddr, hdiv]
  by_cases hu : UserPage m root (va / PGSIZE)
  · rw [if_pos hu, if_pos ⟨hu.1, hu.2.1, hu.2.2, hz _ hu⟩]
    rfl
  · rw [if_neg hu, if_neg fun hc => hu ⟨hc.1, hc.2.1, hc.2.2.1⟩]

theorem Distinct.walkaddr_eq (hd : Distinct m root) (va : ℕ) : m.walkaddr root (pgrounddown va) =
    if UserPage m root (va / PGSIZE) then some (m.frame root (va / PGSIZE)) else none :=
  NoPageZero.walkaddr_eq hd.ne_zero va

/-! ### Pieces of a range -/

/-- The bytes of the range that lie in its first page. -/
def firstPiece (va len : ℕ) : ℕ := min len (PGSIZE - va % PGSIZE)

theorem firstPiece_le : va % PGSIZE + firstPiece va len ≤ PGSIZE := by
  have := Nat.mod_lt va (show 0 < PGSIZE by decide)
  rw [firstPiece]
  omega

theorem firstPiece_pos (va : ℕ) (h : len ≠ 0) : 0 < firstPiece va len := by
  have := Nat.mod_lt va (show 0 < PGSIZE by decide)
  rw [firstPiece]
  omega

theorem translate_piece (hk : k < firstPiece va len) : m.translate root (va + k) =
    if UserPage m root (va / PGSIZE) then
    some (m.frame root (va / PGSIZE), va % PGSIZE + k) else none := by
  have hle : va % PGSIZE + k < PGSIZE := (Nat.add_lt_add_left hk _).trans_le firstPiece_le
  have hsum : va + k = PGSIZE * (va / PGSIZE) + (va % PGSIZE + k) := by
    rw [← Nat.add_assoc, Nat.div_add_mod]
  have hdiv : (va + k) / PGSIZE = va / PGSIZE := by
    rw [hsum, Nat.mul_add_div (by decide), Nat.div_eq_of_lt hle, Nat.add_zero]
  have hmod : (va + k) % PGSIZE = va % PGSIZE + k := by
    rw [hsum, Nat.mul_add_mod, Nat.mod_eq_of_lt hle]
  rw [Mem.translate, hdiv, hmod]

theorem next_eq (h : firstPiece va len < len) :
    pgrounddown va + PGSIZE = va + firstPiece va len := by
  simp only [firstPiece, pgrounddown, PGSIZE] at *
  omega

/-- **A range is reachable if its first page is and the rest is.** -/
theorem reachable_iff (hlen : len ≠ 0) : Reachable m root va len ↔ UserPage m root (va / PGSIZE) ∧
    Reachable m root (va + firstPiece va len) (len - firstPiece va len) := by
  have hpos := firstPiece_pos va hlen
  have hle : firstPiece va len ≤ len := min_le_left ..
  constructor
  · rintro (h0 | ⟨hlt, hall⟩)
    · exact absurd h0 hlen
    refine ⟨hall _ le_rfl (Nat.div_le_div_right (by omega)), ?_⟩
    by_cases hrest : len - firstPiece va len = 0
    · exact .inl hrest
    · have hend : va + firstPiece va len + (len - firstPiece va len) - 1 = va + len - 1 := by omega
      refine .inr ⟨by omega, fun v hv hv' => hall v ((Nat.div_le_div_right (by omega)).trans hv) ?_⟩
      rwa [hend] at hv'
  rintro ⟨hfirst, hrest⟩
  by_cases hone : len - firstPiece va len = 0
  · -- the range ends in its first page
    have hpage : (va + len - 1) / PGSIZE = va / PGSIZE := by
      simp only [firstPiece, PGSIZE] at *
      omega
    refine .inr ⟨?_, fun v hv hv' => ?_⟩
    · have h₁ := hfirst.1
      have h₂ := Nat.div_add_mod (va + len - 1) PGSIZE
      have h₃ := Nat.mod_lt (va + len - 1) (show 0 < PGSIZE by decide)
      rw [hpage] at h₂
      simp only [MAXVA, PGSIZE] at *
      omega
    · rw [hpage] at hv'
      rwa [le_antisymm hv' hv]
  · obtain h0 | ⟨hlt, hall⟩ := hrest
    · exact absurd h0 hone
    have hend : va + firstPiece va len + (len - firstPiece va len) - 1 = va + len - 1 := by omega
    rw [hend] at hlt hall
    refine .inr ⟨hlt, fun v hv hv' => ?_⟩
    by_cases hv₀ : v = va / PGSIZE
    · rwa [hv₀]
    · refine hall v ?_ hv'
      have hnext : pgrounddown va + PGSIZE = va + firstPiece va len := next_eq (by omega)
      rw [← hnext, pgrounddown, Nat.add_div_right _ (by decide), Nat.mul_div_cancel _ (by decide)]
      omega

/-! ### `copyout` -/

/-- `m₁` is `m` after a store to `[va, va + len)`: the meaning of addresses stays, and so does every
byte that no address of the range means. -/
structure Stores (root va len : ℕ) (m m₁ : Mem) : Prop where
  table : Same (tablePages m root) m m₁
  freelist : m₁.freelist = m.freelist
  outside : ∀ x, (∀ k < len, m.translate root (va + k) ≠ some x) → m₁.byte x = m.byte x

theorem Stores.refl : Stores root va len m m := ⟨Same.refl, rfl, fun _ _ => rfl⟩

theorem Stores.widen (h : Stores root va len m m₁) (hle : va' ≤ va) (hend : va + len ≤ va' + len') :
    Stores root va' len' m m₁ where
  table := h.table
  freelist := h.freelist
  outside x hx := h.outside x fun k hk => by
    have hadd : va' + (va - va' + k) = va + k := by omega
    rw [← hadd]
    exact hx (va - va' + k) (by omega)

theorem Stores.again (h : Stores root va len m m₁) (h' : Stores root va len m₁ m₂) :
    Stores root va len m m₂ where
  table := h.table.trans (by have := h'.table; rwa [tablePages_congr h.table] at this)
  freelist := h'.freelist.trans h.freelist
  outside x hx := by
    refine (h'.outside x fun k hk => ?_).trans (h.outside x hx)
    rw [translate_congr h.table]
    exact hx k hk

theorem Stores.trans (h : Stores root va n m m₁) (h' : Stores root (va + n) (len - n) m₁ m₂)
    (hn : n ≤ len) : Stores root va len m m₂ :=
  (h.widen le_rfl (by omega)).again (h'.widen (by omega) (by omega))

theorem Stores.load_eq (hd : Distinct m root) (h : Stores root va len m m₁)
    (hdis : a + n ≤ va ∨ va + len ≤ a) : m₁.load root a n = m.load root a n := by
  refine List.map_congr_left fun k hk => ?_
  have hk := List.mem_range.1 hk
  rw [translate_congr h.table]
  cases hx : m.translate root (a + k) with
  | none => rfl
  | some x =>
    refine congrArg some (h.outside x fun j hj he => ?_)
    have := hd.translate_inj he hx
    omega

/-- One round of the loop. -/
def Mem.storePiece (m : Mem) (root va : ℕ) (src : List UInt8) : Mem :=
  m.setPage (m.frame root (va / PGSIZE))
    ((m.page (m.frame root (va / PGSIZE))).splice (va % PGSIZE) (src.take (PGSIZE - va % PGSIZE)))

theorem storePiece_spec (src : List UInt8) (ha : Apart m root)
    (hu : UserPage m root (va / PGSIZE)) :
    Stores root va (firstPiece va src.length) m (m.storePiece root va src) ∧
    ∀ k (hk : k < firstPiece va src.length),
      (m.storePiece root va src).byte (m.frame root (va / PGSIZE), va % PGSIZE + k) =
        src.get ⟨k, hk.trans_le (min_le_left ..)⟩ := by
  set pa := m.frame root (va / PGSIZE) with hpa
  set piece := src.take (PGSIZE - va % PGSIZE) with hpiece
  have hplen : piece.length = firstPiece va src.length := by
    rw [hpiece, List.length_take, firstPiece, min_comm]
  have hfit : va % PGSIZE + piece.length ≤ PGSIZE := by
    rw [hplen]
    exact firstPiece_le
  have hpage : (m.storePiece root va src).page pa = (m.page pa).splice (va % PGSIZE) piece :=
    update_self ..
  refine ⟨⟨Same.setPage (ha _ hu) _, rfl, fun x hx => ?_⟩, fun k hk => ?_⟩
  · obtain ⟨y, o⟩ := x
    by_cases hy : y = pa
    · subst hy
      rw [Mem.byte, hpage, Mem.byte]
      refine Bytes.get_splice_of_not_mem _ _ _ ?_
      by_contra hin
      rw [not_or, Nat.not_lt, Nat.not_le, hplen] at hin
      refine hx (o - va % PGSIZE) (by omega) ?_
      rw [translate_piece (show o - va % PGSIZE < firstPiece va src.length by omega), if_pos hu,
        Nat.add_sub_cancel' hin.1]
    · exact congrArg (fun pg => Bytes.get pg o) (update_of_ne hy _ _)
  · rw [Mem.byte, hpage]
    refine (Bytes.get_splice_of_mem _ _ piece (by rwa [hplen]) hfit).trans ?_
    simp [hpiece]

/-- What `copyout` leaves. -/
structure CopiedOut (root va : ℕ) (src : List UInt8) (m : Mem) (r : ℤ) (m₁ : Mem) : Prop where
  ret : r = 0 ∨ r = -1
  ok_iff : r = 0 ↔ Reachable m root va src.length
  stores : Stores root va src.length m m₁
  bytes : r = 0 → ∀ k (hk : k < src.length), ∃ x, m.translate root (va + k) = some x ∧
    m₁.byte x = src.get ⟨k, hk⟩

theorem CopiedOut.nil : CopiedOut root va [] m 0 m :=
  ⟨.inl rfl, ⟨fun _ => .inl rfl, fun _ => rfl⟩, Stores.refl, fun _ k hk => absurd hk
    (Nat.not_lt_zero k)⟩

theorem CopiedOut.fail (hne : src ≠ []) (hu : ¬UserPage m root (va / PGSIZE)) :
    CopiedOut root va src m (-1) m := by
  have hlen : src.length ≠ 0 := fun h => hne (List.length_eq_zero_iff.1 h)
  refine ⟨.inr rfl, ⟨fun h => absurd h (by decide), fun h => ?_⟩, Stores.refl,
    fun h => absurd h (by decide)⟩
  exact absurd ((reachable_iff hlen).1 h).1 hu

theorem CopiedOut.of_nil (h : CopiedOut root a [] m r m₁) (va : ℕ) : CopiedOut root va [] m r m₁ :=
  ⟨h.ret, ⟨fun _ => .inl rfl, fun _ => h.ok_iff.2 (.inl rfl)⟩,
    ⟨h.stores.table, h.stores.freelist, fun x _ => h.stores.outside x fun k hk => absurd hk
    (Nat.not_lt_zero k)⟩,
    fun _ k hk => absurd hk (Nat.not_lt_zero k)⟩

theorem CopiedOut.next
    (h : CopiedOut root (pgrounddown va + PGSIZE) (src.drop (PGSIZE - va % PGSIZE)) m₁ r m₂) :
    CopiedOut root (va + firstPiece va src.length) (src.drop (firstPiece va src.length))
    m₁ r m₂ := by
  by_cases hlt : firstPiece va src.length < src.length
  · have hn : PGSIZE - va % PGSIZE = firstPiece va src.length := by
      rw [firstPiece] at hlt ⊢
      omega
    rwa [next_eq hlt, hn] at h
  · have hle : firstPiece va src.length = src.length :=
      le_antisymm (min_le_left ..) (Nat.not_lt.1 hlt)
    rw [List.drop_eq_nil_of_le (hle ▸ min_le_right ..)] at h
    rw [hle, List.drop_length]
    exact h.of_nil _

/-- **The first piece and then the rest.** -/
theorem CopiedOut.piece (hd : Distinct m root) (ha : Apart m root) (hne : src ≠ [])
    (hu : UserPage m root (va / PGSIZE))
    (h : CopiedOut root (pgrounddown va + PGSIZE) (src.drop (PGSIZE - va % PGSIZE))
      (m.storePiece root va src) r m₂) :
    CopiedOut root va src m r m₂ := by
  have hlen : src.length ≠ 0 := fun h => hne (List.length_eq_zero_iff.1 h)
  obtain ⟨hst, hbytes⟩ := storePiece_spec src ha hu
  obtain ⟨hret, hiff, hst₂, hbytes₂⟩ := h.next
  simp only [List.length_drop, reachable_congr hst.table, translate_congr hst.table]
    at hiff hst₂ hbytes₂
  refine ⟨hret, ?_, hst.trans hst₂ (min_le_left ..), fun hr k hk => ?_⟩
  · rw [hiff, reachable_iff hlen]
    exact ⟨fun h => ⟨hu, h⟩, And.right⟩
  by_cases hfirst : k < firstPiece va src.length
  · -- the rest is elsewhere in memory
    have htr : m.translate root (va + k) = some (m.frame root (va / PGSIZE), va % PGSIZE + k) := by
      rw [translate_piece hfirst, if_pos hu]
    refine ⟨_, htr, (hst₂.outside _ fun j hj he => ?_).trans (hbytes k hfirst)⟩
    rw [translate_congr hst.table] at he
    have := hd.translate_inj he htr
    omega
  · obtain ⟨x, hx, hbyte⟩ := hbytes₂ hr (k - firstPiece va src.length) (by omega)
    have hk' : va + firstPiece va src.length + (k - firstPiece va src.length) = va + k := by omega
    rw [hk'] at hx
    refine ⟨x, hx, hbyte.trans ?_⟩
    simp only [List.get_eq_getElem, List.getElem_drop]
    congr 1
    omega

/-- **The loop of `copyout`**, with enough rounds for the bytes to go. -/
theorem wp_copyoutFrom (fuel : ℕ) (hd : Distinct m root) (ha : Apart m root)
    (hfuel : src.length ≤ fuel) :
    wp (copyoutFrom root fuel va src) E (CopiedOut root va src m) m := by
  induction fuel generalizing m va src with
  | zero =>
    have hnil : src = [] := List.length_eq_zero_iff.1 (Nat.le_zero.1 hfuel)
    subst hnil
    exact wp_pure.2 CopiedOut.nil
  | succ fuel ih =>
    simp only [copyoutFrom, wp_ite, wp_pure, wp_bind, wp_get]
    refine ⟨?_, fun hne => ?_⟩
    · rintro rfl
      exact CopiedOut.nil
    rw [hd.walkaddr_eq]
    by_cases hu : UserPage m root (va / PGSIZE)
    · rw [if_pos hu]
      simp only [wp_bind, wp_get, Xv6.setPage, wp_modify]
      have htable := (storePiece_spec src ha hu).1.table
      have hpos := List.length_pos_of_ne_nil hne
      have hmod := Nat.mod_lt va (show 0 < PGSIZE by decide)
      refine wp_mono (ih (hd.congr htable) (ha.congr htable) ?_) fun r m₂ h => h.piece hd ha hne hu
      rw [List.length_drop]
      omega
    · rw [if_neg hu]
      exact wp_pure.2 (CopiedOut.fail hne hu)

theorem CopiedOut.load (h : CopiedOut root va src m r m₁) (hr : r = 0) :
    m₁.load root va src.length = src.map some := by
  refine List.ext_getElem (by simp [Mem.load]) fun k h₁ h₂ => ?_
  rw [List.length_map] at h₂
  obtain ⟨x, hx, hbyte⟩ := h.bytes hr k h₂
  simp only [Mem.load, List.getElem_map, List.getElem_range, translate_congr h.stores.table, hx,
    Option.map_some, hbyte, List.get_eq_getElem]

/-! ### `copyin` -/

theorem load_add (m : Mem) (root va j k : ℕ) :
    m.load root va (j + k) = m.load root va j ++ m.load root (va + j) k := by
  simp only [Mem.load, List.range_add, List.map_append, List.map_map, comp_def, Nat.add_assoc]

theorem load_piece (hu : UserPage m root (va / PGSIZE)) : m.load root va (firstPiece va len) =
    ((m.page (m.frame root (va / PGSIZE))).read (va % PGSIZE) (firstPiece va len)).map some := by
  rw [Mem.load, Bytes.read, List.map_map]
  refine List.map_congr_left fun k hk => ?_
  rw [translate_piece (List.mem_range.1 hk), if_pos hu]
  rfl

theorem copyinFrom_zero (fuel va : ℕ) : m.copyinFrom root fuel va 0 = ([], true) := by
  cases fuel with
  | zero => rfl
  | succ fuel => rw [Mem.copyinFrom, if_pos rfl]

theorem Distinct.copyinFrom_succ (hd : Distinct m root) (fuel : ℕ) (hlen : len ≠ 0) :
    m.copyinFrom root (fuel + 1) va len = if UserPage m root (va / PGSIZE) then
      ((m.page (m.frame root (va / PGSIZE))).read (va % PGSIZE) (firstPiece va len) ++
          (m.copyinFrom root fuel (va + firstPiece va len) (len - firstPiece va len)).1,
        (m.copyinFrom root fuel (va + firstPiece va len) (len - firstPiece va len)).2)
      else ([], false) := by
  have hnext : m.copyinFrom root fuel (pgrounddown va + PGSIZE) (len - firstPiece va len) =
      m.copyinFrom root fuel (va + firstPiece va len) (len - firstPiece va len) := by
    by_cases hlt : firstPiece va len < len
    · rw [next_eq hlt]
    · rw [Nat.sub_eq_zero_of_le (Nat.not_lt.1 hlt), copyinFrom_zero, copyinFrom_zero]
  rw [Mem.copyinFrom, if_neg hlen, hd.walkaddr_eq, ← hnext]
  split_ifs
  · rfl
  · rfl

/-- **The loop of `copyin`**: it succeeds if and only if the range is reachable, and then it has
read the bytes of the range. -/
theorem copyinFrom_spec (fuel va : ℕ) (hd : Distinct m root) (hfuel : len ≤ fuel) :
    ((m.copyinFrom root fuel va len).2 = true ↔ Reachable m root va len) ∧
    ((m.copyinFrom root fuel va len).2 = true → (m.copyinFrom root fuel va len).1.map some =
      m.load root va len) := by
  induction fuel generalizing va len with
  | zero =>
    obtain rfl := Nat.le_zero.1 hfuel
    exact ⟨⟨fun _ => .inl rfl, fun _ => rfl⟩, fun _ => rfl⟩
  | succ fuel ih =>
    by_cases hlen : len = 0
    · rw [hlen, copyinFrom_zero]
      exact ⟨⟨fun _ => .inl rfl, fun _ => rfl⟩, fun _ => rfl⟩
    rw [hd.copyinFrom_succ fuel hlen, reachable_iff hlen]
    by_cases hu : UserPage m root (va / PGSIZE)
    · have hpos := firstPiece_pos va hlen
      have hle : firstPiece va len ≤ len := min_le_left ..
      obtain ⟨hiff, hbytes⟩ :=
        ih (va + firstPiece va len) (show len - firstPiece va len ≤ fuel by omega)
      rw [if_pos hu]
      refine ⟨⟨fun h => ⟨hu, hiff.1 h⟩, fun h => hiff.2 h.2⟩, fun h => ?_⟩
      rw [List.map_append, hbytes h, ← load_piece hu, ← load_add, Nat.add_sub_cancel' hle]
    · rw [if_neg hu]
      exact ⟨⟨fun h => absurd h Bool.false_ne_true, fun h => absurd h.1 hu⟩,
        fun h => absurd h Bool.false_ne_true⟩

/-! ### Flat memory -/

/-- **`copyout` and `copyin` implement flat user memory**, for a page table whose user pages are
different pages, none of them page 0 and none of them a page of the table.  `copyout` returns 0 if
and only if the user may name the whole range, and then the range holds `src`; whatever it returns,
no byte changes that no address of the range means.  `copyin` succeeds under the same condition and
gives the bytes of the range, so that after a `copyout` that succeeded it gives back `src`. -/
theorem copy_flat (hd : Distinct m root) (ha : Apart m root) (va : ℕ) (src : List UInt8) :
    ∃ r m₁, (copyout root va src).run m = .ok (r, m₁) ∧ (r = 0 ∨ r = -1) ∧
    (r = 0 ↔ Reachable m root va src.length) ∧ (r = 0 → m₁.load root va src.length = src.map some) ∧
      (∀ x, (∀ k < src.length, m.translate root (va + k) ≠ some x) → m₁.byte x = m.byte x) ∧
      (∀ len, (m.copyin root va len).2 = true ↔ Reachable m root va len) ∧
      (∀ len, (m.copyin root va len).2 = true → (m.copyin root va len).1.map some =
      m.load root va len) ∧ (r = 0 → m₁.copyin root va src.length = (src, true)) := by
  have hout : wp (copyout root va src) (fun _ => False) (CopiedOut root va src m) m :=
    wp_copyoutFrom _ hd ha le_rfl
  obtain ⟨r, m₁, hrun, h⟩ := exists_run_of_wp hout
  refine ⟨r, m₁, hrun, h.ret, h.ok_iff, h.load, h.stores.outside,
    fun len => (copyinFrom_spec len va hd le_rfl).1, fun len =>
      (copyinFrom_spec len va hd le_rfl).2, fun hr => ?_⟩
  obtain ⟨hiff, hbytes⟩ := copyinFrom_spec src.length va (hd.congr h.stores.table) le_rfl
  have hok := hiff.2 ((reachable_congr h.stores.table).2 (h.ok_iff.1 hr))
  refine Prod.ext ?_ hok
  have hmap := (hbytes hok).trans (h.load hr)
  exact (List.map_injective_iff.2 (Option.some_injective _)) hmap

/-! ### The memory of a process -/

section Process

variable {b : Board} {U F : Multiset ℕ} {tf npg v : ℕ}

theorem IsSpace.lt_of_userPage (h : IsSpace b m root tf npg) (hu : UserPage m root v) :
    v < npg := by
  by_contra hge
  have huser := hu.2.2
  rw [h.shape.top v (Nat.not_lt.1 hge)] at huser
  exact not_user_top huser

theorem IsSpace.frame_mem (h : IsSpace b m root tf npg) (hu : UserPage m root v) :
    m.frame root v ∈ frames (m.entry root 2) 0 npg :=
  mem_frames (Nat.zero_le v) (h.lt_of_userPage hu)

section

variable (hU : Managed b U) (h : Space b U m root tf npg F)
include hU h

theorem Space.ptePage_inj (hv : v < npg) (hw : w < npg)
    (he : ptePage (m.entry root 2 v) = ptePage (m.entry root 2 w)) : v = w := by
  have hnd := Multiset.nodup_of_le le_self_add (h.own.nodup hU)
  have hframes : (∑ v ∈ Finset.Ico 0 npg, hold (some (m.frame root v))).Nodup :=
    (Multiset.nodup_add.1 hnd).2.1
  have hone := Multiset.nodup_iff_count_le_one.1 hframes (m.frame root v)
  refine eq_of_sum_hold hone ?_ ?_ rfl (congrArg some he.symm)
  · exact Finset.mem_Ico.2 ⟨Nat.zero_le v, hv⟩
  · exact Finset.mem_Ico.2 ⟨Nat.zero_le w, hw⟩

theorem Space.distinct : Distinct m root where
  ne_zero v hu hzero := by
    have hmem := h.is.frame_mem hu
    have hmanaged : b.Manages (m.frame root v) := by
      refine hU.manages _ (h.own.mem (Multiset.mem_add.2 (.inl ?_)))
      exact Multiset.mem_add.2 (.inr hmem)
    have hge := hmanaged.1
    have hlt := b.trampoline_lt
    rw [hzero] at hge
    simp only [PGSIZE] at *
    omega
  inj v w hv hw he := h.ptePage_inj hU (h.is.lt_of_userPage hv) (h.is.lt_of_userPage hw) he

theorem Space.apart : Apart m root := fun v hu hmem => by
  have hnd := Multiset.nodup_of_le le_self_add (h.own.nodup hU)
  exact Multiset.disjoint_left.1 (Multiset.nodup_add.1 hnd).2.2 hmem (h.is.frame_mem hu)

theorem Stores.page_eq (hbase : base % PGSIZE = 0) (hs : Stores root base PGSIZE m m₁)
    (hv : v < npg) (hne : v ≠ base / PGSIZE) :
    m₁.page (ptePage (m.entry root 2 v)) = m.page (ptePage (m.entry root 2 v)) := by
  refine Bytes.ext_get fun o => hs.outside (ptePage (m.entry root 2 v), o) fun k hk he => ?_
  rw [Mem.translate] at he
  split_ifs at he with hu
  have hpage : (base + k) / PGSIZE = base / PGSIZE := by
    simp only [PGSIZE] at *
    omega
  rw [hpage] at he hu
  rw [Option.some.injEq, Prod.mk.injEq] at he
  exact hne (h.ptePage_inj hU (h.is.lt_of_userPage hu) hv he.1).symm

end

theorem SameUser.load_eq (h : SameUser root k m m₁) (hend : a + n ≤ k * PGSIZE) :
    m₁.load root a n = m.load root a n := by
  refine List.map_congr_left fun i hi => ?_
  have hi := List.mem_range.1 hi
  have hv : (a + i) / PGSIZE < k := Nat.div_lt_of_lt_mul (by rw [Nat.mul_comm]; omega)
  have hentry := h.entry _ hv
  have huser : UserPage m₁ root ((a + i) / PGSIZE) ↔ UserPage m root ((a + i) / PGSIZE) := by
    rw [UserPage, UserPage, hentry]
  have hframe : m₁.frame root ((a + i) / PGSIZE) = m.frame root ((a + i) / PGSIZE) :=
    congrArg ptePage hentry
  have htr : m₁.translate root (a + i) = m.translate root (a + i) := by
    simp only [Mem.translate, huser, hframe]
  rw [htr]
  cases hx : m.translate root (a + i) with
  | none => rfl
  | some x =>
    rw [Mem.translate] at hx
    split_ifs at hx
    obtain rfl := Option.some.inj hx
    refine congrArg some (congrArg (fun pg => Bytes.get pg ((a + i) % PGSIZE)) ?_)
    exact h.page _ (mem_frames (Nat.zero_le _) hv)

/-- **`copyout` to a process**: what it stores, and what it leaves alone. -/
theorem Space.wp_copyout_exact (hU : Managed b U) (h : Space b U m root tf npg F)
    (hQ : ∀ r m₁, Stored b U root tf npg F m m₁ → CopiedOut root va src m r m₁ → Q r m₁) :
    wp (copyout root va src) E Q m := by
  have hstored :
      wp (copyout root va src) (fun _ => False) (fun _ => Stored b U root tf npg F m) m :=
    h.wp_copyout hU fun _ _ hst => hst
  have hcopied : wp (copyout root va src) (fun _ => False) (CopiedOut root va src m) m :=
    wp_copyoutFrom _ (h.distinct hU) (h.apart hU) le_rfl
  exact wp_mono_stop (wp_mono (wp_and hstored hcopied) fun r m₁ h => hQ r m₁ h.1 h.2)
    fun _ he => he.1.elim

end Process

/-! ### A small page table -/

def onePte (pte : ℕ) : Page := (memset 0).setField 8 0 pte

/-- A page table in the pages 1, 2 and 3, with one leaf entry. -/
def oneLeaf (pte : ℕ) : Mem where
  page x := if x = 1 then onePte (mkPte 2 0) else if x = 2 then onePte (mkPte 3 0)
    else if x = 3 then onePte pte else memset 0
  freelist := []

theorem pte_onePte (hm : m.page x = onePte pte) (hpte : pte < 256 ^ 8) (i : ℕ) :
    m.pte x i = if i = 0 then pte else 0 := by
  rw [Mem.pte, hm, onePte]
  split_ifs with hi
  · subst hi
    exact Bytes.field_setField 8 _ (by decide) hpte
  · rw [Bytes.field_setField_of_disjoint _ _ _ (.inr (by omega))]
    exact pte_memset_zero (m := ⟨fun _ => memset 0, []⟩) (x := 0) rfl

theorem child_oneLeaf (pte : ℕ) (hx : x = 1 ∨ x = 2) (i : ℕ) :
    sv39.child ((oneLeaf pte).pte x i) = if i = 0 then some (x + 1) else none := by
  rcases hx with rfl | rfl
  · rw [pte_onePte (m := oneLeaf pte) (x := 1) rfl (by decide)]
    split_ifs <;> rfl
  · rw [pte_onePte (m := oneLeaf pte) (x := 2) rfl (by decide)]
    split_ifs <;> rfl

theorem node_oneLeaf (pte : ℕ) (hd : d < 3) (w : ℕ) :
    sv39.node (oneLeaf pte).pte 1 d w = if w = 0 then some (d + 1) else none := by
  induction d generalizing w with
  | zero => rfl
  | succ d ih =>
    have hB : sv39.B = 512 := rfl
    rw [Radix.node_succ, Radix.entry, ih (by omega), hB]
    by_cases hw : w / 512 = 0
    · rw [if_pos hw, Option.elim_some, child_oneLeaf pte (by omega)]
      exact if_congr (by omega) rfl rfl
    · rw [if_neg hw, Option.elim_none, if_neg (by omega)]
      rfl

theorem entry_oneLeaf (hpte : pte < 256 ^ 8) (v : ℕ) :
    (oneLeaf pte).entry 1 2 v = if v = 0 then pte else 0 := by
  have hB : sv39.B = 512 := rfl
  rw [Mem.entry, Radix.entry, node_oneLeaf pte (by decide), hB]
  by_cases hv : v / 512 = 0
  · rw [if_pos hv, Option.elim_some, pte_onePte (m := oneLeaf pte) (x := 3) rfl hpte]
    exact if_congr (by omega) rfl rfl
  · rw [if_neg hv, if_neg (by omega)]
    rfl

theorem mem_tablePages_oneLeaf (hx : x ∈ tablePages (oneLeaf pte) 1) : x < 4 := by
  rw [tablePages, Radix.pages_eq_sum, Multiset.mem_sum] at hx
  obtain ⟨d, hd, hx⟩ := hx
  obtain ⟨w, -, hx⟩ := Multiset.mem_sum.1 hx
  have hd := Finset.mem_range.1 hd
  rw [node_oneLeaf pte hd] at hx
  split_ifs at hx
  · simp only [hold, Option.elim_some, Multiset.mem_singleton] at hx
    omega
  · simp [hold] at hx

theorem oneLeaf_distinct (hpte : pte < 256 ^ 8) (hpage : ptePage pte ≠ 0) :
    Distinct (oneLeaf pte) 1 := by
  have hzero : ∀ v, UserPage (oneLeaf pte) 1 v → v = 0 := fun v hv => by
    by_contra hne
    have hvalid := hv.2.1
    rw [entry_oneLeaf hpte, if_neg hne] at hvalid
    exact absurd hvalid (by decide)
  refine ⟨fun v hv => ?_, fun v w hv hw _ => by rw [hzero v hv, hzero w hw]⟩
  rw [hzero v hv, Mem.frame, entry_oneLeaf hpte, if_pos rfl]
  exact hpage

def fourPte : ℕ := mkPte 4 (PTE_R ||| PTE_W ||| PTE_U)

theorem apart_fourPte : Apart (oneLeaf fourPte) 1 := fun v hv hmem => by
  have hlt := mem_tablePages_oneLeaf hmem
  rw [Mem.frame, entry_oneLeaf (by decide)] at hlt
  have hvalid := hv.2.1
  rw [entry_oneLeaf (by decide)] at hvalid
  split_ifs at hlt hvalid
  · exact absurd hlt (by decide)
  · exact absurd hvalid (by decide)

theorem copy_flat_two : Distinct (oneLeaf fourPte) 1 ∧ Apart (oneLeaf fourPte) 1 ∧
    ∃ m₁, (copyout 1 100 [7, 8]).run (oneLeaf fourPte) = .ok (0, m₁) ∧
    m₁.load 1 100 2 = [some 7, some 8] ∧ m₁.copyin 1 100 2 = ([7, 8], true) := by
  have hd : Distinct (oneLeaf fourPte) 1 := oneLeaf_distinct (by decide) (by decide)
  obtain ⟨r, m₁, hrun, -, hiff, hload, -, -, -, hback⟩ := copy_flat hd apart_fourPte 100 [7, 8]
  have hr : r = 0 := hiff.2 (.inr ⟨by decide, fun v hv hv' => by
    have hv : 0 ≤ v := hv
    have hv' : v ≤ 0 := hv'
    rw [le_antisymm hv' hv]
    decide +kernel⟩)
  subst hr
  exact ⟨hd, apart_fourPte, m₁, hrun, hload rfl, hback rfl⟩

/-- Page 3, the last table itself. -/
def selfPte : ℕ := mkPte 3 (PTE_R ||| PTE_W ||| PTE_U)

/-- **A store that unmaps itself.**  The only user page is the page that holds its entry.  Eight
zero bytes at address 0 are stored, and with that the address is no longer mapped. -/
theorem copyout_unmaps_itself : Distinct (oneLeaf selfPte) 1 ∧
    ∃ m₁, (copyout 1 0 (List.replicate 8 0)).run (oneLeaf selfPte) = .ok (0, m₁) ∧
      m₁.load 1 0 8 = List.replicate 8 none := by
  have hrun : wp (copyout 1 0 (List.replicate 8 0)) (fun _ => False) (fun r m₁ => r = 0 ∧
      m₁.load 1 0 8 = List.replicate 8 none) (oneLeaf selfPte) := by decide +kernel
  obtain ⟨r, m₁, hrun, rfl, hload⟩ := exists_run_of_wp hrun
  exact ⟨oneLeaf_distinct (by decide) (by decide), m₁, hrun, hload⟩

/-! ### Strings -/

theorem zero_notMem_copyinstrFrom (h : m.copyinstrFrom root fuel va max = some str) : 0 ∉ str := by
  induction fuel generalizing va max str with
  | zero => cases h
  | succ fuel ih =>
    rw [Mem.copyinstrFrom] at h
    split_ifs at h
    split at h
    · cases h
    rename_i pa _
    dsimp only at h
    split_ifs at h with hshort
    · rw [← Option.some.inj h]
      exact fun hmem => absurd (List.mem_takeWhile_imp hmem) (by decide)
    · obtain ⟨rest, hrest, rfl⟩ := Option.map_eq_some_iff.1 h
      refine fun hmem => (List.mem_append.1 hmem).elim (fun hpiece => ?_) (ih hrest)
      have hall := (List.takeWhile_prefix _).eq_of_length_le (Nat.not_lt.1 hshort)
      rw [← hall] at hpiece
      exact absurd (List.mem_takeWhile_imp hpiece) (by decide)

theorem zero_notMem_copyinstr (h : m.copyinstr root va max = some str) : 0 ∉ str :=
  zero_notMem_copyinstrFrom h

end Xv6
