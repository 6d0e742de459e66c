/-
# `copyinstr` is exact

`copyinstr` of `kernel/vm.c` with its answer, the bytes that it writes to `dst`, and the user pages
that it reads (`copyinstrRun`); `Mem.copyinstr` is the string of it.  A string stands at `va` if
there is a NUL less than `max` bytes on, in pages that are mapped for the user (`StringAt`).
-/

import Xv6.Vm.Copy

namespace Xv6

open Lib

variable {m : Mem} {root va max k : ℕ} {i j len : ℕ}

/-! ### The code -/

/-- What a call of `copyinstr` answers, the bytes it has written to `dst` from its start on, and the
virtual pages it has read. -/
structure StrRun where
  ret : ℤ
  dst : List UInt8
  pages : List ℕ

/-- The inner loop, over `n` bytes from `p` on: what it writes, and `got_null`. -/
def copyPiece (pg : Page) : ℕ → ℕ → List UInt8 × Bool
  | 0, _ => ([], false)
  | n + 1, p =>
    if pg.get p = 0 then ([0], true)
    else
      let r := copyPiece pg n (p + 1)
      (pg.get p :: r.1, r.2)

def Mem.copyinstrRunFrom (m : Mem) (pagetable : ℕ) : ℕ → ℕ → ℕ → StrRun
  | 0, _, _ => ⟨-1, [], []⟩
  | fuel + 1, srcva, max =>
    if max = 0 then ⟨-1, [], []⟩
    else match m.walkaddr pagetable (pgrounddown srcva) with
      | none => ⟨-1, [], []⟩
      | some pa =>
        let n := min max (PGSIZE - srcva % PGSIZE)
        let piece := copyPiece (m.page pa) n (srcva % PGSIZE)
        if piece.2 = true then ⟨0, piece.1, [srcva / PGSIZE]⟩
        else
          let r := m.copyinstrRunFrom pagetable fuel (pgrounddown srcva + PGSIZE) (max - n)
          ⟨r.ret, piece.1 ++ r.dst, srcva / PGSIZE :: r.pages⟩

def Mem.copyinstrRun (m : Mem) (pagetable srcva max : ℕ) : StrRun :=
  m.copyinstrRunFrom pagetable max srcva max

/-! ### One page -/

theorem copyPiece_cases (pg : Page) (n p : ℕ) :
    (∃ j < n, pg.get (p + j) = 0 ∧ (∀ i < j, pg.get (p + i) ≠ 0) ∧
      copyPiece pg n p = (pg.read p (j + 1), true)) ∨ (∀ i < n, pg.get (p + i) ≠ 0) ∧
      copyPiece pg n p = (pg.read p n, false) := by
  induction n generalizing p with
  | zero => exact .inr ⟨fun i hi => absurd hi (Nat.not_lt_zero i), rfl⟩
  | succ n ih =>
    rw [copyPiece]
    by_cases h0 : pg.get p = 0
    · refine .inl ⟨0, Nat.succ_pos n, h0, fun i hi => absurd hi (Nat.not_lt_zero i), ?_⟩
      rw [if_pos h0, Bytes.read_succ, h0]
      rfl
    have hshift : ∀ j, (∀ i < j, pg.get (p + 1 + i) ≠ 0) → ∀ i < j + 1, pg.get (p + i) ≠ 0 := by
      intro j hj i hi
      cases i with
      | zero => exact h0
      | succ i =>
        rw [Nat.add_comm i, ← Nat.add_assoc]
        exact hj i (by omega)
    rw [if_neg h0]
    rcases ih (p + 1) with ⟨j, hj, hnul, hbefore, hpiece⟩ | ⟨hall, hpiece⟩
    · refine .inl ⟨j + 1, by omega, by rwa [Nat.add_comm j, ← Nat.add_assoc], hshift j hbefore, ?_⟩
      rw [hpiece, Bytes.read_succ pg p (j + 1)]
    · exact .inr ⟨hshift n hall, by rw [hpiece, Bytes.read_succ]⟩

theorem takeWhile_read (pg : Page) (n p : ℕ) :
    (copyPiece pg n p).2 = true ∧ (pg.read p n).takeWhile (· ≠ 0) ++ [0] = (copyPiece pg n p).1 ∧
    ((pg.read p n).takeWhile (· ≠ 0)).length < (pg.read p n).length ∨ (copyPiece pg n p).2 = false ∧
    (copyPiece pg n p).1 = pg.read p n ∧ ¬((pg.read p n).takeWhile (· ≠ 0)).length <
    (pg.read p n).length := by
  induction n generalizing p with
  | zero => exact .inr ⟨rfl, rfl, by simp [Bytes.read]⟩
  | succ n ih =>
    rw [copyPiece, Bytes.read_succ]
    by_cases h0 : pg.get p = 0
    · simp [h0]
    · simpa [h0] using ih (p + 1)

theorem copyinstrFrom_eq_run (m : Mem) (root fuel va max : ℕ) :
    (m.copyinstrRunFrom root fuel va max).ret = 0 ∧
    (∃ str, m.copyinstrFrom root fuel va max = some str ∧
      (m.copyinstrRunFrom root fuel va max).dst = str ++ [0]) ∨
      (m.copyinstrRunFrom root fuel va max).ret = -1 ∧ m.copyinstrFrom root fuel va max = none := by
  induction fuel generalizing va max with
  | zero => exact .inr ⟨rfl, rfl⟩
  | succ fuel ih =>
    rw [Mem.copyinstrRunFrom, Mem.copyinstrFrom]
    by_cases hmax : max = 0
    · rw [if_pos hmax, if_pos hmax]
      exact .inr ⟨rfl, rfl⟩
    rw [if_neg hmax, if_neg hmax]
    cases m.walkaddr root (pgrounddown va) with
    | none => exact .inr ⟨rfl, rfl⟩
    | some pa =>
      dsimp only
      rcases takeWhile_read (m.page pa) (min max (PGSIZE - va % PGSIZE)) (va % PGSIZE) with
        ⟨hnul, hdst, hlt⟩ | ⟨hnul, hdst, hlt⟩
      · rw [if_pos hnul, if_pos hlt]
        exact .inl ⟨rfl, _, rfl, hdst.symm⟩
      rw [if_neg (by rw [hnul]; decide), if_neg hlt]
      rcases ih (pgrounddown va + PGSIZE) (max - min max (PGSIZE - va % PGSIZE)) with ⟨hret, str,
        hstr, hd⟩ | ⟨hret, hnone⟩
      · refine .inl ⟨hret, _, by rw [hstr, Option.map_some], ?_⟩
        dsimp only
        rw [hdst, hd, List.append_assoc]
      · exact .inr ⟨hret, by rw [hnone, Option.map_none]⟩

/-- **`Mem.copyinstr` is the string that is written.** -/
theorem copyinstr_eq_run (m : Mem) (root va max : ℕ) : m.copyinstr root va max =
    if (m.copyinstrRun root va max).ret = 0 then
    some (m.copyinstrRun root va max).dst.dropLast else none := by
  rw [Mem.copyinstr, Mem.copyinstrRun]
  rcases copyinstrFrom_eq_run m root max va max with ⟨hret, str, hstr, hdst⟩ | ⟨hret, hnone⟩
  · rw [if_pos hret, hstr, hdst, List.dropLast_concat]
  · rw [if_neg (by rw [hret]; decide), hnone]

/-! ### Strings -/

def Mem.userByte (m : Mem) (root va : ℕ) : Option UInt8 := (m.translate root va).map m.byte

/-- A string of `k` bytes and its NUL stand at `va`, less than `max` bytes long. -/
structure StringAt (m : Mem) (root va max k : ℕ) : Prop where
  lt : k < max
  pages : ∀ v, va / PGSIZE ≤ v → v ≤ (va + k) / PGSIZE → UserPage m root v
  nul : m.userByte root (va + k) = some 0
  before : ∀ i < k, m.userByte root (va + i) ≠ some 0

theorem StringAt.unique (h : StringAt m root va max k) (hj : StringAt m root va max j) : k = j := by
  rcases lt_trichotomy k j with hlt | heq | hlt
  · exact absurd h.nul (hj.before k hlt)
  · exact heq
  · exact absurd hj.nul (h.before j hlt)

theorem StringAt.first (h : StringAt m root va max k) : UserPage m root (va / PGSIZE) :=
  h.pages _ le_rfl (Nat.div_le_div_right (Nat.le_add_right ..))

section

variable (hu : UserPage m root (va / PGSIZE))
include hu

theorem userByte_piece (hi : i < firstPiece va len) :
    m.userByte root (va + i) =
    some ((m.page (m.frame root (va / PGSIZE))).get (va % PGSIZE + i)) := by
  rw [Mem.userByte, translate_piece hi, if_pos hu]
  rfl

omit hu in
theorem add_div_of_lt_firstPiece (hi : i < firstPiece va len) :
    (va + i) / PGSIZE = va / PGSIZE := by
  simp only [firstPiece, PGSIZE] at *
  omega

/-- If the first page has no NUL, the string is the one of the rest. -/
theorem stringAt_iff_rest (hmax : max ≠ 0)
    (hnone : ∀ i < firstPiece va max, m.userByte root (va + i) ≠ some 0) :
    StringAt m root va max k ↔ firstPiece va max ≤ k ∧
      StringAt m root (va + firstPiece va max) (max - firstPiece va max)
        (k - firstPiece va max) := by
  have hpos := firstPiece_pos va hmax
  have hle : firstPiece va max ≤ max := min_le_left ..
  constructor
  · intro h
    have hk : firstPiece va max ≤ k := by
      by_contra hlt
      exact hnone k (by omega) h.nul
    have hsum : va + firstPiece va max + (k - firstPiece va max) = va + k := by omega
    have hlt := h.lt
    refine ⟨hk, by omega, fun v hv hv' => ?_, by rw [hsum]; exact h.nul, fun i hi => ?_⟩
    · rw [hsum] at hv'
      exact h.pages v ((Nat.div_le_div_right (by omega)).trans hv) hv'
    · rw [Nat.add_assoc]
      exact h.before _ (by omega)
  · rintro ⟨hk, h⟩
    have hsum : va + firstPiece va max + (k - firstPiece va max) = va + k := by omega
    have hlt := h.lt
    refine ⟨by omega, fun v hv hv' => ?_, by rw [← hsum]; exact h.nul, fun i hi => ?_⟩
    · by_cases hv₀ : v = va / PGSIZE
      · rwa [hv₀]
      · refine h.pages v ?_ (by rwa [hsum])
        have hnext : pgrounddown va + PGSIZE = va + firstPiece va max := next_eq (by omega)
        rw [← hnext, pgrounddown, Nat.add_div_right _ (by decide), Nat.mul_div_cancel _ (by decide)]
        omega
    · by_cases hi' : i < firstPiece va max
      · exact hnone i hi'
      · have hrest := h.before (i - firstPiece va max) (by omega)
        rwa [Nat.add_assoc, Nat.add_sub_cancel' (Nat.not_lt.1 hi')] at hrest

/-! ### The two loops -/

omit hu in
structure Exact (m : Mem) (root va max : ℕ) (r : StrRun) : Prop where
  ret : r.ret = 0 ∨ r.ret = -1
  found : r.ret = 0 → ∃ k, StringAt m root va max k
  copied : ∀ k, StringAt m root va max k → r.ret = 0 ∧ r.dst.map some = m.load root va (k + 1)
  short : r.dst.length ≤ max
  pages : ∀ v ∈ r.pages, va / PGSIZE ≤ v ∧ v ≤ (va + max - 1) / PGSIZE ∧
    ∀ k, m.userByte root (va + k) = some 0 → v ≤ (va + k) / PGSIZE

omit hu in
theorem Exact.none (h : ∀ k, ¬StringAt m root va max k) : Exact m root va max ⟨-1, [], []⟩ where
  ret := .inr rfl
  found h0 := absurd h0 (by decide)
  copied k hk := absurd hk (h k)
  short := Nat.zero_le _
  pages v hv := by cases hv

theorem load_eq_read (hn : n ≤ firstPiece va max) :
    ((m.page (m.frame root (va / PGSIZE))).read (va % PGSIZE) n).map some = m.load root va n := by
  rw [Mem.load, Bytes.read, List.map_map]
  refine List.map_congr_left fun i hi => ?_
  exact (userByte_piece hu ((List.mem_range.1 hi).trans_le hn)).symm

theorem Exact.here (hj : j < firstPiece va max)
    (hnul : m.userByte root (va + j) = some 0)
    (hbefore : ∀ i < j, m.userByte root (va + i) ≠ some 0) :
    Exact m root va max ⟨0, (m.page (m.frame root (va / PGSIZE))).read (va % PGSIZE) (j + 1),
      [va / PGSIZE]⟩ := by
  have hle : firstPiece va max ≤ max := min_le_left ..
  have hstr : StringAt m root va max j := by
    refine ⟨by omega, fun v hv hv' => ?_, hnul, hbefore⟩
    rw [add_div_of_lt_firstPiece hj] at hv'
    rwa [le_antisymm hv' hv]
  refine ⟨.inl rfl, fun _ => ⟨j, hstr⟩, fun k hk => ⟨rfl, ?_⟩, ?_, fun v hv => ?_⟩
  · rw [hk.unique hstr]
    exact load_eq_read hu hj
  · rw [Bytes.length_read]
    omega
  · rw [List.mem_singleton.1 hv]
    exact ⟨le_rfl, Nat.div_le_div_right (by omega), fun k _ => Nat.div_le_div_right
      (Nat.le_add_right ..)⟩

theorem Exact.next (hmax : max ≠ 0)
    (hnone : ∀ i < firstPiece va max, m.userByte root (va + i) ≠ some 0)
    (h : Exact m root (va + firstPiece va max) (max - firstPiece va max) r) :
    Exact m root va max
    ⟨r.ret, (m.page (m.frame root (va / PGSIZE))).read (va % PGSIZE) (firstPiece va max) ++ r.dst,
      va / PGSIZE :: r.pages⟩ := by
  have hpos := firstPiece_pos va hmax
  have hle : firstPiece va max ≤ max := min_le_left ..
  refine ⟨h.ret, fun h0 => ?_, fun k hk => ?_, ?_, fun v hv => ?_⟩
  · obtain ⟨k, hk⟩ := h.found h0
    refine ⟨firstPiece va max + k, (stringAt_iff_rest hu hmax hnone).2 ⟨Nat.le_add_right .., ?_⟩⟩
    rwa [Nat.add_sub_cancel_left]
  · obtain ⟨hk', hrest⟩ := (stringAt_iff_rest hu hmax hnone).1 hk
    obtain ⟨hret, hdst⟩ := h.copied _ hrest
    refine ⟨hret, ?_⟩
    rw [List.map_append, hdst, load_eq_read hu le_rfl, ← load_add]
    congr 1
    omega
  · have := h.short
    rw [List.length_append, Bytes.length_read]
    omega
  · rcases List.mem_cons.1 hv with rfl | hv
    · exact ⟨le_rfl, Nat.div_le_div_right (by omega), fun k _ => Nat.div_le_div_right
        (Nat.le_add_right ..)⟩
    obtain ⟨hfirst, hlast, hnul⟩ := h.pages v hv
    have hend : va + firstPiece va max + (max - firstPiece va max) - 1 = va + max - 1 := by omega
    refine ⟨(Nat.div_le_div_right (Nat.le_add_right ..)).trans hfirst, by rwa [hend] at hlast,
      fun k hk => ?_⟩
    have hge : firstPiece va max ≤ k := by
      by_contra hlt
      exact hnone k (by omega) hk
    have hsum : va + firstPiece va max + (k - firstPiece va max) = va + k := by omega
    have hle' := hnul (k - firstPiece va max) (by rwa [hsum])
    rwa [hsum] at hle'

end

theorem copyinstrRunFrom_zero (m : Mem) (root fuel va : ℕ) :
    m.copyinstrRunFrom root fuel va 0 = ⟨-1, [], []⟩ := by
  cases fuel with
  | zero => rfl
  | succ fuel => rw [Mem.copyinstrRunFrom, if_pos rfl]

theorem exact_copyinstrRunFrom (hz : NoPageZero m root) (fuel va : ℕ) (hfuel : max ≤ fuel) :
    Exact m root va max (m.copyinstrRunFrom root fuel va max) := by
  induction fuel generalizing va max with
  | zero =>
    obtain rfl := Nat.le_zero.1 hfuel
    exact .none fun k hk => Nat.not_lt_zero k hk.lt
  | succ fuel ih =>
    rw [Mem.copyinstrRunFrom]
    by_cases hmax : max = 0
    · rw [if_pos hmax]
      exact .none fun k hk => Nat.not_lt_zero k (hmax ▸ hk.lt)
    rw [if_neg hmax, hz.walkaddr_eq]
    by_cases hu : UserPage m root (va / PGSIZE)
    · rw [if_pos hu]
      have hbyte : ∀ i < firstPiece va max, m.userByte root (va + i) =
          some ((m.page (m.frame root (va / PGSIZE))).get (va % PGSIZE + i)) :=
          fun i hi => userByte_piece hu hi
      have hpos := firstPiece_pos va hmax
      dsimp only
      rw [← firstPiece]
      rcases copyPiece_cases (m.page (m.frame root (va / PGSIZE))) (firstPiece va max)
        (va % PGSIZE) with
        ⟨j, hj, hnul, hbefore, hpiece⟩ | ⟨hall, hpiece⟩
      · rw [hpiece, if_pos rfl]
        refine Exact.here hu hj (by rw [hbyte j hj, hnul]) fun i hi => ?_
        rw [hbyte i (by omega)]
        exact fun h => hbefore i hi (Option.some.inj h)
      rw [hpiece, if_neg Bool.false_ne_true]
      refine Exact.next hu hmax (fun i hi => ?_) ?_
      · rw [hbyte i hi]
        exact fun h => hall i hi (Option.some.inj h)
      · by_cases hlt : firstPiece va max < max
        · rw [next_eq hlt]
          exact ih _ (by omega)
        · rw [Nat.sub_eq_zero_of_le (Nat.not_lt.1 hlt), copyinstrRunFrom_zero]
          exact .none fun k hk => Nat.not_lt_zero k hk.lt
    · rw [if_neg hu]
      exact .none fun k hk => hu hk.first

/-- **`copyinstr` is exact.**  It answers 0 if and only if a string of less than `max` bytes stands
at `va`, and then `dst` holds that string and its NUL.  In every case it writes at most `max` bytes,
and reads no user page behind the one of byte `va + max - 1`, nor behind one that holds a NUL. -/
theorem copyinstr_exact (m : Mem) (root : ℕ) (hz : NoPageZero m root) (va max : ℕ) :
    ((m.copyinstrRun root va max).ret = 0 ∨ (m.copyinstrRun root va max).ret = -1) ∧
    ((m.copyinstrRun root va max).ret = 0 ↔ ∃ k, StringAt m root va max k) ∧
    (∀ k, StringAt m root va max k → (m.copyinstrRun root va max).dst.map some =
      m.load root va (k + 1)) ∧
    (m.copyinstrRun root va max).dst.length ≤ max ∧
    ∀ v ∈ (m.copyinstrRun root va max).pages, v ≤ (va + max - 1) / PGSIZE ∧
      ∀ k, m.userByte root (va + k) = some 0 → v ≤ (va + k) / PGSIZE := by
  have h : Exact m root va max (m.copyinstrRun root va max) :=
    exact_copyinstrRunFrom hz max va le_rfl
  exact ⟨h.ret, ⟨h.found, fun hk => (h.copied hk.choose hk.choose_spec).1⟩,
    fun k hk => (h.copied k hk).2, h.short, fun v hv => (h.pages v hv).2⟩

/-- The user page is the last table, whose only entry begins with the bytes 23 and 12. -/
theorem copyinstr_exact_self :
    NoPageZero (oneLeaf selfPte) 1 ∧ ((oneLeaf selfPte).copyinstrRun 1 0 5).ret = 0 ∧
    ((oneLeaf selfPte).copyinstrRun 1 0 5).dst = [23, 12, 0] := by
  have hz : NoPageZero (oneLeaf selfPte) 1 := (oneLeaf_distinct (by decide) (by decide)).ne_zero
  obtain ⟨-, hiff, hdst, -⟩ := copyinstr_exact (oneLeaf selfPte) 1 hz 0 5
  have hstr : StringAt (oneLeaf selfPte) 1 0 5 2 := by
    refine ⟨by decide, fun v hv hv' => ?_, by decide +kernel, by decide +kernel⟩
    rw [le_antisymm hv' hv]
    decide +kernel
  refine ⟨hz, hiff.2 ⟨2, hstr⟩, ?_⟩
  have hload : (oneLeaf selfPte).load 1 0 (2 + 1) = [23, 12, 0].map some := by decide +kernel
  exact List.map_injective_iff.2 (Option.some_injective _) ((hdst 2 hstr).trans hload)

/-- Page 0 of physical memory, for the user. -/
def zeroPte : ℕ := mkPte 0 (PTE_R ||| PTE_U)

/-- **A string in page 0 is not found.**  Address 0 is mapped to physical page 0 with `PTE_V` and
`PTE_U` and the byte there is a NUL, but `walkaddr` answers with the address of the page, which is
0. -/
theorem copyinstr_page_zero :
    StringAt (oneLeaf zeroPte) 1 0 1 0 ∧ ((oneLeaf zeroPte).copyinstrRun 1 0 1).ret = -1 := by
  refine ⟨⟨by decide, fun v hv hv' => ?_, by decide +kernel, fun i hi => absurd hi
    (Nat.not_lt_zero i)⟩, by decide +kernel⟩
  rw [le_antisymm hv' hv]
  decide +kernel

end Xv6
