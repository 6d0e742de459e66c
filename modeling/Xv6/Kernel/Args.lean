/-
# The argument stack of `exec`

`exec` lays the argument strings one below the other from the top of the stack page down, each start
rounded down to a multiple of 16, and below them the array of pointers.  `lay` says where the pieces
are, as integers; the code computes on 64 bits, and the two agree (`pushDown_eq`).
-/

import Xv6.Kernel.Disk
import Xv6.Vm.Copy

namespace Xv6

open Lib

/-! ### Where the pieces are -/

/-- `n` bytes below `sp`, with their start rounded down to a multiple of 16. -/
def below (sp : ℤ) (n : ℕ) : ℤ := (sp - n) / 16 * 16

/-- The addresses of pieces of the sizes `ns`, laid one below the other from `sp` down. -/
def lay : ℤ → List ℕ → List ℤ
  | _, [] => []
  | sp, n :: ns => below sp n :: lay (below sp n) ns

def layEnd (sp : ℤ) (ns : List ℕ) : ℤ := ns.foldl below sp

section

variable {sp base : ℤ} {n : ℕ} {ns : List ℕ} {strs : List (List UInt8)}
  {Q : Option ℕ → Kernel → Prop}

theorem below_add_le (sp : ℤ) (n : ℕ) : below sp n + n ≤ sp := by
  rw [below]
  omega

theorem below_mod (sp : ℤ) (n : ℕ) : below sp n % 16 = 0 := Int.mul_emod_left _ _

theorem layEnd_le (sp : ℤ) (ns : List ℕ) : layEnd sp ns ≤ sp := by
  induction ns generalizing sp with
  | nil => exact le_rfl
  | cons n ns ih =>
    have h := below_add_le sp n
    have h' : layEnd sp (n :: ns) ≤ below sp n := ih (below sp n)
    omega

theorem lay_append (sp : ℤ) (ns ms : List ℕ) :
    lay sp (ns ++ ms) = lay sp ns ++ lay (layEnd sp ns) ms := by
  induction ns generalizing sp with
  | nil => rfl
  | cons n ns ih => exact congrArg _ (ih (below sp n))

theorem length_lay (sp : ℤ) (ns : List ℕ) : (lay sp ns).length = ns.length := by
  induction ns generalizing sp with
  | nil => rfl
  | cons n ns ih => exact congrArg _ (ih (below sp n))

/-- **Every piece is above the end and below the start.** -/
theorem mem_lay (hx : x ∈ (lay sp ns).zip ns) : layEnd sp ns ≤ x.1 ∧ x.1 + x.2 ≤ sp := by
  induction ns generalizing sp with
  | nil => exact absurd hx List.not_mem_nil
  | cons n ns ih =>
    have hn := below_add_le sp n
    rcases List.mem_cons.1 hx with rfl | hx
    · exact ⟨layEnd_le _ ns, hn⟩
    · obtain ⟨hlow, hhigh⟩ := ih hx
      exact ⟨hlow, by omega⟩

/-- **The pieces do not overlap.** -/
theorem lay_pairwise (sp : ℤ) (ns : List ℕ) :
    ((lay sp ns).zip ns).Pairwise fun x y : ℤ × ℕ => y.1 + y.2 ≤ x.1 := by
  induction ns generalizing sp with
  | nil => exact List.Pairwise.nil
  | cons n ns ih => exact List.Pairwise.cons (fun y hy => (mem_lay hy).2) (ih _)

theorem layEnd_le_of_mem (ha : a ∈ lay sp ns) : layEnd sp ns ≤ a := by
  induction ns generalizing sp with
  | nil => exact absurd ha List.not_mem_nil
  | cons n ns ih =>
    rcases List.mem_cons.1 ha with rfl | ha
    · exact layEnd_le _ ns
    · exact ih ha

theorem fits_iff (ns : List ℕ) (n : ℕ) :
    (∀ a ∈ lay sp (ns ++ [n]), base ≤ a) ↔ base ≤ below (layEnd sp ns) n := by
  have hlast : lay sp (ns ++ [n]) = lay sp ns ++ [below (layEnd sp ns) n] := lay_append sp ns [n]
  have hend := below_add_le (layEnd sp ns) n
  rw [hlast]
  constructor
  · intro h
    exact h _ (List.mem_append_right _ (List.mem_singleton_self _))
  · intro h a ha
    rcases List.mem_append.1 ha with ha | ha
    · have := layEnd_le_of_mem ha
      omega
    · rwa [List.mem_singleton.1 ha]

end

/-- **The code computes the addresses**, as long as it does not go below 0. -/
theorem pushDown_eq {sp n : ℕ} (hn : n ≤ sp) (hsp : sp < 2 ^ 64) :
    (pushDown sp n : ℤ) = below sp n := by
  have hsub : (sp + 2 ^ 64 - n) % 2 ^ 64 = sp - n := by omega
  simp only [pushDown, below, hsub]
  omega

def strSizes (strs : List (List UInt8)) : List ℕ := strs.map fun str => str.length + 1

/-- The sizes of all pieces: the strings, and the array of pointers. -/
def argSizes (strs : List (List UInt8)) : List ℕ := strSizes strs ++ [(strs.length + 1) * 8]

/-! ### Storing the pieces -/

variable {b : Board} {J : FsPred} {U F K : Multiset ℕ} {P : Finset ℕ} {s : Kernel} {p : Pp}
  {m m₁ : Mem} {root tf npg base : ℕ} {E : Halt → Prop}

/-- The page from `base` on is a page of the user, and not the first. -/
structure StackPage (m : Mem) (root base : ℕ) : Prop where
  ge : PGSIZE ≤ base
  lt : base + PGSIZE < 2 ^ 64
  aligned : base % PGSIZE = 0
  page : UserPage m root (base / PGSIZE)

theorem StackPage.congr (h : StackPage m root base) (hs : Same (tablePages m root) m m₁) :
    StackPage m₁ root base :=
  ⟨h.ge, h.lt, h.aligned, (userPage_congr hs _).2 h.page⟩

theorem StackPage.reachable (h : StackPage m root base) {a n : ℕ} (ha : base ≤ a)
    (hend : a + n ≤ base + PGSIZE) : Reachable m root a n := by
  by_cases hn : n = 0
  · exact .inl hn
  have hal := h.aligned
  have hlt := h.lt
  refine .inr ⟨by omega, fun v hv hv' => ?_⟩
  have heq : v = base / PGSIZE := by
    simp only [PGSIZE] at *
    omega
  rw [heq]
  exact h.page

/-- The string `str` and its NUL stand at `a`. -/
def HoldsString (m : Mem) (root : ℕ) (a : ℤ) (str : List UInt8) : Prop :=
  m.load root a.toNat (str.length + 1) = (str ++ [0]).map some

theorem str_congr (h : m₁.page pg = m.page pg) : m₁.str pg = m.str pg := by
  rw [Mem.str, Mem.str, h]

theorem map_str_congr {argv : List ℕ} (hargv : ∀ pg ∈ argv, pg ∈ F) (hs : Same F m m₁) :
    argv.map m₁.str = argv.map m.str :=
  List.map_congr_left fun pg hpg => str_congr (hs pg (hargv pg hpg))

/-- **The loop over the strings** stores each at its address, or stops at the first that does not
fit. -/
theorem wp_pushStrings_exact {Q : Option (ℕ × List ℕ) → Kernel → Prop} (hU : Managed b U)
    (argv : List ℕ) {sp : ℕ} {ustack : List ℕ} (h : Space b U s.mem root tf npg F)
    (hst : StackPage s.mem root base) (hge : base ≤ sp) (hle : sp ≤ base + PGSIZE)
    (hargv : ∀ pg ∈ argv, pg ∈ F) (hshort : ∀ pg ∈ argv, (s.mem.str pg).length < PGSIZE)
    (hlen : ustack.length + argv.length < MAXARG)
    (hnone : ∀ m, Stored b U root tf npg F s.mem m →
      layEnd sp (strSizes (argv.map s.mem.str)) < base → Stores root base PGSIZE s.mem m →
      Q none { s with mem := m })
    (hsome : ∀ m (sp' : ℕ), Stored b U root tf npg F s.mem m →
      (sp' : ℤ) = layEnd sp (strSizes (argv.map s.mem.str)) → base ≤ sp' →
      Stores root sp' (sp - sp') s.mem m → List.Forall₂ (HoldsString m root)
      (lay sp (strSizes (argv.map s.mem.str))) (argv.map s.mem.str) →
      Q (some (sp', ustack ++ (lay sp (strSizes (argv.map s.mem.str))).map Int.toNat))
      { s with mem := m }) :
    wp (pushStrings root base argv sp ustack) E Q s := by
  induction argv generalizing s sp ustack with
  | nil =>
    have hdone := hsome s.mem sp ⟨h, Same.refl⟩ rfl hge Stores.refl List.Forall₂.nil
    rw [List.map_nil, strSizes, List.map_nil, lay, List.map_nil, List.append_nil] at hdone
    exact wp_pure.2 hdone
  | cons arg argv ih =>
    set str := s.mem.str arg with hstr
    have hn : str.length + 1 ≤ PGSIZE := hshort arg (.head _)
    have hge' := hst.ge
    have hlt := hst.lt
    obtain ⟨sp₁, hsp₁⟩ : ∃ sp₁, sp₁ = pushDown sp (str.length + 1) := ⟨_, rfl⟩
    have hpush : (sp₁ : ℤ) = below sp (str.length + 1) := by
      rw [hsp₁]
      exact pushDown_eq (by omega) (by omega)
    have hbelow := below_add_le sp (str.length + 1)
    have hlaid : ∀ strs, lay sp (strSizes (str :: strs)) = (sp₁ : ℤ) :: lay sp₁ (strSizes strs) :=
      fun strs => by
      rw [strSizes, List.map_cons, lay, ← hpush, strSizes]
    have hlaidEnd : ∀ strs, layEnd sp (strSizes (str :: strs)) = layEnd sp₁ (strSizes strs) :=
      fun strs => by
      rw [strSizes, List.map_cons, layEnd, List.foldl_cons, ← hpush, layEnd, strSizes]
    simp only [List.map_cons, ← hstr, hlaid, hlaidEnd] at hnone hsome
    simp only [pushStrings, wp_bind, wp_get, wp_ite, wp_pure, wp_onMem, ← hstr, ← hsp₁]
    refine ⟨fun hmax => ?_, fun _ => ⟨fun hout => ?_, fun hin => ?_⟩⟩
    · rw [List.length_cons] at hlen
      omega
    · refine hnone s.mem ⟨h, Same.refl⟩ ?_ Stores.refl
      have := layEnd_le sp₁ (strSizes (argv.map s.mem.str))
      omega
    refine h.wp_copyout_exact hU fun r m₁ hstored hcopied => ?_
    have hsize : (str ++ [0]).length = str.length + 1 := List.length_append
    have hr : r = 0 := hcopied.ok_iff.2 (by
      rw [hsize]
      exact hst.reachable (Nat.not_lt.1 hin) (by omega))
    have hload := hcopied.load hr
    have hstores := hcopied.stores
    rw [hsize] at hload hstores
    have hsame : Same F s.mem m₁ := hstored.2.mono le_add_self
    have hmap := map_str_congr (fun pg hpg => hargv pg (.tail _ hpg)) hsame
    refine ⟨fun hneg => absurd hneg (by rw [hr]; decide), fun _ => ih hstored.1
      (hst.congr hstores.table) ?_ ?_ ?_ ?_ ?_ (fun m₂ hstored₂ hend hstores₂ => ?_)
      fun m₂ sp' hstored₂ hsp' hge₂ hstores₂ hholds => ?_⟩
    · exact Nat.not_lt.1 hin
    · omega
    · exact fun pg hpg => hargv pg (.tail _ hpg)
    · intro pg hpg
      rw [str_congr (hsame pg (hargv pg (.tail _ hpg)))]
      exact hshort pg (.tail _ hpg)
    · rw [List.length_append, List.length_singleton]
      rw [List.length_cons] at hlen
      omega
    · rw [hmap] at hend
      exact hnone m₂ (hstored.trans hstored₂) hend
        ((hstores.widen (by omega) (by omega)).again hstores₂)
    rw [hmap] at hsp' hholds ⊢
    have hend := layEnd_le sp₁ (strSizes (argv.map s.mem.str))
    have hdone := hsome m₂ sp' (hstored.trans hstored₂) hsp' hge₂ ?_ (List.Forall₂.cons ?_ hholds)
    · rw [Int.toNat_natCast] at hdone
      rw [List.append_assoc]
      exact hdone
    · refine (hstores.widen ?_ ?_).again (hstores₂.widen ?_ ?_) <;> omega
    · rw [HoldsString, Int.toNat_natCast, hstores₂.load_eq (h.distinct hU |>.congr hstores.table),
        hload]
      exact .inr (by omega)

/-- All pieces of the arguments are in the stack page. -/
def ArgsFit (base : ℕ) (strs : List (List UInt8)) : Prop :=
  ∀ a ∈ lay (base + PGSIZE : ℕ) (argSizes strs), (base : ℤ) ≤ a

/-- **The arguments `strs` on a stack page**: the pieces fit and do not overlap, at `sp` stand the
addresses of the strings and 0, and at each address its string. -/
structure ArgStack (root base : ℕ) (strs : List (List UInt8)) (m : Mem) (sp : ℕ) : Prop where
  fits : ArgsFit base strs
  last : (lay (base + PGSIZE : ℕ) (argSizes strs)).getLast? = some (sp : ℤ)
  aligned : sp % 16 = 0
  pointers : m.load root sp ((strs.length + 1) * 8) =
    (((lay (base + PGSIZE : ℕ) (strSizes strs)).map Int.toNat ++ [0]).flatMap (le 8)).map some
  strings : List.Forall₂ (HoldsString m root) (lay (base + PGSIZE : ℕ) (strSizes strs)) strs
  apart : ((lay (base + PGSIZE : ℕ) (argSizes strs)).zip (argSizes strs)).Pairwise
    fun x y : ℤ × ℕ => y.1 + y.2 ≤ x.1
  inside : ∀ x ∈ (lay (base + PGSIZE : ℕ) (argSizes strs)).zip (argSizes strs),
    (base : ℤ) ≤ x.1 ∧ x.1 + x.2 ≤ (base + PGSIZE : ℕ)

theorem lay_argSizes (sp : ℤ) (strs : List (List UInt8)) : lay sp (argSizes strs) =
    lay sp (strSizes strs) ++ [below (layEnd sp (strSizes strs)) ((strs.length + 1) * 8)] :=
  lay_append sp (strSizes strs) [(strs.length + 1) * 8]

theorem layEnd_argSizes (sp : ℤ) (strs : List (List UInt8)) :
    layEnd sp (argSizes strs) = below (layEnd sp (strSizes strs)) ((strs.length + 1) * 8) := by
  rw [layEnd, argSizes, List.foldl_append]
  rfl

theorem argsFit_iff :
    ArgsFit base strs ↔ (base : ℤ) ≤ below (layEnd (base + PGSIZE : ℕ) (strSizes strs))
    ((strs.length + 1) * 8) :=
  fits_iff _ _

theorem length_flatMap_le (l : List ℕ) : (l.flatMap (le 8)).length = l.length * 8 := by
  induction l with
  | nil => rfl
  | cons a l ih =>
    rw [List.flatMap_cons, List.length_append, length_le, ih, List.length_cons, Nat.succ_mul,
      Nat.add_comm]

theorem Stores.holdsStrings {a n : ℕ} {sp : ℤ} (hd : Distinct m root)
    (h : Stores root a n m m₁) (hend : (a + n : ℕ) ≤ layEnd sp (strSizes strs))
    (hs : List.Forall₂ (HoldsString m root) (lay sp (strSizes strs)) strs) :
    List.Forall₂ (HoldsString m₁ root) (lay sp (strSizes strs)) strs := by
  refine ((List.forall₂_and_left _ _).2 ⟨fun x hx => layEnd_le_of_mem hx, hs⟩).imp
    fun x str hx => ?_
  have hle := hx.1
  rw [HoldsString, h.load_eq hd (.inr (by omega))]
  exact hx.2

/-- **The arguments are pushed** if and only if they fit, and only the stack page is written. -/
theorem wp_pushArgs_exact (hU : Managed b U)
    (h : Space b U s.mem root tf npg F) (hst : StackPage s.mem root base)
    (hargv : ∀ pg ∈ argv, pg ∈ F) (hshort : ∀ pg ∈ argv, (s.mem.str pg).length < PGSIZE)
    (hlen : argv.length < MAXARG)
    (hnone : ∀ m, Stored b U root tf npg F s.mem m → Stores root base PGSIZE s.mem m →
      ¬ArgsFit base (argv.map s.mem.str) → Q none { s with mem := m })
    (hsome : ∀ m sp, Stored b U root tf npg F s.mem m → Stores root base PGSIZE s.mem m →
      ArgStack root base (argv.map s.mem.str) m sp → Q (some sp) { s with mem := m }) :
    wp (pushArgs root base argv (base + PGSIZE)) E Q s := by
  have hge := hst.ge
  have hlt := hst.lt
  set strs := argv.map s.mem.str with hstrs
  have hcount : strs.length = argv.length := List.length_map ..
  have hsizes : (strs.length + 1) * 8 ≤ PGSIZE := by
    rw [hcount]
    simp only [MAXARG, PGSIZE] at *
    omega
  rw [argsFit_iff] at hnone
  simp only [pushArgs, wp_bind]
  refine wp_pushStrings_exact hU argv h hst (Nat.le_add_right ..) le_rfl hargv hshort
    (by rw [List.length_nil, Nat.zero_add]; exact hlen) (fun m₁ hstored hend hstores => ?_)
    fun m₁ sp hstored hsp hge₁ hstores hholds => ?_
  · rw [← hstrs] at hend
    refine wp_pure.2 (hnone m₁ hstored hstores ?_)
    have := below_add_le (layEnd (base + PGSIZE : ℕ) (strSizes strs)) ((strs.length + 1) * 8)
    omega
  rw [← hstrs] at hsp hholds
  have hspTop := layEnd_le (base + PGSIZE : ℕ) (strSizes strs)
  obtain ⟨ustack, hustack⟩ : ∃ u, u = (lay (base + PGSIZE : ℕ) (strSizes strs)).map Int.toNat :=
    ⟨_, rfl⟩
  have hulen : ustack.length = strs.length := by
    rw [hustack, List.length_map, length_lay, strSizes, List.length_map]
  obtain ⟨sp₁, hsp₁⟩ : ∃ sp₁, sp₁ = pushDown sp ((ustack.length + 1) * 8) := ⟨_, rfl⟩
  have hpush : (sp₁ : ℤ) = below (layEnd (base + PGSIZE : ℕ) (strSizes strs))
      ((strs.length + 1) * 8) := by
    rw [hsp₁, hulen, ← hsp]
    exact pushDown_eq (by omega) (by omega)
  have hbelow := below_add_le (layEnd (base + PGSIZE : ℕ) (strSizes strs)) ((strs.length + 1) * 8)
  simp only [List.nil_append, ← hstrs, ← hustack, wp_bind, wp_ite, wp_pure, wp_onMem, ← hsp₁]
  refine ⟨fun hout => hnone m₁ hstored (hstores.widen (by omega) (by omega)) (by omega),
    fun hin => ?_⟩
  have hst₁ := hst.congr hstores.table
  refine hstored.1.wp_copyout_exact hU fun r m₂ hstored₂ hcopied => ?_
  have hsize : ((ustack ++ [0]).flatMap (le 8)).length = (strs.length + 1) * 8 := by
    rw [length_flatMap_le, List.length_append, hulen, List.length_singleton]
  have hr : r = 0 := hcopied.ok_iff.2 (by
    rw [hsize]
    exact hst₁.reachable (Nat.not_lt.1 hin) (by omega))
  have hload := hcopied.load hr
  have hstores₂ := hcopied.stores
  rw [hsize] at hload hstores₂
  refine ⟨fun hneg => absurd hneg (by rw [hr]; decide), fun _ => hsome m₂ sp₁
    (hstored.trans hstored₂) ?_ ?_⟩
  · refine (hstores.widen ?_ ?_).again (hstores₂.widen ?_ ?_) <;> omega
  refine ⟨argsFit_iff.2 (by omega), ?_, ?_, ?_, ?_, lay_pairwise _ _, fun x hx => ?_⟩
  · rw [lay_argSizes, ← hpush, List.getLast?_concat]
  · have := below_mod (layEnd (base + PGSIZE : ℕ) (strSizes strs)) ((strs.length + 1) * 8)
    omega
  · rw [hload, hustack]
  · exact hstores₂.holdsStrings ((h.distinct hU).congr hstores.table) (by omega) hholds
  · obtain ⟨hlow, hhigh⟩ := mem_lay hx
    rw [layEnd_argSizes] at hlow
    exact ⟨by omega, hhigh⟩

theorem forall₂_lay (sp : ℤ) (strs : List (List UInt8)) :
    List.Forall₂ (fun a str => a + (str.length + 1 : ℕ) ≤ sp) (lay sp (strSizes strs)) strs := by
  induction strs generalizing sp with
  | nil => exact List.Forall₂.nil
  | cons str strs ih =>
    have hn := below_add_le sp (str.length + 1)
    exact List.Forall₂.cons hn ((ih (below sp (str.length + 1))).imp fun a str' h => h.trans
      (by omega))

theorem ArgStack.end_le {sp : ℕ} (h : ArgStack root base strs m sp) :
    sp + (strs.length + 1) * 8 ≤ base + PGSIZE := by
  have hlast := h.last
  rw [lay_argSizes, List.getLast?_concat, Option.some.injEq] at hlast
  have hbelow := below_add_le (layEnd (base + PGSIZE : ℕ) (strSizes strs)) ((strs.length + 1) * 8)
  have hend := layEnd_le (base + PGSIZE : ℕ) (strSizes strs)
  omega

theorem ArgStack.congr {sp : ℕ} (h : ArgStack root base strs m sp)
    (hu : SameUser root npg m m₁) (hnpg : base + PGSIZE ≤ npg * PGSIZE) :
    ArgStack root base strs m₁ sp where
  fits := h.fits
  last := h.last
  aligned := h.aligned
  pointers := by
    have hend := h.end_le
    rw [hu.load_eq (by omega)]
    exact h.pointers
  strings := by
    have hin : ∀ a ∈ lay (base + PGSIZE : ℕ) (strSizes strs), (base : ℤ) ≤ a := fun a ha =>
      h.fits a (by rw [lay_argSizes]; exact List.mem_append_left _ ha)
    refine ((List.forall₂_and_left _ _).2 ⟨hin, forall₂_lay _ strs⟩).mp
      (fun a str ha hs => ?_) h.strings
    obtain ⟨hlow, hhigh⟩ := ha
    rw [HoldsString, hu.load_eq (by omega)]
    exact hs
  apart := h.apart
  inside := h.inside

/-! ### `exec` -/

theorem valid_of_flags (h : pteFlags pte = userPerm ||| PTE_V) : PteValid pte := by
  simp only [PteValid, pteFlags, userPerm, PTE_W, PTE_X, PTE_R, PTE_U, PTE_V, Nat.reduceOr] at *
  omega

section

variable {m₀ : Mem} {n : ℕ}

theorem Building.stackPages {top : ℕ} (hb : Building b m₀ F root tf n m)
    (halloc : (uvmalloc b root (n * PGSIZE) (n * PGSIZE + 2 * PGSIZE)).run m = .ok (top, m₁))
    (htop : top ≠ 0) : top = (n + 2) * PGSIZE ∧ Building b m₀ F root tf (n + 2) m₁ ∧ Same F m m₁ ∧
    NewPages m₁ root n (n + 2) := by
  have hsum : n * PGSIZE + 2 * PGSIZE = (n + 2) * PGSIZE := (Nat.add_mul ..).symm
  have hround : npages (n * PGSIZE) = n := npages_mul _
  have hround₂ : npages ((n + 2) * PGSIZE) = n + 2 := npages_mul _
  have hwp : wp (uvmalloc b root (n * PGSIZE) (n * PGSIZE + 2 * PGSIZE)) (fun _ => True)
    (fun r m' => r ≠ 0 →
      r = (n + 2) * PGSIZE ∧ Building b m₀ F root tf (n + 2) m' ∧ Same F m m' ∧
      NewPages m' root n (n + 2)) m := by
    rw [hsum]
    rw [← hround] at hb
    refine wp_uvmalloc b.managed hb.space (fun hless => ?_) (fun m' _ h' hs' _ hnew _ => ?_)
      fun m' _ _ _ _ h₀ => ?_
    · simp only [PGSIZE] at hless
      omega
    · rw [hround₂] at h' hnew
      rw [hround] at hnew
      exact ⟨rfl, hb.step h' hs', hs', hnew⟩
    · exact absurd rfl h₀
  exact (wp_of_run_ok halloc).1 hwp htop

theorem Building.wp_guard {Q : PUnit → Mem → Prop}
    (hb : Building b m₀ F root tf (n + 2) m) (hnew : NewPages m root n (n + 2))
    (hQ : ∀ m₁, Building b m₀ F root tf (n + 2) m₁ → StackPage m₁ root ((n + 1) * PGSIZE) →
      Same F m m₁ → (∀ v < n + 2, (m₁.user root v).2 = (m.user root v).2) → Q ⟨⟩ m₁) :
    wp (uvmclear root (n * PGSIZE)) E Q m := by
  have hlt := hb.space.npg_lt b.managed
  refine wp_uvmclear b.managed hb.space (by omega) fun m₁ h₁ hs₁ hentry hpage => ?_
  have hflags : pteFlags (m₁.entry root 2 (n + 1)) = userPerm ||| PTE_V := by
    rw [hentry _ (by omega)]
    exact congrArg Prod.fst (hnew (n + 1) (by omega) (by omega))
  refine hQ m₁ (hb.step h₁ hs₁) ⟨?_, ?_, Nat.mul_mod_left _ _, ?_⟩ hs₁ hpage
  · simp only [PGSIZE]
    omega
  · simp only [PGSIZE]
    omega
  · rw [Nat.mul_div_cancel _ (by decide)]
    refine ⟨?_, valid_of_flags hflags, user_of_flags hflags⟩
    simp only [PGSIZE, MAXVA]
    omega

theorem Building.wp_pushArgs {argv : List ℕ} (hb : Building b m₀ F root tf npg m₁)
    (hst : StackPage m₁ root base) (hs : Same F m m₁) (hargv : ∀ pg ∈ argv, pg ∈ F)
    (hlen : argv.length < MAXARG) (hshort : ∀ pg ∈ argv, (m.str pg).length < PGSIZE)
    (hnone : ∀ m₂, Building b m₀ F root tf npg m₂ → Stores root base PGSIZE m₁ m₂ →
      ¬ArgsFit base (argv.map m.str) → Q none { s with mem := m₂ })
    (hsome : ∀ m₂ sp, Building b m₀ F root tf npg m₂ → Stores root base PGSIZE m₁ m₂ →
      ArgStack root base (argv.map m.str) m₂ sp → Q (some sp) { s with mem := m₂ }) :
    wp (pushArgs root base argv (base + PGSIZE)) E Q { s with mem := m₁ } := by
  have hmap : argv.map m₁.str = argv.map m.str := map_str_congr hargv hs
  refine wp_pushArgs_exact (s := { s with mem := m₁ }) b.managed hb.space hst hargv ?_ hlen ?_ ?_
  · intro pg hpg
    rw [str_congr (hs pg (hargv pg hpg))]
    exact hshort pg hpg
  · intro m₂ hstored hstores hfit
    rw [hmap] at hfit
    exact hnone m₂ (hb.stored hstored) hstores hfit
  · intro m₂ sp hstored hstores hargs
    rw [hmap] at hargs
    exact hsome m₂ sp (hb.stored hstored) hstores hargs

end

theorem field_execTrapframe {pg : Page} {entry sp : ℕ} (hsp : sp < 2 ^ 64) :
    (execTrapframe pg entry sp).field 8 TF_A1 = sp ∧
    (execTrapframe pg entry sp).field 8 TF_SP = sp := by
  have hsp : sp < 256 ^ 8 := hsp.trans_eq (by norm_num)
  constructor
  · rw [execTrapframe, Bytes.field_setField_of_disjoint _ _ _ (by decide),
      Bytes.field_setField_of_disjoint _ _ _ (by decide), Bytes.field_setField _ _ (by decide) hsp]
  · rw [execTrapframe, Bytes.field_setField _ _ (by decide) hsp]

/-- What `exec` did with the arguments `strs` for the stack page from `base` on: `m₁` is memory
before it, and `r` and `s'` are the result. -/
structure ArgsPushed (p : Pp) (tf new base : ℕ) (strs : List (List UInt8)) (m₁ : Mem) (r : ℤ)
    (s' : Kernel) : Prop where
  ret : r = strs.length ∨ r = -1
  ok_iff : r = strs.length ↔ ArgsFit base strs
  image : r = strs.length → (s'.proc p).pagetable = some new ∧ (s'.proc p).sz = base + PGSIZE
  stack : r = strs.length → ∃ sp, ArgStack new base strs s'.mem sp ∧
    (s'.mem.page tf).field 8 TF_A1 = sp ∧ (s'.mem.page tf).field 8 TF_SP = sp
  outside : r = strs.length → ∀ v < base / PGSIZE, (s'.mem.user new v).2 = (m₁.user new v).2
  noUnderflow : ∀ (pre : List ℕ) (n : ℕ) (post : List ℕ), argSizes strs = pre ++ n :: post →
    (∀ a ∈ lay (base + PGSIZE : ℕ) pre, (base : ℤ) ≤ a) → (n : ℤ) ≤ layEnd (base + PGSIZE : ℕ) pre

theorem le_layEnd {sp c : ℤ} (hc : c ≤ sp) {ns : List ℕ} (h : ∀ a ∈ lay sp ns, c ≤ a) :
    c ≤ layEnd sp ns := by
  induction ns generalizing sp with
  | nil => exact hc
  | cons n ns ih => exact ih (h _ (.head _)) fun a ha => h a (.tail _ ha)

/-- No piece is longer than a page, and there is a page below the stack page. -/
theorem size_le_layEnd (hge : PGSIZE ≤ base) (hlen : strs.length < MAXARG)
    (hshort : ∀ str ∈ strs, str.length < PGSIZE) (pre : List ℕ) (n : ℕ) (post : List ℕ)
    (hn : argSizes strs = pre ++ n :: post)
    (hpre : ∀ a ∈ lay (base + PGSIZE : ℕ) pre, (base : ℤ) ≤ a) :
    (n : ℤ) ≤ layEnd (base + PGSIZE : ℕ) pre := by
  have hend := le_layEnd (by omega) hpre
  have hmem : n ∈ argSizes strs := by
    rw [hn]
    exact List.mem_append_right _ (.head _)
  have hle : n ≤ PGSIZE := by
    rcases List.mem_append.1 hmem with hmem | hmem
    · obtain ⟨str, hstr, rfl⟩ := List.mem_map.1 hmem
      exact hshort str hstr
    · rw [List.mem_singleton.1 hmem]
      simp only [MAXARG, PGSIZE] at *
      omega
  omega

/-- **`exec` builds the argument stack**, once it has the two pages for it.  It succeeds if and only
if the strings and the pointers fit in the stack page; whether it does or not, it stores to the
stack page only. -/
theorem exec_builds_argument_stack {argv : List ℕ} {new sz entry top : ℕ} (hk : KInv b J K P s)
    (hl : (s.proc p).Live) (ht : (s.proc p).trapframe = some tf)
    (hb : Building b s.mem (∑ q, (images s.proc q).pages s.mem + (P.val + K)) new tf (npages sz) m)
    (hargv : (argv : Multiset ℕ) ≤ K) (hlen : argv.length < MAXARG)
    (hshort : ∀ pg ∈ argv, (m.str pg).length < PGSIZE)
    (halloc : (uvmalloc b new (pgroundup sz) (pgroundup sz + 2 * PGSIZE)).run m = .ok (top, m₁))
    (htop : top ≠ 0) :
    (∃ r s', (exec.stack b p argv new sz entry).run { s with mem := m } = .ok (r, s') ∧
      ArgsPushed p tf new (top - PGSIZE) (argv.map m.str) m₁ r s') ∧
    ∀ m₂, (uvmclear new (top - 2 * PGSIZE)).run m₁ = .ok (⟨⟩, m₂) →
      ∃ r m₃, (pushArgs new (top - PGSIZE) argv top).run { s with mem := m₂ } =
        .ok (r, { s with mem := m₃ }) ∧
        Stores new (top - PGSIZE) PGSIZE m₂ m₃ := by
  have htf := hk.mem.trapframe_lt (p := p) ht
  have hlt := hb.space.npg_lt b.managed
  have hsz : pgroundup sz = npages sz * PGSIZE := pgroundup_eq <| by
    simp only [npages, PGSIZE] at hlt
    omega
  rw [hsz] at halloc
  obtain ⟨rfl, hb₁, hs₁, hnew⟩ := hb.stackPages halloc htop
  have hbase : (npages sz + 2) * PGSIZE - PGSIZE = (npages sz + 1) * PGSIZE :=
    Nat.sub_eq_of_eq_add (Nat.succ_mul ..)
  have hguard : (npages sz + 2) * PGSIZE - 2 * PGSIZE = npages sz * PGSIZE :=
    Nat.sub_eq_of_eq_add (Nat.add_mul ..)
  have hsp : (npages sz + 2) * PGSIZE = (npages sz + 1) * PGSIZE + PGSIZE := Nat.succ_mul ..
  have hround : npages ((npages sz + 2) * PGSIZE) = npages sz + 2 := npages_mul _
  have hargvF : ∀ pg ∈ argv, pg ∈ ∑ q, (images s.proc q).pages s.mem + (P.val + K) := fun pg hpg =>
    Multiset.mem_add.2 (.inr (Multiset.mem_add.2 (.inr (Multiset.mem_of_le hargv hpg))))
  have hcount : (argv.map m.str).length = argv.length := List.length_map ..
  rw [hbase, hguard]
  constructor
  · refine exists_run_of_wp ?_
    simp only [exec.stack, wp_bind, wp_onMem, wp_ite, hsz]
    refine (wp_of_run_ok halloc).2 ⟨fun h₀ => absurd h₀ htop, fun _ => ?_⟩
    rw [hguard, hbase]
    refine hb₁.wp_guard hnew fun m₂ hb₂ hst hs₂ hcont₂ => ?_
    have hunder := size_le_layEnd hst.ge (by rwa [hcount]) fun str hstr => by
      obtain ⟨pg, hpg, rfl⟩ := List.mem_map.1 hstr
      exact hshort pg hpg
    rw [hsp]
    refine hb₂.wp_pushArgs hst (hs₁.trans hs₂) hargvF hlen hshort (fun m₃ hb₃ _ hfit => ?_)
      fun m₃ sp hb₃ hstores hargs => ?_
    · rw [← hround, hsp] at hb₃
      refine wp_execBad (s := s) hk htf hb₃ fun m₄ _ _ _ => ?_
      have hne : ¬(-1 : ℤ) = (argv.map m.str).length := by omega
      exact ⟨.inr rfl, ⟨fun h => absurd h hne, fun h => absurd h hfit⟩, fun h => absurd h hne,
        fun h => absurd h hne, fun h => absurd h hne, hunder⟩
    rw [← hround, hsp] at hb₃
    simp only [wp_bind, wp_pure]
    refine wp_execCommit (s := s) hk hl ht hb₃ fun m₄ _ htf₄ hu₄ => ?_
    rw [← hsp, hround] at hu₄
    have hend := hargs.end_le
    have hregs : (execTrapframe (m₃.page tf) entry sp).field 8 TF_A1 = sp ∧
        (execTrapframe (m₃.page tf) entry sp).field 8 TF_SP = sp :=
      field_execTrapframe (by have := hst.lt; omega)
    rw [← htf₄] at hregs
    refine ⟨.inl (by rw [hcount]), ⟨fun _ => hargs.fits, fun _ => by rw [hcount]⟩, fun _ => ?_,
      fun _ => ?_, fun _ v hv => ?_, hunder⟩
    · simp only [Function.update_self, and_self]
    · exact ⟨sp, hargs.congr hu₄ hsp.ge, hregs⟩
    rw [Nat.mul_div_cancel _ (by decide)] at hv
    have hentry : m₃.entry new 2 v = m₂.entry new 2 v := entry_congr (by decide) hstores.table v
    have hpage := hstores.page_eq b.managed hb₂.space hst.aligned (show v < npages sz + 2 by omega)
      (by rw [Nat.mul_div_cancel _ (by decide)]; omega)
    rw [hu₄.user (by omega), ← hcont₂ v (by omega), Mem.user, Mem.user, hentry]
    exact hpage
  · intro m₂ hclear
    obtain ⟨hb₂, hst, hs₂⟩ :=
      (wp_of_run_ok hclear).1 (hb₁.wp_guard (E := fun _ => True) (Q := fun _ m₂ =>
      Building b s.mem (∑ q, (images s.proc q).pages s.mem + (P.val + K)) new tf
        (npages sz + 2) m₂ ∧ StackPage m₂ new ((npages sz + 1) * PGSIZE) ∧
        Same (∑ q, (images s.proc q).pages s.mem + (P.val + K)) m₁ m₂)
      hnew fun m₂ hb₂ hst hs₂ _ => ⟨hb₂, hst, hs₂⟩)
    have hwp : wp (pushArgs new ((npages sz + 1) * PGSIZE) argv ((npages sz + 2) * PGSIZE))
      (fun _ => False)
        (fun _ s' => ∃ m₃, s' = { s with mem := m₃ } ∧
        Stores new ((npages sz + 1) * PGSIZE) PGSIZE m₂ m₃)
        { s with mem := m₂ } := by
      rw [hsp]
      exact hb₂.wp_pushArgs hst (hs₁.trans hs₂) hargvF hlen hshort
        (fun m₃ _ hstores _ => ⟨m₃, rfl, hstores⟩) fun m₃ _ _ hstores _ => ⟨m₃, rfl, hstores⟩
    obtain ⟨r, _, hrun, m₃, rfl, hstores⟩ := exists_run_of_wp hwp
    exact ⟨r, m₃, hrun, hstores⟩

/-! ### One argument -/

/-- The page that the kernel has from `kalloc` for the argument. -/
def argPage : ℕ := PHYSTOP / PGSIZE - 1

def argMem : Mem where
  page x := if x = argPage then (memset 0).splice 0 [102] else memset 1
  freelist := tinyMem.freelist.tail

theorem argMem_owns : Owns tinyBoard.pages argMem {argPage} := by
  have hlist : argPage :: argMem.freelist = tinyMem.freelist := by decide
  have howns := tinyMem_owns
  rw [Owns, ← hlist, ← Multiset.cons_coe, add_zero] at howns
  rw [Owns, add_comm, Multiset.singleton_add]
  exact howns

theorem exec_builds_argument_stack_f :
    ∃ s₀ new tf m top m₁, Boots tinyBoard mkfsSb mkfsImage argMem s₀ ∧
    (s₀.proc firstProc).trapframe = some tf ∧ [argPage].map m.str = [[102]] ∧
    (uvmalloc tinyBoard new (pgroundup 0) (pgroundup 0 + 2 * PGSIZE)).run m = .ok (top, m₁) ∧
    top ≠ 0 ∧
    (∃ r s', (exec.stack tinyBoard firstProc [argPage] new 0 0).run { s₀ with mem := m } =
      .ok (r, s') ∧ ArgsPushed firstProc tf new (top - PGSIZE) ([argPage].map m.str) m₁ r s') ∧
    ∀ m₂, (uvmclear new (top - 2 * PGSIZE)).run m₁ = .ok (⟨⟩, m₂) →
      ∃ r m₃, (pushArgs new (top - PGSIZE) [argPage] top).run { s₀ with mem := m₂ } =
        .ok (r, { s₀ with mem := m₃ }) ∧
        Stores new (top - PGSIZE) PGSIZE m₂ m₃ := by
  have hrun : wp (userinit tinyBoard mkfsSb) (fun _ => False)
    (fun _ s₀ => (s₀.proc firstProc).Live ∧ (s₀.proc firstProc).trapframe.isSome = true ∧
      wp (procPagetable tinyBoard ((s₀.proc firstProc).trapframe.getD 0)) (fun _ => False)
      (fun r m =>
        r.isSome = true ∧ [argPage].map m.str = [[102]] ∧
        wp (uvmalloc tinyBoard (r.getD 0) (pgroundup 0) (pgroundup 0 + 2 * PGSIZE)) (fun _ => False)
          (fun top _ => top ≠ 0) m) s₀.mem) (Kernel.start mkfsImage argMem) := by decide +kernel
  obtain ⟨⟨⟩, s₀, hboot, hlive, htf, hnew⟩ := exists_run_of_wp hrun
  obtain ⟨tf, htf⟩ := Option.isSome_iff_exists.1 htf
  rw [htf] at hnew
  have hk := KInv.boot inv_rules mkfsImage_consistent.inv argMem_owns (by decide) hboot
  obtain ⟨r, m, hnew, hsome, hstr, halloc⟩ := exists_run_of_wp hnew
  obtain ⟨new, rfl⟩ := Option.isSome_iff_exists.1 hsome
  obtain ⟨top, m₁, halloc, htop⟩ := exists_run_of_wp halloc
  have hb :
    Building tinyBoard s₀.mem
    (∑ q, (images s₀.proc q).pages s₀.mem + ((∅ : Finset ℕ).val + {argPage})) new tf
      (npages 0) m := by
    have hwp := wp_procPagetable (E := fun _ => True) (Q := fun r m => ∀ root, r = some root →
      Building tinyBoard s₀.mem
      (∑ q, (images s₀.proc q).pages s₀.mem + ((∅ : Finset ℕ).val + {argPage})) root tf
        (npages 0) m) tinyBoard.managed hk.mem.own (hk.mem.trapframe_lt htf)
        (fun _ _ _ root h => by cases h)
      fun root m hsp hs _ root' h => by
        cases h
        exact ⟨hsp, hs⟩
    exact (wp_of_run_ok hnew).1 hwp new rfl
  refine ⟨s₀, new, tf, m, top, m₁, hboot, htf, hstr, halloc, htop,
    exec_builds_argument_stack hk hlive htf hb le_rfl (by decide) (fun pg hpg => ?_) halloc htop⟩
  have hpage := congrArg (List.map List.length) hstr
  rw [List.mem_singleton.1 hpg]
  simp only [List.map_cons, List.map_nil, List.cons.injEq, and_true] at hpage
  rw [hpage]
  decide

end Xv6
