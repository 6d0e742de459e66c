/-
# The two `memmove`s

`memmove` of `kernel/string.c` copies from the end if the destination starts inside the source, and
from the start otherwise; `memmove` of `user/ulib.c` from the start if the source is above the
destination, and from the end otherwise.
-/

import Mathlib.Algebra.Order.Group.Nat
import Mathlib.Data.Nat.Notation

namespace Xv6.Memmove

open Function

abbrev Mem := UInt64 → UInt8

variable {mem mem' : Mem} {dst src : UInt64} {n : ℕ}

/-! ### The code -/

def upward (mem : Mem) (d s : UInt64) : ℕ → Mem
  | 0 => mem
  | n + 1 => upward (update mem d (mem s)) (d + 1) (s + 1) n

def downward (mem : Mem) (d s : UInt64) : ℕ → Mem
  | 0 => mem
  | n + 1 => downward (update mem (d - 1) (mem (s - 1))) (d - 1) (s - 1) n

def Kernel.memmove (mem : Mem) (dst src : UInt64) (n : UInt32) : Mem :=
  if src < dst ∧ src + n.toUInt64 > dst then
    downward mem (dst + n.toUInt64) (src + n.toUInt64) n.toNat
  else upward mem dst src n.toNat

/-- `memmove` of the user library: the length is an `int`. -/
def Ulib.memmove (mem : Mem) (dst src : UInt64) (n : Int32) : Mem :=
  if src > dst then upward mem dst src n.toNatClampNeg
  else downward mem (dst + n.toInt64.toUInt64) (src + n.toInt64.toUInt64) n.toNatClampNeg

/-! ### The loops -/

/-- `mem'` is `mem` with the `n` bytes at `src` moved to `dst`. -/
structure Moved (mem : Mem) (dst src : UInt64) (n : ℕ) (mem' : Mem) : Prop where
  copied : ∀ k < n, mem' (dst + .ofNat k) = mem (src + .ofNat k)
  kept : ∀ a, (∀ k < n, a ≠ dst + .ofNat k) → mem' a = mem a

theorem Moved.unique (h : Moved mem dst src n mem') (h' : Moved mem dst src n mem'') :
    mem' = mem'' := by
  funext a
  by_cases ha : ∃ k < n, a = dst + .ofNat k
  · obtain ⟨k, hk, rfl⟩ := ha
    rw [h.copied k hk, h'.copied k hk]
  · have hout : ∀ k < n, a ≠ dst + .ofNat k := fun k hk heq => ha ⟨k, hk, heq⟩
    rw [h.kept a hout, h'.kept a hout]

theorem addr_succ (a : UInt64) (k : ℕ) : a + .ofNat (k + 1) = a + 1 + .ofNat k := by
  rw [UInt64.ofNat_add]
  grind

theorem toNat_addr {a : UInt64} {k : ℕ} (h : a.toNat + k < 2 ^ 64) :
    (a + .ofNat k).toNat = a.toNat + k := by
  rw [UInt64.toNat_add, UInt64.toNat_ofNat', Nat.add_mod_mod, Nat.mod_eq_of_lt h]

theorem addr_ne {a : UInt64} {i j : ℕ} (hij : i < j) (hj : j < 2 ^ 64) :
    a + .ofNat i ≠ a + .ofNat j := by
  intro h
  have heq : UInt64.ofNat i = .ofNat j := by grind
  have := congrArg UInt64.toNat heq
  rw [UInt64.toNat_ofNat', UInt64.toNat_ofNat'] at this
  omega

theorem upward_moved (hn : n < 2 ^ 64)
    (hread : ∀ i j, i < j → j < n → src + .ofNat j ≠ dst + .ofNat i) :
    Moved mem dst src n (upward mem dst src n) := by
  induction n generalizing mem dst src with
  | zero => exact ⟨fun k hk => absurd hk k.not_lt_zero, fun _ _ => rfl⟩
  | succ n ih =>
    have hrest : Moved (update mem dst (mem src)) (dst + 1) (src + 1) n
        (upward mem dst src (n + 1)) := by
      refine ih (by omega) fun i j hij hj => ?_
      rw [← addr_succ, ← addr_succ]
      exact hread (i + 1) (j + 1) (by omega) (by omega)
    refine ⟨fun k hk => ?_, fun a ha => ?_⟩
    · cases k with
      | zero =>
        rw [hrest.kept]
        · simp
        · intro k hk
          rw [← addr_succ]
          exact addr_ne (by omega) (by omega)
      | succ k =>
        have hne := hread 0 (k + 1) (by omega) hk
        rw [addr_succ, hrest.copied k (by omega), ← addr_succ, update_of_ne (by simpa using hne)]
    · rw [hrest.kept a, update_of_ne (by simpa using ha 0 (by omega))]
      intro k hk
      rw [← addr_succ]
      exact ha (k + 1) (by omega)

theorem downward_moved (hn : n < 2 ^ 64)
    (hread : ∀ i j, i < j → j < n → src + .ofNat i ≠ dst + .ofNat j) :
    Moved mem dst src n (downward mem (dst + .ofNat n) (src + .ofNat n) n) := by
  induction n generalizing mem with
  | zero => exact ⟨fun k hk => absurd hk k.not_lt_zero, fun _ _ => rfl⟩
  | succ n ih =>
    have hpred (a : UInt64) : a + .ofNat (n + 1) - 1 = a + .ofNat n := by
      rw [addr_succ]
      grind
    rw [downward, hpred, hpred]
    have hrest : Moved (update mem (dst + .ofNat n) (mem (src + .ofNat n))) dst src n _ :=
      ih (by omega) fun i j hij hj => hread i j hij (by omega)
    refine ⟨fun k hk => ?_, fun a ha => ?_⟩
    · rcases Nat.lt_succ_iff_lt_or_eq.1 hk with hk | rfl
      · rw [hrest.copied k hk, update_of_ne (hread k n hk (by omega))]
      · rw [hrest.kept _ fun i hi => (addr_ne hi (by omega)).symm, update_self]
    · rw [hrest.kept a fun k hk => ha k (by omega), update_of_ne (ha n (by omega))]

/-! ### The tests -/

section Tests

variable (hn : n < 2 ^ 31) (hs : src.toNat + n < 2 ^ 64) (hd : dst.toNat + n < 2 ^ 64)

include hs hd in
theorem toNat_of_addr_eq (h : src + .ofNat i = dst + .ofNat j) (hi : i < n) (hj : j < n) :
    src.toNat + i = dst.toNat + j := by
  rw [← toNat_addr (by omega), h, toNat_addr (by omega)]

include hn hs hd

theorem kernel_moved : Moved mem dst src n (Kernel.memmove mem dst src (.ofNat n)) := by
  have hsize : n < UInt32.size := Nat.lt_trans hn (by decide)
  rw [Kernel.memmove, UInt32.toNat_ofNat_of_lt' hsize, UInt32.toUInt64_ofNat' hsize]
  simp only [gt_iff_lt, UInt64.lt_iff_toNat_lt, toNat_addr hs]
  split
  · refine downward_moved (by omega) fun i j hij hj heq => ?_
    have := toNat_of_addr_eq hs hd heq (by omega) hj
    omega
  · refine upward_moved (by omega) fun i j hij hj heq => ?_
    have := toNat_of_addr_eq hs hd heq hj (by omega)
    omega

theorem ulib_moved : Moved mem dst src n (Ulib.memmove mem dst src (.ofNat n)) := by
  have hwide : (Int32.ofNat n).toInt64 = .ofNat n := Int32.toInt64_ofNat (by omega)
  rw [Ulib.memmove, Int32.toNatClampNeg_ofNat_of_lt hn, hwide, Int64.toUInt64_ofNat']
  simp only [gt_iff_lt, UInt64.lt_iff_toNat_lt]
  split
  · refine upward_moved (by omega) fun i j hij hj heq => ?_
    have := toNat_of_addr_eq hs hd heq hj (by omega)
    omega
  · refine downward_moved (by omega) fun i j hij hj heq => ?_
    have := toNat_of_addr_eq hs hd heq (by omega) hj
    omega

end Tests

/-- **Both `memmove`s move, and agree.**  However the two ranges lie, each gives the memory in which
the destination has the old bytes of the source and every other byte is as it was. -/
theorem memmoves_agree (mem : Mem) (dst src : UInt64) (n : ℕ) (hn : n < 2 ^ 31)
    (hs : src.toNat + n < 2 ^ 64) (hd : dst.toNat + n < 2 ^ 64) :
    Kernel.memmove mem dst src (.ofNat n) = Ulib.memmove mem dst src (.ofNat n) ∧
    (∀ k < n, Ulib.memmove mem dst src (.ofNat n) (dst + .ofNat k) = mem (src + .ofNat k)) ∧
    ∀ a, (∀ k < n, a ≠ dst + .ofNat k) → Ulib.memmove mem dst src (.ofNat n) a = mem a := by
  have hu : Moved mem dst src n _ := ulib_moved hn hs hd
  exact ⟨(kernel_moved hn hs hd).unique hu, hu.copied, hu.kept⟩

theorem memmoves_agree_overlap :
    Kernel.memmove (fun a => a.toUInt8) 2 0 3 = Ulib.memmove (fun a => a.toUInt8) 2 0 3 ∧
    Ulib.memmove (fun a => a.toUInt8) 2 0 3 2 = 0 :=
  have h := memmoves_agree (fun a => a.toUInt8) 2 0 3 (by decide) (by decide) (by decide)
  ⟨h.1, h.2.1 0 (by decide)⟩

end Xv6.Memmove
