/-
# A circular queue between two free-running counters

The queue lives in an array of `C` cells.  Two 32-bit counters run freely, `head` past the elements
taken out and `tail` past those put in, and each is reduced modulo `C` only to find a cell.  Where
`C` divides `2 ^ 32`, the difference of the counters, modulo `2 ^ 32`, describes the queue.
-/

import Mathlib.Data.List.Range
import Mathlib.Data.Nat.ModEq

namespace Lib

variable {α : Type*} {C : ℕ} {cells : ℕ → α} {head tail : UInt32} {cells' : ℕ → α} {mid : UInt32}

def count (head tail : UInt32) : ℕ := (tail - head).toNat

def cell (C : ℕ) (t : UInt32) : ℕ := t.toNat % C

/-- The elements between the counters, first in first. -/
def queue (C : ℕ) (cells : ℕ → α) (head tail : UInt32) : List α :=
  (List.range (count head tail)).map fun i => cells (cell C (head + UInt32.ofNat i))

@[simp] theorem length_queue : (queue C cells head tail).length = count head tail := by
  simp [queue]

theorem count_lt (head tail : UInt32) : count head tail < 2 ^ 32 := (tail - head).toNat_lt

theorem toNat_tail (head tail : UInt32) : tail.toNat = (head.toNat + count head tail) % 2 ^ 32 := by
  have h₁ := head.toNat_lt
  have h₂ := tail.toNat_lt
  rw [count, UInt32.toNat_sub]
  omega

@[simp] theorem count_self (head : UInt32) : count head head = 0 := by
  simp [count]

theorem count_eq_zero_iff : count head tail = 0 ↔ head = tail := by
  constructor
  · intro h
    have ht := toNat_tail head tail
    rw [h, Nat.add_zero, Nat.mod_eq_of_lt head.toNat_lt] at ht
    exact UInt32.toNat_inj.1 ht.symm
  · rintro rfl
    exact count_self head

theorem count_push (h : count head tail + 1 < 2 ^ 32) :
    count head (tail + 1) = count head tail + 1 := by
  have h₁ := head.toNat_lt
  have h₂ := tail.toNat_lt
  simp only [count, UInt32.toNat_sub, UInt32.toNat_add, UInt32.toNat_one] at h ⊢
  omega

theorem count_pop (h : head ≠ tail) : count head tail = count (head + 1) tail + 1 := by
  have h₁ := head.toNat_lt
  have h₂ := tail.toNat_lt
  have hne : head.toNat ≠ tail.toNat := fun he => h (UInt32.toNat_inj.1 he)
  simp only [count, UInt32.toNat_sub, UInt32.toNat_add, UInt32.toNat_one]
  omega

/-- **The test for a full queue.** -/
theorem eq_add_iff_count (hC : C < 2 ^ 32) :
    tail = head + UInt32.ofNat C ↔ count head tail = C := by
  have hadd : (head + UInt32.ofNat C).toNat = (head.toNat + C) % 2 ^ 32 := by
    rw [UInt32.toNat_add, UInt32.toNat_ofNat_of_lt' hC]
  have h₁ := head.toNat_lt
  have h₂ := tail.toNat_lt
  constructor
  · rintro rfl
    rw [count, UInt32.toNat_sub, hadd]
    omega
  · intro h
    refine UInt32.toNat_inj.1 ?_
    rw [hadd, toNat_tail head tail, h]

theorem cell_add (hC : C ∣ 2 ^ 32) (hi : i < 2 ^ 32) :
    cell C (head + UInt32.ofNat i) = (head.toNat + i) % C := by
  rw [cell, UInt32.toNat_add, UInt32.toNat_ofNat_of_lt' hi, Nat.mod_mod_of_dvd _ hC]

theorem cell_tail (hC : C ∣ 2 ^ 32) : cell C tail = (head.toNat + count head tail) % C := by
  rw [cell, toNat_tail head tail, Nat.mod_mod_of_dvd _ hC]

/-- The cell at `tail` is not in use while the queue is not full. -/
theorem cell_ne_tail (hC : C ∣ 2 ^ 32) (h : count head tail < C) (hi : i < count head tail) :
    cell C (head + UInt32.ofNat i) ≠ cell C tail := by
  rw [cell_add hC (hi.trans (count_lt head tail)), cell_tail hC]
  intro he
  have : i = count head tail := Nat.ModEq.eq_of_lt_of_lt (Nat.ModEq.add_left_cancel' _ he)
    (hi.trans h) h
  omega

/-- **Putting an element in appends it.** -/
theorem queue_push (hC : C ∣ 2 ^ 32) (hlt : C < 2 ^ 32) (h : count head tail < C)
    (hnew : cells' (cell C tail) = a) (hold : ∀ k, k ≠ cell C tail → cells' k = cells k) :
    queue C cells' head (tail + 1) = queue C cells head tail ++ [a] := by
  have hlast : cell C (head + UInt32.ofNat (count head tail)) = cell C tail := by
    rw [cell_add hC (count_lt head tail), cell_tail hC]
  rw [queue, count_push (by omega), List.range_succ, List.map_append, List.map_singleton,
    hlast, hnew]
  congr 1
  refine List.map_congr_left fun i hi => ?_
  exact hold _ (cell_ne_tail hC h (List.mem_range.1 hi))

/-- **Taking an element out removes the first.** -/
theorem queue_pop (h : head ≠ tail) :
    queue C cells head tail = cells (cell C head) :: queue C cells (head + 1) tail := by
  rw [queue, count_pop h, List.range_succ_eq_map, List.map_cons, List.map_map, queue]
  congr 1
  · simp
  · refine List.map_congr_left fun i _ => ?_
    rw [Function.comp_apply, Nat.succ_eq_add_one, UInt32.ofNat_add,
      UInt32.add_comm (UInt32.ofNat i), ← UInt32.add_assoc]
    rfl

@[simp] theorem queue_self : queue C cells head head = [] := by
  simp [queue]

@[simp] theorem queue_one : queue C cells head (head + 1) = [cells (cell C head)] := by
  have hne : head ≠ head + 1 := by simp
  rw [queue_pop hne, queue_self]

/-! ### Three counters -/

theorem head_add_count (head tail : UInt32) : head + UInt32.ofNat (count head tail) = tail := by
  refine UInt32.toNat_inj.1 ?_
  rw [toNat_tail head tail, UInt32.toNat_add, UInt32.toNat_ofNat_of_lt' (count_lt head tail)]

theorem count_add (h : count head mid + count mid tail < 2 ^ 32) :
    count head tail = count head mid + count mid tail := by
  have h₁ := head.toNat_lt
  have h₂ := mid.toNat_lt
  have h₃ := tail.toNat_lt
  simp only [count, UInt32.toNat_sub] at h ⊢
  omega

theorem queue_append (h : count head mid + count mid tail < 2 ^ 32) :
    queue C cells head tail = queue C cells head mid ++ queue C cells mid tail := by
  rw [queue, count_add h, List.range_add, List.map_append, List.map_map]
  congr 1
  refine List.map_congr_left fun i _ => ?_
  rw [Function.comp_apply, UInt32.ofNat_add, ← UInt32.add_assoc, head_add_count]

theorem queue_unpush (h : head ≠ tail) :
    queue C cells head tail = queue C cells head (tail - 1) ++ [cells (cell C (tail - 1))] := by
  have hne : count head tail ≠ 0 := fun hz => h (count_eq_zero_iff.1 hz)
  have hcount : count head tail = count head (tail - 1) + 1 := by
    have h₁ := head.toNat_lt
    have h₂ := tail.toNat_lt
    simp only [count, UInt32.toNat_sub, UInt32.toNat_one] at hne ⊢
    omega
  rw [queue, hcount, List.range_succ, List.map_append, List.map_singleton, head_add_count, queue]

theorem queue_congr
    (h : ∀ i < count head tail, cells' (cell C (head + UInt32.ofNat i)) = cells
      (cell C (head + UInt32.ofNat i))) :
    queue C cells' head tail = queue C cells head tail :=
  List.map_congr_left fun i hi => h i (List.mem_range.1 hi)

end Lib
