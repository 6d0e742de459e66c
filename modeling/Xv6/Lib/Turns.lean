/-
# Loops that end

A loop that may not end is a function of the number of turns it may take, with no result if they are
too few.  `Settles f r` says that it ends with `r`, given enough turns, and with nothing else.
Loops settle turn by turn (`Settles.now`, `Settles.later`) and one after another (`Settles.bind`).
-/

import Mathlib.Data.Nat.Notation

namespace Lib

variable {α β : Type*} {f g : ℕ → Option α} {r x : α} {k : ℕ}

def Settles (f : ℕ → Option α) (r : α) : Prop := ∃ n, ∀ k, f k = if n ≤ k then some r else none

namespace Settles

theorem eq_of_some (h : Settles f r) (hx : f k = some x) : x = r := by
  obtain ⟨n, hn⟩ := h
  rw [hn k] at hx
  split at hx
  · exact (Option.some.inj hx).symm
  · cases hx

theorem exists_some (h : Settles f r) : ∃ n, ∀ k, n ≤ k → f k = some r := by
  obtain ⟨n, hn⟩ := h
  exact ⟨n, fun k hk => by rw [hn k, if_pos hk]⟩

theorem const (h : ∀ k, f k = some r) : Settles f r :=
  ⟨0, fun k => by rw [h k, if_pos (Nat.zero_le k)]⟩

theorem now (hzero : f 0 = none) (hsucc : ∀ k, f (k + 1) = some r) : Settles f r := by
  refine ⟨1, fun k => ?_⟩
  cases k with
  | zero => exact hzero
  | succ k => rw [hsucc k, if_pos (Nat.le_add_left ..)]

theorem later (hzero : f 0 = none) (hsucc : ∀ k, f (k + 1) = g k) (h : Settles g r) :
    Settles f r := by
  obtain ⟨n, hn⟩ := h
  refine ⟨n + 1, fun k => ?_⟩
  cases k with
  | zero => exact hzero
  | succ k =>
    rw [hsucc k, hn k]
    simp only [Nat.add_le_add_iff_right]

theorem map (h : Settles f r) (m : α → β) : Settles (fun k => (f k).map m) (m r) := by
  obtain ⟨n, hn⟩ := h
  refine ⟨n, fun k => ?_⟩
  simp only [hn k]
  split
  · rfl
  · rfl

/-- **One loop after another.** -/
theorem bind {m : α → ℕ → Option β} {y : β} (h : Settles f r) (hm : Settles (m r) y) :
    Settles (fun k => (f k).bind fun a => m a k) y := by
  obtain ⟨n₁, h₁⟩ := h
  obtain ⟨n₂, h₂⟩ := hm
  refine ⟨max n₁ n₂, fun k => ?_⟩
  simp only [h₁ k]
  by_cases hk : n₁ ≤ k
  · rw [if_pos hk, Option.bind_some, h₂ k]
    simp only [Nat.max_le, hk, true_and]
  · rw [if_neg hk, if_neg fun hmax => hk (Nat.max_le.1 hmax).1]
    rfl

end Settles

end Lib
