/-
# Sums over a table, one entry changed

Reference counts, reservations and ownership are all sums over the entries of a finite table, and an
operation changes one entry.  `sum_update_add` says what that does to the sum, without subtraction,
so that it serves numbers and multisets alike.
-/

import Mathlib.Algebra.BigOperators.Group.Finset.Piecewise
import Mathlib.Tactic.Abel

namespace Lib

open Function

section

variable {ι α M : Type*} [Fintype ι] [DecidableEq ι] [AddCommMonoid M]

/-- **Changing one entry changes the sum by that entry.** -/
theorem sum_update_add (g : ι → α → M) (f : ι → α) (i : ι) (v : α) :
    (∑ j, g j (update f i v j)) + g i (f i) = (∑ j, g j (f j)) + g i v := by
  have h₁ := Finset.add_sum_erase Finset.univ (fun j => g j (f j)) (Finset.mem_univ i)
  have h₂ := Finset.add_sum_erase Finset.univ (fun j => g j (update f i v j)) (Finset.mem_univ i)
  have h₃ : ∑ j ∈ Finset.univ.erase i, g j (update f i v j) = ∑ j ∈ Finset.univ.erase i,
      g j (f j) :=
    Finset.sum_congr rfl fun j hj => by rw [update_of_ne (Finset.ne_of_mem_erase hj)]
  rw [← h₁, ← h₂, h₃, update_self]
  abel

end

section

variable {ι α M : Type*} [DecidableEq ι]

/-- What an entry of the changed table shows is shown by the new value or by an old entry. -/
theorem view_update_cases (g : α → M) {f : ι → α} {y : M} (h : g (update f i v j) = y) :
    j = i ∧ g v = y ∨ j ≠ i ∧ g (f j) = y := by
  by_cases hj : j = i
  · subst hj
    rw [update_self] at h
    exact .inl ⟨rfl, h⟩
  · rw [update_of_ne hj] at h
    exact .inr ⟨hj, h⟩

theorem update_cases {f : ι → α} (h : update f i v j = y) : j = i ∧ v = y ∨ j ≠ i ∧ f j = y :=
  view_update_cases id h

theorem apply_update_of_eq (g : α → M) {f : ι → α} (h : g v = g (f i)) (j : ι) :
    g (update f i v j) = g (f j) := by
  rcases view_update_cases g (y := g (update f i v j)) rfl with ⟨rfl, hj⟩ | ⟨-, hj⟩
  · rw [← hj, h]
  · exact hj.symm

/-- A change that a view of the entries does not show. -/
theorem view_update_of_eq (g : α → M) (f : ι → α) (i : ι) (h : g v = g (f i)) :
    (fun j => g (update f i v j)) = fun j => g (f j) := funext (apply_update_of_eq g h)

theorem view_update (g : α → M) (f : ι → α) (i : ι) (v : α) :
    (fun j => g (update f i v j)) = update (fun j => g (f j)) i (g v) :=
  comp_update g f i v

end

end Lib
