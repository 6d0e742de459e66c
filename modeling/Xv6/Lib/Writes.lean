/-
# Sequences of writes to a store

A device is described by the list of its writes, and a crash keeps a prefix of it.  A position that
no write names keeps its value, and a list replayed over any prefix of itself gives what the list
alone gives (`applyWrites_replay`).
-/

import Mathlib.Data.List.Nodup

namespace Lib

open Function

variable {ι β : Type*} [DecidableEq ι] {d : ι → β} {ws : List (ι × β)}

/-- The store after the writes `ws`, first to last. -/
def applyWrites (d : ι → β) (ws : List (ι × β)) : ι → β := ws.foldl (fun d w => update d w.1 w.2) d

@[simp] theorem applyWrites_nil (d : ι → β) : applyWrites d [] = d := rfl

@[simp] theorem applyWrites_cons (d : ι → β) (w : ι × β) (ws : List (ι × β)) :
    applyWrites d (w :: ws) = applyWrites (update d w.1 w.2) ws := rfl

theorem applyWrites_append (d : ι → β) (ws vs : List (ι × β)) :
    applyWrites d (ws ++ vs) = applyWrites (applyWrites d ws) vs := by
  rw [applyWrites, List.foldl_append]
  rfl

theorem applyWrites_of_not_mem (h : ∀ w ∈ ws, w.1 ≠ x) : applyWrites d ws x = d x := by
  induction ws generalizing d with
  | nil => rfl
  | cons w ws ih =>
    rw [applyWrites_cons, ih fun v hv => h v (.tail _ hv)]
    exact update_of_ne (h w List.mem_cons_self).symm _ _

/-- A position that some write names, or where two stores agree, holds the same
value after the writes. -/
theorem applyWrites_congr (h : (∃ w ∈ ws, w.1 = x) ∨ d x = e x) :
    applyWrites d ws x = applyWrites e ws x := by
  induction ws generalizing d e with
  | nil =>
    rcases h with ⟨w, hw, _⟩ | h
    · exact absurd hw List.not_mem_nil
    · exact h
  | cons w ws ih =>
    rw [applyWrites_cons, applyWrites_cons]
    refine ih ?_
    by_cases hwx : w.1 = x
    · subst hwx
      exact .inr (by simp)
    · rcases h with ⟨v, hv, hvx⟩ | h
      · rcases List.mem_cons.1 hv with rfl | hv
        · exact absurd hvx hwx
        · exact .inl ⟨v, hv, hvx⟩
      · exact .inr (by simp [update_of_ne (Ne.symm hwx), h])

/-- **Replaying a list of writes over a prefix of itself gives what the list
alone gives.** -/
theorem applyWrites_replay (d : ι → β) (ws : List (ι × β)) (m : ℕ) :
    applyWrites (applyWrites d (ws.take m)) ws = applyWrites d ws := by
  funext x
  by_cases h : ∃ w ∈ ws, w.1 = x
  · exact applyWrites_congr (.inl h)
  · exact applyWrites_congr (.inr (applyWrites_of_not_mem fun w hw hwx =>
      h ⟨w, List.mem_of_mem_take hw, hwx⟩))

theorem applyWrites_of_mem (hnd : (ws.map Prod.fst).Nodup) (hw : w ∈ ws) :
    applyWrites d ws w.1 = w.2 := by
  induction ws generalizing d with
  | nil => exact absurd hw List.not_mem_nil
  | cons v ws ih =>
    rw [List.map_cons] at hnd
    obtain ⟨hv, hnd⟩ := List.nodup_cons.1 hnd
    rw [applyWrites_cons]
    rcases List.mem_cons.1 hw with rfl | hw
    · have hne : ∀ u ∈ ws, u.1 ≠ w.1 := by
        intro u hu huw
        exact hv (List.mem_map.2 ⟨u, hu, huw⟩)
      rw [applyWrites_of_not_mem hne]
      simp
    · exact ih hnd hw

end Lib
