/-
# Circular lists

`Circles f l` says that `f` leads from each node of `l` to the next one, and from the last back to
the first.  Where the list starts does not matter (`Circles.rotate`), and from each node there is a
way to each other one (`Circles.exists_path`).
-/

import Mathlib.Data.List.Chain

namespace Lib

open Function

variable {α : Type*}

/-- `f` leads from each node to the next. -/
abbrev Leads (f : α → α) (l : List α) : Prop := l.IsChain fun a b => f a = b

def Circles (f : α → α) : List α → Prop
  | [] => True
  | a :: l => Leads f (a :: l ++ [a])

variable {f : α → α} {a b : α} {l l₁ l₂ : List α}

namespace Circles

/-- **A ring starts anywhere.** -/
theorem rotate (h : Circles f (l₁ ++ l₂)) : Circles f (l₂ ++ l₁) := by
  cases l₁ with
  | nil => rwa [List.append_nil]
  | cons a l₁ =>
    cases l₂ with
    | nil => rwa [List.append_nil] at h
    | cons b l₂ =>
      have hchain : Leads f (a :: l₁ ++ b :: (l₂ ++ [a])) := by
        rw [← List.cons_append, ← List.append_assoc]
        exact h
      obtain ⟨hfirst, hsecond⟩ := List.isChain_split.1 hchain
      have hjoin : Leads f ((b :: l₂) ++ a :: (l₁ ++ [b])) := List.isChain_split.2 ⟨hsecond, hfirst⟩
      show Leads f (b :: (l₂ ++ a :: l₁) ++ [b])
      rwa [List.cons_append, List.append_assoc]

/-- **The way from one node to another.** -/
theorem exists_path (h : Circles f l) (hl : l.Nodup) (ha : a ∈ l) (hb : b ∈ l) :
    ∃ l', Leads f (l' ++ [b]) ∧ (l' ++ [b]).head? = some a ∧ ∀ x ∈ l', x ∈ l ∧ x ≠ b := by
  obtain ⟨l₁, l₂, rfl⟩ := List.append_of_mem ha
  have hperm : (a :: l₂ ++ l₁).Perm (l₁ ++ a :: l₂) := List.perm_append_comm
  obtain ⟨l₃, l₄, hsplit⟩ := List.append_of_mem (hperm.mem_iff.2 hb)
  have hleads : Leads f (a :: l₂ ++ l₁ ++ [a]) := h.rotate
  have hnodup := hperm.nodup_iff.2 hl
  rw [hsplit] at hnodup
  rw [hsplit, List.append_assoc] at hleads
  refine ⟨l₃, (List.isChain_split.1 hleads).1, ?_, fun x hx => ⟨?_, ?_⟩⟩
  · have hhead := congrArg List.head? hsplit
    cases l₃ with
    | nil => exact hhead.symm
    | cons c l₃ => exact hhead.symm
  · rw [← hperm.mem_iff, hsplit]
    exact List.mem_append_left _ hx
  · rintro rfl
    exact (List.nodup_append.1 hnodup).2.2 x hx x (.head _) rfl

end Circles

end Lib
