/-
# Tilings

Blocks of memory that lie apart and together are some given regions: `Tiles l r`.  The order of the
blocks does not matter, a block may be cut in two and two that touch may be joined, and a region
that is apart from all blocks may be added as a block of its own.
-/

import Mathlib.Algebra.BigOperators.Group.List.Basic
import Mathlib.Algebra.Ring.Nat

namespace Lib

/-- Where a block starts, and how long it is. -/
abbrev Extent := ℕ × ℕ

def Extent.Has (b : Extent) (x : ℕ) : Prop := b.1 ≤ x ∧ x < b.1 + b.2

/-- One block ends before the other starts. -/
def Extent.Apart (a b : Extent) : Prop := a.1 + a.2 ≤ b.1 ∨ b.1 + b.2 ≤ a.1

theorem Extent.Apart.symm {a b : Extent} (h : a.Apart b) : b.Apart a := Or.symm h

instance : Std.Symm Extent.Apart := ⟨fun _ _ h => h.symm⟩

/-- The blocks `l` lie apart and are the regions `r`. -/
structure Tiles (l r : List Extent) : Prop where
  apart : l.Pairwise Extent.Apart
  covers : ∀ x, (∃ b ∈ l, b.Has x) ↔ ∃ b ∈ r, b.Has x
  total : (l.map Prod.snd).sum = (r.map Prod.snd).sum

namespace Tiles

variable {l l' r : List Extent}

theorem nil : Tiles [] [] := ⟨List.Pairwise.nil, fun _ => Iff.rfl, rfl⟩

theorem perm (h : Tiles l r) (hl : l.Perm l') : Tiles l' r where
  apart := (hl.pairwise_iff Extent.Apart.symm).1 h.apart
  covers x := by
    rw [← h.covers]
    simp only [hl.mem_iff]
  total := by
    rw [← h.total]
    exact (hl.map _).sum_eq.symm

theorem has_cut : Extent.Has (a, m + n) x ↔ Extent.Has (a, m) x ∨ Extent.Has (a + m, n) x := by
  simp only [Extent.Has]
  omega

theorem covers_cut : (∃ b ∈ (a, m + n) :: l, Extent.Has b x) ↔ ∃ b ∈ (a, m) :: (a + m, n) :: l,
    Extent.Has b x := by
  simp only [List.mem_cons, or_and_right, exists_or, exists_eq_left, has_cut, or_assoc]

/-- **A block is cut in two.** -/
theorem cut (h : Tiles ((a, m + n) :: l) r) : Tiles ((a, m) :: (a + m, n) :: l) r := by
  obtain ⟨hfirst, hrest⟩ := List.pairwise_cons.1 h.apart
  refine ⟨List.pairwise_cons.2 ⟨fun b hb => ?_, List.pairwise_cons.2 ⟨fun b hb => ?_, hrest⟩⟩,
    fun x => ?_, ?_⟩
  · rcases List.mem_cons.1 hb with rfl | hb
    · exact .inl (Nat.le_refl _)
    · have := hfirst b hb
      simp only [Extent.Apart] at this ⊢
      omega
  · have := hfirst b hb
    simp only [Extent.Apart] at this ⊢
    omega
  · rw [← covers_cut, h.covers]
  · rw [← h.total]
    simp only [List.map_cons, List.sum_cons, Nat.add_assoc]

/-- **Two blocks that touch are joined.** -/
theorem join (h : Tiles ((a, m) :: (a + m, n) :: l) r) (hpos : ∀ b ∈ l, 0 < b.2) :
    Tiles ((a, m + n) :: l) r := by
  obtain ⟨hfirst, htail⟩ := List.pairwise_cons.1 h.apart
  obtain ⟨hsecond, hrest⟩ := List.pairwise_cons.1 htail
  refine ⟨List.pairwise_cons.2 ⟨fun b hb => ?_, hrest⟩, fun x => ?_, ?_⟩
  · have h₁ := hfirst b (.tail _ hb)
    have h₂ := hsecond b hb
    have h₃ := hpos b hb
    simp only [Extent.Apart] at h₁ h₂ ⊢
    omega
  · rw [covers_cut, h.covers]
  · rw [← h.total]
    simp only [List.map_cons, List.sum_cons, Nat.add_assoc]

/-- **A region is added.** -/
theorem add (h : Tiles l r) (hc : ∀ b ∈ l, c.Apart b) : Tiles (c :: l) (c :: r) where
  apart := List.pairwise_cons.2 ⟨hc, h.apart⟩
  covers x := by
    simp only [List.mem_cons, or_and_right, exists_or, exists_eq_left, h.covers x]
  total := by
    rw [List.map_cons, List.sum_cons, h.total, List.map_cons, List.sum_cons]

end Tiles

end Lib
