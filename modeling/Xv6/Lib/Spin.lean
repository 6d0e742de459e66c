/-
# Spin locks and who holds them

Each lock has at most one holder, and for each thread there is the number of locks it holds.  `Held`
says which locks each thread is to hold at the place where it is, so the count of a thread can be
read off from its place alone (`Held.noff`).
-/

import Mathlib.Data.List.Basic

namespace Lib

open Function

/-- The holder of each lock, and how many locks each thread has. -/
structure Spin (L T : Type*) where
  owner : L → Option T
  noff : T → ℕ

namespace Spin

variable {L T : Type*} {k : Spin L T} {locks : T → List L} {t : T} {l : L}

def free : Spin L T := ⟨fun _ => none, fun _ => 0⟩

/-- Thread `t` has exactly the locks `locks t`. -/
structure Held (k : Spin L T) (locks : T → List L) : Prop where
  owner : ∀ t l, k.owner l = some t ↔ l ∈ locks t
  nodup : ∀ t, (locks t).Nodup
  noff : ∀ t, k.noff t = (locks t).length

theorem held_free : (free : Spin L T).Held fun _ => [] :=
  ⟨fun t l => by simp [free], fun _ => List.nodup_nil, fun _ => rfl⟩

theorem Held.not_mem_of_free (h : k.Held locks) (hfree : k.owner l = none) (u : T) :
    l ∉ locks u := by
  intro hl
  rw [(h.owner u l).2 hl] at hfree
  cases hfree

variable [DecidableEq L] [DecidableEq T]

def take (k : Spin L T) (t : T) (l : L) : Spin L T :=
  ⟨update k.owner l (some t), update k.noff t (k.noff t + 1)⟩

def drop (k : Spin L T) (t : T) (l : L) : Spin L T :=
  ⟨update k.owner l none, update k.noff t (k.noff t - 1)⟩

theorem Held.take (h : k.Held locks) (hfree : k.owner l = none) :
    (k.take t l).Held (update locks t (l :: locks t)) := by
  have hnew := h.not_mem_of_free hfree
  refine ⟨fun u m => ?_, fun u => ?_, fun u => ?_⟩
  · by_cases hm : m = l
    · subst hm
      by_cases hu : u = t
      · subst hu
        simp [Spin.take]
      · simp [Spin.take, hu, hnew u, Ne.symm hu]
    · have hold := h.owner u m
      by_cases hu : u = t
      · subst hu
        simp [Spin.take, hm, hold]
      · simp [Spin.take, hm, hu, hold]
  · by_cases hu : u = t
    · subst hu
      simpa using ⟨hnew u, h.nodup u⟩
    · simpa [hu] using h.nodup u
  · by_cases hu : u = t
    · subst hu
      simp [Spin.take, h.noff u]
    · simpa [Spin.take, hu] using h.noff u

theorem Held.drop (h : k.Held locks) (hown : k.owner l = some t) :
    (k.drop t l).Held (update locks t ((locks t).erase l)) := by
  have hmem : l ∈ locks t := (h.owner t l).1 hown
  refine ⟨fun u m => ?_, fun u => ?_, fun u => ?_⟩
  · by_cases hu : u = t
    · subst hu
      by_cases hm : m = l
      · subst hm
        simp [Spin.drop, (h.nodup u).not_mem_erase]
      · simp [Spin.drop, hm, h.owner u m, List.mem_erase_of_ne hm]
    · by_cases hm : m = l
      · subst hm
        have hother : m ∉ locks u :=
          fun hl => hu (Option.some.inj (((h.owner u m).2 hl).symm.trans hown))
        simp [Spin.drop, hu, hother]
      · simp [Spin.drop, hm, hu, h.owner u m]
  · by_cases hu : u = t
    · subst hu
      simpa using (h.nodup u).erase l
    · simpa [hu] using h.nodup u
  · by_cases hu : u = t
    · subst hu
      simp [Spin.drop, h.noff u, List.length_erase_of_mem hmem]
    · simpa [Spin.drop, hu] using h.noff u

end Spin

end Lib
