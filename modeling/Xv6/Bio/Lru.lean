/-
# Which buffer is recycled

`bio.c` says of its list that it is sorted by how recently the buffer was used.  A buffer counts as
used when `brelse` drops its last reference, not when `bunpin` does.  `Uses` notes when that was,
and the list stays sorted by these times (`Sorted`).
-/

import Xv6.Bio.Inv

namespace Xv6

open Lib Function

namespace Bio

variable {N : ℕ} {s s' : Bio N} {a : BioAction N}

/-- How often `brelse` dropped a last reference, and when it did for each buffer; 0 if never. -/
structure Uses where
  now : ℕ
  last : Bp → ℕ

/-- The end of `brelse` is a use if it leaves no reference; `bunpin` is none. -/
def Uses.note (s : Bio N) (a : BioAction N) (s' : Bio N) (u : Uses) : Uses :=
  match a with
  | .unref p =>
    match s.pc p with
    | .releasing b => if (s'.buf b).refcnt = 0 then ⟨u.now + 1, update u.last b (u.now + 1)⟩ else u
    | _ => u
  | _ => u

/-- The list holds the buffers by the times at which `brelse` last let them go, the latest first. -/
structure Sorted (s : Bio N) (u : Uses) : Prop where
  list : ∃ l, Linked s.links l ∧ (∀ b, b ∈ l) ∧ l.Pairwise fun b c => u.last c ≤ u.last b
  le_now : ∀ b, u.last b ≤ u.now

theorem Sorted.circle (h : Sorted s u) : s.Circle := by
  obtain ⟨l, hl, hmem, -⟩ := h.list
  exact ⟨l, hl, hmem⟩

theorem Sorted.step (h : Sorted s u) (hs : s.step a = some s') : Sorted s' (u.note s a s') := by
  cases step_cases h.circle hs with
  | hit | recycle | acquiresleep | bread | modify | bwrite | brelse | bpin | bunpin =>
    exact ⟨h.list, h.le_now⟩
  | @unref p b hpc =>
    obtain ⟨l, hl, hmem, hsort⟩ := h.list
    have hcount : ((s.unref p b).buf b).refcnt = (s.buf b).refcnt - 1 := by simp [Bio.unref]
    simp only [Uses.note, hpc, hcount]
    by_cases h0 : (s.buf b).refcnt - 1 = 0
    · rw [if_pos h0]
      constructor
      · refine ⟨b :: l.erase b, ?_, fun c => ?_, List.pairwise_cons.2 ⟨fun c hc => ?_, ?_⟩⟩
        · simpa only [Bio.unref, if_pos h0] using hl.moveToFront (hmem b)
        · by_cases hc : c = b
          · exact hc ▸ .head _
          · exact .tail _ ((List.mem_erase_of_ne hc).2 (hmem c))
        · have hcb : c ≠ b := (hl.nodup.mem_erase_iff.1 hc).1
          simp only [update_self, update_of_ne hcb]
          exact (h.le_now c).trans (Nat.le_succ _)
        · -- the order of the others is the one they had
          refine (hsort.sublist List.erase_sublist).imp_of_mem fun hc hd hle => ?_
          simpa only [update_of_ne (hl.nodup.mem_erase_iff.1 hd).1,
            update_of_ne (hl.nodup.mem_erase_iff.1 hc).1]
      · intro c
        simp only [update_apply]
        split_ifs
        · exact le_rfl
        · exact (h.le_now c).trans (Nat.le_succ _)
    · rw [if_neg h0]
      refine ⟨⟨l, ?_, hmem, hsort⟩, h.le_now⟩
      simpa only [Bio.unref, if_neg h0] using hl

theorem Sorted.unused_least (h : Sorted s u) (hb : s.unused = some b) (hc : (s.buf c).refcnt = 0) :
    u.last b ≤ u.last c := by
  obtain ⟨l, hl, hmem, hsort⟩ := h.list
  rw [unused, hl.search_prev (Nat.lt_succ_of_le (length_le_of_linked hl)),
    List.find?_eq_some_iff_append] at hb
  obtain ⟨-, before, after, heq, hnot⟩ := hb
  have hrev := List.pairwise_reverse.2 hsort
  have hin : c ∈ before ++ b :: after := heq ▸ List.mem_reverse.2 (hmem c)
  rw [heq] at hrev
  -- `c` does not come before `b`, since the search would have stopped there
  rcases List.mem_append.1 hin with hc' | hc'
  · have := hnot c hc'
    simp [hc] at this
  rcases List.mem_cons.1 hc' with rfl | hc'
  · exact le_rfl
  · exact (List.pairwise_cons.1 (List.pairwise_append.1 hrev).2.1).1 c hc'

/-- **`bget` recycles the buffer used longest ago.**  In every run, by any number of processes, the
list is sorted by when `brelse` last dropped the last reference to a buffer; a `bget` finds the
buffer of the block, or takes one that is not in use and that `brelse` let go before all others that
are not. -/
theorem recycles_least_recently_used {ok : Bio N × Uses → BioAction N → Prop} {disk : ℕ → Disk}
    {u : Uses}
    (h : Reach (history Bio.step Uses.note) ok (binit N disk, ⟨0, fun _ => 0⟩) (s, u)) :
    (∃ l, Linked s.links l ∧ (∀ b, b ∈ l) ∧ l.Pairwise fun b c => u.last c ≤ u.last b) ∧
    ∀ p dev blockno s', s.step (.bget p dev blockno) = some s' →
      (∃ b, s.Carries b dev blockno ∧ s' = s.hit p b dev blockno) ∨
      ∃ b, s' = s.recycle p b dev blockno ∧ (s.buf b).refcnt = 0 ∧
        ∀ c, (s.buf c).refcnt = 0 → u.last b ≤ u.last c := by
  have hsorted : Sorted s u := by
    refine h.history_invariant (I := Sorted) ⟨?_, fun _ => le_rfl⟩
      fun s a s' u hI _ hs => hI.step hs
    obtain ⟨l, hl, hmem⟩ := circle_binit (N := N) disk
    exact ⟨l, hl, hmem, List.pairwise_of_forall fun _ _ => le_rfl⟩
  refine ⟨hsorted.list, fun p dev blockno s' hs => ?_⟩
  simp only [step, bget] at hs
  split_ifs at hs
  cases hc : s.cached dev blockno with
  | some b =>
    rw [hc] at hs
    cases hs
    exact .inl ⟨b, hsorted.circle.carries_of_cached hc, rfl⟩
  | none =>
    rw [hc] at hs
    obtain ⟨b, hb, rfl⟩ := Option.map_eq_some_iff.1 hs
    exact .inr ⟨b, rfl, hsorted.circle.refcnt_of_unused hb, fun c => hsorted.unused_least hb⟩

/-- Block 7 was read and given back, so its buffer comes first. -/
theorem recycles_least_recently_used_block : ∃ (s : Bio 1) (u : Uses),
    Reach (history Bio.step Uses.note) (fun _ _ => True)
    (binit 1 fun _ _ _ => 5, ⟨0, fun _ => 0⟩) (s, u) ∧ u.last 0 = 1 ∧ ∃ l, Linked s.links l ∧
    (∀ b, b ∈ l) ∧ l.Pairwise fun b c => u.last c ≤ u.last b := by
  have hrun :
    (run (history Bio.step Uses.note) (fun _ _ => True) (binit 1 fun _ _ _ => 5, ⟨0, fun _ => 0⟩)
      [.bget 0 1 7, .acquiresleep 0, .bread 0, .brelse 0 0, .unref 0]).map (fun x => x.2.last 0) =
      some 1 := by
    decide +kernel
  obtain ⟨⟨s, u⟩, h, hlast⟩ := exists_reach_of_run hrun
  exact ⟨s, u, h, hlast, (recycles_least_recently_used h).1⟩

end Bio

end Xv6
