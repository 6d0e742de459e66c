/-
# An `exec` that fails

`exec` has ten ways to fail, and at each of them it has built a different part of the new address
space.  For every content of the file it comes back without a panic of the memory, and a failure
leaves every process and page as it was.
-/

import Xv6.Kernel.Disk

namespace Xv6

open Lib

variable {b : Board} {sb : Superblock} {K : Multiset ℕ} {P : Finset ℕ} {s : Kernel} {p : Pp}

/-- **An `exec` that fails changes nothing.**  It stops only for a reason that exact bookkeeping
does not rule out; if it returns, the counts are exact, and it returns the number of arguments, or
-1 with every process, descriptor and page in use as before. -/
theorem failed_exec_changes_nothing (hk : KInv b (Inv sb) K P s) (hl : (s.proc p).Live)
    (path : List UInt8) (argv : List ℕ) :
    (∃ e, (exec b sb p path argv).run s = .error e ∧ Tolerated e) ∨
    ∃ r s', (exec b sb p path argv).run s = .ok (r, s') ∧ KInv b (Inv sb) K P s' ∧
      Ended b (s.pages + (P.val + K)) argv.length s r s' := by
  have hexec : wp (exec b sb p path argv) Tolerated (fun r s' => KInv b (Inv sb) K P s' ∧
      Ended b (s.pages + (P.val + K)) argv.length s r s') s := wp_exec hk hl inv_rules
  cases hrun : (exec b sb p path argv).run s with
  | error e => exact .inl ⟨e, rfl, (wp_of_run_error hrun).1 hexec⟩
  | ok x =>
    obtain ⟨hk', hend⟩ := (wp_of_run_ok hrun).1 hexec
    exact .inr ⟨x.1, x.2, rfl, hk', hend⟩

/-- The file `f` is empty, so it is no program. -/
theorem failed_exec_changes_nothing_empty :
    ∃ P s s', KInv tinyBoard (Inv mkfsSb) 0 P s ∧ (s.proc 0).Live ∧
    (exec tinyBoard mkfsSb 0 [102] []).run s = .ok (-1, s') ∧ s'.proc = s.proc := by
  have hrun : wp (userinit tinyBoard mkfsSb) (fun _ => False) (fun _ s => (s.proc 0).Live ∧
      wp (exec tinyBoard mkfsSb 0 [102] []) (fun _ => False) (fun r _ => r = -1) s)
      (Kernel.start mkfsImage tinyMem) := by decide +kernel
  obtain ⟨⟨⟩, s, hboot, hl, hexec⟩ := exists_run_of_wp hrun
  have hk := KInv.boot inv_rules mkfsImage_consistent.inv tinyMem_owns (by decide) hboot
  obtain ⟨r, s', hr, rfl⟩ := exists_run_of_wp hexec
  refine ⟨∅, s, s', hk, hl, hr, ?_⟩
  rcases failed_exec_changes_nothing hk hl [102] [] with ⟨e, he, -⟩ | ⟨r, s₁, h₁, -, hend⟩
  · rw [hr] at he
    cases he
  · rw [hr] at h₁
    cases h₁
    rcases hend with h₀ | ⟨-, fs, m, rfl, -⟩
    · cases h₀
    · rfl

end Xv6
