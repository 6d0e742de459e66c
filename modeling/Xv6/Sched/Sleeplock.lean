/-
# Sleep locks

`kernel/sleeplock.c`, for any number of processes and one lock.  A step goes from one point without
`lk->lk` to the next.  To its users a sleep lock has an owner or none, and is taken in one step,
which is what the code comes to (`sleeplock_is_lock`).
-/

import Xv6.Param
import Xv6.Lib.Runs

namespace Xv6.Sleeplock

open Lib Function

variable {N : ℕ}

/-- Where a process is.  One that was woken is at the end of `sleep`, in `acquiresleep`. -/
inductive Pc
  | out
  | asleep
  | woken
  | holding
  deriving DecidableEq

def Pc.wake : Pc → Pc
  | .asleep => .woken
  | c => c

theorem Pc.wake_eq_holding {c : Pc} : c.wake = .holding ↔ c = .holding := by
  cases c <;> simp [Pc.wake]

theorem Pc.wake_ne_asleep (c : Pc) : c.wake ≠ .asleep := by
  cases c <;> simp [Pc.wake]

/-- `struct sleeplock` and `N` processes. -/
structure Sys (N : ℕ) where
  locked : Bool
  pid : ℕ
  pc : Fin N → Pc

def initsleeplock (N : ℕ) : Sys N := ⟨false, 0, fun _ => .out⟩

def goto (s : Sys N) (p : Fin N) (c : Pc) : Sys N := { s with pc := update s.pc p c }

/-- `acquiresleep` from the test of its `while` on; `pid p` is `p->pid`. -/
def acquiresleep (pid : Fin N → ℕ) (s : Sys N) (p : Fin N) : Sys N :=
  if s.locked then goto s p .asleep
  else { locked := true, pid := pid p, pc := update s.pc p .holding }

def releasesleep (s : Sys N) (p : Fin N) : Sys N :=
  { locked := false, pid := 0, pc := update (fun q => (s.pc q).wake) p .out }

def holdingsleep (pid : Fin N → ℕ) (s : Sys N) (p : Fin N) : Bool := s.locked && s.pid == pid p

inductive Action (N : ℕ)
  | acquiresleep (p : Fin N)
  | releasesleep (p : Fin N)
  | kill (p : Fin N)

/-- One step.  A process that releases the lock has it, as the callers check; `kill` wakes a process
from any sleep. -/
def step (pid : Fin N → ℕ) (s : Sys N) : Action N → Option (Sys N)
  | .acquiresleep p => if s.pc p = .out ∨ s.pc p = .woken then some (acquiresleep pid s p) else none
  | .releasesleep p => if s.pc p = .holding then some (releasesleep s p) else none
  | .kill p => some (goto s p (s.pc p).wake)

/-- What an action does to the owner: a process takes a free lock, or the owner gives it back. -/
inductive Passes : Action N → Option (Fin N) → Option (Fin N) → Prop
  | take (p : Fin N) : Passes (.acquiresleep p) none (some p)
  | give (p : Fin N) : Passes (.releasesleep p) (some p) none

/-- The owner of the lock is `o`, and nobody sleeps on a free lock. -/
structure Owned (pid : Fin N → ℕ) (s : Sys N) (o : Option (Fin N)) : Prop where
  locked : s.locked = o.isSome
  holding : ∀ p, s.pc p = .holding ↔ o = some p
  pid : ∀ p, o = some p → s.pid = pid p
  asleep : ∀ p, s.pc p = .asleep → o ≠ none

variable {pid : Fin N → ℕ} {s s' : Sys N} {o : Option (Fin N)} {p : Fin N} {a : Action N}

theorem Owned.goto (h : Owned pid s o) (hp : o ≠ some p) (hc : c ≠ .holding)
    (ha : c = .asleep → o ≠ none) : Owned pid (goto s p c) o := by
  refine ⟨h.locked, fun q => ?_, h.pid, fun q hq => ?_⟩ <;> by_cases hqp : q = p
  · subst hqp
    simp [Sleeplock.goto, hc, hp]
  · simpa [Sleeplock.goto, hqp] using h.holding q
  · subst hqp
    exact ha (by simpa [Sleeplock.goto] using hq)
  · exact h.asleep q (by simpa [Sleeplock.goto, hqp] using hq)

theorem Owned.step (h : Owned pid s o) (hs : step pid s a = some s') :
    ∃ o', Owned pid s' o' ∧ (o' = o ∨ Passes a o o') := by
  cases a with
  | acquiresleep p =>
    simp only [Sleeplock.step] at hs
    split_ifs at hs with hpc
    cases hs
    have hp : o ≠ some p := fun ho => by simp [(h.holding p).2 ho] at hpc
    have hlocked := h.locked
    cases o with
    | some q =>
      rw [acquiresleep, hlocked, if_pos (by simp)]
      exact ⟨some q, h.goto hp (by simp) (by simp), .inl rfl⟩
    | none =>
      rw [acquiresleep, hlocked, if_neg (by simp)]
      refine ⟨some p, ⟨rfl, fun q => ?_, fun q hq => congrArg pid (Option.some.inj hq), by simp⟩,
        .inr (.take p)⟩
      by_cases hq : q = p
      · simp [hq]
      · simp [hq, h.holding q, Ne.symm hq]
  | releasesleep p =>
    simp only [Sleeplock.step] at hs
    split_ifs at hs with hpc
    cases hs
    obtain rfl : o = some p := (h.holding p).1 hpc
    refine ⟨none, ⟨rfl, fun q => ?_, by simp, fun q hq => ?_⟩, .inr (.give p)⟩ <;>
      by_cases hqp : q = p
    · simp [releasesleep, hqp]
    · simp [releasesleep, hqp, Pc.wake_eq_holding, h.holding q, Ne.symm hqp]
    · simp [releasesleep, hqp] at hq
    · simp [releasesleep, hqp, Pc.wake_ne_asleep] at hq
  | kill p =>
    cases hs
    by_cases hp : o = some p
    · have hsame : (s.pc p).wake = s.pc p := by
        rw [(h.holding p).2 hp]
        rfl
      rw [hsame, Sleeplock.goto, update_eq_self]
      exact ⟨o, h, .inl rfl⟩
    · refine ⟨o, h.goto hp ?_ fun ha => absurd ha (Pc.wake_ne_asleep _), .inl rfl⟩
      rwa [ne_eq, Pc.wake_eq_holding, h.holding]

theorem Owned.reach {ok : Sys N → Action N → Prop}
    (h : Reach (Sleeplock.step pid) ok (initsleeplock N) s) : ∃ o, Owned pid s o := by
  refine h.invariant (I := fun s => ∃ o, Owned pid s o) ?_ fun s a s' ⟨o, ho⟩ _ hs => ?_
  · exact ⟨none, rfl, by simp [initsleeplock], by simp, by simp [initsleeplock]⟩
  · obtain ⟨o', ho', -⟩ := ho.step hs
    exact ⟨o', ho'⟩

theorem Owned.holdingsleep_iff (h : Owned pid s o) (hpid : Injective pid) (p : Fin N) :
    holdingsleep pid s p = true ↔ o = some p := by
  rw [holdingsleep, h.locked]
  cases o with
  | none => simp
  | some q => simp [h.pid q rfl, hpid.eq_iff]

/-- **A sleep lock is a lock.**  In every run of processes with different pids, the lock has an
owner or none; `holdingsleep` is true for the owner alone.  Nobody sleeps while the lock is free,
and a process that was woken takes it then with its next step.  Whatever step comes next, the owner
stays the same, or a process takes the free lock with `acquiresleep`, or the owner gives it back
with `releasesleep`. -/
theorem sleeplock_is_lock (hpid : Injective pid) {ok : Sys N → Action N → Prop}
    (h : Reach (step pid) ok (initsleeplock N) s) :
    ∃ o, (∀ p, s.pc p = .holding ↔ o = some p) ∧ (∀ p, holdingsleep pid s p = true ↔ o = some p) ∧
      (∀ p, s.pc p = .asleep → o ≠ none) ∧
      (∀ p, s.pc p = .woken → o = none →
        ∃ s', step pid s (.acquiresleep p) = some s' ∧ s'.pc p = .holding) ∧
      ∀ a s', step pid s a = some s' →
        ∃ o', (∀ p, s'.pc p = .holding ↔ o' = some p) ∧ (o' = o ∨ Passes a o o') := by
  obtain ⟨o, ho⟩ := Owned.reach h
  refine ⟨o, ho.holding, ho.holdingsleep_iff hpid, ho.asleep, fun p hp hnone => ?_,
    fun a s' hs => ?_⟩
  · have hfree : s.locked = false := by rw [ho.locked, hnone, Option.isSome_none]
    exact ⟨_, if_pos (.inr hp), by simp [acquiresleep, hfree]⟩
  · obtain ⟨o', ho', hpass⟩ := ho.step hs
    exact ⟨o', ho'.holding, hpass⟩

/-- Process 0 has the lock and process 1 sleeps; when 0 gives the lock back, nobody has it. -/
theorem sleeplock_is_lock_two : ∃ s s' : Sys 2, s.pc 1 = .asleep ∧ holdingsleep Fin.val s 0 = true ∧
    step Fin.val s (.releasesleep 0) = some s' ∧ ∀ p, s'.pc p ≠ .holding := by
  have hrun : (run (step Fin.val) (fun _ _ => True) (initsleeplock 2)
      [.acquiresleep 0, .acquiresleep 1]).map (fun s => (s.pc 0, s.pc 1)) =
        some (.holding, .asleep) := by decide
  obtain ⟨s, h, hpc⟩ := exists_reach_of_run hrun
  obtain ⟨h0, h1⟩ := Prod.mk.inj hpc
  obtain ⟨o, hh, hhold, -, -, hstep⟩ := sleeplock_is_lock (fun _ _ => Fin.ext) h
  have hs : step Fin.val s (.releasesleep 0) = some (releasesleep s 0) := if_pos h0
  obtain ⟨o', ho', hpass⟩ := hstep _ _ hs
  refine ⟨s, _, h1, (hhold 0).2 ((hh 0).1 h0), hs, fun p hp => ?_⟩
  have howner := (ho' p).1 hp
  rcases hpass with rfl | hpass
  · have : (releasesleep s 0).pc 0 = .out := rfl
    rw [(ho' 0).2 ((hh 0).1 h0)] at this
    cases this
  · cases hpass
    cases howner

end Xv6.Sleeplock
