/-
# A killed process and its sleep

`piperead`, `pipewrite`, `consoleread` and `sys_sleep` test `p->killed` with a lock of their own
held, and `sleep` takes `p->lock` later, so a kill can come between the two
(`killed_reader_sleeps`).  Otherwise a process on its way to its sleep is not killed (`Committed`).
-/

import Xv6.Sched.Change

namespace Xv6.Sched

open Lib

variable {N M : ℕ} {s s' : Sys N M} {c : Fin M} {p q : Fin N} {f g : Frame N}
  {rest st : List (Frame N)}

/-! ### On the way to a sleep -/

/-- After the test of `p->killed` and before the call of `sleep`. -/
def Frame.tested : Frame N → Bool
  | .killTested .. | .killReady .. => true
  | _ => false

/-- After the test of `p->killed` and before `sleep` has `p->lock`. -/
def inWindow : List (Frame N) → Bool
  | .sleepEnter .. :: .killTest .. :: _ => true
  | st => st.any Frame.tested

/-- The process has tested `p->killed`, and will sleep without another test. -/
inductive Committed : List (Frame N) → Prop
  | tested {st : List (Frame N)} {f : Frame N} : f ∈ st → f.tested = true → Committed st
  | enter {chan lk site n} {rest : List (Frame N)} :
    Committed (.sleepEnter chan lk :: .killTest site n :: rest)
  | locked {chan lk site n} {rest : List (Frame N)} :
    Committed (.sleepLocked chan lk :: .killTest site n :: rest)
  | go {chan lk site n} {rest : List (Frame N)} :
    Committed (.sleepGo chan lk :: .killTest site n :: rest)
  | own {chan} {rest : List (Frame N)} : Committed (.sleepGo chan none :: rest)

/-- The innermost call is a `sleep` that `wait` has made, or one of the loops that test
`p->killed`. -/
def SleepCall (st : List (Frame N)) : Prop := ∃ chan lk rest, st = .sleepParked chan lk :: rest ∧
    ((∃ site n rest', rest = .killTest site n :: rest') ∨
      ∃ copyout i havekids rest', rest = .waitScan copyout i havekids :: rest')

theorem Committed.of_tail (hn : Nested (f :: rest)) (h : Committed rest) :
    Committed (f :: rest) := by
  have hhead {g : Frame N} {rest' : List (Frame N)} (hg : rest = g :: rest') :
      g.Calm ∨ ∃ copyout, g = .waitScan copyout 0 false :=
    hn.mem_tail (hg ▸ List.mem_cons_self ..)
  cases h with
  | tested hf ht => exact .tested (.tail _ hf) ht
  | enter | locked | go | own =>
    rcases hhead rfl with hcalm | ⟨_, heq⟩
    · cases hcalm
    · cases heq

section

variable (h : Committed (g :: rest)) (ht : g.tested = false)
  (hg : (∀ chan lk, g ≠ .sleepEnter chan lk) ∧ (∀ chan lk, g ≠ .sleepLocked chan lk) ∧
  ∀ chan lk, g ≠ .sleepGo chan lk)
include h ht hg

theorem Committed.below : ∃ f ∈ rest, f.tested = true := by
  cases h with
  | tested hf htest =>
    rcases List.mem_cons.1 hf with rfl | hf
    · rw [ht] at htest
      cases htest
    · exact ⟨_, hf, htest⟩
  | enter => exact absurd rfl (hg.1 _ _)
  | locked => exact absurd rfl (hg.2.1 _ _)
  | go | own => exact absurd rfl (hg.2.2 _ _)

theorem Committed.of_head : Committed (f :: rest) := by
  obtain ⟨f', hf, htest⟩ := h.below ht hg
  exact .tested (.tail _ hf) htest

end

namespace Sys

/-- Nothing but the test leads a killed process on the way to a sleep. -/
theorem committed_moves (hn : Nested (f :: rest)) (hm : Moves s p rest f st)
    (hk : (s.proc p).killed = true) (hc : Committed st) : Committed (f :: rest) := by
  cases hm with
  | wakeupEnd _ | killEnd _ | forkEnd _ | loopEnd => exact hc.of_tail hn
  | killNext _ | forkNext _ | exitRead _ | exitChild _ | exitNext _ | exitEnd _ | waitChild _
  | waitOther _ | waitNext _ => exact hc.of_head rfl (by simp)
  | loopTest hk' =>
    rw [hk] at hk'
    cases hk'
  | loopReady | loopWake => exact .tested (.head _) rfl

theorem committed_turn (hn : Nested (f :: rest)) (ht : Turn s c p rest f s')
    (hk : (s'.proc p).killed = true) (hc : Committed (s'.proc p).stack) :
    Committed (f :: rest) := by
  cases ht with
  | move hm =>
    rw [setStack_stack_self] at hc
    rw [setStack_killed] at hk
    exact committed_moves hn hm hk hc
  | sleepEnter _ =>
    rw [setStack_stack_self] at hc
    cases hc with
    | tested hf ht =>
      rcases List.mem_cons.1 hf with rfl | hf
      · cases ht
      · exact .tested (.tail _ hf) ht
    | locked => exact .enter
  | sleepLocked _ =>
    rw [setStack_stack_self] at hc
    cases hc with
    | tested hf ht =>
      rcases List.mem_cons.1 hf with rfl | hf
      · cases ht
      · exact .tested (.tail _ hf) ht
    | go => exact .locked
  | sleepGo _ =>
    rw [setCpu_proc, setProc_proc_self] at hc
    exact hc.of_head rfl (by simp)
  | yieldEnter _ =>
    rw [setCpu_proc, setProc_proc_self] at hc
    exact hc.of_head rfl (by simp)
  | exitSwitch _ _ =>
    rw [setCpu_proc, setStack_stack_self] at hc
    exact hc.of_head rfl (by simp)
  | sleepBack =>
    rw [setProc_proc_self] at hc
    exact hc.of_tail hn
  | sleepParked _ | exitZombie _ =>
    rw [setProc_proc_self] at hc
    exact hc.of_head rfl (by simp)
  | wakeup _ | forkFound _ _ | exitWake _ | exitLockParent _ | exitLockSelf _ | exitGive _
  | waitEnter _ =>
    rw [setStack_stack_self] at hc
    exact hc.of_head rfl (by simp)
  | sleepRelock | resume _ _ | kill _ _ | forkNoTrapframe _ | forkNoPages _ | forkEnough _
  | waitNone _ _ | waitReap _ _ _ | waitFail _ | loopKilled _ =>
    rw [setStack_stack_self] at hc
    exact hc.of_tail hn
  | waitSleep _ hk' =>
    rw [setStack_killed] at hk
    exact absurd hk (Bool.eq_false_iff.1 hk')
  | loopSleep _ => exact .tested (.head _) rfl

theorem Placed.committed_event (hs : s.Placed) (he : Event s c s') (hk : (s'.proc p).killed = true)
    (hc : Committed (s'.proc p).stack) : Committed (s.proc p).stack := by
  by_cases hon : (s.cpu c).on = some p
  · have hn := hs.nested p
    cases he with
    | turn hx hst ht =>
      obtain rfl := on_unique hon hx
      rw [hst] at hn ⊢
      exact committed_turn hn ht hk hc
    | call hx hst hcall =>
      obtain rfl := on_unique hon hx
      rw [setStack_stack_self] at hc
      rw [hst]
      obtain ⟨f, hf, ht⟩ := hc.below (by cases hcall <;> rfl) (by cases hcall <;> simp)
      exact .tested hf ht
    | sleep hx hst _ =>
      obtain rfl := on_unique hon hx
      rw [setStack_stack_self] at hc
      rw [hst]
      cases hc with
      | tested hf ht =>
        rcases List.mem_cons.1 hf with rfl | hf
        · cases ht
        · exact .tested hf ht
    | ret hx hst =>
      obtain rfl := on_unique hon hx
      rw [setStack_stack_self] at hc
      rw [hst] at hn ⊢
      exact hc.of_tail hn
    | interrupt hx hst _ hg =>
      obtain rfl := on_unique hon hx
      rw [setStack_stack_self] at hc
      rw [hst]
      obtain ⟨f, hf, ht⟩ := hc.below (by rcases hg with rfl | rfl <;> rfl)
        (by rcases hg with rfl | rfl <;> simp)
      exact .tested hf ht
    | spin _ _ => exact hc
    | round hoff _ _ | cpuCall hoff _ | cpuRet hoff _ | cpuInterrupt hoff _ _ =>
      rw [hon] at hoff
      cases hoff
  · rcases hs.event_stack he hon with hsame | ⟨x, -, hborn⟩
    · exact hsame ▸ hc
    · rw [hborn] at hc
      cases hc with
      | tested hf ht =>
        rcases List.mem_pair.1 hf with rfl | rfl <;> cases ht

/-- A process whose lock is free and that is on its way to a sleep is in the window. -/
theorem Placed.window_of_committed (hs : s.Placed) (hl : s.plock p = none)
    (hc : Committed (s.proc p).stack) : inWindow (s.proc p).stack = true := by
  -- with `p->lock` the process would be on the CPU that has it
  have hno {f : Frame N} {rest : List (Frame N)} (hst : (s.proc p).stack = f :: rest)
      (hf : p ∈ f.locks p) : (s.proc p).Parked := by
    refine hs.parked p fun c hon => ?_
    have hlock : s.plock p = some c := by
      rw [hs.own hon, hst]
      exact hf
    rw [hl] at hlock
    cases hlock
  generalize hst : (s.proc p).stack = st at hc
  cases hc with
  | tested hf ht =>
    unfold inWindow
    split
    · rfl
    · exact List.any_eq_true.2 ⟨_, hf, ht⟩
  | enter => rfl
  | locked | go | own =>
    have hparked := hno hst (List.mem_singleton_self p)
    simp only [Proc.Parked, hst] at hparked
    split at hparked <;> simp at hparked

/-! ### Runs -/

/-- If the step kills a process, that process is not between its test of `p->killed` and `sleep`. -/
def KillsOutsideWindow (s : Sys N M) (a : Fin M × Act N) : Prop :=
  ∀ s' ∈ s.step a, ∀ q, (s.proc q).killed = false → (s'.proc q).killed = true →
    inWindow (s.proc q).stack = false

instance (s : Sys N M) (a : Fin M × Act N) : Decidable (s.KillsOutsideWindow a) :=
  inferInstanceAs (Decidable (∀ s' ∈ s.step a, ∀ q, (s.proc q).killed = false →
    (s'.proc q).killed = true → inWindow (s.proc q).stack = false))

/-- A killed process is not on its way to a sleep, nor asleep there. -/
def Alert (s : Sys N M) (p : Fin N) : Prop := (s.proc p).killed = true →
    ¬Committed (s.proc p).stack ∧ ((s.proc p).state = .sleeping → ¬SleepCall (s.proc p).stack)

theorem alert_boot (initproc : Fin N) (p : Fin N) : (boot N M initproc).Alert p := by
  intro hk
  by_cases hp : p = initproc <;> simp [boot, hp] at hk

theorem Alert.step (h : s.Alert p) (hs : s.Placed) (ha : s.step a = some s')
    (hok : s.KillsOutsideWindow a) : s'.Alert p := by
  have he := event_of_step ha
  intro hk'
  have hnot : ¬Committed (s.proc p).stack := by
    by_cases hk : (s.proc p).killed = true
    · exact (h hk).1
    intro hc
    rcases hs.event_killed he hk' with hk₀ | ⟨hl, -, -⟩
    · exact hk hk₀
    · have hout := hok s' ha p (Bool.eq_false_iff.2 hk) hk'
      rw [hs.window_of_committed hl hc] at hout
      cases hout
  refine ⟨fun hc => hnot (hs.committed_event he hk' hc), fun hsleep hcall => ?_⟩
  rcases hs.event_state he p with hsame | hstep
  · -- it was asleep before, and nobody has moved it
    have hasleep : (s.proc p).state = .sleeping := hsame.symm.trans hsleep
    rcases hs.event_stack he (hs.not_on_of_sleeping hasleep a.1) with hstack | ⟨x, hat, -⟩
    · rcases hs.event_killed he hk' with hk | ⟨-, hawake, -⟩
      · exact (h hk).2 hasleep (hstack ▸ hcall)
      · exact hawake hsleep
    · have hu : (s.proc p).state = .unused := (hs.cpu a.1).sound x _ _ hat.1 hat.2.choose_spec
      rw [hasleep] at hu
      cases hu
  · rw [hsleep] at hstep
    cases hstep with
    | @sleep chan lk rest _ hst hst' =>
      refine hnot ?_
      rw [hst]
      obtain ⟨chan', lk', rest', heq, hcaller⟩ := hcall
      rw [hst'] at heq
      cases heq
      rcases hcaller with ⟨site, n, rest', rfl⟩ | ⟨copyout, i, havekids, rest', rfl⟩
      · exact .go
      have hn := hs.nested p
      rw [hst] at hn
      rcases hn.1 with ⟨-, hcalm⟩ | ⟨⟨chan', hown⟩, -⟩
      · cases hcalm
      · rcases hown with hown | hown <;> cases hown
        exact .own

theorem alert_of_reach {initproc : Fin N}
    (h : Reach Sys.step KillsOutsideWindow (boot N M initproc) s) (p : Fin N) : s.Alert p := by
  refine (h.invariant (I := fun s => s.Placed ∧ s.Alert p)
    ⟨placed_boot initproc, alert_boot initproc p⟩ ?_).2
  rintro t t' a ⟨hs, halert⟩ hok hstep
  exact ⟨hs.step hstep, halert.step hs hstep hok⟩

end Sys

/-- **A killed process does not sleep, unless the kill came in the window.**  In a run in which no
kill falls between a process's test of `p->killed` and its `sleep`, no process with `p->killed` set
is `SLEEPING` in a call of `sleep` from `piperead`, `pipewrite`, `consoleread`, `sys_sleep` or
`wait`. -/
theorem no_killed_sleeper {initproc : Fin N}
    (h : Reach Sys.step Sys.KillsOutsideWindow (Sys.boot N M initproc) s) (p : Fin N) :
    ¬((s.proc p).state = .sleeping ∧ SleepCall (s.proc p).stack ∧ (s.proc p).killed = true) := by
  rintro ⟨hsleep, hcall, hk⟩
  exact (Sys.alert_of_reach h p hk).2 hsleep hcall

/-- On CPU `c` init forks a process; on CPU `d` that process reads from an empty pipe, up to the
test of `p->killed`. -/
def readPipe (c d : Fin M) : List (Fin M × Act N) :=
  [(c, .run), (c, .run), (c, .call (.fork .enough)), (c, .run), (c, .run), (c, .run),
   (d, .run), (d, .run), (d, .run), (d, .acquire (.pipe 0)),
   (d, .call (.loop (.piperead 0) 1)), (d, .run)]

def sleepReading (d : Fin M) : List (Fin M × Act N) :=
  [(d, .run), (d, .run), (d, .run), (d, .run), (d, .run), (d, .run)]

def killReader (c : Fin M) : List (Fin M × Act N) := [(c, .call (.kill 2)), (c, .run), (c, .run)]

theorem no_killed_sleeper_pipe :
    ∃ s t : Sys 2 2, (Reach Sys.step Sys.KillsOutsideWindow (Sys.boot 2 2 0) s ∧
      Reach Sys.step Sys.KillsOutsideWindow (Sys.boot 2 2 0) t ∧
      (s.proc 1).state = .sleeping ∧ SleepCall (s.proc 1).stack ∧ (t.proc 1).killed = true) ∧
    (s.proc 1).killed ≠ true ∧ ¬((t.proc 1).state = .sleeping ∧ SleepCall (t.proc 1).stack) := by
  have hrun :
    ((run Sys.step Sys.KillsOutsideWindow (Sys.boot 2 2 0) (readPipe 0 1 ++ sleepReading 1)).bind
      fun s => (run Sys.step Sys.KillsOutsideWindow s (killReader 0)).map fun t =>
      decide ((s.proc 1).state = .sleeping ∧ (s.proc 1).stack =
        [.sleepParked (.nread 0) (some (.pipe 0)), .killTest (.piperead 0) 0, .kernel] ∧
        (t.proc 1).killed = true)) = some true := by decide +kernel
  simp only [Option.bind_eq_some_iff, Option.map_eq_some_iff, decide_eq_true_iff] at hrun
  obtain ⟨s, hs, t, ht, hstate, hst, hk⟩ := hrun
  have hcall : SleepCall (s.proc 1).stack := ⟨_, _, _, hst, .inl ⟨_, _, _, rfl⟩⟩
  have hreach := (reach_of_run hs).trans (reach_of_run ht)
  refine ⟨s, t, ⟨reach_of_run hs, hreach, hstate, hcall, hk⟩, fun hks => ?_, fun hsleep => ?_⟩
  · exact no_killed_sleeper (reach_of_run hs) 1 ⟨hstate, hcall, hks⟩
  · exact no_killed_sleeper hreach 1 ⟨hsleep.1, hsleep.2, hk⟩

/-- **A killed reader sleeps.**  A kill between the test of `p->killed` in `piperead` and the call
of `sleep` leaves the reader asleep with `p->killed` set, and all locks free. -/
theorem killed_reader_sleeps : ∃ s : Sys 2 2, Reach Sys.step (fun _ _ => True) (Sys.boot 2 2 0) s ∧
    (∀ q, s.plock q = none) ∧ s.held = [] ∧
    (s.proc 1).state = .sleeping ∧ SleepCall (s.proc 1).stack ∧ (s.proc 1).killed = true := by
  have hrun : ((run Sys.step (fun _ _ => True) (Sys.boot 2 2 0)
      (readPipe 0 1 ++ killReader 0 ++ sleepReading 1)).map fun s =>
      decide ((∀ q, s.plock q = none) ∧ s.held = [] ∧ (s.proc 1).state = .sleeping ∧
        (s.proc 1).stack = [.sleepParked (.nread 0) (some (.pipe 0)),
        .killTest (.piperead 0) 0, .kernel] ∧
        (s.proc 1).killed = true)) = some true := by decide +kernel
  simp only [Option.map_eq_some_iff, decide_eq_true_iff] at hrun
  obtain ⟨s, hs, hfree, hheld, hstate, hst, hk⟩ := hrun
  exact ⟨s, reach_of_run hs, hfree, hheld, hstate, ⟨_, _, _, hst, .inl ⟨_, _, _, rfl⟩⟩, hk⟩

end Xv6.Sched
