/-
# What a step can do

The step function once more, turned around: each way in which it succeeds, with what was
then so and the state it leads to (`Turn` for a process that goes on with its innermost
call, `Round` for a CPU in `scheduler()`, `Event` for all that a CPU does).  The invariants
are proved from these, one case each, and do not look into the functions.
-/

import Xv6.Sched.Run

namespace Xv6.Sched

variable {N M : ℕ} {s s' : Sys N M} {c : Fin M} {p q r : Fin N} {f : Frame N}
  {rest st : List (Frame N)} {g : Proc N → Proc N} {o : Option (Fin M)}

namespace Sys

/-! ### Fields after an update -/

@[simp] theorem setProc_proc_self : (s.setProc q g).proc q = g (s.proc q) := Function.update_self ..

@[simp] theorem setProc_proc_of_ne (h : r ≠ q) : (s.setProc q g).proc r = s.proc r :=
  Function.update_of_ne h ..

@[simp] theorem setCpu_cpu_self {g : Cpu N → Cpu N} : (s.setCpu c g).cpu c = g (s.cpu c) :=
  Function.update_self ..

@[simp] theorem setCpu_cpu_of_ne {g : Cpu N → Cpu N} {c' : Fin M} (h : c' ≠ c) :
    (s.setCpu c g).cpu c' = s.cpu c' :=
  Function.update_of_ne h ..

@[simp] theorem setLock_plock_self : (s.setLock q o).plock q = o := Function.update_self ..

@[simp] theorem setLock_plock_of_ne (h : r ≠ q) : (s.setLock q o).plock r = s.plock r :=
  Function.update_of_ne h ..

@[simp] theorem setStack_proc_of_ne (h : r ≠ p) : (s.setStack p st).proc r = s.proc r :=
  setProc_proc_of_ne h

@[simp] theorem setStack_stack_self : ((s.setStack p st).proc p).stack = st := by
  simp [setStack]

/-- Another stack leaves all else of every process. -/
theorem setStack_field {α : Type*} (k : Proc N → α)
    (hk : ∀ pr st, k { pr with stack := st } = k pr) :
    k ((s.setStack p st).proc r) = k (s.proc r) := by
  by_cases hr : r = p
  · subst hr
    rw [setStack, setProc_proc_self, hk]
  · rw [setStack_proc_of_ne hr]

@[simp] theorem setStack_state : ((s.setStack p st).proc r).state = (s.proc r).state :=
  setStack_field Proc.state fun _ _ => rfl

@[simp] theorem setStack_parent : ((s.setStack p st).proc r).parent = (s.proc r).parent :=
  setStack_field Proc.parent fun _ _ => rfl

@[simp] theorem setStack_killed : ((s.setStack p st).proc r).killed = (s.proc r).killed :=
  setStack_field Proc.killed fun _ _ => rfl

@[simp] theorem setStack_pid : ((s.setStack p st).proc r).pid = (s.proc r).pid :=
  setStack_field Proc.pid fun _ _ => rfl

@[simp] theorem setStack_xstate : ((s.setStack p st).proc r).xstate = (s.proc r).xstate :=
  setStack_field Proc.xstate fun _ _ => rfl

@[simp] theorem setStack_cpu : (s.setStack p st).cpu = s.cpu := rfl

@[simp] theorem setLock_proc : (s.setLock q o).proc = s.proc := rfl

@[simp] theorem setLock_cpu : (s.setLock q o).cpu = s.cpu := rfl

@[simp] theorem setProc_cpu : (s.setProc q g).cpu = s.cpu := rfl

@[simp] theorem setCpu_proc {g : Cpu N → Cpu N} : (s.setCpu c g).proc = s.proc := rfl

/-! ### When a critical section is entered and left -/

section

variable {k : Sys N M → Option (Sys N M)}

theorem bind_acquire (h : (s.acquire c q).bind k = some s') :
    s.plock q = none ∧ k (s.setLock q (some c)) = some s' := by
  simpa [acquire, Option.bind_eq_some_iff] using h

theorem bind_release (h : (s.release c q).bind k = some s') :
    s.plock q = some c ∧ k (s.setLock q none) = some s' := by
  simpa [release, Option.bind_eq_some_iff] using h

theorem bind_critical (h : (s.critical q g).bind k = some s') :
    s.plock q = none ∧ k (s.setProc q g) = some s' := by
  simpa [critical, Option.bind_eq_some_iff] using h

theorem bind_releaseSpin (h : (s.releaseSpin c lk).bind k = some s') :
    (lk, c) ∈ s.held ∧ k { s with held := s.held.erase (lk, c) } = some s' := by
  simpa [releaseSpin, Option.bind_eq_some_iff] using h

theorem bind_acquireSpin (h : (s.acquireSpin c lk).bind k = some s') :
    k { s with held := (lk, c) :: s.held } = some s' := by
  obtain ⟨_, h₁, h⟩ := Option.bind_eq_some_iff.1 h
  obtain ⟨-, ⟨⟩⟩ := Option.ite_none_right_eq_some.1 h₁
  exact h

end

theorem setProc_id : s.setProc q id = s := by
  simp [setProc]

theorem setProc_setStack :
    (s.setProc q g).setStack q st = s.setProc q fun pr => { g pr with stack := st } := by
  simp [setProc, setStack]

theorem sched_eq_some :
    s.sched c p = some s' ↔ (s.plock p = some c ∧ s.noff c = 1 ∧ (s.proc p).state ≠ .running) ∧
      (s.setCpu c fun k => { k with on := none }) = s' := by
  simp [sched]

theorem plock_ne_of_noff (h : s.noff c = 0) (q : Fin N) : s.plock q ≠ some c := by
  intro hq
  have hcount : (List.finRange N).countP (fun q => s.plock q = some c) = 0 := by
    simp only [noff] at h
    omega
  rw [List.countP_eq_zero] at hcount
  exact hcount q (List.mem_finRange q) (by simpa using hq)

theorem not_mem_held_of_noff (h : s.noff c = 0) (lk : Spin) : (lk, c) ∉ s.held := by
  intro hlk
  have hcount : s.held.countP (fun x => x.2 = c) = 0 := by
    simp only [noff] at h
    omega
  rw [List.countP_eq_zero] at hcount
  exact hcount _ hlk (by simp)

end Sys

/-! ### A process goes on -/

/-- The steps that change nothing but where the process stands: the loops whose test is made
without a lock, and the returns from loops that have come to the end of the table. -/
inductive Moves (s : Sys N M) (p : Fin N) (rest : List (Frame N)) : Frame N → List (Frame N) → Prop
  | wakeupEnd {chan i} : N ≤ i → Moves s p rest (.wakeup chan i) rest
  | killEnd {pid i} : N ≤ i → Moves s p rest (.kill pid i) rest
  | killNext {pid} {i : Fin N} : (s.proc i).pid ≠ pid → Moves s p rest (.kill pid i)
    (.kill pid (i + 1) :: rest)
  | forkEnd {mem i} : N ≤ i → Moves s p rest (.forkScan mem i) rest
  | forkNext {mem} {i : Fin N} : (s.proc i).state ≠ .unused →
    Moves s p rest (.forkScan mem i) (.forkScan mem (i + 1) :: rest)
  | exitRead {status parent} : (s.proc p).parent = some parent →
    Moves s p rest (.exitRead status) (.exitLockParent status parent :: rest)
  | exitChild {status parent} {i : Fin N} : (s.proc i).parent = some p →
    Moves s p rest (.exitScan status parent i) (.exitGive status parent i :: rest)
  | exitNext {status parent} {i : Fin N} : (s.proc i).parent ≠ some p →
    Moves s p rest (.exitScan status parent i) (.exitScan status parent (i + 1) :: rest)
  | exitEnd {status parent i} : N ≤ i → Moves s p rest (.exitScan status parent i)
    (.exitZombie status parent :: rest)
  | waitChild {copyout havekids} {i : Fin N} : (s.proc i).parent = some p →
    Moves s p rest (.waitScan copyout i havekids) (.waitChild copyout i :: rest)
  | waitOther {copyout havekids} {i : Fin N} : (s.proc i).parent ≠ some p →
    Moves s p rest (.waitScan copyout i havekids) (.waitScan copyout (i + 1) havekids :: rest)
  | waitNext {copyout} {i : Fin N} : (s.proc i).state ≠ .zombie →
    Moves s p rest (.waitChild copyout i) (.waitScan copyout (i + 1) true :: rest)
  | loopEnd {site} : Moves s p rest (.killTest site 0) rest
  | loopTest {site n} : (s.proc p).killed = false →
    Moves s p rest (.killTest site (n + 1)) (.killTested site n :: rest)
  | loopReady {site n} : Moves s p rest (.killTested site n) (.killReady site n :: rest)
  | loopWake {site n chan} :
    Moves s p rest (.killTested site n) (.wakeup chan 0 :: .killReady site n :: rest)

/-- What one step of process `p` on CPU `c` can do. -/
inductive Turn (s : Sys N M) (c : Fin M) (p : Fin N) (rest : List (Frame N)) :
    Frame N → Sys N M → Prop
  | move {f : Frame N} {st : List (Frame N)} : Moves s p rest f st →
    Turn s c p rest f (s.setStack p st)
  | sleepEnter {chan lk} : s.plock p = none → Turn s c p rest (.sleepEnter chan lk)
      ((s.setLock p (some c)).setStack p (.sleepLocked chan lk :: rest))
  | sleepLocked {chan lk} : (lk, c) ∈ s.held → Turn s c p rest (.sleepLocked chan lk)
      (Sys.setStack { s with held := s.held.erase (lk, c) } p (.sleepGo chan (some lk) :: rest))
  | sleepGo {chan lk} : s.plock p = some c → Turn s c p rest (.sleepGo chan lk)
    ((s.setProc p fun pr => { pr with
        chan := some chan, state := .sleeping, stack := .sleepParked chan lk :: rest }).setCpu c
          fun k => { k with on := none })
  | sleepBack {chan} : Turn s c p rest (.sleepParked chan none)
      (s.setProc p fun pr => { pr with chan := none, stack := rest })
  | sleepParked {chan lk} : s.plock p = some c → Turn s c p rest (.sleepParked chan (some lk))
      ((s.setLock p none).setProc p
      fun pr => { pr with chan := none, stack := .sleepRelock lk :: rest })
  | sleepRelock {lk} :
    Turn s c p rest (.sleepRelock lk) (Sys.setStack { s with held := (lk, c) :: s.held } p rest)
  | wakeup {chan} {i : Fin N} : s.plock i = none → Turn s c p rest (.wakeup chan i)
      ((s.setProc i (Proc.wake chan)).setStack p (.wakeup chan (i + 1) :: rest))
  | yieldEnter : s.plock p = none → Turn s c p rest .yieldEnter
    (((s.setLock p (some c)).setProc p fun pr => { pr with
        state := .runnable, stack := .yieldParked :: rest }).setCpu c fun k =>
        { k with on := none })
  | resume {f : Frame N} : f = .yieldParked ∨ f = .forkret → s.plock p = some c →
      Turn s c p rest f ((s.setLock p none).setStack p rest)
  | kill {pid} {i : Fin N} : s.plock i = none → (s.proc i).pid = pid →
      Turn s c p rest (.kill pid i) ((s.setProc i Proc.kill).setStack p rest)
  | forkFound {mem} {i : Fin N} : s.plock i = none → (s.proc i).state = .unused →
    Turn s c p rest (.forkScan mem i)
        (((Sys.setLock { s with nextpid := s.nextpid + 1 } i (some c)).setProc i fun pr => { pr with
          pid := s.nextpid }).setStack p (.forkHave mem i :: rest))
  | forkNoTrapframe {np} : s.plock np = some c → Turn s c p rest (.forkHave .noTrapframe np)
      ((s.setLock np none).setStack p rest)
  | forkNoPages {np} : s.plock np = some c → Turn s c p rest (.forkHave .noPages np)
      (((s.setLock np none).setProc np Proc.free).setStack p rest)
  | forkEnough {np} : s.plock np = some c → Turn s c p rest (.forkHave .enough np)
      (((Sys.setLock { s with births := Function.update s.births np (s.births np + 1) } np
      none).setProc np fun pr => { pr with
          parent := some p, stack := [.forkret, .kernel], state := .runnable }).setStack p rest)
  | exitWake {status} : s.plock s.initproc = none → Turn s c p rest (.exitWake status)
      ((s.setProc s.initproc (Proc.wake (.proc s.initproc))).setStack p (.exitRead status :: rest))
  | exitLockParent {status parent} : s.plock parent = none →
    Turn s c p rest (.exitLockParent status parent)
        ((s.setLock parent (some c)).setStack p (.exitLockSelf status parent :: rest))
  | exitLockSelf {status parent} : s.plock p = none → Turn s c p rest (.exitLockSelf status parent)
      ((s.setLock p (some c)).setStack p (.exitScan status parent 0 :: rest))
  | exitGive {status parent} {i : Fin N} : s.plock i = none →
    Turn s c p rest (.exitGive status parent i)
      ((s.setProc i fun pr => { pr with parent := some s.initproc }).setStack p
        (.exitScan status parent (i + 1) :: rest))
  | exitZombie {status parent} : s.plock parent = some c →
    Turn s c p rest (.exitZombie status parent)
      (((Sys.setLock { s with exited := ⟨p, s.births p, (s.proc p).pid, status⟩ :: s.exited } parent
      none).setProc parent (Proc.wake (.proc parent))).setProc p fun pr => { pr with
          xstate := status, state := .zombie, stack := .exitSwitch :: rest })
  | exitSwitch : s.plock p = some c → (s.proc p).state ≠ .running → Turn s c p rest .exitSwitch
      ((s.setStack p (.exitParked :: rest)).setCpu c fun k => { k with on := none })
  | waitEnter {copyout} : s.plock p = none → Turn s c p rest (.waitEnter copyout)
      ((s.setLock p (some c)).setStack p (.waitScan copyout 0 false :: rest))
  | waitNone {copyout i havekids} : N ≤ i → s.plock p = some c →
      Turn s c p rest (.waitScan copyout i havekids) ((s.setLock p none).setStack p rest)
  | waitSleep {copyout i havekids} : N ≤ i → (s.proc p).killed = false →
      Turn s c p rest (.waitScan copyout i havekids)
        (Sys.setStack { s with sleeps := Function.update s.sleeps p (s.sleeps p + 1) } p
          (.sleepGo (.proc p) none :: .waitScan copyout 0 false :: rest))
  | waitReap {i} : s.plock i = none → s.plock p = some c → (s.proc i).state = .zombie →
      Turn s c p rest (.waitChild true i) (((Sys.setLock { s with
            reaped := ⟨⟨i, s.births i, (s.proc i).pid, (s.proc i).xstate⟩, (s.proc i).parent, p⟩ ::
              s.reaped } p none).setProc i Proc.free).setStack p rest)
  | waitFail {i} : s.plock p = some c → Turn s c p rest (.waitChild false i)
    ((s.setLock p none).setStack p rest)
  | loopKilled {site n} : (site.lock, c) ∈ s.held → Turn s c p rest (.killTest site (n + 1))
      (Sys.setStack { s with held := s.held.erase (site.lock, c) } p rest)
  | loopSleep {site n} : (site.lock, c) ∈ s.held → Turn s c p rest (.killReady site n)
      (Sys.setStack { s with sleeps := Function.update s.sleeps p (s.sleeps p + 1) } p
        (.sleepEnter site.chan site.lock :: .killTest site n :: rest))

/-- **Every step of a process is one of the turns.** -/
theorem turn_of_procStep (h : s.procStep c p rest f = some s') : Turn s c p rest f s' := by
  cases f with
  | kernel | exitParked | scheduler i | switched q => cases h
  | sleepEnter chan lk =>
    obtain ⟨hl, ⟨⟩⟩ := Sys.bind_acquire h
    exact .sleepEnter hl
  | sleepLocked chan lk =>
    obtain ⟨hl, ⟨⟩⟩ := Sys.bind_releaseSpin h
    exact .sleepLocked hl
  | sleepGo chan lk =>
    obtain ⟨⟨hl, -⟩, rfl⟩ := Sys.sched_eq_some.1 h
    exact .sleepGo hl
  | sleepParked chan lk =>
    cases lk with
    | none =>
      simp only [Sys.procStep, Option.some.injEq, Sys.setProc_setStack] at h
      subst h
      exact .sleepBack
    | some lk =>
      obtain ⟨hl, ⟨⟩⟩ := Sys.bind_release h
      have hcomm : (Sys.setLock (s.setProc p fun pr => { pr with chan := none }) p none).setStack p
          (.sleepRelock lk :: rest) = ((s.setLock p none).setProc p fun pr =>
            { pr with chan := none }).setStack p (.sleepRelock lk :: rest) := rfl
      rw [hcomm, Sys.setProc_setStack]
      exact .sleepParked hl
  | sleepRelock lk =>
    cases Sys.bind_acquireSpin h
    exact .sleepRelock
  | wakeup chan i =>
    simp only [Sys.procStep] at h
    split at h
    · rename_i hi
      obtain ⟨hl, ⟨⟩⟩ := Sys.bind_critical h
      exact .wakeup (i := ⟨i, hi⟩) hl
    · rename_i hi
      cases h
      exact .move (.wakeupEnd (Nat.le_of_not_lt hi))
  | yieldEnter =>
    obtain ⟨hl, h⟩ := Sys.bind_acquire h
    obtain ⟨-, rfl⟩ := Sys.sched_eq_some.1 h
    exact .yieldEnter hl
  | yieldParked | forkret =>
    obtain ⟨hl, ⟨⟩⟩ := Sys.bind_release h
    exact .resume (by simp) hl
  | kill pid i =>
    simp only [Sys.procStep] at h
    split at h
    · rename_i hi
      split at h
      · rename_i hpid
        obtain ⟨hl, ⟨⟩⟩ := Sys.bind_critical h
        exact .kill (i := ⟨i, hi⟩) hl hpid
      · rename_i hpid
        obtain ⟨-, ⟨⟩⟩ := Sys.bind_critical h
        rw [Sys.setProc_id]
        exact .move (.killNext (i := ⟨i, hi⟩) hpid)
    · rename_i hi
      cases h
      exact .move (.killEnd (Nat.le_of_not_lt hi))
  | forkScan mem i =>
    simp only [Sys.procStep] at h
    split at h
    · rename_i hi
      obtain ⟨hl, h⟩ := Sys.bind_acquire h
      split at h
      · rename_i hstate
        cases h
        exact .forkFound (i := ⟨i, hi⟩) hl hstate
      · rename_i hstate
        obtain ⟨-, ⟨⟩⟩ := Sys.bind_release h
        have hback : (s.setLock ⟨i, hi⟩ (some c)).setLock ⟨i, hi⟩ none = s := by
          simp [Sys.setLock, ← hl]
        rw [hback]
        exact .move (.forkNext (i := ⟨i, hi⟩) hstate)
    · rename_i hi
      cases h
      exact .move (.forkEnd (Nat.le_of_not_lt hi))
  | forkHave mem np =>
    obtain ⟨hl, ⟨⟩⟩ := Sys.bind_release h
    cases mem with
    | noTrapframe => exact .forkNoTrapframe hl
    | noPages => exact .forkNoPages hl
    | enough => exact .forkEnough hl
  | exitWake status =>
    obtain ⟨hl, ⟨⟩⟩ := Sys.bind_critical h
    exact .exitWake hl
  | exitRead status =>
    obtain ⟨-, h⟩ := Option.ite_none_right_eq_some.1 h
    obtain ⟨q, hq, ⟨⟩⟩ := Option.bind_eq_some_iff.1 h
    exact .move (.exitRead hq)
  | exitLockParent status q =>
    obtain ⟨hl, ⟨⟩⟩ := Sys.bind_acquire h
    exact .exitLockParent hl
  | exitLockSelf status q =>
    obtain ⟨hl, ⟨⟩⟩ := Sys.bind_acquire h
    exact .exitLockSelf hl
  | exitScan status q i =>
    simp only [Sys.procStep] at h
    split at h
    · rename_i hi
      split at h
      · rename_i hparent
        cases h
        exact .move (.exitChild (i := ⟨i, hi⟩) hparent)
      · rename_i hparent
        cases h
        exact .move (.exitNext (i := ⟨i, hi⟩) hparent)
    · rename_i hi
      cases h
      exact .move (.exitEnd (Nat.le_of_not_lt hi))
  | exitGive status q i =>
    obtain ⟨hl, ⟨⟩⟩ := Sys.bind_critical h
    exact .exitGive hl
  | exitZombie status q =>
    obtain ⟨hl, ⟨⟩⟩ := Option.ite_none_right_eq_some.1 h
    exact .exitZombie hl
  | exitSwitch =>
    obtain ⟨⟨hl, -, hstate⟩, rfl⟩ := Sys.sched_eq_some.1 h
    exact .exitSwitch hl (by simpa using hstate)
  | waitEnter copyout =>
    obtain ⟨hl, ⟨⟩⟩ := Sys.bind_acquire h
    exact .waitEnter hl
  | waitScan copyout i havekids =>
    simp only [Sys.procStep] at h
    split at h
    · rename_i hi
      split at h
      · rename_i hparent
        cases h
        exact .move (.waitChild (i := ⟨i, hi⟩) hparent)
      · rename_i hparent
        cases h
        exact .move (.waitOther (i := ⟨i, hi⟩) hparent)
    · rename_i hi
      split at h
      · obtain ⟨hl, ⟨⟩⟩ := Sys.bind_release h
        exact .waitNone (Nat.le_of_not_lt hi) hl
      · rename_i hgo
        cases h
        exact .waitSleep (Nat.le_of_not_lt hi)
          (Bool.eq_false_of_not_eq_true fun hk => hgo (.inr hk))
  | waitChild copyout i =>
    simp only [Sys.procStep] at h
    split at h
    · rename_i hzombie
      cases copyout with
      | true =>
        obtain ⟨hl, h⟩ := Sys.bind_critical h
        obtain ⟨hp, ⟨⟩⟩ := Sys.bind_release h
        exact .waitReap hl hp hzombie
      | false =>
        obtain ⟨-, h⟩ := Sys.bind_critical h
        rw [Sys.setProc_id] at h
        obtain ⟨hp, ⟨⟩⟩ := Sys.bind_release h
        exact .waitFail hp
    · rename_i hzombie
      obtain ⟨-, ⟨⟩⟩ := Sys.bind_critical h
      rw [Sys.setProc_id]
      exact .move (.waitNext hzombie)
  | killTest site n =>
    cases n with
    | zero =>
      cases h
      exact .move .loopEnd
    | succ n =>
      simp only [Sys.procStep] at h
      split at h
      · obtain ⟨hl, ⟨⟩⟩ := Sys.bind_releaseSpin h
        exact .loopKilled hl
      · rename_i hkilled
        cases h
        exact .move (.loopTest (Bool.eq_false_of_not_eq_true hkilled))
  | killTested site n =>
    simp only [Sys.procStep] at h
    split at h
    · cases h
      exact .move .loopReady
    · cases h
      exact .move .loopWake
  | killReady site n =>
    obtain ⟨hl, ⟨⟩⟩ := Option.ite_none_right_eq_some.1 h
    exact .loopSleep hl

/-! ### A CPU goes on -/

/-- What one step of CPU `c` on its own stack can do. -/
inductive Round (s : Sys N M) (c : Fin M) (rest : List (Frame N)) : Frame N → Sys N M → Prop
  | dispatch {i : Fin N} : s.plock i = none → (s.proc i).state = .runnable →
    Round s c rest (.scheduler i)
        (((s.setLock i (some c)).setProc i fun pr => { pr with state := .running }).setCpu c
          fun _ => ⟨some i, some i, .switched i :: rest⟩)
  | next {i j} :
    Round s c rest (.scheduler i) (s.setCpu c fun k => { k with stack := .scheduler j :: rest })
  | back {p : Fin N} : s.plock p = some c → Round s c rest (.switched p)
      ((s.setLock p none).setCpu c
      fun k => { k with proc := none, stack := .scheduler (p + 1) :: rest })
  | wakeup {chan} {i : Fin N} : s.plock i = none → Round s c rest (.wakeup chan i)
      ((s.setProc i (Proc.wake chan)).setCpu c
      fun k => { k with stack := .wakeup chan (i + 1) :: rest })
  | wakeupEnd {chan i} :
    N ≤ i → Round s c rest (.wakeup chan i) (s.setCpu c fun k => { k with stack := rest })

theorem round_of_cpuStep (h : s.cpuStep c rest f = some s') : Round s c rest f s' := by
  cases f with
  | scheduler i =>
    simp only [Sys.cpuStep] at h
    split at h
    · rename_i hi
      split at h
      · rename_i hstate
        obtain ⟨hl, ⟨⟩⟩ := Sys.bind_acquire h
        exact .dispatch (i := ⟨i, hi⟩) hl hstate
      · obtain ⟨-, ⟨⟩⟩ := Sys.bind_critical h
        rw [Sys.setProc_id]
        exact .next
    · cases h
      exact .next
  | switched p =>
    obtain ⟨hl, ⟨⟩⟩ := Sys.bind_release h
    exact .back hl
  | wakeup chan i =>
    simp only [Sys.cpuStep] at h
    split at h
    · rename_i hi
      obtain ⟨hl, ⟨⟩⟩ := Sys.bind_critical h
      exact .wakeup (i := ⟨i, hi⟩) hl
    · rename_i hi
      cases h
      exact .wakeupEnd (Nat.le_of_not_lt hi)
  | _ => cases h

/-! ### All that a CPU does -/

/-- The places at which a call starts that takes no lock before its first step. -/
inductive Starts (s : Sys N M) (c : Fin M) (p : Fin N) : Frame N → Prop
  | wakeup {chan} : Starts s c p (.wakeup chan 0)
  | kill {pid} : Starts s c p (.kill pid 0)
  | fork {mem} : Starts s c p (.forkScan mem 0)
  | exit {status} : p ≠ s.initproc → Starts s c p (.exitWake status)
  | wait {copyout} : Starts s c p (.waitEnter copyout)
  | loop {site n} : (site.lock, c) ∈ s.held → Starts s c p (.killTest site n)

/-- What one step of CPU `c` can do. -/
inductive Event (s : Sys N M) (c : Fin M) : Sys N M → Prop
  | turn {p : Fin N} {f : Frame N} {rest : List (Frame N)} {s' : Sys N M} : (s.cpu c).on = some p →
    (s.proc p).stack = f :: rest → Turn s c p rest f s' → Event s c s'
  | call {p : Fin N} {f : Frame N} {rest : List (Frame N)} : (s.cpu c).on = some p →
    (s.proc p).stack = .kernel :: rest → Starts s c p f →
      Event s c (s.setStack p (f :: .kernel :: rest))
  | sleep {p : Fin N} {chan lk} {rest : List (Frame N)} : (s.cpu c).on = some p →
    (s.proc p).stack = .kernel :: rest → (lk, c) ∈ s.held →
      Event s c (Sys.setStack { s with sleeps := Function.update s.sleeps p (s.sleeps p + 1) } p
        (.sleepEnter chan lk :: .kernel :: rest))
  | ret {p : Fin N} {rest : List (Frame N)} : (s.cpu c).on = some p →
    (s.proc p).stack = .kernel :: rest → Event s c (s.setStack p rest)
  | interrupt {p : Fin N} {f g : Frame N} {rest : List (Frame N)} : (s.cpu c).on = some p →
    (s.proc p).stack = f :: rest → s.noff c = 0 →
      g = .kernel ∨ g = .yieldEnter → Event s c (s.setStack p (g :: f :: rest))
  | spin {held} : (∀ p, (s.cpu c).on = some p → ∃ rest, (s.proc p).stack = .kernel :: rest) →
      (∀ lk c', c' ≠ c → (lk, c') ∈ s.held → (lk, c') ∈ held) → Event s c { s with held := held }
  | round {f : Frame N} {rest : List (Frame N)} {s' : Sys N M} : (s.cpu c).on = none →
    (s.cpu c).stack = f :: rest → Round s c rest f s' → Event s c s'
  | cpuCall {chan} {rest : List (Frame N)} : (s.cpu c).on = none →
    (s.cpu c).stack = .kernel :: rest →
      Event s c (s.setCpu c fun k => { k with stack := .wakeup chan 0 :: .kernel :: rest })
  | cpuRet {rest : List (Frame N)} : (s.cpu c).on = none → (s.cpu c).stack = .kernel :: rest →
      Event s c (s.setCpu c fun k => { k with stack := rest })
  | cpuInterrupt {f : Frame N} {rest : List (Frame N)} : (s.cpu c).on = none →
    (s.cpu c).stack = f :: rest → s.noff c = 0 →
      Event s c (s.setCpu c fun k => { k with stack := .kernel :: f :: rest })

theorem event_of_spin
    (hpc : ∀ p, (s.cpu c).on = some p → ∃ rest, (s.proc p).stack = .kernel :: rest)
    (h : s.acquireSpin c lk = some s' ∨ s.releaseSpin c lk = some s') : Event s c s' := by
  rcases h with h | h
  · simp only [Sys.acquireSpin, Option.ite_none_right_eq_some, Option.some.injEq] at h
    obtain ⟨-, rfl⟩ := h
    exact .spin hpc fun _ _ _ hlk => .tail _ hlk
  · simp only [Sys.releaseSpin, Option.ite_none_right_eq_some, Option.some.injEq] at h
    obtain ⟨-, rfl⟩ := h
    refine .spin hpc fun lk' c' hc hlk => (List.mem_erase_of_ne ?_).2 hlk
    simp [hc]

theorem event_of_enter {g : Call N} (hon : (s.cpu c).on = some p)
    (hst : (s.proc p).stack = .kernel :: rest) (h : s.enter c p (.kernel :: rest) g = some s') :
    Event s c s' := by
  cases g with
  | sleep chan lk =>
    simp only [Sys.enter, Sys.callSleep, Option.ite_none_right_eq_some, Option.some.injEq] at h
    obtain ⟨hlk, rfl⟩ := h
    exact .sleep hon hst hlk
  | wakeup chan =>
    cases h
    exact .call hon hst .wakeup
  | kill pid =>
    cases h
    exact .call hon hst .kill
  | fork mem =>
    cases h
    exact .call hon hst .fork
  | exit status =>
    simp only [Sys.enter, Option.ite_none_left_eq_some, Option.some.injEq] at h
    obtain ⟨hp, rfl⟩ := h
    exact .call hon hst (.exit hp)
  | wait copyout =>
    cases h
    exact .call hon hst .wait
  | loop site n =>
    simp only [Sys.enter, Option.ite_none_right_eq_some, Option.some.injEq] at h
    obtain ⟨hlk, rfl⟩ := h
    exact .call hon hst (.loop hlk)

/-- **Every step is one of the events.** -/
theorem event_of_step {a : Act N} (h : s.step (c, a) = some s') : Event s c s' := by
  simp only [Sys.step] at h
  split at h
  · rename_i p hon
    split at h
    · cases h
    rename_i f rest hst
    have hpc (hf : f = .kernel) (q : Fin N) (hq : (s.cpu c).on = some q) :
        ∃ rest, (s.proc q).stack = .kernel :: rest := by
      rw [hon] at hq
      obtain rfl := Option.some.inj hq
      exact ⟨rest, hf ▸ hst⟩
    cases a with
    | run => exact .turn hon hst (turn_of_procStep h)
    | call g =>
      simp only [Sys.procAct, Option.ite_none_right_eq_some] at h
      obtain ⟨rfl, h⟩ := h
      exact event_of_enter hon hst h
    | acquire lk =>
      simp only [Sys.procAct, Option.ite_none_right_eq_some] at h
      exact event_of_spin (hpc h.1) (.inl h.2)
    | release lk =>
      simp only [Sys.procAct, Option.ite_none_right_eq_some] at h
      exact event_of_spin (hpc h.1) (.inr h.2)
    | ret =>
      simp only [Sys.procAct, Option.ite_none_right_eq_some, Option.some.injEq] at h
      obtain ⟨⟨rfl, -⟩, rfl⟩ := h
      exact .ret hon hst
    | interrupt | preempt =>
      simp only [Sys.procAct, Option.ite_none_right_eq_some, Option.some.injEq] at h
      obtain ⟨hoff, rfl⟩ := h
      exact .interrupt hon hst hoff (by simp)
  · rename_i hon
    split at h
    · cases h
    rename_i f rest hst
    have hpc (q : Fin N) (hq : (s.cpu c).on = some q) :
        ∃ rest, (s.proc q).stack = .kernel :: rest := by
      rw [hon] at hq
      cases hq
    cases a with
    | run => exact .round hon hst (round_of_cpuStep h)
    | call g =>
      simp only [Sys.cpuAct] at h
      split at h
      · cases h
        exact .cpuCall hon hst
      · cases h
    | acquire lk =>
      simp only [Sys.cpuAct, Option.ite_none_right_eq_some] at h
      exact event_of_spin hpc (.inl h.2)
    | release lk =>
      simp only [Sys.cpuAct, Option.ite_none_right_eq_some] at h
      exact event_of_spin hpc (.inr h.2)
    | ret =>
      simp only [Sys.cpuAct, Option.ite_none_right_eq_some, Option.some.injEq] at h
      obtain ⟨rfl, rfl⟩ := h
      exact .cpuRet hon hst
    | interrupt =>
      simp only [Sys.cpuAct, Option.ite_none_right_eq_some, Option.some.injEq] at h
      obtain ⟨hoff, rfl⟩ := h
      exact .cpuInterrupt hon hst hoff
    | preempt => cases h

end Xv6.Sched
