/-
# What a step changes in a process

The same steps once more, seen from a process that need not be the one that takes the step:
when its state can change and to what (`StateStep`), when it gets another parent
(`ParentStep`), when it is killed, and that only its own steps move its calls.
-/

import Xv6.Sched.OneCpu

namespace Xv6.Sched

open Function

variable {N M : ℕ} {s s' : Sys N M} {c : Fin M} {p q r : Fin N} {f : Frame N}
  {rest st : List (Frame N)} {t : Sys N M} {k : Proc N → Proc N}

/-- CPU `c` is in process `p`, whose innermost call is at `f`. -/
def Sys.At (s : Sys N M) (c : Fin M) (p : Fin N) (f : Frame N) : Prop :=
  (s.cpu c).on = some p ∧ ∃ rest, (s.proc p).stack = f :: rest

/-- What `wait` would return of the process in slot `i`. -/
def Sys.entry (s : Sys N M) (i : Fin N) : Exited N :=
  ⟨i, s.births i, (s.proc i).pid, (s.proc i).xstate⟩

/-- How a step of CPU `c` gives process `r` another state. -/
inductive StateStep (s s' : Sys N M) (c : Fin M) (r : Fin N) : ProcState → Prop
  | wake : (s.proc r).state = .sleeping → StateStep s s' c r .runnable
  | run : (s.proc r).state = .runnable → StateStep s s' c r .running
  | sleep {chan lk} {rest : List (Frame N)} : (s.cpu c).on = some r →
      (s.proc r).stack = .sleepGo chan lk :: rest →
      (s'.proc r).stack = .sleepParked chan lk :: rest → StateStep s s' c r .sleeping
  | yield : s.At c r .yieldEnter → StateStep s s' c r .runnable
  /-- The parent is woken in the same step. -/
  | exit {status parent} : s.At c r (.exitZombie status parent) →
      (parent ≠ r → (s'.proc parent).state = ((s.proc parent).wake (.proc parent)).state) →
      s'.exited = s'.entry r :: s.exited → s'.births r = s.births r → StateStep s s' c r .zombie
  | born {x} : s.At c x (.forkHave .enough r) → (s'.proc r).parent = some x →
      (s'.proc r).stack = [.forkret, .kernel] → s'.births r = s.births r + 1 →
      StateStep s s' c r .runnable
  | free {x} : s.At c x (.waitChild true r) → (s.proc r).state = .zombie →
    (s'.proc r).parent = none → StateStep s s' c r .unused

/-- How a step of CPU `c` gives process `r` another parent. -/
inductive ParentStep (s s' : Sys N M) (c : Fin M) (r : Fin N) : Option (Fin N) → Prop
  | born {x} : s.At c x (.forkHave .enough r) → (s'.proc r).state = .runnable →
    ParentStep s s' c r (some x)
  | give {x status parent} : s.At c x (.exitGive status parent r) →
    ParentStep s s' c r (some s.initproc)
  | free {x} : s.At c x (.waitChild true r) ∨ s.At c x (.forkHave .noPages r) →
      (s'.proc r).state = .unused → ParentStep s s' c r none

/-- What a step of CPU `c` makes of the record of process `r`, its calls apart. -/
inductive Edit (s s' : Sys N M) (c : Fin M) (r : Fin N) : (Proc N → Proc N) → Prop
  | keep : Edit s s' c r id
  | wake {chan} : Edit s s' c r (Proc.wake chan)
  | kill {x pid} : s.At c x (.kill pid r) → s.plock r = none → Edit s s' c r Proc.kill
  | run : (s.proc r).state = .runnable → Edit s s' c r fun pr => { pr with state := .running }
  | sleep {chan lk} {rest : List (Frame N)} : (s.cpu c).on = some r →
      (s.proc r).stack = .sleepGo chan lk :: rest →
      (s'.proc r).stack = .sleepParked chan lk :: rest →
      Edit s s' c r fun pr => { pr with chan := some chan, state := .sleeping }
  | awake : Edit s s' c r fun pr => { pr with chan := none }
  | yield : s.At c r .yieldEnter → Edit s s' c r fun pr => { pr with state := .runnable }
  | found {pid} : Edit s s' c r fun pr => { pr with pid := pid }
  | born {x} : s.At c x (.forkHave .enough r) → (s'.proc r).stack = [.forkret, .kernel] →
      s'.births r = s.births r + 1 → Edit s s' c r fun pr => { pr with
        parent := some x, stack := [.forkret, .kernel], state := .runnable }
  | give {x status parent} : s.At c x (.exitGive status parent r) →
      Edit s s' c r fun pr => { pr with parent := some s.initproc }
  | exit {status parent w} : s.At c r (.exitZombie status parent) →
      (parent ≠ r → (s'.proc parent).state = ((s.proc parent).wake (.proc parent)).state) →
      s'.exited = s'.entry r :: s.exited → s'.births r = s.births r →
      w = id ∨ w = Proc.wake (.proc parent) →
      Edit s s' c r fun pr => { w pr with xstate := status, state := .zombie }
  | free {x} : s.At c x (.waitChild true r) ∧ (s.proc r).state = .zombie ∨
      s.At c x (.forkHave .noPages r) ∧ (s.proc r).state = .unused → Edit s s' c r Proc.free

/-- `pr` is what the step makes of process `r`: only on its own CPU does it move its calls. -/
def Sys.Edited (s s' : Sys N M) (c : Fin M) (r : Fin N) (pr : Proc N) : Prop :=
  ∃ k, Edit s s' c r k ∧ ∃ st, pr = { k (s.proc r) with stack := st } ∧
    ((s.cpu c).on = some r ∨ st = (k (s.proc r)).stack)

theorem Proc.wake_state (chan : Chan N) (pr : Proc N) :
    (pr.wake chan).state = pr.state ∨ pr.state = .sleeping ∧ (pr.wake chan).state = .runnable := by
  unfold Proc.wake
  split
  · rename_i hs
    exact .inr ⟨hs.1, rfl⟩
  · exact .inl rfl

theorem Proc.kill_state (pr : Proc N) :
    pr.kill.state = pr.state ∨ pr.state = .sleeping ∧ pr.kill.state = .runnable := by
  by_cases hs : pr.state = .sleeping
  · exact .inr ⟨hs, by simp [Proc.kill, hs]⟩
  · exact .inl (by simp [Proc.kill, hs])

namespace Sys

theorem setProc_field (π : Proc N → α) (ht : t.proc = s.proc) (hk : π (k (s.proc q)) = π (s.proc q))
    (r : Fin N) : π ((t.setProc q k).proc r) = π (s.proc r) := by
  by_cases hr : r = q
  · subst hr
    rw [setProc_proc_self, ht, hk]
  · rw [setProc_proc_of_ne hr, ht]

theorem wake_result (chan : Chan N) (pr : Proc N) :
    ((pr.wake chan).pid, (pr.wake chan).xstate) = (pr.pid, pr.xstate) := by
  unfold Proc.wake
  split <;> rfl

theorem wake_rest (chan : Chan N) (pr : Proc N) :
    (pr.wake chan).parent = pr.parent ∧ (pr.wake chan).stack = pr.stack ∧
    (pr.wake chan).killed = pr.killed := by
  unfold Proc.wake
  split <;> exact ⟨rfl, rfl, rfl⟩

theorem Edited.setProc (ht : t.proc = s.proc) (hk : r = q → Edit s s' c r k) :
    Edited s s' c r ((t.setProc q k).proc r) := by
  by_cases hr : r = q
  · subst hr
    rw [setProc_proc_self, ht]
    exact ⟨k, hk rfl, _, rfl, .inr rfl⟩
  · rw [setProc_proc_of_ne hr, ht]
    exact ⟨id, .keep, _, rfl, .inr rfl⟩

theorem Edited.setStack (hon : (s.cpu c).on = some p) (h : Edited s s' c r (t.proc r)) :
    Edited s s' c r ((t.setStack p st).proc r) := by
  by_cases hr : r = p
  · subst hr
    obtain ⟨k, hk, st', hpr, -⟩ := h
    refine ⟨k, hk, st, ?_, .inl hon⟩
    rw [Sys.setStack, setProc_proc_self, hpr]
  · rwa [setStack_proc_of_ne hr]

theorem Edited.own (hon : (s.cpu c).on = some p) (ht : t.proc = s.proc)
    (hk : r = p → Edit s s' c r k) :
    Edited s s' c r ((t.setProc p fun pr => { k pr with stack := st }).proc r) :=
  setProc_setStack (s := t) ▸ setStack hon (setProc ht hk)

theorem Edited.keep (h : t.proc = s.proc) : Edited s s' c r (t.proc r) :=
  h ▸ ⟨id, .keep, _, rfl, .inr rfl⟩

theorem Placed.turn_edited (h : s.Placed) (hon : (s.cpu c).on = some p)
    (hst : (s.proc p).stack = f :: rest) (ht : Turn s c p rest f s') (r : Fin N) :
    Edited s s' c r (s'.proc r) := by
  have hat : s.At c p f := ⟨hon, rest, hst⟩
  have hsound : f.Sound s c p := (h.cpu c).sound p f rest hon hst
  cases ht with
  | move _ | sleepEnter _ | sleepLocked _ | sleepRelock | resume _ _ | forkNoTrapframe _
  | exitLockParent _ | exitLockSelf _ | exitSwitch _ _ | waitEnter _ | waitNone _ _ | waitSleep _ _
  | waitFail _ | loopKilled _ | loopSleep _ => exact .setStack hon (.keep rfl)
  | @sleepGo chan _ _ =>
    refine .own (k := fun pr => { pr with chan := some chan, state := .sleeping }) hon rfl ?_
    rintro rfl
    exact .sleep hon hst (by simp)
  | yieldEnter _ =>
    refine .own (k := fun pr => { pr with state := .runnable }) hon rfl ?_
    rintro rfl
    exact .yield hat
  | sleepBack | sleepParked _ =>
    exact .own (k := fun pr => { pr with chan := none }) hon rfl fun _ => .awake
  | wakeup _ | exitWake _ => exact .setStack hon (.setProc rfl fun _ => .wake)
  | kill hl _ =>
    refine .setStack hon (.setProc rfl ?_)
    rintro rfl
    exact .kill hat hl
  | forkFound _ _ => exact .setStack hon (.setProc rfl fun _ => .found)
  | exitGive _ =>
    refine .setStack hon (.setProc rfl ?_)
    rintro rfl
    exact .give hat
  | forkNoPages _ =>
    refine .setStack hon (.setProc rfl ?_)
    rintro rfl
    exact .free (.inr ⟨hat, hsound⟩)
  | @forkEnough np _ =>
    have hnp : np ≠ p := by
      rintro rfl
      exact h.not_on_of_unused hsound c hon
    refine .setStack hon (.setProc rfl ?_)
    rintro rfl
    exact .born hat (by simp [hnp]) (update_self ..)
  | @exitZombie status q _ =>
    by_cases hr : r = p
    · subst hr
      obtain ⟨w, hw, hpr⟩ : ∃ w, (w = id ∨ w = Proc.wake (.proc q)) ∧
          (s.setProc q (Proc.wake (.proc q))).proc r = w (s.proc r) := by
        by_cases hq : r = q
        · subst hq
          exact ⟨_, .inr rfl, setProc_proc_self⟩
        · exact ⟨_, .inl rfl, setProc_proc_of_ne hq⟩
      have hpid :=
        setProc_field Proc.pid (t := s) rfl (congrArg Prod.fst (wake_result (.proc q) (s.proc q))) r
      refine ⟨_, .exit hat (fun hne => by simp [hne]) ?_ rfl hw, .exitSwitch :: rest, ?_, .inl hon⟩
      · rw [entry, setProc_proc_self]
        exact congrArg (fun pid => ⟨r, s.births r, pid, status⟩ :: s.exited) hpid.symm
      · rw [setProc_proc_self]
        exact congrArg (fun pr => { pr with
          xstate := status, state := .zombie, stack := .exitSwitch :: rest }) hpr
    · rw [setProc_proc_of_ne hr]
      exact .setProc rfl fun _ => .wake
  | waitReap _ _ hz =>
    refine .setStack hon (.setProc rfl ?_)
    rintro rfl
    exact .free (.inl ⟨hat, hz⟩)

theorem Placed.edited (h : s.Placed) (he : Event s c s') (r : Fin N) :
    Edited s s' c r (s'.proc r) := by
  cases he with
  | turn hon hst ht => exact h.turn_edited hon hst ht r
  | call hon _ _ | sleep hon _ _ | ret hon _ | interrupt hon _ _ _ =>
    exact .setStack hon (.keep rfl)
  | spin _ _ | cpuCall _ _ | cpuRet _ _ | cpuInterrupt _ _ _ => exact .keep rfl
  | round _ _ hr =>
    cases hr with
    | next | back _ | wakeupEnd _ => exact .keep rfl
    | wakeup _ => exact .setProc rfl fun _ => .wake
    | dispatch _ hstate =>
      refine .setProc (t := s) (k := fun pr => { pr with state := .running }) rfl ?_
      rintro rfl
      exact .run hstate

theorem Placed.event_state (h : s.Placed) (he : Event s c s') (r : Fin N) :
    (s'.proc r).state = (s.proc r).state ∨ StateStep s s' c r (s'.proc r).state := by
  obtain ⟨k, hk, st, hpr, -⟩ := h.edited he r
  have hwake {new} (hs : new = (s.proc r).state ∨ (s.proc r).state = .sleeping ∧ new = .runnable) :
      new = (s.proc r).state ∨ StateStep s s' c r new := by
    refine hs.imp_right ?_
    rintro ⟨hsleep, rfl⟩
    exact .wake hsleep
  rw [hpr]
  cases hk with
  | keep | awake | found | give _ => exact .inl rfl
  | wake => exact hwake (Proc.wake_state _ _)
  | kill _ _ => exact hwake (Proc.kill_state _)
  | run hs => exact .inr (.run hs)
  | sleep hon hst hst' => exact .inr (.sleep hon hst hst')
  | yield hat => exact .inr (.yield hat)
  | born hat hst hb => exact .inr (.born hat (by rw [hpr]) hst hb)
  | exit hat hw hex hb _ => exact .inr (.exit hat hw hex hb)
  | free hf =>
    rcases hf with ⟨hat, hz⟩ | ⟨-, hu⟩
    · exact .inr (.free hat hz (by rw [hpr]; rfl))
    · exact .inl hu.symm

theorem Placed.event_parent (h : s.Placed) (he : Event s c s') (r : Fin N) :
    (s'.proc r).parent = (s.proc r).parent ∨ ParentStep s s' c r (s'.proc r).parent := by
  obtain ⟨k, hk, st, hpr, -⟩ := h.edited he r
  rw [hpr]
  cases hk with
  | keep | kill _ _ | run _ | sleep _ _ _ | awake | yield _ | found => exact .inl rfl
  | wake => exact .inl (wake_rest _ _).1
  | born hat _ _ => exact .inr (.born hat (by rw [hpr]))
  | give hat => exact .inr (.give hat)
  | exit _ _ _ _ hw =>
    rcases hw with rfl | rfl
    · exact .inl rfl
    · exact .inl (wake_rest _ _).1
  | free hf => exact .inr (.free (hf.imp And.left And.left) (by rw [hpr]; rfl))

theorem Placed.event_stack (h : s.Placed) (he : Event s c s') (hr : (s.cpu c).on ≠ some r) :
    (s'.proc r).stack = (s.proc r).stack ∨
      ∃ x, s.At c x (.forkHave .enough r) ∧ (s'.proc r).stack = [.forkret, .kernel] := by
  obtain ⟨k, hk, st, hpr, hst⟩ := h.edited he r
  rw [hpr, hst.resolve_left hr]
  cases hk with
  | keep | kill _ _ | run _ | sleep _ _ _ | awake | yield _ | found | give _ | free _ =>
    exact .inl rfl
  | wake => exact .inl (wake_rest _ _).2.1
  | born hat _ _ => exact .inr ⟨_, hat, rfl⟩
  | exit hat _ _ _ _ => exact absurd hat.1 hr

/-- Only `kill` sets `p->killed`, with `p->lock` held, and it leaves nobody asleep. -/
theorem Placed.event_killed (h : s.Placed) (he : Event s c s') (hr : (s'.proc r).killed = true) :
    (s.proc r).killed = true ∨
      s.plock r = none ∧ (s'.proc r).state ≠ .sleeping ∧ ∃ x pid, s.At c x (.kill pid r) := by
  obtain ⟨k, hk, st, hpr, -⟩ := h.edited he r
  rw [hpr] at hr ⊢
  cases hk with
  | keep | run _ | sleep _ _ _ | awake | yield _ | found | give _ | born _ _ _ => exact .inl hr
  | wake => exact .inl ((wake_rest _ _).2.2 ▸ hr)
  | exit _ _ _ _ hw =>
    rcases hw with rfl | rfl
    · exact .inl hr
    · exact .inl ((wake_rest _ _).2.2 ▸ hr)
  | free _ => cases hr
  | kill hat hl =>
    refine .inr ⟨hl, ?_, _, _, hat⟩
    simp only [Proc.kill]
    split <;> simp_all

theorem event_sleeps (he : Event s c s') (hr : (s.cpu c).on ≠ some r) :
    s'.sleeps r = s.sleeps r := by
  have hne {p : Fin N} (hon : (s.cpu c).on = some p) : r ≠ p := by
    rintro rfl
    exact hr hon
  cases he with
  | turn hon hst ht =>
    cases ht with
    | waitSleep _ _ | loopSleep _ => exact update_of_ne (hne hon) ..
    | _ => rfl
  | sleep hon _ _ => exact update_of_ne (hne hon) ..
  | round _ _ hround => cases hround <;> rfl
  | _ => rfl

theorem event_initproc (he : Event s c s') : s'.initproc = s.initproc := by
  cases he with
  | turn hon hst ht => cases ht <;> rfl
  | round _ _ hround => cases hround <;> rfl
  | _ => rfl

end Sys

end Xv6.Sched
