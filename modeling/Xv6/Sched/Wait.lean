/-
# No zombie is stranded

The exits and the returns of `wait` are counted by the slot of the child and by which of the
processes in that slot it was (`Exited.who`): a slot is used again, and after `2 ^ 32` forks so is a
pid.  A zombie is on the list of exits with the pid and the status in its slot (`Recorded`).
-/

import Xv6.Sched.Family

namespace Xv6.Sched

open Lib Function

variable {N M : ℕ} {s s' : Sys N M} {c : Fin M} {p q i : Fin N} {f : Frame N}
  {rest : List (Frame N)} {e : Exited N}

/-- Which of all the processes there have been it is. -/
def Exited.who (e : Exited N) : Fin N × ℕ := (e.slot, e.birth)

namespace Sys

/-- Process `p` is asleep in a call of `sleep` that `wait` has made. -/
def SleepsInWait (s : Sys N M) (p : Fin N) : Prop :=
  (s.proc p).state = .sleeping ∧ ∃ chan lk copyout i havekids rest,
    (s.proc p).stack = .sleepParked chan lk :: .waitScan copyout i havekids :: rest

/-! ### What a step adds to the history -/

theorem event_births (he : Event s c s') (i : Fin N) : s'.births i = s.births i ∨
    s'.births i = s.births i + 1 ∧ (s'.proc i).state = .runnable := by
  cases he with
  | turn _ _ ht =>
    cases ht with
    | @forkEnough np _ =>
      by_cases hi : i = np
      · subst hi
        exact .inr ⟨update_self .., by simp⟩
      · exact .inl (update_of_ne hi ..)
    | _ => exact .inl rfl
  | round _ _ hr => cases hr <;> exact .inl rfl
  | _ => exact .inl rfl

theorem event_exited (he : Event s c s') : s'.exited = s.exited ∨ ∃ p status q,
    s.At c p (.exitZombie status q) ∧ (s'.proc p).state = .zombie := by
  cases he with
  | turn hon hst ht =>
    cases ht with
    | @exitZombie status q _ => exact .inr ⟨_, status, q, ⟨hon, _, hst⟩, by simp⟩
    | _ => exact .inl rfl
  | round _ _ hr => cases hr <;> exact .inl rfl
  | _ => exact .inl rfl

theorem Placed.exited_cases (hs : s.Placed) (he : Event s c s') : s'.exited = s.exited ∨ ∃ p,
    (s.proc p).state = .running ∧ (s'.proc p).state = .zombie ∧ s'.exited = s'.entry p :: s.exited ∧
      s'.births p = s.births p := by
  rcases event_exited he with hsame | ⟨p, status, q, ⟨hon, rest, hst⟩, hz⟩
  · exact .inl hsame
  have hrun : (s.proc p).state = .running := hs.running hon hst (by simp)
  refine .inr ⟨p, hrun, hz, ?_⟩
  rcases hs.event_state he p with hsame | hstep
  · rw [hz, hrun] at hsame
    cases hsame
  · rw [hz] at hstep
    cases hstep with
    | exit _ _ hentry hb => exact ⟨hentry, hb⟩

theorem event_reaped (he : Event s c s') :
    s'.reaped = s.reaped ∨ ∃ i p, s.At c p (.waitChild true i) ∧ (s.proc i).state = .zombie ∧
    s'.reaped = ⟨s.entry i, (s.proc i).parent, p⟩ :: s.reaped ∧ (s'.proc i).state = .unused ∧
    s'.exited = s.exited := by
  cases he with
  | turn hon hst ht =>
    cases ht with
    | @waitReap i _ _ hz =>
      exact .inr ⟨i, _, ⟨hon, _, hst⟩, hz, rfl, by simp [Proc.free], rfl⟩
    | _ => exact .inl rfl
  | round _ _ hr => cases hr <;> exact .inl rfl
  | _ => exact .inl rfl

theorem Placed.entry_kept (hs : s.Placed) (he : Event s c s') (hz : (s.proc i).state = .zombie)
    (hz' : (s'.proc i).state = .zombie) : s'.entry i = s.entry i := by
  have hentry (hb : s'.births i = s.births i)
      (hf : ((s'.proc i).pid, (s'.proc i).xstate) = ((s.proc i).pid, (s.proc i).xstate)) :
      s'.entry i = s.entry i := by
    simp only [entry, hb, Prod.mk.inj hf]
  have hne {x : Fin N} (hx : (s.proc x).state ≠ .zombie) : i ≠ x := by
    rintro rfl
    exact hx hz
  cases he with
  | @turn p _ _ _ hon hst ht =>
    cases ht with
    | move _ | sleepEnter _ | sleepLocked _ | sleepRelock | resume _ _ | forkNoTrapframe _
    | exitLockParent _ | exitLockSelf _ | exitSwitch _ _ | waitEnter _ | waitNone _ _
    | waitSleep _ _ | waitFail _ | loopKilled _ | loopSleep _ => exact hentry rfl (by simp)
    | wakeup _ | exitWake _ =>
      refine hentry rfl ?_
      rw [setStack_pid, setStack_xstate]
      exact setProc_field (fun pr => (pr.pid, pr.xstate)) rfl (wake_result _ _) i
    | sleepGo _ | yieldEnter _ =>
      refine hentry rfl ?_
      rw [setCpu_proc]
      refine setProc_field (fun pr => (pr.pid, pr.xstate)) ?_ ?_ i <;> rfl
    | sleepBack | sleepParked _ =>
      refine hentry rfl (setProc_field (fun pr => (pr.pid, pr.xstate)) ?_ ?_ i) <;> rfl
    | kill _ _ | exitGive _ =>
      refine hentry rfl ?_
      rw [setStack_pid, setStack_xstate]
      exact setProc_field (fun pr => (pr.pid, pr.xstate)) rfl rfl i
    | @forkFound _ x _ hu =>
      have hix : i ≠ x := hne (by simp [hu])
      exact hentry rfl (by simp [hix])
    | @forkNoPages np _ =>
      have hu : (s.proc np).state = .unused := hs.sound_of_at ⟨hon, _, hst⟩
      have hnp : i ≠ np := hne (by simp [hu])
      exact hentry rfl (by simp [hnp])
    | @forkEnough np _ =>
      have hu : (s.proc np).state = .unused := hs.sound_of_at ⟨hon, _, hst⟩
      have hnp : i ≠ np := hne (by simp [hu])
      exact hentry (update_of_ne hnp ..) (by simp [hnp])
    | @exitZombie _ q _ =>
      have hi : i ≠ p := hne (by simp [hs.running hon hst])
      refine hentry rfl ?_
      rw [setProc_proc_of_ne hi]
      refine setProc_field (fun pr => (pr.pid, pr.xstate)) ?_ (wake_result _ _) i
      rfl
    | @waitReap x _ _ _ =>
      have hix : i ≠ x := by
        rintro rfl
        simp [Proc.free] at hz'
      exact hentry rfl (by simp [hix])
  | call _ _ _ | sleep _ _ _ | ret _ _ | interrupt _ _ _ _ => exact hentry rfl (by simp)
  | spin _ _ | cpuCall _ _ | cpuRet _ _ | cpuInterrupt _ _ _ => rfl
  | round _ _ hr =>
    cases hr with
    | next | back _ | wakeupEnd _ => rfl
    | wakeup _ =>
      refine hentry rfl ?_
      rw [setCpu_proc]
      exact setProc_field (fun pr => (pr.pid, pr.xstate)) rfl (wake_result _ _) i
    | dispatch _ _ =>
      refine hentry rfl ?_
      rw [setCpu_proc]
      refine setProc_field (fun pr => (pr.pid, pr.xstate)) ?_ ?_ i <;> rfl

theorem Placed.dead_kept (hs : s.Placed) (he : Event s c s') (hb : s'.births i = s.births i)
    (hd : (s.proc i).state = .unused ∨ (s.proc i).state = .zombie) :
    (s'.proc i).state = (s.proc i).state ∨ (s'.proc i).state = .unused := by
  have hoff {f : Frame N} (hf : f ≠ .exitSwitch) : ¬s.At c i f := by
    rintro ⟨hon, rest, hst⟩
    rw [hs.running hon hst hf] at hd
    rcases hd with hd | hd <;> cases hd
  rcases hs.event_state he i with hsame | hstep
  · exact .inl hsame
  generalize (s'.proc i).state = new at hstep
  cases hstep with
  | wake hst | run hst =>
    rw [hst] at hd
    rcases hd with hd | hd <;> cases hd
  | sleep hon hst _ => exact absurd ⟨hon, _, hst⟩ (hoff (by simp))
  | yield hat | exit hat _ _ _ => exact absurd hat (hoff (by simp))
  | born _ _ _ hborn => omega
  | free _ _ _ => exact .inr rfl

/-! ### The history -/

/-- What is so of the lists of exits and of returns from `wait`. -/
structure Recorded (s : Sys N M) : Prop where
  zombie : ∀ i, (s.proc i).state = .zombie → s.entry i ∈ s.exited
  exited : ∀ e ∈ s.exited, e.birth ≤ s.births e.slot ∧
    (e.birth = s.births e.slot → (s.proc e.slot).state = .unused ∨ (s.proc e.slot).state = .zombie)
  exitedOnce : (s.exited.map Exited.who).Nodup
  reaped : ∀ e ∈ s.reaped, e.child ∈ s.exited ∧ e.parent = some e.caller ∧
    (e.child.birth = s.births e.child.slot → (s.proc e.child.slot).state = .unused)
  reapedOnce : (s.reaped.map fun e => e.child.who).Nodup

theorem recorded_boot (initproc : Fin N) : (boot N M initproc).Recorded where
  zombie i hz := by
    by_cases hi : i = initproc <;> simp [boot, hi] at hz
  exited e he := by cases he
  exitedOnce := List.nodup_nil
  reaped e he := by cases he
  reapedOnce := List.nodup_nil

section Step

variable (h : s.Recorded) (hf : s.Family) (hs : s.Placed) (he : Event s c s')
include hs he

theorem Placed.exited_mono (hmem : e ∈ s.exited) : e ∈ s'.exited := by
  rcases hs.exited_cases he with heq | ⟨p, -, -, heq, -⟩
  · exact heq ▸ hmem
  · exact heq ▸ .tail _ hmem

include h

theorem Recorded.zombie_event (i : Fin N) (hz' : (s'.proc i).state = .zombie) :
    s'.entry i ∈ s'.exited := by
  by_cases hz : (s.proc i).state = .zombie
  · rw [hs.entry_kept he hz hz']
    exact hs.exited_mono he (h.zombie i hz)
  · rcases hs.event_state he i with hsame | hstep
    · exact absurd (hsame.symm.trans hz') hz
    · rw [hz'] at hstep
      cases hstep with
      | exit _ _ hentry _ => exact hentry ▸ List.mem_cons_self ..

omit hs in
/-- Of a process that has exited, its slot says so until another process is born there. -/
theorem Recorded.exited_kept (hmem : e ∈ s.exited) : e.birth ≤ s'.births e.slot ∧
    (e.birth = s'.births e.slot → s'.births e.slot = s.births e.slot ∧
      ((s.proc e.slot).state = .unused ∨ (s.proc e.slot).state = .zombie)) := by
  obtain ⟨hle, hdead⟩ := h.exited e hmem
  rcases event_births he e.slot with hb | ⟨hb, -⟩
  · rw [hb]
    exact ⟨hle, fun heq => ⟨rfl, hdead heq⟩⟩
  · rw [hb]
    exact ⟨by omega, fun heq => by omega⟩

theorem Recorded.exited_event (e : Exited N) (hmem : e ∈ s'.exited) : e.birth ≤ s'.births e.slot ∧
    (e.birth = s'.births e.slot → (s'.proc e.slot).state = .unused ∨
      (s'.proc e.slot).state = .zombie) := by
  have hold (hmem : e ∈ s.exited) : e.birth ≤ s'.births e.slot ∧ (e.birth = s'.births e.slot →
      (s'.proc e.slot).state = .unused ∨ (s'.proc e.slot).state = .zombie) := by
    obtain ⟨hle, hsame⟩ := h.exited_kept he hmem
    refine ⟨hle, fun heq => ?_⟩
    obtain ⟨hb, hd⟩ := hsame heq
    rcases hs.dead_kept he hb hd with hst | hst
    · rwa [hst]
    · exact .inl hst
  rcases hs.exited_cases he with heq | ⟨p, -, hz, heq, -⟩
  · exact hold (heq ▸ hmem)
  · rw [heq] at hmem
    rcases List.mem_cons.1 hmem with rfl | hmem
    · exact ⟨le_rfl, fun _ => .inr hz⟩
    · exact hold hmem

theorem Recorded.exitedOnce_event : (s'.exited.map Exited.who).Nodup := by
  rcases hs.exited_cases he with heq | ⟨p, hrun, -, heq, hb⟩
  · exact heq ▸ h.exitedOnce
  rw [heq, List.map_cons, List.nodup_cons]
  refine ⟨fun hmem => ?_, h.exitedOnce⟩
  obtain ⟨e, he', hwho⟩ := List.mem_map.1 hmem
  obtain ⟨hslot, hbirth⟩ : e.slot = p ∧ e.birth = s'.births p := Prod.mk.inj hwho
  have hd := (h.exited e he').2 (by rw [hslot, hbirth, hb])
  rw [hslot, hrun] at hd
  rcases hd with hd | hd <;> cases hd

theorem Recorded.reaped_kept {e : Reaped N} (hmem : e ∈ s.reaped) :
    e.child ∈ s'.exited ∧ e.parent = some e.caller ∧
    (e.child.birth = s'.births e.child.slot → (s'.proc e.child.slot).state = .unused) := by
  obtain ⟨hexit, hparent, hfree⟩ := h.reaped e hmem
  refine ⟨hs.exited_mono he hexit, hparent, fun heq => ?_⟩
  obtain ⟨hb, -⟩ := (h.exited_kept he hexit).2 heq
  have hu := hfree (heq.trans hb)
  rcases hs.dead_kept he hb (.inl hu) with hst | hst
  · exact hst.trans hu
  · exact hst

include hf

/-- **The lists stay right.** -/
theorem Recorded.event : s'.Recorded := by
  refine ⟨h.zombie_event hs he, h.exited_event hs he, h.exitedOnce_event hs he,
    fun e hmem => ?_, ?_⟩
  · rcases event_reaped he with heq | ⟨i, p, hat, hz, heq, hu, -⟩
    · exact h.reaped_kept hs he (heq ▸ hmem)
    · rw [heq] at hmem
      rcases List.mem_cons.1 hmem with rfl | hmem
      · exact ⟨hs.exited_mono he (h.zombie i hz), (hf.kin_of_at hs hat).1, fun _ => hu⟩
      · exact h.reaped_kept hs he hmem
  · rcases event_reaped he with heq | ⟨i, p, hat, hz, heq, hu, -⟩
    · exact heq ▸ h.reapedOnce
    rw [heq, List.map_cons, List.nodup_cons]
    refine ⟨fun hmem => ?_, h.reapedOnce⟩
    obtain ⟨e, he', hwho⟩ := List.mem_map.1 hmem
    obtain ⟨hslot, hbirth⟩ : e.child.slot = i ∧ e.child.birth = s.births i := Prod.mk.inj hwho
    have hu := (h.reaped e he').2.2 (by rw [hslot, hbirth])
    rw [hslot, hz] at hu
    cases hu

end Step

theorem family_of_reach {initproc : Fin N} {ok : Sys N M → Fin M × Act N → Prop}
    (h : Reach Sys.step ok (boot N M initproc) s) : s.Placed ∧ s.Family ∧ s.Recorded := by
  refine h.invariant (I := fun s => s.Placed ∧ s.Family ∧ s.Recorded)
    ⟨placed_boot initproc, family_boot initproc, recorded_boot initproc⟩ ?_
  rintro t t' a ⟨hs, hf, hr⟩ - hstep
  have he := event_of_step hstep
  exact ⟨hs.event he, hf.event hs he, hr.event hf hs he⟩

end Sys

/-- **`exit` and `wait` strand no zombie.**  In every reachable state, whatever the interleaving:
the parent of a process in use is neither free nor a zombie; a process other than init that is
asleep in `wait` has no child that is a zombie; and what `wait` has returned is the pid and the
status of a process that had exited, returned once, to the process that was its parent. -/
theorem no_stranded_zombie {initproc : Fin N}
    (h : Reach Sys.step (fun _ _ => True) (Sys.boot N M initproc) s) :
    (∀ j, (s.proc j).state ≠ .unused → j ≠ s.initproc → ∃ q, (s.proc j).parent = some q ∧
      (s.proc q).state ≠ .unused ∧ (s.proc q).state ≠ .zombie) ∧
    (∀ p j, p ≠ s.initproc → s.SleepsInWait p → (s.proc j).parent = some p →
      (s.proc j).state ≠ .zombie) ∧
    (s.exited.map Exited.who).Nodup ∧ (s.reaped.map fun e => e.child.who).Nodup ∧
    ∀ e ∈ s.reaped, e.child ∈ s.exited ∧ e.parent = some e.caller := by
  obtain ⟨hs, hf, hr⟩ := Sys.family_of_reach h
  refine ⟨fun j hu hj => ?_, fun p j hp hsleep hj => ?_, hr.exitedOnce, hr.reapedOnce,
    fun e he => ?_⟩
  · obtain ⟨q, hq⟩ := hf.parent j hu hj
    exact ⟨q, hq, fun hdead => hf.childless q j (.inl hdead) hq, fun hdead => hf.childless q j
      (.inr hdead) hq⟩
  · obtain ⟨hstate, chan, lk, copyout, i, havekids, rest, hst⟩ := hsleep
    have hnested := hs.nested p
    rw [hst] at hnested
    -- `wait` sleeps with its own lock
    rcases hnested.1 with ⟨-, hcalm⟩ | ⟨⟨chan', hown⟩, -⟩
    · cases hcalm
    have hlk : lk = none := by
      rcases hown with hown | hown <;> cases hown
      rfl
    subst hlk
    have hk := hf.frames p (by simp [hstate]) (.sleepParked chan none) (hst ▸ List.mem_cons_self ..)
    exact hk.2 hp hstate j hj
  · obtain ⟨hexit, hparent, -⟩ := hr.reaped e he
    exact ⟨hexit, hparent⟩

/-- Init forks a process and yields to it; that process forks another and waits. -/
def forkTwice : List (Act N) :=
  [.run, .run, .call (.fork .enough), .run, .run, .run, .preempt, .run, .run] ++
    [.run, .run, .call (.fork .enough), .run, .run, .run, .run, .call (.wait true)] ++
    List.replicate 7 .run

def exitReap : List (Act N) := [.run, .run, .run, .call (.exit 7)] ++ List.replicate 10 .run ++
    [.run, .run, .run, .run, .preempt, .run, .run] ++ List.replicate 6 .run

theorem no_stranded_zombie_fork : ∃ s t : Sys 3 1,
    (Reach Sys.step (fun _ _ => True) (Sys.boot 3 1 0) s ∧ Reach Sys.step (fun _ _ => True) s t ∧
      s.SleepsInWait 1 ∧ (s.proc 2).parent = some 1 ∧
      (t.reaped.map fun e => (e.child.who, e.child.status, e.caller)) = [((2, 1), 7, 1)]) ∧
    (s.proc 2).state ≠ .zombie ∧ ∀ e ∈ t.reaped, e.child ∈ t.exited ∧ e.parent = some e.caller := by
  have hrun :
    ((run Sys.step (fun _ _ => True) (Sys.boot 3 1 0) (forkTwice.map (Prod.mk 0))).bind fun s =>
      (run Sys.step (fun _ _ => True) s (exitReap.map (Prod.mk 0))).map fun t =>
      decide (s.initproc = 0 ∧ (s.proc 1).state = .sleeping ∧ (s.proc 1).stack =
        [.sleepParked (.proc 1) none, .waitScan true 0 false, .kernel] ∧
        (s.proc 2).parent = some 1 ∧
        (t.reaped.map fun e => (e.child.who, e.child.status, e.caller)) = [((2, 1), 7, 1)])) =
      some true := by decide +kernel
  simp only [Option.bind_eq_some_iff, Option.map_eq_some_iff, decide_eq_true_iff] at hrun
  obtain ⟨s, hs, t, ht, hinit, hstate, hst, hparent, hreaped⟩ := hrun
  have hsleep : s.SleepsInWait 1 := ⟨hstate, _, _, _, _, _, _, hst⟩
  refine ⟨s, t, ⟨reach_of_run hs, reach_of_run ht, hsleep, hparent, hreaped⟩, ?_, ?_⟩
  · obtain ⟨-, hwait, -⟩ := no_stranded_zombie (reach_of_run hs)
    refine hwait 1 2 ?_ hsleep hparent
    rw [hinit]
    decide
  · exact (no_stranded_zombie ((reach_of_run hs).trans (reach_of_run ht))).2.2.2.2

end Xv6.Sched
