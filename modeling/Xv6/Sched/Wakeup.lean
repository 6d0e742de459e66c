/-
# No wakeup is missed

A process in `sleep` holds `p->lock` from before it releases `lk` until the CPU is back in
`scheduler()`.  The proof follows the `k`-th `sleep` of a process: once it has given up its lock
(`Past`) and is not asleep or about to be (`Pending`), it will not be asleep in that call any more.
-/

import Xv6.Sched.Change

namespace Xv6.Sched

open Lib

variable {N M : ℕ} {s s' : Sys N M} {c : Fin M} {p : Fin N} {f g : Frame N} {rest : List (Frame N)}
  {k : ℕ} {chan : Chan N} {chan' : Chan N} {lk : Option Spin} {ok : Sys N M → Fin M × Act N → Prop}

/-! ### One call of sleep -/

/-- Process `p` is in its `k`-th call of `sleep`, on `chan`, and past the release of the lock it
came with; or, if that is its own lock, about to go into `sched()`. -/
def Sys.Released (s : Sys N M) (p : Fin N) (k : ℕ) (chan : Chan N) : Prop :=
  s.sleeps p = k ∧ ∃ lk rest, (s.proc p).stack = .sleepGo chan lk :: rest ∨
    (s.proc p).stack = .sleepParked chan lk :: rest

/-- The places of a process that is not in `sleep`, or in a sleep on `chan` that has released its
lock. -/
def Frame.Past (chan : Chan N) : Frame N → Prop
  | .sleepEnter .. | .sleepLocked .. => False
  | .sleepGo chan' _ | .sleepParked chan' _ => chan' = chan
  | _ => True

/-- The `k`-th call of `sleep` of process `p` was on `chan`, and has released its lock. -/
def Sys.Past (s : Sys N M) (p : Fin N) (k : ℕ) (chan : Chan N) : Prop :=
  k < s.sleeps p ∨ s.sleeps p = k ∧ ∀ f ∈ (s.proc p).stack, f.Past chan

/-- In its `k`-th call of `sleep` process `p` is asleep, or about to be. -/
def Sys.Pending (s : Sys N M) (p : Fin N) (k : ℕ) : Prop :=
  s.sleeps p = k ∧ ((s.proc p).state = .sleeping ∨ ∃ chan lk, .sleepGo chan lk ∈ (s.proc p).stack)

theorem Frame.Calm.past (h : f.Calm) : f.Past chan := by
  cases f <;> trivial

namespace Sys

theorem Released.past (h : s.Released p k chan) (hs : s.Placed) : s.Past p k chan := by
  obtain ⟨hk, lk, rest, hst⟩ := h
  refine .inr ⟨hk, fun f hf => ?_⟩
  have hnested := hs.nested p
  have htail : ∀ g : Frame N, Nested (g :: rest) → f ∈ rest → f.Past chan := fun g hg hf => by
    rcases hg.mem_tail hf with hcalm | ⟨copyout, rfl⟩
    · exact hcalm.past
    · trivial
  rcases hst with hst | hst <;> rw [hst] at hf hnested <;> rcases List.mem_cons.1 hf with rfl | hf
  · exact rfl
  · exact htail _ hnested hf
  · exact rfl
  · exact htail _ hnested hf

/-- A turn of the process itself either starts another call of `sleep`, or keeps to what it was
past. -/
theorem past_turn (ht : Turn s c p rest f s') (hpast : ∀ g ∈ f :: rest, g.Past chan) :
    s'.sleeps p = s.sleeps p + 1 ∨ s'.sleeps p = s.sleeps p ∧
    (∀ g ∈ (s'.proc p).stack, g.Past chan) ∧
      ∀ chan' lk, .sleepGo chan' lk ∈ (s'.proc p).stack → .sleepGo chan' lk ∈ f :: rest := by
  have hf : f.Past chan := hpast f (.head _)
  have hrest : ∀ g ∈ rest, g.Past chan := fun g hg => hpast g (.tail _ hg)
  cases ht with
  | move hm =>
    refine .inr ⟨rfl, ?_⟩
    rw [setStack_stack_self]
    cases hm <;> simp_all [Frame.Past]
  | sleepEnter _ | sleepLocked _ => exact absurd hf id
  | waitSleep _ _ | loopSleep _ => exact .inl (Function.update_self ..)
  | _ =>
    refine .inr ⟨rfl, ?_⟩
    simp_all [Frame.Past]

theorem past_event (hs : s.Placed) (he : Event s c s')
    (hpast : ∀ g ∈ (s.proc p).stack, g.Past chan) :
    s'.sleeps p = s.sleeps p + 1 ∨ s'.sleeps p = s.sleeps p ∧
    (∀ g ∈ (s'.proc p).stack, g.Past chan) ∧
      ∀ chan' lk, .sleepGo chan' lk ∈ (s'.proc p).stack → .sleepGo chan' lk ∈ (s.proc p).stack := by
  by_cases hon : (s.cpu c).on = some p
  · cases he with
    | turn hq hst ht =>
      obtain rfl := on_unique hon hq
      rw [hst] at hpast ⊢
      exact past_turn ht hpast
    | @call q f _ hq hst hf =>
      obtain rfl := on_unique hon hq
      rw [hst] at hpast
      refine .inr ⟨rfl, ?_⟩
      rw [setStack_stack_self, hst]
      cases hf <;> simp_all [Frame.Past]
    | sleep hq _ _ =>
      obtain rfl := on_unique hon hq
      exact .inl (Function.update_self ..)
    | ret hq hst =>
      obtain rfl := on_unique hon hq
      rw [hst] at hpast
      refine .inr ⟨rfl, ?_⟩
      rw [setStack_stack_self, hst]
      simp_all
    | @interrupt q f g _ hq hst _ hg =>
      obtain rfl := on_unique hon hq
      rw [hst] at hpast
      refine .inr ⟨rfl, ?_⟩
      rw [setStack_stack_self, hst]
      rcases hg with rfl | rfl <;> simp_all [Frame.Past]
    | spin _ _ => exact .inr ⟨rfl, hpast, fun _ _ => id⟩
    | round hoff _ _ | cpuCall hoff _ | cpuRet hoff _ | cpuInterrupt hoff _ _ =>
      rw [hoff] at hon
      cases hon
  · refine .inr ⟨event_sleeps he hon, ?_⟩
    rcases hs.event_stack he hon with hst | ⟨x, -, hst⟩
    · rw [hst]
      exact ⟨hpast, fun _ _ => id⟩
    · rw [hst]
      simp [Frame.Past]

theorem sleeps_le (he : Event s c s') : s.sleeps p ≤ s'.sleeps p := by
  by_cases hon : (s.cpu c).on = some p
  · cases he with
    | turn hq _ ht =>
      obtain rfl := on_unique hon hq
      cases ht with
      | waitSleep _ _ | loopSleep _ => simp [setStack, setProc]
      | _ => exact le_rfl
    | sleep hq _ _ =>
      obtain rfl := on_unique hon hq
      simp [setStack, setProc]
    | round _ _ hr => cases hr <;> exact le_rfl
    | _ => exact le_rfl
  · exact (event_sleeps he hon).ge

theorem Past.event (h : s.Past p k chan) (hs : s.Placed) (he : Event s c s') :
    s'.Past p k chan := by
  rcases h with hlt | ⟨rfl, hpast⟩
  · exact .inl (hlt.trans_le (sleeps_le he))
  · rcases past_event hs he hpast with hsucc | ⟨hsame, hall, -⟩
    · exact .inl (by omega)
    · exact .inr ⟨hsame, hall⟩

/-- **A call of `sleep` that is not about to sleep, does not.** -/
theorem Past.not_pending (h : s.Past p k chan) (hs : s.Placed) (he : Event s c s')
    (hn : ¬s.Pending p k) : ¬s'.Pending p k := by
  rintro ⟨hk, hsleep⟩
  rcases h with hlt | ⟨rfl, hpast⟩
  · have := sleeps_le (p := p) he
    omega
  rcases past_event hs he hpast with hsucc | ⟨-, -, hgo⟩
  · omega
  refine hn ⟨rfl, ?_⟩
  rcases hsleep with hstate | ⟨chan', lk, hmem⟩
  · rcases hs.event_state he p with hsame | hstep
    · exact .inl (hsame.symm.trans hstate)
    · rw [hstate] at hstep
      cases hstep with
      | sleep _ hst _ => exact .inr ⟨_, _, hst ▸ List.mem_cons_self ..⟩
  · exact .inr ⟨chan', lk, hgo chan' lk hmem⟩

theorem Placed.sleepGo_head (hs : s.Placed)
    (h : .sleepGo chan' lk ∈ (s.proc p).stack) :
    ∃ rest, (s.proc p).stack = .sleepGo chan' lk :: rest := by
  have hnested := hs.nested p
  cases hst : (s.proc p).stack with
  | nil =>
    rw [hst] at h
    cases h
  | cons f rest =>
    rw [hst] at h hnested
    rcases List.mem_cons.1 h with rfl | hmem
    · exact ⟨rest, rfl⟩
    · rcases hnested.mem_tail hmem with hcalm | ⟨copyout, heq⟩
      · exact absurd hcalm id
      · cases heq

theorem Placed.not_sleepGo (hs : s.Placed) (hl : s.plock p = none) :
    .sleepGo chan' lk ∉ (s.proc p).stack := by
  intro hmem
  obtain ⟨rest, hst⟩ := hs.sleepGo_head hmem
  have hoff : ∀ c, (s.cpu c).on ≠ some p := fun c hon => by
    have hlock := (hs.own hon (q := p)).2 (by simp [hst, stackLocks, Frame.locks])
    rw [hl] at hlock
    cases hlock
  have hparked := hs.parked p hoff
  simp only [Proc.Parked, hst] at hparked
  split at hparked <;> simp_all

/-- A process that is asleep, or about to be, and whose lock is free, sleeps on the channel of its
call. -/
theorem Past.asleep (h : s.Past p k chan) (hs : s.Placed) (hl : s.plock p = none)
    (hp : s.Pending p k) : (s.proc p).state = .sleeping ∧ (s.proc p).chan = some chan := by
  obtain ⟨hk, hsleep⟩ := hp
  have hpast : ∀ f ∈ (s.proc p).stack, f.Past chan := by
    rcases h with hlt | ⟨-, hpast⟩
    · omega
    · exact hpast
  rcases hsleep with hstate | ⟨chan', lk, hmem⟩
  · have hparked := hs.parked p (hs.not_on_of_sleeping hstate)
    rw [Proc.Parked, hstate] at hparked
    obtain ⟨chan', lk, rest, hst, hchan⟩ := hparked
    have hchan' : chan' = chan := hpast (.sleepParked chan' lk) (hst ▸ List.mem_cons_self ..)
    exact ⟨hstate, hchan' ▸ hchan⟩
  · exact absurd hmem (hs.not_sleepGo hl)

/-! ### One call of wakeup -/

end Sys

/-- A thread of the kernel: a process, or the `scheduler()` of a CPU. -/
abbrev Thread (N M : ℕ) : Type := Fin N ⊕ Fin M

def Sys.calls (s : Sys N M) : Thread N M → List (Frame N)
  | .inl p => (s.proc p).stack
  | .inr c => (s.cpu c).stack

def Sys.thread (s : Sys N M) (c : Fin M) : Thread N M :=
  match (s.cpu c).on with
  | some p => .inl p
  | none => .inr c

/-- How `wakeup(chan)`, at slot `i`, is replaced on the stack. -/
inductive WakeStep (s s' : Sys N M) (chan : Chan N) (i : ℕ) : List (Frame N) → Prop
  | done : N ≤ i → WakeStep s s' chan i []
  | next (q : Fin N) : (q : ℕ) = i → s.plock q = none →
      (s'.proc q).state = ((s.proc q).wake chan).state → WakeStep s s' chan i [.wakeup chan (i + 1)]
  | interrupted (g : Frame N) : WakeStep s s' chan i [g, .wakeup chan i]

namespace Sys

theorem turn_calls (ht : Turn s c p rest f s') : ∃ gs, (s'.proc p).stack = gs ++ rest ∧
    ∀ chan i, f = .wakeup chan i → WakeStep s s' chan i gs := by
  cases ht with
  | move hm =>
    rw [setStack_stack_self]
    cases hm with
    | wakeupEnd hi => exact ⟨[], rfl, by rintro _ _ ⟨⟩; exact .done hi⟩
    | killEnd _ | forkEnd _ | loopEnd => exact ⟨[], rfl, by simp⟩
    | loopWake => exact ⟨[_, _], rfl, by simp⟩
    | _ => exact ⟨[_], rfl, by simp⟩
  | @wakeup chan i hl =>
    refine ⟨[_], setStack_stack_self, ?_⟩
    rintro _ _ ⟨⟩
    exact .next i rfl hl (by simp)
  | sleepRelock | kill _ _ | forkNoTrapframe _ | forkNoPages _ | forkEnough _ | waitNone _ _
  | waitReap _ _ _ | waitFail _ | loopKilled _ => exact ⟨[], setStack_stack_self, by simp⟩
  | resume hf _ => exact ⟨[], setStack_stack_self, by rcases hf with rfl | rfl <;> simp⟩
  | sleepBack => exact ⟨[], by simp, by simp⟩
  | waitSleep _ _ | loopSleep _ => exact ⟨[_, _], setStack_stack_self, by simp⟩
  | @sleepGo chan lk _ => exact ⟨[.sleepParked chan lk], by simp, by simp⟩
  | yieldEnter _ => exact ⟨[.yieldParked], by simp, by simp⟩
  | sleepParked _ | exitZombie _ => exact ⟨[_], congrArg Proc.stack setProc_proc_self, by simp⟩
  | exitSwitch _ _ => exact ⟨[_], setStack_stack_self (s := s), by simp⟩
  | _ => exact ⟨[_], setStack_stack_self, by simp⟩

theorem event_calls (hs : s.Placed) (he : Event s c s') (t : Thread N M) : s'.calls t = s.calls t ∨
    (∃ f rest gs, s.calls t = f :: rest ∧ s'.calls t = gs ++ rest ∧
      ∀ chan i, f = .wakeup chan i → WakeStep s s' chan i gs) ∨
    s'.calls t = [.forkret, .kernel] := by
  cases t with
  | inl p =>
    by_cases hon : (s.cpu c).on = some p
    · cases he with
      | turn hq hst ht =>
        obtain rfl := on_unique hon hq
        obtain ⟨gs, hgs, hw⟩ := turn_calls ht
        exact .inr (.inl ⟨_, _, gs, hst, hgs, hw⟩)
      | call hq hst _ | sleep hq hst _ =>
        obtain rfl := on_unique hon hq
        exact .inr (.inl ⟨_, _, [_, _], hst, setStack_stack_self, by simp⟩)
      | ret hq hst =>
        obtain rfl := on_unique hon hq
        exact .inr (.inl ⟨_, _, [], hst, setStack_stack_self, by simp⟩)
      | @interrupt q f g _ hq hst _ _ =>
        obtain rfl := on_unique hon hq
        exact .inr
          (.inl ⟨_, _, [_, _], hst, setStack_stack_self, by rintro _ _ rfl; exact .interrupted g⟩)
      | spin _ _ => exact .inl rfl
      | round hoff _ _ | cpuCall hoff _ | cpuRet hoff _ | cpuInterrupt hoff _ _ =>
        rw [hoff] at hon
        cases hon
    · rcases hs.event_stack he hon with hst | ⟨x, -, hst⟩
      · exact .inl hst
      · exact .inr (.inr hst)
  | inr c' =>
    by_cases hc : c' = c
    · subst hc
      cases he with
      | turn _ _ ht =>
        left
        cases ht <;> first | rfl | simp [calls]
      | call _ _ _ | sleep _ _ _ | ret _ _ | interrupt _ _ _ _ | spin _ _ => exact .inl rfl
      | round _ hst hr =>
        right
        left
        cases hr with
        | @wakeup chan i hl =>
          refine ⟨_, _, [_], hst, congrArg Cpu.stack setCpu_cpu_self, ?_⟩
          rintro _ _ ⟨⟩
          exact .next i rfl hl (by simp)
        | wakeupEnd hi =>
          refine ⟨_, _, [], hst, congrArg Cpu.stack setCpu_cpu_self, ?_⟩
          rintro _ _ ⟨⟩
          exact .done hi
        | _ => exact ⟨_, _, [_], hst, congrArg Cpu.stack setCpu_cpu_self, by simp⟩
      | cpuCall _ hst =>
        exact .inr (.inl ⟨_, _, [_, _], hst, congrArg Cpu.stack setCpu_cpu_self, by simp⟩)
      | cpuRet _ hst =>
        exact .inr (.inl ⟨_, _, [], hst, congrArg Cpu.stack setCpu_cpu_self, by simp⟩)
      | cpuInterrupt _ hst _ =>
        exact .inr (.inl ⟨_, _, [_, _], hst, congrArg Cpu.stack setCpu_cpu_self,
          by rintro _ _ rfl; exact .interrupted _⟩)
    · left
      cases he with
      | turn _ _ ht => cases ht <;> first | rfl | simp [calls, hc]
      | round _ _ hr => cases hr <;> exact congrArg Cpu.stack (setCpu_cpu_of_ne hc)
      | cpuCall _ _ | cpuRet _ _ | cpuInterrupt _ _ _ =>
        exact congrArg Cpu.stack (setCpu_cpu_of_ne hc)
      | _ => rfl

/-- Thread `t` is in a call of `wakeup(chan)` that it made when its calls were `rest`. -/
def InWakeup (s : Sys N M) (t : Thread N M) (chan : Chan N) (rest : List (Frame N)) : Prop :=
  ∃ top i, s.calls t = top ++ .wakeup chan i :: rest

/-- ... and if it has come by process `p`, that is not asleep in its `k`-th call of `sleep`. -/
def Waking (s : Sys N M) (t : Thread N M) (chan : Chan N) (rest : List (Frame N))
    (p : Fin N) (k : ℕ) : Prop :=
  ∃ top i, s.calls t = top ++ .wakeup chan i :: rest ∧ ((p : ℕ) < i → ¬s.Pending p k)

variable {t : Thread N M}

theorem Past.wake (h : s.Past p k chan) (hs : s.Placed) (he : Event s c s') (hl : s.plock p = none)
    (hstate : (s'.proc p).state = ((s.proc p).wake chan).state) : ¬s'.Pending p k := by
  by_cases hp : s.Pending p k
  · obtain ⟨hasleep, hchan⟩ := h.asleep hs hl hp
    have hrun : (s'.proc p).state = .runnable := by
      rw [hstate, Proc.wake, if_pos ⟨hasleep, hchan⟩]
    rintro ⟨hk, hsleep | ⟨chan', lk, hmem⟩⟩
    · rw [hrun] at hsleep
      cases hsleep
    · rcases hs.event_stack he (hs.not_on_of_sleeping hasleep c) with hst | ⟨x, -, hst⟩
      · exact hs.not_sleepGo hl (hst ▸ hmem)
      · simp [hst] at hmem
  · exact h.not_pending hs he hp

theorem Waking.event (h : s.Waking t chan rest p k) (hpast : s.Past p k chan) (hs : s.Placed)
    (he : Event s c s') (hin : s'.InWakeup t chan rest) : s'.Waking t chan rest p k := by
  obtain ⟨top, i, hcalls, hpassed⟩ := h
  have hkeep (hi : (p : ℕ) < i) : ¬s'.Pending p k := hpast.not_pending hs he (hpassed hi)
  rcases event_calls hs he t with hsame | ⟨f, rest', gs, hf, hgs, hwake⟩ | hborn
  · exact ⟨top, i, hsame.trans hcalls, hkeep⟩
  · rw [hcalls] at hf
    cases top with
    | nil =>
      obtain ⟨rfl, rfl⟩ := List.cons.inj hf
      cases hwake chan i rfl with
      | done _ =>
        obtain ⟨top', i', hin⟩ := hin
        have hlen := congrArg List.length (hgs.symm.trans hin)
        simp at hlen
        omega
      | next q hq hl hstate =>
        refine ⟨[], i + 1, hgs, fun hi => ?_⟩
        rcases Nat.lt_succ_iff_lt_or_eq.1 hi with hlt | heq
        · exact hkeep hlt
        · obtain rfl : q = p := Fin.ext (hq.trans heq.symm)
          exact hpast.wake hs he hl hstate
      | interrupted g => exact ⟨[g], i, hgs, hkeep⟩
    | cons x xs =>
      obtain ⟨rfl, rfl⟩ := List.cons.inj hf
      exact ⟨gs ++ xs, i, by simpa using hgs, hkeep⟩
  · obtain ⟨top', i', hin⟩ := hin
    have hmem : Frame.wakeup chan i' ∈ s'.calls t := hin ▸ by simp
    rw [hborn] at hmem
    simp at hmem

theorem Past.reach (h : s.Past p k chan) (hs : s.Placed) (hr : Reach Sys.step ok s s') :
    s'.Placed ∧ s'.Past p k chan :=
  hr.invariant (I := fun s => s.Placed ∧ s.Past p k chan) ⟨hs, h⟩ fun _ _ _ hi _ hs =>
    ⟨hi.1.step hs, hi.2.event hi.1 (event_of_step hs)⟩

theorem calls_of_wakeup (h : s.step (c, .call (.wakeup chan)) = some s') :
    s'.calls (s.thread c) = .wakeup chan 0 :: s.calls (s.thread c) ∧
    ∃ rest, s.calls (s.thread c) = .kernel :: rest := by
  simp only [step] at h
  split at h
  · rename_i p hon
    split at h
    · cases h
    · rename_i f rest hst
      simp only [procAct, Option.ite_none_right_eq_some, enter, Option.some.injEq] at h
      obtain ⟨rfl, rfl⟩ := h
      simp only [thread, hon, calls, setStack_stack_self]
      exact ⟨by rw [hst], rest, hst⟩
  · rename_i hon
    split at h
    · cases h
    rename_i f rest hst
    simp only [cpuAct] at h
    split at h
    · rename_i heq
      cases heq
      cases h
      simp only [thread, hon, calls, setCpu_cpu_self]
      exact ⟨by rw [hst], rest, hst⟩
    · cases h

end Sys

/-- **No wakeup is missed.**  In any run, let process `p` be in its `k`-th call of `sleep`, on
`chan`, and past the release of its lock (in `s₀`).  If thread `t` calls `wakeup(chan)` any time
after that (from `s₁` to `s₂`), then when this call returns (from `s₃` to `s₄`) the process is not
asleep in that call of `sleep`. -/
theorem no_missed_wakeup {initproc : Fin N} {s₀ s₁ s₂ s₃ s₄ : Sys N M} {a : Fin M × Act N}
    (h₀ : Reach Sys.step (fun _ _ => True) (Sys.boot N M initproc) s₀) (hp : s₀.Released p k chan)
    (h₁ : Reach Sys.step (fun _ _ => True) s₀ s₁)
    (hcall : s₁.step (c, .call (.wakeup chan)) = some s₂)
    (h₃ : Reach Sys.step (fun s _ => s.InWakeup (s₁.thread c) chan (s₁.calls (s₁.thread c))) s₂ s₃)
    (hin : s₃.InWakeup (s₁.thread c) chan (s₁.calls (s₁.thread c))) (hret : s₃.step a = some s₄)
    (hback : s₄.calls (s₁.thread c) = s₁.calls (s₁.thread c)) :
    ¬((s₄.proc p).state = .sleeping ∧ s₄.sleeps p = k) := by
  have hs₀ : s₀.Placed := Sys.placed_of_reach h₀
  obtain ⟨hs₁, hpast⟩ := (hp.past hs₀).reach hs₀ h₁
  obtain ⟨hcalls, rest, hkernel⟩ := Sys.calls_of_wakeup hcall
  -- along the call of `wakeup`
  obtain ⟨hs₃, hpast₃, hwaking⟩ : s₃.Placed ∧ s₃.Past p k chan ∧
      (s₃.InWakeup (s₁.thread c) chan (s₁.calls (s₁.thread c)) →
        s₃.Waking (s₁.thread c) chan (s₁.calls (s₁.thread c)) p k) := by
    refine h₃.invariant (I := fun s => s.Placed ∧ s.Past p k chan ∧
      (s.InWakeup (s₁.thread c) chan (s₁.calls (s₁.thread c)) →
        s.Waking (s₁.thread c) chan (s₁.calls (s₁.thread c)) p k)) ?_ ?_
    · exact ⟨hs₁.step hcall, hpast.event hs₁ (event_of_step hcall),
        fun _ => ⟨[], 0, hcalls, by simp⟩⟩
    · intro s a s' hi hok hs
      exact ⟨hi.1.step hs, hi.2.1.event hi.1 (event_of_step hs), (hi.2.2 hok).event hi.2.1 hi.1
        (event_of_step hs)⟩
  obtain ⟨top, i, htop, hpassed⟩ := hwaking hin
  -- it returns at the end of the table, after it has come by the process
  have hend : N ≤ i := by
    rcases Sys.event_calls hs₃ (event_of_step hret) (s₁.thread c) with hsame | ⟨f, rest', gs, hf,
      hgs, hwake⟩ | hborn
    · have hlen := congrArg List.length (hback.symm.trans (hsame.trans htop))
      simp at hlen
      omega
    · rw [htop] at hf
      have hlen := congrArg List.length (hback.symm.trans hgs)
      cases top with
      | nil =>
        obtain ⟨rfl, rfl⟩ := List.cons.inj hf
        cases hwake chan i rfl with
        | done hi => exact hi
        | next | interrupted =>
          simp only [List.length_append, List.length_cons, List.length_nil] at hlen
          omega
      | cons x xs =>
        obtain ⟨rfl, rfl⟩ := List.cons.inj hf
        simp at hlen
        omega
    · rw [hback, hkernel] at hborn
      cases hborn
  have hpending := hpast₃.not_pending hs₃ (event_of_step hret) (hpassed (p.isLt.trans_le hend))
  exact fun hsleep => hpending ⟨hsleep.2, .inl hsleep.1⟩

/-- Init forks a process on CPU `c`, and the new process sleeps on CPU `d` with a lock of its own,
up to the release of that lock. -/
def fallAsleep (c d : Fin M) : List (Fin M × Act N) :=
  [(c, .run), (c, .run), (c, .call (.fork .enough)), (c, .run), (c, .run), (c, .run),
   (d, .run), (d, .run), (d, .run), (d, .acquire (.other 0)),
   (d, .call (.sleep (.other 0) (.other 0))),
   (d, .run), (d, .run)]

/-- The sleeper gives up its CPU, and init acquires the lock. -/
def takeLock (c d : Fin M) : List (Fin M × Act N) :=
  [(d, .run), (d, .run), (c, .acquire (.other 0))]

theorem no_missed_wakeup_pair : ∃ s₀ s₁ s₂ s₃ s₄ : Sys 2 2,
    (Reach Sys.step (fun _ _ => True) (Sys.boot 2 2 0) s₀ ∧ s₀.Released 1 1 (.other 0) ∧
      Reach Sys.step (fun _ _ => True) s₀ s₁ ∧
      s₁.step (0, .call (.wakeup (.other 0))) = some s₂ ∧ s₃.step (0, .run) = some s₄) ∧
    ¬((s₄.proc 1).state = .sleeping ∧ s₄.sleeps 1 = 1) := by
  have hrun : ((run Sys.step (fun _ _ => True) (Sys.boot 2 2 0) (fallAsleep 0 1)).bind fun s₀ =>
      (run Sys.step (fun _ _ => True) s₀ (takeLock 0 1)).bind fun s₁ =>
      (s₁.step (0, .call (.wakeup (.other 0)))).bind fun s₂ => (s₂.step (0, .run)).bind fun s =>
      (s.step (0, .run)).bind fun s₃ => (s₃.step (0, .run)).map fun s₄ =>
      ((s₀.sleeps 1, (s₀.proc 1).stack, s₁.thread 0),
        [s₁.calls (.inl 0), s₂.calls (.inl 0), s.calls (.inl 0), s₃.calls (.inl 0),
        s₄.calls (.inl 0)])) =
      some ((1, [.sleepGo (.other 0) (some (.other 0)), .kernel], .inl 0),
        [[.kernel], [.wakeup (.other 0) 0, .kernel], [.wakeup (.other 0) 1, .kernel],
          [.wakeup (.other 0) 2, .kernel], [.kernel]]) := by decide +kernel
  simp only [Option.bind_eq_some_iff, Option.map_eq_some_iff, Prod.mk.injEq, List.cons.injEq,
    and_true] at hrun
  obtain ⟨s₀, h₀, s₁, h₁, s₂, h₂, s, hs, s₃, h₃, s₄, h₄, ⟨hk, hst, ht⟩, c₁, c₂, c, c₃, c₄⟩ := hrun
  have hreleased : s₀.Released 1 1 (.other 0) := ⟨hk, some (.other 0), [.kernel], .inl hst⟩
  refine ⟨s₀, s₁, s₂, s₃, s₄, ⟨reach_of_run h₀, hreleased, reach_of_run h₁, h₂, h₄⟩, ?_⟩
  refine no_missed_wakeup (reach_of_run h₀) hreleased (reach_of_run h₁) h₂ ?_ ?_ h₄ ?_
  · rw [ht, c₁]
    exact .tail (.single ⟨(0, .run), ⟨[], 0, c₂⟩, hs⟩) ⟨(0, .run), ⟨[], 1, c⟩, h₃⟩
  · rw [ht, c₁]
    exact ⟨[], 2, c₃⟩
  · rw [ht, c₁, c₄]

end Xv6.Sched
