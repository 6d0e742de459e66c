/-
# Where the CPUs, the processes and their locks are

The lock of a process goes from thread to thread over `swtch`, so who has it is a matter of where
each CPU stands (`Frame.locks`).  A process on a CPU is `RUNNING`, but for the last moments of
`exit`; one on no CPU is in `sched()`, in the call that its state says (`Proc.Parked`).
-/

import Xv6.Sched.Step

namespace Xv6.Sched

variable {N M : ℕ} {s s' : Sys N M} {c : Fin M} {p q r : Fin N} {f g : Frame N}
  {rest st : List (Frame N)} {k : Proc N → Proc N}

/-! ### What the innermost call says -/

/-- The processes whose locks are held at a place in the code of process `p`. -/
def Frame.locks (p : Fin N) : Frame N → List (Fin N)
  | .sleepLocked .. | .sleepGo .. | .sleepParked .. | .yieldParked | .forkret | .exitSwitch
  | .exitParked | .waitScan .. | .waitChild .. => [p]
  | .forkHave _ np => [np]
  | .exitLockSelf _ parent => [parent]
  | .exitScan _ parent _ | .exitGive _ parent _ | .exitZombie _ parent => [parent, p]
  | .switched q => [q]
  | _ => []

def stackLocks (p : Fin N) : List (Frame N) → List (Fin N)
  | [] => []
  | f :: _ => f.locks p

/-- Places at which no lock is held that the code of `kernel/proc.c` has taken or been given, so
that interrupts can come there. -/
def Frame.Calm : Frame N → Prop
  | .kernel | .sleepRelock _ | .wakeup .. | .yieldEnter | .kill .. | .forkScan .. | .exitWake _
  | .exitRead _ | .exitLockParent .. | .waitEnter _ | .killTest .. | .killTested .. | .killReady ..
  | .scheduler _ => True
  | _ => False

theorem Frame.Calm.locks (h : f.Calm) : f.locks p = [] := by
  cases f <;> first | rfl | cases h

/-- `sleep` with the lock of the process itself, which `wait` keeps. -/
def Frame.Own (f : Frame N) : Prop := ∃ chan, f = .sleepGo chan none ∨ f = .sleepParked chan none

/-- `g` can call what stands at `f`. -/
def Under (f g : Frame N) : Prop :=
  ¬f.Own ∧ g.Calm ∨ f.Own ∧ ∃ copyout, g = .waitScan copyout 0 false

/-- Each call on the stack is made from a place that makes calls. -/
def Nested : List (Frame N) → Prop
  | [] => True
  | [f] => ¬f.Own
  | f :: g :: rest => Under f g ∧ Nested (g :: rest)

section

variable (h : Nested (f :: rest))
include h

theorem Nested.tail : Nested rest := by
  cases rest with
  | nil => trivial
  | cons g rest => exact h.2

/-- The frames below the innermost one do not depend on it, but for the own sleep of `wait`. -/
theorem Nested.replace (hfg : g.Own ↔ f.Own) : Nested (g :: rest) := by
  cases rest with
  | nil => exact fun hg => h (hfg.1 hg)
  | cons r rest =>
    refine ⟨?_, h.2⟩
    rw [Under, hfg]
    exact h.1

theorem Nested.push (hf : f.Calm) (hg : ¬g.Own) : Nested (g :: f :: rest) :=
  ⟨.inl ⟨hg, hf⟩, h⟩

omit h in
theorem Under.calm (h : Under f g) (hf : ¬f.Own) : g.Calm := by
  rcases h with hcalm | hown
  · exact hcalm.2
  · exact absurd hown.1 hf

theorem Nested.mem_tail (hg : g ∈ rest) :
    g.Calm ∨ ∃ copyout, g = .waitScan copyout 0 false := by
  induction rest generalizing f with
  | nil => cases hg
  | cons r rest ih =>
    rcases List.mem_cons.1 hg with rfl | hg
    · exact h.1.imp And.right And.right
    · exact ih h.2 hg

theorem Nested.stackLocks_tail (hf : ¬f.Own) : stackLocks p rest = [] := by
  cases rest with
  | nil => rfl
  | cons g rest => exact (h.1.calm hf).locks

theorem Nested.of_own (hf : f.Own) :
    ∃ copyout rest', rest = .waitScan copyout 0 false :: rest' := by
  cases rest with
  | nil => exact absurd hf h
  | cons g rest =>
    rcases h.1 with hcalm | ⟨-, copyout, rfl⟩
    · exact absurd hf hcalm.1
    · exact ⟨copyout, rest, rfl⟩

end

/-! ### Where each process is -/

def Proc.Runs (pr : Proc N) : Prop :=
  pr.state = .running ∨ pr.state = .zombie ∧ ∃ rest, pr.stack = .exitSwitch :: rest

def Proc.Parked (pr : Proc N) : Prop :=
  match pr.state with
  | .unused => pr.stack = [] ∨ ∃ rest, pr.stack = .exitParked :: rest
  | .sleeping => ∃ chan lk rest, pr.stack = .sleepParked chan lk :: rest ∧ pr.chan = some chan
  | .runnable => ∃ f rest, pr.stack = f :: rest ∧
      ((∃ chan lk, f = .sleepParked chan lk) ∨ f = .yieldParked ∨ f = .forkret)
  | .running => False
  | .zombie => ∃ rest, pr.stack = .exitParked :: rest

/-- A process that another thread has changed, but not moved: on a CPU or not, it is still where
it was. -/
structure Stays (pr pr' : Proc N) : Prop where
  stack : pr'.stack = pr.stack
  runs : pr.Runs → pr'.Runs
  parked : pr.Parked → pr'.Parked
  unused : pr.state = .unused → pr'.state = .unused

theorem Stays.refl (pr : Proc N) : Stays pr pr := ⟨rfl, id, id, id⟩

theorem Stays.of_same (hstack : pr'.stack = pr.stack) (hstate : pr'.state = pr.state)
    (hchan : pr'.chan = pr.chan) : Stays pr pr' where
  stack := hstack
  runs hr := by rwa [Proc.Runs, hstate, hstack]
  parked hp := by rwa [Proc.Parked, hstate, hstack, hchan]
  unused hu := by rwa [hstate]

theorem Stays.of_wake (hstack : pr'.stack = pr.stack) (hs : pr.state = .sleeping)
    (hr : pr'.state = .runnable) : Stays pr pr' where
  stack := hstack
  runs h := by
    rcases h with h | ⟨h, -⟩ <;> rw [hs] at h <;> cases h
  parked h := by
    rw [Proc.Parked, hs] at h
    obtain ⟨chan, lk, rest, hst, -⟩ := h
    rw [Proc.Parked, hr]
    exact ⟨_, rest, hstack.trans hst, .inl ⟨chan, lk, rfl⟩⟩
  unused h := by
    rw [hs] at h
    cases h

theorem Stays.running (h : Stays pr pr') (hr : pr.state = .running)
    (hst : pr.stack = f :: rest) (hf : f ≠ .exitSwitch) : pr'.state = .running := by
  rcases h.runs (.inl hr) with hrun | ⟨-, rest', hst'⟩
  · exact hrun
  · rw [h.stack, hst] at hst'
    cases hst'
    exact absurd rfl hf

theorem stays_wake (chan : Chan N) (pr : Proc N) : Stays pr (pr.wake chan) := by
  unfold Proc.wake
  split
  · rename_i hs
    exact .of_wake rfl hs.1 rfl
  · exact .refl pr

theorem stays_kill (pr : Proc N) : Stays pr pr.kill := by
  by_cases hs : pr.state = .sleeping
  · exact .of_wake rfl hs (by simp [Proc.kill, hs])
  · exact .of_same rfl (by simp [Proc.kill, hs]) rfl

/-- CPU `c` has the lock of process `q`, by the place at which it stands. -/
def Sys.Owns (s : Sys N M) (c : Fin M) (q : Fin N) : Prop :=
  match (s.cpu c).on with
  | some p => q ∈ stackLocks p (s.proc p).stack
  | none => ∃ rest, (s.cpu c).stack = .switched q :: rest

/-- What the innermost call of process `p`, on CPU `c`, relies on. -/
def Frame.Sound (s : Sys N M) (c : Fin M) (p : Fin N) : Frame N → Prop
  | .sleepEnter _ lk => (lk, c) ∈ s.held
  | .forkHave _ np => (s.proc np).state = .unused
  | .exitScan _ parent _ | .exitGive _ parent _ | .exitZombie _ parent => parent ≠ p
  | _ => True

theorem Frame.Calm.sound (h : f.Calm) : f.Sound s c p := by
  cases f <;> trivial

theorem Nested.sound_tail (h : Nested (f :: g :: rest)) : g.Sound s c p := by
  rcases h.1 with hcalm | ⟨-, copyout, rfl⟩
  · exact hcalm.2.sound
  · trivial

/-- CPU `c` and its locks are where they should be. -/
structure Sys.CpuPlaced (s : Sys N M) (c : Fin M) : Prop where
  lock : ∀ q, s.plock q = some c ↔ s.Owns c q
  on : ∀ p, (s.cpu c).on = some p → (s.cpu c).proc = some p ∧
    ∃ rest, (s.cpu c).stack = .switched p :: rest
  off : ∀ p, (s.cpu c).on = none → (s.cpu c).proc = some p →
    ∃ rest, (s.cpu c).stack = .switched p :: rest
  runs : ∀ p, (s.cpu c).on = some p → (s.proc p).Runs
  below : ∀ f ∈ (s.cpu c).stack.tail, ∀ q, f ≠ .switched q
  sound : ∀ p f rest, (s.cpu c).on = some p → (s.proc p).stack = f :: rest → f.Sound s c p

/-- Every CPU, process and lock is where it should be. -/
structure Sys.Placed (s : Sys N M) : Prop where
  cpu : ∀ c, s.CpuPlaced c
  once : ∀ c c' p, (s.cpu c).on = some p → (s.cpu c').on = some p → c = c'
  parked : ∀ p, (∀ c, (s.cpu c).on ≠ some p) → (s.proc p).Parked
  nested : ∀ p, Nested (s.proc p).stack

namespace Sys

theorem placed_boot (initproc : Fin N) : (boot N M initproc).Placed where
  cpu c := by
    refine ⟨fun q => by simp [boot, Owns], fun p h => ?_, fun p _ h => ?_, fun p h => ?_,
      fun f h => ?_, fun p _ _ h => ?_⟩
    · cases h
    · cases h
    · cases h
    · simp [boot] at h
    · cases h
  once c c' p h := by cases h
  parked p _ := by
    by_cases hp : p = initproc
    · simp [boot, hp, Proc.Parked]
    · simp [boot, hp, Proc.Parked]
  nested p := by
    by_cases hp : p = initproc
    · simp [boot, hp, Nested, Under, Frame.Calm, Frame.Own]
    · simp [boot, hp, Nested]

theorem on_unique (hon : (s.cpu c).on = some p) (hq : (s.cpu c).on = some q) : q = p :=
  Option.some.inj (hq.symm.trans hon)

namespace Placed

variable (h : s.Placed)
include h

theorem own (hon : (s.cpu c).on = some p) :
    s.plock q = some c ↔ q ∈ stackLocks p (s.proc p).stack := by
  rw [(h.cpu c).lock, Owns, hon]

theorem own_of_off (hon : (s.cpu c).on = none) :
    s.plock q = some c ↔ ∃ rest, (s.cpu c).stack = .switched q :: rest := by
  rw [(h.cpu c).lock, Owns, hon]

theorem calm_of_noff (hon : (s.cpu c).on = some p) (hst : (s.proc p).stack = f :: rest)
    (hoff : s.noff c = 0) : f.Calm := by
  have hno : f.locks p = [] := by
    refine List.eq_nil_iff_forall_not_mem.2 fun q hq => plock_ne_of_noff hoff q ?_
    rw [h.own hon, hst]
    exact hq
  cases f with
  | sleepEnter chan lk =>
    exact absurd ((h.cpu c).sound p _ rest hon hst) (not_mem_held_of_noff hoff lk)
  | _ => trivial

theorem running (hon : (s.cpu c).on = some p) (hst : (s.proc p).stack = f :: rest)
    (hf : f ≠ .exitSwitch) : (s.proc p).state = .running := by
  rcases (h.cpu c).runs p hon with hr | ⟨-, rest', hst'⟩
  · exact hr
  · rw [hst] at hst'
    cases hst'
    exact absurd rfl hf

theorem not_on (hl : s.plock r = none) (hrun : (s.proc r).state ≠ .running) (c' : Fin M) :
    (s.cpu c').on ≠ some r := by
  intro hon
  rcases (h.cpu c').runs r hon with hr | ⟨-, rest, hst⟩
  · exact hrun hr
  · have hlock : s.plock r = some c' := by
      rw [h.own hon, hst]
      exact List.mem_singleton_self r
    rw [hl] at hlock
    cases hlock

theorem not_on_of_unused (hu : (s.proc r).state = .unused) (c' : Fin M) :
    (s.cpu c').on ≠ some r := by
  intro hon
  rcases (h.cpu c').runs r hon with hr | ⟨hr, -⟩ <;> rw [hu] at hr <;> cases hr

theorem not_on_of_sleeping (hp : (s.proc p).state = .sleeping) (c : Fin M) :
    (s.cpu c).on ≠ some p := by
  intro hon
  rcases (h.cpu c).runs p hon with hr | ⟨hr, -⟩ <;> rw [hp] at hr <;> cases hr

/-! ### The steps of a CPU -/

/-- **A step of CPU `c`**, in terms of what it changes: `c` itself, its locks, and processes that
are on no other CPU or go on there as before. -/
theorem change (hc : s'.CpuPlaced c) (hcpu : ∀ c' ≠ c, s'.cpu c' = s.cpu c')
    (hstays : ∀ c' ≠ c, ∀ r, (s.cpu c').on = some r → Stays (s.proc r) (s'.proc r) ∧
      (s'.cpu c).on ≠ some r)
    (hlock : ∀ q c', c' ≠ c → (s'.plock q = some c' ↔ s.plock q = some c'))
    (hheld : ∀ lk c', c' ≠ c → (lk, c') ∈ s.held → (lk, c') ∈ s'.held)
    (hunused : ∀ c' ≠ c, ∀ r, s.plock r = some c' → (s.proc r).state = .unused →
      (s'.proc r).state = .unused)
    (hparked : ∀ r, (∀ c', (s'.cpu c').on ≠ some r) → (s'.proc r).Parked)
    (hnested : ∀ r, Nested (s'.proc r).stack) : s'.Placed := by
  refine ⟨fun c' => ?_, fun c₁ c₂ r h₁ h₂ => ?_, hparked, hnested⟩
  · by_cases hc' : c' = c
    · exact hc' ▸ hc
    have hstack {r : Fin N} (hr : (s.cpu c').on = some r) : (s'.proc r).stack = (s.proc r).stack :=
      (hstays c' hc' r hr).1.stack
    refine ⟨fun q => ?_, ?_, ?_, fun r hr => ?_, ?_, fun r f rest hr hst => ?_⟩
    · rw [hlock q c' hc', (h.cpu c').lock, Owns, Owns, hcpu c' hc']
      split
      · rename_i r hr
        rw [hstack hr]
      · rfl
    · rw [hcpu c' hc']
      exact (h.cpu c').on
    · rw [hcpu c' hc']
      exact (h.cpu c').off
    · rw [hcpu c' hc'] at hr
      exact (hstays c' hc' r hr).1.runs ((h.cpu c').runs r hr)
    · rw [hcpu c' hc']
      exact (h.cpu c').below
    rw [hcpu c' hc'] at hr
    rw [hstack hr] at hst
    have hs := (h.cpu c').sound r f rest hr hst
    cases f with
    | sleepEnter chan lk => exact hheld lk c' hc' hs
    | forkHave mem np =>
      -- the slot is locked by the other CPU
      refine hunused c' hc' np ?_ hs
      rw [h.own hr, hst]
      exact List.mem_singleton_self np
    | _ => exact hs
  · by_cases hc₁ : c₁ = c <;> by_cases hc₂ : c₂ = c
    · rw [hc₁, hc₂]
    · rw [hcpu c₂ hc₂] at h₂
      exact absurd (hc₁ ▸ h₁) (hstays c₂ hc₂ r h₂).2
    · rw [hcpu c₁ hc₁] at h₁
      exact absurd (hc₂ ▸ h₂) (hstays c₁ hc₁ r h₁).2
    · rw [hcpu c₁ hc₁] at h₁
      rw [hcpu c₂ hc₂] at h₂
      exact h.once c₁ c₂ r h₁ h₂

theorem turn (hon : (s.cpu c).on = some p) (hcpu : s'.cpu = s.cpu)
    (hothers : ∀ r ≠ p, Stays (s.proc r) (s'.proc r) ∨
      ((∀ c', (s.cpu c').on ≠ some r) ∧ (s.plock r = none ∨ s.plock r = some c)) ∧
        (s'.proc r).Parked ∧ Nested (s'.proc r).stack)
    (hruns : (s'.proc p).Runs) (hnested : Nested (s'.proc p).stack)
    (hown : ∀ q, s'.plock q = some c ↔ q ∈ stackLocks p (s'.proc p).stack)
    (hlock : ∀ q c', c' ≠ c → (s'.plock q = some c' ↔ s.plock q = some c'))
    (hheld : ∀ lk c', c' ≠ c → (lk, c') ∈ s.held → (lk, c') ∈ s'.held)
    (hsound : ∀ f rest, (s'.proc p).stack = f :: rest → f.Sound s' c p) : s'.Placed := by
  refine h.change (c := c) ⟨fun q => ?_, ?_, ?_, fun r hr => ?_, ?_, fun r f rest hr hst => ?_⟩
    (fun c' _ => by rw [hcpu]) (fun c' hc r hr => ?_) hlock hheld (fun c' hc r hl hu => ?_)
    (fun r hr => ?_) (fun r => ?_)
  · rw [Owns, hcpu, hon]
    exact hown q
  · rw [hcpu]
    exact (h.cpu c).on
  · rw [hcpu]
    exact (h.cpu c).off
  · rw [hcpu] at hr
    exact on_unique hon hr ▸ hruns
  · rw [hcpu]
    exact (h.cpu c).below
  · rw [hcpu] at hr
    obtain rfl := on_unique hon hr
    exact hsound f rest hst
  · have hrp : r ≠ p := by
      rintro rfl
      exact hc (h.once _ _ _ hr hon)
    rw [hcpu]
    refine ⟨(hothers r hrp).resolve_right fun hoff => hoff.1.1 c' hr,
      fun hr' => hrp (on_unique hon hr')⟩
  · have hrp : r ≠ p := by
      rintro rfl
      exact h.not_on_of_unused hu c hon
    rcases hothers r hrp with hsame | ⟨⟨-, hl' | hl'⟩, -⟩
    · exact hsame.unused hu
    · rw [hl'] at hl
      cases hl
    · rw [hl'] at hl
      exact absurd (Option.some.inj hl).symm hc
  · rw [hcpu] at hr
    have hrp : r ≠ p := by
      rintro rfl
      exact hr c hon
    exact (hothers r hrp).elim (fun hsame => hsame.parked (h.parked r hr)) fun hoff => hoff.2.1
  · by_cases hrp : r = p
    · exact hrp ▸ hnested
    · exact (hothers r hrp).elim (fun hsame => hsame.stack ▸ h.nested r) fun hoff => hoff.2.2

end Placed

/-- How a step on CPU `c` changes the locks of processes, with those that `c` has before and
after. -/
inductive Relocks (s s' : Sys N M) (c : Fin M) (before after : List (Fin N)) : Prop
  | same : s'.plock = s.plock → (∀ r, r ∈ after ↔ r ∈ before) → Relocks s s' c before after
  | acquire (q : Fin N) : s.plock q = none → s'.plock = (s.setLock q (some c)).plock →
      (∀ r, r ∈ after ↔ r = q ∨ r ∈ before) → Relocks s s' c before after
  | release (q : Fin N) : s.plock q = some c → s'.plock = (s.setLock q none).plock →
      (∀ r, r ∈ after ↔ r ≠ q ∧ r ∈ before) → Relocks s s' c before after

theorem Relocks.own (h : Relocks s s' c before after)
    (hown : ∀ q, s.plock q = some c ↔ q ∈ before) (r : Fin N) :
    s'.plock r = some c ↔ r ∈ after := by
  cases h with
  | same hl ha => rw [hl, ha, hown]
  | acquire q _ hl ha =>
    rw [hl, ha, ← hown]
    by_cases hr : r = q
    · subst hr
      simp
    · simp [hr]
  | release q _ hl ha =>
    rw [hl, ha, ← hown]
    by_cases hr : r = q
    · subst hr
      simp
    · simp [hr]

theorem Relocks.others (h : Relocks s s' c before after) (r : Fin N) (hc : c' ≠ c) :
    s'.plock r = some c' ↔ s.plock r = some c' := by
  cases h with
  | same hl _ => rw [hl]
  | acquire q hq hl _ =>
    rw [hl]
    by_cases hr : r = q
    · subst hr
      simp [hq, hc.symm]
    · simp [hr]
  | release q hq hl _ =>
    rw [hl]
    by_cases hr : r = q
    · subst hr
      simp [hq, hc.symm]
    · simp [hr]

section

variable (h : s.Placed) (hon : (s.cpu c).on = some p) (hst : (s.proc p).stack = f :: rest)
  (hcpu : s'.cpu = s.cpu) (hothers : ∀ r ≠ p, Stays (s.proc r) (s'.proc r))
  (hstate : (s'.proc p).state = .running)
include h hon hst hcpu hothers hstate

theorem Placed.goto (hst' : (s'.proc p).stack = st) (hnested : Nested st)
    (hlocks : Relocks s s' c (f.locks p) (stackLocks p st))
    (hheld : ∀ lk c', c' ≠ c → (lk, c') ∈ s.held → (lk, c') ∈ s'.held)
    (hsound : ∀ g rest', st = g :: rest' → g.Sound s' c p) : s'.Placed := by
  refine h.turn hon hcpu (fun r hr => .inl (hothers r hr)) (.inl hstate) (hst' ▸ hnested)
    (fun q => ?_) (fun q c' hc => hlocks.others q hc) hheld
    (fun g rest' hg => hsound g rest' (hst'.symm.trans hg))
  rw [hst']
  refine hlocks.own (fun r => ?_) q
  rw [h.own hon, hst]
  rfl

theorem Placed.next (hst' : (s'.proc p).stack = g :: rest)
    (hlocks : Relocks s s' c (f.locks p) (g.locks p))
    (hheld : ∀ lk c', c' ≠ c → (lk, c') ∈ s.held → (lk, c') ∈ s'.held) (hown : g.Own ↔ f.Own)
    (hsound : g.Sound s' c p) : s'.Placed := by
  have hnested : Nested (f :: rest) := hst ▸ h.nested p
  refine h.goto hon hst hcpu hothers hstate hst' (hnested.replace hown) hlocks hheld ?_
  rintro _ _ ⟨⟩
  exact hsound

theorem Placed.pop (hst' : (s'.proc p).stack = rest) (hlocks : Relocks s s' c (f.locks p) [])
    (hheld : ∀ lk c', c' ≠ c → (lk, c') ∈ s.held → (lk, c') ∈ s'.held) (hf : ¬f.Own) :
    s'.Placed := by
  have hnested : Nested (f :: rest) := hst ▸ h.nested p
  refine h.goto hon hst hcpu hothers hstate hst' hnested.tail ?_ hheld fun g rest' hrest => ?_
  · rw [hnested.stackLocks_tail hf]
    exact hlocks
  · subst hrest
    exact hnested.sound_tail

end

theorem setStack_stays : ∀ r ≠ p, Stays (s.proc r) ((s.setStack p st).proc r) := fun r hr => by
  rw [setStack_proc_of_ne hr]
  exact .refl _

theorem Placed.move (h : s.Placed) (hon : (s.cpu c).on = some p)
    (hst : (s.proc p).stack = f :: rest) (hm : Moves s p rest f st) : (s.setStack p st).Placed := by
  have hrun : (s.proc p).state = .running := h.running hon hst (by rintro rfl; cases hm)
  have hsound : f.Sound s c p := (h.cpu c).sound p f rest hon hst
  -- the place is another one, and the same locks are held there
  have hnext : ∀ {g : Frame N}, g.locks p = f.locks p → (g.Own ↔ f.Own) → g.Sound s c p →
      (s.setStack p (g :: rest)).Placed := fun {g} hlocks hown hg => by
    refine h.next hon hst rfl setStack_stays (by simp [hrun]) setStack_stack_self
      (.same rfl (by simp [hlocks])) (fun _ _ _ => id) hown ?_
    cases g <;> first | exact hg | simpa [Frame.Sound] using hg
  have hpop : f.locks p = [] → ¬f.Own → (s.setStack p rest).Placed := fun hlocks hf =>
    h.pop hon hst rfl setStack_stays (by simp [hrun]) setStack_stack_self
      (.same rfl (by simp [hlocks])) (fun _ _ _ => id) hf
  cases hm with
  | wakeupEnd | killEnd | forkEnd | loopEnd => exact hpop rfl (by simp [Frame.Own])
  | killNext | forkNext | exitRead | waitChild | waitOther | waitNext | loopTest | loopReady =>
    exact hnext rfl (by simp [Frame.Own]) trivial
  | exitChild | exitNext | exitEnd => exact hnext rfl (by simp [Frame.Own]) hsound
  | loopWake =>
    have hnested : Nested (Frame.killTested _ _ :: rest) := hst ▸ h.nested p
    refine h.goto hon hst rfl setStack_stays (by simp [hrun]) setStack_stack_self ?_
      (.same rfl (by simp [Frame.locks, stackLocks])) (fun _ _ _ => id) ?_
    · exact (hnested.replace (by simp [Frame.Own])).push trivial (by simp [Frame.Own])
    · rintro _ _ ⟨⟩
      trivial

theorem stays_setProc {t : Sys N M} (ht : t.proc = s.proc)
    (hk : Stays (s.proc q) (k (s.proc q))) (r : Fin N) :
    Stays (s.proc r) ((t.setProc q k).proc r) := by
  by_cases hr : r = q
  · subst hr
    rwa [setProc_proc_self, ht]
  · rw [setProc_proc_of_ne hr, ht]
    exact .refl _

theorem Placed.edit (h : s.Placed) (hon : (s.cpu c).on = some p)
    (hst : (s.proc p).stack = f :: rest) (hf : f ≠ .exitSwitch)
    (hk : Stays (s.proc q) (k (s.proc q))) :
    (s.setProc q k).Placed ∧ ((s.setProc q k).proc p).stack = f :: rest := by
  have hstay := stays_setProc (s := s) rfl hk
  have hst' : ((s.setProc q k).proc p).stack = f :: rest := (hstay p).stack.trans hst
  refine ⟨h.goto hon hst rfl (fun r _ => hstay r)
    ((hstay p).running (h.running hon hst hf) hst hf) hst' (hst ▸ h.nested p)
    (.same rfl fun _ => Iff.rfl) (fun _ _ _ => id) ?_, hst'⟩
  rintro _ _ ⟨⟩
  have hsound := (h.cpu c).sound p f rest hon hst
  cases f with
  | forkHave mem np => exact (hstay np).unused hsound
  | _ => exact hsound

/-- Process `p` goes into `sched()`, with its own lock and no other. -/
theorem Placed.leave (h : s.Placed) (hon : (s.cpu c).on = some p)
    (hcpu : s'.cpu = (s.setCpu c fun k => { k with on := none }).cpu)
    (hothers : ∀ r ≠ p, s'.proc r = s.proc r) (hparked : (s'.proc p).Parked)
    (hnested : Nested (s'.proc p).stack) (hown : ∀ q, s'.plock q = some c ↔ q = p)
    (hlock : ∀ q c', c' ≠ c → (s'.plock q = some c' ↔ s.plock q = some c'))
    (hheld : s'.held = s.held) : s'.Placed := by
  obtain ⟨hproc, rest, hstack⟩ := (h.cpu c).on p hon
  have hself : s'.cpu c = ⟨some p, none, .switched p :: rest⟩ := by
    rw [hcpu, setCpu_cpu_self, ← hproc, ← hstack]
  have hcpu' : ∀ c' ≠ c, s'.cpu c' = s.cpu c' := fun c' hc => by
    rw [hcpu, setCpu_cpu_of_ne hc]
  refine h.change (c := c) ⟨fun q => ?_, fun r hr => ?_, fun r _ hr => ?_, fun r hr => ?_, ?_,
    fun r f rest hr _ => ?_⟩ hcpu' (fun c' hc r hr => ⟨?_, by rw [hself]; simp⟩) hlock
    (fun lk c' _ hlk => hheld ▸ hlk)
    (fun c' _ r _ hu => ?_) (fun r hr => ?_) (fun r => ?_)
  · rw [hown, Owns, hself]
    simp [eq_comm]
  · rw [hself] at hr
    cases hr
  · rw [hself] at hr ⊢
    cases hr
    exact ⟨rest, rfl⟩
  · rw [hself] at hr
    cases hr
  · have hbelow := (h.cpu c).below
    rw [hstack] at hbelow
    rwa [hself]
  · rw [hself] at hr
    cases hr
  · rw [hothers r fun hrp => hc (h.once c' c p (hrp ▸ hr) hon)]
    exact .refl _
  · rwa [hothers r fun hrp => h.not_on_of_unused (hrp ▸ hu) c hon]
  · by_cases hrp : r = p
    · exact hrp ▸ hparked
    rw [hothers r hrp]
    refine h.parked r fun c' hr' => ?_
    by_cases hc : c' = c
    · subst hc
      rw [hon] at hr'
      exact hrp (Option.some.inj hr').symm
    · exact hr c' (by rwa [hcpu' c' hc])
  · by_cases hrp : r = p
    · exact hrp ▸ hnested
    · rw [hothers r hrp]
      exact h.nested r

end Sys

end Xv6.Sched
