/-
# A process runs on at most one CPU

Each step keeps every CPU, process and lock in its place (`Placed.step`).  `scheduler()` takes
up a process only when it is `RUNNABLE` and its lock free, and then it is on no CPU; a process
makes itself `RUNNABLE`, `SLEEPING` or `ZOMBIE` only on its way into `sched()`, and its lock is
held until the CPU is back on its own stack.
-/

import Xv6.Lib.Runs
import Xv6.Sched.Placed

namespace Xv6.Sched

open Lib

variable {N M : ℕ} {s s' : Sys N M} {c : Fin M} {p q r : Fin N} {f g : Frame N}
  {rest st : List (Frame N)}

namespace Sys

/-! ### The turns of a process -/

/-- Process `p` returns, and changes a process that is on no CPU. -/
theorem Placed.pop_changed {t : Sys N M} {k : Proc N → Proc N} (h : s.Placed)
    (hon : (s.cpu c).on = some p) (hst : (s.proc p).stack = f :: rest) (hf : ¬f.Own)
    (hrun : (s.proc p).state = .running) (hproc : t.proc = s.proc) (hcpu : t.cpu = s.cpu)
    (hheld : t.held = s.held) (hlocks : Relocks s t c (f.locks p) []) (hq : q ≠ p)
    (hoff : ∀ c', (s.cpu c').on ≠ some q) (hl : s.plock q = none ∨ s.plock q = some c)
    (hk : (k (s.proc q)).Parked ∧ Nested (k (s.proc q)).stack) :
    ((t.setProc q k).setStack p rest).Placed := by
  have hnested : Nested (f :: rest) := hst ▸ h.nested p
  refine h.turn hon hcpu (fun r hr => ?_) (.inl (by simpa [hq.symm, hproc] using hrun)) ?_
    (fun r => ?_) (fun r c' hc => hlocks.others r hc) (fun lk c' _ hlk => hheld ▸ hlk)
    fun g rest' hg => ?_
  · rw [setStack_proc_of_ne hr]
    by_cases hrq : r = q
    · subst hrq
      rw [setProc_proc_self, hproc]
      exact .inr ⟨⟨hoff, hl⟩, hk⟩
    · rw [setProc_proc_of_ne hrq, hproc]
      exact .inl (.refl _)
  · rw [setStack_stack_self]
    exact hnested.tail
  · rw [setStack_stack_self, hnested.stackLocks_tail hf]
    refine hlocks.own (fun r => ?_) r
    rw [h.own hon, hst]
    rfl
  · rw [setStack_stack_self] at hg
    subst hg
    exact hnested.sound_tail

theorem Placed.turned (h : s.Placed) (hon : (s.cpu c).on = some p)
    (hst : (s.proc p).stack = f :: rest) (ht : Turn s c p rest f s') : s'.Placed := by
  have hnested : Nested (f :: rest) := hst ▸ h.nested p
  have hsound : f.Sound s c p := (h.cpu c).sound p f rest hon hst
  have hown (q : Fin N) : s.plock q = some c ↔ q ∈ f.locks p := by
    rw [h.own hon, hst]
    rfl
  have herase (lk lk' : Spin) (c' : Fin M) (hc : c' ≠ c) (hlk : (lk, c') ∈ s.held) :
      (lk, c') ∈ s.held.erase (lk', c) := (List.mem_erase_of_ne (by simp [hc])).2 hlk
  have hrun (hf : f ≠ .exitSwitch) : (s.proc p).state = .running := h.running hon hst hf
  have hother {q : Fin N} (hu : (s.proc q).state = .unused) : q ≠ p := by
    rintro rfl
    exact h.not_on_of_unused hu c hon
  cases ht with
  | move hm => exact h.move hon hst hm
  | sleepEnter hl | exitLockParent hl | waitEnter hl =>
    exact h.next hon hst rfl setStack_stays (by simp [hrun]) setStack_stack_self
      (.acquire _ hl rfl (by simp [Frame.locks])) (fun _ _ _ => id) (by simp [Frame.Own]) trivial
  | sleepLocked hl =>
    exact h.next hon hst rfl setStack_stays (by simp [hrun]) setStack_stack_self
      (.same rfl (by simp [Frame.locks])) (fun lk c' hc => herase lk _ c' hc)
      (by simp [Frame.Own]) trivial
  | @sleepGo chan lk hl =>
    refine h.leave hon rfl (fun r hr => by simp [hr]) ?_ ?_ (fun q => ?_) (fun _ _ _ => Iff.rfl) rfl
    · simp [Proc.Parked]
    · simpa using hnested.replace (by simp [Frame.Own])
    · exact (hown q).trans (by simp [Frame.locks])
  | sleepBack =>
    obtain ⟨copyout, rest', rfl⟩ := hnested.of_own ⟨_, .inr rfl⟩
    refine h.goto hon hst rfl (fun r hr => ?_) (by simp [hrun]) (by simp) hnested.tail
      (.same rfl (by simp [Frame.locks, stackLocks])) (fun _ _ _ => id) ?_
    · rw [setProc_proc_of_ne hr]
      exact .refl _
    · rintro _ _ ⟨⟩
      trivial
  | @sleepParked _ lk hl =>
    refine h.next (g := .sleepRelock lk) hon hst rfl (fun r hr => ?_) (by simp [hrun]) (by simp)
      (.release p hl rfl (by simp [Frame.locks])) (fun _ _ _ => id) (by simp [Frame.Own]) trivial
    rw [setProc_proc_of_ne hr]
    exact .refl _
  | sleepRelock =>
    exact h.pop hon hst rfl setStack_stays (by simp [hrun]) setStack_stack_self
      (.same rfl (by simp [Frame.locks])) (fun _ _ _ => List.mem_cons_of_mem _)
      (by simp [Frame.Own])
  | wakeup hl | exitWake hl =>
    obtain ⟨h', hst'⟩ := h.edit hon hst (by simp) (stays_wake _ _)
    exact h'.next hon hst' rfl setStack_stays (by simp [h'.running hon hst']) setStack_stack_self
      (.same rfl (by simp [Frame.locks])) (fun _ _ _ => id) (by simp [Frame.Own]) trivial
  | yieldEnter hl =>
    have hrelock : Relocks s (s.setLock p (some c)) c [] [p] := .acquire p hl rfl (by simp)
    refine h.leave hon rfl (fun r hr => by simp [hr]) ?_ ?_ (fun q => ?_) (fun q c' hc => ?_) rfl
    · simp [Proc.Parked]
    · simpa using hnested.replace (by simp [Frame.Own])
    · exact hrelock.own hown q |>.trans (by simp)
    · exact hrelock.others q hc
  | resume hf hl =>
    refine h.pop hon hst rfl setStack_stays ?_ setStack_stack_self (.release p hl rfl ?_)
      (fun _ _ _ => id) ?_
    · rcases hf with rfl | rfl <;> simp [hrun]
    · rcases hf with rfl | rfl <;> simp [Frame.locks]
    · rcases hf with rfl | rfl <;> simp [Frame.Own]
  | kill hl hpid =>
    obtain ⟨h', hst'⟩ := h.edit hon hst (by simp) (stays_kill _)
    exact h'.pop hon hst' rfl setStack_stays (by simp [h'.running hon hst']) setStack_stack_self
      (.same rfl (by simp [Frame.locks])) (fun _ _ _ => id) (by simp [Frame.Own])
  | @forkFound mem i hl hstate =>
    refine h.next (g := .forkHave mem i) hon hst rfl (fun r hr => ?_) ?_ setStack_stack_self
      (.acquire i hl rfl (by simp [Frame.locks])) (fun _ _ _ => id) (by simp [Frame.Own]) ?_
    · rw [setStack_proc_of_ne hr]
      refine stays_setProc ?_ ?_ r
      · rfl
      · exact .of_same rfl rfl rfl
    · simpa [(hother hstate).symm] using hrun
    · simpa [Frame.Sound] using hstate
  | forkNoTrapframe hl | waitNone _ hl | waitFail hl =>
    exact h.pop hon hst rfl setStack_stays (by simp [hrun]) setStack_stack_self
      (.release _ hl rfl (by simp [Frame.locks])) (fun _ _ _ => id) (by simp [Frame.Own])
  | @forkNoPages np hl =>
    have hparked := h.parked np (h.not_on_of_unused hsound)
    rw [Proc.Parked, hsound] at hparked
    exact h.pop_changed hon hst (by simp [Frame.Own]) (hrun (by simp)) rfl rfl rfl
      (.release np hl rfl (by simp [Frame.locks])) (hother hsound)
      (h.not_on_of_unused hsound) (.inr hl)
      ⟨hparked, h.nested np⟩
  | @forkEnough np hl =>
    exact h.pop_changed hon hst (by simp [Frame.Own]) (hrun (by simp)) rfl rfl rfl
      (.release np hl rfl (by simp [Frame.locks])) (hother hsound)
      (h.not_on_of_unused hsound) (.inr hl)
      ⟨by simp [Proc.Parked], by simp [Nested, Under, Frame.Own, Frame.Calm]⟩
  | @exitLockSelf status parent hl =>
    -- the parent is locked and the process is not
    have hparent : parent ≠ p := by
      rintro rfl
      rw [(hown parent).2 (List.mem_singleton_self parent)] at hl
      cases hl
    exact h.next hon hst rfl setStack_stays (by simp [hrun]) setStack_stack_self
      (.acquire p hl rfl (by simp [Frame.locks, or_comm])) (fun _ _ _ => id)
      (by simp [Frame.Own]) hparent
  | @exitGive status parent i hl =>
    obtain ⟨h', hst'⟩ :=
      h.edit (q := i) (k := fun pr => { pr with parent := some s.initproc }) hon hst (by simp)
        (.of_same rfl rfl rfl)
    exact h'.next hon hst' rfl setStack_stays (by simp [h'.running hon hst']) setStack_stack_self
      (.same rfl (by simp [Frame.locks])) (fun _ _ _ => id) (by simp [Frame.Own])
      ((h'.cpu c).sound p _ rest hon hst')
  | @exitZombie status parent hl =>
    have hne : parent ≠ p := hsound
    have hrelock : Relocks s (s.setLock parent none) c [parent, p] [p] := by
      refine .release parent hl rfl fun r => ?_
      have hpr : r = p → r ≠ parent := fun hr hr' => hne (hr'.symm.trans hr)
      simp only [List.mem_cons, List.not_mem_nil, or_false]
      tauto
    refine h.turn hon rfl (fun r hr => .inl ?_) (.inr ⟨by simp, rest, by simp⟩) ?_ (fun q => ?_)
      (fun q c' hc => hrelock.others q hc) (fun _ _ _ => id) fun g rest' hg => ?_
    · rw [setProc_proc_of_ne hr]
      exact stays_setProc rfl (stays_wake _ _) r
    · rw [setProc_proc_self]
      exact hnested.replace (by simp [Frame.Own])
    · rw [setProc_proc_self]
      exact hrelock.own hown q
    · rw [setProc_proc_self] at hg
      cases hg
      trivial
  | exitSwitch hl hstate =>
    have hzombie : (s.proc p).state = .zombie := by
      rcases (h.cpu c).runs p hon with hr | ⟨hz, -⟩
      · exact absurd hr hstate
      · exact hz
    refine h.leave hon rfl (fun r hr => by simp [hr]) ?_ ?_ (fun q => ?_) (fun _ _ _ => Iff.rfl) rfl
    · simp [Proc.Parked, hzombie]
    · simpa using hnested.replace (by simp [Frame.Own])
    · exact (hown q).trans (by simp [Frame.locks])
  | @waitSleep copyout i havekids _ _ =>
    refine h.goto hon hst rfl setStack_stays (by simp [hrun]) setStack_stack_self ?_
      (.same rfl (by simp [Frame.locks, stackLocks])) (fun _ _ _ => id) ?_
    · exact ⟨.inr ⟨⟨_, .inl rfl⟩, copyout, rfl⟩, hnested.replace (by simp [Frame.Own])⟩
    · rintro _ _ ⟨⟩
      trivial
  | @waitReap i hi hl hz =>
    have hip : i ≠ p := by
      rintro rfl
      rw [hi] at hl
      cases hl
    have hoff := h.not_on hi (by simp [hz])
    have hparked := h.parked i hoff
    rw [Proc.Parked, hz] at hparked
    exact h.pop_changed hon hst (by simp [Frame.Own]) (hrun (by simp)) rfl rfl rfl
      (.release p hl rfl (by simp [Frame.locks])) hip hoff (.inl hi) ⟨.inr hparked, h.nested i⟩
  | loopKilled hl =>
    exact h.pop hon hst rfl setStack_stays (by simp [hrun]) setStack_stack_self
      (.same rfl (by simp [Frame.locks])) (fun lk c' hc => herase lk _ c' hc) (by simp [Frame.Own])
  | loopSleep hl =>
    refine h.goto hon hst rfl setStack_stays (by simp [hrun]) setStack_stack_self ?_
      (.same rfl (by simp [Frame.locks, stackLocks])) (fun _ _ _ => id) ?_
    · exact (hnested.replace (by simp [Frame.Own])).push trivial (by simp [Frame.Own])
    · rintro _ _ ⟨⟩
      exact hl

/-! ### Steps outside processes -/

section

variable (h : s.Placed)
include h

/-- A step of CPU `c` on its own stack, after which it has no process and no lock. -/
theorem Placed.idle (hcpu : ∀ c', c' ≠ c → s'.cpu c' = s.cpu c') (hoff : (s.cpu c).on = none)
    (hon : (s'.cpu c).on = none) (hproc : (s'.cpu c).proc = none)
    (hst : ∀ f ∈ (s'.cpu c).stack, ∀ q, f ≠ .switched q)
    (hothers : ∀ r, Stays (s.proc r) (s'.proc r)) (hown : ∀ q, s'.plock q ≠ some c)
    (hlock : ∀ q c', c' ≠ c → (s'.plock q = some c' ↔ s.plock q = some c'))
    (hheld : s'.held = s.held) : s'.Placed := by
  have hnone {r : Fin N} : (s'.cpu c).on ≠ some r := by
    rw [hon]
    simp
  refine h.change ⟨fun q => iff_of_false (hown q) ?_, fun r hr => absurd hr hnone, fun r _ hr => ?_,
    fun r hr => absurd hr hnone, fun f hf => hst f (List.mem_of_mem_tail hf), fun r f rest hr =>
      absurd hr hnone⟩
    hcpu (fun c' _ r _ => ⟨hothers r, hnone⟩) hlock (fun lk c' _ hlk => hheld ▸ hlk)
      (fun c' _ r _ => (hothers r).unused)
    (fun r hr => (hothers r).parked (h.parked r fun c' hr' => ?_))
      (fun r => (hothers r).stack ▸ h.nested r)
  · rw [Owns, hon]
    rintro ⟨rest, hstack⟩
    exact hst _ (hstack ▸ List.mem_cons_self ..) q rfl
  · rw [hproc] at hr
    cases hr
  · by_cases hc : c' = c
    · rw [hc, hoff] at hr'
      cases hr'
    · exact hr c' (by rwa [hcpu c' hc])

theorem Placed.spin {held : List (Spin × Fin M)}
    (hpc : ∀ p, (s.cpu c).on = some p → ∃ rest, (s.proc p).stack = .kernel :: rest)
    (hheld : ∀ lk c', c' ≠ c → (lk, c') ∈ s.held → (lk, c') ∈ held) :
    Placed { s with held := held } := by
  refine h.change (c := c) ⟨(h.cpu c).lock, (h.cpu c).on, (h.cpu c).off, (h.cpu c).runs,
    (h.cpu c).below, fun r f rest hr hst => ?_⟩ (fun _ _ => rfl)
    (fun c' hc r hr => ⟨.refl _, fun hr' => hc (h.once _ _ _ hr hr')⟩)
    (fun _ _ _ => Iff.rfl) hheld (fun _ _ _ _ => id) h.parked h.nested
  obtain ⟨rest', hk⟩ := hpc r hr
  rw [show (s.proc r).stack = f :: rest from hst] at hk
  cases hk
  trivial

variable (hoff : (s.cpu c).on = none)
include hoff

theorem Placed.dispatch
    (hst : (s.cpu c).stack = .scheduler i :: rest) (hl : s.plock p = none)
    (hstate : (s.proc p).state = .runnable) :
    (((s.setLock p (some c)).setProc p fun pr => { pr with state := .running }).setCpu c
      fun _ => ⟨some p, some p, .switched p :: rest⟩).Placed := by
  have hnot : ∀ c', (s.cpu c').on ≠ some p := h.not_on hl (by simp [hstate])
  have hlock : ∀ q, s.plock q ≠ some c := fun q hq => by
    obtain ⟨rest', hq⟩ := (h.own_of_off hoff).1 hq
    rw [hst] at hq
    cases hq
  -- the process comes back from `sched()` with its own lock
  obtain ⟨f, rest', hstack, hf⟩ : ∃ f rest', (s.proc p).stack = f :: rest' ∧ f.locks p = [p] ∧
      ∀ s' : Sys N M, f.Sound s' c p := by
    have hparked := h.parked p hnot
    rw [Proc.Parked, hstate] at hparked
    obtain ⟨f, rest', hst, ⟨chan, lk, rfl⟩ | rfl | rfl⟩ := hparked
    all_goals exact ⟨_, rest', hst, rfl, fun _ => trivial⟩
  have hrelock : Relocks s (s.setLock p (some c)) c [] [p] := .acquire p hl rfl (by simp)
  have hproc : ∀ r, ((s.setProc p fun pr => { pr with state := .running }).proc r).stack =
      (s.proc r).stack := fun r => by
    by_cases hr : r = p
    · subst hr
      simp
    · simp [hr]
  have hself {r : Fin N} (hr : some p = some r) : r = p := (Option.some.inj hr).symm
  refine h.change (c := c) ⟨fun q => ?_, fun r hr => ?_, fun r hr => ?_, fun r hr => ?_, ?_,
    fun r g rest₂ hr hg => ?_⟩ (fun c' hc => setCpu_cpu_of_ne hc) (fun c' hc r hr => ?_)
    (fun q c' hc => hrelock.others q hc) (fun _ _ _ => id)
    (fun c' _ r _ hu => ?_) (fun r hr => ?_) (fun r => (hproc r).symm ▸ h.nested r)
  · refine (hrelock.own (fun q => iff_of_false (hlock q) (by simp)) q).trans ?_
    simp [Owns, hstack, stackLocks, hf.1]
  · rw [setCpu_cpu_self] at hr ⊢
    cases hr
    exact ⟨rfl, rest, rfl⟩
  · simp at hr
  · rw [setCpu_cpu_self] at hr
    cases hr
    exact .inl (by simp)
  · have hbelow := (h.cpu c).below
    rw [hst] at hbelow
    rwa [setCpu_cpu_self]
  · rw [setCpu_cpu_self] at hr
    cases hr
    have hfg := hstack.symm.trans ((hproc p).symm.trans hg)
    cases hfg
    exact hf.2 _
  · have hrp : r ≠ p := fun hrp => hnot c' (hrp ▸ hr)
    rw [setCpu_proc, setProc_proc_of_ne hrp, setCpu_cpu_self]
    exact ⟨.refl _, fun hr' => hrp (hself hr')⟩
  · have hrp : r ≠ p := by
      rintro rfl
      rw [hstate] at hu
      cases hu
    rwa [setCpu_proc, setProc_proc_of_ne hrp]
  · have hrp : r ≠ p := by
      rintro rfl
      exact hr c (by simp)
    rw [setCpu_proc, setProc_proc_of_ne hrp]
    refine h.parked r fun c' hr' => ?_
    by_cases hc : c' = c
    · rw [hc, hoff] at hr'
      cases hr'
    · exact hr c' (by rwa [setCpu_cpu_of_ne hc])

/-- Outside `swtch` a CPU on its own stack has no process and no lock. -/
theorem Placed.free_of_off (hst : (s.cpu c).stack = f :: rest)
    (hf : ∀ q, f ≠ .switched q) : (s.cpu c).proc = none ∧ ∀ q, s.plock q ≠ some c := by
  constructor
  · by_contra hp
    obtain ⟨q, hq⟩ := Option.ne_none_iff_exists'.1 hp
    obtain ⟨rest', hq⟩ := (h.cpu c).off q hoff hq
    rw [hst] at hq
    cases hq
    exact hf q rfl
  · intro q hq
    obtain ⟨rest', hq⟩ := (h.own_of_off hoff).1 hq
    rw [hst] at hq
    cases hq
    exact hf q rfl

omit hoff in
theorem Placed.rest_ne_switched (hst : (s.cpu c).stack = f :: rest) :
    ∀ g ∈ rest, ∀ q, g ≠ .switched q := by
  have hb := (h.cpu c).below
  rwa [hst] at hb

theorem Placed.idleStack (hst : (s.cpu c).stack = f :: rest)
    (hf : ∀ q, f ≠ .switched q) (hst' : ∀ g ∈ st, ∀ q, g ≠ .switched q)
    (hk : Stays (s.proc q) (k (s.proc q))) :
    ((s.setProc q k).setCpu c fun k => { k with stack := st }).Placed := by
  obtain ⟨hproc, hlock⟩ := h.free_of_off hoff hst hf
  exact h.idle (fun _ hc => setCpu_cpu_of_ne hc) hoff (by simp [hoff]) (by simp [hproc])
    (by simpa using hst') (fun r => stays_setProc rfl hk r) hlock (fun _ _ _ => Iff.rfl) rfl

theorem Placed.idleMove (hst : (s.cpu c).stack = f :: rest)
    (hf : ∀ q, f ≠ .switched q) (hst' : ∀ g ∈ st, ∀ q, g ≠ .switched q) :
    (s.setCpu c fun k => { k with stack := st }).Placed := by
  obtain ⟨hproc, hlock⟩ := h.free_of_off hoff hst hf
  exact h.idle (fun _ hc => setCpu_cpu_of_ne hc) hoff (by simp [hoff]) (by simp [hproc])
    (by simpa using hst') (fun r => .refl _) hlock (fun _ _ _ => Iff.rfl) rfl

theorem Placed.round (hst : (s.cpu c).stack = f :: rest)
    (hr : Round s c rest f s') : s'.Placed := by
  have hrest := h.rest_ne_switched hst
  cases hr with
  | dispatch hl hstate => exact h.dispatch hoff hst hl hstate
  | next => exact h.idleMove hoff hst (by simp) (by simpa using hrest)
  | @back p hl =>
    have hrelock : Relocks s (s.setLock p none) c [p] [] := .release p hl rfl (by simp)
    refine h.idle (fun _ hc => setCpu_cpu_of_ne hc) hoff (by simp [hoff]) (by simp)
      (by simpa using hrest) (fun r => .refl _) (fun q hq => ?_)
      (fun q c' hc => hrelock.others q hc) rfl
    refine absurd ((hrelock.own (fun q => ?_) q).1 hq) (by simp)
    rw [h.own_of_off hoff, hst]
    simp [eq_comm]
  | wakeup hl => exact h.idleStack hoff hst (by simp) (by simpa using hrest) (stays_wake _ _)
  | wakeupEnd _ => exact h.idleMove hoff hst (by simp) hrest

end

/-! ### Every step, and every run -/

theorem Placed.event (h : s.Placed) (he : Event s c s') : s'.Placed := by
  cases he with
  | turn hon hst ht => exact h.turned hon hst ht
  | @call p f rest hon hst hf =>
    have hnested : Nested (Frame.kernel :: rest) := hst ▸ h.nested p
    refine h.goto hon hst rfl setStack_stays (by simp [h.running hon hst]) setStack_stack_self
      (hnested.push trivial ?_) (.same rfl fun r => ?_) (fun _ _ _ => id) ?_
    · cases hf <;> simp [Frame.Own]
    · cases hf <;> simp [Frame.locks, stackLocks]
    · rintro _ _ ⟨⟩
      cases hf <;> trivial
  | @sleep p chan lk rest hon hst hlk =>
    have hnested : Nested (Frame.kernel :: rest) := hst ▸ h.nested p
    refine h.goto hon hst rfl setStack_stays (by simp [h.running hon hst]) setStack_stack_self
      (hnested.push trivial (by simp [Frame.Own])) (.same rfl (by simp [Frame.locks, stackLocks]))
      (fun _ _ _ => id) ?_
    rintro _ _ ⟨⟩
    exact hlk
  | ret hon hst =>
    exact h.pop hon hst rfl setStack_stays (by simp [h.running hon hst]) setStack_stack_self
      (.same rfl (by simp [Frame.locks])) (fun _ _ _ => id) (by simp [Frame.Own])
  | @interrupt p f g rest hon hst hoff hg =>
    have hcalm : f.Calm := h.calm_of_noff hon hst hoff
    have hnested : Nested (f :: rest) := hst ▸ h.nested p
    have hf : f ≠ .exitSwitch := by
      rintro rfl
      exact hcalm
    refine h.goto hon hst rfl setStack_stays (by simp [h.running hon hst hf]) setStack_stack_self
      (hnested.push hcalm ?_) (.same rfl fun r => ?_) (fun _ _ _ => id) ?_
    · rcases hg with rfl | rfl <;> simp [Frame.Own]
    · rw [hcalm.locks]
      rcases hg with rfl | rfl <;> rfl
    · rintro _ _ ⟨⟩
      rcases hg with rfl | rfl <;> trivial
  | spin hpc hheld => exact h.spin hpc hheld
  | round hoff hst hr => exact h.round hoff hst hr
  | cpuCall hoff hst =>
    exact h.idleMove hoff hst (by simp) (by simpa using h.rest_ne_switched hst)
  | cpuRet hoff hst => exact h.idleMove hoff hst (by simp) (h.rest_ne_switched hst)
  | @cpuInterrupt f rest hoff hst hnoff =>
    have hf : ∀ q, f ≠ .switched q := by
      rintro q rfl
      exact plock_ne_of_noff hnoff q ((h.own_of_off hoff).2 ⟨rest, hst⟩)
    exact h.idleMove hoff hst hf (by simpa [hf] using h.rest_ne_switched hst)

theorem Placed.step (h : s.Placed) (hs : s.step a = some s') : s'.Placed :=
  h.event (event_of_step hs)

theorem placed_of_reach {initproc : Fin N} {ok : Sys N M → Fin M × Act N → Prop}
    (h : Reach step ok (boot N M initproc) s) : s.Placed :=
  h.invariant (placed_boot initproc) fun _ _ _ hi _ hs => hi.step hs

end Sys

/-- **A process runs on at most one CPU.**  Whenever its lock is free, a process is `RUNNING` if
and only if exactly one CPU has it as its process, and no CPU runs on the kernel stack of a
process in another state. -/
theorem runs_on_one_cpu {initproc : Fin N}
    (h : Reach Sys.step (fun _ _ => True) (Sys.boot N M initproc) s) (hfree : s.plock p = none) :
    ((s.proc p).state = .running ↔ ∃! c, (s.cpu c).proc = some p) ∧
      ((s.proc p).state ≠ .running → ∀ c, (s.cpu c).on ≠ some p) := by
  have hs : s.Placed := Sys.placed_of_reach h
  -- with the lock free, the CPU that has the process runs on its stack
  have hon : ∀ c, (s.cpu c).proc = some p → (s.cpu c).on = some p := fun c hc => by
    cases hcpu : (s.cpu c).on with
    | none =>
      have hl := (hs.own_of_off hcpu).2 ((hs.cpu c).off p hcpu hc)
      rw [hfree] at hl
      cases hl
    | some q => rw [← ((hs.cpu c).on q hcpu).1, hc]
  refine ⟨⟨fun hr => ?_, fun hc => ?_⟩, hs.not_on hfree⟩
  · obtain ⟨c, hc⟩ : ∃ c, (s.cpu c).on = some p := by
      by_contra hno
      push Not at hno
      have hparked := hs.parked p hno
      rw [Proc.Parked, hr] at hparked
      exact hparked
    exact ⟨c, ((hs.cpu c).on p hc).1, fun c' hc' => hs.once c' c p (hon c' hc') hc⟩
  · obtain ⟨c, hc, -⟩ := hc
    by_contra hr
    exact hs.not_on hfree hr c (hon c hc)

theorem runs_on_one_cpu_init : ∃ s : Sys 2 2, Reach Sys.step (fun _ _ => True) (Sys.boot 2 2 0) s ∧
    s.plock 0 = none ∧ ((s.proc 0).state = .running ↔ ∃! c, (s.cpu c).proc = some 0) ∧
      ((s.proc 0).state ≠ .running → ∀ c, (s.cpu c).on ≠ some 0) := by
  have hrun : (run Sys.step (fun _ _ => True) (Sys.boot 2 2 0) [(1, .run), (1, .run)]).map
      (fun s => s.plock 0) = some none := by decide +kernel
  obtain ⟨s, hs, hl⟩ := exists_reach_of_run hrun
  exact ⟨s, hs, hl, runs_on_one_cpu hs hl⟩

end Xv6.Sched
