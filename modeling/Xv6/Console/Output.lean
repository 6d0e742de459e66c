/-
# A console write that has to wait panics

A process in `uartputc` has `cons.lock` and `uart_tx_lock`.  If it sleeps there, `sched` finds `noff
= 2` and panics (`full_ring_panics`).  A write is safe as long as no byte comes to a full buffer
(`Drains`).  The locks of each thread follow from where it is (`WritePc.locks`).
-/

import Xv6.Console.Write

namespace Xv6.Console

open Lib Function

variable {N : ℕ} {a : WriteAction N}

/-! ### Which locks are held -/

def WritePc.locks (p : Fin N) : WritePc → List (Lock N)
  | .out _ | .enter _ => []
  | .loop .. | .putEnter .. | .asleep .. | .runnable .. => [.cons]
  | .test .. | .start .. | .sleepEnter .. => [.tx, .cons]
  | .sleepRelease .. => [.proc p, .tx, .cons]
  | .sched .. | .tidy .. => [.proc p, .cons]

/-- The process has come through `sched`. -/
def WritePc.slept : WritePc → Prop
  | .asleep .. | .runnable .. | .tidy .. => True
  | _ => False

def WritePc.inSleep : WritePc → Prop
  | .sleepEnter .. | .sleepRelease .. | .sched .. | .asleep .. | .runnable .. | .tidy .. => True
  | _ => False

namespace WriteSys

variable {s s' : WriteSys N} {p : Fin N} {c : WritePc} {t : Thread N} {l : Lock N} {idle : Bool}

def locks (s : WriteSys N) : Thread N → List (Lock N)
  | .proc p => (s.pc p).locks p
  | .intr => if s.intr.isSome then [.tx] else []

@[simp] theorem goto_pc_self : (s.goto p c).pc p = c := update_self ..

theorem goto_pc_of_ne (h : q ≠ p) : (s.goto p c).pc q = s.pc q := update_of_ne h ..

theorem locks_goto : (s.goto p c).locks = update s.locks (.proc p) (c.locks p) := by
  funext t
  cases t with
  | proc q =>
    by_cases hq : q = p
    · subst hq
      simp [locks]
    · simp [locks, goto_pc_of_ne hq, hq]
  | intr =>
    rw [update_of_ne (by simp)]
    rfl

theorem locks_setIntr (spin : Spin (Lock N) (Thread N)) (x : Option StartPc) :
    ({ s with spin, intr := x } : WriteSys N).locks = update s.locks .intr
    (if x.isSome then [.tx] else []) := by
  funext t
  cases t with
  | proc q =>
    rw [update_of_ne (by simp)]
    rfl
  | intr => simp [locks]

/-- The locks are held as the places say, and no process has come through `sched`. -/
structure Good (s : WriteSys N) : Prop where
  held : s.spin.Held s.locks
  up : ∀ p, ¬(s.pc p).slept
  fine : s.panic = none

theorem good_init (N : ℕ) (buf : Bytes UART_TX_BUF_SIZE) : (init N buf).Good where
  held := by
    have hnone : (init N buf).locks = fun _ => [] := by
      funext t
      cases t <;> rfl
    rw [hnone]
    exact Spin.held_free
  up _ h := h
  fine := rfl

/-- A step that keeps the locks as the places say and takes process `p` to `c`. -/
structure Goes (s s' : WriteSys N) (p : Fin N) (c : WritePc) : Prop where
  good : s'.Good
  pc : s'.pc = update s.pc p c

theorem Goes.of_pc {s₁ : WriteSys N} (h : Goes s₁ s' p c) (hpc : s₁.pc = s.pc) : Goes s s' p c :=
  ⟨h.good, hpc ▸ h.pc⟩

theorem Goes.of_held (hup : ∀ q, ¬(s.pc q).slept) (hpc : s'.pc = s.pc) (hfine : s'.panic = none)
    (hc : ¬c.slept) (hheld : s'.spin.Held (update s'.locks (.proc p) (c.locks p))) :
    Goes s (s'.goto p c) p c := by
  have hgoto : (s'.goto p c).pc = update s.pc p c := by rw [WriteSys.goto, hpc]
  refine ⟨⟨by rwa [locks_goto], fun q => ?_, hfine⟩, hgoto⟩
  rw [hgoto]
  by_cases hq : q = p
  · subst hq
    rwa [update_self]
  · rw [update_of_ne hq]
    exact hup q

section

variable (h : s.Good)
include h

theorem Good.goto (hl : c.locks p = (s.pc p).locks p) (hc : ¬c.slept) :
    Goes s (s.goto p c) p c := by
  refine .of_held h.up rfl h.fine hc ?_
  rw [hl, show (s.pc p).locks p = s.locks (.proc p) from rfl, update_eq_self]
  exact h.held

theorem Good.of_acquire (hl : l ∉ s.locks t) (hs : s.acquire t l = some s') :
    s.spin.owner l = none ∧ s' = { s with spin := s.spin.take t l } := by
  unfold WriteSys.acquire at hs
  split at hs
  · rename_i hfree
    exact ⟨hfree, (Option.some.inj hs).symm⟩
  · rename_i u hu
    split at hs
    · rename_i hut
      exact absurd ((h.held.owner t l).1 (hut ▸ hu)) hl
    · cases hs

theorem Good.release_eq (hl : l ∈ s.locks t) :
    s.release t l = { s with spin := s.spin.drop t l } := if_pos ((h.held.owner t l).2 hl)

theorem Good.acquire (hl : l ∉ (s.pc p).locks p) (hc : c.locks p = l :: (s.pc p).locks p)
    (hup : ¬c.slept) (hs : s.acquire (.proc p) l = some s') : Goes s (s'.goto p c) p c := by
  obtain ⟨hfree, rfl⟩ := h.of_acquire (t := .proc p) hl hs
  refine .of_held h.up rfl h.fine hup ?_
  rw [hc]
  exact h.held.take hfree

theorem Good.release (hl : l ∈ (s.pc p).locks p) (hc : c.locks p = ((s.pc p).locks p).erase l)
    (hup : ¬c.slept) : Goes s ((s.release (.proc p) l).goto p c) p c := by
  rw [h.release_eq (t := .proc p) hl]
  refine .of_held h.up rfl h.fine hup ?_
  rw [hc]
  exact h.held.drop ((h.held.owner (.proc p) l).2 hl)

theorem Good.wake (p : Fin N) : s.wake p = s := by
  unfold WriteSys.wake
  split
  · rename_i a i c hpc
    exact absurd (hpc ▸ trivial) (h.up p)
  · rfl

theorem Good.uartstart (hl : ∀ q, Lock.proc q ∉ s.locks t)
    (hs : s.uartstart t idle q = some x) : x.1.Good ∧ x.1.pc = s.pc ∧ x.1.locks = s.locks := by
  have hsame (uart : Uart) (thr : List UInt8) : Good { s with uart, thr } := ⟨h.held, h.up, h.fine⟩
  cases q with
  | loop =>
    simp only [WriteSys.uartstart] at hs
    split at hs
    · cases hs
      exact ⟨h, rfl, rfl⟩
    · split at hs
      · cases hs
        exact ⟨h, rfl, rfl⟩
      · cases hs
        exact ⟨hsame _ _, rfl, rfl⟩
  | wake c k =>
    simp only [WriteSys.uartstart] at hs
    split at hs
    · rename_i hk
      obtain ⟨s', hs', rfl⟩ := Option.map_eq_some_iff.1 hs
      unfold wakeLocked at hs'
      split at hs'
      · rw [h.wake] at hs'
        cases hs'
        exact ⟨h, rfl, rfl⟩
      · rename_i u hu
        split at hs'
        · rename_i hut
          exact absurd ((h.held.owner t _).1 (hut ▸ hu)) (hl _)
        · cases hs'
    · cases hs
      exact ⟨hsame _ _, rfl, rfl⟩

/-- **`sched` always finds `cons.lock`.** -/
theorem Good.schedule {a : WriteArgs} {i : ℕ} {b : UInt8} (hpc : s.pc p = .sched a i b) :
    (s.schedule p c).panic = some .schedLocks := by
  have hlocks : s.locks (.proc p) = [.proc p, .cons] := by simp only [locks, hpc, WritePc.locks]
  have hown : s.spin.owner (.proc p) = some (.proc p) := by
    rw [h.held.owner, hlocks]
    exact List.mem_cons_self ..
  have hnoff : s.spin.noff (.proc p) = 2 := by rw [h.held.noff, hlocks]; rfl
  unfold WriteSys.schedule
  rw [if_neg (not_not.2 hown), if_pos (by rw [hnoff]; decide)]

theorem Good.advance (hpc : s.pc p = d) (hs : s.advance p idle d = some s') :
    (∃ c, Goes s s' p c ∧ (c.inSleep → d.inSleep ∨ d.tests = true ∧ s.uart.full)) ∨
      s'.panic = some .schedLocks ∧ ∃ a i c, d = .sched a i c := by
  have hup := h.up p
  cases d with
  | out v => cases hs
  | enter a | putEnter a i c =>
    obtain ⟨s₁, hs₁, rfl⟩ := Option.map_eq_some_iff.1 hs
    exact .inl ⟨_, h.acquire (by simp [hpc, WritePc.locks]) (by simp [hpc, WritePc.locks]) id hs₁,
      False.elim⟩
  | loop a i =>
    have hdone : Goes s ((s.release (.proc p) .cons).goto p (.out (some i))) p (.out (some i)) :=
      h.release (by simp [hpc, WritePc.locks]) (by simp [hpc, WritePc.locks]) id
    simp only [WriteSys.advance] at hs
    split at hs
    · split at hs
      · exact .inl ⟨_, Option.some.inj hs ▸ hdone, False.elim⟩
      · exact .inl ⟨_, Option.some.inj hs ▸ h.goto (by simp [hpc, WritePc.locks]) id, False.elim⟩
    · exact .inl ⟨_, Option.some.inj hs ▸ hdone, False.elim⟩
  | test a i c =>
    have hput : Good { s with uart := s.uart.put c } := ⟨h.held, h.up, h.fine⟩
    simp only [WriteSys.advance] at hs
    split at hs
    · rename_i hfull
      exact .inl ⟨_, Option.some.inj hs ▸ h.goto (by simp [hpc, WritePc.locks]) id,
        fun _ => .inr ⟨rfl, hfull⟩⟩
    · cases hs
      exact .inl ⟨_, (hput.goto (by simp [hpc, WritePc.locks]) id).of_pc rfl, False.elim⟩
  | start a i q =>
    obtain ⟨x, hx, rfl⟩ := Option.map_eq_some_iff.1 hs
    obtain ⟨hgood, hsame, -⟩ := h.uartstart (t := .proc p) (by simp [locks, hpc, WritePc.locks]) hx
    split
    · exact .inl ⟨_, (hgood.goto (by simp [hsame, hpc, WritePc.locks]) id).of_pc hsame, False.elim⟩
    · exact .inl
        ⟨_,
        (hgood.release (by simp [hsame, hpc, WritePc.locks]) (by simp [hsame, hpc, WritePc.locks])
          id).of_pc hsame, False.elim⟩
  | sleepEnter a i c =>
    obtain ⟨s₁, hs₁, rfl⟩ := Option.map_eq_some_iff.1 hs
    exact .inl ⟨_, h.acquire (by simp [hpc, WritePc.locks]) (by simp [hpc, WritePc.locks]) id
      hs₁, fun _ =>
      .inl trivial⟩
  | sleepRelease a i c =>
    cases hs
    exact .inl ⟨_, h.release (by simp [hpc, WritePc.locks]) (by simp [hpc, WritePc.locks])
      id, fun _ =>
      .inl trivial⟩
  | sched a i c =>
    cases hs
    exact .inr ⟨h.schedule hpc, a, i, c, rfl⟩
  | asleep a i c | runnable a i c | tidy a i c => exact absurd (hpc ▸ trivial) hup

theorem Good.handle (hs : s.handle idle = some s') : s'.Good ∧ s'.pc = s.pc := by
  unfold WriteSys.handle at hs
  split at hs
  · rename_i hnone
    obtain ⟨s₁, hs₁, rfl⟩ := Option.map_eq_some_iff.1 hs
    have hlocks : s.locks .intr = [] := by simp [locks, hnone]
    obtain ⟨hfree, rfl⟩ := h.of_acquire (by simp [hlocks]) hs₁
    have htake := h.held.take (t := .intr) hfree
    rw [hlocks] at htake
    exact ⟨⟨locks_setIntr (s := s) .. ▸ htake, h.up, h.fine⟩, rfl⟩
  rename_i q hsome
  obtain ⟨x, hx, rfl⟩ := Option.map_eq_some_iff.1 hs
  have hlocks : s.locks .intr = [.tx] := by simp [locks, hsome]
  obtain ⟨hgood, hsame, hxlocks⟩ := h.uartstart (t := .intr) (by simp [hlocks]) hx
  rw [← hxlocks] at hlocks
  split
  · refine ⟨⟨?_, hgood.up, hgood.fine⟩, hsame⟩
    rw [locks_setIntr (s := x.1), Option.isSome_some, if_pos rfl, ← hlocks, update_eq_self]
    exact hgood.held
  · have hmem : Lock.tx ∈ x.1.locks .intr := by simp [hlocks]
    rw [hgood.release_eq hmem]
    have hdrop := hgood.held.drop ((hgood.held.owner .intr .tx).2 hmem)
    rw [hlocks] at hdrop
    exact ⟨⟨locks_setIntr (s := x.1) .. ▸ hdrop, hgood.up, hgood.fine⟩, hsame⟩

omit h in
theorem inSleep_update {q : Fin N} (hq : (update s.pc p c q).inSleep) :
    (s.pc q).inSleep ∨ q = p ∧ c.inSleep := by
  by_cases hqp : q = p
  · subst hqp
    rw [update_self] at hq
    exact .inr ⟨rfl, hq⟩
  · rw [update_of_ne hqp] at hq
    exact .inl hq

/-- **A step keeps the locks as the places say, and brings a process into `sleep` only if a byte
comes to a full buffer; or `sched` panics.** -/
theorem Good.step (hs : s.step a = some s') :
    (s'.Good ∧ ∀ q, (s'.pc q).inSleep → (s.pc q).inSleep ∨ ¬s.Drains a) ∨
      s'.panic = some .schedLocks ∧ ∃ p a i c, s.pc p = .sched a i c := by
  unfold WriteSys.step at hs
  rw [if_neg (not_not.2 h.fine)] at hs
  cases a with
  | write p a =>
    simp only at hs
    split at hs
    · rename_i v hpc
      cases hs
      exact .inl ⟨(h.goto (by simp [hpc, WritePc.locks]) id).good,
        fun q hq => (inSleep_update hq).imp_right (·.2.elim)⟩
    · cases hs
  | kill p =>
    simp only at hs
    split at hs
    · rw [h.wake] at hs
      cases hs
      exact .inl ⟨h, fun _ => .inl⟩
    · cases hs
  | run p idle =>
    rcases h.advance rfl hs with ⟨c, hgoes, hsleep⟩ | ⟨hpanic, hpc⟩
    · refine .inl ⟨hgoes.good, fun q hq => ?_⟩
      rcases inSleep_update (hgoes.pc ▸ hq) with hin | ⟨rfl, hc⟩
      · exact .inl hin
      · exact (hsleep hc).imp_right fun hfull hdrain => hdrain hfull.1 hfull.2
    · exact .inr ⟨hpanic, p, hpc⟩
  | intr idle =>
    obtain ⟨hgood, hsame⟩ := h.handle hs
    exact .inl ⟨hgood, fun q hq => .inl (hsame ▸ hq)⟩

end

theorem good_or_panic {buf : Bytes UART_TX_BUF_SIZE}
    (h : Reach WriteSys.step (fun _ _ => True) (init N buf) s) :
    s.Good ∨ s.panic = some .schedLocks := by
  refine h.invariant (I := fun s => s.Good ∨ s.panic = some .schedLocks) (.inl (good_init N buf)) ?_
  intro s a s' hi _ hs
  rcases hi with hi | hi
  · exact (hi.step hs).imp And.left And.left
  · unfold WriteSys.step at hs
    rw [if_pos (by rw [hi]; decide)] at hs
    cases hs

theorem exists_of_callsSleep (h : s.CallsSleep p) : ∃ a i c, s.pc p = .sleepEnter a i c := by
  unfold CallsSleep at h
  cases hpc : s.pc p with
  | sleepEnter a i c => exact ⟨a, i, c, rfl⟩
  | _ =>
    rw [hpc] at h
    cases h

/-- **Whenever `sleep` is called, `cons.lock` is held too.** -/
theorem sleep_holds_cons_lock {buf : Bytes UART_TX_BUF_SIZE}
    (h : Reach WriteSys.step (fun _ _ => True) (init N buf) s) (hfine : s.panic = none)
    (hp : s.CallsSleep p) : s.spin.owner .cons = some (.proc p) ∧ ¬s.HoldsTxOnly p := by
  have hgood : s.Good := (good_or_panic h).resolve_right (by rw [hfine]; decide)
  obtain ⟨a, i, c, hpc⟩ := exists_of_callsSleep hp
  have hcons : s.spin.owner .cons = some (.proc p) := by
    rw [hgood.held.owner]
    simp [locks, hpc, WritePc.locks]
  refine ⟨hcons, fun honly => ?_⟩
  cases (honly .cons).1 hcons

/-! ### No byte comes to a full buffer -/

theorem Good.awake_step (h : s.Good) (hawake : ∀ q, ¬(s.pc q).inSleep)
    (hdrain : s.Drains a) (hs : s.step a = some s') : s'.Good ∧ ∀ q, ¬(s'.pc q).inSleep := by
  rcases h.step hs with ⟨hgood, hsleep⟩ | ⟨-, p, a, i, c, hpc⟩
  · exact ⟨hgood, fun q hq => (hsleep q hq).elim (hawake q) fun hfull => hfull hdrain⟩
  · exact absurd (hpc ▸ trivial) (hawake p)

end WriteSys

open WriteSys

variable {s : WriteSys N} {buf : Bytes UART_TX_BUF_SIZE}

/-- **Console output is safe while the buffer has room**: in every run in which no byte comes to a
full buffer, `sched` does not panic, and a process that calls `sleep` has the one lock it passes. -/
theorem consolewrite_sleeps_safely (h : Reach WriteSys.step Drains (init N buf) s) :
    s.panic = none ∧ ∀ p, s.CallsSleep p → s.HoldsTxOnly p := by
  obtain ⟨hgood, hawake⟩ := h.invariant (I := fun s => s.Good ∧ ∀ q, ¬(s.pc q).inSleep)
    ⟨good_init N buf, fun _ => id⟩ fun s a s' hi hok hs => hi.1.awake_step hi.2 hok hs
  refine ⟨hgood.fine, ?_⟩
  intro p hp
  obtain ⟨a, i, c, hpc⟩ := exists_of_callsSleep hp
  exact absurd (hpc ▸ trivial) (hawake p)

def writeOf (n : ℤ) : WriteArgs := ⟨n, fun _ => some 7⟩

def putBusy (p : Fin N) : List (WriteAction N) := List.replicate 4 (.run p false)

/-- A busy UART and a write of 31 bytes, which the buffer just holds. -/
theorem consolewrite_sleeps_safely_busy : ∃ s : WriteSys 1,
    Reach WriteSys.step Drains (init 1 fun _ => 0) s ∧ (s.uart.w = 31 ∧ s.uart.r = 0) ∧
    s.panic = none ∧ ∀ p, s.CallsSleep p → s.HoldsTxOnly p := by
  have hrun : (run WriteSys.step Drains (init 1 fun _ => 0)
      ([.write 0 (writeOf 31), .run 0 false] ++ (List.replicate 31 (putBusy 0)).flatten)).map
      (fun s => (s.uart.w, s.uart.r)) = some (31, 0) := by
    decide +kernel
  obtain ⟨s, hs, hv⟩ := exists_reach_of_run hrun
  simp only [Prod.mk.injEq] at hv
  exact ⟨s, hs, hv, consolewrite_sleeps_safely hs⟩

/-- **One byte more panics**: the 32nd byte finds the buffer full, and `sleep` is called with
`cons.lock` held. -/
theorem full_ring_panics : ∃ s s' : WriteSys 1,
    Reach WriteSys.step (fun _ _ => True) (init 1 fun _ => 0) s ∧ s.CallsSleep 0 ∧
    ¬s.HoldsTxOnly 0 ∧ Reach WriteSys.step (fun _ _ => True) s s' ∧
    s'.panic = some .schedLocks := by
  have hrun : ((run WriteSys.step (fun _ _ => True) (init 1 fun _ => 0)
      ([.write 0 (writeOf 32), .run 0 false] ++ (List.replicate 31 (putBusy 0)).flatten ++
        List.replicate 3 (.run 0 false))).bind fun s =>
      (run WriteSys.step (fun _ _ => True) s (List.replicate 3 (.run 0 false))).map fun s' =>
        ((s.pc 0).callsSleep, s.panic, s'.panic)) = some (true, none, some .schedLocks) := by
    decide +kernel
  obtain ⟨s, hs, hv⟩ := Option.bind_eq_some_iff.1 hrun
  obtain ⟨s', hs', hv⟩ := Option.map_eq_some_iff.1 hv
  simp only [Prod.mk.injEq] at hv
  have hreach := reach_of_run hs
  exact ⟨s, s', hreach, hv.1, (sleep_holds_cons_lock hreach hv.2.1 hv.1).2,
    reach_of_run hs', hv.2.2⟩

end Xv6.Console
