/-
# Writers never sleep on free space

A writer sleeps on `&pi->nwrite` when the pipe is full and its read end open.  Every way out of the
loop of `piperead` comes to `wakeup(&pi->nwrite)` before `pi->lock` is released, so while a writer
sleeps the pipe is full or the process with the lock is a reader in its loop (`Blocked`).
-/

import Xv6.Pipe.Fifo

namespace Xv6

open Lib

variable {N : ℕ}

namespace PipeSys

variable {s s' : PipeSys N} {p q : Fin N} {c : PipePc}

/-- A process is `SLEEPING` on `&pi->nwrite`. -/
def WriterAsleep (s : PipeSys N) : Prop := ∃ q w i, s.pc q = .writeSleep w i

def Draining (s : PipeSys N) : Prop := ∃ p r i, s.lock = some p ∧ s.pc p = .readLoop r i

/-- A writer that is about to sleep has found the pipe full and its read end open, and while
one sleeps that is so, or a reader is still to wake it. -/
structure Blocked (s : PipeSys N) : Prop where
  found : ∀ p w i, s.pc p = .writeFull w i → s.pipe.full ∧ s.pipe.readopen = true
  sleep : s.WriterAsleep → s.pipe.readopen = true ∧ (s.pipe.full ∨ s.Draining)

theorem blocked_init (N : ℕ) (data : Bytes PIPESIZE) : (init N data).Blocked where
  found p w i h := by cases h
  sleep := by
    rintro ⟨q, w, i, hq⟩
    cases hq

theorem writerAsleep_of_goto (h : (s.goto p c).WriterAsleep) (hc : ∀ w i, c ≠ .writeSleep w i) :
    s.WriterAsleep := by
  obtain ⟨q, w, i, hq⟩ := h
  by_cases hqp : q = p
  · subst hqp
    rw [goto_pc_self] at hq
    exact absurd hq (hc w i)
  · rw [goto_pc_of_ne hqp] at hq
    exact ⟨q, w, i, hq⟩

theorem writerAsleep_of_wakeupNread (h : s.wakeupNread.WriterAsleep) : s.WriterAsleep := by
  obtain ⟨q, w, i, hq⟩ := h
  simp only [wakeupNread] at hq
  split at hq
  · cases hq
  · exact ⟨q, w, i, hq⟩

theorem not_writerAsleep_wakeupNwrite : ¬s.wakeupNwrite.WriterAsleep := by
  rintro ⟨q, w, i, hq⟩
  simp only [wakeupNwrite] at hq
  split at hq
  · cases hq
  · rename_i hne
    exact hne w i hq

/-- While the lock is free, or its holder is not in the loop of `piperead`, the pipe of a sleeping
writer is full. -/
theorem Blocked.full_of_not_draining (h : s.Blocked) (hno : ¬s.Draining) (ha : s.WriterAsleep) :
    s.pipe.full ∧ s.pipe.readopen = true := by
  obtain ⟨hopen, hfull | hdrain⟩ := h.sleep ha
  · exact ⟨hfull, hopen⟩
  · exact absurd hdrain hno

theorem not_draining (hlock : s.lock = none ∨ s.lock = some p)
    (hpc : ∀ r i, s.pc p ≠ .readLoop r i) : ¬s.Draining := by
  rintro ⟨q, r, i, hq, hr⟩
  rcases hlock with hlock | hlock <;> rw [hlock] at hq
  · cases hq
  · obtain rfl := Option.some.inj hq
    exact hpc r i hr

theorem not_draining_of_free (hlock : s.lock = none) : ¬s.Draining := by
  rintro ⟨p, r, i, hp, -⟩
  rw [hlock] at hp
  cases hp

theorem Blocked.goto_out (h : s.Blocked) (hp : ¬(s.pc p).holds) (hc : ¬c.holds)
    (hs : ∀ w i, c ≠ .writeSleep w i) : (s.goto p c).Blocked where
  found q w i hq := by
    by_cases hqp : q = p
    · subst hqp
      rw [goto_pc_self] at hq
      subst hq
      exact absurd trivial hc
    · rw [goto_pc_of_ne hqp] at hq
      exact h.found q w i hq
  sleep ha := by
    obtain ⟨hopen, hrest⟩ := h.sleep (writerAsleep_of_goto ha hs)
    refine ⟨hopen, hrest.imp_right ?_⟩
    rintro ⟨q, r, i, hq, hr⟩
    refine ⟨q, r, i, hq, ?_⟩
    rw [goto_pc_of_ne, hr]
    rintro rfl
    rw [hr] at hp
    exact hp trivial

theorem Blocked.of_holder (hlocked : s.Locked) (hlock : s.lock = none ∨ s.lock = some p)
    (hsame : ∀ q ≠ p, (s'.pc q).holds ↔ (s.pc q).holds)
    (hfound : ∀ w i, s'.pc p = .writeFull w i → s'.pipe.full ∧ s'.pipe.readopen = true)
    (hsleep : s'.WriterAsleep → s'.pipe.readopen = true ∧ (s'.pipe.full ∨ s'.Draining)) :
    s'.Blocked where
  found q w i hq := by
    by_cases hqp : q = p
    · subst hqp
      exact hfound w i hq
    · refine absurd ((hsame q hqp).1 ?_) (hlocked.not_holds hlock hqp)
      rw [hq]
      trivial
  sleep := hsleep

theorem Blocked.kill (h : s.Blocked) (p : Fin N) : (s.kill p).Blocked := by
  have hs : PipeSys.Blocked { s with killed := Function.update s.killed p true } :=
    ⟨h.found, h.sleep⟩
  simp only [PipeSys.kill]
  split
  · rename_i hpc
    exact hs.goto_out (by rw [hpc]; exact id) id (by simp)
  · rename_i hpc
    exact hs.goto_out (by rw [hpc]; exact id) id (by simp)
  · exact hs

theorem Blocked.pipeclose (h : s.Blocked) (hlocked : s.Locked) (hlock : s.lock = none)
    (writable : Bool) : (s.pipeclose writable).Blocked := by
  have hout : ∀ q, ¬(s.pc q).holds := fun q hq => by
    rw [(hlocked.mutex q).1 hq] at hlock
    cases hlock
  cases writable with
  | true =>
    refine ⟨fun q w i hq => absurd ?_ (hout q), fun ha => ?_⟩
    · have hholds : ((s.wakeupNread).pc q).holds := by
        rw [show s.wakeupNread.pc q = .writeFull w i from hq]
        trivial
      exact holds_wakeupNread.1 hholds
    · obtain ⟨hfull, hopen⟩ := h.full_of_not_draining (not_draining_of_free hlock)
        (writerAsleep_of_wakeupNread (s := s) ha)
      exact ⟨hopen, .inl hfull⟩
  | false =>
    refine ⟨fun q w i hq => absurd ?_ (hout q), fun ha => absurd ha not_writerAsleep_wakeupNwrite⟩
    have hholds : ((s.wakeupNwrite).pc q).holds := by
      rw [show s.wakeupNwrite.pc q = .writeFull w i from hq]
      trivial
    exact holds_wakeupNwrite.1 hholds

section

variable (h : s.Blocked) (hlocked : s.Locked) (hlock : s.lock = none ∨ s.lock = some p)
include h hlocked hlock

/-- A process outside the loop of `piperead` goes on and leaves the pipe as it is. -/
theorem Blocked.of_not_draining (hno : ∀ r i, s.pc p ≠ .readLoop r i)
    (hsame : ∀ q ≠ p, (s'.pc q).holds ↔ (s.pc q).holds)
    (hfound : ∀ w i, s'.pc p = .writeFull w i → s.pipe.full ∧ s.pipe.readopen = true)
    (hasleep : s'.WriterAsleep → s.WriterAsleep) (hpipe : s'.pipe = s.pipe) : s'.Blocked := by
  refine of_holder hlocked hlock hsame (fun w i hp => ?_) fun ha => ?_
  · rw [hpipe]
    exact hfound w i hp
  · obtain ⟨hfull, hopen⟩ := h.full_of_not_draining (not_draining hlock hno) (hasleep ha)
    rw [hpipe]
    exact ⟨hopen, .inl hfull⟩

omit h in
theorem Blocked.readDone {pipe : Pipe} (i : ℕ) :
    (PipeSys.readDone { s with pipe } p i).Blocked := by
  refine of_holder hlocked hlock (fun q hq => ?_) (fun w j hp => ?_) fun ha => ?_
  · rw [PipeSys.readDone, leave_pc_of_ne hq, holds_wakeupNwrite]
  · rw [PipeSys.readDone, leave_pc_self] at hp
    cases hp
  · exact absurd (writerAsleep_of_goto ha (by simp)) not_writerAsleep_wakeupNwrite

end

theorem Blocked.advance (h : s.Blocked) (hlocked : s.Locked) (hs : s.advance p (s.pc p) = some s') :
    s'.Blocked := by
  have hlock {c : PipePc} (hpc : s.pc p = c) (hc : c.holds) : s.lock = none ∨ s.lock = some p :=
    .inr ((hlocked.mutex p).1 (hpc ▸ hc))
  cases turn_of_advance hs with
  | writeAcquire hpc hfree | readAcquire hpc hfree =>
    exact h.of_not_draining (p := p) hlocked (.inl hfree) (by simp [hpc]) (fun q hq => by
      simp [hq]) (by simp)
      (writerAsleep_of_goto (s := s) · (by simp)) rfl
  | writeGone hpc | readKilled hpc | readStart hpc | readEmpty hpc | readSleep hpc =>
    exact h.of_not_draining hlocked (hlock hpc trivial) (by simp [hpc]) (fun q hq => by
      simp [hq]) (by simp)
      (writerAsleep_of_goto · (by simp)) rfl
  | writeFull hpc hfull hopen =>
    exact h.of_not_draining hlocked (hlock hpc trivial) (by simp [hpc]) (fun q hq => by simp [hq])
      (fun _ _ _ => ⟨hfull, hopen⟩) (writerAsleep_of_goto · (by simp)) rfl
  | writeDone hpc =>
    exact h.of_not_draining hlocked (hlock hpc trivial) (by simp [hpc]) (fun q hq => by
      simp [PipeSys.writeDone, hq])
      (by simp [PipeSys.writeDone])
        (fun ha => writerAsleep_of_wakeupNread (writerAsleep_of_goto ha (by simp))) rfl
  | put hpc hfull =>
    -- there is room for the byte, so no writer sleeps
    refine of_holder hlocked (hlock hpc trivial) (fun q hq => by simp [hq]) (by simp) fun ha =>
      absurd ?_ hfull
    exact (h.full_of_not_draining (not_draining (hlock hpc trivial) (by simp [hpc]))
      (writerAsleep_of_goto (s := s) ha (by simp))).1
  | writeSleep hpc =>
    -- the pipe is as the writer found it at its test
    obtain ⟨hfull, hopen⟩ := h.found p _ _ hpc
    exact of_holder hlocked (hlock hpc trivial) (fun q hq => by simp [hq]) (by simp) fun _ =>
      ⟨hopen, .inl hfull⟩
  | @take r i hpc =>
    -- a byte is taken, and the reader is still to call `wakeup`
    refine of_holder hlocked (hlock hpc trivial) (fun q hq => by simp [hq]) (by simp) fun ha => ?_
    obtain ⟨hopen, -⟩ := h.sleep (writerAsleep_of_goto (s := s) ha (by simp))
    exact ⟨hopen, .inr ⟨p, r, i + 1, (hlocked.mutex p).1 (hpc ▸ trivial), goto_pc_self⟩⟩
  | lose hpc | readDone hpc => exact Blocked.readDone hlocked (hlock hpc trivial) _

theorem Blocked.step (h : s.Blocked) (hlocked : s.Locked) (hs : s.step a = some s') :
    s'.Blocked := by
  cases step_cases hs with
  | read hpc | write hpc => exact h.goto_out (by rw [hpc]; exact id) id (by simp)
  | close hlock => exact h.pipeclose hlocked hlock _
  | kill p => exact h.kill p
  | run hs => exact h.advance hlocked hs

end PipeSys

/-- **No writer sleeps on free space**, in any run of reads, writes, closes and kills: whenever
`pi->lock` is free, a process that is `SLEEPING` on `&pi->nwrite` sleeps on a full pipe
whose read end is open. -/
theorem no_writer_oversleeps {data : Bytes PIPESIZE} {s : PipeSys N}
    (h : Reach PipeSys.step (fun _ _ => True) (PipeSys.init N data) s) (hlock : s.lock = none)
    {p : Fin N} {w : WriteArgs} {i : ℕ} (hp : s.pc p = .writeSleep w i) :
    s.pipe.nwrite = s.pipe.nread + UInt32.ofNat PIPESIZE ∧ s.pipe.readopen = true := by
  obtain ⟨-, hblocked⟩ : s.Locked ∧ s.Blocked := h.invariant (I := fun s => s.Locked ∧ s.Blocked)
      ⟨PipeSys.locked_init N data, PipeSys.blocked_init N data⟩
      fun _ _ _ hi _ hs => ⟨hi.1.step hs, hi.2.step hi.1 hs⟩
  exact hblocked.full_of_not_draining (PipeSys.not_draining_of_free hlock) ⟨p, w, i, hp⟩

def PipePc.writeSleeps : PipePc → Bool
  | .writeSleep .. => true
  | _ => false

theorem PipePc.exists_of_writeSleeps {c : PipePc} (h : c.writeSleeps = true) :
    ∃ w i, c = .writeSleep w i := by
  cases c with
  | writeSleep w i => exact ⟨w, i, rfl⟩
  | _ => cases h

theorem no_writer_oversleeps_alone :
    ∃ s w i, Reach PipeSys.step (fun _ _ => True) (PipeSys.init 1 fun _ => 0) s ∧
    (s.lock = none ∧ s.pc 0 = .writeSleep w i) ∧
    s.pipe.nwrite = s.pipe.nread + UInt32.ofNat PIPESIZE ∧ s.pipe.readopen = true := by
  have hrun : (run PipeSys.step (fun _ _ => True) (PipeSys.init 1 fun _ => 0)
      ([.write 0 ⟨PIPESIZE + 1, fun _ => some 7⟩, .run 0] ++ List.replicate PIPESIZE (.run 0) ++
        [.run 0, .run 0])).map (fun s => (s.lock, (s.pc 0).writeSleeps)) = some (none, true) := by
    decide +kernel
  obtain ⟨s, hs, hv⟩ := exists_reach_of_run hrun
  simp only [Prod.mk.injEq] at hv
  obtain ⟨w, i, hpc⟩ := PipePc.exists_of_writeSleeps hv.2
  exact ⟨s, w, i, hs, ⟨hv.1, hpc⟩, no_writer_oversleeps hs hv.1 hpc⟩

end Xv6
