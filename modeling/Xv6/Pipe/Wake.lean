/-
# Readers that sleep while there is something to read

A reader sleeps on `&pi->nread` when the pipe is empty and its write end open, and whoever changes
that is to wake it.  One way out of `pipewrite` does not: a writer that finds the pipe full, and the
read end closed or itself killed, returns without a wakeup, and may have filled the pipe itself.
-/

import Xv6.Pipe.Fifo

namespace Xv6

open Lib

variable {N : ℕ} {w : WriteArgs}

/-- The process is storing bytes, and all that are in the pipe are its own, or it is about
to wake the readers. -/
def PipePc.Filling (q : Pipe) : PipePc → Prop
  | .writeLoop _ i => count q.nread q.nwrite ≤ i
  | .writeFull .. => True
  | _ => False

theorem PipePc.Filling.holds {q : Pipe} {c : PipePc} (h : c.Filling q) : c.holds := by
  cases c <;> first | exact trivial | exact h.elim

/-- The process is not in a write of more than `PIPESIZE` bytes that finds the pipe full and
its reader gone or itself killed. -/
def PipePc.Patient (q : Pipe) (killed : Bool) : PipePc → Prop
  | .writeLoop w i => (i : ℤ) < w.n → q.full → q.readopen = false ∨ killed = true → w.n ≤ PIPESIZE
  | _ => True

instance (q : Pipe) (killed : Bool) : ∀ c : PipePc, Decidable (c.Patient q killed)
  | .writeLoop w i => inferInstanceAs (Decidable ((i : ℤ) < w.n → q.full →
      q.readopen = false ∨ killed = true → w.n ≤ PIPESIZE))
  | .out _ | .writeAcquire .. | .writeFull .. | .writeSleep .. | .readAcquire _
  | .readTest _ | .readEmpty _ | .readSleep _ | .readLoop .. => isTrue trivial

/-- No write of more than `PIPESIZE` bytes ends because it finds the pipe full and the read
end closed or its process killed. -/
def Patient (s : PipeSys N) : PipeAction N → Prop
  | .run p => (s.pc p).Patient s.pipe (s.killed p)
  | _ => True

instance (s : PipeSys N) : ∀ a, Decidable (Patient s a)
  | .run p => inferInstanceAs (Decidable ((s.pc p).Patient s.pipe (s.killed p)))
  | .read .. | .write .. | .close .. | .kill _ => isTrue trivial

namespace PipeSys

variable {s s' : PipeSys N} {p q : Fin N} {c : PipePc}

/-- A process is `SLEEPING` on `&pi->nread`. -/
def Asleep (s : PipeSys N) : Prop := ∃ q r, s.pc q = .readSleep r

/-- While a reader sleeps the write end is open, and the pipe is empty or the process
with the lock is still to wake the reader. -/
def Awake (s : PipeSys N) : Prop := s.Asleep → s.pipe.writeopen = true ∧
    (s.pipe.empty ∨ ∃ p, s.lock = some p ∧ (s.pc p).Filling s.pipe)

theorem awake_init (N : ℕ) (data : Bytes PIPESIZE) : (init N data).Awake := by
  rintro ⟨q, r, hq⟩
  simp [init] at hq

theorem not_asleep_wakeupNread : ¬s.wakeupNread.Asleep := by
  rintro ⟨q, r, hq⟩
  simp only [wakeupNread] at hq
  split at hq
  · cases hq
  · rename_i hne
    exact hne r hq

theorem asleep_of_wakeupNwrite (h : s.wakeupNwrite.Asleep) : s.Asleep := by
  obtain ⟨q, r, hq⟩ := h
  simp only [wakeupNwrite] at hq
  split at hq
  · cases hq
  · exact ⟨q, r, hq⟩

theorem asleep_of_goto (h : (s.goto p c).Asleep) (hc : ∀ r, c ≠ .readSleep r) : s.Asleep := by
  obtain ⟨q, r, hq⟩ := h
  by_cases hqp : q = p
  · subst hqp
    rw [goto_pc_self] at hq
    exact absurd hq (hc r)
  · rw [goto_pc_of_ne hqp] at hq
    exact ⟨q, r, hq⟩

section

variable (h : s.Awake)
include h

theorem Awake.empty_of_free (ha : s.Asleep) (hlock : s.lock = none) :
    s.pipe.writeopen = true ∧ s.pipe.empty := by
  obtain ⟨hopen, hempty | ⟨p, hp, -⟩⟩ := h ha
  · exact ⟨hopen, hempty⟩
  · rw [hlock] at hp
    cases hp

/-- Nobody fills the pipe while a process that does not has the lock. -/
theorem Awake.empty_of_locked (ha : s.Asleep) (hlock : s.lock = some p)
    (hno : ¬(s.pc p).Filling s.pipe) : s.pipe.writeopen = true ∧ s.pipe.empty := by
  obtain ⟨hopen, hempty | ⟨p', hp', hfill⟩⟩ := h ha
  · exact ⟨hopen, hempty⟩
  · rw [hlock] at hp'
    obtain rfl := Option.some.inj hp'
    exact absurd hfill hno

theorem Awake.goto_out (hp : ¬(s.pc p).holds) (hc : ∀ r, c ≠ .readSleep r) :
    (s.goto p c).Awake := by
  intro ha
  obtain ⟨hopen, hrest⟩ := h (asleep_of_goto ha hc)
  refine ⟨hopen, hrest.imp_right ?_⟩
  rintro ⟨p', hp', hfill⟩
  refine ⟨p', hp', ?_⟩
  rw [goto_pc_of_ne]
  · exact hfill
  · rintro rfl
    exact hp hfill.holds

theorem Awake.kill (p : Fin N) : (s.kill p).Awake := by
  have hs : PipeSys.Awake { s with killed := Function.update s.killed p true } := h
  simp only [PipeSys.kill]
  split <;> rename_i hpc
  · exact hs.goto_out (by rw [hpc]; exact id) (by simp)
  · exact hs.goto_out (by rw [hpc]; exact id) (by simp)
  · exact hs

theorem Awake.pipeclose (hlock : s.lock = none) (writable : Bool) :
    (s.pipeclose writable).Awake := by
  intro ha
  cases writable with
  | true => exact absurd ha not_asleep_wakeupNread
  | false =>
    obtain ⟨hopen, hempty⟩ := h.empty_of_free (asleep_of_wakeupNwrite ha) hlock
    exact ⟨hopen, .inl hempty⟩

theorem Awake.of_not_filling (hp : s.lock = some p) (hno : ¬(s.pc p).Filling s.pipe)
    (hasleep : s'.Asleep → s.Asleep) (hpipe : s'.pipe = s.pipe) : s'.Awake := by
  intro ha
  obtain ⟨hopen, hempty⟩ := h.empty_of_locked (hasleep ha) hp hno
  rw [hpipe]
  exact ⟨hopen, .inl hempty⟩

theorem Awake.put {i : ℕ} {sent : List UInt8} (hp : s.lock = some p)
    (hpc : s.pc p = .writeLoop w i) (hlt : count s.pipe.nread s.pipe.nwrite + 1 < 2 ^ 32)
    (ch : UInt8) :
    (PipeSys.goto { s with pipe := s.pipe.put ch, sent := sent } p
      (.writeLoop w (i + 1))).Awake := by
  intro ha
  obtain ⟨hopen, hrest⟩ := h (asleep_of_goto (s := s) ha (by simp))
  have hcount : count s.pipe.nread s.pipe.nwrite ≤ i := by
    rcases hrest with hempty | ⟨p', hp', hfill⟩
    · rw [count_eq_zero_iff.2 hempty]
      exact Nat.zero_le i
    · rw [hp] at hp'
      obtain rfl := Option.some.inj hp'
      rwa [hpc] at hfill
  refine ⟨hopen, .inr ⟨p, hp, ?_⟩⟩
  rw [goto_pc_self]
  exact (count_push hlt).trans_le (Nat.succ_le_succ hcount)

end

theorem Awake.of_not_asleep (h : ¬s.Asleep) : s.Awake := fun ha => absurd ha h

/-- The process with the lock is full of its own bytes, or sleepers are woken. -/
theorem Awake.not_asleep_of_full (h : s.Awake) (hp : s.lock = some p)
    (hpc : s.pc p = .writeLoop w i) (hfull : s.pipe.full) (hi : (i : ℤ) < w.n)
    (hn : w.n ≤ PIPESIZE) : ¬s.Asleep := by
  intro ha
  have hcount := (full_iff s.pipe).1 hfull
  obtain ⟨-, hempty | ⟨p', hp', hfill⟩⟩ := h ha
  · rw [count_eq_zero_iff.2 hempty] at hcount
    cases hcount
  · rw [hp] at hp'
    obtain rfl := Option.some.inj hp'
    rw [hpc, PipePc.Filling, hcount] at hfill
    omega

theorem Awake.advance (h : s.Awake) (hlocked : s.Locked) (hb : s.Bounded)
    (hpatient : (s.pc p).Patient s.pipe (s.killed p)) (hs : s.advance p (s.pc p) = some s') :
    s'.Awake := by
  have hlock {c : PipePc} (hpc : s.pc p = c) (hc : c.holds) : s.lock = some p :=
    (hlocked.mutex p).1 (hpc ▸ hc)
  have hno {c : PipePc} (hpc : s.pc p = c) (hc : ¬c.Filling s.pipe) :
      ¬(s.pc p).Filling s.pipe := hpc ▸ hc
  cases turn_of_advance hs with
  | writeAcquire _ hfree | readAcquire _ hfree =>
    intro ha
    obtain ⟨hopen, hempty⟩ := h.empty_of_free (asleep_of_goto (s := s) ha (by simp)) hfree
    exact ⟨hopen, .inl hempty⟩
  | writeGone hpc hi hfull hgone =>
    refine .of_not_asleep fun ha => ?_
    rw [hpc] at hpatient
    exact h.not_asleep_of_full (hlock hpc trivial) hpc hfull hi (hpatient hi hfull hgone)
      (asleep_of_goto ha (by simp))
  | writeFull hpc =>
    intro ha
    obtain ⟨hopen, -⟩ := h (asleep_of_goto ha (by simp))
    exact ⟨hopen, .inr ⟨p, hlock hpc trivial, by rw [goto_pc_self]; exact trivial⟩⟩
  | put hpc => exact h.put (hlock hpc trivial) hpc hb.succ_lt _
  | writeDone hpc | writeSleep hpc =>
    exact .of_not_asleep fun ha => not_asleep_wakeupNread (asleep_of_goto ha (by simp))
  | readKilled hpc | readEmpty hpc | readStart hpc =>
    exact h.of_not_filling (hlock hpc trivial) (hno hpc id) (asleep_of_goto · (by simp)) rfl
  | readSleep hpc =>
    -- the pipe is as the process found it at its test
    have ht := hlocked.tested p
    rw [hpc] at ht
    exact fun _ => ⟨ht.2, .inl ht.1⟩
  | take hpc _ hempty =>
    refine .of_not_asleep fun ha => hempty ?_
    exact (h.empty_of_locked (asleep_of_goto (s := s) ha (by simp)) (hlock hpc trivial)
      (hno hpc id)).2
  | lose hpc _ hempty =>
    refine .of_not_asleep fun ha => hempty ?_
    exact (h.empty_of_locked (asleep_of_wakeupNwrite (s := s) (asleep_of_goto ha (by simp)))
      (hlock hpc trivial) (hno hpc id)).2
  | readDone hpc =>
    exact h.of_not_filling (hlock hpc trivial) (hno hpc id)
      (fun ha => asleep_of_wakeupNwrite (asleep_of_goto ha (by simp))) rfl

theorem Awake.step (h : s.Awake) (hlocked : s.Locked) (hb : s.Bounded)
    (hpatient : Patient s a) (hs : s.step a = some s') : s'.Awake := by
  cases step_cases hs with
  | read hpc | write hpc => exact h.goto_out (by rw [hpc]; exact id) (by simp)
  | close hlock => exact h.pipeclose hlock _
  | kill p => exact h.kill p
  | run hs => exact h.advance hlocked hb hpatient hs

end PipeSys

/-- **No reader sleeps on available data**, in any run of reads, writes, closes and kills in
which no write of more than `PIPESIZE` bytes is cut short on a full pipe: whenever
`pi->lock` is free, a process that is `SLEEPING` on `&pi->nread` sleeps on an empty pipe
whose write end is open. -/
theorem no_reader_oversleeps {data : Bytes PIPESIZE} {s : PipeSys N}
    (h : Reach PipeSys.step Patient (PipeSys.init N data) s) (hlock : s.lock = none)
    {p : Fin N} {r : ReadArgs} (hp : s.pc p = .readSleep r) :
    s.pipe.nread = s.pipe.nwrite ∧ s.pipe.writeopen = true := by
  obtain ⟨-, -, hawake⟩ : s.Locked ∧ s.Bounded ∧ s.Awake :=
    h.invariant (I := fun s => s.Locked ∧ s.Bounded ∧ s.Awake)
      ⟨PipeSys.locked_init N data, PipeSys.bounded_init N data, PipeSys.awake_init N data⟩
      fun _ _ _ hi hok hs => ⟨hi.1.step hs, hi.2.1.step hs, hi.2.2.step hi.1 hi.2.1 hok hs⟩
  obtain ⟨hopen, hempty⟩ := hawake.empty_of_free ⟨p, r, hp⟩ hlock
  exact ⟨hempty, hopen⟩

/-- Process `r` reads from the empty pipe and sleeps; process `w` writes one byte more than
the pipe holds, and is killed on the way. -/
def killedTalk (r w : Fin N) : List (PipeAction N) :=
  [.read r ⟨1, fun _ => true⟩, .run r, .run r, .run r,
    .write w ⟨PIPESIZE + 1, fun _ => some 7⟩, .run w] ++
    List.replicate PIPESIZE (.run w) ++ [.kill w, .run w]

def PipePc.readSleeps : PipePc → Bool
  | .readSleep _ => true
  | _ => false

/-- **A killed writer wakes nobody.**  The lock is free, `PIPESIZE` bytes are in the pipe,
and the reader sleeps. -/
theorem killed_writer_wakes_nobody : ∃ s, Reach PipeSys.step (fun _ _ => True)
    (PipeSys.init 3 fun _ => 0) s ∧ s.lock = none ∧ (s.pc 0).readSleeps = true ∧
    s.pipe.nread ≠ s.pipe.nwrite := by
  have hrun : (run PipeSys.step (fun _ _ => True) (PipeSys.init 3 fun _ => 0) (killedTalk 0 1)).map
      (fun s => (s.lock, (s.pc 0).readSleeps, decide (s.pipe.nread = s.pipe.nwrite))) =
      some (none, true, false) := by decide +kernel
  obtain ⟨s, hs, hv⟩ := exists_reach_of_run hrun
  simp only [Prod.mk.injEq, decide_eq_false_iff_not] at hv
  exact ⟨s, hs, hv.1, hv.2.1, hv.2.2⟩

/-- Process 1 has written a byte and process 0 has read it; now 0 sleeps. -/
theorem no_reader_oversleeps_again : ∃ s, Reach PipeSys.step Patient (PipeSys.init 2 fun _ => 0) s ∧
    (s.lock = none ∧ s.pc 0 = .readSleep ⟨1, fun _ => true⟩) ∧ s.pipe.nread = 1 ∧
    s.pipe.nread = s.pipe.nwrite ∧ s.pipe.writeopen = true := by
  have hrun : ∃ s, run PipeSys.step Patient (PipeSys.init 2 fun _ => 0)
      [.write 1 ⟨1, fun _ => some 7⟩, .run 1, .run 1, .run 1, .read 0 ⟨1, fun _ => true⟩, .run 0,
      .run 0, .run 0, .run 0, .read 0 ⟨1, fun _ => true⟩, .run 0, .run 0, .run 0] = some s ∧
      s.lock = none ∧ s.pc 0 = .readSleep ⟨1, fun _ => true⟩ ∧ s.pipe.nread = 1 :=
        ⟨_, rfl, rfl, rfl, rfl⟩
  obtain ⟨s, hs, hlock, hpc, hread⟩ := hrun
  exact ⟨s, reach_of_run hs, ⟨hlock, hpc⟩, hread, no_reader_oversleeps (reach_of_run hs) hlock hpc⟩

end Xv6
