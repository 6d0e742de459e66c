/-
# A pipe is a lossless queue

A process between `acquire` and `release` is the one that has `pi->lock` (`Locked`).  The bytes that
went in are the bytes that came out followed by the bytes in the pipe (`Lossless`), since the test
for a full pipe is right on 32-bit counters that have wrapped.
-/

import Xv6.Pipe.Run

namespace Xv6

open Lib Function

variable {N : ℕ}

/-! ### Who has the lock -/

/-- What a process has found out about the pipe and relies on. -/
def PipePc.Tested (q : Pipe) : PipePc → Prop
  | .readEmpty _ => q.empty ∧ q.writeopen = true
  | .readLoop _ 0 => ¬(q.empty ∧ q.writeopen = true)
  | _ => True

theorem PipePc.tested_of_not_holds {q : Pipe} {c : PipePc} (h : ¬c.holds) : c.Tested q := by
  cases c <;> first | trivial | exact absurd trivial h

namespace PipeSys

variable {s s' : PipeSys N} {p q : Fin N} {c : PipePc}

@[simp] theorem goto_pc_self : (s.goto p c).pc p = c := update_self ..

@[simp] theorem goto_pc_of_ne (h : q ≠ p) : (s.goto p c).pc q = s.pc q := update_of_ne h ..

@[simp] theorem goto_pipe : (s.goto p c).pipe = s.pipe := rfl

@[simp] theorem goto_lock : (s.goto p c).lock = s.lock := rfl

@[simp] theorem leave_pc_self : (s.leave p c).pc p = c := goto_pc_self

@[simp] theorem leave_pc_of_ne (h : q ≠ p) : (s.leave p c).pc q = s.pc q := goto_pc_of_ne h

@[simp] theorem leave_pipe : (s.leave p c).pipe = s.pipe := rfl

@[simp] theorem leave_lock : (s.leave p c).lock = none := rfl

@[simp] theorem holds_wakeupNread : ((s.wakeupNread).pc q).holds ↔ (s.pc q).holds := by
  simp only [wakeupNread]
  split <;> simp_all [PipePc.holds]

@[simp] theorem holds_wakeupNwrite : ((s.wakeupNwrite).pc q).holds ↔ (s.pc q).holds := by
  simp only [wakeupNwrite]
  split <;> simp_all [PipePc.holds]

inductive Turn (s : PipeSys N) (p : Fin N) : PipeSys N → Prop
  | writeAcquire {w i} : s.pc p = .writeAcquire w i → s.lock = none →
      Turn s p (PipeSys.goto { s with lock := some p } p (.writeLoop w i))
  | writeGone {w i} : s.pc p = .writeLoop w i → (i : ℤ) < w.n → s.pipe.full →
      s.pipe.readopen = false ∨ s.killed p = true → Turn s p (s.leave p (.out (some (-1))))
  | writeFull {w i} : s.pc p = .writeLoop w i → s.pipe.full → s.pipe.readopen = true →
      Turn s p (s.goto p (.writeFull w i))
  | put {w i ch} : s.pc p = .writeLoop w i → ¬s.pipe.full →
      Turn s p
        (PipeSys.goto { s with pipe := s.pipe.put ch, sent := s.sent ++ [ch] } p
          (.writeLoop w (i + 1)))
  | writeDone {w i} : s.pc p = .writeLoop w i → Turn s p (s.writeDone p i)
  | writeSleep {w i} : s.pc p = .writeFull w i → Turn s p (s.wakeupNread.leave p (.writeSleep w i))
  | readAcquire {r} : s.pc p = .readAcquire r → s.lock = none →
      Turn s p (PipeSys.goto { s with lock := some p } p (.readTest r))
  | readKilled {r} : s.pc p = .readTest r → Turn s p (s.leave p (.out (some (-1))))
  | readEmpty {r} : s.pc p = .readTest r → s.pipe.empty ∧ s.pipe.writeopen = true →
    Turn s p (s.goto p (.readEmpty r))
  | readStart {r} : s.pc p = .readTest r → ¬(s.pipe.empty ∧ s.pipe.writeopen = true) →
      Turn s p (s.goto p (.readLoop r 0))
  | readSleep {r} : s.pc p = .readEmpty r → Turn s p (s.leave p (.readSleep r))
  | take {r i} : s.pc p = .readLoop r i → (i : ℤ) < r.n → ¬s.pipe.empty → r.copyout i = true →
      Turn s p (PipeSys.goto { s with pipe := s.pipe.take.2, got := s.got ++ [s.pipe.take.1] } p
        (.readLoop r (i + 1)))
  | lose {r i} : s.pc p = .readLoop r i → (i : ℤ) < r.n → ¬s.pipe.empty → ¬r.copyout i = true →
      Turn s p (PipeSys.readDone { s with pipe := s.pipe.take.2 } p i)
  | readDone {r i} : s.pc p = .readLoop r i → ((i : ℤ) < r.n → s.pipe.empty) →
    Turn s p (s.readDone p i)

theorem turn_of_advance (hs : s.advance p (s.pc p) = some s') : Turn s p s' := by
  cases hpc : s.pc p with
  | out v | writeSleep w i | readSleep r =>
    rw [hpc] at hs
    cases hs
  | writeAcquire w i | readAcquire r =>
    rw [hpc] at hs
    simp only [advance, acquire] at hs
    split at hs
    · rename_i hlock
      cases hs
      first | exact .writeAcquire hpc hlock | exact .readAcquire hpc hlock
    · cases hs
  | writeLoop w i =>
    rw [hpc] at hs
    cases hs
    unfold writeLoop
    split_ifs with hi hfull hgone
    · exact .writeGone hpc hi hfull hgone
    · exact .writeFull hpc hfull (Bool.eq_true_of_not_eq_false fun hclosed => hgone (.inl hclosed))
    · split
      · exact .writeDone hpc
      · exact .put hpc hfull
    · exact .writeDone hpc
  | writeFull w i =>
    rw [hpc] at hs
    cases hs
    exact .writeSleep hpc
  | readTest r =>
    rw [hpc] at hs
    cases hs
    unfold readTest
    split_ifs with hempty
    · exact .readKilled hpc
    · exact .readEmpty hpc hempty
    · exact .readStart hpc hempty
  | readEmpty r =>
    rw [hpc] at hs
    cases hs
    exact .readSleep hpc
  | readLoop r i =>
    rw [hpc] at hs
    cases hs
    unfold readLoop
    split_ifs with hi hempty hcopy
    · exact .readDone hpc fun _ => hempty
    · exact .take hpc hi hempty hcopy
    · exact .lose hpc hi hempty hcopy
    · exact .readDone hpc fun hlt => absurd hlt hi

inductive Step (s : PipeSys N) : PipeAction N → PipeSys N → Prop
  | read {p : Fin N} {v r} : s.pc p = .out v → Step s (.read p r) (s.goto p (.readAcquire r))
  | write {p : Fin N} {v w} : s.pc p = .out v →
      Step s (.write p w) (s.goto p (.writeAcquire w 0))
  | close {p : Fin N} {v writable} : s.lock = none → s.pc p = .out v →
      Step s (.close p writable) (s.pipeclose writable)
  | kill (p : Fin N) : Step s (.kill p) (s.kill p)
  | run {p : Fin N} {t} : s.advance p (s.pc p) = some t → Step s (.run p) t

theorem step_cases {a : PipeAction N} (hs : s.step a = some s') : Step s a s' := by
  cases a with
  | kill p =>
    cases hs
    exact .kill p
  | run p => exact .run hs
  | read p r | write p w | close p writable =>
    simp only [PipeSys.step] at hs
    split at hs <;> cases hs
    constructor <;> assumption

/-- The lock of the pipe does its work. -/
structure Locked (s : PipeSys N) : Prop where
  mutex : ∀ p, (s.pc p).holds ↔ s.lock = some p
  tested : ∀ p, (s.pc p).Tested s.pipe

theorem Locked.not_holds (h : s.Locked) (hp : s.lock = none ∨ s.lock = some p) (hq : q ≠ p) :
    ¬(s.pc q).holds := by
  intro hc
  have hlock := (h.mutex q).1 hc
  rcases hp with hp | hp <;> rw [hlock] at hp
  · cases hp
  · exact hq (Option.some.inj hp)

theorem Locked.of_others (hq : ∀ q ≠ p, ¬(s'.pc q).holds)
    (hlock : s'.lock = none ∨ s'.lock = some p) (hp : (s'.pc p).holds ↔ s'.lock = some p)
    (ht : (s'.pc p).Tested s'.pipe) : s'.Locked where
  mutex q := by
    by_cases hqp : q = p
    · exact hqp ▸ hp
    · refine iff_of_false (hq q hqp) fun he => ?_
      rcases hlock with hlock | hlock <;> rw [hlock] at he
      · cases he
      · exact hqp (Option.some.inj he).symm
  tested q := by
    by_cases hqp : q = p
    · exact hqp ▸ ht
    · exact PipePc.tested_of_not_holds (hq q hqp)

theorem Locked.of_same (h : s.Locked) (hpipe : s'.pipe = s.pipe) (hlock : s'.lock = s.lock)
    (hpc : ∀ q, s'.pc q = s.pc q ∨ ¬(s'.pc q).holds ∧ ¬(s.pc q).holds) : s'.Locked where
  mutex q := by
    rw [hlock, ← h.mutex q]
    rcases hpc q with hq | ⟨hq', hq⟩
    · rw [hq]
    · exact iff_of_false hq' hq
  tested q := by
    rw [hpipe]
    rcases hpc q with hq | ⟨hq', -⟩
    · exact hq ▸ h.tested q
    · exact PipePc.tested_of_not_holds hq'

theorem locked_init (N : ℕ) (data : Bytes PIPESIZE) : (init N data).Locked where
  mutex _ := iff_of_false id (by simp [init])
  tested _ := trivial

section

variable (h : s.Locked)
include h

theorem Locked.goto_out (hp : ¬(s.pc p).holds) (hc : ¬c.holds) : (s.goto p c).Locked := by
  refine h.of_same rfl rfl fun q => ?_
  by_cases hq : q = p
  · subst hq
    exact .inr ⟨by rwa [goto_pc_self], hp⟩
  · exact .inl (goto_pc_of_ne hq)

theorem Locked.kill (p : Fin N) : (s.kill p).Locked := by
  have hs : PipeSys.Locked { s with killed := update s.killed p true } := ⟨h.mutex, h.tested⟩
  simp only [PipeSys.kill]
  split <;> rename_i hpc
  · exact hs.goto_out (by rw [hpc]; exact id) id
  · exact hs.goto_out (by rw [hpc]; exact id) id
  · exact hs

theorem Locked.pipeclose (hlock : s.lock = none) (writable : Bool) :
    (s.pipeclose writable).Locked := by
  -- nobody is under the lock, before or after
  have hout : ∀ q, ¬(s.pc q).holds := fun q hq => by
    have := (h.mutex q).1 hq
    rw [hlock] at this
    cases this
  have hlock' : (s.pipeclose writable).lock = none := by
    cases writable <;> exact hlock
  have hout' : ∀ q, ¬((s.pipeclose writable).pc q).holds := fun q => by
    cases writable <;> simpa [PipeSys.pipeclose] using hout q
  exact ⟨fun q => iff_of_false (hout' q) (by rw [hlock']; simp),
    fun q => PipePc.tested_of_not_holds (hout' q)⟩

theorem Locked.acquire (hlock : s.lock = none) (hc : c.holds) (ht : c.Tested s.pipe) :
    (PipeSys.goto { s with lock := some p } p c).Locked := by
  refine Locked.of_others (fun q hq => ?_) (.inr rfl) (by simp [hc]) (by simpa using ht)
  simpa [hq] using h.not_holds (.inl hlock) hq

theorem Locked.goto_in (hp : s.lock = some p) (hc : c.holds) {pipe : Pipe}
    {sent got : List UInt8} (ht : c.Tested pipe) :
    (PipeSys.goto { s with pipe := pipe, sent := sent, got := got } p c).Locked := by
  refine Locked.of_others (fun q hq => ?_) (.inr hp) (by simp [hc, hp]) (by simpa using ht)
  simpa [hq] using h.not_holds (.inr hp) hq

/-- The process with the lock releases it, and may have woken sleepers before. -/
theorem Locked.leave (hp : s.lock = some p) (hc : ¬c.holds)
    (hs : ∀ q, (s'.pc q).holds ↔ (s.pc q).holds) : (s'.leave p c).Locked := by
  refine Locked.of_others (p := p) (fun q hq => ?_) (.inl rfl) (by simp [hc])
    (PipePc.tested_of_not_holds (by simpa using hc))
  simpa [hq, hs] using h.not_holds (.inr hp) hq

theorem Locked.advance (hs : s.advance p (s.pc p) = some s') : s'.Locked := by
  have hlock {c : PipePc} (hpc : s.pc p = c) (hc : c.holds) : s.lock = some p :=
    (h.mutex p).1 (hpc ▸ hc)
  cases turn_of_advance hs with
  | writeAcquire _ hfree | readAcquire _ hfree => exact h.acquire hfree trivial trivial
  | writeGone hpc | readKilled hpc | readSleep hpc =>
    exact h.leave (hlock hpc trivial) id fun _ => Iff.rfl
  | writeDone hpc | writeSleep hpc =>
    exact h.leave (hlock hpc trivial) id fun _ => holds_wakeupNread
  | lose hpc | readDone hpc => exact h.leave (hlock hpc trivial) id fun _ => holds_wakeupNwrite
  | writeFull hpc | put hpc | take hpc =>
    exact h.goto_in (hlock hpc trivial) (by trivial) (by trivial)
  | readEmpty hpc ht | readStart hpc ht => exact h.goto_in (hlock hpc trivial) (by trivial) ht

theorem Locked.step {a : PipeAction N} (hs : s.step a = some s') : s'.Locked := by
  cases step_cases hs with
  | read hpc | write hpc => exact h.goto_out (by rw [hpc]; exact id) id
  | close hlock => exact h.pipeclose hlock _
  | kill p => exact h.kill p
  | run hs => exact h.advance hs

end

end PipeSys

/-! ### What went in and what came out -/

/-- The process is not at a `copyout` that fails. -/
def PipePc.CopyoutValid : PipePc → Prop
  | .readLoop r i => (i : ℤ) < r.n → r.copyout i = true
  | _ => True

instance : ∀ c : PipePc, Decidable c.CopyoutValid
  | .readLoop r i => inferInstanceAs (Decidable ((i : ℤ) < r.n → r.copyout i = true))
  | .out _ | .writeAcquire .. | .writeLoop .. | .writeFull .. | .writeSleep .. | .readAcquire _
  | .readTest _ | .readEmpty _ | .readSleep _ => isTrue trivial

/-- The user pages that reads store to are valid: no `copyout` fails. -/
def PagesValid (s : PipeSys N) : PipeAction N → Prop
  | .run p => (s.pc p).CopyoutValid
  | _ => True

instance (s : PipeSys N) : ∀ a, Decidable (PagesValid s a)
  | .run p => inferInstanceAs (Decidable (s.pc p).CopyoutValid)
  | .read .. | .write .. | .close .. | .kill _ => isTrue trivial

namespace PipeSys

variable {s s' : PipeSys N} {p : Fin N} {a : PipeAction N}

/-- What a step can do to the bytes: nothing, store one behind the last, or take the first,
which reaches the reader if the user page is `valid`. -/
inductive Moved (valid : Prop) (s s' : PipeSys N) : Prop
  | same (data : s'.pipe.data = s.pipe.data) (nread : s'.pipe.nread = s.pipe.nread)
      (nwrite : s'.pipe.nwrite = s.pipe.nwrite) (sent : s'.sent = s.sent) (got : s'.got = s.got)
  | put (ch : UInt8) (full : ¬s.pipe.full) (pipe : s'.pipe = s.pipe.put ch)
      (sent : s'.sent = s.sent ++ [ch]) (got : s'.got = s.got)
  | take (empty : ¬s.pipe.empty) (pipe : s'.pipe = s.pipe.take.2) (sent : s'.sent = s.sent)
      (got : valid → s'.got = s.got ++ [s.pipe.take.1])

theorem moved_advance (hs : s.advance p (s.pc p) = some s') : Moved (s.pc p).CopyoutValid s s' := by
  cases turn_of_advance hs with
  | put _ hfull => exact .put _ hfull rfl rfl rfl
  | take _ _ hempty _ => exact .take hempty rfl rfl fun _ => rfl
  | lose hpc hi hempty hcopy =>
    refine .take hempty rfl rfl fun hvalid => ?_
    rw [hpc] at hvalid
    exact absurd (hvalid hi) hcopy
  | _ => exact .same rfl rfl rfl rfl rfl

theorem moved_step (hs : s.step a = some s') : Moved (PagesValid s a) s s' := by
  cases step_cases hs with
  | read | write => exact .same rfl rfl rfl rfl rfl
  | @close _ _ writable => cases writable <;> exact .same rfl rfl rfl rfl rfl
  | kill p =>
    simp only [PipeSys.kill]
    split <;> exact .same rfl rfl rfl rfl rfl
  | run hs => exact moved_advance hs

theorem PIPESIZE_dvd : PIPESIZE ∣ 2 ^ 32 := ⟨2 ^ 23, by norm_num⟩

theorem PIPESIZE_lt : PIPESIZE < 2 ^ 32 := by norm_num

theorem full_iff (q : Pipe) : q.full ↔ count q.nread q.nwrite = PIPESIZE :=
  eq_add_iff_count PIPESIZE_lt

def Bounded (s : PipeSys N) : Prop := count s.pipe.nread s.pipe.nwrite ≤ PIPESIZE

theorem bounded_init (N : ℕ) (data : Bytes PIPESIZE) : (init N data).Bounded := by
  simp [Bounded, init]

theorem Bounded.lt (h : s.Bounded) (hfull : ¬s.pipe.full) :
    count s.pipe.nread s.pipe.nwrite < PIPESIZE :=
  lt_of_le_of_ne h fun he => hfull ((full_iff _).2 he)

theorem Bounded.succ_lt (h : s.Bounded) : count s.pipe.nread s.pipe.nwrite + 1 < 2 ^ 32 := by
  simp only [Bounded, PIPESIZE] at h
  omega

theorem Bounded.step (h : s.Bounded) (hs : s.step a = some s') : s'.Bounded := by
  cases moved_step hs with
  | same _ hread hwrite _ _ =>
    rw [Bounded, hread, hwrite]
    exact h
  | put ch hfull hpipe _ _ =>
    rw [Bounded, hpipe]
    exact (count_push h.succ_lt).trans_le (h.lt hfull)
  | take hempty hpipe _ _ =>
    rw [Bounded, count_pop hempty] at h
    rw [Bounded, hpipe]
    exact Nat.le_of_succ_le h

/-- The bytes that went in are the bytes that came out and the bytes in the pipe. -/
def Lossless (s : PipeSys N) : Prop := s.sent = s.got ++ s.pipe.buffered

theorem lossless_init (N : ℕ) (data : Bytes PIPESIZE) : (init N data).Lossless := by
  simp [Lossless, init, Pipe.buffered]

theorem buffered_put {q : Pipe} (h : count q.nread q.nwrite < PIPESIZE) (ch : UInt8) :
    (q.put ch).buffered = q.buffered ++ [ch] := by
  have hcell : cell PIPESIZE q.nwrite < PIPESIZE := Nat.mod_lt _ (by norm_num)
  refine queue_push PIPESIZE_dvd PIPESIZE_lt h ?_ fun k hk => ?_
  · exact Bytes.get_splice_of_mem q.data _ [ch] Nat.zero_lt_one hcell
  · refine Bytes.get_splice_of_not_mem _ _ _ ?_
    rw [List.length_singleton]
    unfold cell at hk
    omega

theorem Lossless.step (h : s.Lossless) (hb : s.Bounded) (hvalid : PagesValid s a)
    (hs : s.step a = some s') : s'.Lossless := by
  cases moved_step hs with
  | same hdata hread hwrite hsent hgot =>
    rw [Lossless, hsent, hgot, Pipe.buffered, hdata, hread, hwrite]
    exact h
  | put ch hfull hpipe hsent hgot =>
    rw [Lossless, hsent, hgot, hpipe, buffered_put (hb.lt hfull), h, List.append_assoc]
  | take hempty hpipe hsent hgot =>
    have hqueue : s.pipe.buffered = s.pipe.take.1 :: s.pipe.take.2.buffered := queue_pop hempty
    rw [Lossless, hsent, hgot hvalid, hpipe, h, hqueue, List.append_assoc, List.singleton_append]

end PipeSys

def PipePc.reading : PipePc → Option ReadArgs
  | .readAcquire r | .readTest r | .readEmpty r | .readSleep r | .readLoop r _ => some r
  | _ => none

/-- **A pipe is a lossless queue.**  In every run of any number of readers and writers, with
writes and reads of any size, ends closed and processes killed at any time, and valid user
pages: the bytes read and the bytes in the pipe make the bytes written, in order; the
difference of the counters, modulo `2 ^ 32`, is at most `PIPESIZE`; and a read of at least
one byte returns `0` only from an empty pipe with its write end closed. -/
theorem pipe_fifo {data : Bytes PIPESIZE} {s : PipeSys N}
    (h : Reach PipeSys.step PagesValid (PipeSys.init N data) s) :
    s.sent = s.got ++ s.pipe.buffered ∧ (s.pipe.nwrite - s.pipe.nread).toNat ≤ PIPESIZE ∧
      ∀ p r s', PagesValid s (.run p) → s.step (.run p) = some s' → (s.pc p).reading = some r →
        0 < r.n → s'.pc p = .out (some 0) → s'.pipe.empty ∧ s'.pipe.writeopen = false := by
  obtain ⟨hlock, hbound, hless⟩ : s.Locked ∧ s.Bounded ∧ s.Lossless :=
    h.invariant (I := fun s => s.Locked ∧ s.Bounded ∧ s.Lossless)
      ⟨PipeSys.locked_init N data, PipeSys.bounded_init N data, PipeSys.lossless_init N data⟩
      fun _ _ _ hi hok hs => ⟨hi.1.step hs, hi.2.1.step hs, hi.2.2.step hi.2.1 hok hs⟩
  refine ⟨hless, hbound, fun p r s' hvalid hs hr hn hret => ?_⟩
  have ht := hlock.tested p
  cases PipeSys.turn_of_advance hs with
  | writeAcquire hpc | writeGone hpc | writeFull hpc | put hpc | writeDone hpc | writeSleep hpc =>
    rw [hpc] at hr
    cases hr
  | readAcquire | readKilled | readEmpty | readStart | readSleep | take => simp at hret
  | lose hpc hi _ hcopy =>
    rw [PagesValid, hpc] at hvalid
    exact absurd (hvalid hi) hcopy
  | @readDone r₁ i hpc hempty =>
    rw [hpc] at hr ht
    obtain rfl : r₁ = r := Option.some.inj hr
    -- the count of bytes that is returned is that of the bytes done
    obtain rfl : i = 0 := by simpa [PipeSys.readDone] using hret
    have hempty := hempty hn
    exact ⟨hempty, Bool.eq_false_of_not_eq_true fun hopen => ht ⟨hempty, hopen⟩⟩

def shortTalk : List (PipeAction 2) :=
  [.write 0 ⟨3, fun i => some (UInt8.ofNat (i + 7))⟩, .run 0, .run 0, .run 0, .run 0, .run 0,
    .read 1 ⟨2, fun _ => true⟩, .run 1, .run 1, .run 1, .run 1, .run 1]

theorem pipe_fifo_shortTalk : ∃ s, Reach PipeSys.step PagesValid (PipeSys.init 2 fun _ => 0) s ∧
    s.sent = [7, 8, 9] ∧ s.got = [7, 8] ∧ s.sent = s.got ++ s.pipe.buffered := by
  have hrun : (run PipeSys.step PagesValid (PipeSys.init 2 fun _ => 0) shortTalk).map
      (fun s => (s.sent, s.got)) = some ([7, 8, 9], [7, 8]) := by decide +kernel
  obtain ⟨s, hs, hv⟩ := exists_reach_of_run hrun
  exact ⟨s, hs, congrArg Prod.fst hv, congrArg Prod.snd hv, (pipe_fifo hs).1⟩

end Xv6
