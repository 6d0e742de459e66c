/-
# Console reads, against the line editor

In the model of `Line` a read that finds the queue empty has no step until there is more.  Each step
of the code is a step of the model, or leaves it as it is (`Refines`).  A read of no bytes returns 0
without a look at the queue (`empty_read_is_no_eof`).
-/

import Xv6.Console.Line

namespace Xv6.Console

open Lib Function

variable {N : ℕ} {n r : ℤ} {got got' : List UInt8} {a : ReadArgs}

/-- A call, without where it is in the code. -/
def Pc.view : Pc → Reader
  | .out last => .out last
  | .acquire a _ got | .loop a _ got | .empty a _ got | .sleep a _ got => .reading a.n got

/-- What is still wanted agrees with what was copied, and every `copyout` succeeds. -/
def Pc.Fair : Pc → Prop
  | .out _ => True
  | .acquire a n got | .loop a n got | .empty a n got | .sleep a n got =>
    n = a.n - got.length ∧ ∀ i, a.copyout i = true

namespace LineSys

def init (N : ℕ) : LineSys N := ⟨⟨[], []⟩, fun _ => .out none⟩

def set (v : LineSys N) (p : Fin N) (r : Reader) : LineSys N :=
  { v with reader := update v.reader p r }

/-- **The result of a read** of at least one byte is 0 exactly if the first byte it finds is `^D`.
-/
theorem take_result {v v' : LineSys N} {p : Fin N} (hn : 0 < n) (h : v.take p n got = some v')
    (hout : v'.reader p = .out (some (r, got'))) :
    r = 0 ↔ got = [] ∧ v.line.committed.head? = some ctrlD := by
  have hlen : got.length = 0 ↔ got = [] := List.length_eq_zero_iff
  unfold take at h
  split at h
  · rename_i hle
    cases h
    simp only [update_self, Reader.out.injEq, Option.some.injEq, Prod.mk.injEq] at hout
    obtain ⟨rfl, -⟩ := hout
    constructor
    · intro hr
      omega
    · rintro ⟨hgot, -⟩
      have := hlen.2 hgot
      omega
  · split at h
    · cases h
    rename_i ch rest hq
    split at h
    · rename_i hch
      cases h
      simp only [update_self, Reader.out.injEq, Option.some.injEq, Prod.mk.injEq] at hout
      obtain ⟨rfl, -⟩ := hout
      rw [hq, List.head?_cons, hch]
      simp
    · rename_i hch
      have hne : ¬(got = [] ∧ v.line.committed.head? = some ctrlD) := by
        rw [hq, List.head?_cons, Option.some.injEq]
        exact fun hboth => hch hboth.2
      split at h <;> cases h
      · simp only [update_self, Reader.out.injEq, Option.some.injEq, Prod.mk.injEq] at hout
        obtain ⟨rfl, -⟩ := hout
        exact iff_of_false (by omega) hne
      · simp only [update_self, reduceCtorEq] at hout

end LineSys

namespace Sys

variable {s s' : Sys N} {p : Fin N} {c : Pc}

def view (s : Sys N) : LineSys N := ⟨s.cons.line, fun p => (s.pc p).view⟩

/-- What each step of the code is in the model. -/
def Refines (s s' : Sys N) : Action N → Prop
  | .key ch => s.view.step (.key ch) = some s'.view
  | .read p a => s.view.step (.read p a.n) = some s'.view
  | .kill _ => s'.view = s.view
  | .run p => s'.view = s.view ∨ s.view.step (.take p) = some s'.view ∨
    s.killed p = true ∧ s.view.step (.giveUp p) = some s'.view

/-- What holds in every state: no byte is lost between `sent` and `taken`. -/
structure Good (s : Sys N) : Prop where
  ok : s.cons.Ok
  fair : ∀ p, (s.pc p).Fair
  sent : s.sent = s.taken ++ s.cons.line.committed

theorem good_init (N : ℕ) (buf : Bytes INPUT_BUF) : (init N buf).Good where
  ok := ⟨by simp [init], fun _ => rfl, fun ch hch => by simp [init, Cons.line] at hch⟩
  fair _ := trivial
  sent := by simp [init, Cons.line]

theorem view_init (N : ℕ) (buf : Bytes INPUT_BUF) : (init N buf).view = LineSys.init N := by
  simp [view, init, Cons.line, LineSys.init, Pc.view]

@[simp] theorem view_goto (s : Sys N) (p : Fin N) (c : Pc) :
    (s.goto p c).view = s.view.set p c.view := by
  simp only [view, goto, LineSys.set, LineSys.mk.injEq, true_and]
  funext q
  by_cases hq : q = p
  · subst hq
    simp
  · simp [hq]

@[simp] theorem view_leave (s : Sys N) (p : Fin N) (c : Pc) :
    (s.leave p c).view = s.view.set p c.view :=
  view_goto _ p c

theorem view_goto_of_eq (h : c.view = (s.pc p).view) : (s.goto p c).view = s.view := by
  rw [view_goto, h]
  simp [LineSys.set, view]

theorem view_wakeup (s : Sys N) : s.wakeup.view = s.view := by
  simp only [view, wakeup, LineSys.mk.injEq, true_and]
  funext q
  cases s.pc q <;> rfl

section

variable (h : s.Good)
include h

theorem Good.goto (hc : c.Fair) : (s.goto p c).Good where
  ok := h.ok
  sent := h.sent
  fair q := by
    by_cases hq : q = p
    · subst hq
      simpa [Sys.goto] using hc
    · simpa [Sys.goto, hq] using h.fair q

theorem Good.leave (hc : c.Fair) : (s.leave p c).Good :=
  Good.goto (s := { s with lock := none }) ⟨h.ok, h.fair, h.sent⟩ hc

theorem Good.wakeup : s.wakeup.Good where
  ok := h.ok
  sent := h.sent
  fair q := by
    have hq := h.fair q
    simp only [Sys.wakeup]
    cases hpc : s.pc q <;> rw [hpc] at hq <;> exact hq

theorem Good.intr (ch : UInt8) :
    (s.intr ch).Good ∧ s.view.step (.key ch) = some (s.intr ch).view := by
  have hbecomes := h.ok.consoleintr ch
  rcases hx : s.cons.consoleintr ch with ⟨cons, woken⟩
  rw [hx] at hbecomes
  obtain ⟨hline, hok, hsent⟩ := hbecomes
  have hgood : Good { s with
      cons := cons, sent := s.sent ++ queue INPUT_BUF cons.buf.get s.cons.w cons.w } :=
    ⟨hok, h.fair, by simp only [hline, hsent, h.sent, List.append_assoc]⟩
  have hview : s.view.step (.key ch) = some (view { s with
      cons := cons, sent := s.sent ++ queue INPUT_BUF cons.buf.get s.cons.w cons.w }) := by
    simp only [LineSys.step, view, hline]
  simp only [Sys.intr, hx]
  cases woken with
  | false => exact ⟨hgood, hview⟩
  | true => exact ⟨hgood.wakeup, (view_wakeup _).symm ▸ hview⟩

theorem Good.pop (hne : s.cons.r ≠ s.cons.w) : Good { s with
      cons := { s.cons with r := s.cons.r + 1 }, taken := s.taken ++ [s.cons.byte s.cons.r] } := by
  obtain ⟨hfirst, hok⟩ := h.ok.read hne
  refine ⟨hok, h.fair, ?_⟩
  rw [List.append_assoc, List.singleton_append, ← hfirst]
  exact h.sent

/-- **A step of a reader** that has the lock and finds a byte. -/
theorem Good.readByte (hpos : 0 < n)
    (hne : s.cons.r ≠ s.cons.w) (hn : n = a.n - got.length) (hcopy : ∀ i, a.copyout i = true) :
    (s.readLoop p a n got).Good ∧ s.view.take p a.n got = some (s.readLoop p a n got).view := by
  have hret : a.n - n = got.length := by omega
  have hmore : ¬a.n ≤ got.length := by omega
  have hpop := h.pop hne
  have hfirst : s.view.line.committed = _ := (h.ok.read hne).1
  unfold Sys.readLoop LineSys.take
  rw [if_pos hpos, if_neg hne, if_neg hmore, hfirst]
  simp only [hcopy, if_true, hret]
  by_cases hd : s.cons.byte s.cons.r = ctrlD
  · rw [if_pos hd, if_pos hd]
    by_cases hgot : got = []
    · have hlt : ¬n < a.n := by
        rw [hgot, List.length_nil] at hn
        omega
      rw [if_neg hlt, if_pos hgot]
      exact ⟨hpop.leave trivial, by rw [view_leave]; rfl⟩
    · have hlt : n < a.n := by
        have := List.length_pos_iff.2 hgot
        omega
      rw [if_pos hlt, if_neg hgot, UInt32.add_sub_cancel]
      exact ⟨h.leave trivial, by rw [view_leave]; rfl⟩
  · rw [if_neg hd, if_neg hd]
    split
    · refine ⟨hpop.leave trivial, ?_⟩
      have hret' : a.n - (n - 1) = got.length + 1 := by omega
      rw [view_leave, hret']
      rfl
    · refine ⟨hpop.goto ⟨?_, hcopy⟩, ?_⟩
      · rw [List.length_append, List.length_singleton]
        omega
      · rw [view_goto]
        rfl

/-- **A step of a reader** that has the lock. -/
theorem Good.readLoop (hpc : s.pc p = .loop a n got) :
    (s.readLoop p a n got).Good ∧ s.Refines (s.readLoop p a n got) (.run p) := by
  have hreading : s.view.reader p = .reading a.n got := by simp only [view, hpc, Pc.view]
  have hfair : n = a.n - got.length ∧ ∀ i, a.copyout i = true := by
    have := h.fair p
    rwa [hpc] at this
  obtain ⟨hn, hcopy⟩ := hfair
  have htake : s.view.step (.take p) = s.view.take p a.n got := by
    simp only [LineSys.step, hreading]
  rw [Refines, htake]
  by_cases hpos : 0 < n
  · by_cases hempty : s.cons.r = s.cons.w
    · unfold Sys.readLoop
      rw [if_pos hpos, if_pos hempty]
      have hnone : s.view.line.committed = [] := by
        simp only [view, Cons.line, hempty, queue_self]
      split
      · rename_i hkilled
        refine ⟨h.leave trivial, .inr (.inr ⟨hkilled, ?_⟩)⟩
        simp only [LineSys.step, hreading, hnone, if_true, view_leave, LineSys.set, Pc.view]
      · refine ⟨h.goto ⟨hn, hcopy⟩, .inl (view_goto_of_eq ?_)⟩
        rw [hpc]
        rfl
    · obtain ⟨hgood, hstep⟩ := h.readByte (p := p) hpos hempty hn hcopy
      exact ⟨hgood, .inr (.inl hstep)⟩
  · unfold Sys.readLoop
    rw [if_neg hpos]
    refine ⟨h.leave trivial, .inr (.inl ?_)⟩
    have hle : a.n ≤ got.length := by omega
    have hret : a.n - n = got.length := by omega
    rw [LineSys.take, if_pos hle, view_leave, hret]
    rfl

theorem Good.advance (hs : s.advance p (s.pc p) = some s') : s'.Good ∧ s.Refines s' (.run p) := by
  have hfair := h.fair p
  cases hpc : s.pc p with
  | out last =>
    rw [hpc] at hs
    cases hs
  | acquire a n got =>
    rw [hpc, Sys.advance] at hs
    rw [hpc] at hfair
    split at hs
    · cases hs
      refine ⟨Good.goto (s := { s with lock := some p }) ⟨h.ok, h.fair, h.sent⟩ hfair, .inl ?_⟩
      refine (view_goto_of_eq (s := { s with lock := some p }) ?_).trans rfl
      simp only [hpc, Pc.view]
    · cases hs
  | loop a n got =>
    rw [hpc] at hs
    cases hs
    exact h.readLoop hpc
  | empty a n got =>
    rw [hpc] at hs hfair
    cases hs
    refine ⟨h.leave hfair, .inl ?_⟩
    refine (view_goto_of_eq (s := { s with lock := none }) ?_).trans rfl
    simp only [hpc, Pc.view]
  | sleep a n got =>
    rw [hpc] at hs
    cases hs

theorem Good.kill (p : Fin N) : (s.kill p).Good ∧ (s.kill p).view = s.view := by
  have hmark : Good { s with killed := update s.killed p true } := ⟨h.ok, h.fair, h.sent⟩
  have hfair := h.fair p
  simp only [Sys.kill]
  split
  · rename_i a n got hpc
    rw [hpc] at hfair
    refine ⟨hmark.goto hfair, (view_goto_of_eq ?_).trans rfl⟩
    simp only [hpc, Pc.view]
  · exact ⟨hmark, rfl⟩

/-- **Each step of the code is a step of the model, or none.** -/
theorem Good.step {a : Action N} (hok : s.Valid a) (hs : s.step a = some s') :
    s'.Good ∧ s.Refines s' a := by
  cases a with
  | key ch =>
    simp only [Sys.step] at hs
    split at hs
    · cases hs
      exact h.intr ch
    · cases hs
  | read p a =>
    simp only [Sys.step] at hs
    split at hs
    · rename_i last hpc
      cases hs
      have hidle : s.view.reader p = .out last := by simp only [view, hpc, Pc.view]
      refine ⟨h.goto ⟨by simp, hok⟩, ?_⟩
      simp only [Refines, LineSys.step, hidle, view_goto]
      rfl
    · cases hs
  | kill p =>
    cases hs
    exact h.kill p
  | run p => exact h.advance hs

end

theorem Refines.reach {a : Action N} (h : s.Refines s' a) :
    Reach LineSys.step (fun _ _ => True) s.view s'.view := by
  have hone (b : LineAction N) (hb : s.view.step b = some s'.view) :
      Reach LineSys.step (fun _ _ => True) s.view s'.view :=
    Relation.ReflTransGen.single ⟨b, trivial, hb⟩
  cases a with
  | key ch => exact hone _ h
  | read p a => exact hone _ h
  | kill p => exact h ▸ Relation.ReflTransGen.refl
  | run p =>
    rcases h with h | h | ⟨-, h⟩
    · exact h ▸ Relation.ReflTransGen.refl
    · exact hone _ h
    · exact hone _ h

theorem Refines.result (h : s.Refines s' (.run p))
    (hp : s.view.reader p = .reading n got) (hn : 0 < n)
    (hout : s'.view.reader p = .out (some (r, got'))) (hr : r ≠ -1) :
    r = 0 ↔ got = [] ∧ s.view.line.committed.head? = some ctrlD := by
  rcases h with h | h | ⟨-, h⟩
  · rw [h, hp] at hout
    cases hout
  · simp only [LineSys.step, hp] at h
    exact LineSys.take_result hn h hout
  simp only [LineSys.step, hp] at h
  split at h
  · rw [← Option.some.inj h] at hout
    simp only [update_self, Reader.out.injEq, Option.some.injEq, Prod.mk.injEq] at hout
    exact absurd hout.1.symm hr
  · cases h

end Sys

variable {s : Sys N} {buf : Bytes INPUT_BUF}

/-- **The console is a line editor**: however keystrokes, reads with valid destinations and kills
interleave, each step of the code is the model's step, what readers have taken and the queue are
together what was committed, and 0 is the result of a read of at least one byte exactly if `^D` is
the first byte it finds. -/
theorem console_refines_line (h : Reach Sys.step Sys.Valid (Sys.init N buf) s) :
    Reach LineSys.step (fun _ _ => True) (LineSys.init N) s.view ∧
    s.sent = s.taken ++ s.view.line.committed ∧
    s.view.line.committed.length + s.view.line.pending.length ≤ INPUT_BUF ∧
    (∀ ch ∈ s.view.line.pending, ch ≠ lineFeed ∧ ch ≠ ctrlD) ∧
    (∀ a s', s.Valid a → s.step a = some s' → s.Refines s' a) ∧
    ∀ p n got s' r got', s.view.reader p = .reading n got → 0 < n → s.step (.run p) = some s' →
      s'.view.reader p = .out (some (r, got')) → r ≠ -1 →
      (r = 0 ↔ got = [] ∧ s.view.line.committed.head? = some ctrlD) := by
  obtain ⟨hgood, hrun⟩ := h.simulates (I := Sys.Good) (f := Sys.view) (Sys.good_init N buf)
    fun s a s' hi hok hs => ⟨(hi.step hok hs).1, (hi.step hok hs).2.reach⟩
  rw [Sys.view_init] at hrun
  refine ⟨hrun, hgood.sent, ?_, hgood.ok.noEnd, fun a s' hok hs => (hgood.step hok hs).2, ?_⟩
  · have hroom := hgood.ok.room
    simpa only [Sys.view, Cons.line, length_queue] using hroom
  · intro p n got s' r got' hp hn hs hout hr
    exact (hgood.step (a := .run p) trivial hs).2.result hp hn hout hr

def readOf (n : ℤ) : ReadArgs := ⟨n, fun _ => true⟩

/-- `a`, `b`, a backspace, a newline and `^D` are typed; a first read gets a line of two bytes, and
a second one is about to find `^D`. -/
theorem console_refines_line_eof : ∃ s s' : Sys 1,
    Reach Sys.step Sys.Valid (Sys.init 1 fun _ => 0) s ∧ s.taken = [97, lineFeed] ∧
    s.view.reader 0 = .reading 5 [] ∧ s.step (.run 0) = some s' ∧
    s'.view.reader 0 = .out (some (0, [])) ∧ s.view.line.committed.head? = some ctrlD := by
  have hruns : ∃ s s' : Sys 1, run Sys.step (fun _ _ => True) (Sys.init 1 fun _ => 0)
        [.key 97, .key 98, .key ctrlH, .key carriageReturn, .key ctrlD, .read 0 (readOf 5),
        .run 0, .run 0, .run 0, .read 0 (readOf 5), .run 0] = some s ∧
      s.taken = [97, lineFeed] ∧ s.view.reader 0 = .reading 5 [] ∧ s.step (.run 0) = some s' ∧
      s'.view.reader 0 = .out (some (0, [])) :=
    ⟨_, _, rfl, rfl, rfl, rfl, rfl⟩
  obtain ⟨s, s', hs, htaken, hreads, hstep, hout⟩ := hruns
  have hreach : Reach Sys.step Sys.Valid (Sys.init 1 fun _ => 0) s :=
    reach_of_actions (by simp [Sys.Valid, readOf]) hs
  obtain ⟨-, -, -, -, -, hresult⟩ := console_refines_line hreach
  exact ⟨s, s', hreach, htaken, hreads, hstep, hout,
    ((hresult 0 5 [] s' 0 [] hreads (by decide) hstep hout (by decide)).1 rfl).2⟩

/-- A read of no bytes returns 0 although nothing was typed. -/
theorem empty_read_is_no_eof : ∃ s s' : Sys 1,
    Reach Sys.step Sys.Valid (Sys.init 1 fun _ => 0) s ∧ s.view.reader 0 = .reading 0 [] ∧
    s.step (.run 0) = some s' ∧ s'.view.reader 0 = .out (some (0, [])) ∧
    ¬s.view.line.committed.head? = some ctrlD := by
  have hruns : ∃ s s' : Sys 1, run Sys.step (fun _ _ => True) (Sys.init 1 fun _ => 0)
        [.read 0 (readOf 0), .run 0] = some s ∧ s.view.reader 0 = .reading 0 [] ∧
      s.step (.run 0) = some s' ∧ s'.view.reader 0 = .out (some (0, [])) ∧
        s.view.line.committed = [] :=
    ⟨_, _, rfl, rfl, rfl, rfl, rfl⟩
  obtain ⟨s, s', hs, hreads, hstep, hout, hnone⟩ := hruns
  refine ⟨s, s', reach_of_actions (by simp [Sys.Valid, readOf]) hs, hreads, hstep, hout, ?_⟩
  rw [hnone]
  decide

end Xv6.Console
