/-
# The console as a line editor

Bytes that are being typed wait in a pending line until a newline, a `^D` or a full buffer commits
them to a queue, from which reads take (`Line`, and `LineSys` with its readers).  The code keeps
both in one ring, the queue between `r` and `w` and the pending line between `w` and `e`
(`Cons.line`).
-/

import Xv6.Console.Run

namespace Xv6.Console

open Lib Function

variable {N : ℕ}

/-! ### The model -/

/-- The bytes that readers may have, and the line that is being typed. -/
structure Line where
  committed : List UInt8
  pending : List UInt8

def Line.key (l : Line) (ch : UInt8) : Line :=
  if ch = ctrlP ∨ ch = 0 then l
  else if ch = ctrlU then ⟨l.committed, []⟩
  else if ch = ctrlH ∨ ch = del then ⟨l.committed, l.pending.dropLast⟩
  else if l.committed.length + l.pending.length < INPUT_BUF then
    let ch := if ch = carriageReturn then lineFeed else ch
    let pending := l.pending ++ [ch]
    if ch = lineFeed ∨ ch = ctrlD ∨ l.committed.length + pending.length = INPUT_BUF then
      ⟨l.committed ++ pending, []⟩
    else ⟨l.committed, pending⟩
  else l

/-- A process that reads `n` bytes and has `got` some, or is in no call. -/
inductive Reader
  | out (last : Option (ℤ × List UInt8))
  | reading (n : ℤ) (got : List UInt8)

/-- The line discipline and its readers. -/
structure LineSys (N : ℕ) where
  line : Line
  reader : Fin N → Reader

inductive LineAction (N : ℕ)
  | key (ch : UInt8)
  | read (p : Fin N) (n : ℤ)
  /-- Take one byte, or return. -/
  | take (p : Fin N)
  | giveUp (p : Fin N)

namespace LineSys

/-- A read that wants `n` bytes and has `got`: it is done when it has them or has a newline; a `^D`
ends it, and is taken from the queue only if it comes first. -/
def take (s : LineSys N) (p : Fin N) (n : ℤ) (got : List UInt8) : Option (LineSys N) :=
  if n ≤ got.length then
    some { s with reader := update s.reader p (.out (some (got.length, got))) }
  else
    match s.line.committed with
    | [] => none
    | ch :: rest =>
      if ch = ctrlD then
        let line : Line := if got = [] then ⟨rest, s.line.pending⟩ else s.line
        some ⟨line, update s.reader p (.out (some (got.length, got)))⟩
      else if ch = lineFeed then
        some ⟨⟨rest, s.line.pending⟩, update s.reader p (.out (some (got.length + 1, got ++ [ch])))⟩
      else some ⟨⟨rest, s.line.pending⟩, update s.reader p (.reading n (got ++ [ch]))⟩

def step (s : LineSys N) : LineAction N → Option (LineSys N)
  | .key ch => some { s with line := s.line.key ch }
  | .read p n => match s.reader p with
    | .out _ => some { s with reader := update s.reader p (.reading n []) }
    | _ => none
  | .take p => match s.reader p with
    | .reading n got => s.take p n got
    | _ => none
  | .giveUp p => match s.reader p with
    | .reading _ got =>
      if s.line.committed = [] then
        some { s with reader := update s.reader p (.out (some (-1, got))) }
      else none
    | _ => none

end LineSys

/-! ### The ring and the line -/

namespace Cons

def line (c : Cons) : Line := ⟨queue INPUT_BUF c.buf.get c.r c.w, queue INPUT_BUF c.buf.get c.w c.e⟩

/-- The indices are in order and not too far apart, and a full buffer or the end of a line has been
committed. -/
structure Ok (c : Cons) : Prop where
  room : count c.r c.w + count c.w c.e ≤ INPUT_BUF
  full : count c.r c.w + count c.w c.e = INPUT_BUF → c.w = c.e
  noEnd : ∀ ch ∈ c.line.pending, ch ≠ lineFeed ∧ ch ≠ ctrlD

variable {c : Cons} {ch : UInt8}

theorem INPUT_BUF_dvd : INPUT_BUF ∣ 2 ^ 32 := by decide

theorem INPUT_BUF_lt : INPUT_BUF < 2 ^ 32 := by decide

theorem Ok.count (h : c.Ok) : Lib.count c.r c.e = Lib.count c.r c.w + Lib.count c.w c.e :=
  count_add (lt_of_le_of_lt h.room INPUT_BUF_lt)

theorem sub_lt_iff : c.e - c.r < UInt32.ofNat INPUT_BUF ↔ Lib.count c.r c.e < INPUT_BUF := by
  rw [UInt32.lt_iff_toNat_lt, UInt32.toNat_ofNat_of_lt' INPUT_BUF_lt]
  rfl

theorem Ok.line_put (h : c.Ok) (hroom : Lib.count c.r c.e < INPUT_BUF) (ch : UInt8) :
    (c.put ch).line = ⟨c.line.committed, c.line.pending ++ [ch]⟩ := by
  have hcount := h.count
  have hcell : cell INPUT_BUF c.e = c.e.toNat % INPUT_BUF := rfl
  have hlt : c.e.toNat % INPUT_BUF < INPUT_BUF := Nat.mod_lt _ (by decide)
  have hnew : (c.put ch).buf.get (cell INPUT_BUF c.e) = ch :=
    Bytes.get_splice_of_mem c.buf _ [ch] Nat.zero_lt_one hlt
  have hold (k : ℕ) (hk : k ≠ cell INPUT_BUF c.e) : (c.put ch).buf.get k = c.buf.get k := by
    refine Bytes.get_splice_of_not_mem c.buf _ [ch] ?_
    rw [List.length_singleton]
    omega
  have hcommitted : queue INPUT_BUF (c.put ch).buf.get c.r c.w = queue INPUT_BUF c.buf.get
      c.r c.w := by
    refine queue_congr fun i hi => hold _ ?_
    exact cell_ne_tail INPUT_BUF_dvd hroom (by omega)
  have hpending : queue INPUT_BUF (c.put ch).buf.get c.w (c.e + 1) = queue INPUT_BUF c.buf.get c.w
      c.e ++ [ch] :=
    queue_push INPUT_BUF_dvd INPUT_BUF_lt (by omega) hnew hold
  simp only [line, put] at hcommitted hpending ⊢
  rw [hcommitted, hpending]

theorem eq_of_nothing_pending (he : c.w = c.e) : c = { c with e := c.w } := by
  obtain ⟨buf, r, w, e⟩ := c
  cases he
  rfl

theorem killLine_eq (k : ℕ) (hk : Lib.count c.w c.e ≤ k)
    (h : ∀ ch ∈ c.line.pending, ch ≠ lineFeed) : c.killLine k = { c with e := c.w } := by
  induction k generalizing c with
  | zero =>
    exact eq_of_nothing_pending (count_eq_zero_iff.1 (Nat.le_zero.1 hk))
  | succ k ih =>
    rw [killLine]
    split
    · rename_i hgo
      have hlast : queue INPUT_BUF c.buf.get c.w c.e = _ := queue_unpush hgo.1.symm
      have hcount := congrArg List.length hlast
      simp only [length_queue, List.length_append, List.length_singleton] at hcount
      refine ih (c := { c with e := c.e - 1 }) (by simp only; omega) fun ch hch => h ch ?_
      rw [line, hlast]
      exact List.mem_append_left _ hch
    · rename_i hstop
      refine eq_of_nothing_pending ?_
      by_contra hne
      refine hstop ⟨Ne.symm hne, h _ ?_⟩
      rw [line, queue_unpush hne]
      exact List.mem_append_right _ (List.mem_singleton_self _)

/-- `c` becomes `c'`, which holds line `l`; what `w` has moved past is what was committed. -/
structure Becomes (c c' : Cons) (l : Line) : Prop where
  line : c'.line = l
  ok : c'.Ok
  sent : l.committed = c.line.committed ++ queue INPUT_BUF c'.buf.get c.w c'.w

theorem Becomes.of_w_eq (hline : c'.line = l) (hok : c'.Ok) (hw : c'.w = c.w)
    (hl : l.committed = c.line.committed) : c.Becomes c' l :=
  ⟨hline, hok, by rw [hw, queue_self, List.append_nil, hl]⟩

theorem Ok.becomes_self (h : c.Ok) : c.Becomes c c.line := .of_w_eq rfl h rfl rfl

theorem Ok.killLine (h : c.Ok) :
    c.Becomes (c.killLine (Lib.count c.w c.e)) ⟨c.line.committed, []⟩ := by
  rw [killLine_eq _ le_rfl fun ch hch => (h.noEnd ch hch).1]
  have hroom := h.room
  refine .of_w_eq (by simp [line]) ⟨?_, fun _ => rfl, fun ch hch => ?_⟩ rfl rfl
  · simp only [count_self]
    omega
  · simp [line] at hch

theorem Ok.backspace (h : c.Ok) (hne : c.e ≠ c.w) :
    c.Becomes { c with e := c.e - 1 } ⟨c.line.committed, c.line.pending.dropLast⟩ := by
  have hlast : queue INPUT_BUF c.buf.get c.w c.e = _ := queue_unpush (Ne.symm hne)
  have hcount := congrArg List.length hlast
  simp only [length_queue, List.length_append, List.length_singleton] at hcount
  have hroom := h.room
  refine .of_w_eq ?_ ⟨?_, fun hfull => ?_, fun ch hch => h.noEnd ch ?_⟩ rfl rfl
  · simp only [line, hlast, List.dropLast_concat]
  · simp only
    omega
  · simp only at hfull
    omega
  · rw [line, hlast]
    exact List.mem_append_left _ hch

theorem Ok.put_full_iff (h : c.Ok) (hroom : Lib.count c.r c.e < INPUT_BUF) (ch : UInt8) :
    (c.put ch).e = (c.put ch).r + UInt32.ofNat INPUT_BUF ↔
      c.line.committed.length + (c.line.pending ++ [ch]).length = INPUT_BUF := by
  have hcount := h.count
  have hlt := INPUT_BUF_lt
  have hpush : Lib.count c.r (c.e + 1) = Lib.count c.r c.e + 1 := count_push (by omega)
  rw [eq_add_iff_count INPUT_BUF_lt,
    show Lib.count (c.put ch).r (c.put ch).e = Lib.count c.r (c.e + 1) from rfl, hpush]
  simp only [line, length_queue, List.length_append, List.length_singleton]
  omega

theorem Ok.put (h : c.Ok) (hroom : Lib.count c.r c.e < INPUT_BUF)
    (hopen : ¬(ch = lineFeed ∨ ch = ctrlD ∨ (c.put ch).e = (c.put ch).r + UInt32.ofNat INPUT_BUF)) :
    c.Becomes (c.put ch) ⟨c.line.committed, c.line.pending ++ [ch]⟩ := by
  have hline := h.line_put hroom ch
  have hlens := congrArg (fun l : Line => (l.committed.length, l.pending.length)) hline
  simp only [line, length_queue, List.length_append, List.length_singleton, Prod.mk.injEq] at hlens
  have hcount := h.count
  refine .of_w_eq hline ⟨?_, fun hfull => ?_, fun b hb => ?_⟩ rfl rfl
  · omega
  · refine absurd (.inr (.inr ((h.put_full_iff hroom ch).2 ?_))) hopen
    simp only [line, length_queue, List.length_append, List.length_singleton]
    omega
  · rw [hline] at hb
    rcases List.mem_append.1 hb with hb | hb
    · exact h.noEnd b hb
    · rw [List.mem_singleton.1 hb]
      exact ⟨fun he => hopen (.inl he), fun he => hopen (.inr (.inl he))⟩

theorem Ok.commit (h : c.Ok) (hroom : Lib.count c.r c.e < INPUT_BUF) (ch : UInt8) :
    c.Becomes { c.put ch with w := (c.put ch).e }
    ⟨c.line.committed ++ (c.line.pending ++ [ch]), []⟩ := by
  have hline := h.line_put hroom ch
  have hlens := congrArg (fun l : Line => (l.committed.length, l.pending.length)) hline
  simp only [line, length_queue, List.length_append, List.length_singleton, Prod.mk.injEq] at hlens
  have hcount := h.count
  have hlt := INPUT_BUF_lt
  have hsum : Lib.count (c.put ch).r (c.put ch).w + Lib.count (c.put ch).w (c.put ch).e <
      2 ^ 32 := by omega
  have hcommitted : queue INPUT_BUF (c.put ch).buf.get (c.put ch).r (c.put ch).w =
      c.line.committed :=
    congrArg Line.committed hline
  have hpending : queue INPUT_BUF (c.put ch).buf.get (c.put ch).w (c.put ch).e =
      c.line.pending ++ [ch] :=
    congrArg Line.pending hline
  refine ⟨?_, ⟨?_, fun _ => rfl, fun b hb => ?_⟩, ?_⟩
  · simp only [line, queue_self, Line.mk.injEq, and_true]
    rw [queue_append hsum, hcommitted, hpending]
    rfl
  · have hall := count_add hsum
    simp only [count_self]
    omega
  · simp [line] at hb
  · exact congrArg _ hpending.symm

/-- **A character of input** does to the ring what it does to the line. -/
theorem Ok.consoleintr (h : c.Ok) (ch : UInt8) :
    c.Becomes (c.consoleintr ch).1 (c.line.key ch) := by
  unfold Cons.consoleintr Line.key
  by_cases hp : ch = ctrlP
  · rw [if_pos hp, if_pos (.inl hp)]
    exact h.becomes_self
  by_cases hu : ch = ctrlU
  · have hne : ¬(ctrlU = ctrlP ∨ ctrlU = 0) := by decide
    rw [if_neg hp, if_pos hu, hu, if_neg hne, if_pos rfl]
    exact h.killLine
  by_cases hh : ch = ctrlH ∨ ch = del
  · have hne : ¬(ch = ctrlP ∨ ch = 0) := by
      rcases hh with rfl | rfl <;> decide
    rw [if_neg hp, if_neg hu, if_pos hh, if_neg hne, if_neg hu, if_pos hh]
    by_cases he : c.e ≠ c.w
    · rw [if_pos he]
      exact h.backspace he
    · have hnone : c.line.pending = [] := by
        rw [line, not_not.1 he, queue_self]
      rw [if_neg he, hnone, List.dropLast_nil, ← hnone]
      exact h.becomes_self
  rw [if_neg hp, if_neg hu, if_neg hh]
  by_cases hz : ch = 0
  · have hnot : ¬(ch ≠ 0 ∧ c.e - c.r < UInt32.ofNat INPUT_BUF) := fun hgo => hgo.1 hz
    rw [if_neg hnot, if_pos (.inr hz)]
    exact h.becomes_self
  have hne : ¬(ch = ctrlP ∨ ch = 0) := not_or.2 ⟨hp, hz⟩
  have hlen : c.line.committed.length + c.line.pending.length = Lib.count c.r c.e := by
    rw [h.count]
    simp [line]
  rw [if_neg hne, if_neg hu, if_neg hh, hlen]
  by_cases hroom : Lib.count c.r c.e < INPUT_BUF
  · rw [if_pos ⟨hz, sub_lt_iff.2 hroom⟩, if_pos hroom]
    dsimp only
    generalize (if ch = carriageReturn then lineFeed else ch) = b
    have hfull := h.put_full_iff hroom b
    by_cases hend : b = lineFeed ∨ b = ctrlD ∨ (c.put b).e = (c.put b).r + UInt32.ofNat INPUT_BUF
    · rw [if_pos hend, if_pos (hend.imp_right (Or.imp_right hfull.1))]
      exact h.commit hroom b
    · rw [if_neg hend, if_neg fun he => hend (he.imp_right (Or.imp_right hfull.2))]
      exact h.put hroom hend
  · rw [if_neg fun hgo => hroom (sub_lt_iff.1 hgo.2), if_neg hroom]
    exact h.becomes_self

theorem Ok.read (h : c.Ok) (hne : c.r ≠ c.w) :
    c.line.committed = c.byte c.r :: (line { c with r := c.r + 1 }).committed ∧
    Ok { c with r := c.r + 1 } := by
  have hroom := h.room
  have hpop := count_pop hne
  refine ⟨queue_pop hne, ⟨?_, fun hfull => ?_, h.noEnd⟩⟩
  · simp only
    omega
  · simp only at hfull
    omega

end Cons

end Xv6.Console
