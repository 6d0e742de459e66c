/-
# The lines of a stream of bytes

A line ends in a newline: `lines` are those that do, without it, and `lastLine` is what follows the
last of them.  A stream is taken apart from the front (`lines_induction`), or cut anywhere
(`lines_append`).
-/

import Mathlib.Data.List.Basic
import Mathlib.Data.Nat.Init

namespace Lib

def newline : UInt8 := 10

/-- The lines that end in a newline, without it. -/
def lines (stream : List UInt8) : List (List UInt8) := (stream.splitOn newline).dropLast

/-- What follows the last newline. -/
def lastLine (stream : List UInt8) : List UInt8 :=
  (stream.splitOn newline).getLast (List.splitOn_ne_nil newline stream)

variable {line stream rest : List UInt8}

/-- A stream without newlines, or a line in front of a shorter stream. -/
theorem lines_induction {P : List UInt8 → Prop} (hlast : ∀ l, newline ∉ l → P l)
    (hcons : ∀ line rest, newline ∉ line → P rest → P (line ++ newline :: rest))
    (stream : List UInt8) : P stream := by
  induction hn : stream.length using Nat.strong_induction_on generalizing stream with
  | _ n ih =>
    by_cases hnl : newline ∈ stream
    · obtain ⟨line, rest, rfl, hline⟩ := List.eq_append_cons_of_mem hnl
      rw [List.length_append, List.length_cons] at hn
      exact hcons line rest hline (ih rest.length (by omega) rest rfl)
    · exact hlast stream hnl

theorem splitOn_cons (h : newline ∉ line) :
    (line ++ newline :: stream).splitOn newline = line :: stream.splitOn newline := by
  rw [List.splitOn_append_cons_of_beq _ _ (beq_self_eq_true _), List.splitOn_eq_singleton h,
    List.singleton_append]

theorem lines_of_not_mem (h : newline ∉ stream) : lines stream = [] := by
  rw [lines, List.splitOn_eq_singleton h, List.dropLast_singleton]

theorem lines_cons (h : newline ∉ line) :
    lines (line ++ newline :: stream) = line :: lines stream := by
  rw [lines, splitOn_cons h, List.dropLast_cons_of_ne_nil (List.splitOn_ne_nil _ _), lines]

theorem lastLine_of_not_mem (h : newline ∉ line) : lastLine line = line := by
  simp only [lastLine, List.splitOn_eq_singleton h, List.getLast_singleton]

theorem lastLine_cons (h : newline ∉ line) :
    lastLine (line ++ newline :: stream) = lastLine stream := by
  simp only [lastLine, splitOn_cons h, List.getLast_cons (List.splitOn_ne_nil _ _)]

theorem newline_not_mem_lastLine (stream : List UInt8) : newline ∉ lastLine stream := by
  induction stream using lines_induction with
  | hlast l hl => rwa [lastLine_of_not_mem hl]
  | hcons line rest hline ih => rwa [lastLine_cons hline]

/-- **Lines of a stream in two parts.** -/
theorem lines_append (stream rest : List UInt8) :
    lines (stream ++ rest) = lines stream ++ lines (lastLine stream ++ rest) := by
  induction stream using lines_induction with
  | hlast l hl => rw [lines_of_not_mem hl, lastLine_of_not_mem hl, List.nil_append]
  | hcons line rest' hline ih =>
    rw [List.append_assoc, List.cons_append, lines_cons hline, lines_cons hline,
      lastLine_cons hline, ih, List.cons_append]

/-- There are as many lines as newlines. -/
theorem length_lines (stream : List UInt8) : (lines stream).length = stream.count newline := by
  induction stream using lines_induction with
  | hlast l hl => rw [lines_of_not_mem hl, List.count_eq_zero.2 hl, List.length_nil]
  | hcons line rest hline ih =>
    rw [lines_cons hline, List.length_cons, ih, List.count_append, List.count_eq_zero.2 hline,
      List.count_cons_self, Nat.zero_add]

theorem lines_eq_nil_iff : lines stream = [] ↔ newline ∉ stream := by
  rw [← List.length_eq_zero_iff, length_lines, List.count_eq_zero]

theorem length_lt_of_mem_lines (hmem : line ∈ lines stream) : line.length < stream.length := by
  induction stream using lines_induction with
  | hlast l hl => rw [lines_of_not_mem hl] at hmem; cases hmem
  | hcons first rest hfirst ih =>
    rw [lines_cons hfirst, List.mem_cons] at hmem
    rw [List.length_append, List.length_cons]
    rcases hmem with rfl | hmem
    · omega
    · have := ih hmem
      omega

end Lib
