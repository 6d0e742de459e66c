/-
# `xargs`, and the pieces its input comes in

`main` of `user/xargs.c`.  Each `read` puts what it gets at the front of `buf`, onto what longer
pieces left there (`onto`); the bytes up to the first NUL are searched for newlines, and at each a
child, with its own copy of `buf`, calls `exec`.  Where that returns (`runs` is false), the child
goes on with the loops itself.  A run is `none` if the turns do not end it, or if `strlen` leaves
`buf`.
-/

import Xv6.User.Grep

namespace Xv6.Xargs

open Lib Grep

/-! ### The code -/

/-- What comes from the standard input: bytes, or the -1 of a `read` that fails. -/
inductive Read
  | data (bytes : List UInt8)
  | fail
deriving DecidableEq

def strlen (buf : Bytes bufSize) : Option ℕ := (List.range bufSize).find? fun i => buf.get i = 0

/-- Where the program is: at `read`, or at the `i`-th byte of `length`, with the current line from
`start` on. -/
inductive At
  | read (buf : Bytes bufSize)
  | scan (buf : Bytes bufSize) (start i length : ℕ)

/-- The program from the start of the loop over `buf`. -/
def scanFrom (buf : Bytes bufSize) : Option At :=
  (strlen buf).map fun length => .scan buf 0 0 length

/-- `main` for the arguments `base`: the argument lists given to `exec`, in order, and what is left
of the input. -/
def run (base : List (List UInt8)) (runs : Bool) :
    ℕ → At → List Read → List (List (List UInt8)) → Option (List Read × List (List (List UInt8)))
  | 0, _, _, _ => none
  | k + 1, .read buf, input, calls =>
    match input with
    | [] => some ([], calls)
    | .fail :: input => (scanFrom buf).bind fun pos => run base runs k pos input calls
    | .data bytes :: input =>
      if bytes = [] then some (input, calls)
      else if bytes.length ≤ bufSize then
        (scanFrom (buf.splice 0 bytes)).bind fun pos => run base runs k pos input calls
      else
        (scanFrom (buf.splice 0 (bytes.take bufSize))).bind fun pos =>
          run base runs k pos (.data (bytes.drop bufSize) :: input) calls
  | k + 1, .scan buf start i length, input, calls =>
    if i < length then
      if buf.get i = newline then
        let child := buf.splice i [0]
        let calls := calls ++ [base ++ [Grep.cstring child bufSize start]]
        if runs then run base runs k (.scan buf (i + 1) (i + 1) length) input calls
        else
          (run base runs k (.scan child (i + 1) (i + 1) length) input calls).bind fun left =>
            run base runs k (.scan buf (i + 1) (i + 1) length) left.1 left.2
      else run base runs k (.scan buf start (i + 1) length) input calls
    else run base runs k (.read buf) input calls

/-- The argument lists of `exec` in a run of `k` turns, from a `buf` on the stack. -/
def xargs (base : List (List UInt8)) (runs : Bool) (k : ℕ) (buf : Bytes bufSize)
    (input : List Read) : Option (List (List (List UInt8))) :=
  (run base runs k (.read buf) input []).map Prod.snd

/-! ### One pass over `buf` -/

variable {base : List (List UInt8)} {runs : Bool} {buf : Bytes bufSize} {input : List Read}
  {calls : List (List (List UInt8))} {k : ℕ} {pos : At}

/-- **A pass runs the lines of `buf`**, each with the base arguments, from `i` on; `cur` is the part
of the current line before it.  Without a newline there is none, and it does not matter whether
`exec` would run. -/
theorem run_scan (k j start i : ℕ) (cur : List UInt8) (hcur : buf.read start cur.length = cur)
    (hi : start + cur.length = i) (hnl : newline ∉ cur) (h0 : 0 ∉ cur ++ buf.read i j)
    (hlen : i + j < bufSize) (hruns : runs = true ∨ newline ∉ buf.read i j) :
    run base runs (k + (j + 1)) (.scan buf start i (i + j)) input calls =
      run base runs k (.read buf) input
        (calls ++ (lines (cur ++ buf.read i j)).map fun line => base ++ [line]) := by
  induction j generalizing start i cur calls with
  | zero =>
    rw [run, if_neg (by omega)]
    have hnone : lines (cur ++ buf.read i 0) = [] :=
      lines_of_not_mem (by simpa [Bytes.read] using hnl)
    rw [hnone, List.map_nil, List.append_nil]
  | succ j ih =>
    have hread : buf.read i (j + 1) = buf.get i :: buf.read (i + 1) j := Bytes.read_succ ..
    have hsum : i + (j + 1) = i + 1 + j := by omega
    have h0' : (0 ∉ cur) ∧ 0 ≠ buf.get i ∧ 0 ∉ buf.read (i + 1) j := by simpa [hread] using h0
    have hruns' : runs = true ∨ newline ∉ buf.read (i + 1) j :=
      hruns.imp_right fun h hmem => h (hread ▸ .tail _ hmem)
    rw [← Nat.add_assoc, run, if_pos (by omega), hsum]
    split
    · rename_i hget
      obtain rfl : runs = true :=
        hruns.resolve_right fun h => h (by rw [hread, hget]; exact .head _)
      -- the child ends the line with a NUL
      have hline : Grep.cstring (buf.splice i [0]) bufSize start = cur := by
        refine cstring_of_read bufSize (by omega) ?_ h0'.1 ?_
        · rw [Bytes.read_splice_of_disjoint _ _ _ (.inl (by omega)), hcur]
        · rw [hi]
          exact Bytes.get_splice_of_mem buf i [0] (p := 0) Nat.zero_lt_one (by simpa using by omega)
      rw [if_pos rfl,
        ih (i + 1) (i + 1) [] rfl rfl List.not_mem_nil (by simpa using h0'.2.2) (by omega) hruns',
        hline, hread, hget, lines_cons hnl, List.map_cons, List.nil_append, List.append_assoc,
        List.singleton_append]
    · rename_i hget
      have hcur' : buf.read start (cur ++ [buf.get i]).length = cur ++ [buf.get i] := by
        rw [List.length_append, Bytes.read_add, hcur, hi]
        rfl
      have hlist : cur ++ buf.read i (j + 1) = (cur ++ [buf.get i]) ++ buf.read (i + 1) j := by
        simp [hread]
      rw [ih start (i + 1) _ hcur' (by simp [← hi, Nat.add_assoc]) ?_ (by rwa [← hlist]) (by omega)
        hruns', hlist]
      simpa [hnl] using Ne.symm hget

/-! ### One `read` -/

/-- A `buf` of zeros, as on the new stack page, with `old` at its front. -/
def filled (old : List UInt8) : Bytes bufSize := Bytes.splice (fun _ => 0) 0 old

/-- A piece that was read onto what was there before. -/
def onto (old piece : List UInt8) : List UInt8 := piece ++ old.drop piece.length

variable {old piece : List UInt8} {pieces : List (List UInt8)}

theorem filled_nil : filled [] = fun _ => 0 := by
  funext i
  simp [filled, Bytes.splice]

theorem splice_filled (old piece : List UInt8) :
    (filled old).splice 0 piece = filled (onto old piece) := by
  funext i
  simp only [filled, onto, Bytes.splice, Nat.zero_le, if_true, Nat.sub_zero]
  by_cases hi : i.val < piece.length
  · rw [List.getD_append _ _ _ _ hi, List.getD_eq_getElem _ _ hi, List.getD_eq_getElem _ _ hi]
  · rw [List.getD_append_right _ _ _ _ (not_lt.1 hi), List.getD_eq_default _ _ (not_lt.1 hi),
      List.getD_eq_getElem?_getD, List.getD_eq_getElem?_getD, List.getElem?_drop,
      Nat.add_sub_cancel' (not_lt.1 hi)]

theorem mem_onto (h : c ∈ onto old piece) : c ∈ piece ∨ c ∈ old :=
  (List.mem_append.1 h).imp_right List.mem_of_mem_drop

theorem length_onto_lt (hold : old.length < bufSize) (hpiece : piece.length < bufSize) :
    (onto old piece).length < bufSize := by
  rw [onto, List.length_append, List.length_drop]
  omega

theorem get_filled (old : List UInt8) (h : i < bufSize) : (filled old).get i = old.getD i 0 := by
  rw [Bytes.get_eq _ h]
  simp [filled, Bytes.splice]

theorem strlen_filled (h0 : 0 ∉ old) (hlen : old.length < bufSize) :
    strlen (filled old) = some old.length := by
  refine List.find?_range_eq_some.2 ⟨decide_eq_true ?_, List.mem_range.2 hlen, fun i hi => ?_⟩
  · rw [get_filled _ hlen, List.getD_eq_default _ _ le_rfl]
  · rw [get_filled _ (hi.trans hlen), List.getD_eq_getElem _ _ hi]
    simpa using fun h : old[i] = 0 => h0 (h ▸ List.getElem_mem hi)

theorem strlen_filled_full (h0 : 0 ∉ old) (hlen : bufSize ≤ old.length) :
    strlen (filled old) = none := by
  rw [strlen, List.find?_eq_none]
  intro i hi
  rw [List.mem_range] at hi
  rw [get_filled _ hi, List.getD_eq_getElem _ _ (hi.trans_le hlen)]
  simpa using fun h : old[i] = 0 => h0 (h ▸ List.getElem_mem _)

theorem run_read_full (k : ℕ) (h0 : 0 ∉ onto old piece) (hlen : piece.length = bufSize) :
    run base runs k (.read (filled old)) (.data piece :: input) calls = none := by
  cases k with
  | zero => rfl
  | succ k =>
    have hne : piece ≠ [] := by rintro rfl; cases hlen
    have hfull : bufSize ≤ (onto old piece).length := by
      rw [onto, List.length_append]
      omega
    rw [run]
    simp only [hne, hlen.le, if_false, if_true, splice_filled, scanFrom,
      strlen_filled_full h0 hfull, Option.map_none, Option.bind_none]

/-! ### All of them -/

/-- What the passes run, with `old` from before. -/
def scanned : List UInt8 → List (List UInt8) → List (List UInt8)
  | _, [] => []
  | old, piece :: pieces => lines (onto old piece) ++ scanned (onto old piece) pieces

/-- What the loop needs of the pieces to come: no NUL, and no newline if `exec` fails. -/
structure Ready (runs : Bool) (old : List UInt8) (pieces : List (List UInt8)) : Prop where
  ne_nil : [] ∉ pieces
  nul : 0 ∉ old ++ pieces.flatten
  size : old.length < bufSize
  runs : runs = true ∨ newline ∉ old ++ pieces.flatten

theorem not_mem_onto (h : c ∉ old ++ (piece :: pieces).flatten) :
    c ∉ onto old piece ∧ c ∉ onto old piece ++ pieces.flatten := by
  simp only [List.flatten_cons, List.mem_append, not_or] at h
  have honto : c ∉ onto old piece := fun hmem => (mem_onto hmem).elim h.2.1 h.1
  exact ⟨honto, by simp [honto, h.2.2]⟩

theorem Ready.tail (h : Ready runs old (piece :: pieces)) (hlen : piece.length < bufSize) :
    Ready runs (onto old piece) pieces where
  ne_nil hmem := h.ne_nil (.tail _ hmem)
  nul := (not_mem_onto h.nul).2
  size := length_onto_lt h.size hlen
  runs := h.runs.imp_right fun hnl => (not_mem_onto hnl).2

/-- **A `read` and the pass after it.** -/
theorem Ready.run_read (h : Ready runs old (piece :: pieces)) (hlen : piece.length < bufSize) :
    run base runs (k + ((onto old piece).length + 1) + 1) (.read (filled old))
    (.data piece :: input) calls = run base runs k (.read (filled (onto old piece))) input
        (calls ++ (lines (onto old piece)).map fun line => base ++ [line]) := by
  have hne : piece ≠ [] := fun he => h.ne_nil (he ▸ .head _)
  have h0 := (not_mem_onto h.nul).1
  have honto := length_onto_lt h.size hlen
  have hread : (filled (onto old piece)).read 0 (onto old piece).length = onto old piece :=
    Bytes.read_splice _ _ _ (by omega)
  rw [run]
  simp only [hne, hlen.le, if_false, if_true, splice_filled, scanFrom, strlen_filled h0 honto,
    Option.map_some, Option.bind_some]
  have hscan : run base runs _ _ input calls = _ := run_scan k _ 0 0 [] rfl rfl
    List.not_mem_nil (by rwa [List.nil_append, hread]) (by omega)
    (by rw [hread]; exact h.runs.imp_right fun hnl => (not_mem_onto hnl).1)
  rwa [hread, Nat.zero_add, List.nil_append] at hscan

theorem run_pieces (base : List (List UInt8)) (input : List Read) (h : Ready runs old pieces)
    (hlen : ∀ piece ∈ pieces, piece.length < bufSize) :
    ∃ t, ∀ k calls, run base runs (k + t) (.read (filled old)) (pieces.map .data ++ input) calls =
      run base runs k (.read (filled (pieces.foldl onto old))) input
        (calls ++ (scanned old pieces).map fun line => base ++ [line]) := by
  induction pieces generalizing old with
  | nil => exact ⟨0, fun k calls => by simp [scanned]⟩
  | cons piece pieces ih =>
    have hpiece := hlen piece (.head _)
    obtain ⟨t, ht⟩ := ih (h.tail hpiece) fun p hp => hlen p (.tail _ hp)
    refine ⟨t + ((onto old piece).length + 1) + 1, fun k calls => ?_⟩
    rw [List.map_cons, List.cons_append, ← Nat.add_assoc, ← Nat.add_assoc, h.run_read hpiece, ht,
      List.foldl_cons, scanned, List.map_append, List.append_assoc]

/-- A piece that fills `buf` leaves no NUL. -/
theorem exists_run_eq_none (h : Ready runs old pieces)
    (hsize : ∀ piece ∈ pieces, piece.length ≤ bufSize)
    (hfull : ∃ piece ∈ pieces, ¬piece.length < bufSize) (K : ℕ) :
    ∃ k ≥ K, run base runs k (.read (filled old)) (pieces.map .data ++ input) calls = none := by
  induction pieces generalizing old calls with
  | nil => obtain ⟨piece, hmem, -⟩ := hfull; cases hmem
  | cons piece pieces ih =>
    have hle := hsize piece (.head _)
    by_cases hlt : piece.length < bufSize
    · have hrest : ∃ piece ∈ pieces, ¬piece.length < bufSize := by
        obtain ⟨p, hp, hnot⟩ := hfull
        exact ⟨p, (List.mem_cons.1 hp).resolve_left fun he => hnot (he ▸ hlt), hnot⟩
      obtain ⟨k, hk, hnone⟩ := ih (h.tail hlt) (fun p hp => hsize p (.tail _ hp)) hrest
      exact ⟨k + ((onto old piece).length + 1) + 1, by omega, (h.run_read hlt).trans hnone⟩
    · exact ⟨K, le_rfl, run_read_full K (not_mem_onto h.nul).1 (by omega)⟩

/-- The end of the input that `read` reports is used up by the process that ends. -/
theorem count_lt_of_run (h : run base runs k pos input calls = some (left, calls')) :
    left.count (.data []) < input.count (.data []) ∨ left = [] := by
  induction k generalizing pos input calls left calls' with
  | zero => cases h
  | succ k ih =>
    cases pos with
    | read buf =>
      cases input with
      | nil =>
        cases h
        exact .inr rfl
      | cons r input =>
        cases r with
        | fail =>
          rw [run] at h
          obtain ⟨pos, -, h⟩ := Option.bind_eq_some_iff.1 h
          rw [List.count_cons_of_ne (by simp)]
          exact ih h
        | data bytes =>
          rw [run] at h
          split_ifs at h with hnil hle
          · cases h
            rw [hnil, List.count_cons_self]
            exact .inl (Nat.lt_succ_self _)
          · obtain ⟨pos, -, h⟩ := Option.bind_eq_some_iff.1 h
            rw [List.count_cons_of_ne (by simpa using hnil)]
            exact ih h
          · obtain ⟨pos, -, h⟩ := Option.bind_eq_some_iff.1 h
            rw [List.count_cons_of_ne (by simpa using hnil)]
            have hrest := ih h
            rwa [List.count_cons_of_ne (by simpa using hle)] at hrest
    | scan buf start i length =>
      simp only [run] at h
      split_ifs at h
      · exact ih h
      · obtain ⟨⟨left', calls''⟩, hchild, h⟩ := Option.bind_eq_some_iff.1 h
        rcases ih h with hlt | hnil
        · refine .inl (hlt.trans_le ?_)
          rcases ih hchild with hlt' | rfl
          · exact hlt'.le
          · exact Nat.zero_le _
        · exact .inr hnil
      · exact ih h
      · exact ih h

/-! ### The lines -/

/-- No newline of an earlier piece is left behind a piece, and a piece with a newline starts a line.
`old` is what was read before, and `cur` what it has of the current line. -/
def Whole : List UInt8 → List UInt8 → List (List UInt8) → Prop
  | _, _, [] => True
  | old, cur, piece :: pieces => newline ∉ old.drop piece.length ∧ (newline ∈ piece → cur = []) ∧
    Whole (onto old piece) (lastLine (cur ++ piece)) pieces

theorem count_le_scanned (old : List UInt8) (pieces : List (List UInt8)) :
    pieces.flatten.count newline ≤ (scanned old pieces).length := by
  induction pieces generalizing old with
  | nil => exact le_rfl
  | cons piece pieces ih =>
    rw [List.flatten_cons, List.count_append, scanned, List.length_append, length_lines, onto,
      List.count_append]
    have := ih (onto old piece)
    rw [onto] at this
    omega

theorem scanned_of_not_mem (h : newline ∉ old ++ pieces.flatten) : scanned old pieces = [] := by
  induction pieces generalizing old with
  | nil => rfl
  | cons piece pieces ih =>
    rw [scanned, lines_of_not_mem (not_mem_onto h).1, ih (not_mem_onto h).2, List.nil_append]

theorem lines_onto (h : newline ∉ old.drop piece.length) :
    lines (onto old piece) = lines piece := by
  have hrest : newline ∉ lastLine piece ++ old.drop piece.length := by
    rw [List.mem_append, not_or]
    exact ⟨newline_not_mem_lastLine piece, h⟩
  rw [onto, lines_append, lines_of_not_mem hrest, List.append_nil]

/-- **The passes run the lines of the stream** exactly if the pieces are whole lines. -/
theorem scanned_eq_lines_iff (old cur : List UInt8) (hcur : newline ∉ cur)
    (pieces : List (List UInt8)) :
    scanned old pieces = lines (cur ++ pieces.flatten) ↔ Whole old cur pieces := by
  induction pieces generalizing old cur with
  | nil => simp [scanned, Whole, lines_of_not_mem hcur]
  | cons piece pieces ih =>
    rw [scanned, List.flatten_cons, ← List.append_assoc, lines_append, Whole,
      ← ih _ _ (newline_not_mem_lastLine _)]
    -- the same number of lines in front, if nothing old is run
    have hcount : (lines (cur ++ piece)).length = (lines piece).length := by
      rw [length_lines, length_lines, List.count_append, List.count_eq_zero.2 hcur, Nat.zero_add]
    constructor
    · intro h
      have hstale : newline ∉ old.drop piece.length := by
        have hlen := congrArg List.length h
        have hle := count_le_scanned (onto old piece) pieces
        rw [List.length_append, List.length_append, hcount, length_lines (lastLine _ ++ _),
          List.count_append, List.count_eq_zero.2 (newline_not_mem_lastLine _), length_lines,
          length_lines, onto,
          List.count_append] at hlen
        rw [onto] at hle
        rw [← List.count_eq_zero]
        omega
      rw [lines_onto hstale] at h
      obtain ⟨hfront, hrest⟩ := List.append_inj h hcount.symm
      refine ⟨hstale, fun hmem => ?_, hrest⟩
      obtain ⟨line, rest, rfl, hline⟩ := List.eq_append_cons_of_mem hmem
      have hlines : newline ∉ cur ++ line := by
        rw [List.mem_append, not_or]
        exact ⟨hcur, hline⟩
      rw [← List.append_assoc, lines_cons hline, lines_cons hlines, List.cons.injEq] at hfront
      simpa using hfront.1
    · rintro ⟨hstale, hstart, hrest⟩
      have hfront : lines piece = lines (cur ++ piece) := by
        by_cases hmem : newline ∈ piece
        · rw [hstart hmem, List.nil_append]
        · rw [lines_of_not_mem hmem, lines_of_not_mem (by simp [hcur, hmem])]
      rw [lines_onto hstale, hrest, hfront]

/-- **`xargs` did as it should**: it ended where the input does, or where `read` failed, and had run
the command once for each line. -/
def Served (base : List (List UInt8)) (runs : Bool) (pieces : List (List UInt8)) (last : Read) :
    Prop :=
  ∀ rest, ∃ calls, (∃ K, ∀ k ≥ K, run base runs k (.read fun _ => 0)
    (pieces.map .data ++ last :: rest) [] = some (rest, calls)) ∧
    (if runs then calls else []) = (lines pieces.flatten).map fun line => base ++ [line]

/-- **`xargs` runs the command once for each line**, of an input in pieces that ends or fails,
exactly if it ends, each piece leaves room for a NUL, the pieces are whole lines, and the command
runs or there is no line. -/
theorem xargs_runs_lines (base : List (List UInt8)) (runs : Bool) (pieces : List (List UInt8))
    (last : Read) (hlast : last = .data [] ∨ last = .fail) (hne : [] ∉ pieces)
    (h0 : 0 ∉ pieces.flatten) (hsize : ∀ piece ∈ pieces, piece.length ≤ bufSize) :
    Served base runs pieces last ↔ last = .data [] ∧ (∀ piece ∈ pieces, piece.length < bufSize) ∧
      Whole [] [] pieces ∧ (runs = true ∨ newline ∉ pieces.flatten) := by
  have hready : runs = true ∨ newline ∉ pieces.flatten → Ready runs [] pieces := fun hruns =>
    ⟨hne, h0, by decide, hruns⟩
  rw [Served, ← filled_nil]
  constructor
  · intro h
    obtain ⟨calls, ⟨K, hK⟩, hcalls⟩ := h [.data []]
    have hend : last = .data [] := hlast.resolve_right fun hfail => by
      have hnone : (pieces.map Read.data).count (.data []) = 0 :=
        List.count_eq_zero.2 (by simpa using hne)
      have := count_lt_of_run (hK K le_rfl)
      simp [hfail, hnone] at this
    have hruns : runs = true ∨ newline ∉ pieces.flatten := by
      cases runs with
      | true => exact .inl rfl
      | false => exact .inr (lines_eq_nil_iff.1 (List.map_eq_nil_iff.1 hcalls.symm))
    have hlen : ∀ piece ∈ pieces, piece.length < bufSize := by
      by_contra hfull
      simp only [not_forall] at hfull
      obtain ⟨piece, hmem, hnot⟩ := hfull
      obtain ⟨k, hk, hnone⟩ := exists_run_eq_none (hready hruns) hsize ⟨piece, hmem, hnot⟩ K
      rw [hK k hk] at hnone
      cases hnone
    obtain ⟨t, ht⟩ := run_pieces base (last :: [.data []]) (hready hruns) hlen
    have hrun := hK (K + 1 + t) (by omega)
    rw [ht, hend, run, if_pos rfl, Option.some.injEq, Prod.mk.injEq] at hrun
    refine ⟨hend, hlen, (scanned_eq_lines_iff [] [] List.not_mem_nil pieces).1 ?_, hruns⟩
    rcases hruns with rfl | hnl
    · rw [if_pos rfl, ← hrun.2] at hcalls
      exact List.map_injective_iff.2 (fun l l' h => by simpa using h) hcalls
    · rw [scanned_of_not_mem hnl, List.nil_append, lines_of_not_mem hnl]
  · rintro ⟨rfl, hlen, hwhole, hruns⟩ rest
    obtain ⟨t, ht⟩ := run_pieces base (.data [] :: rest) (hready hruns) hlen
    refine ⟨(scanned [] pieces).map fun line => base ++ [line], ⟨t + 1, fun k hk => ?_⟩, ?_⟩
    · obtain ⟨j, rfl⟩ : ∃ j, k = j + 1 + t := ⟨k - t - 1, by omega⟩
      rw [ht]
      rfl
    · have hscanned := (scanned_eq_lines_iff [] [] List.not_mem_nil pieces).2 hwhole
      rcases hruns with rfl | hnl
      · rw [if_pos rfl, hscanned, List.nil_append]
      · rw [hscanned, List.nil_append, lines_of_not_mem hnl]
        exact ite_self _

theorem xargs_runs_lines_two :
    Served [[101]] true [[97, 10, 98, 10], [99, 10, 100, 101]] (.data []) := by
  have hwhole : Whole [] [] [[97, 10, 98, 10], [99, 10, 100, 101]] := by
    refine ⟨by decide, fun _ => rfl, ?_, fun _ => ?_, trivial⟩ <;> decide +kernel
  exact (xargs_runs_lines [[101]] true _ _ (.inl rfl) (by decide) (by decide) (by decide)).2
    ⟨rfl, by decide, hwhole, .inl rfl⟩

/-- **A line that comes in two reads is cut, old bytes are run again, and a failing `read` does not
end the loop.**  The line `ab` is run as `b`; after `ab` a shorter read of `c` leaves a newline,
which runs the command with an empty argument; and a `read` that fails runs the line before it
again. -/
theorem split_line_lost :
    xargs [[101]] true 20 (fun _ => 0) [.data [97], .data [98, 10]] = some [[[101], [98]]] ∧
    lines [97, 98, 10] = [[97, 98]] ∧ xargs [[101]] true 20 (fun _ => 0)
    [.data [97, 98, 10], .data [99, 10]] = some [[[101], [97, 98]], [[101], [99]], [[101], []]] ∧
    xargs [[101]] true 20 (fun _ => 0) [.data [97, 10], .fail] =
    some [[[101], [97]], [[101], [97]]] := by
  refine ⟨?_, ?_, ?_, ?_⟩ <;> decide +kernel

end Xv6.Xargs
