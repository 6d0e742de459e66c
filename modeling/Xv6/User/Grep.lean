/-
# `grep`, whatever pieces its input comes in

`grep` of `user/grep.c`, with `strchr` and `memmove` of `user/ulib.c`.  Each `read` fills up `buf`
behind the `m` bytes left from before; while a line is matched its newline is a NUL, and it stays
one if the line does not match.  A line that does not fit in `buf` fills it; `read` is then asked
for no bytes, and its 0 ends the loop.
-/

import Xv6.User.Match
import Xv6.User.Memmove
import Xv6.Lib.Bytes
import Xv6.Lib.Lines

namespace Xv6.Grep

open Lib

abbrev bufSize : ℕ := 1024

/-! ### The code -/

section Code

variable {n : ℕ} {k p : ℕ} {l : List UInt8} {input ls : List (List UInt8)}

def strchr (x : Bytes n) (c : UInt8) : ℕ → ℕ → Option ℕ
  | 0, _ => none
  | k + 1, s => if x.get s = 0 then none else if x.get s = c then some s else strchr x c k (s + 1)

def cstring (x : Bytes n) : ℕ → ℕ → List UInt8
  | 0, _ => []
  | k + 1, p => if x.get p = 0 then [] else x.get p :: cstring x k (p + 1)

/-- `memmove` inside `x`, in a memory that has `x` at address 0. -/
def memmove (x : Bytes n) (dst src k : ℕ) : Bytes n := fun i =>
  Memmove.Ulib.memmove (fun a => x.get a.toNat) (.ofNat dst) (.ofNat src) (.ofNat k) (.ofNat i)

end Code

def readPiece (n : ℕ) : List (List UInt8) → List UInt8 × List (List UInt8)
  | [] => ([], [])
  | piece :: rest => (piece.take n, if piece.length ≤ n then rest else piece.drop n :: rest)

/-- The inner loop of `grep`, from `p` on: `buf`, `p` and the output after it. -/
def scan (pattern : List UInt8) :
    ℕ → Bytes bufSize → ℕ → List UInt8 → Bytes bufSize × ℕ × List UInt8
  | 0, buf, p, out => (buf, p, out)
  | k + 1, buf, p, out =>
    match strchr buf newline bufSize p with
    | none => (buf, p, out)
    | some q =>
      let buf := buf.splice q [0]
      if matchRe pattern (cstring buf bufSize p) = true then
        let buf := buf.splice q [newline]
        scan pattern k buf (q + 1) (out ++ buf.read p (q + 1 - p))
      else scan pattern k buf (q + 1) out

/-- The outer loop of `grep`, with `m` bytes in `buf`: the output, `none` if `k` turns are not
enough. -/
def grepLoop (pattern : List UInt8) :
    ℕ → Bytes bufSize → ℕ → List (List UInt8) → List UInt8 → Option (List UInt8)
  | 0, _, _, _, _ => none
  | k + 1, buf, m, input, out =>
    let (data, input) := readPiece (bufSize - m - 1) input
    if data = [] then some out
    else
      let buf := buf.splice m data
      let m := m + data.length
      let buf := buf.splice m [0]
      let (buf, p, out) := scan pattern bufSize buf 0 out
      if 0 < m then grepLoop pattern k (memmove buf 0 p (m - p)) (m - p) input out
      else grepLoop pattern k buf m input out

def grep (pattern : List UInt8) (k : ℕ) (buf : Bytes bufSize) (input : List (List UInt8)) :
    Option (List UInt8) :=
  grepLoop pattern k buf 0 input []

/-! ### Lines -/

/-- Those of `ls` that match, whole and in order. -/
def matching (pattern : List UInt8) (ls : List (List UInt8)) : List UInt8 :=
  (ls.filter (matchRe pattern)).flatMap (· ++ [newline])

variable {pattern line : List UInt8}

@[simp] theorem matching_nil (pattern : List UInt8) : matching pattern [] = [] := rfl

theorem matching_cons (pattern line : List UInt8) (ls : List (List UInt8)) :
    matching pattern (line :: ls) =
    (if matchRe pattern line = true then line ++ [newline] else []) ++ matching pattern ls := by
  rw [matching, List.filter_cons]
  split
  · rw [List.flatMap_cons, matching]
  · rw [List.nil_append, matching]

theorem matching_append (pattern : List UInt8) (ls ls' : List (List UInt8)) :
    matching pattern (ls ++ ls') = matching pattern ls ++ matching pattern ls' := by
  rw [matching, List.filter_append, List.flatMap_append, matching, matching]

/-! ### The buffer -/

section Buffer

variable {n : ℕ} {x : Bytes n} {c : UInt8}

theorem strchr_eq_none (fuel : ℕ) (hc : c ∉ x.read p k) (hend : x.get (p + k) = 0) :
    strchr x c fuel p = none := by
  induction fuel generalizing k p with
  | zero => rfl
  | succ fuel ih =>
    rw [strchr]
    split
    · rfl
    rename_i hne
    cases k with
    | zero => exact absurd hend hne
    | succ k =>
      rw [Bytes.read_succ, List.mem_cons, not_or] at hc
      rw [if_neg (Ne.symm hc.1)]
      exact ih hc.2 (by rwa [Nat.add_assoc, Nat.add_comm 1])

theorem strchr_eq_some (fuel : ℕ) (hk : k < fuel) (h0 : 0 ∉ x.read p k) (hc : c ∉ x.read p k)
    (hget : x.get (p + k) = c) (hne : c ≠ 0) : strchr x c fuel p = some (p + k) := by
  induction fuel generalizing k p with
  | zero => omega
  | succ fuel ih =>
    rw [strchr]
    cases k with
    | zero =>
      rw [Nat.add_zero] at hget
      rw [if_neg (by rwa [hget]), if_pos hget]
      rfl
    | succ k =>
      rw [Bytes.read_succ, List.mem_cons, not_or] at h0 hc
      rw [if_neg (Ne.symm h0.1), if_neg (Ne.symm hc.1),
        ih (by omega) h0.2 hc.2 (by rwa [Nat.add_assoc, Nat.add_comm 1]), Nat.add_assoc,
        Nat.add_comm 1]

theorem cstring_eq (fuel : ℕ) (hk : k < fuel) (h0 : 0 ∉ x.read p k) (hend : x.get (p + k) = 0) :
    cstring x fuel p = x.read p k := by
  induction fuel generalizing k p with
  | zero => omega
  | succ fuel ih =>
    rw [cstring]
    cases k with
    | zero =>
      rw [Nat.add_zero] at hend
      rw [if_pos hend]
      rfl
    | succ k =>
      rw [Bytes.read_succ, List.mem_cons, not_or] at h0
      rw [if_neg (Ne.symm h0.1), Bytes.read_succ,
        ih (by omega) h0.2 (by rwa [Nat.add_assoc, Nat.add_comm 1])]

theorem cstring_of_read (fuel : ℕ) (hk : l.length < fuel) (hl : x.read p l.length = l)
    (h0 : 0 ∉ l) (hend : x.get (p + l.length) = 0) : cstring x fuel p = l := by
  rw [cstring_eq fuel hk (by rwa [hl]) hend, hl]

/-- **`memmove` to the front.** -/
theorem read_memmove (hn : src + k ≤ n) (hsize : n < 2 ^ 31) :
    (memmove x 0 src k).read 0 k = x.read src k := by
  refine List.map_congr_left fun i hi => ?_
  have hi := List.mem_range.1 hi
  have htoNat : (UInt64.ofNat src).toNat = src :=
    UInt64.toNat_ofNat_of_lt' ((by omega : src < 2 ^ 31).trans (by decide))
  have hmoved : Memmove.Moved (fun a => x.get a.toNat) (.ofNat 0) (.ofNat src) k _ :=
    Memmove.ulib_moved (by omega) (by omega) (by simpa using by omega)
  have hcopied := hmoved.copied i hi
  rw [Memmove.toNat_addr (by omega), htoNat] at hcopied
  rw [Nat.zero_add, Bytes.get_eq _ (by omega : i < n), memmove, ← hcopied]
  simp

end Buffer

/-! ### The loops -/

/-- **One turn of the inner loop**, at a line. -/
theorem scan_line {buf : Bytes bufSize} {line : List UInt8} (pattern out : List UInt8) (fuel : ℕ)
    (h0 : 0 ∉ line) (hnl : newline ∉ line) (hread : buf.read p line.length = line)
    (hget : buf.get (p + line.length) = newline) (hsize : p + line.length < bufSize) :
    ∃ buf', (∀ i, p + line.length < i → buf'.get i = buf.get i) ∧
    scan pattern (fuel + 1) buf p out = scan pattern fuel buf' (p + line.length + 1)
    (out ++ matching pattern [line]) := by
  have hkeep (x : Bytes bufSize) (c : UInt8) : (x.splice (p + line.length) [c]).read p line.length =
      x.read p line.length := Bytes.read_splice_of_disjoint x _ _ (.inl (Nat.le_refl _))
  have hnew (x : Bytes bufSize) (c : UInt8) :
      (x.splice (p + line.length) [c]).get (p + line.length) = c :=
    Bytes.get_splice_of_mem x _ [c] Nat.zero_lt_one hsize
  have hlater (x : Bytes bufSize) (c : UInt8) (i : ℕ) (hi : p + line.length < i) :
      (x.splice (p + line.length) [c]).get i = x.get i :=
      Bytes.get_splice_of_not_mem x _ _ (.inr hi)
  have hstring : cstring (buf.splice (p + line.length) [0]) bufSize p = line := by
    rw [cstring_eq bufSize (k := line.length) (by omega) (by rwa [hkeep, hread]) (hnew ..),
      hkeep, hread]
  have hwrite : ((buf.splice (p + line.length) [0]).splice (p + line.length) [newline]).read p
      (p + line.length + 1 - p) = line ++ [newline] := by
    rw [show p + line.length + 1 - p = line.length + 1 by omega, Bytes.read_add, hkeep, hkeep,
      hread, Bytes.read_succ, hnew]
    rfl
  rw [scan, strchr_eq_some bufSize (k := line.length) (by omega) (by rwa [hread]) (by rwa
    [hread]) hget (by decide), matching_cons, matching_nil, List.append_nil]
  simp only [hstring, hwrite]
  split
  · refine ⟨_, fun i hi => ?_, rfl⟩
    rw [hlater _ _ i hi, hlater _ _ i hi]
  · rw [List.append_nil]
    exact ⟨_, hlater _ _, rfl⟩

/-- **The inner loop** writes the matching lines of the `k` bytes from `p` on, and stops at what is
left after the last newline. -/
theorem scan_spec (buf : Bytes bufSize) (p k : ℕ) (pattern out : List UInt8) (fuel : ℕ)
    (hfuel : k < fuel) (hsize : p + k < bufSize) (h0 : 0 ∉ buf.read p k)
    (hend : buf.get (p + k) = 0) :
    ∃ buf' p' ls left, scan pattern fuel buf p out = (buf', p', out ++ matching pattern ls) ∧
      p' + left.length = p + k ∧ buf'.read p' left.length = left ∧ newline ∉ left ∧
      left <:+ buf.read p k ∧
      ∀ rest, lines (buf.read p k ++ rest) = ls ++ lines (left ++ rest) := by
  induction fuel generalizing k p buf out with
  | zero => omega
  | succ fuel ih =>
    by_cases hnl : newline ∈ buf.read p k
    · obtain ⟨line, tail, hread, hline⟩ := List.eq_append_cons_of_mem hnl
      have hk : k = line.length + (tail.length + 1) := by
        rw [← Bytes.length_read buf p k, hread, List.length_append, List.length_cons]
      obtain ⟨hreadLine, hreadTail⟩ := Bytes.read_of_append hread
      rw [List.length_cons, Bytes.read_succ, List.cons.injEq] at hreadTail
      rw [hread] at h0 ⊢
      obtain ⟨buf₁, hlater, hstep⟩ :=
        scan_line pattern out fuel (fun h => h0 (List.mem_append_left _ h)) hline hreadLine
          hreadTail.1 (by omega)
      have htail : buf₁.read (p + line.length + 1) tail.length = tail := by
        rw [← hreadTail.2, Bytes.length_read]
        exact List.map_congr_left fun i _ => hlater _ (by omega)
      obtain ⟨buf', p', ls, left, hscan, hp, hleft, hnl', hsuf, hlines⟩ :=
        ih buf₁ (p + line.length + 1) tail.length (out ++ matching pattern [line]) (by omega)
          (by omega) (by rw [htail]; exact fun h => h0 (List.mem_append_right _ (.tail _ h)))
          (by rw [hlater _ (by omega), ← hend, hk]; congr 1; omega)
      rw [htail] at hsuf hlines
      refine ⟨buf', p', line :: ls, left, ?_, by omega, hleft, hnl', ?_, fun rest => ?_⟩
      · rw [hstep, hscan, List.append_assoc, ← matching_append, List.singleton_append]
      · exact hsuf.trans ((List.suffix_cons _ _).trans (List.suffix_append _ _))
      · rw [List.append_assoc, List.cons_append, lines_cons hline, hlines, List.cons_append]
    · rw [scan, strchr_eq_none _ hnl hend]
      exact ⟨buf, p, [], buf.read p k, by rw [matching_nil, List.append_nil], by simp, by
        simp, hnl, List.suffix_refl _,
        fun _ => rfl⟩

theorem readPiece_spec {n : ℕ} {input' : List (List UInt8)} {data : List UInt8} (hne : [] ∉ input)
    (h : readPiece n input = (data, input')) :
    data ++ input'.flatten = input.flatten ∧ data.length ≤ n ∧
      [] ∉ input' ∧ (data = [] → input = [] ∨ n = 0) := by
  cases input with
  | nil =>
    cases h
    simp
  | cons piece rest =>
    rw [List.mem_cons, not_or] at hne
    cases h
    refine ⟨?_, List.length_take_le .., ?_, fun h => ?_⟩
    · split
      · rename_i hle
        rw [List.take_of_length_le hle, List.flatten_cons]
      · rw [List.flatten_cons, ← List.append_assoc, List.take_append_drop, List.flatten_cons]
    · split
      · exact hne.2
      · rename_i hlt
        rw [List.mem_cons, not_or]
        refine ⟨fun h => hlt (List.drop_eq_nil_iff.1 h.symm), hne.2⟩
    · rw [List.take_eq_nil_iff] at h
      rcases h with h | h
      · exact .inr h
      · exact absurd h.symm hne.1

/-- The lines before the first one that does not fit in `buf`. -/
def fitting (ls : List (List UInt8)) : List (List UInt8) :=
  ls.takeWhile fun line => line.length + 1 ≤ 1023

theorem fitting_append (h : ∀ line ∈ ls, line.length + 1 ≤ 1023) (ls' : List (List UInt8)) :
    fitting (ls ++ ls') = ls ++ fitting ls' :=
  List.takeWhile_append_of_pos fun line hline => decide_eq_true (h line hline)

theorem fitting_of_all (h : ∀ line ∈ ls, line.length + 1 ≤ 1023) : fitting ls = ls := by
  have happ := fitting_append h []
  rwa [List.append_nil, fitting, fitting, List.takeWhile_nil, List.append_nil] at happ

/-- A full buffer without a newline holds no line, and the line it is the start of does not fit. -/
theorem fitting_of_full (hnl : newline ∉ l) (hfull : bufSize - l.length - 1 = 0) :
    fitting (lines (l ++ rest)) = [] := by
  by_cases hrest : newline ∈ rest
  · obtain ⟨a, b, rfl, ha⟩ := List.eq_append_cons_of_mem hrest
    have hline : newline ∉ l ++ a := by
      rw [List.mem_append, not_or]
      exact ⟨hnl, ha⟩
    have hlong : ¬(l ++ a).length + 1 ≤ 1023 := by
      rw [List.length_append]
      simp only [bufSize] at hfull
      omega
    rw [← List.append_assoc, lines_cons hline, fitting,
      List.takeWhile_cons_of_neg (by simpa using hlong)]
  · rw [lines_of_not_mem (by rw [List.mem_append, not_or]; exact ⟨hnl, hrest⟩)]
    rfl

/-- **The outer loop**, with the bytes `l` left from before. -/
theorem grepLoop_spec (buf : Bytes bufSize) (pattern out : List UInt8)
    (hl : buf.read 0 l.length = l) (hlen : l.length < bufSize) (hnl : newline ∉ l)
    (h0 : 0 ∉ l ++ input.flatten) (hne : [] ∉ input) (hk : input.flatten.length < k) :
    grepLoop pattern k buf l.length input out =
    some (out ++ matching pattern (fitting (lines (l ++ input.flatten)))) := by
  induction k generalizing buf l input out with
  | zero => omega
  | succ k ih =>
    rw [grepLoop]
    rcases hpiece : readPiece (bufSize - l.length - 1) input with ⟨data, input'⟩
    obtain ⟨hdata, hle, hne', hstop⟩ := readPiece_spec hne hpiece
    simp only
    split
    · rename_i hnil
      have hnone : fitting (lines (l ++ input.flatten)) = [] := by
        rcases hstop hnil with rfl | hfull
        · rw [List.flatten_nil, List.append_nil, lines_of_not_mem hnl]
          rfl
        · exact fitting_of_full hnl hfull
      rw [hnone, matching_nil, List.append_nil]
    rename_i hsome
    have hpos : 0 < data.length := List.length_pos_of_ne_nil hsome
    have hroom : l.length + data.length < bufSize := by omega
    rw [if_pos (by omega)]
    set buf₁ := (buf.splice l.length data).splice (l.length + data.length) [0] with hbuf₁
    have hread : buf₁.read 0 (l.length + data.length) = l ++ data := by
      rw [hbuf₁, Bytes.read_splice_of_disjoint _ _ _ (.inl (by omega)), Bytes.read_add,
        Nat.zero_add, Bytes.read_splice _ _ _ (by omega), Bytes.read_splice_of_disjoint _ _ _
        (.inl (by omega)), hl]
    rw [← hdata, ← List.append_assoc] at h0 ⊢
    have hend : buf₁.get (0 + (l.length + data.length)) = 0 := by
      rw [Nat.zero_add]
      exact Bytes.get_splice_of_mem _ _ [0] Nat.zero_lt_one hroom
    obtain ⟨buf₂, p, ls, left, hscan, hp, hleft, hnl', hsuf, hlines⟩ :=
      scan_spec buf₁ 0 (l.length + data.length) pattern out bufSize hroom (by omega)
        (by rw [hread]; exact fun h => h0 (List.mem_append_left _ h)) hend
    rw [hread] at hsuf hlines
    -- the lines that are complete in the buffer fit in it
    have hls : ∀ line ∈ ls, line.length + 1 ≤ 1023 := fun line hline => by
      have hall := hlines []
      rw [List.append_nil, List.append_nil, lines_of_not_mem hnl', List.append_nil] at hall
      have : line.length + 1 ≤ (l ++ data).length := length_lt_of_mem_lines (by rwa [hall])
      rw [List.length_append] at this
      simp only [bufSize] at hroom
      omega
    rw [hlines, fitting_append hls]
    have hlength : data.length + input'.flatten.length < k + 1 := by
      rwa [← List.length_append, hdata]
    have hrest : l.length + data.length - p = left.length := by omega
    simp only [hscan, hrest]
    rw [ih _ (l := left) _ (by rw [read_memmove (by omega) (by decide), hleft])
      (by omega) hnl' ?_ hne' (by omega), List.append_assoc, matching_append]
    exact fun h => h0 ((List.mem_append.1 h).elim (fun h => List.mem_append_left _ (hsuf.subset h))
      (List.mem_append_right _))

/-- **What `grep` writes**, of any stream without NULs: the lines that match, whole and in order, up
to the first line that does not fit in `buf`. -/
theorem grep_eq_fitting (pattern : List UInt8) (input : List (List UInt8)) (buf : Bytes bufSize)
    (hne : ∀ piece ∈ input, piece ≠ []) (h0 : 0 ∉ input.flatten) (hk : input.flatten.length < k) :
    grep pattern k buf input = some (matching pattern (fitting (lines input.flatten))) := by
  have h := grepLoop_spec buf (l := []) pattern [] rfl (Nat.zero_lt_succ _) (List.not_mem_nil) h0
    (fun h => hne [] h rfl) hk
  rwa [List.nil_append, List.nil_append] at h

/-- **`grep` does not depend on how its input is cut into pieces**: of a stream without NULs whose
lines are short enough for `buf`, it writes the lines that match, whole and in order. -/
theorem grep_eq_lines (pattern : List UInt8) (input : List (List UInt8)) (buf : Bytes bufSize)
    (hne : ∀ piece ∈ input, piece ≠ []) (h0 : 0 ∉ input.flatten)
    (hmax : ∀ line ∈ lines input.flatten, line.length + 1 ≤ 1023) {k : ℕ}
    (hk : input.flatten.length < k) :
    grep pattern k buf input = some (matching pattern (lines input.flatten)) := by
  rw [grep_eq_fitting pattern input buf hne h0 hk, fitting_of_all hmax]

/-- Two lines in three pieces; only the first has a `b`. -/
theorem grep_eq_lines_pieces : (∀ piece ∈ [[97], [98, 10, 99], [10]], piece ≠ ([] : List UInt8)) ∧
    grep [98] 6 (fun _ => 0) [[97], [98, 10, 99], [10]] = some [97, 98, 10] :=
  ⟨by decide, grep_eq_lines [98] [[97], [98, 10, 99], [10]] (fun _ => 0) (by decide) (by decide)
    (by decide) (by decide)⟩

/-- **A line is written if it matches and no line up to it is longer than 1022 bytes**, whatever
comes after it. -/
theorem grep_writes_line (pattern : List UInt8) (input : List (List UInt8)) (buf : Bytes bufSize)
    (hne : ∀ piece ∈ input, piece ≠ []) (h0 : 0 ∉ input.flatten) {k : ℕ}
    (hk : input.flatten.length < k) {before after : List (List UInt8)} {line : List UInt8}
    (hlines : lines input.flatten = before ++ line :: after)
    (hbefore : ∀ l ∈ before, l.length ≤ 1022) (hline : line.length ≤ 1022)
    (hmatch : matchRe pattern line = true) :
    ∃ rest, grep pattern k buf input =
    some (matching pattern before ++ (line ++ [newline]) ++ rest) := by
  have hfit : ∀ l ∈ before ++ [line], l.length + 1 ≤ 1023 := fun l hl => by
    rcases List.mem_append.1 hl with hl | hl
    · have := hbefore l hl
      omega
    · rw [List.mem_singleton.1 hl]
      omega
  refine ⟨matching pattern (fitting after), ?_⟩
  rw [grep_eq_fitting pattern input buf hne h0 hk, hlines, List.append_cons, fitting_append hfit,
    matching_append, matching_append, matching_cons, if_pos hmatch, matching_nil, List.append_nil]

/-- The second line has a `b`; the third is too long. -/
theorem grep_writes_line_second : ∃ rest, grep [98] 1031 (fun _ => 0)
    [[97, 10, 98], 10 :: List.replicate 1024 97, [10]] = some ([98, 10] ++ rest) := by
  have hlines : lines [[97, 10, 98], 10 :: List.replicate 1024 97, [10]].flatten =
      [[97]] ++ [98] :: [List.replicate 1024 97] := by decide +kernel
  exact grep_writes_line [98] _ (fun _ => 0) (by decide +kernel) (by decide +kernel)
    (by decide +kernel) hlines (by decide) (by decide) (by decide)

/-- **A long line hides the next one.**  The stream is a line of 1023 bytes and the line `b`, which
matches: `grep` writes nothing. -/
theorem long_line_hides_next : [98] ∈ lines [List.replicate 1023 97, [10, 98, 10]].flatten ∧
    matchRe [98] [98] = true ∧
    grep [98] 1027 (fun _ => 0) [List.replicate 1023 97, [10, 98, 10]] = some [] := by
  have hlines : lines [List.replicate 1023 97, [10, 98, 10]].flatten = [List.replicate 1023 97,
      [98]] := by
    decide +kernel
  refine ⟨?_, by decide, ?_⟩
  · rw [hlines]
    exact .tail _ (.head _)
  · rw [grep_eq_fitting [98] _ (fun _ => 0) (by decide +kernel) (by decide +kernel)
      (by decide +kernel), hlines]
    decide +kernel

end Xv6.Grep
