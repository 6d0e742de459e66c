/-
# The lines the shell reads

`getcmd` and the loop of `main` of `user/sh.c`, with `gets` of `user/ulib.c`.  `gets` stops after a
newline or a carriage return, at the end of the input, or after 99 bytes.  A line that starts with
`cd ` loses its last byte, whatever it is, and goes to `chdir`; the others go to `parsecmd`.
-/

import Mathlib.Data.List.TakeWhile
import Xv6.User.Grep

namespace Xv6.Sh.Input

open Lib
open Grep (readPiece)

/-! ### The code -/

def carriageReturn : UInt8 := 13

/-- `sizeof(buf)` of the shell. -/
abbrev cmdSize : ℕ := 100

/-- The loop of `gets`, with room for `k` more bytes. -/
def getsFrom {n : ℕ} : ℕ → Bytes n → ℕ → List (List UInt8) → Bytes n × List (List UInt8)
  | 0, buf, i, input => (buf.splice i [0], input)
  | k + 1, buf, i, input =>
    match readPiece 1 input with
    | ([], input) => (buf.splice i [0], input)
    | (c :: _, input) =>
      let buf := buf.splice i [c]
      if c = newline ∨ c = carriageReturn then (buf.splice (i + 1) [0], input)
      else getsFrom k buf (i + 1) input

def gets {n : ℕ} (buf : Bytes n) (max : ℕ) (input : List (List UInt8)) :
    Bytes n × List (List UInt8) :=
  getsFrom (max - 1) buf 0 input

def getcmd (input : List (List UInt8)) : Option (Bytes cmdSize × List (List UInt8)) :=
  let (buf, input) := gets (fun _ => 0 : Bytes cmdSize) cmdSize input
  if buf.get 0 = 0 then none else some (buf, input)

inductive Command
  | parsecmd (s : List UInt8)
  | chdir (path : List UInt8)
deriving DecidableEq

def handle (buf : Bytes cmdSize) : Command :=
  if buf.get 0 = 99 ∧ buf.get 1 = 100 ∧ buf.get 2 = 32 then
    let buf := buf.splice ((Grep.cstring buf cmdSize 0).length - 1) [0]
    .chdir (Grep.cstring buf cmdSize 3)
  else .parsecmd (Grep.cstring buf cmdSize 0)

/-- The loop of `main`: the commands, `none` if `k` turns are not enough. -/
def main : ℕ → List (List UInt8) → Option (List Command)
  | 0, _ => none
  | k + 1, input =>
    match getcmd input with
    | none => some []
    | some (buf, input) => (main k input).map (handle buf :: ·)

/-! ### The lines of a stream -/

/-- The lines, each with its newline, and what follows the last of them. -/
def wholeLines (stream : List UInt8) : List (List UInt8) :=
  (lines stream).map (· ++ [newline]) ++ [lastLine stream].filter (· ≠ [])

def cdSpace : List UInt8 := [99, 100, 32]

/-- What a line asks for: `chdir` to the text after `cd `, or to be parsed. -/
def command (line : List UInt8) : Command :=
  if cdSpace <+: line then .chdir ((line.drop 3).takeWhile (· ≠ newline)) else .parsecmd line

/-- The lines that `gets` takes whole, and that keep the text after `cd `. -/
structure Fits (line : List UInt8) : Prop where
  length_lt : line.length < cmdSize
  cr : carriageReturn ∉ line.dropLast
  cd : cdSpace <+: line → line.getLast? = some newline ∨ line = cdSpace

variable {line stream : List UInt8} {rest : List UInt8} {i n : ℕ} {input : List (List UInt8)}

/-- `line` is a line of a stream that goes on with `rest`. -/
structure IsLine (line rest : List UInt8) : Prop where
  ne_nil : line ≠ []
  inner : newline ∉ line.dropLast
  ends : line.getLast? = some newline ∨ rest = []

theorem IsLine.cases (h : IsLine line rest) :
    (∃ text, newline ∉ text ∧ line = text ++ [newline]) ∨ newline ∉ line ∧ rest = [] := by
  obtain ⟨text, c, rfl⟩ := (List.eq_nil_or_concat' line).resolve_left h.ne_nil
  have hinner := h.inner
  rw [List.dropLast_concat] at hinner
  by_cases hc : c = newline
  · exact .inl ⟨text, hinner, by rw [hc]⟩
  · refine .inr ⟨?_, h.ends.resolve_left (by simpa using hc)⟩
    simpa [hinner] using Ne.symm hc

theorem IsLine.wholeLines_append (h : IsLine line rest) :
    wholeLines (line ++ rest) = line :: wholeLines rest := by
  rcases h.cases with ⟨text, htext, rfl⟩ | ⟨hnl, rfl⟩
  · rw [List.append_assoc, List.singleton_append, wholeLines, lines_cons htext, lastLine_cons htext,
      List.map_cons, List.cons_append, wholeLines]
  · rw [List.append_nil, wholeLines, lines_of_not_mem hnl, lastLine_of_not_mem hnl]
    simp [h.ne_nil, show wholeLines [] = [] from rfl]

theorem exists_isLine (h : stream ≠ []) :
    ∃ line rest, stream = line ++ rest ∧ IsLine line rest := by
  by_cases hnl : newline ∈ stream
  · obtain ⟨text, rest, rfl, htext⟩ := List.eq_append_cons_of_mem hnl
    refine ⟨text ++ [newline], rest, by simp, by simp, ?_, .inl (by simp)⟩
    rwa [List.dropLast_concat]
  · exact ⟨stream, [], (List.append_nil _).symm, h,
      fun hm => hnl (List.mem_of_mem_dropLast hm), .inr rfl⟩

/-- What is left of a line is a line. -/
theorem IsLine.of_append {front : List UInt8} (h : IsLine (front ++ line) rest) (hne : line ≠ []) :
    IsLine line rest where
  ne_nil := hne
  inner hmem := h.inner (by
    rw [List.dropLast_append_of_ne_nil hne]
    exact List.mem_append_right _ hmem)
  ends := by
    have hends := h.ends
    rwa [List.getLast?_append_of_ne_nil _ hne] at hends

/-! ### One call of `gets` -/

/-- The bytes that `gets` takes from a stream, with room for `k`. -/
def taken : ℕ → List UInt8 → List UInt8
  | 0, _ => []
  | _ + 1, [] => []
  | k + 1, c :: stream => if c = newline ∨ c = carriageReturn then [c] else c :: taken k stream

theorem taken_le (k : ℕ) (stream : List UInt8) : taken k stream <+: stream := by
  fun_induction taken k stream with
  | case1 => exact List.nil_prefix
  | case2 => exact List.nil_prefix
  | case3 k c stream hc => exact ⟨stream, rfl⟩
  | case4 k c stream hc ih => exact List.prefix_cons_inj c |>.2 ih

theorem length_taken_le (k : ℕ) (stream : List UInt8) : (taken k stream).length ≤ k := by
  fun_induction taken k stream with
  | case1 => exact le_rfl
  | case2 => exact Nat.zero_le _
  | case3 k c stream hc => exact Nat.succ_le_succ (Nat.zero_le _)
  | case4 k c stream hc ih => exact Nat.succ_le_succ ih

theorem taken_ne_nil (k : ℕ) (h : stream ≠ []) : taken (k + 1) stream ≠ [] := by
  cases stream with
  | nil => exact absurd rfl h
  | cons c stream =>
    rw [taken]
    split <;> simp

/-- No more than the line is taken. -/
theorem taken_append (h : newline ∈ line ∨ rest = []) (k : ℕ) :
    taken k (line ++ rest) = taken k line := by
  fun_induction taken k line with
  | case1 => rfl
  | case2 =>
    rw [h.resolve_left List.not_mem_nil]
    rfl
  | case3 k c line hc => rw [List.cons_append, taken, if_pos hc]
  | case4 k c line hc ih =>
    rw [List.cons_append, taken, if_neg hc, ih]
    exact h.imp_left fun hm => (List.mem_cons.1 hm).resolve_left fun he => hc (.inl he.symm)

theorem taken_eq_self_iff (k : ℕ) (h : newline ∉ line.dropLast) :
    taken k line = line ↔ line.length ≤ k ∧ carriageReturn ∉ line.dropLast := by
  fun_induction taken k line with
  | case1 line => simpa [eq_comm] using fun h => by simp [h]
  | case2 => simp
  | case3 k c line hc =>
    cases line with
    | nil => simp
    | cons d line =>
      rw [List.dropLast_cons_of_ne_nil (List.cons_ne_nil _ _), List.mem_cons, not_or] at h ⊢
      have hcr : c = carriageReturn := hc.resolve_left (Ne.symm h.1)
      simp [hcr]
  | case4 k c line hc ih =>
    rw [not_or] at hc
    cases line with
    | nil => simp [taken_le k [] |>.eq_of_length_le]
    | cons d line =>
      rw [List.dropLast_cons_of_ne_nil (List.cons_ne_nil _ _), List.mem_cons, not_or] at h ⊢
      rw [List.cons.injEq, ih h.2]
      simp [Ne.symm hc.2]

/-- What `gets` leaves in `buf` from `i` on, and on the input. -/
structure Got {n : ℕ} (buf : Bytes n) (i : ℕ) (line rest : List UInt8)
    (res : Bytes n × List (List UInt8)) : Prop where
  text : res.1.read i line.length = line
  nul : res.1.get (i + line.length) = 0
  kept : ∀ j < i, res.1.get j = buf.get j
  flatten : res.2.flatten = rest
  ne_nil : [] ∉ res.2

theorem get_splice_self (buf : Bytes n) (hi : i < n) (c : UInt8) : (buf.splice i [c]).get i = c :=
  Bytes.get_splice_of_mem buf i [c] (p := 0) Nat.zero_lt_one hi

theorem Got.nil (buf : Bytes n) (hi : i < n) (hne : [] ∉ input) :
    Got buf i [] input.flatten (buf.splice i [0], input) where
  text := rfl
  nul := get_splice_self buf hi 0
  kept _ hj := Bytes.get_splice_of_not_mem _ _ _ (.inl hj)
  flatten := rfl
  ne_nil := hne

theorem Got.cons {buf : Bytes n} {c : UInt8} {res : Bytes n × List (List UInt8)}
    (hi : i < n) (h : Got (buf.splice i [c]) (i + 1) line rest res) :
    Got buf i (c :: line) rest res where
  text := by rw [List.length_cons, Bytes.read_succ, h.text, h.kept i (Nat.lt_succ_self i),
    get_splice_self buf hi]
  nul := by rw [List.length_cons, Nat.add_comm line.length, ← Nat.add_assoc, h.nul]
  kept j hj := by rw [h.kept j (by omega), Bytes.get_splice_of_not_mem _ _ _ (.inl hj)]
  flatten := h.flatten
  ne_nil := h.ne_nil

/-- **`gets` takes its bytes**, however the input is cut into pieces. -/
theorem got_getsFrom (k : ℕ) (buf : Bytes n) (i : ℕ) (hne : [] ∉ input)
    (hstream : input.flatten = stream) (hn : i + k < n) :
    Got buf i (taken k stream) (stream.drop (taken k stream).length) (getsFrom k buf i input) := by
  induction k generalizing buf i stream input with
  | zero => exact hstream ▸ Got.nil buf hn hne
  | succ k ih =>
    rcases hread : readPiece 1 input with ⟨data, input'⟩
    obtain ⟨hflat, hlen, hne', hend⟩ := Grep.readPiece_spec hne hread
    rw [hstream] at hflat
    cases data with
    | nil =>
      obtain rfl := (hend rfl).resolve_right Nat.one_ne_zero
      rw [← hstream]
      simp only [getsFrom, hread]
      have hgot := Got.nil buf (by omega : i < n) hne'
      rwa [← List.nil_append input'.flatten, hflat, ← hstream] at hgot
    | cons c data =>
      obtain rfl : data = [] := List.length_eq_zero_iff.1 (by rw [List.length_cons] at hlen; omega)
      obtain rfl : c :: input'.flatten = stream := hflat
      simp only [getsFrom, hread, taken]
      split
      · exact Got.cons (by omega) (Got.nil _ (by omega) hne')
      · exact Got.cons (by omega) (ih _ (i + 1) hne' rfl (by omega))

/-! ### One command -/

theorem Got.cstring (h : Got buf 0 line rest res)
    (h0 : 0 ∉ line) (hlen : line.length < cmdSize) : Grep.cstring res.1 cmdSize 0 = line :=
  Grep.cstring_of_read cmdSize hlen h.text h0 h.nul

/-- The test for `cd ` is one of the line: it stops at the NUL if the line is shorter. -/
theorem cdSpace_prefix_iff {buf : Bytes n} (htext : buf.read 0 line.length = line)
    (hnul : buf.get line.length = 0) :
    (buf.get 0 = 99 ∧ buf.get 1 = 100 ∧ buf.get 2 = 32) ↔ cdSpace <+: line := by
  match line with
  | [] => simp_all [cdSpace]
  | [a] => simp_all [cdSpace]
  | [a, b] => simp_all [cdSpace]
  | a :: b :: c :: line =>
    simp only [List.length_cons, Bytes.read_succ, List.cons.injEq] at htext
    simp [cdSpace, ← htext.1, ← htext.2.1, ← htext.2.2.1, eq_comm]

/-- What `main` does with a line in `buf`: one that starts with `cd ` loses its last byte. -/
def handled (line : List UInt8) : Command :=
  if cdSpace <+: line then .chdir (line.dropLast.drop 3) else .parsecmd line

theorem handle_eq_handled {buf : Bytes cmdSize} {res : Bytes cmdSize × List (List UInt8)}
    (h : Got buf 0 line rest res) (h0 : 0 ∉ line) (hlen : line.length < cmdSize) :
    handle res.1 = handled line := by
  have htest := cdSpace_prefix_iff h.text (by simpa using h.nul)
  rw [handle, handled]
  simp only [htest, h.cstring h0 hlen]
  split
  · rename_i hpre
    obtain ⟨path, rfl⟩ := hpre
    have hread := (Bytes.read_of_append h.text).2
    have hlength : (cdSpace ++ path).length = 3 + path.length := List.length_append
    have hnul := h.nul
    rw [hlength] at hlen hnul ⊢
    rcases List.eq_nil_or_concat' path with rfl | ⟨path, c, rfl⟩
    · -- the chop ends `cd`, before the text
      have hend : (res.1.splice 2 [0]).get 3 = 0 := by
        exact (Bytes.get_splice_of_not_mem res.1 2 [0] (.inr le_rfl)).trans hnul
      exact congrArg _
        (Grep.cstring_of_read (l := []) cmdSize (by decide) rfl List.not_mem_nil hend)
    · rw [List.length_append, List.length_singleton] at hlen ⊢
      have hdrop : (cdSpace ++ (path ++ [c])).dropLast.drop 3 = path := by
        rw [← List.append_assoc, List.dropLast_concat]
        rfl
      rw [hdrop, Grep.cstring_of_read (l := path) cmdSize (by omega) ?_ ?_ ?_]
      · rw [Bytes.read_splice_of_disjoint _ _ _ (.inl (by omega))]
        exact (Bytes.read_of_append hread).1
      · exact fun hmem => h0 (List.mem_append_right _ (List.mem_append_left _ hmem))
      · exact get_splice_self _ (by omega) 0
  · rfl

/-- **A command is what its line asks for**, unless `cd ` loses a byte of the text. -/
theorem handled_eq_command_iff (h : IsLine line rest) : handled line = command line ↔
    (cdSpace <+: line → line.getLast? = some newline ∨ line = cdSpace) := by
  rw [handled, command]
  by_cases hpre : cdSpace <+: line
  · simp only [hpre, if_true, Command.chdir.injEq, true_imp_iff]
    rcases h.cases with ⟨text, htext, rfl⟩ | ⟨hnl, -⟩
    · have hpath : newline ∉ text.drop 3 := fun hmem => htext (List.mem_of_mem_drop hmem)
      have hlong : 3 ≤ text.length := by
        have hlast : cdSpace ≠ text ++ [newline] := fun he => by
          simpa [cdSpace, newline] using congrArg List.getLast? he
        exact ((List.prefix_concat_iff.1 hpre).resolve_left hlast).length_le
      rw [List.dropLast_concat, List.drop_append_of_le_length hlong,
        List.takeWhile_append_of_pos fun c hc => ?_]
      · simp
      · exact decide_eq_true fun he => hpath (he ▸ hc)
    · obtain ⟨path, rfl⟩ := hpre
      have hpath : newline ∉ path := fun hmem => hnl (List.mem_append_right _ hmem)
      have hlast : (cdSpace ++ path).getLast? ≠ some newline :=
        fun he => hnl (List.mem_of_getLast? he)
      have hall : path.takeWhile (fun c => decide (c ≠ newline)) = path :=
        List.takeWhile_eq_self_iff.2 fun c hc => decide_eq_true fun he => hpath (he ▸ hc)
      rw [or_iff_right hlast, show (cdSpace ++ path).drop 3 = path from rfl, hall]
      rcases List.eq_nil_or_concat' path with rfl | ⟨path, c, rfl⟩
      · simp [cdSpace]
      · rw [← List.append_assoc, List.dropLast_concat]
        simp [cdSpace]
  · simp [hpre]

/-! ### The loop -/

theorem eq_nil_of_flatten (hne : [] ∉ input) (h : input.flatten = []) : input = [] := by
  cases input with
  | nil => rfl
  | cons piece input =>
    rw [List.flatten_cons, List.append_eq_nil_iff] at h
    exact absurd (h.1 ▸ List.mem_cons_self ..) hne

theorem main_nil (k : ℕ) : main (k + 1) [] = some [] := by
  have hcmd : getcmd [] = none := by decide +kernel
  rw [main, hcmd]

theorem main_step (k : ℕ) (hne : [] ∉ input) (hstream : input.flatten = stream) (hs : stream ≠ [])
    (h0 : 0 ∉ stream) : ∃ input', input'.flatten = stream.drop (taken 99 stream).length ∧
    [] ∉ input' ∧ main (k + 1) input = (main k input').map (handled (taken 99 stream) :: ·) := by
  have hgot :
      Got (fun _ => 0) 0 (taken 99 stream) _ (gets (fun _ => 0 : Bytes cmdSize) cmdSize input) :=
    got_getsFrom 99 _ 0 hne hstream (by decide)
  have h0' : 0 ∉ taken 99 stream := fun hmem => h0 ((taken_le 99 stream).subset hmem)
  have hfirst : (gets (fun _ => 0 : Bytes cmdSize) cmdSize input).1.get 0 ≠ 0 := by
    have htext := hgot.text
    cases ht : taken 99 stream with
    | nil => exact absurd ht (taken_ne_nil 98 hs)
    | cons c line =>
      rw [ht] at htext h0'
      rw [List.length_cons, Bytes.read_succ] at htext
      rw [(List.cons.inj htext).1]
      exact fun he => h0' (he ▸ List.mem_cons_self ..)
  refine ⟨_, hgot.flatten, hgot.ne_nil, ?_⟩
  rw [main, getcmd]
  simp only [hfirst, if_false, handle_eq_handled hgot h0' (Nat.lt_succ_of_le (length_taken_le ..))]

/-- Where `gets` stops in a line: at its end, or before a rest that is a line again. -/
theorem IsLine.taken_cases (h : IsLine line rest) : taken 99 (line ++ rest) = line ∨
    taken 99 (line ++ rest) ≠ line ∧ ∃ tail, IsLine tail rest ∧
      (line ++ rest).drop (taken 99 (line ++ rest)).length = tail ++ rest := by
  rw [taken_append (h.ends.imp_left List.mem_of_getLast?) 99]
  obtain ⟨tail, htail⟩ := taken_le 99 line
  by_cases hnil : tail = []
  · exact .inl (by rwa [hnil, List.append_nil] at htail)
  · have hdrop : (taken 99 line ++ (tail ++ rest)).drop (taken 99 line).length = tail ++ rest :=
      List.drop_left
    rw [← List.append_assoc, htail] at hdrop
    refine .inr ⟨fun he => hnil ?_, tail, (htail ▸ h).of_append hnil, hdrop⟩
    rwa [he, List.append_right_eq_self] at htail

/-- There is a command for each line, at least. -/
theorem length_wholeLines_le (k : ℕ) (hne : [] ∉ input) (h0 : 0 ∉ input.flatten)
    (hmain : main k input = some cmds) : (wholeLines input.flatten).length ≤ cmds.length := by
  induction k generalizing input cmds with
  | zero => cases hmain
  | succ k ih =>
    by_cases hnil : input.flatten = []
    · rw [hnil]
      exact Nat.zero_le _
    obtain ⟨input', hflat, hne', hstep⟩ := main_step k hne rfl hnil h0
    rw [hmain, eq_comm, Option.map_eq_some_iff] at hstep
    obtain ⟨cmds, hrest, rfl⟩ := hstep
    have hle := ih hne' (fun hmem => h0 (List.mem_of_mem_drop (hflat ▸ hmem))) hrest
    obtain ⟨line, rest, hstream, hline⟩ := exists_isLine hnil
    rw [hflat, hstream] at hle
    rw [hstream, hline.wholeLines_append, List.length_cons, List.length_cons]
    rcases hline.taken_cases with htaken | ⟨-, tail, htail, hdrop⟩
    · rw [htaken, List.drop_left] at hle
      omega
    · rw [hdrop, htail.wholeLines_append, List.length_cons] at hle
      omega

/-- **The shell runs one command per line**, however `read` delivers them, exactly if every line
fits: it has at most 98 bytes and its newline, or 99 without, no carriage return but as its last
byte, and a newline at its end if it starts with `cd ` and has more text. -/
theorem main_handles_lines (input : List (List UInt8)) (hne : [] ∉ input) (h0 : 0 ∉ input.flatten)
    (k : ℕ) (hk : input.flatten.length < k) :
    main k input = some ((wholeLines input.flatten).map command) ↔
      ∀ line ∈ wholeLines input.flatten, Fits line := by
  induction k generalizing input with
  | zero => omega
  | succ k ih =>
    by_cases hnil : input.flatten = []
    · obtain rfl := eq_nil_of_flatten hne hnil
      simp [main_nil, show wholeLines [] = [] from rfl]
    obtain ⟨input', hflat, hne', hstep⟩ := main_step k hne rfl hnil h0
    have h0' : 0 ∉ input'.flatten := fun hmem => h0 (List.mem_of_mem_drop (hflat ▸ hmem))
    have hpos : 0 < (taken 99 input.flatten).length :=
      List.length_pos_of_ne_nil (taken_ne_nil 98 hnil)
    have hs := List.length_pos_of_ne_nil hnil
    have hlength : input'.flatten.length < k := by
      rw [hflat, List.length_drop]
      omega
    obtain ⟨line, rest, hstream, hline⟩ := exists_isLine hnil
    have hfits : taken 99 (line ++ rest) = line ↔ line.length < cmdSize ∧
        carriageReturn ∉ line.dropLast := by
      rw [taken_append (hline.ends.imp_left List.mem_of_getLast?) 99,
        taken_eq_self_iff 99 hline.inner, Nat.lt_succ_iff]
    rw [hstream] at hflat hstep
    rw [hstep, hstream, hline.wholeLines_append, List.map_cons, List.forall_mem_cons,
      Option.map_eq_some_iff]
    rcases hline.taken_cases with htaken | ⟨hshort, tail, htail, hdrop⟩
    · rw [htaken, List.drop_left] at hflat
      have hrest := ih input' hne' h0' hlength
      rw [hflat] at hrest
      have hcmd := handled_eq_command_iff hline
      rw [htaken]
      constructor
      · rintro ⟨cmds, hmain, heq⟩
        obtain ⟨hhead, rfl⟩ := List.cons.inj heq
        exact ⟨⟨(hfits.1 htaken).1, (hfits.1 htaken).2, hcmd.1 hhead⟩, hrest.1 hmain⟩
      · rintro ⟨hfit, hall⟩
        exact ⟨_, hrest.2 hall, by rw [hcmd.2 hfit.cd]⟩
    · -- a line in two pieces is two commands
      refine ⟨fun ⟨cmds, hmain, heq⟩ => ?_,
        fun hall => absurd (hfits.2 ⟨hall.1.length_lt, hall.1.cr⟩) hshort⟩
      have hle := length_wholeLines_le k hne' h0' hmain
      rw [hflat, hdrop, htail.wholeLines_append, (List.cons.inj heq).2, List.length_cons,
        List.length_map] at hle
      omega

theorem main_handles_lines_two : main 12 [[108], [115, 10, 99, 100], [32, 97, 10, 98, 13]] =
    some [.parsecmd [108, 115, 10], .chdir [97], .parsecmd [98, 13]] :=
  (main_handles_lines [[108], [115, 10, 99, 100], [32, 97, 10, 98, 13]] (by decide) (by decide) 12
    (by decide)).2 (by
    have hlines : wholeLines [[108], [115, 10, 99, 100], [32, 97, 10, 98, 13]].flatten =
        [[108, 115, 10], [99, 100, 32, 97, 10], [98, 13]] := by decide +kernel
    rw [hlines]
    intro line hline
    exact ⟨by revert line; decide, by revert line; decide, by revert line; decide⟩)

/-- **A line of 100 bytes is cut in two, and a last line for `chdir` loses its last byte.** -/
theorem long_line_cut :
    main 3 [List.replicate 99 97 ++ [98, 10]] =
    some [.parsecmd (List.replicate 99 97), .parsecmd [98, 10]] ∧
    wholeLines (List.replicate 99 97 ++ [98, 10]) = [List.replicate 99 97 ++ [98, 10]] ∧
    main 2 [[99, 100, 32, 97, 98]] = some [.chdir [97]] ∧
    command [99, 100, 32, 97, 98] = .chdir [97, 98] := by
  refine ⟨?_, ?_, ?_, ?_⟩ <;> decide +kernel

end Xv6.Sh.Input
