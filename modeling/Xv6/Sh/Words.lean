/-
# The words that `nulterminate` cuts

After `parsecmd` every word of the tree is a C string in the line itself, and `nulterminate` has put
a NUL behind its last character (`user/sh.c`).  No character there belonged to a word, so no NUL
cuts another word short.
-/

import Xv6.Sh.Accept

namespace Xv6.Sh

def Cmd.argvs {W : Type} : Cmd W → List (List W)
  | .exec argv => [argv]
  | .redir cmd _ _ _ => cmd.argvs
  | .pipe left right => left.argvs ++ right.argvs
  | .list left right => left.argvs ++ right.argvs
  | .back cmd => cmd.argvs

section Argvs

variable {W : Type} {r : V → W → Prop} {cmd : Cmd V} {cmd' : Cmd W}

/-- Trees of one shape have as many arguments at each `execcmd`. -/
theorem Cmd.Rel.length_argvs (h : Cmd.Rel r cmd cmd') :
    cmd.argvs.map List.length = cmd'.argvs.map List.length := by
  induction h with
  | exec h => simp [Cmd.argvs, h.length_eq]
  | redir h hfile ih => exact ih
  | pipe h h' ih ih' => rw [Cmd.argvs, Cmd.argvs, List.map_append, List.map_append, ih, ih']
  | list h h' ih ih' => rw [Cmd.argvs, Cmd.argvs, List.map_append, List.map_append, ih, ih']
  | back h ih => exact ih

end Argvs

theorem Built.few {cmd : Cmd (List UInt8)} (h : Built cmd) :
    ∀ argv ∈ cmd.argvs, argv.length < MAXARGS := by
  induction h with
  | exec few => simpa [Cmd.argvs] using few
  | wrap r h ih =>
    rcases r with ⟨mode, file⟩
    cases mode <;> exact ih
  | pipe h h' ih ih' => exact List.forall_mem_append.2 ⟨ih, ih'⟩
  | list h h' ih ih' => exact List.forall_mem_append.2 ⟨ih, ih'⟩
  | back h ih => exact ih

variable {str w : List UInt8} {cmd : Cmd Span} {span : Span}

theorem Holds.eq_slice (h : Holds str span w) : w = (str.drop span.1).take (span.2 - span.1) := by
  have hlen : span.2 - span.1 = w.length := by
    have := h.ends
    omega
  rw [h.text, hlen, List.take_left]

theorem Holds.not_inside (h : Holds str span w) (h' : Holds str span' w') :
    ¬(span'.1 ≤ span.2 ∧ span.2 < span'.2) := by
  rintro ⟨hle, hlt⟩
  have hi : span.2 - span'.1 < w'.length := by
    have := h'.ends
    omega
  have hget : str[span.2]? = some (w'[span.2 - span'.1]) := by
    have happend : (w' ++ str.drop span'.2)[span.2 - span'.1]? = w'[span.2 - span'.1]? :=
      List.getElem?_append_left hi
    rw [← List.getElem?_eq_getElem hi, ← happend, ← h'.text, List.getElem?_drop,
      Nat.add_sub_cancel' hle]
  have hnot := h.maximal _ hget
  rw [h'.word _ (List.getElem_mem hi)] at hnot
  cases hnot

theorem exists_of_parsecmd (h0 : 0 ∉ str) (h : parsecmd k str = .ok (cmd, buf)) :
    ∃ line : Line, line.yield = tokens str ∧ Cmd.Rel (Holds str) cmd line.tree ∧
      buf = nulterminate cmd (str ++ [0]) := by
  rcases parsecmd_cases h0 k with ⟨e, -, hparse, -⟩ | ⟨line, ts, cmd', -, hyield, hrel, hparse⟩
  · rw [hparse] at h
    cases h
  · rw [hparse] at h
    split at h
    · rename_i hts
      cases h
      rw [hts, List.append_nil] at hyield
      exact ⟨line, hyield.symm, hrel, rfl⟩
    · cases h

/-- **Words are cut exactly.**  In the tree of an accepted line every argument and every file name
reads back as the text of its token, which is the text between its two offsets.  No NUL is written
into a word, each `argv` leaves room for the pointer that ends it, and every NUL falls in the line
or on the NUL behind it, while the rest of the line is unchanged. -/
theorem parsecmd_cuts_words (str : List UInt8) (h0 : 0 ∉ str) (k : ℕ) (cmd : Cmd Span)
    (buf : List UInt8) (h : parsecmd k str = .ok (cmd, buf)) :
    (∃ line : Line, line.yield = tokens str ∧ cmd.map (cstring buf) = line.tree) ∧
    (∀ span ∈ cmd.words, cstring buf span = (str.drop span.1).take (span.2 - span.1)) ∧
    (∀ span ∈ cmd.words, ∀ span' ∈ cmd.words, ¬(span'.1 ≤ span.2 ∧ span.2 < span'.2)) ∧
    (∀ argv ∈ cmd.argvs, argv.length < MAXARGS) ∧
    (∀ span ∈ cmd.words, span.2 < (str ++ [0]).length) ∧
    ∀ i, i ∉ cmd.words.map Prod.snd → buf[i]? = (str ++ [0])[i]? := by
  obtain ⟨line, hyield, hrel, rfl⟩ := exists_of_parsecmd h0 h
  refine ⟨⟨line, hyield, map_nulterminate h0 hrel⟩, fun span hspan => ?_,
    fun span hspan span' hspan' => ?_, fun argv hargv => ?_, fun span hspan => ?_, fun i hi => ?_⟩
  · obtain ⟨w, hw⟩ := hrel.exists_of_mem hspan
    rw [cstring_nulterminate h0 hrel hspan hw]
    exact hw.eq_slice
  · obtain ⟨w, hw⟩ := hrel.exists_of_mem hspan
    obtain ⟨w', hw'⟩ := hrel.exists_of_mem hspan'
    exact hw.not_inside hw'
  · have hlength := List.mem_map_of_mem (f := List.length) hargv
    rw [hrel.length_argvs] at hlength
    obtain ⟨argv', hargv', heq⟩ := List.mem_map.1 hlength
    rw [← heq]
    exact line.built.few argv' hargv'
  · obtain ⟨w, hw⟩ := hrel.exists_of_mem hspan
    rw [List.length_append, List.length_singleton]
    exact Nat.lt_succ_of_le hw.le
  · rw [nulterminate_eq, getElem?_setAll, if_neg hi]

/-- `a>b`: the NUL behind `a` takes the place of the redirection. -/
theorem parsecmd_cuts_words_redir : ∃ cmd buf, parsecmd 20 [97, 62, 98] = .ok (cmd, buf) ∧
    ∀ span ∈ cmd.words, ∀ span' ∈ cmd.words, ¬(span'.1 ≤ span.2 ∧ span.2 < span'.2) := by
  have hparse : parsecmd 20 [97, 62, 98] =
      .ok (.redir (.exec [(0, 1)]) (2, 3) (O_WRONLY ||| O_CREATE ||| O_TRUNC) 1,
      [97, 0, 98, 0]) := by
    decide +kernel
  exact ⟨_, _, hparse, (parsecmd_cuts_words [97, 62, 98] (by decide) 20 _ _ hparse).2.2.1⟩

end Xv6.Sh
