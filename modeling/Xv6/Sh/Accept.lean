/-
# The shell parser accepts its grammar

`gettoken` and `peek` see the tokens of the rest of the string, so the parsers do on the string what
the recursive descent of `Xv6.Sh.Grammar` does on its tokens, and build the tree of the derivation,
word for span (`Cmd.Rel`).  The NULs of `nulterminate` fall into no word (`map_nulterminate`).
-/

import Xv6.Sh.Grammar

namespace Xv6.Sh

variable {str : List UInt8} {s : ℕ} {c : UInt8} {l w : List UInt8}

/-! ### The cursor -/

theorem drop_eq_cons (hs : s < str.length) : str.drop s = char str s :: str.drop (s + 1) := by
  rw [List.drop_eq_getElem_cons hs, char, List.getD_eq_getElem _ _ hs]

theorem lt_of_drop (h : str.drop s = c :: l) : s < str.length := by
  by_contra hs
  rw [List.drop_eq_nil_of_le (Nat.not_lt.1 hs)] at h
  cases h

theorem char_of_drop (h : str.drop s = c :: l) : char str s = c ∧ str.drop (s + 1) = l := by
  rw [drop_eq_cons (lt_of_drop h)] at h
  cases h
  exact ⟨rfl, rfl⟩

theorem char_of_drop_nil (h : str.drop s = []) : char str s = 0 :=
  List.getD_eq_default _ _ (List.drop_eq_nil_iff.1 h)

theorem ne_zero_of_drop (h0 : 0 ∉ str) (h : str.drop s = c :: l) : c ≠ 0 := by
  rintro rfl
  refine h0 (List.mem_of_mem_drop (i := s) ?_)
  rw [h]
  exact List.mem_cons_self ..

theorem skipWhile_eq (p : UInt8 → Bool) (s : ℕ) :
    skipWhile str p (str.length - s) s = s + ((str.drop s).takeWhile p).length := by
  induction hn : str.length - s generalizing s with
  | zero =>
    rw [List.drop_eq_nil_of_le (by omega)]
    rfl
  | succ n ih =>
    rw [skipWhile, drop_eq_cons (by omega), List.takeWhile_cons]
    split
    · rw [ih (s + 1) (by omega), List.length_cons]
      omega
    · rfl

theorem drop_skipWhile (str : List UInt8) (p : UInt8 → Bool) (s : ℕ) :
    str.drop (skipWhile str p (str.length - s) s) = (str.drop s).dropWhile p := by
  have hdrop (l : List UInt8) : l.drop (l.takeWhile p).length = l.dropWhile p := by
    have h : (l.takeWhile p ++ l.dropWhile p).drop (l.takeWhile p).length = l.dropWhile p :=
      List.drop_left
    rwa [List.takeWhile_append_dropWhile] at h
  rw [skipWhile_eq, ← List.drop_drop, hdrop]

theorem skipWhile_le (p : UInt8 → Bool) (hs : s ≤ str.length) :
    skipWhile str p (str.length - s) s ≤ str.length := by
  rw [skipWhile_eq]
  have h := (List.takeWhile_prefix p (l := str.drop s)).length_le
  rw [List.length_drop] at h
  omega

theorem tokens_dropWhile (l : List UInt8) :
    tokens (l.dropWhile fun c => decide (c ∈ whitespace)) = tokens l := by
  induction l with
  | nil => rfl
  | cons c l ih =>
    rw [List.dropWhile_cons]
    split
    · rename_i hc
      rw [ih, tokens, if_pos (of_decide_eq_true hc)]
    · rfl

/-- The cursor is before the tokens `ts`. -/
structure Cursor (str : List UInt8) (s : ℕ) (ts : List Tok) : Prop where
  le : s ≤ str.length
  rest : tokens (str.drop s) = ts

variable {t : Tok} {ts : List Tok}

theorem Cursor.skip (h : Cursor str s ts) : Cursor str (skipBlanks str s) ts := by
  refine ⟨skipWhile_le _ h.le, ?_⟩
  rw [skipBlanks, drop_skipWhile, tokens_dropWhile, h.rest]

theorem skipBlanks_cases (str : List UInt8) (s : ℕ) : str.drop (skipBlanks str s) = [] ∨
    ∃ c l, str.drop (skipBlanks str s) = c :: l ∧ c ∉ whitespace := by
  rw [skipBlanks, drop_skipWhile]
  cases hl : (str.drop s).dropWhile fun c => decide (c ∈ whitespace) with
  | nil => exact .inl rfl
  | cons c l =>
    refine .inr ⟨c, l, rfl, fun hc => ?_⟩
    have h := List.head?_dropWhile_not (fun c => decide (c ∈ whitespace)) (str.drop s)
    rw [hl] at h
    simp [hc] at h

/-! ### Tokens -/

/-- The code that `gettoken` returns for a token. -/
def Tok.code : Tok → UInt8
  | .word _ => codeWord
  | .bar => Sh.bar
  | .lparen => Sh.lparen
  | .rparen => Sh.rparen
  | .semi => Sh.semi
  | .amp => Sh.amp
  | .redir .read => less
  | .redir .write => greater
  | .redir .append => codeAppend

/-- The span holds the word `w`, which cannot be longer. -/
structure Holds (str : List UInt8) (span : Span) (w : List UInt8) : Prop where
  le : span.2 ≤ str.length
  text : str.drop span.1 = w ++ str.drop span.2
  ends : span.2 = span.1 + w.length
  word : ∀ c ∈ w, isWord c = true
  maximal : ∀ c, str[span.2]? = some c → isWord c = false

theorem symbol_eq_none (hc : c ∉ [bar, lparen, rparen, semi, amp, less]) : symbol c = none := by
  simp only [List.mem_cons, List.not_mem_nil, or_false, not_or] at hc
  simp [symbol, hc]

theorem symbol_eq_some (hc : c ∈ [bar, lparen, rparen, semi, amp, less]) :
    ∃ t, symbol c = some t ∧ t.code = c ∧ ∀ w, t ≠ .word w := by
  simp only [List.mem_cons, List.not_mem_nil, or_false] at hc
  rcases hc with rfl | rfl | rfl | rfl | rfl | rfl <;> exact ⟨_, rfl, rfl, by simp⟩

theorem Cursor.gettoken_nil (h : Cursor str s []) :
    (gettoken str s).ret = 0 ∧ Cursor str (gettoken str s).ps [] := by
  have hskip := h.skip
  rcases skipBlanks_cases str s with hq | ⟨c, l, hq, hc⟩
  · have hscan : scanToken str (skipBlanks str s) = (0, skipBlanks str s) := by
      simp only [scanToken, char_of_drop_nil hq, if_true]
    simp only [gettoken, hscan, true_and]
    exact hskip.skip
  · have hrest := hskip.rest
    rw [hq, tokens, if_neg hc] at hrest
    split at hrest
    · split at hrest <;> cases hrest
    · split at hrest <;> cases hrest

/-- **`gettoken` takes the next token.** -/
theorem Cursor.gettoken (h0 : 0 ∉ str) (h : Cursor str s (t :: ts)) :
    (gettoken str s).ret = t.code ∧ Cursor str (gettoken str s).ps ts ∧ ∀ w, t = .word w →
    Holds str ((gettoken str s).q, (gettoken str s).eq) w := by
  have hrest := h.skip.rest
  rcases skipBlanks_cases str s with hq | ⟨c, l, hq, hc⟩
  · rw [hq, tokens] at hrest
    cases hrest
  obtain ⟨hchar, hl⟩ := char_of_drop hq
  have hlt := lt_of_drop hq
  rw [hq, tokens, if_neg hc] at hrest
  simp only [Sh.gettoken, scanToken, hchar, if_neg (ne_zero_of_drop h0 hq)]
  by_cases hsym : c ∈ [bar, lparen, rparen, semi, amp, less]
  · obtain ⟨u, hu, hcode, hword⟩ := symbol_eq_some hsym
    have hgreater : c ≠ greater := by
      rintro rfl
      exact absurd hsym (by decide)
    rw [if_neg hgreater, hu] at hrest
    cases hrest
    rw [if_pos hsym]
    exact ⟨hcode.symm, Cursor.skip ⟨hlt, by rw [hl]⟩, fun w hw => absurd hw (hword w)⟩
  rw [if_neg hsym]
  by_cases hgreater : c = greater
  · subst hgreater
    rw [if_pos rfl] at hrest ⊢
    split at hrest
    · rename_i hd
      cases hrest
      obtain ⟨l', rfl⟩ := List.head?_eq_some_iff.1 hd
      obtain ⟨hnext, hl'⟩ := char_of_drop hl
      rw [if_pos hnext]
      exact ⟨rfl, Cursor.skip ⟨lt_of_drop hl, by rw [hl']; rfl⟩, by simp⟩
    rename_i hd
    cases hrest
    have hnext : char str (skipBlanks str s + 1) ≠ greater := by
      cases l with
      | nil =>
        rw [char_of_drop_nil hl]
        decide
      | cons d l =>
        rw [(char_of_drop hl).1]
        exact fun h => hd (congrArg some h)
    rw [if_neg hnext]
    exact ⟨rfl, Cursor.skip ⟨hlt, by rw [hl]⟩, by simp⟩
  · rw [if_neg hgreater, symbol_eq_none hsym] at hrest
    cases hrest
    rw [if_neg hgreater]
    have hisWord : isWord c = true := by
      refine decide_eq_true ⟨hc, fun hmem => ?_⟩
      simp only [symbols, List.mem_cons, List.not_mem_nil, or_false, not_or] at hmem hsym
      tauto
    have htake : (c :: l).takeWhile isWord = c :: l.takeWhile isWord :=
      List.takeWhile_cons_of_pos hisWord
    have hdrop := drop_skipWhile str isWord (skipBlanks str s)
    refine ⟨rfl, Cursor.skip ⟨skipWhile_le _ hlt.le, ?_⟩, fun w hw => ?_⟩
    · rw [hdrop, hq, List.dropWhile_cons, if_pos hisWord]
    cases hw
    refine ⟨skipWhile_le _ hlt.le, ?_, ?_, ?_, fun d hd => ?_⟩
    · show str.drop (skipBlanks str s) = _
      rw [hdrop, hq, ← htake, List.takeWhile_append_dropWhile]
    · show skipWhile _ _ _ _ = _
      rw [skipWhile_eq, hq, htake]
    · intro d hd
      rw [← htake] at hd
      exact List.all_eq_true.1 List.all_takeWhile d hd
    · have hnot := List.head?_dropWhile_not isWord (str.drop (skipBlanks str s))
      rw [← hdrop, List.head?_drop, hd] at hnot
      simpa using hnot

/-- The symbol that a token starts with; no symbol is 0. -/
def Tok.mark : Tok → UInt8
  | .word _ => 0
  | .redir .append => greater
  | t => t.code

def starts (toks : List UInt8) : List Tok → Bool
  | [] => false
  | t :: _ => decide (t.mark ∈ toks)

theorem tokens_of_not_blank (hc : c ∉ whitespace) (l : List UInt8) :
    ∃ t ts, tokens (c :: l) = t :: ts ∧ (t.mark = c ∨ t.mark = 0 ∧ c ∉ symbols) := by
  rw [tokens, if_neg hc]
  by_cases hgreater : c = greater
  · rw [if_pos hgreater]
    split
    · exact ⟨_, _, rfl, .inl hgreater.symm⟩
    · exact ⟨_, _, rfl, .inl hgreater.symm⟩
  rw [if_neg hgreater]
  by_cases hsym : c ∈ [bar, lparen, rparen, semi, amp, less]
  · simp only [List.mem_cons, List.not_mem_nil, or_false] at hsym
    rcases hsym with rfl | rfl | rfl | rfl | rfl | rfl <;> exact ⟨_, _, rfl, .inl rfl⟩
  · rw [symbol_eq_none hsym]
    refine ⟨_, _, rfl, .inr ⟨rfl, fun hmem => ?_⟩⟩
    simp only [symbols, List.mem_cons, List.not_mem_nil, or_false, not_or] at hmem hsym
    tauto

/-- **`peek` looks at the next token.** -/
theorem Cursor.peek (h0 : 0 ∉ str) (htoks : toks ⊆ symbols) (h : Cursor str s ts) :
    peek str s toks = (starts toks ts, skipBlanks str s) := by
  have hrest := h.skip.rest
  rw [Sh.peek, Prod.mk.injEq]
  refine ⟨?_, rfl⟩
  rcases skipBlanks_cases str s with hq | ⟨c, l, hq, hc⟩
  · rw [hq, tokens] at hrest
    rw [char_of_drop_nil hq, ← hrest]
    simp [starts]
  obtain ⟨t, ts', htokens, hmark⟩ := tokens_of_not_blank hc l
  rw [hq, htokens] at hrest
  rw [(char_of_drop hq).1, ← hrest, starts]
  have hne := ne_zero_of_drop h0 hq
  rcases hmark with hmark | ⟨hmark, hsym⟩
  · rw [hmark]
    simp [hne]
  · have hzero : (0 : UInt8) ∉ toks := fun h => absurd (htoks h) (by decide)
    have hc' : c ∉ toks := fun h => hsym (htoks h)
    simp [hmark, hzero, hc']

/-! ### Trees -/

/-- Two trees of one shape, with words related by `r`. -/
inductive Cmd.Rel {V W : Type} (r : V → W → Prop) : Cmd V → Cmd W → Prop where
  | exec {argv argv'} (h : List.Forall₂ r argv argv') : Rel r (.exec argv) (.exec argv')
  | redir {cmd cmd' file file' mode fd} (h : Rel r cmd cmd') (hfile : r file file') :
    Rel r (.redir cmd file mode fd) (.redir cmd' file' mode fd)
  | pipe {left left' right right'} (h : Rel r left left') (h' : Rel r right right') :
    Rel r (.pipe left right) (.pipe left' right')
  | list {left left' right right'} (h : Rel r left left') (h' : Rel r right right') :
    Rel r (.list left right) (.list left' right')
  | back {cmd cmd'} (h : Rel r cmd cmd') : Rel r (.back cmd) (.back cmd')

theorem Cmd.Rel.push {V W : Type} {r : V → W → Prop} {cmd : Cmd V} {cmd' : Cmd W} {v : V} {w : W}
    (h : Cmd.Rel r cmd cmd') (hw : r v w) : Cmd.Rel r (cmd.push v) (cmd'.push w) := by
  induction h with
  | exec h => exact .exec (List.rel_append h (.cons hw .nil))
  | redir h hfile ih => exact .redir ih hfile
  | pipe h h' => exact .pipe h h'
  | list h h' => exact .list h h'
  | back h => exact .back h

theorem push_foldl_wrap (rs : List Redir) (cmd : Cmd (List UInt8)) (w : List UInt8) :
    (rs.foldl Redir.wrap cmd).push w = rs.foldl Redir.wrap (cmd.push w) := by
  induction rs generalizing cmd with
  | nil => rfl
  | cons r rs ih =>
    rw [List.foldl_cons, List.foldl_cons, ih]
    congr 1
    rcases r with ⟨mode, file⟩
    cases mode <;> rfl

theorem Cmd.Rel.redirect {cmd : Cmd Span} {cmd' : Cmd (List UInt8)} {file : Span} {r : Redir}
    (h : Cmd.Rel (Holds str) cmd cmd') (hfile : Holds str file r.file) :
    Cmd.Rel (Holds str) (redirect (Tok.redir r.mode).code cmd file) (r.wrap cmd') := by
  rcases r with ⟨mode, w⟩
  cases mode <;> exact .redir h hfile

/-! ### The parsers -/

/-- The parser ends as the recursive descent does, before the same tokens. -/
def Sim {α β : Type} (str : List UInt8) (r : α → β → Prop) (x : Parse (α × ℕ)) :
    Parse (β × List Tok) → Prop
  | .error e => x = .error e
  | .ok (b, ts) => ∃ a s, x = .ok (a, s) ∧ r a b ∧ Cursor str s ts

section Sim

variable {α β δ : Type} {r : α → β → Prop} {r' : γ → δ → Prop} {x : Parse (α × ℕ)}
  {y : Parse (β × List Tok)}

theorem Sim.bind (h : Sim str r x y)
    (hf : ∀ a b s ts, r a b → Cursor str s ts → Sim str r' (f (a, s)) (g (b, ts))) :
    Sim str r' (x >>= f) (y >>= g) := by
  cases y with
  | error e =>
    cases h
    rfl
  | ok b =>
    rcases b with ⟨b, ts⟩
    obtain ⟨a, s, rfl, hr, hs⟩ := h
    exact hf a b s ts hr hs

theorem Sim.imp {f : β × List Tok → Parse (δ × List Tok)} {r' : α → δ → Prop} (h : Sim str r x y)
    (hf : ∀ a b ts, r a b → ∃ d, f (b, ts) = .ok (d, ts) ∧ r' a d) : Sim str r' x (y >>= f) := by
  cases y with
  | error e => exact h
  | ok b =>
    rcases b with ⟨b, ts⟩
    obtain ⟨a, s, hx, hr, hs⟩ := h
    obtain ⟨d, hd, hr'⟩ := hf a b ts hr
    rw [ok_bind, hd]
    exact ⟨a, s, hx, hr', hs⟩

theorem Sim.and {N : Prop} {p : β → List Tok → Prop} (h : Sim str r x y) (hp : Outcome N p y) :
    Sim str (fun a b => r a b ∧ ∃ ts, p b ts) x y := by
  cases y with
  | error e => exact h
  | ok b =>
    obtain ⟨a, s, hx, hr, hs⟩ := h
    exact ⟨a, s, hx, ⟨hr, b.2, hp⟩, hs⟩

end Sim

variable {cmd : Cmd Span} {tree : Cmd (List UInt8)}

theorem sim_redirs (h0 : 0 ∉ str) (k : ℕ) (h : Cmd.Rel (Holds str) cmd tree)
    (hs : Cursor str s ts) :
    Sim str (fun cmd' rs => Cmd.Rel (Holds str) cmd' (rs.foldl Redir.wrap tree))
    (parseredirs str k cmd s) (descendRedirs k ts) := by
  induction k generalizing cmd tree s ts with
  | zero => rfl
  | succ k ih =>
    rw [parseredirs, hs.peek h0 (by decide)]
    cases ts with
    | nil => exact ⟨cmd, _, rfl, h, hs.skip⟩
    | cons t ts =>
      cases t with
      | redir mode =>
        have hstarts : starts [less, greater] (.redir mode :: ts) = true := by cases mode <;> rfl
        obtain ⟨hret, hnext, -⟩ := hs.skip.gettoken h0
        simp only [hstarts, if_true, hret]
        cases ts with
        | nil =>
          simp only [hnext.gettoken_nil.1]
          rfl
        | cons t ts =>
          obtain ⟨hret', hnext', hword⟩ := hnext.gettoken h0
          simp only [hret']
          cases t with
          | word w =>
            exact (ih (h.redirect (r := ⟨mode, w⟩) (hword w rfl)) hnext').imp
              fun cmd' rs ts' hrel => ⟨_, rfl, hrel⟩
          | redir m => cases m <;> rfl
          | _ => rfl
      | _ => exact ⟨cmd, _, rfl, h, hs.skip⟩

/-- The tree of the words `ws` and the redirections `rs` with more arguments. -/
def grow (rs : List Redir) (ws : List (List UInt8)) (as : List Arg) : Cmd (List UInt8) :=
  (rs ++ as.flatMap Arg.redirs).foldl Redir.wrap (.exec (ws ++ as.map Arg.word))

theorem grow_nil (rs : List Redir) (ws : List (List UInt8)) :
    grow rs ws [] = rs.foldl Redir.wrap (.exec ws) := by
  simp [grow]

theorem grow_cons (rs : List Redir) (ws : List (List UInt8)) (a : Arg) (as : List Arg) :
    grow rs ws (a :: as) = grow (rs ++ a.redirs) (ws ++ [a.word]) as := by
  simp [grow]

theorem sim_args (h0 : 0 ∉ str) (k argc : ℕ) {rs : List Redir} {ws : List (List UInt8)}
    (h : Cmd.Rel (Holds str) cmd (grow rs ws [])) (hs : Cursor str s ts) :
    Sim str (fun cmd' as => Cmd.Rel (Holds str) cmd' (grow rs ws as)) (parseargs str k cmd argc s)
      (descendArgs k argc ts) := by
  induction k generalizing cmd rs ws argc s ts with
  | zero => rfl
  | succ k ih =>
    rw [parseargs, hs.peek h0 (by decide)]
    cases ts with
    | nil =>
      obtain ⟨hret, hnext⟩ := hs.skip.gettoken_nil
      simp only [starts, hret]
      exact ⟨cmd, _, rfl, h, hnext⟩
    | cons t ts =>
      obtain ⟨hret, hnext, hword⟩ := hs.skip.gettoken h0
      simp only [hret]
      cases t with
      | word w =>
        have hmore : ¬ starts [bar, rparen, amp, semi] (.word w :: ts) = true := Bool.false_ne_true
        have hcode : (Tok.word w).code = codeWord := rfl
        have hpush := h.push (hword w rfl)
        rw [grow_nil, push_foldl_wrap, Cmd.push] at hpush
        rw [hcode, if_neg hmore, if_neg (by decide : ¬ codeWord = 0), if_neg (not_not.2 rfl),
          descendArgs]
        split
        · rfl
        · refine (sim_redirs h0 k hpush hnext).bind fun cmd' rs' s' ts' hrel hs' => ?_
          rw [← List.foldl_append, ← grow_nil] at hrel
          refine (ih (argc + 1) hrel hs').imp fun cmd'' as ts'' hrel' => ⟨_, rfl, ?_⟩
          rwa [grow_cons]
      | lparen => rfl
      | redir mode => cases mode <;> rfl
      | _ => exact ⟨cmd, _, rfl, h, hs.skip⟩

theorem sim_amps (h0 : 0 ∉ str) (k : ℕ) (h : Cmd.Rel (Holds str) cmd tree) (hs : Cursor str s ts) :
    Sim str (fun cmd' n => Cmd.Rel (Holds str) cmd' (Cmd.back^[n] tree)) (parseamps str k cmd s)
    (descendAmps k ts) := by
  induction k generalizing cmd tree s ts with
  | zero => rfl
  | succ k ih =>
    rw [parseamps, hs.peek h0 (by decide)]
    cases ts with
    | nil => exact ⟨cmd, _, rfl, h, hs.skip⟩
    | cons t ts =>
      cases t with
      | amp =>
        exact (ih (.back h) (hs.skip.gettoken h0).2.1).imp fun cmd' n ts' hrel => ⟨_, rfl, hrel⟩
      | redir mode => cases mode <;> exact ⟨cmd, _, rfl, h, hs.skip⟩
      | _ => exact ⟨cmd, _, rfl, h, hs.skip⟩

theorem sim_simple (h0 : 0 ∉ str) (k : ℕ) (hs : Cursor str s ts) :
    Sim str (fun cmd exec => Cmd.Rel (Holds str) cmd exec.tree)
      (do let (ret, s) ← parseredirs str k (.exec []) s; parseargs str k ret 0 s)
      (do
        let (rs, ts) ← descendRedirs k ts
        let (as, ts) ← descendArgs k 0 ts
        if few : as.length < MAXARGS then return (Exec.simple rs as few, ts)
        else .error (.panic "too many args")) := by
  refine (sim_redirs h0 k (.exec .nil) hs).bind fun cmd rs s ts hcmd hs => ?_
  rw [← grow_nil] at hcmd
  refine ((sim_args h0 k 0 hcmd hs).and (outcome_args k 0 ts (by decide))).imp
    fun cmd as ts hrel => ?_
  obtain ⟨hrel, -, -, hfew⟩ := hrel
  rw [Nat.zero_add] at hfew
  exact ⟨.simple rs as hfew, dif_pos hfew, hrel⟩

/-- The four functions, with `k` turns. -/
structure Simulates (str : List UInt8) (k : ℕ) : Prop where
  line : ∀ {s ts}, Cursor str s ts →
    Sim str (fun cmd line => Cmd.Rel (Holds str) cmd line.tree) (parseline str k s) (descend k ts)
  pipe : ∀ {s ts}, Cursor str s ts →
    Sim str (fun cmd pipe => Cmd.Rel (Holds str) cmd pipe.tree) (parsepipe str k s)
    (descendPipe k ts)
  exec : ∀ {s ts}, Cursor str s ts →
    Sim str (fun cmd exec => Cmd.Rel (Holds str) cmd exec.tree) (parseexec str k s)
    (descendExec k ts)
  block : ∀ {s ts}, Cursor str s (.lparen :: ts) →
    Sim str (fun cmd exec => Cmd.Rel (Holds str) cmd exec.tree) (parseblock str k s)
    (descendBlock k ts)

theorem simulates (h0 : 0 ∉ str) (k : ℕ) : Simulates str k := by
  induction k with
  | zero =>
    refine ⟨fun _ => ?_, fun _ => ?_, fun _ => ?_, fun _ => ?_⟩
    · rw [parseline, descend]
      rfl
    · rw [parsepipe, descendPipe]
      rfl
    · rw [parseexec, descendExec]
      rfl
    · rw [parseblock, descendBlock]
      rfl
  | succ k ih =>
    refine ⟨fun hs => ?_, fun hs => ?_, fun {s ts} hs => ?_, fun hs => ?_⟩
    · rw [parseline, descend]
      refine (ih.pipe hs).bind fun cmd pipe s ts hcmd hs => ?_
      refine (sim_amps h0 k hcmd hs).bind fun cmd amps s ts hcmd hs => ?_
      simp only [hs.peek h0 (by decide : [semi] ⊆ symbols)]
      cases ts with
      | nil => exact ⟨cmd, _, rfl, hcmd, hs.skip⟩
      | cons t ts =>
        cases t with
        | semi =>
          refine (ih.line (hs.skip.gettoken h0).2.1).bind fun right rest s ts hright hs => ?_
          exact ⟨_, s, rfl, .list hcmd hright, hs⟩
        | redir mode => cases mode <;> exact ⟨cmd, _, rfl, hcmd, hs.skip⟩
        | _ => exact ⟨cmd, _, rfl, hcmd, hs.skip⟩
    · rw [parsepipe, descendPipe]
      refine (ih.exec hs).bind fun cmd exec s ts hcmd hs => ?_
      simp only [hs.peek h0 (by decide : [bar] ⊆ symbols)]
      cases ts with
      | nil => exact ⟨cmd, _, rfl, hcmd, hs.skip⟩
      | cons t ts =>
        cases t with
        | bar =>
          refine (ih.pipe (hs.skip.gettoken h0).2.1).bind fun right rest s ts hright hs => ?_
          exact ⟨_, s, rfl, .pipe hcmd hright, hs⟩
        | redir mode => cases mode <;> exact ⟨cmd, _, rfl, hcmd, hs.skip⟩
        | _ => exact ⟨cmd, _, rfl, hcmd, hs.skip⟩
    · have hsimple := sim_simple h0 k hs.skip
      rw [parseexec, hs.peek h0 (by decide)]
      unfold descendExec
      cases ts with
      | nil => exact hsimple
      | cons t ts =>
        cases t with
        | lparen => exact ih.block hs.skip
        | redir mode => cases mode <;> exact hsimple
        | _ => exact hsimple
    · rw [parseblock, hs.peek h0 (by decide), descendBlock]
      refine (ih.line (hs.skip.gettoken h0).2.1).bind fun cmd line s ts hcmd hs => ?_
      simp only [hs.peek h0 (by decide : [rparen] ⊆ symbols)]
      cases ts with
      | nil => rfl
      | cons t ts =>
        cases t with
        | rparen =>
          exact (sim_redirs h0 k hcmd (hs.skip.gettoken h0).2.1).imp fun cmd rs ts hrel =>
            ⟨_, rfl, hrel⟩
        | redir mode => cases mode <;> rfl
        | _ => rfl

/-! ### The NULs of `nulterminate` -/

def Cmd.words {W : Type} : Cmd W → List W
  | .exec argv => argv
  | .redir cmd file _ _ => cmd.words ++ [file]
  | .pipe left right => left.words ++ right.words
  | .list left right => left.words ++ right.words
  | .back cmd => cmd.words

theorem getElem?_setAll (ends : List Span) (buf : List UInt8) (i : ℕ) :
    (ends.foldl (fun buf arg => buf.set arg.2 0) buf)[i]? =
      if i ∈ ends.map Prod.snd then buf[i]?.map (fun _ => 0) else buf[i]? := by
  induction ends generalizing buf with
  | nil => rfl
  | cons a ends ih =>
    rw [List.foldl_cons, ih, List.getElem?_set, List.map_cons]
    by_cases hi : i = a.2
    · subst hi
      by_cases hlt : a.2 < buf.length
      · simp [hlt]
      · simp [hlt]
    · simp only [if_neg (Ne.symm hi), List.mem_cons, hi, false_or]

theorem nulterminate_eq (cmd : Cmd Span) (buf : List UInt8) :
    nulterminate cmd buf = cmd.words.foldl (fun buf arg => buf.set arg.2 0) buf := by
  induction cmd generalizing buf with
  | exec argv => rfl
  | redir cmd file mode fd ih =>
    rw [nulterminate, ih, Cmd.words, List.foldl_append]
    rfl
  | pipe left right ih ih' => rw [nulterminate, ih, ih', Cmd.words, List.foldl_append]
  | list left right ih ih' => rw [nulterminate, ih, ih', Cmd.words, List.foldl_append]
  | back cmd ih => rw [nulterminate, ih, Cmd.words]

theorem takeWhile_drop_eq {buf : List UInt8} {q : ℕ} (hw : ∀ i < w.length, buf[q + i]? = w[i]?)
    (h0 : 0 ∉ w) (hend : buf[q + w.length]? = some 0) : (buf.drop q).takeWhile (· ≠ 0) = w := by
  induction w generalizing q with
  | nil =>
    obtain ⟨hlt, hget⟩ : ∃ hlt : q < buf.length, buf[q] = 0 := List.getElem?_eq_some_iff.1 hend
    rw [List.drop_eq_getElem_cons hlt, List.takeWhile_cons_of_neg]
    simpa using hget
  | cons c w ih =>
    rw [List.mem_cons, not_or] at h0
    obtain ⟨hlt, hget⟩ : ∃ hlt : q < buf.length, buf[q] = c :=
      List.getElem?_eq_some_iff.1 (hw 0 (Nat.zero_lt_succ _))
    rw [List.drop_eq_getElem_cons hlt, hget,
      List.takeWhile_cons_of_pos (by simpa using Ne.symm h0.1)]
    congr 1
    refine ih (fun i hi => ?_) h0.2 ?_
    · rw [show q + 1 + i = q + (i + 1) by omega, hw (i + 1) (Nat.succ_lt_succ hi)]
      rfl
    · rw [show q + 1 + w.length = q + (c :: w).length by rw [List.length_cons]; omega]
      exact hend

theorem Cmd.Rel.exists_of_mem {V W : Type} {r : V → W → Prop} {cmd : Cmd V} {cmd' : Cmd W}
    (h : Cmd.Rel r cmd cmd') {v : V} (hv : v ∈ cmd.words) : ∃ w, r v w := by
  induction h with
  | exec h =>
    obtain ⟨i, hi, rfl⟩ := List.getElem_of_mem hv
    exact ⟨_, h.get hi (by rwa [← h.length_eq])⟩
  | redir h hfile ih =>
    rcases List.mem_append.1 hv with hv | hv
    · exact ih hv
    · rw [List.mem_singleton] at hv
      subst hv
      exact ⟨_, hfile⟩
  | pipe h h' ih ih' => exact (List.mem_append.1 hv).elim ih ih'
  | list h h' ih ih' => exact (List.mem_append.1 hv).elim ih ih'
  | back h ih => exact ih hv

theorem Cmd.Rel.map_eq {V W : Type} {r : V → W → Prop} {cmd : Cmd V} {cmd' : Cmd W} {f : V → W}
    (h : Cmd.Rel r cmd cmd') (hf : ∀ v ∈ cmd.words, ∀ w, r v w → f v = w) : cmd.map f = cmd' := by
  induction h with
  | exec h =>
    rw [Cmd.map]
    congr 1
    induction h with
    | nil => rfl
    | cons hvw h ih =>
      rw [List.map_cons, hf _ (.head _) _ hvw, ih fun v hv => hf v (.tail _ hv)]
  | redir h hfile ih =>
    rw [Cmd.map, ih fun v hv => hf v (List.mem_append_left _ hv),
      hf _ (List.mem_append_right _ (List.mem_singleton_self _)) _ hfile]
  | pipe h h' ih ih' =>
    rw [Cmd.map, ih fun v hv => hf v (List.mem_append_left _ hv),
      ih' fun v hv => hf v (List.mem_append_right _ hv)]
  | list h h' ih ih' =>
    rw [Cmd.map, ih fun v hv => hf v (List.mem_append_left _ hv),
      ih' fun v hv => hf v (List.mem_append_right _ hv)]
  | back h ih => rw [Cmd.map, ih hf]

/-- **A word of the tree reads back**: no NUL falls into it, since a word ends at a character that
is in none. -/
theorem cstring_nulterminate (h0 : 0 ∉ str) (h : Cmd.Rel (Holds str) cmd tree) {span : Span}
    (hspan : span ∈ cmd.words) (hw : Holds str span w) :
    cstring (nulterminate cmd (str ++ [0])) span = w := by
  have hget (i : ℕ) (hi : i < w.length) : str[span.1 + i]? = w[i]? := by
    rw [← List.getElem?_drop, hw.text, List.getElem?_append_left hi]
  refine takeWhile_drop_eq (fun i hi => ?_) (fun hmem => h0 ?_) ?_
  · rw [nulterminate_eq, getElem?_setAll, if_neg, List.getElem?_append_left, hget i hi]
    · have := hw.le
      have := hw.ends
      omega
    intro hmem
    obtain ⟨other, hother, hend⟩ := List.mem_map.1 hmem
    obtain ⟨w', hw'⟩ := h.exists_of_mem hother
    have hnot := hw'.maximal w[i] (by rw [hend, hget i hi, List.getElem?_eq_getElem hi])
    rw [hw.word _ (List.getElem_mem hi)] at hnot
    cases hnot
  · refine List.mem_of_mem_drop (i := span.1) ?_
    rw [hw.text]
    exact List.mem_append_left _ hmem
  · rw [← hw.ends, nulterminate_eq, getElem?_setAll, if_pos (List.mem_map_of_mem hspan),
      List.getElem?_eq_getElem
      (by rw [List.length_append, List.length_singleton]; have := hw.le; omega)]
    rfl

theorem map_nulterminate (h0 : 0 ∉ str) (h : Cmd.Rel (Holds str) cmd tree) :
    cmd.map (cstring (nulterminate cmd (str ++ [0]))) = tree :=
  h.map_eq fun _ hspan _ hw => cstring_nulterminate h0 h hspan hw

/-! ### The theorem -/

theorem length_tokens_le (l : List UInt8) : (tokens l).length ≤ l.length := by
  induction l using tokens.induct with
  | case1 => simp [tokens]
  | case2 c s hc ih =>
    rw [tokens, if_pos hc, List.length_cons]
    omega
  | case3 s hd hc ih =>
    rw [tokens, if_neg hc, if_pos rfl, if_pos hd, List.length_cons, List.length_cons]
    rw [List.length_tail] at ih
    omega
  | case4 s hd hc ih =>
    rw [tokens, if_neg hc, if_pos rfl, if_neg hd, List.length_cons, List.length_cons]
    omega
  | case5 c s hc hg t ht ih =>
    rw [tokens, if_neg hc, if_neg hg, ht, List.length_cons, List.length_cons]
    omega
  | case6 c s hc hg ht ih =>
    rw [tokens, if_neg hc, if_neg hg, ht, List.length_cons, List.length_cons]
    have := length_dropWhile_le isWord s
    omega

theorem Cursor.at_end (h : Cursor str s ts) : skipBlanks str s = str.length ↔ ts = [] := by
  have hskip := h.skip
  constructor
  · intro hend
    rw [← hskip.rest, hend, List.drop_length, tokens]
  rintro rfl
  rcases skipBlanks_cases str s with hq | ⟨c, l, hq, hc⟩
  · exact le_antisymm hskip.le (List.drop_eq_nil_iff.1 hq)
  · obtain ⟨t, ts, htokens, -⟩ := tokens_of_not_blank hc l
    have hrest := hskip.rest
    rw [hq, htokens] at hrest
    cases hrest

theorem parsecmd_eq (h : parseline str k 0 = .ok (cmd, s)) (hs : Cursor str s ts) : parsecmd k str =
    if ts = [] then .ok (cmd, nulterminate cmd (str ++ [0])) else .error (.panic "syntax") := by
  have hend : (peek str s []).2 = str.length ↔ ts = [] := hs.at_end
  rw [parsecmd, h, ok_bind]
  by_cases hts : ts = []
  · simp only [hend.2 hts, ne_eq, not_true_eq_false, if_false, hts, if_true]
    rfl
  · simp only [mt hend.1 hts, ne_eq, not_false_eq_true, if_true, hts, if_false]

/-- `parsecmd` ends as the descent on the tokens of the line does, if nothing is left after it. -/
theorem parsecmd_cases (h0 : 0 ∉ str) (k : ℕ) :
    (∃ e, descend k (tokens str) = .error e ∧ parsecmd k str = .error e ∧
      (4 * str.length + 5 ≤ k → e ∈ syntaxPanics)) ∨
    ∃ line ts cmd, descend k (tokens str) = .ok (line, ts) ∧ tokens str = line.yield ++ ts ∧
      Cmd.Rel (Holds str) cmd line.tree ∧
      parsecmd k str = if ts = [] then .ok (cmd, nulterminate cmd (str ++ [0]))
        else .error (.panic "syntax") := by
  have hsim := (simulates h0 k).line ⟨Nat.zero_le _, rfl⟩
  have hout := (descends k).line (tokens str)
  rw [List.drop_zero] at hsim
  cases hdescend : descend k (tokens str) with
  | error e =>
    rw [hdescend] at hsim hout
    have hlength := length_tokens_le str
    refine .inl ⟨e, rfl, ?_, fun hk => hout (by omega)⟩
    rw [parsecmd, show parseline str k 0 = .error e from hsim]
    rfl
  | ok b =>
    rw [hdescend] at hsim hout
    obtain ⟨cmd, s, hparse, hrel, hs⟩ := hsim
    exact .inr ⟨b.1, b.2, cmd, rfl, hout, hrel, parsecmd_eq hparse hs⟩

/-- **The parser accepts its grammar.**  If the tokens of the string have a derivation, it is the
only one, and the tree that is returned is its tree.  Every other string ends in a panic about the
syntax. -/
theorem parsecmd_parses (str : List UInt8) (h0 : 0 ∉ str) {k : ℕ} (hk : 4 * str.length + 5 ≤ k) :
    (∀ line : Line, line.yield = tokens str →
      (∀ line' : Line, line'.yield = tokens str → line' = line) ∧ ∃ cmd buf,
      parsecmd k str = .ok (cmd, buf) ∧ cmd.map (cstring buf) = line.tree) ∧
    ((∀ line : Line, line.yield ≠ tokens str) → ∃ e ∈ syntaxPanics, parsecmd k str = .error e) := by
  have hempty : Ends [.rparen] [] := fun t ht => by cases ht
  have hfound (line : Line) (hline : line.yield = tokens str) :
      descend k (tokens str) = .ok (line, []) := by
    have hlength := length_tokens_le str
    have h := descend_yield line hempty (k := k) (by rw [hline]; omega)
    rwa [List.append_nil, hline] at h
  constructor
  · intro line hline
    refine ⟨fun line' hline' => ?_, ?_⟩
    · have h := (hfound line' hline').symm.trans (hfound line hline)
      cases h
      rfl
    · rcases parsecmd_cases h0 k with ⟨e, hdescend, -⟩ | ⟨line', ts, cmd, hdescend, -, hrel, hparse⟩
      · rw [hfound line hline] at hdescend
        cases hdescend
      · rw [hfound line hline] at hdescend
        cases hdescend
        exact ⟨_, _, hparse.trans (if_pos rfl), map_nulterminate h0 hrel⟩
  · intro hnone
    rcases parsecmd_cases h0 k with ⟨e, -, hparse, he⟩ | ⟨line, ts, cmd, -, hyield, -, hparse⟩
    · exact ⟨e, he hk, hparse⟩
    · refine ⟨.panic "syntax", by simp [syntaxPanics], hparse.trans (if_neg ?_)⟩
      rintro rfl
      rw [List.append_nil] at hyield
      exact hnone line hyield.symm

theorem parsecmd_parses_pipe : 0 ∉ ([97, 124, 98] : List UInt8) ∧
    ∃ cmd buf, parsecmd 17 [97, 124, 98] = .ok (cmd, buf) ∧
      cmd.map (cstring buf) = .pipe (.exec [[97]]) (.exec [[98]]) := by
  refine ⟨by decide, ?_⟩
  have hyield : (Line.last (.more (.simple [] [⟨[97], []⟩] (by decide))
      (.last (.simple [] [⟨[98], []⟩] (by decide)))) 0).yield = tokens [97, 124, 98] := by
    simp [Line.yield, Pipe.yield, Exec.yield, Arg.yield, tokens, symbol, whitespace, isWord,
      symbols, greater, less, bar, amp, semi, lparen, rparen, tab]
  exact ((parsecmd_parses [97, 124, 98] (by decide) (by decide)).1 _ hyield).2

end Xv6.Sh
