/-
# The grammar of the shell

    line  → pipe '&'* [';' line]
    pipe  → exec ['|' pipe]
    exec  → '(' line ')' redir*  |  redir* (word redir*)*
    redir → ('<' | '>' | '>>') word

with fewer than `MAXARGS` words in an `exec`.  `descend` is the recursive descent on a list of
tokens that returns the derivation (`Line`); it finds that of every yield, so the grammar is
unambiguous.
-/

import Xv6.Sh.Parse

namespace Xv6.Sh

/-! ### Tokens -/

inductive Mode where
  | read
  | write
  | append
  deriving DecidableEq, Repr

/-- What `gettoken` tells apart. -/
inductive Tok where
  | word (w : List UInt8)
  | bar
  | lparen
  | rparen
  | semi
  | amp
  | redir (mode : Mode)
  deriving DecidableEq, Repr

/-- The tokens of one character, `>` apart. -/
def symbol (c : UInt8) : Option Tok :=
  if c = bar then some .bar
  else if c = lparen then some .lparen
  else if c = rparen then some .rparen
  else if c = semi then some .semi
  else if c = amp then some .amp
  else if c = less then some (.redir .read)
  else none

theorem length_dropWhile_le {α : Type} (p : α → Bool) (l : List α) :
    (l.dropWhile p).length ≤ l.length :=
  (List.dropWhile_suffix p).length_le

/-- The tokens of a string: words are as long as they can be, and so is `>>`. -/
def tokens : List UInt8 → List Tok
  | [] => []
  | c :: s =>
    if c ∈ whitespace then tokens s
    else if c = greater then
      if s.head? = some greater then .redir .append :: tokens s.tail else .redir .write :: tokens s
    else match symbol c with
      | some t => t :: tokens s
      | none => .word (c :: s.takeWhile isWord) :: tokens (s.dropWhile isWord)
termination_by s => s.length
decreasing_by
  all_goals simp only [List.length_cons]
  · omega
  · have := List.length_tail (l := s)
    omega
  · omega
  · omega
  · have := length_dropWhile_le isWord s
    omega

/-! ### Derivations -/

/-- A redirection. -/
structure Redir where
  mode : Mode
  file : List UInt8

/-- A word and the redirections after it. -/
structure Arg where
  word : List UInt8
  redirs : List Redir

mutual

/-- What `parseline` accepts. -/
inductive Line where
  | last (pipe : Pipe) (amps : ℕ)
  | seq (pipe : Pipe) (amps : ℕ) (rest : Line)

/-- What `parsepipe` accepts. -/
inductive Pipe where
  | last (exec : Exec)
  | more (exec : Exec) (rest : Pipe)

/-- What `parseexec` accepts. -/
inductive Exec where
  | block (line : Line) (redirs : List Redir)
  | simple (redirs : List Redir) (args : List Arg) (few : args.length < MAXARGS)

end

def Redir.yield (r : Redir) : List Tok := [.redir r.mode, .word r.file]

def Arg.yield (a : Arg) : List Tok := .word a.word :: a.redirs.flatMap Redir.yield

mutual

def Line.yield : Line → List Tok
  | .last pipe amps => pipe.yield ++ List.replicate amps .amp
  | .seq pipe amps rest => pipe.yield ++ List.replicate amps .amp ++ .semi :: rest.yield

def Pipe.yield : Pipe → List Tok
  | .last exec => exec.yield
  | .more exec rest => exec.yield ++ .bar :: rest.yield

def Exec.yield : Exec → List Tok
  | .block line redirs => .lparen :: line.yield ++ .rparen :: redirs.flatMap Redir.yield
  | .simple redirs args _ => redirs.flatMap Redir.yield ++ args.flatMap Arg.yield

end

/-- `cmd` under a redirection. -/
def Redir.wrap (cmd : Cmd (List UInt8)) (r : Redir) : Cmd (List UInt8) :=
  match r.mode with
  | .read => .redir cmd r.file O_RDONLY 0
  | .write => .redir cmd r.file (O_WRONLY ||| O_CREATE ||| O_TRUNC) 1
  | .append => .redir cmd r.file (O_WRONLY ||| O_CREATE) 1

mutual

def Line.tree : Line → Cmd (List UInt8)
  | .last pipe amps => Cmd.back^[amps] pipe.tree
  | .seq pipe amps rest => .list (Cmd.back^[amps] pipe.tree) rest.tree

def Pipe.tree : Pipe → Cmd (List UInt8)
  | .last exec => exec.tree
  | .more exec rest => .pipe exec.tree rest.tree

def Exec.tree : Exec → Cmd (List UInt8)
  | .block line redirs => redirs.foldl Redir.wrap line.tree
  | .simple redirs args _ =>
    (redirs ++ args.flatMap Arg.redirs).foldl Redir.wrap (.exec (args.map Arg.word))

end

/-- How the trees of derivations are built. -/
inductive Built : Cmd (List UInt8) → Prop where
  | exec {argv} (few : argv.length < MAXARGS) : Built (.exec argv)
  | wrap {cmd} (r : Redir) (h : Built cmd) : Built (r.wrap cmd)
  | pipe {left right} (h : Built left) (h' : Built right) : Built (.pipe left right)
  | list {left right} (h : Built left) (h' : Built right) : Built (.list left right)
  | back {cmd} (h : Built cmd) : Built (.back cmd)

theorem Built.foldl_wrap (rs : List Redir) (h : Built cmd) : Built (rs.foldl Redir.wrap cmd) := by
  induction rs generalizing cmd with
  | nil => exact h
  | cons r rs ih => exact ih (h.wrap r)

theorem Built.iterate_back (n : ℕ) (h : Built cmd) : Built (Cmd.back^[n] cmd) := by
  induction n generalizing cmd with
  | zero => exact h
  | succ n ih => exact ih h.back

mutual

theorem Line.built : ∀ line : Line, Built line.tree
  | .last pipe amps => by
    rw [Line.tree]
    exact pipe.built.iterate_back amps
  | .seq pipe amps rest => by
    rw [Line.tree]
    exact .list (pipe.built.iterate_back amps) rest.built

theorem Pipe.built : ∀ pipe : Pipe, Built pipe.tree
  | .last exec => by
    rw [Pipe.tree]
    exact exec.built
  | .more exec rest => by
    rw [Pipe.tree]
    exact .pipe exec.built rest.built

theorem Exec.built : ∀ exec : Exec, Built exec.tree
  | .block line redirs => by
    rw [Exec.tree]
    exact line.built.foldl_wrap redirs
  | .simple redirs args few => by
    rw [Exec.tree]
    exact Built.foldl_wrap _ (.exec (by rwa [List.length_map]))

end

/-! ### Recursive descent on tokens -/

def descendRedirs : ℕ → List Tok → Parse (List Redir × List Tok)
  | 0, _ => .error .turns
  | k + 1, ts => match ts with
    | .redir mode :: .word file :: ts => do
      let (rs, ts) ← descendRedirs k ts
      return (⟨mode, file⟩ :: rs, ts)
    | .redir _ :: _ => .error (.panic "missing file for redirection")
    | _ => .ok ([], ts)

def descendArgs : ℕ → ℕ → List Tok → Parse (List Arg × List Tok)
  | 0, _, _ => .error .turns
  | k + 1, argc, ts => match ts with
    | .word w :: ts =>
      if MAXARGS ≤ argc + 1 then .error (.panic "too many args")
      else do
        let (rs, ts) ← descendRedirs k ts
        let (as, ts) ← descendArgs k (argc + 1) ts
        return (⟨w, rs⟩ :: as, ts)
    | .lparen :: _ | .redir _ :: _ => .error (.panic "syntax")
    | _ => .ok ([], ts)

def descendAmps : ℕ → List Tok → Parse (ℕ × List Tok)
  | 0, _ => .error .turns
  | k + 1, ts => match ts with
    | .amp :: ts => do
      let (n, ts) ← descendAmps k ts
      return (n + 1, ts)
    | _ => .ok (0, ts)

mutual

def descend : ℕ → List Tok → Parse (Line × List Tok)
  | 0, _ => .error .turns
  | k + 1, ts => do
    let (pipe, ts) ← descendPipe k ts
    let (amps, ts) ← descendAmps k ts
    match ts with
    | .semi :: ts =>
      let (rest, ts) ← descend k ts
      return (.seq pipe amps rest, ts)
    | _ => return (.last pipe amps, ts)

def descendPipe : ℕ → List Tok → Parse (Pipe × List Tok)
  | 0, _ => .error .turns
  | k + 1, ts => do
    let (exec, ts) ← descendExec k ts
    match ts with
    | .bar :: ts =>
      let (rest, ts) ← descendPipe k ts
      return (.more exec rest, ts)
    | _ => return (.last exec, ts)

def descendExec : ℕ → List Tok → Parse (Exec × List Tok)
  | 0, _ => .error .turns
  | k + 1, ts => match ts with
    | .lparen :: ts => descendBlock k ts
    | _ => do
      let (rs, ts) ← descendRedirs k ts
      let (as, ts) ← descendArgs k 0 ts
      if few : as.length < MAXARGS then return (.simple rs as few, ts)
      else .error (.panic "too many args")

def descendBlock : ℕ → List Tok → Parse (Exec × List Tok)
  | 0, _ => .error .turns
  | k + 1, ts => do
    let (line, ts) ← descend k ts
    match ts with
    | .rparen :: ts =>
      let (rs, ts) ← descendRedirs k ts
      return (.block line rs, ts)
    | _ => .error (.panic "syntax - missing )")

end

theorem ok_bind {α β : Type} (a : α) (f : α → Parse β) : (.ok a : Parse α) >>= f = f a := rfl

/-! ### What it returns derives what it was given, and what it refuses is wrong -/

def syntaxPanics : List Stop :=
  [.panic "syntax", .panic "syntax - missing )", .panic "missing file for redirection",
    .panic "too many args"]

/-- The function returns something with `p`; or else, if it had the turns `N`, it ends in a panic
about the syntax. -/
def Outcome {α : Type} (N : Prop) (p : α → List Tok → Prop) : Parse (α × List Tok) → Prop
  | .ok (a, ts) => p a ts
  | .error e => N → e ∈ syntaxPanics

theorem Outcome.bind {α β : Type} {N N' : Prop} {p : α → List Tok → Prop} {q : β → List Tok → Prop}
    {x : Parse (α × List Tok)} {f : α × List Tok → Parse (β × List Tok)} (hx : Outcome N p x)
    (hN : N' → N) (hf : ∀ a ts, p a ts → Outcome N' q (f (a, ts))) : Outcome N' q (x >>= f) := by
  cases x with
  | error e => exact fun h => hx (hN h)
  | ok r => exact hf r.1 r.2 hx

variable {k argc : ℕ} {ts ts' : List Tok}

theorem outcome_redirs (k : ℕ) (ts : List Tok) :
    Outcome (ts.length < k) (fun rs ts' => ts = rs.flatMap Redir.yield ++ ts')
    (descendRedirs k ts) := by
  induction k generalizing ts with
  | zero => exact fun h => absurd h (Nat.not_lt_zero _)
  | succ k ih =>
    unfold descendRedirs
    split
    · refine (ih _).bind (fun hk => ?_) fun rs ts' h => ?_
      · simp only [List.length_cons] at hk
        omega
      · rw [h]
        rfl
    · exact fun _ => by simp [syntaxPanics]
    · rfl

theorem outcome_args (k argc : ℕ) (ts : List Tok) (hargc : argc < MAXARGS) : Outcome (ts.length < k)
    (fun as ts' => ts = as.flatMap Arg.yield ++ ts' ∧ argc + as.length < MAXARGS)
    (descendArgs k argc ts) := by
  induction k generalizing ts argc with
  | zero => exact fun h => absurd h (Nat.not_lt_zero _)
  | succ k ih =>
    unfold descendArgs
    split
    · split
      · exact fun _ => by simp [syntaxPanics]
      refine (outcome_redirs k _).bind (fun hk => ?_) fun rs ts₁ h₁ => ?_
      · rw [List.length_cons] at hk
        omega
      refine (ih (argc + 1) ts₁ (by omega)).bind (fun hk => ?_) fun as ts₂ h₂ => ?_
      · rw [h₁, List.length_cons, List.length_append] at hk
        omega
      · obtain ⟨rfl, hfew⟩ := h₂
        rw [h₁]
        exact ⟨by simp [Arg.yield], by rw [List.length_cons]; omega⟩
    · exact fun _ => by simp [syntaxPanics]
    · exact fun _ => by simp [syntaxPanics]
    · exact ⟨rfl, hargc⟩

theorem outcome_amps (k : ℕ) (ts : List Tok) :
    Outcome (ts.length < k) (fun n ts' => ts = List.replicate n .amp ++ ts')
    (descendAmps k ts) := by
  induction k generalizing ts with
  | zero => exact fun h => absurd h (Nat.not_lt_zero _)
  | succ k ih =>
    unfold descendAmps
    split
    · refine (ih _).bind Nat.lt_of_succ_lt_succ fun n ts' h => ?_
      rw [h]
      rfl
    · rfl

/-- The four functions, with `k` turns. -/
structure Descends (k : ℕ) : Prop where
  line : ∀ ts, Outcome (4 * ts.length + 5 ≤ k) (fun line ts' => ts = line.yield ++ ts')
    (descend k ts)
  pipe : ∀ ts, Outcome (4 * ts.length + 4 ≤ k) (fun pipe ts' => ts = pipe.yield ++ ts')
    (descendPipe k ts)
  exec : ∀ ts, Outcome (4 * ts.length + 3 ≤ k) (fun exec ts' => ts = exec.yield ++ ts')
    (descendExec k ts)
  block : ∀ ts, Outcome (4 * ts.length + 6 ≤ k) (fun exec ts' => .lparen :: ts = exec.yield ++ ts')
    (descendBlock k ts)

theorem descends (k : ℕ) : Descends k := by
  induction k with
  | zero => constructor <;> exact fun _ hk => absurd hk (by omega)
  | succ k ih =>
    refine ⟨fun ts => ?_, fun ts => ?_, fun ts => ?_, fun ts => ?_⟩
    · rw [descend]
      refine (ih.pipe ts).bind (by omega) fun pipe ts₁ h₁ => ?_
      refine (outcome_amps k ts₁).bind (fun hk => ?_) fun amps ts₂ h₂ => ?_
      · rw [h₁, List.length_append] at hk
        omega
      subst h₁ h₂
      simp only
      split
      · refine (ih.line _).bind (fun hk => ?_) fun rest ts₃ h₃ => ?_
        · simp only [List.length_append, List.length_cons] at hk
          omega
        · show _ = (Line.seq pipe amps rest).yield ++ ts₃
          simp [h₃, Line.yield]
      · show _ = (Line.last pipe amps).yield ++ ts₂
        simp [Line.yield]
    · rw [descendPipe]
      refine (ih.exec ts).bind (by omega) fun exec ts₁ h₁ => ?_
      subst h₁
      simp only
      split
      · refine (ih.pipe _).bind (fun hk => ?_) fun rest ts₂ h₂ => ?_
        · simp only [List.length_append, List.length_cons] at hk
          omega
        · show _ = (Pipe.more exec rest).yield ++ ts₂
          simp [h₂, Pipe.yield]
      · rfl
    · unfold descendExec
      split
      · rename_i ts
        rw [← bind_pure (descendBlock k ts)]
        refine (ih.block ts).bind (fun hk => ?_) fun exec ts' h => h
        rw [List.length_cons] at hk
        omega
      refine (outcome_redirs k ts).bind (by omega) fun rs ts₁ h₁ => ?_
      subst h₁
      refine (outcome_args k 0 ts₁ (by decide)).bind (fun hk => ?_) fun as ts₂ h₂ => ?_
      · rw [List.length_append] at hk
        omega
      obtain ⟨rfl, hfew⟩ := h₂
      rw [Nat.zero_add] at hfew
      simp only [dif_pos hfew]
      show _ = (Exec.simple rs as hfew).yield ++ ts₂
      rw [Exec.yield, List.append_assoc]
    · rw [descendBlock]
      refine (ih.line ts).bind (by omega) fun line ts₁ h₁ => ?_
      subst h₁
      simp only
      split
      · refine (outcome_redirs k _).bind (fun hk => ?_) fun rs ts₂ h₂ => ?_
        · simp only [List.length_append, List.length_cons] at hk
          omega
        · show _ = (Exec.block line rs).yield ++ ts₂
          simp [h₂, Exec.yield]
      · exact fun _ => by simp [syntaxPanics]

/-! ### Every derivation is found -/

/-- `ts` is empty or starts with one of `follow`. -/
def Ends (follow ts : List Tok) : Prop := ∀ t ∈ ts.head?, t ∈ follow

theorem Ends.mono (h : Ends l ts) (hsub : l ⊆ l') : Ends l' ts := fun t ht => hsub (h t ht)

theorem Ends.cons (h : t ∈ l) : Ends l (t :: ts) := by
  intro t' ht'
  cases ht'
  exact h

theorem descendRedirs_yield (rs : List Redir) (hts : ∀ mode, ts.head? ≠ some (.redir mode))
    (hk : rs.length < k) : descendRedirs k (rs.flatMap Redir.yield ++ ts) = .ok (rs, ts) := by
  induction rs generalizing k with
  | nil =>
    obtain ⟨k, rfl⟩ := Nat.exists_eq_succ_of_ne_zero (Nat.ne_of_gt hk)
    rw [List.flatMap_nil, List.nil_append]
    unfold descendRedirs
    split
    · exact absurd rfl (hts _)
    · exact absurd rfl (hts _)
    · rfl
  | cons r rs ih =>
    obtain ⟨k, rfl⟩ := Nat.exists_eq_succ_of_ne_zero (Nat.ne_of_gt (Nat.zero_lt_of_lt hk))
    rw [List.flatMap_cons, List.append_assoc]
    show descendRedirs (k + 1) (.redir r.mode :: .word r.file :: (rs.flatMap Redir.yield ++ ts)) = _
    rw [descendRedirs, ih (Nat.lt_of_succ_lt_succ hk)]
    rfl

theorem head_args (as : List Arg) (hts : Ends [.bar, .rparen, .amp, .semi] ts) (mode : Mode) :
    (as.flatMap Arg.yield ++ ts).head? ≠ some (.redir mode) := by
  intro h
  cases as with
  | nil =>
    have hmem := hts _ h
    simp at hmem
  | cons a as => cases h

theorem length_redirs (rs : List Redir) : (rs.flatMap Redir.yield).length = 2 * rs.length := by
  induction rs with
  | nil => rfl
  | cons r rs ih =>
    rw [List.flatMap_cons, List.length_append, ih, List.length_cons]
    simp only [Redir.yield, List.length_cons, List.length_nil]
    omega

theorem descendArgs_yield (as : List Arg) (hts : Ends [.bar, .rparen, .amp, .semi] ts)
    (hk : (as.flatMap Arg.yield).length < k) (hfew : argc + as.length < MAXARGS) :
    descendArgs k argc (as.flatMap Arg.yield ++ ts) = .ok (as, ts) := by
  induction as generalizing k argc with
  | nil =>
    obtain ⟨k, rfl⟩ := Nat.exists_eq_succ_of_ne_zero (Nat.ne_of_gt hk)
    rw [List.flatMap_nil, List.nil_append]
    unfold descendArgs
    split
    · exact absurd (hts _ rfl) (by simp)
    · exact absurd (hts _ rfl) (by simp)
    · exact absurd (hts _ rfl) (by simp)
    · rfl
  | cons a as ih =>
    obtain ⟨k, rfl⟩ := Nat.exists_eq_succ_of_ne_zero (Nat.ne_of_gt (Nat.zero_lt_of_lt hk))
    rw [List.flatMap_cons, List.length_append, Arg.yield, List.length_cons, length_redirs] at hk
    rw [List.length_cons] at hfew
    rw [List.flatMap_cons, Arg.yield, List.cons_append, List.cons_append, descendArgs,
      if_neg (by omega), List.append_assoc, descendRedirs_yield _ (head_args as hts) (by omega)]
    simp only [ok_bind]
    rw [ih (by omega) (by omega)]
    rfl

theorem descendAmps_yield (n : ℕ) (hts : ts.head? ≠ some .amp) (hk : n < k) :
    descendAmps k (List.replicate n .amp ++ ts) = .ok (n, ts) := by
  induction n generalizing k with
  | zero =>
    obtain ⟨k, rfl⟩ := Nat.exists_eq_succ_of_ne_zero (Nat.ne_of_gt hk)
    rw [List.replicate_zero, List.nil_append]
    unfold descendAmps
    split
    · exact absurd rfl hts
    · rfl
  | succ n ih =>
    obtain ⟨k, rfl⟩ := Nat.exists_eq_succ_of_ne_zero (Nat.ne_of_gt (Nat.zero_lt_of_lt hk))
    rw [List.replicate_succ, List.cons_append, descendAmps, ih (Nat.lt_of_succ_lt_succ hk)]
    rfl

theorem Ends.amps (h : Ends [.rparen, .semi] ts) :
    Ends [.rparen, .amp, .semi] (List.replicate n .amp ++ ts) := by
  cases n with
  | zero => exact h.mono (by simp)
  | succ n => exact Ends.cons (by simp)

mutual

/-- **The derivation of a line is found.** -/
theorem descend_yield (line : Line) {k : ℕ} {ts : List Tok} (hts : Ends [.rparen] ts)
    (hk : 4 * line.yield.length + 5 ≤ k) : descend k (line.yield ++ ts) = .ok (line, ts) := by
  obtain ⟨k, rfl⟩ : ∃ k', k = k' + 1 := ⟨k - 1, by omega⟩
  cases line with
  | last pipe amps =>
    rw [Line.yield, List.length_append, List.length_replicate] at hk
    have hends : Ends [.rparen, .semi] ts := hts.mono (by simp)
    rw [Line.yield, List.append_assoc, descend, descendPipe_yield pipe hends.amps (by omega)]
    simp only [ok_bind]
    rw [descendAmps_yield amps (fun h => absurd (hts _ h) (by simp)) (by omega)]
    simp only [ok_bind]
    split
    · exact absurd (hts _ rfl) (by simp)
    · rfl
  | seq pipe amps rest =>
    rw [Line.yield, List.length_append, List.length_append, List.length_replicate,
      List.length_cons] at hk
    have hends : Ends [.rparen, .semi] (.semi :: (rest.yield ++ ts)) := Ends.cons (by simp)
    rw [Line.yield, List.append_assoc, List.append_assoc, List.cons_append, descend,
      descendPipe_yield pipe hends.amps (by omega)]
    simp only [ok_bind]
    rw [descendAmps_yield amps (by simp) (by omega)]
    simp only [ok_bind]
    rw [descend_yield rest hts (by omega)]
    rfl

theorem descendPipe_yield (pipe : Pipe) {k : ℕ} {ts : List Tok}
    (hts : Ends [.rparen, .amp, .semi] ts) (hk : 4 * pipe.yield.length + 4 ≤ k) :
    descendPipe k (pipe.yield ++ ts) = .ok (pipe, ts) := by
  obtain ⟨k, rfl⟩ : ∃ k', k = k' + 1 := ⟨k - 1, by omega⟩
  cases pipe with
  | last exec =>
    rw [Pipe.yield] at hk
    rw [Pipe.yield, descendPipe, descendExec_yield exec (hts.mono (by simp)) (by omega)]
    simp only [ok_bind]
    split
    · exact absurd (hts _ rfl) (by simp)
    · rfl
  | more exec rest =>
    rw [Pipe.yield, List.length_append, List.length_cons] at hk
    rw [Pipe.yield, List.append_assoc, List.cons_append, descendPipe,
      descendExec_yield exec (Ends.cons (by simp)) (by omega)]
    simp only [ok_bind]
    rw [descendPipe_yield rest hts (by omega)]
    rfl

theorem descendExec_yield (exec : Exec) {k : ℕ} {ts : List Tok}
    (hts : Ends [.bar, .rparen, .amp, .semi] ts) (hk : 4 * exec.yield.length + 3 ≤ k) :
    descendExec k (exec.yield ++ ts) = .ok (exec, ts) := by
  obtain ⟨k, rfl⟩ : ∃ k', k = k' + 1 := ⟨k - 1, by omega⟩
  cases exec with
  | block line redirs =>
    rw [Exec.yield, List.length_append, List.length_cons, List.length_cons, length_redirs] at hk
    obtain ⟨k, rfl⟩ : ∃ k', k = k' + 1 := ⟨k - 1, by omega⟩
    rw [Exec.yield, List.cons_append, List.cons_append, List.append_assoc, List.cons_append,
      descendExec, descendBlock, descend_yield line (Ends.cons (by simp)) (by omega)]
    simp only [ok_bind]
    rw [descendRedirs_yield redirs (fun mode h => absurd (hts _ h) (by simp)) (by omega)]
    rfl
  | simple redirs args few =>
    rw [Exec.yield, List.length_append, length_redirs] at hk
    have hhead : ∀ ts', redirs.flatMap Redir.yield ++ (args.flatMap Arg.yield ++ ts) ≠
        .lparen :: ts' := by
      intro ts' h
      cases redirs with
      | nil => cases args with
        | nil =>
          rw [show ts = .lparen :: ts' from h] at hts
          exact absurd (hts _ rfl) (by simp)
        | cons a as => cases h
      | cons r rs => cases h
    rw [Exec.yield, List.append_assoc]
    unfold descendExec
    split
    · rename_i h
      exact absurd h (hhead _)
    rw [descendRedirs_yield redirs (head_args args hts) (by omega)]
    simp only [ok_bind]
    rw [descendArgs_yield args hts (by omega) (by omega)]
    simp only [ok_bind]
    rw [dif_pos few]
    rfl

end

end Xv6.Sh
