/-
# No stray pipe ends

Between two calls of `runcmd` a process has exactly the descriptors 0, 1 and 2, set as the tree says
(`Walk`).  `Fine` says this for every place in the code.  A node of the tree is run at most once,
since what a process may still run is divided when it forks (`Proc.Owns`).
-/

import Xv6.Sh.Run

namespace Xv6.Sh

open Lib Function

variable {W : Type} {set : ℕ → Target W} {i : ℕ} {fds : Fds W} {fd j : ℕ} {procs : List (Proc W)}
  {node : List Turn}

/-! ### The calls between two forks -/

theorem fdalloc_eq (hn : n < NOFILE) (hfree : fds n = none) (hlow : ∀ m < n, fds m ≠ none)
    (f : Target W) : fdalloc fds f = some (n, update fds n (some f)) := by
  have hfind : (List.range NOFILE).find? (fun fd => (fds fd).isNone) = some n := by
    rw [List.find?_range_eq_some]
    refine ⟨by rw [hfree]; rfl, List.mem_range.2 hn, fun m hm => ?_⟩
    simpa [Option.isSome_iff_ne_none] using hlow m hm
  rw [fdalloc, hfind]
  rfl

/-- Exactly 0, 1 and 2 are open. -/
def table (set : ℕ → Target W) : Fds W := fun fd => if fd < 3 then some (set fd) else none

/-- Both ends of pipe `i` are open too. -/
def piped (set : ℕ → Target W) (i : ℕ) : Fds W :=
  update (update (table set) 3 (some (.readEnd i))) 4 (some (.writeEnd i))

theorem pipe_table (set : ℕ → Target W) (i : ℕ) :
    pipe (table set) i = some (3, 4, piped set i) := by
  have hr : fdalloc (table set) (.readEnd i) = some (3, update (table set) 3 (some (.readEnd i))) :=
    fdalloc_eq (by decide) rfl (fun m hm => by simp [table, hm]) _
  have hw : fdalloc (update (table set) 3 (some (.readEnd i))) (.writeEnd i) =
      some (4, piped set i) := by
    refine fdalloc_eq (by decide) rfl (fun m hm => ?_) _
    by_cases h3 : m = 3
    · simp [h3]
    · simp [h3, table, show m < 3 by omega]
  rw [pipe, hr]
  simp only [Option.bind_some, hw, Option.map_some]

def runAll : List (Call W) → Fds W → Option (Fds W)
  | [], fds => some fds
  | c :: cs, fds => (c.run fds).bind (runAll cs)

theorem update_table (hfd : fd < 3) (f : Target W) :
    update (table set) fd (some f) = table (update set fd f) := by
  funext m
  by_cases hm : m = fd
  · subst hm
    simp [table, hfd]
  · simp [table, hm]

theorem runAll_redir (hfd : fd < 3) (file : W) (mode : UInt32) :
    runAll [.close fd, .open file mode] (table set) =
    some (table (update set fd (.opened file mode))) := by
  have hopen : fdalloc (update (table set) fd none) (.opened file mode) =
      some (fd, update (update (table set) fd none) fd (some (.opened file mode))) := by
    refine fdalloc_eq (by simp only [NOFILE]; omega) (update_self ..) (fun m hm => ?_) _
    rw [update_of_ne (by omega)]
    simp [table, show m < 3 by omega]
  simp only [runAll, Call.run, Option.bind_some, hopen, Option.map_some, update_idem,
    update_table hfd]

theorem dup_piped (set : ℕ → Target W) (i : ℕ) {p : ℕ} {f : Target W} (hfd : fd < 3)
    (hp : piped set i p = some f) (hne : p ≠ fd) :
    (Call.dup p).run (update (piped set i) fd none) = some (update (piped set i) fd (some f)) := by
  have hdup : fdalloc (update (piped set i) fd none) f =
      some (fd, update (update (piped set i) fd none) fd (some f)) := by
    refine fdalloc_eq (by simp only [NOFILE]; omega) (update_self ..) (fun m hm => ?_) _
    rw [update_of_ne (by omega), piped, update_of_ne (by omega), update_of_ne (by omega)]
    simp [table, show m < 3 by omega]
  rw [Call.run, update_of_ne hne, hp, Option.bind_some, hdup, Option.elim_some, update_idem]

theorem close_piped (set : ℕ → Target W) (i : ℕ) :
    update (update (piped set i) 3 none) 4 none = table set := by
  funext m
  by_cases h4 : m = 4
  · simp [h4, table]
  by_cases h3 : m = 3
  · simp [h3, table]
  · simp [h3, h4, piped]

theorem update_piped (hfd : fd < 3) (f : Target W) :
    update (piped set i) fd (some f) = piped (update set fd f) i := by
  have h3 : 3 ≠ fd := by omega
  have h4 : 4 ≠ fd := by omega
  rw [piped, update_comm h4, update_comm h3, update_table hfd, piped]

theorem runAll_parent : runAll [.close 3, .close 4] (piped set i) = some (table set) := by
  simp only [runAll, Call.run, Option.bind_some, close_piped]

theorem runAll_child {p : ℕ} {f : Target W} (hfd : fd < 3) (hp : piped set i p = some f)
    (hne : p ≠ fd) : runAll [.close fd, .dup p, .close 3, .close 4] (piped set i) =
      some (table (update set fd f)) := by
  rw [runAll, Call.run, Option.bind_some, runAll, dup_piped set i hfd hp hne, Option.bind_some,
    update_piped hfd, runAll_parent]

/-! ### The tree -/

/-- Every redirection is of 0, 1 or 2. -/
def Cmd.Std : Cmd W → Prop
  | .exec _ => True
  | .redir cmd _ _ fd => fd < 3 ∧ cmd.Std
  | .pipe left right => left.Std ∧ right.Std
  | .list left right => left.Std ∧ right.Std
  | .back cmd => cmd.Std

theorem Built.std {cmd : Cmd (List UInt8)} (h : Built cmd) : cmd.Std := by
  induction h with
  | exec few => trivial
  | wrap r h ih =>
    rcases r with ⟨mode, file⟩
    cases mode <;> exact ⟨by decide, ih⟩
  | pipe h h' ih ih' => exact ⟨ih, ih'⟩
  | list h h' ih ih' => exact ⟨ih, ih'⟩
  | back h ih => exact ih

variable {root cmd : Cmd W} {pipes : List (ℕ × List Turn)} {path : List Turn} {p : ℕ}

theorem Walk.std (h : Walk root pipes path cmd set) (hroot : root.Std) : cmd.Std := by
  induction h with
  | root => exact hroot
  | left h hi ih => exact ih.1
  | right h hi ih => exact ih.2
  | redir h ih => exact ih.2
  | first h ih => exact ih.1
  | rest h ih => exact ih.2
  | back h ih => exact ih

theorem Walk.mono {x : ℕ × List Turn} (h : Walk root pipes path cmd set) :
    Walk root (pipes ++ [x]) path cmd set := by
  have hkeep {i : ℕ} {y : ℕ × List Turn} (hi : pipes[i]? = some y) :
      (pipes ++ [x])[i]? = some y := by
    rw [List.getElem?_append_left (List.getElem?_eq_some_iff.1 hi).1, hi]
  induction h with
  | root => exact .root
  | left h hi ih => exact .left ih (hkeep hi)
  | right h hi ih => exact .right ih (hkeep hi)
  | redir h ih => exact .redir ih
  | first h ih => exact .first ih
  | rest h ih => exact .rest ih
  | back h ih => exact .back ih

theorem Walk.above (h : Walk root pipes path cmd set) {i : ℕ}
    (hset : set fd = .readEnd i ∨ set fd = .writeEnd i) :
    ∃ x, pipes[i]? = some x ∧ x.2.length < path.length := by
  have hlonger {path : List Turn} {turn : Turn} (h : ∃ x, pipes[i]? = some x ∧
    x.2.length < path.length) : ∃ x, pipes[i]? = some x ∧ x.2.length < (path ++ [turn]).length := by
    obtain ⟨x, hx, hlt⟩ := h
    refine ⟨x, hx, ?_⟩
    rw [List.length_append]
    omega
  induction h with
  | root => simp at hset
  | left h hi ih =>
    by_cases hfd : fd = 1
    · subst hfd
      simp only [update_self, reduceCtorEq, Target.writeEnd.injEq, false_or] at hset
      subst hset
      exact ⟨_, hi, by simp⟩
    · rw [update_of_ne hfd] at hset
      exact hlonger (ih hset)
  | right h hi ih =>
    by_cases hfd : fd = 0
    · subst hfd
      simp only [update_self, reduceCtorEq, Target.readEnd.injEq, or_false] at hset
      subst hset
      exact ⟨_, hi, by simp⟩
    · rw [update_of_ne hfd] at hset
      exact hlonger (ih hset)
  | @redir path cmd file mode fd' set h ih =>
    by_cases hfd : fd = fd'
    · subst hfd
      simp at hset
    · rw [update_of_ne hfd] at hset
      exact hlonger (ih hset)
  | first h ih => exact hlonger (ih hset)
  | rest h ih => exact hlonger (ih hset)
  | back h ih => exact hlonger (ih hset)

/-! ### Every process -/

def NotMaker (pipes : List (ℕ × List Turn)) (p : ℕ) : Prop := ∀ x ∈ pipes, x.1 ≠ p

/-- Exactly 0, 1 and 2 are open, set for the command `cmd`, and no pipe was made. -/
def Ready (root : Cmd W) (pipes : List (ℕ × List Turn)) (p : ℕ) (path : List Turn) (cmd : Cmd W)
    (fds : Fds W) : Prop :=
  NotMaker pipes p ∧ ∃ set, Walk root pipes path cmd set ∧ fds = table set

/-- The pipe of the node is open, and it is the only one that was made. -/
def Halfway (root : Cmd W) (pipes : List (ℕ × List Turn)) (p : ℕ) (path : List Turn)
    (left right : Cmd W) (p0 p1 : ℕ) (fds : Fds W) : Prop :=
  p0 = 3 ∧ p1 = 4 ∧ ∃ set i, Walk root pipes path (.pipe left right) set ∧ fds = piped set i ∧
    pipes[i]? = some (p, path) ∧ ∀ j x, pipes[j]? = some (p, x) → j = i

/-- No end of a pipe that process `p` has made is open. -/
def Clean (pipes : List (ℕ × List Turn)) (p : ℕ) (fds : Fds W) : Prop :=
  ∀ i x, pipes[i]? = some (p, x) → ∀ fd, fds fd ≠ some (.readEnd i) ∧ fds fd ≠ some (.writeEnd i)

/-- What holds of process `p`, at each place. -/
def Fine (root : Cmd W) (pipes : List (ℕ × List Turn)) (p : ℕ) (path : List Turn) :
    Code W → Fds W → Prop
  | .runcmd cmd, fds => Ready root pipes p path cmd fds
  | .exec argv, fds => Ready root pipes p path (.exec argv) fds
  | .calls cs next, fds => ∃ fds', runAll cs fds = some fds' ∧ Fine root pipes p path next fds'
  | .forkLeft left right p0 p1, fds => Halfway root pipes p path left right p0 p1 fds
  | .forkRight right p0 p1, fds => ∃ left, Halfway root pipes p path left right p0 p1 fds
  | .wait _ (some right), fds => ∃ left, Ready root pipes p path (.list left right) fds
  | .wait _ none, fds => Clean pipes p fds
  | .gone, _ => True

theorem NotMaker.clean (h : NotMaker pipes p) (fds : Fds W) : Clean pipes p fds := by
  intro i x hi
  exact absurd rfl (h _ (List.mem_of_getElem? hi))

theorem Halfway.clean {left right : Cmd W} {set : ℕ → Target W}
    (h : Walk root pipes path (.pipe left right) set) (hi : pipes[i]? = some (p, path))
    (hone : ∀ j x, pipes[j]? = some (p, x) → j = i) : Clean pipes p (table set) := by
  intro j x hj
  obtain rfl := hone j x hj
  have hnot {fd : ℕ} : ¬ (set fd = .readEnd j ∨ set fd = .writeEnd j) := by
    intro hset
    obtain ⟨y, hy, hlt⟩ := h.above hset
    rw [hi] at hy
    cases hy
    exact Nat.lt_irrefl _ hlt
  intro fd
  by_cases hfd : fd < 3
  · simp only [table, if_pos hfd, ne_eq, Option.some.injEq]
    exact not_or.1 hnot
  · simp [table, hfd]

section Mono

variable {x : ℕ × List Turn} (hx : x.1 ≠ p)

include hx

theorem getElem?_of_other (h : (pipes ++ [x])[j]? = some (p, y)) : pipes[j]? = some (p, y) := by
  rcases Nat.lt_trichotomy j pipes.length with hj | rfl | hj
  · rwa [List.getElem?_append_left hj] at h
  · rw [List.getElem?_concat_length] at h
    cases h
    exact absurd rfl hx
  · rw [List.getElem?_eq_none (by rw [List.length_append, List.length_singleton]; omega)] at h
    cases h

theorem NotMaker.mono (h : NotMaker pipes p) : NotMaker (pipes ++ [x]) p := by
  intro y hy
  rcases List.mem_append.1 hy with hy | hy
  · exact h y hy
  · rwa [List.mem_singleton.1 hy]

theorem Ready.mono (h : Ready root pipes p path cmd fds) :
    Ready root (pipes ++ [x]) p path cmd fds := by
  obtain ⟨hmaker, set, hwalk, hfds⟩ := h
  exact ⟨hmaker.mono hx, set, hwalk.mono, hfds⟩

theorem Halfway.mono (h : Halfway root pipes p path left right p0 p1 fds) :
    Halfway root (pipes ++ [x]) p path left right p0 p1 fds := by
  obtain ⟨h0, h1, set, i, hwalk, hfds, hi, hone⟩ := h
  refine ⟨h0, h1, set, i, hwalk.mono, hfds, ?_, fun j y hj => hone j y (getElem?_of_other hx hj)⟩
  rw [List.getElem?_append_left (List.getElem?_eq_some_iff.1 hi).1, hi]

theorem Fine.mono (h : Fine root pipes p path code fds) :
    Fine root (pipes ++ [x]) p path code fds := by
  induction code generalizing fds with
  | runcmd cmd => exact Ready.mono hx h
  | exec argv => exact Ready.mono hx h
  | calls cs next ih =>
    obtain ⟨fds', hrun, hnext⟩ := h
    exact ⟨fds', hrun, ih hnext⟩
  | forkLeft left right p0 p1 => exact Halfway.mono hx h
  | forkRight right p0 p1 =>
    obtain ⟨left, h⟩ := h
    exact ⟨left, h.mono hx⟩
  | wait n next =>
    cases next with
    | none => exact fun i y hi => h i y (getElem?_of_other hx hi)
    | some right =>
      obtain ⟨left, h⟩ := h
      exact ⟨left, h.mono hx⟩
  | gone => trivial

end Mono

/-! ### Who may still run a node -/

/-- The nodes that a process at `path` may still run. -/
def owns (path : List Turn) : Code W → List Turn → Prop
  | .runcmd _, node => path <+: node
  | .calls _ next, node => owns path next node
  | .forkLeft .., node => path ++ [.left] <+: node ∨ path ++ [.right] <+: node
  | .forkRight .., node => path ++ [.right] <+: node
  | .wait _ (some _), node => path ++ [.rest] <+: node
  | _, _ => False

def Proc.Owns (q : Proc W) (node : List Turn) : Prop := owns q.path q.code node

def Apart (procs : List (Proc W)) : Prop :=
  ∀ (p p' : ℕ) (q q' : Proc W), procs[p]? = some q → procs[p']? = some q' → p ≠ p' →
    ∀ node, q.Owns node → ¬ q'.Owns node

structure Inv (root : Cmd W) (s : Sys W) : Prop where
  fine : ∀ (p : ℕ) (q : Proc W), s.procs[p]? = some q → Fine root s.pipes p q.path q.code q.fds
  makers : ∀ x ∈ s.pipes, x.1 < s.procs.length
  apart : Apart s.procs
  spent : ∀ x ∈ s.pipes, ∀ (p : ℕ) (q : Proc W), s.procs[p]? = some q → ¬ q.Owns x.2
  once : (s.pipes.map Prod.snd).Nodup

variable {s : Sys W} {q q' : Proc W} {child : Option (Proc W)}

theorem pool_cases (hp : procs[p]? = some q) (h : (procs.set p q' ++ child.toList)[j]? = some r) :
    j = p ∧ r = q' ∨ j ≠ p ∧ procs[j]? = some r ∨ j = procs.length ∧ child = some r := by
  have hlt := (List.getElem?_eq_some_iff.1 hp).1
  by_cases hj : j < procs.length
  · rw [List.getElem?_append_left (by rwa [List.length_set]), List.getElem?_set] at h
    by_cases hjp : j = p
    · subst hjp
      rw [if_pos rfl, if_pos hlt] at h
      cases h
      exact .inl ⟨rfl, rfl⟩
    · rw [if_neg (Ne.symm hjp)] at h
      exact .inr (.inl ⟨hjp, h⟩)
  · rw [List.getElem?_append_right (by rw [List.length_set]; omega), List.length_set] at h
    cases child with
    | none => cases h
    | some c =>
      obtain ⟨hlt, hc⟩ := List.getElem?_eq_some_iff.1 h
      rw [Option.toList_some, List.length_singleton] at hlt
      refine .inr (.inr ⟨by omega, congrArg some ?_⟩)
      rw [← hc]
      simp [show j - procs.length = 0 by omega]

theorem Apart.step (h : Apart procs) (hp : procs[p]? = some q)
    (hown : ∀ node, q'.Owns node → q.Owns node)
    (hchild : ∀ c, child = some c → ∀ node, c.Owns node → q.Owns node ∧ ¬ q'.Owns node) :
    Apart (procs.set p q' ++ child.toList) := by
  intro j j' r r' hr hr' hne node
  rcases pool_cases hp hr with ⟨rfl, rfl⟩ | ⟨hj, hold⟩ | ⟨rfl, hnew⟩ <;>
    rcases pool_cases hp hr' with ⟨rfl, rfl⟩ | ⟨hj', hold'⟩ | ⟨rfl, hnew'⟩
  · exact absurd rfl hne
  · exact fun ho => h _ _ _ _ hp hold' hne node (hown node ho)
  · exact fun ho hc => (hchild r' hnew' node hc).2 ho
  · exact fun ho hq => h _ _ _ _ hold hp hne node ho (hown node hq)
  · exact h _ _ _ _ hold hold' hne node
  · exact fun ho hc => h _ _ _ _ hold hp hj node ho (hchild r' hnew' node hc).1
  · exact fun hc ho => (hchild r hnew node hc).2 ho
  · exact fun hc ho => h _ _ _ _ hold' hp hj' node ho (hchild r hnew node hc).1
  · exact absurd rfl hne

theorem Inv.quiet (h : Inv root s) (hp : s.procs[p]? = some q)
    (hfine : Fine root s.pipes p q'.path q'.code q'.fds) (hown : ∀ node, q'.Owns node → q.Owns node)
    (hchild : ∀ c, child = some c → Fine root s.pipes s.procs.length c.path c.code c.fds ∧
      ∀ node, c.Owns node → q.Owns node ∧ ¬ q'.Owns node) :
    Inv root { s with procs := s.procs.set p q' ++ child.toList } := by
  refine ⟨fun j r hr => ?_, fun x hx => ?_, h.apart.step hp hown fun c hc => (hchild c hc).2,
    fun x hx j r hr => ?_, h.once⟩
  · rcases pool_cases hp hr with ⟨rfl, rfl⟩ | ⟨-, hold⟩ | ⟨rfl, hnew⟩
    · exact hfine
    · exact h.fine j r hold
    · exact (hchild r hnew).1
  · have := h.makers x hx
    rw [List.length_append, List.length_set]
    omega
  · rcases pool_cases hp hr with ⟨rfl, rfl⟩ | ⟨-, hold⟩ | ⟨rfl, hnew⟩
    · exact fun ho => h.spent x hx _ _ hp (hown _ ho)
    · exact h.spent x hx _ _ hold
    · exact fun hc => h.spent x hx _ _ hp ((hchild r hnew).2 _ hc).1

theorem Inv.made (h : Inv root s) (hp : s.procs[p]? = some q)
    (hfine : Fine root (s.pipes ++ [(p, q.path)]) p q'.path q'.code q'.fds)
    (hown : ∀ node, q'.Owns node → q.Owns node) (hat : q.Owns q.path) (hpast : ¬ q'.Owns q.path) :
    Inv root
    { procs := s.procs.set p q' ++ (none : Option (Proc W)).toList,
      pipes := s.pipes ++ [(p, q.path)] } := by
  have hlt := (List.getElem?_eq_some_iff.1 hp).1
  have hpipes {x : ℕ × List Turn} (hx : x ∈ s.pipes ++ [(p, q.path)]) :
      x ∈ s.pipes ∨ x = (p, q.path) :=
    (List.mem_append.1 hx).imp_right List.mem_singleton.1
  refine ⟨fun j r hr => ?_, fun x hx => ?_, h.apart.step hp hown fun c hc => (by cases hc),
    fun x hx j r hr => ?_, ?_⟩
  · rcases pool_cases hp hr with ⟨rfl, rfl⟩ | ⟨hj, hold⟩ | ⟨-, hnew⟩
    · exact hfine
    · exact (h.fine j r hold).mono (Ne.symm hj)
    · cases hnew
  · rw [List.length_append, List.length_set]
    rcases hpipes hx with hx' | rfl
    · have := h.makers x hx'
      omega
    · exact Nat.lt_add_right _ hlt
  · rcases hpipes hx with hx' | rfl <;> rcases pool_cases hp hr with ⟨rfl, rfl⟩ | ⟨hj,
      hold⟩ | ⟨-, hnew⟩
    · exact fun ho => h.spent x hx' _ _ hp (hown _ ho)
    · exact h.spent x hx' _ _ hold
    · cases hnew
    · exact hpast
    · exact h.apart _ _ _ _ hp hold (Ne.symm hj) _ hat
    · cases hnew
  · rw [List.map_append, List.map_singleton, List.nodup_append]
    refine ⟨h.once, List.nodup_singleton _, ?_⟩
    intro node hnode node' hnode' heq
    rw [List.mem_singleton] at hnode'
    obtain ⟨x, hx, rfl⟩ := List.mem_map.1 hnode
    refine h.spent x hx _ _ hp ?_
    rw [heq, hnode']
    exact hat

theorem not_append_isPrefix (l : List α) (a : α) : ¬ l ++ [a] <+: l := by
  intro h
  have := h.length_le
  rw [List.length_append, List.length_singleton] at this
  omega

theorem turns_apart (hne : t ≠ t') (h : path ++ [t] <+: node) : ¬ path ++ [t'] <+: node := by
  intro h'
  have heq := (List.prefix_of_prefix_length_le h h' (by simp)).eq_of_length (by simp)
  exact hne (List.singleton_injective (List.append_cancel_left heq))

theorem isPrefix_of_turn (h : path ++ [t] <+: node) : path <+: node :=
  (List.prefix_append path [t]).trans h

theorem Inv.gone (h : Inv root s) (hp : s.procs[p]? = some q) :
    Inv root
    { s with procs := s.procs.set p { q with code := .gone } ++ (none : Option (Proc W)).toList } :=
  h.quiet hp trivial (fun _ ho => ho.elim) (fun c hc => by cases hc)

theorem Inv.notMaker (h : Inv root s) : NotMaker s.pipes s.procs.length :=
  fun x hx => Nat.ne_of_lt (h.makers x hx)

/-- **Every call keeps the invariant.** -/
theorem Inv.step (hroot : root.Std) (h : Inv root s) (hs : s.step p = some s') : Inv root s' := by
  obtain ⟨q, hp, hs⟩ := Option.bind_eq_some_iff.1 hs
  obtain ⟨⟨q', child, made⟩, hq, hs⟩ := Option.bind_eq_some_iff.1 hs
  cases hs
  have hfine := h.fine p q hp
  rcases q with ⟨code, fds, path⟩
  cases code with
  | runcmd cmd =>
    obtain ⟨hmaker, set, hwalk, hfds⟩ := hfine
    cases cmd with
    | exec argv =>
      cases argv with
      | nil =>
        cases hq
        exact h.gone hp
      | cons a argv =>
        cases hq
        exact h.quiet hp ⟨hmaker, set, hwalk, hfds⟩ (fun _ ho => ho.elim) (fun c hc => by cases hc)
    | redir cmd file mode fd =>
      cases hq
      have hstd := hwalk.std hroot
      refine h.quiet hp ⟨_, ?_, hmaker, _, .redir hwalk, rfl⟩ (fun _ ho => isPrefix_of_turn ho)
        (fun c hc => by cases hc)
      rw [show fds = table set from hfds]
      exact runAll_redir hstd.1 file mode
    | list left right =>
      cases hq
      refine h.quiet hp ⟨left, hmaker, set, hwalk, hfds⟩ (fun _ ho => isPrefix_of_turn ho)
        fun c hc => ?_
      cases hc
      exact ⟨⟨h.notMaker, set, .first hwalk, hfds⟩, fun node ho =>
        ⟨isPrefix_of_turn ho, turns_apart (by decide) ho⟩⟩
    | pipe left right =>
      have hpipe : pipe fds s.pipes.length = some (3, 4, piped set s.pipes.length) := by
        rw [show fds = table set from hfds]
        exact pipe_table set _
      rw [Proc.step, hpipe] at hq
      cases hq
      refine h.made hp ⟨rfl, rfl, set, _, hwalk.mono, rfl, List.getElem?_concat_length,
        fun j x hj => ?_⟩ ?_ (List.prefix_refl _) ?_
      · rcases Nat.lt_trichotomy j s.pipes.length with hlt | heq | hgt
        · rw [List.getElem?_append_left hlt] at hj
          exact absurd rfl (hmaker _ (List.mem_of_getElem? hj))
        · exact heq
        · rw [List.getElem?_eq_none (by rw [List.length_append, List.length_singleton]; omega)]
            at hj
          cases hj
      · exact fun node ho => ho.elim isPrefix_of_turn isPrefix_of_turn
      · exact fun ho => ho.elim (not_append_isPrefix _ _) (not_append_isPrefix _ _)
    | back cmd =>
      cases hq
      refine h.quiet hp trivial (fun _ ho => ho.elim) fun c hc => ?_
      cases hc
      exact ⟨⟨h.notMaker, set, .back hwalk, hfds⟩,
        fun node ho => ⟨isPrefix_of_turn ho, fun hover => hover.elim⟩⟩
  | exec argv =>
    cases hq
    exact h.gone hp
  | calls cs next =>
    obtain ⟨fds', hrun, hnext⟩ := hfine
    cases cs with
    | nil =>
      cases hq
      cases hrun
      exact h.quiet hp hnext (fun _ ho => ho) (fun c hc => by cases hc)
    | cons c cs =>
      rw [Proc.step] at hq
      cases hc : c.run fds with
      | none =>
        simp only [hc] at hq
        cases hq
        exact h.gone hp
      | some fds₁ =>
        simp only [hc] at hq
        cases hq
        rw [runAll, show c.run fds = some fds₁ from hc] at hrun
        exact h.quiet hp ⟨fds', hrun, hnext⟩ (fun _ ho => ho) (fun c hc => by cases hc)
  | forkLeft left right p0 p1 =>
    cases hq
    have hright := hfine
    obtain ⟨rfl, rfl, set, i, hwalk, hfds, hi, hone⟩ := hfine
    refine h.quiet hp ⟨left, hright⟩ (fun _ ho => .inr ho) fun c hc => ?_
    cases hc
    refine ⟨⟨_, ?_, h.notMaker, _, .left hwalk hi, rfl⟩,
      fun node ho => ⟨.inl ho, turns_apart (by decide) ho⟩⟩
    rw [show fds = piped set i from hfds]
    exact runAll_child (by decide) rfl (by decide)
  | forkRight right p0 p1 =>
    cases hq
    obtain ⟨left, rfl, rfl, set, i, hwalk, hfds, hi, hone⟩ := hfine
    have hparent : runAll [.close 3, .close 4] fds = some (table set) := by
      rw [show fds = piped set i from hfds]
      exact runAll_parent
    refine h.quiet hp ⟨_, hparent, Halfway.clean hwalk hi hone⟩ (fun _ ho => ho.elim) fun c hc => ?_
    cases hc
    refine ⟨⟨_, ?_, h.notMaker, _, .right hwalk hi, rfl⟩,
      fun node ho => ⟨ho, fun hover => hover.elim⟩⟩
    rw [show fds = piped set i from hfds]
    exact runAll_child (by decide) rfl (by decide)
  | wait n next =>
    cases n with
    | zero =>
      cases next with
      | none =>
        cases hq
        exact h.gone hp
      | some right =>
        cases hq
        obtain ⟨left, hmaker, set, hwalk, hfds⟩ := hfine
        exact h.quiet hp ⟨hmaker, set, .rest hwalk, hfds⟩ (fun _ ho => ho) (fun c hc => by cases hc)
    | succ n =>
      cases hq
      refine h.quiet hp ?_ (fun _ ho => ?_) (fun c hc => by cases hc)
      · cases next <;> exact hfine
      · cases next <;> exact ho
  | gone => cases hq

theorem inv_start (root : Cmd W) : Inv root (Sys.start root) := by
  have hone {j : ℕ} {r : Proc W} (hr : (Sys.start root).procs[j]? = some r) :
      j = 0 ∧ r = { code := .runcmd root, fds := table .given, path := [] } := by
    cases j with
    | zero =>
      cases hr
      exact ⟨rfl, rfl⟩
    | succ j => cases hr
  refine ⟨fun j r hr => ?_, fun x hx => (by cases hx), fun j j' r r' hr hr' hne => ?_,
    fun x hx => (by cases hx), List.nodup_nil⟩
  · obtain ⟨rfl, rfl⟩ := hone hr
    exact ⟨fun x hx => (by cases hx), .given, .root, rfl⟩
  · exact absurd ((hone hr).1.trans (hone hr').1.symm) hne

/-- **The shell leaves no stray pipe ends.**  In every run of a command that the parser has built, a
process that reaches `exec` has exactly the descriptors 0, 1 and 2, and they are what the walk from
the root to its leaf sets; a process that waits has no end of a pipe that it made; and no node has
two pipes. -/
theorem runcmd_plumbing (line : Line) {s : Sys (List UInt8)}
    (h : Reach Sys.step (fun _ _ => True) (Sys.start line.tree) s) :
    (∀ q ∈ s.procs, ∀ argv, q.code = .exec argv → ∃ set, Walk line.tree s.pipes q.path
      (.exec argv) set ∧ ∀ fd, q.fds fd = if fd < 3 then some (set fd) else none) ∧
    (∀ (p : ℕ) (q : Proc (List UInt8)) n next, s.procs[p]? = some q → q.code = .wait n next →
      ∀ i node, s.pipes[i]? = some (p, node) → ∀ fd, q.fds fd ≠ some (.readEnd i) ∧
      q.fds fd ≠ some (.writeEnd i)) ∧
    (s.pipes.map Prod.snd).Nodup := by
  have hinv : Inv line.tree s :=
    h.invariant (I := Inv line.tree) (inv_start _) fun s p s' hinv _ hs =>
      hinv.step line.built.std hs
  refine ⟨fun q hq argv hcode => ?_, fun p q n next hp hcode => ?_, hinv.once⟩
  · obtain ⟨p, hp⟩ := List.mem_iff_getElem?.1 hq
    have hfine := hinv.fine p q hp
    rw [hcode] at hfine
    obtain ⟨-, set, hwalk, hfds⟩ := hfine
    exact ⟨set, hwalk, fun fd => congrFun hfds fd⟩
  · have hfine := hinv.fine p q hp
    rw [hcode] at hfine
    cases next with
    | none => exact hfine
    | some right =>
      obtain ⟨left, hmaker, -⟩ := hfine
      exact hmaker.clean q.fds

def Code.argv : Code W → Option (List W)
  | .exec argv => some argv
  | _ => none

/-- `a|b`: the process of `a` is at `exec` and has the write end of the pipe for its output, and no
other end of it. -/
theorem runcmd_plumbing_pipe :
    ∃ (s : Sys (List UInt8)) (q : Proc (List UInt8)) (set : ℕ → Target (List UInt8)), Reach Sys.step
    (fun _ _ => True) (Sys.start (.pipe (.exec [[97]]) (.exec [[98]]))) s ∧ q ∈ s.procs ∧
    q.code = .exec [[97]] ∧ set 1 = .writeEnd 0 ∧ ∀ fd, q.fds fd = if fd < 3 then
    some (set fd) else none := by
  have hrun :
    (run Sys.step (fun _ _ => True)
    (Sys.start (.pipe (.exec [[97]]) (.exec [[98]]) : Cmd (List UInt8)))
      [0, 0, 0, 1, 1, 1, 1, 1, 1]).map (fun s => s.procs.map fun q => (q.code.argv, q.fds 1)) =
      some [(none, some (.given 1)), (some [[97]], some (.writeEnd 0)),
        (none, some (.given 1))] := by
    decide +kernel
  obtain ⟨s, hs, hprocs⟩ := exists_reach_of_run hrun
  have hmem : (some [[97]], some (.writeEnd 0)) ∈ s.procs.map fun q => (q.code.argv, q.fds 1) := by
    simp [hprocs]
  obtain ⟨q, hq, hfacts⟩ := List.mem_map.1 hmem
  obtain ⟨hargv, hout⟩ := Prod.mk.inj hfacts
  have hcode : q.code = .exec [[97]] := by
    cases hc : q.code <;> simp_all [Code.argv]
  obtain ⟨set, -, hfds⟩ := (runcmd_plumbing (.last (.more (.simple [] [⟨[97], []⟩] (by decide))
    (.last (.simple [] [⟨[98], []⟩] (by decide)))) 0) hs).1 q hq _ hcode
  refine ⟨s, q, set, hs, hq, hcode, ?_, hfds⟩
  exact Option.some.inj ((hfds 1).symm.trans hout)

end Xv6.Sh
