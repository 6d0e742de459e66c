/-
# Reads that cannot deliver a byte

`piperead` and `consoleread` move the read index before they copy:

```
ch = pi->data[pi->nread++ % PIPESIZE];
if(copyout(pr->pagetable, addr + i, &ch, 1) == -1)
  break;
```

So a call takes from the buffer what it delivers and the byte whose copy failed.
-/

import Xv6.Console.Refine
import Xv6.Pipe.Fifo

namespace Xv6

open Lib

variable {N : ℕ} {i : ℤ} {q : Fin N}

/-- The bytes that a call took from the buffer, those that it gave to its caller, and those that it
could not copy to its caller. -/
structure Account where
  took : List UInt8
  gave : List UInt8
  lost : List UInt8

/-- The account of a read with arguments `r`, as it goes on. -/
structure Account.Even (r : ReadArgs) (c : Account) : Prop where
  even : c.took = c.gave
  lost : c.lost = []
  copied : ∀ k < c.gave.length, r.copyout k = true

/-- The account of a read that returned `i`: it took what it gave and what it lost, and that is
nothing or the byte of copy number `i`, which failed. -/
structure Account.Closed (r : ReadArgs) (i : ℤ) (c : Account) : Prop where
  result : i = c.gave.length
  copied : ∀ k < c.gave.length, r.copyout k = true
  took : c.took = c.gave ++ c.lost
  lost : c.lost = [] ∨ ∃ ch, c.lost = [ch] ∧ i < r.n ∧ r.copyout c.gave.length = false

theorem Account.Even.nil (r : ReadArgs) : Account.Even r ⟨[], [], []⟩ :=
  ⟨rfl, rfl, fun k hk => absurd hk (Nat.not_lt_zero k)⟩

theorem Account.Even.closed {r : ReadArgs} {c : Account} (h : c.Even r) (hi : i = c.gave.length) :
    c.Closed r i := by
  refine ⟨hi, h.copied, ?_, .inl h.lost⟩
  rw [h.lost, h.even, List.append_nil]

theorem Account.Even.push {r : ReadArgs} {c : Account} (h : c.Even r) (ch : UInt8)
    (hcopy : r.copyout c.gave.length = true) :
    Account.Even r ⟨c.took ++ [ch], c.gave ++ [ch], c.lost⟩ := by
  refine ⟨congrArg (· ++ [ch]) h.even, h.lost, fun k hk => ?_⟩
  rw [List.length_append, List.length_singleton] at hk
  rcases Nat.lt_succ_iff_lt_or_eq.1 hk with hk | rfl
  · exact h.copied k hk
  · exact hcopy

theorem Account.Even.lose {r : ReadArgs} {c : Account} (h : c.Even r) (hi : i = c.gave.length)
    (hn : i < r.n) (ch : UInt8) (hcopy : ¬r.copyout c.gave.length = true) :
    Account.Closed r i ⟨c.took ++ [ch], c.gave, c.lost ++ [ch]⟩ := by
  refine ⟨hi, h.copied, ?_, .inr ⟨ch, ?_, hn, Bool.eq_false_iff.2 hcopy⟩⟩
  · rw [h.even, h.lost, List.nil_append]
  · rw [h.lost, List.nil_append]

/-- As many bytes are gone as the call returned exactly if it lost none. -/
theorem Account.Closed.length_took_iff {r : ReadArgs} {c : Account} (h : c.Closed r i) :
    c.took.length = i ↔ c.lost = [] := by
  rw [h.result, h.took, List.length_append, ← List.length_eq_zero_iff]
  omega

/-- A call whose copies all succeed loses nothing. -/
theorem Account.Closed.lost_eq_nil {r : ReadArgs} {c : Account} (h : c.Closed r i)
    (hcopy : ∀ k, r.copyout k = true) : c.lost = [] := by
  rcases h.lost with hnil | ⟨ch, -, -, hfail⟩
  · exact hnil
  · exact absurd (hcopy _) (Bool.eq_false_iff.1 hfail)

/-! ### Pipes -/

def PipeAction.Begins (p : Fin N) : PipeAction N → Prop
  | .read q _ | .write q _ => q = p
  | _ => False

namespace PipeSys

variable {s s' : PipeSys N} {p : Fin N} {r : ReadArgs} {c : Account}

/-- The bytes that the read index has moved past. -/
def removed (s s' : PipeSys N) : List UInt8 :=
  queue PIPESIZE s.pipe.data.get s.pipe.nread s'.pipe.nread

/-- The byte that process `p` is about to pass to a `copyout` that fails, if it is. -/
def uncopied (s : PipeSys N) (p : Fin N) : List UInt8 :=
  match s.pc p with
  | .readLoop r i =>
    if (i : ℤ) < r.n ∧ ¬s.pipe.empty ∧ r.copyout i = false then [s.pipe.take.1] else []
  | _ => []

/-- The account of process `p`: only its own steps count. -/
def note (p : Fin N) (s : PipeSys N) (a : PipeAction N) (s' : PipeSys N) (c : Account) : Account :=
  match a with
  | .run q =>
    if q = p then
      ⟨c.took ++ removed s s', c.gave ++ s'.got.drop s.got.length, c.lost ++ s.uncopied p⟩
    else c
  | _ => c

/-- The account of a process that is at `pc` in `piperead`, or back from it. -/
def Accounted (r : ReadArgs) (c : Account) : PipePc → Prop
  | .readAcquire r' | .readTest r' | .readEmpty r' | .readSleep r' => r' = r ∧ c = ⟨[], [], []⟩
  | .readLoop r' i => r' = r ∧ c.gave.length = i ∧ c.Even r
  | .out (some i) => i = -1 ∨ c.Closed r i
  | _ => False

theorem Accounted.same (hpipe : s'.pipe = s.pipe) (hgot : s'.got = s.got)
    (hcopy : s.uncopied p = []) (h : Accounted r c (s'.pc p)) :
    Accounted r (note p s (.run p) s' c) (s'.pc p) := by
  have hnote : note p s (.run p) s' c = c := by simp [note, removed, hpipe, hgot, hcopy]
  rwa [hnote]

theorem Accounted.take (hpipe : s'.pipe = s.pipe.take.2) (hgot : s'.got = s.got ++ gave)
    (h : Accounted r ⟨c.took ++ [s.pipe.take.1], c.gave ++ gave, c.lost ++ s.uncopied p⟩
      (s'.pc p)) :
    Accounted r (note p s (.run p) s' c) (s'.pc p) := by
  have hnote : note p s (.run p) s' c =
      ⟨c.took ++ [s.pipe.take.1], c.gave ++ gave, c.lost ++ s.uncopied p⟩ := by
    simp [note, removed, hpipe, hgot, Pipe.take, cell]
  rwa [hnote]

theorem Accounted.advance (h : Accounted r c (s.pc p)) (hs : s.advance p (s.pc p) = some s') :
    Accounted r (note p s (.run p) s' c) (s'.pc p) := by
  cases turn_of_advance hs with
  | writeAcquire hpc | writeGone hpc | writeFull hpc | put hpc | writeDone hpc | writeSleep hpc =>
    rw [hpc] at h
    exact h.elim
  | readAcquire hpc | readEmpty hpc | readSleep hpc =>
    refine .same rfl rfl (by rw [uncopied, hpc]) ?_
    rw [hpc] at h
    simpa [Accounted] using h
  | readKilled hpc =>
    refine .same rfl rfl (by rw [uncopied, hpc]) ?_
    rw [leave_pc_self]
    exact .inl rfl
  | readStart hpc =>
    refine .same rfl rfl (by rw [uncopied, hpc]) ?_
    rw [hpc] at h
    obtain ⟨rfl, rfl⟩ := h
    rw [goto_pc_self]
    exact ⟨rfl, rfl, .nil _⟩
  | take hpc _ _ hcopy =>
    have hnone : s.uncopied p = [] := by simp [uncopied, hpc, hcopy]
    rw [hpc] at h
    obtain ⟨rfl, rfl, heven⟩ := h
    refine .take rfl rfl ?_
    rw [goto_pc_self, hnone, List.append_nil]
    exact ⟨rfl, by simp, heven.push _ hcopy⟩
  | lose hpc hi hempty hcopy =>
    have hone : s.uncopied p = [s.pipe.take.1] := by simp [uncopied, hpc, hi, hempty, hcopy]
    rw [hpc] at h
    obtain ⟨rfl, rfl, heven⟩ := h
    refine .take rfl (List.append_nil _).symm ?_
    simp only [readDone, leave_pc_self, List.append_nil, hone]
    exact .inr (heven.lose rfl hi _ hcopy)
  | readDone hpc hdone =>
    have hnone : s.uncopied p = [] := by
      simp only [uncopied, hpc]
      exact if_neg fun hlost => hlost.2.1 (hdone hlost.1)
    rw [hpc] at h
    obtain ⟨rfl, rfl, heven⟩ := h
    refine .same rfl rfl hnone ?_
    rw [readDone, leave_pc_self]
    exact .inr (heven.closed rfl)

theorem pc_of_advance (hq : p ≠ q) (hs : s.advance q (s.pc q) = some s') :
    s'.pc p = s.pc p ∨ s'.pc p = s.wakeupNread.pc p ∨ s'.pc p = s.wakeupNwrite.pc p := by
  cases turn_of_advance hs with
  | writeDone | writeSleep => exact .inr (.inl (leave_pc_of_ne hq))
  | lose | readDone => exact .inr (.inr (leave_pc_of_ne hq))
  | _ => exact .inl (goto_pc_of_ne hq)

theorem Accounted.other (h : Accounted r c (s.pc p)) (hown : a ≠ .run p)
    (hbegin : ¬a.Begins p) (hs : s.step a = some s') : Accounted r c (s'.pc p) := by
  have hwake : Accounted r c (s.wakeupNread.pc p) ∧ Accounted r c (s.wakeupNwrite.pc p) := by
    simp only [wakeupNread, wakeupNwrite]
    cases hpc : s.pc p <;> rw [hpc] at h <;> exact ⟨h, h⟩
  cases step_cases hs with
  | read | write => rwa [goto_pc_of_ne fun he => hbegin he.symm]
  | @close _ _ writable =>
    cases writable
    · exact hwake.2
    · exact hwake.1
  | kill q =>
    simp only [PipeSys.kill]
    split <;> rename_i hpc
    all_goals by_cases hq : p = q
    all_goals first
      | (subst hq; rw [goto_pc_self]; rw [hpc] at h; exact h)
      | (rw [goto_pc_of_ne hq]; exact h)
      | exact h
  | @run q _ hs =>
    have hq : p ≠ q := fun he => hown (he ▸ rfl)
    rcases pc_of_advance hq hs with he | he | he <;> rw [he]
    · exact h
    · exact hwake.1
    · exact hwake.2

/-- **What a read takes and gives**, from the `acquire` with which it begins. -/
theorem Accounted.reach (hp : s.pc p = .readAcquire r)
    (h : Reach (history step (note p)) (fun _ a => ¬a.Begins p) (s, ⟨[], [], []⟩) (s', c)) :
    Accounted r c (s'.pc p) := by
  refine h.history_invariant (I := fun s c => Accounted r c (s.pc p)) ?_
    fun s a s' c hc hok hs => ?_
  · rw [hp]
    exact ⟨rfl, rfl⟩
  by_cases hown : a = .run p
  · subst hown
    exact hc.advance hs
  have hnote : note p s a s' c = c := by
    cases a with
    | run q => exact if_neg fun (he : q = p) => hown (he ▸ rfl)
    | _ => rfl
  rw [hnote]
  exact hc.other hown hok hs

end PipeSys

/-! ### The console -/

namespace Console

def Action.Begins (p : Fin N) : Action N → Prop
  | .read q _ => q = p
  | _ => False

namespace Sys

variable {s s' : Sys N} {p : Fin N} {r : ReadArgs} {c : List UInt8 × List UInt8}

/-- The bytes that the read index has moved past. -/
def removed (s s' : Sys N) : List UInt8 := queue INPUT_BUF s.cons.buf.get s.cons.r s'.cons.r

/-- The byte that process `p` is about to pass to an `either_copyout` that fails, if it is. -/
def uncopied (s : Sys N) (p : Fin N) : List UInt8 :=
  match s.pc p with
  | .loop a n got =>
    if 0 < n ∧ s.cons.r ≠ s.cons.w ∧ s.cons.byte s.cons.r ≠ ctrlD ∧
      a.copyout got.length = false then
      [s.cons.byte s.cons.r]
    else []
  | _ => []

/-- The bytes that process `p` takes and those that it loses; what it gives is part of the state. -/
def note (p : Fin N) (s : Sys N) (a : Action N) (s' : Sys N) (c : List UInt8 × List UInt8) :
    List UInt8 × List UInt8 :=
  match a with
  | .run q => if q = p then (c.1 ++ removed s s', c.2 ++ s.uncopied p) else c
  | _ => c

/-- The account of a process that is at `pc` in `consoleread`, or back from it. -/
def Accounted (r : ReadArgs) (c : List UInt8 × List UInt8) : Pc → Prop
  | .acquire a n got | .loop a n got | .empty a n got | .sleep a n got =>
    a = r ∧ n = r.n - got.length ∧ Account.Even r ⟨c.1, got, c.2⟩
  | .out (some (i, got)) =>
    i = -1 ∨ Account.Closed r i ⟨c.1, got, c.2⟩ ∨ i = 0 ∧ c = ([ctrlD], []) ∧ got = []
  | .out none => False

theorem Accounted.same (hcons : s'.cons = s.cons) (hcopy : s.uncopied p = [])
    (h : Accounted r c (s'.pc p)) : Accounted r (note p s (.run p) s' c) (s'.pc p) := by
  have hnote : note p s (.run p) s' c = c := by simp [note, removed, hcons, hcopy]
  rwa [hnote]

theorem Accounted.take (hcons : s'.cons = { s.cons with r := s.cons.r + 1 })
    (h : Accounted r (c.1 ++ [s.cons.byte s.cons.r], c.2 ++ s.uncopied p) (s'.pc p)) :
    Accounted r (note p s (.run p) s' c) (s'.pc p) := by
  have hnote : note p s (.run p) s' c = (c.1 ++ [s.cons.byte s.cons.r], c.2 ++ s.uncopied p) := by
    simp [note, removed, hcons, Cons.byte, cell]
  rwa [hnote]

theorem goto_pc_self (s : Sys N) (p : Fin N) (c : Pc) : (s.goto p c).pc p = c :=
  Function.update_self ..

theorem goto_pc_of_ne (h : q ≠ p) (s : Sys N) (c : Pc) : (s.goto p c).pc q = s.pc q :=
  Function.update_of_ne h ..

theorem Accounted.readLoop {n : ℤ} {got : List UInt8} (hpc : s.pc p = .loop r n got)
    (h : Accounted r c (.loop r n got)) :
    Accounted r (note p s (.run p) (s.readLoop p r n got) c) ((s.readLoop p r n got).pc p) := by
  obtain ⟨-, hn, heven⟩ := h
  have hret : r.n - n = got.length := by omega
  have hclosed : Account.Closed r (r.n - n) ⟨c.1, got, c.2⟩ := heven.closed hret
  unfold Sys.readLoop
  dsimp only
  split_ifs with hpos hempty hkilled hd hlt hcopy
  · refine .same rfl (by simp [uncopied, hpc, hempty]) ?_
    rw [leave, goto_pc_self]
    exact .inl rfl
  · refine .same rfl (by simp [uncopied, hpc, hempty]) ?_
    rw [goto_pc_self]
    exact ⟨rfl, hn, heven⟩
  · -- `^D` is put back
    refine .same ?_ (by simp [uncopied, hpc, hd]) ?_
    · simp only [leave, goto, UInt32.add_sub_cancel]
    · rw [leave, goto_pc_self]
      exact .inr (.inl hclosed)
  · have hnone : got = [] := List.length_eq_zero_iff.1 (by omega)
    have htook : c.1 = [] := heven.even.trans hnone
    have hlost : c.2 = [] := heven.lost
    have hcopied : s.uncopied p = [] := by simp [uncopied, hpc, hd]
    refine .take rfl ?_
    rw [leave, goto_pc_self, htook, hlost, hcopied, hd]
    exact .inr (.inr ⟨by rw [hret, hnone]; rfl, rfl, hnone⟩)
  · have hcopied : s.uncopied p = [] := by simp [uncopied, hpc, hcopy]
    refine .take rfl ?_
    rw [leave, goto_pc_self, hcopied, List.append_nil]
    refine .inr (.inl ((heven.push _ hcopy).closed ?_))
    simp only [List.length_append, List.length_singleton]
    omega
  · have hcopied : s.uncopied p = [] := by simp [uncopied, hpc, hcopy]
    refine .take rfl ?_
    rw [goto_pc_self, hcopied, List.append_nil]
    refine ⟨rfl, ?_, heven.push _ hcopy⟩
    rw [List.length_append, List.length_singleton]
    omega
  · have huncopied : s.uncopied p = [s.cons.byte s.cons.r] := by
      simp [uncopied, hpc, hpos, hempty, hd, hcopy]
    refine .take rfl ?_
    rw [leave, goto_pc_self, huncopied]
    exact .inr (.inl (heven.lose hret (by omega) _ hcopy))
  · refine .same rfl (by simp [uncopied, hpc, hpos]) ?_
    rw [leave, goto_pc_self]
    exact .inr (.inl hclosed)

theorem Accounted.advance (h : Accounted r c (s.pc p)) (hs : s.advance p (s.pc p) = some s') :
    Accounted r (note p s (.run p) s' c) (s'.pc p) := by
  cases hpc : s.pc p with
  | out last | sleep a n got =>
    rw [hpc] at hs
    cases hs
  | acquire a n got =>
    rw [hpc] at h hs
    simp only [Sys.advance] at hs
    split at hs
    · cases hs
      refine .same rfl (by rw [uncopied, hpc]) ?_
      rw [goto_pc_self]
      exact h
    · cases hs
  | loop a n got =>
    rw [hpc] at h hs
    cases hs
    obtain rfl := h.1
    exact h.readLoop hpc
  | empty a n got =>
    rw [hpc] at h hs
    cases hs
    refine .same rfl (by rw [uncopied, hpc]) ?_
    rw [leave, goto_pc_self]
    exact h

theorem pc_of_advance (hq : p ≠ q) (hs : s.advance q (s.pc q) = some s') : s'.pc p = s.pc p := by
  cases hpc : s.pc q with
  | out last | sleep a n got =>
    rw [hpc] at hs
    cases hs
  | acquire a n got =>
    rw [hpc] at hs
    simp only [Sys.advance] at hs
    split at hs
    · cases hs
      exact goto_pc_of_ne hq _ _
    · cases hs
  | loop a n got =>
    rw [hpc] at hs
    cases hs
    unfold Sys.readLoop
    dsimp only
    split_ifs <;> exact goto_pc_of_ne hq _ _
  | empty a n got =>
    rw [hpc] at hs
    cases hs
    exact goto_pc_of_ne hq _ _

theorem Accounted.other (h : Accounted r c (s.pc p)) (hown : a ≠ .run p)
    (hbegin : ¬a.Begins p) (hs : s.step a = some s') : Accounted r c (s'.pc p) := by
  cases a with
  | key ch =>
    simp only [Sys.step] at hs
    split at hs
    · cases hs
      simp only [intr]
      split
      · simp only [wakeup]
        cases hpc : s.pc p <;> rw [hpc] at h <;> exact h
      · exact h
    · cases hs
  | read q a =>
    simp only [Sys.step] at hs
    split at hs
    · cases hs
      rwa [goto_pc_of_ne fun he => hbegin he.symm]
    · cases hs
  | kill q =>
    cases hs
    simp only [Sys.kill]
    split <;> rename_i hpc
    · by_cases hq : p = q
      · subst hq
        rw [goto_pc_self]
        rw [hpc] at h
        exact h
      · rwa [goto_pc_of_ne hq]
    · exact h
  | run q =>
    have hq : p ≠ q := fun he => hown (he ▸ rfl)
    rwa [pc_of_advance hq hs]

/-- **What a read takes and gives**, from the `acquire` with which it begins. -/
theorem Accounted.reach (hp : s.pc p = .acquire r r.n [])
    (h : Reach (history step (note p)) (fun _ a => ¬a.Begins p) (s, [], []) (s', c)) :
    Accounted r c (s'.pc p) := by
  refine h.history_invariant (I := fun s c => Accounted r c (s.pc p)) ?_
    fun s a s' c hc hok hs => ?_
  · rw [hp]
    exact ⟨rfl, by simp, .nil _⟩
  by_cases hown : a = .run p
  · subst hown
    exact hc.advance hs
  have hnote : note p s a s' c = c := by
    cases a with
    | run q => exact if_neg fun (he : q = p) => hown (he ▸ rfl)
    | _ => rfl
  rw [hnote]
  exact hc.other hown hok hs

end Sys

end Console

/-! ### What is lost -/

/-- **A read takes what it delivers, if it can deliver it.**  From any state in which process `p`
begins a read, however it goes on together with other processes, interrupts and kills: if the read
returns `i ≥ 0` it has delivered `i` bytes, each by a copy that succeeded, and has taken those from
the front of the buffer and behind them the byte whose copy failed.  So it has taken `i` bytes if
and only if no copy failed.  A `^D` that ends a read from the console is taken without being
delivered if it is the first byte. -/
theorem read_takes_what_it_delivers {p : Fin N} {r : ReadArgs} {i : ℤ} (hi : 0 ≤ i) :
    (∀ (s s' : PipeSys N) (c : Account), s.pc p = .readAcquire r →
      Reach (history PipeSys.step (PipeSys.note p)) (fun _ a => ¬a.Begins p) (s, ⟨[], [], []⟩)
        (s', c) →
      s'.pc p = .out (some i) →
      c.Closed r i ∧ (c.took.length = i ↔ c.lost = []) ∧
        ((∀ k, r.copyout k = true) → c.lost = [])) ∧
    ∀ (s s' : Console.Sys N) (took lost got : List UInt8), s.pc p = .acquire r r.n [] →
      Reach (history Console.Sys.step (Console.Sys.note p)) (fun _ a => ¬a.Begins p) (s, [], [])
        (s', took, lost) →
      s'.pc p = .out (some (i, got)) →
      Account.Closed r i ⟨took, got, lost⟩ ∧ (took.length = i ↔ lost = []) ∧
          ((∀ k, r.copyout k = true) → lost = []) ∨
        i = 0 ∧ took = [ctrlD] ∧ lost = [] ∧ got = [] := by
  constructor
  · intro s s' c hp hreach hout
    have h := PipeSys.Accounted.reach hp hreach
    rw [hout] at h
    obtain hneg | hclosed := h
    · omega
    · exact ⟨hclosed, hclosed.length_took_iff, hclosed.lost_eq_nil⟩
  · intro s s' took lost got hp hreach hout
    have h := Console.Sys.Accounted.reach hp hreach
    rw [hout] at h
    obtain hneg | hclosed | ⟨hzero, hc, hgot⟩ := h
    · omega
    · exact .inl ⟨hclosed, hclosed.length_took_iff, hclosed.lost_eq_nil⟩
    · cases hc
      exact .inr ⟨hzero, rfl, rfl, hgot⟩

def pipeTalk (r : ReadArgs) : List (PipeAction 2) :=
  .write ⟨0, Nat.two_pos⟩ ⟨2, fun i => some (UInt8.ofNat (i + 7))⟩ ::
    (List.replicate 4 (.run ⟨0, Nat.two_pos⟩) ++ [.read ⟨1, Nat.one_lt_two⟩ r])

def consoleTalk (r : ReadArgs) : List (Console.Action 1) :=
  [.key 97, .key lineFeed, .read ⟨0, Nat.one_pos⟩ r]

theorem reach_of_run_pipe {x y : PipeSys 2 × Account} {k : ℕ}
    (h : run (history PipeSys.step (PipeSys.note 1)) (fun _ _ => True) x
      (List.replicate k (.run 1)) = some y) :
    Reach (history PipeSys.step (PipeSys.note 1)) (fun _ a => ¬a.Begins 1) x y :=
  reach_of_actions (fun _ ha _ _ => List.eq_of_mem_replicate ha ▸ id) h

theorem reach_of_run_console {x y : Console.Sys 1 × List UInt8 × List UInt8} {k : ℕ}
    (h : run (history Console.Sys.step (Console.Sys.note 0)) (fun _ _ => True) x
      (List.replicate k (.run 0)) = some y) :
    Reach (history Console.Sys.step (Console.Sys.note 0)) (fun _ a => ¬a.Begins 0) x y :=
  reach_of_actions (fun _ ha _ _ => List.eq_of_mem_replicate ha ▸ id) h

theorem read_takes_what_it_delivers_one :
    (∃ (s s' : PipeSys 2) (c : Account), s.pc 1 = .readAcquire (Console.readOf 1) ∧
      Reach (history PipeSys.step (PipeSys.note 1)) (fun _ a => ¬a.Begins 1) (s, ⟨[], [], []⟩)
        (s', c) ∧
      s'.pc 1 = .out (some 1) ∧ c.took.length = (1 : ℤ)) ∧
    ∃ (s s' : Console.Sys 1) (took lost got : List UInt8),
      s.pc 0 = .acquire (Console.readOf 1) 1 [] ∧
      Reach (history Console.Sys.step (Console.Sys.note 0)) (fun _ a => ¬a.Begins 0) (s, [], [])
        (s', took, lost) ∧
      s'.pc 0 = .out (some (1, got)) ∧ took.length = (1 : ℤ) := by
  constructor
  · have hrun : ∃ s x, run PipeSys.step (fun _ _ => True) (PipeSys.init 2 fun _ => 0)
          (pipeTalk (Console.readOf 1)) = some s ∧ s.pc 1 = .readAcquire (Console.readOf 1) ∧
        run (history PipeSys.step (PipeSys.note 1)) (fun _ _ => True) (s, ⟨[], [], []⟩)
          (List.replicate 4 (.run 1)) = some x ∧ x.1.pc 1 = .out (some 1) :=
      ⟨_, _, rfl, rfl, rfl, rfl⟩
    obtain ⟨s, ⟨s', c⟩, -, hp, hx, hout⟩ := hrun
    obtain ⟨-, htook, hlost⟩ :=
      (read_takes_what_it_delivers (by decide)).1 s s' c hp (reach_of_run_pipe hx) hout
    exact ⟨s, s', c, hp, reach_of_run_pipe hx, hout, htook.2 (hlost fun _ => rfl)⟩
  · have hrun : ∃ s x, run Console.Sys.step (fun _ _ => True) (Console.Sys.init 1 fun _ => 0)
          (consoleTalk (Console.readOf 1)) = some s ∧
        s.pc 0 = .acquire (Console.readOf 1) 1 [] ∧
        run (history Console.Sys.step (Console.Sys.note 0)) (fun _ _ => True) (s, [], [])
          (List.replicate 3 (.run 0)) = some x ∧ x.1.pc 0 = .out (some (1, [97])) :=
      ⟨_, _, rfl, rfl, rfl, rfl⟩
    obtain ⟨s, ⟨s', took, lost⟩, -, hp, hx, hout⟩ := hrun
    obtain ⟨-, htook, hlost⟩ | ⟨hzero, -⟩ :=
      (read_takes_what_it_delivers (by decide)).2 s s' took lost [97] hp (reach_of_run_console hx)
        hout
    · exact ⟨s, s', took, lost, [97], hp, reach_of_run_console hx, hout,
        htook.2 (hlost fun _ => rfl)⟩
    · exact absurd hzero (by decide)

def badRead : ReadArgs := ⟨2, fun _ => false⟩

/-- **A read that fails to deliver a byte loses it.**  The pipe holds 7 and 8, and the read of two
bytes returns 0; the byte 7 is gone, and 8 is what the next reader finds.  The same happens to the
first letter of a line. -/
theorem failed_read_loses_byte :
    (∃ (s s' : PipeSys 2) (c : Account),
      Reach PipeSys.step (fun _ _ => True) (PipeSys.init 2 fun _ => 0) s ∧
      s.pc 1 = .readAcquire badRead ∧ s.pipe.buffered = [7, 8] ∧
      Reach (history PipeSys.step (PipeSys.note 1)) (fun _ a => ¬a.Begins 1) (s, ⟨[], [], []⟩)
        (s', c) ∧
      s'.pc 1 = .out (some 0) ∧ c.took = [7] ∧ s'.pipe.buffered = [8]) ∧
    ∃ (s s' : Console.Sys 1) (took lost : List UInt8),
      Reach Console.Sys.step (fun _ _ => True) (Console.Sys.init 1 fun _ => 0) s ∧
      s.pc 0 = .acquire badRead 2 [] ∧ s.cons.line.committed = [97, lineFeed] ∧
      Reach (history Console.Sys.step (Console.Sys.note 0)) (fun _ a => ¬a.Begins 0) (s, [], [])
        (s', took, lost) ∧
      s'.pc 0 = .out (some (0, [])) ∧ took = [97] ∧ s'.cons.line.committed = [lineFeed] := by
  constructor
  · have hrun : ∃ s x, run PipeSys.step (fun _ _ => True) (PipeSys.init 2 fun _ => 0)
          (pipeTalk badRead) = some s ∧
        s.pc 1 = .readAcquire badRead ∧ s.pipe.buffered = [7, 8] ∧
        run (history PipeSys.step (PipeSys.note 1)) (fun _ _ => True) (s, ⟨[], [], []⟩)
          (List.replicate 3 (.run 1)) = some x ∧
        x.1.pc 1 = .out (some 0) ∧ x.2.took = [7] ∧ x.1.pipe.buffered = [8] :=
      ⟨_, _, rfl, rfl, rfl, rfl, rfl, rfl, rfl⟩
    obtain ⟨s, ⟨s', c⟩, hs, hp, hbefore, hx, hafter⟩ := hrun
    exact ⟨s, s', c, reach_of_run hs, hp, hbefore, reach_of_run_pipe hx, hafter⟩
  · have hrun : ∃ s x, run Console.Sys.step (fun _ _ => True) (Console.Sys.init 1 fun _ => 0)
          (consoleTalk badRead) = some s ∧
        s.pc 0 = .acquire badRead 2 [] ∧ s.cons.line.committed = [97, lineFeed] ∧
        run (history Console.Sys.step (Console.Sys.note 0)) (fun _ _ => True) (s, [], [])
          (List.replicate 2 (.run 0)) = some x ∧
        x.1.pc 0 = .out (some (0, [])) ∧ x.2.1 = [97] ∧ x.1.cons.line.committed = [lineFeed] :=
      ⟨_, _, rfl, rfl, rfl, rfl, rfl, rfl, rfl⟩
    obtain ⟨s, ⟨s', took, lost⟩, hs, hp, hbefore, hx, hafter⟩ := hrun
    exact ⟨s, s', took, lost, reach_of_run hs, hp, hbefore, reach_of_run_console hx, hafter⟩

end Xv6
