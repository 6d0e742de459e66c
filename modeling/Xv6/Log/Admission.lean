/-
# What `begin_op` admits and what the log holds

`begin_op` admits operations as if the log had room for `LOGSIZE` blocks, but it has room for one
less.  So three operations that are admitted together can panic (`admission_panics`), or append past
the end of the log (`admission_overflows`).  What is true is relative to `load`, the blocks listed
and those that operations may still list.
-/

import Xv6.Log.Isolation
import Mathlib.Tactic.Linarith

namespace Xv6
namespace Log

open Lib

variable {N : ℕ} {log : Region} {b : ℕ} {p : Fin N} {a : Action N}

/-- The log that `mkfs` lays out: `sb.logstart = 2` and `sb.nlog = LOGSIZE`. -/
def mkfsLog : Region := ⟨2, LOGSIZE, Nat.zero_lt_succ _⟩

/-- The blocks that the process may still pass to `log_write` for the first time. -/
def Pc.budget : Pc → ℕ
  | .op used => MAXOPBLOCKS - used.card
  | .append _ used => MAXOPBLOCKS - used.card
  | _ => 0

/-- The blocks listed in `log.lh` and those that the operations under way may still
list. -/
def Group.load (s : Group N) : ℕ := s.lh.length + ∑ p, (s.pc p).budget

/-- An admission finds room for `K` blocks: when `begin_op` admits the process, the
load and `MAXOPBLOCKS` more make at most `K`. -/
def Roomy (K : ℕ) (s : Group N) : Action N → Prop
  | .beginOp _ => s.committing = false →
      s.lh.length + (s.outstanding + 1) * MAXOPBLOCKS ≤ LOGSIZE → s.load + MAXOPBLOCKS ≤ K
  | _ => True

def Pc.used : Pc → Finset ℕ
  | .op used => used
  | .append _ used => used
  | _ => ∅

/-- The invariant of admission with room for `K` blocks. -/
structure Reserved (K : ℕ) (s : Group N) : Prop where
  isolated : ∃ pins₀, Isolated pins₀ s
  listed : ∀ p, ∀ b ∈ (s.pc p).used, b ∈ s.lh
  next : ∀ p b used, s.pc p = .append b used → (insert b used).card ≤ MAXOPBLOCKS
  load_le : s.load ≤ K

theorem reserved_init (K N : ℕ) (pins₀ : ℕ → ℤ) : Reserved K (Group.init N pins₀) where
  isolated := ⟨pins₀, isolated_init pins₀⟩
  listed := by simp [Group.init, Pc.used]
  next := by simp [Group.init]
  load_le := by simp [Group.load, Group.init, Pc.budget]

theorem sum_budget_goto (s : Group N) (p : Fin N) (c : Pc) :
    (∑ q, ((s.goto p c).pc q).budget) + (s.pc p).budget = (∑ q, (s.pc q).budget) + c.budget :=
  sum_update_add (fun _ c => Pc.budget c) s.pc p c

theorem used_wakeup (s : Group N) (q : Fin N) : (s.wakeup.pc q).used = (s.pc q).used := by
  simp only [Group.wakeup]
  split_ifs with hq
  · rw [hq]
    rfl
  · rfl

theorem budget_wakeup (s : Group N) (q : Fin N) : (s.wakeup.pc q).budget = (s.pc q).budget := by
  simp only [Group.wakeup]
  split_ifs with hq
  · rw [hq]
    rfl
  · rfl

theorem append_of_wakeup {s : Group N} {q : Fin N} {used : Finset ℕ}
    (h : s.wakeup.pc q = .append b used) : s.pc q = .append b used := by
  simp only [Group.wakeup] at h
  split_ifs at h
  exact h

namespace Reserved

variable {K : ℕ} {s s' : Group N}

section

variable (h : Reserved K s)
include h

/-- **A process that goes on without listing a block.**  Its budget does not grow, and
the list is at least what the operations have used. -/
theorem goto (hs : ∃ pins₀, Isolated pins₀ s')
    (hpc : s'.pc = (s.goto p c).pc) (hlh : s'.lh = s.lh) (hused : ∀ b ∈ c.used, b ∈ s.lh)
    (hnext : ∀ b used, c = .append b used → (insert b used).card ≤ MAXOPBLOCKS)
    (hbudget : c.budget ≤ (s.pc p).budget) : Reserved K s' := by
  refine ⟨hs, fun q b hb => ?_, fun q b used hq => ?_, ?_⟩
  · rw [hpc, Isolated.pc_goto] at hb
    rw [hlh]
    split_ifs at hb
    · exact hused b hb
    · exact h.listed q b hb
  · rw [hpc, Isolated.pc_goto] at hq
    split_ifs at hq
    · exact hnext b used hq
    · exact h.next q b used hq
  · have hsum := sum_budget_goto s p c
    have hload := h.load_le
    simp only [Group.load, hlh, hpc] at hload ⊢
    omega

theorem wakeup : Reserved K s.wakeup where
  isolated := h.isolated.imp fun _ hi => hi.wakeup
  listed q b hb := h.listed q b (used_wakeup s q ▸ hb)
  next q b used hq := h.next q b used (append_of_wakeup hq)
  load_le := by
    have hload := h.load_le
    simp only [Group.load, budget_wakeup] at hload ⊢
    exact hload

theorem congr (hs : ∃ pins₀, Isolated pins₀ s') (hpc : s'.pc = s.pc) (hlh : s'.lh = s.lh) :
    Reserved K s' where
  isolated := hs
  listed q b hb := hlh ▸ h.listed q b (hpc ▸ hb)
  next q b used hq := h.next q b used (hpc ▸ hq)
  load_le := by
    have hload := h.load_le
    simp only [Group.load, hpc, hlh] at hload ⊢
    exact hload

theorem beginOp (hs : ∃ pins₀, Isolated pins₀ (s.beginOp p))
    (hp : s.pc p = .begin) (hroom : Roomy K s (.beginOp p)) : Reserved K (s.beginOp p) := by
  have hsleep : ∀ s' : Group N, s' = s.goto p .sleeping → (∃ pins₀, Isolated pins₀ s') →
      Reserved K s' := by
    rintro s' rfl hs
    exact h.goto hs rfl rfl (by simp [Pc.used]) (by simp) (by simp [Pc.budget])
  unfold Group.beginOp at hs ⊢
  split_ifs at hs ⊢ with hc hfull
  · exact hsleep _ rfl hs
  · exact hsleep _ rfl hs
  have hload := hroom (by simpa using hc) (not_lt.1 hfull)
  refine ⟨hs, fun q b hb => ?_, fun q b used hq => ?_, ?_⟩
  · have hb : b ∈ ((s.goto p (.op ∅)).pc q).used := hb
    rw [Isolated.pc_goto] at hb
    split_ifs at hb
    · simp [Pc.used] at hb
    · exact h.listed q b hb
  · have hq : (s.goto p (.op ∅)).pc q = .append b used := hq
    rw [Isolated.pc_goto] at hq
    split_ifs at hq
    exact h.next q b used hq
  · have hsum := sum_budget_goto s p (.op ∅)
    simp only [hp, Pc.budget, Finset.card_empty] at hsum
    change s.lh.length + ∑ q, ((s.goto p (.op ∅)).pc q).budget ≤ K
    simp only [Group.load] at hload
    simp only [Pc.budget] at hload ⊢
    omega

theorem logWrite (hs : ∃ pins₀, Isolated pins₀ (s.logWrite log p b used))
    (hp : s.pc p = .op used) (hbud : (insert b used).card ≤ MAXOPBLOCKS) :
    Reserved K (s.logWrite log p b used) := by
  unfold Group.logWrite at hs ⊢
  split_ifs at hs ⊢
  · exact h.congr hs rfl rfl
  · exact h.congr hs rfl rfl
  · refine h.goto hs rfl rfl (fun x hx => h.listed p x (by rw [hp]; exact hx)) (fun x u hx => ?_)
      (by rw [hp]; exact le_rfl)
    obtain ⟨rfl, rfl⟩ := Pc.append.inj hx
    exact hbud

theorem append (hs : ∃ pins₀, Isolated pins₀ (s.append p b used))
    (hp : s.pc p = .append b used) : Reserved K (s.append p b used) := by
  have hlisted : ∀ x ∈ used, x ∈ s.lh := fun x hx => h.listed p x (by rw [hp]; exact hx)
  have hbud := h.next p b used hp
  unfold Group.append at hs ⊢
  split_ifs at hs ⊢ with hb
  · refine h.goto hs rfl rfl (fun x hx => ?_) (by simp) ?_
    · rcases Finset.mem_insert.1 hx with rfl | hx
      · exact hb
      · exact hlisted x hx
    · rw [hp]
      exact Nat.sub_le_sub_left (Finset.card_le_card (Finset.subset_insert _ _)) _
  have hnew : (insert b used).card = used.card + 1 := Finset.card_insert_of_notMem fun hbu =>
    hb (hlisted b hbu)
  refine ⟨hs, fun q x hx => ?_, fun q x u hq => ?_, ?_⟩
  · have hx : x ∈ ((s.goto p (.op (insert b used))).pc q).used := hx
    rw [Isolated.pc_goto] at hx
    change x ∈ s.lh ++ [b]
    rw [List.mem_append, List.mem_singleton]
    split_ifs at hx
    · rcases Finset.mem_insert.1 hx with rfl | hx
      · exact .inr rfl
      · exact .inl (hlisted x hx)
    · exact .inl (h.listed q x hx)
  · have hq : (s.goto p (.op (insert b used))).pc q = .append x u := hq
    rw [Isolated.pc_goto] at hq
    split_ifs at hq
    exact h.next q x u hq
  · have hsum := sum_budget_goto s p (.op (insert b used))
    have hload := h.load_le
    rw [hp] at hsum
    simp only [Group.load, Pc.budget] at hsum hload
    change (s.lh ++ [b]).length + ∑ q, ((s.goto p (.op (insert b used))).pc q).budget ≤ K
    rw [List.length_append, List.length_singleton]
    simp only [Pc.budget]
    omega

/-- **A process that leaves its operation, or goes on in `commit`,** has no budget. -/
theorem leave (hs : ∃ pins₀, Isolated pins₀ s') (hop : c.inOp = false)
    (hpc : s'.pc = (s.goto p c).pc) (hlh : s'.lh = s.lh) : Reserved K s' := by
  refine h.goto hs hpc hlh (fun b hb => ?_) (fun b used hc => ?_) ?_
  · cases c <;> simp_all [Pc.used, Pc.inOp]
  · simp [hc, Pc.inOp] at hop
  · cases c <;> simp_all [Pc.budget, Pc.inOp]

theorem endOp (hs : ∃ pins₀, Isolated pins₀ (s.endOp p)) : Reserved K (s.endOp p) := by
  unfold Group.endOp at hs ⊢
  simp only at hs ⊢
  split_ifs at hs ⊢
  · exact h.congr hs rfl rfl
  · exact h.leave (c := .commit .test) hs rfl rfl rfl
  · exact h.wakeup.leave (c := .out) hs rfl rfl rfl

theorem commitStep (hp : s.pc p = .commit c)
    (hs : ∃ pins₀, Isolated pins₀ (s.commitStep p c)) : Reserved K (s.commitStep p c) := by
  cases c with
  | test => exact h.leave (c := .commit _) hs rfl rfl rfl
  | writeLog tail => exact h.leave (c := .commit _) hs rfl rfl rfl
  | writeHead => exact h.leave (c := .commit _) hs rfl rfl rfl
  | installTrans tail =>
    cases hb : s.lh[tail]? with
    | some b =>
      simp only [Group.commitStep, hb] at hs ⊢
      exact h.leave (c := .commit _) hs rfl rfl rfl
    | none =>
      simp only [Group.commitStep, hb] at hs ⊢
      exact h.leave (c := .commit _) hs rfl rfl rfl
  | clear =>
    obtain ⟨pins₀, hi⟩ := h.isolated
    have hquiet := hi.quiet (hi.running p (by simp [hp, Pc.inCommit]))
    have hpc : ∀ q, (s.pc q).used = ∅ := fun q => by
      have := hquiet q
      cases hq : s.pc q <;> simp_all [Pc.used, Pc.inOp]
    refine ⟨hs, fun q b hb => ?_, fun q b used hq => ?_, ?_⟩
    · have hb : b ∈ ((s.goto p (.commit .eraseHead)).pc q).used := hb
      rw [Isolated.pc_goto] at hb
      split_ifs at hb
      · simp [Pc.used] at hb
      · simp [hpc q] at hb
    · have hq : (s.goto p (.commit .eraseHead)).pc q = .append b used := hq
      rw [Isolated.pc_goto] at hq
      split_ifs at hq
      exact h.next q b used hq
    · have hsum := sum_budget_goto s p (.commit .eraseHead)
      have hload := h.load_le
      have hzero : (Pc.commit .eraseHead).budget = 0 := rfl
      change [].length + ∑ q, ((s.goto p (.commit .eraseHead)).pc q).budget ≤ K
      simp only [Group.load] at hload
      rw [List.length_nil]
      omega
  | eraseHead => exact h.leave (c := .commit _) hs rfl rfl rfl
  | done => exact h.wakeup.leave (c := .out) hs rfl rfl rfl

/-- **Every action of operations that keep their promise keeps the reservation**, if
admissions find room. -/
theorem step (hb : Budgeted s a) (hr : Roomy K s a) (hs : Log.step log s a = some s') :
    Reserved K s' := by
  obtain ⟨pins₀, hi⟩ := h.isolated
  have hi' : ∃ pins₀, Isolated pins₀ s' := ⟨pins₀, hi.step hs⟩
  obtain ⟨-, hs⟩ := step_cases hs
  cases hs with
  | call hp => exact h.leave (c := .begin) hi' rfl rfl rfl
  | beginOp hp => exact h.beginOp hi' hp hr
  | logWrite hp =>
    exact h.logWrite hi' hp (hb _ (by rw [hp]; rfl))
  | append hp => exact h.append hi' hp
  | endOp hp => exact h.endOp hi'
  | commit hp => exact h.commitStep hp hi'

end

end Reserved

/-- The log block that a process in `write_log` or `install_trans` uses next. -/
def Group.logBlock (log : Region) (s : Group N) (p : Fin N) : Option ℕ :=
  match s.pc p with
  | .commit (.writeLog tail) => if tail < s.lh.length then some (log.start + tail + 1) else none
  | .commit (.installTrans tail) => if tail < s.lh.length then some (log.start + tail + 1) else none
  | _ => none

theorem logBlock_le {s : Group N} {x : ℕ} (h : s.logBlock log p = some x) :
    log.start < x ∧ x ≤ log.start + s.lh.length := by
  unfold Group.logBlock at h
  split at h
  · split_ifs at h
    have := Option.some.inj h
    omega
  · split_ifs at h
    have := Option.some.inj h
    omega
  · exact absurd h (by simp)

/-- **The log stays in its region when admissions find room.**  On the disk that
`mkfs` lays out, with operations of at most `MAXOPBLOCKS` blocks, in every run in
which each admission finds the load and `MAXOPBLOCKS` more within `log.size - 1`:
`log.lh.n` is at most `log.size - 1`, and every log block that `write_log` or
`install_trans` uses lies in the log. -/
theorem log_in_region (N : ℕ) (pins₀ : ℕ → ℤ) (s : Group N)
    (h : Reach (step mkfsLog) (fun s a => Budgeted s a ∧ Roomy (mkfsLog.size - 1) s a)
      (Group.init N pins₀) s) :
    s.lh.length ≤ mkfsLog.size - 1 ∧ ∀ p x, s.logBlock mkfsLog p = some x → mkfsLog.Mem x := by
  have hr : Reserved (mkfsLog.size - 1) s :=
    h.invariant (reserved_init _ N pins₀) fun _ _ _ hr hok hs => hr.step hok.1 hok.2 hs
  have hn : s.lh.length ≤ mkfsLog.size - 1 := (Nat.le_add_right _ _).trans hr.load_le
  refine ⟨hn, fun p x hx => ?_⟩
  have hx := logBlock_le hx
  have := mkfsLog.pos
  exact ⟨by omega, by omega⟩

theorem panic_tooBig {s s' : Group N} (hs : step log s a = some s')
    (hp : s'.panic = some .tooBig) : s.lh.length ≥ LOGSIZE ∨ (s.lh.length : ℤ) ≥ log.size - 1 := by
  obtain ⟨hn, hs⟩ := step_cases hs
  cases hs with
  | call _ => simp [Group.goto, hn] at hp
  | beginOp _ =>
    unfold Group.beginOp at hp
    split_ifs at hp <;> simp [Group.goto, hn] at hp
  | logWrite _ =>
    unfold Group.logWrite at hp
    split_ifs at hp with hfull
    · exact hfull
    · simp at hp
    · simp [Group.goto, hn] at hp
  | append _ =>
    unfold Group.append at hp
    split_ifs at hp <;> simp [Group.goto, hn] at hp
  | endOp _ =>
    unfold Group.endOp at hp
    simp only at hp
    split_ifs at hp <;> simp [Group.goto, Group.wakeup, hn] at hp
  | @commit p c _ =>
    cases c with
    | installTrans tail =>
      unfold Group.commitStep at hp
      cases hb : s.lh[tail]? <;> simp [Group.goto, hb, hn] at hp
    | _ => simp [Group.commitStep, Group.goto, Group.wakeup, hn] at hp

/-- **`log_write` never runs out of log when admissions find room.**  On the disk that
`mkfs` lays out, with operations of at most `MAXOPBLOCKS` blocks, in every run in
which each admission finds the load and `MAXOPBLOCKS` more within `log.size - 2`,
`panic("too big a transaction")` is not reached. -/
theorem log_write_no_panic (N : ℕ) (pins₀ : ℕ → ℤ) (s : Group N)
    (h : Reach (step mkfsLog) (fun s a => Budgeted s a ∧ Roomy (mkfsLog.size - 2) s a)
      (Group.init N pins₀) s) : s.panic ≠ some .tooBig := by
  have hr : Reserved (mkfsLog.size - 2) s ∧ s.panic ≠ some .tooBig := by
    refine h.invariant (I := fun s => Reserved (mkfsLog.size - 2) s ∧ s.panic ≠ some .tooBig)
      ⟨reserved_init _ N pins₀, by simp [Group.init]⟩
      fun s a s' hr hok hs => ⟨hr.1.step hok.1 hok.2 hs, fun hp => ?_⟩
    have hn : s.lh.length ≤ mkfsLog.size - 2 := (Nat.le_add_right _ _).trans hr.1.load_le
    have hsize : mkfsLog.size = 30 := rfl
    have hlog := LOGSIZE_eq
    rcases panic_tooBig hs hp with hfull | hfull <;> omega
  exact hr.2

/-! ### The admitted schedules that break the log -/

def enter (p : Fin N) : List (Action N) := [.call p, .beginOp p]

def logs (p : Fin N) (b n : ℕ) : List (Action N) :=
  (List.range n).flatMap fun i => [.logWrite p (b + i), .append p]

instance (s : Group N) : (a : Action N) → Decidable (Budgeted s a)
  | .logWrite _ _ => inferInstanceAs (Decidable (∀ used ∈ _, _))
  | .call _ | .beginOp _ | .append _ | .endOp _ | .commit _ => .isTrue trivial

instance (K : ℕ) (s : Group N) : (a : Action N) → Decidable (Roomy K s a)
  | .beginOp _ => inferInstanceAs (Decidable (_ → _ → _))
  | .call _ | .logWrite _ _ | .append _ | .endOp _ | .commit _ => .isTrue trivial

/-- Three operations are admitted together and log ten blocks each; the thirtieth is
one too many. -/
def fullLog : List (Action 3) :=
  enter 0 ++ enter 1 ++ enter 2 ++ logs 0 100 10 ++ logs 1 110 10 ++ logs 2 120 9 ++
    [.logWrite 2 129]

/-- Two operations pass the test of `log_write` together on a log with one block left. -/
def overfullLog : List (Action 3) :=
  enter 0 ++ enter 1 ++ enter 2 ++ logs 0 100 10 ++ logs 1 110 9 ++ logs 2 120 9 ++
    [.logWrite 1 119, .logWrite 2 129, .append 1, .append 2]

/-- **Admission is not sound.**  Operations that keep to `MAXOPBLOCKS` blocks can make
`log_write` panic. -/
theorem admission_panics : ¬ ∀ (N : ℕ) (pins₀ : ℕ → ℤ) (s : Group N),
    Reach (step mkfsLog) Budgeted (Group.init N pins₀) s → s.panic ≠ some .tooBig := by
  intro h
  obtain ⟨s, hs, hp⟩ := exists_reach_of_run (f := fun s => s.panic) (v := some .tooBig)
    (show (run (step mkfsLog) Budgeted (Group.init 3 fun _ => 0) fullLog).map _ = _ by
      decide +kernel)
  exact h 3 _ s hs hp

theorem log_write_no_panic_ten : ∃ s : Group 1,
    Reach (step mkfsLog) (fun s a => Budgeted s a ∧ Roomy (mkfsLog.size - 2) s a)
      (Group.init 1 fun _ => 0) s ∧ s.lh.length = 10 ∧ s.panic ≠ some .tooBig := by
  obtain ⟨s, hs, hn⟩ := exists_reach_of_run (f := fun s => s.lh.length) (v := 10)
    (show (run (step mkfsLog) (fun s a => Budgeted s a ∧ Roomy (mkfsLog.size - 2) s a)
      (Group.init 1 fun _ => 0) (enter 0 ++ logs 0 100 10)).map _ = _ by decide +kernel)
  exact ⟨s, hs, hn, log_write_no_panic 1 _ s hs⟩

/-- **The log can spill out of its region.**  Operations that keep to `MAXOPBLOCKS`
blocks can list one block more than the log has room for. -/
theorem admission_overflows : ¬ ∀ (N : ℕ) (pins₀ : ℕ → ℤ) (s : Group N),
    Reach (step mkfsLog) Budgeted (Group.init N pins₀) s → s.lh.length ≤ mkfsLog.size - 1 := by
  intro h
  obtain ⟨s, hs, hn⟩ := exists_reach_of_run (f := fun s => s.lh.length) (v := 30)
    (show (run (step mkfsLog) Budgeted (Group.init 3 fun _ => 0) overfullLog).map _ = _ by
      decide +kernel)
  have := h 3 _ s hs
  have hsize : mkfsLog.size = 30 := rfl
  omega

theorem log_in_region_twenty : ∃ s : Group 2,
    Reach (step mkfsLog) (fun s a => Budgeted s a ∧ Roomy (mkfsLog.size - 1) s a)
      (Group.init 2 fun _ => 0) s ∧ s.logBlock mkfsLog 1 = some 3 ∧
      s.lh.length ≤ mkfsLog.size - 1 ∧ ∀ p x, s.logBlock mkfsLog p = some x → mkfsLog.Mem x := by
  obtain ⟨s, hs, hb⟩ := exists_reach_of_run (f := fun s => s.logBlock mkfsLog 1) (v := some 3)
    (show (run (step mkfsLog) (fun s a => Budgeted s a ∧ Roomy (mkfsLog.size - 1) s a)
      (Group.init 2 fun _ => 0) (enter 0 ++ enter 1 ++ logs 0 100 10 ++ logs 1 110 10 ++
        [.endOp 0, .endOp 1, .commit 1])).map _ = _ by decide +kernel)
  exact ⟨s, hs, hb, log_in_region 2 _ s hs⟩

end Log
end Xv6
