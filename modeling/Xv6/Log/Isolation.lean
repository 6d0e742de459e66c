/-
# Group commit isolates the operations

The comment at the head of `kernel/log.c` says that the logging system commits only when no file
system call is active.  In every interleaving, while `log.committing` is set no operation is
outstanding, one process at most is in `commit`, and nothing is appended to `log.lh`.
-/

import Xv6.Log.Group
import Xv6.Lib.Runs
import Xv6.Lib.Tally
import Mathlib.Algebra.Order.BigOperators.Group.Finset

namespace Xv6
namespace Log

open Lib Function

variable {N : ℕ} {log : Region} {a : Action N} {used : Finset ℕ}

inductive Step (log : Region) (s : Group N) : Action N → Group N → Prop
  | call {p} : s.pc p = .out → Step log s (.call p) (s.goto p .begin)
  | beginOp {p} : s.pc p = .begin → Step log s (.beginOp p) (s.beginOp p)
  | logWrite {p b used} : s.pc p = .op used → Step log s (.logWrite p b) (s.logWrite log p b used)
  | append {p b used} : s.pc p = .append b used → Step log s (.append p) (s.append p b used)
  | endOp {p used} : s.pc p = .op used → Step log s (.endOp p) (s.endOp p)
  | commit {p c} : s.pc p = .commit c → Step log s (.commit p) (s.commitStep p c)

/-- The step function takes no step after a panic, and only these before one. -/
theorem step_cases {s s' : Group N} (h : step log s a = some s') :
    s.panic = none ∧ Step log s a s' := by
  cases a with
  | call p =>
    rw [step] at h
    split_ifs at h with hp
    exact ⟨hp.1, Option.some.inj h ▸ .call hp.2⟩
  | beginOp p =>
    rw [step] at h
    split_ifs at h with hp
    exact ⟨hp.1, Option.some.inj h ▸ .beginOp hp.2⟩
  | logWrite p b =>
    simp only [step] at h
    split at h
    · rename_i used hn hp
      exact ⟨hn, Option.some.inj h ▸ .logWrite hp⟩
    · exact absurd h (by simp)
  | append p =>
    simp only [step] at h
    split at h
    · rename_i b used hn hp
      exact ⟨hn, Option.some.inj h ▸ .append hp⟩
    · exact absurd h (by simp)
  | endOp p =>
    simp only [step] at h
    split at h
    · rename_i used hn hp
      exact ⟨hn, Option.some.inj h ▸ .endOp hp⟩
    · exact absurd h (by simp)
  | commit p =>
    simp only [step] at h
    split at h
    · rename_i c hn hp
      exact ⟨hn, Option.some.inj h ▸ .commit hp⟩
    · exact absurd h (by simp)

def Pc.inOp : Pc → Bool
  | .op _ => true
  | .append _ _ => true
  | _ => false

def Pc.inCommit : Pc → Bool
  | .commit _ => true
  | _ => false

/-- How many of the blocks of `log.lh` have lost their extra reference. -/
def CommitPc.unpinned (lh : List ℕ) : CommitPc → ℕ
  | .installTrans tail => tail
  | .clear => lh.length
  | _ => 0

/-- The invariant of group commit, `pins₀` being the references that the buffer
cache held before. -/
structure Isolated (pins₀ : ℕ → ℤ) (s : Group N) : Prop where
  count : s.outstanding = ∑ p, (if (s.pc p).inOp then 1 else 0 : ℤ)
  one : ∀ p q, (s.pc p).inCommit → (s.pc q).inCommit → p = q
  running : ∀ p, (s.pc p).inCommit → s.committing = true
  runs : s.committing = true → ∃ p, (s.pc p).inCommit
  quiet : s.committing = true → ∀ p, (s.pc p).inOp = false
  nodup : s.lh.Nodup
  pinned : s.committing = false → ∀ b, s.pins b = pins₀ b + if b ∈ s.lh then 1 else 0
  unpinned : ∀ p c, s.pc p = .commit c → ∀ b, s.pins b = pins₀ b + if b ∈ s.lh.drop
    (c.unpinned s.lh) then 1 else 0
  panic : s.panic ≠ some .committing

theorem isolated_init (pins₀ : ℕ → ℤ) : Isolated pins₀ (Group.init N pins₀) where
  count := by simp [Group.init, Pc.inOp]
  one := by simp [Group.init, Pc.inCommit]
  running := by simp [Group.init, Pc.inCommit]
  runs := by simp [Group.init]
  quiet := by simp [Group.init]
  nodup := by simp [Group.init]
  pinned := by simp [Group.init]
  unpinned := by simp [Group.init]
  panic := by simp [Group.init]

namespace Isolated

variable {pins₀ : ℕ → ℤ} {s : Group N}

theorem outstanding_eq_zero (h : Isolated pins₀ s) (hc : s.committing = true) :
    s.outstanding = 0 := by
  rw [h.count]
  exact Finset.sum_eq_zero fun p _ => by simp [h.quiet hc p]

theorem not_committing (h : Isolated pins₀ s) (hp : (s.pc p).inOp) : s.committing = false := by
  by_contra hc
  have := h.quiet (by simpa using hc) p
  simp [this] at hp

theorem pc_goto (s : Group N) (p q : Fin N) (c : Pc) :
    (s.goto p c).pc q = if q = p then c else s.pc q := by
  simp [Group.goto, update_apply]

theorem sum_goto (s : Group N) (p : Fin N) (c : Pc) :
    (∑ q, (if ((s.goto p c).pc q).inOp then 1 else 0 : ℤ)) + (if (s.pc p).inOp then 1 else 0) =
    (∑ q, (if (s.pc q).inOp then 1 else 0 : ℤ)) + if c.inOp then 1 else 0 :=
  sum_update_add (fun _ c => if Pc.inOp c then (1 : ℤ) else 0) s.pc p c

theorem no_commit (h : Isolated pins₀ s) (hc : s.committing = false) (q : Fin N) :
    (s.pc q).inCommit = false := by
  by_contra hq
  have := h.running q (by simpa using hq)
  simp [hc] at this

theorem of_open (hc : s.committing = false) (hno : ∀ q, (s.pc q).inCommit = false)
    (hcount : s.outstanding = ∑ p, (if (s.pc p).inOp then 1 else 0 : ℤ)) (hnd : s.lh.Nodup)
    (hpin : ∀ b, s.pins b = pins₀ b + if b ∈ s.lh then 1 else 0)
    (hpanic : s.panic ≠ some .committing) : Isolated pins₀ s where
  count := hcount
  one p q hp := by simp [hno] at hp
  running p hp := by simp [hno] at hp
  runs hs := by simp [hc] at hs
  quiet hs := by simp [hc] at hs
  nodup := hnd
  pinned _ := hpin
  unpinned p c hp := by
    have := hno p
    simp [hp, Pc.inCommit] at this
  panic := hpanic

section

variable (h : Isolated pins₀ s)
include h

/-- **Moving a process that is in no operation and in no commit** to another such
place keeps the invariant. -/
theorem goto_idle (hop : (s.pc p).inOp = false) (hcm : (s.pc p).inCommit = false)
    (hop' : c.inOp = false) (hcm' : c.inCommit = false) : Isolated pins₀ (s.goto p c) := by
  have hcommit : ∀ q, ((s.goto p c).pc q).inCommit → (s.pc q).inCommit := by
    intro q hq
    rw [pc_goto] at hq
    split_ifs at hq
    · simp [hcm'] at hq
    · exact hq
  refine ⟨?_, fun q r hq hr => h.one q r (hcommit q hq) (hcommit r hr),
    fun q hq => h.running q (hcommit q hq), fun hs => ?_, fun hs q => ?_, h.nodup, h.pinned,
    fun q d hq => ?_, h.panic⟩
  · have hsum := sum_goto s p c
    simp only [hop, hop', Bool.false_eq_true, if_false, add_zero] at hsum
    rw [hsum]
    exact h.count
  · obtain ⟨q, hq⟩ := h.runs hs
    have hqp : q ≠ p := fun hqp => by simp [hqp, hcm] at hq
    exact ⟨q, by rwa [pc_goto, if_neg hqp]⟩
  · rw [pc_goto]
    split_ifs
    · exact hop'
    · exact h.quiet hs q
  · rw [pc_goto] at hq
    split_ifs at hq
    · simp [hq, Pc.inCommit] at hcm'
    · exact h.unpinned q d hq

theorem wakeup : Isolated pins₀ s.wakeup := by
  have hpc : ∀ q, (s.wakeup.pc q).inOp = (s.pc q).inOp ∧
      (s.wakeup.pc q).inCommit = (s.pc q).inCommit := by
    intro q
    simp only [Group.wakeup]
    split_ifs with hq
    · simp [hq, Pc.inOp, Pc.inCommit]
    · exact ⟨rfl, rfl⟩
  refine ⟨?_, fun q r hq hr => h.one q r ?_ ?_, fun q hq => h.running q ?_,
    fun hs => (h.runs hs).imp fun q hq => by
      rwa [(hpc q).2], fun hs q => ?_, h.nodup, h.pinned, fun q d hq => h.unpinned q d ?_, h.panic⟩
  · simp only [(hpc _).1]
    exact h.count
  · rwa [(hpc q).2] at hq
  · rwa [(hpc r).2] at hr
  · rwa [(hpc q).2] at hq
  · rw [(hpc q).1]
    exact h.quiet hs q
  · simp only [Group.wakeup] at hq
    split_ifs at hq
    exact hq

theorem no_commit_goto (hc : s.committing = false)
    (hcm : c.inCommit = false) (p q : Fin N) : ((s.goto p c).pc q).inCommit = false := by
  rw [pc_goto]
  split_ifs
  · exact hcm
  · exact h.no_commit hc q

theorem beginOp (hp : s.pc p = .begin) : Isolated pins₀ (s.beginOp p) := by
  have hop : (s.pc p).inOp = false := by simp [hp, Pc.inOp]
  have hidle : Isolated pins₀ (s.goto p .sleeping) :=
    h.goto_idle hop (by simp [hp, Pc.inCommit]) rfl rfl
  unfold Group.beginOp
  split_ifs with hc hfull
  · exact hidle
  · exact hidle
  · have hc : s.committing = false := by simpa using hc
    refine of_open hc (h.no_commit_goto hc rfl p) ?_ h.nodup (h.pinned hc) h.panic
    have hsum := sum_goto s p (.op ∅)
    rw [hop, if_neg Bool.false_ne_true, add_zero, ← h.count] at hsum
    exact hsum.symm

theorem logWrite (hp : s.pc p = .op used) : Isolated pins₀ (s.logWrite log p b used) := by
  have hop : (s.pc p).inOp := by simp [hp, Pc.inOp]
  have hc := h.not_committing hop
  unfold Group.logWrite
  split_ifs
  · exact of_open hc (h.no_commit hc) h.count h.nodup (h.pinned hc) (by simp)
  · exact of_open hc (h.no_commit hc) h.count h.nodup (h.pinned hc) (by simp)
  · refine of_open hc (h.no_commit_goto hc rfl p) ?_ h.nodup (h.pinned hc) h.panic
    have hsum := sum_goto s p (.append b used)
    rw [hop, if_pos rfl] at hsum
    exact h.count.trans (add_right_cancel hsum).symm

theorem append (hp : s.pc p = .append b used) : Isolated pins₀ (s.append p b used) := by
  have hop : (s.pc p).inOp := by simp [hp, Pc.inOp]
  have hc := h.not_committing hop
  have hno := h.no_commit_goto hc (c := .op (insert b used)) rfl p
  have hcount :
      s.outstanding = ∑ q, (if ((s.goto p (.op (insert b used))).pc q).inOp then 1 else 0 : ℤ) := by
    have hsum := sum_goto s p (.op (insert b used))
    rw [hop, if_pos rfl] at hsum
    exact h.count.trans (add_right_cancel hsum).symm
  unfold Group.append
  split_ifs with hb
  · exact of_open hc hno hcount h.nodup (h.pinned hc) h.panic
  refine of_open hc hno hcount ?_ (fun x => ?_) h.panic
  · exact List.nodup_append.2 ⟨h.nodup, by simp, by
      intro x hx y hy
      rw [List.mem_singleton] at hy
      exact fun hxy => hb (hy ▸ hxy ▸ hx)⟩
  change update s.pins b (s.pins b + 1) x = pins₀ x + if x ∈ s.lh ++ [b] then 1 else 0
  have hx := h.pinned hc x
  by_cases hxb : x = b
  · subst hxb
    rw [if_neg hb] at hx
    simp [hx]
  · rw [update_of_ne hxb, hx]
    simp [hxb]

theorem endOp (hp : s.pc p = .op used) : Isolated pins₀ (s.endOp p) := by
  have hop : (s.pc p).inOp := by simp [hp, Pc.inOp]
  have hc := h.not_committing hop
  have hcount : ∀ c : Pc, c.inOp = false → s.outstanding - 1 =
      ∑ q, (if ((s.goto p c).pc q).inOp then 1 else 0 : ℤ) := by
    intro c hcop
    have hsum := sum_goto s p c
    rw [hop, hcop, if_pos rfl, if_neg Bool.false_ne_true, add_zero, ← h.count] at hsum
    rw [← hsum]
    omega
  unfold Group.endOp
  simp only [hc, Bool.false_eq_true, if_false]
  split_ifs with hzero
  · have hall : ∀ q, ((s.goto p (.commit .test)).pc q).inOp = false := by
      intro q
      have hsum := hcount (.commit .test) rfl
      rw [hzero] at hsum
      have hq := (Finset.sum_eq_zero_iff_of_nonneg (fun q _ => by split_ifs <;> decide)).1
        hsum.symm q (Finset.mem_univ q)
      by_contra hne
      simp [Bool.not_eq_false _ ▸ hne] at hq
    have honly : ∀ q, ((s.goto p (.commit .test)).pc q).inCommit → q = p := by
      intro q hq
      by_contra hqp
      rw [pc_goto, if_neg hqp, h.no_commit hc q] at hq
      exact Bool.false_ne_true hq
    refine ⟨hcount _ rfl, fun q r hq hr => (honly q hq).trans (honly r hr).symm,
      fun _ _ => rfl, fun _ => ⟨p, by simp [Group.goto, Pc.inCommit]⟩, fun _ => hall, h.nodup,
      fun hs => by simp [Group.goto] at hs,
      fun q d hq b => ?_, h.panic⟩
    obtain rfl : q = p := honly q (by
      rw [show (s.goto p (.commit .test)).pc q = .commit d from hq]
      rfl)
    have hd : d = .test := by
      have hq' : (s.goto q (.commit .test)).pc q = .commit d := hq
      rw [pc_goto, if_pos rfl] at hq'
      exact (Pc.commit.inj hq').symm
    subst hd
    exact h.pinned hc b
  · have hout :
        Isolated pins₀ { s with outstanding := s.outstanding - 1, pc := (s.goto p .out).pc } :=
      of_open hc (h.no_commit_goto hc rfl p) (hcount .out rfl) h.nodup (h.pinned hc) h.panic
    have hw := hout.wakeup
    -- the source wakes the sleepers before the process leaves `end_op`
    have heq : Group.goto (Group.wakeup { s with outstanding := s.outstanding - 1 }) p .out =
        Group.wakeup { s with outstanding := s.outstanding - 1, pc := (s.goto p .out).pc } := by
      simp only [Group.goto, Group.wakeup, Group.mk.injEq, true_and, and_true]
      funext q
      by_cases hq : q = p
      · subst hq
        simp
      · simp [update_of_ne hq]
    rw [hc] at hw heq
    rw [heq]
    exact hw

theorem goto_commit (hp : s.pc p = .commit c) (hnd : lh.Nodup)
    (hpins : ∀ b, pins b = pins₀ b + if b ∈ lh.drop (d.unpinned lh) then 1 else 0) :
    Isolated pins₀ ({ s with lh := lh, pins := pins }.goto p (.commit d)) := by
  have hcm : (s.pc p).inCommit := by simp [hp, Pc.inCommit]
  have hc : s.committing = true := h.running p hcm
  have hpc : ∀ q, ((s.goto p (.commit d)).pc q).inOp = false := by
    intro q
    rw [pc_goto]
    split_ifs
    · rfl
    · exact h.quiet hc q
  have honly : ∀ q, ((s.goto p (.commit d)).pc q).inCommit → q = p := by
    intro q hq
    by_contra hqp
    rw [pc_goto, if_neg hqp] at hq
    exact hqp (h.one q p hq hcm)
  refine ⟨?_, fun q r hq hr => (honly q hq).trans (honly r hr).symm, fun _ _ => hc,
    fun _ => ⟨p, by simp [Group.goto, Pc.inCommit]⟩, fun _ => hpc, hnd, fun hs => ?_,
    fun q e hq b => ?_, h.panic⟩
  · have h0 := h.outstanding_eq_zero hc
    refine h0.trans (Finset.sum_eq_zero fun q _ => ?_).symm
    have := hpc q
    simp only [Group.goto] at this ⊢
    simp [this]
  · simp [Group.goto, hc] at hs
  · have hq' : (s.goto p (.commit d)).pc q = .commit e := hq
    obtain rfl : q = p := honly q (by rw [hq']; rfl)
    rw [pc_goto, if_pos rfl] at hq'
    obtain rfl := Pc.commit.inj hq'
    exact hpins b

/-- Dropping the reference of block `tail` of a list without duplicates leaves those
of the blocks after it. -/
theorem unpin_next (hp : s.pc p = .commit (.installTrans tail)) (hb : s.lh[tail]? = some b)
    (x : ℕ) :
    update s.pins b (s.pins b - 1) x = pins₀ x + if x ∈ s.lh.drop (tail + 1) then 1 else 0 := by
  obtain ⟨hlt, hget⟩ := List.getElem?_eq_some_iff.1 hb
  have hdrop : s.lh.drop tail = b :: s.lh.drop (tail + 1) := by
    rw [List.drop_eq_getElem_cons hlt, hget]
  have hnd : (s.lh.drop tail).Nodup := h.nodup.sublist (List.drop_sublist _ _)
  rw [hdrop] at hnd
  have hbn := (List.nodup_cons.1 hnd).1
  have hx := h.unpinned p _ hp x
  simp only [CommitPc.unpinned, hdrop, List.mem_cons] at hx
  by_cases hxb : x = b
  · subst hxb
    rw [if_pos (.inl rfl)] at hx
    rw [update_self, if_neg hbn, hx]
    ring
  · rw [update_of_ne hxb, hx]
    simp [hxb]

theorem done (hp : s.pc p = .commit .done) :
    Isolated pins₀ ({ s with committing := false }.wakeup.goto p .out) := by
  have hcm : (s.pc p).inCommit := by simp [hp, Pc.inCommit]
  have hc : s.committing = true := h.running p hcm
  have hpc : ∀ q, ((Group.goto (Group.wakeup { s with committing := false }) p .out).pc q).inOp =
      false ∧ ((Group.goto (Group.wakeup { s with committing := false }) p .out).pc q).inCommit =
      false := by
    intro q
    rw [pc_goto]
    split_ifs with hqp
    · exact ⟨rfl, rfl⟩
    have hq := h.quiet hc q
    have hq' : (s.pc q).inCommit = false := by
      by_contra hne
      exact hqp (h.one q p (by simpa using hne) hcm)
    simp only [Group.wakeup]
    split_ifs
    · exact ⟨rfl, rfl⟩
    · exact ⟨hq, hq'⟩
  refine of_open rfl (fun q => (hpc q).2) ?_ h.nodup (fun b => h.unpinned p _ hp b) h.panic
  refine (h.outstanding_eq_zero hc).trans (Finset.sum_eq_zero fun q _ => ?_).symm
  rw [(hpc q).1, if_neg Bool.false_ne_true]

theorem commitStep (hp : s.pc p = .commit c) : Isolated pins₀ (s.commitStep p c) := by
  have hpins := h.unpinned p c hp
  cases c with
  | test =>
    refine h.goto_commit hp h.nodup ?_
    split_ifs <;> exact hpins
  | writeLog tail =>
    refine h.goto_commit hp h.nodup ?_
    split_ifs <;> exact hpins
  | writeHead => exact h.goto_commit hp h.nodup hpins
  | installTrans tail =>
    cases hb : s.lh[tail]? with
    | some b =>
      simp only [Group.commitStep, hb]
      exact h.goto_commit hp h.nodup (h.unpin_next hp hb)
    | none =>
      simp only [Group.commitStep, hb]
      refine h.goto_commit hp h.nodup fun x => ?_
      have hdrop : s.lh.drop tail = [] := List.drop_eq_nil_of_le (List.getElem?_eq_none_iff.1 hb)
      have hx := hpins x
      simp only [CommitPc.unpinned, hdrop] at hx
      simpa [CommitPc.unpinned] using hx
  | clear =>
    refine h.goto_commit hp List.nodup_nil fun x => ?_
    have hx := hpins x
    simp only [CommitPc.unpinned, List.drop_length] at hx
    simpa using hx
  | eraseHead => exact h.goto_commit hp h.nodup hpins
  | done => exact h.done hp

/-- **Every action keeps the invariant.** -/
theorem step (hs : Log.step log s a = some s') : Isolated pins₀ s' := by
  obtain ⟨-, hs⟩ := step_cases hs
  cases hs with
  | call hp => exact h.goto_idle (by simp [hp, Pc.inOp]) (by simp [hp, Pc.inCommit]) rfl rfl
  | beginOp hp => exact h.beginOp hp
  | logWrite hp => exact h.logWrite hp
  | append hp => exact h.append hp
  | endOp hp => exact h.endOp hp
  | commit hp => exact h.commitStep hp

end

end Isolated

/-- **Group commit isolation.**  In every state that any interleaving of any number
of processes reaches: while `log.committing` is set no operation is outstanding, at
most one process is in `commit`, and while one is, no process is between `begin_op`
and `end_op`, so none appends to `log.lh`; `log.lh` has no duplicate; while no commit
runs each listed block has exactly one reference more in the buffer cache than at the
start and every other block as many; and `panic("log.committing")` was not reached. -/
theorem group_commit_isolated (log : Region) (N : ℕ) (pins₀ : ℕ → ℤ) (s : Group N)
    (h : Reach (step log) (fun _ _ => True) (Group.init N pins₀) s) :
    (s.committing = true → s.outstanding = 0) ∧
    (∀ p q, (s.pc p).inCommit → (s.pc q).inCommit → p = q) ∧
      (∀ p q, (s.pc p).inCommit → (s.pc q).inOp = false) ∧
      s.lh.Nodup ∧
      ((∀ p, (s.pc p).inCommit = false) → ∀ b, s.pins b = pins₀ b + if b ∈ s.lh then 1 else 0) ∧
      s.panic ≠ some .committing := by
  have hi : Isolated pins₀ s := h.invariant (isolated_init pins₀) fun _ _ _ hi _ hs => hi.step hs
  refine ⟨hi.outstanding_eq_zero, hi.one, fun p q hp => hi.quiet (hi.running p hp) q, hi.nodup,
    fun hno => hi.pinned ?_, hi.panic⟩
  by_contra hc
  obtain ⟨p, hp⟩ := hi.runs (by simpa using hc)
  simp [hno p] at hp

theorem group_commit_isolated_two : ∃ s : Group 2,
    Reach (step ⟨2, LOGSIZE, by decide⟩) (fun _ _ => True) (Group.init 2 fun _ => 0) s ∧
      (s.pc 0, s.pc 1, s.lh) = (.commit (.writeLog 0), .sleeping, [7]) ∧
      (s.committing = true → s.outstanding = 0) ∧
      (∀ p q, (s.pc p).inCommit → (s.pc q).inCommit → p = q) ∧
      (∀ p q, (s.pc p).inCommit → (s.pc q).inOp = false) ∧
      s.lh.Nodup ∧
      ((∀ p, (s.pc p).inCommit = false) → ∀ b, s.pins b = 0 + if b ∈ s.lh then 1 else 0) ∧
      s.panic ≠ some .committing := by
  obtain ⟨s, hs, hv⟩ := exists_reach_of_run (f := fun s => (s.pc 0, s.pc 1, s.lh))
    (v := (.commit (.writeLog 0), .sleeping, [7]))
    (show (run (step ⟨2, LOGSIZE, by decide⟩) (fun _ _ => True) (Group.init 2 fun _ => 0)
      [.call 0, .beginOp 0, .logWrite 0 7, .append 0, .endOp 0, .call 1, .beginOp 1,
        .commit 0]).map _ = _ by decide +kernel)
  exact ⟨s, hs, hv, group_commit_isolated _ 2 _ s hs⟩

end Log
end Xv6
