/-
# Following every process

Each process is followed through its code (`Follows`): there is a record of the buffers it holds,
right about their blocks, from which the rest of its code keeps the rules.  With it goes what ties
the cache to the log: the buffer of a block is pinned as often as the log says (`Pinned`).
-/

import Xv6.Bio.Sys
import Xv6.Bio.Content
import Xv6.Bio.Routines

namespace Xv6

open Lib Function

variable {N : ℕ}

/-! ### What others leave alone -/

def BioAction.proc : BioAction N → Fin N
  | .bget p _ _ | .acquiresleep p | .bread p | .modify p _ _ | .bwrite p _ | .brelse p _ | .unref p
  | .bpin p _ | .bunpin p _ => p

namespace Bio

/-- What process `q` has is left alone. -/
structure Spares (q : Fin N) (s s' : Bio N) : Prop where
  pc : s'.pc q = s.pc q
  lock : ∀ b, s'.lock b = some q ↔ s.lock b = some q
  names : ∀ b, s.lock b = some q → ∀ dev n, s'.Carries b dev n ↔ s.Carries b dev n
  dirty : ∀ b, s.lock b = some q → s'.dirty b = s.dirty b
  pins : ∀ b, s.lock b = some q → 0 < s.pins b → 0 < s'.pins b

variable {s s' : Bio N} {p q : Fin N} {a : BioAction N} {b : Bp}

theorem Spares.refl (q : Fin N) (s : Bio N) : Spares q s s :=
  ⟨rfl, fun _ => Iff.rfl, fun _ _ _ _ => Iff.rfl, fun _ _ => rfl, fun _ _ h => h⟩

theorem Counted.refcnt_ne_zero (h : s.Counted) (hl : s.lock b = some p) : (s.buf b).refcnt ≠ 0 := by
  intro hzero
  rw [(h.free hzero).1] at hl
  cases hl

theorem Step.spares (hs : Step s a s') (hc : s.Counted) (hq : q ≠ a.proc)
    (hun : ∀ p b, a = .bunpin p b → s.lock b = some p) : Spares q s s' := by
  have hnames : ∀ b, s.lock b = some q → ∀ dev n, s'.Carries b dev n ↔ s.Carries b dev n :=
    fun b hl dev n => hs.carries (hc.refcnt_ne_zero hl)
  have hother : ∀ {p b c}, q ≠ p → s.lock b = some p → s.lock c = some q → c ≠ b := by
    rintro p b c hqp hb hc rfl
    rw [hb] at hc
    exact hqp (Option.some.inj hc).symm
  cases hs with
  | hit | recycle | bread | unref =>
    exact ⟨update_of_ne hq .., fun _ => Iff.rfl, hnames, fun _ _ => rfl, fun _ _ h => h⟩
  | @acquiresleep p b dev blockno hpc hlock =>
    refine ⟨update_of_ne hq .., fun c => ?_, hnames, fun _ _ => rfl, fun _ _ h => h⟩
    by_cases hcb : c = b
    · subst hcb
      simp only [Bio.acquiresleep, update_self, hlock, Option.some.injEq, reduceCtorEq, iff_false]
      exact fun h => hq h.symm
    · simp [Bio.acquiresleep, hcb]
  | @modify p b data hpc hlock =>
    refine ⟨rfl, fun _ => Iff.rfl, hnames, fun c hl => ?_, fun _ _ h => h⟩
    exact update_of_ne (hother hq hlock hl) ..
  | @bwrite p b hpc hlock =>
    refine ⟨rfl, fun _ => Iff.rfl, hnames, fun c hl => ?_, fun _ _ h => h⟩
    exact update_of_ne (hother hq hlock hl) ..
  | @brelse p b hpc hlock =>
    refine ⟨update_of_ne hq .., fun c => ?_, hnames, fun _ _ => rfl, fun _ _ h => h⟩
    by_cases hcb : c = b
    · subst hcb
      simp only [Bio.brelse, update_self, hlock, Option.some.injEq, reduceCtorEq, false_iff]
      exact fun h => hq h.symm
    · simp [Bio.brelse, hcb]
  | @bpin p b hpc =>
    refine ⟨rfl, fun _ => Iff.rfl, hnames, fun _ _ => rfl, fun c _ h => ?_⟩
    by_cases hcb : c = b
    · subst hcb
      simp [Bio.bpin]
    · simpa [Bio.bpin, hcb] using h
  | @bunpin p b hpc =>
    refine ⟨rfl, fun _ => Iff.rfl, hnames, fun _ _ => rfl, fun c hl h => ?_⟩
    have hcb := hother hq (hun p b rfl) hl
    simpa [Bio.bunpin, hcb] using h

end Bio

namespace Log

def Action.proc : Action N → Fin N
  | .call p | .beginOp p | .logWrite p _ | .append p | .endOp p | .commit p => p

/-- The block that `install_trans` unpins next, if process `p` is there. -/
def Group.want (s : Group N) (p : Fin N) : Option ℕ :=
  match s.pc p with
  | .commit (.installTrans tail) => s.lh[tail]?
  | _ => none

variable {log : Region} {s s' : Group N} {a : Action N} {p q : Fin N} {pins₀ : ℕ → ℤ}

theorem want_of_not_commit (h : (s.pc q).inCommit = false) : s.want q = none := by
  unfold Group.want
  split
  · rename_i tail hq
    rw [hq] at h
    cases h
  · rfl

theorem pc_of_ne (h : step log s a = some s') (hq : q ≠ a.proc) :
    s'.pc q = s.pc q ∨ s.pc q = .sleeping ∧ s'.pc q = .begin := by
  have hgoto : ∀ (t : Group N) p c, q ≠ p → (t.goto p c).pc q = t.pc q :=
    fun t p c hne => update_of_ne hne ..
  have hwake : ∀ t : Group N, t.wakeup.pc q = t.pc q ∨ t.pc q = .sleeping ∧
      t.wakeup.pc q = .begin := by
    intro t
    simp only [Group.wakeup]
    split_ifs with hs
    · exact .inr ⟨hs, rfl⟩
    · exact .inl rfl
  cases (step_cases h).2 with
  | call hpc => exact .inl (hgoto _ _ _ hq)
  | beginOp hpc =>
    unfold Group.beginOp
    split_ifs
    all_goals exact .inl (hgoto _ _ _ hq)
  | logWrite hpc =>
    unfold Group.logWrite
    split_ifs
    · exact .inl rfl
    · exact .inl rfl
    · exact .inl (hgoto _ _ _ hq)
  | append hpc =>
    unfold Group.append
    split_ifs
    all_goals exact .inl (hgoto _ _ _ hq)
  | @endOp p used hpc =>
    unfold Group.endOp
    dsimp only
    split_ifs
    · exact .inl rfl
    · exact .inl (hgoto _ _ _ hq)
    · rw [hgoto _ p _ hq]
      exact hwake _
  | @commit p c hpc =>
    cases c with
    | installTrans tail =>
      simp only [Group.commitStep]
      split
      all_goals exact .inl (hgoto _ _ _ hq)
    | done =>
      simp only [Group.commitStep]
      rw [hgoto _ p _ hq]
      exact hwake _
    | _ => exact .inl (hgoto _ _ _ hq)

theorem lh_of_step (h : step log s a = some s') : s'.lh = s.lh ∨
    (∃ b used, s.pc a.proc = .append b used) ∨ s.pc a.proc = .commit .clear := by
  cases (step_cases h).2 with
  | call hpc => exact .inl rfl
  | beginOp hpc =>
    unfold Group.beginOp
    split_ifs
    all_goals exact .inl rfl
  | logWrite hpc =>
    unfold Group.logWrite
    split_ifs
    all_goals exact .inl rfl
  | append hpc => exact .inr (.inl ⟨_, _, hpc⟩)
  | endOp hpc =>
    unfold Group.endOp
    dsimp only
    split_ifs
    all_goals exact .inl rfl
  | @commit p c hpc =>
    cases c with
    | clear => exact .inr (.inr hpc)
    | installTrans tail =>
      simp only [Group.commitStep]
      split
      all_goals exact .inl rfl
    | _ => exact .inl rfl

theorem Isolated.want_of_ne (hI : Isolated pins₀ s) (h : Log.step log s a = some s')
    (hq : q ≠ a.proc) : s'.want q = s.want q := by
  rcases pc_of_ne h hq with hpc | ⟨hs, hs'⟩
  swap
  · rw [want_of_not_commit (s := s) (by rw [hs]; rfl), want_of_not_commit (by rw [hs']; rfl)]
  by_cases hc : (s.pc q).inCommit = false
  · rw [want_of_not_commit (s := s) hc, want_of_not_commit (by rwa [hpc])]
  have hc : (s.pc q).inCommit = true := by simpa using hc
  have hlh : s'.lh = s.lh := by
    rcases lh_of_step h with hlh | ⟨b, used, hop⟩ | hclear
    · exact hlh
    · have := hI.quiet (hI.running q hc) a.proc
      rw [hop] at this
      cases this
    · exact absurd (hI.one q a.proc hc (by rw [hclear]; rfl)) hq
  simp only [Group.want, hpc, hlh]

end Log

/-! ### The record of one process -/

namespace Sys

/-- Process `p` holds the buffers that `K` says, for the blocks that `K` says, and the rest of
its code keeps the rules from there. -/
structure Follows (logged : Bool) (s : Sys N) (p : Fin N) (K : Known) : Prop where
  held : ∀ b i, K b = some i → s.bio.lock b = some p ∧ s.bio.Carries b ROOTDEV i.blockno
  known : ∀ b, s.bio.lock b = some p → (∃ i, K b = some i) ∨ ∃ dev n, s.bio.pc p = .reading b dev n
  waits : ∀ b dev n, s.bio.pc p = .acquiring b dev n ∨ s.bio.pc p = .reading b dev n →
    dev = ROOTDEV ∧ ∃ k, s.code p = some (.bread n k)
  reading : ∀ b dev n, s.bio.pc p = .reading b dev n → s.bio.lock b = some p ∧ K b = none ∧
    (logged = true → s.bio.dirty b = true → 0 < s.bio.pins b)
  code : ∀ c, s.code p = some c → c.Ok logged Code.Done (s.log.want p) K
  idle : s.code p = none → K = Known.none ∧ s.bio.pc p = .out
  starting : (s.log.pc p).inBegin = true → K = Known.none ∧ s.bio.pc p = .out
  room : K.size + (if s.bio.pc p = .out then 0 else 1) ≤ MAXHELD
  appending : ∀ n used, s.log.pc p = .append n used → s.bio.pc p = .out ∧
    ∃ b k, s.code p = some (.logWrite b k) ∧ s.bio.lock b = some p ∧ (s.bio.buf b).blockno = n
  marks : logged = true → ∀ b i, K b = some i → (i.mark = .written → s.bio.dirty b = false) ∧
    (i.mark = .clean → s.bio.dirty b = true → 0 < s.bio.pins b)

variable {logged : Bool} {log : Log.Region} {s s' : Sys N} {p q : Fin N} {K : Known} {b : Bp}

/-- **A step of another process** keeps the record. -/
theorem Follows.frame (h : Follows logged s q K) (hbio : Bio.Spares q s.bio s'.bio)
    (hcode : s'.code q = s.code q) (hwant : s'.log.want q = s.log.want q)
    (happ : ∀ n used, s'.log.pc q = .append n used → s.log.pc q = .append n used)
    (hbegin : (s'.log.pc q).inBegin = true → (s.log.pc q).inBegin = true) :
    Follows logged s' q K where
  held b i hi := by
    obtain ⟨hl, hcar⟩ := h.held b i hi
    exact ⟨(hbio.lock b).2 hl, (hbio.names b hl _ _).2 hcar⟩
  known b hl := by
    rw [hbio.pc]
    exact h.known b ((hbio.lock b).1 hl)
  waits b dev n hpc := by
    rw [hcode]
    rw [hbio.pc] at hpc
    exact h.waits b dev n hpc
  reading b dev n hpc := by
    rw [hbio.pc] at hpc
    obtain ⟨hl, hK, hpins⟩ := h.reading b dev n hpc
    rw [hbio.dirty b hl]
    exact ⟨(hbio.lock b).2 hl, hK, fun hlog hd => hbio.pins b hl (hpins hlog hd)⟩
  code c hc := by
    rw [hwant]
    exact h.code c (hcode ▸ hc)
  idle hc := by
    rw [hbio.pc]
    exact h.idle (hcode ▸ hc)
  starting hb := by
    rw [hbio.pc]
    exact h.starting (hbegin hb)
  room := by
    rw [hbio.pc]
    exact h.room
  appending n used hn := by
    obtain ⟨hpc, b, k, hk, hl, hb⟩ := h.appending n used (happ n used hn)
    refine ⟨hbio.pc.trans hpc, b, k, hcode.trans hk, (hbio.lock b).2 hl, ?_⟩
    exact ((hbio.names b hl (s.bio.buf b).dev n).2 ⟨rfl, hb⟩).2
  marks hlog b i hi := by
    obtain ⟨hl, -⟩ := h.held b i hi
    obtain ⟨hw, hc⟩ := h.marks hlog b i hi
    rw [hbio.dirty b hl]
    exact ⟨hw, fun hm hd => hbio.pins b hl (hc hm hd)⟩

theorem Follows.of_out (hout : s.bio.pc p = .out)
    (hheld : ∀ b i, K b = some i → s.bio.lock b = some p ∧ s.bio.Carries b ROOTDEV i.blockno)
    (hknown : ∀ b, s.bio.lock b = some p → ∃ i, K b = some i)
    (hcode : ∀ c, s.code p = some c → c.Ok logged Code.Done (s.log.want p) K)
    (hidle : s.code p = none → K = Known.none)
    (hbegin : (s.log.pc p).inBegin = true → K = Known.none) (hsize : K.size ≤ MAXHELD)
    (happ : ∀ n used, s.log.pc p = .append n used →
      ∃ b k, s.code p = some (.logWrite b k) ∧ s.bio.lock b = some p ∧ (s.bio.buf b).blockno = n)
    (hmarks : logged = true → ∀ b i, K b = some i → (i.mark = .written → s.bio.dirty b = false) ∧
      (i.mark = .clean → s.bio.dirty b = true → 0 < s.bio.pins b)) : Follows logged s p K where
  held := hheld
  known b hl := .inl (hknown b hl)
  waits b dev n := by
    rw [hout]
    rintro (h | h) <;> cases h
  reading b dev n h := by
    rw [hout] at h
    cases h
  code := hcode
  idle hc := ⟨hidle hc, hout⟩
  starting hb := ⟨hbegin hb, hout⟩
  room := by simpa [hout] using hsize
  appending n used hn := ⟨hout, happ n used hn⟩
  marks := hmarks

theorem Follows.size_le (h : Follows logged s p K) : K.size ≤ MAXHELD :=
  (Nat.le_add_right _ _).trans h.room

theorem Follows.mem_of_lock (h : Follows logged s p K) (hout : s.bio.pc p = .out)
    (hl : s.bio.lock b = some p) : ∃ i, K b = some i := by
  rcases h.known b hl with hi | ⟨dev, n, hr⟩
  · exact hi
  · rw [hout] at hr
    cases hr

theorem Follows.recode (h : Follows logged s p K) (hbio : s'.bio = s.bio) (hout : s.bio.pc p = .out)
    (hcode : ∀ c, s'.code p = some c → c.Ok logged Code.Done (s'.log.want p) K)
    (hidle : s'.code p = none → K = Known.none)
    (hbegin : (s'.log.pc p).inBegin = true → K = Known.none)
    (happ : ∀ n used, s'.log.pc p = .append n used →
      ∃ b k, s'.code p = some (.logWrite b k) ∧ s.bio.lock b = some p ∧ (s.bio.buf b).blockno = n) :
    Follows logged s' p K := by
  refine .of_out (hbio ▸ hout) ?_ ?_ hcode hidle hbegin h.size_le ?_ ?_
  · rw [hbio]
    exact h.held
  · rw [hbio]
    exact fun b hl => h.mem_of_lock hout hl
  · rw [hbio]
    exact happ
  · rw [hbio]
    exact h.marks

theorem Follows.remark (h : Follows logged s p K) (hi : K b = some i)
    (hout : s.bio.pc p = .out) (hlock : s'.bio.lock = s.bio.lock) (hpc : s'.bio.pc = s.bio.pc)
    (hnames : ∀ b dev n, s'.bio.Carries b dev n ↔ s.bio.Carries b dev n)
    (hdirty : ∀ c ≠ b, s'.bio.dirty c = s.bio.dirty c)
    (hpins : ∀ c ≠ b, s'.bio.pins c = s.bio.pins c)
    (hmark : logged = true → (m = .written → s'.bio.dirty b = false) ∧
      (m = .clean → s'.bio.dirty b = true → 0 < s'.bio.pins b))
    (hcode : ∃ c, s'.code p = some c ∧ c.Ok logged Code.Done (s'.log.want p)
      (K.set b ⟨i.blockno, m⟩))
    (happ : ∀ n used, s'.log.pc p ≠ .append n used) (hbegin : (s'.log.pc p).inBegin = false) :
    Follows logged s' p (K.set b ⟨i.blockno, m⟩) := by
  obtain ⟨c, hc, hok⟩ := hcode
  refine .of_out (hpc ▸ hout) (fun c j hj => ?_) (fun c hl => ?_) (fun c' hc' => ?_) (fun hn => ?_)
    (fun hb => ?_) ?_ (fun n used hn => absurd hn (happ n used)) fun hlog c j hj => ?_
  · rw [hlock, hnames]
    by_cases hcb : c = b
    · subst hcb
      rw [Known.set_self] at hj
      cases hj
      exact h.held c i hi
    · rw [Known.set_of_ne hcb] at hj
      exact h.held c j hj
  · by_cases hcb : c = b
    · subst hcb
      exact ⟨_, Known.set_self⟩
    · rw [Known.set_of_ne hcb]
      exact h.mem_of_lock hout (hlock ▸ hl)
  · rw [hc] at hc'
    cases hc'
    exact hok
  · rw [hc] at hn
    cases hn
  · rw [hbegin] at hb
    cases hb
  · rw [Known.size_set_of_held hi]
    exact h.size_le
  · by_cases hcb : c = b
    · subst hcb
      rw [Known.set_self] at hj
      cases hj
      exact hmark hlog
    · rw [Known.set_of_ne hcb] at hj
      rw [hdirty c hcb, hpins c hcb]
      exact h.marks hlog c j hj

end Sys
end Xv6
