/-
# The invariant of the log and the buffer cache together

`Sys.Inv` puts together the invariants of the buffer cache, of the log, the records of the processes
(`Follows`), and `Pinned`.  Two things come out that the code does not check: a buffer is unpinned
only while it is pinned, and no count can wrap, because a buffer has at most one pin.
-/

import Xv6.Bio.Follow

namespace Xv6

open Lib Function

variable {N : ℕ} {used : Finset ℕ} {c k : Code Unit}

/-! ### Pins -/

structure Pinned (bio : Bio N) (g : Log.Group N) : Prop where
  pins : ∀ b, (bio.pins b : ℤ) =
    if (bio.buf b).dev = ROOTDEV then g.pins (bio.buf b).blockno else 0
  cached : ∀ n, g.pins n ≠ 0 → ∃ b, bio.Carries b ROOTDEV n

namespace Pinned

variable {bio bio' : Bio N} {g g' : Log.Group N} {p : Fin N} {b : Bp} {n : ℕ}

theorem pins_of_carries (h : Pinned bio g) (hb : bio.Carries b ROOTDEV n) :
    (bio.pins b : ℤ) = g.pins n := by
  rw [h.pins b, if_pos hb.1, hb.2]

theorem of_same (h : Pinned bio g) (hnames : ∀ b dev n, bio'.Carries b dev n ↔ bio.Carries b dev n)
    (hpins : bio'.pins = bio.pins) (hg : g'.pins = g.pins) : Pinned bio' g' where
  pins b := by
    obtain ⟨hdev, hn⟩ := Bio.dev_ne_zero_iff hnames b
    rw [hpins, hg, hdev, hn]
    exact h.pins b
  cached n hn := by
    obtain ⟨b, hb⟩ := h.cached n (hg ▸ hn)
    exact ⟨b, (hnames b _ _).2 hb⟩

/-- A buffer that is recycled had no pins, and the block that it is for now had none. -/
theorem recycle (h : Pinned bio g) (hc : bio.Counted) (hno : ∀ b, ¬bio.Carries b ROOTDEV n)
    (hfree : (bio.buf b).refcnt = 0) : Pinned (bio.recycle p b ROOTDEV n) g := by
  obtain ⟨-, hpins, -⟩ := hc.free hfree
  have hother : ∀ c ≠ b, (bio.recycle p b ROOTDEV n).buf c = bio.buf c := by
    intro c hcb
    simp [Bio.recycle, hcb]
  have hself : (bio.recycle p b ROOTDEV n).Carries b ROOTDEV n := by simp [Bio.Carries, Bio.recycle]
  refine ⟨fun c => ?_, fun m hm => ?_⟩
  · by_cases hcb : c = b
    · subst hcb
      have hzero : g.pins n = 0 := by
        by_contra hn
        obtain ⟨c, hc⟩ := h.cached n hn
        exact hno c hc
      rw [if_pos hself.1, hself.2, hzero]
      exact_mod_cast hpins
    · rw [hother c hcb]
      exact h.pins c
  · obtain ⟨c, hc⟩ := h.cached m hm
    have hcb : c ≠ b := by
      rintro rfl
      have := h.pins_of_carries hc
      omega
    refine ⟨c, ?_⟩
    rwa [Bio.Carries, hother c hcb]

theorem repin (h : Pinned bio g) (hnamed : bio.Named) (hb : bio.Carries b ROOTDEV n) {k : ℕ}
    (hnames : ∀ b dev n, bio'.Carries b dev n ↔ bio.Carries b dev n)
    (hpins : bio'.pins = update bio.pins b k) (hg : g'.pins = update g.pins n k) :
    Pinned bio' g' := by
  refine ⟨fun c => ?_, fun m hm => ?_⟩
  · obtain ⟨hdev, hn⟩ := Bio.dev_ne_zero_iff hnames c
    rw [hpins, hg, hdev, hn]
    by_cases hcb : c = b
    · subst hcb
      rw [if_pos hb.1, hb.2, update_self, update_self]
    rw [update_of_ne hcb, h.pins c]
    split_ifs with hd
    · have hcn : (bio.buf c).blockno ≠ n := fun hcn =>
        hcb (hnamed.unique b c (hb.1 ▸ Nat.one_ne_zero) ⟨hd.trans hb.1.symm, hcn.trans hb.2.symm⟩)
      rw [update_of_ne hcn]
    · rfl
  · rw [hg] at hm
    by_cases hmn : m = n
    · subst hmn
      exact ⟨b, (hnames b _ _).2 hb⟩
    · rw [update_of_ne hmn] at hm
      obtain ⟨c, hc⟩ := h.cached m hm
      exact ⟨c, (hnames c _ _).2 hc⟩

end Pinned

namespace Log

variable {log : Region} {s s' : Group N} {a : Action N} {p : Fin N} {n : ℕ} {pins₀ : ℕ → ℤ}

theorem pins_of_step (h : step log s a = some s') (happ : ∀ p, a ≠ .append p)
    (hcom : ∀ p, a ≠ .commit p) : s'.pins = s.pins := by
  cases (step_cases h).2 with
  | call hpc => rfl
  | beginOp hpc =>
    unfold Group.beginOp
    split_ifs <;> rfl
  | logWrite hpc =>
    unfold Group.logWrite
    split_ifs <;> rfl
  | append hpc => exact absurd rfl (happ _)
  | endOp hpc =>
    unfold Group.endOp
    dsimp only
    split_ifs <;> rfl
  | commit hpc => exact absurd rfl (hcom _)

theorem append_step (h : step log s (.append p) = some s') (hpc : s.pc p = .append n used) :
    s'.pc p = .op (insert n used) ∧ n ∈ s'.lh ∧ s'.committing = s.committing ∧
      s'.pins = if n ∈ s.lh then s.pins else update s.pins n (s.pins n + 1) := by
  cases (step_cases h).2 with
  | append hpc' =>
    rw [hpc] at hpc'
    cases hpc'
    unfold Group.append
    split_ifs with hn
    · exact ⟨update_self .., hn, rfl, rfl⟩
    · exact ⟨update_self .., by simp [Group.goto], rfl, rfl⟩

theorem commit_step (h : step log s (.commit p) = some s') :
    (∀ n used, s'.pc p ≠ .append n used) ∧ (s'.pc p).inBegin = false ∧ s'.pins = match s.want p with
        | some n => update s.pins n (s.pins n - 1)
        | none => s.pins := by
  cases (step_cases h).2 with
  | @commit p c hpc =>
    have hpc' : (∃ c', (s.commitStep p c).pc p = .commit c') ∨ (s.commitStep p c).pc p = .out := by
      cases c with
      | installTrans tail =>
        simp only [Group.commitStep]
        split <;> simp [Group.goto]
      | _ => simp [Group.commitStep, Group.goto]
    refine ⟨fun n used => ?_, ?_, ?_⟩
    · rcases hpc' with ⟨c', hpc'⟩ | hpc' <;> simp [hpc']
    · rcases hpc' with ⟨c', hpc'⟩ | hpc' <;> simp [hpc', Pc.inBegin]
    cases c with
    | installTrans tail =>
      simp only [Group.commitStep, Group.want, hpc]
      cases s.lh[tail]? <;> rfl
    | _ =>
      simp only [Group.want, hpc]
      rfl

theorem beginOp_step (h : step log s (.beginOp p) = some s') :
    s'.pc p = .sleeping ∨ s'.pc p = .op ∅ := by
  cases (step_cases h).2 with
  | beginOp hpc =>
    unfold Group.beginOp
    split_ifs
    · exact .inl (update_self ..)
    · exact .inl (update_self ..)
    · exact .inr (update_self ..)

theorem logWrite_step (h : step log s (.logWrite p n) = some s') :
    s'.want p = s.want p ∧ (s'.pc p).inBegin = false ∧ ∀ m used, s'.pc p = .append m used →
    n = m := by
  cases (step_cases h).2 with
  | @logWrite _ _ used hpc =>
    have hop : (s.pc p).inCommit = false := by rw [hpc]; rfl
    rw [want_of_not_commit hop]
    unfold Group.logWrite
    split_ifs
    · exact ⟨want_of_not_commit hop, by simp [hpc, Pc.inBegin], fun m used hm => by
        cases hpc.symm.trans hm⟩
    · exact ⟨want_of_not_commit hop, by simp [hpc, Pc.inBegin], fun m used hm => by
        cases hpc.symm.trans hm⟩
    · have happ : (s.goto p (.append n used)).pc p = .append n used := update_self ..
      refine ⟨want_of_not_commit (by rw [happ]; rfl), by rw [happ]; rfl, fun m used hm => ?_⟩
      cases happ.symm.trans hm
      rfl

theorem endOp_step (h : step log s (.endOp p) = some s') (m : ℕ) (used : Finset ℕ) :
    s'.pc p ≠ .append m used := by
  cases (step_cases h).2 with
  | endOp hpc =>
    unfold Group.endOp
    dsimp only
    split_ifs
    · simp [hpc]
    · simp [Group.goto]
    · simp [Group.goto]

namespace Isolated

theorem pins_of_want (h : Isolated pins₀ s) (hw : s.want p = some n) : s.pins n = pins₀ n + 1 := by
  unfold Group.want at hw
  split at hw
  · rename_i tail hpc
    rw [h.unpinned p _ hpc n, if_pos]
    obtain ⟨ht, rfl⟩ := List.getElem?_eq_some_iff.1 hw
    exact List.mem_drop_iff_getElem.2 ⟨0, by simpa [CommitPc.unpinned] using ht, by
      simp [CommitPc.unpinned]⟩
  · cases hw

theorem pins_eq (h : Isolated pins₀ s) (n : ℕ) :
    s.pins n = pins₀ n ∨ n ∈ s.lh ∧ s.pins n = pins₀ n + 1 := by
  have hcase : ∃ l : List ℕ, (∀ m ∈ l, m ∈ s.lh) ∧ s.pins n = pins₀ n + if n ∈ l then 1 else 0 := by
    by_cases hc : s.committing = true
    · obtain ⟨p, hp⟩ := h.runs hc
      obtain ⟨c, hpc⟩ : ∃ c, s.pc p = .commit c := by
        cases hpc : s.pc p with
        | commit c => exact ⟨c, rfl⟩
        | _ => simp [hpc, Pc.inCommit] at hp
      exact ⟨_, fun m hm => List.mem_of_mem_drop hm, h.unpinned p c hpc n⟩
    · exact ⟨s.lh, fun m hm => hm, h.pinned (by simpa using hc) n⟩
  obtain ⟨l, hl, hpins⟩ := hcase
  split_ifs at hpins with hn
  · exact .inr ⟨hl n hn, hpins⟩
  · exact .inl (by simpa using hpins)

end Isolated
end Log

/-! ### What `commit` does with buffers -/

namespace Code

variable {logged : Bool}

theorem drop_drop {dst src : Bp} {K : Known} (h : ∀ c, c ≠ dst → c ≠ src → K c = none) :
    (K.drop src).drop dst = Known.none := by
  funext c
  by_cases hd : c = dst
  · rw [hd, Known.drop_self]
    rfl
  rw [Known.drop_of_ne hd]
  by_cases hs : c = src
  · rw [hs, Known.drop_self]
    rfl
  · rw [Known.drop_of_ne hs]
    exact h c hd hs

theorem ok_writeLog (log : Log.Region) (tail n : ℕ) :
    (writeLog log tail n).Ok logged Done none Known.none := by
  refine ⟨by simp, fun dst _ _ => ⟨by rw [Known.size_set rfl]; simp, fun src data hsrc => ?_⟩⟩
  have hne : dst ≠ src := by
    rintro rfl
    rw [Known.set_self] at hsrc
    cases hsrc
  -- `dst` is changed and written, `src` is released, then `dst`
  intro _ _ _ _ i hi
  rw [Known.set_of_ne hne.symm, Known.set_of_ne hne.symm, Known.set_self] at hi
  cases hi
  refine ⟨by simp, fun j hj => ?_⟩
  rw [Known.drop_of_ne hne, Known.set_self] at hj
  cases hj
  refine ⟨by simp, rfl, fun _ => drop_drop fun c hd hs => ?_⟩
  rw [Known.set_of_ne hd, Known.set_of_ne hd, Known.set_of_ne hs, Known.set_of_ne hd]
  rfl

theorem ok_installTrans (log : Log.Region) (tail n : ℕ) :
    (installTrans log tail n).Ok logged Done (some n) Known.none := by
  refine ⟨by simp, fun lbuf data _ => ⟨by rw [Known.size_set rfl]; simp, fun dbuf _ hdbuf => ?_⟩⟩
  have hne : lbuf ≠ dbuf := by
    rintro rfl
    rw [Known.set_self] at hdbuf
    cases hdbuf
  -- `dbuf` is changed, written and unpinned, `lbuf` is released, then `dbuf`
  intro i hi j hj
  rw [Known.set_self] at hi hj
  cases hi
  cases hj
  refine ⟨_, Known.set_self, rfl, fun _ => rfl, fun _ => fun i hi => ?_⟩
  rw [Known.set_of_ne hne, Known.set_of_ne hne, Known.set_of_ne hne, Known.set_self] at hi
  cases hi
  refine ⟨by simp, fun j hj => ?_⟩
  rw [Known.drop_of_ne hne.symm, Known.set_self] at hj
  cases hj
  refine ⟨by simp, drop_drop fun c hd hl => ?_⟩
  rw [Known.set_of_ne hd, Known.set_of_ne hd, Known.set_of_ne hd, Known.set_of_ne hl]
  rfl

theorem ok_writeHead (log : Log.Region) (lh : List ℕ)
    (hk : k.Ok logged Done w Known.none) : (writeHead log lh k).Ok logged Done w Known.none := by
  refine ⟨by simp, fun buf _ hbuf i _ j _ l hl => ?_⟩
  rw [Known.set_self] at hl
  cases hl
  refine ⟨by simp, ?_⟩
  rwa [Known.set_set, Known.set_set, Known.drop_set hbuf]

theorem ok_commit : (Code.commit (.pure ())).Ok logged Done none Known.none := ⟨rfl, fun _ => rfl⟩

/-- **The pieces of `commit` keep the rules**, each where the log is at it. -/
theorem ok_commitPiece (log : Log.Region) {g : Log.Group N} {p : Fin N} {c : Log.CommitPc}
    (hpc : g.pc p = .commit c) : (commitPiece log g.lh c).Ok logged Done (g.want p) Known.none := by
  cases c with
  | test | clear | done =>
    simp only [Log.Group.want, hpc]
    exact ok_commit
  | writeLog tail =>
    simp only [Log.Group.want, hpc, commitPiece]
    split
    · exact ok_writeLog log tail _
    · exact ok_commit
  | writeHead | eraseHead =>
    simp only [Log.Group.want, hpc]
    exact ok_writeHead log g.lh ok_commit
  | installTrans tail =>
    simp only [Log.Group.want, hpc, commitPiece]
    cases g.lh[tail]? with
    | some n => exact ok_installTrans log tail n
    | none => exact ok_commit

end Code

/-! ### The invariant -/

namespace Bio

/-- What a process does with a buffer only where it may: it asks for blocks of the root
device, it unpins a buffer that it holds and that is pinned, and, if buffers are released
clean, it releases a changed one only if that is pinned. -/
def Fair (logged : Bool) (s : Bio N) : BioAction N → Prop
  | .bget _ dev _ => dev = ROOTDEV
  | .brelse _ b => logged = true → s.dirty b = true → 0 < s.pins b
  | .bunpin p b => s.lock b = some p ∧ 0 < s.pins b
  | _ => True

variable {s : Bio N} {a : BioAction N} {b : Bp}

theorem Fair.promise (h : Fair true s a) : Promise s a := by
  cases a with
  | bget p dev blockno => exact Nat.le_of_eq (Eq.symm h)
  | brelse p b => exact h rfl
  | bunpin p b => exact ⟨h.2, fun _ => .inl (by rw [h.1]; simp)⟩
  | _ => trivial

theorem Step.names_of_ne_bget {s' : Bio N} (hs : Step s a s') (ha : ∀ p dev n, a ≠ .bget p dev n) :
    ∀ b dev n, s'.Carries b dev n ↔ s.Carries b dev n := by
  rcases hs.names with hsame | ⟨p, b, dev, n, hbget, -⟩
  · exact hsame
  · exact absurd hbget (ha p dev n)

theorem users_le (s : Bio N) (b : Bp) : s.users b ≤ N + 1 := by
  have hrefs : ∀ c : BioPc, c.refs b ≤ 1 := by
    intro c
    unfold BioPc.refs
    split
    · split_ifs <;> omega
    · split_ifs <;> omega
    · omega
  have hsum : ∑ p, (s.pc p).refs b ≤ N := by
    calc ∑ p, (s.pc p).refs b ≤ ∑ _ : Fin N, 1 := Finset.sum_le_sum fun p _ => hrefs _
      _ = N := by simp
  unfold users
  split_ifs <;> omega

end Bio

namespace Sys

structure Inv (logged : Bool) (s : Sys N) : Prop where
  circle : s.bio.Circle
  counted : s.bio.Counted
  named : s.bio.Named
  faithful : logged = true → s.bio.Faithful
  isolated : Log.Isolated (fun _ => 0) s.log
  pinned : Pinned s.bio s.log
  follows : ∀ p, ∃ K, Follows logged s p K

variable {logged : Bool} {log : Log.Region} {s s' : Sys N} {p q : Fin N} {a : SysAction N}
  {K : Known} {b : Bp}

theorem Inv.pins_le (h : Inv logged s) (b : Bp) : s.bio.pins b ≤ 1 := by
  have hb := h.pinned.pins b
  have hg := h.isolated.pins_eq (s.bio.buf b).blockno
  split_ifs at hb
  · omega
  · omega

theorem Inv.few (h : Inv logged s) (hN : N ≤ NPROC) : s.bio.Few := by
  intro b
  have hu := s.bio.users_le b
  have hp := h.pins_le b
  simp only [NPROC] at hN
  omega

/-- **One step of process `p`**, by what it does to the buffer cache, to the log, to the pins
and to its own record. -/
theorem Inv.next (h : Inv logged s) (hN : N ≤ NPROC)
    (hbio : s'.bio = s.bio ∨ ∃ a, Bio.Step s.bio a s'.bio ∧ a.proc = p ∧ Bio.Fair logged s.bio a)
    (hlog : s'.log = s.log ∨ ∃ log a, Log.step log s.log a = some s'.log ∧ a.proc = p)
    (hcode : ∀ q, q ≠ p → s'.code q = s.code q) (hpinned : Pinned s'.bio s'.log)
    (hfollows : ∃ K, Follows logged s' p K) : Inv logged s' := by
  have hiso : Log.Isolated (fun _ => 0) s'.log := by
    rcases hlog with hlog | ⟨log, a, hlog, -⟩
    · rw [hlog]
      exact h.isolated
    · exact h.isolated.step hlog
  have hother : ∀ q, q ≠ p → s'.log.want q = s.log.want q ∧
      (∀ n used, s'.log.pc q = .append n used → s.log.pc q = .append n used) ∧
      ((s'.log.pc q).inBegin = true → (s.log.pc q).inBegin = true) := by
    intro q hq
    rcases hlog with hlog | ⟨log, a, hlog, rfl⟩
    · rw [hlog]
      exact ⟨rfl, fun _ _ h => h, fun h => h⟩
    refine ⟨h.isolated.want_of_ne hlog hq, ?_⟩
    rcases Log.pc_of_ne hlog hq with hpc | ⟨hpc, hpc'⟩
    · rw [hpc]
      exact ⟨fun _ _ h => h, fun h => h⟩
    · rw [hpc, hpc']
      exact ⟨(by simp), fun _ => rfl⟩
  have hspares : ∀ q, q ≠ p → Bio.Spares q s.bio s'.bio := by
    intro q hq
    rcases hbio with hbio | ⟨a, hstep, rfl, hfair⟩
    · rw [hbio]
      exact .refl q _
    · refine hstep.spares h.counted hq ?_
      rintro r b rfl
      exact hfair.1
  have hall : ∀ q, ∃ K, Follows logged s' q K := by
    intro q
    by_cases hq : q = p
    · rw [hq]
      exact hfollows
    · obtain ⟨K, hK⟩ := h.follows q
      obtain ⟨hwant, happ, hbegin⟩ := hother q hq
      exact ⟨K, hK.frame (hspares q hq) (hcode q hq) hwant happ hbegin⟩
  rcases hbio with hbio | ⟨a, hstep, -, hfair⟩
  · refine ⟨?_, ?_, ?_, ?_, hiso, hpinned, hall⟩
    all_goals rw [hbio]
    · exact h.circle
    · exact h.counted
    · exact h.named
    · exact h.faithful
  · refine ⟨h.circle.step hstep, h.counted.step (h.few hN) ?_ hstep,
      h.named.step h.counted ?_ hstep, fun hlog => ?_, hiso, hpinned, hall⟩
    · rintro r b rfl
      exact hfair.2
    · rintro r dev n rfl
      exact (show dev = ROOTDEV from hfair) ▸ Nat.one_ne_zero
    · subst hlog
      exact (h.faithful rfl).step h.named h.counted hfair.promise hstep

theorem code_goto_of_ne (s : Sys N) (c : Option (Code Unit)) (hq : q ≠ p) :
    (s.goto p c).code q = s.code q := update_of_ne hq ..

@[simp] theorem code_goto_self (s : Sys N) (p : Fin N) (c : Option (Code Unit)) :
    (s.goto p c).code p = c := update_self ..

def Starts (logged : Bool) : SysAction N → Prop
  | .call _ _ c => c.Keeps logged MAXHELD
  | .run _ => True

theorem Inv.call (h : Inv logged s) (hN : N ≤ NPROC) (hc : c.Keeps logged MAXHELD)
    (hcode : s.code p = none) (hpc : s.bio.pc p = .out) {g : Log.Group N}
    (hlog : g = s.log ∨ ∃ log a, Log.step log s.log a = some g ∧ a.proc = p)
    (hpins : g.pins = s.log.pins) (hout : ∀ n used, g.pc p ≠ .append n used) :
    Inv logged ({ s with log := g }.goto p (some c)) := by
  refine h.next (p := p) hN (.inl rfl) hlog (fun q hq => code_goto_of_ne _ _ hq)
    (h.pinned.of_same (fun _ _ _ => Iff.rfl) rfl hpins) ?_
  obtain ⟨K, hK⟩ := h.follows p
  obtain rfl := (hK.idle hcode).1
  refine ⟨_, hK.recode rfl hpc (fun c' hc' => ?_) (fun _ => rfl) (fun _ => rfl) fun n used hn =>
    absurd hn (hout n used)⟩
  rw [code_goto_self] at hc'
  cases hc'
  exact hc.ok _

theorem Inv.acquiresleep {dev n : ℕ} (h : Inv logged s) (hN : N ≤ NPROC)
    (hpc : s.bio.pc p = .acquiring b dev n) (hlock : s.bio.lock b = none) :
    Inv logged { s with bio := s.bio.acquiresleep p b dev n } := by
  have hstep := Bio.Step.acquiresleep hpc hlock
  refine h.next (p := p) hN (.inr ⟨_, hstep, rfl, trivial⟩) (.inl rfl) (fun _ _ => rfl)
    (h.pinned.of_same (fun _ _ _ => Iff.rfl) rfl rfl) ?_
  obtain ⟨K, hK⟩ := h.follows p
  have hfree : K b = none := by
    by_contra hb
    obtain ⟨i, hi⟩ := Option.ne_none_iff_exists'.1 hb
    rw [(hK.held b i hi).1] at hlock
    cases hlock
  have hpc' : (s.bio.acquiresleep p b dev n).pc p = .reading b dev n := update_self ..
  have hbusy : s.bio.pc p ≠ .out := by rw [hpc]; simp
  refine ⟨K, ⟨fun c i hi => ?_, fun c hl => ?_, fun c d m hcd => ?_, fun c d m hcd => ?_, hK.code,
    fun hn => absurd (hK.idle hn).2 hbusy, fun hb => absurd (hK.starting hb).2 hbusy, ?_,
    fun m used hm => absurd (hK.appending m used hm).1 hbusy, hK.marks⟩⟩
  · have hcb : c ≠ b := by
      rintro rfl
      rw [hfree] at hi
      cases hi
    obtain ⟨hl, hcar⟩ := hK.held c i hi
    exact ⟨(update_of_ne hcb ..).trans hl, hcar⟩
  · by_cases hcb : c = b
    · exact .inr ⟨dev, n, hcb ▸ hpc'⟩
    refine .inl ?_
    have hl : s.bio.lock c = some p := (update_of_ne hcb ..).symm.trans hl
    rcases hK.known c hl with hi | ⟨d, m, hr⟩
    · exact hi
    · rw [hpc] at hr
      cases hr
  · rw [hpc'] at hcd
    rcases hcd with hcd | hcd
    · cases hcd
    · cases hcd
      exact hK.waits b dev n (.inl hpc)
  · rw [hpc'] at hcd
    cases hcd
    exact ⟨update_self .., hfree, fun hlog hd => ((h.faithful hlog).buf b).pinned hd hlock⟩
  · have hroom := hK.room
    rw [hpc] at hroom
    rw [hpc']
    exact hroom

theorem Inv.read {dev n m : ℕ} {k : Bp → Block → Code Unit} (h : Inv logged s) (hN : N ≤ NPROC)
    (hpc : s.bio.pc p = .reading b dev n) (hcode : s.code p = some (.bread m k)) :
    Inv logged
    ({ s with bio := s.bio.bread p b }.goto p (some (k b ((s.bio.bread p b).buf b).data))) := by
  have hstep := Bio.Step.bread hpc
  have hnames := hstep.names_of_ne_bget (by simp)
  refine h.next (p := p) hN (.inr ⟨_, hstep, rfl, trivial⟩) (.inl rfl)
    (fun q hq => code_goto_of_ne _ _ hq) (h.pinned.of_same hnames rfl rfl) ?_
  obtain ⟨K, hK⟩ := h.follows p
  obtain ⟨hl, hfree, hpins⟩ := hK.reading b dev n hpc
  obtain ⟨rfl, k', hk'⟩ := hK.waits b dev n (.inr hpc)
  obtain rfl : m = n := by
    rw [hcode] at hk'
    cases hk'
    rfl
  obtain ⟨hroom, hok⟩ := hK.code _ hcode
  have hbusy : s.bio.pc p ≠ .out := by rw [hpc]; simp
  refine ⟨K.set b ⟨m, .clean⟩, .of_out (update_self ..) (fun c i hi => ?_) (fun c hlc => ?_)
    (fun c hc => ?_) (fun hn => ?_) (fun hb => absurd (hK.starting hb).2 hbusy) ?_
    (fun n used hn => absurd (hK.appending n used hn).1 hbusy) fun hlog c i hi => ?_⟩
  · by_cases hcb : c = b
    · subst hcb
      rw [Known.set_self] at hi
      cases hi
      exact ⟨hl, (hnames c _ _).2 (h.named.reading p c _ _ hpc).1⟩
    · rw [Known.set_of_ne hcb] at hi
      exact ⟨(hK.held c i hi).1, (hnames c _ _).2 (hK.held c i hi).2⟩
  · by_cases hcb : c = b
    · subst hcb
      exact ⟨_, Known.set_self⟩
    rw [Known.set_of_ne hcb]
    rcases hK.known c hlc with hi | ⟨d, r, hr⟩
    · exact hi
    · rw [hpc] at hr
      cases hr
      exact absurd rfl hcb
  · rw [code_goto_self] at hc
    cases hc
    exact hok b _ hfree
  · rw [code_goto_self] at hn
    cases hn
  · rw [Known.size_set hfree]
    exact hroom
  · by_cases hcb : c = b
    · subst hcb
      rw [Known.set_self] at hi
      cases hi
      exact ⟨(by simp), fun _ => hpins hlog⟩
    · rw [Known.set_of_ne hcb] at hi
      exact hK.marks hlog c i hi

theorem Follows.not_append (hK : Follows logged s p K) (hcode : s.code p = some c)
    (hc : ∀ b k, c ≠ .logWrite b k) (n : ℕ) (used : Finset ℕ) : s.log.pc p ≠ .append n used := by
  intro hn
  obtain ⟨-, b, k, hk, -⟩ := hK.appending n used hn
  rw [hcode] at hk
  exact hc b k (Option.some.inj hk)

section

variable (h : Inv logged s) (hN : N ≤ NPROC)
include h hN

theorem Inv.unref (hpc : s.bio.pc p = .releasing b) :
    Inv logged { s with bio := s.bio.unref p b } := by
  have hstep := Bio.Step.unref hpc
  have hnames := hstep.names_of_ne_bget (by simp)
  refine h.next (p := p) hN (.inr ⟨_, hstep, rfl, trivial⟩) (.inl rfl) (fun _ _ => rfl)
    (h.pinned.of_same hnames rfl rfl) ?_
  obtain ⟨K, hK⟩ := h.follows p
  have hbusy : s.bio.pc p ≠ .out := by rw [hpc]; simp
  refine ⟨K, .of_out (update_self ..) (fun c i hi => ?_) (fun c hl => ?_) hK.code
    (fun hn => (hK.idle hn).1) (fun hb => (hK.starting hb).1) hK.size_le
    (fun n used hn => absurd (hK.appending n used hn).1 hbusy) hK.marks⟩
  · exact ⟨(hK.held c i hi).1, (hnames c _ _).2 (hK.held c i hi).2⟩
  · rcases hK.known c hl with hi | ⟨d, m, hr⟩
    · exact hi
    · rw [hpc] at hr
      cases hr

section

variable (hpc : s.bio.pc p = .out)
include hpc

theorem Inv.bget {n : ℕ} {k : Bp → Block → Code Unit} {bio : Bio N}
    (hrun : (s.log.pc p).inBegin = false) (hcode : s.code p = some (.bread n k))
    (hstep : Bio.Step s.bio (.bget p ROOTDEV n) bio) : Inv logged { s with bio := bio } := by
  have hpin : Pinned bio s.log := by
    rcases hstep.names with hsame | ⟨q, c, dev, m, ha, -, hno, hfree, rfl⟩
    · exact h.pinned.of_same hsame (by cases hstep <;> rfl) rfl
    · cases ha
      exact h.pinned.recycle h.counted hno hfree
  have hpc' : ∃ b, bio.pc = update s.bio.pc p (.acquiring b ROOTDEV n) := by
    cases hstep <;> exact ⟨_, rfl⟩
  have hlock : bio.lock = s.bio.lock := by cases hstep <;> rfl
  have hdirty : bio.dirty = s.bio.dirty := by cases hstep <;> rfl
  have hpins : bio.pins = s.bio.pins := by cases hstep <;> rfl
  refine h.next (p := p) hN (.inr ⟨_, hstep, rfl, rfl⟩) (.inl rfl) (fun _ _ => rfl) hpin ?_
  obtain ⟨K, hK⟩ := h.follows p
  obtain ⟨b, hb⟩ := hpc'
  have hpc' : bio.pc p = .acquiring b ROOTDEV n := by rw [hb, update_self]
  refine ⟨K, ⟨fun c i hi => ?_, fun c hl => ?_, fun c d m hcd => ?_, fun c d m hcd => ?_, hK.code,
    fun hn => ?_, fun hb => ?_, ?_, fun m used hm =>
      absurd hm (hK.not_append hcode (by simp) m used), fun hlog => ?_⟩⟩
  · obtain ⟨hl, hcar⟩ := hK.held c i hi
    exact ⟨hlock ▸ hl, (hstep.carries (h.counted.refcnt_ne_zero hl)).2 hcar⟩
  · exact .inl (hK.mem_of_lock hpc (hlock ▸ hl))
  · rw [hpc'] at hcd
    rcases hcd with hcd | hcd
    · cases hcd
      exact ⟨rfl, k, hcode⟩
    · cases hcd
  · rw [hpc'] at hcd
    cases hcd
  · cases hcode.symm.trans hn
  · cases hrun.symm.trans hb
  · rw [hpc']
    exact (hK.code _ hcode).1
  · rw [hdirty, hpins]
    exact hK.marks hlog

theorem Inv.brelse
    (hrun : (s.log.pc p).inBegin = false) (hcode : s.code p = some (.brelse b k))
    (hl : s.bio.lock b = some p) :
    Inv logged ({ s with bio := s.bio.brelse p b }.goto p (some k)) := by
  obtain ⟨K, hK⟩ := h.follows p
  obtain ⟨i, hi⟩ := hK.mem_of_lock hpc hl
  obtain ⟨hmark, hok⟩ := hK.code _ hcode i hi
  have hfair : Bio.Fair logged s.bio (.brelse p b) := by
    intro hlog hd
    obtain ⟨hw, hc⟩ := hK.marks hlog b i hi
    cases hm : i.mark with
    | clean => exact hc hm hd
    | written =>
      rw [hw hm] at hd
      cases hd
    | dirty => exact absurd hm (hmark hlog)
  refine h.next (p := p) hN (.inr ⟨_, .brelse hpc hl, rfl, hfair⟩) (.inl rfl)
    (fun q hq => code_goto_of_ne _ _ hq) (h.pinned.of_same (fun _ _ _ => Iff.rfl) rfl rfl) ?_
  have hpc' : ({ s with bio := s.bio.brelse p b }.goto p (some k)).bio.pc p = .releasing b :=
    update_self ..
  have hdrop : ∀ {c j}, K.drop b c = some j → c ≠ b ∧ K c = some j := by
    intro c j hj
    by_cases hcb : c = b
    · rw [hcb, Known.drop_self] at hj
      cases hj
    · rw [Known.drop_of_ne hcb] at hj
      exact ⟨hcb, hj⟩
  refine ⟨K.drop b, ⟨fun c j hj => ?_, fun c hlc => ?_, fun c d m hcd => ?_, fun c d m hcd => ?_,
    fun c hc => ?_, fun hn => ?_, fun hb => ?_, ?_, fun m used hm =>
      absurd hm (hK.not_append hcode (by simp) m used),
    fun hlog c j hj => hK.marks hlog c j (hdrop hj).2⟩⟩
  · obtain ⟨hcb, hj⟩ := hdrop hj
    exact ⟨(update_of_ne hcb ..).trans (hK.held c j hj).1, (hK.held c j hj).2⟩
  · have hcb : c ≠ b := by
      rintro rfl
      have hnone : (s.bio.brelse p c).lock c = none := update_self ..
      cases hnone.symm.trans hlc
    rw [Known.drop_of_ne hcb]
    exact .inl (hK.mem_of_lock hpc ((update_of_ne hcb ..).symm.trans hlc))
  · rw [hpc'] at hcd
    rcases hcd with hcd | hcd <;> cases hcd
  · rw [hpc'] at hcd
    cases hcd
  · rw [code_goto_self] at hc
    cases hc
    exact hok
  · rw [code_goto_self] at hn
    cases hn
  · cases hrun.symm.trans hb
  · rw [hpc', if_neg (by simp), Known.size_drop hi]
    exact hK.size_le

theorem Inv.relog {g : Log.Group N} {c : Option (Code Unit)}
    (hlog : g = s.log ∨ ∃ log a, Log.step log s.log a = some g ∧ a.proc = p)
    (hpins : g.pins = s.log.pins)
    (hfollows : ∀ K, Follows logged s p K →
      (∀ c', c = some c' → c'.Ok logged Code.Done (g.want p) K) ∧ (c = none → K = Known.none) ∧
      ((g.pc p).inBegin = true → K = Known.none))
    (happ : ∀ n used, g.pc p = .append n used →
      ∃ b k, c = some (.logWrite b k) ∧ s.bio.lock b = some p ∧ (s.bio.buf b).blockno = n) :
    Inv logged ({ s with log := g }.goto p c) := by
  refine h.next (p := p) hN (.inl rfl) hlog (fun q hq => code_goto_of_ne _ _ hq)
    (h.pinned.of_same (fun _ _ _ => Iff.rfl) rfl hpins) ?_
  obtain ⟨K, hK⟩ := h.follows p
  obtain ⟨hcode, hidle, hbegin⟩ := hfollows K hK
  refine ⟨K, hK.recode rfl hpc ?_ ?_ hbegin ?_⟩
  all_goals rw [code_goto_self]
  · exact hcode
  · exact hidle
  · exact happ

omit hpc in
theorem Inv.touch {bio : Bio N} {g : Log.Group N} {i : Info} {m : Mark}
    (hK : Follows logged s p K) (hi : K b = some i)
    (hpc : s.bio.pc p = .out)
    (hbio : bio = s.bio ∨ ∃ a, Bio.Step s.bio a bio ∧ a.proc = p ∧ Bio.Fair logged s.bio a)
    (hlog : g = s.log ∨ ∃ log a, Log.step log s.log a = some g ∧ a.proc = p)
    (hlock : bio.lock = s.bio.lock) (hpc' : bio.pc = s.bio.pc)
    (hnames : ∀ b dev n, bio.Carries b dev n ↔ s.bio.Carries b dev n)
    (hdirty : ∀ c ≠ b, bio.dirty c = s.bio.dirty c) (hpins : ∀ c ≠ b, bio.pins c = s.bio.pins c)
    (hpinned : Pinned bio g)
    (hmark : logged = true → (m = .written → bio.dirty b = false) ∧
      (m = .clean → bio.dirty b = true → 0 < bio.pins b))
    (hok : k.Ok logged Code.Done (g.want p) (K.set b ⟨i.blockno, m⟩))
    (happ : ∀ n used, g.pc p ≠ .append n used) (hbegin : (g.pc p).inBegin = false) :
    Inv logged ({ s with log := g, bio := bio }.goto p (some k)) :=
  h.next (p := p) hN hbio hlog (fun _ hq => code_goto_of_ne _ _ hq) hpinned
    ⟨_, hK.remark hi hpc hlock hpc' hnames hdirty hpins hmark ⟨k, code_goto_self .., hok⟩
    happ hbegin⟩

theorem Inv.update {f : Block → Block} (hrun : (s.log.pc p).inBegin = false)
    (hcode : s.code p = some (.update b f k)) (hl : s.bio.lock b = some p) :
    Inv logged ({ s with bio := s.bio.modify b (f (s.bio.buf b).data) }.goto p (some k)) := by
  obtain ⟨K, hK⟩ := h.follows p
  obtain ⟨i, hi⟩ := hK.mem_of_lock hpc hl
  have hstep : Bio.Step s.bio (.modify p b (f (s.bio.buf b).data)) _ := .modify hpc hl
  have hnames := hstep.names_of_ne_bget (by simp)
  exact h.touch (m := .dirty) hN hK hi hpc (.inr ⟨_, hstep, rfl, trivial⟩) (.inl rfl) rfl rfl hnames
    (fun c hcb => update_of_ne hcb ..) (fun _ _ => rfl) (h.pinned.of_same hnames rfl rfl)
    (fun _ => ⟨(by simp), (by simp)⟩) (hK.code _ hcode i hi) (hK.not_append hcode (by simp)) hrun

theorem Inv.bwrite (hrun : (s.log.pc p).inBegin = false) (hcode : s.code p = some (.bwrite b k))
    (hl : s.bio.lock b = some p) :
    Inv logged ({ s with bio := s.bio.bwrite b }.goto p (some k)) := by
  obtain ⟨K, hK⟩ := h.follows p
  obtain ⟨i, hi⟩ := hK.mem_of_lock hpc hl
  exact h.touch (m := .written) hN hK hi hpc (.inr ⟨_, .bwrite hpc hl, rfl, trivial⟩)
    (.inl rfl) rfl rfl (fun _ _ _ => Iff.rfl)
    (fun c hcb => update_of_ne hcb ..) (fun _ _ => rfl)
    (h.pinned.of_same (fun _ _ _ => Iff.rfl) rfl rfl)
    (fun _ => ⟨fun _ => update_self .., (by simp)⟩) (hK.code _ hcode i hi)
      (hK.not_append hcode (by simp)) hrun

theorem Inv.append {n : ℕ} {g : Log.Group N} (hn : s.log.pc p = .append n used)
    (hcode : s.code p = some (.logWrite b k)) (hlog : Log.step log s.log (.append p) = some g) :
    Inv logged ({ s with log := g, bio := if n ∈ s.log.lh then s.bio else s.bio.bpin b }.goto p
      (some k)) := by
  obtain ⟨K, hK⟩ := h.follows p
  obtain ⟨-, b', k', hk', hl, hblock⟩ := hK.appending n used hn
  rw [hcode] at hk'
  cases hk'
  obtain ⟨i, hi⟩ := hK.mem_of_lock hpc hl
  have hcar : s.bio.Carries b ROOTDEV n := ⟨(hK.held b i hi).2.1, hblock⟩
  obtain ⟨hop, hmem, hcom, hpins⟩ := Log.append_step hlog hn
  have hwant : g.want p = s.log.want p := by
    rw [Log.want_of_not_commit (s := g) (by rw [hop]; rfl),
      Log.want_of_not_commit (by rw [hn]; rfl)]
  have hok : k.Ok logged Code.Done (g.want p) (K.set b ⟨i.blockno, .clean⟩) := by
    rw [hwant]
    exact hK.code _ hcode i hi
  have hone : g.pins n = 1 := by
    have hiso := h.isolated.step hlog
    have := hiso.pinned (hcom.trans (h.isolated.not_committing (p := p) (by rw [hn]; rfl))) n
    rwa [if_pos hmem] at this
  have hlog' : g = s.log ∨ ∃ log a, Log.step log s.log a = some g ∧ a.proc = p :=
    .inr ⟨log, _, hlog, rfl⟩
  have happ : ∀ n used, g.pc p ≠ .append n used := by simp [hop]
  have hbegin : (g.pc p).inBegin = false := by rw [hop]; rfl
  split_ifs at hpins ⊢ with hlisted
  · have hpinned : Pinned s.bio g := h.pinned.of_same (fun _ _ _ => Iff.rfl) rfl hpins
    refine h.touch (m := .clean) hN hK hi hpc (.inl rfl) hlog' rfl rfl (fun _ _ _ => Iff.rfl)
      (fun _ _ => rfl) (fun _ _ => rfl) hpinned (fun _ => ⟨(by simp), fun _ _ => ?_⟩) hok
      happ hbegin
    have := hpinned.pins_of_carries hcar
    omega
  · have hnames := (Bio.Step.bpin (b := b) hpc).names_of_ne_bget (by simp)
    have hpinned : Pinned (s.bio.bpin b) g := by
      refine h.pinned.repin (k := s.bio.pins b + 1) h.named hcar hnames rfl ?_
      rw [hpins, ← h.pinned.pins_of_carries hcar]
      rfl
    refine h.touch (m := .clean) hN hK hi hpc (.inr ⟨_, .bpin hpc, rfl, trivial⟩) hlog' rfl rfl
      hnames (fun _ _ => rfl) (fun c hcb => update_of_ne hcb ..) hpinned
      (fun _ => ⟨(by simp), fun _ _ => ?_⟩) hok happ hbegin
    have := hpinned.pins_of_carries ((hnames b _ _).2 hcar)
    omega

theorem Inv.bunpin {g : Log.Group N} (hcode : s.code p = some (.bunpin b k))
    (hlog : Log.step log s.log (.commit p) = some g) :
    Inv logged ({ s with log := g, bio := s.bio.bunpin b }.goto p (some k)) := by
  obtain ⟨K, hK⟩ := h.follows p
  obtain ⟨i, hi, hwant, hmark, hok⟩ := hK.code _ hcode
  obtain ⟨hl, hcar⟩ := hK.held b i hi
  obtain ⟨happ, hbegin, hpins⟩ := Log.commit_step hlog
  have hone := h.isolated.pins_of_want hwant
  have hb := h.pinned.pins_of_carries hcar
  have hnames := (Bio.Step.bunpin (b := b) hpc).names_of_ne_bget (by simp)
  have hpinned : Pinned (s.bio.bunpin b) g := by
    refine h.pinned.repin (k := s.bio.pins b - 1) h.named hcar hnames rfl ?_
    rw [hpins, hwant]
    dsimp only
    congr 1
    omega
  have hset : K.set b ⟨i.blockno, i.mark⟩ = K := by rw [Known.set, ← hi, update_eq_self]
  refine h.touch (m := i.mark) hN hK hi hpc (.inr ⟨_, .bunpin hpc, rfl, hl, by omega⟩)
    (.inr ⟨log, _, hlog, rfl⟩) rfl rfl hnames (fun _ _ => rfl) (fun c hcb => update_of_ne hcb ..)
    hpinned (fun hlogged => ?_) ?_ happ
    hbegin
  · refine ⟨(hK.marks hlogged b i hi).1, fun hclean => ?_⟩
    rw [hmark hlogged] at hclean
    cases hclean
  · rw [hset]
    exact hok _

end

/-- **The invariant is kept by every step**, whatever calls the processes make that keep the
rules. -/
theorem Inv.step (ha : Starts logged a) (hs : s.step log a = some s') : Inv logged s' := by
  cases step_cases h.circle hs with
  | @callOp p c g hcode hpc hout hlog =>
    have hpins := Log.pins_of_step hlog (by simp) (by simp)
    refine h.call hN ha hcode hpc (.inr ⟨log, _, hlog, rfl⟩) hpins fun n used => ?_
    cases (Log.step_cases hlog).2
    simp [Log.Group.goto]
  | call hcode hpc hout => exact h.call hN ha hcode hpc (.inl rfl) rfl (by simp [hout])
  | acquiresleep hpc hlock => exact h.acquiresleep hN hpc hlock
  | read hpc hcode => exact h.read hN hpc hcode
  | unref hpc => exact h.unref hN hpc
  | @begin p g hpc hbegin hlog =>
    have hpc' := Log.beginOp_step hlog
    have hwant : g.want p = s.log.want p := by
      rw [Log.want_of_not_commit (s := s.log) (by rw [hbegin]; rfl)]
      rcases hpc' with hpc' | hpc' <;> exact Log.want_of_not_commit (by rw [hpc']; rfl)
    rw [← goto_self (s := { s with log := g }) (c := s.code p) rfl]
    refine h.relog hN hpc (.inr ⟨log, _, hlog, rfl⟩) (Log.pins_of_step hlog (by simp) (by simp))
      (fun K hK => ⟨fun c' hc' => hwant ▸ hK.code c' hc', fun hn => (hK.idle hn).1,
        fun _ => (hK.starting (by rw [hbegin]; rfl)).1⟩) fun n used hn => ?_
    rcases hpc' with hpc' | hpc' <;> cases hpc'.symm.trans hn
  | append hpc hn hcode hlog => exact h.append hN hpc hn hcode hlog
  | @piece p c hpc hcommit hcode =>
    refine h.relog (g := s.log) hN hpc (.inl rfl) rfl
      (fun K hK => ⟨fun c' hc' => ?_, (by simp), fun _ => (hK.idle hcode).1⟩) (by simp [hcommit])
    cases hc'
    rw [(hK.idle hcode).1]
    exact Code.ok_commitPiece log hcommit
  | @endOp p used g hpc hop hcode hlog =>
    refine h.relog hN hpc (.inr ⟨log, _, hlog, rfl⟩) (Log.pins_of_step hlog (by simp) (by simp))
      (fun K hK => ⟨(by simp), fun _ => hK.code _ hcode, fun _ => hK.code _ hcode⟩)
      fun n used hn => ?_
    exact absurd hn (Log.endOp_step hlog n used)
  | @finish p hpc hrun hcode =>
    obtain ⟨K₀, hK₀⟩ := h.follows p
    exact h.relog (g := s.log) hN hpc (.inl rfl) rfl
      (fun K hK => ⟨(by simp), fun _ => hK.code _ hcode, fun _ => hK.code _ hcode⟩)
      fun n used hn => absurd hn (hK₀.not_append hcode (by simp) n used)
  | bget hpc hrun hcode hstep => exact h.bget hN hpc hrun hcode hstep
  | noBuffers hpc hrun hcode hnone =>
    exact ⟨h.circle, h.counted, h.named, h.faithful, h.isolated, h.pinned, fun p => by
      obtain ⟨K, hK⟩ := h.follows p
      exact ⟨K, ⟨hK.held, hK.known, hK.waits, hK.reading, hK.code, hK.idle, hK.starting, hK.room,
        hK.appending, hK.marks⟩⟩⟩
  | update hpc hrun hcode hl => exact h.update hN hpc hrun hcode hl
  | @logWrite p b k g hpc hrun hcode hl hlog =>
    obtain ⟨hwant, hbegin, hpc'⟩ := Log.logWrite_step hlog
    rw [← goto_self (s := { s with log := g }) hcode]
    refine h.relog hN hpc (.inr ⟨log, _, hlog, rfl⟩) (Log.pins_of_step hlog (by simp) (by simp))
      (fun K hK => ⟨fun c' hc' => hwant ▸ hK.code c' (hcode.trans hc'), (by simp),
        fun hb => absurd hb (by rw [hbegin]; simp)⟩) fun n used hn => ?_
    exact ⟨b, k, rfl, hl, hpc' n used hn⟩
  | bwrite hpc hrun hcode hl => exact h.bwrite hN hpc hrun hcode hl
  | brelse hpc hrun hcode hl => exact h.brelse hN hpc hrun hcode hl
  | bunpin hpc hrun hcode hlog => exact h.bunpin hN hpc hcode hlog
  | @commit p k g hpc hrun hcode hlog =>
    obtain ⟨K₀, hK₀⟩ := h.follows p
    obtain ⟨happ, hbegin, hpins⟩ := Log.commit_step hlog
    rw [(hK₀.code _ hcode).1] at hpins
    refine h.relog hN hpc (.inr ⟨log, _, hlog, rfl⟩) hpins
      (fun K hK => ⟨fun c' hc' => ?_, (by simp), fun hb => absurd hb (by rw [hbegin]; simp)⟩)
      fun n used hn => absurd hn (happ n used)
    cases hc'
    exact (hK.code _ hcode).2 _

end

end Sys
end Xv6
