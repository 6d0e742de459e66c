/-
# Buffers in use

The links make one circle of the head and all buffers (`Circle`).  A reference count is the number
of processes that have the buffer or are about to, and of `bpin`s (`Counted`).  A block has one
buffer, which is the one that a process that asked for it waits for, reads and holds (`Named`).
-/

import Xv6.Bio.Cache
import Xv6.Lib.Tally
import Mathlib.Algebra.Order.BigOperators.Group.Finset

namespace Xv6

open Lib Function

variable {N : ℕ} {L : Links Bp} {x : UInt32} {c : BioPc}

namespace Bio

inductive Step (s : Bio N) : BioAction N → Bio N → Prop
  | hit {p b dev blockno} : s.pc p = .out → s.Carries b dev blockno →
      Step s (.bget p dev blockno) (s.hit p b dev blockno)
  | recycle {p b dev blockno} : s.pc p = .out → (∀ b, ¬s.Carries b dev blockno) →
      (s.buf b).refcnt = 0 → Step s (.bget p dev blockno) (s.recycle p b dev blockno)
  | acquiresleep {p b dev blockno} : s.pc p = .acquiring b dev blockno → s.lock b = none →
      Step s (.acquiresleep p) (s.acquiresleep p b dev blockno)
  | bread {p b dev blockno} : s.pc p = .reading b dev blockno → Step s (.bread p) (s.bread p b)
  | modify {p b data} : s.pc p = .out → s.lock b = some p → Step s (.modify p b data)
    (s.modify b data)
  | bwrite {p b} : s.pc p = .out → s.lock b = some p → Step s (.bwrite p b) (s.bwrite b)
  | brelse {p b} : s.pc p = .out → s.lock b = some p → Step s (.brelse p b) (s.brelse p b)
  | unref {p b} : s.pc p = .releasing b → Step s (.unref p) (s.unref p b)
  | bpin {p b} : s.pc p = .out → Step s (.bpin p b) (s.bpin b)
  | bunpin {p b} : s.pc p = .out → Step s (.bunpin p b) (s.bunpin b)

variable {s s' : Bio N} {p q : Fin N} {a : BioAction N} {b : Bp} {dev blockno : ℕ}

/-! ### The circle of buffers -/

def Circle (s : Bio N) : Prop := ∃ l, Linked s.links l ∧ ∀ b, b ∈ l

theorem length_le_of_linked (h : Linked L l) : l.length ≤ NBUF := by
  simpa using h.nodup.length_le_card

theorem Circle.carries_of_cached (h : s.Circle) (hc : s.cached dev blockno = some b) :
    s.Carries b dev blockno := by
  obtain ⟨l, hl, -⟩ := h
  rw [cached, hl.search_next (Nat.lt_succ_of_le (length_le_of_linked hl))] at hc
  simpa using List.find?_some hc

theorem Circle.not_carries_of_cached (h : s.Circle) (hc : s.cached dev blockno = none) (b : Bp) :
    ¬s.Carries b dev blockno := by
  obtain ⟨l, hl, hmem⟩ := h
  rw [cached, hl.search_next (Nat.lt_succ_of_le (length_le_of_linked hl)), List.find?_eq_none] at hc
  simpa using hc b (hmem b)

theorem Circle.refcnt_of_unused (h : s.Circle) (hu : s.unused = some b) : (s.buf b).refcnt = 0 := by
  obtain ⟨l, hl, -⟩ := h
  rw [unused, hl.search_prev (Nat.lt_succ_of_le (length_le_of_linked hl))] at hu
  simpa using List.find?_some hu

theorem Circle.refcnt_ne_of_unused (h : s.Circle) (hu : s.unused = none) (b : Bp) :
    (s.buf b).refcnt ≠ 0 := by
  obtain ⟨l, hl, hmem⟩ := h
  rw [unused, hl.search_prev (Nat.lt_succ_of_le (length_le_of_linked hl)), List.find?_eq_none] at hu
  simpa using hu b (List.mem_reverse.2 (hmem b))

theorem linked_foldl_insert {bs l : List Bp} (h : Linked L l) (hbs : bs.Nodup)
    (hdisj : ∀ b ∈ bs, b ∉ l) : Linked (bs.foldl Links.insert L) (bs.reverse ++ l) := by
  induction bs generalizing L l with
  | nil => exact h
  | cons b bs ih =>
    rw [List.nodup_cons] at hbs
    rw [List.foldl_cons, List.reverse_cons, List.append_assoc, List.singleton_append]
    refine ih (h.insert (hdisj b (.head _))) hbs.2 fun c hc => ?_
    rw [List.mem_cons]
    rintro (rfl | hl)
    · exact hbs.1 hc
    · exact hdisj c (.tail _ hc) hl

theorem circle_binit (disk : ℕ → Disk) : (binit N disk).Circle := by
  have hempty : Linked (⟨fun _ => none, fun _ => none⟩ : Links Bp) [] :=
    ⟨List.nodup_nil, List.isChain_pair.2 ⟨rfl, rfl⟩⟩
  refine ⟨_, linked_foldl_insert hempty (List.nodup_finRange NBUF) (by simp), by simp⟩

/-! ### The steps -/

theorem step_cases (h : s.Circle) (hs : s.step a = some s') : Step s a s' := by
  cases a with
  | bget p dev blockno =>
    simp only [step, bget] at hs
    split_ifs at hs with hpc
    split at hs
    · rename_i b hc
      cases hs
      exact .hit hpc (h.carries_of_cached hc)
    · rename_i hc
      obtain ⟨b, hb, rfl⟩ := Option.map_eq_some_iff.1 hs
      exact .recycle hpc (h.not_carries_of_cached hc) (h.refcnt_of_unused hb)
  | acquiresleep p =>
    simp only [step] at hs
    split at hs
    · rename_i b dev blockno hpc
      split_ifs at hs with hlock
      cases hs
      exact .acquiresleep hpc hlock
    · cases hs
  | bread p =>
    simp only [step] at hs
    split at hs
    · rename_i hpc
      cases hs
      exact .bread hpc
    · cases hs
  | modify p b data =>
    simp only [step] at hs
    split_ifs at hs with hpc
    cases hs
    exact .modify hpc.1 hpc.2
  | bwrite p b =>
    simp only [step] at hs
    split_ifs at hs with hpc
    cases hs
    exact .bwrite hpc.1 hpc.2
  | brelse p b =>
    simp only [step] at hs
    split_ifs at hs with hpc
    cases hs
    exact .brelse hpc.1 hpc.2
  | unref p =>
    simp only [step] at hs
    split at hs
    · rename_i hpc
      cases hs
      exact .unref hpc
    · cases hs
  | bpin p b =>
    simp only [step] at hs
    split_ifs at hs with hpc
    cases hs
    exact .bpin hpc
  | bunpin p b =>
    simp only [step] at hs
    split_ifs at hs with hpc
    cases hs
    exact .bunpin hpc

theorem Circle.step (h : s.Circle) (hs : Step s a s') : s'.Circle := by
  cases hs with
  | hit | recycle | acquiresleep | bread | modify | bwrite | brelse | bpin | bunpin => exact h
  | @unref p b hpc =>
    obtain ⟨l, hl, hmem⟩ := h
    simp only [Circle, Bio.unref]
    split_ifs with h0
    · refine ⟨_, hl.moveToFront (hmem b), fun c => ?_⟩
      by_cases hc : c = b
      · rw [hc]
        exact List.mem_cons_self ..
      · exact .tail _ ((List.mem_erase_of_ne hc).2 (hmem c))
    · exact ⟨l, hl, hmem⟩

/-! ### Reference counts -/

end Bio

/-- The reference to `b` that a process has in `bget` or `brelse`, without the sleep lock. -/
def BioPc.refs (b : Bp) : BioPc → ℕ
  | .acquiring b' _ _ | .releasing b' => if b' = b then 1 else 0
  | _ => 0

namespace Bio

variable {s s' : Bio N} {p q : Fin N} {a : BioAction N} {b : Bp} {dev blockno : ℕ}

/-- The processes that hold a buffer, or are about to, or are about to let it go. -/
def users (s : Bio N) (b : Bp) : ℕ := (if s.lock b = none then 0 else 1) + ∑ p, (s.pc p).refs b

/-- Each reference count is the number of references. -/
def Counted (s : Bio N) : Prop := ∀ b, (s.buf b).refcnt.toNat = s.users b + s.pins b

/-- No buffer has so many references that one more would wrap its count. -/
def Few (s : Bio N) : Prop := ∀ b, s.users b + s.pins b + 1 < 2 ^ 32

theorem sum_refs_update (s : Bio N) (p : Fin N) (c : BioPc) (b : Bp) :
    (∑ q, (update s.pc p c q).refs b) + (s.pc p).refs b = (∑ q, (s.pc q).refs b) + c.refs b :=
  sum_update_add (fun _ c => BioPc.refs b c) s.pc p c

theorem toNat_add_one (h : x.toNat + 1 < 2 ^ 32) : (x + 1).toNat = x.toNat + 1 := by
  rw [UInt32.toNat_add, UInt32.toNat_one, Nat.mod_eq_of_lt h]

theorem toNat_sub_one (h : 0 < x.toNat) : (x - 1).toNat = x.toNat - 1 := by
  have := x.toNat_lt
  rw [UInt32.toNat_sub, UInt32.toNat_one]
  omega

theorem counted_binit (disk : ℕ → Disk) : (binit N disk).Counted := by
  intro b
  simp [binit, users, BioPc.refs]

theorem Counted.free (h : s.Counted) (hb : (s.buf b).refcnt = 0) :
    s.lock b = none ∧ s.pins b = 0 ∧ ∀ q, (s.pc q).refs b = 0 := by
  have hc := h b
  rw [hb, UInt32.toNat_zero, users] at hc
  refine ⟨?_, by omega, fun q => ?_⟩
  · by_contra hl
    rw [if_neg hl] at hc
    omega
  · have := Finset.single_le_sum (f := fun q => (s.pc q).refs b) (fun _ _ => Nat.zero_le _)
      (Finset.mem_univ q)
    omega

theorem users_goto (s s' : Bio N) (hlock : s'.lock = s.lock) (hpc : s'.pc = update s.pc p c)
    (b : Bp) : s'.users b + (s.pc p).refs b = s.users b + c.refs b := by
  have := sum_refs_update s p c b
  simp only [users, hlock, hpc]
  omega

theorem users_lock (s s' : Bio N) (hlock : s'.lock = update s.lock b o)
    (hpc : s'.pc = update s.pc p c) (b' : Bp) :
    s'.users b' + (s.pc p).refs b' + (if b' = b then if s.lock b = none then 0 else 1 else 0) =
      s.users b' + c.refs b' + if b' = b then if o = none then 0 else 1 else 0 := by
  have := sum_refs_update s p c b'
  rw [users, users, hlock, hpc]
  by_cases hb : b' = b
  · subst hb
    rw [update_self, if_pos rfl, if_pos rfl]
    omega
  · rw [update_of_ne hb, if_neg hb, if_neg hb]
    omega

theorem users_congr (s s' : Bio N) (hlock : s'.lock = s.lock) (hpc : s'.pc = s.pc) (b : Bp) :
    s'.users b = s.users b := by
  simp only [users, hlock, hpc]

theorem Counted.step (h : s.Counted) (hfew : s.Few) (hpin : ∀ p b, a = .bunpin p b → 0 < s.pins b)
    (hs : Step s a s') : s'.Counted := by
  intro b'
  have hb' := h b'
  have hfew' := hfew b'
  cases hs with
  | @hit p b dev blockno hpc hcar =>
    have hu := users_goto s (s.hit p b dev blockno) rfl rfl b'
    simp only [hpc, BioPc.refs] at hu
    simp only [Bio.hit, update_apply] at hu ⊢
    by_cases hb : b' = b
    · subst hb
      rw [if_pos rfl] at hu ⊢
      rw [toNat_add_one (by omega)]
      omega
    · rw [if_neg hb]
      rw [if_neg (Ne.symm hb)] at hu
      omega
  | @recycle p b dev blockno hpc hno hfree =>
    have hu := users_goto s (s.recycle p b dev blockno) rfl rfl b'
    simp only [hpc, BioPc.refs] at hu
    simp only [Bio.recycle, update_apply] at hu ⊢
    by_cases hb : b' = b
    · subst hb
      rw [hfree, UInt32.toNat_zero] at hb'
      rw [if_pos rfl] at hu ⊢
      simp only [UInt32.toNat_one]
      omega
    · rw [if_neg hb]
      rw [if_neg (Ne.symm hb)] at hu
      omega
  | @acquiresleep p b dev blockno hpc hlock =>
    have hu := users_lock s (s.acquiresleep p b dev blockno) rfl rfl b'
    simp only [hpc, hlock, BioPc.refs, eq_comm (a := b), reduceCtorEq, if_true, if_false,
      ite_self] at hu
    simp only [Bio.acquiresleep] at hu ⊢
    omega
  | @bread p b dev blockno hpc =>
    have hu := users_goto s (s.bread p b) rfl rfl b'
    simp only [hpc, BioPc.refs] at hu
    have href : ((s.bread p b).buf b').refcnt = (s.buf b').refcnt := by
      by_cases hb : b' = b
      · subst hb
        simp [Bio.bread]
      · simp [Bio.bread, hb]
    rw [href]
    simp only [Bio.bread] at hu ⊢
    omega
  | @modify p b data hpc hlock =>
    have href : ((s.modify b data).buf b').refcnt = (s.buf b').refcnt := by
      by_cases hb : b' = b
      · subst hb
        simp [Bio.modify]
      · simp [Bio.modify, hb]
    rw [href, hb', users_congr s (s.modify b data) rfl rfl]
    rfl
  | bwrite hpc hlock => exact hb'
  | @brelse p b hpc hlock =>
    have hu := users_lock s (s.brelse p b) rfl rfl b'
    simp only [hpc, hlock, BioPc.refs, eq_comm (a := b), reduceCtorEq, if_true, if_false,
      ite_self] at hu
    simp only [Bio.brelse] at hu ⊢
    omega
  | @unref p b hpc =>
    have hu := users_goto s (s.unref p b) rfl rfl b'
    simp only [hpc, BioPc.refs] at hu
    simp only [Bio.unref, update_apply] at hu ⊢
    by_cases hb : b' = b
    · subst hb
      rw [if_pos rfl] at hu ⊢
      rw [toNat_sub_one (by omega)]
      omega
    · rw [if_neg hb]
      rw [if_neg (Ne.symm hb)] at hu
      omega
  | @bpin p b hpc =>
    have hu := users_congr s (s.bpin b) rfl rfl b'
    simp only [Bio.bpin, update_apply] at hu ⊢
    by_cases hb : b' = b
    · subst hb
      rw [if_pos rfl, if_pos rfl, toNat_add_one (by omega)]
      omega
    · rw [if_neg hb, if_neg hb]
      omega
  | @bunpin p b hpc =>
    have hu := users_congr s (s.bunpin b) rfl rfl b'
    have hpos := hpin p b rfl
    simp only [Bio.bunpin, update_apply] at hu ⊢
    by_cases hb : b' = b
    · subst hb
      rw [if_pos rfl, if_pos rfl, toNat_sub_one (by omega)]
      omega
    · rw [if_neg hb, if_neg hb]
      omega

/-! ### Names of buffers -/

/-- A block has one buffer, and a process waits for, reads and holds the buffer of the block
it asked for. -/
structure Named (s : Bio N) : Prop where
  unique : ∀ b b', (s.buf b).dev ≠ 0 → s.Carries b' (s.buf b).dev (s.buf b).blockno → b' = b
  acquiring : ∀ p b dev blockno, s.pc p = .acquiring b dev blockno →
    s.Carries b dev blockno ∧ dev ≠ 0
  reading : ∀ p b dev blockno, s.pc p = .reading b dev blockno → s.Carries b dev blockno ∧
    s.lock b = some p
  locked : ∀ b, s.lock b ≠ none → (s.buf b).dev ≠ 0

theorem named_binit (disk : ℕ → Disk) : (binit N disk).Named := by
  constructor <;> simp [binit]

theorem Step.names (hs : Step s a s') :
    (∀ b dev blockno, s'.Carries b dev blockno ↔ s.Carries b dev blockno) ∨
    ∃ p b dev blockno, a = .bget p dev blockno ∧ s.pc p = .out ∧ (∀ b, ¬s.Carries b dev blockno) ∧
      (s.buf b).refcnt = 0 ∧ s' = s.recycle p b dev blockno := by
  cases hs with
  | @recycle p b dev blockno hpc hno hfree =>
    exact .inr ⟨p, b, dev, blockno, rfl, hpc, hno, hfree, rfl⟩
  | @hit p b _ _ _ _ | @bread p b _ _ _ | @modify p b _ _ _ | @unref p b _ | @bpin p b _
  | @bunpin p b _ =>
    refine .inl fun b' dev' blockno' => ?_
    by_cases hb : b' = b
    · subst hb
      simp [Carries, Bio.hit, Bio.bread, Bio.modify, Bio.unref, Bio.bpin, Bio.bunpin]
    · simp [Carries, Bio.hit, Bio.bread, Bio.modify, Bio.unref, Bio.bpin, Bio.bunpin, hb]
  | acquiresleep | bwrite | brelse => exact .inl fun _ _ _ => Iff.rfl

/-- **A buffer in use keeps its block.** -/
theorem Step.carries (hs : Step s a s') (hb : (s.buf b).refcnt ≠ 0) :
    s'.Carries b dev blockno ↔ s.Carries b dev blockno := by
  rcases hs.names with hsame | ⟨p, b₀, dev', blockno', -, -, -, hfree, rfl⟩
  · exact hsame b dev blockno
  · have hne : b ≠ b₀ := by
      rintro rfl
      exact hb hfree
    simp [Carries, Bio.recycle, hne]

theorem dev_ne_zero_iff (h : ∀ b dev blockno, s'.Carries b dev blockno ↔ s.Carries b dev blockno)
    (b : Bp) : (s'.buf b).dev = (s.buf b).dev ∧ (s'.buf b).blockno = (s.buf b).blockno :=
  (h b _ _).2 ⟨rfl, rfl⟩

theorem Named.recycle (h : s.Named) (hc : s.Counted) (hpc : s.pc p = .out) (hdev : dev ≠ 0)
    (hno : ∀ b, ¬s.Carries b dev blockno) (hfree : (s.buf b).refcnt = 0) :
    (s.recycle p b dev blockno).Named := by
  obtain ⟨hlock, -, hrefs⟩ := hc.free hfree
  have hother : ∀ c ≠ b, ∀ d n, (s.recycle p b dev blockno).Carries c d n ↔ s.Carries c d n := by
    intro c hcb d n
    simp [Carries, Bio.recycle, hcb]
  have hself : ∀ d n, (s.recycle p b dev blockno).Carries b d n ↔ dev = d ∧ blockno = n := by
    intro d n
    simp [Carries, Bio.recycle]
  constructor
  · intro c c' hd hcar
    by_cases hcb : c = b <;> by_cases hcb' : c' = b
    · rw [hcb, hcb']
    · subst hcb
      rw [hother c' hcb'] at hcar
      refine absurd hcar ?_
      simpa [Bio.recycle] using hno c'
    · subst hcb'
      rw [hself] at hcar
      refine absurd ?_ (hno c)
      simpa [Carries, Bio.recycle, hcb, eq_comm] using hcar
    · rw [hother c' hcb'] at hcar
      have hcbuf : (s.recycle p b dev blockno).buf c = s.buf c := by simp [Bio.recycle, hcb]
      rw [hcbuf] at hd hcar
      exact h.unique c c' hd hcar
  · intro q c d n hq
    rcases update_cases hq with ⟨rfl, ⟨⟩⟩ | ⟨-, hold⟩
    · exact ⟨(hself _ _).2 ⟨rfl, rfl⟩, hdev⟩
    · have hcb : c ≠ b := by
        rintro rfl
        have := hrefs q
        simp [hold, BioPc.refs] at this
      rw [hother c hcb]
      exact h.acquiring q c d n hold
  · intro q c d n hq
    rcases update_cases hq with ⟨-, ⟨⟩⟩ | ⟨-, hq⟩
    obtain ⟨hcar, hl⟩ := h.reading q c d n hq
    have hcb : c ≠ b := by
      rintro rfl
      rw [hlock] at hl
      cases hl
    exact ⟨(hother c hcb d n).2 hcar, hl⟩
  · intro c hl
    have hcb : c ≠ b := by
      rintro rfl
      exact hl hlock
    simpa [Bio.recycle, hcb] using h.locked c hl

theorem Named.of_same (h : s.Named)
    (hsame : ∀ b dev blockno, s'.Carries b dev blockno ↔ s.Carries b dev blockno)
    (hpc : s'.pc = update s.pc p c)
    (hacq : ∀ b dev blockno, c = .acquiring b dev blockno → s.Carries b dev blockno ∧ dev ≠ 0)
    (hread : ∀ b dev blockno, c = .reading b dev blockno → s.Carries b dev blockno ∧
      s'.lock b = some p) (hkeep : ∀ q b, q ≠ p → s.lock b = some q → s'.lock b = some q)
    (hlock : ∀ b, s'.lock b ≠ none → s.lock b ≠ none ∨ (s.buf b).dev ≠ 0) : s'.Named where
  unique b b' hd hcar := by
    obtain ⟨h₁, h₂⟩ := dev_ne_zero_iff hsame b
    rw [h₁] at hd
    rw [h₁, h₂, hsame] at hcar
    exact h.unique b b' hd hcar
  acquiring q b dev blockno hq := by
    rw [hsame]
    rw [hpc] at hq
    rcases update_cases hq with ⟨rfl, hc⟩ | ⟨-, hq⟩
    · exact hacq b dev blockno hc
    · exact h.acquiring q b dev blockno hq
  reading q b dev blockno hq := by
    rw [hsame]
    rw [hpc] at hq
    rcases update_cases hq with ⟨rfl, hc⟩ | ⟨hqp, hq⟩
    · exact hread b dev blockno hc
    · obtain ⟨hcar, hl⟩ := h.reading q b dev blockno hq
      exact ⟨hcar, hkeep q b hqp hl⟩
  locked b hl := by
    rw [(dev_ne_zero_iff hsame b).1]
    rcases hlock b hl with hl | hd
    · exact h.locked b hl
    · exact hd

theorem Named.step (h : s.Named) (hc : s.Counted)
    (hdev : ∀ p dev blockno, a = .bget p dev blockno → dev ≠ 0) (hs : Step s a s') : s'.Named := by
  rcases hs.names with hsame | ⟨p, b, dev, blockno, ha, hpc, hno, hfree, rfl⟩
  swap
  · exact h.recycle hc hpc (hdev p dev blockno ha) hno hfree
  cases hs with
  | @hit p b dev blockno hpc hcar =>
    refine h.of_same hsame rfl (fun c d n hcdn => ?_) (by simp) (fun _ _ _ hl => hl)
      fun c hl => .inl hl
    cases hcdn
    exact ⟨hcar, hdev _ _ _ rfl⟩
  | @recycle p b dev blockno hpc hno hfree =>
    exact h.recycle hc hpc (hdev p dev blockno rfl) hno hfree
  | @acquiresleep p b dev blockno hpc hlock =>
    obtain ⟨hcar, hd⟩ := h.acquiring p b dev blockno hpc
    refine h.of_same hsame rfl (by simp) (fun c d n hcdn => ?_) (fun q c _ hl => ?_) fun c hl => ?_
    · cases hcdn
      exact ⟨hcar, update_self ..⟩
    · have hcb : c ≠ b := by
        rintro rfl
        rw [hlock] at hl
        cases hl
      exact (update_of_ne hcb ..).trans hl
    · by_cases hcb : c = b
      · subst hcb
        exact .inr (hcar.1 ▸ hd)
      · exact .inl (by simpa [Bio.acquiresleep, hcb] using hl)
  | bread hpc | unref hpc =>
    exact h.of_same hsame rfl (by simp) (by simp) (fun _ _ _ hl => hl) fun c hl => .inl hl
  | @modify p b _ hpc hlock | @bwrite p b hpc hlock | @bpin p b hpc | @bunpin p b hpc =>
    exact h.of_same (p := p) (c := .out) hsame (hpc ▸ (update_eq_self p s.pc).symm)
      (by simp) (by simp) (fun _ _ _ hl => hl) fun c hl => .inl hl
  | @brelse p b hpc hlock =>
    refine h.of_same hsame rfl (by simp) (by simp) (fun q c hqp hl => ?_) fun c hl => ?_
    · have hcb : c ≠ b := by
        rintro rfl
        rw [hlock] at hl
        exact hqp (Option.some.inj hl).symm
      exact (update_of_ne hcb ..).trans hl
    · by_cases hcb : c = b
      · subst hcb
        simp [Bio.brelse] at hl
      · exact .inl (by simpa [Bio.brelse, hcb] using hl)

end Bio
end Xv6
