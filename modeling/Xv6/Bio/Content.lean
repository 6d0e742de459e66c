/-
# What is in the buffers

What a process reads is what the last holder of the block left (`Faithful`), if a holder that
changes a buffer writes it before releasing it, or keeps it pinned until someone does (`Promise`).
This rests on the counts: after `2 ^ 32` calls of `bpin` a pinned buffer is recycled (`pins_wrap`).
-/

import Xv6.Bio.Inv

namespace Xv6

open Lib Function

variable {N : ℕ}

namespace Bio

variable {s s' : Bio N} {p q : Fin N} {a : BioAction N} {b : Bp} {dev blockno : ℕ}

/-! ### Contents of buffers -/

/-- The current holder, if there is one, is still in `bread`. -/
def Untouched (s : Bio N) (b : Bp) : Prop :=
  s.lock b = none ∨ ∃ p dev blockno, s.pc p = .reading b dev blockno

/-- What is known of one buffer: it holds what was left in its block until its holder changes it,
and what is on the disk unless it is dirty; then it is held or pinned. -/
structure FaithfulAt (s : Bio N) (b : Bp) : Prop where
  untouched : (s.buf b).valid = true → s.Untouched b → (s.buf b).data = s.left (s.buf b).dev
    (s.buf b).blockno
  clean : (s.buf b).valid = true → s.dirty b = false → (s.buf b).data = s.disk (s.buf b).dev
    (s.buf b).blockno
  pinned : s.dirty b = true → s.lock b = none → 0 < s.pins b
  held : ∀ p, s.lock b = some p → (s.buf b).valid = true ∨
    ∃ dev blockno, s.pc p = .reading b dev blockno
  named : (s.buf b).valid = true → (s.buf b).dev ≠ 0
  filled : s.dirty b = true → (s.buf b).valid = true

/-- What is in the buffers, on the disk and in `left`. -/
structure Faithful (s : Bio N) : Prop where
  buf : ∀ b, s.FaithfulAt b
  kept : ∀ dev blockno, (∀ b, s.Carries b dev blockno → (s.buf b).valid = false) →
    s.disk dev blockno = s.left dev blockno

theorem FaithfulAt.of_invalid (hv : (s.buf b).valid = false) (hd : s.dirty b = false)
    (hl : s.lock b = none) : s.FaithfulAt b := by
  constructor <;> simp [hv, hd, hl]

theorem faithful_binit (disk : ℕ → Disk) : (binit N disk).Faithful :=
  ⟨fun _ => .of_invalid rfl rfl rfl, fun _ _ _ => rfl⟩

theorem Faithful.valid (h : s.Faithful) (hl : s.lock b = some p) (hpc : s.pc p = .out) :
    (s.buf b).valid = true := by
  rcases (h.buf b).held p hl with hv | ⟨dev, blockno, hr⟩
  · exact hv
  · rw [hpc] at hr
    cases hr

theorem Named.not_untouched (h : s.Named) (hl : s.lock b = some p) (hpc : s.pc p = .out) :
    ¬s.Untouched b := by
  rintro (hn | ⟨q, dev, blockno, hq⟩)
  · rw [hl] at hn
    cases hn
  · have := (h.reading q b dev blockno hq).2
    rw [hl] at this
    obtain rfl := Option.some.inj this
    rw [hpc] at hq
    cases hq

/-- What a buffer holds, without its reference count. -/
def Same (x y : Buf) : Prop :=
  x.valid = y.valid ∧ x.dev = y.dev ∧ x.blockno = y.blockno ∧ x.data = y.data

/-- A step that changes nothing about a buffer but the number of its references, and adds pins at
most. -/
structure Unseen (s s' : Bio N) (b : Bp) : Prop where
  same : Same (s'.buf b) (s.buf b)
  lock : s'.lock b = s.lock b
  dirty : s'.dirty b = s.dirty b
  pins : s.pins b ≤ s'.pins b
  reading : ∀ p dev blockno, s'.pc p = .reading b dev blockno ↔ s.pc p = .reading b dev blockno
  disk : s'.disk (s.buf b).dev (s.buf b).blockno = s.disk (s.buf b).dev (s.buf b).blockno
  left : s'.left (s.buf b).dev (s.buf b).blockno = s.left (s.buf b).dev (s.buf b).blockno

theorem FaithfulAt.unseen (h : s.FaithfulAt b) (hu : Unseen s s' b) : s'.FaithfulAt b := by
  obtain ⟨hvalid, hdev, hblockno, hdata⟩ := hu.same
  have hun : s'.Untouched b → s.Untouched b := by
    simp only [Untouched, hu.lock, hu.reading]
    exact id
  refine ⟨fun hv ht => ?_, fun hv hd => ?_, fun hd hl => ?_, fun p hl => ?_, fun hv => ?_,
    fun hd => ?_⟩
  · rw [hdata, hdev, hblockno, hu.left]
    exact h.untouched (hvalid ▸ hv) (hun ht)
  · rw [hdata, hdev, hblockno, hu.disk]
    exact h.clean (hvalid ▸ hv) (hu.dirty ▸ hd)
  · exact (h.pinned (hu.dirty ▸ hd) (hu.lock ▸ hl)).trans_le hu.pins
  · simp only [hvalid, hu.reading]
    exact h.held p (hu.lock ▸ hl)
  · rw [hdev]
    exact h.named (hvalid ▸ hv)
  · rw [hvalid]
    exact h.filled (hu.dirty ▸ hd)

/-- **A step that changes one buffer**: the others do not see it. -/
theorem Faithful.change (h : s.Faithful) (b : Bp) (hother : ∀ c ≠ b, Unseen s s' c)
    (hb : s'.FaithfulAt b)
    (hkept : ∀ dev blockno, (∀ c, s'.Carries c dev blockno → (s'.buf c).valid = false) →
      s'.disk dev blockno = s'.left dev blockno) : s'.Faithful := by
  refine ⟨fun c => ?_, hkept⟩
  by_cases hc : c = b
  · exact hc ▸ hb
  · exact (h.buf c).unseen (hother c hc)

theorem Faithful.kept_of (h : s.Faithful) (hsame : ∀ c, (s'.buf c).dev = (s.buf c).dev ∧
    (s'.buf c).blockno = (s.buf c).blockno ∧ ((s'.buf c).valid = false → (s.buf c).valid = false))
    (hall : ∀ c, s'.Carries c dev blockno → (s'.buf c).valid = false) :
    s.disk dev blockno = s.left dev blockno := by
  refine h.kept dev blockno fun c hc => ?_
  obtain ⟨hdev, hblockno, hvalid⟩ := hsame c
  exact hvalid (hall c ⟨hdev.trans hc.1, hblockno.trans hc.2⟩)

theorem Faithful.of_unseen (h : s.Faithful) (hu : ∀ b, Unseen s s' b) (hdisk : s'.disk = s.disk)
    (hleft : s'.left = s.left) : s'.Faithful := by
  refine ⟨fun b => (h.buf b).unseen (hu b), fun dev blockno hall => ?_⟩
  rw [hdisk, hleft]
  exact h.kept_of (fun c => ⟨(hu c).same.2.1, (hu c).same.2.2.1, fun hv => (hu c).same.1 ▸ hv⟩) hall

theorem reading_update {x : BioPc} (hold : ∀ d n, s.pc p ≠ .reading b d n)
    (hnew : ∀ d n, x ≠ .reading b d n) (q : Fin N) (d n : ℕ) :
    update s.pc p x q = .reading b d n ↔ s.pc q = .reading b d n := by
  by_cases hq : q = p
  · subst hq
    rw [update_self]
    exact iff_of_false (hnew d n) (hold d n)
  · rw [update_of_ne hq]

theorem same_update {x : Buf} {c : Bp} (h : c = b → Same x (s.buf b)) :
    Same (update s.buf b x c) (s.buf c) := by
  by_cases hc : c = b
  · subst hc
    rw [update_self]
    exact h rfl
  · rw [update_of_ne hc]
    exact ⟨rfl, rfl, rfl, rfl⟩

theorem Faithful.recycle (h : s.Faithful) (hc : s.Counted) (hpc : s.pc p = .out)
    (hfree : (s.buf b).refcnt = 0) : (s.recycle p b dev blockno).Faithful := by
  obtain ⟨hlock, hpins, -⟩ := hc.free hfree
  have hclean : s.dirty b = false := by
    by_contra hd
    have := (h.buf b).pinned (by simpa using hd) hlock
    omega
  refine h.change b (fun c hcb => ⟨same_update (absurd · hcb), rfl, rfl, le_rfl, ?_, rfl, rfl⟩)
    (.of_invalid (by simp [Bio.recycle]) hclean hlock) fun d n hall => ?_
  · exact reading_update (by simp [hpc]) (by simp)
  -- the block that loses its buffer is on the disk
  · by_cases hb : s.Carries b d n ∧ (s.buf b).valid = true
    · obtain ⟨⟨rfl, rfl⟩, hv⟩ := hb
      exact ((h.buf b).clean hv hclean).symm.trans ((h.buf b).untouched hv (.inl hlock))
    refine h.kept d n fun c hcar => ?_
    by_cases hcb : c = b
    · subst hcb
      by_contra hv
      exact hb ⟨hcar, by simpa using hv⟩
    · simpa [Bio.recycle, hcb] using hall c (by simpa [Carries, Bio.recycle, hcb] using hcar)

theorem Faithful.bread (h : s.Faithful) (hn : s.Named) (hpc : s.pc p = .reading b dev blockno) :
    (s.bread p b).Faithful := by
  obtain ⟨⟨rfl, rfl⟩, hlock⟩ := hn.reading p b dev blockno hpc
  refine h.change b (fun c hcb => ⟨same_update (absurd · hcb), rfl, rfl, le_rfl, ?_, rfl, rfl⟩)
    ⟨fun _ hu => ?_, fun _ hd => ?_, (h.buf b).pinned, fun _ _ => .inl (by simp [Bio.bread]),
    fun _ => ?_, ?_⟩
    fun d n => h.kept_of fun c => ?_
  · exact reading_update (by simp [hpc, Ne.symm hcb]) (by simp)
  -- the holder is out of `bread`
  · refine absurd hu (fun hu => ?_)
    rcases hu with hl | ⟨q, d, n, hq⟩
    · rw [show s.lock b = none from hl] at hlock
      cases hlock
    have hqp : q ≠ p := by
      rintro rfl
      simp [Bio.bread] at hq
    have hl := (hn.reading q b d n (by simpa [Bio.bread, hqp] using hq)).2
    rw [hlock] at hl
    exact hqp (Option.some.inj hl).symm
  · simp only [Bio.bread, update_self]
    split_ifs with hv
    · exact (h.buf b).clean hv hd
    · rfl
  · simpa [Bio.bread] using hn.locked b (by rw [hlock]; simp)
  · simp [Bio.bread]
  · by_cases hcb : c = b
    · subst hcb
      simp [Bio.bread]
    · simp [Bio.bread, hcb]

theorem Faithful.modify (h : s.Faithful) (hn : s.Named) (hpc : s.pc p = .out)
    (hl : s.lock b = some p) (data : Block) : (s.modify b data).Faithful := by
  have hv := h.valid hl hpc
  refine h.change b
    (fun c hcb => ⟨same_update (absurd · hcb), rfl, ?_, le_rfl, fun _ _ _ => Iff.rfl, rfl, rfl⟩)
    ⟨fun _ hu => absurd hu (hn.not_untouched hl hpc), fun _ hd => ?_, fun _ hl' => ?_,
      fun q _ => .inl ?_, fun _ => ?_, fun _ => ?_⟩ fun d n => h.kept_of fun c => ?_
  · simp [Bio.modify, hcb]
  · simp [Bio.modify] at hd
  · rw [show s.lock b = none from hl'] at hl
    cases hl
  · simpa [Bio.modify] using hv
  · simpa [Bio.modify] using (h.buf b).named hv
  · simpa [Bio.modify] using hv
  · by_cases hcb : c = b
    · subst hcb
      simp [Bio.modify]
    · simp [Bio.modify, hcb]

theorem putBlock_self (disk : ℕ → Disk) (d n : ℕ) (data : Block) :
    putBlock disk d n data d n = data := by
  simp [putBlock]

theorem putBlock_of_ne (disk : ℕ → Disk) {d n d' n' : ℕ} (data : Block) (h : ¬(d' = d ∧ n' = n)) :
    putBlock disk d n data d' n' = disk d' n' := by
  by_cases hd : d' = d
  · subst hd
    have hn : n' ≠ n := fun hn => h ⟨rfl, hn⟩
    simp [putBlock, hn]
  · simp [putBlock, hd]

/-- What is put in the block of a valid buffer is seen by no other buffer, nor by blocks without
one. -/
theorem Named.putBlock_eq (hn : s.Named) (hdev : (s.buf b).dev ≠ 0) (disk : ℕ → Disk)
    (data : Block) {c : Bp} (hcb : c ≠ b) :
    putBlock disk (s.buf b).dev (s.buf b).blockno data (s.buf c).dev (s.buf c).blockno =
      disk (s.buf c).dev (s.buf c).blockno :=
  putBlock_of_ne _ _ fun hdn => hcb (hn.unique b c hdev hdn)

theorem putBlock_of_invalid (hv : (s.buf b).valid = true) (disk : ℕ → Disk) (data : Block)
    (hall : ∀ c, s.Carries c dev blockno → (s.buf c).valid = false) :
    putBlock disk (s.buf b).dev (s.buf b).blockno data dev blockno = disk dev blockno := by
  refine putBlock_of_ne _ _ fun hdn => ?_
  rw [hall b ⟨hdn.1.symm, hdn.2.symm⟩] at hv
  cases hv

theorem Faithful.bwrite (h : s.Faithful) (hn : s.Named) (hpc : s.pc p = .out)
    (hl : s.lock b = some p) : (s.bwrite b).Faithful := by
  have hv := h.valid hl hpc
  have hdev := (h.buf b).named hv
  refine h.change b
    (fun c hcb => ⟨⟨rfl, rfl, rfl, rfl⟩, rfl, ?_, le_rfl, fun _ _ _ => Iff.rfl, ?_, rfl⟩)
    ⟨(h.buf b).untouched, fun _ _ => (putBlock_self ..).symm, fun _ hl' => ?_, (h.buf b).held,
      fun _ => hdev, fun _ => hv⟩ fun d n hall => ?_
  · simp [Bio.bwrite, hcb]
  · exact hn.putBlock_eq hdev _ _ hcb
  · rw [show s.lock b = none from hl'] at hl
    cases hl
  · exact (putBlock_of_invalid hv _ _ hall).trans (h.kept d n hall)

theorem Faithful.brelse (h : s.Faithful) (hn : s.Named) (hpc : s.pc p = .out)
    (hl : s.lock b = some p) (hpromise : s.dirty b = true → 0 < s.pins b) :
    (s.brelse p b).Faithful := by
  have hv := h.valid hl hpc
  have hdev := (h.buf b).named hv
  refine h.change b (fun c hcb => ⟨⟨rfl, rfl, rfl, rfl⟩, ?_, rfl, le_rfl, ?_, rfl, ?_⟩)
    ⟨fun _ _ => (putBlock_self ..).symm, (h.buf b).clean, fun hd _ => hpromise hd, fun q hq => ?_,
    fun _ => hdev, fun _ => hv⟩ fun d n hall => ?_
  · simp [Bio.brelse, hcb]
  · exact reading_update (by simp [hpc]) (by simp)
  · exact hn.putBlock_eq hdev _ _ hcb
  · simp [Bio.brelse] at hq
  · exact (h.kept d n hall).trans (putBlock_of_invalid hv _ _ hall).symm

theorem Faithful.acquiresleep (h : s.Faithful) (hpc : s.pc p = .acquiring b dev blockno)
    (hlock : s.lock b = none) : (s.acquiresleep p b dev blockno).Faithful := by
  refine h.change b (fun c hcb => ⟨⟨rfl, rfl, rfl, rfl⟩, ?_, rfl, le_rfl, ?_, rfl, rfl⟩)
    ⟨fun hv _ => (h.buf b).untouched hv (.inl hlock), (h.buf b).clean, fun _ hl => ?_,
    fun q hl => .inr ?_, (h.buf b).named, (h.buf b).filled⟩ h.kept
  · simp [Bio.acquiresleep, hcb]
  · exact reading_update (by simp [hpc]) (by simp [Ne.symm hcb])
  · simp [Bio.acquiresleep] at hl
  · obtain rfl : p = q := by simpa [Bio.acquiresleep] using hl
    exact ⟨dev, blockno, by simp [Bio.acquiresleep]⟩

/-- **What the callers promise**: blocks of a real device, a `bpin` for every `bunpin`, and
that a buffer they changed is written before it is released, or stays pinned until it is. -/
def Promise (s : Bio N) : BioAction N → Prop
  | .bget _ dev _ => 1 ≤ dev
  | .brelse _ b => s.dirty b = true → 0 < s.pins b
  | .bunpin _ b => 0 < s.pins b ∧ (s.dirty b = true → s.lock b ≠ none ∨ 1 < s.pins b)
  | _ => True

instance (s : Bio N) : ∀ a, Decidable (Promise s a)
  | .bget _ dev _ => inferInstanceAs (Decidable (1 ≤ dev))
  | .brelse _ b => inferInstanceAs (Decidable (s.dirty b = true → 0 < s.pins b))
  | .bunpin _ b =>
    inferInstanceAs (Decidable (0 < s.pins b ∧ (s.dirty b = true → _ ∨ 1 < s.pins b)))
  | .acquiresleep _ | .bread _ | .modify .. | .bwrite .. | .unref _ | .bpin .. => isTrue trivial

theorem Faithful.step (h : s.Faithful) (hn : s.Named) (hc : s.Counted) (hp : Promise s a)
    (hs : Step s a s') : s'.Faithful := by
  have hsame (b : Bp) (r : UInt32) (c : Bp) : Same (update s.buf b { s.buf b with refcnt := r } c)
      (s.buf c) :=
    same_update fun _ => ⟨rfl, rfl, rfl, rfl⟩
  cases hs with
  | @hit p b dev blockno hpc hcar =>
    exact h.of_unseen
      (fun c => ⟨hsame b _ c, rfl, rfl, le_rfl, reading_update (by simp [hpc]) (by simp), rfl, rfl⟩)
      rfl rfl
  | recycle hpc hno hfree => exact h.recycle hc hpc hfree
  | acquiresleep hpc hlock => exact h.acquiresleep hpc hlock
  | bread hpc => exact h.bread hn hpc
  | modify hpc hlock => exact h.modify hn hpc hlock _
  | bwrite hpc hlock => exact h.bwrite hn hpc hlock
  | brelse hpc hlock => exact h.brelse hn hpc hlock hp
  | @unref p b hpc =>
    exact h.of_unseen
      (fun c => ⟨hsame b _ c, rfl, rfl, le_rfl, reading_update (by simp [hpc]) (by simp), rfl, rfl⟩)
      rfl rfl
  | @bpin p b hpc =>
    refine h.of_unseen (fun c => ⟨hsame b _ c, rfl, rfl, ?_, fun _ _ _ => Iff.rfl, rfl, rfl⟩) rfl
      rfl
    by_cases hcb : c = b
    · subst hcb
      simp [Bio.bpin]
    · simp [Bio.bpin, hcb]
  | @bunpin p b hpc =>
    have hb := h.buf b
    obtain ⟨hvalid, hdev, hblockno, hdata⟩ := hsame b ((s.buf b).refcnt - 1) b
    refine h.change b (fun c hcb => ⟨hsame b _ c, rfl, rfl, ?_, fun _ _ _ => Iff.rfl, rfl, rfl⟩) ?_
      ?_
    · simp [Bio.bunpin, hcb]
    · refine FaithfulAt.mk ?_ ?_ (fun hd hl => ?_) ?_ ?_ ?_ <;> simp only
        [Bio.bunpin, hvalid, hdev, hblockno, hdata]
      · exact hb.untouched
      · exact hb.clean
      · have := (hp.2 hd).resolve_left (not_not.2 hl)
        simp only [update_self]
        omega
      · exact hb.held
      · exact hb.named
      · exact hb.filled
    · exact fun d n => h.kept_of fun c =>
        ⟨(hsame b _ c).2.1, (hsame b _ c).2.2.1, fun hv => (hsame b _ c).1 ▸ hv⟩

structure Inv (s : Bio N) : Prop where
  circle : s.Circle
  counted : s.Counted
  named : s.Named
  faithful : s.Faithful

theorem inv_binit (disk : ℕ → Disk) : (binit N disk).Inv :=
  ⟨circle_binit disk, counted_binit disk, named_binit disk, faithful_binit disk⟩

theorem Inv.step (h : s.Inv) (hfew : s.Few) (hp : Promise s a) (hs : s.step a = some s') :
    s'.Inv := by
  have hstep := step_cases h.circle hs
  refine ⟨h.circle.step hstep, h.counted.step hfew ?_ hstep, h.named.step h.counted ?_ hstep,
    h.faithful.step h.named h.counted hp hstep⟩
  · rintro p b rfl
    exact hp.1
  · rintro p dev blockno rfl
    exact Nat.one_le_iff_ne_zero.1 hp

end Bio

/-- **The buffer cache is correct**, in every run in which the callers keep their promises
and no buffer has as many as `2 ^ 32 - 1` references.  The links make one circle of the head
and each buffer once; a block of a device has at most one buffer; a buffer with
references is not given to another block; and `bread` returns a buffer of the block that
was asked for, locked and holding the data that the last holder of the block left, or what
was on the disk at the start. -/
theorem bcache_correct {disk : ℕ → Disk} {s : Bio N}
    (h : Reach Bio.step (fun s a => Bio.Promise s a ∧ s.Few) (Bio.binit N disk) s) :
    (∃ l, Linked s.links l ∧ l.length = NBUF ∧ ∀ b, b ∈ l) ∧
      (∀ b b' dev blockno, 1 ≤ dev → s.Carries b dev blockno → s.Carries b' dev blockno → b = b') ∧
      (∀ a s' b dev blockno, s.step a = some s' → (s.buf b).refcnt ≠ 0 → s.Carries b dev blockno →
        s'.Carries b dev blockno) ∧
      ∀ p b dev blockno, s.pc p = .reading b dev blockno → ∃ s', s.step (.bread p) = some s' ∧
        s'.Carries b dev blockno ∧ s'.lock b = some p ∧ (s'.buf b).data = s.left dev blockno := by
  have hinv : s.Inv := h.invariant (I := Bio.Inv) (Bio.inv_binit disk) fun _ _ _ hi hok hs =>
    hi.step hok.2 hok.1 hs
  refine ⟨?_, ?_, ?_, ?_⟩
  · obtain ⟨l, hl, hmem⟩ := hinv.circle
    have hlen : NBUF ≤ l.length := by
      have huniv : l.toFinset = Finset.univ := Finset.eq_univ_iff_forall.2 fun b => by
        simpa using hmem b
      have hcard := l.toFinset_card_le
      rwa [huniv, Finset.card_univ, Fintype.card_fin] at hcard
    exact ⟨l, hl, le_antisymm (Bio.length_le_of_linked hl) hlen, hmem⟩
  · rintro b b' dev blockno hdev ⟨rfl, rfl⟩ hb'
    exact (hinv.named.unique b b' (Nat.one_le_iff_ne_zero.1 hdev) hb').symm
  · intro a s' b dev blockno hs hb hcar
    exact ((Bio.step_cases hinv.circle hs).carries hb).2 hcar
  · intro p b dev blockno hpc
    obtain ⟨⟨rfl, rfl⟩, hlock⟩ := hinv.named.reading p b dev blockno hpc
    refine ⟨s.bread p b, by simp [Bio.step, hpc], ?_, hlock, ?_⟩
    · simp [Bio.Carries, Bio.bread]
    simp only [Bio.bread, update_self]
    split_ifs with hv
    · exact (hinv.faithful.buf b).untouched hv (.inr ⟨p, _, _, hpc⟩)
    · refine hinv.faithful.kept _ _ fun c hc => ?_
      have hcb : c = b := hinv.named.unique b c (hinv.named.locked b (by rw [hlock]; simp)) hc
      subst hcb
      simpa using hv

instance (s : Bio N) : Decidable s.Few :=
  inferInstanceAs (Decidable (∀ b, s.users b + s.pins b + 1 < 2 ^ 32))

theorem bcache_correct_block : ∃ s : Bio 1,
    Reach Bio.step (fun s a => Bio.Promise s a ∧ s.Few) (Bio.binit 1 fun _ _ _ => 5) s ∧
    s.pc 0 = .reading 0 1 7 ∧ ∃ s', s.step (.bread 0) = some s' ∧ s'.Carries 0 1 7 ∧
      s'.lock 0 = some 0 ∧ (s'.buf 0).data = s.left 1 7 := by
  have hrun : (run Bio.step (fun s a => Bio.Promise s a ∧ s.Few) (Bio.binit 1 fun _ _ _ => 5)
      [.bget 0 1 7, .acquiresleep 0]).map (fun s => s.pc 0) = some (.reading 0 1 7) := by
    decide +kernel
  obtain ⟨s, hs, hpc⟩ := exists_reach_of_run hrun
  exact ⟨s, hs, hpc, (bcache_correct hs).2.2.2 0 0 1 7 hpc⟩

/-! ### A count that wraps -/

theorem reach_bpins {s : Bio N} {p : Fin N} (hpc : s.pc p = .out) (b : Bp) (k : ℕ) :
    Reach Bio.step Bio.Promise s { s with
        buf := update s.buf b { s.buf b with refcnt := (s.buf b).refcnt + UInt32.ofNat k }
        pins := update s.pins b (s.pins b + k) } := by
  induction k with
  | zero =>
    rw [show UInt32.ofNat 0 = 0 from rfl, UInt32.add_zero, Nat.add_zero, update_eq_self,
      update_eq_self]
  | succ k ih =>
    refine ih.tail ⟨.bpin p b, trivial, ?_⟩
    simp only [Bio.step, hpc, if_true, Bio.bpin, update_self, update_idem,
      UInt32.ofNat_add, UInt32.add_assoc, Nat.add_assoc]
    rfl

def pinnedOut (s : Bio N) (b : Bp) : Bio N := { s with pins := update s.pins b (s.pins b + 2 ^ 32) }

theorem reach_pinnedOut {s : Bio N} {p : Fin N} (hpc : s.pc p = .out) (b : Bp) :
    Reach Bio.step Bio.Promise s (pinnedOut s b) := by
  have h := reach_bpins hpc b (2 ^ 32)
  have hzero : UInt32.ofNat (2 ^ 32) = 0 := by decide
  rw [hzero, UInt32.add_zero, update_eq_self] at h
  exact h

def readBlock (blockno : ℕ) : List (BioAction 1) := [.bget 0 1 blockno, .acquiresleep 0, .bread 0]

def changeBlock : List (BioAction 1) := readBlock 7 ++ [.modify 0 0 fun _ => 1]

/-- Release it, read as many other blocks as there are buffers, and ask for it again. -/
def rereadBlock : List (BioAction 1) :=
  [.brelse 0 0, .unref 0] ++ (List.range 30).flatMap (fun k => readBlock (100 + k)) ++
    [.brelse 0 0, .unref 0, .bget 0 1 7, .acquiresleep 0]

/-- **A reference count wraps.**  The one process reads block 7, changes it, pins it `2 ^ 32`
times and releases it.  Its reference count is then `0`, the buffer is recycled, and the
process reads the old contents from the disk. -/
theorem pins_wrap : ∃ s : Bio 1, Reach Bio.step Bio.Promise (Bio.binit 1 fun _ _ _ => 0) s ∧
    s.pc 0 = .reading 0 1 7 ∧ 0 < s.left 1 7 0 ∧
    ∃ s', s.step (.bread 0) = some s' ∧ (s'.buf 0).data ≠ s.left 1 7 := by
  have hrun : ((run Bio.step Bio.Promise (Bio.binit 1 fun _ _ _ => 0) changeBlock).bind fun s =>
      if s.pc 0 = .out then run Bio.step Bio.Promise (pinnedOut s 0) rereadBlock else none).map
      (fun s => (s.pc 0, s.left 1 7 0, ((s.bread 0 0).buf 0).data 0)) =
      some (.reading 0 1 7, 1, 0) := by decide +kernel
  obtain ⟨s, hs, hv⟩ := Option.map_eq_some_iff.1 hrun
  obtain ⟨s₁, hs₁, hs⟩ := Option.bind_eq_some_iff.1 hs
  split_ifs at hs with hpc
  simp only [Prod.mk.injEq] at hv
  obtain ⟨hpc', hleft, hdata⟩ := hv
  refine ⟨s, ((reach_of_run hs₁).trans (reach_pinnedOut hpc 0)).trans (reach_of_run hs), hpc', ?_,
    s.bread 0 0, by simp [Bio.step, hpc'], fun he => ?_⟩
  · rw [hleft]
    decide
  · rw [he, hleft] at hdata
    exact absurd hdata (by decide)

end Xv6
