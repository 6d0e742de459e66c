/-
# Reference counts after recovery

`install_trans` ends with `bunpin`: a commit has pinned its blocks, a recovery has not.  So after a
boot that finds a committed transaction the count of each block it copies is `2 ^ 32 - 1`
(`recovery_wraps`); after one that finds an empty log the counts are exact (`refcnts_exact`).
-/

import Xv6.Bio.SysInv
import Xv6.Log.Admission
import Xv6.Fs.Image

namespace Xv6

open Lib Function

variable {N : ℕ} {α : Type} {disk : ℕ → Disk} {a : SysAction N}

/-! ### Recovery -/

namespace Code

variable (log : Log.Region)

def installTransFrom : ℕ → List ℕ → Code Unit
  | _, [] => .pure ()
  | tail, n :: ns => do
    installTrans log tail n
    installTransFrom (tail + 1) ns

def recoverFromLog : Code Unit := .bread log.start fun buf data => .brelse buf <| do
    installTransFrom log 0 (Log.headBlocks data)
    writeHead log [] (.pure ())

end Code

namespace Bio

def breadAll (s : Bio N) (p : Fin N) (n : ℕ) : Option (Bp × Bio N) :=
  (s.step (.bget p ROOTDEV n)).bind fun s => (s.step (.acquiresleep p)).bind fun s =>
    match s.pc p with
    | .reading b _ _ => some (b, s.bread p b)
    | _ => none

/-- Process `p` runs a routine of recovery, and no other process runs. -/
def exec (p : Fin N) : Code α → Bio N → Option (α × Bio N)
  | .pure a, s => some (a, s)
  | .bread n k, s => (s.breadAll p n).bind fun r => exec p (k r.1 (r.2.buf r.1).data) r.2
  | .update b f k, s => (s.step (.modify p b (f (s.buf b).data))).bind fun s => exec p k s
  | .bwrite b k, s => (s.step (.bwrite p b)).bind fun s => exec p k s
  | .brelse b k, s =>
    (s.step (.brelse p b)).bind fun s => (s.step (.unref p)).bind fun s => exec p k s
  | .bunpin b k, s => (s.step (.bunpin p b)).bind fun s => exec p k s
  | .logWrite _ _, _ | .commit _, _ | .panic, _ => none

/-- `initlog`, run by process `p` on a buffer cache that `binit` has just set up. -/
def initlog (log : Log.Region) (p : Fin N) (disk : ℕ → Disk) : Option (Bio N) :=
  (exec p (Code.recoverFromLog log) (binit N disk)).map Prod.snd

/-- Nobody uses the buffer cache, and it agrees with the disk. -/
structure Rest (s : Bio N) : Prop where
  inv : s.Inv
  lock : ∀ b, s.lock b = none
  pc : ∀ p, s.pc p = .out
  pins : ∀ b, s.pins b = 0
  dirty : ∀ b, s.dirty b = false

/-- Process `p` holds buffer `b`, and nobody uses any other. -/
structure Holds (s : Bio N) (p : Fin N) (b : Bp) : Prop where
  inv : s.Inv
  lock : s.lock b = some p
  free : ∀ c, c ≠ b → s.lock c = none
  pc : ∀ p, s.pc p = .out
  pins : ∀ b, s.pins b = 0
  clean : ∀ c, c ≠ b → s.dirty c = false

variable {s s' : Bio N} {p : Fin N} {b : Bp} {n : ℕ}

theorem rest_binit (disk : ℕ → Disk) : (binit N disk).Rest :=
  ⟨inv_binit disk, fun _ => rfl, fun _ => rfl, fun _ => rfl, fun _ => rfl⟩

theorem users_eq_zero (hlock : s.lock b = none) (hpc : ∀ p, s.pc p = .out) : s.users b = 0 := by
  simp [users, hlock, hpc, BioPc.refs]

theorem Rest.refcnt (h : s.Rest) (b : Bp) : (s.buf b).refcnt = 0 := by
  have := h.inv.counted b
  rw [users_eq_zero (h.lock b) h.pc, h.pins b] at this
  exact UInt32.toNat.inj this

theorem few_of_pins (hN : N ≤ NPROC) (h : ∀ b, s.pins b = 0) : s.Few := by
  intro b
  have := s.users_le b
  rw [h b]
  simp only [NPROC] at hN
  omega

theorem Rest.bread (h : s.Rest) (hN : N ≤ NPROC) (p : Fin N) (n : ℕ) :
    ∃ b s', s.breadAll p n = some (b, s') ∧ s'.Holds p b ∧ s'.dirty b = false ∧
    (s'.buf b).data = s.disk ROOTDEV n := by
  have hbget : ∃ b s₁, s.step (.bget p ROOTDEV n) = some s₁ ∧ s₁.lock = s.lock ∧ s₁.pins = s.pins ∧
      s₁.dirty = s.dirty ∧ s₁.disk = s.disk ∧
      s₁.pc = update s.pc p (.acquiring b ROOTDEV n) := by
    simp only [step, h.pc p, if_true, bget]
    cases s.cached ROOTDEV n with
    | some b => exact ⟨b, _, rfl, rfl, rfl, rfl, rfl, rfl⟩
    | none =>
      cases hu : s.unused with
      | none => exact absurd (h.refcnt 0) (h.inv.circle.refcnt_ne_of_unused hu 0)
      | some b => exact ⟨b, _, rfl, rfl, rfl, rfl, rfl, rfl⟩
  obtain ⟨b, s₁, hs₁, hlock, hpins, hdirty, hdisk, hpc⟩ := hbget
  have hinv₁ := h.inv.step (a := .bget p ROOTDEV n) (few_of_pins hN h.pins) (Nat.le_refl 1) hs₁
  have hpc₁ : s₁.pc p = .acquiring b ROOTDEV n := by rw [hpc, update_self]
  have hs₂ : s₁.step (.acquiresleep p) = some (s₁.acquiresleep p b ROOTDEV n) := by
    simp only [step, hpc₁, hlock, h.lock b, if_true]
  have hpins₁ : ∀ b, s₁.pins b = 0 := hpins ▸ h.pins
  have hinv₂ := hinv₁.step (a := .acquiresleep p) (few_of_pins hN hpins₁) trivial hs₂
  have hpc₂ : (s₁.acquiresleep p b ROOTDEV n).pc p = .reading b ROOTDEV n := update_self ..
  have hs₃ : (s₁.acquiresleep p b ROOTDEV n).step (.bread p) =
      some ((s₁.acquiresleep p b ROOTDEV n).bread p b) := by simp only [step, hpc₂]
  have hinv₃ := hinv₂.step (a := .bread p) (few_of_pins hN hpins₁) trivial hs₃
  refine ⟨b, (s₁.acquiresleep p b ROOTDEV n).bread p b, ?_, ⟨hinv₃, update_self .., fun c hcb => ?_,
    fun q => ?_, hpins₁, fun c _ => ?_⟩, ?_, ?_⟩
  · simp only [breadAll, hs₁, hs₂, Option.bind_some, hpc₂]
  · refine (update_of_ne hcb ..).trans ?_
    rw [hlock]
    exact h.lock c
  · by_cases hq : q = p
    · subst hq
      exact update_self ..
    · refine (update_of_ne hq ..).trans ((update_of_ne hq ..).trans ?_)
      rw [hpc, update_of_ne hq]
      exact h.pc q
  · exact (congrFun hdirty c).trans (h.dirty c)
  · exact (congrFun hdirty b).trans (h.dirty b)
  · obtain ⟨hcar, -⟩ := hinv₂.named.reading p b ROOTDEV n hpc₂
    have hnames := (Step.bread (s := s₁.acquiresleep p b ROOTDEV n) hpc₂).names_of_ne_bget (by simp)
    have hcar' := (hnames b _ _).2 hcar
    have hvalid : (((s₁.acquiresleep p b ROOTDEV n).bread p b).buf b).valid = true := by
      simp [Bio.bread]
    rw [(hinv₃.faithful.buf b).clean hvalid ((congrFun hdirty b).trans (h.dirty b)),
      hcar'.1, hcar'.2]
    exact congrFun (congrFun hdisk _) _

theorem Holds.modify (h : s.Holds p b) (hN : N ≤ NPROC) (data : Block) :
    ∃ s', s.step (.modify p b data) = some s' ∧ s'.Holds p b := by
  have hs : s.step (.modify p b data) = some (s.modify b data) := by simp [step, h.pc, h.lock]
  refine ⟨_, hs, h.inv.step (a := .modify p b data) (few_of_pins hN h.pins) trivial hs, h.lock,
    h.free, h.pc, h.pins, fun c hcb => ?_⟩
  exact (update_of_ne hcb ..).trans (h.clean c hcb)

theorem Holds.bwrite (h : s.Holds p b) (hN : N ≤ NPROC) :
    ∃ s', s.step (.bwrite p b) = some s' ∧ s'.Holds p b ∧ s'.dirty b = false := by
  have hs : s.step (.bwrite p b) = some (s.bwrite b) := by simp [step, h.pc, h.lock]
  refine ⟨_, hs, ⟨h.inv.step (a := .bwrite p b) (few_of_pins hN h.pins) trivial hs, h.lock, h.free,
    h.pc, h.pins, fun c hcb => ?_⟩, update_self ..⟩
  exact (update_of_ne hcb ..).trans (h.clean c hcb)

theorem Holds.brelse (h : s.Holds p b) (hN : N ≤ NPROC) (hclean : s.dirty b = false) :
    ∃ s', (s.step (.brelse p b)).bind (fun s => s.step (.unref p)) = some s' ∧ s'.Rest := by
  have hs₁ : s.step (.brelse p b) = some (s.brelse p b) := by simp [step, h.pc, h.lock]
  have hinv₁ := h.inv.step (a := .brelse p b) (few_of_pins hN h.pins)
    (by simp [Promise, hclean]) hs₁
  have hpc₁ : (s.brelse p b).pc p = .releasing b := update_self ..
  have hs₂ : (s.brelse p b).step (.unref p) = some ((s.brelse p b).unref p b) := by
    simp only [step, hpc₁]
  have hinv₂ := hinv₁.step (a := .unref p) (few_of_pins hN h.pins) trivial hs₂
  refine ⟨_, by rw [hs₁, Option.bind_some, hs₂], hinv₂, fun c => ?_, fun q => ?_, h.pins,
    fun c => ?_⟩
  · by_cases hcb : c = b
    · subst hcb
      exact update_self ..
    · exact (update_of_ne hcb ..).trans (h.free c hcb)
  · by_cases hq : q = p
    · subst hq
      exact update_self ..
    · exact (update_of_ne hq ..).trans ((update_of_ne hq ..).trans (h.pc q))
  · by_cases hcb : c = b
    · subst hcb
      exact hclean
    · exact h.clean c hcb

theorem exists_initlog (log : Log.Region) (hN : N ≤ NPROC) (p : Fin N)
    (hn : Log.headN (disk ROOTDEV log.start) = 0) : ∃ s, initlog log p disk = some s ∧ s.Rest := by
  obtain ⟨b, s₁, hs₁, hh₁, hd₁, hdata⟩ := (rest_binit disk).bread hN p log.start
  obtain ⟨s₂, hs₂, hr₂⟩ := hh₁.brelse hN hd₁
  obtain ⟨c, s₃, hs₃, hh₃, -, -⟩ := hr₂.bread hN p log.start
  obtain ⟨s₄, hs₄, hh₄⟩ := hh₃.modify hN (Log.putHead (s₃.buf c).data [])
  obtain ⟨s₅, hs₅, hh₅, hd₅⟩ := hh₄.bwrite hN
  obtain ⟨s₆, hs₆, hr₆⟩ := hh₅.brelse hN hd₅
  refine ⟨s₆, ?_, hr₆⟩
  have hblocks : Log.headBlocks (s₁.buf b).data = [] := by
    rw [hdata, Log.headBlocks, show Log.headN ((binit N disk).disk ROOTDEV log.start) = 0 from hn]
    rfl
  have hhead : exec p (Code.writeHead log [] (.pure ())) s₂ = some ((), s₆) := by
    simp only [Code.writeHead, exec, hs₃, Option.bind_some, hs₄, hs₅]
    rw [← Option.bind_assoc, hs₆]
    rfl
  simp only [initlog, Code.recoverFromLog, exec, hs₁, Option.bind_some, hblocks]
  rw [← Option.bind_assoc, hs₂, Option.bind_some]
  exact congrArg (Option.map Prod.snd) hhead

theorem rest_of_initlog {log : Log.Region} (hN : N ≤ NPROC)
    (hn : Log.headN (disk ROOTDEV log.start) = 0) (hs : initlog log p disk = some s) : s.Rest := by
  obtain ⟨s', hs', hrest⟩ := exists_initlog log hN p hn
  rw [hs] at hs'
  cases hs'
  exact hrest

end Bio

/-! ### From boot on -/

namespace Sys

/-- The calls that processes make are calls of the file system, whose sources are in `src`. -/
def Calls (sb : Superblock) (src : Source → Prop) (_ : Sys N) : SysAction N → Prop
  | .call _ _ c => FsCode sb src c
  | .run _ => True

variable {logged : Bool} {log : Log.Region} {sb : Superblock} {src : Source → Prop} {s s' : Sys N}
  {bio : Bio N}

theorem follows_boot (h : bio.Rest) (p : Fin N) : Follows logged (boot bio) p Known.none := by
  have hnone : ∀ {b i}, Known.none b ≠ some i := Option.some_ne_none _ ∘ Eq.symm
  refine .of_out (h.pc p) (fun b i hi => absurd hi hnone) (fun b hl => ?_) (fun c hc => ?_)
    (fun _ => rfl) (fun _ => rfl) (by simp) (fun n used hn => ?_) fun _ b i hi => absurd hi hnone
  · cases (h.lock b).symm.trans hl
  · cases hc
  · cases hn

theorem inv_boot (h : bio.Rest) : Inv logged (boot bio) where
  circle := h.inv.circle
  counted := h.inv.counted
  named := h.inv.named
  faithful _ := h.inv.faithful
  isolated := Log.isolated_init _
  pinned :=
    ⟨fun b => (congrArg Nat.cast (h.pins b)).trans (ite_self 0).symm, fun _ hn => absurd rfl hn⟩
  follows p := ⟨_, follows_boot h p⟩

theorem starts_of_calls (hsrc : logged = true → ∀ s, src s → s.AllOrNothing)
    (ha : Calls sb src s a) : Starts logged a := by
  cases a with
  | call p inOp c => exact FsCode.keeps ha hsrc
  | run p => trivial

/-- **The invariant holds from boot on**, and of changed buffers too where a user copy that
fails copies nothing. -/
theorem inv_of_reach (hN : N ≤ NPROC) (hsrc : logged = true → ∀ s, src s → s.AllOrNothing)
    (hbio : bio.Rest) (h : Reach (step log) (Calls sb src) (boot bio) s) : Inv logged s :=
  h.invariant (I := Inv logged) (inv_boot hbio) fun _ _ _ hi ha hs =>
    hi.step hN (starts_of_calls hsrc ha) hs

/-- A buffer and its block, if it is listed and `install_trans` has not been there. -/
theorem Inv.refcnt_cases (h : Inv logged s) (b : Bp) : (s.bio.buf b).refcnt.toNat = s.bio.users b ∨
      s.bio.Carries b ROOTDEV (s.bio.buf b).blockno ∧ (s.bio.buf b).blockno ∈ s.log.lh ∧
        (s.bio.buf b).refcnt.toNat = s.bio.users b + 1 := by
  have hc := h.counted b
  have hp := h.pinned.pins b
  split_ifs at hp with hdev
  · rcases h.isolated.pins_eq (s.bio.buf b).blockno with hzero | ⟨hmem, hone⟩
    · exact .inl (by omega)
    · exact .inr ⟨⟨hdev, rfl⟩, hmem, by omega⟩
  · exact .inl (by omega)

theorem Inv.refcnt_open (h : Inv logged s) (hopen : s.log.committing = false) (b : Bp) :
    (s.bio.buf b).refcnt.toNat = s.bio.users b +
      if (s.bio.buf b).dev = ROOTDEV ∧ (s.bio.buf b).blockno ∈ s.log.lh then 1 else 0 := by
  have hc := h.counted b
  have hp := h.pinned.pins b
  have hg := h.isolated.pinned hopen (s.bio.buf b).blockno
  by_cases hdev : (s.bio.buf b).dev = ROOTDEV
  · by_cases hmem : (s.bio.buf b).blockno ∈ s.log.lh
    · rw [if_pos hdev, hg, if_pos hmem] at hp
      rw [if_pos ⟨hdev, hmem⟩]
      omega
    · rw [if_pos hdev, hg, if_neg hmem] at hp
      rw [if_neg fun h => hmem h.2]
      omega
  · rw [if_neg hdev] at hp
    rw [if_neg fun h => hdev h.1]
    omega

theorem Inv.carries (h : Inv logged s) (hs : s.step log a = some s') {b : Bp}
    (hb : (s.bio.buf b).refcnt ≠ 0) (dev n : ℕ) :
    s'.bio.Carries b dev n ↔ s.bio.Carries b dev n := by
  rcases (step_cases h.circle hs).bio with hbio | ⟨a', hstep⟩
  · rw [hbio]
  · exact hstep.carries hb

end Sys

/-- **Reference counts are exact after a clean boot.**  If the header that `initlog` finds
lists no block, it returns with every count at 0.  From then on, over any run of file system
calls of up to `NPROC` processes, the count of a buffer is the number of processes that hold
or wait for it, plus 1 if its block is in `log.lh`; while a commit runs, which drops those
references one by one and then empties `log.lh`, a listed block has that 1 or has lost it.
And no step gives a buffer in use to another block. -/
theorem refcnts_exact (log : Log.Region) (sb : Superblock) (hN : N ≤ NPROC) (p : Fin N)
    (disk : ℕ → Disk) (hn : Log.headN (disk ROOTDEV log.start) = 0) :
    ∃ bio, Bio.initlog log p disk = some bio ∧ (∀ b, (bio.buf b).refcnt = 0) ∧
      ∀ s, Reach (Sys.step log) (Sys.Calls sb fun _ => True) (Sys.boot bio) s →
        (s.log.committing = false → ∀ b, (s.bio.buf b).refcnt.toNat = s.bio.users b +
          if (s.bio.buf b).dev = ROOTDEV ∧ (s.bio.buf b).blockno ∈ s.log.lh then 1 else 0) ∧
        (∀ b, (s.bio.buf b).refcnt.toNat = s.bio.users b ∨
          (s.bio.buf b).blockno ∈ s.log.lh ∧ (s.bio.buf b).refcnt.toNat = s.bio.users b + 1) ∧
        ∀ a s' b dev n, s.step log a = some s' → 0 < s.bio.users b →
          (s'.bio.Carries b dev n ↔ s.bio.Carries b dev n) := by
  obtain ⟨bio, hbio, hrest⟩ := Bio.exists_initlog log hN p hn
  refine ⟨bio, hbio, hrest.refcnt, fun s h => ?_⟩
  have hinv : Sys.Inv false s := Sys.inv_of_reach hN (by simp) hrest h
  refine ⟨hinv.refcnt_open, fun b => (hinv.refcnt_cases b).imp_right And.right, ?_⟩
  intro a s' b dev n hs hb
  refine hinv.carries hs (fun hzero => ?_) dev n
  have hc := hinv.counted b
  rw [hzero, UInt32.toNat_zero] at hc
  omega

/-- A disk full of zeros. -/
def blank : ℕ → Disk := fun _ _ _ => 0

def fileAt (b : UInt32) : Dinode :=
  { Dinode.fresh T_FILE with nlink := 1, size := 1024, addrs := fun i => if i.val =
    0 then b else 0 }

/-- User memory that is mapped, and full of sevens. -/
def sevens : Source where
  copyin _ m := (List.replicate m 7, true)
  length_le := by simp
  length_ok := by simp

def writeSevens : Code Unit := writeCall mkfsSb 2 sevens 0 2 (fileAt 50)

def callAndRun (p : Fin N) (inOp : Bool) (c : Code Unit) (k : ℕ) : List (SysAction N) :=
  .call p inOp c :: List.replicate k (.run p)

/-- What `f` sees when one call of `p` after a boot has taken `k` steps. -/
def seenAfter (p : Fin 1) (inOp : Bool) (c : Code Unit) (k : ℕ) (f : Sys 1 → α) : Option α :=
  (Bio.initlog Log.mkfsLog p blank).bind fun bio =>
    (run (Sys.step Log.mkfsLog) (fun _ _ => True) (Sys.boot bio) (callAndRun p inOp c k)).map f

theorem exists_reach_call {src : Source → Prop} {inOp : Bool} {c : Code Unit} {k : ℕ}
    {f : Sys 1 → α} {v : α} (hc : FsCode mkfsSb src c) (h : seenAfter 0 inOp c k f = some v) :
    ∃ bio s, Bio.initlog (N := 1) Log.mkfsLog 0 blank = some bio ∧
      Reach (Sys.step Log.mkfsLog) (Sys.Calls mkfsSb src) (Sys.boot bio) s ∧ f s = v := by
  obtain ⟨bio, hbio, hrun⟩ := Option.bind_eq_some_iff.1 h
  obtain ⟨s, hs, hv⟩ := Option.map_eq_some_iff.1 hrun
  refine ⟨bio, s, hbio, reach_of_actions (fun a ha _ _ => ?_) hs, hv⟩
  rcases List.mem_cons.1 ha with rfl | ha
  · exact hc
  · rw [List.eq_of_mem_replicate ha]
    trivial

/-- A write has changed block 50 and holds its buffer: one reference is its own, the other the
log's. -/
theorem refcnts_exact_write : ∃ bio s, Bio.initlog (N := 1) Log.mkfsLog 0 blank = some bio ∧
    Reach (Sys.step Log.mkfsLog) (Sys.Calls mkfsSb fun _ => True) (Sys.boot bio) s ∧
    (s.bio.buf 1).blockno ∈ s.log.lh ∧ (s.bio.buf 1).refcnt = 2 ∧ s.bio.users 1 = 1 := by
  have hrun : seenAfter 0 true writeSevens 7 (fun s =>
      (s.log.committing, s.log.lh, (s.bio.buf 1).dev, (s.bio.buf 1).blockno,
        (s.bio.buf 1).refcnt)) =
      some (false, [50], ROOTDEV, 50, 2) := by decide +kernel
  have hcode : FsCode mkfsSb (fun _ => True) writeSevens :=
    fsCode_writeCall trivial 2 0 2 (fileAt 50)
  obtain ⟨bio, s, hbio, hs, hv⟩ := exists_reach_call hcode hrun
  simp only [Prod.mk.injEq] at hv
  obtain ⟨hopen, hlh, hdev, hblock, href⟩ := hv
  have hmem : (s.bio.buf 1).blockno ∈ s.log.lh := by simp [hlh, hblock]
  obtain ⟨bio', hbio', -, hexact⟩ :=
    refcnts_exact (N := 1) Log.mkfsLog mkfsSb (by decide) 0 blank (by decide +kernel)
  obtain rfl := Option.some.inj (hbio.symm.trans hbio')
  have hcount := (hexact s hs).1 hopen 1
  rw [if_pos ⟨hdev, hmem⟩, href] at hcount
  exact ⟨bio, s, hbio, hs, hmem, href, Nat.succ.inj hcount.symm⟩

/-- A disk whose log holds a committed transaction of one block, block 50. -/
def oneBlockLog : ℕ → Disk := fun _ n o =>
  if n = 2 ∧ o = 0 then 1 else if n = 2 ∧ o = 4 then 50 else 0

/-- **Recovery unpins what nobody pinned.**  After `initlog` has copied block 50 home, the count
of its buffer is `2 ^ 32 - 1`. -/
theorem recovery_wraps : Log.headN (oneBlockLog ROOTDEV Log.mkfsLog.start) = 1 ∧
    ∃ s, Bio.initlog (N := 1) Log.mkfsLog 0 oneBlockLog = some s ∧ s.Carries 2 ROOTDEV 50 ∧
      (s.buf 2).refcnt = 4294967295 := by
  have hrun : (Bio.initlog (N := 1) Log.mkfsLog 0 oneBlockLog).map (fun s =>
      ((s.buf 2).dev, (s.buf 2).blockno, (s.buf 2).refcnt)) = some (ROOTDEV, 50, 4294967295) := by
    decide +kernel
  obtain ⟨s, hs, hv⟩ := Option.map_eq_some_iff.1 hrun
  simp only [Prod.mk.injEq] at hv
  exact ⟨by decide +kernel, s, hs, ⟨hv.1, hv.2.1⟩, hv.2.2⟩

end Xv6
