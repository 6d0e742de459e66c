/-
# The descriptors that the shell counts on

`Xv6.Sh.Run` has a small table of descriptors of its own for `runcmd`.  Read through what each
struct file stands for (`Proc.fds`), the kernel's tables, whose calls can fail halfway, go as the
shell's, and a call changes no table but the caller's.
-/

import Xv6.Kernel.Between
import Xv6.Sh.Run

namespace Xv6

open Lib Function

variable {b : Board} {sb : Superblock} {K : Multiset ℕ} {P : Finset ℕ} {s s' : Kernel}
  {p q : Pp} {W : Type} {μ : Fp → Sh.Target W} {f : Fp} {E : Halt → Prop}

/-- The table of a process, where the struct file `f` stands for `μ f`. -/
def Proc.fds (pr : Proc) (μ : Fp → Sh.Target W) : Sh.Fds W :=
  fun fd => if h : fd < NOFILE then (pr.ofile ⟨fd, h⟩).map μ else none

theorem Proc.fds_val (pr : Proc) (fd : Fin NOFILE) : pr.fds μ fd = (pr.ofile fd).map μ :=
  dif_pos fd.isLt

theorem Proc.fds_update (pr : Proc) (h : ∀ fd, pr.ofile fd ≠ some f) (t : Sh.Target W) :
    pr.fds (update μ f t) = pr.fds μ := by
  funext fd
  unfold Proc.fds
  split_ifs with hlt
  · cases ho : pr.ofile ⟨fd, hlt⟩ with
    | none => rfl
    | some g => simp [update_of_ne fun hg : g = f => h _ (hg ▸ ho)]
  · rfl

theorem fds_setFd (proc : Pp → Proc) (fd : Fin NOFILE) (v : Option Fp) :
    (setFd proc p fd v p).fds μ = update ((proc p).fds μ) fd (v.map μ) := by
  have hof : (setFd proc p fd v p).ofile = update (proc p).ofile fd v := by rw [setFd_self]
  funext e
  by_cases he : e = fd
  · subst he
    rw [update_self, Proc.fds_val, hof, update_self]
  · rw [update_of_ne he]
    unfold Proc.fds
    split_ifs with hlt
    · rw [hof, update_of_ne fun h => he (congrArg Fin.val h)]
    · rfl

/-- **The first free descriptor is the same in both tables.** -/
theorem fdalloc_fds (pr : Proc) (t : Sh.Target W) : Sh.fdalloc (pr.fds μ) t =
    ((List.finRange NOFILE).find? fun fd => decide (pr.ofile fd = none)).map fun fd : Fin NOFILE =>
      (fd.val, update (pr.fds μ) fd (some t)) := by
  rw [Sh.fdalloc, ← List.map_coe_finRange_eq_range, List.find?_map, Option.map_map]
  have hfree : ((fun fd => (pr.fds μ fd).isNone) ∘ Fin.val) = fun fd : Fin NOFILE =>
      decide (pr.ofile fd = none) := by
    funext fd
    rw [comp_apply, Proc.fds_val]
    cases pr.ofile fd <;> rfl
  rw [hfree]
  rfl

theorem wp_fdalloc_fds {Q : Option (Fin NOFILE) → Kernel → Prop}
    (hnone : Sh.fdalloc ((s.proc p).fds μ) (μ f) = none → Q none s)
    (hsome : ∀ fd : Fin NOFILE, (s.proc p).ofile fd = none →
      Sh.fdalloc ((s.proc p).fds μ) (μ f) = some (fd.val, (setFd s.proc p fd (some f) p).fds μ) →
      Q (some fd) { s with proc := setFd s.proc p fd (some f) }) : wp (fdalloc p f) E Q s := by
  simp only [fdalloc_fds, fds_setFd] at hnone hsome
  simp only [fdalloc, wp_bind, wp_get]
  cases hf : (List.finRange NOFILE).find? fun fd => decide ((s.proc p).ofile fd = none) with
  | none => exact wp_pure.2 (hnone (by rw [hf]; rfl))
  | some fd =>
    simp only [wp_bind, wp_setOfile, wp_pure]
    exact hsome fd (by simpa using List.find?_some hf) (by rw [hf]; rfl)

theorem wp_argfd_fds {Q : Option (Fin NOFILE × Fp) → Kernel → Prop} {fd : ℕ}
    (hnone : (s.proc p).fds μ fd = none → Q none s)
    (hsome : ∀ (i : Fin NOFILE) f, i.val = fd → (s.proc p).ofile i = some f → Q (some (i, f)) s) :
    wp (argfd p fd) E Q s := by
  simp only [argfd, wp_dite, wp_bind, wp_get, wp_pure, Int.toNat_natCast]
  refine ⟨fun hfd => ?_, fun hfd => hnone (dif_neg fun hlt => hfd ⟨Int.natCast_nonneg fd, hlt⟩)⟩
  cases ho : (s.proc p).ofile ⟨fd, hfd.2⟩ with
  | none =>
    refine hnone ((dif_pos hfd.2).trans ?_)
    rw [ho]
    rfl
  | some f => exact hsome _ f rfl ho

/-! ### The calls -/

/-- The table of `p` has become `fds`, and the others see the tables that they saw. -/
structure Goes (μ μ' : Fp → Sh.Target W) (p : Pp) (fds : Sh.Fds W) (s s' : Kernel) : Prop where
  own : (s'.proc p).fds μ' = fds
  other : ∀ q, q ≠ p → (s'.proc q).fds μ' = (s.proc q).fds μ

theorem goes_setFd (h : s'.proc = setFd s.proc p fd v) :
    Goes μ μ p (update ((s.proc p).fds μ) fd (v.map μ)) s s' where
  own := by rw [h, fds_setFd]
  other q hq := by rw [h, setFd_of_ne hq]

theorem wp_sysClose_fds (fd : ℕ) : wp (sysClose b sb p fd) (fun _ => True)
    (fun _ s' => Goes μ μ p (update ((s.proc p).fds μ) fd none) s s') s := by
  simp only [sysClose, wp_bind]
  refine wp_argfd_fds (μ := μ) (fun hnone => ?_) fun i f hi _ => ?_
  · rw [wp_pure, ← hnone, update_eq_self]
    exact ⟨rfl, fun _ _ => rfl⟩
  · subst hi
    simp only [wp_bind, wp_setOfile, wp_pure]
    exact wp_mono wp_fileclose_proc fun _ s' hs' => goes_setFd hs'

theorem wp_sysDup_fds (fd : ℕ) : wp (sysDup p fd) (fun _ => True) (fun _ s' =>
    Goes μ μ p
      ((((s.proc p).fds μ fd).bind (Sh.fdalloc ((s.proc p).fds μ))).elim
      ((s.proc p).fds μ) Prod.snd) s s')
    s := by
  simp only [sysDup, wp_bind]
  refine wp_argfd_fds (μ := μ) (fun hnone => ?_) fun i f hi hf => ?_
  · rw [wp_pure, hnone]
    exact ⟨rfl, fun _ _ => rfl⟩
  subst hi
  rw [Proc.fds_val, hf]
  simp only [wp_bind, Option.map_some, Option.bind_some]
  refine wp_fdalloc_fds (μ := μ) (fun hfull => ?_) fun fd _ hfd => ?_
  · rw [wp_pure, hfull]
    exact ⟨rfl, fun _ _ => rfl⟩
  · simp only [wp_bind, wp_pure]
    refine wp_filedup_proc fun s' hs' => ?_
    rw [hfd, Option.elim_some, fds_setFd]
    exact goes_setFd hs'

/-- No descriptor refers to a struct file that is free. -/
def NoneFree (s : Kernel) : Prop := ∀ f, (s.file f).ref = 0 → ∀ q fd, (s.proc q).ofile fd ≠ some f

theorem KInv.noneFree (hk : KInv b J K P s) : NoneFree s := fun f hf q fd h => by
  have hpos : 0 < owners (slots s.proc) f := owners_pos (p := (q, fd)) h
  rw [hk.file.ref f] at hf
  omega

/-- `open` returned `r`, with `t` for what was opened. -/
def Opens (μ : Fp → Sh.Target W) (p : Pp) (t : Sh.Target W) (s : Kernel) (r : ℤ) (s' : Kernel) :
    Prop :=
  r = -1 ∧ s'.proc = s.proc ∨ ∃ f fds, (s.file f).ref = 0 ∧ (s'.file f).inodeRef ≠ none ∧
    Sh.fdalloc ((s.proc p).fds μ) t = some (r.toNat, fds) ∧ Goes μ (update μ f t) p fds s s'

theorem wp_sysOpen_fds (hfree : NoneFree s) (path : ℕ) (omode : UInt32) (t : Sh.Target W) :
    wp (sysOpen b sb p path omode) (fun _ => True) (Opens μ p t s) s := by
  have hfail : ∀ ip s₁, s₁.proc = s.proc → wp (sysOpen.fail sb ip) (fun _ => True)
      (Opens μ p t s) s₁ := by
    intro ip s₁ h
    simp only [sysOpen.fail, wp_bind, wp_onFs, wp_pure]
    exact wp_of_forall fun _ _ => wp_of_forall fun _ _ => .inl ⟨rfl, h⟩
  simp only [sysOpen, argstr, wp_bind, wp_get, wp_pure]
  refine wp_deref_any fun root _ => ?_
  cases s.mem.copyinstr root path MAXPATH with
  | none => exact wp_pure.2 (.inl ⟨rfl, rfl⟩)
  | some str =>
    simp only [wp_bind, wp_get]
    refine wp_deref_any fun cwd _ => ?_
    rw [wp_onFs]
    refine wp_of_forall fun r fs => ?_
    cases r with
    | none => exact wp_pure.2 (.inl ⟨rfl, rfl⟩)
    | some ip =>
      simp only [wp_bind, wp_get, wp_ite]
      refine ⟨fun _ => hfail ip _ rfl, fun _ => wp_filealloc (fun _ => hfail ip _ rfl)
        fun f hf => ?_⟩
      have hsame : (s.proc p).fds (update μ f t) = (s.proc p).fds μ :=
        Proc.fds_update _ (hfree f hf p) t
      rw [wp_bind]
      refine wp_fdalloc_fds (μ := update μ f t) (fun _ => ?_) fun fd _ hfd => ?_
      · simp only [wp_bind]
        exact wp_mono wp_fileclose_proc fun _ s₁ hs₁ => hfail ip s₁ hs₁
      simp only [wp_bind, wp_setFile, wp_onFs, wp_pure]
      refine wp_of_forall fun _ _ => .inr ⟨f, _, hf, ?_, ?_, rfl, fun q hq => ?_⟩
      · simp only [update_self]
        rw [openedFile_inodeRef]
        simp
      · rw [update_self, hsame] at hfd
        exact hfd
      · simp only [setFd_of_ne hq]
        exact Proc.fds_update _ (hfree f hf q) t

theorem wp_pipealloc_fds {Q : Option (Fp × Fp) → Kernel → Prop}
    (hnone : ∀ s', s'.proc = s.proc → Q none s')
    (hsome : ∀ f0 f1 pi s', s'.proc = s.proc → f1 ≠ f0 → (s.file f0).ref = 0 → (s.file f1).ref = 0 →
      (s'.file f0).pipeEnd = some (pi, false) → (s'.file f1).pipeEnd = some (pi, true) →
      Q (some (f0, f1)) s') :
    wp (pipealloc b sb) (fun _ => True) Q s := by
  simp only [pipealloc, wp_bind]
  refine wp_filealloc (fun _ => wp_pure.2 (hnone s rfl)) fun f0 hf0 => ?_
  simp only [wp_bind]
  refine wp_filealloc (fun _ => ?_) fun f1 hf1 => ?_
  · simp only [wp_bind, wp_pure]
    exact wp_mono wp_fileclose_proc fun _ s₁ hs₁ => hnone s₁ hs₁
  have hne : f1 ≠ f0 := by
    rintro rfl
    simp at hf1
  rw [wp_bind, wp_onMem]
  refine wp_of_forall fun r m => ?_
  cases r with
  | none =>
    simp only [wp_bind, wp_pure]
    exact wp_mono wp_fileclose_proc fun _ s₁ hs₁ => wp_mono wp_fileclose_proc fun _ s₂ hs₂ =>
      hnone s₂ (hs₂.trans hs₁)
  | some pi =>
    simp only [wp_bind, wp_setPipe, wp_setFile, wp_pure]
    refine hsome f0 f1 pi _ rfl hne hf0 ?_ ?_ ?_
    · simpa only [update_of_ne hne] using hf1
    · simp [hne.symm, File.pipeEnd]
    · simp [File.pipeEnd]

/-- `pipe` returned `r`, with the two ends of `i` for those of the new pipe. -/
def Pipes (μ : Fp → Sh.Target W) (p : Pp) (i : ℕ) (s : Kernel) (r : ℤ) (s' : Kernel) : Prop :=
  r = -1 ∧ s'.proc = s.proc ∨ ∃ rf wf pi p0 p1 fds, r = 0 ∧ (s.file rf).ref = 0 ∧
    (s.file wf).ref = 0 ∧ (s'.file rf).pipeEnd = some (pi, false) ∧ (s'.file wf).pipeEnd =
    some (pi, true) ∧
    Sh.pipe ((s.proc p).fds μ) i = some (p0, p1, fds) ∧
    Goes μ (update (update μ rf (.readEnd i)) wf (.writeEnd i)) p fds s s'

theorem wp_report_proc (p : Pp) (fdarray : ℕ) (fd0 fd1 : Fin NOFILE) :
    wp (sysPipe.report p fdarray fd0 fd1) (fun _ => True)
    (fun _ s' => s'.proc = s.proc ∧ s'.file = s.file) s := by
  simp only [sysPipe.report, copyoutProc, wp_bind, wp_get, wp_ite, wp_pure]
  refine wp_deref_any fun root _ =>
    (wp_onMem _).2 (wp_of_forall fun _ _ => ⟨fun _ => ⟨rfl, rfl⟩, fun _ => ?_⟩)
  refine wp_deref_any fun root _ =>
    (wp_onMem _).2 (wp_of_forall fun _ _ => ⟨fun _ => ⟨rfl, rfl⟩, fun _ => ⟨rfl, rfl⟩⟩)

theorem wp_sysPipe_fds (hfree : NoneFree s) (fdarray i : ℕ) :
    wp (sysPipe b sb p fdarray) (fun _ => True) (Pipes μ p i s) s := by
  have hclose : ∀ rf wf s₁, s₁.proc = s.proc → wp (sysPipe.close b sb rf wf) (fun _ => True)
      (Pipes μ p i s) s₁ := by
    intro rf wf s₁ h
    simp only [sysPipe.close, wp_bind, wp_pure]
    exact wp_mono wp_fileclose_proc fun _ s₂ h₂ => wp_mono wp_fileclose_proc fun _ s₃ h₃ =>
      .inl ⟨rfl, h₃.trans (h₂.trans h)⟩
  simp only [sysPipe, wp_bind]
  refine wp_pipealloc_fds (fun s' h => wp_pure.2 (.inl ⟨rfl, h⟩))
    fun rf wf pi s₁ hproc hne hrf hwf hr hw => ?_
  simp only [wp_bind]
  have hμ : ∀ q, (s.proc q).fds (update (update μ rf (.readEnd i)) wf (.writeEnd i)) =
      (s.proc q).fds μ := fun q =>
    (Proc.fds_update _ (hfree wf hwf q) _).trans (Proc.fds_update _ (hfree rf hrf q) _)
  refine wp_fdalloc_fds (μ := update (update μ rf (.readEnd i)) wf (.writeEnd i))
    (fun _ => hclose rf wf s₁ hproc) fun fd0 h0 hfd0 => ?_
  rw [update_of_ne hne.symm, update_self, hproc, hμ] at hfd0
  simp only [wp_bind]
  refine wp_fdalloc_fds (μ := update (update μ rf (.readEnd i)) wf (.writeEnd i)) (fun _ => ?_)
    fun fd1 h1 hfd1 => ?_
  · simp only [wp_bind, wp_setOfile]
    refine hclose rf wf _ ?_
    rw [setFd_undo h0, hproc]
  have hne01 : fd0 ≠ fd1 := by
    rintro rfl
    simp [setFd_self] at h1
  refine (wp_bind _).2 (wp_mono (wp_report_proc p fdarray fd0 fd1) fun ok s₂ h₂ => ?_)
  have hproc₂ : s₂.proc = setFd (setFd s₁.proc p fd0 (some rf)) p fd1 (some wf) := h₂.1
  have hfile₂ : s₂.file = s₁.file := h₂.2
  simp only [wp_ite, wp_bind, wp_setOfile, wp_pure]
  refine ⟨fun _ => .inr ⟨rf, wf, pi, fd0, fd1, _, rfl, hrf, hwf, ?_, ?_, ?_, rfl, fun q hq => ?_⟩,
    fun _ => ?_⟩
  · rwa [hfile₂]
  · rwa [hfile₂]
  · simp only [update_self, hproc] at hfd1
    simp only [Sh.pipe, hfd0, Option.bind_some, hfd1, Option.map_some, hproc₂, hproc]
  · rw [hproc₂, setFd_of_ne hq, setFd_of_ne hq, hproc, hμ]
  · refine hclose rf wf _ ?_
    rw [hproc₂, setFd_comm _ hne01, setFd_undo, setFd_undo h0, hproc]
    simpa only [setFd_self, update_of_ne hne01.symm] using h1

/-- **The kernel's tables go as the shell's.**  Between two calls of a run from boot, each call that
`runcmd` makes on its descriptors returns, or stops for a reason that exact bookkeeping does not
rule out.  `close` and `dup` do to the table of the caller what the shell's model says.  So do
`open` and `pipe`, with a free struct file for what is new, unless they return -1 and have changed
no table.  `fork` gives the child a copy.  No other table changes. -/
theorem descriptors_refine (h : FromBoot b sb K s) (hl : (s.proc p).Live) (μ : Fp → Sh.Target W) :
    (∀ fd : ℕ, wp ((Call.close fd).run b sb p) Tolerated (fun _ s' =>
      ∃ fds, Sh.Call.run (.close fd) ((s.proc p).fds μ) = some fds ∧ Goes μ μ p fds s s') s) ∧
    (∀ fd : ℕ, wp ((Call.dup fd).run b sb p) Tolerated (fun _ s' =>
      ∃ fds, Sh.Call.run (.dup fd) ((s.proc p).fds μ) = some fds ∧ Goes μ μ p fds s s') s) ∧
    (∀ path mode file, wp ((Call.open path mode).run b sb p) Tolerated
      (Opens μ p (.opened file mode) s) s) ∧
    (∀ fdarray i, wp ((Call.pipe fdarray).run b sb p) Tolerated (Pipes μ p i s) s) ∧
    wp (Call.fork.run b sb p) Tolerated
    (fun r s' => (r = -1 ∧ ∀ q, (s.proc q).Live → s'.proc q = s.proc q) ∨
      ∃ np, r = (s'.proc np).pid.toInt ∧ (s'.proc np).fds μ = (s.proc p).fds μ ∧ ∀ q, q ≠ np →
      s'.proc q = s.proc q) s := by
  obtain ⟨P, hk⟩ := h.kinv
  have hcall : ∀ (c : Call) {Q : ℤ → Kernel → Prop}, wp (c.run b sb p) (fun _ => True) Q s →
      wp (c.run b sb p) Tolerated Q s := fun c Q hQ =>
    wp_mono (wp_mono_stop (wp_and (hk.call inv_rules hl c) hQ) fun _ he => he.1) fun _ _ h => h.2
  refine ⟨fun fd => hcall (.close fd) ?_, fun fd => hcall (.dup fd) ?_,
    fun path mode file => hcall (.open path mode) (wp_sysOpen_fds hk.noneFree path mode _),
    fun fdarray i => hcall (.pipe fdarray) (wp_sysPipe_fds hk.noneFree fdarray i), ?_⟩
  · exact wp_mono (wp_sysClose_fds fd) fun _ s' hs' => ⟨_, rfl, hs'⟩
  · exact wp_mono (wp_sysDup_fds fd) fun _ s' hs' => ⟨_, rfl, hs'⟩
  · refine hk.wp_forked hl inv_rules.idup_state
      (fun s' _ hg => .inl ⟨rfl, fun q hq => hg.proc q hq.1⟩) fun np s' _ hf =>
        .inr ⟨np, rfl, ?_, hf.proc⟩
    funext fd
    simp only [Proc.fds, hf.ofile]

/-- Process 1 has three descriptors open; `dup(2)` gives it the fourth. -/
theorem descriptors_refine_busy : ∃ s, FromBoot tinyBoard mkfsSb 0 s ∧ (s.proc 1).Live ∧
    wp ((Call.dup (2 : ℕ)).run tinyBoard mkfsSb 1) Tolerated
    (fun _ s' => ∃ fds, Sh.Call.run (.dup 2)
      ((s.proc 1).fds fun f => (.given f : Sh.Target ℕ)) = some fds ∧
      (s'.proc 1).fds (fun f => .given f) = fds) s := by
  obtain ⟨s, h, -, hl, -⟩ := exists_busy
  refine ⟨s, h, hl, wp_mono ((descriptors_refine (W := ℕ) h hl fun f => .given f).2.1 2)
    fun _ s' hs' => ?_⟩
  obtain ⟨fds, hfds, hgoes⟩ := hs'
  exact ⟨fds, hfds, hgoes.own⟩

end Xv6
