/-
# What kill finds

`kill` goes through the table by pid and does not look at the state, and `allocproc` does not reset
`killed`.  `freeproc` clears both fields, but `kill(0)` finds the first free slot, and `allocproc`
returns without `freeproc` when there is no page for the trapframe; so a process may start killed
(`kill_zero_kills_child`).
-/

import Xv6.Kernel.Run

namespace Xv6

open Lib Function

variable {b : Board} {sb : Superblock} {s s' : Kernel} {p np : Pp} {blocks : Disk} {mem : Mem}
  {Q : PUnit → Kernel → Prop}

/-- What `freeproc` leaves of the fields that `kill` looks at and changes. -/
def Proc.Freed (pr : Proc) : Prop := pr.state = .unused ∧ pr.pid = 0 ∧ pr.killed = false

/-- The free slots are as `freeproc` leaves them. -/
def Kernel.Clean (s : Kernel) : Prop := ∀ q, (s.proc q).state = .unused → (s.proc q).Freed

def SameBut (np : Pp) (s s' : Kernel) : Prop := ∀ q, q ≠ np → s'.proc q = s.proc q

theorem SameBut.update (pr : Proc) : SameBut np s { s with proc := Function.update s.proc np pr } :=
  fun _ hq => Function.update_of_ne hq ..

theorem SameBut.trans {t : Kernel} (h : SameBut np s t) (h' : SameBut np t s') : SameBut np s s' :=
  fun q hq => (h' q hq).trans (h q hq)

theorem Kernel.Clean.of_slot (h : s.Clean) (hs : SameBut np s s')
    (hnp : (s'.proc np).state = .unused → (s'.proc np).Freed) : s'.Clean := by
  intro q hq
  by_cases hqn : q = np
  · exact hqn ▸ hnp (hqn ▸ hq)
  · rw [hs q hqn] at hq ⊢
    exact h q hq

/-! ### Making and freeing -/

theorem wp_freeTable_slot (hQ : ∀ s', SameBut p s s' → (s'.proc p).Freed → Q ⟨⟩ s') :
    wp (freeproc.freeTable b p) (fun _ => True) Q s := by
  have hclear (m : Mem) (pr : Proc) : wp (freeproc.clear p) (fun _ => True) Q
      { s with mem := m, proc := update s.proc p pr } := by
    simp only [freeproc.clear, wp_setProc, update_idem]
    exact hQ _ (SameBut.update _) (by simp [Proc.Freed])
  simp only [freeproc.freeTable, wp_bind, wp_setProc, wp_get]
  split
  · exact hclear s.mem _
  · simp only [wp_bind, wp_onMem]
    exact wp_of_forall fun _ m => hclear m _

theorem wp_freeproc_slot (hQ : ∀ s', SameBut p s s' → (s'.proc p).Freed → Q ⟨⟩ s') :
    wp (freeproc b p) (fun _ => True) Q s := by
  simp only [freeproc, wp_bind, wp_get]
  split
  · exact wp_freeTable_slot hQ
  · simp only [wp_bind, wp_onMem]
    refine wp_of_forall fun _ m => wp_freeTable_slot fun s' hs' => ?_
    exact hQ s' hs'

/-- `allocproc` fails without a change, or with a slot freed again, unless it finds no page for the
trapframe; a slot it returns has a new pid, and is otherwise as it was. -/
theorem wp_allocproc_slot {Q : Option Pp → Kernel → Prop} (hfull : Q none s)
    (hfail : ∀ np s', (s.proc np).state = .unused → SameBut np s s' →
      ((s'.proc np).Freed ∨ s.mem.freelist = []) → Q none s')
    (hsome : ∀ np s', (s.proc np).state = .unused → SameBut np s s' → (s'.proc np).state = .unused →
      (s'.proc np).killed = (s.proc np).killed → Q (some np) s') :
    wp (allocproc b) (fun _ => True) Q s := by
  simp only [allocproc, wp_bind, wp_get]
  cases hfind : (List.finRange NPROC).find? fun p => decide ((s.proc p).state = .unused) with
  | none => exact wp_pure.2 hfull
  | some np =>
    have hu : (s.proc np).state = .unused := by simpa using List.find?_some hfind
    simp only [wp_bind, wp_setProc, wp_modify, wp_onMem, kalloc, wp_get]
    cases hfree : s.mem.freelist with
    | nil =>
      simp only [wp_pure, wp_bind, wp_setProc, update_idem]
      exact hfail np _ hu (SameBut.update _) (.inr hfree)
    | cons tf rest =>
      simp only [wp_bind, wp_set, wp_pure, wp_setProc, wp_onMem, update_idem, update_self]
      refine wp_of_forall fun pagetable m => ?_
      simp only [wp_ite, wp_bind, wp_pure]
      refine ⟨fun _ => wp_freeproc_slot fun s' hs' hf => ?_, fun _ => ?_⟩
      · exact hfail np s' hu ((SameBut.update _).trans hs') (.inl hf)
      · exact hsome np _ hu (SameBut.update _) (by simp [hu]) (by simp)

/-! ### The calls -/

theorem wp_filedup_proc {Q : Fp → Kernel → Prop} {f : Fp} (hQ : ∀ s', s'.proc = s.proc → Q f s') :
    wp (filedup f) (fun _ => True) Q s := by
  simp only [filedup, wp_bind, wp_get, wp_ite, wp_throw, wp_setFile, wp_pure]
  exact ⟨fun _ => trivial, fun _ => hQ _ rfl⟩

theorem wp_deref_any {α : Type} {x : Option α} {Q : α → Kernel → Prop}
    (hQ : ∀ a, x = some a → Q a s) : wp (deref x) (fun _ => True) Q s := by
  cases x with
  | none => exact (wp_throw _).2 trivial
  | some a => exact (wp_deref_some a).2 (hQ a rfl)

theorem wp_fork_slot {Q : ℤ → Kernel → Prop} (hfull : Q (-1) s)
    (hfail : ∀ np s', (s.proc np).state = .unused → SameBut np s s' →
      ((s'.proc np).Freed ∨ s.mem.freelist = []) → Q (-1) s')
    (hsome : ∀ np s', (s.proc np).state = .unused → SameBut np s s' →
      (s'.proc np).state = .runnable → (s'.proc np).killed = (s.proc np).killed →
      Q (s'.proc np).pid.toInt s') :
    wp (fork b p) (fun _ => True) Q s := by
  simp only [fork, wp_bind]
  refine wp_allocproc_slot (wp_pure.2 hfull)
    (fun np s' hu hs hf => wp_pure.2 (hfail np s' hu hs hf)) fun np s₁ hu hs₁ hu₁ hk₁ => ?_
  simp only [wp_bind, wp_get]
  refine wp_deref_any fun old _ => wp_deref_any fun new _ => ?_
  simp only [wp_onMem, wp_ite, wp_bind, wp_pure]
  refine wp_of_forall fun r m => ⟨fun _ => wp_freeproc_slot fun s' hs' hf => ?_, fun _ => ?_⟩
  · exact hfail np s' hu (hs₁.trans hs') (.inl hf)
  simp only [wp_setProc]
  refine wp_deref_any fun dst _ => wp_deref_any fun src _ => ?_
  refine wp_of_forall fun _ m₁ => wp_of_forall fun _ m₂ => ?_
  -- the loop over the open files changes the slot of the child, but not these fields
  have hloop : wp (forM (List.finRange NOFILE) (fork.dupOfile p np)) (fun _ => True)
      (fun _ s' => SameBut np s s' ∧ (s'.proc np).killed = (s.proc np).killed ∧
      (s'.proc np).pid = (s₁.proc np).pid)
      { s₁ with
        mem := m₂
        proc := update s₁.proc np { s₁.proc np with sz := (s₁.proc p).sz, parent := some p } } := by
    refine wp_forM (I := fun _ s' => SameBut np s s' ∧ (s'.proc np).killed = (s.proc np).killed ∧
      (s'.proc np).pid = (s₁.proc np).pid) (fun _ i _ t _ ht => ?_)
      ⟨?_, by simpa using hk₁, by simp⟩
    · obtain ⟨hs, hk, hpid⟩ := ht
      simp only [fork.dupOfile, wp_bind, wp_get]
      split
      · exact wp_pure.2 ⟨hs, hk, hpid⟩
      simp only [wp_bind]
      refine wp_filedup_proc fun t' ht' => ?_
      have hst : SameBut np s t' := fun q hq => by rw [ht', hs q hq]
      rw [← ht'] at hk hpid
      rw [wp_setOfile]
      exact ⟨hst.trans (SameBut.update _), by simpa [setFd] using hk,
        by simpa [setFd] using hpid⟩
    · exact hs₁.trans (SameBut.update _)
  refine wp_mono hloop fun _ s₂ h₂ => ?_
  obtain ⟨hs₂, hk₂, hpid₂⟩ := h₂
  refine wp_deref_any fun cwd _ => ?_
  rw [wp_onFs]
  refine wp_of_forall fun cwd' fs => ?_
  simp only [update_idem, update_self, ← hpid₂]
  have hfinal := hsome np { s₂ with
    fs := fs
    proc := update s₂.proc np { s₂.proc np with cwd := some cwd', state := .runnable } }
    hu (hs₂.trans (SameBut.update _)) (by simp) (by simpa using hk₂)
  simpa using hfinal

theorem wp_fileclose_proc {f : Fp} :
    wp (fileclose b sb f) (fun _ => True) (fun _ s' => s'.proc = s.proc) s := by
  simp only [fileclose, wp_bind, wp_get, wp_ite, wp_throw, wp_setFile]
  refine ⟨fun _ => trivial, fun _ => ⟨fun _ => trivial, fun _ => ?_⟩⟩
  split
  · exact wp_pure.2 rfl
  · simp only [pipeclose, wp_bind, wp_setPipe, wp_get, wp_ite, wp_onMem, wp_pure]
    exact ⟨fun _ => wp_of_forall fun _ _ => trivial, fun _ => trivial⟩
  · simp only [wp_bind, wp_onFs]
    exact wp_of_forall fun _ _ => wp_of_forall fun _ _ => wp_of_forall fun _ _ => trivial
  · simp only [wp_bind, wp_onFs]
    exact wp_of_forall fun _ _ => wp_of_forall fun _ _ => wp_of_forall fun _ _ => trivial

def Proc.core (pr : Proc) : ProcState × BitVec 32 × Bool := (pr.state, pr.pid, pr.killed)

theorem Proc.Freed.congr {pr pr' : Proc} (h : pr.Freed) (hc : pr'.core = pr.core) : pr'.Freed := by
  obtain ⟨hs, hpid, hk⟩ : pr'.state = pr.state ∧ pr'.pid = pr.pid ∧ pr'.killed = pr.killed := by
    simpa [Proc.core] using hc
  rwa [Proc.Freed, hs, hpid, hk]

theorem wp_exit_core {status : ℤ} : wp (exit b sb p status) (fun _ => True)
    (fun _ s' => ∀ q, (s'.proc q).state = .unused → (s'.proc q).core = (s.proc q).core) s := by
  simp only [exit, wp_bind, wp_get, wp_ite, wp_throw]
  refine ⟨fun _ => trivial, fun _ => ?_⟩
  have hloop : wp (forM (List.finRange NOFILE) (exit.closeOfile b sb p)) (fun _ => True)
      (fun _ s' => ∀ q, (s'.proc q).core = (s.proc q).core) s := by
    refine wp_forM (I := fun _ (s' : Kernel) => ∀ q, (s'.proc q).core = (s.proc q).core)
      (fun _ fd _ t _ ht => ?_) fun _ => rfl
    simp only [exit.closeOfile, wp_bind, wp_get]
    split
    · exact wp_pure.2 ht
    simp only [wp_bind]
    refine wp_mono wp_fileclose_proc fun _ t' ht' => ?_
    rw [wp_setOfile, ht']
    intro q
    by_cases hq : q = p
    · subst hq
      simpa [setFd, Proc.core] using ht q
    · simpa [setFd, hq] using ht q
  refine wp_mono hloop fun _ s₁ h₁ => wp_deref_any fun cwd _ => ?_
  simp only [wp_onFs]
  refine wp_of_forall fun _ _ => wp_of_forall fun _ _ => wp_of_forall fun _ _ => ?_
  simp only [wp_setProc, wp_reparent]
  intro q hq
  by_cases hqp : q = p
  · subst hqp
    simp at hq
  · rw [← h₁ q, update_of_ne hqp]
    obtain ⟨x, hx⟩ :=
      reparented_apply (update s₁.proc p { s₁.proc p with cwd := none }) p s₁.initproc q
    rw [hx, update_of_ne hqp]
    rfl

theorem wp_wait_clean {addr : ℕ} (h : s.Clean) :
    wp (wait b p addr) (fun _ => True) (fun _ s' => s'.Clean) s := by
  simp only [wait, wp_bind, wp_get]
  split
  · rename_i np hfind
    have hreport : wp (wait.report p addr np) (fun _ => True) (fun _ s' => s'.proc = s.proc) s := by
      simp only [wait.report, wp_ite, wp_pure, wp_bind, wp_get, copyoutProc]
      refine ⟨fun _ => trivial, fun _ => wp_deref_any fun root _ => ?_⟩
      rw [wp_onMem]
      exact wp_of_forall fun _ _ => rfl
    rw [wp_bind]
    refine wp_mono hreport fun r s₁ h₁ => ?_
    have hclean : s₁.Clean := fun q hq => h₁ ▸ h q (h₁ ▸ hq)
    simp only [wp_ite, wp_bind, wp_pure]
    exact ⟨fun _ => wp_freeproc_slot fun s' hs' hf => hclean.of_slot hs' fun _ => hf,
      fun _ => hclean⟩
  · simp only [wp_ite, wp_pure, wp_throw]
    exact ⟨fun _ => h, fun _ => trivial⟩

/-- `kill` of a pid other than 0 returns; it finds a process, if there is one, and leaves the free
slots alone. -/
theorem Kernel.Clean.wp_kill (h : s.Clean) (hpid : pid ≠ 0) :
    wp (kill pid) (fun _ => False) (fun r s' =>
      (r = 0 ↔ ∃ q, (s.proc q).state ≠ .unused ∧ (s.proc q).pid = pid) ∧
      (∀ q, (s.proc q).state = .unused → s'.proc q = s.proc q) ∧ s'.Clean) s := by
  simp only [kill, wp_bind, wp_get]
  cases hfind : (List.finRange NPROC).find? fun q => decide ((s.proc q).pid = pid) with
  | none =>
    have hnone : ∀ q, (s.proc q).pid ≠ pid := by simpa using hfind
    refine wp_pure.2 ⟨⟨fun hr => by simp at hr, ?_⟩, fun _ _ => rfl, h⟩
    rintro ⟨q, -, hq⟩
    exact absurd hq (hnone q)
  | some p =>
    have hp : (s.proc p).pid = pid := by simpa using List.find?_some hfind
    have hused : (s.proc p).state ≠ .unused := fun hu => hpid (by simp [← hp, (h p hu).2.1])
    simp only [wp_bind, wp_setProc, wp_pure]
    refine ⟨⟨fun _ => ⟨p, hused, hp⟩, fun _ => trivial⟩, fun q hq => ?_, ?_⟩
    · refine update_of_ne ?_ ..
      rintro rfl
      exact hused hq
    · refine h.of_slot (SameBut.update _) fun hu => ?_
      simp only [update_self] at hu
      split at hu
      · cases hu
      · exact absurd hu hused

/-! ### Runs -/

theorem clean_start (blocks : Disk) (mem : Mem) : (Kernel.start blocks mem).Clean :=
  fun _ _ => ⟨rfl, rfl, rfl⟩

theorem wp_uvminit_proc {pagetable : ℕ} {src : List UInt8} :
    wp (uvminit pagetable src) (fun _ => True) (fun _ s' => s'.proc = s.proc) s := by
  simp only [uvminit, wp_ite, wp_throw, wp_bind, wp_onMem]
  refine ⟨fun _ => trivial, fun _ => wp_of_forall fun pa m => wp_deref_any fun pa' _ => ?_⟩
  exact wp_of_forall fun _ _ => wp_of_forall fun _ _ => wp_of_forall fun _ _ => rfl

theorem Kernel.Clean.boot (h : Boots b sb blocks mem s) : s.Clean := by
  refine (wp_of_run_ok (E := fun _ => True) (Q := fun _ s' => s'.Clean) h).1 ?_
  simp only [userinit, wp_bind]
  refine wp_allocproc_slot ?_ (fun _ _ _ _ _ => ?_) fun np s₁ _ hs₁ _ _ => ?_
  · simp only [wp_modify]
    exact (wp_throw _).2 trivial
  · simp only [wp_modify]
    exact (wp_throw _).2 trivial
  simp only [wp_modify, wp_deref_some, wp_get]
  refine wp_deref_any fun root _ => wp_mono wp_uvminit_proc fun _ s₂ h₂ => ?_
  rw [wp_setProc]
  refine wp_deref_any fun tf _ => ?_
  simp only [wp_onMem]
  refine wp_of_forall fun _ _ => wp_of_forall fun _ _ => ?_
  rw [wp_onFs]
  refine wp_of_forall fun _ _ => ?_
  simp only [wp_setProc, update_idem, update_self]
  refine (clean_start blocks mem).of_slot (fun q (hq : q ≠ np) => ?_) fun hu => ?_
  · refine (update_of_ne hq ..).trans ?_
    rw [h₂]
    exact hs₁ q hq
  · simp at hu

def Call.OfProc : Call → Prop
  | .fork | .exit _ | .wait _ | .kill _ => True
  | _ => False

/-- The call is not `kill(0)`, nor a `fork` that finds no free page. -/
def Kernel.Careful (s : Kernel) (a : Pp × Call) : Prop :=
  (s.Calls a ∧ a.2.OfProc) ∧ a.2 ≠ .kill 0 ∧ (a.2 = .fork → s.mem.freelist ≠ [])

theorem Kernel.Clean.step (h : s.Clean) {a : Pp × Call} (hok : s.Careful a)
    (hs : s.step b sb a = some s') : s'.Clean := by
  obtain ⟨r, hrun⟩ := step_eq_some.1 hs
  refine (wp_of_run_ok (E := fun _ => True) (Q := fun _ s' => s'.Clean) hrun).1 ?_
  obtain ⟨p, call⟩ := a
  obtain ⟨⟨-, hof⟩, hkill, hfork⟩ := hok
  cases call with
  | fork =>
    refine wp_fork_slot h (fun np s' _ hs' hf => h.of_slot hs' fun _ => ?_)
      fun np s' _ hs' hr _ => ?_
    · exact hf.resolve_right (hfork rfl)
    · refine h.of_slot hs' fun hu => ?_
      rw [hr] at hu
      cases hu
  | exit status =>
    simp only [Call.run, wp_bind, wp_pure]
    exact wp_mono wp_exit_core fun _ s' hcore q hq => (h q (by
      have := congrArg Prod.fst (hcore q hq)
      exact this.symm.trans hq)).congr (hcore q hq)
  | wait addr => exact wp_wait_clean h
  | kill pid =>
    refine wp_mono (wp_mono_stop (h.wp_kill fun hz => hkill ?_) fun _ he => he.elim)
      fun _ s' hs' => hs'.2.2
    rw [hz]
  | _ => exact hof.elim

/-- **`kill` only affects live processes**, in a run without `kill(0)` in which no `fork` finds the
allocator empty: it returns 0 if and only if a process that is not `UNUSED` has the pid, an `UNUSED`
slot stays as it is, and the child of a `fork` that succeeds is not killed. -/
theorem kill_finds_live {s₀ : Kernel} (hb : Boots b sb blocks mem s₀)
    (h : Reach (Kernel.step b sb) Kernel.Careful s₀ s) :
    (∀ pid : BitVec 32, pid ≠ 0 → ∃ r s', (kill pid).run s = .ok (r, s') ∧
      (r = 0 ↔ ∃ q, (s.proc q).state ≠ .unused ∧ (s.proc q).pid = pid) ∧
      ∀ q, (s.proc q).state = .unused → s'.proc q = s.proc q) ∧
    ∀ p r s', (fork b p).run s = .ok (r, s') → r ≠ -1 → ∃ np, (s.proc np).state = .unused ∧
      (s'.proc np).state = .runnable ∧ (s'.proc np).pid.toInt = r ∧
      (s'.proc np).killed = false := by
  have hclean : s.Clean := h.invariant (Kernel.Clean.boot hb) fun _ _ _ hi hok hs => hi.step hok hs
  refine ⟨fun pid hpid => ?_, fun p r s' hrun hr => ?_⟩
  · obtain ⟨r, s', hrun, hfound, hsame, -⟩ := exists_run_of_wp (hclean.wp_kill hpid)
    exact ⟨r, s', hrun, hfound, hsame⟩
  · have hwp :
      wp (fork b p) (fun _ => True) (fun r s' => r ≠ -1 → ∃ np, (s.proc np).state = .unused ∧
        (s'.proc np).state = .runnable ∧ (s'.proc np).pid.toInt = r ∧
        (s'.proc np).killed = false) s :=
      wp_fork_slot (fun hne => absurd rfl hne) (fun _ _ _ _ _ hne => absurd rfl hne)
        fun np s' hu _ hst hk _ => ⟨np, hu, hst, rfl, hk.trans (hclean np hu).2.2⟩
    exact (wp_of_run_ok hrun).1 hwp hr

/-! ### A small machine -/

theorem nproc_pos : 0 < NPROC := by decide

def firstProc : Pp := ⟨0, nproc_pos⟩

def tinyMem : Mem where
  page _ := memset 1
  freelist := (List.range 16).map (PHYSTOP / PGSIZE - 1 - ·)

theorem kill_finds_live_child : ∃ s₀ s : Kernel, (Boots tinyBoard mkfsSb mkfsImage tinyMem s₀ ∧
      Reach (Kernel.step tinyBoard mkfsSb) Kernel.Careful s₀ s ∧
      (s.proc 1).state ≠ .unused ∧ (s.proc 1).pid = 2) ∧
    ∃ s', (kill 2).run s = .ok (0, s') ∧ ∀ q, (s.proc q).state = .unused →
    s'.proc q = s.proc q := by
  have hrun : wp (userinit tinyBoard mkfsSb) (fun _ => False)
    (fun _ s₀ => wp (fork tinyBoard 0) (fun _ => False)
      (fun _ s => (s₀.proc 0).Live ∧ s₀.mem.freelist ≠ [] ∧ (s.proc 1).state ≠ .unused ∧
      (s.proc 1).pid = 2) s₀)
      (Kernel.start mkfsImage tinyMem) := by decide +kernel
  obtain ⟨⟨⟩, s₀, hboot, hfork⟩ := exists_run_of_wp hrun
  obtain ⟨r, s, hfork, hlive, hfree, hused, hpid⟩ := exists_run_of_wp hfork
  have hreach : Reach (Kernel.step tinyBoard mkfsSb) Kernel.Careful s₀ s :=
    .single ⟨(0, .fork), ⟨⟨hlive, trivial⟩, by simp, fun _ => hfree⟩, step_eq_some.2 ⟨r, hfork⟩⟩
  obtain ⟨r', s', hkill, hfound, hsame⟩ := (kill_finds_live hboot hreach).1 2 (by decide)
  have hr : r' = 0 := hfound.2 ⟨1, hused, hpid⟩
  subst hr
  exact ⟨s₀, s, ⟨hboot, hreach, hused, hpid⟩, s', hkill, hsame⟩

/-- **`kill(0)` kills a child that is not yet born.**  Init calls `kill(0)` right after boot, when
no process has the pid 0: the call returns 0 and marks the free slot 1 as killed, and the process
that init forks next starts in that slot with `killed` set. -/
theorem kill_zero_kills_child : ∃ s s₁ s₂ : Kernel, Boots tinyBoard mkfsSb mkfsImage tinyMem s ∧
    (s.proc 0).Live ∧ (kill 0).run s = .ok (0, s₁) ∧
    (¬∃ q, (s.proc q).state ≠ .unused ∧ (s.proc q).pid = 0) ∧
    (s.proc 1).state = .unused ∧ (s₁.proc 1).killed ≠ (s.proc 1).killed ∧
    (fork tinyBoard 0).run s₁ = .ok (2, s₂) ∧
    (s₂.proc 1).state = .runnable ∧ (s₂.proc 1).pid = 2 ∧ (s₂.proc 1).killed = true := by
  have hrun : wp (userinit tinyBoard mkfsSb) (fun _ => False)
    (fun _ s => wp (kill 0) (fun _ => False)
      (fun r s₁ => wp (fork tinyBoard 0) (fun _ => False) (fun r' s₂ =>
        decide ((r = 0 ∧ r' = 2) ∧ (s.proc 0).Live ∧
          (∀ q, (s.proc q).state ≠ .unused → (s.proc q).pid ≠ 0) ∧ (s.proc 1).state = .unused ∧
          (s₁.proc 1).killed ≠ (s.proc 1).killed ∧
          (s₂.proc 1).state = .runnable ∧ (s₂.proc 1).pid = 2 ∧ (s₂.proc 1).killed = true) =
            true) s₁) s)
      (Kernel.start mkfsImage tinyMem) := by decide +kernel
  obtain ⟨⟨⟩, s, hboot, hkill⟩ := exists_run_of_wp hrun
  obtain ⟨r, s₁, hkill, hfork⟩ := exists_run_of_wp hkill
  obtain ⟨r', s₂, hfork, hfacts⟩ := exists_run_of_wp hfork
  obtain ⟨⟨rfl, rfl⟩, hlive, hnone, hfree, hmarked, hchild⟩ := decide_eq_true_iff.1 hfacts
  refine ⟨s, s₁, s₂, hboot, hlive, hkill, ?_, hfree, hmarked, hfork, hchild⟩
  rintro ⟨q, hq, hpid⟩
  exact hnone q hq hpid

end Xv6
