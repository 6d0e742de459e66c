/-
# The calls on files keep the counts exact

`dup`, `close`, `write`, `open`, `pipe`, `chdir` and the calls on path names, each on all its paths.
`fileclose` touches all four kinds of things at once: the last reference to a struct file gives up
an inode or an end of a pipe, and the last end of a pipe gives up its page.
-/

import Xv6.Kernel.Rules

namespace Xv6

open Lib Function

variable {b : Board} {sb : Superblock} {J J' : FsPred} {K H : Multiset ℕ} {P : Finset ℕ}
  {s : Kernel} {p : Pp} {f : Fp} {sl : Pp × Fin NOFILE → Option Fp} {h : Fp → ℕ}
  {E : Halt → Prop} {α : Type}
  {Q : PUnit → Kernel → Prop} {fd n : ℤ} {addr dst path pi root : ℕ} {proc : Pp → Proc}
  {sl' : Pp × Fin NOFILE → Option Fp} {h' : Fp → ℕ} {src : List UInt8} {file : Fp → File}

/-! ### Rules for the parts of the state -/

@[simp] theorem wp_onFs {Q : α → Kernel → Prop} (x : FsM α) :
    wp (onFs x) E Q s ↔ wp x E (fun a fs => Q a { s with fs := fs }) s.fs := wp_zoom ..

@[simp] theorem wp_onMem {Q : α → Kernel → Prop} (x : MemM α) :
    wp (onMem x) E Q s ↔ wp x E (fun a m => Q a { s with mem := m }) s.mem := wp_zoom ..

@[simp] theorem wp_setFile (f : Fp) (g : File → File) :
    wp (setFile f g) E Q s ↔ Q ⟨⟩ { s with file := update s.file f (g (s.file f)) } := wp_modify _

@[simp] theorem wp_setProc (p : Pp) (g : Proc → Proc) :
    wp (setProc p g) E Q s ↔ Q ⟨⟩ { s with proc := update s.proc p (g (s.proc p)) } := wp_modify _

@[simp] theorem wp_setPipe (pi : ℕ) (g : Pipe → Pipe) :
    wp (setPipe pi g) E Q s ↔ Q ⟨⟩ { s with pipe := update s.pipe pi (g (s.pipe pi)) } :=
  wp_modify _

@[simp] theorem wp_setOfile (p : Pp) (fd : Fin NOFILE) (v : Option Fp) :
    wp (setOfile p fd v) E Q s ↔ Q ⟨⟩ { s with proc := setFd s.proc p fd v } := wp_modify _

@[simp] theorem wp_deref_some {Q : α → Kernel → Prop} (a : α) :
    wp (deref (some a)) E Q s ↔ Q a s := wp_pure

theorem wp_deref {Q : α → Kernel → Prop} {x : Option α} {a : α} (h : x = some a) :
    wp (deref x) E Q s ↔ Q a s := by
  rw [h, wp_deref_some]

theorem wp_argfd {Q : Option (Fin NOFILE × Fp) → Kernel → Prop} (hnone : Q none s)
    (hsome : ∀ i f, (s.proc p).ofile i = some f → Q (some (i, f)) s) : wp (argfd p fd) E Q s := by
  simp only [argfd, wp_dite, wp_bind, wp_get, wp_pure]
  refine ⟨fun hfd => ?_, fun _ => hnone⟩
  cases ho : (s.proc p).ofile ⟨fd.toNat, hfd.2⟩ with
  | none => exact hnone
  | some f => exact hsome _ f ho

theorem wp_argstr {Q : Option (List UInt8) → Kernel → Prop}
    (hr : (s.proc p).pagetable = some root) (hQ : ∀ r, Q r s) : wp (argstr p addr) E Q s := by
  simp only [argstr, wp_bind, wp_get, wp_deref hr, wp_pure]
  exact hQ _

/-! ### `filealloc`, `filedup` and descriptors -/

/-- **`filealloc`** takes a struct file that is free; it fails only if there is none. -/
theorem wp_filealloc {Q : Option Fp → Kernel → Prop} (hnone : (∀ f, (s.file f).ref ≠ 0) → Q none s)
    (hsome : ∀ f, (s.file f).ref = 0 →
      Q (some f) { s with file := update s.file f { s.file f with ref := 1 } }) :
    wp filealloc E Q s := by
  simp only [filealloc, wp_bind, wp_get]
  cases hf : (List.finRange NFILE).find? fun f => decide ((s.file f).ref = 0) with
  | none =>
    exact wp_pure.2 (hnone fun f => by simpa using List.find?_eq_none.1 hf f (List.mem_finRange f))
  | some f =>
    simp only [wp_bind, wp_setFile, wp_pure]
    exact hsome f (by simpa using List.find?_some hf)

/-- **`fdalloc`** takes a descriptor that is free; it fails only if there is none. -/
theorem wp_fdalloc {Q : Option (Fin NOFILE) → Kernel → Prop}
    (hnone : (∀ fd, (s.proc p).ofile fd ≠ none) → Q none s)
    (hsome : ∀ fd, (s.proc p).ofile fd = none →
      Q (some fd) { s with proc := setFd s.proc p fd (some f) }) : wp (fdalloc p f) E Q s := by
  simp only [fdalloc, wp_bind, wp_get]
  cases hf : (List.finRange NOFILE).find? fun fd => decide ((s.proc p).ofile fd = none) with
  | none =>
    refine wp_pure.2 (hnone fun fd => ?_)
    simpa using List.find?_eq_none.1 hf fd (List.mem_finRange fd)
  | some fd =>
    simp only [wp_bind, wp_setOfile, wp_pure]
    exact hsome fd (by simpa using List.find?_some hf)

theorem Exactly.setFd (he : Exactly b J P sl h H s) (p : Pp) (fd : Fin NOFILE) (v : Option Fp) :
    Exactly b J P sl h H { s with proc := setFd s.proc p fd v } where
  fs := by
    have := he.fs
    simp only [irefs, cwds_setFd] at this ⊢
    exact this
  file := he.file
  pipe := he.pipe
  mem := by
    have := he.mem
    simp only [images_setFd]
    exact this

theorem ok_setFd (hok : ∀ q, (proc q).Ok) (hl : (proc p).Live) (fd : Fin NOFILE)
    (v : Option Fp) (q : Pp) : (setFd proc p fd v q).Ok := by
  refine ok_update (fun q _ => hok q) ?_ q
  exact ⟨(hok p).unused, (hok p).used, fun hs => absurd hs (not_or.2 hl), (hok p).live⟩

theorem Exactly.setFile (he : Exactly b J P sl h H s) (f : Fp) (fl : File)
    (hi : fl.inodeRef = (s.file f).inodeRef) (hp : fl.pin = (s.file f).pin)
    (hend : fl.pipeEnd = (s.file f).pipeEnd) (hf : FilesInv (update s.file f fl) sl' h' ∅) :
    Exactly b J P sl' h' H { s with file := update s.file f fl } where
  fs := by
    have := he.fs
    rwa [← irefs_congr (f := f) hi, ← pins_congr (f := f) hp] at this
  file := hf
  pipe := by
    have := he.pipe
    rwa [← pipeEnds_congr (f := f) hend] at this
  mem := he.mem

theorem KInv.weaken (hk : KInv b J K P s) (hF : FsRules sb E J J') : KInv b J' K P s :=
  hk.withFs (hF.weaken hk.fs)

theorem ReadRules.done (hF : ReadRules sb E J J') (hk : KInv b J K P s) : Kept b J' K P s :=
  (hk.withFs (hF.weaken hk.fs)).kept

theorem KInv.done (hk : KInv b J K P s) (hF : FsRules sb E J J') : Kept b J' K P s :=
  hF.toReadRules.done hk

/-! ### `fileclose` -/

/-- **`pipeclose`** gives up an end, and the page with the last one. -/
theorem wp_pipeclose {ends : Fp → Option (ℕ × Bool)} {img : Pp → Image}
    {w : Bool} (hp : PipeInv ends s.pipe {(pi, w)} P) (hm : MemInv b s.mem img (P.val + H))
    (hQ : ∀ pipe m P', PipeInv ends pipe 0 P' → MemInv b m img (P'.val + H) →
      ∑ p, (img p).pages m = ∑ p, (img p).pages s.mem → Q ⟨⟩ { s with pipe := pipe, mem := m }) :
    wp (pipeclose b pi w) E Q s := by
  have hclose : PipeInv ends (update s.pipe pi ((s.pipe pi).close w)) 0 _ := hp.close
  have hmem : pi ∈ P := hp.mem_iff.2 ⟨w, hp.own.used_of_held (Multiset.mem_singleton_self _)⟩
  have hstep : wp (pipeclose b pi w) E Q s ↔
    (¬(s.pipe pi).isOpen (!w) = true → wp (kfree b pi) E (fun _ m => Q ⟨⟩
        { s with pipe := update s.pipe pi ((s.pipe pi).close w), mem := m }) s.mem) ∧
      (¬¬(s.pipe pi).isOpen (!w) = true →
        Q ⟨⟩ { s with pipe := update s.pipe pi ((s.pipe pi).close w) }) := by
    simp only [pipeclose, wp_bind, wp_setPipe, wp_get, wp_ite, wp_onMem, wp_pure, update_self,
      ← Pipe.closed_close_iff, Pipe.close]
  rw [hstep]
  constructor
  · intro ho
    rw [if_neg ho] at hclose
    rw [← Multiset.cons_erase (show pi ∈ P.val from hmem), Multiset.cons_add,
      ← Finset.erase_val] at hm
    exact hm.wp_kfree fun m₁ hm₁ hs =>
      hQ _ m₁ _ hclose hm₁ (sum_pages_congr (hs.mono le_self_add))
  · intro ho
    rw [if_pos (not_not.1 ho)] at hclose
    exact hQ _ s.mem P hclose hm rfl

theorem File.closed (fl : File) : ({ fl with ref := 0, type := .none } : File).inodeRef = none ∧
    ({ fl with ref := 0, type := .none } : File).pin = none ∧
    ({ fl with ref := 0, type := .none } : File).pipeEnd = none := ⟨rfl, rfl, rfl⟩

theorem File.ref_of_inode {fl : File} (h : fl.type = .inode ∨ fl.type = .device) :
    fl.inodeRef = some fl.ip ∧ fl.pipeEnd = none := by
  refine ⟨if_pos h, if_neg fun hp => ?_⟩
  rcases h with h | h <;> rw [h] at hp <;> cases hp

theorem File.ref_of_pipe {fl : File} (h : fl.type = .pipe) :
    fl.inodeRef = none ∧ fl.pin = none ∧ fl.pipeEnd = some (fl.pipe, fl.writable) := by
  simp [File.inodeRef, File.pin, File.pipeEnd, h]

theorem covers_pins (file : Fp → File) (proc : Pp → Proc) :
    Covers (irefs file proc) ∅ (pins file) := by
  rintro jp (hjp | hjp)
  · exact absurd hjp (Finset.notMem_empty jp)
  · exact irefs_pos_of_pin hjp

/-- **`fileclose`** gives up one reference to a struct file. -/
theorem wp_fileclose (hF : FsRules sb E J J') (he : Exactly b J P sl (h + Pi.single f 1) H s)
    (hQ : ∀ P' s', Exactly b J P' sl h H s' → s'.proc = s.proc → s'.initproc = s.initproc →
      s'.pages = s.pages → Q ⟨⟩ s') :
    wp (fileclose b sb f) E Q s := by
  have hr := he.file.ref_pos
  simp only [fileclose, wp_bind, wp_get, wp_ite, wp_throw]
  refine ⟨fun hlt => absurd hr (by omega), fun _ => ⟨fun hgt => ?_, fun hle => ?_⟩⟩
  · rw [wp_setFile]
    exact hQ P _ (he.setFile f _ rfl rfl rfl (he.file.drop hgt)) rfl rfl rfl
  have hone : (s.file f).ref = 1 := by omega
  have hfile := he.file.close hone
  rw [Finset.erase_eq_of_notMem (Finset.notMem_empty f)] at hfile
  obtain ⟨hcr, hcp, hce⟩ := (s.file f).closed
  simp only [wp_setFile]
  have hinode : (s.file f).type = .inode ∨ (s.file f).type = .device →
      wp (onFs beginOp >>= fun _ => onFs (iput sb (s.file f).ip) >>= fun _ => onFs endOp) E Q
        { s with file := update s.file f { s.file f with ref := 0, type := .none } } := by
    intro ht
    obtain ⟨hi, hend⟩ := File.ref_of_inode ht
    have hfs := he.fs
    rw [irefs_take hi hcr] at hfs
    have hpipe := he.pipe
    rw [← pipeEnds_congr (hce.trans hend.symm)] at hpipe
    simp only [wp_bind, wp_onFs]
    have h₀ := hF.mono_pin hfs (pins_update_subset (f := f) hcp)
    refine wp_mono (hF.beginOp h₀) fun _ fs₁ h₁ => ?_
    refine wp_mono (hF.iput h₁ (covers_pins _ _)) fun _ fs₂ h₂ => ?_
    exact wp_mono (hF.endOp h₂) fun _ fs₃ h₃ => hQ P _ ⟨h₃, hfile, hpipe, he.mem⟩ rfl rfl rfl
  cases ht : (s.file f).type with
  | none => exact absurd ht (he.file.type_ne hr)
  | pipe =>
    obtain ⟨hi, hp, hend⟩ := File.ref_of_pipe ht
    have hfs := he.fs
    rw [← irefs_congr (hcr.trans hi.symm), ← pins_congr (hcp.trans hp.symm)] at hfs
    have hpipe : PipeInv (pipeEnds (update s.file f { s.file f with ref := 0, type := .none }))
        s.pipe {((s.file f).pipe, (s.file f).writable)} P := by
      refine ⟨?_, he.pipe.pages⟩
      rw [pipeEnds_update, hce]
      exact he.pipe.own.take (p := f) hend
    refine wp_pipeclose hpipe he.mem fun pipe m P' hp' hm' hpages => ?_
    exact hQ P' _ ⟨hfs, hfile, hp', hm'⟩ rfl rfl hpages
  | inode => exact hinode (.inl ht)
  | device => exact hinode (.inr ht)

/-! ### Opening a file -/

theorem wp_fileclose_fresh (hr : (s.file f).ref = 1) (ht : (s.file f).type = .none)
    (hQ : Q ⟨⟩ { s with file := update s.file f { s.file f with ref := 0, type := .none } }) :
    wp (fileclose b sb f) E Q s := by
  simp only [fileclose, wp_bind, wp_get, wp_ite, wp_throw, wp_setFile, ht, wp_pure]
  exact ⟨fun hlt => absurd hlt (by omega), fun _ => ⟨fun hgt => absurd hgt (by omega), fun _ => hQ⟩⟩

section

variable (i : Inode) (ip : Ip) (omode : UInt32) (fl : File)

theorem openedFile_ref : (openedFile i ip omode fl).ref = fl.ref := by
  unfold openedFile
  split_ifs <;> rfl

theorem openedFile_type :
    (openedFile i ip omode fl).type = if i.type = T_DEVICE then .device else .inode := by
  unfold openedFile
  split_ifs <;> rfl

theorem openedFile_inodeRef : (openedFile i ip omode fl).inodeRef = some ip := by
  have ht := openedFile_type i ip omode fl
  refine (File.ref_of_inode ?_).1.trans rfl
  rw [ht]
  split_ifs
  · exact .inr rfl
  · exact .inl rfl

theorem openedFile_pipeEnd : (openedFile i ip omode fl).pipeEnd = none := by
  refine (File.ref_of_inode ?_).2
  rw [openedFile_type]
  split_ifs
  · exact .inr rfl
  · exact .inl rfl

theorem openedFile_pin : (openedFile i ip omode fl).pin = none ∨
    (openedFile i ip omode fl).pin = some ip ∧ omode ≠ O_RDONLY := by
  by_cases h : (openedFile i ip omode fl).type = .inode ∧ (openedFile i ip omode fl).writable = true
  · refine .inr ⟨if_pos h, ?_⟩
    rintro rfl
    have hw := h.2
    simp [openedFile, O_RDONLY] at hw
  · exact .inl (if_neg h)

end

theorem irefs_setFd (file : Fp → File) (proc : Pp → Proc) (p : Pp) (fd : Fin NOFILE)
    (v : Option Fp) : irefs file (setFd proc p fd v) = irefs file proc := by
  rw [irefs, cwds_setFd, irefs]

theorem File.unused {fl : File} (h : fl.type = .none) :
    fl.inodeRef = none ∧ fl.pin = none ∧ fl.pipeEnd = none := by
  simp [File.inodeRef, File.pin, File.pipeEnd, h]

theorem KInv.opened (hk : KInv b J K P s) (hl : (s.proc p).Live) {fd : Fin NOFILE}
    {fl : File} {ip : Ip} {fs : Fs} (hf : (s.file f).ref = 0) (hfd : (s.proc p).ofile fd = none)
    (hone : fl.ref = 1) (ht : fl.type ≠ .none) (hi : fl.inodeRef = some ip)
    (hend : fl.pipeEnd = none)
    (hfs : J' (irefs s.file s.proc + Pi.single ip 1) ∅ (pins (update s.file f fl)) fs) :
    KInv b J' K P { s with
      fs := fs, file := update s.file f fl, proc := setFd s.proc p fd (some f) } where
  fs := by
    have hstore : irefs (update s.file f fl) s.proc = _ :=
      irefs_store (File.unused (hk.file.idle f hf)).1 hi
    rw [← hstore, ← irefs_setFd _ _ p fd (some f)] at hfs
    exact hfs
  file := by
    have halloc := hk.file.alloc hf
    have hstore := halloc.store (x := (p, fd)) hfd
    rw [← slots_setFd] at hstore
    have htype : FilesInv (update _ f fl) _ _ _ := hstore.setType (by simp) (by simp [hone]) ht
      fun hp => by
        rw [File.pipeEnd, if_pos hp] at hend
        cases hend
    rwa [update_idem, Finset.erase_insert (Finset.notMem_empty f)] at htype
  pipe := by
    have hp := hk.pipe
    rwa [← pipeEnds_congr (f := f) (hend.trans (File.unused (hk.file.idle f hf)).2.2.symm)] at hp
  mem := by
    have hm := hk.mem
    simp only [images_setFd]
    exact hm
  proc := ok_setFd hk.proc hl fd _

/-! ### `sys_read`, and writing to a pipe -/

theorem wp_copyoutProc {Q : ℤ → Kernel → Prop} (he : Exactly b J P sl h H s)
    (hr : (s.proc p).pagetable = some root)
    (hQ : ∀ r m, Exactly b J P sl h H { s with mem := m } →
      ({ s with mem := m } : Kernel).pages = s.pages → Q r { s with mem := m }) :
    wp (copyoutProc p dst src) E Q s := by
  simp only [copyoutProc, wp_bind, wp_get, wp_deref hr, wp_onMem]
  exact he.mem.wp_copyout (p := p) hr fun r m hm hpages =>
    hQ r m ⟨he.fs, he.file, he.pipe, hm⟩ hpages

theorem KInv.wp_copyoutProc {Q : ℤ → Kernel → Prop} (hk : KInv b J K P s)
    (hl : (s.proc p).Live)
    (hQ : ∀ r m, KInv b J K P { s with mem := m } → Q r { s with mem := m }) :
    wp (copyoutProc p dst src) E Q s := by
  obtain ⟨root, tf, cwd, hr, -, -⟩ := hk.live hl
  exact Xv6.wp_copyoutProc hk.toExactly hr fun r m hm _ => hQ r m ⟨hm, hk.proc⟩

theorem KInv.setPipe (hk : KInv b J K P s) (pi : ℕ) (q : Pipe)
    (hr : q.readopen = (s.pipe pi).readopen) (hw : q.writeopen = (s.pipe pi).writeopen) :
    KInv b J K P { s with pipe := update s.pipe pi q } := by
  have hopen (qi : ℕ) (w : Bool) : (update s.pipe pi q qi).isOpen w = (s.pipe qi).isOpen w :=
    apply_update_of_eq (Pipe.isOpen · w) (by rw [Pipe.isOpen, Pipe.isOpen, hr, hw]) qi
  refine { hk with pipe := ⟨hk.pipe.own.congr fun e => by rw [hopen], fun qi => ?_⟩ }
  rw [Pipe.isOpen_iff, hk.pipe.mem_iff]
  exact exists_congr fun w => by rw [hopen]

theorem KInv.setOff (hk : KInv b J K P s) (f : Fp) (off : UInt32) :
    KInv b J K P { s with file := update s.file f { s.file f with off := off } } := by
  refine ⟨hk.toExactly.setFile f _ rfl rfl rfl ?_, hk.proc⟩
  exact hk.file.update (fun _ _ => rfl) (fun _ _ hg => hg) (hk.file.ref f) (hk.file.idle f)
    (hk.file.typed f) (hk.file.mode f)

theorem wp_pipereadFrom (hF : ReadRules sb E J J') (k i : ℕ) (hk : KInv b J K P s)
    (hl : (s.proc p).Live) : wp (pipereadFrom p pi addr k i) E (fun _ => Kept b J' K P) s := by
  induction k generalizing i s with
  | zero => exact wp_pure.2 (hF.done hk)
  | succ k ih =>
    simp only [pipereadFrom, wp_bind, wp_get, wp_ite, wp_pure, wp_setPipe]
    refine ⟨fun _ => hF.done hk, fun _ => ?_⟩
    have hk₁ := hk.setPipe pi { s.pipe pi with nread := (s.pipe pi).nread + 1 } rfl rfl
    exact hk₁.wp_copyoutProc hl fun r m hk' => ⟨fun _ => hF.done hk', fun _ => ih _ hk' hl⟩

theorem wp_consolereadFrom (hF : ReadRules sb E J J') (input : List UInt8) (k i : ℕ)
    (hk : KInv b J K P s) (hl : (s.proc p).Live) :
    wp (consolereadFrom p addr input k i) E (fun _ => Kept b J' K P) s := by
  induction input generalizing k i s with
  | nil =>
    cases k with
    | zero => exact wp_pure.2 (hF.done hk)
    | succ k =>
      simp only [consolereadFrom, wp_bind, wp_get, wp_ite, wp_pure, wp_throw]
      exact ⟨fun _ => hF.done hk, fun _ => hF.asleep⟩
  | cons c input ih =>
    cases k with
    | zero => exact wp_pure.2 (hF.done hk)
    | succ k =>
      simp only [consolereadFrom, wp_bind, wp_ite, wp_pure]
      refine ⟨fun _ => hF.done hk, fun _ => hk.wp_copyoutProc hl fun r m hk' => ?_⟩
      exact ⟨fun _ => hF.done hk', fun _ => ⟨fun _ => hF.done hk', fun _ => ih k _ hk' hl⟩⟩

theorem irefs_pos_of_type (proc : Pp → Proc)
    (ht : (file f).type = .inode ∨ (file f).type = .device) : 0 < irefs file proc (file f).ip :=
  irefs_pos_of_file (f := f) (if_pos ht)

theorem wp_sysRead (hF : ReadRules sb E J J') {input : List UInt8} (hk : KInv b J K P s)
    (hl : (s.proc p).Live) : wp (sysRead sb p fd addr n input) E (fun _ => Kept b J' K P) s := by
  obtain ⟨root, tf, cwd, hr, -, -⟩ := hk.live hl
  simp only [sysRead, wp_bind]
  refine wp_argfd (wp_pure.2 (hF.done hk)) fun i f hf => ?_
  have hne := hk.file.type_ne (hk.file.ref_pos_of_slot (x := (p, i)) hf)
  simp only [fileread, wp_bind, wp_get, wp_ite, wp_pure]
  refine ⟨fun _ => hF.done hk, fun _ => ?_⟩
  cases ht : (s.file f).type with
  | none => exact absurd ht hne
  | pipe =>
    simp only [piperead, wp_bind, wp_get, wp_ite, wp_pure, wp_throw]
    exact ⟨fun _ => ⟨fun _ => hF.done hk, fun _ => hF.asleep⟩,
      fun _ => wp_pipereadFrom hF _ _ hk hl⟩
  | device =>
    simp only [wp_ite, wp_pure]
    exact ⟨fun _ => wp_consolereadFrom hF input _ _ hk hl, fun _ => hF.done hk⟩
  | inode =>
    simp only [wp_bind, wp_deref hr, wp_onFs, wp_setFile, wp_pure]
    refine wp_mono (hF.ilock hk.fs (irefs_pos_of_type _ (.inl ht))) fun _ fs₁ h₁ => ?_
    refine wp_mono (hF.readi h₁) fun data fs₂ h₂ => wp_mono (hF.readi h₂) fun bytes fs₃ h₃ => ?_
    -- meanwhile the inode is locked
    have hk₃ : KInv b (fun R _ W fs => J R {(s.file f).ip} W fs) K P { s with fs := fs₃ } :=
      hk.withFs h₃
    refine hk₃.wp_copyoutProc hl fun r m hk₄ => ?_
    have hk₅ := hk₄.setOff f ((s.file f).off + UInt32.ofNat data.length)
    exact wp_mono (hF.iunlock hk₅.fs) fun _ fs₆ h₆ => hF.done (hk₅.withFs h₆)

/-! ### Making a pipe -/

theorem Exactly.setFiles {P' : Finset ℕ} {pipe : ℕ → Pipe} {m : Mem} (he : Exactly b J P sl h H s)
    (hi : inodeRefs file = inodeRefs s.file)
    (hp : (fun f => (file f).pin) = fun f => (s.file f).pin) (hf : FilesInv file sl' h' ∅)
    (hpipe : PipeInv (pipeEnds file) pipe 0 P') (hm : MemInv b m (images s.proc) (P'.val + H)) :
    Exactly b J P' sl' h' H { s with file := file, pipe := pipe, mem := m } where
  fs := by
    have hfs := he.fs
    have hpins : pins file = pins s.file := by
      ext ip
      simp only [mem_pins, fun f => congrFun hp f]
    rw [irefs, ← hi] at hfs
    rw [hpins]
    exact hfs
  file := hf
  pipe := hpipe
  mem := hm

def pipeFile (fl : File) (pi : ℕ) (w : Bool) : File :=
  { fl with type := .pipe, readable := !w, writable := w, pipe := pi }

theorem update_back (file : Fp → File) (f g : Fp) (x y : File) : update
    (update (update (update file f x) g y) f (file f)) g (file g) = file := by
  funext e
  by_cases hg : e = g
  · rw [hg, update_self]
  · rw [update_of_ne hg]
    by_cases hf : e = f
    · rw [hf, update_self]
    · rw [update_of_ne hf, update_of_ne hg, update_of_ne hf]

/-- **`pipealloc`** leaves the kernel as it was, or makes a pipe with both ends in hand. -/
theorem wp_pipealloc {Q : Option (Fp × Fp) → Kernel → Prop} (he : Exactly b J P sl h H s)
    (hnone : Q none s)
    (hsome : ∀ f0 f1 pi s', Exactly b J (insert pi P) sl
      (h + Pi.single f0 1 + Pi.single f1 1) H s' → s'.proc = s.proc → s'.pages = s.pages →
      Q (some (f0, f1)) s') :
    wp (pipealloc b sb) E Q s := by
  simp only [pipealloc, wp_bind]
  refine wp_filealloc (fun _ => wp_pure.2 hnone) fun f0 hf0 => ?_
  simp only [wp_bind]
  have hidle : ∀ f, (s.file f).ref = 0 → ({ s.file f with ref := 0, type := .none } : File) =
      s.file f := by
    intro f hf
    have ht := he.file.idle f hf
    rw [← hf, ← ht]
  have hA := he.file.alloc hf0
  refine wp_filealloc (fun _ => ?_) fun f1 hf1 => ?_
  · simp only [wp_bind]
    refine wp_fileclose_fresh (by simp) (by simpa using he.file.idle f0 hf0) ?_
    simp only [update_self, update_idem]
    rw [hidle f0 hf0, update_eq_self]
    exact wp_pure.2 hnone
  have hne : f1 ≠ f0 := by
    rintro rfl
    simp at hf1
  simp only [update_of_ne hne] at hf1
  have hB := hA.alloc (f := f1) (by simpa only [update_of_ne hne] using hf1)
  simp only [wp_bind, wp_onMem, update_of_ne hne] at hB ⊢
  refine he.mem.wp_kalloc (fun _ => ?_) fun pi m₁ hm₁ hs₁ _ => ?_
  · simp only [wp_bind]
    refine wp_fileclose_fresh (by simp [hne.symm])
      (by simpa [hne.symm] using he.file.idle f0 hf0) ?_
    refine wp_fileclose_fresh (by simp [hne]) (by simpa [hne] using he.file.idle f1 hf1) ?_
    have hback := update_back s.file f0 f1 { s.file f0 with ref := 1 } { s.file f1 with ref := 1 }
    simp only [update_self, update_of_ne hne, update_of_ne hne.symm]
    rw [hidle f0 hf0, hidle f1 hf1, hback]
    exact wp_pure.2 hnone
  have hpi : pi ∉ P := fun hin => by
    have hnd := hm₁.own.nodup b.managed
    rw [Multiset.add_cons, Multiset.nodup_cons] at hnd
    exact hnd.1 (Multiset.mem_add.2 (.inr (Multiset.mem_add.2 (.inl hin))))
  have hC : FilesInv (update _ f0 (pipeFile { s.file f0 with ref := 1 } pi false)) _ _ _ :=
    hB.setType (by simp [hne.symm]) (by simp [hne.symm, pipeFile]) (by simp [pipeFile])
      (by simp [pipeFile])
  have hD : FilesInv (update _ f1 (pipeFile { s.file f1 with ref := 1 } pi true)) _ _ _ :=
    hC.setType (by simp [hne]) (by simp [hne, pipeFile]) (by simp [pipeFile]) (by simp [pipeFile])
  have hN : ((insert f1 (insert f0 ∅) : Finset Fp).erase f0).erase f1 = ∅ := by
    ext g
    simp only [Finset.mem_erase, Finset.mem_insert, Finset.notMem_empty]
    tauto
  have hfile : ∀ x y, update (update (update (update s.file f0 x) f1 y) f0
      (pipeFile { s.file f0 with ref := 1 } pi false)) f1
      (pipeFile { s.file f1 with ref := 1 } pi true) =
      update (update s.file f0 (pipeFile { s.file f0 with ref := 1 } pi false)) f1
        (pipeFile { s.file f1 with ref := 1 } pi true) := by
    intro x y
    rw [update_comm hne, update_idem, update_idem]
  rw [hN, hfile] at hD
  have hnone0 := File.unused (he.file.idle f0 hf0)
  have hnone1 := File.unused (he.file.idle f1 hf1)
  simp only [wp_bind, wp_setPipe, wp_setFile, wp_pure, update_self, update_of_ne hne,
    update_of_ne hne.symm]
  simp only [pipeFile, Bool.not_false, Bool.not_true] at hfile hD
  rw [hfile]
  refine hsome f0 f1 pi _ (he.setFiles (m := m₁) ?_ ?_ hD ?_ ?_) rfl
    (sum_pages_congr (hs₁.mono le_self_add))
  · rw [inodeRefs_congr, inodeRefs_congr]
    · exact hnone0.1.symm
    · rw [update_of_ne hne]
      exact hnone1.1.symm
  · refine (view_update_of_eq File.pin _ f1 ?_).trans
      (view_update_of_eq File.pin _ f0 hnone0.2.1.symm)
    rw [update_of_ne hne]
    exact hnone1.2.1.symm
  · have hopen :=
      he.pipe.open
        (q := { data := fun _ => 5, nread := 0, nwrite := 0, readopen := true, writeopen := true })
        hpi rfl rfl
    refine ⟨?_, hopen.pages⟩
    have h0 := hopen.own.store (p := f0) hnone0.2.2
    have h1 := h0.store (p := f1) (by rw [update_of_ne hne]; exact hnone1.2.2)
    rw [pipeEnds_update, pipeEnds_update]
    exact h1
  · rw [Finset.insert_val_of_notMem hpi, Multiset.cons_add]
    exact hm₁

theorem setFd_undo {fd : Fin NOFILE} {v : Option Fp} (hfd : (proc p).ofile fd = none) :
    setFd (setFd proc p fd v) p fd none = proc := by
  funext q
  by_cases hq : q = p
  · subst hq
    rw [setFd_self, setFd_self, update_idem, ← hfd, update_eq_self]
  · rw [setFd_of_ne hq, setFd_of_ne hq]

theorem setFd_comm (proc : Pp → Proc) {fd e : Fin NOFILE} (h : fd ≠ e) (v w : Option Fp) :
    setFd (setFd proc p fd v) p e w = setFd (setFd proc p e w) p fd v := by
  funext q
  by_cases hq : q = p
  · subst hq
    rw [setFd_self, setFd_self, setFd_self, setFd_self, update_comm h]
  · rw [setFd_of_ne hq, setFd_of_ne hq, setFd_of_ne hq, setFd_of_ne hq]

theorem wp_pipeAbort (hF : FsRules sb E J J') (hk : KInv b J K P s)
    (he : Exactly b J P₁ (slots s.proc) (Pi.single rf 1 + Pi.single wf 1) K s₁)
    (hproc : s₁.proc = s.proc) (hpages : s₁.pages = s.pages) :
    wp (sysPipe.close b sb rf wf) E (fun _ => Kept b J' K P) s₁ := by
  rw [add_comm] at he
  simp only [sysPipe.close, wp_bind, wp_pure]
  refine wp_fileclose hF he fun P₂ s₂ h₂ hproc₂ _ hpages₂ => ?_
  rw [← zero_add (Pi.single wf 1)] at h₂
  refine wp_fileclose hF h₂ fun P₃ s₃ h₃ hproc₃ _ hpages₃ => ?_
  have hs : s₃.proc = s.proc := hproc₃.trans (hproc₂.trans hproc)
  have hk₃ : KInv b J K P₃ s₃ := by
    refine ⟨?_, fun q => ?_⟩
    · rwa [hs]
    · rw [hs]
      exact hk.proc q
  exact hk.kept_of_pages (hk₃.weaken hF) (hpages₃.trans (hpages₂.trans hpages))

/-! ### The other calls on files -/

section

variable (hF : FsRules sb E J J') (hk : KInv b J K P s) (hl : (s.proc p).Live)
include hF hk hl

theorem wp_sysDup : wp (sysDup p fd) E (fun _ => Kept b J' K P) s := by
  simp only [sysDup, wp_bind]
  refine wp_argfd (wp_pure.2 (hk.done hF)) fun i f hf => ?_
  simp only [wp_bind]
  refine wp_fdalloc (fun _ => wp_pure.2 (hk.done hF)) fun e he => ?_
  have hr : 0 < (s.file f).ref := hk.file.ref_pos_of_slot (x := (p, i)) hf
  simp only [filedup, wp_bind, wp_get, wp_ite, wp_throw, wp_setFile, wp_pure]
  refine ⟨fun hlt => absurd hr (by omega), fun _ => ?_⟩
  have hdup := (hk.file.dup hr).store (x := (p, e)) he
  rw [← slots_setFd] at hdup
  exact KInv.done ⟨(hk.toExactly.setFd p e (some f)).setFile f _ rfl rfl rfl hdup,
    ok_setFd hk.proc hl e _⟩ hF

theorem wp_sysClose : wp (sysClose b sb p fd) E (fun _ => Kept b J' K P) s := by
  simp only [sysClose, wp_bind]
  refine wp_argfd (wp_pure.2 (hk.done hF)) fun i f hf => ?_
  simp only [wp_bind, wp_setOfile, wp_pure]
  have htake := hk.file.take (x := (p, i)) hf
  have hex := hk.toExactly.setFd p i none
  rw [← slots_setFd] at htake
  refine wp_fileclose hF (h := 0) (s := { s with proc := setFd s.proc p i none })
    ⟨hex.fs, htake, hex.pipe, hex.mem⟩ fun P' s' he' hproc _ hpages => ?_
  have hk' : KInv b J K P' s' := by
    refine ⟨?_, ?_⟩
    · rw [hproc]
      exact he'
    · rw [hproc]
      exact ok_setFd hk.proc hl i none
  refine hk.kept_of_pages (hk'.weaken hF) (hpages.trans ?_)
  simp only [Kernel.pages, images_setFd]

theorem wp_sysLink {old new : ℕ} : wp (sysLink sb p old new) E (fun _ => Kept b J' K P) s := by
  obtain ⟨root, tf, ip, hr, ht, hc⟩ := hk.live hl
  simp only [sysLink, wp_bind]
  refine wp_argstr hr fun r => ?_
  cases r with
  | none => exact wp_pure.2 (hk.done hF)
  | some old =>
    simp only [wp_bind]
    refine wp_argstr hr fun r => ?_
    cases r with
    | none => exact wp_pure.2 (hk.done hF)
    | some new =>
      simp only [wp_bind, wp_get, wp_deref hc, wp_onFs]
      exact wp_mono (hF.link hk.fs (irefs_pos_of_cwd hc)) fun r fs hfs => (hk.withFs hfs).kept

theorem wp_sysUnlink : wp (sysUnlink sb p path) E (fun _ => Kept b J' K P) s := by
  obtain ⟨root, tf, ip, hr, ht, hc⟩ := hk.live hl
  simp only [sysUnlink, wp_bind]
  refine wp_argstr hr fun r => ?_
  cases r with
  | none => exact wp_pure.2 (hk.done hF)
  | some path =>
    simp only [wp_bind, wp_get, wp_deref hc, wp_onFs]
    exact wp_mono (hF.unlink hk.fs (irefs_pos_of_cwd hc)) fun r fs hfs => (hk.withFs hfs).kept

theorem wp_sysMkdir : wp (sysMkdir sb p path) E (fun _ => Kept b J' K P) s := by
  obtain ⟨root, tf, ip, hr, ht, hc⟩ := hk.live hl
  simp only [sysMkdir, wp_bind]
  refine wp_argstr hr fun r => ?_
  simp only [wp_get, wp_deref hc, wp_onFs]
  exact wp_mono (hF.make hk.fs (irefs_pos_of_cwd hc) (.inl rfl)) fun r fs hfs =>
    (hk.withFs hfs).kept

theorem wp_sysMknod {major minor : UInt16} :
    wp (sysMknod sb p path major minor) E (fun _ => Kept b J' K P) s := by
  obtain ⟨root, tf, ip, hr, ht, hc⟩ := hk.live hl
  simp only [sysMknod, wp_bind]
  refine wp_argstr hr fun r => ?_
  simp only [wp_get, wp_deref hc, wp_onFs]
  exact wp_mono (hF.make hk.fs (irefs_pos_of_cwd hc) (.inr rfl)) fun r fs hfs =>
    (hk.withFs hfs).kept

theorem wp_sysChdir : wp (sysChdir sb p path) E (fun _ => Kept b J' K P) s := by
  obtain ⟨root, tf, cwd, hr, ht, hc⟩ := hk.live hl
  have hfs := hk.fs
  have htake : irefs s.file s.proc = irefs s.file (update s.proc p { s.proc p with cwd := none }) +
      Pi.single cwd 1 := irefs_cwd_take hc rfl
  rw [htake] at hfs
  simp only [sysChdir, wp_bind]
  refine wp_argstr hr fun r => ?_
  simp only [wp_get, wp_deref hc, wp_onFs]
  refine wp_mono (hF.enter hfs (covers_pins _ _)) fun r fs' h' => ?_
  cases r with
  | none =>
    rw [Option.getD_none, ← htake] at h'
    exact wp_pure.2 ((hk.withFs h').done hF)
  | some ip =>
    simp only [wp_bind, wp_setProc, wp_pure]
    set pr : Proc := { s.proc p with cwd := some ip } with hpr
    have hok : pr.Ok :=
      ⟨(hk.proc p).unused, (hk.proc p).used, fun hs => absurd hs (not_or.2 hl), fun _ _ => by
        simp [hpr]⟩
    have hstore : irefs s.file (update s.proc p pr) =
        irefs s.file (update s.proc p { s.proc p with cwd := none }) + Pi.single ip 1 := by
      have hnone : cwds (update s.proc p { s.proc p with cwd := none }) p = none := by
        rw [cwds_update, update_self]
      have := irefs_cwd_store s.file hnone (show pr.cwd = some ip from rfl)
      rwa [update_idem] at this
    rw [Option.getD_some, ← hstore] at h'
    exact (hk.setProc p pr rfl rfl hok h').done hF

theorem wp_sysOpen {omode : UInt32} :
    wp (sysOpen b sb p path omode) E (fun _ => Kept b J' K P) s := by
  obtain ⟨root, tf, cwd, hr, ht, hc⟩ := hk.live hl
  simp only [sysOpen, wp_bind]
  refine wp_argstr hr fun r => ?_
  cases r with
  | none => exact wp_pure.2 (hk.done hF)
  | some path =>
    simp only [wp_bind, wp_get, wp_deref hc, wp_onFs]
    refine wp_mono (hF.openInode hk.fs (irefs_pos_of_cwd hc)) fun r fs₁ h₁ => ?_
    cases r with
    | none => exact wp_pure.2 (hk.withFs h₁).kept
    | some ip =>
      rw [Option.elim_some] at h₁
      -- every error exit gives the inode back, with the struct files as they were
      have hfail : wp (sysOpen.fail sb ip) E (fun _ => Kept b J' K P) { s with fs := fs₁ } := by
        have h := h₁.fail
        simp only [wp_bind] at h
        simp only [sysOpen.fail, wp_bind, wp_onFs, wp_pure]
        exact wp_mono h fun _ fs₂ h₂ => wp_mono h₂ fun _ fs₃ h₃ => (hk.withFs h₃).kept
      simp only [wp_bind, wp_get, wp_ite]
      refine ⟨fun _ => hfail, fun _ => ?_⟩
      refine wp_filealloc (fun _ => hfail) fun f hf => ?_
      have hnone : (s.file f).type = .none := hk.file.idle f hf
      simp only [wp_bind]
      refine wp_fdalloc (fun _ => ?_) fun fd hfd => ?_
      · simp only [wp_bind]
        refine wp_fileclose_fresh (by simp) (by simpa using hnone) ?_
        have hback : ({ s.file f with ref := 0, type := .none } : File) = s.file f := by
          rw [← hf, ← hnone]
        simp only [update_self, update_idem]
        rw [hback, update_eq_self]
        exact hfail
      simp only [wp_setFile, wp_onFs, wp_bind, wp_pure, update_self, update_idem]
      set fl := openedFile (fs₁.inode ip) ip omode { s.file f with ref := 1 } with hfl
      have hpins : pins (update s.file f fl) = pins s.file ∨
          pins (update s.file f fl) = insert ip (pins s.file) ∧ omode ≠ O_RDONLY := by
        have hpin := (File.unused hnone).2.1
        rcases openedFile_pin (fs₁.inode ip) ip omode { s.file f with ref := 1 } with h | ⟨h, ho⟩
        · exact .inl (pins_congr (h.trans hpin.symm))
        · exact .inr ⟨pins_store hpin h, ho⟩
      refine wp_mono (h₁.finish _ hpins) fun _ fs₂ h₂ =>
        KInv.kept (hk.opened hl hf hfd ?_ ?_ ?_ ?_ h₂)
      · exact openedFile_ref ..
      · rw [hfl, openedFile_type]
        split_ifs <;> simp
      · exact openedFile_inodeRef ..
      · exact openedFile_pipeEnd ..

theorem wp_pipewriteFrom (k i : ℕ) :
    wp (pipewriteFrom p pi addr k i) E (fun _ => Kept b J' K P) s := by
  induction k generalizing i s with
  | zero => exact wp_pure.2 (hk.done hF)
  | succ k ih =>
    obtain ⟨root, tf, cwd, hr, ht, hc⟩ := hk.live hl
    simp only [pipewriteFrom, wp_bind, wp_get, wp_ite, wp_pure, wp_throw, wp_deref hr, wp_setPipe]
    refine ⟨fun _ => ⟨fun _ => hk.done hF, fun _ => hF.asleep⟩,
      fun _ => ⟨fun _ => ?_, fun _ => hk.done hF⟩⟩
    refine ih ?_ ?_ (i + 1)
    · exact hk.setPipe pi _ rfl rfl
    · exact hl

theorem wp_sysFstat : wp (sysFstat sb p fd addr) E (fun _ => Kept b J' K P) s := by
  simp only [sysFstat, wp_bind]
  refine wp_argfd (wp_pure.2 (hk.done hF)) fun i f hf => ?_
  simp only [filestat, wp_bind, wp_get, wp_ite, wp_pure, wp_onFs]
  refine ⟨fun ht => ?_, fun _ => hk.done hF⟩
  refine wp_mono (hF.ilock hk.fs (irefs_pos_of_type _ ht)) fun _ fs₁ h₁ => ?_
  refine wp_mono (hF.iunlock h₁) fun _ fs₂ h₂ => ?_
  exact (hk.withFs h₂).wp_copyoutProc hl fun r m hk' => ⟨fun _ => hk'.done hF, fun _ => hk'.done hF⟩

theorem wp_filewriteFrom {n : ℕ} (fuel i : ℕ) (ht : (s.file f).type = .inode)
    (hw : (s.file f).writable = true) :
    wp (filewriteFrom sb p f addr n fuel i) E (fun _ => Kept b J' K P) s := by
  induction fuel generalizing i s with
  | zero => exact wp_pure.2 (hk.done hF)
  | succ fuel ih =>
    obtain ⟨root, tf, cwd, hr, -, hc⟩ := hk.live hl
    have hpin : (s.file f).ip ∈ pins s.file := mem_pins.2 ⟨f, if_pos ⟨ht, hw⟩⟩
    have hmax : min (n - i) WRITEMAX < 2 ^ 32 := (Nat.min_le_right ..).trans_lt (by decide)
    have hlen : (UInt32.ofNat (min (n - i) WRITEMAX)).toNat = min (n - i) WRITEMAX := by
      rw [UInt32.toNat_ofNat', Nat.mod_eq_of_lt hmax]
    simp only [filewriteFrom, wp_bind, wp_get, wp_ite, wp_pure, wp_throw, wp_deref hr, wp_onFs,
      wp_setFile]
    refine ⟨fun _ => ?_, fun _ => hk.done hF⟩
    refine wp_mono (hF.beginOp hk.fs) fun _ fs₁ h₁ => ?_
    refine wp_mono (hF.ilock h₁ (irefs_pos_of_pin hpin)) fun _ fs₂ h₂ => ?_
    refine wp_mono (hF.writei h₂ hpin) fun r fs₃ h₃ => ?_
    refine wp_mono (hF.iunlock h₃.2) fun _ fs₄ h₄ => wp_mono (hF.endOp h₄) fun _ fs₅ h₅ => ?_
    obtain ⟨off, hoff⟩ :
        ∃ off, (if 0 < r then { s.file f with off := (s.file f).off + UInt32.ofNat r.toNat } else
        s.file f) = { s.file f with off := off } := by
      split_ifs
      · exact ⟨_, rfl⟩
      · exact ⟨_, rfl⟩
    have hk₅ := (hk.withFs h₅).setOff f off
    simp only [hoff]
    refine ⟨fun _ => hk₅.done hF, fun hneg => ⟨fun hne => ?_, fun _ => ?_⟩⟩
    · rcases h₃.1 with rfl | rfl
      · exact absurd (by decide) hneg
      · exact absurd (by rw [hlen]) hne
    · exact ih hk₅ hl _ (by simpa using ht) (by simpa using hw)

theorem wp_sysWrite : wp (sysWrite sb p fd addr n) E (fun _ => Kept b J' K P) s := by
  obtain ⟨root, tf, cwd, hr, -, hc⟩ := hk.live hl
  simp only [sysWrite, wp_bind]
  refine wp_argfd (wp_pure.2 (hk.done hF)) fun i f hf => ?_
  have hne := hk.file.type_ne (hk.file.ref_pos_of_slot (x := (p, i)) hf)
  simp only [filewrite, wp_bind, wp_get, wp_ite, wp_pure]
  refine ⟨fun _ => hk.done hF, fun hw => ?_⟩
  cases ht : (s.file f).type with
  | none => exact absurd ht hne
  | pipe => exact wp_pipewriteFrom hF hk hl _ _
  | inode =>
    simp only [wp_bind, wp_pure]
    exact wp_filewriteFrom hF hk hl _ _ ht (by simpa using hw)
  | device =>
    simp only [consolewrite, wp_ite, wp_bind, wp_get, wp_deref hr, wp_pure]
    exact ⟨fun _ => hk.done hF, fun _ => hk.done hF⟩

theorem wp_sysPipe {fdarray : ℕ} : wp (sysPipe b sb p fdarray) E (fun _ => Kept b J' K P) s := by
  obtain ⟨root, tf, cwd, hr, -, -⟩ := hk.live hl
  simp only [sysPipe, wp_bind]
  refine wp_pipealloc hk.toExactly (wp_pure.2 (hk.done hF)) fun rf wf pi s₁ h₁ hproc hpages => ?_
  rw [zero_add] at h₁
  simp only [wp_bind]
  refine wp_fdalloc (fun _ => wp_pipeAbort hF hk h₁ hproc hpages) fun fd0 hfd0 => ?_
  have hundo0 : setFd (setFd s₁.proc p fd0 (some rf)) p fd0 none = s₁.proc := setFd_undo hfd0
  simp only [wp_bind]
  refine wp_fdalloc (fun _ => ?_) fun fd1 hfd1 => ?_
  · simp only [wp_bind, wp_setOfile]
    rw [hundo0]
    exact wp_pipeAbort hF hk h₁ hproc hpages
  have hne : fd0 ≠ fd1 := by
    rintro rfl
    simp [setFd_self] at hfd1
  simp only [setFd_self, update_of_ne hne.symm] at hfd1
  have hr₁ : (s₁.proc p).pagetable = some root := by rw [hproc, hr]
  -- with the two descriptors set, whatever the user memory is
  have hsl :
      FilesInv s₁.file (slots (setFd (setFd s₁.proc p fd0 (some rf)) p fd1 (some wf))) 0 ∅ := by
    have hfile := h₁.file
    rw [← hproc, ← zero_add (Pi.single rf 1)] at hfile
    have h0 := hfile.store (x := (p, fd1)) hfd1
    have h1 := h0.store (x := (p, fd0)) (by rw [update_of_ne (by simp [hne])]; exact hfd0)
    rwa [← slots_setFd, ← slots_setFd, setFd_comm _ hne.symm] at h1
  have h₂ := (h₁.setFd p fd0 (some rf)).setFd p fd1 (some wf)
  have hpages₂ :
      ({ s₁ with proc := setFd (setFd s₁.proc p fd0 (some rf)) p fd1 (some wf) } : Kernel).pages =
      s₁.pages := by
    simp only [Kernel.pages, images_setFd]
  have hok : ∀ q, (setFd (setFd s₁.proc p fd0 (some rf)) p fd1 (some wf) q).Ok := by
    have hl₁ : (s₁.proc p).Live := by rwa [hproc]
    refine ok_setFd (ok_setFd (by rw [hproc]; exact hk.proc) hl₁ _ _) ?_ _ _
    rw [setFd_self]
    exact hl₁
  -- a failure takes both descriptors back
  have hback : ∀ m, Exactly b J (insert pi P) (slots s.proc) (Pi.single rf 1 + Pi.single wf 1) K
        { s₁ with proc := setFd (setFd s₁.proc p fd0 (some rf)) p fd1 (some wf), mem := m } →
      ({ s₁ with proc := setFd (setFd s₁.proc p fd0 (some rf)) p fd1 (some wf), mem := m } :
        Kernel).pages = s.pages →
      wp (setOfile p fd0 none >>= fun _ => setOfile p fd1 none >>=
        fun _ => sysPipe.close b sb rf wf) E (fun _ => Kept b J' K P)
        { s₁ with proc := setFd (setFd s₁.proc p fd0 (some rf)) p fd1 (some wf), mem := m } := by
    intro m hm hpm
    have hundo : setFd (setFd (setFd (setFd s₁.proc p fd0 (some rf)) p fd1 (some wf)) p fd0 none)
      p fd1 none = s₁.proc := by
      rw [setFd_comm _ hne.symm, setFd_undo hfd0, setFd_undo hfd1]
    have hm' := (hm.setFd p fd0 none).setFd p fd1 none
    simp only [wp_bind, wp_setOfile]
    rw [hundo] at hm' ⊢
    refine wp_pipeAbort hF hk hm' hproc ?_
    simp only [Kernel.pages, images_setFd] at hpm ⊢
    exact hpm
  simp only [wp_bind, sysPipe.report, wp_ite, wp_pure] at hback ⊢
  refine wp_copyoutProc h₂ (by simp only [setFd_self]; exact hr₁) fun r m hm hpm =>
    ⟨fun _ => ?_, fun _ => ?_⟩
  · exact ⟨fun hf => (by cases hf), fun _ => hback m hm (hpm.trans (hpages₂.trans hpages))⟩
  · refine wp_copyoutProc hm (by simp only [setFd_self]; exact hr₁) fun r m' hm' hpm' =>
      ⟨fun _ => ?_, fun _ => ?_⟩
    · exact ⟨fun hf => (by cases hf), fun _ => hback m' hm'
        (hpm'.trans (hpm.trans (hpages₂.trans hpages)))⟩
    · refine ⟨fun _ => ?_, fun hf => absurd trivial hf⟩
      have hk' : KInv b J K (insert pi P) _ := ⟨⟨hm'.fs, hsl, hm'.pipe, hm'.mem⟩, hok⟩
      exact (hk'.weaken hF).kept_of_subset (Finset.subset_insert pi P)

end

end Xv6
