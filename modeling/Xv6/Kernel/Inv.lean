/-
# What holds between system calls

The kernel keeps four kinds of counted things, each with an owner for every unit: struct files are
referenced by descriptors (`FilesInv`), inodes by struct files and current directories (`irefs`), an
open end of a pipe by one struct file (`PipeInv`), and a page by the free list, an address space, a
trapframe, a pipe, or the kernel (`MemInv`).  `KInv` puts the parts together.
-/

import Xv6.Fs.Keep
import Xv6.Kernel.Exec
import Xv6.Vm.Space

namespace Xv6

open Lib Function

/-! ### What a struct file stands for -/

def File.inodeRef (f : File) : Option Ip :=
  if f.type = .inode ∨ f.type = .device then some f.ip else none

/-- The inode that can be written through an open file. -/
def File.pin (f : File) : Option Ip :=
  if f.type = .inode ∧ f.writable = true then some f.ip else none

/-- The end of a pipe that an open file is: the page, and whether it is the write end. -/
def File.pipeEnd (f : File) : Option (ℕ × Bool) :=
  if f.type = .pipe then some (f.pipe, f.writable) else none

theorem File.inodeRef_of_pin {f : File} {ip : Ip} (h : f.pin = some ip) : f.inodeRef = some ip := by
  simp only [File.inodeRef, File.pin] at *
  split_ifs at h with hc
  rw [if_pos (.inl hc.1), h]

def inodeRefs (file : Fp → File) : Fp → Option Ip := fun f => (file f).inodeRef

def pipeEnds (file : Fp → File) : Fp → Option (ℕ × Bool) := fun f => (file f).pipeEnd

def cwds (proc : Pp → Proc) : Pp → Option Ip := fun p => (proc p).cwd

def images (proc : Pp → Proc) : Pp → Image := fun p => (proc p).toImage

/-- How many struct files and current directories refer to an inode. -/
def irefs (file : Fp → File) (proc : Pp → Proc) : Ip → ℕ :=
  owners (inodeRefs file) + owners (cwds proc)

def pins (file : Fp → File) : Finset Ip := Finset.univ.filter fun ip => ∃ f, (file f).pin = some ip

theorem mem_pins {file : Fp → File} {ip : Ip} : ip ∈ pins file ↔ ∃ f, (file f).pin = some ip := by
  simp [pins]

section

variable {file : Fp → File} {proc : Pp → Proc} {f : Fp} {fl : File} {p : Pp} {pr : Proc} {ip : Ip}
  {x : Pp × Fin NOFILE} {root tf : ℕ} {E : Halt → Prop}

theorem inodeRefs_update : inodeRefs (update file f fl) =
    update (inodeRefs file) f fl.inodeRef := view_update File.inodeRef file f fl

theorem inodeRefs_congr (h : fl.inodeRef = (file f).inodeRef) :
    inodeRefs (update file f fl) = inodeRefs file := view_update_of_eq File.inodeRef file f h

theorem pipeEnds_update : pipeEnds (update file f fl) =
    update (pipeEnds file) f fl.pipeEnd := view_update File.pipeEnd file f fl

theorem pipeEnds_congr (h : fl.pipeEnd = (file f).pipeEnd) :
    pipeEnds (update file f fl) = pipeEnds file := view_update_of_eq File.pipeEnd file f h

theorem cwds_update : cwds (update proc p pr) = update (cwds proc) p pr.cwd :=
  view_update Proc.cwd proc p pr

theorem cwds_congr (h : pr.cwd = (proc p).cwd) : cwds (update proc p pr) = cwds proc :=
  view_update_of_eq Proc.cwd proc p h

theorem images_update : images (update proc p pr) = update (images proc) p pr.toImage :=
  view_update Proc.toImage proc p pr

theorem images_congr (h : pr.toImage = (proc p).toImage) :
    images (update proc p pr) = images proc := view_update_of_eq Proc.toImage proc p h

theorem irefs_pos_of_file (h : inodeRefs file f = some ip) : 0 < irefs file proc ip :=
  Nat.add_pos_left (owners_pos h) _

theorem irefs_pos_of_cwd (h : cwds proc p = some ip) : 0 < irefs file proc ip :=
  Nat.add_pos_right _ (owners_pos h)

theorem irefs_pos_of_pin (h : ip ∈ pins file) : 0 < irefs file proc ip := by
  obtain ⟨f, hf⟩ := mem_pins.1 h
  exact irefs_pos_of_file (f := f) (File.inodeRef_of_pin hf)

theorem irefs_congr (h : fl.inodeRef = (file f).inodeRef) :
    irefs (update file f fl) proc = irefs file proc := by
  rw [irefs, inodeRefs_congr h, irefs]

theorem irefs_proc_congr (h : pr.cwd = (proc p).cwd) :
    irefs file (update proc p pr) = irefs file proc := by
  rw [irefs, cwds_congr h, irefs]

theorem irefs_store (h : inodeRefs file f = none) (h' : fl.inodeRef = some ip) :
    irefs (update file f fl) proc = irefs file proc + Pi.single ip 1 := by
  rw [irefs, inodeRefs_update, h', owners_store h, irefs, add_right_comm]

theorem irefs_take (h : inodeRefs file f = some ip) (h' : fl.inodeRef = none) :
    irefs file proc = irefs (update file f fl) proc + Pi.single ip 1 := by
  rw [irefs, irefs, inodeRefs_update, h', owners_take h, add_right_comm]

theorem irefs_cwd_store (file : Fp → File) (h : cwds proc p = none) (h' : pr.cwd = some ip) :
    irefs file (update proc p pr) = irefs file proc + Pi.single ip 1 := by
  rw [irefs, cwds_update, h', owners_store h, irefs, add_assoc]

theorem irefs_cwd_take (h : cwds proc p = some ip) (h' : pr.cwd = none) :
    irefs file proc = irefs file (update proc p pr) + Pi.single ip 1 := by
  rw [irefs, irefs, cwds_update, h', owners_take h, add_assoc]

theorem pins_congr (h : fl.pin = (file f).pin) : pins (update file f fl) = pins file := by
  have hview := view_update_of_eq File.pin file f h
  ext ip
  simp only [mem_pins]
  exact exists_congr fun g => by rw [← congrFun hview g]

theorem pins_update_subset (h : fl.pin = none) : pins (update file f fl) ⊆ pins file := by
  intro ip hip
  rw [mem_pins, exists_update_iff file fun _ fl => fl.pin = some ip, h] at hip
  obtain ⟨⟨⟩⟩ | ⟨g, -, hg⟩ := hip
  exact mem_pins.2 ⟨g, hg⟩

theorem pins_store (h : (file f).pin = none) (h' : fl.pin = some ip) :
    pins (update file f fl) = insert ip (pins file) := by
  ext jp
  rw [Finset.mem_insert, mem_pins, mem_pins, exists_update_iff file fun _ fl => fl.pin = some jp,
    h', Option.some_inj, eq_comm]
  refine or_congr_right (exists_congr fun g => and_iff_right_of_imp ?_)
  rintro hg rfl
  rw [h] at hg
  cases hg

end

/-! ### References to struct files -/

def slots (proc : Pp → Proc) : Pp × Fin NOFILE → Option Fp := fun x => (proc x.1).ofile x.2

theorem slots_congr {proc : Pp → Proc} {p : Pp} {pr : Proc} (h : pr.ofile = (proc p).ofile) :
    slots (update proc p pr) = slots proc := by
  funext x
  exact congrFun (congrFun (view_update_of_eq Proc.ofile proc p h) x.1) x.2

def setFd (proc : Pp → Proc) (p : Pp) (fd : Fin NOFILE) (v : Option Fp) : Pp → Proc :=
  update proc p { proc p with ofile := update (proc p).ofile fd v }

section

variable {proc : Pp → Proc} {p : Pp} {fd : Fin NOFILE} {v : Option Fp}

theorem slots_setFd : slots (setFd proc p fd v) = update (slots proc) (p, fd) v := by
  funext ⟨q, e⟩
  by_cases hq : q = p
  · subst hq
    by_cases he : e = fd
    · subst he
      simp [slots, setFd]
    · simp [slots, setFd, he]
  · simp [slots, setFd, hq]

theorem cwds_setFd : cwds (setFd proc p fd v) = cwds proc := cwds_congr rfl

theorem images_setFd : images (setFd proc p fd v) = images proc := images_congr rfl

theorem setFd_of_ne (h : q ≠ p) : setFd proc p fd v q = proc q := update_of_ne h _ _

theorem setFd_self : setFd proc p fd v p = { proc p with ofile := update (proc p).ofile fd v } :=
  update_self ..

end

/-- Every struct file is referenced as often as it counts: by the descriptors `sl`, and
`h` times by a routine.  A file without references has no type, and a file without
a type no references, but for the new ones in `N`. -/
structure FilesInv (file : Fp → File) (sl : Pp × Fin NOFILE → Option Fp) (h : Fp → ℕ)
    (N : Finset Fp) : Prop where
  ref : ∀ f, (file f).ref = owners sl f + h f
  idle : ∀ f, (file f).ref = 0 → (file f).type = .none
  typed : ∀ f, (file f).type = .none → f ∈ N ∨ (file f).ref = 0
  /-- A pipe end is for reading or for writing. -/
  mode : ∀ f, (file f).type = .pipe → (file f).readable = !(file f).writable

section

variable {file : Fp → File} {sl : Pp × Fin NOFILE → Option Fp} {h : Fp → ℕ} {N : Finset Fp} {f : Fp}

theorem FilesInv.ref_pos (hi : FilesInv file sl (h + Pi.single f 1) N) : 0 < (file f).ref := by
  rw [hi.ref, Pi.add_apply, Pi.single_eq_same]
  omega

theorem FilesInv.ref_pos_of_slot (hi : FilesInv file sl h N) (hx : sl x = some f) :
    0 < (file f).ref := by
  rw [hi.ref]
  exact Nat.add_pos_left (owners_pos hx) _

theorem FilesInv.type_ne (hi : FilesInv file sl h ∅) (hr : 0 < (file f).ref) :
    (file f).type ≠ .none :=
  fun ht => (hi.typed f ht).elim (Finset.notMem_empty f) (by omega)

theorem FilesInv.store (hi : FilesInv file sl (h + Pi.single f 1) N)
    (hx : sl x = none) : FilesInv file (Function.update sl x (some f)) h N :=
  { hi with
    ref := fun g => by
      rw [hi.ref, owners_store hx, Pi.add_apply, Pi.add_apply]
      omega }

theorem FilesInv.take (hi : FilesInv file sl h N) (hx : sl x = some f) :
    FilesInv file (Function.update sl x none) (h + Pi.single f 1) N :=
  { hi with
    ref := fun g => by
      rw [hi.ref, owners_take hx, Pi.add_apply, Pi.add_apply]
      omega }

theorem FilesInv.update {fl : File} {h' : Fp → ℕ} {N' : Finset Fp} (hi : FilesInv file sl h N)
    (hh : ∀ g, g ≠ f → h' g = h g) (hN : ∀ g, g ≠ f → g ∈ N → g ∈ N')
    (href : fl.ref = owners sl f + h' f) (hidle : fl.ref = 0 → fl.type = .none)
    (htyped : fl.type = .none → f ∈ N' ∨ fl.ref = 0)
    (hmode : fl.type = .pipe → fl.readable = !fl.writable) :
    FilesInv (Function.update file f fl) sl h' N' where
  ref := (forall_update_iff file fun g fl => fl.ref = owners sl g + h' g).2
    ⟨href, fun g hg => by rw [hi.ref, hh g hg]⟩
  idle := (forall_update_iff file fun _ fl => fl.ref = 0 → fl.type = .none).2
    ⟨hidle, fun g _ => hi.idle g⟩
  typed := (forall_update_iff file fun g fl => fl.type = .none → g ∈ N' ∨ fl.ref = 0).2
    ⟨htyped, fun g hg ht => (hi.typed g ht).imp_left (hN g hg)⟩
  mode := (forall_update_iff file fun _ fl => fl.type = .pipe → fl.readable = !fl.writable).2
    ⟨hmode, fun g _ => hi.mode g⟩

theorem add_single_apply_of_ne (hg : g ≠ f) : (h + Pi.single f 1 : Fp → ℕ) g = h g := by
  rw [Pi.add_apply, Pi.single_eq_of_ne hg, Nat.add_zero]

theorem add_single_apply_self : (h + Pi.single f 1 : Fp → ℕ) f = h f + 1 := by
  rw [Pi.add_apply, Pi.single_eq_same]

theorem FilesInv.alloc (hi : FilesInv file sl h N) (hr : (file f).ref = 0) :
    FilesInv (Function.update file f { file f with ref := 1 }) sl (h + Pi.single f 1)
    (insert f N) := by
  have h₀ := hi.ref f
  have ht := hi.idle f hr
  refine hi.update (fun g hg => add_single_apply_of_ne hg)
    (fun g _ hg => Finset.mem_insert_of_mem hg) ?_ (fun h₁ => absurd h₁ Nat.one_ne_zero)
    (fun _ => .inl (Finset.mem_insert_self ..)) ?_
  · show 1 = _
    rw [add_single_apply_self]
    omega
  · intro hp
    rw [show (file f).type = .pipe from hp] at ht
    cases ht

theorem FilesInv.dup (hi : FilesInv file sl h N) (hr : 0 < (file f).ref) :
    FilesInv (Function.update file f { file f with ref := (file f).ref + 1 }) sl
    (h + Pi.single f 1) N := by
  refine hi.update (fun g hg => add_single_apply_of_ne hg) (fun g _ hg => hg) ?_
    (fun h₁ => absurd h₁ (Nat.succ_ne_zero _)) (fun ht => (hi.typed f ht).imp_right (by omega))
    (hi.mode f)
  show (file f).ref + 1 = _
  rw [add_single_apply_self, hi.ref]
  omega

theorem FilesInv.drop (hi : FilesInv file sl (h + Pi.single f 1) N) (hr : 1 < (file f).ref) :
    FilesInv (Function.update file f { file f with ref := (file f).ref - 1 }) sl h N := by
  have h₀ := hi.ref f
  rw [add_single_apply_self] at h₀
  refine hi.update (fun g hg => (add_single_apply_of_ne hg).symm) (fun g _ hg => hg) ?_ ?_ ?_
    (hi.mode f)
  · show (file f).ref - 1 = _
    omega
  · intro h₁
    have : (file f).ref - 1 = 0 := h₁
    omega
  · exact fun ht => (hi.typed f ht).imp_right (by omega)

theorem FilesInv.close (hi : FilesInv file sl (h + Pi.single f 1) N) (hr : (file f).ref = 1) :
    FilesInv (Function.update file f { file f with ref := 0, type := .none }) sl h (N.erase f) := by
  have h₀ := hi.ref f
  rw [add_single_apply_self] at h₀
  refine hi.update (fun g hg => (add_single_apply_of_ne hg).symm)
    (fun g hg hN => Finset.mem_erase.2 ⟨hg, hN⟩) ?_ (fun _ => rfl) (fun _ => .inr rfl) ?_
  · show 0 = _
    omega
  · intro hp
    cases hp

theorem FilesInv.setType {fl : File} (hi : FilesInv file sl h N) (hr : 0 < (file f).ref)
    (href : fl.ref = (file f).ref) (ht : fl.type ≠ .none)
    (hmode : fl.type = .pipe → fl.readable = !fl.writable) :
    FilesInv (Function.update file f fl) sl h (N.erase f) := by
  refine hi.update (fun _ _ => rfl) (fun g hg hN => Finset.mem_erase.2 ⟨hg, hN⟩) ?_ ?_
    (fun h₁ => absurd h₁ ht) hmode
  · rw [href, hi.ref]
  · intro h₀
    omega

end

/-! ### Pipes -/

def Pipe.isOpen (q : Pipe) (w : Bool) : Bool := if w then q.writeopen else q.readopen

/-- **Every open end of a pipe is one struct file**, but for the ends in hand; `P` are the
pipes with an open end. -/
structure PipeInv (ends : Fp → Option (ℕ × Bool)) (pipe : ℕ → Pipe) (held : Multiset (ℕ × Bool))
    (P : Finset ℕ) : Prop where
  own : Exact ends held fun e => (pipe e.1).isOpen e.2 = true
  pages : ∀ pi, pi ∈ P ↔ (pipe pi).readopen = true ∨ (pipe pi).writeopen = true

section

variable {ends : Fp → Option (ℕ × Bool)} {pipe : ℕ → Pipe} {held : Multiset (ℕ × Bool)}
  {P : Finset ℕ} {pi : ℕ} {w : Bool}

def Pipe.close (q : Pipe) (w : Bool) : Pipe :=
  if w then { q with writeopen := false } else { q with readopen := false }

theorem Pipe.isOpen_close (q : Pipe) (w v : Bool) :
    (q.close w).isOpen v = true ↔ v ≠ w ∧ q.isOpen v = true := by
  cases w <;> cases v <;> simp [Pipe.isOpen, Pipe.close]

theorem Pipe.isOpen_iff (q : Pipe) :
    (q.readopen = true ∨ q.writeopen = true) ↔ ∃ w, q.isOpen w = true := by
  simp [Pipe.isOpen]

theorem Pipe.closed_close_iff (q : Pipe) (w : Bool) :
    (q.close w).readopen = false ∧ (q.close w).writeopen = false ↔ ¬q.isOpen (!w) = true := by
  cases w <;> simp [Pipe.isOpen, Pipe.close]

theorem PipeInv.mem_iff (h : PipeInv ends pipe held P) :
    pi ∈ P ↔ ∃ w, (pipe pi).isOpen w = true := by
  rw [h.pages, Pipe.isOpen_iff]

/-- **An end in hand is closed.**  The pipe stays open as long as the other end is. -/
theorem PipeInv.close (h : PipeInv ends pipe ((pi, w) ::ₘ held) P) :
    PipeInv ends (update pipe pi ((pipe pi).close w)) held
    (if (pipe pi).isOpen (!w) then P else P.erase pi) where
  own := by
    refine h.own.release fun e => ?_
    by_cases he : e.1 = pi
    · subst he
      rw [update_self, Pipe.isOpen_close]
      exact and_congr_left' (not_congr ⟨fun hw => Prod.ext rfl hw, fun hw => congrArg Prod.snd hw⟩)
    · rw [update_of_ne he]
      exact ⟨fun ho => ⟨fun hw => he (congrArg Prod.fst hw), ho⟩, And.right⟩
  pages qi := by
    rw [Pipe.isOpen_iff]
    by_cases hq : qi = pi
    · subst hq
      simp only [update_self, Pipe.isOpen_close]
      split_ifs with ho
      · exact ⟨fun _ => ⟨!w, by simp, ho⟩, fun _ => h.mem_iff.2 ⟨_, ho⟩⟩
      · refine ⟨fun hm => absurd rfl (Finset.ne_of_mem_erase hm), fun ⟨v, hv, hov⟩ => absurd ?_ ho⟩
        rwa [← (Bool.eq_not_iff.2 hv)]
    · rw [update_of_ne hq, ← h.mem_iff]
      split_ifs
      · rfl
      · exact ⟨Finset.mem_of_mem_erase, fun hm => Finset.mem_erase.2 ⟨hq, hm⟩⟩

/-- **A new pipe**: both ends in hand. -/
theorem PipeInv.open (h : PipeInv ends pipe held P) (hpi : pi ∉ P) (hr : q.readopen = true)
    (hw : q.writeopen = true) :
    PipeInv ends (update pipe pi q) ((pi, false) ::ₘ (pi, true) ::ₘ held) (insert pi P) where
  own := by
    have hclosed : ∀ v, ¬(pipe pi).isOpen v = true := fun v hv => hpi (h.mem_iff.2 ⟨v, hv⟩)
    have hq : ∀ v, q.isOpen v = true := by
      intro v
      cases v <;> simp [Pipe.isOpen, hr, hw]
    have h₁ := h.own.acquire (a := (pi, true)) (hclosed true) fun e => Iff.rfl
    refine h₁.acquire (a := (pi, false)) ?_ fun e => ?_
    · exact not_or.2 ⟨by simp, hclosed false⟩
    by_cases he : e.1 = pi
    · subst he
      rw [update_self]
      refine ⟨fun _ => ?_, fun _ => hq _⟩
      obtain ⟨x, v⟩ := e
      cases v
      · exact .inl rfl
      · exact .inr (.inl rfl)
    · rw [update_of_ne he]
      refine ⟨fun ho => .inr (.inr ho), ?_⟩
      rintro (rfl | rfl | ho)
      · exact absurd rfl he
      · exact absurd rfl he
      · exact ho
  pages qi := by
    by_cases hq : qi = pi
    · subst hq
      simp [hr]
    · rw [update_of_ne hq, Finset.mem_insert, ← h.pages]
      exact or_iff_right hq

end

/-! ### Pages -/

def Image.pages (m : Mem) (i : Image) : Multiset ℕ :=
  hold i.trapframe + i.pagetable.elim 0 fun root => spacePages m root (npages i.sz)

/-- The page table of a process, if it has one, is an address space of its size. -/
def Image.Ok (b : Board) (m : Mem) (i : Image) : Prop :=
  ∀ root, i.pagetable = some root → ∃ tf, i.trapframe = some tf ∧ IsSpace b m root tf (npages i.sz)

/-- The pages that the kernel hands to the allocator, `[PGROUNDUP(end), PHYSTOP)`. -/
def Board.pages (b : Board) : Multiset ℕ := (Finset.Ico (npages b.kend) (PHYSTOP / PGSIZE)).val

theorem Board.managed (b : Board) : Managed b b.pages where
  nodup := Finset.nodup _
  manages x hx := by
    rw [Board.pages, Finset.mem_val, Finset.mem_Ico] at hx
    simp only [Board.Manages, npages, PGSIZE, PHYSTOP, KERNBASE] at *
    omega

/-- **Every page has one owner**: the free list, a process, or `H`. -/
structure MemInv (b : Board) (m : Mem) (img : Pp → Image) (H : Multiset ℕ) : Prop where
  own : Owns b.pages m ((∑ p, (img p).pages m) + H)
  ok : ∀ p, (img p).Ok b m

section

variable {b : Board} {m m₁ : Mem} {img : Pp → Image} {H H₁ : Multiset ℕ} {i : Image} {p : Pp}

theorem Image.space_le (h : i.pagetable = some root) :
    spacePages m root (npages i.sz) ≤ i.pages m := by
  rw [Image.pages, h, Option.elim_some]
  exact le_add_self

theorem Image.table_le (h : i.pagetable = some root) : tablePages m root ≤ i.pages m :=
  le_self_add.trans (Image.space_le h)

theorem Image.pages_congr (h : Same (i.pages m) m m₁) : i.pages m₁ = i.pages m := by
  cases hp : i.pagetable with
  | none => simp only [Image.pages, hp, Option.elim_none]
  | some root =>
    have hs : spacePages m₁ root (npages i.sz) = spacePages m root (npages i.sz) :=
      spacePages_congr (h.mono (Image.table_le hp))
    simp only [Image.pages, hp, Option.elim_some, hs]

theorem Image.Ok.congr (hi : i.Ok b m) (h : Same (i.pages m) m m₁) : i.Ok b m₁ := fun root hp => by
  obtain ⟨tf, ht, hs⟩ := hi root hp
  exact ⟨tf, ht, hs.congr (h.mono (Image.table_le hp))⟩

def others (m : Mem) (img : Pp → Image) (p : Pp) : Multiset ℕ :=
  ∑ q ∈ Finset.univ.erase p, (img q).pages m

theorem pages_add_others (m : Mem) (img : Pp → Image) (p : Pp) :
    (img p).pages m + others m img p = ∑ q, (img q).pages m :=
  Finset.add_sum_erase _ (fun q => (img q).pages m) (Finset.mem_univ p)

theorem image_le_others (h : q ≠ p) : (img q).pages m ≤ others m img p :=
  Finset.single_le_sum (f := fun q => (img q).pages m) (fun _ _ => Multiset.zero_le _)
    (Finset.mem_erase.2 ⟨h, Finset.mem_univ q⟩)

theorem image_le_sum (q : Pp) : (img q).pages m ≤ ∑ p, (img p).pages m :=
  Finset.single_le_sum (f := fun q => (img q).pages m) (fun _ _ => Multiset.zero_le _)
    (Finset.mem_univ q)

theorem others_update (m : Mem) (img : Pp → Image) (p : Pp) (i : Image) :
    others m (update img p i) p = others m img p :=
  Finset.sum_congr rfl fun q hq => by rw [update_of_ne (Finset.ne_of_mem_erase hq)]

theorem sum_pages_congr (hs : Same (∑ p, (img p).pages m) m m₁) :
    ∑ p, (img p).pages m₁ = ∑ p, (img p).pages m :=
  Finset.sum_congr rfl fun q _ => Image.pages_congr (hs.mono (image_le_sum q))

section

variable (h : MemInv b m img H)
include h

theorem MemInv.congr (hs : Same (∑ p, (img p).pages m) m m₁)
    (ho : Owns b.pages m₁ ((∑ p, (img p).pages m) + H₁)) : MemInv b m₁ img H₁ where
  own := by rwa [sum_pages_congr hs]
  ok q := (h.ok q).congr (hs.mono (image_le_sum q))

/-- **One process changes**: the others do not notice. -/
theorem MemInv.update (p : Pp) (hs : Same (others m img p) m m₁)
    (ho : Owns b.pages m₁ (i.pages m₁ + (others m img p + H₁))) (hi : i.Ok b m₁) :
    MemInv b m₁ (Function.update img p i) H₁ where
  own := by
    have hothers : others m₁ (Function.update img p i) p = others m img p :=
      Finset.sum_congr rfl fun q hq => by
        have hq := Finset.ne_of_mem_erase hq
        rw [Function.update_of_ne hq, Image.pages_congr (hs.mono (image_le_others hq))]
    rwa [← pages_add_others m₁ _ p, hothers, Function.update_self, add_assoc]
  ok := (forall_update_iff img fun _ i => i.Ok b m₁).2
    ⟨hi, fun q hq => (h.ok q).congr (hs.mono (image_le_others hq))⟩

omit h in
theorem Image.pages_eq (hp : i.pagetable = some root) (ht : i.trapframe = some tf) :
    i.pages m = tf ::ₘ spacePages m root (npages i.sz) := by
  rw [Image.pages, hp, ht]
  rfl

theorem MemInv.space (hp : (img p).pagetable = some root) (ht : (img p).trapframe = some tf) :
    Space b b.pages m root tf (npages (img p).sz) (tf ::ₘ (others m img p + H)) where
  is := by
    obtain ⟨tf', ht', hs⟩ := h.ok p root hp
    rw [ht] at ht'
    obtain rfl := Option.some.inj ht'
    exact hs
  own := by
    have ho := h.own
    rw [← pages_add_others m img p, Image.pages_eq hp ht, Multiset.cons_add, Multiset.cons_add,
      add_assoc] at ho
    rwa [Multiset.add_cons]

theorem MemInv.putSpace (p : Pp) (hs : Same (others m img p) m m₁)
    (hsp : Space b b.pages m₁ root tf (npages sz) (tf ::ₘ (others m img p + H₁))) : MemInv b m₁
    (Function.update img p ⟨sz, some root, some tf⟩) H₁ := by
  refine h.update p hs ?_ fun root' hr => ?_
  · have ho := hsp.own
    rw [Multiset.add_cons] at ho
    rwa [Image.pages_eq rfl rfl, Multiset.cons_add]
  · cases hr
    exact ⟨tf, rfl, hsp.is⟩

/-- **A process's user memory is written**: all pages stay where they are. -/
theorem MemInv.stored (hp : (img p).pagetable = some root) (ht : (img p).trapframe = some tf)
    (hst : Stored b b.pages root tf (npages (img p).sz) (tf ::ₘ (others m img p + H)) m m₁) :
    MemInv b m₁ img H ∧ ∑ q, (img q).pages m₁ = ∑ q, (img q).pages m := by
  obtain ⟨hsp, hs⟩ := hst
  have hothers : Same (others m img p) m m₁ := by
    refine hs.mono ((Multiset.le_add_right _ H).trans ?_)
    exact (Multiset.le_cons_self _ tf).trans le_add_self
  refine ⟨?_, Finset.sum_congr rfl fun q _ => ?_⟩
  · have hput := h.putSpace p hothers hsp
    rwa [← hp, ← ht, Function.update_eq_self] at hput
  · by_cases hq : q = p
    · rw [hq, Image.pages_eq hp ht, Image.pages_eq hp ht, spacePages_congr (hs.mono le_self_add)]
    · exact Image.pages_congr (hothers.mono (image_le_others hq))

theorem MemInv.wp_copyout (hp : (img p).pagetable = some root)
    (hQ : ∀ r m₁, MemInv b m₁ img H → ∑ q, (img q).pages m₁ = ∑ q, (img q).pages m → Q r m₁) :
    wp (copyout root dst src) E Q m := by
  obtain ⟨tf, ht, -⟩ := h.ok p root hp
  refine (h.space hp ht).wp_copyout b.managed fun r m₁ hst => ?_
  obtain ⟨hm, hpages⟩ := h.stored hp ht hst
  exact hQ r m₁ hm hpages

theorem MemInv.wp_kalloc (hnone : m.freelist = [] → Q none m)
    (hsome : ∀ r m₁, MemInv b m₁ img (r ::ₘ H) → Same (∑ p, (img p).pages m + H) m m₁ →
      m.freelist.length = m₁.freelist.length + 1 → Q (some r) m₁) : wp kalloc E Q m := by
  refine Xv6.wp_kalloc b.managed h.own hnone fun r m₁ ho hs hlen =>
    hsome r m₁ (h.congr ?_ ?_) hs hlen
  · exact hs.mono le_self_add
  · rwa [← Multiset.add_cons] at ho

end

theorem MemInv.wp_kfree {Q : PUnit → Mem → Prop} {x : ℕ} (h : MemInv b m img (x ::ₘ H))
    (hQ : ∀ m₁, MemInv b m₁ img H → Same (∑ p, (img p).pages m + H) m m₁ → Q ⟨⟩ m₁) :
    wp (kfree b x) E Q m := by
  have ho := h.own
  rw [Multiset.add_cons] at ho
  exact Xv6.wp_kfree b.managed ho fun m₁ ho₁ hs => hQ m₁ (h.congr (hs.mono le_self_add) ho₁) hs

end

/-! ### The whole kernel -/

/-- What the state of a process says about what it has. -/
structure Proc.Ok (pr : Proc) : Prop where
  unused : pr.state = .unused → pr.toImage = ⟨0, none, none⟩
  used : pr.state ≠ .unused → pr.pagetable ≠ none
  idle : pr.state = .unused ∨ pr.state = .zombie → (∀ fd, pr.ofile fd = none) ∧ pr.cwd = none
  live : pr.state ≠ .unused → pr.state ≠ .zombie → pr.cwd ≠ none

/-- The process can make system calls. -/
def Proc.Live (pr : Proc) : Prop := pr.state ≠ .unused ∧ pr.state ≠ .zombie

instance (pr : Proc) : Decidable pr.Live := inferInstanceAs (Decidable (_ ∧ _))

/-- A property of the file system, with the references, the locks and the pins that the rest of
the kernel has. -/
abbrev FsPred : Type := (Ip → ℕ) → Finset Ip → Finset Ip → Fs → Prop

/-- The counts are exact up to the struct files `h` and the pages `H` in hand, where the
descriptors are `sl`; the file system has the property `J`. -/
structure Exactly (b : Board) (J : FsPred) (P : Finset ℕ) (sl : Pp × Fin NOFILE → Option Fp)
    (h : Fp → ℕ) (H : Multiset ℕ) (s : Kernel) : Prop where
  fs : J (irefs s.file s.proc) ∅ (pins s.file) s.fs
  file : FilesInv s.file sl h ∅
  pipe : PipeInv (pipeEnds s.file) s.pipe 0 P
  mem : MemInv b s.mem (images s.proc) (P.val + H)

/-- **What holds between system calls**: all counts are exact, and each process has what
its state says.  `P` are the open pipes, `K` the pages of the kernel itself. -/
structure KInv (b : Board) (J : FsPred) (K : Multiset ℕ) (P : Finset ℕ) (s : Kernel) : Prop
    extends Exactly b J P (slots s.proc) 0 K s where
  proc : ∀ p, (s.proc p).Ok

def Kernel.pages (s : Kernel) : Multiset ℕ := ∑ p, (images s.proc p).pages s.mem

/-- What a call leaves: the invariant, and the pages of the pipes that it closed on the
free list. -/
def Kept (b : Board) (J : FsPred) (K : Multiset ℕ) (P : Finset ℕ) (s : Kernel) : Prop :=
  ∃ P', KInv b J K P' s ∧ ∀ pi ∈ P, pi ∉ P' → pi ∈ s.mem.freelist

section

variable {b : Board} {J J' : FsPred} {K : Multiset ℕ} {P P' : Finset ℕ} {s s' : Kernel}

theorem KInv.kept (h : KInv b J K P s) : Kept b J K P s := ⟨P, h, fun _ hp hn => absurd hp hn⟩

theorem KInv.kept_of_subset (h : KInv b J K P' s) (hs : P ⊆ P') : Kept b J K P s :=
  ⟨P', h, fun _ hp hn => absurd (hs hp) hn⟩

theorem KInv.kept_of_pages (h : KInv b J K P s) (h' : KInv b J' K P' s') (hp : s'.pages = s.pages) :
    Kept b J' K P s' := by
  refine ⟨P', h', fun pi hpi hn => ?_⟩
  have ho : Owns b.pages s.mem (s.pages + (P.val + K)) := h.mem.own
  have ho' : Owns b.pages s'.mem (s'.pages + (P'.val + K)) := h'.mem.own
  rw [hp] at ho'
  have hmem : pi ∈ s.pages + (P.val + K) :=
    Multiset.mem_add.2 (.inr (Multiset.mem_add.2 (.inl hpi)))
  have hU := ho.mem hmem
  rw [← ho', Multiset.mem_add] at hU
  refine hU.resolve_right fun hin => ?_
  -- `pi` is a pipe's page in `s`, so nothing else
  have hnd := ho.nodup b.managed
  rw [add_left_comm] at hnd
  have hdis := Multiset.disjoint_left.1 (Multiset.nodup_add.1 hnd).2.2 (show pi ∈ P.val from hpi)
  rw [add_left_comm] at hin
  exact (Multiset.mem_add.1 hin).elim hn hdis

theorem KInv.withFs (h : KInv b J K P s)
    (hfs : J' (irefs s.file s.proc) ∅ (pins s.file) fs) : KInv b J' K P { s with fs := fs } :=
  { h with fs := hfs }

theorem ok_update {proc : Pp → Proc} {p : Pp} {pr : Proc} (h : ∀ q, q ≠ p → (proc q).Ok)
    (hok : pr.Ok) : ∀ q, (update proc p pr q).Ok :=
  (forall_update_iff proc fun _ pr => pr.Ok).2 ⟨hok, h⟩

/-- The counts read the descriptors, the images and the current directories of the processes,
nothing else. -/
theorem Exactly.setProcs {proc : Pp → Proc} {fs : Fs} (h : Exactly b J P (slots s.proc) held K s)
    (hslots : slots proc = slots s.proc) (himg : images proc = images s.proc)
    (hfs : J' (irefs s.file proc) ∅ (pins s.file) fs) :
    Exactly b J' P (slots proc) held K { s with fs := fs, proc := proc } := by
  rw [hslots]
  exact ⟨hfs, h.file, h.pipe, himg ▸ h.mem⟩

theorem KInv.setProc {fs : Fs} (h : KInv b J K P s) (p : Pp) (pr : Proc)
    (himg : pr.toImage = (s.proc p).toImage) (hof : pr.ofile = (s.proc p).ofile) (hok : pr.Ok)
    (hfs : J' (irefs s.file (update s.proc p pr)) ∅ (pins s.file) fs) :
    KInv b J' K P { s with fs := fs, proc := update s.proc p pr } :=
  ⟨h.toExactly.setProcs (slots_congr hof) (images_congr himg) hfs,
    ok_update (fun q _ => h.proc q) hok⟩

/-- A process that can call has an address space, a trapframe and a directory. -/
theorem KInv.live {p : Pp} (h : KInv b J K P s) (hl : (s.proc p).Live) : ∃ root tf ip,
    (s.proc p).pagetable = some root ∧ (s.proc p).trapframe = some tf ∧
    (s.proc p).cwd = some ip := by
  obtain ⟨root, hr⟩ := Option.ne_none_iff_exists'.1 ((h.proc p).used hl.1)
  obtain ⟨ip, hi⟩ := Option.ne_none_iff_exists'.1 ((h.proc p).live hl.1 hl.2)
  obtain ⟨tf, ht, -⟩ := h.mem.ok p root hr
  exact ⟨root, tf, ip, hr, ht, hi⟩

end

end Xv6
