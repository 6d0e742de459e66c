/-
# Runs of the kernel

Processes make system calls, one after the other and in any order; between calls a process stores
what it likes in its memory.  A call that stops is not completed and leads nowhere.  `KInv.call`
says once for all calls what each of them keeps.
-/

import Xv6.Kernel.Boot
import Xv6.Lib.Runs

namespace Xv6

open Lib

/-- A system call with its arguments, or a store to user memory.  `input` is what is typed at the
console while the call runs. -/
inductive Call
  | fork
  | exit (status : ℤ)
  | wait (addr : ℕ)
  | pipe (fdarray : ℕ)
  | read (fd : ℤ) (addr : ℕ) (n : ℤ) (input : List UInt8)
  | kill (pid : BitVec 32)
  | exec (path uargv : ℕ)
  | fstat (fd : ℤ) (addr : ℕ)
  | chdir (path : ℕ)
  | dup (fd : ℤ)
  | sbrk (n : ℤ)
  | open (path : ℕ) (omode : UInt32)
  | write (fd : ℤ) (addr : ℕ) (n : ℤ)
  | mknod (path : ℕ) (major minor : UInt16)
  | unlink (path : ℕ)
  | link (old new : ℕ)
  | mkdir (path : ℕ)
  | close (fd : ℤ)
  | store (va : ℕ) (bytes : List UInt8)

def Call.run (b : Board) (sb : Superblock) (p : Pp) : Call → KernelM ℤ
  | .fork => Xv6.fork b p
  | .exit status => do
    Xv6.exit b sb p status
    return 0
  | .wait addr => Xv6.wait b p addr
  | .pipe fdarray => sysPipe b sb p fdarray
  | .read fd addr n input => sysRead sb p fd addr n input
  | .kill pid => Xv6.kill pid
  | .exec path uargv => sysExec b sb p path uargv
  | .fstat fd addr => sysFstat sb p fd addr
  | .chdir path => sysChdir sb p path
  | .dup fd => sysDup p fd
  | .sbrk n => sysSbrk b p n
  | .open path omode => sysOpen b sb p path omode
  | .write fd addr n => sysWrite sb p fd addr n
  | .mknod path major minor => sysMknod sb p path major minor
  | .unlink path => sysUnlink sb p path
  | .link old new => sysLink sb p old new
  | .mkdir path => sysMkdir sb p path
  | .close fd => sysClose b sb p fd
  | .store va bytes => copyoutProc p va bytes

def Kernel.step (b : Board) (sb : Superblock) (s : Kernel) (a : Pp × Call) : Option Kernel :=
  match (a.2.run b sb a.1).run s with
  | .ok (_, s') => some s'
  | .error _ => none

/-- The process can make a call. -/
abbrev Kernel.Calls (s : Kernel) (a : Pp × Call) : Prop := (s.proc a.1).Live

variable {b : Board} {sb : Superblock} {J J' : FsPred} {K : Multiset ℕ} {P : Finset ℕ}
  {s s' : Kernel} {p : Pp} {E : Halt → Prop} {blocks : Disk} {mem : Mem}

/-- **Every call** keeps the counts exact, and may stop for the reasons in `E` only. -/
theorem KInv.call (hF : FsRules sb E J J') (hk : KInv b J K P s) (hl : (s.proc p).Live) (c : Call) :
    wp (c.run b sb p) E (fun _ s' => Kept b J' K P s') s := by
  cases c with
  | fork => exact wp_fork hF hk hl
  | exit status =>
    simp only [Call.run, wp_bind, wp_pure]
    exact wp_exit hF hk hl
  | wait addr => exact wp_wait hF hk hl
  | pipe fdarray => exact wp_sysPipe hF hk hl
  | read fd addr n input => exact wp_sysRead hF.toReadRules hk hl
  | kill pid => exact wp_kill hF hk
  | exec path uargv => exact wp_sysExec hF hk hl
  | fstat fd addr => exact wp_sysFstat hF hk hl
  | chdir path => exact wp_sysChdir hF hk hl
  | dup fd => exact wp_sysDup hF hk hl
  | sbrk n => exact wp_sysSbrk hF hk hl
  | «open» path omode => exact wp_sysOpen hF hk hl
  | write fd addr n => exact wp_sysWrite hF hk hl
  | mknod path major minor => exact wp_sysMknod hF hk hl
  | unlink path => exact wp_sysUnlink hF hk hl
  | link old new => exact wp_sysLink hF hk hl
  | mkdir path => exact wp_sysMkdir hF hk hl
  | close fd => exact wp_sysClose hF hk hl
  | store va bytes => exact wp_store hF hk hl

theorem step_eq_some : s.step b sb a = some s' ↔ ∃ r, (a.2.run b sb a.1).run s = .ok (r, s') := by
  unfold Kernel.step
  split
  · rename_i r s₁ hrun
    rw [hrun]
    constructor
    · intro h
      exact ⟨r, by rw [Option.some.inj h]⟩
    · rintro ⟨r', h⟩
      cases h
      rfl
  · rename_i e hrun
    rw [hrun]
    constructor
    · intro h
      cases h
    · rintro ⟨r, h⟩
      cases h

theorem KInv.step (hF : FsRules sb E J J') (hk : KInv b J K P s) (hl : s.Calls a)
    (h : s.step b sb a = some s') : Kept b J' K P s' := by
  obtain ⟨r, hrun⟩ := step_eq_some.1 h
  exact (wp_of_run_ok hrun).1 (hk.call hF hl a.2)

/-- **No call stops for another reason.** -/
theorem KInv.stops (hF : FsRules sb E J J') (hk : KInv b J K P s) (hl : (s.proc p).Live)
    {c : Call} {e : Halt} (h : (c.run b sb p).run s = .error e) : E e :=
  (wp_of_run_error h).1 (hk.call hF hl c)

/-- **The counts are exact in every run from boot.** -/
theorem KInv.reach (hF : FsRules sb E J J) (hJ : J 0 ∅ ∅ (Fs.boot blocks)) (hm : Owns b.pages mem K)
    (hlen : 9 ≤ mem.freelist.length) (hb : Boots b sb blocks mem s₀)
    (h : Reach (Kernel.step b sb) Kernel.Calls s₀ s) : ∃ P, KInv b J K P s := by
  refine h.invariant (I := fun s => ∃ P, KInv b J K P s) ⟨∅, KInv.boot hF hJ hm hlen hb⟩ ?_
  rintro s a s' ⟨P, hk⟩ hl hs
  obtain ⟨P', hk', -⟩ := hk.step hF hl hs
  exact ⟨P', hk'⟩

end Xv6
