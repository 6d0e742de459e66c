/-
# A completion between the last look and the acknowledgement

`virtio_disk_intr` looks at `disk.used->id` until it finds nothing new, and only then acknowledges
the interrupt status.  A request that completes in between is acknowledged with the ones that were
processed, and its process sleeps on (`completion_forgotten`).
-/

import Xv6.Virtio.Protocol

namespace Xv6.Virtio

open Lib

variable {N : ℕ} {B : Type}

/-- The handler is between its last look at `used->id` and the write of the acknowledgement. -/
def IntrPc.inWindow : IntrPc → Bool
  | .ackRead | .ackWrite _ => true
  | _ => false

namespace Sys

variable {s s' : Sys N B} {p : Fin N}

/-- The device sets no status bits while the handler is in its window and an entry is not processed.
-/
def SignalsOutsideWindow (s : Sys N B) : Action N B → Prop
  | .signal => s.intr.any IntrPc.inWindow = true → ¬s.rings.Unprocessed
  | _ => True

instance (s : Sys N B) : (a : Action N B) → Decidable (s.SignalsOutsideWindow a)
  | .signal => inferInstanceAs (Decidable (_ → _))
  | .acquiresleep .. | .releasesleep .. | .call .. | .kill _ | .run _ | .intr | .take | .complete
    _ | .advance =>
    inferInstanceAs (Decidable True)

/-- Where the handler is, an entry that is not processed is going to be seen: the handler looks
again, or the status shows it, or the device is about to signal it. -/
def Shown (s : Sys N B) : Prop := s.rings.Unprocessed → match s.intr with
    | some .loop | some .item | some (.check _) => True
    | some .ackRead | some (.ackWrite _) => 0 < s.unsignalled
    | some .release | none => s.irq ≠ 0 ∨ 0 < s.unsignalled

/-- The two states agree in what `Shown` is about. -/
def SameShown (s s' : Sys N B) : Prop :=
  (s'.rings.Unprocessed ↔ s.rings.Unprocessed) ∧ s'.intr = s.intr ∧ s'.unsignalled = s.unsignalled ∧
    s'.irq = s.irq

theorem Shown.congr (h : s.Shown) (hsame : s.SameShown s') : s'.Shown := by
  obtain ⟨hrings, hintr, hunsignalled, hirq⟩ := hsame
  unfold Shown
  rw [hrings, hintr, hunsignalled, hirq]
  exact h

theorem or_one_ne_zero (x : UInt32) : x ||| 1 ≠ 0 := by
  intro h
  have hle : 1 ≤ x.toNat ||| 1 := Nat.right_le_or
  have hzero : x.toNat ||| 1 = 0 := by
    rw [← UInt32.toNat_one, ← UInt32.toNat_or, h]
    rfl
  omega

variable [DecidableEq B]

theorem sameShown_diskRwInside (hs : s.diskRwInside p j = some s') : s.SameShown s' := by
  cases j with
  | idle => cases hs
  | asking a =>
    simp only [Sys.diskRwInside] at hs
    split at hs
    · cases hs
      exact ⟨Iff.rfl, rfl, rfl, rfl⟩
    · cases hs
      exact ⟨Iff.rfl, rfl, rfl, rfl⟩
    · rename_i freed _
      cases freed <;> cases hs <;> exact ⟨Iff.rfl, rfl, rfl, rfl⟩
  | has a c | linked a c | posted a c =>
    cases hs
    exact ⟨Iff.rfl, rfl, rfl, rfl⟩
  | waiting a c k =>
    simp only [Sys.diskRwInside] at hs
    split at hs
    · cases hs
      exact ⟨Iff.rfl, rfl, rfl, rfl⟩
    · split at hs <;> cases hs <;> exact ⟨Iff.rfl, rfl, rfl, rfl⟩

theorem sameShown_diskRw (hs : s.diskRw p = some s') : s.SameShown s' := by
  unfold Sys.diskRw at hs
  split at hs
  · cases hs
  · cases hs
  · split at hs <;> cases hs
    exact ⟨Iff.rfl, rfl, rfl, rfl⟩
  · exact sameShown_diskRwInside hs

/-- **A step of the handler.** -/
theorem Shown.diskIntr (h : s.Shown) (hs : s.diskIntr = some s') : s'.Shown := by
  unfold Shown at h
  unfold Sys.diskIntr at hs
  split at hs
  · split at hs <;> cases hs
    exact fun _ => trivial
  · -- the handler leaves the loop only if it finds nothing new
    cases hs
    intro hun
    simp only [show s.rings.Unprocessed from hun, if_true]
  · cases hs
    exact fun _ => trivial
  · rename_i id hpc
    split at hs
    · cases hs
      intro _
      simp only [hpc]
    · split at hs <;> cases hs
      · intro _
        simp only [hpc]
      · exact fun _ => trivial
  · rename_i hpc
    cases hs
    simp only [hpc] at h
    exact h
  · rename_i v hpc
    cases hs
    simp only [hpc] at h
    exact fun hun => .inr (h hun)
  · rename_i hpc
    cases hs
    simp only [hpc] at h
    exact h

/-- **A step keeps every entry shown**, if the device signals outside the window. -/
theorem Shown.step (h : s.Shown) (hok : s.SignalsOutsideWindow a) (hs : s.step a = some s') :
    s'.Shown := by
  unfold Sys.step at hs
  split at hs
  · cases hs
  cases a with
  | acquiresleep p b | releasesleep p b | call p a =>
    simp only at hs
    split at hs
    · split at hs <;> cases hs
      exact h.congr ⟨Iff.rfl, rfl, rfl, rfl⟩
    · cases hs
  | kill p =>
    cases hs
    split
    · exact h.congr ⟨Iff.rfl, rfl, rfl, rfl⟩
    · exact h
  | run p => exact h.congr (sameShown_diskRw hs)
  | intr => exact h.diskIntr hs
  | take =>
    obtain ⟨r, hr, rfl⟩ := Option.map_eq_some_iff.1 hs
    unfold Rings.take at hr
    split at hr <;> cases hr
    exact h.congr ⟨Iff.rfl, rfl, rfl, rfl⟩
  | complete i =>
    simp only at hs
    split at hs <;> cases hs
    exact h.congr ⟨Iff.rfl, rfl, rfl, rfl⟩
  | advance =>
    obtain ⟨x, -, rfl⟩ := Option.map_eq_some_iff.1 hs
    intro _
    have hpos : 0 < s.unsignalled + 1 := Nat.succ_pos _
    simp only
    split
    · trivial
    · trivial
    · trivial
    · exact hpos
    · exact hpos
    · exact .inr hpos
    · exact .inr hpos
  | signal =>
    simp only at hs
    split at hs <;> cases hs
    intro hun
    have hclosed : ¬s.intr.any IntrPc.inWindow = true := fun hin => hok hin hun
    simp only
    split
    · trivial
    · trivial
    · trivial
    · rename_i hpc
      exact absurd (by rw [hpc]; rfl) hclosed
    · rename_i v hpc
      exact absurd (by rw [hpc]; rfl) hclosed
    · exact .inl (or_one_ne_zero _)
    · exact .inl (or_one_ne_zero _)

end Sys

open Virtio.Sys

/-- **No completion is forgotten** if the device signals outside the handler's window: with the lock
free, and the device not about to signal, an entry that is not processed shows in the interrupt
status. -/
theorem no_completion_forgotten [DecidableEq B] {s : Sys N B}
    (h : Reach Sys.step SignalsOutsideWindow (Sys.init N B) s) (hlock : s.lock = none)
    (hsignal : s.unsignalled = 0) (hun : s.rings.Unprocessed) : s.irq ≠ 0 := by
  obtain ⟨hinv, hshown⟩ := h.invariant (I := fun s => s.Inv ∧ s.Shown)
    ⟨inv_init N B, fun hun => absurd rfl hun⟩ fun s a s' hi hok hs =>
      ⟨hi.1.step hs, hi.2.step hok hs⟩
  have hpc : s.intr = none := by
    cases hpc : s.intr with
    | none => rfl
    | some pc =>
      have hheld := hinv.locks.handler (by rw [hpc]; rfl)
      rw [hlock] at hheld
      cases hheld
  have hseen := hshown hun
  rw [hpc] at hseen
  exact hseen.resolve_right (by omega)

def handlerSteps (n : ℕ) : List (Action N B) := List.replicate n .intr

/-- The device completes the first request that it has, and signals. -/
def finishOne : List (Action N B) := [.complete 0, .advance, .signal]

/-- The second completion comes after the acknowledgement of the first one. -/
theorem no_completion_forgotten_pair :
    ∃ s : Sys 2 Bool, Reach Sys.step SignalsOutsideWindow (Sys.init 2 Bool) s ∧
    (s.lock = none ∧ s.unsignalled = 0 ∧ s.rings.Unprocessed) ∧ s.irq ≠ 0 := by
  have hrun : (run Sys.step SignalsOutsideWindow (Sys.init 2 Bool)
      (request 0 false ++ request 1 true ++ [.take, .take] ++ finishOne ++ handlerSteps 8 ++
      finishOne)).map
      (fun s => decide (s.lock = none ∧ s.unsignalled = 0 ∧ s.rings.Unprocessed)) = some true := by
    decide +kernel
  obtain ⟨s, hs, hv⟩ := exists_reach_of_run hrun
  have hv := of_decide_eq_true hv
  exact ⟨s, hs, hv, no_completion_forgotten hs hv.1 hv.2.1 hv.2.2⟩

/-- **A forgotten completion**: the handler has processed the first of two requests and found
nothing new, the device completes the second one and signals, and the handler acknowledges. -/
theorem completion_forgotten :
    ∃ s : Sys 2 Bool, Reach Sys.step (fun _ _ => True) (Sys.init 2 Bool) s ∧ s.lock = none ∧
    s.rings.Unprocessed ∧ s.irq = 0 ∧ s.unsignalled = 0 ∧ s.place 1 = .asleep ∧
    s.disk true = true := by
  have hrun : (run Sys.step (fun _ _ => True) (Sys.init 2 Bool)
      (request 0 false ++ request 1 true ++ [.take, .take] ++ finishOne ++ handlerSteps 5 ++
      finishOne ++ handlerSteps 3)).map
      (fun s => decide (s.lock = none ∧ s.rings.Unprocessed ∧ s.irq = 0 ∧ s.unsignalled = 0 ∧
        s.place 1 = .asleep ∧ s.disk true = true)) = some true := by
    decide +kernel
  obtain ⟨s, hs, hv⟩ := exists_reach_of_run hrun
  exact ⟨s, hs, of_decide_eq_true hv⟩

end Xv6.Virtio
