/-
# Weakest preconditions of programs that may stop

A kernel routine reads and changes a state and either returns or stops: it panics, or sleeps and is
never woken.  `wp m E Q s` says that `m`, started in `s`, returns with `Q` or stops for a reason
that `E` admits.  The rules are equivalences; a call is replaced by its specification with
`wp_mono`.  A routine runs inside a larger state through `zoom`.
-/

import Mathlib.Logic.Basic
import Mathlib.Data.Nat.Notation

namespace Lib

/-- A program over states `σ` that returns an `α` or stops with an `ε`. -/
abbrev Prog (σ ε α : Type) : Type := StateT σ (Except ε) α

variable {σ τ ε α β : Type} {Q' : α → σ → Prop} {E' : ε → Prop}

/-- `m` started in `s` returns with `Q`, or stops for a reason that `E` admits. -/
def wp (m : Prog σ ε α) (E : ε → Prop) (Q : α → σ → Prop) (s : σ) : Prop :=
  match m.run s with
  | .ok (a, s') => Q a s'
  | .error e => E e

variable {m : Prog σ ε α} {E : ε → Prop} {Q : α → σ → Prop} {s : σ}

theorem wp_of_run_ok (h : m.run s = .ok (a, s')) : wp m E Q s ↔ Q a s' := by
  simp [wp, h]

theorem wp_of_run_error (h : m.run s = .error e) : wp m E Q s ↔ E e := by
  simp [wp, h]

instance [DecidablePred E] [∀ a s', Decidable (Q a s')] : Decidable (wp m E Q s) :=
  match h : m.run s with
  | .ok (a, s') => decidable_of_iff (Q a s') (wp_of_run_ok h).symm
  | .error e => decidable_of_iff (E e) (wp_of_run_error h).symm

/-- A program is used through what it guarantees. -/
theorem wp_mono (h : wp m E Q' s) (hQ : ∀ a s', Q' a s' → Q a s') : wp m E Q s := by
  cases hr : m.run s with
  | ok p => exact (wp_of_run_ok hr).2 (hQ _ _ ((wp_of_run_ok hr).1 h))
  | error e => exact (wp_of_run_error hr).2 ((wp_of_run_error hr).1 h)

theorem wp_mono_stop (h : wp m E' Q s) (hE : ∀ e, E' e → E e) : wp m E Q s := by
  cases hr : m.run s with
  | ok p => exact (wp_of_run_ok hr).2 ((wp_of_run_ok hr).1 h)
  | error e => exact (wp_of_run_error hr).2 (hE _ ((wp_of_run_error hr).1 h))

theorem wp_and (h : wp m E Q s) (h' : wp m E' Q' s) :
    wp m (fun e => E e ∧ E' e) (fun a s' => Q a s' ∧ Q' a s') s := by
  cases hr : m.run s with
  | ok p => exact (wp_of_run_ok hr).2 ⟨(wp_of_run_ok hr).1 h, (wp_of_run_ok hr).1 h'⟩
  | error e => exact (wp_of_run_error hr).2 ⟨(wp_of_run_error hr).1 h, (wp_of_run_error hr).1 h'⟩

/-- What is so of every result needs no argument, where any reason to stop is admitted. -/
theorem wp_of_forall (h : ∀ a s', Q a s') : wp m (fun _ => True) Q s := by
  cases hr : m.run s with
  | ok p => exact (wp_of_run_ok hr).2 (h _ _)
  | error e => exact (wp_of_run_error hr).2 trivial

theorem exists_run_of_wp (h : wp m (fun _ => False) Q s) :
    ∃ a s', m.run s = .ok (a, s') ∧ Q a s' := by
  cases hr : m.run s with
  | ok p => exact ⟨p.1, p.2, rfl, (wp_of_run_ok hr).1 h⟩
  | error e => exact ((wp_of_run_error hr).1 h).elim

theorem run_error_of_wp (h : wp m (fun e' => e' = e) (fun _ _ => False) s) :
    m.run s = .error e := by
  cases hr : m.run s with
  | ok p => exact ((wp_of_run_ok hr).1 h).elim
  | error e' => rw [(wp_of_run_error hr).1 h]

@[simp] theorem wp_pure {a : α} : wp (pure a : Prog σ ε α) E Q s ↔ Q a s := Iff.rfl

@[simp] theorem wp_bind (f : α → Prog σ ε β) {Q : β → σ → Prop} :
    wp (m >>= f) E Q s ↔ wp m E (fun a s' => wp (f a) E Q s') s := by
  cases hr : m.run s with
  | ok p =>
    rw [wp_of_run_ok hr]
    simp only [wp, StateT.run_bind, hr]
    rfl
  | error e =>
    rw [wp_of_run_error hr]
    simp only [wp, StateT.run_bind, hr]
    rfl

@[simp] theorem wp_get {Q : σ → σ → Prop} : wp (get : Prog σ ε σ) E Q s ↔ Q s s := Iff.rfl

@[simp] theorem wp_set (s' : σ) {Q : PUnit → σ → Prop} :
    wp (set s' : Prog σ ε PUnit) E Q s ↔ Q ⟨⟩ s' := Iff.rfl

@[simp] theorem wp_modify (f : σ → σ) {Q : PUnit → σ → Prop} :
    wp (modify f : Prog σ ε PUnit) E Q s ↔ Q ⟨⟩ (f s) := Iff.rfl

@[simp] theorem wp_throw (e : ε) : wp (throw e : Prog σ ε α) E Q s ↔ E e := Iff.rfl

@[simp] theorem wp_ite (c : Prop) [Decidable c] (m₁ m₂ : Prog σ ε α) :
    wp (if c then m₁ else m₂) E Q s ↔ (c → wp m₁ E Q s) ∧ (¬c → wp m₂ E Q s) := by
  by_cases h : c <;> simp [h]

@[simp] theorem wp_dite (c : Prop) [Decidable c] (m₁ : c → Prog σ ε α) (m₂ : ¬c → Prog σ ε α) :
    wp (if h : c then m₁ h else m₂ h) E Q s ↔ (∀ h : c, wp (m₁ h) E Q s) ∧
    (∀ h : ¬c, wp (m₂ h) E Q s) := by
  by_cases h : c <;> simp [h]

/-- **The loop rule.**  An invariant of the elements already dealt with, kept by the
body at each element, holds of all of them at the end. -/
theorem wp_forM {xs : List α} {f : α → Prog σ ε PUnit} (I : List α → σ → Prop)
    (h : ∀ (ys : List α) (x : α) (zs : List α) (s : σ), xs = ys ++ x :: zs → I ys s →
      wp (f x) E (fun _ s' => I (ys ++ [x]) s') s)
    (h₀ : I [] s) : wp (forM xs f) E (fun _ s' => I xs s') s := by
  suffices H : ∀ (zs ys : List α) (s : σ), xs = ys ++ zs → I ys s →
      wp (forM zs f) E (fun _ s' => I xs s') s from H xs [] s rfl h₀
  intro zs
  induction zs with
  | nil =>
    intro ys s hxs hI
    rw [List.append_nil] at hxs
    subst hxs
    exact hI
  | cons x zs ih =>
    intro ys s hxs hI
    simp only [List.forM_cons, wp_bind]
    refine wp_mono (h ys x zs s hxs hI) fun _ s' hI' => ?_
    exact ih (ys ++ [x]) s' (by simp [hxs]) hI'

theorem wp_forM_range {n : ℕ} {f : ℕ → Prog σ ε PUnit} {Q : PUnit → σ → Prop} (I : ℕ → σ → Prop)
    (h : ∀ k < n, ∀ s, I k s → wp (f k) E (fun _ s' => I (k + 1) s') s) (h₀ : I 0 s)
    (hQ : ∀ s', I n s' → Q ⟨⟩ s') : wp (forM (List.range n) f) E Q s := by
  have hloop : wp (forM (List.range n) f) E (fun _ s' => I (List.range n).length s') s := by
    refine wp_forM (I := fun ys s' => I ys.length s') (fun ys k zs s' hys hI => ?_) h₀
    have hlen : ys.length < n := by
      have := congrArg List.length hys
      simp at this
      omega
    have hk : k = ys.length := by
      have := congrArg (·[ys.length]?) hys
      simpa [hlen, eq_comm] using this
    rw [List.length_append, List.length_singleton, hk]
    exact h _ hlen s' hI
  rw [List.length_range] at hloop
  exact wp_mono hloop fun _ s' hI => hQ s' hI

/-- Run a program of a part `τ` of the state. -/
def zoom (get : σ → τ) (put : σ → τ → σ) (m : Prog τ ε α) : Prog σ ε α := fun s =>
  match m.run (get s) with
  | .ok (a, t) => .ok (a, put s t)
  | .error e => .error e

/-- **A part of the state runs inside the whole.** -/
@[simp] theorem wp_zoom (get : σ → τ) (put : σ → τ → σ) (m : Prog τ ε α) :
    wp (zoom get put m) E Q s ↔ wp m E (fun a t => Q a (put s t)) (get s) := by
  cases hr : m.run (get s) with
  | ok p =>
    rw [wp_of_run_ok hr]
    simp [wp, zoom, StateT.run, show m (get s) = .ok p from hr]
  | error e =>
    rw [wp_of_run_error hr]
    simp [wp, zoom, StateT.run, show m (get s) = .error e from hr]

-- a precondition is computed with the rules above, never by running the program
attribute [irreducible] wp

end Lib
