/-
# Runs of a transition system

`step` says what an action does in a state, and `ok` which actions the environment takes there.  An
invariant is a property that the first state has and each move keeps (`Reach.invariant`).  `run`
performs a list of actions and evaluates.  A `history` variable goes along with a run.
-/

import Mathlib.Logic.Relation
import Mathlib.Tactic.SplitIfs

namespace Lib

variable {σ α : Type*} {step : σ → α → Option σ} {ok : σ → α → Prop} {I : σ → Prop} {s s' s₀ : σ}
  {as : List α}

def Move (step : σ → α → Option σ) (ok : σ → α → Prop) (s s' : σ) : Prop :=
  ∃ a, ok s a ∧ step s a = some s'

/-- The states that actions allowed by `ok` lead to. -/
abbrev Reach (step : σ → α → Option σ) (ok : σ → α → Prop) : σ → σ → Prop :=
  Relation.ReflTransGen (Move step ok)

/-- **What each move keeps holds in every reachable state.** -/
theorem Reach.invariant (h : Reach step ok s₀ s) (h₀ : I s₀)
    (hstep : ∀ s a s', I s → ok s a → step s a = some s' → I s') : I s := by
  induction h with
  | refl => exact h₀
  | tail _ hm ih =>
    obtain ⟨a, hok, hs⟩ := hm
    exact hstep _ a _ ih hok hs

/-- **Forward simulation**: if `f` takes each move, made in a state with the invariant `I`, to some
moves of another system, then it takes a run to a run. -/
theorem Reach.simulates {τ β : Type*} {step' : τ → β → Option τ} {ok' : τ → β → Prop} {f : σ → τ}
    (h : Reach step ok s₀ s) (h₀ : I s₀)
    (hstep : ∀ s a s', I s → ok s a → step s a = some s' → I s' ∧ Reach step' ok' (f s) (f s')) :
    I s ∧ Reach step' ok' (f s₀) (f s) := by
  induction h with
  | refl => exact ⟨h₀, Relation.ReflTransGen.refl⟩
  | tail _ hm ih =>
    obtain ⟨a, hok, hs⟩ := hm
    obtain ⟨hinv, hmoves⟩ := hstep _ a _ ih.1 hok hs
    exact ⟨hinv, ih.2.trans hmoves⟩

/-- The system with a history variable, which `note` updates at each step. -/
def history {γ : Type*} (step : σ → α → Option σ) (note : σ → α → σ → γ → γ) (x : σ × γ) (a : α) :
    Option (σ × γ) :=
  (step x.1 a).map fun s' => (s', note x.1 a s' x.2)

theorem Reach.history_invariant {γ : Type*} {note : σ → α → σ → γ → γ} {ok : σ × γ → α → Prop}
    {I : σ → γ → Prop} {x₀ x : σ × γ} (h : Reach (history step note) ok x₀ x) (h₀ : I x₀.1 x₀.2)
    (hstep : ∀ s a s' g, I s g → ok (s, g) a → step s a = some s' → I s' (note s a s' g)) :
    I x.1 x.2 := by
  refine h.invariant (I := fun x => I x.1 x.2) h₀ fun x a x' hx hok hs => ?_
  obtain ⟨s', hs', rfl⟩ := Option.map_eq_some_iff.1 hs
  exact hstep _ a s' _ hx hok hs'

/-- Perform the actions in order, each allowed by `ok` where it is taken. -/
def run (step : σ → α → Option σ) (ok : σ → α → Prop) [∀ s a, Decidable (ok s a)] :
    σ → List α → Option σ
  | s, [] => some s
  | s, a :: as => if ok s a then (step s a).bind fun s' => run step ok s' as else none

theorem reach_of_actions [∀ s a, Decidable (ok' s a)]
    (hok : ∀ a ∈ as, ∀ s, ok' s a → ok s a) (h : run step ok' s as = some s') :
    Reach step ok s s' := by
  induction as generalizing s with
  | nil => exact Option.some.inj h ▸ Relation.ReflTransGen.refl
  | cons a as ih =>
    rw [run] at h
    split_ifs at h with ha
    obtain ⟨s₁, hs₁, h⟩ := Option.bind_eq_some_iff.1 h
    have hrest := ih (fun a ha => hok a (.tail _ ha)) h
    exact Relation.ReflTransGen.head ⟨a, hok a (.head _) s ha, hs₁⟩ hrest

theorem reach_of_run [∀ s a, Decidable (ok s a)] (h : run step ok s as = some s') :
    Reach step ok s s' :=
  reach_of_actions (fun _ _ _ ha => ha) h

/-- A run that evaluates reaches a state with the value computed of it. -/
theorem exists_reach_of_run [∀ s a, Decidable (ok s a)]
    (h : (run step ok s as).map f = some v) : ∃ s', Reach step ok s s' ∧ f s' = v := by
  obtain ⟨s', hs', hv⟩ := Option.map_eq_some_iff.1 h
  exact ⟨s', reach_of_run hs', hv⟩

end Lib
