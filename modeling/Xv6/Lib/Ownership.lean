/-
# Exact ownership

A resource that is in use has exactly one owner: a place that points to it, or the hands of the
routine that is just moving it.  `Exact pl held used` says so for the places `pl`, the multiset
`held` in hand, and the predicate `used`.  Two places then never point to one resource
(`Exact.unique`).
-/

import Xv6.Lib.Tally
import Mathlib.Algebra.Order.BigOperators.Group.Finset

namespace Lib

open Function

variable {ι α : Type*} [Fintype ι] [DecidableEq α] {p q : ι} {a : α} {used' : α → Prop}

/-- How many places point to `a`. -/
def owners (pl : ι → Option α) (a : α) : ℕ := ∑ p, if pl p = some a then 1 else 0

/-- Every resource in use has exactly one owner, and no other resource has any. -/
def Exact (pl : ι → Option α) (held : Multiset α) (used : α → Prop) [DecidablePred used] : Prop :=
  ∀ a, owners pl a + held.count a = if used a then 1 else 0

theorem owners_update_add [DecidableEq ι] (pl : ι → Option α) (p : ι) (v : Option α)
    (a : α) :
    owners (update pl p v) a + (if pl p = some a then 1 else 0) = owners pl a + if v =
    some a then 1 else 0 :=
  sum_update_add (fun _ v => if v = some a then 1 else 0) pl p v

theorem owners_eq_card (pl : ι → Option α) (a : α) :
    owners pl a = (Finset.univ.filter fun p => pl p = some a).card := by
  rw [owners, Finset.card_filter]

theorem owners_pos {pl : ι → Option α} (h : pl p = some a) : 0 < owners pl a := by
  rw [owners_eq_card]
  exact Finset.card_pos.2 ⟨p, by simpa using h⟩

theorem owners_store [DecidableEq ι] {pl : ι → Option α} (h : pl p = none) (a : α) :
    owners (update pl p (some a)) = owners pl + Pi.single a 1 := by
  funext c
  have hup := owners_update_add pl p (some a) c
  rw [h, if_neg (by simp)] at hup
  by_cases hc : c = a
  · subst hc
    rw [if_pos rfl] at hup
    rw [Pi.add_apply, Pi.single_eq_same]
    omega
  · rw [if_neg fun he => hc (Option.some.inj he).symm] at hup
    rw [Pi.add_apply, Pi.single_eq_of_ne hc]
    omega

theorem owners_take [DecidableEq ι] {pl : ι → Option α} (h : pl p = some a) :
    owners pl = owners (update pl p none) + Pi.single a 1 := by
  rw [← owners_store (update_self ..), update_idem, ← h, update_eq_self]

variable {pl : ι → Option α} {held : Multiset α} {used : α → Prop} [DecidablePred used]

variable (h : Exact pl held used)
include h

theorem Exact.owners_le_one (a : α) : owners pl a ≤ 1 := by
  have ha := h a
  split_ifs at ha <;> omega

/-- **No resource is shared.** -/
theorem Exact.unique {p q : ι} (hp : pl p = some a) (hq : pl q = some a) : p = q := by
  have hle := h.owners_le_one a
  rw [owners_eq_card, Finset.card_le_one] at hle
  exact hle p (by simpa using hp) q (by simpa using hq)

theorem Exact.used_of_place {p : ι} (hp : pl p = some a) : used a := by
  have ha := h a
  have hpos := owners_pos hp
  by_contra hu
  rw [if_neg hu] at ha
  omega

omit h in
theorem Exact.used_iff (h : Exact pl 0 used) (a : α) : used a ↔ ∃! p, pl p = some a := by
  constructor
  · intro hu
    have ha := h a
    rw [if_pos hu, Multiset.count_zero, Nat.add_zero, owners_eq_card] at ha
    obtain ⟨p, hp⟩ := Finset.card_pos.1 (by rw [ha]; exact Nat.one_pos)
    have hp : pl p = some a := by simpa using hp
    exact ⟨p, hp, fun q hq => h.unique hq hp⟩
  · rintro ⟨p, hp, -⟩
    exact h.used_of_place hp

theorem Exact.used_of_held (ha : a ∈ held) : used a := by
  have hc := h a
  have hpos := Multiset.count_pos.2 ha
  by_contra hu
  rw [if_neg hu] at hc
  omega

theorem Exact.place_ne_of_held {p : ι} (ha : a ∈ held) : pl p ≠ some a := by
  intro hp
  have hc := h a
  have hpos := Multiset.count_pos.2 ha
  have hown := owners_pos hp
  split_ifs at hc <;> omega

/-- Allocation: an unused resource goes into the hand. -/
theorem Exact.acquire [DecidablePred used']
    (ha : ¬used a) (hu : ∀ b, used' b ↔ b = a ∨ used b) : Exact pl (a ::ₘ held) used' := by
  intro b
  have hb := h b
  by_cases hba : b = a
  · subst hba
    rw [if_neg ha] at hb
    rw [Multiset.count_cons_self, if_pos ((hu b).2 (.inl rfl))]
    omega
  · rw [Multiset.count_cons_of_ne hba, hb]
    simp only [hu, hba, false_or]

omit h in
/-- Freeing: a resource in hand becomes unused. -/
theorem Exact.release [DecidablePred used'] (h : Exact pl (a ::ₘ held) used)
    (hu : ∀ b, used' b ↔ b ≠ a ∧ used b) : Exact pl held used' := by
  intro b
  have hb := h b
  by_cases hba : b = a
  · subst hba
    rw [Multiset.count_cons_self] at hb
    rw [if_neg fun hu' => ((hu b).1 hu').1 rfl]
    split_ifs at hb
    omega
  · rw [Multiset.count_cons_of_ne hba] at hb
    rw [hb]
    simp only [hu, hba, ne_eq, not_false_eq_true, true_and]

omit h in
/-- A store: the resource in hand goes to an empty place. -/
theorem Exact.store [DecidableEq ι] (h : Exact pl (a ::ₘ held) used) {p : ι} (hp : pl p = none) :
    Exact (update pl p (some a)) held used := by
  intro b
  have hb := h b
  have hup := owners_update_add pl p (some a) b
  rw [hp, if_neg (by simp)] at hup
  by_cases hba : b = a
  · subst hba
    rw [Multiset.count_cons_self] at hb
    rw [if_pos rfl] at hup
    omega
  · rw [Multiset.count_cons_of_ne hba] at hb
    rw [if_neg fun he => hba (Option.some.inj he).symm] at hup
    omega

omit h in
/-- The resource of a place, as something to hold. -/
def hold (v : Option α) : Multiset α := v.elim 0 ({·})

omit [Fintype ι] in
omit h in
theorem count_hold (v : Option α) (a : α) : (hold v).count a = if v = some a then 1 else 0 := by
  cases v with
  | none => simp [hold]
  | some b => simp [hold, Multiset.count_singleton, eq_comm]

omit [Fintype ι] in
omit h in
theorem count_sum_hold (S : Finset ι) (pl : ι → Option α) (a : α) :
    (∑ p ∈ S, hold (pl p)).count a = (S.filter fun p => pl p = some a).card := by
  rw [Multiset.count_sum', Finset.card_filter]
  exact Finset.sum_congr rfl fun p _ => count_hold (pl p) a

omit [Fintype ι] in
omit h in
theorem eq_of_sum_hold {S : Finset ι} {pl : ι → Option α} (h : (∑ p ∈ S, hold (pl p)).count a ≤ 1)
    (hp : p ∈ S) (hq : q ∈ S) (hpa : pl p = some a) (hqa : pl q = some a) : p = q := by
  rw [count_sum_hold, Finset.card_le_one] at h
  exact h p (by simp [hp, hpa]) q (by simp [hq, hqa])

theorem Exact.takeAll [DecidableEq ι] {pl' : ι → Option α} (S : Finset ι)
    (hS : ∀ p ∈ S, pl' p = none) (ho : ∀ p ∉ S, pl' p = pl p) :
    Exact pl' (held + ∑ p ∈ S, hold (pl p)) used := by
  intro a
  have hsum : owners pl' a + (∑ p ∈ S, hold (pl p)).count a = owners pl a := by
    have hcount : (∑ p ∈ S, hold (pl p)).count a = ∑ p ∈ S, if pl p = some a then 1 else 0 := by
      rw [count_sum_hold, Finset.card_filter]
    have hin : ∑ p ∈ S, (if pl' p = some a then 1 else 0) = 0 := Finset.sum_eq_zero fun p hp => by
      simp [hS p hp]
    have hout : ∑ p ∈ Sᶜ, (if pl' p = some a then 1 else 0) = ∑ p ∈ Sᶜ,
        if pl p = some a then 1 else 0 :=
      Finset.sum_congr rfl fun p hp => by rw [ho p (Finset.mem_compl.1 hp)]
    rw [hcount, owners, owners,
      ← Finset.sum_add_sum_compl S (fun p => if pl' p = some a then 1 else 0),
      ← Finset.sum_add_sum_compl S (fun p => if pl p = some a then 1 else 0), hin, hout]
    omega
  rw [Multiset.count_add, ← h a, ← hsum]
  omega

/-- A take: a place gives up its resource, which goes into the hand. -/
theorem Exact.take [DecidableEq ι] (hp : pl p = some a) :
    Exact (update pl p none) (a ::ₘ held) used := by
  have ho : ∀ q, q ∉ ({p} : Finset ι) → update pl p none q = pl q := fun q hq =>
    update_of_ne (by simpa using hq) _ _
  have ht := h.takeAll {p} (by simp) ho
  rwa [Finset.sum_singleton, hp, hold, Option.elim_some, Multiset.add_comm,
    Multiset.singleton_add] at ht

theorem Exact.congr [DecidablePred used']
    (hu : ∀ a, used' a ↔ used a) : Exact pl held used' := fun a => by
  rw [h a]
  simp only [hu]

end Lib
