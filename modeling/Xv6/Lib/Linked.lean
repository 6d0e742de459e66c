/-
# A circular doubly linked list with a sentinel

The nodes are linked both ways into one circle with a head.  A pointer is `some b`, or `none` for
the head.  `Linked L l` says that the links make a circle of the head and the elements of `l`, in
that order, each once.  The operations are the assignments that make them up (`unlink`, `insert`).
-/

import Mathlib.Data.List.Chain
import Mathlib.Data.List.Nodup
import Mathlib.Data.Option.Basic

namespace Lib

open Function

variable {β : Type*} {k : ℕ}

/-- The links of a doubly linked list. -/
structure Links (β : Type*) where
  next : Option β → Option β
  prev : Option β → Option β

def Links.swap (L : Links β) : Links β := ⟨L.prev, L.next⟩

/-- `b` comes right after `a`, by both links. -/
def Links.Rel (L : Links β) (a b : Option β) : Prop := L.next a = b ∧ L.prev b = a

/-- **The links form one circle**: the head, the elements of `l` in order, the head. -/
structure Linked (L : Links β) (l : List β) : Prop where
  nodup : l.Nodup
  chain : (none :: (l.map some ++ [none])).IsChain L.Rel

/-! ### The two operations -/

section Operations

variable [DecidableEq β]

/-- `b->next->prev = b->prev; b->prev->next = b->next`. -/
def Links.unlink (L : Links β) (b : β) : Links β :=
  let prev := update L.prev (L.next (some b)) (L.prev (some b))
  { next := update L.next (prev (some b)) (L.next (some b)), prev }

/-- `b->next = head.next; b->prev = &head; head.next->prev = b; head.next = b`. -/
def Links.insert (L : Links β) (b : β) : Links β :=
  let next := update L.next (some b) (L.next none)
  let prev := update L.prev (some b) none
  { next := update next none (some b), prev := update prev (next none) (some b) }

variable {L : Links β} {l l₁ l₂ : List β} {b : β}

omit [DecidableEq β] in
theorem Linked.neighbours (h : Linked L (l₁ ++ b :: l₂)) :
    ∃ u v x y, none :: l₁.map some = u ++ [x] ∧ l₂.map some ++ [none] = y :: v ∧
    (u ++ [x]).IsChain L.Rel ∧ (y :: v).IsChain L.Rel ∧ L.Rel x (some b) ∧ L.Rel (some b) y := by
  obtain ⟨u, x, hu⟩ : ∃ u x, none :: l₁.map some = u ++ [x] :=
    (List.eq_nil_or_concat' _).resolve_left (List.cons_ne_nil _ _)
  obtain ⟨y, v, hv⟩ : ∃ y v, l₂.map some ++ [none] = y :: v := List.exists_cons_of_ne_nil (by simp)
  have hc := h.chain
  rw [List.map_append, List.map_cons, List.append_assoc, List.cons_append, hv, ← List.cons_append,
    hu, List.append_assoc, List.singleton_append] at hc
  have hx := hc.right_of_append
  rw [List.isChain_cons_cons, List.isChain_cons_cons] at hx
  have hsplit : ((u ++ [x]) ++ some b :: y :: v).IsChain L.Rel := by simpa using hc
  exact ⟨u, v, x, y, hu, hv, hsplit.left_of_append, hx.2.2, hx.1, hx.2.1⟩

/-- **Taking a node out** leaves the circle of the others. -/
theorem Linked.unlink (h : Linked L (l₁ ++ b :: l₂)) : Linked (L.unlink b) (l₁ ++ l₂) := by
  obtain ⟨u, v, x, y, hu, hv, hcu, hcv, hx, hy⟩ := h.neighbours
  have hnodup := h.nodup
  rw [List.nodup_append, List.nodup_cons] at hnodup
  obtain ⟨hn₁, ⟨hb₂, hn₂⟩, hdisj⟩ := hnodup
  have hb₁ : b ∉ l₁ := fun hb => hdisj b hb b (.head _) rfl
  -- where the nodes next to `b` lie
  have hxu : x = none ∨ ∃ c ∈ l₁, x = some c := by
    have : x ∈ none :: l₁.map some := hu ▸ List.mem_append_right _ (List.mem_singleton_self x)
    simpa [eq_comm] using this
  have hyv : y = none ∨ ∃ c ∈ l₂, y = some c := by
    have : y ∈ l₂.map some ++ [none] := hv ▸ List.mem_cons_self ..
    simpa [eq_comm, or_comm] using this
  have hyb : y ≠ some b := by
    rintro rfl
    rcases hyv with hy | ⟨c, hc, hy⟩ <;> cases hy
    exact hb₂ hc
  have hnext : (L.unlink b).next = update L.next x y := by
    simp only [Links.unlink, hy.1, hx.2, update_of_ne hyb.symm]
  have hprev : (L.unlink b).prev = update L.prev y x := by
    simp only [Links.unlink, hy.1, hx.2]
  -- the link out of `x` and the link into `y` are the only ones that change
  have hkeep : ∀ a c, L.Rel a c → c ≠ some b → c ≠ y → (L.unlink b).Rel a c := by
    intro a c hac hcb hcy
    have hax : a ≠ x := by
      rintro rfl
      exact hcb (hac.1.symm.trans hx.1)
    exact ⟨by rw [hnext, update_of_ne hax, hac.1],
      by rw [hprev, update_of_ne hcy, hac.2]⟩
  refine ⟨List.nodup_append.2 ⟨hn₁, hn₂, fun a ha c hc => hdisj a ha c (.tail _ hc)⟩, ?_⟩
  rw [List.map_append, List.append_assoc, hv, ← List.cons_append, hu, List.isChain_append]
  refine ⟨?_, ?_, ?_⟩
  · refine hcu.imp_of_mem_tail_imp fun a c _ hc hac => hkeep a c hac ?_ ?_
    · rintro rfl
      rw [← hu, List.tail_cons] at hc
      exact hb₁ (by simpa using hc)
    rintro rfl
    rw [← hu, List.tail_cons] at hc
    obtain ⟨d, hd, hdc⟩ := List.mem_map.1 hc
    rcases hyv with hy | ⟨e, he, hy⟩
    · rw [hy] at hdc
      cases hdc
    · obtain rfl : d = e := Option.some.inj (hdc.trans hy)
      exact hdisj d hd d (.tail _ he) rfl
  · have hnodup : (y :: v).Nodup := by
      rw [← hv, List.nodup_append]
      exact ⟨hn₂.map (Option.some_injective β), by simp, by simp⟩
    refine hcv.imp_of_mem_tail_imp fun a c _ hc hac => hkeep a c hac ?_ ?_
    · rintro rfl
      have : some b ∈ l₂.map some ++ [none] := hv ▸ .tail _ hc
      exact hb₂ (by simpa using this)
    · rintro rfl
      exact (List.nodup_cons.1 hnodup).1 hc
  · intro a ha c hc
    obtain rfl : x = a := by simpa using ha
    obtain rfl : y = c := by simpa using hc
    exact ⟨by rw [hnext, update_self], by rw [hprev, update_self]⟩

/-- **Putting a node in** behind the head. -/
theorem Linked.insert (h : Linked L l) (hb : b ∉ l) : Linked (L.insert b) (b :: l) := by
  obtain ⟨y, v, hv⟩ : ∃ y v, l.map some ++ [none] = y :: v := List.exists_cons_of_ne_nil (by simp)
  have hc := h.chain
  rw [hv, List.isChain_cons_cons] at hc
  obtain ⟨hy, hcv⟩ := hc
  have hmem : ∀ c, c ∈ y :: v → c ≠ some b := by
    rintro c hc rfl
    rw [← hv] at hc
    exact hb (by simpa using hc)
  have hyb : y ≠ some b := hmem y (.head _)
  have hnext : (L.insert b).next = update (update L.next (some b) y) none (some b) := by
    simp only [Links.insert, hy.1]
  have hprev : (L.insert b).prev = update (update L.prev (some b) none) y (some b) := by
    have : update L.next (some b) (L.next none) none = y := by
      rw [update_of_ne (Option.some_ne_none b).symm, hy.1]
    simp only [Links.insert, this]
  have hnodup : (y :: v).Nodup := by
    rw [← hv, List.nodup_append]
    exact ⟨h.nodup.map (Option.some_injective β), by simp, by simp⟩
  refine ⟨List.nodup_cons.2 ⟨hb, h.nodup⟩, ?_⟩
  rw [List.map_cons, List.cons_append, hv, List.isChain_cons_cons, List.isChain_cons_cons]
  refine ⟨⟨?_, ?_⟩, ⟨?_, ?_⟩, ?_⟩
  · rw [hnext, update_self]
  · rw [hprev, update_of_ne hyb.symm, update_self]
  · rw [hnext, update_of_ne (Option.some_ne_none b), update_self]
  · rw [hprev, update_self]
  refine hcv.imp_of_mem_tail_imp fun a c ha hc hac => ?_
  have hcy : c ≠ y := by
    rintro rfl
    exact (List.nodup_cons.1 hnodup).1 hc
  have ha₀ : a ≠ none := by
    rintro rfl
    exact hcy (hac.1.symm.trans hy.1)
  refine ⟨?_, ?_⟩
  · rw [hnext, update_of_ne ha₀, update_of_ne (hmem a ha), hac.1]
  · rw [hprev, update_of_ne hcy, update_of_ne (hmem c (.tail _ hc)), hac.2]

theorem Linked.moveToFront (h : Linked L l) (hb : b ∈ l) :
    Linked ((L.unlink b).insert b) (b :: l.erase b) := by
  obtain ⟨l₁, l₂, rfl⟩ := List.append_of_mem hb
  have hb₁ : b ∉ l₁ := fun hb₁ => (List.nodup_append.1 h.nodup).2.2 b hb₁ b (.head _) rfl
  have hb₂ : b ∉ l₂ := (List.nodup_cons.1 (List.nodup_append.1 h.nodup).2.1).1
  rw [List.erase_append_right _ hb₁, List.erase_cons_head]
  exact h.unlink.insert (by simp [hb₁, hb₂])

end Operations

/-! ### Searching -/

/-- Follow the links `f` from a node to the first element with `P`, or back to the head. -/
def Links.search (f : Option β → Option β) (P : β → Bool) : ℕ → Option β → Option β
  | 0, _ => none
  | _ + 1, none => none
  | k + 1, some b => if P b then some b else search f P k (f (some b))

variable {L : Links β} {l : List β} {P : β → Bool}

theorem search_of_chain (hk : l.length < k) (h : (a :: (l.map some ++ [none])).IsChain L.Rel) :
    Links.search L.next P k (L.next a) = l.find? P := by
  induction l generalizing k a with
  | nil =>
    obtain ⟨k, rfl⟩ : ∃ j, k = j + 1 := Nat.exists_eq_add_of_lt hk |>.imp fun j hj => by
      simpa using hj
    have hnext : L.next a = none := (List.isChain_cons_cons.1 h).1.1
    rw [hnext]
    rfl
  | cons b l ih =>
    obtain ⟨k, rfl⟩ : ∃ j, k = j + 1 := ⟨k - 1, by simp only [List.length_cons] at hk; omega⟩
    obtain ⟨hab, hrest⟩ := List.isChain_cons_cons.1 h
    rw [hab.1, Links.search, List.find?_cons]
    cases hP : P b with
    | true => rfl
    | false => exact ih (Nat.lt_of_succ_lt_succ hk) hrest

/-- **A search along `next`.** -/
theorem Linked.search_next (h : Linked L l) (hk : l.length < k) :
    Links.search L.next P k (L.next none) = l.find? P :=
  search_of_chain hk h.chain

theorem Linked.swap (h : Linked L l) : Linked L.swap l.reverse where
  nodup := List.nodup_reverse.2 h.nodup
  chain := by
    have hrev :
        none :: (l.reverse.map some ++ [none]) = (none :: (l.map some ++ [none])).reverse := by
      simp
    rw [hrev, List.isChain_reverse]
    exact h.chain.imp fun _ _ hab => ⟨hab.2, hab.1⟩

/-- **A search along `prev`.** -/
theorem Linked.search_prev (h : Linked L l) (hk : l.length < k) :
    Links.search L.prev P k (L.prev none) = l.reverse.find? P :=
  h.swap.search_next (by rwa [List.length_reverse])

end Lib
