/-
# A finite map kept in slots

A table is a list of slots, each empty or with a key and a value.  A new pair goes into the first
empty slot, or into a new slot at the end; a pair is erased by emptying its slot.  Both changes
replace one slot (`setAt`), and while the keys are distinct (`Distinct`) the table is a finite map.
-/

import Mathlib.Data.List.Nodup

namespace Lib.Slots

variable {κ ν : Type*} {k k' : κ} {v : ν} {t : List (Option (κ × ν))} {i j : ℕ} {e : κ × ν}

/-- The keys in the table, from the front. -/
def keys (t : List (Option (κ × ν))) : List κ := t.filterMap (Option.map Prod.fst)

def Distinct (t : List (Option (κ × ν))) : Prop := (keys t).Nodup

/-- Slot `i` gets a new value; it may be the slot after the last one. -/
def setAt (t : List (Option (κ × ν))) (i : ℕ) (o : Option (κ × ν)) : List (Option (κ × ν)) :=
  t.take i ++ o :: t.drop (i + 1)

/-- The first empty slot, or the one after the last; the first slot has number `i`. -/
def gap (i : ℕ) : List (Option (κ × ν)) → ℕ
  | [] => i
  | none :: _ => i
  | some _ :: t => gap (i + 1) t

section

variable [DecidableEq κ]

instance : Decidable (Distinct t) := inferInstanceAs (Decidable (keys t).Nodup)

/-- The first slot with the key, and its value; the first slot has number `i`. -/
def search (k : κ) (i : ℕ) : List (Option (κ × ν)) → Option (ℕ × ν)
  | [] => none
  | none :: t => search k (i + 1) t
  | some e :: t => if e.1 = k then some (i, e.2) else search k (i + 1) t

def lookup (t : List (Option (κ × ν))) (k : κ) : Option ν := (search k 0 t).map Prod.snd

end

@[simp] theorem keys_nil : keys ([] : List (Option (κ × ν))) = [] := rfl

@[simp] theorem keys_cons_none : keys (none :: t) = keys t := rfl

@[simp] theorem keys_cons_some (e : κ × ν) : keys (some e :: t) = e.1 :: keys t := rfl

@[simp] theorem keys_append (t u : List (Option (κ × ν))) : keys (t ++ u) = keys t ++ keys u :=
  List.filterMap_append ..

theorem mem_keys : k ∈ keys t ↔ ∃ v, some (k, v) ∈ t := by
  simp [keys]

/-! ### Empty slots -/

/-- Slot `i` is empty, or the one after the last. -/
def Vacant (t : List (Option (κ × ν))) (i : ℕ) : Prop := i ≤ t.length ∧ ∀ e, t[i]? ≠ some (some e)

theorem Vacant.cons (h : Vacant t i) (o : Option (κ × ν)) : Vacant (o :: t) (i + 1) :=
  ⟨Nat.succ_le_succ h.1, fun e => by simpa using h.2 e⟩

theorem vacant_gap : ∃ m, gap i t = i + m ∧ Vacant t m := by
  induction t generalizing i with
  | nil => exact ⟨0, rfl, Nat.le_refl _, fun e => by simp⟩
  | cons o t ih =>
    cases o with
    | none => exact ⟨0, rfl, Nat.zero_le _, fun e => by simp⟩
    | some e =>
      obtain ⟨m, hm, hv⟩ := ih (i := i + 1)
      exact ⟨m + 1, by rw [gap, hm]; omega, hv.cons _⟩

theorem keys_of_vacant (h : Vacant t i) : keys t = keys (t.take i) ++ keys (t.drop (i + 1)) := by
  have hsplit : keys t = keys (t.take i) ++ keys (t.drop i) := by
    rw [← keys_append, List.take_append_drop]
  rw [hsplit]
  congr 1
  by_cases hi : i < t.length
  · rw [List.drop_eq_getElem_cons hi]
    cases ho : t[i] with
    | none => rfl
    | some e => exact absurd (by rw [List.getElem?_eq_getElem hi, ho]) (h.2 e)
  · rw [List.drop_eq_nil_of_le (by omega), List.drop_eq_nil_of_le (by omega)]

/-- **A new key** in an empty slot. -/
theorem Distinct.setAt (h : Distinct t) (hi : Vacant t i) (hk : k ∉ keys t) (v : ν) :
    Distinct (setAt t i (some (k, v))) := by
  unfold Distinct Slots.setAt at *
  rw [keys_of_vacant hi] at h hk
  rw [keys_append, keys_cons_some]
  exact List.nodup_middle.2 (List.nodup_cons.2 ⟨hk, h⟩)

theorem Distinct.clear (h : Distinct t) (i : ℕ) : Distinct (Slots.setAt t i none) := by
  unfold Distinct Slots.setAt at *
  rw [keys_append, keys_cons_none]
  have hsub : (keys (t.take i) ++ keys (t.drop (i + 1))).Sublist (keys t) := by
    rw [← keys_append]
    refine List.Sublist.filterMap _ ?_
    conv_rhs => rw [← List.take_append_drop i t]
    refine List.Sublist.append (List.Sublist.refl _) ?_
    rw [← List.drop_drop]
    exact List.drop_sublist 1 _
  exact hsub.nodup h

theorem mem_setAt (o : Option (κ × ν)) (he : o ≠ some e) : some e ∈ setAt t i o → some e ∈ t := by
  rw [setAt, List.mem_append, List.mem_cons]
  rintro (h | h | h)
  · exact List.mem_of_mem_take h
  · exact absurd h.symm he
  · exact List.mem_of_mem_drop h

theorem mem_setAt_of_mem (o : Option (κ × ν)) (h : some e ∈ t) (hi : t[i]? ≠ some (some e)) :
    some e ∈ setAt t i o := by
  rw [setAt, List.mem_append, List.mem_cons]
  obtain ⟨j, hj, he⟩ := List.getElem_of_mem h
  rcases Nat.lt_trichotomy j i with hlt | rfl | hgt
  · left
    rw [← he]
    exact List.mem_take_iff_getElem.2 ⟨j, by omega, rfl⟩
  · rw [List.getElem?_eq_getElem hj, he] at hi
    exact absurd rfl hi
  right
  right
  rw [← he]
  refine List.mem_drop_iff_getElem.2 ⟨j - (i + 1), by omega, ?_⟩
  congr 1
  omega

/-! ### Lookups -/

section Lookup

variable [DecidableEq κ]

/-- **Where a search ends.** -/
theorem search_eq_some : search k i t = some (m, v) ↔
    ∃ a b, t = a ++ some (k, v) :: b ∧ k ∉ keys a ∧ m = i + a.length := by
  induction t generalizing i with
  | nil => simp [search]
  | cons o t ih =>
    cases o with
    | none =>
      rw [search, ih]
      constructor
      · rintro ⟨a, b, rfl, ha, rfl⟩
        exact ⟨none :: a, b, rfl, ha, by simp only [List.length_cons]; omega⟩
      rintro ⟨a, b, ht, ha, rfl⟩
      cases a with
      | nil => simp at ht
      | cons o a =>
        obtain ⟨rfl, rfl⟩ := List.cons_eq_cons.1 ht
        exact ⟨a, b, rfl, ha, by simp only [List.length_cons]; omega⟩
    | some e =>
      rw [search]
      split_ifs with hk
      · constructor
        · intro h
          obtain ⟨rfl, rfl⟩ := Prod.mk.inj (Option.some.inj h)
          exact ⟨[], t, by rw [← hk]; rfl, List.not_mem_nil, rfl⟩
        rintro ⟨a, b, ht, ha, rfl⟩
        cases a with
        | nil =>
          obtain ⟨he, -⟩ := List.cons_eq_cons.1 ht
          rw [Option.some.inj he]
          rfl
        | cons o a =>
          obtain ⟨rfl, rfl⟩ := List.cons_eq_cons.1 ht
          exact absurd (hk ▸ List.mem_cons_self ..) ha
      · rw [ih]
        constructor
        · rintro ⟨a, b, rfl, ha, rfl⟩
          refine ⟨some e :: a, b, rfl, ?_, by simp only [List.length_cons]; omega⟩
          rw [keys_cons_some, List.mem_cons, not_or]
          exact ⟨fun h => hk h.symm, ha⟩
        rintro ⟨a, b, ht, ha, rfl⟩
        cases a with
        | nil =>
          obtain ⟨he, -⟩ := List.cons_eq_cons.1 ht
          exact absurd (by rw [Option.some.inj he]) hk
        | cons o a =>
          obtain ⟨rfl, rfl⟩ := List.cons_eq_cons.1 ht
          rw [keys_cons_some, List.mem_cons, not_or] at ha
          exact ⟨a, b, rfl, ha.2, by simp only [List.length_cons]; omega⟩

theorem search_eq_none : search k i t = none ↔ k ∉ keys t := by
  induction t generalizing i with
  | nil => simp [search]
  | cons o t ih =>
    cases o with
    | none => rw [search, ih, keys_cons_none]
    | some e =>
      rw [search, keys_cons_some, List.mem_cons, not_or]
      split_ifs with hk
      · exact iff_of_false (by simp) fun h => h.1 hk.symm
      · rw [ih]
        exact ⟨fun h => ⟨fun he => hk he.symm, h⟩, And.right⟩

theorem lookup_eq_some : lookup t k = some v ↔ ∃ a b, t = a ++ some (k, v) :: b ∧ k ∉ keys a := by
  rw [lookup, Option.map_eq_some_iff]
  constructor
  · rintro ⟨⟨m, w⟩, hs, rfl⟩
    obtain ⟨a, b, ht, ha, -⟩ := search_eq_some.1 hs
    exact ⟨a, b, ht, ha⟩
  · rintro ⟨a, b, ht, ha⟩
    exact ⟨(0 + a.length, v), search_eq_some.2 ⟨a, b, ht, ha, rfl⟩, rfl⟩

theorem lookup_eq_none : lookup t k = none ↔ k ∉ keys t := by
  rw [lookup, Option.map_eq_none_iff, search_eq_none]

theorem Distinct.lookup_iff (h : Distinct t) : lookup t k = some v ↔ some (k, v) ∈ t := by
  rw [lookup_eq_some]
  constructor
  · rintro ⟨a, b, rfl, -⟩
    exact List.mem_append_right _ (.head _)
  intro hmem
  obtain ⟨a, b, rfl⟩ := List.append_of_mem hmem
  refine ⟨a, b, rfl, fun ha => ?_⟩
  unfold Distinct at h
  rw [keys_append, keys_cons_some] at h
  exact List.disjoint_of_nodup_append h ha (.head _)

/-- **After a new pair has been put in**, its key has its value and every other key the one it had.
-/
theorem lookup_put (h : Distinct t) (hi : Vacant t i) (hk : k ∉ keys t) (v : ν) :
    lookup (setAt t i (some (k, v))) k' = if k' = k then some v else lookup t k' := by
  have hnew := h.setAt hi hk v
  split_ifs with he
  · subst he
    refine hnew.lookup_iff.2 ?_
    rw [setAt, List.mem_append]
    exact .inr (.head _)
  · refine Option.ext fun w => ?_
    rw [hnew.lookup_iff, h.lookup_iff]
    refine ⟨mem_setAt _ fun heq => he ?_, fun hmem => mem_setAt_of_mem _ hmem (hi.2 _)⟩
    exact (congrArg Prod.fst (Option.some.inj heq)).symm

/-- **After the slot of a key has been emptied**, the key is gone and every other key has the value
it had. -/
theorem lookup_clear (h : Distinct t) (hs : search k 0 t = some (i, v)) :
    lookup (setAt t i none) k' = if k' = k then none else lookup t k' := by
  obtain ⟨a, b, rfl, -, rfl⟩ := search_eq_some.1 hs
  have hnew := h.clear (0 + a.length)
  have hset : setAt (a ++ some (k, v) :: b) (0 + a.length) none = a ++ none :: b := by
    rw [setAt, Nat.zero_add, List.take_left, ← List.drop_drop, List.drop_left]
    rfl
  rw [hset] at hnew ⊢
  unfold Distinct at h
  rw [keys_append, keys_cons_some] at h
  split_ifs with he
  · subst he
    rw [lookup_eq_none, keys_append, keys_cons_none]
    exact (List.nodup_cons.1 (List.nodup_middle.1 h)).1
  have hold : Distinct (a ++ some (k, v) :: b) := by
    unfold Distinct
    rwa [keys_append, keys_cons_some]
  refine Option.ext fun w => ?_
  rw [hnew.lookup_iff, hold.lookup_iff]
  simp only [List.mem_append, List.mem_cons, Option.some.injEq, Prod.mk.injEq]
  tauto

end Lookup

end Lib.Slots
