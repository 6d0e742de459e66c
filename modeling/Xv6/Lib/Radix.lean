/-
# Radix trees in memory

A table has `B` entries, and an entry may point to another table.  The tables sit in a memory `mem`,
so the tree is what a walk from the root finds there: `node d w` is the table at depth `d` whose
path spells `w` in base `B`, and `entry d v` the entry with the path `v`.
-/

import Xv6.Lib.Ownership
import Mathlib.Algebra.BigOperators.Intervals

namespace Lib

/-- What a table is: how an entry points to the next table, and how many there are. -/
structure Radix (P V : Type) where
  child : V → Option P
  zero : V
  /-- The number of entries of a table. -/
  B : ℕ
  child_zero : child zero = none
  B_pos : 0 < B

namespace Radix

variable {P V : Type} (R : Radix P V) (mem : P → ℕ → V) (root : P)

/-- The table at depth `d` on the path `w`. -/
def node : ℕ → ℕ → Option P
  | 0, w => if w = 0 then some root else none
  | d + 1, w => R.child ((node d (w / R.B)).elim R.zero fun x => mem x (w % R.B))

/-- The entry at depth `d` on the path `v`. -/
def entry (d v : ℕ) : V := (R.node mem root d (v / R.B)).elim R.zero fun x => mem x (v % R.B)

variable {R mem root} {mem₁ : P → ℕ → V} {d e v w i : ℕ} {x y : P} {val : V}

theorem node_succ : R.node mem root (d + 1) w = R.child (R.entry mem root d w) := rfl

@[simp] theorem node_zero_zero : R.node mem root 0 0 = some root := rfl

theorem entry_of_node (h : R.node mem root d (v / R.B) = some x) :
    R.entry mem root d v = mem x (v % R.B) := by rw [entry, h, Option.elim_some]

theorem entry_of_none (h : R.node mem root d (v / R.B) = none) :
    R.entry mem root d v = R.zero := by rw [entry, h, Option.elim_none]

theorem node_lt (h : R.node mem root d w = some x) : w < R.B ^ d := by
  induction d generalizing w x with
  | zero =>
    rw [node] at h
    split_ifs at h with h₀
    simp [h₀]
  | succ d ih =>
    rw [node_succ, entry] at h
    cases hn : R.node mem root d (w / R.B) with
    | none => simp [hn, R.child_zero] at h
    | some z =>
      have hlt := ih hn
      rw [Nat.div_lt_iff_lt_mul R.B_pos] at hlt
      rwa [pow_succ]

/-- A tree does not see memory outside its tables. -/
theorem node_congr (h : ∀ e < d, ∀ w x, R.node mem root e w = some x → mem₁ x = mem x) :
    R.node mem₁ root d w = R.node mem root d w := by
  induction d generalizing w with
  | zero => rfl
  | succ d ih =>
    have hn : R.node mem₁ root d (w / R.B) = R.node mem root d (w / R.B) :=
      ih fun e he => h e (Nat.lt_succ_of_lt he)
    rw [node, node, hn]
    cases hx : R.node mem root d (w / R.B) with
    | none => rfl
    | some x => rw [Option.elim_some, Option.elim_some, h d (Nat.lt_succ_self d) _ x hx]

theorem entry_congr (h : ∀ e ≤ d, ∀ w x, R.node mem root e w = some x → mem₁ x = mem x) :
    R.entry mem₁ root d v = R.entry mem root d v := by
  have hn : R.node mem₁ root d (v / R.B) = R.node mem root d (v / R.B) :=
    node_congr fun e he => h e he.le
  rw [entry, entry, hn]
  cases hx : R.node mem root d (v / R.B) with
  | none => rfl
  | some x => rw [Option.elim_some, Option.elim_some, h d le_rfl _ x hx]

/-! ### The pages of a tree -/

variable {D : ℕ}

/-- The positions of the tables of a tree of depth `D`. -/
def positions (R : Radix P V) (D : ℕ) : Finset (Σ _ : ℕ, ℕ) :=
  (Finset.range D).sigma fun d => Finset.range (R.B ^ d)

def pages (R : Radix P V) (mem : P → ℕ → V) (root : P) (D : ℕ) : Multiset P :=
  ∑ p ∈ R.positions D, hold (R.node mem root p.1 p.2)

theorem mem_positions (hd : d < D) (h : R.node mem root d w = some x) : ⟨d, w⟩ ∈ R.positions D := by
  simp only [positions, Finset.mem_sigma, Finset.mem_range]
  exact ⟨hd, node_lt h⟩

theorem mem_pages (hd : d < D) (h : R.node mem root d w = some x) : x ∈ R.pages mem root D := by
  refine Multiset.mem_of_le (Finset.single_le_sum (fun _ _ => Multiset.zero_le _)
    (mem_positions hd h)) ?_
  simp [h, hold]

theorem pages_congr (h : ∀ x ∈ R.pages mem root D, mem₁ x = mem x) :
    R.pages mem₁ root D = R.pages mem root D := by
  refine Finset.sum_congr rfl fun p hp => ?_
  have hp := Finset.mem_range.1 (Finset.mem_sigma.1 hp).1
  rw [node_congr fun e he w x hx => h x (mem_pages (he.trans hp) hx)]

variable [DecidableEq P]

/-- **No table is on two paths** when the pages are all different. -/
theorem eq_of_node (hn : (R.pages mem root D).Nodup) (hd : d < D) (he : e < D)
    (h₁ : R.node mem root d w = some x) (h₂ : R.node mem root e v = some x) : d = e ∧ w = v := by
  have heq : (⟨d, w⟩ : Σ _ : ℕ, ℕ) = ⟨e, v⟩ :=
    eq_of_sum_hold (Multiset.nodup_iff_count_le_one.1 hn x) (mem_positions hd h₁)
      (mem_positions he h₂) h₁ h₂
  cases heq
  exact ⟨rfl, rfl⟩

/-! ### The pages as a descent meets them -/

/-- The tables of the `n` levels from `x` down. -/
def below (R : Radix P V) (mem : P → ℕ → V) : ℕ → P → Multiset P
  | 0, _ => 0
  | n + 1, x => {x} + ∑ i ∈ Finset.range R.B, (R.child (mem x i)).elim 0 (below R mem n)

omit [DecidableEq P] in
theorem node_shift (h : w < R.B ^ (d + 1)) : R.node mem root (d + 1) w =
    (R.child (mem root (w / R.B ^ d))).bind fun y => R.node mem y d (w % R.B ^ d) := by
  induction d generalizing w with
  | zero =>
    rw [zero_add, pow_one] at h
    rw [node_succ, Radix.entry_of_node (x := root) (by rw [Nat.div_eq_of_lt h, node_zero_zero]),
      Nat.mod_eq_of_lt h, pow_zero, Nat.div_one, Nat.mod_one]
    cases R.child (mem root w) <;> rfl
  | succ d ih =>
    have hlt : w / R.B < R.B ^ (d + 1) := by
      rwa [Nat.div_lt_iff_lt_mul R.B_pos, ← pow_succ]
    have h₁ : w / R.B / R.B ^ d = w / R.B ^ (d + 1) := by
      rw [Nat.div_div_eq_div_mul, pow_succ']
    have h₂ : w % R.B ^ (d + 1) / R.B = w / R.B % R.B ^ d := by
      rw [pow_succ', Nat.mod_mul_right_div_self]
    have h₃ : w % R.B ^ (d + 1) % R.B = w % R.B := by
      rw [pow_succ', Nat.mod_mul_right_mod]
    rw [node, ih hlt, h₁]
    cases R.child (mem root (w / R.B ^ (d + 1))) with
    | none => simp [R.child_zero]
    | some y => rw [Option.bind_some, Option.bind_some, node, h₂, h₃]

theorem sum_range_mul [AddCommMonoid M] (f : ℕ → M) (m n : ℕ) :
    ∑ k ∈ Finset.range (m * n), f k = ∑ i ∈ Finset.range m, ∑ j ∈ Finset.range n,
    f (i * n + j) := by
  induction m with
  | zero => simp
  | succ m ih => rw [Nat.succ_mul, Finset.sum_range_add, ih, Finset.sum_range_succ]

omit [DecidableEq P] in
theorem pages_eq_sum (root : P) : R.pages mem root D =
    ∑ d ∈ Finset.range D, ∑ w ∈ Finset.range (R.B ^ d), hold (R.node mem root d w) :=
  Finset.sum_sigma ..

omit [DecidableEq P] in
theorem sum_level (d : ℕ) : ∑ w ∈ Finset.range (R.B ^ (d + 1)), hold (R.node mem root (d + 1) w) =
    ∑ i ∈ Finset.range R.B, (R.child (mem root i)).elim 0 fun y =>
      ∑ u ∈ Finset.range (R.B ^ d), hold (R.node mem y d u) := by
  have hpos : 0 < R.B ^ d := Nat.pow_pos R.B_pos
  rw [pow_succ', sum_range_mul]
  refine Finset.sum_congr rfl fun i hi => ?_
  have hi := Finset.mem_range.1 hi
  have hshift : ∀ u < R.B ^ d, R.node mem root (d + 1) (i * R.B ^ d + u) =
      (R.child (mem root i)).bind fun y => R.node mem y d u := by
    intro u hu
    have hlt : i * R.B ^ d + u < R.B ^ (d + 1) :=
      calc i * R.B ^ d + u < i * R.B ^ d + R.B ^ d := by omega
        _ = (i + 1) * R.B ^ d := by rw [Nat.add_mul, Nat.one_mul]
        _ ≤ R.B * R.B ^ d := Nat.mul_le_mul_right _ hi
        _ = R.B ^ (d + 1) := (pow_succ' ..).symm
    rw [node_shift hlt, Nat.mul_comm i, Nat.mul_add_div hpos, Nat.div_eq_of_lt hu, Nat.add_zero,
      Nat.mul_add_mod, Nat.mod_eq_of_lt hu]
  rw [Finset.sum_congr rfl fun u hu => by rw [hshift u (Finset.mem_range.1 hu)]]
  cases R.child (mem root i) with
  | none => simp [hold]
  | some y => rfl

omit [DecidableEq P] in
/-- **The descent meets every table once.** -/
theorem pages_eq_below : R.pages mem root D = R.below mem D root := by
  induction D generalizing root with
  | zero => rfl
  | succ D ih =>
    have hroot : ∑ w ∈ Finset.range (R.B ^ 0), hold (R.node mem root 0 w) = {root} := by
      rw [pow_zero, Finset.sum_range_one, node_zero_zero]
      rfl
    rw [pages_eq_sum, Finset.sum_range_succ', hroot, add_comm, below]
    congr 1
    rw [Finset.sum_congr rfl fun d _ => sum_level d, Finset.sum_comm]
    refine Finset.sum_congr rfl fun i _ => ?_
    cases R.child (mem root i) with
    | none => simp
    | some y => rw [Option.elim_some, ← ih, pages_eq_sum]; rfl

/-! ### Changing an entry -/

/-- `mem₁` is `mem` with the entry `i` of the table `x`, at depth `d` on the path `w`, set
to `val`.  Above the last level the entry was empty, and a table that it now points to
is new and empty. -/
structure Write (R : Radix P V) (mem : P → ℕ → V) (root : P) (D d w : ℕ) (x : P) (i : ℕ) (val : V)
    (mem₁ : P → ℕ → V) : Prop where
  self : mem₁ x i = val
  other : ∀ j < R.B, j ≠ i → mem₁ x j = mem x j
  page : ∀ y, y ≠ x → mem₁ y = mem y
  lt : i < R.B
  depth : d < D
  node : R.node mem root d w = some x
  nodup : (R.pages mem root D).Nodup
  empty : d + 1 < D → R.entry mem root d (w * R.B + i) = R.zero
  fresh : d + 1 < D → ∀ y, R.child val = some y → (∀ j < R.B, mem y j = R.zero) ∧
    y ∉ R.pages mem root D

variable (hw : R.Write mem root D d w x i val mem₁)

include hw

omit [DecidableEq P] in
theorem Write.div_mod : (w * R.B + i) / R.B = w ∧ (w * R.B + i) % R.B = i := by
  rw [Nat.mul_comm]
  constructor
  · rw [Nat.mul_add_div R.B_pos, Nat.div_eq_of_lt hw.lt, Nat.add_zero]
  · rw [Nat.mul_add_mod, Nat.mod_eq_of_lt hw.lt]

theorem Write.entry_of_node (he : e < D) (hnode : ∀ v, R.node mem₁ root e v =
      if e = d + 1 ∧ v = w * R.B + i then R.child val else R.node mem root e v) (v : ℕ) :
    R.entry mem₁ root e v = if e = d ∧ v = w * R.B + i then val else R.entry mem root e v := by
  have hmod : v % R.B < R.B := Nat.mod_lt _ R.B_pos
  by_cases hc : e = d + 1 ∧ v / R.B = w * R.B + i
  · -- the table that the new entry points to: empty now, not there before
    obtain ⟨rfl, hv⟩ := hc
    have hbefore : R.entry mem root (d + 1) v = R.zero :=
      entry_of_none (by rw [hv, node_succ, hw.empty he, R.child_zero])
    rw [if_neg (by omega), hbefore]
    cases hcv : R.child val with
    | none => exact entry_of_none (by rw [hnode, if_pos ⟨rfl, hv⟩, hcv])
    | some y =>
      obtain ⟨hzero, hnot⟩ := hw.fresh he y hcv
      have hyx : y ≠ x := fun h => hnot (h ▸ mem_pages hw.depth hw.node)
      rw [Radix.entry_of_node (x := y) (by rw [hnode, if_pos ⟨rfl, hv⟩, hcv]), hw.page y hyx,
        hzero _ hmod]
  · have hsame : R.node mem₁ root e (v / R.B) = R.node mem root e (v / R.B) := by
      rw [hnode, if_neg hc]
    cases hz : R.node mem root e (v / R.B) with
    | none =>
      rw [entry_of_none (hsame.trans hz), entry_of_none hz, if_neg]
      rintro ⟨rfl, rfl⟩
      rw [hw.div_mod.1, hw.node] at hz
      cases hz
    | some z =>
      rw [Radix.entry_of_node (hsame.trans hz), Radix.entry_of_node hz]
      by_cases hzx : z = x
      · subst hzx
        obtain ⟨rfl, rfl⟩ := eq_of_node hw.nodup hw.depth he hw.node hz
        by_cases hvi : v % R.B = i
        · have hv : v = v / R.B * R.B + i := by rw [← hvi, Nat.div_add_mod']
          rw [if_pos ⟨rfl, hv⟩, hvi, hw.self]
        · rw [if_neg, hw.other _ hmod hvi]
          rintro ⟨-, hv⟩
          exact hvi (by rw [hv]; exact hw.div_mod.2)
      · rw [hw.page z hzx, if_neg]
        rintro ⟨rfl, rfl⟩
        rw [hw.div_mod.1, hw.node] at hz
        exact hzx (Option.some.inj hz).symm

/-- **A write changes one entry of the tree, and one table below it.** -/
theorem Write.node_entry (he : e < D) : (∀ v, R.node mem₁ root e v =
      if e = d + 1 ∧ v = w * R.B + i then R.child val else R.node mem root e v) ∧
    ∀ v, R.entry mem₁ root e v =
      if e = d ∧ v = w * R.B + i then val else R.entry mem root e v := by
  suffices hnode : ∀ v, R.node mem₁ root e v =
      if e = d + 1 ∧ v = w * R.B + i then R.child val else R.node mem root e v from
    ⟨hnode, hw.entry_of_node he hnode⟩
  induction e with
  | zero => exact fun v => by rw [if_neg (by omega), Radix.node, Radix.node]
  | succ e ih =>
    intro v
    have hlt : e < D := Nat.lt_of_succ_lt he
    rw [node_succ, hw.entry_of_node hlt (ih hlt)]
    simp only [Nat.add_right_cancel_iff]
    split_ifs with hc
    · rfl
    · rw [node_succ]

theorem Write.pages_leaf (hlast : d + 1 = D) : R.pages mem₁ root D = R.pages mem root D := by
  refine Finset.sum_congr rfl fun p hp => ?_
  have hp := Finset.mem_range.1 (Finset.mem_sigma.1 hp).1
  rw [(hw.node_entry hp).1, if_neg (by omega)]

theorem Write.pages_link (hlt : d + 1 < D) (hy : R.child val = some y) :
    R.pages mem₁ root D = y ::ₘ R.pages mem root D := by
  set k := w * R.B + i with hk
  have hmem : (⟨d + 1, k⟩ : Σ _ : ℕ, ℕ) ∈ R.positions D := by
    simp only [positions, Finset.mem_sigma, Finset.mem_range]
    have h₁ := node_lt hw.node
    have h₂ := hw.lt
    refine ⟨hlt, ?_⟩
    calc k < w * R.B + R.B := by omega
      _ = (w + 1) * R.B := by rw [Nat.add_mul, Nat.one_mul]
      _ ≤ R.B ^ d * R.B := Nat.mul_le_mul_right _ h₁
      _ = R.B ^ (d + 1) := (pow_succ ..).symm
  have hnone : R.node mem root (d + 1) k = none := by
    rw [node_succ, hw.empty hlt, R.child_zero]
  have hsum : ∀ m : P → ℕ → V, R.pages m root D = hold (R.node m root (d + 1) k) +
      ∑ p ∈ (R.positions D).erase ⟨d + 1, k⟩, hold (R.node m root p.1 p.2) := fun m =>
    (Finset.add_sum_erase _ (fun p : Σ _ : ℕ, ℕ => hold (R.node m root p.1 p.2)) hmem).symm
  rw [hsum mem₁, hsum mem, hnone, (hw.node_entry hlt).1, if_pos ⟨rfl, rfl⟩, hy]
  have hrest : ∑ p ∈ (R.positions D).erase ⟨d + 1, k⟩, hold (R.node mem₁ root p.1 p.2) =
      ∑ p ∈ (R.positions D).erase ⟨d + 1, k⟩, hold (R.node mem root p.1 p.2) := by
    refine Finset.sum_congr rfl fun p hp => ?_
    obtain ⟨hne, hp⟩ := Finset.mem_erase.1 hp
    have hp := Finset.mem_range.1 (Finset.mem_sigma.1 hp).1
    rw [(hw.node_entry hp).1, if_neg]
    rintro ⟨h₁, h₂⟩
    exact hne (Sigma.ext h₁ (heq_of_eq h₂))
  rw [hrest]
  simp [hold]

omit hw [DecidableEq P] in
theorem below_succ (n : ℕ) (x : P) : R.below mem (n + 1) x =
    {x} + ∑ i ∈ Finset.range R.B, (R.child (mem x i)).elim 0 (R.below mem n) := rfl

omit hw [DecidableEq P] in
theorem below_congr (h : ∀ y ∈ R.below mem n x, mem₁ y = mem y) :
    R.below mem₁ n x = R.below mem n x := by
  rw [← pages_eq_below] at h
  rw [← pages_eq_below, ← pages_eq_below, pages_congr h]

omit hw [DecidableEq P] in
theorem mem_below_self (n : ℕ) (x : P) : x ∈ R.below mem (n + 1) x := by
  rw [below_succ]
  exact Multiset.mem_add.2 (.inl (Multiset.mem_singleton_self x))

omit hw [DecidableEq P] in
theorem below_child_le (n : ℕ) (hi : i < R.B) (hy : R.child (mem x i) = some y) :
    R.below mem n y ≤ R.below mem (n + 1) x := by
  rw [below_succ]
  refine le_trans ?_ le_add_self
  have := Finset.single_le_sum (f := fun i => (R.child (mem x i)).elim 0 (R.below mem n))
    (fun _ _ => Multiset.zero_le _) (Finset.mem_range.2 hi)
  rwa [hy] at this

-- the positions are too many to be unfolded
attribute [irreducible] pages below

end Radix

end Lib
