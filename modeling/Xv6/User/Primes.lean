/-
# The pipeline of `primes`

`primes` of `user/primes.c`, each stage read as a function of the numbers on its standard input: it
prints the first, and passes on the numbers that it does not divide.  `num % prime` is the remainder
of C, which is zero where `prime` divides `num`, whatever their signs.
-/

import Mathlib.Data.Nat.Prime.Basic
import Mathlib.Data.Int.Basic
import Mathlib.Data.List.Pairwise

namespace Xv6.Primes

/-! ### The code -/

def line (prime : ℤ) : String := "prime " ++ toString prime ++ "\n"

/-- The loop of the child: what it writes of its input. -/
def pass (prime : ℤ) : List ℤ → List ℤ
  | [] => []
  | num :: input => if num.tmod prime ≠ 0 then num :: pass prime input else pass prime input

theorem pass_eq_filter (prime : ℤ) (input : List ℤ) :
    pass prime input = input.filter fun num => ¬prime ∣ num := by
  induction input with
  | nil => rfl
  | cons num input ih =>
    rw [pass, ih, List.filter_cons]
    simp only [ne_eq, decide_not, Bool.not_eq_true', decide_eq_false_iff_not,
      Int.dvd_iff_tmod_eq_zero]

/-- `primes()`: the lines it prints, its own and those of the call that follows. -/
def primes : List ℤ → List String
  | [] => []
  | prime :: input => line prime :: primes (pass prime input)
termination_by input => input.length
decreasing_by
  rw [pass_eq_filter, List.length_cons]
  exact Nat.lt_succ_of_le (List.length_filter_le ..)

/-- What `for(int i = 2; i <= last; i++)` writes to the first pipe. -/
def numbers (last : ℕ) : List ℤ := (List.range' 2 (last - 1)).map Nat.cast

def main : List String := primes (numbers 31)

/-! ### Sieving by a relation -/

section Sieve

variable {α : Type*} (r : α → α → Prop) [DecidableRel r]

/-- Those that `a` is not related to. -/
def unrelated (a : α) (l : List α) : List α := l.filter fun b => ¬r a b

/-- The first is kept, and those it is related to are dropped; then the same with the next. -/
def sieve : List α → List α
  | [] => []
  | a :: l => a :: sieve (unrelated r a l)
termination_by l => l.length
decreasing_by exact Nat.lt_succ_of_le (List.length_filter_le ..)

variable {r}

/-- **A sieve keeps what no other is related to**, for a transitive relation that never goes from a
later one to an earlier one. -/
theorem sieve_eq_filter [DecidableEq α] [IsTrans α r] [Std.Refl r] (l : List α)
    (hl : l.Pairwise fun a b => ¬r b a) :
    sieve r l = l.filter fun n => ∀ m ∈ l, m ≠ n → ¬r m n := by
  fun_induction sieve r l with
  | case1 => rfl
  | case2 a l ih =>
    obtain ⟨hback, hl'⟩ := List.pairwise_cons.1 hl
    have ha : ∀ m ∈ a :: l, m ≠ a → ¬r m a := by
      intro m hm hne
      exact hback m ((List.mem_cons.1 hm).resolve_left hne)
    rw [ih (hl'.filter _), unrelated, List.filter_filter,
      List.filter_cons_of_pos (by simpa using ha)]
    congr 1
    refine List.filter_congr fun n hn => ?_
    have hne : a ≠ n := by
      rintro rfl
      exact hback a hn (refl a)
    rw [Bool.eq_iff_iff, Bool.and_eq_true, decide_eq_true_iff, decide_eq_true_iff,
      decide_eq_true_iff]
    constructor
    · rintro ⟨hall, han⟩ m hm hmn hr
      rcases List.mem_cons.1 hm with rfl | hm
      · exact han hr
      · -- were `m` dropped for `a`, so would be `n`
        refine hall m (List.mem_filter.2 ⟨hm, decide_eq_true fun ham => han (trans_of r ham hr)⟩)
          hmn hr
    · intro hall
      refine ⟨fun m hm => hall m (.tail _ (List.mem_filter.1 hm).1), ?_⟩
      exact hall a (.head _) hne

end Sieve

theorem primes_eq_sieve (input : List ℤ) : primes input = (sieve (· ∣ ·) input).map line := by
  fun_induction primes input with
  | case1 => rw [sieve, List.map_nil]
  | case2 prime input ih => rw [ih, sieve, List.map_cons, pass_eq_filter, unrelated]

/-! ### On the numbers from 2 -/

theorem mem_numbers : m ∈ numbers last ↔ ∃ k : ℕ, m = k ∧ 2 ≤ k ∧ k ≤ last := by
  simp only [numbers, List.mem_map, List.mem_range'_1]
  constructor
  · rintro ⟨k, hk, rfl⟩
    exact ⟨k, rfl, by omega, by omega⟩
  · rintro ⟨k, rfl, h2, hk⟩
    exact ⟨k, by omega, rfl⟩

theorem pairwise_numbers (last : ℕ) : (numbers last).Pairwise fun a b => ¬b ∣ a := by
  rw [numbers, List.pairwise_map]
  refine (List.pairwise_lt_range' 1).imp_of_mem fun ha _ hlt hdvd => ?_
  have h2 := (List.mem_range'_1.1 ha).1
  exact absurd (Nat.le_of_dvd (by omega) (Int.natCast_dvd_natCast.1 hdvd)) (by omega)

theorem forall_not_dvd_iff_prime (h2 : 2 ≤ n) (hn : n ≤ last) :
    (∀ m ∈ numbers last, m ≠ n → ¬m ∣ (n : ℤ)) ↔ n.Prime := by
  constructor
  · intro h
    refine Nat.prime_def_minFac.2 ⟨h2, ?_⟩
    by_contra hne
    have hmem : (n.minFac : ℤ) ∈ numbers last :=
      mem_numbers.2 ⟨_, rfl, (Nat.minFac_prime (by omega)).two_le,
        (Nat.minFac_le (by omega)).trans hn⟩
    exact h _ hmem (by exact_mod_cast hne) (Int.natCast_dvd_natCast.2 n.minFac_dvd)
  · rintro hp m hm hne hdvd
    obtain ⟨k, rfl, hk, -⟩ := mem_numbers.1 hm
    rcases (Nat.dvd_prime hp).1 (Int.natCast_dvd_natCast.1 hdvd) with rfl | rfl
    · omega
    · exact hne rfl

theorem filter_prime_range (N : ℕ) : (List.range (N + 1)).filter (fun n => n.Prime) =
    (List.range' 2 (N - 1)).filter fun n => n.Prime := by
  rw [List.range_eq_range', List.range'_succ,
    List.filter_cons_of_neg (by simp [Nat.not_prime_zero])]
  cases N with
  | zero => rfl
  | succ k =>
    rw [List.range'_succ, List.filter_cons_of_neg (by simp [Nat.not_prime_one]), Nat.add_sub_cancel]

/-- **The pipeline prints the primes.**  On the numbers `2, ..., N` the calls of `primes` print each
prime up to `N` once, in increasing order, and no other number, and then stop. -/
theorem primes_numbers (N : ℕ) :
    primes (numbers N) = ((List.range (N + 1)).filter fun n => n.Prime).map
    fun p : ℕ => line p := by
  have hprime : ∀ n ∈ List.range' 2 (N - 1),
      decide (∀ m ∈ numbers N, m ≠ (n : ℤ) → ¬m ∣ (n : ℤ)) = decide n.Prime := by
    intro n hn
    have hn := List.mem_range'_1.1 hn
    rw [decide_eq_decide, forall_not_dvd_iff_prime (by omega) (by omega)]
  have hsieve : sieve (· ∣ ·) (numbers N) = ((List.range' 2 (N - 1)).filter fun n => n.Prime).map
      Nat.cast := by
    rw [sieve_eq_filter _ (pairwise_numbers N), ← List.filter_congr hprime]
    exact List.filter_map ..
  rw [primes_eq_sieve, hsieve, List.map_map, filter_prime_range]
  rfl

end Xv6.Primes
