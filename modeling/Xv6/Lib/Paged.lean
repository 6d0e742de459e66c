/-
# A byte array kept in blocks

A file keeps its bytes in blocks of `B` bytes: `V k` is its `k`-th block, or `none`
where it has none.  `byteAt V p` is the byte at position `p`, found in block `p / B`
at offset `p % B`.  A write that stays inside one block changes exactly the bytes of
its range (`byteAt_write`), so a loop over blocks can be followed byte by byte.
-/

import Xv6.Lib.Bytes

namespace Lib

open Function

variable {B : ℕ} {off p : ℕ} {b : Bytes B}

/-- The byte at position `p`, `0` in a block that is not there. -/
def byteAt (V : ℕ → Option (Bytes B)) (p : ℕ) : UInt8 :=
  match V (p / B) with
  | some b => b.get (p % B)
  | none => 0

def bytesAt (V : ℕ → Option (Bytes B)) (off n : ℕ) : List UInt8 :=
  (List.range n).map fun i => byteAt V (off + i)

@[simp] theorem length_bytesAt (V : ℕ → Option (Bytes B)) (off n : ℕ) :
    (bytesAt V off n).length = n := by simp [bytesAt]

theorem getElem_bytesAt (V : ℕ → Option (Bytes B)) (off n i : ℕ)
    (h : i < (bytesAt V off n).length) : (bytesAt V off n)[i] = byteAt V (off + i) := by
  simp [bytesAt]

variable {V V' : ℕ → Option (Bytes B)}

theorem byteAt_of_some (h : V (p / B) = some b) : byteAt V p = b.get (p % B) := by rw [byteAt, h]

theorem byteAt_congr (h : V' (p / B) = V (p / B)) : byteAt V' p = byteAt V p := by
  rw [byteAt, byteAt, h]

theorem bytesAt_append (V : ℕ → Option (Bytes B)) (off m n : ℕ) :
    bytesAt V off (m + n) = bytesAt V off m ++ bytesAt V (off + m) n := by
  simp only [bytesAt, List.range_add, List.map_append, List.map_map, comp_def, Nat.add_assoc]

theorem read_eq_bytesAt (hB : 0 < B) (h : V (off / B) = some b)
    (hm : off % B + m ≤ B) : b.read (off % B) m = bytesAt V off m := by
  refine List.map_congr_left fun i hi => ?_
  have hi := List.mem_range.1 hi
  have hoff := Nat.div_add_mod off B
  have hdiv : (off + i) / B = off / B := by
    rw [show off + i = B * (off / B) + (off % B + i) by omega, Nat.mul_add_div hB,
      Nat.div_eq_of_lt (show off % B + i < B by omega), Nat.add_zero]
  have hmod : (off + i) % B = off % B + i := by
    rw [Nat.add_mod, Nat.mod_eq_of_lt (show i < B by omega), Nat.mod_eq_of_lt (by omega)]
  rw [byteAt_of_some (by rw [hdiv, h]), hmod]

/-- **A write inside one block changes the bytes of its range and no other.**  A block
that was not there counts as zeroes. -/
theorem byteAt_write (hB : 0 < B) (hl : off % B + l.length ≤ B)
    (hb : ∀ o, b.get o = match V (off / B) with | some b => b.get o | none => 0)
    (p : ℕ) :
    byteAt (update V (off / B) (some (b.splice (off % B) l))) p =
      if h : off ≤ p ∧ p < off + l.length then l.get ⟨p - off, by omega⟩ else byteAt V p := by
  have hoff := Nat.div_add_mod off B
  have hp := Nat.div_add_mod p B
  by_cases hpb : p / B = off / B
  · rw [byteAt, hpb, update_self]
    rw [hpb] at hp
    split_ifs with h
    · have hpo : p % B = off % B + (p - off) := by omega
      simp only [hpo]
      exact Bytes.get_splice_of_mem b _ l (by omega) hl
    · simp only
      rw [Bytes.get_splice_of_not_mem b _ l (by omega), hb, byteAt, hpb]
  · rw [byteAt_congr (update_of_ne hpb _ _), dif_neg]
    rintro ⟨h₁, h₂⟩
    refine hpb ?_
    have hle : off / B ≤ p / B := Nat.div_le_div_right h₁
    have hlt : p / B < off / B + 1 := by
      rw [Nat.div_lt_iff_lt_mul hB, Nat.add_mul, Nat.mul_comm (off / B)]
      omega
    omega

end Lib
