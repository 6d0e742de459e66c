/-
# Byte arrays and little-endian fields

A block of a disk, or a page of memory, is a function from its positions to bytes: `read` takes a
run of bytes out, `splice` puts one in.  A C integer is a run of 2 or 4 bytes, least significant
first (`le`, `ofLE`).  A spliced run reads back, and a run beside it does not change.
-/

import Mathlib.Data.List.GetD
import Mathlib.Tactic.Ring

namespace Lib

def Bytes (n : ℕ) : Type := Fin n → UInt8

/-- The `w` low bytes of `v`, least significant first. -/
def le : ℕ → ℕ → List UInt8
  | 0, _ => []
  | w + 1, v => UInt8.ofNat v :: le w (v / 256)

/-- The number a run of bytes denotes, least significant first. -/
def ofLE : List UInt8 → ℕ
  | [] => 0
  | b :: bs => b.toNat + 256 * ofLE bs

@[simp] theorem length_le (w v : ℕ) : (le w v).length = w := by
  induction w generalizing v with
  | zero => rfl
  | succ w ih => simp [le, ih]

/-- **Decoding undoes encoding**, up to the bits the field has room for. -/
theorem ofLE_le (w v : ℕ) : ofLE (le w v) = v % 256 ^ w := by
  induction w generalizing v with
  | zero => simp [le, ofLE, Nat.mod_one]
  | succ w ih =>
    have hb : (UInt8.ofNat v).toNat = v % 256 := by simp
    rw [le, ofLE, ih, hb, pow_succ, Nat.mul_comm (256 ^ w), Nat.mod_mul]

theorem ofLE_le_of_lt (h : v < 256 ^ w) : ofLE (le w v) = v := by
  rw [ofLE_le, Nat.mod_eq_of_lt h]

theorem ofLE_lt (bs : List UInt8) : ofLE bs < 256 ^ bs.length := by
  induction bs with
  | nil => simp [ofLE]
  | cons b bs ih =>
    have hb : b.toNat < 256 := b.toNat_lt
    rw [ofLE, List.length_cons, pow_succ]
    omega

theorem le_ofLE (bs : List UInt8) : le bs.length (ofLE bs) = bs := by
  induction bs with
  | nil => rfl
  | cons b bs ih =>
    have hb : b.toNat < 256 := b.toNat_lt
    have hlow : UInt8.ofNat (b.toNat + 256 * ofLE bs) = b := by
      rw [← UInt8.toNat_inj, UInt8.toNat_ofNat']
      omega
    have hhigh : (b.toNat + 256 * ofLE bs) / 256 = ofLE bs := by omega
    rw [List.length_cons, le, ofLE, hlow, hhigh, ih]

theorem take_drop_flatten {w : ℕ} {ls : List (List UInt8)} (hw : ∀ l ∈ ls, l.length = w) {i : ℕ}
    (hi : i < ls.length) : (ls.flatten.drop (w * i)).take w = ls[i] := by
  induction ls generalizing i with
  | nil => simp at hi
  | cons l ls ih =>
    have hl : l.length = w := hw l (.head _)
    cases i with
    | zero => simp [← hl]
    | succ i =>
      have h := ih (fun l' hl' => hw l' (.tail _ hl')) (Nat.lt_of_succ_lt_succ hi)
      rw [List.flatten_cons, Nat.mul_succ, List.drop_append, hl, Nat.add_sub_cancel,
        List.drop_eq_nil_of_le (by omega), List.nil_append, h, List.getElem_cons_succ]

variable {n : ℕ} {p : ℕ}

/-- The byte at position `o`, `0` past the end. -/
def Bytes.get (x : Bytes n) (o : ℕ) : UInt8 := if h : o < n then x ⟨o, h⟩ else 0

/-- The `k` bytes from position `o` on. -/
def Bytes.read (x : Bytes n) (o k : ℕ) : List UInt8 := (List.range k).map fun i => x.get (o + i)

/-- `x` with the bytes from position `o` on replaced by `l`. -/
def Bytes.splice (x : Bytes n) (o : ℕ) (l : List UInt8) : Bytes n := fun i =>
  if o ≤ i.val then l.getD (i.val - o) (x i) else x i

@[simp] theorem Bytes.length_read (x : Bytes n) (o k : ℕ) : (x.read o k).length = k := by
  simp [Bytes.read]

theorem Bytes.get_eq (x : Bytes n) {o : ℕ} (h : o < n) : x.get o = x ⟨o, h⟩ := by
  simp [Bytes.get, h]

theorem Bytes.ext_get {x y : Bytes n} (h : ∀ o, x.get o = y.get o) : x = y := by
  funext i
  have hi := h i
  rwa [Bytes.get_eq _ i.isLt, Bytes.get_eq _ i.isLt] at hi

section

variable (x : Bytes n) (o : ℕ) (l : List UInt8)
include x o l

theorem Bytes.get_splice_of_mem (hp : p < l.length) (hn : o + l.length ≤ n) :
    (x.splice o l).get (o + p) = l[p] := by
  have h : o + p < n := by omega
  rw [Bytes.get_eq _ h]
  simp [Bytes.splice, hp]

theorem Bytes.get_splice_of_not_mem (hp : p < o ∨ o + l.length ≤ p) :
    (x.splice o l).get p = x.get p := by
  by_cases h : p < n
  · rw [Bytes.get_eq _ h, Bytes.get_eq _ h]
    unfold Bytes.splice
    split_ifs with ho
    · exact List.getD_eq_default _ _ (by simp only at ho ⊢; omega)
    · rfl
  · simp [Bytes.get, h]

/-- **A spliced run reads back.** -/
theorem Bytes.read_splice (hn : o + l.length ≤ n) : (x.splice o l).read o l.length = l := by
  refine List.ext_getElem (by simp) fun i h₁ h₂ => ?_
  simp only [Bytes.read, List.getElem_map, List.getElem_range]
  exact Bytes.get_splice_of_mem x o l h₂ hn

/-- **A run beside the spliced one does not change.** -/
theorem Bytes.read_splice_of_disjoint (h : p + k ≤ o ∨ o + l.length ≤ p) :
    (x.splice o l).read p k = x.read p k := by
  refine List.map_congr_left fun i hi => ?_
  have hi := List.mem_range.1 hi
  exact Bytes.get_splice_of_not_mem x o l (by omega)

end

theorem Bytes.read_succ (x : Bytes n) (o k : ℕ) :
    x.read o (k + 1) = x.get o :: x.read (o + 1) k := by
  simp only [Bytes.read, List.range_succ_eq_map, List.map_cons, List.map_map, Nat.add_zero]
  congr 1
  refine List.map_congr_left fun i _ => ?_
  rw [Function.comp_apply, Nat.succ_eq_add_one, Nat.add_comm i, Nat.add_assoc]

theorem Bytes.read_add (x : Bytes n) (o j k : ℕ) :
    x.read o (j + k) = x.read o j ++ x.read (o + j) k := by
  simp only [Bytes.read, List.range_add, List.map_append, List.map_map]
  congr 1
  refine List.map_congr_left fun i _ => ?_
  rw [Function.comp_apply, Nat.add_assoc]

theorem Bytes.flatten_read (x : Bytes n) (o w m : ℕ) :
    (List.ofFn fun i : Fin m => x.read (o + w * i.val) w).flatten = x.read o (w * m) := by
  induction m with
  | zero => simp [Bytes.read]
  | succ m ih =>
    rw [List.ofFn_succ_last, List.flatten_append, Nat.mul_succ, Bytes.read_add, ← ih]
    simp

theorem Bytes.splice_splice_read (x : Bytes n) (o : ℕ) (l : List UInt8) :
    (x.splice o l).splice o (x.read o l.length) = x := by
  funext i
  unfold Bytes.splice
  split_ifs with ho
  · by_cases hi : i.val - o < l.length
    · rw [List.getD_eq_getElem _ _ (by simpa using hi)]
      simp only [Bytes.read, List.getElem_map, List.getElem_range]
      rw [Nat.add_sub_cancel' ho, Bytes.get_eq _ i.isLt]
    · rw [List.getD_eq_default _ _ (by simpa using hi),
        List.getD_eq_default _ _ (by simpa using hi)]
  · rfl

theorem Bytes.read_of_append {x : Bytes n} {k : ℕ} {a b : List UInt8} (h : x.read p k = a ++ b) :
    x.read p a.length = a ∧ x.read (p + a.length) b.length = b := by
  have hk : k = a.length + b.length := by
    rw [← List.length_append, ← h, Bytes.length_read]
  rw [hk, Bytes.read_add] at h
  exact List.append_inj h (Bytes.length_read ..)

/-- The little-endian field of `w` bytes at position `o`. -/
def Bytes.field (w : ℕ) (x : Bytes n) (o : ℕ) : ℕ := ofLE (x.read o w)

/-- `x` with the little-endian field of `w` bytes at position `o` set to `v`. -/
def Bytes.setField (w : ℕ) (x : Bytes n) (o v : ℕ) : Bytes n := x.splice o (le w v)

theorem Bytes.field_lt (w : ℕ) (x : Bytes n) (o : ℕ) : x.field w o < 256 ^ w := by
  have h := ofLE_lt (x.read o w)
  rwa [Bytes.length_read] at h

theorem Bytes.field_setField (w : ℕ) (x : Bytes n) {o v : ℕ} (ho : o + w ≤ n) (hv : v < 256 ^ w) :
    (x.setField w o v).field w o = v := by
  have h := Bytes.read_splice x o (le w v) (by simpa using ho)
  rw [length_le] at h
  rw [Bytes.field, Bytes.setField, h, ofLE_le_of_lt hv]

theorem Bytes.field_setField_of_disjoint (w w' : ℕ) (x : Bytes n) {o v : ℕ}
    (h : p + w' ≤ o ∨ o + w ≤ p) : (x.setField w o v).field w' p = x.field w' p := by
  rw [Bytes.field, Bytes.setField, Bytes.read_splice_of_disjoint _ _ _ (by simpa using h),
    Bytes.field]

theorem Bytes.read_splice_sub (x : Bytes n) (o : ℕ) (l : List UInt8) (hp : p + k ≤ l.length)
    (hn : o + l.length ≤ n) : (x.splice o l).read (o + p) k = (l.drop p).take k := by
  refine List.ext_getElem (by simp; omega) fun i h₁ h₂ => ?_
  have hi : p + i < l.length := by simp only [Bytes.length_read] at h₁; omega
  simp only [Bytes.read, List.getElem_map, List.getElem_range, Nat.add_assoc, List.getElem_take,
    List.getElem_drop]
  exact Bytes.get_splice_of_mem x o l hi hn

theorem Bytes.field_splice_sub {w o : ℕ} {l : List UInt8} (x : Bytes n) (hp : p + w ≤ l.length)
    (hn : o + l.length ≤ n) : (x.splice o l).field w (o + p) = ofLE ((l.drop p).take w) := by
  rw [Bytes.field, Bytes.read_splice_sub x o l hp hn]

theorem Bytes.field_splice_of_disjoint {w o : ℕ} {l : List UInt8} (x : Bytes n)
    (h : p + w ≤ o ∨ o + l.length ≤ p) : (x.splice o l).field w p = x.field w p := by
  rw [Bytes.field, Bytes.read_splice_of_disjoint x o l h, Bytes.field]

end Lib
