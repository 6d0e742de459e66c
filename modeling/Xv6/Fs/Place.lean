/-
# Where a block is referenced

A data block is referenced from a direct slot of an inode, from the slot of its indirect block, or
from an entry of that.  `places` lists, for every such slot, the block it points to, and `files`
reads the blocks of every file through them.  The lemmas say what one write does to both.
-/

import Xv6.Fs.Inode
import Xv6.Lib.Ownership
import Mathlib.Data.Fintype.Prod
import Mathlib.Data.Fintype.Sum
import Mathlib.Tactic.DeriveFintype

namespace Xv6

open Lib Function

/-- The slots of an inode that hold block numbers. -/
inductive Slot
  | direct (i : Fin NDIRECT)
  | indirect
  | entry (j : Fin NINDIRECT)
deriving DecidableEq, Fintype

def ptr (a : UInt32) : Option ℕ := if a = 0 then none else some a.toNat

theorem ptr_eq_some {a : UInt32} (h : a ≠ 0) : ptr a = some a.toNat := if_neg h

@[simp] theorem ptr_zero : ptr 0 = none := rfl

theorem ptr_eq_none_iff {a : UInt32} : ptr a = none ↔ a = 0 := by
  unfold ptr
  split_ifs with h <;> simp [h]

theorem ptr_eq_some_iff {a : UInt32} {b : ℕ} : ptr a = some b ↔ a ≠ 0 ∧ a.toNat = b := by
  unfold ptr
  split_ifs with h <;> simp [h]

/-- The block number in slot `j` of an indirect block. -/
def indirectEntry (b : Block) (j : ℕ) : UInt32 := UInt32.ofNat (u32 b (4 * j))

namespace Dinode

def place (blocks : Disk) (d : Dinode) (sl : Slot) : Option ℕ :=
  if d.type = 0 then none
  else match sl with
    | .direct i => ptr (d.addrs i.castSucc)
    | .indirect => ptr (d.addrs (Fin.last NDIRECT))
    | .entry j =>
      (ptr (d.addrs (Fin.last NDIRECT))).bind fun ind => ptr (indirectEntry (blocks ind) j)

variable {blocks : Disk} {d : Dinode} {bn : ℕ} {blocks' : Disk} {v : Option ℕ}

theorem place_of_free (h : d.type = 0) (sl : Slot) : d.place blocks sl = none := if_pos h

theorem place_direct (h : d.type ≠ 0) (i : Fin NDIRECT) :
    d.place blocks (.direct i) = ptr (d.addrs i.castSucc) := if_neg h

theorem place_indirect (h : d.type ≠ 0) :
    d.place blocks .indirect = ptr (d.addrs (Fin.last NDIRECT)) := if_neg h

theorem place_entry (h : d.type ≠ 0) (j : Fin NINDIRECT) : d.place blocks
    (.entry j) = (d.place blocks .indirect).bind fun ind => ptr (indirectEntry (blocks ind) j) := by
  simp only [place, if_neg h]

theorem place_update_block {b : ℕ} (h : d.place blocks .indirect ≠ some b) (data : Block) :
    d.place (update blocks b data) = d.place blocks := by
  by_cases ht : d.type = 0
  · funext sl
    rw [place_of_free ht, place_of_free ht]
  funext sl
  cases sl with
  | direct i => rw [place_direct ht, place_direct ht]
  | indirect => rw [place_indirect ht, place_indirect ht]
  | entry j =>
    rw [place_entry ht, place_entry ht, place_indirect ht, place_indirect ht]
    rw [place_indirect ht] at h
    cases hp : ptr (d.addrs (Fin.last NDIRECT)) with
    | none => rfl
    | some ind =>
      have hne : ind ≠ b := fun he => h (by rw [hp, he])
      simp [update_of_ne hne]

variable {a : UInt32}

theorem place_setDirect (ht : d.type ≠ 0) (i : Fin NDIRECT) (a : UInt32) :
    (d.setAddr i.castSucc a).place blocks = update (d.place blocks) (.direct i) (ptr a) := by
  have ht' : (d.setAddr i.castSucc a).type ≠ 0 := ht
  have hlast : (d.setAddr i.castSucc a).addrs (Fin.last NDIRECT) = d.addrs (Fin.last NDIRECT) :=
    update_of_ne (Fin.castSucc_ne_last i).symm _ _
  funext sl
  cases sl with
  | direct j =>
    rw [place_direct ht']
    by_cases hji : j = i
    · subst hji
      rw [update_self]
      simp
    · rw [update_of_ne (by simpa using hji), place_direct ht]
      simp [hji]
  | indirect => rw [update_of_ne (by simp), place_indirect ht', place_indirect ht, hlast]
  | entry j =>
    rw [update_of_ne (by simp), place_entry ht', place_entry ht, place_indirect ht',
      place_indirect ht, hlast]

theorem place_setLast_direct (ht : d.type ≠ 0) (a : UInt32) (i : Fin NDIRECT) :
    (d.setAddr (Fin.last NDIRECT) a).place blocks (.direct i) = d.place blocks (.direct i) := by
  have ht' : (d.setAddr (Fin.last NDIRECT) a).type ≠ 0 := ht
  rw [place_direct ht', place_direct ht, addrs_setAddr, update_of_ne (Fin.castSucc_ne_last i)]

theorem place_setLast_indirect (ht : d.type ≠ 0) (a : UInt32) :
    (d.setAddr (Fin.last NDIRECT) a).place blocks .indirect = ptr a := by
  have ht' : (d.setAddr (Fin.last NDIRECT) a).type ≠ 0 := ht
  rw [place_indirect ht', addrs_setAddr, update_self]

theorem place_setLast_entry (ht : d.type ≠ 0) (a : UInt32) (j : Fin NINDIRECT) :
    (d.setAddr (Fin.last NDIRECT) a).place blocks (.entry j) =
      (ptr a).bind fun ind => ptr (indirectEntry (blocks ind) j) := by
  have ht' : (d.setAddr (Fin.last NDIRECT) a).type ≠ 0 := ht
  rw [place_entry ht', place_setLast_indirect ht]

theorem indirectEntry_zeroBlock (j : ℕ) : indirectEntry zeroBlock j = 0 := by
  have hget : ∀ o, zeroBlock.get o = 0 := by
    intro o
    unfold Bytes.get
    split_ifs <;> rfl
  simp [indirectEntry, Bytes.field, Bytes.read, hget, List.range_succ, ofLE]

/-- Storing a zeroed block as the indirect block changes the indirect slot and no
entry: there was none before, and there is none in it. -/
theorem place_setIndirect (ht : d.type ≠ 0) (h₀ : d.addrs (Fin.last NDIRECT) = 0) (ha : a ≠ 0)
    (hz : blocks a.toNat = zeroBlock) : (d.setAddr (Fin.last NDIRECT) a).place blocks = update
    (d.place blocks) .indirect (ptr a) := by
  funext sl
  cases sl with
  | direct j => rw [update_of_ne (by simp), place_setLast_direct ht]
  | indirect => rw [update_self, place_setLast_indirect ht]
  | entry j =>
    rw [update_of_ne (by simp), place_setLast_entry ht, place_entry ht, place_indirect ht, h₀,
      ptr_eq_some ha]
    simp [hz, indirectEntry_zeroBlock]

theorem indirectEntry_setField (b : Block) (hj : j < NINDIRECT) (a : UInt32) :
    indirectEntry (b.setField 4 (4 * j) a.toNat) k = if k = j then a else indirectEntry b k := by
  simp only [NINDIRECT] at hj
  split_ifs with h
  · subst h
    rw [indirectEntry, u32, Bytes.field_setField 4 b (by simp only [BSIZE]; omega)
      (by simpa using a.toNat_lt)]
    simp
  · rw [indirectEntry, u32, Bytes.field_setField_of_disjoint 4 4 b (by omega)]
    rfl

theorem place_setEntry (ht : d.type ≠ 0) (hind : d.place blocks .indirect = some ind)
    (j : Fin NINDIRECT) (a : UInt32) :
    d.place (update blocks ind ((blocks ind).setField 4 (4 * j.val) a.toNat)) = update
    (d.place blocks) (.entry j) (ptr a) := by
  have hind' := hind
  rw [place_indirect ht] at hind'
  funext sl
  cases sl with
  | direct i => rw [update_of_ne (by simp), place_direct ht, place_direct ht]
  | indirect => rw [update_of_ne (by simp), place_indirect ht, place_indirect ht]
  | entry k =>
    rw [place_entry ht, place_indirect ht, hind', Option.bind_some, update_self,
      indirectEntry_setField _ j.isLt]
    by_cases hkj : k = j
    · subst hkj
      rw [update_self, if_pos rfl]
    · rw [update_of_ne (by simpa using hkj), if_neg (by simpa [Fin.ext_iff] using hkj),
        place_entry ht, hind, Option.bind_some]

end Dinode

/-- The slot that the `bn`-th block of a file is found in. -/
def slotOf (bn : ℕ) : Option Slot :=
  if h : bn < NDIRECT then some (.direct ⟨bn, h⟩)
  else if h : bn - NDIRECT < NINDIRECT then some (.entry ⟨bn - NDIRECT, h⟩)
  else none

theorem slotOf_of_lt (h : bn < NDIRECT) : slotOf bn = some (.direct ⟨bn, h⟩) := dif_pos h

theorem slotOf_of_ge (h : ¬bn < NDIRECT) (h' : bn - NDIRECT < NINDIRECT) :
    slotOf bn = some (.entry ⟨bn - NDIRECT, h'⟩) := by
  rw [slotOf, dif_neg h, dif_pos h']

theorem slotOf_ne_indirect (h : slotOf bn = some sl) : sl ≠ .indirect := by
  unfold slotOf at h
  split_ifs at h <;> cases h <;> simp

theorem slotOf_inj (h : slotOf bn = some sl) (h' : slotOf bn' = some sl) : bn = bn' := by
  unfold slotOf at h h'
  split_ifs at h h' <;> cases h <;> simp_all
  omega

theorem slotOf_eq_none_iff : slotOf bn = none ↔ MAXFILE ≤ bn := by
  unfold slotOf
  simp only [NDIRECT, NINDIRECT, MAXFILE]
  split_ifs <;> simp <;> omega

def Dinode.fileBlock (blocks : Disk) (d : Dinode) (bn : ℕ) : Option Block :=
  (slotOf bn).bind fun sl => (d.place blocks sl).map blocks

variable {sb : Superblock}

/-- The inodes of the disk, as the kernel means them: what is on disk, except where
the cached copy is ahead of it. -/
abbrev Table (sb : Superblock) : Type := Fin sb.ninodes → Dinode

def places (T : Table sb) (blocks : Disk) : Fin sb.ninodes × Slot → Option ℕ :=
  fun p => (T p.1).place blocks p.2

def files (T : Table sb) (blocks : Disk) : Fin sb.ninodes → ℕ → Option Block :=
  fun i => (T i).fileBlock blocks

variable {T : Table sb} {blocks : Disk} {n : Fin sb.ninodes} {b : ℕ}

theorem places_update_block (h : ∀ i, places T blocks (i, .indirect) ≠ some b) (data : Block) :
    places T (update blocks b data) = places T blocks := by
  funext p
  exact congrFun (Dinode.place_update_block (h p.1) data) p.2

/-- **A write to a block that no place names is seen by no file.** -/
theorem files_update_of_not_place (h : ∀ p, places T blocks p ≠ some b) (data : Block) :
    files T (update blocks b data) = files T blocks := by
  funext i bn
  unfold files Dinode.fileBlock
  rw [Dinode.place_update_block (h (i, .indirect)) data]
  cases hs : slotOf bn with
  | none => rfl
  | some sl =>
    rw [Option.bind_some, Option.bind_some]
    cases hp : (T i).place blocks sl with
    | none => rfl
    | some c =>
      have hne : c ≠ b := fun he => h (i, sl) (by rw [← he]; exact hp)
      rw [Option.map_some, Option.map_some, update_of_ne hne]

section Owned

variable {held : Multiset ℕ} {used : ℕ → Prop} [DecidablePred used]

/-- **A write to a data block is seen by its own file at its own place.** -/
theorem files_update_data (hx : Exact (places T blocks) held used) (hs : slotOf bn = some sl)
    (hp : places T blocks (n, sl) = some b) (data : Block) :
    places T (update blocks b data) = places T blocks ∧ files T (update blocks b data) = update
    (files T blocks) n (update (files T blocks n) bn (some data)) := by
  have hne : ∀ i, places T blocks (i, .indirect) ≠ some b := by
    intro i hi
    have := hx.unique hi hp
    exact slotOf_ne_indirect hs (by simpa using (congrArg Prod.snd this).symm)
  refine ⟨places_update_block hne data, ?_⟩
  funext i bn'
  unfold files Dinode.fileBlock
  rw [Dinode.place_update_block (hne i) data]
  cases hs' : slotOf bn' with
  | none =>
    have hbn : bn' ≠ bn := fun he => by rw [he, hs] at hs'; cases hs'
    by_cases hi : i = n
    · subst hi
      simp [update_of_ne hbn, hs']
    · simp [update_of_ne hi, hs']
  | some sl' =>
    rw [Option.bind_some]
    by_cases he : (i, sl') = (n, sl)
    · cases he
      have hbn : bn' = bn := slotOf_inj hs' hs
      have hp' : (T n).place blocks sl = some b := hp
      simp [hbn, hp']
    have hold : ((T i).place blocks sl').map (update blocks b data) = ((T i).place blocks sl').map
        blocks := by
      cases hp' : (T i).place blocks sl' with
      | none => rfl
      | some c =>
        have hcb : c ≠ b := fun hcb => he (hx.unique (by rw [← hcb]; exact hp') hp)
        rw [Option.map_some, Option.map_some, update_of_ne hcb]
    rw [hold]
    by_cases hi : i = n
    · subst hi
      have hbn : bn' ≠ bn := by
        intro hbn
        rw [hbn, hs] at hs'
        exact he (by rw [Option.some.inj hs'])
      simp [update_of_ne hbn, hs']
    · simp [update_of_ne hi, hs']

end Owned

theorem places_update_inode {d : Dinode} {sl : Slot}
    (hn : d.place blocks' = update ((T n).place blocks) sl v)
    (ho : ∀ i, i ≠ n → (T i).place blocks' = (T i).place blocks) :
    places (update T n d) blocks' = update (places T blocks) (n, sl) v := by
  funext p
  obtain ⟨i, sl'⟩ := p
  by_cases hi : i = n
  · subst hi
    by_cases hsl : sl' = sl
    · subst hsl
      simp [places, hn]
    · have hne : (i, sl') ≠ (i, sl) := by simpa using hsl
      simp [places, hn, update_of_ne hsl, update_of_ne hne]
  · have hne : (i, sl') ≠ (n, sl) := by simp [hi]
    simp [places, ho i hi, update_of_ne hi, update_of_ne hne]

theorem Dinode.fileBlock_congr {d d' : Dinode} {blocks : Disk}
    (hp : ∀ sl, slotOf bn = some sl → d'.place blocks' sl = d.place blocks sl)
    (hb : ∀ sl c, slotOf bn = some sl → d.place blocks sl = some c → blocks' c = blocks c) :
    d'.fileBlock blocks' bn = d.fileBlock blocks bn := by
  unfold Dinode.fileBlock
  cases hs : slotOf bn with
  | none => rfl
  | some sl =>
    rw [Option.bind_some, Option.bind_some, hp sl hs]
    cases hc : d.place blocks sl with
    | none => rfl
    | some c => rw [Option.map_some, Option.map_some, hb sl c hs hc]

theorem files_update_inode {d : Dinode} {sl : Slot}
    (hn : d.place blocks' = update ((T n).place blocks) sl v)
    (ho : ∀ i, i ≠ n → (T i).place blocks' = (T i).place blocks)
    (hb : ∀ p c, places T blocks p = some c → p.2 ≠ .indirect → blocks' c = blocks c) :
    files (update T n d) blocks' = update (files T blocks) n fun bn =>
      if slotOf bn = some sl then v.map blocks' else files T blocks n bn := by
  funext i bn
  by_cases hi : i = n
  · subst hi
    rw [update_self]
    simp only [files, update_self]
    split_ifs with hs
    · rw [Dinode.fileBlock, hs, Option.bind_some, hn, update_self]
    · refine Dinode.fileBlock_congr (fun sl' hs' => ?_) fun sl' c hs' hc => ?_
      · have hne : sl' ≠ sl := fun he => hs (by rw [hs', he])
        rw [hn, update_of_ne hne]
      · exact hb (i, sl') c hc (slotOf_ne_indirect hs')
  · rw [update_of_ne hi]
    simp only [files, update_of_ne hi]
    exact Dinode.fileBlock_congr (fun sl' _ => by rw [ho i hi])
      fun sl' c hs' hc => hb (i, sl') c hc (slotOf_ne_indirect hs')

end Xv6
