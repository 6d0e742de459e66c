/-
# The content of a file

A file is its bytes below `size`.  `FileInv` says that no file has a hole below its size and that
every entry of a directory names an inode of the disk.  The loops of `readi` and `writei` go block
by block, and the inductions are on the number of bytes still to copy.
-/

import Xv6.Fs.Bmap
import Xv6.Lib.Paged
import Mathlib.Order.Interval.Finset.Nat

namespace Xv6

open Lib Function

variable {sb : Superblock} {T : Table sb} {R : Ip → ℕ} {L W : Finset Ip} {ip : Ip}
  {n : Fin sb.ninodes} {d : Dinode} {dirty : Set (Fin sb.ninodes)} {s : Fs} {E : Halt → Prop}
  {N bn e k off' : ℕ} {copyout : ℕ → List UInt8 → Bool} {s' : Fs} {d' : Dinode} {blocks : Disk}
  {held : Multiset ℕ} {Q : ℤ → Fs → Prop}

/-! ### Reading -/

theorem wp_bmap_present {Q : UInt32 → Fs → Prop} {b : Block}
    (h : FsInv T dirty R L W s) (hl : Live R s.inode ip n) (hb : files T s.blocks n bn = some b)
    (hQ : ∀ a : UInt32, s.blocks a.toNat = b → Q a s) : wp (bmap sb ip bn) E Q s := by
  have ht := h.cache.type_ne hl
  have hd := h.cache.eq_table hl
  have haddrs : (s.inode ip).addrs = (T n).addrs := by rw [← hd]
  unfold files Dinode.fileBlock at hb
  obtain ⟨sl, hs, hb⟩ := Option.bind_eq_some_iff.1 hb
  obtain ⟨a, ha, hab⟩ := Option.map_eq_some_iff.1 hb
  simp only [bmap, wp_dite, wp_ite, wp_bind, wp_throw]
  refine ⟨fun hlt => ?_, fun hge => ⟨fun hlt => ?_, fun hge' => ?_⟩⟩
  · rw [slotOf_of_lt hlt] at hs
    cases hs
    rw [Dinode.place_direct ht] at ha
    obtain ⟨hne, hval⟩ := ptr_eq_some_iff.1 ha
    have hne' : (T n).addrs ⟨bn, Nat.lt_succ_of_lt hlt⟩ ≠ 0 := hne
    simp only [bmapAddr, wp_bind, wp_get, wp_ite, wp_pure, haddrs]
    refine ⟨fun h₀ => absurd h₀ hne', fun _ => hQ _ ?_⟩
    rw [← hab, ← hval]
    rfl
  · rw [slotOf_of_ge hge hlt] at hs
    cases hs
    rw [Dinode.place_entry ht, Dinode.place_indirect ht] at ha
    obtain ⟨ind, hind, hentry⟩ := Option.bind_eq_some_iff.1 ha
    obtain ⟨hne, hval⟩ := ptr_eq_some_iff.1 hind
    obtain ⟨hne', hval'⟩ := ptr_eq_some_iff.1 hentry
    rw [← hval] at hne' hval'
    simp only [bmapAddr, bmapEntry, bread, wp_bind, wp_get, wp_ite, wp_pure, haddrs]
    refine ⟨fun h₀ => absurd h₀ hne, fun _ => ⟨fun h₀ => absurd h₀ hne', fun _ => hQ _ ?_⟩⟩
    rw [← hab, ← hval']
    rfl
  · rw [slotOf_eq_none_iff.2] at hs
    · cases hs
    · simp only [NDIRECT, NINDIRECT, MAXFILE] at *
      omega

theorem wp_readiLoop (h : FsInv T dirty R L W s) (hl : Live R s.inode ip n) (fuel tot off : ℕ)
    (hf : N - tot ≤ fuel)
    (hV : ∀ p, off ≤ p → p < off + (N - tot) → files T s.blocks n (p / BSIZE) ≠ none) :
    wp (readiLoop sb ip copyout N fuel tot off) E (fun l s' => s' = s ∧
      ∃ r ≤ N - tot, l = bytesAt (files T s.blocks n) off r ∧ (copyout = kernelDst → r = N - tot))
    s := by
  induction fuel generalizing tot off with
  | zero =>
    simp only [readiLoop, wp_pure]
    exact ⟨trivial, 0, Nat.zero_le _, rfl, fun _ => by omega⟩
  | succ fuel ih =>
    simp only [readiLoop, bread, wp_ite, wp_bind, wp_get, wp_pure]
    refine ⟨fun htot => ?_, fun htot => ⟨trivial, 0, Nat.zero_le _, rfl, fun _ => by omega⟩⟩
    obtain ⟨b, hb⟩ := Option.ne_none_iff_exists'.1 (hV off le_rfl (by omega))
    set m := min (N - tot) (BSIZE - off % BSIZE) with hm
    have hmod : off % BSIZE < BSIZE := Nat.mod_lt _ (by decide)
    have hread : b.read (off % BSIZE) m = bytesAt (files T s.blocks n) off m :=
      read_eq_bytesAt (by decide) hb (by omega)
    refine wp_bmap_present h hl hb fun a ha => ?_
    simp only [ha, hread]
    refine ⟨fun hok => ?_, fun hbad => ⟨trivial, 0, Nat.zero_le _, rfl, fun hk => ?_⟩⟩
    · refine wp_mono (ih (tot + m) (off + m) (by omega) fun p h₁ h₂ => hV p (by omega)
        (by omega)) ?_
      rintro l s' ⟨rfl, r, hr, rfl, hk⟩
      exact ⟨rfl, m + r, by omega, (bytesAt_append _ _ _ _).symm, fun hd => by have := hk hd; omega⟩
    · exact absurd (by rw [hk]; rfl) hbad

theorem toNat_add_of_not_lt {off len : UInt32} (h : ¬off + len < off) :
    (off + len).toNat = off.toNat + len.toNat := by
  rw [UInt32.lt_iff_toNat_lt, UInt32.toNat_add] at h
  rw [UInt32.toNat_add]
  have h₁ := off.toNat_lt
  have h₂ := len.toNat_lt
  omega

/-- The number of bytes that `readi(off, len)` finds in a file of `size` bytes. -/
def readLen (size off len : UInt32) : ℕ :=
  if off > size ∨ off + len < off then 0 else min len.toNat (size.toNat - off.toNat)

/-- **`readi`** returns the bytes of its range and changes nothing. -/
theorem wp_readi {off len : UInt32} (h : FsInv T dirty R L W s) (hl : Live R s.inode ip n)
    (hV : ∀ p < (T n).size.toNat, files T s.blocks n (p / BSIZE) ≠ none) :
    wp (readi sb ip copyout off len) E (fun l s' => s' = s ∧
      ∃ r ≤ readLen (T n).size off len, l = bytesAt (files T s.blocks n) off.toNat r ∧
        (copyout = kernelDst → r = readLen (T n).size off len)) s := by
  have hsize : (s.inode ip).size = (T n).size := by rw [← h.cache.eq_table hl]
  simp only [readi, wp_bind, wp_get, wp_ite, wp_pure, hsize]
  constructor
  · intro hout
    rw [readLen, if_pos hout]
    exact ⟨trivial, 0, le_rfl, rfl, fun _ => rfl⟩
  intro hin
  have hle : off.toNat ≤ (T n).size.toNat := by
    have := not_or.1 hin
    rw [gt_iff_lt, UInt32.lt_iff_toNat_lt] at this
    omega
  have hadd := toNat_add_of_not_lt (not_or.1 hin).2
  have hlen : (if off + len > (T n).size then (T n).size - off else len).toNat = readLen
      (T n).size off len := by
    rw [readLen, if_neg hin]
    split_ifs with hgt
    · rw [gt_iff_lt, UInt32.lt_iff_toNat_lt, hadd] at hgt
      rw [UInt32.toNat_sub_of_le _ _ (UInt32.le_iff_toNat_le.2 hle)]
      omega
    · rw [gt_iff_lt, UInt32.lt_iff_toNat_lt, hadd] at hgt
      omega
  rw [hlen]
  refine wp_mono (wp_readiLoop h hl _ 0 off.toNat (by omega) fun p h₁ h₂ => hV p ?_) ?_
  · rw [readLen, if_neg hin] at h₂
    omega
  · rintro l s' ⟨rfl, r, hr, rfl, hk⟩
    exact ⟨rfl, r, hr, rfl, hk⟩

/-! ### Writing -/

theorem FsInv.mono_dirty (h : FsInv T dirty R L W s) (hsub : dirty ⊆ dirty') :
    FsInv T dirty' R L W s :=
  ⟨{ h.disk with disk := fun i hi => h.disk.disk i fun hd => hi (hsub hd) }, h.cache⟩

theorem Mapped.block_eq {a : UInt32} (h : Mapped T dirty R L W ip n bn s a d s') :
    s'.blocks a.toNat = (files T s.blocks n bn).getD zeroBlock := by
  obtain ⟨sl, hs, hp⟩ := h.place_eq
  have hf := congrFun (congrFun h.files_eq n) bn
  rw [update_self, update_self, files, update_self, Dinode.fileBlock, hs, Option.bind_some, hp,
    Option.map_some] at hf
  exact Option.some.inj hf

theorem Mapped.write {a : UInt32} (h : Mapped T dirty R L W ip n bn s a d s') (data : Block) :
    DiskInv (update T n d) (insert n dirty) 0 (update s'.blocks a.toNat data) ∧ files (update T n d)
    (update s'.blocks a.toNat data) = update (files T s.blocks) n
    (update (files T s.blocks n) bn (some data)) := by
  obtain ⟨sl, hs, hp⟩ := h.place_eq
  have hp' : places (update T n d) s'.blocks (n, sl) = some a.toNat := by
    rw [places, update_self]
    exact hp
  have hind : ∀ i, places (update T n d) s'.blocks (i, .indirect) ≠ some a.toNat := by
    intro i hi
    have := congrArg Prod.snd (h.inv.disk.own.unique hi hp')
    exact slotOf_ne_indirect hs this.symm
  refine ⟨h.inv.disk.write_data (h.inv.disk.place_ge hp') hind data, ?_⟩
  rw [(files_update_data h.inv.disk.own hs hp' data).2, h.files_eq, update_self, update_idem,
    update_idem]

theorem Mapped.avail_write {a : UInt32} (h : Mapped T dirty R L W ip n bn s a d s')
    (hav : Avail sb E k s'.blocks) (data : Block) :
    Avail sb E k (update s'.blocks a.toNat data) := by
  obtain ⟨sl, hs, hp⟩ := h.place_eq
  have hp' : places (update T n d) s'.blocks (n, sl) = some a.toNat := by
    rw [places, update_self]
    exact hp
  exact hav.write_data (h.inv.disk.place_ge hp') data

theorem get_zeroBlock (o : ℕ) : zeroBlock.get o = 0 := by
  unfold Bytes.get
  split_ifs <;> rfl

theorem byteAt_piece (V : ℕ → Option Block) {off : ℕ} {l : List UInt8}
    (hl : off % BSIZE + l.length ≤ BSIZE) (p : ℕ) :
    byteAt
    (update V (off / BSIZE) (some (((V (off / BSIZE)).getD zeroBlock).splice (off % BSIZE) l))) p =
      if h : off ≤ p ∧ p < off + l.length then l.get ⟨p - off, by omega⟩ else byteAt V p := by
  refine byteAt_write (by decide) hl (fun o => ?_) p
  cases V (off / BSIZE) with
  | some b => rfl
  | none => exact get_zeroBlock o

/-- The bytes `tot, …, tot + len - 1` of a source are those of `data`, and can be copied. -/
def Source.Gives (src : Source) (data : ℕ → UInt8) (tot len : ℕ) : Prop :=
  ∀ j m, tot ≤ j → j + m ≤ tot + len → src.copyin j m = (kernelSrc data).copyin j m

theorem kernelSrc_gives {data : ℕ → UInt8} : (kernelSrc data).Gives data tot len :=
  fun _ _ _ _ => rfl

/-- Byte `i` of a source is in a piece that can be copied. -/
def Source.Copies (src : Source) (i : ℕ) : Prop :=
  ∃ j m, j ≤ i ∧ i < j + m ∧ (src.copyin j m).2 = true

/-- What the loop of `writei` leaves when it is asked for `len` bytes at `off` and
stops at `off'`: a new version `d` of inode `n`, ahead of the disk. -/
structure Written (T : Table sb) (dirty : Set (Fin sb.ninodes)) (R : Ip → ℕ) (L W : Finset Ip)
    (ip : Ip) (n : Fin sb.ninodes) (src : Source) (tot off len : ℕ) (s : Fs) (off' : ℕ)
    (d : Dinode) (s' : Fs) : Prop where
  meta_eq : d = { T n with addrs := d.addrs }
  inv : FsInv (update T n d) (insert n dirty) R L W s'
  live : Live R s'.inode ip n
  ge : off ≤ off'
  le : off' ≤ off + len
  other : ∀ i, i ≠ n → files (update T n d) s'.blocks i = files T s.blocks i
  kept : ∀ bn, files T s.blocks n bn ≠ none → files (update T n d) s'.blocks n bn ≠ none
  filled : ∀ p, off ≤ p → p < off' → files (update T n d) s'.blocks n (p / BSIZE) ≠ none
  outside : ∀ p, p < off ∨ off + len ≤ p → byteAt (files (update T n d) s'.blocks n) p = byteAt
    (files T s.blocks n) p
  inside : ∀ data, src.Gives data tot len → off' = off + len ∧ ∀ p, off ≤ p → p < off + len →
    byteAt (files (update T n d) s'.blocks n) p = data (tot + (p - off))
  copied : off' = off + len → ∀ i < len, src.Copies (tot + i)

theorem Written.stop {src : Source} {tot off : ℕ} (h : FsInv T dirty R L W s)
    (hl : Live R s.inode ip n) : Written T dirty R L W ip n src tot off 0 s off (T n) s where
  meta_eq := rfl
  inv := by
    rw [update_eq_self]
    exact h.mono_dirty (Set.subset_insert ..)
  live := hl
  ge := le_rfl
  le := le_rfl
  other i _ := by rw [update_eq_self]
  kept bn hbn := by rwa [update_eq_self]
  filled p h₁ h₂ := by omega
  outside p _ := by rw [update_eq_self]
  inside data _ := ⟨rfl, fun p h₁ h₂ => by omega⟩
  copied _ i hi := absurd hi (Nat.not_lt_zero i)

section Piece

variable {a : UInt32} {s₁ s₂ : Fs} {off m : ℕ} {l : List UInt8} {src : Source} {tot len : ℕ}

/-- The state after one piece: the block of the file at `off` holds the bytes `l`. -/
structure Piece (T : Table sb) (dirty : Set (Fin sb.ninodes)) (R : Ip → ℕ) (L W : Finset Ip)
    (ip : Ip) (n : Fin sb.ninodes) (off : ℕ) (l : List UInt8) (s : Fs) (d : Dinode) (s' : Fs) :
    Prop where
  meta_eq : d = { T n with addrs := d.addrs }
  inv : FsInv (update T n d) (insert n dirty) R L W s'
  live : Live R s'.inode ip n
  files_eq : files (update T n d) s'.blocks = update (files T s.blocks) n
    (update (files T s.blocks n) (off / BSIZE)
      (some (((files T s.blocks n (off / BSIZE)).getD zeroBlock).splice (off % BSIZE) l)))

theorem Mapped.piece (h : Mapped T dirty R L W ip n (off / BSIZE) s a d s₁)
    (hb : s₂.blocks = update s₁.blocks a.toNat ((s₁.blocks a.toNat).splice (off % BSIZE) l))
    (hi : s₂.inode = s₁.inode) : Piece T dirty R L W ip n off l s d s₂ := by
  obtain ⟨hd, hf⟩ := h.write ((s₁.blocks a.toNat).splice (off % BSIZE) l)
  refine ⟨h.meta_eq, ⟨?_, ?_⟩, ?_, ?_⟩
  · rwa [hb]
  · rw [hi]
    exact h.inv.cache
  · rw [hi]
    exact h.live
  · rw [hb, hf, h.block_eq]

section

variable (h : Piece T dirty R L W ip n off l s d s₁)
include h

theorem Piece.files_self :
    files (update T n d) s₁.blocks n = update (files T s.blocks n) (off / BSIZE)
    (some (((files T s.blocks n (off / BSIZE)).getD zeroBlock).splice (off % BSIZE) l)) := by
  rw [h.files_eq, update_self]

theorem Piece.kept (bn : ℕ) (hbn : files T s.blocks n bn ≠ none ∨ bn = off / BSIZE) :
    files (update T n d) s₁.blocks n bn ≠ none := by
  rw [h.files_self]
  by_cases he : bn = off / BSIZE
  · rw [he, update_self]
    simp
  · rw [update_of_ne he]
    exact hbn.resolve_right he

theorem Piece.other (hi : i ≠ n) : files (update T n d) s₁.blocks i = files T s.blocks i := by
  rw [h.files_eq, update_of_ne hi]

theorem Piece.byteAt (hl : off % BSIZE + l.length ≤ BSIZE) (p : ℕ) :
    Lib.byteAt (files (update T n d) s₁.blocks n) p =
      if h : off ≤ p ∧ p < off + l.length then l.get ⟨p - off, by omega⟩
      else Lib.byteAt (files T s.blocks n) p := by
  rw [h.files_self]
  exact byteAt_piece _ hl p

/-- A copy that fails leaves its mark in one block and ends the loop. -/
theorem Piece.stop (hl : off % BSIZE + l.length ≤ BSIZE) (hlen : l.length ≤ len) (hpos : 0 < len)
    (hsrc : ∀ data, ¬src.Gives data tot len) :
    Written T dirty R L W ip n src tot off len s off d s₁ where
  meta_eq := h.meta_eq
  inv := h.inv
  live := h.live
  ge := le_rfl
  le := by omega
  other _ hi := h.other hi
  kept bn hbn := h.kept bn (.inl hbn)
  filled p h₁ h₂ := by omega
  outside p hp := by rw [h.byteAt hl, dif_neg (by omega)]
  inside data he := absurd he (hsrc data)
  copied hend := by omega

theorem Piece.trans (hl : off % BSIZE + l.length ≤ BSIZE) (hm : l.length = m) (hmlen : m ≤ len)
    (hsrc : src.copyin tot m = (l, true))
    (hw : Written (update T n d) (insert n dirty) R L W ip n src (tot + m) (off + m)
      (len - m) s₁ off' d' s₂) :
    Written T dirty R L W ip n src tot off len s off' d' s₂ := by
  have hT : update (update T n d) n d' = update T n d' := update_idem ..
  obtain ⟨hmeta, hinv, hlive, hge, hle, hother, hkept, hfilled, houtside, hinside, hcopied⟩ := hw
  rw [hT] at hinv hother hkept hfilled houtside hinside
  rw [Set.insert_eq_of_mem (Set.mem_insert ..)] at hinv
  refine ⟨?_, hinv, hlive, by omega, by omega, fun i hi => (hother i hi).trans (h.other hi),
    fun bn hbn => hkept bn (h.kept bn (.inl hbn)), fun p h₁ h₂ => ?_, fun p hp => ?_,
    fun data he => ?_, fun hend i hi => ?_⟩
  · rw [hmeta, update_self, h.meta_eq]
  · by_cases hp : off + m ≤ p
    · exact hfilled p hp h₂
    · refine hkept _ (h.kept _ (.inr ?_))
      have hoff := Nat.div_add_mod off BSIZE
      refine Nat.div_eq_of_lt_le ?_ ?_
      · rw [Nat.mul_comm]; omega
      · rw [Nat.succ_mul, Nat.mul_comm]; omega
  · rw [houtside p (by omega), h.byteAt hl, dif_neg (by omega)]
  · obtain ⟨hend, hbytes⟩ := hinside data fun j k hj hk => he j k (by omega) (by omega)
    refine ⟨by omega, fun p h₁ h₂ => ?_⟩
    by_cases hp : off + m ≤ p
    · rw [hbytes p hp (by omega)]
      congr 1
      omega
    · rw [houtside p (by omega), h.byteAt hl, dif_pos ⟨h₁, by omega⟩]
      have hl' := congrArg Prod.fst (hsrc.symm.trans (he tot m le_rfl (by omega)))
      dsimp only [kernelSrc] at hl'
      subst hl'
      simp
  · by_cases him : i < m
    · exact ⟨tot, m, by omega, by omega, by rw [hsrc]⟩
    · have hlast := hcopied (by omega) (i - m) (by omega)
      rwa [show tot + m + (i - m) = tot + i by omega] at hlast

end

end Piece

/-- How many blocks have to be allocated so that the file has its blocks
`bn, …, e - 1`. -/
def need (V : ℕ → Option Block) (d : Dinode) (bn e : ℕ) : ℕ :=
  ((Finset.Ico bn e).filter fun x => V x = none).card +
    if NDIRECT < e ∧ d.addrs (Fin.last NDIRECT) = 0 then 1 else 0

theorem ite_le_ite [Decidable p] [Decidable q] (h : p → q) :
    (if p then 1 else 0 : ℕ) ≤ if q then 1 else 0 := by
  split_ifs with hp hq
  · exact le_rfl
  · exact absurd (h hp) hq
  · exact Nat.zero_le _
  · exact le_rfl

theorem need_step {a : UInt32} {s₁ : Fs} {V' : ℕ → Option Block}
    (h : Mapped T dirty R L W ip n bn s a d s₁) (hlt : bn < e)
    (hV : ∀ x, x ≠ bn → V' x = files T s.blocks n x) :
    missing T s.blocks n bn + need V' d (bn + 1) e ≤ need (files T s.blocks n) (T n) bn e := by
  have hfilter : ((Finset.Ico (bn + 1) e).filter fun x => V' x = none) =
      (Finset.Ico (bn + 1) e).filter fun x => files T s.blocks n x = none :=
    Finset.filter_congr fun x hx => by
      rw [hV x (by have := (Finset.mem_Ico.1 hx).1; omega)]
  have hcard : ((Finset.Ico bn e).filter fun x => files T s.blocks n x = none).card =
      (if files T s.blocks n bn = none then 1 else 0) +
        ((Finset.Ico (bn + 1) e).filter fun x => files T s.blocks n x = none).card := by
    have hIco : Finset.Ico bn e = insert bn (Finset.Ico (bn + 1) e) := by
      ext x
      simp only [Finset.mem_Ico, Finset.mem_insert]
      omega
    rw [hIco, Finset.filter_insert]
    split_ifs with h₀
    · rw [Finset.card_insert_of_notMem (by simp), Nat.add_comm]
    · rw [Nat.zero_add]
  unfold need missing
  rw [hfilter, hcard]
  have hind : (if NDIRECT ≤ bn ∧ (T n).addrs (Fin.last NDIRECT) = 0 then 1 else 0) +
      (if NDIRECT < e ∧ d.addrs (Fin.last NDIRECT) = 0 then 1 else 0) ≤
        if NDIRECT < e ∧ (T n).addrs (Fin.last NDIRECT) = 0 then 1 else 0 := by
    by_cases hbn : bn < NDIRECT
    · rw [h.last_eq hbn, if_neg fun hc => by omega, Nat.zero_add]
    · have hne : ¬(NDIRECT < e ∧ d.addrs (Fin.last NDIRECT) = 0) := fun hc => h.last_ne hbn hc.2
      rw [if_neg hne]
      exact ite_le_ite fun hc => ⟨by omega, hc.2⟩
  omega

theorem missing_le_need (hlt : bn < e) :
    missing T blocks n bn ≤ need (files T blocks n) (T n) bn e := by
  unfold missing need
  have h₁ : (if files T blocks n bn = none then 1 else 0) ≤
      ((Finset.Ico bn e).filter fun x => files T blocks n x = none).card := by
    split_ifs with h₀
    · exact Finset.card_pos.2 ⟨bn, by simp [hlt, h₀]⟩
    · exact Nat.zero_le _
  have h₂ : (if NDIRECT ≤ bn ∧ (T n).addrs (Fin.last NDIRECT) = 0 then 1 else 0) ≤
      if NDIRECT < e ∧ (T n).addrs (Fin.last NDIRECT) = 0 then 1 else 0 :=
    ite_le_ite fun hc => ⟨by omega, hc.2⟩
  omega

/-- **The loop of `writei`.**  `fin` is where it will end if every copy succeeds, and
`k` and `j` are what it may log and allocate on the way. -/
theorem wp_writeiLoop {Q : ℕ → Fs → Prop} {src : Source} {fin : ℕ} {B : Finset ℕ}
    (fuel tot off k j : ℕ) (h : FsInv T dirty R L W s) (hl : Live R s.inode ip n)
    (hf : N - tot ≤ fuel) (hfin : off + (N - tot) = fin) (hmax : fin ≤ MAXFILE * BSIZE)
    (hk : tot < N → (fin + BSIZE - 1) / BSIZE - off / BSIZE ≤ k) (hb : Budget sb E B k (T n) s)
    (hj : tot < N → need (files T s.blocks n) (T n) (off / BSIZE) ((fin + BSIZE - 1) / BSIZE) ≤ j)
    (hav : Avail sb E j s.blocks)
    (hQ : ∀ off' d s', Written T dirty R L W ip n src tot off (N - tot) s off' d s' →
      Budget sb E B 0 d s' → Q off' s') :
    wp (writeiLoop sb ip src N fuel tot off) E Q s := by
  induction fuel generalizing T dirty s tot off k j with
  | zero =>
    have h0 : N - tot = 0 := by omega
    simp only [writeiLoop, wp_pure]
    refine hQ off (T n) s ?_ (hb.mono subset_rfl (Nat.zero_le _))
    rw [h0]
    exact Written.stop h hl
  | succ fuel ih =>
    simp only [writeiLoop, bread, scribble, wp_ite, wp_bind, wp_get, wp_pure, wp_modify]
    refine ⟨fun htot => ?_, fun htot => ?_⟩
    · specialize hk htot
      specialize hj htot
      set e := (fin + BSIZE - 1) / BSIZE with he
      have hbn : off / BSIZE < MAXFILE := by simp only [BSIZE, MAXFILE] at hmax ⊢; omega
      have hlt : off / BSIZE < e := by simp only [BSIZE] at he ⊢; omega
      have hmiss : missing T s.blocks n (off / BSIZE) ≤ j := (missing_le_need hlt).trans hj
      have hmod : off % BSIZE < BSIZE := Nat.mod_lt _ (by decide)
      obtain ⟨k, rfl⟩ : ∃ k', k = k' + 1 := ⟨k - 1, by omega⟩
      refine wp_bmap (j := j - missing T s.blocks n (off / BSIZE)) h hl hb (hav.mono (by omega))
        (fun a d s₁ hmap hb₁ hav₁ => ?_) hbn
      set m := min (N - tot) (BSIZE - off % BSIZE) with hm
      have hlen := src.length_le tot m
      have hfits : off % BSIZE + (src.copyin tot m).1.length ≤ BSIZE := by omega
      refine ⟨fun hok => ?_, fun hbad => ?_⟩
      · have hlen := src.length_ok tot m hok
        obtain ⟨A, -, -, hroom⟩ := hb₁.room
        refine wp_logWrite hroom ?_
        have hp : Piece T dirty R L W ip n off (src.copyin tot m).1 s d (s₁.logWrite a.toNat _) :=
          hmap.piece rfl rfl
        have hd : update T n d n = d := update_self ..
        refine ih (tot + m) (off + m) k (j - missing T s.blocks n (off / BSIZE)) hp.inv hp.live
          (by omega) (by omega) (fun hmore => ?_) ?_ (fun hmore => ?_) (hmap.avail_write hav₁ _)
          fun off' d' s' hw hb' => ?_
        · simp only [BSIZE] at hm hk ⊢
          omega
        · rw [hd]
          exact (hb₁.logWrite (Finset.mem_insert_self ..) _).mono (Finset.subset_insert ..) le_rfl
        · have hnext : (off + m) / BSIZE = off / BSIZE + 1 := by
            simp only [BSIZE] at hm ⊢
            omega
          have hrest : ∀ x, x ≠ off / BSIZE → files (update T n d)
              (s₁.logWrite a.toNat _).blocks n x = files T s.blocks n x := fun x hx => by
            rw [hp.files_self, update_of_ne hx]
          have hstep := need_step hmap hlt hrest
          rw [hnext, hd]
          omega
        · rw [Nat.sub_add_eq] at hw
          exact hQ off' d' s' (hp.trans hfits hlen (by omega) (Prod.ext rfl hok) hw) hb'
      · have hp : Piece T dirty R L W ip n off (src.copyin tot m).1 s d
          { s₁ with blocks := update s₁.blocks a.toNat _ } := hmap.piece rfl rfl
        refine hQ off d _ (hp.stop hfits (by omega) (by omega) fun data hsrc => ?_)
          (hb₁.mono (Finset.subset_insert ..) (Nat.zero_le _))
        rw [hsrc tot m le_rfl (by omega)] at hbad
        exact hbad rfl
    · have h0 : N - tot = 0 := by omega
      refine hQ off (T n) s ?_ (hb.mono subset_rfl (Nat.zero_le _))
      rw [h0]
      exact Written.stop h hl

/-! ### Writing the inode back -/

def updateInode (sb : Superblock) (blocks : Disk) (n : ℕ) (d : Dinode) : Disk :=
  update blocks (sb.IBLOCK n) (putDinode (blocks (sb.IBLOCK n)) (n % IPB) d)

theorem dinodeAt_updateInode (i : Fin sb.ninodes) :
    dinodeAt sb (updateInode sb blocks n d) i = if i = n then d else dinodeAt sb blocks i := by
  unfold dinodeAt updateInode
  split_ifs with h
  · rw [h, update_self, getDinode_putDinode _ (Nat.mod_lt _ (by decide))]
  · by_cases hB : sb.IBLOCK i = sb.IBLOCK n
    · rw [hB, update_self, getDinode_putDinode_of_ne]
      exact fun hm => h (Fin.ext (Superblock.eq_of_IBLOCK_eq hB hm))
    · rw [update_of_ne hB]

theorem updateInode_undo (blocks : Disk) (i : ℕ) :
    updateInode sb (updateInode sb blocks i d) i (dinodeAt sb blocks i) = blocks := by
  unfold updateInode dinodeAt
  rw [update_self, update_idem, putDinode_undo, update_eq_self]

theorem bitAt_updateInode (c : ℕ) : bitAt sb (updateInode sb blocks n d) c = bitAt sb blocks c := by
  rw [bitAt, updateInode, update_of_ne (Superblock.IBLOCK_ne_BBLOCK n.isLt c).symm, bitAt]

/-- **`iupdate` brings the disk up to date** for one inode, and no file sees it. -/
theorem DiskInv.updateInode (h : DiskInv T dirty held blocks) : DiskInv T (dirty \ {n}) held
    (updateInode sb blocks n (T n)) ∧ files T (Xv6.updateInode sb blocks n (T n)) =
    files T blocks := by
  have hm := h.place_ne_of_meta (Superblock.IBLOCK_lt_nmeta n.isLt)
  have hp : places T (Xv6.updateInode sb blocks n (T n)) = places T blocks :=
    places_update_block (fun i => hm (i, .indirect)) _
  refine ⟨⟨fun c hc => ?_, ?_, fun i hi => ?_⟩, files_update_of_not_place hm _⟩
  · rw [bitAt_updateInode, h.bits c hc]
  · rw [hp]
    refine h.own.congr fun c => ?_
    unfold InUse
    rw [bitAt_updateInode]
  · rw [dinodeAt_updateInode]
    split_ifs with he
    · rw [he]
    · exact h.disk i fun hd => hi ⟨hd, he⟩

theorem wp_iupdate {Q : PUnit → Fs → Prop} {A : Finset ℕ} (h : FsInv T dirty R L W s)
    (hl : Live R s.inode ip n) (hr : Room sb E A k s)
    (hQ : ∀ s', s' = s.logWrite (sb.IBLOCK n)
      (putDinode (s.blocks (sb.IBLOCK n)) (n.val % IPB) (T n)) → FsInv T (dirty \ {n}) R L W s' →
      files T s'.blocks = files T s.blocks → Q ⟨⟩ s') :
    wp (iupdate sb ip) E Q s := by
  simp only [iupdate, bread, wp_bind, wp_get, wp_pure, hl.inum, h.cache.eq_table hl]
  obtain ⟨hd, hf⟩ := h.disk.updateInode (n := n)
  exact wp_logWrite hr (hQ _ rfl ⟨hd, h.cache⟩ hf)

/-! ### `writei` -/

/-- What `writei` leaves when it takes the call: a new version `d` of inode `n`, on
disk and in the cache, after the loop stopped at `off'`. -/
structure WroteFile (T : Table sb) (R : Ip → ℕ) (L W : Finset Ip) (n : Fin sb.ninodes)
    (src : Source) (off len : ℕ) (s : Fs) (d : Dinode) (off' : ℕ) (s' : Fs) : Prop where
  meta_eq : d = { T n with addrs := d.addrs, size := d.size }
  inv : FsInv (update T n d) ∅ R L W s'
  ge : off ≤ off'
  le : off' ≤ off + len
  size_eq : d.size.toNat = if len = 0 then (T n).size.toNat else max (T n).size.toNat off'
  other : ∀ i, i ≠ n → files (update T n d) s'.blocks i = files T s.blocks i
  kept : ∀ bn, files T s.blocks n bn ≠ none → files (update T n d) s'.blocks n bn ≠ none
  filled : ∀ p, off ≤ p → p < off' → files (update T n d) s'.blocks n (p / BSIZE) ≠ none
  outside : ∀ p, p < off ∨ off + len ≤ p → byteAt (files (update T n d) s'.blocks n) p = byteAt
    (files T s.blocks n) p
  inside : ∀ data, src.Gives data 0 len → off' = off + len ∧ ∀ p, off ≤ p → p < off + len →
    byteAt (files (update T n d) s'.blocks n) p = data (p - off)
  copied : off' = off + len → ∀ i < len, src.Copies i

def Rejects (size off len : UInt32) : Prop :=
  off > size ∨ off + len < off ∨ (off + len).toNat > MAXFILE * BSIZE

instance (size off len : UInt32) : Decidable (Rejects size off len) :=
  inferInstanceAs (Decidable (_ ∨ _ ∨ _))

/-- Blocks of the file that a write of `[off, off + len)` touches. -/
def touched (off len : ℕ) : ℕ := (off + len + BSIZE - 1) / BSIZE - off / BSIZE

theorem Dinode.place_congr (ht : d.type = d'.type) (ha : d.addrs = d'.addrs)
    (blocks : Disk) : d.place blocks = d'.place blocks := by
  funext sl
  cases sl <;> simp only [Dinode.place, ht, ha]

theorem DiskInv.setMeta (h : DiskInv T dirty held blocks)
    (hp : d.place blocks = (T n).place blocks) :
    DiskInv (update T n d) (insert n dirty) held blocks ∧
      files (update T n d) blocks = files T blocks := by
  have hplace := apply_update_of_eq (Dinode.place blocks) hp
  have hplaces : places (update T n d) blocks = places T blocks := by
    funext p
    exact congrFun (hplace p.1) p.2
  refine ⟨⟨h.bits, ?_, fun _ => h.disk_update⟩, ?_⟩
  · rw [hplaces]
    exact h.own
  · funext i bn
    simp only [files, Dinode.fileBlock, hplace i]

theorem FsInv.setMeta (h : FsInv T dirty R L W s) (hl : Live R s.inode ip n)
    (ht : d.type = (T n).type) (ha : d.addrs = (T n).addrs)
    (hf : f (s.inode ip) = { s.inode ip with toDinode := d }) :
    FsInv (update T n d) (insert n dirty) R L W (s.setInode ip f) ∧
    Live R (s.setInode ip f).inode ip n ∧ files (update T n d) s.blocks = files T s.blocks := by
  obtain ⟨hdisk, hfiles⟩ := h.disk.setMeta (Dinode.place_congr ht ha _)
  have hinode : (s.setInode ip f).inode = update s.inode ip { s.inode ip with toDinode := d } := by
    rw [Fs.setInode, hf]
  refine ⟨⟨hdisk, ?_⟩, ?_, hfiles⟩
  · rw [hinode]
    refine h.cache.setDinode hl (by rw [ht]; exact h.cache.type_ne hl) fun hw => ?_
    rw [ht, ← h.cache.eq_table hl]
    exact ((h.cache.entry ip).pin hw).2.2
  · rw [hinode]
    exact hl.setDinode

theorem Written.wroteFile {src : Source} {off len : ℕ} {s₁ : Fs}
    (h : Written T ∅ R L W ip n src 0 off len s off' d s₁)
    (hmeta : d' = { d with size := d'.size }) (hinv : FsInv (update T n d') ∅ R L W s')
    (hfiles : files (update T n d') s'.blocks = files (update T n d) s₁.blocks)
    (hsize : d'.size.toNat = if len = 0 then (T n).size.toNat else max (T n).size.toNat off') :
    WroteFile T R L W n src off len s d' off' s' where
  meta_eq := by
    rw [hmeta, h.meta_eq]
  inv := hinv
  ge := h.ge
  le := h.le
  size_eq := hsize
  other i hi := by rw [hfiles, h.other i hi]
  kept bn hbn := by
    rw [hfiles]
    exact h.kept bn hbn
  filled p h₁ h₂ := by
    rw [hfiles]
    exact h.filled p h₁ h₂
  outside p hp := by rw [hfiles, h.outside p hp]
  inside data he := by
    obtain ⟨hend, hbytes⟩ := h.inside data he
    refine ⟨hend, fun p h₁ h₂ => ?_⟩
    rw [hfiles, hbytes p h₁ h₂, Nat.zero_add]
  copied hend i hi := by
    have hcopies := h.copied hend i hi
    rwa [Nat.zero_add] at hcopies

theorem WroteFile.zero {src : Source} {off : ℕ} (h : FsInv T ∅ R L W s) :
    WroteFile T R L W n src off 0 s (T n) off s := by
  have hT : update T n (T n) = T := update_eq_self ..
  constructor
  · rfl
  · rwa [hT]
  · exact le_rfl
  · exact le_rfl
  · rw [if_pos rfl]
  · exact fun i _ => by rw [hT]
  · exact fun bn hbn => by rwa [hT]
  · exact fun p h₁ h₂ => by omega
  · exact fun p _ => by rw [hT]
  · exact fun data _ => ⟨rfl, fun p h₁ h₂ => by omega⟩
  · exact fun _ i hi => absurd hi (Nat.not_lt_zero i)

/-- **`writei`.**  Either the call is rejected and changes nothing, or the range is
written and the entry of the cache is still that of the inode. -/
theorem wp_writei {src : Source} {off len : UInt32} (h : FsInv T ∅ R L W s)
    (hl : Live R s.inode ip n) (hb : Budget sb E ∅ (touched off.toNat len.toNat) (T n) s)
    (hav : Avail sb E (need (files T s.blocks n) (T n) (off.toNat / BSIZE)
      ((off.toNat + len.toNat + BSIZE - 1) / BSIZE)) s.blocks)
    (hrej : Rejects (T n).size off len → Q (-1) s)
    (hQ : ∀ d off' s', ¬Rejects (T n).size off len → Live R s'.inode ip n →
      WroteFile T R L W n src off.toNat len.toNat s d off' s' → Q len.toNat s') :
    wp (writei sb ip src off len) E Q s := by
  have hsize : (s.inode ip).size = (T n).size := by rw [← h.cache.eq_table hl]
  simp only [writei, wp_bind, wp_get, wp_ite, wp_pure, setInode, wp_modify, hsize]
  refine ⟨fun hout => hrej (by unfold Rejects; tauto), fun hin => ⟨fun hbig =>
    hrej (.inr (.inr hbig)), fun hfit => ?_⟩⟩
  have hacc : ¬Rejects (T n).size off len := by unfold Rejects; tauto
  have hadd := toNat_add_of_not_lt (not_or.1 hin).2
  rw [hadd] at hfit
  by_cases hlen : len.toNat = 0
  · have h₀ : ¬len > 0 := by
      rw [gt_iff_lt, UInt32.lt_iff_toNat_lt]
      simp [hlen]
    have hres := hQ (T n) off.toNat s hacc hl
    rw [hlen] at hres ⊢
    simp only [writeiLoop, wp_pure]
    exact ⟨fun hc => absurd hc h₀, fun _ => hres (WroteFile.zero h)⟩
  have hpos : len > 0 := by
    rw [gt_iff_lt, UInt32.lt_iff_toNat_lt]
    simp only [UInt32.toNat_zero]
    omega
  refine wp_writeiLoop len.toNat 0 off.toNat _ _ h hl (by omega) (by rw [Nat.sub_zero]) (by omega)
    (fun _ => le_rfl) hb (fun _ => le_rfl) hav fun off' d s₁ hw hb₁ => ?_
  rw [Nat.sub_zero] at hw
  have hoff' : off' < 2 ^ 32 := by
    have := hw.le
    simp only [MAXFILE, BSIZE] at hfit
    omega
  have hT₁ : update T n d n = d := update_self ..
  have hsize₁ : (s₁.inode ip).size = (T n).size := by
    rw [hw.inv.cache.eq_table hw.live, hT₁, hw.meta_eq]
  obtain ⟨A, -, -, hroom⟩ := hb₁.room
  have hdirty : (insert n (∅ : Set (Fin sb.ninodes))) \ {n} = ∅ := by simp
  refine ⟨fun _ => ⟨fun hgrow => ?_, fun hsame => ?_⟩, fun hzero => absurd hpos hzero⟩
  · set d₂ : Dinode := { d with size := UInt32.ofNat off' } with hd₂
    obtain ⟨hinv, hlive, hfiles⟩ := hw.inv.setMeta hw.live (d := d₂)
      (f := fun i => { i with size := UInt32.ofNat off' }) (by rw [hT₁]) (by rw [hT₁])
      (by rw [hd₂, ← hT₁, ← hw.inv.cache.eq_table hw.live])
    rw [update_idem] at hinv hfiles
    refine wp_iupdate hinv hlive hroom fun s' hs' hinv' hfiles' => ?_
    rw [Set.insert_eq_of_mem (Set.mem_insert ..), hdirty] at hinv'
    refine hQ d₂ off' s' hacc (by rwa [hs', Fs.inode_logWrite])
      (hw.wroteFile rfl hinv' (hfiles'.trans hfiles) ?_)
    rw [hsize₁] at hgrow
    rw [if_neg hlen, hd₂, UInt32.toNat_ofNat', Nat.mod_eq_of_lt hoff']
    omega
  · refine wp_iupdate hw.inv hw.live hroom fun s' hs' hinv' hfiles' => ?_
    rw [hdirty] at hinv'
    refine hQ d off' s' hacc (by rw [hs', Fs.inode_logWrite]; exact hw.live)
      (hw.wroteFile rfl hinv' hfiles' ?_)
    rw [hsize₁] at hsame
    rw [if_neg hlen, hw.meta_eq]
    show (T n).size.toNat = _
    omega

end Xv6
