/-
# The entries of a directory

The content of a directory is a table of 16-byte slots (`entries`): the number of an inode, 0 in a
free slot, and 14 bytes of name, of which `cstring DIRSIZ` counts.  A write of 16 bytes at a
multiple of 16 replaces a slot, and `dirlookup` and `dirlink` search the table.
-/

import Xv6.Fs.Local
import Xv6.Fs.Refine
import Xv6.Lib.Slots

namespace Xv6

open Lib

variable {de name : List UInt8} {k : ℕ}

/-! ### Names -/

/-- The string in the first `n` bytes: up to the first NUL. -/
def cstring (n : ℕ) (l : List UInt8) : List UInt8 := (l.takeWhile (· ≠ 0)).take n

theorem cstring_of_not_mem (h : 0 ∉ l) (n : ℕ) : cstring n l = l.take n := by
  have hall : ∀ c ∈ l, decide (c ≠ 0) = true := fun c hc => decide_eq_true fun h0 => h (h0 ▸ hc)
  have htake : (l ++ []).takeWhile (· ≠ 0) = l ++ [].takeWhile (· ≠ 0) :=
    List.takeWhile_append_of_pos hall
  rw [List.append_nil, List.takeWhile_nil, List.append_nil] at htake
  rw [cstring, htake]

theorem cstring_cons (n : ℕ) (c : UInt8) (l : List UInt8) :
    cstring (n + 1) (c :: l) = if c = 0 then [] else c :: cstring n l := by
  unfold cstring
  split_ifs with hc <;> simp [hc]

@[simp] theorem cstring_nil (n : ℕ) : cstring n [] = [] := by simp [cstring]

/-- **`strncmp`** finds two strings equal exactly if their first `n` bytes are. -/
theorem strncmp_eq_zero_iff (p q : List UInt8) (n : ℕ) :
    strncmp p q n = 0 ↔ cstring n p = cstring n q := by
  induction n generalizing p q with
  | zero => simp [strncmp, cstring]
  | succ n ih =>
    rw [strncmp]
    split_ifs with hc
    · obtain ⟨hp, hpq⟩ := hc
      cases p with
      | nil => exact absurd rfl hp
      | cons a p =>
        cases q with
        | nil => exact absurd hpq hp
        | cons b q =>
          simp only [List.headD_cons] at hp hpq
          subst hpq
          simp only [List.tail_cons, cstring_cons, if_neg hp, ih, List.cons.injEq, true_and]
    · have hfirst (l : List UInt8) : cstring (n + 1) l = if l.headD 0 = 0 then [] else l.headD 0 ::
          cstring n l.tail := by
        cases l with
        | nil => simp
        | cons c l => exact cstring_cons n c l
      have hzero : (((p.headD 0).toNat : ℤ) - (q.headD 0).toNat = 0) ↔ p.headD 0 = q.headD 0 := by
        rw [sub_eq_zero, Nat.cast_inj, UInt8.toNat_inj]
      rw [hzero, hfirst p, hfirst q]
      constructor
      · intro he
        have hp : p.headD 0 = 0 := not_not.1 fun hp => hc ⟨hp, he⟩
        rw [if_pos hp, if_pos (he ▸ hp)]
      · intro he
        by_contra hne
        split_ifs at he with hp hq
        · exact hne (hp.trans hq.symm)
        · exact hne (List.cons.inj he).1

theorem namecmp_eq_zero_iff (s t : List UInt8) :
    namecmp s t = 0 ↔ cstring DIRSIZ s = cstring DIRSIZ t :=
  strncmp_eq_zero_iff s t DIRSIZ

theorem length_strncpy (t : List UInt8) (n : ℕ) : (strncpy t n).length = n := by
  simp only [strncpy, List.length_append, List.length_take, List.length_replicate]
  omega

theorem cstring_strncpy (t : List UInt8) (n : ℕ) : cstring n (strncpy t n) = cstring n t := by
  induction n generalizing t with
  | zero => simp [cstring]
  | succ n ih =>
    cases t with
    | nil => simp [strncpy, List.replicate_succ, cstring_cons]
    | cons c t =>
      have hcopy : strncpy (c :: t) (n + 1) = c :: strncpy t n := by simp [strncpy]
      rw [hcopy, cstring_cons, cstring_cons, ih]

/-! ### Slots -/

/-- An entry as a slot: its name and the inode, if it is in use. -/
def Dirent.slot (de : Dirent) : Option (List UInt8 × ℕ) :=
  if de.inum = 0 then none else some (cstring DIRSIZ de.name, de.inum)

def entries (c : List UInt8) : List (Option (List UInt8 × ℕ)) :=
  (List.range (c.length / DIRENT)).map fun k => (Dirent.parse (window c (DIRENT * k) DIRENT)).slot

@[simp] theorem length_entries (c : List UInt8) : (entries c).length = c.length / DIRENT := by
  simp [entries]

theorem getElem_entries (c : List UInt8) (k : ℕ) (h : k < (entries c).length) :
    (entries c)[k] = (Dirent.parse (window c (DIRENT * k) DIRENT)).slot := by
  simp [entries]

theorem length_direntBytes (inum : ℕ) (name : List UInt8) :
    (direntBytes inum name).length = DIRENT := by
  rw [direntBytes, List.length_append, length_le, length_strncpy]
  rfl

theorem slot_direntBytes (h : inum ≠ 0) (hlt : inum < 2 ^ 16) (name : List UInt8) :
    (Dirent.parse (direntBytes inum name)).slot = some (cstring DIRSIZ name, inum) := by
  have hparse : Dirent.parse (direntBytes inum name) = ⟨inum, strncpy name DIRSIZ⟩ := by
    rw [Dirent.parse, direntBytes, List.take_left' (length_le ..), List.drop_left' (length_le ..),
      ofLE_le_of_lt hlt]
  rw [hparse, Dirent.slot, if_neg h, cstring_strncpy]

theorem slot_direntBytes_le (h : (Dirent.parse (direntBytes inum name)).slot = some (key, ino)) :
    ino ≤ inum := by
  unfold Dirent.slot at h
  split_ifs at h
  simp only [Option.some.injEq, Prod.mk.injEq] at h
  rw [← h.2, Dirent.parse, direntBytes, List.take_left' (length_le ..), ofLE_le]
  exact Nat.mod_le ..

theorem slot_zero : (Dirent.parse (List.replicate DIRENT 0)).slot = none := by decide

theorem window_overwrite_slot (hde : de.length = DIRENT) (hk : DIRENT * k ≤ c.length) :
    window (overwrite c (DIRENT * k) de) (DIRENT * i) DIRENT =
      if i = k then de else window c (DIRENT * i) DIRENT := by
  have hpre : (c.take (DIRENT * k)).length = DIRENT * k := List.length_take_of_le hk
  unfold window overwrite
  simp only [DIRENT] at *
  rcases Nat.lt_trichotomy i k with hlt | rfl | hgt
  · rw [if_neg (by omega), List.append_assoc, List.drop_append_of_le_length (by omega),
      List.take_append_of_le_length (by rw [List.length_drop]; omega), List.drop_take,
      List.take_take]
    congr 1
    omega
  · rw [if_pos rfl, List.append_assoc, List.drop_left' hpre, List.take_left' hde]
  · have hdrop : (c.take (16 * k) ++ de).length = 16 * k + 16 := by
      rw [List.length_append, hpre, hde]
    rw [if_neg (by omega), List.drop_append, List.drop_eq_nil_of_le (by omega), List.nil_append,
      List.drop_drop, hdrop, hde]
    congr 2
    omega

theorem length_overwrite (h : off ≤ c.length) :
    (overwrite c off de).length = max c.length (off + de.length) := by
  simp only [overwrite, List.length_append, List.length_take, List.length_drop]
  omega

/-- **Writing an entry replaces a slot**, or adds one at the end. -/
theorem entries_overwrite (hde : de.length = DIRENT)
    (hc : DIRENT ∣ c.length ∨ k < (entries c).length) (hk : k ≤ (entries c).length) :
    entries (overwrite c (DIRENT * k) de) = Slots.setAt (entries c) k (Dirent.parse de).slot := by
  rw [length_entries] at hk hc
  have hle : DIRENT * k ≤ c.length := (Nat.mul_le_mul_left _ hk).trans (Nat.mul_div_le ..)
  have hlen : (overwrite c (DIRENT * k) de).length = max c.length (DIRENT * k + de.length) :=
    length_overwrite hle
  refine List.ext_getElem ?_ fun i h₁ h₂ => ?_
  · simp only [Slots.setAt, length_entries, List.length_append, List.length_take, List.length_cons,
      List.length_drop, hlen, hde]
    simp only [DIRENT] at *
    omega
  simp only [getElem_entries, window_overwrite_slot hde hle, Slots.setAt, List.getElem_append]
  simp only [length_entries, hlen, hde] at h₁
  have hpre : ((entries c).take k).length = k := List.length_take_of_le (by rwa [length_entries])
  split_ifs with hik hlt hlt
  · omega
  · subst hik
    simp only [hpre, Nat.sub_self, List.getElem_cons_zero]
  · rw [List.getElem_take, getElem_entries]
  · obtain ⟨j, rfl⟩ : ∃ j, i = k + (j + 1) := ⟨i - k - 1, by omega⟩
    simp only [hpre, Nat.add_sub_cancel_left, List.getElem_cons_succ, List.getElem_drop,
      getElem_entries]
    rw [Nat.add_assoc, Nat.add_comm 1 j]

/-! ### The loops over the entries -/

section Scan

variable {sb : Superblock} {dp : Ip} {s : Fs} {E : Halt → Prop}

/-- The entry at slot `j + i` is read as slot `i` of the table `t`, and reading changes nothing. -/
def ReadsAs (sb : Superblock) (dp : Ip) (p : Panic) (E : Halt → Prop) (s : Fs) (j : ℕ)
    (t : List (Option (List UInt8 × ℕ))) : Prop :=
  ∀ i (h : i < t.length), wp (readDirent sb dp (DIRENT * (j + i)) p) E (fun de s' => s' = s ∧
    de.slot = t.get ⟨i, h⟩) s

theorem ReadsAs.tail (h : ReadsAs sb dp p E s j (o :: t)) : ReadsAs sb dp p E s (j + 1) t :=
  fun i hi => by
  have hnext := h (i + 1) (Nat.succ_lt_succ hi)
  rw [show j + (i + 1) = j + 1 + i by omega] at hnext
  exact hnext

theorem direntOffs_eq (size : ℕ) :
    direntOffs size = (List.range' 0 (size / DIRENT)).map (DIRENT * ·) ++ if DIRENT ∣ size then
    [] else [DIRENT * (size / DIRENT)] := by
  unfold direntOffs
  split_ifs with hdvd
  · have hm : (size + DIRENT - 1) / DIRENT = size / DIRENT := by
      simp only [DIRENT] at *
      omega
    rw [hm, List.range_eq_range', List.append_nil]
  · have hm : (size + DIRENT - 1) / DIRENT = size / DIRENT + 1 := by
      simp only [DIRENT] at *
      omega
    rw [hm, List.range_succ, List.map_append, List.range_eq_range']
    rfl

/-- **The loop of `dirlookup`** is the search for the name; it goes on if the table has more slots.
-/
theorem wp_dirlookupFrom_scan
    (t : List (Option (List UInt8 × ℕ))) (j : ℕ) (offs : List ℕ)
    (hread : ReadsAs sb dp .dirlookupRead E s j t)
    (hnone : Slots.search (cstring DIRSIZ name) j t = none →
      wp (dirlookupFrom sb dp name offs) E Q s)
    (hsome : ∀ k ino, Slots.search (cstring DIRSIZ name) j t = some (k, ino) →
      wp (iget (s.inode dp).dev ino) E (fun ip s' => Q (some (ip, DIRENT * k)) s') s) :
    wp (dirlookupFrom sb dp name ((List.range' j t.length).map (DIRENT * ·) ++ offs)) E Q s := by
  induction t generalizing j with
  | nil => exact hnone rfl
  | cons o t ih =>
    rw [List.length_cons, List.range'_succ, List.map_cons, List.cons_append]
    simp only [dirlookupFrom, wp_bind, wp_ite, wp_get, wp_pure]
    refine wp_mono (hread 0 (Nat.succ_pos _)) ?_
    rintro de _ ⟨rfl, hde⟩
    rw [namecmp_eq_zero_iff]
    have hslot : de.slot = o := hde
    unfold Dirent.slot at hslot
    refine ⟨fun hmatch => ?_, fun hskip => ih (j + 1) hread.tail (fun h => hnone ?_) fun k ino h =>
      hsome k ino ?_⟩
    · rw [if_neg hmatch.1, ← hmatch.2] at hslot
      refine hsome j de.inum ?_
      rw [← hslot, Slots.search, if_pos rfl]
    all_goals
      rw [← hslot]
      split_ifs with h0
      · exact h
      · rw [Slots.search, if_neg fun hkey => hskip ⟨h0, hkey.symm⟩]
        exact h

/-- **The loop of `dirlink`** is the search for an empty slot. -/
theorem wp_findEmptyFrom_scan (t : List (Option (List UInt8 × ℕ))) (j : ℕ)
    (hread : ReadsAs sb dp .dirlinkRead E s j t) (hstop : stop = DIRENT * (j + t.length))
    (hQ : Q (DIRENT * Slots.gap j t) s) :
    wp (findEmptyFrom sb dp stop ((List.range' j t.length).map (DIRENT * ·))) E Q s := by
  induction t generalizing j with
  | nil =>
    rw [hstop]
    exact wp_pure.2 hQ
  | cons o t ih =>
    rw [List.length_cons, List.range'_succ, List.map_cons]
    simp only [findEmptyFrom, wp_bind, wp_ite, wp_pure]
    refine wp_mono (hread 0 (Nat.succ_pos _)) ?_
    rintro de _ ⟨rfl, hde⟩
    have hslot : de.slot = o := hde
    unfold Dirent.slot at hslot
    refine ⟨fun h0 => ?_, fun h0 => ih (j + 1) hread.tail ?_ ?_⟩
    · rw [if_pos h0] at hslot
      rw [← hslot] at hQ
      exact hQ
    · rw [hstop, List.length_cons, Nat.add_assoc, Nat.add_comm 1]
    · rw [if_neg h0] at hslot
      rw [← hslot] at hQ
      exact hQ

end Scan

/-! ### Directories of a file system in order -/

section

variable {sb : Superblock} {T : Table sb} {R : Ip → ℕ} {L W : Finset Ip} {dp : Ip}
  {n : Fin sb.ninodes} {dirty : Set (Fin sb.ninodes)} {s : Fs} {E : Halt → Prop}

theorem FsInv.readsAs (h : FsInv T dirty R L W s) (hl : Live R s.inode dp n)
    (hfull : NoHoles s.blocks (T n)) :
    ReadsAs sb dp p E s 0 (entries (content s.blocks (T n))) := by
  intro k hk
  rw [List.get_eq_getElem, getElem_entries]
  rw [length_entries, content, length_bytesAt] at hk
  have hsize := (T n).size.toNat_lt
  have hin : DIRENT * k + DIRENT ≤ (T n).size.toNat := by
    simp only [DIRENT] at *
    omega
  have hoff : (UInt32.ofNat (DIRENT * k)).toNat = DIRENT * k := by
    rw [UInt32.toNat_ofNat', Nat.mod_eq_of_lt]
    omega
  have hlen : readLen (T n).size (UInt32.ofNat (DIRENT * k)) (UInt32.ofNat DIRENT) = DIRENT := by
    have hadd : (UInt32.ofNat (DIRENT * k) + UInt32.ofNat DIRENT).toNat = DIRENT * k + DIRENT := by
      rw [UInt32.toNat_add, hoff, show (UInt32.ofNat DIRENT).toNat = DIRENT from rfl,
        Nat.mod_eq_of_lt]
      omega
    have hacc : ¬(UInt32.ofNat (DIRENT * k) > (T n).size ∨
        UInt32.ofNat (DIRENT * k) + UInt32.ofNat DIRENT < UInt32.ofNat (DIRENT * k)) := by
      rw [gt_iff_lt, UInt32.lt_iff_toNat_lt, UInt32.lt_iff_toNat_lt, hadd, hoff]
      omega
    rw [readLen, if_neg hacc, hoff, show (UInt32.ofNat DIRENT).toNat = DIRENT from rfl]
    omega
  rw [Nat.zero_add]
  simp only [readDirent, wp_bind, wp_ite, wp_throw, wp_pure]
  refine wp_mono (wp_readi h hl hfull) ?_
  rintro l s' ⟨rfl, r, -, rfl, hr⟩
  rw [hr rfl, hlen, hoff]
  refine ⟨fun _ => ⟨rfl, ?_⟩, fun hne => absurd (length_bytesAt ..) hne⟩
  rw [window_content, min_eq_left (by omega)]
  rfl

/-- Slot `k` of the directory `n` was written; `d` is its inode now. -/
structure EntryWritten (T : Table sb) (R : Ip → ℕ) (L W : Finset Ip) (dp : Ip)
    (n : Fin sb.ninodes) (k : ℕ) (de : List UInt8) (s : Fs) (d : Dinode) (s' : Fs) : Prop where
  meta_eq : d = { T n with addrs := d.addrs, size := d.size }
  inv : FsInv (Function.update T n d) ∅ R L W s'
  live : Live R s'.inode dp n
  full : NoHoles s'.blocks d
  whole : DIRENT ∣ (T n).size.toNat → DIRENT ∣ d.size.toNat
  slots : entries (content s'.blocks d) = Slots.setAt (entries (content s.blocks (T n))) k
    (Dirent.parse de).slot
  other : ∀ i, i ≠ n → files (Function.update T n d) s'.blocks i = files T s.blocks i
  frame : ∀ jp, jp ≠ dp → s'.inode jp = s.inode jp

theorem EntryWritten.nums (h : EntryWritten T R L W dp n k de s d s')
    (hl : Live R s.inode dp n) : SameNums R s s' := by
  intro jp _
  by_cases hj : jp = dp
  · rw [hj, h.live.inum, hl.inum]
  · rw [h.frame jp hj]

/-- **Writing an entry** replaces a slot of a directory, or adds one; only the largest size of a
file can make it fail. -/
theorem FsInv.wp_writeDirent (h : FsInv T ∅ R L W s) (hl : Live R s.inode dp n)
    (hfull : NoHoles s.blocks (T n))
    (hwhole : DIRENT ∣ (T n).size.toNat ∨ k < (entries (content s.blocks (T n))).length)
    (hE : E (.panic .logTooBig) ∧ E (.panic .logOutside) ∧ E (.panic .ballocOutOfBlocks))
    (hde : de.length = DIRENT) (hk : k ≤ (entries (content s.blocks (T n))).length)
    (hrej : MAXFILE * BSIZE < DIRENT * k + DIRENT → Q (-1) s)
    (hQ : ∀ d s', EntryWritten T R L W dp n k de s d s' → Q DIRENT s') :
    wp (writeDirent sb dp (DIRENT * k) de) E Q s := by
  have hclen : (content s.blocks (T n)).length = (T n).size.toNat := by rw [content, length_bytesAt]
  have hle : DIRENT * k ≤ (T n).size.toNat := by
    rw [length_entries, hclen] at hk
    exact (Nat.mul_le_mul_left _ hk).trans (Nat.mul_div_le ..)
  have hmax := hfull.size_le
  have hoff : (UInt32.ofNat (DIRENT * k)).toNat = DIRENT * k := by
    rw [UInt32.toNat_ofNat', Nat.mod_eq_of_lt]
    exact hle.trans_lt (T n).size.toNat_lt
  have hadd : (UInt32.ofNat (DIRENT * k) + UInt32.ofNat DIRENT).toNat = DIRENT * k + DIRENT := by
    rw [UInt32.toNat_add, hoff, show (UInt32.ofNat DIRENT).toNat = DIRENT from rfl,
      Nat.mod_eq_of_lt]
    simp only [DIRENT, MAXFILE, BSIZE] at *
    omega
  refine (local_writei _ _ _).frame s (wp_writei h hl (Budget.of_admits hE.1 hE.2.1)
    (.inl hE.2.2) (fun hrejects _ => hrej ?_) fun d off' s' hacc hlive hw hframe => ?_)
  · rcases hrejects with hbad | hbad | hbad
    · rw [gt_iff_lt, UInt32.lt_iff_toNat_lt, hoff] at hbad
      omega
    · rw [UInt32.lt_iff_toNat_lt, hadd, hoff] at hbad
      omega
    · rwa [gt_iff_lt, hadd] at hbad
  rw [hoff, show (UInt32.ofNat DIRENT).toNat = DIRENT from rfl] at hw
  have hdata : (List.range DIRENT).map (fun i => de.getD i 0) = de := by
    refine List.ext_getElem (by simp [hde]) fun i h₁ h₂ => ?_
    simp [List.getElem?_eq_getElem h₂]
  have hcontent := hw.content kernelSrc_gives hle
  rw [hdata] at hcontent
  have hsize := hw.size_eq
  rw [if_neg (by decide), (hw.inside _ kernelSrc_gives).1] at hsize
  refine hQ d s' ⟨hw.meta_eq, hw.inv, hlive, hw.noHoles hle hfull, fun hwhole => ?_, ?_,
    hw.other, hframe⟩
  · rw [hsize, max_def]
    simp only [DIRENT] at *
    split_ifs <;> omega
  · rw [hcontent]
    exact entries_overwrite hde (hclen ▸ hwhole) hk

end

end Xv6
