/-
# What a write stored

`filewrite` of `kernel/file.c` on an inode.  `writei` returns `n` whether or not `either_copyin`
brought the bytes, and `filewrite` advances `f->off` by that, so a write reports what it stored
exactly if its bytes can be read or one of its rounds is refused for another reason (`Refused`).
-/

import Xv6.Kernel.Disk
import Xv6.Kernel.Shared
import Xv6.Vm.Copy

namespace Xv6

open Lib Function

/-! ### Sources -/

variable {m : Mem} {root addr len : ℕ} {buf : List UInt8}

theorem Reachable.sub (h : Reachable m root addr len) (hjk : j + k ≤ len) :
    Reachable m root (addr + j) k := by
  by_cases hk : k = 0
  · exact .inl hk
  · obtain hzero | ⟨hlt, hall⟩ := h
    · omega
    · exact .inr
        ⟨by omega, fun v hv hv' => hall v ((Nat.div_le_div_right (Nat.le_add_right ..)).trans hv)
        (hv'.trans (Nat.div_le_div_right (by omega)))⟩

theorem load_sub (m : Mem) (root addr : ℕ) (hjk : j + k ≤ len) :
    m.load root (addr + j) k = ((m.load root addr len).drop j).take k := by
  refine List.ext_getElem (by simp [Mem.load]; omega) fun i h₁ h₂ => ?_
  simp only [Mem.load, List.getElem_map, List.getElem_range, List.getElem_take, List.getElem_drop,
    Nat.add_assoc]

section

variable (hd : Distinct m root) (hr : Reachable m root addr buf.length)
  (hload : m.load root addr buf.length = buf.map some)
include hd hr hload

theorem copyin_piece (hjk : j + k ≤ buf.length) : m.copyin root
    ((addr + j) % 2 ^ 64) k = ((buf.drop j).take k, true) := by
  by_cases hk : k = 0
  · rw [hk, Mem.copyin, copyinFrom_zero, List.take_zero]
  have hlt : addr + j < 2 ^ 64 := by
    obtain hzero | ⟨hlt, -⟩ := hr
    · omega
    · omega
  obtain ⟨hiff, hbytes⟩ := copyinFrom_spec k (addr + j) hd le_rfl
  have hok := hiff.2 (hr.sub hjk)
  rw [Nat.mod_eq_of_lt hlt]
  refine Prod.ext ?_ hok
  have hmap := hbytes hok
  rw [load_sub m root addr hjk, hload, ← List.map_drop, ← List.map_take] at hmap
  exact List.map_injective_iff.2 (Option.some_injective _) hmap

theorem userSrc_gives (h : i + k ≤ buf.length) :
    (userSrc m root ((addr + i) % 2 ^ 64)).Gives (fun j => buf.getD (i + j) 0) 0 k := by
  intro tot k' _ hk
  have hwrap : ((addr + i) % 2 ^ 64 + tot) % 2 ^ 64 = (addr + (i + tot)) % 2 ^ 64 := by omega
  have hle : i + tot + k' ≤ buf.length := by omega
  have hbytes := Shared.range_map_getD hle
  simp only [userSrc, kernelSrc, hwrap, copyin_piece hd hr hload hle, ← hbytes, Nat.add_assoc]

end

theorem userPage_of_copies (hd : Distinct m root) (h : (userSrc m root addr).Copies i)
    (hlt : addr + i < 2 ^ 64) : UserPage m root ((addr + i) / PGSIZE) := by
  obtain ⟨j, k, hj, hk, hok⟩ := h
  have hwrap : (addr + j) % 2 ^ 64 = addr + j := Nat.mod_eq_of_lt (by omega)
  simp only [userSrc, hwrap] at hok
  obtain hzero | ⟨-, hall⟩ := (copyinFrom_spec k (addr + j) hd le_rfl).1.1 hok
  · omega
  · exact hall _ (Nat.div_le_div_right (by omega)) (Nat.div_le_div_right (by omega))

/-- If each byte of a range was in a piece that could be copied, the whole range can be. -/
theorem reachable_of_copies (hd : Distinct m root) (ha : addr < 2 ^ 64)
    (h : ∀ i < len, (userSrc m root addr).Copies i) : Reachable m root addr len := by
  by_cases hlen : len = 0
  · exact .inl hlen
  have hpage : ∀ i < len, addr + i < 2 ^ 64 → UserPage m root ((addr + i) / PGSIZE) :=
    fun i hi hlt => userPage_of_copies hd (h i hi) hlt
  have hend : addr + len - 1 < 2 ^ 64 := by
    by_contra hge
    -- the last address of all is no address of a user
    have hlast := (hpage (2 ^ 64 - 1 - addr) (by omega) (by omega)).1
    simp only [MAXVA, PGSIZE] at hlast
    omega
  refine .inr ⟨hend, fun v hv hv' => ?_⟩
  have hat := hpage (max addr (v * PGSIZE) - addr)
  simp only [PGSIZE] at *
  have heq : (addr + (max addr (v * 4096) - addr)) / 4096 = v := by omega
  rw [heq] at hat
  exact hat (by omega) (by omega)

theorem Reachable.exists_buf {m : Mem} {root addr len : ℕ} (hd : Distinct m root)
    (h : Reachable m root addr len) :
    ∃ buf : List UInt8, buf.length = len ∧ m.load root addr len = buf.map some := by
  obtain ⟨hiff, hbytes⟩ := copyinFrom_spec len addr hd le_rfl
  have hload := hbytes (hiff.2 h)
  refine ⟨_, ?_, hload.symm⟩
  have hlen := congrArg List.length hload
  rwa [List.length_map, Mem.load, List.length_map, List.length_range] at hlen

/-! ### Rounds that are refused -/

/-- From round `j` on, a write of `n` bytes at `off` to a file of `size` bytes is refused: round `j`
would begin behind the end of the file, the write goes beyond the largest size, or the bytes of a
round before the last cannot all be read, and the next would begin behind the end. -/
def Refused (m : Mem) (root addr off n size j : ℕ) : Prop :=
  size < off + j * WRITEMAX ∨ MAXFILE * BSIZE < off + n ∨
    ∃ k, j ≤ k ∧ (k + 1) * WRITEMAX < n ∧
      ¬Reachable m root ((addr + k * WRITEMAX) % 2 ^ 64) WRITEMAX ∧ size < off + (k + 1) * WRITEMAX

theorem not_refused_last (hstart : off + j * WRITEMAX ≤ size) (hfits : off + n ≤ MAXFILE * BSIZE)
    (hlast : n ≤ (j + 1) * WRITEMAX) : ¬Refused m root addr off n size j := by
  rintro (hlt | hlt | ⟨k, hjk, hk, -⟩)
  · omega
  · omega
  · have := Nat.mul_le_mul_right WRITEMAX (show j + 1 ≤ k + 1 by omega)
    omega

/-- A round that was taken leaves the file `size'` bytes long, up to where it got. -/
theorem refused_succ (hstart : off + j * WRITEMAX ≤ size) (hmore : (j + 1) * WRITEMAX < n)
    (hsize : size' = max size e) (he : e ≤ off + (j + 1) * WRITEMAX)
    (hread : e = off + (j + 1) * WRITEMAX ↔
      Reachable m root ((addr + j * WRITEMAX) % 2 ^ 64) WRITEMAX) :
    Refused m root addr off n size' (j + 1) ↔ Refused m root addr off n size j := by
  constructor
  · rintro (hlt | hlt | ⟨k, hjk, hk, hbad, hlt⟩)
    · exact .inr (.inr ⟨j, le_rfl, hmore, fun hr => by have := hread.2 hr; omega, by omega⟩)
    · exact .inr (.inl hlt)
    · exact .inr (.inr ⟨k, by omega, hk, hbad, by omega⟩)
  · rintro (hlt | hlt | ⟨k, hjk, hk, hbad, hlt⟩)
    · omega
    · exact .inr (.inl hlt)
    · obtain rfl | hjk := Nat.eq_or_lt_of_le hjk
      · have hne : e ≠ off + (j + 1) * WRITEMAX := fun heq => hbad (hread.1 heq)
        exact .inl (by omega)
      · have := Nat.mul_le_mul_right WRITEMAX (show j + 2 ≤ k + 1 by omega)
        rw [Nat.succ_mul (j + 1)] at this
        have hpos : 0 < WRITEMAX := by decide
        exact .inr (.inr ⟨k, hjk, hk, hbad, by omega⟩)

/-! ### The loop -/

section Loop

variable {sb : Superblock} {R : Ip → ℕ} {W : Finset Ip} {ip : Ip} {n : Fin sb.ninodes}
  {c c' : List UInt8} {off pos : ℕ} {fs : Fs} {s : Kernel} {p : Pp} {f : Fp} {T : Table sb}
  {src : Source}

/-- The content of file `n`, which `ip` is the cache entry of, is `c`. -/
def Holding (sb : Superblock) (R : Ip → ℕ) (W : Finset Ip) (ip : Ip) (n : Fin sb.ninodes)
    (c : List UInt8) (fs : Fs) : Prop :=
  ∃ T : Table sb, FsInv T ∅ R ∅ W fs ∧ (fs.inode ip).inum = n ∧ content fs.blocks (T n) = c

theorem Holding.congr (h : Holding sb R W ip n c fs) (hb : fs'.blocks = fs.blocks)
    (hi : fs'.inode = fs.inode) : Holding sb R W ip n c fs' := by
  obtain ⟨T, hinv, hnum, hcontent⟩ := h
  refine ⟨T, ⟨?_, ?_⟩, ?_, ?_⟩
  · rw [hb]
    exact hinv.disk
  · rw [hi]
    exact hinv.cache
  · rw [hi, hnum]
  · rw [hb, hcontent]

theorem Holding.unlock (h : FsInv T ∅ R (insert ip ∅) W fs) (hnum : (fs.inode ip).inum = n)
    (hcontent : content fs.blocks (T n) = c) (hQ : ∀ fs', Holding sb R W ip n c fs' → Q ⟨⟩ fs') :
    wp (iunlock ip) E Q fs := by
  refine h.wp_iunlock (Finset.mem_insert_self ..) fun fs' hinv hb hnum' => hQ fs' ⟨T, ?_, ?_, ?_⟩
  · rwa [Finset.erase_insert (Finset.notMem_empty _)] at hinv
  · rw [hnum' ip ((h.cache.entry ip).held (Finset.mem_insert_self ..)).1, hnum]
  · rw [hb, hcontent]

/-- What a round makes of the content `c` that takes `len` bytes from `src` to `pos` and gets as far
as `e`. -/
structure Round (src : Source) (c : List UInt8) (pos len e : ℕ) (c' : List UInt8) : Prop where
  start : pos ≤ c.length
  fits : pos + len ≤ MAXFILE * BSIZE
  length : c'.length = max c.length e
  le : e ≤ pos + len
  copied : e = pos + len → ∀ i < len, src.Copies i
  given : ∀ data, src.Gives data 0 len →
    e = pos + len ∧ c' = overwrite c pos ((List.range len).map data)

/-- **One round**, from `ilock` to `iunlock`: it is refused and nothing changes, or it is taken. -/
theorem Holding.wp_round (h : Holding sb R W ip n c fs) (hr : 0 < R ip) {pos len : UInt32}
    (hlen : 0 < len.toNat) {Q : ℤ → Fs → Prop}
    (hrej : ∀ fs', c.length < pos.toNat ∨ MAXFILE * BSIZE < pos.toNat + len.toNat →
      Holding sb R W ip n c fs' → Q (-1) fs')
    (hok : ∀ e c' fs', Round src c pos.toNat len.toNat e c' → Holding sb R W ip n c' fs' →
      Q len.toNat fs') :
    wp (ilock sb ip) Tolerated (fun _ fs₁ => wp (writei sb ip src pos len) Tolerated
      (fun r fs₂ => wp (iunlock ip) Tolerated (fun _ fs₃ => Q r fs₃) fs₂) fs₁) fs := by
  obtain ⟨T, hinv, hnum, hcontent⟩ := h
  refine hinv.wp_ilock hr fun fs₁ _ hinv₁ hb₁ hnum₁ => ?_
  have hlive : Live R fs₁.inode ip n :=
    ⟨hr, (hnum₁ ip hr).trans hnum, ((hinv₁.cache.entry ip).held (Finset.mem_insert_self ..)).2⟩
  rw [← hb₁] at hcontent
  have hsize : (T n).size.toNat = c.length := by rw [← hcontent, content, length_bytesAt]
  refine wp_writei hinv₁ hlive tolerated_budget tolerated_avail (fun hbad => ?_)
    fun d e fs₂ hacc hlive₂ hw => ?_
  · refine Holding.unlock hinv₁ hlive.inum hcontent fun fs' h' => hrej fs' ?_ h'
    rcases hbad with hbad | hbad | hbad
    · rw [gt_iff_lt, UInt32.lt_iff_toNat_lt, hsize] at hbad
      exact .inl hbad
    · -- the sum of the offset and the length has wrapped around
      rw [UInt32.lt_iff_toNat_lt, UInt32.toNat_add] at hbad
      simp only [MAXFILE, BSIZE]
      omega
    · rw [UInt32.toNat_add] at hbad
      exact .inr (lt_of_lt_of_le hbad (Nat.mod_le ..))
  · refine Holding.unlock (T := update T n d) hw.inv hlive₂.inum rfl fun fs' h' =>
      hok e _ fs' ⟨?_, ?_, ?_, hw.le, hw.copied, fun data hsrc => ⟨(hw.inside data hsrc).1, ?_⟩⟩ h'
    · rw [← hsize]
      exact le_size_of_not_rejects hacc
    · rw [← toNat_add_of_not_lt fun hlt => hacc (.inr (.inl hlt))]
      exact Nat.le_of_not_lt fun hlt => hacc (.inr (.inr hlt))
    · rw [content, length_bytesAt, update_self, hw.size_eq, if_neg hlen.ne', hsize]
    · rw [update_self, ← hcontent]
      exact hw.content hsrc (le_size_of_not_rejects hacc)

theorem Round.end_of_reachable (hd : Distinct m root)
    (h : Round (userSrc m root (addr % 2 ^ 64)) c pos len e c')
    (hreach : Reachable m root (addr % 2 ^ 64) len) : e = pos + len := by
  obtain ⟨buf, rfl, hload⟩ := hreach.exists_buf hd
  have hgives := userSrc_gives (i := 0) hd hreach hload (Nat.zero_add _).le
  rw [Nat.add_zero, Nat.mod_mod] at hgives
  exact (h.given _ hgives).1

theorem filewriteFrom_end (fuel : ℕ) : filewriteFrom sb p f addr n' fuel n' = pure n' := by
  cases fuel with
  | zero => rfl
  | succ fuel => rw [filewriteFrom, if_neg (Nat.lt_irrefl n')]

/-- **The loop of `filewrite`** from round `j` on: it gets to the end exactly if it is not refused;
then `f->off` has moved on by what was left, and if the bytes could be read, all of them are in the
file. -/
theorem wp_filewriteFrom_rounds {m : Mem} {root N : ℕ} (hd : Distinct m root) (hr : 0 < R ip)
    (addr fuel i j : ℕ) (hij : i = j * WRITEMAX) (hi : i < N) (hfuel : N ≤ fuel + i)
    (hmem : s.mem = m) (hroot : (s.proc p).pagetable = some root) (hip : (s.file f).ip = ip)
    (hpos : (s.file f).off.toNat = off + i) (h : Holding sb R W ip n c s.fs) :
    wp (filewriteFrom sb p f addr N fuel i) Tolerated (fun r s' =>
      (r = N ↔ ¬Refused m root addr off N c.length j) ∧ (r = N → (s'.file f).off.toNat = off + N ∧
        ∀ buf : List UInt8, buf.length = N → Reachable m root addr N →
          m.load root addr N = buf.map some →
          Holding sb R W ip n (overwrite c (off + i) (buf.drop i)) s'.fs)) s := by
  induction fuel generalizing i j s c with
  | zero => omega
  | succ fuel ih =>
    simp only [filewriteFrom, wp_bind, wp_get, wp_ite, wp_pure, wp_throw, wp_deref hroot, wp_onFs,
      wp_setFile, hip, hmem]
    refine ⟨fun _ => ?_, fun hge => absurd hi hge⟩
    set k := min (N - i) WRITEMAX with hk
    have hkle : k ≤ N - i ∧ k ≤ 3072 := ⟨Nat.min_le_left .., Nat.min_le_right ..⟩
    have hkpos : 0 < k := lt_min (Nat.sub_pos_of_lt hi) (by decide)
    have hlen : (UInt32.ofNat k).toNat = k :=
      UInt32.toNat_ofNat_of_lt' (by simp only [UInt32.size]; omega)
    simp only [beginOp, wp_bind, wp_get, wp_ite, wp_throw, wp_set]
    refine ⟨fun _ => trivial, fun _ => ?_⟩
    have hopen : Holding sb R W ip n c { s.fs with outstanding := s.fs.outstanding + 1 } :=
      h.congr rfl rfl
    refine hopen.wp_round hr (by rwa [hlen]) (fun fs' hbad h' => ?_) fun e c' fs' hround h' => ?_
    · rw [hpos, hlen] at hbad
      have hrefused : Refused m root addr off N c.length j := by
        rcases hbad with hbad | hbad
        · exact .inl (hij ▸ hbad)
        · exact .inr (.inl (lt_of_lt_of_le hbad (by omega)))
      simp only [endOp, wp_modify]
      exact ⟨fun _ => ⟨⟨fun heq => absurd heq hi.ne, fun hnot => absurd hrefused hnot⟩,
        fun heq => absurd heq hi.ne⟩, fun hneg => absurd (by decide) hneg⟩
    rw [hpos, hlen] at hround
    have hnext : ((s.file f).off + UInt32.ofNat k).toNat = off + (i + k) := by
      have hfits : off + i + k < 2 ^ 32 := lt_of_le_of_lt hround.fits (by decide)
      rw [UInt32.toNat_add, hpos, hlen, Nat.mod_eq_of_lt hfits, Nat.add_assoc]
    have hread : ∀ buf : List UInt8, buf.length = N → Reachable m root addr N →
        m.load root addr N = buf.map some →
        c' = overwrite c (off + i) ((buf.drop i).take k) := by
      intro buf hbuf hreach hload
      rw [← hbuf] at hreach hload
      have hgives := userSrc_gives hd hreach hload (show i + k ≤ buf.length by omega)
      rw [(hround.given _ hgives).2, Shared.range_map_getD (by omega)]
    have hpos' : (0 : ℤ) < k := Int.natCast_pos.2 hkpos
    simp only [endOp, wp_modify, hlen, if_pos hpos', Int.toNat_natCast]
    refine ⟨fun hneg => absurd hneg (by omega), fun _ => ⟨fun hne => absurd rfl hne, fun _ => ?_⟩⟩
    by_cases hmore : i + WRITEMAX < N
    · -- another round follows
      have hkmax : k = WRITEMAX := Nat.min_eq_right (Nat.le_sub_of_add_le' hmore.le)
      have hsucc : i + k = (j + 1) * WRITEMAX := by rw [hkmax, hij, Nat.succ_mul]
      have hmore' : (j + 1) * WRITEMAX < N := by rwa [← hsucc, hkmax]
      have hend : off + i + k = off + (j + 1) * WRITEMAX := by rw [← hsucc, Nat.add_assoc]
      have hiff : off + (j + 1) * WRITEMAX = e ↔
          Reachable m root ((addr + j * WRITEMAX) % 2 ^ 64) WRITEMAX := by
        rw [← hend, ← hij, ← hkmax]
        exact ⟨fun heq => reachable_of_copies hd (Nat.mod_lt _ (by decide))
          (hround.copied heq.symm), fun hreach => (hround.end_of_reachable hd hreach).symm⟩
      have hstep := refused_succ (hij ▸ hround.start) hmore' hround.length (hend ▸ hround.le)
        (eq_comm.trans hiff)
      refine wp_mono (ih (c := c') (i + k) (j + 1) hsucc ?_ (by omega) rfl hroot ?_ ?_
        (h'.congr rfl rfl)) ?_
      · rwa [hkmax]
      · simp only [update_self]
      · simp only [update_self]
        exact hnext
      rintro r s' ⟨hret, hdone⟩
      refine ⟨hret.trans (not_congr hstep),
        fun heq => ⟨(hdone heq).1, fun buf hbuf hreach hload => ?_⟩⟩
      have hall := (hdone heq).2 buf hbuf hreach hload
      have htake : ((buf.drop i).take k).length = k := by
        rw [List.length_take, List.length_drop]
        omega
      have hone := Shared.overwrite_overwrite (a := (buf.drop i).take k) (b := (buf.drop i).drop k)
        hround.start
      rw [htake, List.take_append_drop, Nat.add_assoc] at hone
      rwa [hread buf hbuf hreach hload, ← List.drop_drop, hone] at hall
    · -- the last round
      have hkmax : k = N - i := Nat.min_eq_left (by omega)
      have hkend : i + k = N := by omega
      have hfits : off + N ≤ MAXFILE * BSIZE := by
        rw [← hkend, ← Nat.add_assoc]
        exact hround.fits
      have hlast : N ≤ (j + 1) * WRITEMAX := by
        rw [Nat.succ_mul, ← hij]
        exact Nat.le_of_not_lt hmore
      rw [hkend] at hnext ⊢
      rw [filewriteFrom_end, wp_pure]
      refine ⟨iff_of_true rfl (not_refused_last (hij ▸ hround.start) hfits hlast),
        fun _ => ⟨by simpa only [update_self] using hnext, fun buf hbuf hreach hload => ?_⟩⟩
      have htake : (buf.drop i).take k = buf.drop i :=
        List.take_of_length_le (by rw [List.length_drop]; omega)
      rw [hread buf hbuf hreach hload, htake] at h'
      exact h'.congr rfl rfl

/-- **`filewrite` on an inode** returns `n` or -1, and -1 exactly if it is refused. -/
theorem wp_filewrite_inode {m : Mem} {N : ℤ} (hd : Distinct m root) (hr : 0 < R (s.file f).ip)
    (addr : ℕ) (hN : 0 < N) (hmem : s.mem = m) (hroot : (s.proc p).pagetable = some root)
    (ht : (s.file f).type = .inode) (hoff : (s.file f).off.toNat = off)
    (h : Holding sb R W (s.file f).ip n c s.fs) :
    wp (filewrite sb p f addr N) Tolerated (fun r s' => (r = N ∨ r = -1) ∧
      (r = -1 ↔ (s.file f).writable = false ∨ Refused m root addr off N.toNat c.length 0) ∧
      (r = N → (s'.file f).off.toNat = off + N.toNat ∧
        ∀ buf : List UInt8, buf.length = N.toNat → Reachable m root addr N.toNat →
          m.load root addr N.toNat = buf.map some →
          Holding sb R W (s.file f).ip n (overwrite c off buf) s'.fs)) s := by
  have hloop := wp_filewriteFrom_rounds hd hr addr N.toNat 0 0 (Nat.zero_mul _).symm (by omega)
    (Nat.add_zero _).ge hmem hroot rfl hoff h
  simp only [filewrite, wp_bind, wp_get, wp_ite, wp_pure, ht]
  refine ⟨fun hw => ⟨.inr trivial, iff_of_true trivial (.inl hw), fun heq => by omega⟩,
    fun hw => wp_mono hloop fun i s' h' => ?_⟩
  obtain ⟨hret, hdone⟩ := h'
  by_cases hfull : (i : ℤ) = N
  · have hi : i = N.toNat := by omega
    rw [if_pos hfull]
    refine ⟨.inl rfl, iff_of_false (by omega) ?_, fun _ => hdone hi⟩
    rintro (hw' | hbad)
    · exact hw hw'
    · exact hret.1 hi hbad
  · have hi : i ≠ N.toNat := by omega
    rw [if_neg hfull]
    exact ⟨.inr rfl, iff_of_true rfl (.inr (not_not.1 fun hnot => hi (hret.2 hnot))),
      fun heq => by omega⟩

end Loop

/-! ### `filewrite` -/

theorem window_overwrite {c buf : List UInt8} {off : ℕ} (h : off ≤ c.length) :
    window (overwrite c off buf) off buf.length = buf := by
  have hlen : (c.take off).length = off := List.length_take_of_le h
  rw [window, overwrite, List.append_assoc, List.drop_append_of_le_length hlen.ge,
    List.drop_eq_nil_of_le hlen.le, List.nil_append, List.take_left]

/-- **What `filewrite` reports**, for a call that returned `r`: if it is no error, it is `n`, the
offset has advanced by `n`, the `n` bytes of the file from the old offset on are those of the user,
and the offset is not behind the end of the file; and if the bytes could not all be read, it is an
error or less than `n`. -/
def Reports (sb : Superblock) (f : Fp) (root addr : ℕ) (n : ℤ) (s : Kernel) (r : ℤ) (s' : Kernel) :
    Prop :=
  (0 ≤ r → r = n ∧ (s'.file f).off.toNat = (s.file f).off.toNat + n.toNat ∧
    ∃ d, d = dinodeAt sb s'.fs.blocks (s.fs.inode (s.file f).ip).inum ∧
      (window (content s'.fs.blocks d) (s.file f).off.toNat n.toNat).map some =
        s.mem.load root addr n.toNat ∧ (s'.file f).off.toNat ≤ d.size.toNat) ∧
  (¬Reachable s.mem root addr n.toNat → r < n)

/-- **A write reports what it stored** if and only if the user's bytes can be read, or the write is
refused: the file is not open for writing, or a round of the write is refused. -/
theorem write_stores {b : Board} {sb : Superblock} {K : Multiset ℕ} {P : Finset ℕ} {s s' : Kernel}
    {p : Pp} {f : Fp} {root addr : ℕ} {n r : ℤ} (hk : KInv b (Inv sb) K P s)
    (hroot : (s.proc p).pagetable = some root) (ht : (s.file f).type = .inode) (hn : 0 < n)
    (hrun : (filewrite sb p f addr n).run s = .ok (r, s')) :
    Reports sb f root addr n s r s' ↔
      Reachable s.mem root addr n.toNat ∨ (s.file f).writable = false ∨
        Refused s.mem root addr (s.file f).off.toNat n.toNat
          (dinodeAt sb s.fs.blocks (s.fs.inode (s.file f).ip).inum).size.toNat 0 := by
  obtain ⟨tf, htf, -⟩ := hk.mem.ok p root hroot
  have hd : Distinct s.mem root := (hk.mem.space hroot htf).distinct b.managed
  have href : 0 < irefs s.file s.proc (s.file f).ip := irefs_pos_of_type _ (.inl ht)
  obtain ⟨T, hinv, -⟩ := hk.fs
  have hnum := ((hinv.cache.entry (s.file f).ip).num href).2
  set num : Fin sb.ninodes := ⟨_, hnum⟩
  set d := dinodeAt sb s.fs.blocks (s.fs.inode (s.file f).ip).inum with hd₀
  have hsize : d.size.toNat = (content s.fs.blocks d).length := by rw [content, length_bytesAt]
  have hheld : Holding sb (irefs s.file s.proc) (pins s.file) (s.file f).ip num
      (content s.fs.blocks d) s.fs :=
    ⟨T, hinv, rfl, by rw [hd₀, ← hinv.disk.disk num (Set.notMem_empty num)]⟩
  have hwp := wp_filewrite_inode hd href addr hn rfl hroot ht rfl hheld
  rw [← hsize] at hwp
  obtain ⟨hval, hneg, hdone⟩ := (wp_of_run_ok hrun).1 hwp
  constructor
  · rintro ⟨-, hshort⟩
    by_cases hreach : Reachable s.mem root addr n.toNat
    · exact .inl hreach
    · have hlt := hshort hreach
      exact .inr (hneg.1 (hval.resolve_left hlt.ne))
  · intro hcond
    by_cases hret : r = -1
    · exact ⟨fun hr => by omega, fun _ => by omega⟩
    have hreach := hcond.resolve_right fun hbad => hret (hneg.2 hbad)
    have heq := hval.resolve_right hret
    refine ⟨fun _ => ⟨heq, (hdone heq).1, ?_⟩, fun hnot => absurd hreach hnot⟩
    obtain ⟨buf, hlen, hload⟩ := hreach.exists_buf hd
    obtain ⟨T', hinv', -, hcontent⟩ := (hdone heq).2 buf hlen hreach hload
    have hoff : (s.file f).off.toNat ≤ (content s.fs.blocks d).length := by
      rw [← hsize]
      exact Nat.le_of_not_lt fun hlt => hret (hneg.2 (.inr (.inl (by rwa [Nat.zero_mul]))))
    refine ⟨T' num, (hinv'.disk.disk num (Set.notMem_empty num)).symm, ?_, ?_⟩
    · rw [hcontent, ← hlen, window_overwrite hoff, hlen, hload]
    · have hsize' : (T' num).size.toNat = (content s'.fs.blocks (T' num)).length := by
        rw [content, length_bytesAt]
      rw [hsize', hcontent, Shared.length_overwrite hoff, (hdone heq).1, hlen]
      exact le_max_right ..

theorem write_stores_byte : ∃ (P : Finset ℕ) (s s' : Kernel) (root : ℕ),
    KInv tinyBoard (Inv mkfsSb) 0 P s ∧ (s.proc 0).pagetable = some root ∧
    (s.file 0).type = .inode ∧ Reachable s.mem root 2048 (1 : ℤ).toNat ∧
    (filewrite mkfsSb 0 0 2048 1).run s = .ok (1, s') ∧ Reports mkfsSb 0 root 2048 1 s 1 s' := by
  obtain ⟨s₀, s, hboot, hreach, htype, hcopy, hwrite⟩ :=
    exists_after_boot mkfsImage openRun (fun s =>
    (s.file 0).type = .inode ∧
      (s.proc 0).pagetable.map (fun root => (s.mem.copyin root 2048 1).2) = some true ∧
      wp (filewrite mkfsSb 0 0 2048 1) (fun _ => False) (fun r _ => r = 1) s) (by decide +kernel)
  obtain ⟨P, hk⟩ :=
    KInv.reach inv_rules mkfsImage_consistent.inv tinyMem_owns (by decide) hboot hreach
  obtain ⟨root, hroot, hcopy⟩ := Option.map_eq_some_iff.1 hcopy
  obtain ⟨r, s', hwrite, rfl⟩ := exists_run_of_wp hwrite
  obtain ⟨tf, htf, -⟩ := hk.mem.ok 0 root hroot
  have hrange : Reachable s.mem root 2048 (1 : ℤ).toNat :=
    (copyinFrom_spec 1 2048 ((hk.mem.space hroot htf).distinct tinyBoard.managed) le_rfl).1.1 hcopy
  exact ⟨P, s, s', root, hk, hroot, htype, hrange, hwrite,
    (write_stores hk hroot htype (by decide) hwrite).2 (.inl hrange)⟩

/-- **A write from a bad address returns its length.**  Address 8192 is not mapped; the write of one
byte returns 1, the file is still empty, and `f->off` is behind its end. -/
theorem bad_write_returns_length : ∃ s₀ s s' : Kernel, Boots tinyBoard mkfsSb mkfsImage tinyMem s₀ ∧
    Reach (Kernel.step tinyBoard mkfsSb) Kernel.Calls s₀ s ∧ (s.proc 0).Live ∧
    (s.file 0).type = .inode ∧
    (s.proc 0).pagetable.map (fun root => (s.mem.copyin root 8192 1).2) = some false ∧
    (filewrite mkfsSb 0 0 8192 1).run s = .ok (1, s') ∧ (s'.file 0).off = 1 ∧
    (dinodeAt mkfsSb s'.fs.blocks (s.fs.inode (s.file 0).ip).inum).size = 0 := by
  obtain ⟨s₀, s, hboot, hreach, hlive, htype, hbad, hwrite⟩ :=
    exists_after_boot mkfsImage openRun (fun s =>
    (s.proc 0).Live ∧ (s.file 0).type = .inode ∧
      (s.proc 0).pagetable.map (fun root => (s.mem.copyin root 8192 1).2) = some false ∧
      wp (filewrite mkfsSb 0 0 8192 1) (fun _ => False) (fun r s' => r = 1 ∧ (s'.file 0).off = 1 ∧
        (dinodeAt mkfsSb s'.fs.blocks (s.fs.inode (s.file 0).ip).inum).size = 0) s)
        (by decide +kernel)
  obtain ⟨r, s', hwrite, rfl, hoff, hsize⟩ := exists_run_of_wp hwrite
  exact ⟨s₀, s, s', hboot, hreach, hlive, htype, hbad, hwrite, hoff, hsize⟩

end Xv6
