/-
# The redo log is crash-atomic

A power cut after any prefix of the writes of `commit`, and after any prefix of any number of
recoveries, leaves nothing half done.  The invariant is `Redo`: the log blocks hold the contents of
the home blocks that the header lists, and copying them gives the disk that recovery must produce.
-/

import Xv6.Log.Disk

namespace Xv6
namespace Log

open Lib Function

variable {lh : List ℕ} {d v : Disk} {ws : List (ℕ × Block)}

theorem Region.mem_start (log : Region) : log.Mem log.start := by
  have := log.pos
  exact ⟨le_rfl, by omega⟩

theorem Region.ne_start {log : Region} {b : ℕ} (h : ¬ log.Mem b) : b ≠ log.start :=
  fun hs => h (hs ▸ log.mem_start)

/-! ### The header block -/

theorem u32_putBlocks_of_lt (b : Block) (i : ℕ) (xs : List ℕ) (hp : p + 4 ≤ 4 + 4 * i) :
    u32 (putBlocks b i xs) p = u32 b p := by
  induction xs generalizing b i with
  | nil => rfl
  | cons x xs ih =>
    rw [putBlocks, ih _ _ (by omega)]
    exact Bytes.field_setField_of_disjoint 4 4 b (.inl hp)

theorem u32_putBlocks (b : Block) (i : ℕ) (xs : List ℕ) (hi : i + xs.length ≤ LOGSIZE)
    (hx : ∀ x ∈ xs, x < 2 ^ 32) (hk : k < xs.length) :
    u32 (putBlocks b i xs) (4 + 4 * (i + k)) = xs[k] := by
  induction xs generalizing b i k with
  | nil => exact absurd hk (Nat.not_lt_zero _)
  | cons x xs ih =>
    rw [List.length_cons] at hi hk
    rw [putBlocks]
    cases k with
    | zero =>
      have := LOGSIZE_eq
      have := BSIZE_eq
      rw [u32_putBlocks_of_lt _ _ _ (by omega)]
      exact Bytes.field_setField 4 b (by omega) (hx x List.mem_cons_self)
    | succ k =>
      have h := ih (b.setField 4 (4 + 4 * i) x) (i + 1) (by omega) (fun y hy => hx y (.tail _ hy))
        (k := k) (by omega)
      rw [show i + (k + 1) = i + 1 + k by omega, h]
      rfl

theorem headN_putHead (b : Block) (hn : lh.length ≤ LOGSIZE) :
    headN (putHead b lh) = lh.length := by
  have := LOGSIZE_eq
  have := BSIZE_eq
  have h : u32 (putHead b lh) 0 = lh.length := by
    rw [putHead, u32_putBlocks_of_lt _ _ _ (by omega)]
    exact Bytes.field_setField 4 b (by omega) (by omega)
  rw [headN, h, int32_of_lt (by omega)]

/-- **`read_head` reads back what `write_head` wrote.** -/
theorem headBlocks_putHead (b : Block) (hn : lh.length ≤ LOGSIZE)
    (hx : ∀ x ∈ lh, x < 2 ^ 32) : headBlocks (putHead b lh) = lh := by
  rw [headBlocks, headN_putHead b hn, Int.toNat_natCast]
  refine List.ext_getElem (by simp) fun i h₁ h₂ => ?_
  rw [List.getElem_map, List.getElem_range]
  have h := u32_putBlocks (b.setField 4 0 lh.length) 0 lh (by omega) hx h₂
  rwa [Nat.zero_add] at h

theorem headBlocks_eq_nil (h : headN b = 0) : headBlocks b = [] := by
  simp [headBlocks, h]

/-! ### The writes of each function -/

/-- The machine after block writes `ws`, each of the block as it is cached. -/
def Machine.written (m : Machine) (ws : List (ℕ × Block)) : Machine :=
  { m with cache := applyWrites m.cache ws, trace := m.trace ++ ws }

theorem Machine.written_written (m : Machine) (ws vs : List (ℕ × Block)) :
    (m.written ws).written vs = m.written (ws ++ vs) := by
  simp only [Machine.written, applyWrites_append, List.append_assoc]

theorem Machine.bwrite_memmove (m : Machine) (dst src : ℕ) :
    (m.memmove dst src).bwrite dst = m.written [(dst, m.cache src)] := by
  simp [Machine.bwrite, Machine.memmove, Machine.written]

theorem writeHead_eq (log : Region) (m : Machine) :
    writeHead log m = m.written [(log.start, putHead (m.cache log.start) m.lh)] := by
  simp [writeHead, Machine.bwrite, Machine.written]

/-- Each pair is a block and the one whose contents are copied into it, and then written. -/
def Machine.copies (m : Machine) (ps : List (ℕ × ℕ)) : Machine :=
  ps.foldl (fun m p => (m.memmove p.1 p.2).bwrite p.1) m

/-- **Copies that do not change what is copied.** -/
theorem Machine.copies_eq (m : Machine) {ps : List (ℕ × ℕ)} (h : ∀ p ∈ ps, ∀ q ∈ ps, q.2 ≠ p.1) :
    m.copies ps = m.written (ps.map fun p => (p.1, m.cache p.2)) := by
  induction ps generalizing m with
  | nil => simp [Machine.copies, Machine.written]
  | cons p ps ih =>
    have hcache : ps.map (fun q => (q.1, (m.written [(p.1, m.cache p.2)]).cache q.2)) =
        ps.map fun q => (q.1, m.cache q.2) := by
      refine List.map_congr_left fun q hq => ?_
      simp [Machine.written, update_of_ne (h p (.head _) q (.tail _ hq))]
    have hrest := ih (m.written [(p.1, m.cache p.2)]) fun p hp q hq => h p (.tail _ hp) q
      (.tail _ hq)
    rw [Machine.copies, List.foldl_cons, Machine.bwrite_memmove]
    exact hrest.trans (by rw [hcache, Machine.written_written]; rfl)

/-- The `n` log blocks from index `tail` on. -/
def logBlocks (log : Region) (tail n : ℕ) : List ℕ := (List.range' tail n).map (log.start + · + 1)

/-- The first log blocks, holding the blocks `vs`. -/
def logWrites (log : Region) (vs : List Block) : List (ℕ × Block) :=
  (logBlocks log 0 vs.length).zip vs

variable {log : Region}

theorem writeLogFrom_eq (tail : ℕ) (bs : List ℕ) (m : Machine) :
    writeLogFrom log tail bs m = m.copies ((logBlocks log tail bs.length).zip bs) := by
  induction bs generalizing tail m with
  | nil => rfl
  | cons b bs ih =>
    rw [writeLogFrom, ih]
    rfl

theorem installTransFrom_eq (tail : ℕ) (bs : List ℕ) (m : Machine) :
    installTransFrom log tail bs m = m.copies (bs.zip (logBlocks log tail bs.length)) := by
  induction bs generalizing tail m with
  | nil => rfl
  | cons b bs ih =>
    rw [installTransFrom, ih]
    rfl

theorem mem_logBlocks {n : ℕ} (h : n + 1 ≤ log.size) (hb : b ∈ logBlocks log 0 n) :
    log.Mem b ∧ b ≠ log.start := by
  obtain ⟨i, hi, rfl⟩ := List.mem_map.1 hb
  rw [List.mem_range'_1] at hi
  exact ⟨⟨by omega, by omega⟩, by omega⟩

theorem logWrites_fst (h : vs.length + 1 ≤ log.size) (hw : w ∈ logWrites log vs) :
    log.Mem w.1 ∧ w.1 ≠ log.start := mem_logBlocks h (List.of_mem_zip hw).1

@[simp] theorem length_logWrites (vs : List Block) : (logWrites log vs).length = vs.length := by
  simp [logWrites, logBlocks]

theorem applyWrites_logWrites (d : Disk) (vs : List Block) (hi : i < vs.length) :
    applyWrites d (logWrites log vs) (log.start + i + 1) = vs[i] := by
  have hi' : i < (logWrites log vs).length := by rwa [length_logWrites]
  have hget : (logWrites log vs)[i] = (log.start + i + 1, vs[i]) := by simp [logWrites, logBlocks]
  have hnodup : ((logWrites log vs).map Prod.fst).Nodup := by
    rw [logWrites, List.map_fst_zip (by simp [logBlocks])]
    exact List.Nodup.map (fun i j hij => by simpa using hij) List.nodup_range'
  have happly := applyWrites_of_mem (d := d) hnodup (List.getElem_mem hi')
  rwa [hget] at happly

/-- **The writes of `write_log`.**  The modified blocks lie outside the log, so
copying one does not change another. -/
theorem writeLog_eq (m : Machine) (h : m.lh.length + 1 ≤ log.size) (hb : ∀ b ∈ m.lh, ¬ log.Mem b) :
    writeLog log m = m.written (logWrites log (m.lh.map m.cache)) := by
  rw [writeLog, writeLogFrom_eq, m.copies_eq, logWrites, List.length_map, List.zip_map_right]
  · rfl
  · rintro p hp q hq heq
    exact hb _ (List.of_mem_zip hq).2 (heq ▸ (mem_logBlocks h (List.of_mem_zip hp).1).1)

/-- **The writes of `install_trans`.**  Home blocks lie outside the log, so
installing one does not change the log block of another. -/
theorem installTrans_eq (m : Machine) (hlh : m.lh = ws.map Prod.fst)
    (hfits : ws.length + 1 ≤ log.size)
    (hlogged : ∀ i (hi : i < ws.length), m.cache (log.start + i + 1) = ws[i].2)
    (hhome : ∀ w ∈ ws, ¬ log.Mem w.1) : installTrans log m = m.written ws := by
  rw [installTrans, installTransFrom_eq, hlh, List.length_map, m.copies_eq]
  · congr 1
    refine List.ext_getElem (by simp [logBlocks]) fun i h₁ h₂ => ?_
    simp [logBlocks, hlogged i h₂]
  · rintro p hp q hq heq
    obtain ⟨w, hw, hwp⟩ := List.mem_map.1 (List.of_mem_zip hp).1
    exact hhome w hw (hwp ▸ heq ▸ (mem_logBlocks hfits (List.of_mem_zip hq).2).1)

/-! ### What recovery finds -/

/-- The log of disk `d` redoes `ws`, and doing so gives the blocks of `v`. -/
structure Redo (log : Region) (d : Disk) (ws : List (ℕ × Block)) (v : Disk) : Prop where
  head : headBlocks (d log.start) = ws.map Prod.fst
  logged : ∀ i (hi : i < ws.length), d (log.start + i + 1) = ws[i].2
  fits : ws.length + 1 ≤ log.size
  home : ∀ w ∈ ws, ¬ log.Mem w.1
  gives : ∀ b, ¬ log.Mem b → applyWrites d ws b = v b

theorem redo_nil (hd : headBlocks (d log.start) = []) (hv : ∀ b, ¬ log.Mem b → d b = v b) :
    Redo log d [] v :=
  ⟨hd, by simp, log.pos, by simp, hv⟩

theorem headN_putHead_nil (b : Block) : headN (putHead b []) = 0 := headN_putHead b (by simp)

theorem Redo.not_mem_start (h : Redo log d ws v) : ∀ w ∈ ws, w.1 ≠ log.start :=
  fun w hw => Region.ne_start (h.home w hw)

/-- **The writes of `recover_from_log`**: the logged blocks, then the cleared header. -/
theorem Redo.trace_recover (h : Redo log d ws v) :
    (recoverFromLog log (boot d)).trace = ws ++ [(log.start, putHead (d log.start) [])] := by
  have hinst : installTrans log (readHead log (boot d)) = (readHead log (boot d)).written ws :=
    installTrans_eq _ h.head h.fits h.logged h.home
  rw [recoverFromLog, hinst, writeHead_eq]
  simp only [Machine.written, readHead, boot, List.nil_append]
  rw [applyWrites_of_not_mem h.not_mem_start]

/-- **A cut recovery can be recovered.**  Cut before the header is cleared, the log
redoes the same writes over some of them; cut after it, nothing is left to do. -/
theorem Redo.cutRecovery (h : Redo log d ws v) (c : ℕ) :
    ∃ ws', Redo log (cutRecovery log d c) ws' v := by
  rw [Log.cutRecovery, h.trace_recover]
  rcases Nat.lt_or_ge ws.length c with hc | hc
  · have htake : (ws ++ [(log.start, putHead (d log.start) [])]).take c =
        ws ++ [(log.start, putHead (d log.start) [])] :=
      List.take_of_length_le (by simpa [Nat.succ_le_iff] using hc)
    rw [htake]
    refine ⟨[], redo_nil (headBlocks_eq_nil ?_) fun b hb => ?_⟩
    · rw [applyWrites_append, applyWrites_cons, applyWrites_nil, update_self]
      exact headN_putHead_nil _
    · rw [applyWrites_append, applyWrites_cons, applyWrites_nil, update_of_ne (Region.ne_start hb)]
      exact h.gives b hb
  · rw [List.take_append_of_le_length hc]
    have hout : ∀ b, log.Mem b → applyWrites d (ws.take c) b = d b := fun b hb =>
      applyWrites_of_not_mem fun w hw hwb => h.home w (List.mem_of_mem_take hw) (hwb ▸ hb)
    refine ⟨ws, ?_, fun i hi => ?_, h.fits, h.home, fun b hb => ?_⟩
    · rw [hout _ log.mem_start, h.head]
    · rw [hout _ ⟨by omega, by have := h.fits; omega⟩, h.logged i hi]
    · rw [applyWrites_replay, h.gives b hb]

theorem exists_redo_cuts (h : Redo log d ws v)
    (cuts : List ℕ) : ∃ ws', Redo log (cuts.foldl (Log.cutRecovery log) d) ws' v := by
  induction cuts generalizing d ws with
  | nil => exact ⟨ws, h⟩
  | cons c cuts ih =>
    obtain ⟨ws', h'⟩ := h.cutRecovery c
    exact ih h'

/-- **A completed recovery gives the redone disk, with a clean log.** -/
theorem Redo.recoveries (h : Redo log d ws v) (cuts : List ℕ) : headN
    (recoveries log cuts d log.start) = 0 ∧ ∀ b, ¬ log.Mem b → recoveries log cuts d b = v b := by
  obtain ⟨ws', h'⟩ := exists_redo_cuts h cuts
  rw [Log.recoveries, recovery, h'.trace_recover, applyWrites_append, applyWrites_cons,
    applyWrites_nil]
  refine ⟨by rw [update_self]; exact headN_putHead_nil _, fun b hb => ?_⟩
  rw [update_of_ne (Region.ne_start hb)]
  exact h'.gives b hb

/-! ### What a commit writes -/

def Tx.data (t : Tx log) : List Block := t.writes.map Prod.snd

theorem Tx.cache_logged (t : Tx log) (m : Machine) :
    (t.writes.map Prod.fst).map (t.logged m).cache = t.data := by
  rw [Tx.data, List.map_map]
  exact List.map_congr_left fun w hw => applyWrites_of_mem t.nodup hw

theorem Tx.length_data (t : Tx log) : t.data.length = t.writes.length := by simp [Tx.data]

/-- The block writes of `commit` for a transaction on a disk `d`: the log, the
committing header, the home blocks, the cleared header. -/
def Tx.commitWrites (t : Tx log) (d : Disk) : List (ℕ × Block) :=
  let head := putHead (d log.start) (t.writes.map Prod.fst)
  logWrites log t.data ++ ((log.start, head) :: (t.writes ++ [(log.start, putHead head [])]))

section

variable (t : Tx log)
include t

theorem Tx.not_mem_start : ∀ w ∈ t.writes, w.1 ≠ log.start :=
  fun w hw => Region.ne_start (t.home w hw)

theorem Tx.logWrites_fits : t.data.length + 1 ≤ log.size := by
  rw [t.length_data]
  exact t.fits

theorem Tx.logWrites_ne_start : ∀ w ∈ logWrites log t.data, w.1 ≠ log.start :=
  fun _ hw => (logWrites_fst t.logWrites_fits hw).2

theorem Tx.home_map : ∀ b ∈ t.writes.map Prod.fst, ¬ log.Mem b := by
  intro b hb
  obtain ⟨w, hw, rfl⟩ := List.mem_map.1 hb
  exact t.home w hw

theorem writeHead_writeLog (m : Machine) :
    writeHead log (writeLog log (t.logged m)) = (t.logged m).written
    (logWrites log t.data ++
      [(log.start, putHead (m.cache log.start) (t.writes.map Prod.fst))]) := by
  have hlog : writeLog log (t.logged m) = (t.logged m).written (logWrites log t.data) := by
    rw [← t.cache_logged m]
    exact writeLog_eq _ (by simpa [Tx.logged] using t.fits) t.home_map
  have hstart : ((t.logged m).written (logWrites log t.data)).cache log.start =
      m.cache log.start := by
    simp only [Machine.written, Tx.logged]
    rw [applyWrites_of_not_mem t.logWrites_ne_start, applyWrites_of_not_mem t.not_mem_start]
  rw [hlog, writeHead_eq, hstart, Machine.written_written]
  rfl

theorem installTrans_written (m : Machine) (head : Block) :
    installTrans log ((t.logged m).written (logWrites log t.data ++ [(log.start, head)])) =
      (t.logged m).written (logWrites log t.data ++ [(log.start, head)] ++ t.writes) := by
  rw [installTrans_eq _ rfl t.fits (fun i hi => ?_) t.home, Machine.written_written]
  simp only [Machine.written, applyWrites_append, applyWrites_cons, applyWrites_nil]
  rw [update_of_ne (by omega), applyWrites_logWrites _ _ (by rwa [t.length_data])]
  simp [Tx.data]

theorem Tx.logWrites_ne (hb : ¬ log.Mem b) : ∀ w ∈ logWrites log t.data, w.1 ≠ b := by
  rintro w hw rfl
  exact hb (logWrites_fst t.logWrites_fits hw).1

/-- **The writes of `commit`.** -/
theorem commit_logged (m : Machine) (ht : t.writes ≠ []) : commit log (t.logged m) =
      { (t.logged m).written (t.commitWrites m.cache) with lh := [] } := by
  have hlh : (t.logged m).lh ≠ [] := by simpa [Tx.logged] using ht
  set head := putHead (m.cache log.start) (t.writes.map Prod.fst) with hhead
  have hclear : applyWrites (t.logged m).cache
      (logWrites log t.data ++ [(log.start, head)] ++ t.writes) log.start = head := by
    rw [applyWrites_append, applyWrites_of_not_mem t.not_mem_start, applyWrites_append]
    simp
  rw [commit, if_neg hlh, writeHead_writeLog, ← hhead, installTrans_written, writeHead_eq]
  simp only [Machine.written, hclear, Tx.commitWrites, ← hhead]
  simp only [applyWrites_append, List.append_assoc, List.cons_append, List.nil_append,
    applyWrites_cons, applyWrites_nil]

theorem cache_commit_logged (m : Machine) (ht : t.writes ≠ []) :
    (commit log (t.logged m)).cache = applyWrites m.cache (t.commitWrites m.cache) := by
  rw [commit_logged t m ht]
  funext b
  refine applyWrites_congr ?_
  by_cases hb : ∃ w ∈ t.writes, w.1 = b
  · obtain ⟨w, hw, hwb⟩ := hb
    exact .inl ⟨w, by simp [Tx.commitWrites, hw], hwb⟩
  · exact .inr (applyWrites_of_not_mem fun w hw hwb => hb ⟨w, hw, hwb⟩)

end

/-! ### Counting commits -/

/-- The number of committing header writes in a list of block writes. -/
def commits (log : Region) (ws : List (ℕ × Block)) : ℕ := ws.countP fun w => IsCommit log w

theorem commits_append (ws vs : List (ℕ × Block)) :
    commits log (ws ++ vs) = commits log ws + commits log vs := List.countP_append

theorem commits_eq_zero (h : ∀ w ∈ ws, w.1 ≠ log.start) : commits log ws = 0 := by
  refine List.countP_eq_zero.2 fun w hw hc => h w hw ?_
  exact (of_decide_eq_true hc).1

theorem isCommit_head (t : Tx log) (ht : t.writes ≠ []) (b : Block) :
    IsCommit log (log.start, putHead b (t.writes.map Prod.fst)) := by
  refine ⟨rfl, ?_⟩
  rw [headN_putHead _ (by simpa using t.fitsHeader), List.length_map]
  have := List.length_pos_iff.2 ht
  omega

theorem not_isCommit_clear (b : Block) : ¬ IsCommit log (log.start, putHead b []) := by
  rintro ⟨-, h⟩
  rw [headN_putHead_nil] at h
  omega

theorem redo_committed (t : Tx log) (hv : ∀ b, ¬ log.Mem b → d b = v b) (p : ℕ) :
    Redo log (applyWrites d (logWrites log t.data ++
      ((log.start, putHead (d log.start) (t.writes.map Prod.fst)) :: t.writes.take p)))
      t.writes (applyWrites v t.writes) := by
  set head := putHead (d log.start) (t.writes.map Prod.fst)
  have hmem :
    ∀ b, log.Mem b →
    applyWrites d (logWrites log t.data ++ ((log.start, head) :: t.writes.take p)) b =
        update (applyWrites d (logWrites log t.data)) log.start head b := by
    intro b hb
    rw [applyWrites_append, applyWrites_cons, applyWrites_of_not_mem]
    exact fun w hw hwb => t.home w (List.mem_of_mem_take hw) (hwb ▸ hb)
  refine ⟨?_, fun i hi => ?_, t.fits, t.home, fun b hb => ?_⟩
  · rw [hmem _ log.mem_start, update_self, headBlocks_putHead _ (by simpa using t.fitsHeader)]
    intro x hx
    obtain ⟨w, hw, rfl⟩ := List.mem_map.1 hx
    exact t.uint w hw
  · have hf := t.fits
    rw [hmem _ ⟨by omega, by omega⟩, update_of_ne (by omega)]
    rw [applyWrites_logWrites _ _ (by rwa [t.length_data])]
    simp [Tx.data]
  · rw [applyWrites_append, applyWrites_cons, applyWrites_replay]
    refine applyWrites_congr (.inr ?_)
    rw [update_of_ne (Region.ne_start hb), applyWrites_of_not_mem (t.logWrites_ne hb), hv b hb]

/-- The writes of a commit up to the `p`-th home block hold one committing header. -/
theorem commits_installing (t : Tx log) (ht : t.writes ≠ []) (b : Block) (p : ℕ) : commits log
    (logWrites log t.data ++ ((log.start, putHead b (t.writes.map Prod.fst)) :: t.writes.take p)) =
    1 := by
  have hone : commits log [(log.start, putHead b (t.writes.map Prod.fst))] = 1 := by
    simp [commits, isCommit_head t ht]
  rw [← List.singleton_append, commits_append, commits_append, hone,
    commits_eq_zero t.logWrites_ne_start, commits_eq_zero fun w hw => t.not_mem_start w
    (List.mem_of_mem_take hw)]

theorem commits_commitWrites (t : Tx log) (ht : t.writes ≠ []) (d : Disk) :
    commits log (t.commitWrites d) = 1 := by
  set head := putHead (d log.start) (t.writes.map Prod.fst) with hhead
  have hclear : commits log [(log.start, putHead head [])] = 0 := by
    simp [commits, not_isCommit_clear]
  have hrest := commits_installing t ht (d log.start) t.writes.length
  rw [List.take_length, ← hhead] at hrest
  rw [Tx.commitWrites, ← hhead, ← List.cons_append, ← List.append_assoc, commits_append,
    hrest, hclear]

/-- **A whole commit leaves a clean log and the contents after the transaction.** -/
theorem redo_commitWrites (t : Tx log) (h : Redo log d [] v) :
    Redo log (applyWrites d (t.commitWrites d)) [] (applyWrites v t.writes) := by
  set head := putHead (d log.start) (t.writes.map Prod.fst) with hhead
  have hr := redo_committed t (d := d) h.gives t.writes.length
  rw [List.take_length, applyWrites_append, applyWrites_cons, ← hhead] at hr
  have hreplay :=
    applyWrites_replay (update (applyWrites d (logWrites log t.data)) log.start head) t.writes
      t.writes.length
  rw [List.take_length] at hreplay
  rw [Tx.commitWrites, ← hhead, applyWrites_append, applyWrites_cons, applyWrites_append,
    applyWrites_cons, applyWrites_nil]
  refine redo_nil (headBlocks_eq_nil ?_) fun b hb => ?_
  · rw [update_self]
    exact headN_putHead_nil _
  · rw [← hr.gives b hb, update_of_ne (Region.ne_start hb)]
    simp only [hreplay]

/-- **A commit cut after `j` writes.**  Until the committing header is on the disk
recovery gives the contents before the transaction, from then on those after it. -/
theorem redo_take_commit (t : Tx log) (ht : t.writes ≠ []) (h : Redo log d [] v)
    (j : ℕ) : ∃ ws, Redo log (applyWrites d ((t.commitWrites d).take j)) ws
      (contents v ([t].take (commits log ((t.commitWrites d).take j)))) := by
  have hlen : (logWrites log t.data).length = t.writes.length := by
    rw [length_logWrites, t.length_data]
  rcases Nat.lt_or_ge t.writes.length j with hj | hj
  · obtain ⟨p, rfl⟩ : ∃ p, j = (logWrites log t.data).length + (p + 1) :=
      ⟨j - t.writes.length - 1, by omega⟩
    rcases Nat.lt_or_ge t.writes.length p with hp | hp
    · have htake : (t.commitWrites d).take ((logWrites log t.data).length + (p + 1)) =
          t.commitWrites d := by
        refine List.take_of_length_le ?_
        simp only [Tx.commitWrites, List.length_append, List.length_cons, List.length_nil]
        omega
      rw [htake, commits_commitWrites t ht]
      exact ⟨[], redo_commitWrites t h⟩
    · rw [Tx.commitWrites, List.take_length_add_append, List.take_succ_cons,
        List.take_append_of_le_length hp, commits_installing t ht]
      exact ⟨t.writes, redo_committed t h.gives p⟩
  · have hne : ∀ w ∈ (logWrites log t.data).take j, w.1 ≠ log.start := fun w hw =>
      t.logWrites_ne_start w (List.mem_of_mem_take hw)
    rw [Tx.commitWrites, List.take_append_of_le_length (by omega), commits_eq_zero hne]
    refine ⟨[], redo_nil ?_ fun b hb => ?_⟩
    · rw [applyWrites_of_not_mem hne]
      exact h.head
    · rw [applyWrites_of_not_mem fun w hw => t.logWrites_ne hb w (List.mem_of_mem_take hw)]
      exact h.gives b hb

/-! ### Sessions -/

theorem commit_nil (t : Tx log) (m : Machine) (ht : t.writes = []) (hm : m.lh = []) :
    commit log (t.logged m) = m := by
  have h : t.logged m = m := by
    obtain ⟨c, l, tr⟩ := m
    simp only at hm
    simp [Tx.logged, ht, hm]
  rw [h, commit, if_pos hm]

/-- The transactions that write something: an empty one issues no write at all. -/
def nonempty (ts : List (Tx log)) : List (Tx log) := ts.filter fun t => t.writes ≠ []

/-- **A session cut after any number of writes.**  From a machine whose cache is the
disk and whose log is clean, the writes of a session, cut anywhere, leave a log that
redoes the transactions whose committing header is among them. -/
theorem redo_take_session (ts : List (Tx log)) (m : Machine) (hm : m.lh = [])
    (h : Redo log m.cache [] v) :
    ∃ ws, (session log ts m).trace = m.trace ++ ws ∧
    ∀ j, ∃ rs, Redo log (applyWrites m.cache (ws.take j)) rs
    (contents v ((nonempty ts).take (commits log (ws.take j)))) := by
  induction ts generalizing m v with
  | nil => exact ⟨[], by simp [session], fun j => ⟨[], by simpa [nonempty, contents] using h⟩⟩
  | cons t ts ih =>
    by_cases ht : t.writes = []
    · obtain ⟨ws, htr, hws⟩ := ih m hm h
      refine ⟨ws, ?_, fun j => ?_⟩
      · rw [session, List.foldl_cons, commit_nil t m ht hm]
        exact htr
      · simpa [nonempty, ht] using hws j
    set cw := t.commitWrites m.cache with hcw
    have hcache := cache_commit_logged t m ht
    have htrace : (commit log (t.logged m)).trace = m.trace ++ cw := by
      rw [commit_logged t m ht]
      rfl
    obtain ⟨ws, htr, hws⟩ := ih (commit log (t.logged m)) (by rw [commit_logged t m ht])
      (v := applyWrites v t.writes) (by rw [hcache]; exact redo_commitWrites t h)
    refine ⟨cw ++ ws, ?_, fun j => ?_⟩
    · rw [session, List.foldl_cons]
      exact htr.trans (by rw [htrace, List.append_assoc])
    have hne : nonempty (t :: ts) = t :: nonempty ts := by simp [nonempty, ht]
    rcases Nat.lt_or_ge cw.length j with hj | hj
    · obtain ⟨p, rfl⟩ : ∃ p, j = cw.length + p := ⟨j - cw.length, by omega⟩
      obtain ⟨rs, hrs⟩ := hws p
      refine ⟨rs, ?_⟩
      rw [List.take_length_add_append, commits_append, hcw, commits_commitWrites t ht, hne,
        applyWrites_append, Nat.add_comm, List.take_succ_cons, ← hcache]
      exact hrs
    · obtain ⟨rs, hrs⟩ := redo_take_commit t ht h j
      have hle : commits log (cw.take j) ≤ 1 := by
        rw [← commits_commitWrites t ht m.cache]
        exact (List.take_sublist j cw).countP_le
      refine ⟨rs, ?_⟩
      rw [List.take_append_of_le_length hj, hne]
      rw [← hcw] at hrs
      rcases Nat.le_one_iff_eq_zero_or_eq_one.1 hle with hk | hk <;> rw [hk] at hrs ⊢ <;>
        simpa using hrs

/-- **Crash atomicity.**  Start from a disk with a clean log and run any
transactions; cut the power after any number `j` of the block writes of their
commits; boot, with recovery cut off at each of `cuts`, and let a last recovery
complete.  Then the header is clean and every block outside the log holds what the
first `k` transactions produce, `k` being the number of committing headers among
the writes that reached the disk. -/
theorem crash_atomic (log : Region) (d : Disk) (hclean : headN (d log.start) = 0)
    (ts : List (Tx log)) (j : ℕ) (cuts : List ℕ) :
    let written := (session log ts (boot d)).trace.take j
    let d' := recoveries log cuts (applyWrites d written)
    headN (d' log.start) = 0 ∧ ∀ b, ¬ log.Mem b →
    d' b = contents d ((nonempty ts).take (commits log written)) b := by
  obtain ⟨ws, htr, hws⟩ := redo_take_session ts (boot d) rfl (v := d)
    (redo_nil (headBlocks_eq_nil hclean) fun _ _ => rfl)
  obtain ⟨rs, hrs⟩ := hws j
  have htrace : (session log ts (boot d)).trace = ws := htr
  rw [htrace]
  exact hrs.recoveries cuts

/-- A transaction that fills block 50 with ones, on the log that `mkfs` lays out. -/
def fillTx : Tx ⟨2, LOGSIZE, by decide⟩ where
  writes := [(50, fun _ => 1)]
  nodup := by simp
  fits := by simp [LOGSIZE]
  fitsHeader := by simp
  home := by simp [Region.Mem, LOGSIZE]
  uint := by simp

theorem crash_atomic_fillTx :
    let log : Region := ⟨2, LOGSIZE, by decide⟩
    let d : Disk := fun _ _ => 0
    let written := (session log [fillTx] (boot d)).trace.take 2
    let d' := recoveries log [1] (applyWrites d written)
    headN (d log.start) = 0 ∧ headN (d' log.start) = 0 ∧ ∀ b, ¬ log.Mem b →
      d' b = contents d ((nonempty [fillTx]).take (commits log written)) b :=
  ⟨by decide, crash_atomic _ _ (by decide) _ _ _⟩

end Log
end Xv6
