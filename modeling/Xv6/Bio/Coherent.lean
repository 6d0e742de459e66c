/-
# Buffers and the disk

A buffer that nobody holds has the data of its block on the disk, unless the log lists the block.
`writei` breaks this where `either_copyin` fails midway (`half_written_buffer`); where a copy that
fails has copied nothing, the cache is coherent (`cache_coherent`).
-/

import Xv6.Bio.Recover

namespace Xv6

open Lib

variable {N : ℕ}

namespace Sys

variable {s : Sys N} {b : Bp}

/-- A buffer that was changed and is not held is pinned, and the log lists its block. -/
theorem Inv.mem_lh_of_dirty (h : Inv true s) (hd : s.bio.dirty b = true)
    (hl : s.bio.lock b = none) : (s.bio.buf b).blockno ∈ s.log.lh := by
  have hpos := ((h.faithful rfl).buf b).pinned hd hl
  have hb := h.pinned.pins b
  split_ifs at hb with hdev
  · rcases h.isolated.pins_eq (s.bio.buf b).blockno with hzero | ⟨hmem, -⟩
    · omega
    · exact hmem
  · omega

theorem Inv.clean_of_free (h : Inv true s) (hb : (s.bio.buf b).refcnt = 0) :
    s.bio.dirty b = false := by
  obtain ⟨hl, hpins, -⟩ := h.counted.free hb
  by_contra hd
  have := ((h.faithful rfl).buf b).pinned (by simpa using hd) hl
  omega

end Sys

/-- **The cache is coherent**, over any run of file system calls in which a user copy that
fails has copied nothing, from a boot with an empty log on.  A valid buffer that nobody
holds has the data of its block on the disk, unless the log lists the block; and a valid
buffer that may be recycled has it in any case, so that a later `bread` reads the same. -/
theorem cache_coherent (log : Log.Region) (sb : Superblock) (hN : N ≤ NPROC) (p : Fin N)
    (disk : ℕ → Disk) (hn : Log.headN (disk ROOTDEV log.start) = 0) {bio : Bio N}
    (hbio : Bio.initlog log p disk = some bio) {s : Sys N}
    (h : Reach (Sys.step log) (Sys.Calls sb Source.AllOrNothing) (Sys.boot bio) s) {b : Bp}
    (hv : (s.bio.buf b).valid = true) :
    (s.bio.lock b = none → (s.bio.buf b).data = s.bio.disk (s.bio.buf b).dev (s.bio.buf b).blockno ∨
      (s.bio.buf b).blockno ∈ s.log.lh) ∧
    ((s.bio.buf b).refcnt = 0 → (s.bio.buf b).data = s.bio.disk (s.bio.buf b).dev
      (s.bio.buf b).blockno) := by
  have hinv : Sys.Inv true s :=
    Sys.inv_of_reach hN (fun _ _ hs => hs) (Bio.rest_of_initlog hN hn hbio) h
  have hclean := ((hinv.faithful rfl).buf b).clean hv
  refine ⟨fun hl => ?_, fun hfree => hclean (hinv.clean_of_free hfree)⟩
  cases hd : s.bio.dirty b with
  | false => exact .inl (hclean hd)
  | true => exact .inr (hinv.mem_lh_of_dirty hd hl)

/-! ### A copy that fails halfway -/

/-- User memory of which one byte is mapped, a 7. -/
def oneByte : Source where
  copyin _ m := (List.replicate (min 1 m) 7, false)
  length_le := by simp
  length_ok := by simp

def halfWrite : Code Unit := writeCall mkfsSb 2 oneByte 0 2 (fileAt 50)

/-- **A half-written buffer.**  After the call has ended and its transaction is committed, a
buffer that nobody holds differs from the disk, and the log is empty. -/
theorem half_written_buffer : ∃ bio s, Bio.initlog (N := 1) Log.mkfsLog 0 blank = some bio ∧
    Reach (Sys.step Log.mkfsLog) (Sys.Calls mkfsSb fun _ => True) (Sys.boot bio) s ∧
    ∃ b, (s.bio.buf b).valid = true ∧ s.bio.lock b = none ∧ s.log.lh = [] ∧
      (s.bio.buf b).data ≠ s.bio.disk (s.bio.buf b).dev (s.bio.buf b).blockno := by
  have hrun : seenAfter 0 true halfWrite 81 (fun s => ((s.bio.buf 1).valid, s.bio.lock 1, s.log.lh,
      (s.bio.buf 1).data 0, s.bio.disk (s.bio.buf 1).dev (s.bio.buf 1).blockno 0)) =
      some (true, none, [], 7, 0) := by decide +kernel
  have hcode : FsCode mkfsSb (fun _ => True) halfWrite := fsCode_writeCall trivial 2 0 2 (fileAt 50)
  obtain ⟨bio, s, hbio, hs, hv⟩ := exists_reach_call hcode hrun
  simp only [Prod.mk.injEq] at hv
  obtain ⟨hvalid, hlock, hlh, hdata, hdisk⟩ := hv
  refine ⟨bio, s, hbio, hs, 1, hvalid, hlock, hlh, fun heq => ?_⟩
  rw [← heq, hdata] at hdisk
  cases hdisk

/-- Two sevens have been written to block 50 and to the disk, and its buffer may be recycled. -/
theorem cache_coherent_write : ∃ bio s, Bio.initlog (N := 1) Log.mkfsLog 0 blank = some bio ∧
    Reach (Sys.step Log.mkfsLog) (Sys.Calls mkfsSb Source.AllOrNothing) (Sys.boot bio) s ∧
    (s.bio.buf 1).valid = true ∧ (s.bio.buf 1).refcnt = 0 ∧ (s.bio.buf 1).data 0 = 7 ∧
    (s.bio.buf 1).data = s.bio.disk (s.bio.buf 1).dev (s.bio.buf 1).blockno := by
  have hrun : seenAfter 0 true writeSevens 80 (fun s =>
      ((s.bio.buf 1).valid, (s.bio.buf 1).refcnt, (s.bio.buf 1).data 0)) =
      some (true, 0, 7) := by decide +kernel
  have hcode : FsCode mkfsSb Source.AllOrNothing writeSevens :=
    fsCode_writeCall (fun _ _ h => absurd h Bool.noConfusion) 2 0 2 (fileAt 50)
  obtain ⟨bio, s, hbio, hs, hv⟩ := exists_reach_call hcode hrun
  simp only [Prod.mk.injEq] at hv
  obtain ⟨hvalid, hfree, hdata⟩ := hv
  have hcoh := cache_coherent Log.mkfsLog mkfsSb (by decide) 0 blank
    (by decide +kernel) hbio hs hvalid
  exact ⟨bio, s, hbio, hs, hvalid, hfree, hdata, hcoh.2 hfree⟩

end Xv6
