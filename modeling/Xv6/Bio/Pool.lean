/-
# Are there enough buffers?

`bget` panics when every buffer is in use, and nothing limits the processes that read: 31 of them in
`readi` are enough (`bget_no_buffers`).  A process uses at most two buffers at a time, so there are
enough as long as these and the blocks in `log.lh` are no more than `NBUF` (`buffers_suffice`).
-/

import Xv6.Bio.Coherent

namespace Xv6

open Lib

variable {N : ℕ} {a : SysAction N}

/-! ### Counting buffers in use -/

namespace Bio

variable (s : Bio N)

/-- The buffers that process `p` holds, and the one it waits for or is about to let go. -/
def load (p : Fin N) : ℕ :=
  (Finset.univ.filter fun b => s.lock b = some p).card + ∑ b, (s.pc p).refs b

theorem sum_users : ∑ b, s.users b = ∑ p, s.load p := by
  have hlock : ∀ b, (if s.lock b = none then 0 else 1) = ∑ p,
      if s.lock b = some p then 1 else 0 := by
    intro b
    cases s.lock b with
    | none => simp
    | some q => simp
  simp only [users, load, hlock, Finset.sum_add_distrib, Finset.card_filter]
  rw [Finset.sum_comm, Finset.sum_comm (f := fun b p => (s.pc p).refs b)]

end Bio

theorem BioPc.sum_refs (c : BioPc) : ∑ b, c.refs b ≤ 1 := by
  cases c with
  | out | reading => simp [BioPc.refs]
  | acquiring b dev n | releasing b => simp [BioPc.refs]

namespace Sys

variable {logged : Bool} {s : Sys N} {p : Fin N} {K : Known}

/-- A process uses the buffers it holds, and one more while it is in `bread` or `brelse`. -/
theorem Follows.load_le (h : Follows logged s p K) :
    s.bio.load p ≤ K.size + if s.bio.pc p = .out then 0 else 1 := by
  by_cases hread : ∃ b dev n, s.bio.pc p = .reading b dev n
  · obtain ⟨b, dev, n, hpc⟩ := hread
    have hsub : (Finset.univ.filter fun c => s.bio.lock c = some p) ⊆
        insert b (Finset.univ.filter fun c => K c ≠ none) := by
      intro c hc
      rw [Finset.mem_filter] at hc
      rcases h.known c hc.2 with ⟨i, hi⟩ | ⟨d, m, hr⟩
      · simp [hi]
      · rw [hpc] at hr
        cases hr
        exact Finset.mem_insert_self ..
    have hcard := (Finset.card_le_card hsub).trans (Finset.card_insert_le ..)
    simpa [Bio.load, hpc, BioPc.refs, Known.size] using hcard
  · have hsub : (Finset.univ.filter fun c => s.bio.lock c = some p) ⊆ Finset.univ.filter fun c =>
        K c ≠ none := by
      intro c hc
      rw [Finset.mem_filter] at hc
      rcases h.known c hc.2 with ⟨i, hi⟩ | ⟨d, m, hr⟩
      · simp [hi]
      · exact absurd ⟨c, d, m, hr⟩ hread
    have hcard := Finset.card_le_card hsub
    have hrefs := (s.bio.pc p).sum_refs
    simp only [Bio.load, Known.size]
    split_ifs with hout
    · simpa [hout, BioPc.refs] using hcard
    · omega

/-- The processes that run a call and are not in `begin_op`, or that commit. -/
def active (s : Sys N) : Finset (Fin N) :=
  Finset.univ.filter fun p => (s.code p).isSome = true ∧ (s.log.pc p).inBegin = false

theorem Follows.load_eq_zero (h : Follows logged s p K) (hp : p ∉ s.active) : s.bio.load p = 0 := by
  have hidle : K = Known.none ∧ s.bio.pc p = .out := by
    simp only [active, Finset.mem_filter, Finset.mem_univ, true_and, not_and_or] at hp
    rcases hp with hp | hp
    · exact h.idle (by simpa using hp)
    · exact h.starting (by simpa using hp)
  have := h.load_le
  rw [hidle.1, hidle.2, Known.size_none] at this
  simpa using this

theorem Inv.sum_pins_le (h : Inv logged s) : ∑ b, s.bio.pins b ≤ s.log.lh.length := by
  have hone : ∀ b, s.bio.pins b = if 0 < s.bio.pins b then 1 else 0 := by
    intro b
    have := h.pins_le b
    split_ifs <;> omega
  have hlisted : ∀ b, 0 < s.bio.pins b → (s.bio.buf b).dev = ROOTDEV ∧
      (s.bio.buf b).blockno ∈ s.log.lh := by
    intro b hb
    have hp := h.pinned.pins b
    split_ifs at hp with hdev
    · rcases h.isolated.pins_eq (s.bio.buf b).blockno with hzero | ⟨hmem, -⟩
      · omega
      · exact ⟨hdev, hmem⟩
    · omega
  rw [Finset.sum_congr rfl fun b _ => hone b, ← Finset.card_filter]
  refine (Finset.card_le_card_of_injOn (t := s.log.lh.toFinset) (fun b => (s.bio.buf b).blockno)
    (fun b hb => ?_) fun b hb c hc hbc => ?_).trans s.log.lh.toFinset_card_le
  · rw [Finset.coe_filter] at hb
    exact List.mem_toFinset.2 (hlisted b hb.2).2
  · rw [Finset.coe_filter] at hb hc
    have hb' := hlisted b hb.2
    have hc' := hlisted c hc.2
    exact (h.named.unique b c (hb'.1 ▸ Nat.one_ne_zero) ⟨hc'.1.trans hb'.1.symm, hbc.symm⟩).symm

/-- The blocks in the log and two buffers for each active process fit into the cache. -/
def Roomy (s : Sys N) : Prop := s.log.lh.length + MAXHELD * s.active.card ≤ NBUF

/-- **With room `bget` finds a buffer.** -/
theorem Inv.bget_ne_none (h : Inv logged s) (hroom : s.Roomy)
    (hpc : s.bio.pc p = .out) (hrun : (s.log.pc p).inBegin = false)
    (hcode : s.code p = some (.bread n k)) : s.bio.bget p ROOTDEV n ≠ none := by
  intro hnone
  have hunused : s.bio.unused = none := by
    unfold Bio.bget at hnone
    split at hnone
    · cases hnone
    · simpa using hnone
  choose K hK using h.follows
  -- every buffer is in use
  have hall : NBUF ≤ ∑ b, (s.bio.users b + s.bio.pins b) := by
    calc NBUF = ∑ _ : Bp, 1 := by simp
      _ ≤ ∑ b, (s.bio.users b + s.bio.pins b) := Finset.sum_le_sum fun b _ => by
        rw [← h.counted b]
        have := h.circle.refcnt_ne_of_unused hunused b
        exact Nat.one_le_iff_ne_zero.2 fun hz => this (UInt32.toNat.inj hz)
  rw [Finset.sum_add_distrib, Bio.sum_users] at hall
  -- each active process uses two at most, and this one uses one at most
  have hp : p ∈ s.active := by simp [active, hcode, hrun]
  have hself : s.bio.load p + 1 ≤ MAXHELD := by
    have hload := (hK p).load_le
    rw [if_pos hpc] at hload
    have := ((hK p).code _ hcode).1
    omega
  have hothers : ∑ q ∈ s.active.erase p, s.bio.load q ≤ (s.active.erase p).card * MAXHELD := by
    rw [← Finset.sum_const_nat fun _ _ => rfl]
    exact Finset.sum_le_sum fun q _ => (hK q).load_le.trans (hK q).room
  have hsum : ∑ q, s.bio.load q = s.bio.load p + ∑ q ∈ s.active.erase p, s.bio.load q := by
    rw [Finset.add_sum_erase _ _ hp]
    exact (Finset.sum_subset (Finset.subset_univ _) fun q _ hq => (hK q).load_eq_zero hq).symm
  have hcard := Finset.card_erase_add_one hp
  have hpins := h.sum_pins_le
  simp only [Roomy, MAXHELD] at hroom hself hothers
  omega

end Sys

/-! ### Readers and writers -/

/-- Processes read in no transaction and write in one. -/
def Sys.ReadsWrites (sb : Superblock) (_ : Sys N) : SysAction N → Prop
  | .call _ inOp c => (inOp = false ∧ ∃ copyout off n d, c = readCall sb copyout off n d) ∨
      (inOp = true ∧ ∃ inum src off n d, c = writeCall sb inum src off n d)
  | .run _ => True

theorem Sys.ReadsWrites.calls {sb : Superblock} {s : Sys N} (h : Sys.ReadsWrites sb s a) :
    Sys.Calls sb (fun _ => True) s a := by
  cases a with
  | call p inOp c =>
    rcases h with ⟨-, copyout, off, n, d, rfl⟩ | ⟨-, inum, src, off, n, d, rfl⟩
    · exact fsCode_readCall copyout off n d
    · exact fsCode_writeCall trivial inum off n d
  | run p => trivial

/-- **The buffers suffice**, for any interleaving of up to `NPROC` processes in `readi` and
`writei`, as long as at every step the blocks in `log.lh` and two buffers for each process
that is in a call and past `begin_op` are no more than `NBUF`:
`panic("bget: no buffers")` is not reached. -/
theorem buffers_suffice (log : Log.Region) (sb : Superblock) (hN : N ≤ NPROC) (p : Fin N)
    (disk : ℕ → Disk) (hn : Log.headN (disk ROOTDEV log.start) = 0) {bio : Bio N}
    (hbio : Bio.initlog log p disk = some bio) {s : Sys N}
    (h : Reach (Sys.step log) (fun s a => Sys.ReadsWrites sb s a ∧ s.Roomy) (Sys.boot bio) s) :
    s.panic = false := by
  have hrest := Bio.rest_of_initlog hN hn hbio
  obtain ⟨-, hpanic⟩ : Sys.Inv false s ∧ s.panic = false := by
    refine h.invariant (I := fun s => Sys.Inv false s ∧ s.panic = false)
      ⟨Sys.inv_boot hrest, rfl⟩ ?_
    rintro s a s' ⟨hinv, hpanic⟩ ⟨hcall, hroom⟩ hs
    refine ⟨hinv.step hN (Sys.starts_of_calls (by simp) hcall.calls) hs, ?_⟩
    cases Sys.step_cases hinv.circle hs with
    | noBuffers hpc hrun hcode hnone => exact absurd hnone (hinv.bget_ne_none hroom hpc hrun hcode)
    | _ => exact hpanic
  exact hpanic

def startRead (b : UInt32) (p : Fin N) : List (SysAction N) :=
  [.call p false (readCall mkfsSb kernelDst 0 1 (fileAt b)), .run p]

theorem readsWrites_of_mem {b : UInt32} {p : Fin N} {s : Sys N} (ha : a ∈ startRead b p) :
    Sys.ReadsWrites mkfsSb s a := by
  simp only [startRead, List.mem_cons, List.not_mem_nil, or_false] at ha
  rcases ha with rfl | rfl
  · exact .inl ⟨rfl, kernelDst, 0, 1, _, rfl⟩
  · trivial

/-- **31 readers are too many.**  Each is in `readi` with a buffer of its own or on its way to
one, and the last finds none. -/
theorem bget_no_buffers : ∃ bio s, Bio.initlog (N := 31) Log.mkfsLog 0 (fun _ _ _ => 0) = some bio ∧
    Reach (Sys.step Log.mkfsLog) (Sys.ReadsWrites mkfsSb) (Sys.boot bio) s ∧ s.panic = true := by
  have hrun : ((Bio.initlog (N := 31) Log.mkfsLog 0 (fun _ _ _ => 0)).bind fun bio =>
      (run (Sys.step Log.mkfsLog) (fun _ _ => True) (Sys.boot bio)
        ((List.finRange 31).flatMap fun p => startRead (50 + UInt32.ofNat p.val) p)).map
        Sys.panic) =
      some true := by decide +kernel
  obtain ⟨bio, hbio, hrun⟩ := Option.bind_eq_some_iff.1 hrun
  obtain ⟨s, hs, hpanic⟩ := Option.map_eq_some_iff.1 hrun
  refine ⟨bio, s, hbio, reach_of_actions (fun a ha _ _ => ?_) hs, hpanic⟩
  obtain ⟨p, -, ha⟩ := List.mem_flatMap.1 ha
  exact readsWrites_of_mem ha

instance (s : Sys N) : Decidable s.Roomy :=
  inferInstanceAs (Decidable (s.log.lh.length + MAXHELD * s.active.card ≤ NBUF))

theorem buffers_suffice_two :
    ∃ bio s, Bio.initlog (N := 2) Log.mkfsLog 0 (fun _ _ _ => 0) = some bio ∧
    Reach (Sys.step Log.mkfsLog) (fun s a => Sys.ReadsWrites mkfsSb s a ∧ s.Roomy)
    (Sys.boot bio) s ∧ s.bio.pc 1 = .acquiring 1 1 50 ∧ s.panic = false := by
  have hrun : ((Bio.initlog (N := 2) Log.mkfsLog 0 (fun _ _ _ => 0)).bind fun bio =>
      (run (Sys.step Log.mkfsLog) (fun s _ => s.Roomy) (Sys.boot bio)
        ((List.finRange 2).flatMap (startRead 50))).map fun s => s.bio.pc 1) =
        some (.acquiring 1 1 50) := by decide +kernel
  obtain ⟨bio, hbio, hrun⟩ := Option.bind_eq_some_iff.1 hrun
  obtain ⟨s, hs, hpc⟩ := Option.map_eq_some_iff.1 hrun
  have hreach : Reach (Sys.step Log.mkfsLog) (fun s a => Sys.ReadsWrites mkfsSb s a ∧ s.Roomy)
      (Sys.boot bio) s := by
    refine reach_of_actions (fun a ha _ hroom => ⟨?_, hroom⟩) hs
    obtain ⟨p, -, ha⟩ := List.mem_flatMap.1 ha
    exact readsWrites_of_mem ha
  exact ⟨bio, s, hbio, hreach, hpc,
    buffers_suffice Log.mkfsLog mkfsSb (by decide) 0 (fun _ _ _ => 0)
    (by decide +kernel) hbio hreach⟩

end Xv6
