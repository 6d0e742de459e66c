/-
# Giving blocks back

`itrunc` frees the blocks of an inode one by one while the cached inode still names them.  Ownership
is kept exact along the way by moving the blocks into the hand first (`DiskInv.giveUp`) and freeing
them from there (`wp_bfreeEntries`), so `bfree` finds every bit set.
-/

import Mathlib.Algebra.BigOperators.Fin
import Xv6.Fs.Content

namespace Xv6

open Lib Function

variable {sb : Superblock} {T : Table sb} {R : Ip → ℕ} {L W : Finset Ip} {ip : Ip}
  {n : Fin sb.ninodes} {d : Dinode} {dirty : Set (Fin sb.ninodes)} {held : Multiset ℕ}
  {blocks : Disk} {s s' : Fs} {E : Halt → Prop} {Q : PUnit → Fs → Prop}

/-- **Slots of an inode give up their blocks**, which go into the hand. -/
theorem DiskInv.giveUp (h : DiskInv T dirty held blocks) (S : Finset Slot)
    (hS : ∀ sl ∈ S, d.place blocks sl = none)
    (ho : ∀ sl ∉ S, d.place blocks sl = (T n).place blocks sl) :
    DiskInv (update T n d) (insert n dirty) (held + ∑ sl ∈ S, hold ((T n).place blocks sl))
    blocks where
  bits := h.bits
  own := by
    have hsum : ∑ sl ∈ S, hold ((T n).place blocks sl) =
        ∑ p ∈ S.map ⟨Prod.mk n, Prod.mk_right_injective n⟩, hold (places T blocks p) := by
      rw [Finset.sum_map]
      rfl
    rw [hsum]
    refine h.own.takeAll _ ?_ ?_
    · intro p hp
      obtain ⟨sl, hsl, rfl⟩ := Finset.mem_map.1 hp
      simpa [places] using hS sl hsl
    · rintro ⟨i, sl⟩ hp
      by_cases hi : i = n
      · subst hi
        simpa [places] using ho sl fun hsl => hp (Finset.mem_map_of_mem _ hsl)
      · simp [places, update_of_ne hi]
  disk _ := h.disk_update

/-- The cached inode is now `d`, ahead of the disk, and has given back the blocks that
it no longer names. -/
structure Clearing (T : Table sb) (ip : Ip) (n : Fin sb.ninodes) (s : Fs) (d : Dinode)
    (s' : Fs) : Prop where
  meta_eq : d = { T n with addrs := d.addrs }
  disk : DiskInv (update T n d) {n} 0 s'.blocks
  inode_eq : s'.inode = update s.inode ip { s.inode ip with toDinode := d }
  other : ∀ i, i ≠ n → files (update T n d) s'.blocks i = files T s.blocks i

theorem Clearing.start (h : FsInv T ∅ R L W s) (hl : Live R s.inode ip n) :
    Clearing T ip n s (T n) s where
  meta_eq := rfl
  disk := by
    rw [update_eq_self]
    exact (h.mono_dirty (Set.empty_subset _)).disk
  inode_eq := by
    rw [← h.cache.eq_table hl]
    exact (update_eq_self ..).symm
  other i _ := by rw [update_eq_self]

theorem Clearing.type_eq (h : Clearing T ip n s d s') : d.type = (T n).type := by rw [h.meta_eq]

theorem Clearing.addrs_eq (h : Clearing T ip n s d s') : (s'.inode ip).addrs = d.addrs := by
  rw [h.inode_eq, update_self]

theorem Clearing.giveUp (h : Clearing T ip n s d s') (d' : Dinode) (S : Finset Slot)
    (hS : ∀ sl ∈ S, d'.place s'.blocks sl = none)
    (ho : ∀ sl ∉ S, d'.place s'.blocks sl = d.place s'.blocks sl) :
    DiskInv (update T n d') {n} (∑ sl ∈ S, hold (d.place s'.blocks sl)) s'.blocks := by
  have hT : update T n d n = d := update_self ..
  have hg := h.disk.giveUp (n := n) S hS (by rwa [hT])
  rwa [update_idem, Set.insert_eq_of_mem (Set.mem_singleton n), hT, Multiset.zero_add] at hg

theorem Clearing.done (h : Clearing T ip n s d s') {k : Fin (NDIRECT + 1)} {s₁ : Fs}
    (hd : DiskInv (update T n (d.setAddr k 0)) {n} 0 s₁.blocks)
    (hi : s₁.inode = s'.inode)
    (hf : files (update T n (d.setAddr k 0)) s₁.blocks = files (update T n (d.setAddr k 0))
      s'.blocks) :
    Clearing T ip n s (d.setAddr k 0)
    (s₁.setInode ip fun i => { i with toDinode := i.toDinode.setAddr k 0 }) where
  meta_eq := by
    rw [h.meta_eq]
    rfl
  disk := hd
  inode_eq := by
    rw [Fs.setInode, hi, h.inode_eq]
    simp
  other i hin := by
    show files (update T n (d.setAddr k 0)) s₁.blocks i = _
    rw [hf, ← h.other i hin]
    simp only [files, update_of_ne hin]

theorem admitted_room (hE : E (.panic .logTooBig) ∧ E (.panic .logOutside)) :
    Room sb E A k s := Room.of_admits hE.1 hE.2

variable (hE : E (.panic .logTooBig) ∧ E (.panic .logOutside))

include hE

theorem wp_truncDirect (h : Clearing T ip n s d s') (ht : (T n).type ≠ 0) (j : Fin NDIRECT)
    (hQ : ∀ d' s₁, Clearing T ip n s d' s₁ → d'.addrs j.castSucc = 0 →
      (∀ k, d.addrs k = 0 → d'.addrs k = 0) → Q ⟨⟩ s₁) :
    wp (truncDirect sb ip j) E Q s' := by
  have ht' : d.type ≠ 0 := by rwa [h.type_eq]
  simp only [truncDirect, wp_bind, wp_get, wp_ite, wp_pure, setAddr, setInode, wp_modify,
    h.addrs_eq]
  refine ⟨fun hne => ?_, fun h₀ => hQ d s' h (not_not.1 h₀) fun _ => id⟩
  have hplace : (d.setAddr j.castSucc 0).place s'.blocks =
      update (d.place s'.blocks) (.direct j) (ptr 0) := Dinode.place_setDirect ht' j 0
  have hg : DiskInv (update T n (d.setAddr j.castSucc 0)) {n} ((d.addrs j.castSucc).toNat ::ₘ 0)
      s'.blocks := by
    have hg := h.giveUp (d.setAddr j.castSucc 0) {.direct j} (by simp [hplace])
      fun sl hsl => by rw [hplace, update_of_ne (by simpa using hsl)]
    rwa [Finset.sum_singleton, Dinode.place_direct ht', ptr_eq_some hne] at hg
  obtain ⟨-, hfree, -, hfiles⟩ := hg.free
  refine wp_bfree (A := ∅) (k := 0) (admitted_room hE) hg ?_
  refine hQ _ _ (h.done hfree rfl hfiles) (by simp [Dinode.setAddr]) fun k hk => ?_
  rw [Dinode.addrs_setAddr, update_apply]
  split_ifs
  · rfl
  · exact hk

theorem wp_bfreeEntries {f : ℕ → UInt32} {l : List ℕ}
    (h : DiskInv T dirty (held + (l.map fun j => hold (ptr (f j))).sum) s.blocks)
    (hQ : ∀ s', DiskInv T dirty held s'.blocks → s'.inode = s.inode →
      files T s'.blocks = files T s.blocks → Q ⟨⟩ s') :
    wp (forM l fun j => do if f j ≠ 0 then bfree sb (f j) : FsM PUnit) E Q s := by
  refine wp_mono (wp_forM (I := fun ys (s' : Fs) =>
    DiskInv T dirty (held + ((l.drop ys.length).map fun j => hold (ptr (f j))).sum) s'.blocks ∧
      s'.inode = s.inode ∧ files T s'.blocks = files T s.blocks) ?_ ⟨h, rfl, rfl⟩) ?_
  · rintro ys j zs s₁ hl ⟨hd, hi, hf⟩
    have hnext : l.drop (ys ++ [j]).length = zs := by simp [hl]
    simp only [hnext]
    rw [show l.drop ys.length = j :: zs by simp [hl], List.map_cons, List.sum_cons] at hd
    simp only [wp_ite, wp_pure]
    refine ⟨fun hne => ?_, fun h₀ => ?_⟩
    · rw [ptr_eq_some hne, hold, Option.elim_some, Multiset.singleton_add, Multiset.add_cons] at hd
      obtain ⟨-, hfree, -, hfiles⟩ := hd.free
      exact wp_bfree (A := ∅) (k := 0) (admitted_room hE) hd ⟨hfree, hi, hfiles.trans hf⟩
    · rw [not_not.1 h₀, ptr_zero, hold, Option.elim_none, Multiset.zero_add] at hd
      exact ⟨hd, hi, hf⟩
  · rintro ⟨⟩ s' ⟨hd, hi, hf⟩
    rw [List.drop_length, List.map_nil, List.sum_nil, Multiset.add_zero] at hd
    exact hQ s' hd hi hf

theorem wp_truncIndirect (h : Clearing T ip n s d s') (ht : (T n).type ≠ 0)
    (hQ : ∀ d' s₁, Clearing T ip n s d' s₁ → d'.addrs (Fin.last NDIRECT) = 0 →
      (∀ k, d.addrs k = 0 → d'.addrs k = 0) → Q ⟨⟩ s₁) :
    wp (truncIndirect sb ip) E Q s' := by
  have ht' : d.type ≠ 0 := by rwa [h.type_eq]
  simp only [truncIndirect, wp_bind, wp_get, wp_ite, wp_pure, bread, setAddr, setInode,
    wp_modify, h.addrs_eq]
  refine ⟨fun hne => ?_, fun h₀ => hQ d s' h (not_not.1 h₀) fun _ => id⟩
  set ind := d.addrs (Fin.last NDIRECT) with hind
  have hg : DiskInv (update T n (d.setAddr (Fin.last NDIRECT) 0)) {n}
      ((ind.toNat ::ₘ 0) + ((List.range NINDIRECT).map fun j =>
        hold (ptr (indirectEntry (s'.blocks ind.toNat) j))).sum) s'.blocks := by
    have hg := h.giveUp (d.setAddr (Fin.last NDIRECT) 0)
      (insert .indirect (Finset.univ.map ⟨Slot.entry, fun _ _ => Slot.entry.inj⟩)) ?_ ?_
    · have hsum : ((List.range NINDIRECT).map fun j =>
          hold (ptr (indirectEntry (s'.blocks ind.toNat) j))).sum =
          ∑ j, hold (d.place s'.blocks (.entry j)) :=
        calc
          _ = ∑ j ∈ Finset.range NINDIRECT, hold (ptr (indirectEntry (s'.blocks ind.toNat) j)) := rfl
          _ = ∑ j : Fin NINDIRECT, hold (ptr (indirectEntry (s'.blocks ind.toNat) j)) :=
          Finset.sum_range _
          _ = _ := Finset.sum_congr rfl fun j _ => by
            rw [Dinode.place_entry ht', Dinode.place_indirect ht', ← hind, ptr_eq_some hne,
              Option.bind_some]
      rw [Finset.sum_insert (by simp), Finset.sum_map, Dinode.place_indirect ht', ← hind,
        ptr_eq_some hne] at hg
      rw [hsum]
      exact hg
    · intro sl hsl
      cases sl with
      | direct j => simp at hsl
      | indirect => rw [Dinode.place_setLast_indirect ht', ptr_zero]
      | entry j => rw [Dinode.place_setLast_entry ht', ptr_zero, Option.bind_none]
    · intro sl hsl
      cases sl with
      | direct j => rw [Dinode.place_setLast_direct ht']
      | indirect => exact absurd (Finset.mem_insert_self ..) hsl
      | entry j =>
        exact absurd (Finset.mem_insert_of_mem (Finset.mem_map_of_mem _ (Finset.mem_univ j))) hsl
  refine wp_bfreeEntries hE hg fun s₁ hd₁ hi₁ hf₁ => ?_
  obtain ⟨-, hfree, -, hfiles⟩ := hd₁.free
  refine wp_bfree (A := ∅) (k := 0) (admitted_room hE) hd₁ ?_
  refine hQ _ _ (h.done hfree hi₁ (hfiles.trans hf₁)) (by simp [Dinode.setAddr]) fun k hk => ?_
  rw [Dinode.addrs_setAddr, update_apply]
  split_ifs
  · rfl
  · exact hk

omit hE in
theorem Clearing.fsInv (h : Clearing T ip n s d s') (hs : FsInv T ∅ R L W s)
    (hl : Live R s.inode ip n) : FsInv (update T n d) {n} R L W s' ∧ Live R s'.inode ip n := by
  have ht : d.type = (T n).type := h.type_eq
  refine ⟨⟨h.disk, ?_⟩, ?_⟩
  · rw [h.inode_eq]
    refine hs.cache.setDinode hl (by rw [ht]; exact hs.cache.type_ne hl) fun hw => ?_
    rw [ht, ← hs.cache.eq_table hl]
    exact ((hs.cache.entry ip).pin hw).2.2
  · rw [h.inode_eq]
    exact hl.setDinode

/-- **`itrunc` leaves an inode without blocks and without bytes**, on disk and in the
cache, and frees its blocks; other files do not change. -/
theorem wp_itrunc (h : FsInv T ∅ R L W s) (hl : Live R s.inode ip n)
    (hQ : ∀ d s', d = { T n with addrs := fun _ => 0, size := 0 } →
      FsInv (update T n d) ∅ R L W s' → s'.inode = update s.inode ip
      { s.inode ip with toDinode := d } →
      (∀ i, i ≠ n → files (update T n d) s'.blocks i = files T s.blocks i) → Q ⟨⟩ s') :
    wp (itrunc sb ip) E Q s := by
  have ht := h.cache.type_ne hl
  rw [itrunc, wp_bind]
  refine wp_mono (wp_forM (I := fun js s' => ∃ d, Clearing T ip n s d s' ∧
    ∀ j ∈ js, d.addrs (Fin.castSucc j) = 0) ?_ ⟨T n, Clearing.start h hl, by simp⟩) ?_
  · rintro js j _ s' - ⟨d, hc, hjs⟩
    refine wp_truncDirect hE hc ht j fun d' s₁ hc' h₀ hk => ⟨d', hc', fun i hi => ?_⟩
    rcases List.mem_append.1 hi with hi | hi
    · exact hk _ (hjs i hi)
    · rwa [List.mem_singleton.1 hi]
  rintro ⟨⟩ s' ⟨d, hc, hdirect⟩
  rw [wp_bind]
  refine wp_truncIndirect hE hc ht fun d₁ s₁ hc₁ hlast hk => ?_
  have haddrs : d₁.addrs = fun _ => 0 := by
    funext k
    refine Fin.lastCases hlast (fun j => ?_) k
    exact hk _ (hdirect j (List.mem_finRange j))
  have hT : update T n d₁ n = d₁ := update_self ..
  obtain ⟨hinv, hlive⟩ := hc₁.fsInv h hl
  obtain ⟨hinv₂, hlive₂, hfiles₂⟩ := hinv.setMeta hlive (d := { d₁ with size := 0 })
    (f := fun i => { i with size := 0 }) (by rw [hT]) (by rw [hT])
    (by rw [← hT, ← hinv.cache.eq_table hlive])
  simp only [wp_bind, setInode, wp_modify]
  refine wp_iupdate (A := ∅) (k := 0) hinv₂ hlive₂ (admitted_room hE) fun s₃ hs₃ hinv₃ hfiles₃ => ?_
  rw [update_idem] at hinv₂ hfiles₂ hinv₃ hfiles₃
  refine hQ { d₁ with size := 0 } s₃ ?_ ?_ ?_ ?_
  · rw [hc₁.meta_eq, haddrs]
  · simpa using hinv₃
  · rw [hs₃, Fs.logWrite, Fs.setInode, hc₁.inode_eq]
    simp
  · intro i hi
    rw [hfiles₃, ← hc₁.other i hi, ← hfiles₂]
    rfl

end Xv6
