/-
# The heap of a program

The free blocks and the live ones are a tiling of what `sbrk` returned (`Inv`).  `free` moves a
block from the live ones to the free ones, `morecore` adds a region, and `malloc` takes a block out
of the list or cuts the end off one; its loop comes around or finds a block that is large enough
(`scan`).
-/

import Xv6.User.FreeList
import Mathlib.Algebra.BigOperators.Ring.List

namespace Xv6.Malloc

open Lib Function

variable {base : ℕ} {h : Heap} {fs : List (ℕ × ℕ)} {live : List Extent} {b : Extent} {a brk g : ℕ}
  {gaps : List (Option ℕ)} {s : Sys}

def Heap.total (h : Heap) : ℕ := (h.regions.map Prod.snd).sum

/-- The heap with the free blocks `fs` and the blocks `live`. -/
structure Inv (base : ℕ) (h : Heap) (live : List Extent) (fs : List (ℕ × ℕ)) : Prop where
  list : FreeList base h.mem h.freep fs
  tiles : Tiles (fs.map freeBlock ++ live) h.regions
  pos : ∀ b ∈ live, 0 < b.2
  headers : ∀ b ∈ live, headerSize * (h.mem b.1).size.toNat = b.2
  regions : ∀ r ∈ h.regions, base + headerSize ≤ r.1 ∧ r.1 + r.2 ≤ h.brk
  brk : base + headerSize ≤ h.brk
  total : h.total < 2 ^ 36

theorem toNat_max (nu : UInt32) : (if nu < 4096 then 4096 else nu).toNat = max nu.toNat 4096 := by
  split
  · rename_i hlt
    exact (Nat.max_eq_right (UInt32.lt_iff_toNat_lt.1 hlt).le).symm
  · rename_i hge
    exact (Nat.max_eq_left (UInt32.le_iff_toNat_le.1 (UInt32.not_lt.1 hge))).symm

namespace Inv

variable (hi : Inv base h live fs)
include hi

theorem perm (hp : live.Perm live') : Inv base h live' fs :=
  { hi with
    tiles := hi.tiles.perm (hp.append_left _)
    pos := fun b hb => hi.pos b (hp.mem_iff.2 hb)
    headers := fun b hb => hi.headers b (hp.mem_iff.2 hb) }

theorem bounds (hb : b ∈ fs.map freeBlock ++ live) :
    0 < b.2 ∧ base + headerSize ≤ b.1 ∧ b.1 + b.2 ≤ h.brk := by
  have hpos : 0 < b.2 := by
    rcases List.mem_append.1 hb with hb | hb
    · obtain ⟨c, hc, rfl⟩ := List.mem_map.1 hb
      exact hi.list.block_pos hc
    · exact hi.pos b hb
  have hregion {x : ℕ} (hx : b.Has x) : base + headerSize ≤ x ∧ x < h.brk := by
    obtain ⟨r, hr, hrx⟩ := (hi.tiles.covers x).1 ⟨b, hb, hx⟩
    have := hi.regions r hr
    simp only [Extent.Has] at hrx
    omega
  have hfirst := hregion (x := b.1) ⟨Nat.le_refl _, by omega⟩
  have hlast := hregion (x := b.1 + b.2 - 1) ⟨by omega, by omega⟩
  omega

theorem apart_free (hb : b ∈ live) (hc : c ∈ fs) : (freeBlock c).Apart b :=
  (List.pairwise_append.1 hi.tiles.apart).2.2 _ (List.mem_map_of_mem hc) b hb

theorem not_mem_nodes (hb : b ∈ live) (ha : b.Has a) : a ∉ base :: fs.map Prod.fst := by
  obtain ⟨hpos, hle, -⟩ := hi.bounds (List.mem_append_right _ hb)
  simp only [headerSize] at hle
  simp only [Extent.Has] at ha
  intro hmem
  rcases List.mem_cons.1 hmem with heq | hmem
  · omega
  · obtain ⟨c, hc, heq⟩ := List.mem_map.1 hmem
    have hcpos := hi.list.block_pos hc
    have hapart := hi.apart_free hb hc
    simp only [Extent.Apart, freeBlock] at hapart hcpos
    omega

omit hi in
theorem fits (hi : Inv base h (b :: live) fs) (hw : headerSize * w = b.2) :
    (fs.map Prod.snd).sum + w < 2 ^ 32 := by
  have htotal := hi.tiles.total
  have hlt := hi.total
  rw [Heap.total, ← htotal, List.map_append, List.map_cons, List.sum_append, List.sum_cons,
    List.map_map] at hlt
  have hsum : (fs.map (Prod.snd ∘ freeBlock)).sum = headerSize * (fs.map Prod.snd).sum :=
    List.sum_map_mul_left ..
  rw [hsum, ← hw] at hlt
  simp only [headerSize] at hlt
  omega

theorem header_ne (hb : b ∈ live) (hc : c ∈ live)
    (ha : b.1 < a ∧ a < b.1 + b.2) : c.1 ≠ a := by
  intro heq
  have hpos := hi.pos c hc
  by_cases hcb : c = b
  · rw [hcb] at heq
    omega
  · have hapart := (List.pairwise_append.1 hi.tiles.apart).2.1.forall hc hb hcb
    simp only [Extent.Apart] at hapart
    omega

omit hi in
/-- **A live block is freed.** -/
theorem free (hi : Inv base h (b :: live) fs) : ∃ h' fs', Inv base h' live fs' ∧
    (∃ c ∈ fs', b.2 ≤ headerSize * c.2) ∧ Settles (fun k => free k (b.1 + headerSize) h) h' := by
  have hb : b ∈ b :: live := List.mem_cons_self ..
  have hheader := hi.headers b hb
  obtain ⟨hpos, hle, -⟩ := hi.bounds (List.mem_append_right _ hb)
  have hfreed : Freed base h.mem fs b.1 (h.mem b.1).size.toNat := by
    refine ⟨?_, rfl, ?_, fun c hc => ?_, hi.fits hheader⟩
    · simp only [headerSize] at hle
      omega
    · rw [← hheader] at hpos
      exact Nat.pos_of_mul_pos_left hpos
    · rw [hheader]
      exact hi.apart_free hb hc
  obtain ⟨mem', p, fs', hr, hsettles⟩ := hi.list.settles_free hfreed
  have hlive : ∀ c ∈ live, 0 < c.2 := fun c hc => hi.pos c (.tail _ hc)
  refine ⟨{ h with mem := mem', freep := p }, fs', ⟨hr.list, ?_, hlive, fun c hc => ?_, hi.regions,
    hi.brk, hi.total⟩, ?_, hsettles⟩
  · refine hr.tiles live _ hlive ?_
    rw [hheader]
    exact hi.tiles.perm List.perm_middle
  · have hapart := (List.pairwise_cons.1 (List.pairwise_append.1 hi.tiles.apart).2.1).1 c hc
    have hcpos := hlive c hc
    have hne : c.1 ≠ b.1 := by
      simp only [Extent.Apart] at hapart
      omega
    rw [← hi.headers c (.tail _ hc)]
    show headerSize * (mem' c.1).size.toNat = _
    rw [hr.frame c.1 hne (hi.not_mem_nodes (.tail _ hc) ⟨Nat.le_refl _, by omega⟩)]
  · obtain ⟨c, hc, hle⟩ := hr.large
    exact ⟨c, hc, hheader ▸ Nat.mul_le_mul_left _ hle⟩

theorem write (hnode : a ∉ base :: fs.map Prod.fst) (hlive : ∀ b ∈ live, b.1 ≠ a)
    (v : Header) : Inv base { h with mem := update h.mem a v } live fs :=
  { hi with
    list := hi.list.congr fun _ hc => update_of_ne (ne_of_mem_of_not_mem hc hnode) ..
    headers := fun b hb => by
      rw [← hi.headers b hb]
      simp only [update_of_ne (hlive b hb)] }

theorem lt_brk (ha : a ∈ base :: fs.map Prod.fst) : a < h.brk := by
  rcases List.mem_cons.1 ha with rfl | ha
  · have := hi.brk
    simp only [headerSize] at this
    omega
  · obtain ⟨b, hb, rfl⟩ := List.mem_map.1 ha
    have := hi.bounds (List.mem_append_left _ (List.mem_map_of_mem (f := freeBlock) hb))
    simp only [freeBlock] at this
    omega

/-- **A region is added, as a live block.** -/
theorem grow {n : ℕ} (hn : 0 < n) (hroom : h.total + n < 2 ^ 36)
    (hheader : headerSize * (h.mem (h.brk + g)).size.toNat = n) :
    Inv base { h with brk := h.brk + g + n, regions := (h.brk + g, n) :: h.regions }
    ((h.brk + g, n) :: live) fs where
  list := hi.list
  tiles := by
    refine (hi.tiles.add fun b hb => .inr ?_).perm List.perm_middle.symm
    have := hi.bounds hb
    simp only
    omega
  pos := List.forall_mem_cons.2 ⟨hn, hi.pos⟩
  headers := List.forall_mem_cons.2 ⟨hheader, hi.headers⟩
  regions := by
    have hbrk := hi.brk
    refine List.forall_mem_cons.2 ⟨⟨?_, Nat.le_refl _⟩, fun r hr => ?_⟩
    · omega
    · have := hi.regions r hr
      simp only
      omega
  brk := by
    have hbrk := hi.brk
    simp only
    omega
  total := by
    rw [Heap.total, List.map_cons, List.sum_cons]
    rw [Heap.total] at hroom
    omega

/-- **`morecore` adds a block that is large enough.** -/
theorem morecore
    (hroom : h.total + headerSize * max nu.toNat 4096 < 2 ^ 36) : ∃ h' fs', Inv base h' live fs' ∧
      (∃ c ∈ fs', nu.toNat ≤ c.2) ∧ Settles (fun k => morecore k nu (some g) h) (true, h') := by
  have hmax := toNat_max nu
  simp only [Malloc.morecore, sbrk]
  generalize (if nu < 4096 then 4096 else nu) = m at hmax ⊢
  have hnode : h.brk + g ∉ base :: fs.map Prod.fst := fun hmem => by
    have := hi.lt_brk hmem
    omega
  have hlive : ∀ b ∈ live, b.1 ≠ h.brk + g := fun b hb => by
    have := hi.bounds (List.mem_append_right _ hb)
    omega
  have hwritten := hi.write hnode hlive { h.mem (h.brk + g) with size := m }
  have hgrown := hwritten.grow (g := g) (n := headerSize * m.toNat) ?_ ?_ ?_
  · obtain ⟨h', fs', hi', ⟨c, hc, hle⟩, hsettles⟩ := hgrown.free
    refine ⟨h', fs', hi', ⟨c, hc, ?_⟩, hsettles.map fun h => (true, h)⟩
    have hle := Nat.le_of_mul_le_mul_left hle (by decide)
    omega
  · exact Nat.mul_pos (by decide) (by omega)
  · rwa [hmax]
  · simp only [update_self]

section Take

variable {q p u v : ℕ} {l pre post : List (ℕ × ℕ)} {n : UInt32}

theorem take_all (s : Around base fs l q v pre ((p, u) :: post)) :
    Inv base { h with mem := update h.mem q { h.mem q with ptr := (h.mem p).ptr }, freep := q }
      (freeBlock (p, u) :: live) (pre ++ post) := by
  have hp : (p, u) ∈ fs := by
    rw [s.blocks]
    simp
  have hsize (a : ℕ) : (update h.mem q { h.mem q with ptr := (h.mem p).ptr } a).size =
      (h.mem a).size := by
    by_cases haq : a = q
    · rw [haq, update_self]
    · rw [update_of_ne haq]
  refine ⟨hi.list.splice (v := v) (m := []) (d := [(p, u)]) s.list_eq ?_
    (fun b hb => update_of_ne ?_ ..) ⟨⟨?_, ?_⟩, trivial⟩ (List.pairwise_singleton ..) ?_ ?_, ?_, ?_,
    ?_, hi.regions, hi.brk, hi.total⟩
  · rw [← List.cons_append, s.nodes, List.append_assoc]
    rfl
  · rcases List.mem_append.1 hb with hb | hb
    · exact (hi.list.before s.list_eq hb).lt.ne
    · exact (hi.list.after s.list_eq (.tail _ hb)).lt.ne'
  · simp only [update_self]
    exact hi.list.next s.list_eq_next
  · simp only [hsize]
    exact (hi.list.segments s.list_eq).2.1.2
  · simp only [List.mem_singleton, forall_eq]
    exact fun c hc => hi.list.after s.list_eq (.tail _ hc)
  · simp only [List.mem_singleton, forall_eq]
    exact hi.list.node_pos s.list_eq
  · refine hi.tiles.perm ?_
    rw [s.blocks]
    simp only [List.map_append, List.map_cons, List.append_assoc, List.cons_append]
    exact List.Perm.append_left _ List.perm_middle.symm
  · exact List.forall_mem_cons.2 ⟨hi.list.block_pos hp, hi.pos⟩
  · simp only [hsize]
    exact List.forall_mem_cons.2 ⟨congrArg _ (hi.list.size _ hp), hi.headers⟩

theorem take_end (s : Around base fs l q v pre ((p, u) :: post)) (hpos : 0 < n.toNat)
    (hlt : n.toNat < u)
    (hmem₁ : mem₁ = update h.mem p { h.mem p with size := (h.mem p).size - n })
    (ht : t = plus p (mem₁ p).size) :
    Inv base { h with mem := update mem₁ t { mem₁ t with size := n }, freep := q }
      ((t, headerSize * n.toNat) :: live) (pre ++ (p, u - n.toNat) :: post) := by
  have hp : (p, u) ∈ fs := by
    rw [s.blocks]
    simp
  have hu : (h.mem p).size.toNat = u := hi.list.size _ hp
  have hrest : ((h.mem p).size - n).toNat = u - n.toNat := by
    rw [UInt32.toNat_sub_of_le _ _ (UInt32.le_iff_toNat_le.2 (by omega)), hu]
  have ht : t = p + headerSize * (u - n.toNat) := by
    rw [ht, plus, hmem₁, update_self, hrest]
  have hpt : p < t ∧ t < p + headerSize * u := by
    simp only [headerSize] at ht ⊢
    omega
  have hold {a : ℕ} (ha : a < p ∨ p + headerSize * u ≤ a) :
      update mem₁ t { mem₁ t with size := n } a = h.mem a := by
    rw [update_of_ne (by omega), hmem₁, update_of_ne (by omega)]
  have hblock :
      update mem₁ t { mem₁ t with size := n } p = { h.mem p with size := (h.mem p).size - n } := by
    rw [update_of_ne hpt.1.ne, hmem₁, update_self]
  have hqp := (hi.list.after s.list_eq (.head _)).lt
  have hafter {b : ℕ × ℕ} (hb : b ∈ post) : Before (p, u - n.toNat) b := by
    have := hi.list.after s.list_eq_next hb
    simp only [Before, headerSize] at this ⊢
    omega
  refine ⟨hi.list.splice (v := v) (m := [(p, u - n.toNat)]) (d := [(p, u)]) s.list_eq ?_
    (fun b hb => hold ?_) ⟨⟨?_, ?_⟩, ⟨?_, ?_⟩, trivial⟩ ?_ ?_ ?_, ?_, ?_, ?_, hi.regions,
    hi.brk, hi.total⟩
  · rw [← List.cons_append, s.nodes, List.append_assoc]
    rfl
  · rcases List.mem_append.1 hb with hb | hb
    · exact .inl ((hi.list.before s.list_eq hb).lt.trans hqp)
    · exact .inr (hi.list.after s.list_eq_next hb).le
  · simp only [hold (.inl hqp)]
    exact hi.list.next s.list_eq
  · simp only [hold (.inl hqp)]
    exact (hi.list.segments s.list_eq).2.1.2
  · simp only [hblock]
    exact hi.list.next s.list_eq_next
  · simp only [hblock, hrest]
  · exact List.pairwise_pair.2 (hi.list.after (b := (p, u)) s.list_eq (.head _))
  · refine List.forall_mem_cons.2 ⟨fun c hc => hi.list.after s.list_eq (.tail _ hc), ?_⟩
    simp only [List.mem_singleton, forall_eq]
    exact fun c => hafter
  · refine List.forall_mem_cons.2 ⟨hi.list.node_pos s.list_eq, ?_⟩
    simp only [List.mem_singleton, forall_eq]
    exact fun _ => Nat.sub_pos_of_lt hlt
  · have hcut : Tiles ((p, headerSize * (u - n.toNat)) :: (t, headerSize * n.toNat) ::
        ((pre ++ post).map freeBlock ++ live)) h.regions := by
      rw [ht]
      refine Tiles.cut (hi.tiles.perm ?_)
      rw [← Nat.mul_add, Nat.sub_add_cancel hlt.le, s.blocks]
      exact (List.perm_middle.map freeBlock).append_right live
    refine hcut.perm (List.Perm.trans ?_ ((List.perm_middle.map freeBlock).append_right _).symm)
    exact (List.perm_middle.symm).cons _
  · exact List.forall_mem_cons.2 ⟨Nat.mul_pos (by decide) hpos, hi.pos⟩
  · refine List.forall_mem_cons.2 ⟨?_, fun b hb => ?_⟩
    · simp only [update_self]
    · rw [← hi.headers b hb]
      have hapart := hi.apart_free hb hp
      have hbpos := hi.pos b hb
      simp only [Extent.Apart, freeBlock] at hapart
      simp only [hold (a := b.1) (by omega)]

/-- **A block is taken from a free one that is large enough.** -/
theorem take (hq : q ∈ base :: fs.map Prod.fst) (hqp : (h.mem q).ptr = p)
    (hpos : 0 < n.toNat) (hle : n ≤ (h.mem p).size) : ∃ t fs', (take n q p h).1 = t + headerSize ∧
      Inv base (take n q p h).2 ((t, headerSize * n.toNat) :: live) fs' := by
  obtain ⟨l, v, pre, post, s⟩ := exists_around hq
  have hnext := hi.list.next s.list_eq
  rw [hqp] at hnext
  have hle := UInt32.le_iff_toNat_le.1 hle
  cases post with
  | nil =>
    have hp : p = base := hnext
    rw [hp, hi.list.base_size] at hle
    exact absurd hpos (Nat.not_lt.2 hle)
  | cons b post =>
    obtain ⟨a, u⟩ := b
    have hp : p = a := hnext
    subst hp
    have hu : (h.mem p).size.toNat = u := hi.list.size (p, u) (by rw [s.blocks]; simp)
    rw [Malloc.take]
    split
    · rename_i hsize
      have htaken := hi.take_all s
      rw [freeBlock, ← hu, hsize] at htaken
      exact ⟨p, _, rfl, htaken⟩
    · rename_i hsize
      have hlt : n.toNat < u := Nat.lt_of_le_of_ne (hu ▸ hle) fun heq =>
        hsize (UInt32.toNat_inj.1 (hu.trans heq.symm))
      exact ⟨_, _, rfl, hi.take_end s hpos hlt rfl rfl⟩

end Take

end Inv

/-! ### The loop of `malloc` -/

section Loop

variable {n : UInt32}

/-- The turn in which the loop has come around to `freep`, and what follows it. -/
def more (n : UInt32) (gaps : List (Option ℕ)) (h : Heap) (k : ℕ) : Option (ℕ × Heap) :=
  (morecore k n (gaps.headD none) h).bind fun r =>
    if r.1 then mallocLoop n k gaps.tail r.2.freep (r.2.mem r.2.freep).ptr r.2 else some (0, r.2)

theorem mallocLoop_of_freep {q : ℕ} (hsize : ¬ n ≤ (h.mem h.freep).size) (k : ℕ) :
    mallocLoop n (k + 1) gaps q h.freep h = more n gaps h k := by
  rw [mallocLoop, if_neg hsize, if_pos rfl, more]
  cases morecore k n (gaps.headD none) h with
  | none => rfl
  | some r =>
    obtain ⟨b, h'⟩ := r
    cases b <;> rfl

/-- **The loop finds a block that is large enough, or comes around to `freep`.** -/
theorem scan (gaps : List (Option ℕ)) {l : List ℕ} {q : ℕ}
    (hleads : Leads (fun a => (h.mem a).ptr) (q :: l ++ [h.freep])) (hl : h.freep ∉ l) :
    (∃ q' ∈ q :: l, n ≤ (h.mem (h.mem q').ptr).size ∧
      Settles (fun k => mallocLoop n k gaps q (h.mem q).ptr h) (take n q' (h.mem q').ptr h)) ∨
    (∀ a ∈ l ++ [h.freep], ¬ n ≤ (h.mem a).size) ∧ ∀ r, Settles (more n gaps h) r →
      Settles (fun k => mallocLoop n k gaps q (h.mem q).ptr h) r := by
  induction l generalizing q with
  | nil =>
    have hnext : (h.mem q).ptr = h.freep := (List.isChain_cons_cons.1 hleads).1
    rw [hnext]
    by_cases hsize : n ≤ (h.mem h.freep).size
    · refine .inl ⟨q, List.mem_cons_self .., by rwa [hnext], .now rfl fun k => ?_⟩
      rw [mallocLoop, if_pos hsize, hnext]
    · exact .inr ⟨by simpa using hsize, fun r hr => .later rfl (mallocLoop_of_freep hsize) hr⟩
  | cons a l ih =>
    have hnext : (h.mem q).ptr = a := (List.isChain_cons_cons.1 hleads).1
    obtain ⟨hne, hl⟩ := not_or.1 (mt List.mem_cons.2 hl)
    rw [hnext]
    by_cases hsize : n ≤ (h.mem a).size
    · refine .inl ⟨q, List.mem_cons_self .., by rwa [hnext], .now rfl fun k => ?_⟩
      rw [mallocLoop, if_pos hsize, hnext]
    · have hturn (k : ℕ) : mallocLoop n (k + 1) gaps q a h = mallocLoop n k gaps a
          (h.mem a).ptr h := by
        rw [mallocLoop, if_neg hsize, if_neg (Ne.symm hne)]
      rcases ih hleads.tail hl with ⟨q', hq', hle, hsettles⟩ | ⟨hnone, hmore⟩
      · exact .inl ⟨q', .tail _ hq', hle, .later rfl hturn hsettles⟩
      · exact .inr ⟨List.forall_mem_cons.2 ⟨hsize, hnone⟩, fun r hr => .later rfl hturn
          (hmore r hr)⟩

/-- What `malloc` has done when it ends: it has taken a block, or there is no memory. -/
def Done (base : ℕ) (n : UInt32) (live : List Extent) (r : ℕ × Heap) : Prop :=
  (∃ fs, r.1 = 0 ∧ Inv base r.2 live fs) ∨
    ∃ t fs, r.1 = t + headerSize ∧ Inv base r.2 ((t, headerSize * n.toNat) :: live) fs

theorem Inv.scan_ring (gaps : List (Option ℕ)) (hi : Inv base h live fs) (hpos : 0 < n.toNat) :
    (∃ r, Done base n live r ∧
      Settles (fun k => mallocLoop n k gaps h.freep (h.mem h.freep).ptr h) r) ∨
    (∀ b ∈ fs, b.2 < n.toNat) ∧ ∀ r, Settles (more n gaps h) r →
      Settles (fun k => mallocLoop n k gaps h.freep (h.mem h.freep).ptr h) r := by
  obtain ⟨l₁, l₂, hnodes⟩ := List.append_of_mem hi.list.freep
  have hring := hi.list.ring
  have hperm : (base :: fs.map Prod.fst).Perm (h.freep :: (l₂ ++ l₁)) := by
    rw [hnodes]
    exact List.perm_append_comm
  rw [hnodes] at hring
  have hrotated : Circles (fun a => (h.mem a).ptr) (h.freep :: (l₂ ++ l₁)) := hring.rotate
  have hfresh := (List.nodup_cons.1 (hperm.nodup_iff.1 hi.list.nodup)).1
  rcases scan gaps hrotated hfresh with ⟨q, hq, hle, hsettles⟩ | ⟨hnone, hmore⟩
  · have hnode : q ∈ base :: fs.map Prod.fst := hperm.mem_iff.2 hq
    obtain ⟨t, fs', hptr, hi'⟩ := hi.take hnode rfl hpos hle
    exact .inl ⟨_, .inr ⟨t, fs', hptr, hi'⟩, hsettles⟩
  refine .inr ⟨fun b hb => ?_, hmore⟩
  have hsize := hi.list.size b hb
  have hnode : b.1 ∈ base :: fs.map Prod.fst := .tail _ (List.mem_map_of_mem hb)
  have hlt := hnone b.1 (List.perm_append_singleton .. |>.mem_iff.2 (hperm.mem_iff.1 hnode))
  rw [UInt32.le_iff_toNat_le] at hlt
  omega

/-- **The loop ends**: `morecore` fails, or it adds a block that is large enough. -/
theorem Inv.settles_loop (hi : Inv base h live fs) (hpos : 0 < n.toNat)
    (hroom : (gaps.headD none).isSome → h.total + headerSize * max n.toNat 4096 < 2 ^ 36) :
    ∃ r, Done base n live r ∧
    Settles (fun k => mallocLoop n k gaps h.freep (h.mem h.freep).ptr h) r := by
  rcases hi.scan_ring gaps hpos with hfound | ⟨-, hmore⟩
  · exact hfound
  cases hgap : gaps.headD none with
  | none =>
    refine ⟨(0, h), .inl ⟨fs, rfl, hi⟩, hmore _ (.const fun k => ?_)⟩
    rw [more, hgap]
    rfl
  | some g =>
    obtain ⟨h', fs', hi', ⟨c, hc, hle⟩, hsettles⟩ :=
      hi.morecore (g := g) (hroom (by rw [hgap]; rfl))
    rcases hi'.scan_ring gaps.tail hpos with ⟨r, hr, hagain⟩ | ⟨hnone, -⟩
    · have hrest := hsettles.bind (m := fun r k =>
        if r.1 then mallocLoop n k gaps.tail r.2.freep (r.2.mem r.2.freep).ptr r.2 else
          some (0, r.2)) hagain
      rw [← hgap] at hrest
      exact ⟨r, hr, hmore r hrest⟩
    · exact absurd hle (Nat.not_le.2 (hnone c hc))

end Loop

/-! ### Programs -/

theorem toNat_unitsFor (nbytes : UInt32) :
    (unitsFor nbytes).toNat = (nbytes.toNat + headerSize - 1) / headerSize + 1 := by
  have := nbytes.toNat_lt
  rw [unitsFor, UInt32.toNat_ofNat_of_lt']
  simp only [headerSize, UInt32.size]
  omega

/-- `sbrk` fails rather than return `2 ^ 36` bytes in all. -/
def Fits (s : Sys) : Act → Prop
  | .malloc _ nbytes gaps => (gaps.headD none).isSome →
      s.heap.total + headerSize * max (unitsFor nbytes).toNat 4096 < 2 ^ 36
  | .free _ _ => True
  | .store _ _ => True

instance (s : Sys) (a : Act) : Decidable (Proper s a) := by
  cases a <;> unfold Proper <;> infer_instance

instance (s : Sys) (a : Act) : Decidable (Fits s a) := by
  cases a <;> unfold Fits <;> infer_instance

structure Good (base : ℕ) (s : Sys) : Prop where
  brk : base + headerSize ≤ s.heap.brk
  ptrs : ∀ x ∈ s.live, headerSize ≤ x.1
  inv : s.heap.freep = 0 ∧ s.live = [] ∧ s.heap.regions = [] ∨
    ∃ fs, Inv base s.heap (s.live.map liveBlock) fs

theorem Inv.freep_ne (hi : Inv base h live fs) (hbase : 0 < base) : h.freep ≠ 0 := by
  have := hi.list.base_le hi.list.freep
  omega

theorem Inv.start (hbrk : base + headerSize ≤ brk) (mem : ℕ → Header) :
    Inv base { mem := update mem base { ptr := base, size := 0 }, freep := base, brk, regions := [] }
      [] [] where
  list := ⟨⟨by simp, trivial⟩, by simp, List.pairwise_singleton .., by simp⟩
  tiles := Tiles.nil
  pos := by simp
  headers := by simp
  regions := by simp
  brk := hbrk
  total := Nat.two_pow_pos 36

theorem Good.start (hg : Good base s) (hbase : 0 < base) :
    (∃ fs, Inv base (start base s.heap) (s.live.map liveBlock) fs) ∧
    (start base s.heap).total = s.heap.total := by
  obtain ⟨heap, live⟩ := s
  obtain ⟨mem, freep, brk, regions⟩ := heap
  rcases hg.inv with ⟨rfl, rfl, rfl⟩ | ⟨fs, hi⟩
  · rw [Malloc.start, if_pos rfl]
    exact ⟨⟨[], Inv.start hg.brk mem⟩, rfl⟩
  · rw [Malloc.start, if_neg (hi.freep_ne hbase)]
    exact ⟨⟨fs, hi⟩, rfl⟩

theorem unitsFor_pos (nbytes : UInt32) : 0 < (unitsFor nbytes).toNat := by
  rw [toNat_unitsFor]
  exact Nat.succ_pos _

theorem Done.good (h : Done base (unitsFor nbytes) (s.live.map liveBlock) r) (hg : Good base s) :
    Good base { heap := r.2, live := if r.1 = 0 then s.live else (r.1, nbytes) :: s.live } := by
  rcases h with ⟨fs', hzero, hi'⟩ | ⟨t, fs', hptr, hi'⟩
  · rw [if_pos hzero]
    exact ⟨hi'.brk, hg.ptrs, .inr ⟨fs', hi'⟩⟩
  · have hblock : liveBlock (r.1, nbytes) = (t, headerSize * (unitsFor nbytes).toNat) := by
      rw [liveBlock, hptr, Nat.add_sub_cancel]
    rw [if_neg (by rw [hptr]; simp)]
    refine ⟨hi'.brk, List.forall_mem_cons.2 ⟨by rw [hptr]; simp, hg.ptrs⟩, .inr ⟨fs', ?_⟩⟩
    rwa [List.map_cons, hblock]

/-- **`malloc` ends, and the heap is as it should be.** -/
theorem Good.malloc (hg : Good base s) (hbase : 0 < base)
    (hfits : Fits s (.malloc k nbytes gaps)) :
    ∃ r, Settles (fun k => malloc base k nbytes gaps s.heap) r ∧
      Good base { heap := r.2, live := if r.1 = 0 then s.live else (r.1, nbytes) :: s.live } := by
  obtain ⟨⟨fs, hi⟩, htotal⟩ := hg.start hbase
  obtain ⟨r, hdone, hsettles⟩ := hi.settles_loop (unitsFor_pos nbytes) fun hgap =>
    htotal ▸ hfits hgap
  exact ⟨r, hsettles, hdone.good hg⟩

/-- **`free` of a live block ends, and the heap is as it should be.** -/
theorem Good.free (hg : Good base s) (hx : x ∈ s.live) : ∃ h', Settles
    (fun k => free k x.1 s.heap) h' ∧
    Good base { heap := h', live := s.live.eraseP fun y => y.1 = x.1 } := by
  rcases hg.inv with ⟨-, hnil, -⟩ | ⟨fs, hi⟩
  · rw [hnil] at hx
    cases hx
  obtain ⟨y, l₁, l₂, -, hy, hlive, herase⟩ :=
    List.exists_of_eraseP hx (p := fun y => y.1 = x.1) (by simp)
  rw [herase]
  have hyx : x.1 = (liveBlock y).1 + headerSize := by
    have := hg.ptrs x hx
    rw [liveBlock, of_decide_eq_true hy]
    omega
  have hmoved : Inv base s.heap (liveBlock y :: (l₁ ++ l₂).map liveBlock) fs := by
    refine hi.perm ?_
    rw [hlive]
    exact List.perm_middle.map liveBlock
  obtain ⟨h', fs', hi', -, hsettles⟩ := hmoved.free
  rw [hyx]
  refine ⟨h', hsettles, hi'.brk, fun z hz => hg.ptrs z ?_, .inr ⟨fs', hi'⟩⟩
  rw [hlive, List.perm_middle.mem_iff]
  exact .tail _ hz

theorem Good.store (hg : Good base s) {v : Header} (hproper : Proper s (.store a v)) :
    Good base { s with heap := { s.heap with mem := update s.heap.mem a v } } := by
  obtain ⟨x, hx, hlt, hle⟩ := hproper
  rcases hg.inv with ⟨-, hnil, -⟩ | ⟨fs, hi⟩
  · rw [hnil] at hx
    cases hx
  have hunits := toNat_unitsFor x.2
  have hptr := hg.ptrs x hx
  have hblock := List.mem_map_of_mem (f := liveBlock) hx
  -- the address lies inside the block, behind its first byte
  have hinside : (liveBlock x).1 < a ∧ a < (liveBlock x).1 + (liveBlock x).2 := by
    simp only [liveBlock, headerSize] at hlt hptr hunits ⊢
    omega
  have hnode := hi.not_mem_nodes hblock ⟨hinside.1.le, hinside.2⟩
  exact ⟨hg.brk, hg.ptrs, .inr ⟨fs, hi.write hnode (fun c hc => hi.header_ne hblock hc hinside) v⟩⟩

theorem Good.step {s' : Sys} {a : Act} (hg : Good base s) (hbase : 0 < base) (hproper : Proper s a)
    (hfits : Fits s a) (hs : step base s a = some s') : Good base s' := by
  cases a with
  | malloc k nbytes gaps =>
    obtain ⟨r', hr', rfl⟩ := Option.map_eq_some_iff.1 hs
    obtain ⟨r, hsettles, hgood⟩ := hg.malloc hbase hfits
    rwa [← hsettles.eq_of_some hr'] at hgood
  | free k ap =>
    obtain ⟨h', hh', rfl⟩ := Option.map_eq_some_iff.1 hs
    obtain ⟨x, hx, rfl⟩ := hproper
    obtain ⟨h, hsettles, hgood⟩ := hg.free hx
    rwa [← hsettles.eq_of_some hh'] at hgood
  | store a v =>
    cases hs
    exact hg.store hproper

theorem Good.init (hbrk : base + headerSize ≤ brk) (mem : ℕ → Header) : Good base (init brk mem) :=
  ⟨hbrk, by simp [Malloc.init], .inl ⟨rfl, rfl, rfl⟩⟩

theorem Inv.sound (hi : Inv base s.heap (s.live.map liveBlock) fs)
    (hptrs : ∀ x ∈ s.live, headerSize ≤ x.1) : Sound base s fs where
  ring := hi.list.ring
  size := hi.list.size
  freep := hi.list.freep
  sorted := hi.list.sorted_nodes
  gaps _ ha hne := hi.list.plus_ne ha hne
  tiles := hi.tiles
  usable x hx := by
    refine ⟨hptrs x hx, ?_⟩
    simp only [liveBlock, toNat_unitsFor, headerSize]
    omega

/-- **The heap invariant**, for every program, as long as `sbrk` returns less than `2 ^ 36` bytes in
all; and every call ends. -/
theorem heap_sound {brk : ℕ} {mem : ℕ → Header} {s : Sys} (hbase : 0 < base)
    (hbrk : base + headerSize ≤ brk)
    (hreach : Reach (step base) (fun s a => Proper s a ∧ Fits s a) (init brk mem) s) :
    (s.heap.freep = 0 ∧ s.live = [] ∧ s.heap.regions = [] ∨ ∃ fs, Sound base s fs) ∧
      (∀ nbytes gaps, Proper s (.malloc 0 nbytes gaps) → Fits s (.malloc 0 nbytes gaps) →
        ∃ n, ∀ k, n ≤ k → (malloc base k nbytes gaps s.heap).isSome) ∧
      ∀ x ∈ s.live, ∃ n, ∀ k, n ≤ k → (free k x.1 s.heap).isSome := by
  have hg : Good base s := hreach.invariant (I := Good base) (Good.init hbrk mem)
    fun s a s' hg hok hs => hg.step hbase hok.1 hok.2 hs
  refine ⟨hg.inv.imp_right fun hinv => ?_, fun nbytes gaps _ hfits => ?_, fun x hx => ?_⟩
  · obtain ⟨fs, hi⟩ := hinv
    exact ⟨fs, hi.sound hg.ptrs⟩
  · obtain ⟨r, hsettles, -⟩ := hg.malloc hbase hfits
    obtain ⟨n, hn⟩ := hsettles.exists_some
    exact ⟨n, fun k hk => by rw [hn k hk]; rfl⟩
  · obtain ⟨h', hsettles, -⟩ := hg.free hx
    obtain ⟨n, hn⟩ := hsettles.exists_some
    exact ⟨n, fun k hk => by rw [hn k hk]; rfl⟩

theorem heap_sound_of_run : ∃ s fs, Sound 16 s fs ∧ s.live.length = 1 := by
  have hrun : (run (step 16) (fun s a => Proper s a ∧ Fits s a) (init 64 fun _ => ⟨0, 0⟩)
      [.malloc 10 100 [some 0], .malloc 10 24 [none], .store 65500 ⟨7, 7⟩, .free 10 65488]).map
        (fun s => (decide (s.heap.freep = 0), s.live.length)) = some (false, 1) := by
    decide +kernel
  obtain ⟨s, hreach, hvalue⟩ := exists_reach_of_run hrun
  obtain ⟨hfreep, hlive⟩ := Prod.mk.inj hvalue
  rcases (heap_sound (by decide) (by decide) hreach).1 with ⟨hzero, -⟩ | ⟨fs, hsound⟩
  · exact absurd hzero (of_decide_eq_false hfreep)
  · exact ⟨s, fs, hsound, hlive⟩

/-- `n` blocks of almost `2 ^ 31` bytes, and all of them freed. -/
def largeBlocks (n : ℕ) : List Act := List.replicate n (.malloc 40 2147483616 [some 0]) ++
    (List.range n).map fun i => .free 40 (64 + headerSize + i * (headerSize * (2 ^ 27 - 1)))

/-- **A size that does not fit.**  The 33 blocks are joined to one of `33 * (2 ^ 27 - 1)` headers,
which is more than `2 ^ 32`. -/
theorem heap_overflow : ∃ s, Reach (step 16) Proper (init 64 fun _ => ⟨0, 0⟩) s ∧ s.heap.freep ≠ 0 ∧
    ∀ fs, ¬ Sound 16 s fs := by
  have hrun : (run (step 16) Proper (init 64 fun _ => ⟨0, 0⟩) (largeBlocks 33)).map
      (fun s => (s.heap.freep, s.live, (s.heap.mem 16).ptr, s.heap.mem 64, s.heap.total)) =
        some (64, [], 64, ⟨16, 134217695⟩, 33 * (headerSize * (2 ^ 27 - 1))) := by
    decide +kernel
  obtain ⟨s, hreach, hvalue⟩ := exists_reach_of_run hrun
  simp only [Prod.mk.injEq] at hvalue
  obtain ⟨hfreep, hlive, hbase, hblock, htotal⟩ := hvalue
  refine ⟨s, hreach, by rw [hfreep]; decide, fun fs hsound => ?_⟩
  have hsorted := hsound.sorted
  cases fs with
  | nil =>
    have hnext : (s.heap.mem 16).ptr = 16 := (List.isChain_cons_cons.1 hsound.ring).1
    rw [hbase] at hnext
    cases hnext
  | cons b fs =>
    obtain ⟨a, u⟩ := b
    have hnext : (s.heap.mem 16).ptr = a := (List.isChain_cons_cons.1 hsound.ring).1
    have ha : a = 64 := hnext.symm.trans hbase
    subst ha
    cases fs with
    | nil =>
      have hsize : (s.heap.mem 64).size.toNat = u := hsound.size (64, u) (List.mem_singleton_self _)
      have hsum := hsound.tiles.total
      rw [hblock] at hsize
      rw [hlive, ← hsize] at hsum
      rw [Heap.total] at htotal
      rw [htotal] at hsum
      revert hsum
      decide
    | cons c fs =>
      have hback : (s.heap.mem 64).ptr = c.1 := (List.isChain_cons_cons.1 hsound.ring.tail).1
      rw [hblock] at hback
      have := (List.pairwise_cons.1 hsorted).1 c.1 (by simp)
      exact absurd hback (Nat.ne_of_lt this)

end Xv6.Malloc
