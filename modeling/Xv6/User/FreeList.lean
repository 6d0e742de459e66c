/-
# `free` keeps the free list

The free list is sorted by address, and there is memory between any two neighbours (`FreeList`).
The loop of `free` stops at the last node before the block (`Split.stops_iff`); then the block is
joined to its neighbours where they touch.  Each change replaces a few nodes of the list
(`FreeList.splice`).
-/

import Xv6.User.Malloc
import Mathlib.Algebra.Order.BigOperators.Group.List
import Mathlib.Algebra.Order.Group.Nat
import Mathlib.Data.List.Nodup

namespace Xv6.Malloc

open Lib Function

variable {base : ℕ} {mem mem' : ℕ → Header} {freep bp p u w a : ℕ} {fs fs' l l₁ l₂ r : List (ℕ × ℕ)}
  {b : ℕ × ℕ}

/-! ### Segments -/

/-- The headers of the blocks `l`, each with its address and size, lead from one to the next, and
from the last to `a`. -/
def Segment (mem : ℕ → Header) : List (ℕ × ℕ) → ℕ → Prop
  | [], _ => True
  | b :: l, a =>
    ((mem b.1).ptr = (l.map Prod.fst).headD a ∧ (mem b.1).size.toNat = b.2) ∧ Segment mem l a

theorem headD_map_append (l₁ l₂ : List (ℕ × ℕ)) (a : ℕ) :
    ((l₁ ++ l₂).map Prod.fst).headD a = (l₁.map Prod.fst).headD ((l₂.map Prod.fst).headD a) := by
  cases l₁ with
  | nil => rfl
  | cons b l₁ => rfl

theorem segment_append :
    Segment mem (l₁ ++ l₂) a ↔ Segment mem l₁ ((l₂.map Prod.fst).headD a) ∧ Segment mem l₂ a := by
  induction l₁ with
  | nil => exact (iff_of_eq (true_and _)).symm
  | cons b l₁ ih => rw [List.cons_append, Segment, Segment, ih, headD_map_append, ← and_assoc]

namespace Segment

theorem congr (h : Segment mem l a) (hmem : ∀ b ∈ l, mem' b.1 = mem b.1) : Segment mem' l a := by
  induction l with
  | nil => trivial
  | cons b l ih =>
    rw [Segment, hmem b (.head _)]
    exact ⟨h.1, ih h.2 fun c hc => hmem c (.tail _ hc)⟩

theorem size (h : Segment mem l a) (hb : b ∈ l) : (mem b.1).size.toNat = b.2 := by
  obtain ⟨l₁, l₂, rfl⟩ := List.append_of_mem hb
  exact (segment_append.1 h).2.1.2

theorem leads (h : Segment mem l a) : Leads (fun x => (mem x).ptr) (l.map Prod.fst ++ [a]) := by
  induction l with
  | nil => exact List.isChain_singleton _
  | cons b l ih =>
    cases l with
    | nil => exact List.isChain_pair.2 h.1.1
    | cons c l => exact List.isChain_cons_cons.2 ⟨h.1.1, ih h.2⟩

end Segment

/-! ### The list -/

/-- One block ends before the other starts, and there is memory between them. -/
def Before (a b : ℕ × ℕ) : Prop := a.1 + headerSize * a.2 < b.1

theorem Before.lt {a : ℕ × ℕ} (h : Before a b) : a.1 < b.1 :=
  Nat.lt_of_le_of_lt (Nat.le_add_right ..) h

theorem Before.trans {a c : ℕ × ℕ} (h : Before a b) (hbc : b.1 ≤ c.1) : Before a c :=
  Nat.lt_of_lt_of_le h hbc

/-- The free blocks `fs`, each with its address and size; `base` counts as one of size 0. -/
structure FreeList (base : ℕ) (mem : ℕ → Header) (freep : ℕ) (fs : List (ℕ × ℕ)) : Prop where
  segment : Segment mem ((base, 0) :: fs) base
  freep : freep ∈ base :: fs.map Prod.fst
  sorted : ((base, 0) :: fs).Pairwise Before
  pos : ∀ b ∈ fs, 0 < b.2

namespace FreeList

theorem exists_node (ha : a ∈ base :: fs.map Prod.fst) :
    ∃ l u r, (base, 0) :: fs = l ++ (a, u) :: r := by
  have hmap : a ∈ ((base, 0) :: fs).map Prod.fst := ha
  obtain ⟨b, hb, rfl⟩ := List.mem_map.1 hmap
  obtain ⟨l, r, hl⟩ := List.append_of_mem hb
  exact ⟨l, b.2, r, hl⟩

variable (h : FreeList base mem freep fs)
include h

theorem ring : Circles (fun a => (mem a).ptr) (base :: fs.map Prod.fst) := h.segment.leads

theorem size : ∀ b ∈ fs, (mem b.1).size.toNat = b.2 := fun _ hb => h.segment.size (.tail _ hb)

theorem base_size : (mem base).size = 0 := UInt32.toNat_inj.1 h.segment.1.2

theorem above (hb : b ∈ fs) : base < b.1 := (List.pairwise_cons.1 h.sorted).1 b hb

theorem block_pos (hb : b ∈ fs) : 0 < (freeBlock b).2 := Nat.mul_pos (by decide) (h.pos b hb)

theorem sorted_nodes : (base :: fs.map Prod.fst).Pairwise (· < ·) :=
  List.pairwise_map.2 (h.sorted.imp Before.lt)

theorem nodup : (base :: fs.map Prod.fst).Nodup := h.sorted_nodes.imp fun hab => Nat.ne_of_lt hab

theorem base_le (ha : a ∈ base :: fs.map Prod.fst) : base ≤ a := by
  rcases List.mem_cons.1 ha with rfl | ha
  · exact Nat.le_refl _
  · obtain ⟨b, hb, rfl⟩ := List.mem_map.1 ha
    exact (h.above hb).le

theorem congr (hmem : ∀ a ∈ base :: fs.map Prod.fst, mem' a = mem a) :
    FreeList base mem' freep fs :=
  ⟨h.segment.congr fun b hb => hmem b.1 (List.mem_map_of_mem (f := Prod.fst) hb), h.freep,
    h.sorted, h.pos⟩

theorem segments (hl : (base, 0) :: fs = l ++ r) :
    Segment mem l ((r.map Prod.fst).headD base) ∧ Segment mem r base := by
  rw [← segment_append, ← hl]
  exact h.segment

section

variable (hl : (base, 0) :: fs = l ++ (a, u) :: r)
include hl

theorem next : (mem a).ptr = (r.map Prod.fst).headD base := (h.segments hl).2.1.1

theorem before (hb : b ∈ l) : Before b (a, u) := by
  have hsorted := h.sorted
  rw [hl] at hsorted
  exact (List.pairwise_append.1 hsorted).2.2 b hb _ (.head _)

theorem after (hb : b ∈ r) : Before (a, u) b := by
  have hsorted := h.sorted
  rw [hl] at hsorted
  exact (List.pairwise_cons.1 (List.pairwise_append.1 hsorted).2.1).1 b hb

theorem node_pos (hlt : base < a) : 0 < u := by
  have ha : (a, u) ∈ (base, 0) :: fs := by
    rw [hl]
    simp
  rcases List.mem_cons.1 ha with heq | ha
  · cases heq
    exact absurd hlt (Nat.lt_irrefl _)
  · exact h.pos _ ha

end

theorem plus_ne (ha : a ∈ base :: fs.map Prod.fst) (hne : (mem a).ptr ≠ a) :
    plus a (mem a).size ≠ (mem a).ptr := by
  obtain ⟨l, u, r, hl⟩ := exists_node ha
  have hle := h.base_le ha
  rw [h.next hl] at hne ⊢
  rw [plus, (h.segments hl).2.1.2]
  cases r with
  | nil =>
    simp only [List.map_nil, List.headD_nil] at hne ⊢
    omega
  | cons c r => exact Nat.ne_of_lt (h.after hl (.head _))

end FreeList

/-! ### The search -/

def Stops (mem : ℕ → Header) (bp p : ℕ) : Prop :=
  p < bp ∧ bp < (mem p).ptr ∨ (mem p).ptr ≤ p ∧ (p < bp ∨ bp < (mem p).ptr)

theorem search_path {l : List ℕ} {p q : ℕ} (hl : Leads (fun a => (mem a).ptr) (l ++ [p]))
    (hq : (l ++ [p]).head? = some q) (hpass : ∀ a ∈ l, ¬ Stops mem bp a) (hstop : Stops mem bp p) :
    Settles (fun k => search mem bp k q) p := by
  induction l generalizing q with
  | nil =>
    cases hq
    refine .now rfl fun k => ?_
    rw [search]
    split
    · rfl
    · rename_i hfirst
      rw [if_pos (hstop.resolve_left hfirst)]
  | cons a l ih =>
    cases hq
    have hnext : (l ++ [p]).head? = some (mem a).ptr := by
      cases l with
      | nil => exact congrArg some (List.isChain_cons_cons.1 hl).1.symm
      | cons c l => exact congrArg some (List.isChain_cons_cons.1 hl).1.symm
    obtain ⟨hfirst, hsecond⟩ := not_or.1 (hpass a (.head _))
    refine .later rfl (fun k => ?_) (ih hl.tail hnext fun x hx => hpass x (.tail _ hx))
    rw [search, if_neg hfirst, if_neg hsecond]

/-- The free list around a node `p`, whose size is `u`: the blocks `pre` and `post`, and all nodes
before `p`. -/
structure Around (base : ℕ) (fs l : List (ℕ × ℕ)) (p u : ℕ) (pre post : List (ℕ × ℕ)) : Prop where
  blocks : fs = pre ++ post
  nodes : (base, 0) :: pre = l ++ [(p, u)]

variable {pre post : List (ℕ × ℕ)}

theorem Around.list_eq (s : Around base fs l p u pre post) :
    (base, 0) :: fs = l ++ (p, u) :: post := by
  rw [s.blocks, ← List.cons_append, s.nodes, List.append_assoc, List.singleton_append]

theorem Around.list_eq_next (s : Around base fs l p u pre (b :: post)) :
    (base, 0) :: fs = (l ++ [(p, u)]) ++ b :: post := by
  rw [s.list_eq, List.append_assoc, List.singleton_append]

theorem exists_around (hp : p ∈ base :: fs.map Prod.fst) :
    ∃ l u pre post, Around base fs l p u pre post := by
  obtain ⟨l, u, r, hl⟩ := FreeList.exists_node hp
  cases l with
  | nil =>
    cases hl
    exact ⟨[], 0, [], fs, rfl, rfl⟩
  | cons b l =>
    obtain ⟨rfl, rfl⟩ := List.cons.inj hl
    exact ⟨(base, 0) :: l, u, l ++ [(p, u)], r, by simp, rfl⟩

/-- The free list around a block at `bp`: `p` is the last node before it. -/
structure Split (base : ℕ) (fs : List (ℕ × ℕ)) (bp : ℕ) (l : List (ℕ × ℕ)) (p u : ℕ)
    (pre post : List (ℕ × ℕ)) : Prop extends Around base fs l p u pre post where
  lt : p < bp
  after : ∀ b ∈ post, bp < b.1

theorem exists_split (hbase : base < bp) (hsorted : ((base, u) :: fs).Pairwise Before)
    (hbp : ∀ b ∈ fs, b.1 ≠ bp) :
    ∃ l p v pre post, fs = pre ++ post ∧ (base, u) :: pre = l ++ [(p, v)] ∧ p < bp ∧
    ∀ b ∈ post, bp < b.1 := by
  induction fs generalizing base u with
  | nil => exact ⟨[], base, u, [], [], rfl, rfl, hbase, by simp⟩
  | cons b fs ih =>
    obtain ⟨hb, hrest⟩ := List.forall_mem_cons.1 hbp
    have htail := (List.pairwise_cons.1 hsorted).2
    rcases Nat.lt_or_gt_of_ne hb with hlt | hgt
    · obtain ⟨l, p, v, pre, post, rfl, hpre, hp, hpost⟩ := ih hlt htail hrest
      exact ⟨(base, u) :: l, p, v, b :: pre, post, rfl, by rw [List.cons_append, ← hpre], hp, hpost⟩
    · refine ⟨[], base, u, [], b :: fs, rfl, rfl, hbase, List.forall_mem_cons.2
        ⟨hgt, fun c hc => ?_⟩⟩
      exact hgt.trans ((List.pairwise_cons.1 htail).1 c hc).lt

namespace Split

/-- **The loop of `free` stops at `p` and at no other node.** -/
theorem stops_iff (s : Split base fs bp l p u pre post) (h : FreeList base mem freep fs)
    (hbase : base < bp) (ha : a ∈ base :: fs.map Prod.fst) : Stops mem bp a ↔ a = p := by
  have hlt := s.lt
  have hle := h.base_le ha
  -- no node lies between `p` and `bp`
  have hgap {x v : ℕ} (hx : (x, v) ∈ (base, 0) :: fs) : x ≤ p ∨ bp < x := by
    rw [s.list_eq, List.mem_append, List.mem_cons] at hx
    rcases hx with hx | hx | hx
    · exact .inl (h.before s.list_eq hx).lt.le
    · cases hx
      exact .inl (Nat.le_refl _)
    · exact .inr (s.after _ hx)
  have hp : (p, u) ∈ (base, 0) :: fs := by
    rw [s.list_eq]
    simp
  obtain ⟨l', v, r, hl⟩ := FreeList.exists_node ha
  have hself := hgap (x := a) (v := v) (by rw [hl]; simp)
  rw [Stops, h.next hl]
  rw [hl, List.mem_append, List.mem_cons] at hp
  cases r with
  | nil =>
    simp only [List.map_nil, List.headD_nil]
    rcases hp with hp | hp | hp
    · have := (h.before hl hp).lt
      omega
    · cases hp
      omega
    · cases hp
  | cons c r =>
    have hac := (h.after hl (.head _)).lt
    have hc := hgap (x := c.1) (v := c.2) (by rw [hl]; simp)
    simp only [List.map_cons, List.headD_cons] at hac ⊢
    rcases hp with hp | hp | hp
    · have := (h.before hl hp).lt
      omega
    · cases hp
      omega
    have hl' : (base, 0) :: fs = (l' ++ [(a, v)]) ++ (c.1, c.2) :: r := by
      rw [hl, List.append_assoc, List.singleton_append]
    have hcp : c.1 ≤ p := by
      rcases List.mem_cons.1 hp with rfl | hp
      · exact Nat.le_refl _
      · exact (h.after hl' hp).lt.le
    omega

theorem settles_search (s : Split base fs bp l p u pre post) (h : FreeList base mem freep fs)
    (hbase : base < bp) : Settles (fun k => search mem bp k freep) p := by
  have hp : p ∈ ((base, 0) :: fs).map Prod.fst := by
    rw [s.list_eq]
    simp
  obtain ⟨l, hleads, hhead, hpass⟩ := h.ring.exists_path h.nodup h.freep hp
  refine search_path hleads hhead (fun a ha => ?_) ((s.stops_iff h hbase hp).2 rfl)
  rw [s.stops_iff h hbase (hpass a ha).1]
  exact (hpass a ha).2

end Split

/-! ### Changes of the list -/

/-- **Neighbours are replaced**: the node `p` gets the size `v`, the blocks `mid` come after it, and
then those of `post` from `rest` on. -/
theorem FreeList.splice {v : ℕ} {m d rest : List (ℕ × ℕ)} (h : FreeList base mem freep fs)
    (hl : (base, 0) :: fs = l ++ (p, u) :: (d ++ rest))
    (hfs : (base, 0) :: fs' = l ++ (p, v) :: (m ++ rest))
    (hmem : ∀ b ∈ l ++ rest, mem' b.1 = mem b.1)
    (hseg : Segment mem' ((p, v) :: m) ((rest.map Prod.fst).headD base))
    (hmid : ((p, v) :: m).Pairwise Before) (hrest : ∀ b ∈ (p, v) :: m, ∀ c ∈ rest, Before b c)
    (hpos : ∀ b ∈ (p, v) :: m, base < b.1 → 0 < b.2) : FreeList base mem' p fs' := by
  obtain ⟨hbefore, -, hafter⟩ := h.segments hl
  have hsorted := h.sorted
  rw [hl, List.pairwise_append] at hsorted
  obtain ⟨hsl, hsr, -⟩ := hsorted
  have hnew : ((base, 0) :: fs').Pairwise Before := by
    rw [hfs, ← List.cons_append]
    refine List.pairwise_append.2 ⟨hsl, List.pairwise_append.2 ⟨hmid, ?_, hrest⟩,
      fun b hb c hc => ?_⟩
    · exact (List.pairwise_append.1 (List.pairwise_cons.1 hsr).2).2.1
    have hbp := h.before hl hb
    rcases List.mem_append.1 hc with hc | hc
    · rcases List.mem_cons.1 hc with rfl | hc
      · exact hbp
      · exact hbp.trans ((List.pairwise_cons.1 hmid).1 c hc).lt.le
    · exact hbp.trans (h.after hl (List.mem_append_right _ hc)).lt.le
  refine ⟨?_, ?_, hnew, fun b hb => ?_⟩
  · rw [hfs, ← List.cons_append, segment_append, segment_append]
    exact ⟨hbefore.congr fun b hb => hmem b (List.mem_append_left _ hb), hseg,
      (segment_append.1 hafter).2.congr fun b hb => hmem b (List.mem_append_right _ hb)⟩
  · have hnodes := congrArg (List.map Prod.fst) hfs
    rw [List.map_cons] at hnodes
    rw [hnodes]
    simp
  have hbase := (List.pairwise_cons.1 hnew).1 b hb
  have hin : b ∈ (base, 0) :: fs' := .tail _ hb
  rw [hfs, ← List.cons_append, List.mem_append, List.mem_append] at hin
  have hold (hb : b ∈ (base, 0) :: fs) : 0 < b.2 := by
    obtain ⟨l, r, hl⟩ := List.append_of_mem hb
    exact h.node_pos hl hbase.lt
  rcases hin with hin | hin | hin
  · exact hold (by rw [hl]; exact List.mem_append_left _ hin)
  · exact hpos b hin hbase.lt
  · exact hold (by rw [hl]; simp [hin])

/-- A block that is not free yet: it is apart from the free blocks, and no sum of sizes overflows.
-/
structure Freed (base : ℕ) (mem : ℕ → Header) (fs : List (ℕ × ℕ)) (bp w : ℕ) : Prop where
  above : base < bp
  size : (mem bp).size.toNat = w
  pos : 0 < w
  apart : ∀ b ∈ fs, b.1 + headerSize * b.2 ≤ bp ∨ bp + headerSize * w ≤ b.1
  fits : (fs.map Prod.snd).sum + w < 2 ^ 32

theorem Freed.ne (hf : Freed base mem fs bp w) (h : FreeList base mem freep fs) :
    ∀ b ∈ fs, b.1 ≠ bp := by
  intro b hb heq
  have h₁ := hf.apart b hb
  have h₂ := hf.pos
  have h₃ := h.pos b hb
  simp only [headerSize] at h₁
  omega

/-- The tail of the list after `bp` has been joined to the block after it, or linked to it. -/
structure Joined (base : ℕ) (mem : ℕ → Header) (bp w : ℕ) (post : List (ℕ × ℕ)) (mem₁ : ℕ → Header)
    (w₁ : UInt32) (skipped rest : List (ℕ × ℕ)) : Prop where
  mem_eq : mem₁ = update mem bp { ptr := (rest.map Prod.fst).headD base, size := w₁ }
  post_eq : post = skipped ++ rest
  after : ∀ b ∈ rest, Before (bp, w₁.toNat) b
  total : w₁.toNat = w + (skipped.map Prod.snd).sum
  tiles : ∀ l r, (∀ b ∈ rest.map freeBlock ++ l, 0 < b.2) →
    Tiles ((bp, headerSize * w) :: (post.map freeBlock ++ l)) r →
    Tiles ((bp, headerSize * w₁.toNat) :: (rest.map freeBlock ++ l)) r

theorem Split.linkNext (s : Split base fs bp l p u pre post) (h : FreeList base mem freep fs)
    (hf : Freed base mem fs bp w) :
    ∃ w₁ skipped rest, Joined base mem bp w post (linkNext mem bp p) w₁ skipped rest := by
  have hnext := h.next s.list_eq
  have habove := hf.above
  -- the block stays as it is if the next one does not touch it
  have hlinked (hne : bp + headerSize * w ≠ (mem p).ptr) (hafter : ∀ b ∈ post, Before (bp, w) b) :
      Joined base mem bp w post (Malloc.linkNext mem bp p) (mem bp).size [] post := by
    refine ⟨?_, rfl, by rwa [hf.size], by rw [hf.size]; rfl, fun l r _ ht => by rwa [hf.size]⟩
    simp only [Malloc.linkNext]
    rw [if_neg (by rwa [plus, hf.size]), hnext]
  cases post with
  | nil =>
    rw [hnext] at hlinked
    exact ⟨_, _, _, hlinked (by simp only [List.map_nil, List.headD_nil]; omega) (by simp)⟩
  | cons b post =>
    obtain ⟨nx, v⟩ := b
    have hmem : (nx, v) ∈ fs := by
      rw [s.blocks]
      simp
    have hl := s.list_eq_next
    have hbefore : bp + headerSize * w ≤ nx := by
      have h₁ := hf.apart _ hmem
      have h₂ := s.after _ (.head _)
      simp only [headerSize] at h₁ h₂ ⊢
      omega
    by_cases htouch : bp + headerSize * w = nx
    · have hsum : w + v < 2 ^ 32 := by
        have hle := List.le_sum_of_mem (List.mem_map_of_mem (f := Prod.snd) hmem)
        have := hf.fits
        omega
      have hw₁ : ((mem bp).size + (mem nx).size).toNat = w + v := by
        rw [UInt32.toNat_add, hf.size, h.size _ hmem, Nat.mod_eq_of_lt hsum]
      refine ⟨(mem bp).size + (mem nx).size, [(nx, v)], post, ?_, rfl, fun c hc => ?_, by
        rw [hw₁]; simp,
        fun l r hl ht => ?_⟩
      · simp only [Malloc.linkNext]
        rw [if_pos (by rw [hnext, plus, hf.size]; exact htouch), ← h.next hl, hnext]
        rfl
      · have := h.after hl hc
        rw [Before, hw₁]
        simp only [Before, headerSize] at this htouch ⊢
        omega
      · rw [hw₁, Nat.mul_add]
        rw [List.map_cons, List.cons_append, freeBlock] at ht
        simp only [← htouch] at ht
        exact ht.join hl
    · refine ⟨_, _, _, hlinked (by rwa [hnext])
        (List.forall_mem_cons.2 ⟨Nat.lt_of_le_of_ne hbefore htouch, ?_⟩)⟩
      intro c hc
      exact Nat.lt_of_le_of_lt hbefore (h.after hl hc).lt

/-- The free list `fs` with the block at `bp` put back, in the memory `mem'`. -/
structure Returned (base : ℕ) (mem : ℕ → Header) (fs : List (ℕ × ℕ)) (bp w : ℕ) (mem' : ℕ → Header)
    (freep : ℕ) (fs' : List (ℕ × ℕ)) : Prop where
  list : FreeList base mem' freep fs'
  frame : ∀ a, a ≠ bp → a ∉ base :: fs.map Prod.fst → mem' a = mem a
  tiles : ∀ l r, (∀ b ∈ l, 0 < b.2) → Tiles ((bp, headerSize * w) :: (fs.map freeBlock ++ l)) r →
    Tiles (fs'.map freeBlock ++ l) r
  large : ∃ b ∈ fs', w ≤ b.2

section LinkPrev

variable {skipped rest : List (ℕ × ℕ)} {mem₁ : ℕ → Header} {w₁ : UInt32}
  (s : Split base fs bp l p u pre post) (h : FreeList base mem freep fs)
  (hf : Freed base mem fs bp w) (hj : Joined base mem bp w post mem₁ w₁ skipped rest)

include s in
theorem Split.mem_node : p ∈ base :: fs.map Prod.fst := by
  have hnodes := congrArg (List.map Prod.fst) s.list_eq
  rw [List.map_cons] at hnodes
  rw [hnodes]
  simp

include s h in
theorem Split.size_eq : (mem p).size.toNat = u := (h.segments s.list_eq).2.1.2

include s hj in
theorem Split.list_eq_rest :
    (base, 0) :: fs = l ++ (p, u) :: (skipped ++ rest) := by rw [← hj.post_eq, s.list_eq]

include hj in
theorem Joined.linkPrev_of_ne (hap : a ≠ p) (ha : a ≠ bp) :
    Malloc.linkPrev mem₁ bp p a = mem a := by
  have hmem : Malloc.linkPrev mem₁ bp p a = mem₁ a := by
    rw [Malloc.linkPrev]
    split
    · rw [update_of_ne hap]
    · rw [update_of_ne hap]
  rw [hmem, hj.mem_eq, update_of_ne ha]

include s h hj

theorem Split.linkPrev_rest (hb : b ∈ l ++ rest) : Malloc.linkPrev mem₁ bp p b.1 = mem b.1 := by
  have hl := s.list_eq_rest hj
  have hlt := s.lt
  rcases List.mem_append.1 hb with hb | hb
  · have hbp := (h.before hl hb).lt
    exact hj.linkPrev_of_ne hbp.ne (hbp.trans hlt).ne
  · have hbp := s.after b (by rw [hj.post_eq]; exact List.mem_append_right _ hb)
    exact hj.linkPrev_of_ne (hlt.trans hbp).ne' hbp.ne'

theorem Split.tiles (hlive : ∀ b ∈ live, 0 < b.2)
    (ht : Tiles ((bp, headerSize * w) :: (fs.map freeBlock ++ live)) regions) :
    Tiles ((bp, headerSize * w₁.toNat) :: ((pre ++ rest).map freeBlock ++ live)) regions := by
  have hpos : ∀ b ∈ rest.map freeBlock ++ (pre.map freeBlock ++ live), 0 < b.2 := by
    intro b hb
    rw [← List.append_assoc, ← List.map_append, List.mem_append] at hb
    rcases hb with hb | hb
    · obtain ⟨c, hc, rfl⟩ := List.mem_map.1 hb
      refine h.block_pos ?_
      rw [s.blocks, hj.post_eq]
      simp only [List.mem_append] at hc ⊢
      tauto
    · exact hlive b hb
  rw [s.blocks, List.map_append, List.append_assoc] at ht
  rw [List.map_append, List.append_assoc]
  exact (hj.tiles _ _ hpos (ht.perm ((List.perm_append_comm_assoc ..).cons _))).perm
    ((List.perm_append_comm_assoc ..).cons _)

include hf

theorem Split.linkPrev (hapart : p + headerSize * u < bp) :
    Returned base mem fs bp w (Malloc.linkPrev mem₁ bp p) p (pre ++ (bp, w₁.toNat) :: rest) := by
  have hpbp : p ≠ bp := Nat.ne_of_lt s.lt
  have hmem : Malloc.linkPrev mem₁ bp p = update mem₁ p { mem p with ptr := bp } := by
    have hp₁ : mem₁ p = mem p := by rw [hj.mem_eq, update_of_ne hpbp]
    rw [Malloc.linkPrev, hp₁, if_neg (by rw [plus, s.size_eq h]; omega)]
  have hnew : Malloc.linkPrev mem₁ bp p bp = { ptr := (rest.map Prod.fst).headD base, size := w₁ } :=
    by rw [hmem, update_of_ne hpbp.symm, hj.mem_eq, update_self]
  refine ⟨h.splice (v := u) (m := [(bp, w₁.toNat)]) (s.list_eq_rest hj) ?_
    (fun b => s.linkPrev_rest h hj) ⟨?_, ⟨by rw [hnew]; rfl, by rw [hnew]⟩, trivial⟩ ?_ ?_ ?_,
    fun a ha hnode => ?_, fun live r hlive ht => ?_,
    (bp, w₁.toNat), by simp, by have := hj.total; omega⟩
  · rw [← List.cons_append, s.nodes, List.append_assoc]
    rfl
  · rw [hmem, update_self]
    exact ⟨rfl, s.size_eq h⟩
  · simpa [Before] using hapart
  · refine List.forall_mem_cons.2
      ⟨fun c hc => h.after (s.list_eq_rest hj) (List.mem_append_right _ hc), ?_⟩
    simpa using hj.after
  · have := hj.total
    have := hf.pos
    refine List.forall_mem_cons.2 ⟨h.node_pos s.list_eq, ?_⟩
    simp only [List.mem_singleton, forall_eq]
    omega
  · exact hj.linkPrev_of_ne (fun heq => hnode (heq ▸ s.mem_node)) ha
  · rw [List.map_append, List.map_cons, List.append_assoc]
    refine (s.tiles h hj hlive ht).perm ?_
    rw [List.map_append, List.append_assoc]
    exact List.perm_middle.symm

theorem Split.joinPrev (hpre : pre = pre₀ ++ [(p, u)]) (htouch : p + headerSize * u = bp) :
    Returned base mem fs bp w (Malloc.linkPrev mem₁ bp p) p
    (pre₀ ++ (p, u + w₁.toNat) :: rest) := by
  have hpfs : (p, u) ∈ fs := by
    rw [s.blocks, hpre]
    simp
  have hsum : u + w₁.toNat < 2 ^ 32 := by
    have hfits := hf.fits
    have htotal := hj.total
    rw [s.blocks, hpre, hj.post_eq] at hfits
    simp only [List.map_append, List.map_cons, List.map_nil, List.sum_append, List.sum_cons,
      List.sum_nil] at hfits
    omega
  have hmem : Malloc.linkPrev mem₁ bp p =
      update mem₁ p { ptr := (rest.map Prod.fst).headD base, size := (mem p).size + w₁ } := by
    have hp₁ : mem₁ p = mem p := by rw [hj.mem_eq, update_of_ne (Nat.ne_of_lt s.lt)]
    rw [Malloc.linkPrev, hp₁, hj.mem_eq, update_self, if_pos (by rw [plus, s.size_eq h, htouch])]
  have hl : l = (base, 0) :: pre₀ := by
    have hnodes := s.nodes
    rw [hpre, ← List.cons_append] at hnodes
    exact (List.append_inj_left' hnodes rfl).symm
  refine ⟨h.splice (v := u + w₁.toNat) (m := []) (s.list_eq_rest hj) (by rw [hl]; rfl)
    (fun b => s.linkPrev_rest h hj) ⟨?_, trivial⟩ (List.pairwise_singleton ..) ?_ ?_,
    fun a ha hnode => ?_,
    fun live r hlive ht => ?_, (p, u + w₁.toNat), by simp, by have := hj.total; omega⟩
  · rw [hmem, update_self, UInt32.toNat_add, s.size_eq h, Nat.mod_eq_of_lt hsum]
    exact ⟨rfl, rfl⟩
  · simp only [List.mem_singleton, forall_eq]
    intro c hc
    have := hj.after c hc
    simp only [Before, headerSize] at this htouch ⊢
    omega
  · simp only [List.mem_singleton, forall_eq]
    exact fun _ => Nat.add_pos_left (h.pos _ hpfs) _
  · exact hj.linkPrev_of_ne (fun heq => hnode (heq ▸ s.mem_node)) ha
  have hmoved : Tiles ((p, headerSize * u) :: (p + headerSize * u, headerSize * w₁.toNat) ::
      ((pre₀ ++ rest).map freeBlock ++ live)) r := by
    refine (s.tiles h hj hlive ht).perm (List.perm_iff_count.2 fun x => ?_)
    rw [htouch, hpre]
    simp only [List.map_append, List.map_cons, List.map_nil, List.count_append, List.count_cons,
      List.count_nil, freeBlock]
    omega
  have hdone := hmoved.join fun c hc => ?_
  · rw [← Nat.mul_add] at hdone
    rw [List.map_append, List.map_cons, List.append_assoc]
    rw [List.map_append, List.append_assoc] at hdone
    exact hdone.perm List.perm_middle.symm
  · rcases List.mem_append.1 hc with hc | hc
    · obtain ⟨b, hb, rfl⟩ := List.mem_map.1 hc
      refine h.block_pos ?_
      rw [s.blocks, hpre, hj.post_eq]
      simp only [List.mem_append] at hb ⊢
      tauto
    · exact hlive c hc

end LinkPrev

/-- **`free` ends, and the block is in the list.** -/
theorem FreeList.settles_free {h : Heap} (hl : FreeList base h.mem h.freep fs)
    (hf : Freed base h.mem fs bp w) : ∃ mem' p fs', Returned base h.mem fs bp w mem' p fs' ∧
      Settles (fun k => free k (bp + headerSize) h) { h with mem := mem', freep := p } := by
  obtain ⟨l, p, u, pre, post, hblocks, hnodes, hlt, hafter⟩ :=
    exists_split hf.above hl.sorted (hf.ne hl)
  have s : Split base fs bp l p u pre post := ⟨⟨hblocks, hnodes⟩, hlt, hafter⟩
  obtain ⟨w₁, skipped, rest, hj⟩ := s.linkNext hl hf
  have hsettles : Settles (fun k => free k (bp + headerSize) h)
      { h with mem := linkPrev (linkNext h.mem bp p) bp p, freep := p } := by
    simp only [free, Nat.add_sub_cancel]
    exact (s.settles_search hl hf.above).map fun p =>
      { h with mem := linkPrev (linkNext h.mem bp p) bp p, freep := p }
  by_cases hbefore : p + headerSize * u < bp
  · exact ⟨_, p, _, s.linkPrev hl hf hj hbefore, hsettles⟩
  -- `base` has no memory, so `p` is a block, and it ends at `bp`
  cases l with
  | nil =>
    cases hnodes
    exact absurd hlt hbefore
  | cons b l =>
    obtain ⟨rfl, hpre⟩ := List.cons.inj hnodes
    have hapart := hf.apart (p, u) (by rw [hblocks, hpre]; simp)
    have hpos := hf.pos
    simp only [headerSize] at hapart hbefore
    exact ⟨_, p, _, s.joinPrev hl hf hj hpre (by simp only [headerSize]; omega), hsettles⟩

end Xv6.Malloc
