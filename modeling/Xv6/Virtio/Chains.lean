/-
# The descriptors of the requests

Each request has a chain of three descriptors.  `alloc3_desc` takes free ones or leaves all as it
was, `free_chain` follows the links that `virtio_disk_rw` has written and gives back exactly those
three, and a chain is its own: different requests have different descriptors (`Chains`).  So at most
two requests can have one at a time.
-/

import Xv6.Virtio.Run
import Xv6.Lib.Tally
import Mathlib.Algebra.Order.BigOperators.Group.Finset

namespace Xv6.Virtio

open Lib Function

variable {N : ℕ} {B : Type}

/-! ### Allocation -/

namespace Driver

variable {d d' : Driver B} {i : ℕ} {c : Chain} {a : Args B}

@[simp] theorem reserved_desc : (d.reserved i).desc = d.desc := rfl
@[simp] theorem reserved_info : (d.reserved i).info = d.info := rfl
@[simp] theorem freed_info : (d.freed i).info = d.info := rfl

theorem reserved_free (j : ℕ) : (d.reserved i).free j = if j = i then false else d.free j :=
  update_apply ..

theorem freed_free (j : ℕ) : (d.freed i).free j = if j = i then true else d.free j :=
  update_apply ..

theorem freed_desc_of_ne {j : ℕ} (h : j ≠ i) : (d.freed i).desc j = d.desc j := update_of_ne h ..

theorem allocDesc_eq_some (h : d.allocDesc = some (i, d')) :
    i < NUM ∧ d.free i = true ∧ d' = d.reserved i := by
  obtain ⟨j, hj, he⟩ := Option.map_eq_some_iff.1 h
  cases he
  exact ⟨List.mem_range.1 (List.mem_of_find?_eq_some hj), by simpa using List.find?_some hj, rfl⟩

theorem freeDesc_of_allocated (hi : i < NUM) (hfree : d.free i = false) :
    d.freeDesc i = .ok (d.freed i) := by
  rw [freeDesc, if_neg (Nat.not_le.2 hi), if_neg (by rw [hfree]; decide)]

/-- What `alloc3_desc` does if it finds three. -/
structure Got (d d' : Driver B) (c : Chain) : Prop where
  nodup : c.toList.Nodup
  lt : ∀ i ∈ c.toList, i < NUM
  wasFree : ∀ i ∈ c.toList, d.free i = true
  now : ∀ i, d'.free i = true ↔ d.free i = true ∧ i ∉ c.toList
  desc : d'.desc = d.desc
  info : d'.info = d.info

/-- What it does if it does not: only free descriptors change. -/
structure Same (d d' : Driver B) : Prop where
  free : d'.free = d.free
  desc : ∀ i, d.free i = false → d'.desc i = d.desc i
  info : d'.info = d.info

theorem same_one (h : d.free i = true) : d.Same ((d.reserved i).freed i) where
  free := by
    funext j
    rw [freed_free, reserved_free]
    split_ifs with hj
    · rw [hj, h]
    · rfl
  desc j hj := by
    have hne : j ≠ i := by
      rintro rfl
      rw [h] at hj
      cases hj
    rw [freed_desc_of_ne hne, reserved_desc]
  info := rfl

theorem same_two {j : ℕ} (hi : d.free i = true) (hj : d.free j = true) :
    d.Same ((((d.reserved i).reserved j).freed i).freed j) where
  free := by
    funext k
    rw [freed_free, freed_free, reserved_free, reserved_free]
    split_ifs with hkj hki
    · rw [hkj, hj]
    · rw [hki, hi]
    · rfl
  desc k hk := by
    have hki : k ≠ i := by
      rintro rfl
      rw [hi] at hk
      cases hk
    have hkj : k ≠ j := by
      rintro rfl
      rw [hj] at hk
      cases hk
    rw [freed_desc_of_ne hkj, freed_desc_of_ne hki, reserved_desc, reserved_desc]
  info := rfl

theorem got_three {j k : ℕ} (hlt : i < NUM ∧ j < NUM ∧ k < NUM) (hi : d.free i = true)
    (hj : (d.reserved i).free j = true) (hk : ((d.reserved i).reserved j).free k = true) :
    d.Got (((d.reserved i).reserved j).reserved k) ⟨i, j, k⟩ := by
  simp only [reserved_free] at hj hk
  split_ifs at hj with hji
  split_ifs at hk with hkj hki
  refine ⟨?_, ?_, ?_, fun m => ?_, rfl, rfl⟩
  · simp [Chain.toList, Ne.symm hji, Ne.symm hkj, Ne.symm hki]
  · simpa [Chain.toList] using hlt
  · simp [Chain.toList, hi, hj, hk]
  · simp only [reserved_free, Chain.toList]
    split_ifs with hmk hmj hmi <;> simp_all

/-- **`alloc3_desc` does not panic**, and either takes three free descriptors or changes nothing. -/
theorem alloc3Desc_spec (d : Driver B) : (∃ d' c, d.alloc3Desc = .ok (d', .got c) ∧ d.Got d' c) ∨
    ∃ d' freed, d.alloc3Desc = .ok (d', .none freed) ∧ d.Same d' := by
  unfold alloc3Desc
  cases h₀ : d.allocDesc with
  | none => exact .inr ⟨d, false, rfl, ⟨rfl, fun _ _ => rfl, rfl⟩⟩
  | some x₀ =>
    obtain ⟨i0, d₀⟩ := x₀
    obtain ⟨hlt₀, hfree₀, rfl⟩ := allocDesc_eq_some h₀
    dsimp only
    cases h₁ : (d.reserved i0).allocDesc with
    | none =>
      have hback : (d.reserved i0).freeDesc i0 = .ok ((d.reserved i0).freed i0) :=
        freeDesc_of_allocated hlt₀ (by simp [reserved_free])
      dsimp only
      rw [hback]
      exact .inr ⟨_, true, rfl, same_one hfree₀⟩
    | some x₁ =>
      obtain ⟨i1, d₁⟩ := x₁
      obtain ⟨hlt₁, hfree₁, rfl⟩ := allocDesc_eq_some h₁
      dsimp only
      cases h₂ : ((d.reserved i0).reserved i1).allocDesc with
      | none =>
        have hback₀ := freeDesc_of_allocated (d := (d.reserved i0).reserved i1) hlt₀
          (by simp [reserved_free])
        have hne : i1 ≠ i0 := by
          rintro rfl
          simp [reserved_free] at hfree₁
        have hback₁ := freeDesc_of_allocated (d := ((d.reserved i0).reserved i1).freed i0) hlt₁
          (by simp [freed_free, reserved_free, hne])
        have hfree₁' : d.free i1 = true := by simpa [reserved_free, hne] using hfree₁
        dsimp only
        rw [hback₀]
        simp only [bind, Except.bind]
        rw [hback₁]
        exact .inr ⟨_, true, rfl, same_two hfree₀ hfree₁'⟩
      | some x₂ =>
        obtain ⟨i2, d₂⟩ := x₂
        obtain ⟨hlt₂, hfree₂, rfl⟩ := allocDesc_eq_some h₂
        exact .inl ⟨_, _, rfl, got_three ⟨hlt₀, hlt₁, hlt₂⟩ hfree₀ hfree₁ hfree₂⟩

/-! ### The links -/

structure Strung (d : Driver B) (c : Chain) : Prop where
  more₀ : (d.desc c.i0).flags &&& descNext ≠ 0
  next₀ : (d.desc c.i0).next = c.i1
  more₁ : (d.desc c.i1).flags &&& descNext ≠ 0
  next₁ : (d.desc c.i1).next = c.i2
  last : (d.desc c.i2).flags &&& descNext = 0

/-- A chain as `virtio_disk_rw` has formatted it. -/
structure Linked (d : Driver B) (a : Args B) (c : Chain) : Prop where
  strung : d.Strung c
  status : (d.desc c.i2).addr = .status c.i0
  info : d.info c.i0 = ⟨some a.b, 0⟩

theorem Linked.congr (h : d.Linked a c) (hdesc : ∀ i ∈ c.toList, d'.desc i = d.desc i)
    (hinfo : d'.info c.i0 = d.info c.i0) : d'.Linked a c := by
  have h₀ := hdesc c.i0 (by simp [Chain.toList])
  have h₁ := hdesc c.i1 (by simp [Chain.toList])
  have h₂ := hdesc c.i2 (by simp [Chain.toList])
  obtain ⟨⟨more₀, next₀, more₁, next₁, last⟩, status, info⟩ := h
  rw [← h₀] at more₀ next₀
  rw [← h₁] at more₁ next₁
  rw [← h₂] at last status
  exact ⟨⟨more₀, next₀, more₁, next₁, last⟩, status, hinfo.trans info⟩

theorem freeChain_succ (hback : d.freeDesc i = .ok (d.freed i)) (k : ℕ) : freeChain (k + 1) d i = if
    (d.desc i).flags &&& descNext ≠ 0 then freeChain k (d.freed i) (d.desc i).next else .ok
    (d.freed i) := by
  have hself : (d.freed i).desc i = { d.desc i with addr := .null } := update_self ..
  simp only [freeChain, hback, bind, Except.bind, hself]

/-- **`free_chain` gives back the three descriptors of a chain.** -/
theorem freeChain_of_strung (h : d.Strung c) (hnodup : c.toList.Nodup)
    (hlt : ∀ i ∈ c.toList, i < NUM) (hfree : ∀ i ∈ c.toList, d.free i = false) (k : ℕ) :
    freeChain (k + 3) d c.i0 = .ok (((d.freed c.i0).freed c.i1).freed c.i2) := by
  obtain ⟨⟨h01, h02⟩, h12⟩ : (c.i0 ≠ c.i1 ∧ c.i0 ≠ c.i2) ∧ c.i1 ≠ c.i2 := by
    simpa [Chain.toList] using hnodup
  simp only [Chain.toList, List.mem_cons, List.not_mem_nil, or_false, forall_eq_or_imp,
    forall_eq] at hlt hfree
  have hback₀ : d.freeDesc c.i0 = .ok (d.freed c.i0) := freeDesc_of_allocated hlt.1 hfree.1
  have hback₁ : (d.freed c.i0).freeDesc c.i1 = .ok ((d.freed c.i0).freed c.i1) :=
    freeDesc_of_allocated hlt.2.1 (by simp [freed_free, h01.symm, hfree.2.1])
  have hback₂ : ((d.freed c.i0).freed c.i1).freeDesc c.i2 =
      .ok (((d.freed c.i0).freed c.i1).freed c.i2) :=
    freeDesc_of_allocated hlt.2.2 (by simp [freed_free, h02.symm, h12.symm, hfree.2.2])
  have hdesc₁ : (d.freed c.i0).desc c.i1 = d.desc c.i1 := freed_desc_of_ne h01.symm
  have hdesc₂ : ((d.freed c.i0).freed c.i1).desc c.i2 = d.desc c.i2 := by
    rw [freed_desc_of_ne h12.symm, freed_desc_of_ne h02.symm]
  rw [freeChain_succ hback₀, if_pos h.more₀, h.next₀, freeChain_succ hback₁, hdesc₁,
    if_pos h.more₁, h.next₁, freeChain_succ hback₂, hdesc₂, if_neg (not_not.2 h.last)]

theorem linked_format (hnodup : c.toList.Nodup) : (d.format a c).Linked a c := by
  obtain ⟨⟨h01, h02⟩, h12⟩ : (c.i0 ≠ c.i1 ∧ c.i0 ≠ c.i2) ∧ c.i1 ≠ c.i2 := by
    simpa [Chain.toList] using hnodup
  refine ⟨⟨?_, ?_, ?_, ?_, ?_⟩, ?_, ?_⟩
  · simp only [format, setDesc, setInfo, update_of_ne h02, update_of_ne h01, update_self]
    decide
  · simp only [format, setDesc, setInfo, update_of_ne h02, update_of_ne h01, update_self]
  · simp only [format, setDesc, setInfo, update_of_ne h12, update_self]
    cases a.write <;> decide
  · simp only [format, setDesc, setInfo, update_of_ne h12, update_self]
  · simp only [format, setDesc, setInfo, update_self]
    decide
  · simp only [format, setDesc, setInfo, update_self]
  · simp only [format, setDesc, setInfo, update_self]

theorem format_desc_of_not_mem (h : i ∉ c.toList) : (d.format a c).desc i = d.desc i := by
  simp only [Chain.toList, List.mem_cons, List.not_mem_nil, or_false, not_or] at h
  simp [format, setDesc, setInfo, h.1, h.2.1, h.2.2]

theorem format_info_of_ne (h : i ≠ c.i0) : (d.format a c).info i = d.info i := update_of_ne h ..

theorem succeed_cases (d : Driver B) (i : ℕ) :
    d.succeed i = d ∨ ∃ j, d.succeed i = d.setInfo j { d.info j with status := 0 } := by
  unfold succeed
  split
  · rename_i j _
    exact .inr ⟨j, rfl⟩
  · exact .inl rfl

theorem Linked.succeed (h : d.Linked a c) (i : ℕ) : (d.succeed i).Linked a c := by
  rcases succeed_cases d i with he | ⟨j, he⟩
  · rwa [he]
  rw [he]
  refine h.congr (fun _ _ => rfl) ?_
  by_cases hj : c.i0 = j
  · subst hj
    simp [setInfo, h.info]
  · exact update_of_ne hj ..

theorem succeed_free (d : Driver B) (i : ℕ) : (d.succeed i).free = d.free := by
  rcases succeed_cases d i with he | ⟨j, he⟩ <;> rw [he]
  rfl

end Driver

/-! ### The chains of all processes -/

namespace Job

def args : Job B → Option (Args B)
  | .idle => none
  | .asking a | .has a _ | .linked a _ | .posted a _ | .waiting a _ _ => some a

def chain : Job B → Option Chain
  | .idle | .asking _ => none
  | .has _ c | .linked _ c | .posted _ c | .waiting _ c _ => some c

def formatted : Job B → Option (Args B × Chain)
  | .idle | .asking _ | .has .. => none
  | .linked a c | .posted a c | .waiting a c _ => some (a, c)

theorem chain_of_formatted {j : Job B} {a : Args B} {c : Chain} (h : j.formatted = some (a, c)) :
    j.chain = some c := by
  cases j <;> cases h <;> rfl

end Job

/-- **Each process has its own three descriptors**, and they are linked once they are formatted. -/
structure Chains (d : Driver B) (job : Fin N → Job B) : Prop where
  nodup : ∀ p c, (job p).chain = some c → c.toList.Nodup
  allocated : ∀ p c, (job p).chain = some c → ∀ i ∈ c.toList, i < NUM ∧ d.free i = false
  apart : ∀ p q c e, p ≠ q → (job p).chain = some c → (job q).chain = some e →
    c.toList.Disjoint e.toList
  linked : ∀ p a c, (job p).formatted = some (a, c) → d.Linked a c

namespace Chains

variable {d d' : Driver B} {job : Fin N → Job B} {p : Fin N} {a : Args B} {c : Chain} {j : Job B}

section

variable (h : Chains d job)
include h

theorem keep (hc : j.chain = (job p).chain) (hf : j.formatted = (job p).formatted) :
    Chains d (update job p j) := by
  have hchain := apply_update_of_eq Job.chain hc
  have hformatted := apply_update_of_eq Job.formatted hf
  refine ⟨fun q e hq => ?_, fun q e hq => ?_, fun q r e f hne hq hr => ?_, fun q b e hq => ?_⟩
  · exact h.nodup q e (hchain q ▸ hq)
  · exact h.allocated q e (hchain q ▸ hq)
  · exact h.apart q r e f hne (hchain q ▸ hq) (hchain r ▸ hr)
  · exact h.linked q b e (hformatted q ▸ hq)

theorem same (hd : d.Same d') : Chains d' job where
  nodup := h.nodup
  allocated q e hq i hi := hd.free ▸ h.allocated q e hq i hi
  apart := h.apart
  linked q b e hq := (h.linked q b e hq).congr
    (fun i hi => hd.desc i (h.allocated q e (Job.chain_of_formatted hq) i hi).2)
    (congrFun hd.info _)

theorem succeed (i : ℕ) : Chains (d.succeed i) job where
  nodup := h.nodup
  allocated q e hq := by
    rw [Driver.succeed_free]
    exact h.allocated q e hq
  apart := h.apart
  linked q b e hq := (h.linked q b e hq).succeed i

theorem got (hd : d.Got d' c) : Chains d' (update job p (.has a c)) := by
  have hnew (i : ℕ) (hi : i ∈ c.toList) : d'.free i = false := by
    refine Bool.eq_false_iff.2 fun hfree => ?_
    exact ((hd.now i).1 hfree).2 hi
  have hold {i : ℕ} (hi : d.free i = false) : d'.free i = false := by
    refine Bool.eq_false_iff.2 fun hfree => ?_
    rw [((hd.now i).1 hfree).1] at hi
    cases hi
  have hother {q : Fin N} {e : Chain} (hq : (job q).chain = some e) :
      c.toList.Disjoint e.toList := by
    intro i hic hie
    have hused := (h.allocated q e hq i hie).2
    rw [hd.wasFree i hic] at hused
    cases hused
  refine ⟨fun q e hq => ?_, fun q e hq i hi => ?_, fun q r e f hne hq hr => ?_, fun q b e hq => ?_⟩
  · rcases view_update_cases Job.chain hq with ⟨-, he⟩ | ⟨-, he⟩
    · cases he
      exact hd.nodup
    · exact h.nodup q e he
  · rcases view_update_cases Job.chain hq with ⟨-, he⟩ | ⟨-, he⟩
    · cases he
      exact ⟨hd.lt i hi, hnew i hi⟩
    · exact (h.allocated q e he i hi).imp_right hold
  · rcases view_update_cases Job.chain hq with ⟨hqp, he⟩ | ⟨hqp, he⟩
    · rcases view_update_cases Job.chain hr with ⟨hrp, hf⟩ | ⟨hrp, hf⟩
      · exact absurd (hqp.trans hrp.symm) hne
      · cases he
        exact hother hf
    · rcases view_update_cases Job.chain hr with ⟨hrp, hf⟩ | ⟨hrp, hf⟩
      · cases hf
        exact (hother he).symm
      · exact h.apart q r e f hne he hf
  · rcases view_update_cases Job.formatted hq with ⟨rfl, ⟨⟩⟩ | ⟨-, hq⟩
    exact (h.linked q b e hq).congr (fun i _ => congrFun hd.desc i) (congrFun hd.info _)

theorem change (hp : ∀ e, j.chain = some e → (job p).chain = some e)
    (hnodes : ∀ q e, q ≠ p → (job q).chain = some e → ∀ i ∈ e.toList, d'.free i = d.free i ∧
      d'.desc i = d.desc i)
    (hinfo : ∀ q e, q ≠ p → (job q).chain = some e → d'.info e.i0 = d.info e.i0)
    (hself : ∀ e, j.chain = some e → ∀ i ∈ e.toList, d'.free i = false)
    (hlinked : ∀ b e, j.formatted = some (b, e) → d'.Linked b e) : Chains d' (update job p j) := by
  have hbefore {q : Fin N} {e : Chain} (hq : (update job p j q).chain = some e) :
      (job q).chain = some e := by
    rcases view_update_cases Job.chain hq with ⟨rfl, he⟩ | ⟨-, he⟩
    · exact hp e he
    · exact he
  refine ⟨fun q e hq => h.nodup q e (hbefore hq), fun q e hq i hi => ?_,
    fun q r e f hne hq hr => h.apart q r e f hne (hbefore hq) (hbefore hr), fun q b e hq => ?_⟩
  · obtain ⟨hlt, hfree⟩ := h.allocated q e (hbefore hq) i hi
    refine ⟨hlt, ?_⟩
    rcases view_update_cases Job.chain hq with ⟨-, he⟩ | ⟨hqp, he⟩
    · exact hself e he i hi
    · rw [(hnodes q e hqp he i hi).1, hfree]
  · rcases view_update_cases Job.formatted hq with ⟨rfl, hj⟩ | ⟨hqp, hq⟩
    · exact hlinked b e hj
    · have he := Job.chain_of_formatted hq
      exact (h.linked q b e hq).congr (fun i hi => (hnodes q e hqp he i hi).2) (hinfo q e hqp he)

theorem head_ne (hne : q ≠ p) (hp : (job p).chain = some c) (hq : (job q).chain = some e) :
    e.i0 ≠ c.i0 := by
  intro he
  have hmem : e.i0 ∈ c.toList := by simp [Chain.toList, he]
  exact h.apart q p e c hne hq hp (.head _) hmem

theorem format (hp : (job p).chain = some c) (hj : j.formatted = some (a, c)) :
    Chains (d.format a c) (update job p j) := by
  have hchain := Job.chain_of_formatted hj
  refine h.change (fun e he => ?_) (fun q e hqp he i hi => ?_) (fun q e hqp he => ?_)
    (fun e he i hi => ?_) fun b e he => ?_
  · rwa [hp, ← hchain]
  · exact ⟨rfl, Driver.format_desc_of_not_mem (h.apart q p e c hqp he hp hi)⟩
  · exact Driver.format_info_of_ne (h.head_ne hqp hp he)
  · rw [hchain] at he
    cases he
    exact (h.allocated p c hp i hi).2
  · rw [hj] at he
    cases he
    exact Driver.linked_format (h.nodup p c hp)

/-- **A chain is freed**: `free_chain` does not panic, and the other chains stay. -/
theorem freeChain (hp : (job p).formatted = some (a, c)) (x : Info B) :
    ∃ d', Driver.freeChain (NUM + 1) (d.setInfo c.i0 x) c.i0 = .ok d' ∧
    Chains d' (update job p .idle) := by
  have hchain := Job.chain_of_formatted hp
  have hstrung : (d.setInfo c.i0 x).Strung c := by
    obtain ⟨more₀, next₀, more₁, next₁, last⟩ := (h.linked p a c hp).strung
    exact ⟨more₀, next₀, more₁, next₁, last⟩
  have hdone := Driver.freeChain_of_strung hstrung (h.nodup p c hchain)
    (fun i hi => (h.allocated p c hchain i hi).1) (fun i hi => (h.allocated p c hchain i hi).2) 6
  refine ⟨_, hdone, h.change (fun e he => ?_) (fun q e hqp he i hi => ?_) (fun q e hqp he => ?_)
    (fun e he => ?_) fun b e he => ?_⟩
  · cases he
  · have hout : i ∉ c.toList := h.apart q p e c hqp he hchain hi
    simp only [Chain.toList, List.mem_cons, List.not_mem_nil, or_false, not_or] at hout
    constructor
    · simp [Driver.freed_free, hout.1, hout.2.1, hout.2.2, Driver.setInfo]
    · rw [Driver.freed_desc_of_ne hout.2.2, Driver.freed_desc_of_ne hout.2.1,
        Driver.freed_desc_of_ne hout.1]
      rfl
  · simp only [Driver.freed_info]
    exact update_of_ne (h.head_ne hqp hchain he) ..
  · cases he
  · cases he

/-- **At most two processes have descriptors.** -/
theorem card_le {S : Finset (Fin N)} (hS : ∀ p ∈ S, (job p).chain.isSome) : S.card ≤ 2 := by
  let nodes (p : Fin N) : Finset ℕ := ((job p).chain.elim [] Chain.toList).toFinset
  have hcard : ∀ p ∈ S, (nodes p).card = 3 := by
    intro p hp
    obtain ⟨c, hc⟩ := Option.isSome_iff_exists.1 (hS p hp)
    simp only [nodes, hc, Option.elim_some]
    rw [List.toFinset_card_of_nodup (h.nodup p c hc)]
    rfl
  have hdisjoint : ∀ p ∈ S, ∀ q ∈ S, p ≠ q → Disjoint (nodes p) (nodes q) := by
    intro p hp q hq hne
    obtain ⟨c, hc⟩ := Option.isSome_iff_exists.1 (hS p hp)
    obtain ⟨e, he⟩ := Option.isSome_iff_exists.1 (hS q hq)
    simp only [nodes, hc, he, Option.elim_some]
    rw [List.disjoint_toFinset_iff_disjoint]
    exact h.apart p q c e hne hc he
  have hsub : S.biUnion nodes ⊆ Finset.range NUM := by
    intro i hi
    obtain ⟨p, hp, hip⟩ := Finset.mem_biUnion.1 hi
    obtain ⟨c, hc⟩ := Option.isSome_iff_exists.1 (hS p hp)
    simp only [nodes, hc, Option.elim_some, List.mem_toFinset] at hip
    exact Finset.mem_range.2 (h.allocated p c hc i hip).1
  have hle := Finset.card_le_card hsub
  rw [Finset.card_biUnion hdisjoint, Finset.sum_congr rfl hcard, Finset.sum_const,
    Finset.card_range, Nat.nsmul_eq_mul] at hle
  simp only [NUM] at hle
  omega

end

end Chains

end Xv6.Virtio
