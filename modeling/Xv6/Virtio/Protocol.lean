/-
# The protocol of the disk driver

`Inv` holds in every state that any number of callers, the interrupt handler and the device can
reach together: what is under `disk.vdisk_lock` is changed by one thread at a time, each call has
its own buffer (`Locks`), each request its own chain (`Chains`), and the rings name just the
requests that are on their way (`Rings.Ok`).
-/

import Xv6.Virtio.Rings

namespace Xv6.Virtio

open Lib Function

variable {N : ℕ} {B : Type} {pc₀ : IntrPc} {a : Args B}

/-! ### The locks -/

/-- Between `alloc3_desc` and the publication of the request. -/
def Job.busy : Job B → Prop
  | .has .. | .linked .. | .posted .. => True
  | _ => False

structure Locks (lock : Option (Thread N)) (intr : Option IntrPc) (place : Fin N → Place)
    (job : Fin N → Job B) (owner : B → Option (Fin N)) : Prop where
  inside : ∀ p, place p = .inside → lock = some (.proc p)
  handler : intr.isSome = true → lock = some .intr
  busy : ∀ p, (job p).busy → place p = .inside
  owned : ∀ p a, (job p).args = some a → owner a.b = some p

namespace Locks

variable {lock : Option (Thread N)} {pc : Option IntrPc} {place : Fin N → Place}
  {job : Fin N → Job B} {owner : B → Option (Fin N)} {p : Fin N} {j : Job B} {x : Place} {b : B}

variable (h : Locks lock pc place job owner)
include h

theorem ownBuffers : OwnBuffers job := by
  intro p q a b hp hq he
  have hown := h.owned p a hp
  rw [he, h.owned q b hq] at hown
  exact (Option.some.inj hown).symm

theorem eq_of_inside (hp : place p = .inside)
    (hq : place q = .inside) : q = p := by
  have hlock := h.inside q hq
  rw [h.inside p hp] at hlock
  cases hlock
  rfl

theorem setJob (hp : place p = .inside)
    (hargs : ∀ a, j.args = some a → owner a.b = some p) :
    Locks lock pc place (update job p j) owner := by
  refine ⟨h.inside, h.handler, fun q hq => ?_, fun q a hq => ?_⟩
  · by_cases hqp : q = p
    · rwa [hqp]
    · rw [update_of_ne hqp] at hq
      exact h.busy q hq
  · rcases view_update_cases Job.args hq with ⟨rfl, hj⟩ | ⟨-, hq⟩
    · exact hargs a hj
    · exact h.owned q a hq

omit h in
theorem enter (h : Locks none pc place job owner) :
    Locks (some (.proc p)) pc (update place p .inside) job owner := by
  refine ⟨fun q hq => ?_, fun hpc => ?_, fun q hq => ?_, h.owned⟩
  · rcases update_cases hq with ⟨rfl, -⟩ | ⟨-, hq⟩
    · rfl
    · cases h.inside q hq
  · cases h.handler hpc
  · by_cases hqp : q = p
    · rw [hqp, update_self]
    · rw [update_of_ne hqp]
      exact h.busy q hq

theorem leave (hp : place p = .inside) (hbusy : ¬(job p).busy)
    (hx : x ≠ .inside) : Locks none pc (update place p x) job owner := by
  refine ⟨fun q hq => ?_, fun hpc => ?_, fun q hq => ?_, h.owned⟩
  · rcases update_cases hq with ⟨-, hq⟩ | ⟨hqp, hq⟩
    · exact absurd hq hx
    · exact absurd (h.eq_of_inside hp hq) hqp
  · have hlock := h.handler hpc
    rw [h.inside p hp] at hlock
    cases hlock
  · have hqp := h.eq_of_inside hp (h.busy q hq)
    rw [hqp] at hq
    exact absurd hq hbusy

theorem woken
    (hplace : ∀ q, place' q = .inside ↔ place q = .inside) : Locks lock pc place' job owner :=
  ⟨fun q hq => h.inside q ((hplace q).1 hq), h.handler, fun q hq => (hplace q).2
    (h.busy q hq), h.owned⟩

omit h in
theorem start (h : Locks none pc place job owner) (pc' : IntrPc) :
    Locks (some .intr) (some pc') place job owner := by
  refine ⟨fun q hq => ?_, fun _ => rfl, h.busy, h.owned⟩
  cases h.inside q hq

omit h in
theorem goOn (h : Locks lock (some pc₀) place job owner) (pc' : IntrPc) :
    Locks lock (some pc') place job owner :=
  ⟨h.inside, fun _ => h.handler rfl, h.busy, h.owned⟩

omit h in
theorem finish (h : Locks lock (some pc₀) place job owner) : Locks none none place job owner := by
  refine ⟨fun q hq => ?_, fun hpc => absurd hpc (by simp), h.busy, h.owned⟩
  have hlock := h.handler rfl
  rw [h.inside q hq] at hlock
  cases hlock

theorem setOwner [DecidableEq B] {x : Option (Fin N)}
    (hb : ∀ q a, (job q).args = some a → a.b ≠ b) : Locks lock pc place job (update owner b x) := by
  refine ⟨h.inside, h.handler, h.busy, fun q a hq => ?_⟩
  rw [update_of_ne (hb q a hq)]
  exact h.owned q a hq

theorem call (hb : owner a.b = some p) :
    Locks lock pc (update place p .spin) (update job p (.asking a)) owner := by
  refine ⟨fun q hq => ?_, h.handler, fun q hq => ?_, fun q e hq => ?_⟩
  · rcases update_cases hq with ⟨-, ⟨⟩⟩ | ⟨-, hq⟩
    exact h.inside q hq
  · by_cases hqp : q = p
    · rw [hqp, update_self] at hq
      cases hq
    · rw [update_of_ne hqp] at hq ⊢
      exact h.busy q hq
  · rcases view_update_cases Job.args hq with ⟨rfl, ⟨⟩⟩ | ⟨-, hq⟩
    · exact hb
    · exact h.owned q e hq

end Locks

namespace Sys

variable {s s' : Sys N B} {p : Fin N}

theorem wakeFree_inside (q : Fin N) : s.wakeFree.place q = .inside ↔ s.place q = .inside := by
  simp only [wakeFree]
  split
  · rename_i hplace
    simp [hplace]
  · rfl

theorem wakeBuf_inside [DecidableEq B] (b : B) (q : Fin N) :
    (s.wakeBuf b).place q = .inside ↔ s.place q = .inside := by
  simp only [wakeBuf]
  split
  · rename_i hplace
    split <;> simp [hplace]
  · rfl

/-! ### The invariant -/

structure Inv (s : Sys N B) : Prop where
  fine : s.panic = none
  locks : Locks s.lock s.intr s.place s.job s.owner
  chains : Chains s.drv s.job
  rings : s.rings.Ok s.job s.disk
  inHand : s.rings.InHand s.intr

theorem inv_init (N : ℕ) (B : Type) : (init N B).Inv where
  fine := rfl
  locks := by
    constructor
    · intro p h
      cases h
    · intro h
      cases h
    · intro p h
      cases h
    · intro p a h
      cases h
  chains := by
    constructor
    · intro p c h
      cases h
    · intro p c h
      cases h
    · intro p q c e _ h
      cases h
    · intro p a c h
      cases h
  rings := Rings.ok_init N B
  inHand := Rings.inHand_of (by simp [init]) (by simp [init])

theorem Inv.pending_le (h : s.Inv) : s.rings.requests.length ≤ s.rings.marked.length + 2 :=
  h.rings.pending_le h.chains

theorem Inv.eq_of_busy (h : s.Inv) (hp : s.place p = .inside) (hq : (s.job q).busy) : q = p :=
  h.locks.eq_of_inside hp (h.locks.busy q hq)

variable [DecidableEq B]

/-- **A step of `virtio_disk_rw`**, with the lock. -/
theorem Inv.diskRwInside (h : s.Inv) (hp : s.place p = .inside)
    (hs : s.diskRwInside p (s.job p) = some s') : s'.Inv := by
  have howned := h.locks.owned p
  cases hjob : s.job p with
  | idle =>
    rw [hjob] at hs
    cases hs
  | asking a =>
    rw [hjob] at howned
    rcases s.drv.alloc3Desc_spec with ⟨d, c, hd, hgot⟩ | ⟨d, freed, hd, hsame⟩
    · simp only [hjob, Sys.diskRwInside, hd, Option.some.injEq] at hs
      subst hs
      exact ⟨h.fine, h.locks.setJob hp howned, h.chains.got hgot, h.rings.reassign rfl
        (by simp [hjob]), h.inHand⟩
    simp only [hjob, Sys.diskRwInside, hd, Option.some.injEq] at hs
    subst hs
    have hbusy : ¬(s.job p).busy := by
      rw [hjob]
      exact id
    cases freed with
    | false =>
      exact ⟨h.fine, h.locks.leave hp hbusy (by decide), h.chains.same hsame, h.rings, h.inHand⟩
    | true =>
      have hwoken := h.locks.woken (wakeFree_inside (s := { s with drv := d }))
      exact ⟨h.fine, hwoken.leave ((wakeFree_inside p).2 hp) hbusy (by decide),
        h.chains.same hsame, h.rings, h.inHand⟩
  | has a c =>
    rw [hjob] at howned hs
    cases hs
    exact ⟨h.fine, h.locks.setJob hp howned, h.chains.format (by rw [hjob]; rfl) rfl,
      h.rings.format hjob, h.inHand⟩
  | linked a c =>
    rw [hjob] at howned hs
    cases hs
    have honly : ∀ q b e, s.job q ≠ .posted b e := by
      intro q b e hq
      have hqp : q = p := h.eq_of_busy hp (by rw [hq]; trivial)
      rw [hqp, hjob] at hq
      cases hq
    exact ⟨h.fine, h.locks.setJob hp howned, h.chains.keep (by rw [hjob]; rfl) (by rw [hjob]; rfl),
      h.rings.post h.pending_le hjob honly, h.inHand.congr rfl fun _ _ => id⟩
  | posted a c =>
    rw [hjob] at howned hs
    cases hs
    have honly : ∀ q b e, q ≠ p → s.job q ≠ .posted b e :=
      fun q b e hqp hq => hqp (h.eq_of_busy hp (by rw [hq]; trivial))
    exact ⟨h.fine, h.locks.setJob hp howned, h.chains.keep (by rw [hjob]; rfl) (by rw [hjob]; rfl),
      h.rings.publish hjob honly, h.inHand.congr rfl fun _ _ => id⟩
  | waiting a c k =>
    have hbusy : ¬(s.job p).busy := by
      rw [hjob]
      exact id
    simp only [hjob, Sys.diskRwInside] at hs
    split at hs
    · cases hs
      exact ⟨h.fine, h.locks.leave hp hbusy (by decide), h.chains, h.rings, h.inHand⟩
    rename_i hoff
    have hformatted : (s.job p).formatted = some (a, c) := by rw [hjob]; rfl
    obtain ⟨d, hd, hchains⟩ := h.chains.freeChain hformatted { s.drv.info c.i0 with b := none }
    rw [hd] at hs
    cases hs
    have hquiet : ∀ b e k', s.job p = .waiting b e k' → s.disk b.b = false := by
      intro b e k' hb
      rw [hjob] at hb
      cases hb
      exact Bool.eq_false_iff.2 hoff
    have hwoken := h.locks.woken (wakeFree_inside (s := { s with drv := d }))
    have hidle := hwoken.setJob (j := .idle) ((wakeFree_inside p).2 hp) fun b hb => by cases hb
    exact ⟨h.fine, hidle.leave ((wakeFree_inside p).2 hp) (by rw [update_self]; exact id)
      (by decide), hchains, h.rings.reassign rfl hquiet, h.inHand⟩

theorem Inv.diskRw (h : s.Inv) (hs : s.diskRw p = some s') : s'.Inv := by
  unfold Sys.diskRw at hs
  split at hs
  · cases hs
  · cases hs
  · split at hs
    · rename_i hlock
      cases hs
      have hlocks := h.locks
      rw [hlock] at hlocks
      exact ⟨h.fine, hlocks.enter, h.chains, h.rings, h.inHand⟩
    · cases hs
  · rename_i hplace
    exact h.diskRwInside hplace hs

/-! ### The handler -/

/-- **A step of `virtio_disk_intr`.** -/
theorem Inv.diskIntr (h : s.Inv) (hs : s.diskIntr = some s') : s'.Inv := by
  have hlocks := h.locks
  have hhand := h.inHand
  unfold Sys.diskIntr at hs
  split at hs
  · split at hs
    · rename_i hlock
      cases hs
      rw [hlock] at hlocks
      exact ⟨h.fine, hlocks.start _, h.chains, h.rings, Rings.inHand_of (by simp) (by simp)⟩
    · cases hs
  · rename_i hpc
    cases hs
    rw [hpc] at hlocks
    refine ⟨h.fine, hlocks.goOn _, h.chains, h.rings, ⟨fun hitem => ?_, fun id hcheck => ?_⟩⟩
    · simp only [Option.some.injEq, ite_eq_left_iff, reduceCtorEq, imp_false, not_not] at hitem
      exact (h.rings.unprocessed_iff h.pending_le).1 hitem
    · simp only [Option.some.injEq] at hcheck
      split at hcheck <;> cases hcheck
  · rename_i hpc
    cases hs
    rw [hpc] at hlocks hhand
    refine ⟨h.fine, hlocks.goOn _, h.chains, h.rings,
      ⟨fun hitem => absurd hitem (by simp), fun id hcheck => ?_⟩⟩
    have hget := List.getElem?_eq_getElem (hhand.item rfl)
    refine ⟨_, hget, ?_⟩
    obtain ⟨-, helem⟩ := h.rings.unseen _ _ le_rfl hget
    simp only [Option.some.injEq, IntrPc.check.injEq] at hcheck
    rw [← hcheck, Rings.usedElem, h.rings.usedIdx, helem]
  · rename_i id hpc
    rw [hpc] at hlocks hhand
    obtain ⟨x, hx, hid⟩ := hhand.check id rfl
    obtain ⟨⟨p, a, c, hjob, hhead, -⟩, -⟩ := h.rings.unseen _ x le_rfl hx
    have hinfo : s.drv.info id = ⟨some a.b, 0⟩ := by
      rw [← hid, ← hhead]
      exact (h.chains.linked p a c (by rw [hjob]; rfl)).info
    simp only [hinfo, ne_eq, not_true_eq_false, if_false, Option.some.injEq] at hs
    subst hs
    have hwoken :=
      hlocks.woken (wakeBuf_inside (s := { s with disk := update s.disk a.b false }) a.b)
    exact ⟨h.fine, hwoken.goOn _, h.chains, h.rings.mark hlocks.ownBuffers hx hjob,
      Rings.inHand_of (by simp) (by simp)⟩
  · rename_i hpc
    cases hs
    rw [hpc] at hlocks
    exact ⟨h.fine, hlocks.goOn _, h.chains, h.rings, Rings.inHand_of (by simp) (by simp)⟩
  · rename_i v hpc
    cases hs
    rw [hpc] at hlocks
    exact ⟨h.fine, hlocks.goOn _, h.chains, h.rings, Rings.inHand_of (by simp) (by simp)⟩
  · rename_i hpc
    cases hs
    rw [hpc] at hlocks
    exact ⟨h.fine, hlocks.finish, h.chains, h.rings, Rings.inHand_of (by simp) (by simp)⟩

/-! ### All steps -/

theorem Inv.step (h : s.Inv) {a : Action N B} (hs : s.step a = some s') : s'.Inv := by
  unfold Sys.step at hs
  rw [if_neg (not_not.2 h.fine)] at hs
  cases a with
  | acquiresleep p b =>
    simp only at hs
    split at hs
    · split at hs
      · rename_i hidle hfree
        cases hs
        refine ⟨h.fine, h.locks.setOwner fun q e hq he => ?_, h.chains, h.rings, h.inHand⟩
        rw [← he, h.locks.owned q e hq] at hfree
        cases hfree
      · cases hs
    · cases hs
  | releasesleep p b =>
    simp only at hs
    split at hs
    · split at hs
      · rename_i hidle hmine
        cases hs
        refine ⟨h.fine, h.locks.setOwner fun q e hq he => ?_, h.chains, h.rings, h.inHand⟩
        rw [← he, h.locks.owned q e hq] at hmine
        cases hmine
        rw [hidle] at hq
        cases hq
      · cases hs
    · cases hs
  | call p a =>
    simp only at hs
    split at hs
    · split at hs
      · rename_i hidle hmine
        cases hs
        exact ⟨h.fine, h.locks.call hmine, h.chains.keep (by rw [hidle]; rfl) (by rw [hidle]; rfl),
          h.rings.reassign rfl (by simp [hidle]), h.inHand⟩
      · cases hs
    · cases hs
  | kill p =>
    simp only [Option.some.injEq] at hs
    subst hs
    split
    · rename_i hasleep
      refine ⟨h.fine, h.locks.woken fun q => ?_, h.chains, h.rings, h.inHand⟩
      by_cases hqp : q = p
      · subst hqp
        simp [setPlace, hasleep]
      · simp [setPlace, hqp]
    · exact h
  | run p => exact h.diskRw hs
  | intr => exact h.diskIntr hs
  | take =>
    obtain ⟨r, hr, rfl⟩ := Option.map_eq_some_iff.1 hs
    refine ⟨h.fine, h.locks, h.chains, h.rings.take hr, ?_⟩
    obtain ⟨hmarked, hcompleted⟩ := Rings.take_same hr
    exact h.inHand.congr hmarked fun j x hx => hcompleted ▸ hx
  | complete i =>
    simp only at hs
    split at hs
    · rename_i x hw hx
      cases hs
      exact ⟨h.fine, h.locks, h.chains.succeed x.1, h.rings.complete h.pending_le hw hx,
        h.inHand.congr rfl fun _ _ => id⟩
    · cases hs
  | advance =>
    obtain ⟨x, hw, rfl⟩ := Option.map_eq_some_iff.1 hs
    refine ⟨h.fine, h.locks, h.chains, h.rings.advance hw, h.inHand.congr rfl fun j y hy => ?_⟩
    simp only [Rings.advance]
    rw [List.getElem?_append_left (List.getElem?_eq_some_iff.1 hy).1, hy]
  | signal =>
    simp only at hs
    split at hs
    · cases hs
      exact ⟨h.fine, h.locks, h.chains, h.rings, h.inHand⟩
    · cases hs

theorem Inv.returns (h : s.Inv) (hjob : s.job p = .waiting a c k)
    (hs : s.step (.run p) = some s') (hidle : s'.job p = .idle) : k ∈ s.rings.seen := by
  unfold Sys.step at hs
  rw [if_neg (not_not.2 h.fine)] at hs
  simp only [Sys.diskRw, hjob] at hs
  split at hs
  · cases hs
  · rename_i heq
    cases heq
  · split at hs
    · cases hs
      rw [show s.job p = _ from hidle] at hjob
      cases hjob
    · cases hs
  · simp only [Sys.diskRwInside] at hs
    split at hs
    · cases hs
      rw [show s.job p = _ from hidle] at hjob
      cases hjob
    · rename_i hoff
      exact h.rings.done p a c k hjob (Bool.eq_false_iff.2 hoff)

end Sys

/-- The handler has marked the buffers of the first entries of the used ring. -/
theorem Rings.Ok.marked_eq {r : Rings B} {job : Fin N → Job B} {disk : B → Bool}
    (h : r.Ok job disk) :
    r.marked.map some = (r.completed.take r.marked.length).map fun x => r.requests[x.2]? := by
  refine List.ext_getElem? fun j => ?_
  rcases Nat.lt_or_ge j r.marked.length with hj | hj
  · obtain ⟨x, hx, hreq⟩ := h.marked j _ (List.getElem?_eq_getElem hj)
    rw [List.getElem?_map, List.getElem?_map, List.getElem?_take_of_lt hj, hx,
      List.getElem?_eq_getElem hj]
    simp only [Option.map_some, hreq]
  · have hlen := h.marked_le
    rw [List.getElem?_eq_none (by rwa [List.length_map]),
      List.getElem?_eq_none (by simpa using .inl hj)]

/-- **The disk driver's protocol**: whatever callers, handler and device do, nothing panics; the
chains of the calls are disjoint triples of allocated descriptors, linked as they were formatted;
entries of the used ring are processed in order, each once, and mark the buffer of the request they
belong to; a call returns only when the device has completed its own request. -/
theorem disk_protocol [DecidableEq B] {s : Sys N B}
    (h : Reach Sys.step (fun _ _ => True) (Sys.init N B) s) : s.panic = none ∧
    (∀ p c, (s.job p).chain = some c → c.toList.Nodup ∧ ∀ i ∈ c.toList, i < NUM ∧
      s.drv.free i = false) ∧
    (∀ p q c e, p ≠ q → (s.job p).chain = some c → (s.job q).chain = some e →
      c.toList.Disjoint e.toList) ∧
    (∀ p a c k, s.job p = .waiting a c k → s.drv.Linked a c ∧ s.rings.requests[k]? = some a.b) ∧
    (∀ x ∈ s.rings.inflight, Live s.job s.disk x.2 x.1) ∧
    (s.rings.completed.map Prod.snd).Nodup ∧
    (s.rings.Unprocessed ↔ s.rings.marked.length < s.rings.completed.length) ∧
    s.rings.marked.map some = (s.rings.completed.take s.rings.marked.length).map
    (fun x => s.rings.requests[x.2]?) ∧ ∀ p a c k s', s.job p = .waiting a c k →
    s.step (.run p) = some s' → s'.job p = .idle → k ∈ s.rings.completed.map Prod.snd := by
  have hinv : s.Inv := h.invariant (Sys.inv_init N B) fun s a s' hi _ hs => hi.step hs
  have hnodup := hinv.rings.nodup
  unfold Rings.passed at hnodup
  refine ⟨hinv.fine, fun p c hp => ⟨hinv.chains.nodup p c hp, hinv.chains.allocated p c hp⟩,
    hinv.chains.apart, fun p a c k hp =>
      ⟨hinv.chains.linked p a c (by rw [hp]; rfl), hinv.rings.request p a c k hp⟩,
    hinv.rings.flying, (List.nodup_append.1 hnodup).2.1, hinv.rings.unprocessed_iff hinv.pending_le,
    hinv.rings.marked_eq, fun p a c k s' hp hs hidle => ?_⟩
  have hseen := hinv.returns hp hs hidle
  rw [Rings.seen, List.map_take] at hseen
  exact List.mem_of_mem_take hseen

/-- The steps of process `p` from a call for buffer `b` until it sleeps. -/
def request (p : Fin N) (b : B) : List (Action N B) :=
  [.acquiresleep p b, .call p ⟨b, 7, false⟩] ++ List.replicate 6 (.run p)

/-- Two requests, completed in the other order; the handler has marked the buffer of the first
entry. -/
theorem disk_protocol_swapped :
    ∃ s : Sys 2 Bool, Reach Sys.step (fun _ _ => True) (Sys.init 2 Bool) s ∧
    (s.rings.completed = [(3, 1), (0, 0)] ∧ s.rings.marked = [true]) ∧ s.panic = none ∧
    s.rings.marked.map some = (s.rings.completed.take s.rings.marked.length).map fun x =>
    s.rings.requests[x.2]? := by
  have hrun : (run Sys.step (fun _ _ => True) (Sys.init 2 Bool)
      (request 0 false ++ request 1 true ++ [.take, .take, .complete 1, .advance, .complete 0,
      .advance, .signal,
        .intr, .intr, .intr, .intr])).map (fun s => (s.rings.completed, s.rings.marked)) =
      some ([(3, 1), (0, 0)], [true]) := by
    decide +kernel
  obtain ⟨s, hs, hv⟩ := exists_reach_of_run hrun
  simp only [Prod.mk.injEq] at hv
  obtain ⟨hfine, -, -, -, -, -, -, hmarked, -⟩ := disk_protocol hs
  exact ⟨s, hs, hv, hfine, hmarked⟩

end Xv6.Virtio
