/-
# What is on its way between driver and device

A request is made available, taken, completed, and marked by the handler.  On the way it is *live*:
its process waits for it, and the rings name the first descriptor of that process's chain (`Live`).
At most two requests are live, so no entry that is still to be read is overwritten.
-/

import Xv6.Virtio.Chains

namespace Xv6.Virtio

open Lib Function

variable {N : ℕ} {B : Type} {i k : ℕ} {j : Job B} {pc : Option IntrPc}

/-- Request `k` is on its way, with `h` as its first descriptor. -/
def Live (job : Fin N → Job B) (disk : B → Bool) (k h : ℕ) : Prop :=
  ∃ p a c, job p = .waiting a c k ∧ c.i0 = h ∧ disk a.b = true

/-- The request that a job waits for. -/
def Job.ticket : Job B → ℕ
  | .waiting _ _ k => k
  | _ => 0

theorem Live.mono {job job' : Fin N → Job B} {disk disk' : B → Bool} (hlive : Live job disk k i)
    (hkeep : ∀ p a c, job p = .waiting a c k → disk a.b = true → job' p = .waiting a c k ∧
      disk' a.b = true) :
    Live job' disk' k i := by
  obtain ⟨p, a, c, hp, hc, hd⟩ := hlive
  obtain ⟨hp', hd'⟩ := hkeep p a c hp hd
  exact ⟨p, a, c, hp', hc, hd'⟩

/-- Processes in calls have different buffers. -/
def OwnBuffers (job : Fin N → Job B) : Prop :=
  ∀ p q a b, (job p).args = some a → (job q).args = some b → a.b = b.b → p = q

theorem Live.update {job : Fin N → Job B} {disk : B → Bool} {p : Fin N} (hlive : Live job disk k i)
    (hp : ∀ a c k, job p = .waiting a c k → disk a.b = false) : Live (update job p j) disk k i := by
  refine hlive.mono fun q a c hq hd => ⟨?_, hd⟩
  rw [update_of_ne, hq]
  rintro rfl
  rw [hp a c k hq] at hd
  cases hd

theorem eq_of_update {job : Fin N → Job B} {p q : Fin N} {k : Job B} (hq : update job p j q = k)
    (hk : k ≠ j) : job q = k :=
  ((update_cases hq).resolve_left fun hj => hk hj.2.symm).2

namespace Rings

/-- The requests that the handler has seen. -/
def seen (r : Rings B) : List ℕ := (r.completed.take r.marked.length).map Prod.snd

/-- The requests that the device has taken, wherever they are now. -/
def passed (r : Rings B) : List ℕ :=
  r.inflight.map Prod.snd ++ r.writing.toList.map Prod.snd ++ r.completed.map Prod.snd

/-- The rings agree with what the processes wait for. -/
structure Ok (r : Rings B) (job : Fin N → Job B) (disk : B → Bool) : Prop where
  availIdx : r.availIdx = UInt16.ofNat r.requests.length
  lastAvail : r.lastAvail = UInt16.ofNat r.taken
  usedId : r.usedId = UInt16.ofNat r.completed.length
  usedIdx : r.usedIdx.toNat = r.marked.length % NUM
  taken_le : r.taken ≤ r.requests.length
  marked_le : r.marked.length ≤ r.completed.length
  once : r.passed.Perm (List.range r.taken)
  request : ∀ p a c k, job p = .waiting a c k → r.requests[k]? = some a.b
  armed : ∀ p a c, job p = .linked a c ∨ job p = .posted a c → disk a.b = true
  done : ∀ p a c k, job p = .waiting a c k → disk a.b = false → k ∈ r.seen
  posted : ∀ p a c, job p = .posted a c → r.availRing (r.requests.length % NUM) = c.i0
  queued : ∀ k, r.taken ≤ k → k < r.requests.length → Live job disk k (r.availRing (k % NUM))
  flying : ∀ x ∈ r.inflight, Live job disk x.2 x.1
  writing : ∀ x, r.writing = some x → Live job disk x.2 x.1 ∧
    r.usedElems (r.completed.length % NUM) = x.1
  unseen : ∀ (j : ℕ) (x : ℕ × ℕ), r.marked.length ≤ j → r.completed[j]? = some x →
    Live job disk x.2 x.1 ∧ r.usedElems (j % NUM) = x.1
  marked : ∀ (j : ℕ) (b : B), r.marked[j]? = some b →
    ∃ x : ℕ × ℕ, r.completed[j]? = some x ∧ r.requests[x.2]? = some b

variable {r r' : Rings B} {job : Fin N → Job B} {disk : B → Bool} {p : Fin N} {a : Args B}
  {c : Chain} {x : ℕ × ℕ}

theorem ok_init (N : ℕ) (B : Type) : (init B).Ok (fun _ : Fin N => .idle) fun _ => false where
  availIdx := rfl
  lastAvail := rfl
  usedId := rfl
  usedIdx := rfl
  taken_le := le_rfl
  marked_le := le_rfl
  once := .refl _
  request p a c k h := by cases h
  armed p a c h := by rcases h with h | h <;> cases h
  done p a c k h := by cases h
  posted p a c h := by cases h
  queued k _ h := by simp [init] at h
  flying x h := by simp [init] at h
  writing x h := by cases h
  unseen j x _ h := by simp [init] at h
  marked j b h := by simp [init] at h

theorem toNat_ofNat_mod (n : ℕ) : (UInt16.ofNat n).toNat % NUM = n % NUM := by
  rw [UInt16.toNat_ofNat', Nat.mod_mod_of_dvd _ (by decide)]

theorem ofNat_succ (n : ℕ) : UInt16.ofNat (n + 1) = UInt16.ofNat n + 1 := UInt16.ofNat_add n 1

namespace Ok

variable (h : r.Ok job disk)
include h

theorem completed_le : r.completed.length ≤ r.taken := by
  have hlen := h.once.length_eq
  simp only [passed, List.length_append, List.length_map, List.length_range] at hlen
  omega

theorem nodup : r.passed.Nodup := h.once.nodup_iff.2 List.nodup_range

theorem lt_of_passed (hk : k ∈ r.passed) : k < r.taken := List.mem_range.1 (h.once.mem_iff.1 hk)

theorem live_of_not_seen (hk : k < r.requests.length) (hseen : k ∉ r.seen) :
    ∃ i, Live job disk k i := by
  by_cases htaken : r.taken ≤ k
  · exact ⟨_, h.queued k htaken hk⟩
  have hpassed : k ∈ r.passed := h.once.mem_iff.2 (List.mem_range.2 (by omega))
  simp only [passed, List.mem_append, List.mem_map] at hpassed
  rcases hpassed with (⟨x, hx, rfl⟩ | ⟨x, hx, rfl⟩) | ⟨x, hx, rfl⟩
  · exact ⟨_, h.flying x hx⟩
  · exact ⟨_, (h.writing x (Option.mem_toList.1 hx)).1⟩
  obtain ⟨j, hj⟩ := List.mem_iff_getElem?.1 hx
  by_cases hlt : j < r.marked.length
  · refine absurd (List.mem_map_of_mem ?_) hseen
    refine List.mem_iff_getElem?.2 ⟨j, ?_⟩
    rw [List.getElem?_take_of_lt hlt, hj]
  · exact ⟨_, (h.unseen j x (Nat.not_lt.1 hlt) hj).1⟩

/-- **At most two requests are live.** -/
theorem pending_le (hchains : Chains d job) : r.requests.length ≤ r.marked.length + 2 := by
  let S : Finset (Fin N) := Finset.univ.filter fun p => (job p).chain.isSome
  have hsub : Finset.range r.requests.length \ r.seen.toFinset ⊆ S.image fun p =>
      (job p).ticket := by
    intro k hk
    rw [Finset.mem_sdiff, Finset.mem_range, List.mem_toFinset] at hk
    obtain ⟨i, p, a, c, hp, -⟩ := h.live_of_not_seen hk.1 hk.2
    refine Finset.mem_image.2 ⟨p, ?_, ?_⟩
    · refine Finset.mem_filter.2 ⟨Finset.mem_univ p, ?_⟩
      rw [hp]
      rfl
    · rw [hp]
      rfl
  have hS : S.card ≤ 2 := hchains.card_le fun p hp => (Finset.mem_filter.1 hp).2
  have hseen : r.seen.toFinset.card ≤ r.marked.length := by
    refine (List.toFinset_card_le _).trans ?_
    simp [seen]
  have hcard := (Finset.card_le_card hsub).trans Finset.card_image_le
  have hdiff := Finset.le_card_sdiff r.seen.toFinset (Finset.range r.requests.length)
  rw [Finset.card_range] at hdiff
  omega

/-! ### The device -/

theorem take (hr : r.take = some r') : r'.Ok job disk := by
  unfold Rings.take at hr
  split at hr
  · rename_i hne
    cases hr
    have hlt : r.taken < r.requests.length := by
      refine lt_of_le_of_ne h.taken_le fun he => hne ?_
      rw [h.lastAvail, h.availIdx, he]
    have hslot : r.lastAvail.toNat % NUM = r.taken % NUM := by rw [h.lastAvail, toNat_ofNat_mod]
    refine { h with
      lastAvail := by rw [ofNat_succ, ← h.lastAvail]
      taken_le := hlt
      once := ?_
      queued := fun k hk => h.queued k (Nat.le_of_succ_le hk)
      flying := fun x hx => ?_ }
    · refine List.perm_iff_count.2 fun k => ?_
      have hcount := h.once.count_eq k
      simp only [passed, List.range_succ, List.map_append, List.map_singleton,
        List.count_append] at hcount ⊢
      omega
    · rcases List.mem_append.1 hx with hx | hx
      · exact h.flying x hx
      · rw [List.mem_singleton.1 hx, hslot]
        exact h.queued r.taken le_rfl hlt
  · cases hr

omit h in
theorem mod_ne {j : ℕ} (hlt : j < k) (hle : k ≤ j + 2) : j % NUM ≠ k % NUM := by
  simp only [NUM]
  omega

theorem complete (hpend : r.requests.length ≤ r.marked.length + 2) (hw : r.writing = none)
    (hx : r.inflight[i]? = some x) : (r.complete i x).Ok job disk := by
  have hslot : r.usedId.toNat % NUM = r.completed.length % NUM := by rw [h.usedId, toNat_ofNat_mod]
  have hle := h.completed_le
  have htaken := h.taken_le
  refine { h with
    once := ?_
    flying := fun y hy => h.flying y (List.mem_of_mem_eraseIdx hy)
    writing := fun y hy => ?_
    unseen := fun j y hj hy => ?_ }
  · refine List.perm_iff_count.2 fun k => ?_
    have hcount := h.once.count_eq k
    obtain ⟨hlt, rfl⟩ := List.getElem?_eq_some_iff.1 hx
    have herase := ((List.getElem_cons_eraseIdx_perm hlt).map Prod.snd).count_eq k
    simp only [passed, hw, Rings.complete, Option.toList_some, Option.toList_none, List.map_nil,
      List.map_cons, List.count_append, List.count_cons, List.count_nil] at hcount herase ⊢
    omega
  · cases hy
    refine ⟨h.flying x (List.mem_of_getElem? hx), ?_⟩
    simp only [Rings.complete, hslot, update_self]
  · have hlt : j < r.completed.length := (List.getElem?_eq_some_iff.1 hy).1
    have hj : r.marked.length ≤ j := hj
    obtain ⟨hlive, helem⟩ := h.unseen j y hj hy
    refine ⟨hlive, ?_⟩
    have hne : j % NUM ≠ r.completed.length % NUM := mod_ne hlt (by omega)
    simp only [Rings.complete, hslot, update_of_ne hne]
    exact helem

theorem advance (hw : r.writing = some x) : (r.advance x).Ok job disk := by
  have hlen : (r.completed ++ [x]).length = r.completed.length + 1 := by simp
  have hkeep (j : ℕ) (y : ℕ × ℕ) (hy : r.completed[j]? = some y) :
      (r.completed ++ [x])[j]? = some y := by
    rw [List.getElem?_append_left (List.getElem?_eq_some_iff.1 hy).1, hy]
  have hseen : (r.advance x).seen = r.seen := by
    simp only [seen, Rings.advance, List.take_append_of_le_length h.marked_le]
  refine { h with
    usedId := by simp only [Rings.advance, hlen, ofNat_succ, h.usedId]
    marked_le := by simp only [Rings.advance, hlen]; exact Nat.le_succ_of_le h.marked_le
    once := ?_
    done := fun p a c k hp hd => hseen ▸ h.done p a c k hp hd
    writing := fun y hy => by cases hy
    unseen := fun j y hj hy => ?_
    marked := fun j b hb => ?_ }
  · refine List.perm_iff_count.2 fun k => ?_
    have hcount := h.once.count_eq k
    simp only [passed, hw, Rings.advance, Option.toList_some, Option.toList_none, List.map_nil,
      List.map_cons, List.map_append, List.count_append, List.count_nil] at hcount ⊢
    omega
  · by_cases hlt : j < r.completed.length
    · refine h.unseen j y hj ?_
      rw [← hy]
      exact (List.getElem?_append_left hlt).symm
    have hlt' : j < (r.completed ++ [x]).length := (List.getElem?_eq_some_iff.1 hy).1
    have hj' : j = r.completed.length := by omega
    subst hj'
    have hyx : x = y := by simpa [Rings.advance] using hy
    subst hyx
    exact h.writing x hw
  · obtain ⟨y, hy, hreq⟩ := h.marked j b hb
    exact ⟨y, hkeep j y hy, hreq⟩

/-! ### The driver -/

theorem reassign (hj : j.formatted = none)
    (hp : ∀ a c k, job p = .waiting a c k → disk a.b = false) : r.Ok (update job p j) disk := by
  have hne {k : Job B} (hk : k.formatted ≠ none) : k ≠ j := by
    rintro rfl
    exact hk hj
  exact { h with
    request := fun q a c k hq => h.request q a c k (eq_of_update hq (hne (by simp [Job.formatted])))
    armed :=
      fun q a c hq =>
        h.armed q a c (hq.imp (fun hq => eq_of_update hq (hne (by simp [Job.formatted])))
          fun hq => eq_of_update hq (hne (by simp [Job.formatted])))
    done := fun q a c k hq => h.done q a c k (eq_of_update hq (hne (by simp [Job.formatted])))
    posted := fun q a c hq => h.posted q a c (eq_of_update hq (hne (by simp [Job.formatted])))
    queued := fun k hk hk' => (h.queued k hk hk').update hp
    flying := fun y hy => (h.flying y hy).update hp
    writing := fun y hy => (h.writing y hy).imp_left fun hl => hl.update hp
    unseen := fun k y hk hy => (h.unseen k y hk hy).imp_left fun hl => hl.update hp }

theorem format [DecidableEq B] (hp : job p = .has a c) :
    r.Ok (update job p (.linked a c)) (update disk a.b true) := by
  have hdisk {b : B} (hb : disk b = true) : update disk a.b true b = true := by
    by_cases he : b = a.b
    · rw [he, update_self]
    · rwa [update_of_ne he]
  have hlive {k i : ℕ} (hl : Live job disk k i) :
      Live (update job p (.linked a c)) (update disk a.b true) k i :=
    (hl.update (by simp [hp])).mono fun q b e hq hd => ⟨hq, hdisk hd⟩
  refine { h with
    request := fun q b e k hq => h.request q b e k (eq_of_update hq (by simp))
    armed := fun q b e hq => ?_
    done := fun q b e k hq hd => h.done q b e k (eq_of_update hq (by simp)) ?_
    posted := fun q b e hq => h.posted q b e (eq_of_update hq (by simp))
    queued := fun k hk hk' => hlive (h.queued k hk hk')
    flying := fun y hy => hlive (h.flying y hy)
    writing := fun y hy => (h.writing y hy).imp_left hlive
    unseen := fun k y hk hy => (h.unseen k y hk hy).imp_left hlive }
  · by_cases hqp : q = p
    · subst hqp
      rw [update_self] at hq
      rcases hq with hq | hq <;> cases hq
      exact update_self ..
    · rw [update_of_ne hqp] at hq
      exact hdisk (h.armed q b e hq)
  · refine Bool.eq_false_iff.2 fun hon => ?_
    rw [hdisk hon] at hd
    cases hd

theorem post (hpend : r.requests.length ≤ r.marked.length + 2) (hp : job p = .linked a c)
    (honly : ∀ q b e, job q ≠ .posted b e) :
    (r.post c.i0).Ok (update job p (.posted a c)) disk := by
  have hslot : r.availIdx.toNat % NUM = r.requests.length % NUM := by
    rw [h.availIdx, toNat_ofNat_mod]
  have hle := h.completed_le
  have hmarked := h.marked_le
  have hlive {k i : ℕ} (hl : Live job disk k i) : Live (update job p (.posted a c)) disk k i :=
    hl.update (by simp [hp])
  refine { h with
    request := fun q b e k hq => h.request q b e k (eq_of_update hq (by simp))
    armed := fun q b e hq => ?_
    done := fun q b e k hq hd => h.done q b e k (eq_of_update hq (by simp)) hd
    posted := fun q b e hq => ?_
    queued := fun k hk hk' => ?_
    flying := fun y hy => hlive (h.flying y hy)
    writing := fun y hy => (h.writing y hy).imp_left hlive
    unseen := fun k y hk hy => (h.unseen k y hk hy).imp_left hlive }
  · by_cases hqp : q = p
    · subst hqp
      rw [update_self] at hq
      rcases hq with hq | hq <;> cases hq
      exact h.armed q a c (.inl hp)
    · rw [update_of_ne hqp] at hq
      exact h.armed q b e hq
  · rcases update_cases hq with ⟨rfl, ⟨⟩⟩ | ⟨-, hq⟩
    · simp only [Rings.post, hslot, update_self]
    · exact absurd hq (honly q b e)
  · have hk : r.taken ≤ k := hk
    have hk' : k < r.requests.length := hk'
    have hne : k % NUM ≠ r.requests.length % NUM := mod_ne hk' (by omega)
    simp only [Rings.post, hslot, update_of_ne hne]
    exact hlive (h.queued k hk hk')

theorem publish (hp : job p = .posted a c) (honly : ∀ q b e, q ≠ p → job q ≠ .posted b e) :
    (r.publish a.b).Ok (update job p (.waiting a c r.requests.length)) disk := by
  have hon : disk a.b = true := h.armed p a c (.inr hp)
  have hlen : (r.requests ++ [a.b]).length = r.requests.length + 1 := by simp
  have hkeep {k : ℕ} {b : B} (hb : r.requests[k]? = some b) :
      (r.requests ++ [a.b])[k]? = some b := by
    rw [List.getElem?_append_left (List.getElem?_eq_some_iff.1 hb).1, hb]
  have hlive {k i : ℕ} (hl : Live job disk k i) :
      Live (update job p (.waiting a c r.requests.length)) disk k i := hl.update (by simp [hp])
  refine { h with
    availIdx := by simp only [Rings.publish, hlen, ofNat_succ, h.availIdx]
    taken_le := by simp only [Rings.publish, hlen]; exact Nat.le_succ_of_le h.taken_le
    request := fun q b e k hq => ?_
    armed := fun q b e hq => h.armed q b e
      (hq.imp (fun hq => eq_of_update hq (by simp)) fun hq => eq_of_update hq (by simp))
    done := fun q b e k hq hd => ?_
    posted := fun q b e hq => ?_
    queued := fun k hk hk' => ?_
    flying := fun y hy => hlive (h.flying y hy)
    writing := fun y hy => (h.writing y hy).imp_left hlive
    unseen := fun k y hk hy => (h.unseen k y hk hy).imp_left hlive
    marked := fun j b hb => ?_ }
  · rcases update_cases hq with ⟨rfl, ⟨⟩⟩ | ⟨-, hq⟩
    · simp [Rings.publish]
    · exact hkeep (h.request q b e k hq)
  · rcases update_cases hq with ⟨rfl, ⟨⟩⟩ | ⟨-, hq⟩
    · rw [hon] at hd
      cases hd
    · exact h.done q b e k hq hd
  · rcases update_cases hq with ⟨-, ⟨⟩⟩ | ⟨hqp, hq⟩
    exact absurd hq (honly q b e hqp)
  · simp only [Rings.publish, hlen] at hk hk'
    rcases Nat.lt_succ_iff_lt_or_eq.1 hk' with hlt | rfl
    · exact hlive (h.queued k hk hlt)
    · exact ⟨p, a, c, update_self .., (h.posted p a c hp).symm, hon⟩
  · obtain ⟨y, hy, hreq⟩ := h.marked j b hb
    exact ⟨y, hy, hkeep hreq⟩

/-- **The handler marks the buffer of the next entry**: that request is seen, and the others stay
live. -/
theorem mark [DecidableEq B] (hown : OwnBuffers job) (hx : r.completed[r.marked.length]? = some x)
    (hp : job p = .waiting a c x.2) : (r.mark a.b).Ok job (update disk a.b false) := by
  have hlt : r.marked.length < r.completed.length := (List.getElem?_eq_some_iff.1 hx).1
  have hmem : x.2 ∈ r.completed.map Prod.snd := List.mem_map_of_mem (List.mem_of_getElem? hx)
  have hnodup := h.nodup
  unfold passed at hnodup
  rw [List.nodup_append] at hnodup
  have hlen : (r.marked ++ [a.b]).length = r.marked.length + 1 := by simp
  have hlive {k i : ℕ} (hl : Live job disk k i) (hk : k ≠ x.2) :
      Live job (update disk a.b false) k i := by
    refine hl.mono fun q b e hq hd => ⟨hq, ?_⟩
    rw [update_of_ne, hd]
    intro he
    have hqp : q = p := hown q p b a (by rw [hq]; rfl) (by rw [hp]; rfl) he
    rw [hqp, hp] at hq
    cases hq
    exact hk rfl
  have hseen : (r.mark a.b).seen = r.seen ++ [x.2] := by
    simp only [seen, Rings.mark, hlen, List.take_add_one, hx, Option.toList_some, List.map_append,
      List.map_singleton]
  refine { h with
    usedIdx := ?_
    marked_le := by simp only [Rings.mark, hlen]; exact hlt
    armed := fun q b e hq => ?_
    done := fun q b e k hq hd => ?_
    queued := fun k hk hk' => hlive (h.queued k hk hk') ?_
    flying := fun y hy => hlive (h.flying y hy) ?_
    writing := fun y hy => (h.writing y hy).imp_left fun hl => hlive hl ?_
    unseen := fun j y hj hy => ?_
    marked := fun j b hb => ?_ }
  · have hNUM : (UInt16.ofNat NUM).toNat = 8 := rfl
    simp only [Rings.mark, hlen, UInt16.toNat_mod, UInt16.toNat_add, h.usedIdx, hNUM,
      UInt16.toNat_one, NUM]
    omega
  · have hne : b.b ≠ a.b := by
      intro he
      have hargs : (job q).args = some b := by rcases hq with hq | hq <;> rw [hq] <;> rfl
      have hqp : q = p := hown q p b a hargs (by rw [hp]; rfl) he
      rw [hqp, hp] at hq
      rcases hq with hq | hq <;> cases hq
    rw [update_of_ne hne]
    exact h.armed q b e hq
  · rw [hseen]
    by_cases he : b.b = a.b
    · have hqp : q = p := hown q p b a (by rw [hq]; rfl) (by rw [hp]; rfl) he
      rw [hqp, hp] at hq
      cases hq
      exact List.mem_append_right _ (List.mem_singleton_self _)
    · rw [update_of_ne he] at hd
      exact List.mem_append_left _ (h.done q b e k hq hd)
  · have hpassed := h.lt_of_passed (List.mem_append_right _ hmem)
    have hk : r.taken ≤ k := hk
    omega
  · exact hnodup.2.2 _ (List.mem_append_left _ (List.mem_map_of_mem hy)) _ hmem
  · exact hnodup.2.2 _ (List.mem_append_right _ (List.mem_map_of_mem (Option.mem_toList.2 hy))) _
      hmem
  · simp only [Rings.mark, hlen] at hj
    have hy : r.completed[j]? = some y := hy
    refine (h.unseen j y (Nat.le_of_succ_le hj) hy).imp_left fun hl => hlive hl fun he => ?_
    have hjlt : j < (r.completed.map Prod.snd).length := by
      rw [List.length_map]
      exact (List.getElem?_eq_some_iff.1 hy).1
    have hsame : (r.completed.map Prod.snd)[j]? = (r.completed.map Prod.snd)[r.marked.length]? := by
      rw [List.getElem?_map, List.getElem?_map, hx, hy, Option.map_some, Option.map_some, he]
    have hjm := (List.getElem?_inj hjlt hnodup.2.1).1 hsame
    omega
  · rcases Nat.lt_or_ge j r.marked.length with hj | hj
    · refine h.marked j b ?_
      rw [← hb]
      exact (List.getElem?_append_left hj).symm
    · have hjlt : j < (r.marked ++ [a.b]).length := (List.getElem?_eq_some_iff.1 hb).1
      have hj' : j = r.marked.length := by omega
      subst hj'
      have hb' : a.b = b := by simpa [Rings.mark] using hb
      exact ⟨x, hx, hb' ▸ h.request p a c x.2 hp⟩

theorem unprocessed_iff (hpend : r.requests.length ≤ r.marked.length + 2) :
    r.Unprocessed ↔ r.marked.length < r.completed.length := by
  have hmarked := h.marked_le
  have hle := h.completed_le
  have htaken := h.taken_le
  have hslot : r.usedId.toNat % NUM = r.completed.length % NUM := by rw [h.usedId, toNat_ofNat_mod]
  simp only [Unprocessed, h.usedIdx, hslot, NUM]
  omega

end Ok

theorem take_same (hr : r.take = some r') : r'.marked = r.marked ∧ r'.completed = r.completed := by
  unfold take at hr
  split at hr
  · cases hr
    exact ⟨rfl, rfl⟩
  · cases hr

/-- The handler has an entry in hand. -/
structure InHand (r : Rings B) (pc : Option IntrPc) : Prop where
  item : pc = some .item → r.marked.length < r.completed.length
  check : ∀ id, pc = some (.check id) → ∃ x, r.completed[r.marked.length]? = some x ∧ x.1 = id

theorem inHand_of (hitem : pc ≠ some .item) (hcheck : ∀ id, pc ≠ some (.check id)) : r.InHand pc :=
  ⟨fun hpc => absurd hpc hitem, fun id hpc => absurd hpc (hcheck id)⟩

theorem InHand.congr (h : r.InHand pc) (hmarked : r'.marked = r.marked)
    (hkeep : ∀ (j : ℕ) (x : ℕ × ℕ), r.completed[j]? = some x → r'.completed[j]? = some x) :
    r'.InHand pc where
  item hpc := by
    have hlt := h.item hpc
    rw [hmarked]
    exact (List.getElem?_eq_some_iff.1 (hkeep _ _ (List.getElem?_eq_getElem hlt))).1
  check id hpc := by
    obtain ⟨x, hx, hid⟩ := h.check id hpc
    exact ⟨x, hmarked ▸ hkeep _ _ hx, hid⟩

end Rings

end Xv6.Virtio
