/-
# Parents and children

`exit` and `wait` read `parent` fields without the lock of the child.  But a process that exits has
no child when it is a `ZOMBIE` (`Family.childless`), and one that waits keeps its lock until it is
asleep, while a child becomes a `ZOMBIE` only with the lock of its parent (`Frame.Kin`).
-/

import Xv6.Sched.Change

namespace Xv6.Sched

open Lib

variable {N M : ℕ} {s s' : Sys N M} {c : Fin M} {p q x y : Fin N} {f g : Frame N}
  {rest : List (Frame N)} {j : Fin N}

/-- What a process knows of its family at a place of `exit` or `wait`. -/
def Frame.Kin (s : Sys N M) (p : Fin N) : Frame N → Prop
  | .exitWake _ | .exitRead _ => p ≠ s.initproc
  | .exitLockParent _ q | .exitLockSelf _ q =>
    p ≠ s.initproc ∧ ((s.proc p).parent = some q ∨ (s.proc p).parent = some s.initproc)
  | .exitScan _ q i =>
    (p ≠ s.initproc ∧ ((s.proc p).parent = some q ∨ (s.proc p).parent = some s.initproc)) ∧
      ∀ j : Fin N, (j : ℕ) < i → (s.proc j).parent ≠ some p
  | .exitGive _ q i =>
    (p ≠ s.initproc ∧ ((s.proc p).parent = some q ∨ (s.proc p).parent = some s.initproc)) ∧
      (∀ j : Fin N, (j : ℕ) < i → (s.proc j).parent ≠ some p) ∧ (s.proc i).parent = some p
  | .exitZombie _ q =>
    (p ≠ s.initproc ∧ ((s.proc p).parent = some q ∨ (s.proc p).parent = some s.initproc)) ∧
      ∀ j, (s.proc j).parent ≠ some p
  | .waitScan _ i _ =>
    p ≠ s.initproc → ∀ j : Fin N, (j : ℕ) < i → (s.proc j).parent = some p →
    (s.proc j).state ≠ .zombie
  | .waitChild _ i => (s.proc i).parent = some p ∧
    (p ≠ s.initproc → ∀ j : Fin N, (j : ℕ) < i → (s.proc j).parent = some p →
      (s.proc j).state ≠ .zombie)
  | .sleepGo chan none => chan = .proc p ∧
    (p ≠ s.initproc → ∀ j, (s.proc j).parent = some p → (s.proc j).state ≠ .zombie)
  | .sleepParked chan none => chan = .proc p ∧ (p ≠ s.initproc → (s.proc p).state = .sleeping →
      ∀ j, (s.proc j).parent = some p → (s.proc j).state ≠ .zombie)
  | _ => True

structure Sys.Family (s : Sys N M) : Prop where
  childless : ∀ q j, (s.proc q).state = .unused ∨ (s.proc q).state = .zombie →
    (s.proc j).parent ≠ some q
  parent : ∀ j, (s.proc j).state ≠ .unused → j ≠ s.initproc → ∃ q, (s.proc j).parent = some q
  orphan : ∀ j, (s.proc j).state = .unused → (s.proc j).parent = none
  init : (s.proc s.initproc).state ≠ .unused ∧ (s.proc s.initproc).state ≠ .zombie
  frames : ∀ p, (s.proc p).state ≠ .unused → ∀ f ∈ (s.proc p).stack, f.Kin s p

namespace Sys

theorem family_boot (initproc : Fin N) : (boot N M initproc).Family where
  childless q j _ := by
    by_cases hj : j = initproc <;> simp [boot, hj]
  parent j hj hne := absurd (show (Sys.proc (boot N M initproc) j).state = .unused by
    simp [boot, show j ≠ initproc from hne]) hj
  orphan j _ := by
    by_cases hj : j = initproc <;> simp [boot, hj]
  init := by simp [boot]
  frames p hp f hf := by
    by_cases hpi : p = initproc
    · simp only [boot, hpi, if_true, List.mem_cons, List.not_mem_nil, or_false] at hf
      rcases hf with rfl | rfl <;> trivial
    · simp [boot, hpi] at hp

theorem At.unique (hx : s.At c x f) (hy : s.At c y g) : x = y ∧ f = g := by
  obtain ⟨hon, rest, hst⟩ := hx
  obtain ⟨hon', rest', hst'⟩ := hy
  obtain rfl := Option.some.inj (hon.symm.trans hon')
  rw [hst] at hst'
  exact ⟨rfl, (List.cons.inj hst').1⟩

theorem Family.kin_of_at (h : s.Family) (hs : s.Placed) (hat : s.At c x f) : f.Kin s x := by
  obtain ⟨hon, rest, hst⟩ := hat
  refine h.frames x (fun hu => hs.not_on_of_unused hu c hon) f ?_
  rw [hst]
  exact List.mem_cons_self ..

theorem Placed.sound_of_at (hs : s.Placed) (hat : s.At c x f) : f.Sound s c x := by
  obtain ⟨hon, rest, hst⟩ := hat
  exact (hs.cpu c).sound x f rest hon hst

theorem Placed.lock_of_at (hs : s.Placed) (hat : s.At c x f) (hq : q ∈ f.locks x) :
    s.plock q = some c := by
  obtain ⟨hon, rest, hst⟩ := hat
  rw [hs.own hon, hst]
  exact hq

/-! ### Who is alive -/

section Alive

variable (h : s.Family) (hs : s.Placed) (he : Event s c s')
include h hs he

theorem Family.init_event :
    (s'.proc s'.initproc).state ≠ .unused ∧ (s'.proc s'.initproc).state ≠ .zombie := by
  rw [event_initproc he]
  rcases hs.event_state he s.initproc with hsame | hstep
  · rw [hsame]
    exact h.init
  cases hst : (s'.proc s.initproc).state with
  | unused =>
    rw [hst] at hstep
    cases hstep with
    | free _ hz _ => exact absurd hz h.init.2
  | zombie =>
    rw [hst] at hstep
    cases hstep with
    | exit hat _ _ _ => exact absurd rfl (h.kin_of_at hs hat).1.1
  | _ => simp

omit h in
theorem Placed.alive_of_fork (hat : s.At c x (.forkHave mem np)) :
    (s'.proc x).state ≠ .unused ∧ (s'.proc x).state ≠ .zombie := by
  have hrun : (s.proc x).state = .running := by
    obtain ⟨hon, rest, hst⟩ := hat
    exact hs.running hon hst (by simp)
  rcases hs.event_state he x with hsame | hstep
  · simp [hsame, hrun]
  cases hst : (s'.proc x).state with
  | unused =>
    rw [hst] at hstep
    cases hstep with
    | free _ hz _ =>
      rw [hrun] at hz
      cases hz
  | zombie =>
    rw [hst] at hstep
    cases hstep with
    | exit hat' _ _ _ => cases (hat.unique hat').2
  | _ => simp

omit h in
theorem Placed.event_parent_cases (hj : (s'.proc j).parent = some q) :
    (s.proc j).parent = some q ∨ s.At c q (.forkHave .enough j) ∨ q = s.initproc := by
  rcases hs.event_parent he j with hsame | hstep
  · exact .inl (hsame.symm.trans hj)
  · rw [hj] at hstep
    cases hstep with
    | born hat _ => exact .inr (.inl hat)
    | give _ => exact .inr (.inr rfl)

theorem Family.childless_event (q j : Fin N)
    (hq : (s'.proc q).state = .unused ∨ (s'.proc q).state = .zombie) :
    (s'.proc j).parent ≠ some q := by
  intro hj
  rcases hs.event_parent_cases he hj with hold | hat | rfl
  · have halive : ¬((s.proc q).state = .unused ∨ (s.proc q).state = .zombie) := fun hdead =>
      h.childless q j hdead hold
    rcases hs.event_state he q with hsame | hstep
    · exact halive (hsame ▸ hq)
    · rcases hq with hq | hq <;> rw [hq] at hstep
      · cases hstep with
        | free _ hz _ => exact halive (.inr hz)
      · cases hstep with
        | exit hat _ _ _ => exact (h.kin_of_at hs hat).2 j hold
  · obtain ⟨hu, hz⟩ := hs.alive_of_fork he hat
    exact hq.elim hu hz
  · obtain ⟨hu, hz⟩ := h.init_event hs he
    rw [event_initproc he] at hu hz
    exact hq.elim hu hz

omit h in
theorem Placed.born_of_unused (hu : (s.proc j).state = .unused) (hj : (s'.proc j).state ≠ .unused) :
    ∃ x, (s'.proc j).parent = some x ∧ (s'.proc j).stack = [.forkret, .kernel] := by
  have hoff : ∀ {f}, ¬s.At c j f := fun hat => hs.not_on_of_unused hu c hat.1
  rcases hs.event_state he j with hsame | hstep
  · exact absurd (hsame.trans hu) hj
  generalize (s'.proc j).state = new at hstep
  cases hstep with
  | wake hst | run hst =>
    rw [hu] at hst
    cases hst
  | sleep hon hst _ => exact absurd ⟨hon, _, hst⟩ hoff
  | yield hat | exit hat _ _ _ => exact absurd hat hoff
  | born _ hp hst _ => exact ⟨_, hp, hst⟩
  | free _ hz _ =>
    rw [hu] at hz
    cases hz

theorem Family.parent_event (j : Fin N) (hj : (s'.proc j).state ≠ .unused) (hne : j ≠ s'.initproc) :
    ∃ q, (s'.proc j).parent = some q := by
  rw [event_initproc he] at hne
  by_cases hu : (s.proc j).state = .unused
  · obtain ⟨x, hx, -⟩ := hs.born_of_unused he hu hj
    exact ⟨x, hx⟩
  rcases hs.event_parent he j with hsame | hstep
  · rw [hsame]
    exact h.parent j hu hne
  · generalize (s'.proc j).parent = new at hstep
    cases hstep with
    | born _ _ => exact ⟨_, rfl⟩
    | give _ => exact ⟨_, rfl⟩
    | free _ hfree => exact absurd hfree hj

theorem Family.orphan_event (j : Fin N) (hj : (s'.proc j).state = .unused) :
    (s'.proc j).parent = none := by
  rcases hs.event_state he j with hsame | hstep
  · have hnone : (s.proc j).parent = none := h.orphan j (hsame.symm.trans hj)
    rcases hs.event_parent he j with hp | hp
    · exact hp.trans hnone
    cases hp' : (s'.proc j).parent with
    | none => rfl
    | some q =>
      rw [hp'] at hp
      cases hp with
      | born _ hrun =>
        rw [hj] at hrun
        cases hrun
      | give hat =>
        have hx := (h.kin_of_at hs hat).2.2
        rw [hnone] at hx
        cases hx
  · rw [hj] at hstep
    cases hstep with
    | free _ _ hp => exact hp

end Alive

/-! ### What a process knows while others run -/

section Others

variable (h : s.Family) (hs : s.Placed) (he : Event s c s')
include h hs he

omit h in
theorem Placed.parent_or_init (hu : (s.proc p).state ≠ .unused) (hu' : (s'.proc p).state ≠ .unused)
    (hp : (s.proc p).parent = some q ∨ (s.proc p).parent = some s.initproc) :
    (s'.proc p).parent = some q ∨ (s'.proc p).parent = some s'.initproc := by
  rw [event_initproc he]
  rcases hs.event_parent he p with hsame | hstep
  · rwa [hsame]
  · generalize (s'.proc p).parent = new at hstep
    cases hstep with
    | born hat _ => exact absurd (hs.sound_of_at hat) hu
    | give _ => exact .inr rfl
    | free _ hfree => exact absurd hfree hu'

omit h in
theorem Placed.event_child (hon : (s.cpu c).on ≠ some p) (hp : p ≠ s.initproc)
    (hj : (s'.proc j).parent = some p) : (s.proc j).parent = some p := by
  rcases hs.event_parent_cases he hj with hold | hat | hinit
  · exact hold
  · exact absurd hat.1 hon
  · exact absurd hinit hp

theorem Family.child_kept (hon : (s.cpu c).on ≠ some p) (hj : (s.proc j).parent = some p) :
    (s'.proc j).parent = some p := by
  have hused : (s.proc j).state ≠ .unused := fun hu => by
    rw [h.orphan j hu] at hj
    cases hj
  have hsame : ∀ {x}, (s.proc j).parent = some x → (s.cpu c).on ≠ some x := fun hx => by
    rw [hj] at hx
    exact Option.some.inj hx ▸ hon
  rcases hs.event_parent he j with heq | hstep
  · exact heq.trans hj
  generalize (s'.proc j).parent = new at hstep
  cases hstep with
  | born hat _ => exact absurd (hs.sound_of_at hat) hused
  | give hat => exact absurd hat.1 (hsame (h.kin_of_at hs hat).2.2)
  | free hat _ =>
    rcases hat with hat | hat
    · exact absurd hat.1 (hsame (h.kin_of_at hs hat).1)
    · exact absurd (hs.sound_of_at hat) hused

/-- A child becomes a zombie with the lock of its parent held, and wakes it. -/
theorem Family.exit_of_child (hp : p ≠ s.initproc) (hj : (s.proc j).parent = some p)
    (hz : (s.proc j).state ≠ .zombie) (hz' : (s'.proc j).state = .zombie) :
    s.plock p = some c ∧ (s'.proc p).state = ((s.proc p).wake (.proc p)).state := by
  rcases hs.event_state he j with hsame | hstep
  · exact absurd (hsame.symm.trans hz') hz
  rw [hz'] at hstep
  cases hstep with
  | @exit status q hat hwake _ _ =>
    obtain ⟨⟨-, hparent⟩, -⟩ := h.kin_of_at hs hat
    have hq : q = p := by
      rw [hj] at hparent
      rcases hparent with hq | hq
      · exact (Option.some.inj hq).symm
      · exact absurd (Option.some.inj hq) hp
    subst hq
    exact ⟨hs.lock_of_at hat (by simp [Frame.locks]), hwake (hs.sound_of_at hat)⟩

theorem Family.zombie_before (hon : (s.cpu c).on ≠ some p) (hp : p ≠ s.initproc)
    (hl : s.plock p ≠ some c) (hj : (s'.proc j).parent = some p)
    (hz : (s'.proc j).state = .zombie) :
    (s.proc j).parent = some p ∧ (s.proc j).state = .zombie := by
  have hchild := hs.event_child he hon hp hj
  refine ⟨hchild, ?_⟩
  by_contra hne
  exact hl (h.exit_of_child hs he hp hchild hne hz).1

omit h he in
/-- A process that is not parked has its locks on the CPU it runs on. -/
theorem Placed.plock_ne (hon : (s.cpu c).on ≠ some p) (hst : (s.proc p).stack = f :: rest)
    (hf : p ∈ f.locks p) (hparked : ¬(s.proc p).Parked) : s.plock p ≠ some c := by
  intro hl
  refine hparked (hs.parked p fun c' hon' => hon ?_)
  have hl' : s.plock p = some c' := by
    rw [hs.own hon', hst]
    exact hf
  rw [hl] at hl'
  exact Option.some.inj hl' ▸ hon'

omit h in
/-- The calls that wait for an inner one rely on nothing that others change. -/
theorem Placed.kin_below (hu : (s.proc p).state ≠ .unused) (hu' : (s'.proc p).state ≠ .unused)
    (hf : f.Calm ∨ ∃ copyout, f = .waitScan copyout 0 false) (hk : f.Kin s p) : f.Kin s' p := by
  have hinit := event_initproc he
  rcases hf with hcalm | ⟨copyout, rfl⟩
  · cases f with
    | exitWake status | exitRead status =>
      rw [Frame.Kin, hinit]
      exact hk
    | exitLockParent status q =>
      refine ⟨?_, hs.parent_or_init he hu hu' hk.2⟩
      rw [hinit]
      exact hk.1
    | kernel | sleepRelock _ | wakeup _ _ | yieldEnter | kill _ _ | forkScan _ _ | waitEnter _
    | killTest _ _ | killTested _ _ | killReady _ _ | scheduler _ => trivial
    | _ => cases hcalm
  · exact fun _ j hj => absurd hj (Nat.not_lt_zero _)

/-- The innermost call of a process knows what it knew when another thread has made a step. -/
theorem Family.kin_top (hon : (s.cpu c).on ≠ some p) (hst : (s.proc p).stack = f :: rest)
    (hu : (s.proc p).state ≠ .unused) (hu' : (s'.proc p).state ≠ .unused) (hk : f.Kin s p) :
    f.Kin s' p := by
  have hinit := event_initproc he
  -- what is said of `exit` and `wait` at slot `i`
  have hexit {q : Fin N} (hq : p ≠ s.initproc ∧
    ((s.proc p).parent = some q ∨ (s.proc p).parent = some s.initproc)) :
      p ≠ s'.initproc ∧ ((s'.proc p).parent = some q ∨ (s'.proc p).parent = some s'.initproc) :=
    ⟨hinit.symm ▸ hq.1, hs.parent_or_init he hu hu' hq.2⟩
  have hnone (hp : p ≠ s.initproc) {j : Fin N} (hj : (s.proc j).parent ≠ some p) :
      (s'.proc j).parent ≠ some p := fun hj' => hj (hs.event_child he hon hp hj')
  have hwait (hl : s.plock p ≠ some c) {P : Fin N → Prop}
      (hz : p ≠ s.initproc → ∀ j, P j → (s.proc j).parent = some p → (s.proc j).state ≠ .zombie) :
      p ≠ s'.initproc → ∀ j, P j → (s'.proc j).parent = some p → (s'.proc j).state ≠ .zombie := by
    intro hp j hP hj hzj
    rw [hinit] at hp
    obtain ⟨hchild, hzombie⟩ := h.zombie_before hs he hon hp hl hj hzj
    exact hz hp j hP hchild hzombie
  cases f with
  | exitWake status | exitRead status | exitLockParent status q =>
    exact hs.kin_below he hu hu' (.inl trivial) hk
  | exitLockSelf status q => exact hexit hk
  | exitScan status q i => exact ⟨hexit hk.1, fun j hj => hnone hk.1.1 (hk.2 j hj)⟩
  | exitGive status q i =>
    exact ⟨hexit hk.1, fun j hj => hnone hk.1.1 (hk.2.1 j hj), h.child_kept hs he hon hk.2.2⟩
  | exitZombie status q => exact ⟨hexit hk.1, fun j => hnone hk.1.1 (hk.2 j)⟩
  | waitScan copyout i havekids =>
    refine hwait (hs.plock_ne hon hst (List.mem_singleton_self p) fun hparked => ?_) hk
    simp only [Proc.Parked, hst] at hparked
    split at hparked <;> simp_all
  | waitChild copyout i =>
    refine ⟨h.child_kept hs he hon hk.1,
      hwait (hs.plock_ne hon hst (List.mem_singleton_self p) fun hparked => ?_) hk.2⟩
    simp only [Proc.Parked, hst] at hparked
    split at hparked <;> simp_all
  | sleepGo chan lk =>
    cases lk with
    | some lk => trivial
    | none =>
      have hl : s.plock p ≠ some c := hs.plock_ne hon hst (List.mem_singleton_self p)
        fun hparked => by
        simp only [Proc.Parked, hst] at hparked
        split at hparked <;> simp_all
      refine ⟨hk.1, fun hp j hj => ?_⟩
      exact hwait hl (P := fun _ => True) (fun hp j _ => hk.2 hp j) hp j trivial hj
  | sleepParked chan lk =>
    cases lk with
    | some lk => trivial
    | none =>
      refine ⟨hk.1, fun hp hsleep j hj hz => ?_⟩
      rw [hinit] at hp
      have hsleeping : (s.proc p).state = .sleeping := by
        rcases hs.event_state he p with hsame | hstep
        · exact hsame.symm.trans hsleep
        · rw [hsleep] at hstep
          cases hstep with
          | sleep hon' _ _ => exact absurd hon' hon
      have hchild := hs.event_child he hon hp hj
      have hwake := (h.exit_of_child hs he hp hchild (hk.2 hp hsleeping j hchild) hz).2
      -- the child that exits finds its parent asleep on its own address
      have hparked := hs.parked p (hs.not_on_of_sleeping hsleeping)
      rw [Proc.Parked, hsleeping] at hparked
      obtain ⟨chan', lk', rest', hst', hchan⟩ := hparked
      rw [hst] at hst'
      cases hst'
      rw [hk.1] at hchan
      rw [hsleep, Proc.wake, if_pos ⟨hsleeping, hchan⟩] at hwake
      cases hwake
  | _ => trivial

end Others

/-! ### What a process knows after its own step -/

theorem kin_congr (hstate : ∀ j, (s'.proc j).state = (s.proc j).state)
    (hparent : ∀ j, (s'.proc j).parent = (s.proc j).parent) (hinit : s'.initproc = s.initproc)
    (hk : f.Kin s p) : f.Kin s' p := by
  cases f with
  | exitWake _ | exitRead _ | exitLockParent _ _ | exitLockSelf _ _ | exitScan _ _ _
  | exitGive _ _ _ | exitZombie _ _ | waitScan _ _ _ | waitChild _ _ =>
    simpa only [Frame.Kin, hstate, hparent, hinit] using hk
  | sleepGo chan lk | sleepParked chan lk =>
    cases lk with
    | none => simpa only [Frame.Kin, hstate, hparent, hinit] using hk
    | some _ => trivial
  | _ => trivial

theorem kin_moves (hm : Moves s p rest f st) (hk : f.Kin s p)
    (hrest : ∀ g ∈ rest, g.Kin s p) : ∀ g ∈ st, g.Kin s p := by
  have hsucc {i : Fin N} {P : Fin N → Prop} (hlt : ∀ j : Fin N, (j : ℕ) < i → P j) (hi : P i) :
      ∀ j : Fin N, (j : ℕ) < i + 1 → P j := fun j hj => by
    rcases Nat.lt_succ_iff_lt_or_eq.1 hj with hj | hj
    · exact hlt j hj
    · exact Fin.ext hj ▸ hi
  cases hm with
  | wakeupEnd _ | killEnd _ | forkEnd _ | loopEnd => exact hrest
  | killNext _ | forkNext _ | loopTest _ | loopReady =>
    exact List.forall_mem_cons.2 ⟨trivial, hrest⟩
  | loopWake => exact List.forall_mem_cons.2 ⟨trivial, List.forall_mem_cons.2 ⟨trivial, hrest⟩⟩
  | exitRead hparent => exact List.forall_mem_cons.2 ⟨⟨hk, .inl hparent⟩, hrest⟩
  | exitChild hi => exact List.forall_mem_cons.2 ⟨⟨hk.1, hk.2, hi⟩, hrest⟩
  | exitNext hi => exact List.forall_mem_cons.2 ⟨⟨hk.1, hsucc hk.2 hi⟩, hrest⟩
  | exitEnd hi =>
    exact List.forall_mem_cons.2 ⟨⟨hk.1, fun j => hk.2 j (lt_of_lt_of_le j.isLt hi)⟩, hrest⟩
  | waitChild hi => exact List.forall_mem_cons.2 ⟨⟨hi, hk⟩, hrest⟩
  | waitOther hi =>
    exact List.forall_mem_cons.2 ⟨fun hp => hsucc (hk hp) fun hi' => absurd hi' hi, hrest⟩
  | waitNext hi => exact List.forall_mem_cons.2 ⟨fun hp => hsucc (hk.2 hp) fun _ => hi, hrest⟩

theorem Family.kin_turn (h : s.Family) (hs : s.Placed) (hon : (s.cpu c).on = some p)
    (hst : (s.proc p).stack = f :: rest) (ht : Turn s c p rest f s')
    (hu' : (s'.proc p).state ≠ .unused) : ∀ g ∈ (s'.proc p).stack, g.Kin s' p := by
  have he : Event s c s' := .turn hon hst ht
  have hu : (s.proc p).state ≠ .unused := fun hu => hs.not_on_of_unused hu c hon
  have hk : f.Kin s p := h.kin_of_at hs ⟨hon, rest, hst⟩
  have hmem : ∀ g ∈ rest, g.Kin s p := fun g hg => h.frames p hu g (hst ▸ .tail _ hg)
  have hnested : Nested (f :: rest) := hst ▸ hs.nested p
  have hrest : ∀ g ∈ rest, g.Kin s' p := fun g hg =>
    hs.kin_below he hu hu' (hnested.mem_tail hg) (hmem g hg)
  have hpop (hst' : (s'.proc p).stack = rest) : ∀ g ∈ (s'.proc p).stack, g.Kin s' p := by
    rw [hst']
    exact hrest
  have hnext {g : Frame N} (hst' : (s'.proc p).stack = g :: rest) (hg : g.Kin s' p) :
      ∀ g ∈ (s'.proc p).stack, g.Kin s' p := by
    rw [hst']
    exact List.forall_mem_cons.2 ⟨hg, hrest⟩
  cases ht with
  | move hm =>
    intro g hg
    rw [setStack_stack_self] at hg
    exact kin_congr (s := s) (by simp) (by simp) rfl (kin_moves hm hk hmem g hg)
  | sleepEnter _ | sleepLocked _ | wakeup _ | forkFound _ _ =>
    refine hnext setStack_stack_self ?_
    trivial
  | sleepParked _ | exitZombie _ =>
    refine hnext (by rw [setProc_proc_self]) ?_
    trivial
  | yieldEnter _ =>
    refine hnext (by rw [setCpu_proc, setProc_proc_self]) ?_
    trivial
  | exitSwitch _ _ =>
    refine hnext (by rw [setCpu_proc, setStack_stack_self]) ?_
    trivial
  | sleepBack => exact hpop (by rw [setProc_proc_self])
  | sleepRelock | resume _ _ | kill _ _ | forkNoTrapframe _ | forkNoPages _ | forkEnough _
  | waitNone _ _ | waitReap _ _ _ | waitFail _ | loopKilled _ => exact hpop setStack_stack_self
  | waitEnter _ => exact hnext setStack_stack_self fun _ j hj => absurd hj (Nat.not_lt_zero _)
  | exitWake _ =>
    refine hnext setStack_stack_self ?_
    exact hk
  | @exitLockParent status q _ =>
    have hk' : (Frame.exitLockSelf status q).Kin s p := hk
    exact hnext setStack_stack_self (kin_congr (s := s) (by simp) (by simp) rfl hk')
  | @exitLockSelf status q _ =>
    have hk' : (Frame.exitScan status q 0).Kin s p :=
      ⟨hk, fun j hj => absurd hj (Nat.not_lt_zero _)⟩
    exact hnext setStack_stack_self (kin_congr (s := s) (by simp) (by simp) rfl hk')
  | @exitGive status q i _ =>
    refine hnext setStack_stack_self ⟨⟨hk.1.1, ?_⟩, fun j hj => ?_⟩
    · exact hs.parent_or_init he hu hu' hk.1.2
    rw [setStack_parent]
    by_cases hji : j = i
    · rw [hji, setProc_proc_self]
      exact fun hp => hk.1.1 (Option.some.inj hp).symm
    · rw [setProc_proc_of_ne hji]
      exact hk.2.1 j (lt_of_le_of_ne (Nat.le_of_lt_succ hj) fun heq => hji (Fin.ext heq))
  | @sleepGo chan lk _ =>
    refine hnext (by rw [setCpu_proc, setProc_proc_self]) ?_
    cases lk with
    | some _ => trivial
    | none =>
      refine ⟨hk.1, fun hp _ j hj => ?_⟩
      rw [setCpu_proc] at hj ⊢
      by_cases hjp : j = p
      · rw [hjp, setProc_proc_self]
        simp
      · rw [setProc_proc_of_ne hjp] at hj ⊢
        exact hk.2 hp j hj
  | waitSleep hi _ =>
    rw [setStack_stack_self]
    refine List.forall_mem_cons.2 ⟨?_, List.forall_mem_cons.2 ⟨?_, hrest⟩⟩
    · have hk' : (Frame.sleepGo (.proc p) none).Kin s p :=
        ⟨rfl, fun hp j => hk hp j (lt_of_lt_of_le j.isLt hi)⟩
      exact kin_congr (s := s) (by simp) (by simp) rfl hk'
    · exact fun _ j hj => absurd hj (Nat.not_lt_zero _)
  | loopSleep _ =>
    rw [setStack_stack_self]
    refine List.forall_mem_cons.2 ⟨?_, List.forall_mem_cons.2 ⟨?_, hrest⟩⟩ <;> trivial

/-- Between two steps of `kernel/proc.c` a process makes calls, returns and is interrupted. -/
theorem Family.kin_own (h : s.Family) (hs : s.Placed) (he : Event s c s')
    (hon : (s.cpu c).on = some p) (hu' : (s'.proc p).state ≠ .unused) :
    ∀ g ∈ (s'.proc p).stack, g.Kin s' p := by
  have hu : (s.proc p).state ≠ .unused := fun hu => hs.not_on_of_unused hu c hon
  have hold : ∀ g ∈ (s.proc p).stack, g.Kin s p := h.frames p hu
  have hset {t : Sys N M} {st : List (Frame N)} (ht : t.proc = s.proc)
    (hinit : t.initproc = s.initproc)
      (hnew : ∀ g ∈ st, g.Kin s p) : ∀ g ∈ ((t.setStack p st).proc p).stack, g.Kin
      (t.setStack p st) p := by
    intro g hg
    rw [setStack_stack_self] at hg
    exact kin_congr (by simp [ht]) (by simp [ht]) hinit (hnew g hg)
  cases he with
  | turn hx hst ht =>
    obtain rfl := on_unique hon hx
    exact h.kin_turn hs hx hst ht hu'
  | call hx hst hcall =>
    obtain rfl := on_unique hon hx
    rw [hst] at hold
    refine hset rfl rfl (List.forall_mem_cons.2 ⟨?_, hold⟩)
    cases hcall with
    | exit hp => exact hp
    | _ => trivial
  | sleep hx hst _ =>
    obtain rfl := on_unique hon hx
    rw [hst] at hold
    exact hset rfl rfl (List.forall_mem_cons.2 ⟨trivial, hold⟩)
  | ret hx hst =>
    obtain rfl := on_unique hon hx
    rw [hst] at hold
    exact hset rfl rfl (List.forall_mem_cons.1 hold).2
  | interrupt hx hst _ hg' =>
    obtain rfl := on_unique hon hx
    rw [hst] at hold
    refine hset rfl rfl (List.forall_mem_cons.2 ⟨?_, hold⟩)
    rcases hg' with rfl | rfl <;> trivial
  | spin _ _ => exact fun g hg => kin_congr (fun _ => rfl) (fun _ => rfl) rfl (hold g hg)
  | round hoff _ _ | cpuCall hoff _ | cpuRet hoff _ | cpuInterrupt hoff _ _ =>
    rw [hon] at hoff
    cases hoff

theorem Family.frames_event (h : s.Family) (hs : s.Placed) (he : Event s c s') (p : Fin N)
    (hu' : (s'.proc p).state ≠ .unused) : ∀ f ∈ (s'.proc p).stack, f.Kin s' p := by
  by_cases hu : (s.proc p).state = .unused
  · obtain ⟨-, -, hst⟩ := hs.born_of_unused he hu hu'
    rw [hst]
    intro f hf
    rcases List.mem_pair.1 hf with rfl | rfl <;> trivial
  by_cases hon : (s.cpu c).on = some p
  · exact h.kin_own hs he hon hu'
  rcases hs.event_stack he hon with hsame | ⟨x, hat, -⟩
  · rw [hsame]
    intro f hf
    have hk := h.frames p hu f hf
    cases hst : (s.proc p).stack with
    | nil =>
      rw [hst] at hf
      cases hf
    | cons g rest =>
      rw [hst] at hf
      rcases List.mem_cons.1 hf with rfl | hf
      · exact h.kin_top hs he hon hst hu hu' hk
      · have hnested : Nested (g :: rest) := hst ▸ hs.nested p
        exact hs.kin_below he hu hu' (hnested.mem_tail hf) hk
  · exact absurd (hs.sound_of_at hat) hu

/-- **The family survives every step.** -/
theorem Family.event (h : s.Family) (hs : s.Placed) (he : Event s c s') : s'.Family where
  childless := h.childless_event hs he
  parent := h.parent_event hs he
  orphan := h.orphan_event hs he
  init := h.init_event hs he
  frames := h.frames_event hs he

end Sys

end Xv6.Sched
