/-
# Kernel code, as its buffer commands

For the buffer cache, a routine of `kernel/fs.c` or `kernel/log.c` is a sequence of `bread`,
`brelse`, `log_write` and a few more, where what comes next can depend on the data read (`Code`).
`Code.Ok` follows a routine with what its process knows of the buffers it holds, and `Code.Keeps` is
what callers need.
-/

import Xv6.Bio.Cache
import Mathlib.Data.Fintype.Card

namespace Xv6

open Lib Function

/-- A routine over the cache, as a tree of its calls. -/
inductive Code (α : Type) : Type
  | pure (a : α)
  /-- `b = bread(dev, blockno)`, and what comes next, given `b` and its data. -/
  | bread (blockno : ℕ) (k : Bp → Block → Code α)
  | update (b : Bp) (f : Block → Block) (k : Code α)
  | logWrite (b : Bp) (k : Code α)
  | bwrite (b : Bp) (k : Code α)
  | brelse (b : Bp) (k : Code α)
  | bunpin (b : Bp) (k : Code α)
  /-- A step of `commit` that is not about buffers. -/
  | commit (k : Code α)
  | panic

namespace Code

variable {α β : Type}

protected def bind : Code α → (α → Code β) → Code β
  | .pure a, f => f a
  | .bread n k, f => .bread n fun b data => (k b data).bind f
  | .update b g k, f => .update b g (k.bind f)
  | .logWrite b k, f => .logWrite b (k.bind f)
  | .bwrite b k, f => .bwrite b (k.bind f)
  | .brelse b k, f => .brelse b (k.bind f)
  | .bunpin b k, f => .bunpin b (k.bind f)
  | .commit k, f => .commit (k.bind f)
  | .panic, _ => .panic

instance : Monad Code where
  pure := .pure
  bind := Code.bind

end Code

/-! ### What a process knows of its buffers -/

/-- The state of a buffer for its holder. -/
inductive Mark
  /-- As it was read, or in the log. -/
  | clean
  /-- Just written to the disk. -/
  | written
  | dirty
  deriving DecidableEq

structure Info where
  blockno : ℕ
  mark : Mark

/-- What a process knows of the buffers it holds. -/
abbrev Known : Type := Bp → Option Info

namespace Known

def none : Known := fun _ => .none

def set (K : Known) (b : Bp) (i : Info) : Known := update K b (some i)

def drop (K : Known) (b : Bp) : Known := update K b .none

def size (K : Known) : ℕ := (Finset.univ.filter fun b => K b ≠ .none).card

variable {K : Known} {b c : Bp} {i : Info}

@[simp] theorem set_self : K.set b i b = some i := update_self ..

@[simp] theorem set_of_ne (h : c ≠ b) : K.set b i c = K c := update_of_ne h ..

@[simp] theorem drop_self : K.drop b b = .none := update_self ..

@[simp] theorem drop_of_ne (h : c ≠ b) : K.drop b c = K c := update_of_ne h ..

@[simp] theorem size_none : none.size = 0 := by simp [size, none]

theorem size_set (h : K b = .none) : (K.set b i).size = K.size + 1 := by
  have hset : (Finset.univ.filter fun c => K.set b i c ≠ .none) =
      insert b (Finset.univ.filter fun c => K c ≠ .none) := by
    ext c
    by_cases hc : c = b
    · subst hc
      simp
    · simp [hc]
  rw [size, hset, Finset.card_insert_of_notMem (by simp [h]), size]

theorem size_set_of_held (h : K b = some j) : (K.set b i).size = K.size := by
  have hset : (Finset.univ.filter fun c => K.set b i c ≠ .none) = Finset.univ.filter fun c =>
      K c ≠ .none := by
    ext c
    by_cases hc : c = b
    · subst hc
      simp [h]
    · simp [hc]
  rw [size, hset, size]

theorem drop_set (h : K b = .none) : (K.set b i).drop b = K := by
  rw [drop, set, update_idem, ← h, update_eq_self]

theorem size_drop (h : K b = some j) : (K.drop b).size + 1 = K.size := by
  rw [← size_set (i := j) drop_self, set, drop, update_idem, ← h, update_eq_self]

theorem set_set : (K.set b i).set b j = K.set b j := update_idem ..

end Known

/-! ### Following a routine -/

/-- The most buffers that a process holds at a time. -/
abbrev MAXHELD : ℕ := 2

namespace Code

variable {α β : Type} {logged : Bool}

/-- The routine keeps the rules from a point where the process knows `K`, and `Q` holds of
what it returns and knows in the end.  If `logged` is set, it releases no buffer that it
changed and neither logged nor wrote.  `w` is the block that `install_trans` is about to
unpin, if the process is there: it unpins that block, and it does nothing else of `commit`
before. -/
def Ok (logged : Bool) (Q : α → Option ℕ → Known → Prop) : Option ℕ → Known → Code α → Prop
  | w, K, .pure a => Q a w K
  | w, K, .bread n k =>
    K.size + 1 ≤ MAXHELD ∧ ∀ b data, K b = .none → (k b data).Ok logged Q w (K.set b ⟨n, .clean⟩)
  | w, K, .update b _ k => ∀ i, K b = some i → k.Ok logged Q w (K.set b ⟨i.blockno, .dirty⟩)
  | w, K, .logWrite b k => ∀ i, K b = some i → k.Ok logged Q w (K.set b ⟨i.blockno, .clean⟩)
  | w, K, .bwrite b k => ∀ i, K b = some i → k.Ok logged Q w (K.set b ⟨i.blockno, .written⟩)
  | w, K, .brelse b k =>
    ∀ i, K b = some i → (logged = true → i.mark ≠ .dirty) ∧ k.Ok logged Q w (K.drop b)
  | w, K, .bunpin b k => ∃ i, K b = some i ∧ w = some i.blockno ∧
      (logged = true → i.mark = .written) ∧ ∀ w', k.Ok logged Q w' K
  | w, K, .commit k => w = none ∧ ∀ w', k.Ok logged Q w' K
  | _, _, .panic => True

/-- What is asked of a whole call: it has released all its buffers. -/
def Done (_ : α) (_ : Option ℕ) (K : Known) : Prop := K = Known.none

/-- **Sequencing.** -/
theorem Ok.bind {Q : α → Option ℕ → Known → Prop} {Q' : β → Option ℕ → Known → Prop} {x : Code α}
    {f : α → Code β} {w : Option ℕ} {K : Known} (h : x.Ok logged Q w K)
    (hf : ∀ a w K, Q a w K → (f a).Ok logged Q' w K) : (x >>= f).Ok logged Q' w K := by
  induction x generalizing w K with
  | pure a => exact hf a w K h
  | bread n k ih => exact ⟨h.1, fun b data hb => ih b data (h.2 b data hb)⟩
  | update b g k ih | logWrite b k ih | bwrite b k ih => exact fun i hi => ih (h i hi)
  | brelse b k ih => exact fun i hi => ⟨(h i hi).1, ih (h i hi).2⟩
  | bunpin b k ih =>
    obtain ⟨i, hi, hw, hmark, hk⟩ := h
    exact ⟨i, hi, hw, hmark, fun w' => ih (hk w')⟩
  | commit k ih => exact ⟨h.1, fun w' => ih (h.2 w')⟩
  | panic => trivial

theorem bind_pure (x : Code α) : x >>= Code.pure = x := by
  induction x with
  | pure | panic => rfl
  | bread n k ih => exact congrArg (bread n) (funext₂ ih)
  | update | logWrite | bwrite | brelse | bunpin | commit => exact congrArg _ ‹_›

/-- The routine needs `m` buffers, keeps the rules, and gives all its buffers back. -/
def Keeps (logged : Bool) (m : ℕ) (x : Code α) : Prop :=
  ∀ w K, K.size + m ≤ MAXHELD → x.Ok logged (fun _ w' K' => w' = w ∧ K' = K) w K

variable {m : ℕ} {w : Option ℕ} {K : Known} {b : Bp}

theorem Keeps.ok_bind {Q : β → Option ℕ → Known → Prop} {x : Code α} {f : α → Code β}
    (h : x.Keeps logged m) (hK : K.size + m ≤ MAXHELD) (hf : ∀ a, (f a).Ok logged Q w K) :
    (x >>= f).Ok logged Q w K := by
  refine (h w K hK).bind fun a w' K' hQ => ?_
  rw [hQ.1, hQ.2]
  exact hf a

theorem Keeps.bind {x : Code α} {f : α → Code β} (h : x.Keeps logged m)
    (hf : ∀ a, (f a).Keeps logged m) : (x >>= f).Keeps logged m :=
  fun w K hK => h.ok_bind hK fun a => hf a w K hK

theorem Keeps.mono {n : ℕ} {x : Code α} (h : x.Keeps logged m) (hmn : m ≤ n) : x.Keeps logged n :=
  fun w K hK => h w K (by omega)

theorem keeps_pure (a : α) : (Code.pure a).Keeps logged m := fun _ _ _ => ⟨rfl, rfl⟩

theorem Keeps.ok {x : Code α} (h : x.Keeps logged MAXHELD) (w : Option ℕ) :
    x.Ok logged Done w Known.none := by
  rw [← bind_pure x]
  exact (h w Known.none (by simp)).bind fun _ _ _ hQ => hQ.2

section

variable {Q : α → Option ℕ → Known → Prop}

theorem size_set_add {i : Info} (hb : K b = none) (hK : K.size + (m + 1) ≤ MAXHELD) :
    (K.set b i).size + m ≤ MAXHELD := by
  rw [Known.size_set hb]
  omega

theorem ok_release (hb : K b = none) (hk : k.Ok logged Q w K) :
    (Code.brelse b k).Ok logged Q w (K.set b ⟨n, .clean⟩) := by
  intro i hi
  rw [Known.set_self] at hi
  cases hi
  refine ⟨by simp, ?_⟩
  rwa [Known.drop_set hb]

theorem ok_log {i : Info} {k : Code α} (hb : K b = none) (hk : k.Ok logged Q w K) :
    (Code.logWrite b <| .brelse b k).Ok logged Q w (K.set b i) := by
  intro j hj
  rw [Known.set_set]
  exact ok_release hb hk

theorem ok_edit {i : Info} {f : Block → Block} {k : Code α} (hb : K b = none)
    (hk : k.Ok logged Q w K) :
    (Code.update b f <| .logWrite b <| .brelse b k).Ok logged Q w (K.set b i) := by
  intro j hj
  rw [Known.set_set]
  exact ok_log hb hk

end

end Code
end Xv6
