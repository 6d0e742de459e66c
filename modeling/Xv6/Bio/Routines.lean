/-
# The routines of fs.c, down to their buffers

What `kernel/fs.c` does with buffers, command by command: `Xv6.Fs.Inode` has the same routines over
the blocks alone.  Here `writei` releases a buffer that a failing `either_copyin` has half filled
without `log_write`.  What is not in a buffer is an argument, so a whole call is one routine put
together from these (`FsCode`).
-/

import Xv6.Bio.Code
import Xv6.Fs.Inode

namespace Xv6

open Lib

namespace Code

variable (sb : Superblock) {k : Code Unit} {Q : Unit → Option ℕ → Known → Prop}

def bzero (bno : ℕ) : Code Unit := .bread bno fun bp _ =>
  .update bp (fun _ => zeroBlock) <| .logWrite bp <| .brelse bp <| .pure ()

def ballocFrom : List ℕ → Code UInt32
  | [] => .panic
  | b :: bs => .bread (sb.BBLOCK b) fun bp data =>
    match findFree sb data b with
    | some bi =>
      .update bp (setBit · bi) <| .logWrite bp <| .brelse bp <| do
        bzero (b + bi)
        return UInt32.ofNat (b + bi)
    | none => .brelse bp (ballocFrom bs)

def balloc : Code UInt32 := ballocFrom sb ((List.range ((sb.size + BPB - 1) / BPB)).map (· * BPB))

def bfree (b : UInt32) : Code Unit := .bread (sb.BBLOCK b.toNat) fun bp data =>
    if bitSet data (b.toNat % BPB) = false then .panic
    else .update bp (clearBit · (b.toNat % BPB)) <| .logWrite bp <| .brelse bp <| .pure ()

/-- The loop of `ialloc`, over the inode numbers not yet tried; the number it hands to
`iget`. -/
def iallocFrom (type : UInt16) : List ℕ → Code ℕ
  | [] => .panic
  | inum :: inums => .bread (sb.IBLOCK inum) fun bp data =>
    if (getDinode data (inum % IPB)).type = 0 then
      .update bp (putDinode · (inum % IPB) (Dinode.fresh type)) <| .logWrite bp <|
        .brelse bp <| .pure inum
    else .brelse bp (iallocFrom type inums)

def ialloc (type : UInt16) : Code ℕ := iallocFrom sb type (List.range' 1 (sb.ninodes - 1))

def iupdate (inum : ℕ) (d : Dinode) : Code Unit := .bread (sb.IBLOCK inum) fun bp _ =>
  .update bp (putDinode · (inum % IPB) d) <| .logWrite bp <| .brelse bp <| .pure ()

def ilock (inum : ℕ) : Code Dinode := .bread (sb.IBLOCK inum) fun bp data => .brelse bp <|
    if (getDinode data (inum % IPB)).type = 0 then .panic else .pure (getDinode data (inum % IPB))

def bmapAddr (d : Dinode) (k : Fin (NDIRECT + 1)) : Code (Dinode × UInt32) :=
  if d.addrs k = 0 then do
    let addr ← balloc sb
    return (d.setAddr k addr, addr)
  else return (d, d.addrs k)

/-- `addr = a[j]` in the indirect block, allocating the block if there is none.  The indirect
block is held meanwhile. -/
def bmapEntry (ind : UInt32) (j : ℕ) : Code UInt32 := .bread ind.toNat fun bp data =>
    if UInt32.ofNat (u32 data (4 * j)) = 0 then do
      let addr ← balloc sb
      .update bp (·.setField 4 (4 * j) addr.toNat) <| .logWrite bp <| .brelse bp <| .pure addr
    else .brelse bp <| .pure (UInt32.ofNat (u32 data (4 * j)))

def bmap (d : Dinode) (bn : ℕ) : Code (Dinode × UInt32) :=
  if h : bn < NDIRECT then bmapAddr sb d ⟨bn, Nat.lt_succ_of_lt h⟩
  else if bn - NDIRECT < NINDIRECT then do
    let (d, ind) ← bmapAddr sb d (Fin.last NDIRECT)
    let addr ← bmapEntry sb ind (bn - NDIRECT)
    return (d, addr)
  else .panic

def bfreeAll : List UInt32 → Code Unit
  | [] => .pure ()
  | a :: as => do
    if a ≠ 0 then bfree sb a
    bfreeAll as

def itrunc (inum : ℕ) (d : Dinode) : Code Unit := do
  bfreeAll sb ((List.finRange NDIRECT).map fun i => d.addrs i.castSucc)
  if d.addrs (Fin.last NDIRECT) ≠ 0 then
    .bread (d.addrs (Fin.last NDIRECT)).toNat fun bp data => do
      bfreeAll sb ((List.range NINDIRECT).map fun j => UInt32.ofNat (u32 data (4 * j)))
      .brelse bp (bfree sb (d.addrs (Fin.last NDIRECT)))
  iupdate sb inum { d with addrs := fun _ => 0, size := 0 }

def readiLoop (copyout : ℕ → List UInt8 → Bool) (n : ℕ) : ℕ → ℕ → ℕ → Dinode → Code (Dinode × ℕ)
  | 0, tot, _, d => .pure (d, tot)
  | fuel + 1, tot, off, d =>
    if tot < n then do
      let (d, addr) ← bmap sb d (off / BSIZE)
      .bread addr.toNat fun bp data =>
        let m := min (n - tot) (BSIZE - off % BSIZE)
        if copyout tot (data.read (off % BSIZE) m) then
          .brelse bp (readiLoop copyout n fuel (tot + m) (off + m) d)
        else .brelse bp (.pure (d, tot))
    else .pure (d, tot)

def readi (copyout : ℕ → List UInt8 → Bool) (off n : UInt32) (d : Dinode) : Code (Dinode × ℕ) :=
  if off > d.size ∨ off + n < off then .pure (d, 0)
  else
    let n := if off + n > d.size then d.size - off else n
    readiLoop sb copyout n.toNat n.toNat 0 off.toNat d

/-- The bytes that `either_copyin` brought go to the buffer. -/
def store (bp : Bp) (o : ℕ) (bytes : List UInt8) (k : Code Unit) : Code Unit :=
  if bytes = [] then k else .update bp (·.splice o bytes) k

def writeiLoop (src : Source) (n : ℕ) : ℕ → ℕ → ℕ → Dinode → Code (Dinode × ℕ)
  | 0, _, off, d => .pure (d, off)
  | fuel + 1, tot, off, d =>
    if tot < n then do
      let (d, addr) ← bmap sb d (off / BSIZE)
      .bread addr.toNat fun bp _ =>
        let m := min (n - tot) (BSIZE - off % BSIZE)
        let r := src.copyin tot m
        if r.2 then do
          store bp (off % BSIZE) r.1 <| .logWrite bp <| .brelse bp <| .pure ()
          writeiLoop src n fuel (tot + m) (off + m) d
        else do
          store bp (off % BSIZE) r.1 <| .brelse bp <| .pure ()
          return (d, off)
    else .pure (d, off)

def writei (inum : ℕ) (src : Source) (off n : UInt32) (d : Dinode) : Code (Dinode × ℤ) :=
  if off > d.size ∨ off + n < off then .pure (d, -1)
  else if (off + n).toNat > MAXFILE * BSIZE then .pure (d, -1)
  else do
    let (d, off) ← writeiLoop sb src n.toNat n.toNat 0 off.toNat d
    if n > 0 then
      let d := if off > d.size.toNat then { d with size := UInt32.ofNat off } else d
      iupdate sb inum d
      return (d, n.toNat)
    else return (d, n.toNat)

end Code

/-! ### Calls -/

/-- A part of a call of the file system, put together from the routines.  `src` says which
sources `writei` can meet. -/
inductive FsCode (sb : Superblock) (src : Source → Prop) : {α : Type} → Code α → Prop
  | pure {α : Type} (a : α) : FsCode sb src (Code.pure a)
  | panic {α : Type} : FsCode sb src (Code.panic (α := α))
  | bind {α β : Type} {x : Code α} {f : α → Code β} :
      FsCode sb src x → (∀ a, FsCode sb src (f a)) → FsCode sb src (x >>= f)
  | ialloc (type : UInt16) : FsCode sb src (Code.ialloc sb type)
  | iupdate (inum : ℕ) (d : Dinode) : FsCode sb src (Code.iupdate sb inum d)
  | ilock (inum : ℕ) : FsCode sb src (Code.ilock sb inum)
  | itrunc (inum : ℕ) (d : Dinode) : FsCode sb src (Code.itrunc sb inum d)
  | readi (copyout : ℕ → List UInt8 → Bool) (off n : UInt32) (d : Dinode) :
      FsCode sb src (Code.readi sb copyout off n d)
  | writei {s : Source} (hs : src s) (inum : ℕ) (off n : UInt32) (d : Dinode) :
      FsCode sb src (Code.writei sb inum s off n d)

def readCall (sb : Superblock) (copyout : ℕ → List UInt8 → Bool) (off n : UInt32) (d : Dinode) :
    Code Unit := do
  let _ ← Code.readi sb copyout off n d
  return ()

def writeCall (sb : Superblock) (inum : ℕ) (src : Source) (off n : UInt32) (d : Dinode) :
    Code Unit := do
  let _ ← Code.writei sb inum src off n d
  return ()

/-- A copy that fails has copied nothing. -/
def Source.AllOrNothing (src : Source) : Prop :=
  ∀ tot m, (src.copyin tot m).2 = false → (src.copyin tot m).1 = []

namespace Code

variable {logged : Bool} {w : Option ℕ} {K : Known} {b : Bp} {sb : Superblock}

theorem keeps_bzero (bno : ℕ) : (bzero bno).Keeps logged 1 :=
  fun _ _ hK => ⟨hK, fun _ _ hb => ok_edit hb ⟨rfl, rfl⟩⟩

theorem keeps_ballocFrom (bs : List ℕ) : (ballocFrom sb bs).Keeps logged 1 := by
  induction bs with
  | nil => exact fun _ _ _ => trivial
  | cons b bs ih =>
    refine fun w K hK => ⟨hK, fun bp data hb => ?_⟩
    dsimp only
    split
    · exact ok_edit hb ((keeps_bzero _).ok_bind hK fun _ => ⟨rfl, rfl⟩)
    · exact ok_release hb (ih w K hK)

theorem keeps_balloc : (balloc sb).Keeps logged 1 := keeps_ballocFrom _

theorem keeps_bfree (b : UInt32) : (bfree sb b).Keeps logged 1 := by
  refine fun w K hK => ⟨hK, fun bp data hb => ?_⟩
  dsimp only
  split_ifs
  · trivial
  · exact ok_edit hb ⟨rfl, rfl⟩

theorem keeps_iallocFrom (type : UInt16) (inums : List ℕ) :
    (iallocFrom sb type inums).Keeps logged 1 := by
  induction inums with
  | nil => exact fun _ _ _ => trivial
  | cons inum inums ih =>
    refine fun w K hK => ⟨hK, fun bp data hb => ?_⟩
    dsimp only
    split_ifs
    · exact ok_edit hb ⟨rfl, rfl⟩
    · exact ok_release hb (ih w K hK)

theorem keeps_iupdate (inum : ℕ) (d : Dinode) : (iupdate sb inum d).Keeps logged 1 :=
  fun _ _ hK => ⟨hK, fun _ _ hb => ok_edit hb ⟨rfl, rfl⟩⟩

theorem keeps_ilock (inum : ℕ) : (ilock sb inum).Keeps logged 1 := by
  refine fun w K hK => ⟨hK, fun bp data hb => ok_release hb ?_⟩
  split_ifs
  · trivial
  · exact ⟨rfl, rfl⟩

theorem keeps_bmapAddr (d : Dinode) (k : Fin (NDIRECT + 1)) : (bmapAddr sb d k).Keeps logged 1 := by
  rw [bmapAddr]
  split_ifs
  · exact keeps_balloc.bind fun _ => keeps_pure _
  · exact keeps_pure _

theorem keeps_bmapEntry (ind : UInt32) (j : ℕ) : (bmapEntry sb ind j).Keeps logged 2 := by
  refine fun w K hK => ⟨by omega, fun bp data hb => ?_⟩
  dsimp only
  split_ifs
  · exact keeps_balloc.ok_bind (size_set_add hb hK) fun _ => ok_edit hb ⟨rfl, rfl⟩
  · exact ok_release hb ⟨rfl, rfl⟩

theorem keeps_bmap (d : Dinode) (bn : ℕ) : (bmap sb d bn).Keeps logged 2 := by
  rw [bmap]
  split_ifs
  · exact (keeps_bmapAddr d _).mono (by decide)
  · exact ((keeps_bmapAddr d _).mono (by decide)).bind fun _ =>
      (keeps_bmapEntry _ _).bind fun _ => keeps_pure _
  · exact fun _ _ _ => trivial

theorem keeps_bfreeAll (as : List UInt32) : (bfreeAll sb as).Keeps logged 1 := by
  induction as with
  | nil => exact keeps_pure ()
  | cons a as ih =>
    rw [bfreeAll]
    split_ifs
    · exact (keeps_bfree a).bind fun _ => ih
    · exact ih

theorem keeps_itrunc (inum : ℕ) (d : Dinode) : (itrunc sb inum d).Keeps logged 2 := by
  refine ((keeps_bfreeAll _).mono (by decide)).bind fun _ => ?_
  have hupdate : ∀ d', (iupdate sb inum d').Keeps logged 2 :=
    fun d' => (keeps_iupdate inum d').mono (by decide)
  split_ifs
  · refine Keeps.bind (fun w K hK => ⟨by omega, fun bp data hb => ?_⟩) fun _ => hupdate _
    exact (keeps_bfreeAll _).ok_bind (size_set_add hb hK) fun _ =>
      ok_release hb (keeps_bfree _ w K (by omega))
  · exact hupdate _

theorem keeps_readiLoop (copyout : ℕ → List UInt8 → Bool) (n fuel tot off : ℕ) (d : Dinode) :
    (readiLoop sb copyout n fuel tot off d).Keeps logged 2 := by
  induction fuel generalizing tot off d with
  | zero => exact keeps_pure _
  | succ fuel ih =>
    rw [readiLoop]
    split_ifs
    · refine (keeps_bmap d _).bind fun r w K hK => ⟨by omega, fun bp data hb => ?_⟩
      dsimp only
      split_ifs
      · exact ok_release hb (ih _ _ _ w K hK)
      · exact ok_release hb ⟨rfl, rfl⟩
    · exact keeps_pure _

theorem keeps_readi (copyout : ℕ → List UInt8 → Bool) (off n : UInt32) (d : Dinode) :
    (readi sb copyout off n d).Keeps logged 2 := by
  rw [readi]
  split_ifs
  · exact keeps_pure _
  · exact keeps_readiLoop copyout _ _ _ _ d
  · exact keeps_readiLoop copyout _ _ _ _ d

theorem ok_store_log (o : ℕ) (bytes : List UInt8) (hb : K b = none)
    (hk : k.Ok logged Q w K) :
    (store b o bytes <| .logWrite b <| .brelse b k).Ok logged Q w (K.set b i) := by
  rw [store]
  split_ifs
  · exact ok_log hb hk
  · exact ok_edit hb hk

/-- What the two exits of the loop of `writei` need: the bytes are logged, or there are
none, or nobody asks. -/
theorem ok_store_release (o : ℕ) (hbytes : logged = true → bytes = []) (hb : K b = none)
    (hk : k.Ok logged Q w K) :
    (store b o bytes <| .brelse b k).Ok logged Q w (K.set b ⟨n, .clean⟩) := by
  rw [store]
  split_ifs with hnil
  · exact ok_release hb hk
  · intro i _ j _
    refine ⟨fun hlogged => absurd (hbytes hlogged) hnil, ?_⟩
    rwa [Known.set_set, Known.drop_set hb]

theorem keeps_writeiLoop {src : Source} (hsrc : logged = true → src.AllOrNothing)
    (n fuel tot off : ℕ) (d : Dinode) : (writeiLoop sb src n fuel tot off d).Keeps logged 2 := by
  induction fuel generalizing tot off d with
  | zero => exact keeps_pure _
  | succ fuel ih =>
    rw [writeiLoop]
    split_ifs
    · refine (keeps_bmap d _).bind fun r w K hK => ⟨by omega, fun bp data hb => ?_⟩
      dsimp only
      split_ifs with hr
      · exact (ok_store_log _ _ hb (ih _ _ _ w K hK)).bind fun _ _ _ h => h
      · refine Ok.bind ?_ fun _ _ _ h => h
        refine ok_store_release _ (fun h => ?_) hb ⟨rfl, rfl⟩
        exact hsrc h _ _ (by simpa using hr)
    · exact keeps_pure _

theorem keeps_writei {src : Source} (hsrc : logged = true → src.AllOrNothing) (inum : ℕ)
    (off n : UInt32) (d : Dinode) : (writei sb inum src off n d).Keeps logged 2 := by
  rw [writei]
  split_ifs
  · exact keeps_pure _
  · exact keeps_pure _
  · refine (keeps_writeiLoop hsrc _ _ _ _ d).bind fun r => ?_
    dsimp only
    exact ((keeps_iupdate inum _).mono (by decide)).bind fun _ => keeps_pure _
  · exact (keeps_writeiLoop hsrc _ _ _ _ d).bind fun r => keeps_pure _

end Code

/-- **Every call of the file system gives its buffers back.**  Two at a time are enough, and
none of them is changed and not logged, where a user copy that fails copies nothing. -/
theorem FsCode.keeps {sb : Superblock} {src : Source → Prop} {logged : Bool} {α : Type} {x : Code α}
    (h : FsCode sb src x) (hsrc : logged = true → ∀ s, src s → s.AllOrNothing) :
    x.Keeps logged 2 := by
  induction h with
  | pure a => exact Code.keeps_pure a
  | panic => exact fun _ _ _ => trivial
  | bind _ _ ihx ihf => exact ihx.bind ihf
  | ialloc type => exact (Code.keeps_iallocFrom type _).mono (by decide)
  | iupdate inum d => exact (Code.keeps_iupdate inum d).mono (by decide)
  | ilock inum => exact (Code.keeps_ilock inum).mono (by decide)
  | itrunc inum d => exact Code.keeps_itrunc inum d
  | readi copyout off n d => exact Code.keeps_readi copyout off n d
  | @writei s hs inum off n d => exact Code.keeps_writei (fun hR => hsrc hR s hs) inum off n d

section

variable {sb : Superblock} {src : Source → Prop}

theorem fsCode_readCall (copyout : ℕ → List UInt8 → Bool) (off n : UInt32) (d : Dinode) :
    FsCode sb src (readCall sb copyout off n d) :=
  .bind (.readi copyout off n d) fun _ => .pure ()

theorem fsCode_writeCall (hs : src s) (inum : ℕ) (off n : UInt32) (d : Dinode) :
    FsCode sb src (writeCall sb inum s off n d) :=
  .bind (.writei hs inum off n d) fun _ => .pure ()

end

end Xv6
