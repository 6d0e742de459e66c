/-
# Writes through a shared descriptor

Any number of processes call `filewrite` of `kernel/file.c` on one `struct file`.  Each piece of at
most `WRITEMAX` bytes is a transaction of its own, and `f->off` is read and advanced with the inode
locked.  What happens between `ilock` and `iunlock` is one step; elsewhere another process may go
on.
-/

import Xv6.Fs.Keep
import Xv6.Fs.Refine
import Xv6.Kernel.File
import Xv6.Lib.Runs

namespace Xv6.Shared

open Lib Function

/-! ### The code -/

inductive Stage
  | enter
  /-- at the test of `while(i < n)` -/
  | test
  /-- after `begin_op()` -/
  | opened
  /-- after `iunlock(f->ip)`, with the result of `writei` -/
  | closing (r : ℤ)

structure Writer where
  /-- The buffers of the calls that have not returned; the first is being written. -/
  calls : List (List UInt8)
  stage : Stage
  i : ℕ
  /-- What the calls before returned. -/
  rets : List ℤ

def Writer.ret (w : Writer) (r : ℤ) : Writer where
  calls := w.calls.tail
  stage := .enter
  i := 0
  rets := w.rets ++ [r]

/-- `n1`: how much of the buffer is written next. -/
def pieceLen (buf : List UInt8) (i : ℕ) : ℕ := min (buf.length - i) WRITEMAX

variable (sb : Superblock) {i off : ℕ}

def writePiece (f : File) (buf : List UInt8) (i : ℕ) : FsM (ℤ × File) := do
  ilock sb f.ip
  let r ← writei sb f.ip (kernelSrc fun j => buf.getD (i + j) 0) f.off
    (UInt32.ofNat (pieceLen buf i))
  let f := if 0 < r then { f with off := f.off + UInt32.ofNat r.toNat } else f
  iunlock f.ip
  return (r, f)

/-- What a process does next in the call that writes `buf`. -/
def turn (buf : List UInt8) (w : Writer) (f : File) : FsM (Writer × File) :=
  match w.stage with
  | .enter => return (if f.writable = false then w.ret (-1) else { w with stage := .test }, f)
  | .test => do
    if w.i < buf.length then
      beginOp
      return ({ w with stage := .opened }, f)
    else return (w.ret (if w.i = buf.length then buf.length else -1), f)
  | .opened => do
    let q ← writePiece sb f buf w.i
    return ({ w with stage := .closing q.1 }, q.2)
  | .closing r => do
    endOp
    if r < 0 then return (w.ret (if w.i = buf.length then buf.length else -1), f)
    else if r ≠ pieceLen buf w.i then throw (.panic .shortFilewrite)
    else return ({ w with stage := .test, i := w.i + r.toNat }, f)

structure Sys (P : Type) where
  fs : Fs
  file : File
  writer : P → Writer

variable {P : Type} [DecidableEq P]

def step (s : Sys P) (p : P) : Option (Sys P) :=
  match (s.writer p).calls with
  | [] => none
  | buf :: _ =>
    match (turn sb buf (s.writer p) s.file).run s.fs with
    | .error _ => none
    | .ok (q, fs) => some { fs, file := q.2, writer := update s.writer p q.1 }

def start (fs : Fs) (file : File) (calls : P → List (List UInt8)) : Sys P where
  fs
  file
  writer p := { calls := calls p, stage := .enter, i := 0, rets := [] }

def pieces (buf : List UInt8) : List (List UInt8) :=
  if h : buf = [] then []
  else
    have := List.length_pos_iff.2 h
    buf.take WRITEMAX :: pieces (buf.drop WRITEMAX)
termination_by buf.length
decreasing_by
  simp only [List.length_drop, WRITEMAX, MAXOPBLOCKS, BSIZE]
  omega

/-! ### What is still to be written -/

/-- How much of the first buffer has been written. -/
def Writer.written (w : Writer) : ℕ :=
  match w.stage with
  | .closing r => w.i + r.toNat
  | _ => w.i

/-- The pieces that are still to be written. -/
def Writer.rest (w : Writer) : List (List UInt8) :=
  match w.calls with
  | [] => []
  | buf :: bufs => pieces (buf.drop w.written) ++ bufs.flatMap pieces

/-- The loop is inside its buffer, and `writei` has not failed. -/
def Stage.Ok (buf : List UInt8) (i : ℕ) : Stage → Prop
  | .enter => i = 0
  | .test => i ≤ buf.length
  | .opened => i < buf.length
  | .closing r => i < buf.length ∧ r = pieceLen buf i

def Writer.Ok (w : Writer) : Prop := ∀ buf, w.calls.head? = some buf → w.stage.Ok buf w.i

theorem pieces_nil : pieces [] = [] := by rw [pieces, dif_pos rfl]

theorem pieceLen_pos {buf : List UInt8} (h : i < buf.length) : 0 < pieceLen buf i := by
  simp only [pieceLen, WRITEMAX, MAXOPBLOCKS, BSIZE]
  omega

theorem pieces_drop {buf : List UInt8} (h : i < buf.length) :
    pieces (buf.drop i) = (buf.drop i).take (pieceLen buf i) :: pieces
    (buf.drop (i + pieceLen buf i)) := by
  have hne : buf.drop i ≠ [] := by
    rw [Ne, List.drop_eq_nil_iff]
    omega
  rw [pieces, dif_neg hne, List.drop_drop]
  rcases Nat.le_total (buf.length - i) WRITEMAX with hle | hle
  · have hall : buf.drop (i + WRITEMAX) = buf.drop (i + (buf.length - i)) := by
      rw [List.drop_eq_nil_of_le (by omega), List.drop_eq_nil_of_le (by omega)]
    have htake : (buf.drop i).take WRITEMAX = (buf.drop i).take (buf.length - i) := by
      rw [List.take_of_length_le (by rwa [List.length_drop]),
        List.take_of_length_le (by rw [List.length_drop])]
    rw [pieceLen, Nat.min_eq_left hle, hall, htake]
  · rw [pieceLen, Nat.min_eq_right hle]

theorem flatten_pieces (buf : List UInt8) : (pieces buf).flatten = buf := by
  induction buf using pieces.induct with
  | case1 => rw [pieces_nil, List.flatten_nil]
  | case2 buf hne _ ih => rw [pieces, dif_neg hne, List.flatten_cons, ih, List.take_append_drop]

theorem length_flatMap_pieces (bufs : List (List UInt8)) :
    (bufs.flatMap pieces).flatten.length = bufs.flatten.length := by
  induction bufs with
  | nil => rfl
  | cons buf bufs ih =>
    rw [List.flatMap_cons, List.flatten_append, List.length_append, flatten_pieces, ih,
      List.flatten_cons, List.length_append]

theorem range_map_getD {buf : List UInt8} {m : ℕ} (h : i + m ≤ buf.length) :
    (List.range m).map (fun j => buf.getD (i + j) 0) = (buf.drop i).take m := by
  refine List.ext_getElem (by simp; omega) fun j h₁ h₂ => ?_
  simp only [List.length_map, List.length_range] at h₁
  simp only [List.getElem_map, List.getElem_range, List.getElem_take, List.getElem_drop]
  exact List.getD_eq_getElem _ _ (by omega)

theorem length_overwrite {c a : List UInt8} (h : off ≤ c.length) :
    (overwrite c off a).length = max c.length (off + a.length) := by
  simp only [overwrite, List.length_append, List.length_take, List.length_drop]
  omega

/-- **One write behind another is one write.** -/
theorem overwrite_overwrite {c a b : List UInt8} (h : off ≤ c.length) :
    overwrite (overwrite c off a) (off + a.length) b = overwrite c off (a ++ b) := by
  have hfirst : (c.take off ++ a).length = off + a.length := by
    rw [List.length_append, List.length_take, Nat.min_eq_left h]
  have htake : (overwrite c off a).take (off + a.length) = c.take off ++ a := by
    rw [overwrite, ← hfirst, List.take_left]
  have hdrop : (overwrite c off a).drop (off + a.length + b.length) = c.drop
      (off + (a ++ b).length) := by
    rw [← List.drop_drop, overwrite, ← hfirst, List.drop_left, hfirst, List.drop_drop,
      List.length_append, Nat.add_assoc]
  rw [overwrite, htake, hdrop, overwrite, List.append_assoc (c.take off)]

namespace Writer

variable {w : Writer} {buf : List UInt8} {bufs : List (List UInt8)}

theorem rest_of_calls (h : w.calls = buf :: bufs) :
    w.rest = pieces (buf.drop w.written) ++ bufs.flatMap pieces := by
  rw [rest, h]

theorem rest_ret (h : w.calls = buf :: bufs) (r : ℤ) : (w.ret r).rest = bufs.flatMap pieces := by
  have hcalls : (w.ret r).calls = bufs := by rw [ret, h, List.tail_cons]
  rw [rest, hcalls]
  cases bufs with
  | nil => rfl
  | cons b bufs => rfl

theorem rest_opened (h : w.calls = buf :: bufs) (hstage : w.stage = .opened)
    (hi : w.i < buf.length) :
    w.rest = (buf.drop w.i).take (pieceLen buf w.i) ::
    { w with stage := .closing (pieceLen buf w.i) }.rest := by
  have hwritten : w.written = w.i := by rw [written, hstage]
  have hclosing : { w with stage := .closing (pieceLen buf w.i) }.calls = buf :: bufs := h
  rw [rest_of_calls h, rest_of_calls hclosing, hwritten, pieces_drop hi]
  rfl

theorem ok_ret (r : ℤ) : (w.ret r).Ok := fun _ _ => rfl

theorem Ok.of_calls (h : w.calls = buf :: bufs) (hstage : w.stage.Ok buf w.i) : w.Ok := by
  intro b hb
  cases (congrArg List.head? h).symm.trans hb
  exact hstage

theorem Ok.stage_ok (hok : w.Ok) (h : w.calls = buf :: bufs) : w.stage.Ok buf w.i :=
  hok buf (congrArg List.head? h)

end Writer

/-! ### The invariant -/

def part (order : List (P × List UInt8)) (p : P) : List (List UInt8) :=
  (order.filter fun x => x.1 = p).map Prod.snd

theorem part_append_self (order : List (P × List UInt8)) (p : P) (l : List UInt8) :
    part (order ++ [(p, l)]) p = part order p ++ [l] := by
  simp [part]

theorem part_append_of_ne (order : List (P × List UInt8)) {p q : P} (h : q ≠ p) (l : List UInt8) :
    part (order ++ [(p, l)]) q = part order q := by
  simp [part, h.symm]

/-- A process with the calls `calls` has written the pieces `mine`. -/
structure Writer.Inv (calls mine : List (List UInt8)) (w : Writer) : Prop where
  parts : mine ++ w.rest = calls.flatMap pieces
  rets : w.rets ++ w.calls.map (fun b => (b.length : ℤ)) = calls.map fun b => (b.length : ℤ)
  ok : w.Ok

variable {sb}

/-- The pieces in `order` have been written, each by its process, behind one another from `f->off`
on; before that the file was `c`. -/
structure Inv [Fintype P] (R : Ip → ℕ) (W : Finset Ip) (n : Fin sb.ninodes)
    (c : List UInt8) (f : File) (calls : P → List (List UInt8)) (order : List (P × List UInt8))
    (s : Sys P) : Prop where
  disk : ∃ T : Table sb, FsInv T ∅ R ∅ W s.fs ∧
    content s.fs.blocks (T n) = overwrite c f.off.toNat (order.flatMap Prod.snd)
  inum : (s.fs.inode f.ip).inum = n
  file : s.file = { f with off := s.file.off }
  off : s.file.off.toNat = f.off.toNat + (order.flatMap Prod.snd).length
  total : s.file.off.toNat + ∑ p, (s.writer p).rest.flatten.length = f.off.toNat + ∑ p,
    (calls p).flatten.length
  writers : ∀ p, (s.writer p).Inv (calls p) (part order p)

section Step

variable [Fintype P] {R : Ip → ℕ} {W : Finset Ip} {n : Fin sb.ninodes} {c : List UInt8} {f : File}
  {calls : P → List (List UInt8)} {order : List (P × List UInt8)} {s s' : Sys P} {p : P}
  {w : Writer} {fs : Fs}

section

variable (h : Inv R W n c f calls order s)
include h

theorem Inv.quiet (hblocks : fs.blocks = s.fs.blocks)
    (hinode : fs.inode = s.fs.inode) (hrest : w.rest = (s.writer p).rest)
    (hrets : w.rets ++ w.calls.map (fun b => (b.length : ℤ)) =
      (s.writer p).rets ++ (s.writer p).calls.map fun b => (b.length : ℤ)) (hok : w.Ok) :
    Inv R W n c f calls order { s with fs, writer := update s.writer p w } := by
  have hsame := apply_update_of_eq Writer.rest hrest
  refine ⟨?_, ?_, h.file, h.off, ?_, ?_⟩
  · obtain ⟨T, hinv, hcontent⟩ := h.disk
    refine ⟨T, ⟨?_, ?_⟩, ?_⟩
    · rw [hblocks]
      exact hinv.disk
    · rw [hinode]
      exact hinv.cache
    · rw [hblocks, hcontent]
  · rw [hinode, h.inum]
  · simp only [hsame]
    exact h.total
  · refine (forall_update_iff s.writer fun q w => w.Inv (calls q) (part order q)).2
      ⟨⟨?_, ?_, hok⟩, fun q _ => h.writers q⟩
    · rw [hrest, (h.writers p).parts]
    · rw [hrets, (h.writers p).rets]

/-- **A piece is written**, behind all that have been written before. -/
theorem Inv.write (hc : f.off.toNat ≤ c.length) (href : 0 < R f.ip)
    (hfits : f.off.toNat + ∑ p, (calls p).flatten.length ≤ MAXFILE * BSIZE) {buf : List UInt8}
    {bufs : List (List UInt8)} (hcalls : (s.writer p).calls = buf :: bufs)
    (hstage : (s.writer p).stage = .opened) :
    wp (writePiece sb s.file buf (s.writer p).i) Tolerated
    (fun q fs => ∃ order', Inv R W n c f calls order'
      { fs, file := q.2, writer := update s.writer p { s.writer p with stage := .closing q.1 } })
      s.fs := by
  obtain ⟨T, hinv, hcontent⟩ := h.disk
  have hip : s.file.ip = f.ip := by rw [h.file]
  have hi : (s.writer p).i < buf.length := by
    have hok := (h.writers p).ok.stage_ok hcalls
    rwa [hstage] at hok
  simp only [writePiece, wp_bind, hip]
  refine hinv.wp_ilock href fun s₁ _ hinv₁ hblocks₁ hinum₁ => ?_
  have hlive : Live R s₁.inode f.ip n :=
    ⟨href, (hinum₁ f.ip href).trans h.inum,
      ((hinv₁.cache.entry f.ip).held (Finset.mem_insert_self ..)).2⟩
  set w := s.writer p with hwriter
  set m := pieceLen buf w.i with hm
  have hmle : m ≤ buf.length - w.i ∧ m ≤ 3072 := ⟨Nat.min_le_left .., Nat.min_le_right ..⟩
  have hlen : (UInt32.ofNat m).toNat = m :=
    UInt32.toNat_ofNat_of_lt' (by simp only [UInt32.size]; omega)
  have hpiece : ((buf.drop w.i).take m).length = m := by
    rw [List.length_take, List.length_drop]
    omega
  have hrest := Writer.rest_opened hcalls hstage hi
  have hsum : m + ∑ q, (update s.writer p { w with stage := .closing m } q).rest.flatten.length =
      ∑ q, (s.writer q).rest.flatten.length := by
    rw [← Finset.add_sum_erase _ _ (Finset.mem_univ p),
      ← Finset.add_sum_erase _ _ (Finset.mem_univ p), update_self, ← hwriter, hrest,
      List.flatten_cons, List.length_append, hpiece, Nat.add_assoc]
    congr 2
    refine Finset.sum_congr rfl fun q hq => ?_
    rw [update_of_ne (Finset.ne_of_mem_erase hq)]
  have hsize : (T n).size.toNat = max c.length s.file.off.toNat := by
    have hlength := congrArg List.length hcontent
    rwa [content, length_bytesAt, length_overwrite hc, ← h.off] at hlength
  have htotal := h.total
  have hoff : (s.file.off + UInt32.ofNat m).toNat = s.file.off.toNat + m := by
    rw [UInt32.toNat_add, hlen, Nat.mod_eq_of_lt]
    simp only [MAXFILE, BSIZE] at hfits
    omega
  have haccepts : ¬ Rejects (T n).size s.file.off (UInt32.ofNat m) := by
    rw [Rejects, gt_iff_lt, UInt32.lt_iff_toNat_lt, UInt32.lt_iff_toNat_lt, hoff]
    omega
  refine wp_writei hinv₁ hlive tolerated_budget tolerated_avail (fun hrej => absurd hrej haccepts)
    fun d off' s₂ _ hlive₂ hw => ?_
  have hpos : (0 : ℤ) < (m : ℤ) := Int.natCast_pos.2 (pieceLen_pos hi)
  simp only [wp_pure, Int.toNat_natCast, hlen, if_pos hpos]
  refine hw.inv.wp_iunlock (Finset.mem_insert_self ..) fun s₃ hinv₃ hblocks₃ hinum₃ => ?_
  have hbytes : (List.range m).map (fun j => buf.getD (w.i + j) 0) = (buf.drop w.i).take m :=
    range_map_getD (by omega)
  refine ⟨order ++ [(p, (buf.drop w.i).take m)], ⟨update T n d, ?_, ?_⟩, ?_, ?_, ?_, ?_, ?_⟩
  · rwa [Finset.erase_insert (Finset.notMem_empty _)] at hinv₃
  · have hwritten := hw.content kernelSrc_gives (by rw [hsize]; omega)
    rw [hlen, hbytes, hblocks₁, hcontent, h.off, overwrite_overwrite hc] at hwritten
    rw [update_self, hblocks₃, hwritten, List.flatMap_append]
    simp
  · rw [hinum₃ f.ip href, hlive₂.inum]
  · rw [h.file]
  · rw [hoff, h.off, List.flatMap_append]
    simp [hpiece, Nat.add_assoc]
  · simp only [hoff]
    omega
  · refine (forall_update_iff s.writer fun q w => w.Inv (calls q) (part _ q)).2
      ⟨⟨?_, ?_, ?_⟩, fun q hq => ?_⟩
    · rw [part_append_self, List.append_assoc, List.singleton_append, ← hrest, (h.writers p).parts]
    · exact (h.writers p).rets
    · exact Writer.Ok.of_calls hcalls ⟨hi, rfl⟩
    · rw [part_append_of_ne _ hq]
      exact h.writers q

theorem Inv.move {buf : List UInt8} {bufs : List (List UInt8)} {stage : Stage}
    (hblocks : fs.blocks = s.fs.blocks) (hinode : fs.inode = s.fs.inode)
    (hcalls : (s.writer p).calls = buf :: bufs)
    (hwritten : { s.writer p with stage, i }.written = (s.writer p).written)
    (hok : stage.Ok buf i) :
    Inv R W n c f calls order
    { s with fs, writer := update s.writer p { s.writer p with stage, i } } := by
  have hcalls' : { s.writer p with stage, i }.calls = buf :: bufs := hcalls
  refine h.quiet hblocks hinode ?_ rfl (Writer.Ok.of_calls hcalls' hok)
  rw [Writer.rest_of_calls hcalls', Writer.rest_of_calls hcalls, hwritten]

theorem Inv.ret {buf : List UInt8} {bufs : List (List UInt8)}
    (hcalls : (s.writer p).calls = buf :: bufs) (hwritten : (s.writer p).written = buf.length) :
    Inv R W n c f calls order
    { s with writer := update s.writer p ((s.writer p).ret buf.length) } := by
  refine h.quiet rfl rfl ?_ ?_ (Writer.ok_ret _)
  · rw [Writer.rest_ret hcalls, Writer.rest_of_calls hcalls, hwritten, List.drop_length, pieces_nil,
      List.nil_append]
  · rw [Writer.ret, hcalls]
    simp

/-- **Every step of a process keeps the order of the pieces.** -/
theorem Inv.turn (hc : f.off.toNat ≤ c.length) (href : 0 < R f.ip)
    (hfits : f.off.toNat + ∑ p, (calls p).flatten.length ≤ MAXFILE * BSIZE)
    (hwritable : f.writable = true) {buf : List UInt8} {bufs : List (List UInt8)}
    (hcalls : (s.writer p).calls = buf :: bufs) :
    wp (turn sb buf (s.writer p) s.file) Tolerated (fun q fs => ∃ order', Inv R W n c f calls order'
      { fs, file := q.2, writer := update s.writer p q.1 }) s.fs := by
  have hok := (h.writers p).ok.stage_ok hcalls
  cases hstage : (s.writer p).stage with
  | enter =>
    have hfile : ¬ s.file.writable = false := by
      rw [h.file, hwritable]
      decide
    rw [hstage] at hok
    simp only [Shared.turn, hstage, wp_pure, if_neg hfile]
    refine ⟨order, h.move rfl rfl hcalls ?_ ?_⟩
    · rw [Writer.written, Writer.written, hstage]
    · rw [hok]
      exact Nat.zero_le _
  | test =>
    rw [hstage] at hok
    simp only [Shared.turn, hstage, wp_ite, wp_bind, wp_pure, beginOp, wp_get, wp_throw, wp_set]
    refine ⟨fun hlt => ⟨fun _ => trivial, fun _ => ⟨order, h.move rfl rfl hcalls ?_ hlt⟩⟩,
      fun hge => ?_⟩
    · rw [Writer.written, Writer.written, hstage]
    · have hend : (s.writer p).i = buf.length := Nat.le_antisymm hok (Nat.le_of_not_lt hge)
      rw [if_pos hend]
      refine ⟨order, h.ret hcalls ?_⟩
      rw [Writer.written, hstage, hend]
  | opened =>
    simp only [Shared.turn, hstage, wp_bind, wp_pure]
    exact h.write hc href hfits hcalls hstage
  | closing r =>
    rw [hstage] at hok
    obtain ⟨hlt, rfl⟩ := hok
    simp only [Shared.turn, hstage, wp_bind, wp_ite, wp_pure, wp_throw, endOp, wp_modify]
    refine ⟨fun hneg => absurd hneg (by omega),
      fun _ => ⟨fun hne => absurd rfl hne, fun _ => ⟨order, ?_⟩⟩⟩
    refine h.move rfl rfl hcalls ?_ ?_
    · rw [Writer.written, Writer.written, hstage]
    · have hle : pieceLen buf (s.writer p).i ≤ buf.length - (s.writer p).i := Nat.min_le_left ..
      simp only [Stage.Ok, Int.toNat_natCast]
      omega

theorem Inv.step (hc : f.off.toNat ≤ c.length) (href : 0 < R f.ip)
    (hfits : f.off.toNat + ∑ p, (calls p).flatten.length ≤ MAXFILE * BSIZE)
    (hwritable : f.writable = true) (hs : step sb s p = some s') :
    ∃ order', Inv R W n c f calls order' s' := by
  rw [Shared.step] at hs
  split at hs
  · cases hs
  rename_i buf bufs hcalls
  have hturn := h.turn hc href hfits hwritable hcalls
  split at hs
  · cases hs
  · rename_i q fs hrun
    cases hs
    exact (wp_of_run_ok hrun).1 hturn

end

theorem rest_start (bufs : List (List UInt8)) :
    Writer.rest { calls := bufs, stage := .enter, i := 0, rets := [] } = bufs.flatMap pieces := by
  cases bufs with
  | nil => rfl
  | cons buf bufs => rfl

theorem Inv.start (hinv : FsInv T ∅ R ∅ W fs) (hnum : (fs.inode f.ip).inum = n) :
    Inv R W n (content fs.blocks (T n)) f calls [] (start fs f calls) where
  disk := ⟨T, hinv, by simp [Shared.start, overwrite]⟩
  inum := hnum
  file := rfl
  off := rfl
  total := by simp only [Shared.start, rest_start, length_flatMap_pieces]
  writers p := ⟨rest_start _, rfl, fun _ _ => rfl⟩

end Step

/-- **No write is lost and none overlaps another.**  Where the offset is not behind the end of the
file: when all calls have returned, the bytes from the old offset to the new one are the pieces of
all writes, those of each process in its order; the other bytes are as they were; and every call has
returned the length of its buffer. -/
theorem shared_writes [Fintype P] {R : Ip → ℕ} {W : Finset Ip} {T : Table sb} {n : Fin sb.ninodes}
    {fs : Fs} {f : File} {calls : P → List (List UInt8)} {s : Sys P} (hinv : FsInv T ∅ R ∅ W fs)
    (href : 0 < R f.ip) (hnum : (fs.inode f.ip).inum = n) (hwritable : f.writable = true)
    (hoff : f.off ≤ (T n).size)
    (hfits : f.off.toNat + ∑ p, (calls p).flatten.length ≤ MAXFILE * BSIZE)
    (hreach : Reach (step sb) (fun _ _ => True) (start fs f calls) s)
    (hdone : ∀ p, (s.writer p).calls = []) :
    ∃ order : List (P × List UInt8), (∀ p, part order p = (calls p).flatMap pieces) ∧
      content s.fs.blocks (dinodeAt sb s.fs.blocks n) =
        overwrite (content fs.blocks (dinodeAt sb fs.blocks n)) f.off.toNat
          (order.flatMap Prod.snd) ∧
        s.file.off.toNat = f.off.toNat + ∑ p, (calls p).flatten.length ∧
      ∀ p, (s.writer p).rets = (calls p).map fun b => (b.length : ℤ) := by
  have hc : f.off.toNat ≤ (content fs.blocks (T n)).length := by
    rw [content, length_bytesAt]
    exact UInt32.le_iff_toNat_le.1 hoff
  obtain ⟨order, h⟩ :=
    hreach.invariant (I := fun s => ∃ order, Inv R W n (content fs.blocks (T n)) f calls order s)
      ⟨[], Inv.start hinv hnum⟩ fun s p s' hs _ hstep => by
      obtain ⟨order, h⟩ := hs
      exact h.step hc href hfits hwritable hstep
  have hrest (p : P) : (s.writer p).rest = [] := by
    rw [Writer.rest, hdone p]
  refine ⟨order, fun p => ?_, ?_, ?_, fun p => ?_⟩
  · have := (h.writers p).parts
    rwa [hrest p, List.append_nil] at this
  · obtain ⟨T', hinv', hcontent⟩ := h.disk
    rw [hinv'.disk.disk n (Set.notMem_empty n), hinv.disk.disk n (Set.notMem_empty n), hcontent]
  · have := h.total
    simpa only [hrest, List.flatten_nil, List.length_nil, Finset.sum_const_zero,
      Nat.add_zero] using this
  · have := (h.writers p).rets
    rwa [hdone p, List.map_nil, List.append_nil] at this

/-- The image of `mkfs` with its empty file open and not locked. -/
def openFs : Fs :=
  { mkfsFs.setInode firstIp (fun i => { i with locked := false }) with outstanding := 0 }

def openFile (off : UInt32) : File where
  type := .inode
  ref := 2
  readable := true
  writable := true
  pipe := 0
  ip := firstIp
  off
  major := 0

theorem openFs_inv : FsInv mkfsTable ∅ mkfsRefs ∅ ∅ openFs := by
  have he := mkfsFs_inv.cache.entry firstIp
  have hr : 0 < mkfsRefs firstIp := by decide
  have hset :
      FsInv mkfsTable ∅ mkfsRefs ∅ ∅
      (mkfsFs.setInode firstIp fun i => { i with locked := false }) := by
    refine mkfsFs_inv.setEntry ⟨he.ref, he.num, he.sync, by simp, by simp, he.pin⟩ (fun _ _ => rfl)
      (fun jp hj => ?_) (fun _ _ => Iff.rfl) fun _ jp hj hrj => mkfsFs_inv.other_inum hr jp hj hrj
    have : jp ≠ 0 := hj
    simp [this]
  exact ⟨hset.disk, hset.cache⟩

/-- Two processes, of which one writes twice, take turns. -/
def twoWriters : Bool → List (List UInt8)
  | true => [[1, 2], [3]]
  | false => [[4]]

theorem shared_writes_two : ∃ s : Sys Bool, ∃ order : List (Bool × List UInt8),
    (∀ p, part order p = (twoWriters p).flatMap pieces) ∧
    content s.fs.blocks (dinodeAt mkfsSb s.fs.blocks fileNum) =
        overwrite (content openFs.blocks (dinodeAt mkfsSb openFs.blocks fileNum)) 0
          (order.flatMap Prod.snd) ∧ s.file.off.toNat = 4 := by
  have hrun : (run (step mkfsSb) (fun _ _ => True) (start openFs (openFile 0) twoWriters)
      [true, false, true, false, true, true, false, false, true, true, true, false, true,
      true, true]).map
        (fun s => ((s.writer true).calls, (s.writer false).calls)) = some ([], []) := by
    decide +kernel
  obtain ⟨s, hreach, hvalue⟩ := exists_reach_of_run hrun
  obtain ⟨h₁, h₂⟩ := Prod.mk.inj hvalue
  obtain ⟨order, hparts, hcontent, hoff, -⟩ := shared_writes (n := fileNum) openFs_inv (by decide)
    (by decide +kernel) rfl (by decide) (by decide) hreach (Bool.forall_bool.2 ⟨h₂, h₁⟩)
  exact ⟨s, order, hparts, hcontent, hoff⟩

/-- **An offset behind the end of the file.**  The file has been truncated, say, through another
descriptor: `writei` takes no bytes at the offset, and the write is lost. -/
theorem write_behind_end : ∃ s : Sys Unit,
    Reach (step mkfsSb) (fun _ _ => True) (start openFs (openFile 5) fun _ => [[1]]) s ∧
      (s.writer ()).calls = [] ∧ (s.writer ()).rets = [-1] ∧ s.file.off = 5 ∧
      content s.fs.blocks (dinodeAt mkfsSb s.fs.blocks fileNum) = [] := by
  have hrun :
    (run (step mkfsSb) (fun _ _ => True) (start openFs (openFile 5) fun _ => [[1]])
    [(), (), (), ()]).map (fun s => ((s.writer ()).calls, (s.writer ()).rets, s.file.off,
        content s.fs.blocks (dinodeAt mkfsSb s.fs.blocks fileNum))) = some ([], [-1], 5, []) := by
    decide +kernel
  obtain ⟨s, hreach, hvalue⟩ := exists_reach_of_run hrun
  simp only [Prod.mk.injEq] at hvalue
  exact ⟨s, hreach, hvalue⟩

end Xv6.Shared
