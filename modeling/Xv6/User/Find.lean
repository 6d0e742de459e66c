/-
# `find`

`getname` and `findpath` of `user/find.c`, with `stat` of `user/ulib.c`.  What `findpath` sees of
the file system is a `World`; `ofDisk` is the world of a disk.  Three things can run out, and
`findpath` checks for none: the bytes of a path, the descriptors, and the stack, of which there are
`k` frames; after them the process is killed, which is `none` here.
-/

import Xv6.Fs.Image
import Xv6.Fs.Path
import Xv6.Lib.Lines

namespace Xv6.Find

open Lib

/-! ### The file system as `find` sees it -/

/-- An inode, with its content as directory entries. -/
structure Node where
  type : UInt16
  major : UInt16
  slots : List (Option (List UInt8 × ℕ))

abbrev World := ℕ → Node

def World.follow (w : World) (i : ℕ) (name : List UInt8) : Option ℕ :=
  if (w i).type = T_DIR then Slots.lookup (w i).slots name else none

/-- The inode that a sequence of names leads to. -/
def World.resolve (w : World) (i : ℕ) (names : List (List UInt8)) : Option ℕ :=
  names.foldlM w.follow i

def ofDisk (sb : Superblock) (blocks : Disk) : World := fun i =>
  { type := (dinodeAt sb blocks i).type, major := (dinodeAt sb blocks i).major,
    slots := dirSlots sb blocks i }

/-! ### The code -/

def testLine : List UInt8 := [116, 101, 115, 116, 63, newline]

/-- The part of the path behind the last slash. -/
def getname (path : List UInt8) : List UInt8 := (path.reverse.takeWhile (· != slash)).reverse

section Code

variable (w : World) (cwd : ℕ)

def startOf (path : List UInt8) : ℕ := if path.head? = some slash then ROOTINO else cwd

/-- `open(path, O_RDONLY)` with `free` descriptors left: the inode, and what is left then. -/
def openFile (path : List UInt8) (free : ℕ) : Option (ℕ × ℕ) :=
  if path.length < MAXPATH then
    match w.resolve (startOf cwd path) (components path) with
    | none => none
    | some i =>
      if (w i).type = T_DEVICE ∧ NDEV ≤ (w i).major.toNat ∨ free = 0 then none else
        some (i, free - 1)
  else none

/-- `stat(n, &st)`: `st.type`.  The descriptor is closed again. -/
def stat (path : List UInt8) (free : ℕ) : Option UInt16 :=
  (openFile w cwd path free).map fun r => (w r.1).type

/-- The lines printed, and the descriptors left. -/
abbrev Printed := List (List UInt8) × ℕ

/-- The body of the loop of `findpath`, for one entry; `deeper` is the call for a directory. -/
def visit (name : List UInt8) (deeper : List UInt8 → ℕ → Option Printed) (path : List UInt8)
    (free : ℕ) : Option (List UInt8 × ℕ) → Option Printed
  | none => some ([], free)
  | some (de, _) =>
    let buf := path ++ slash :: de
    match stat w cwd buf free with
    | none => some ([testLine], free)
    | some type =>
      if type = T_FILE then some (if getname buf = name then [buf ++ [newline]] else [], free)
      else if type = T_DIR then
        if getname buf = dot ∨ getname buf = dotdot then some ([], free) else deeper buf free
      else some ([], free)

def visitAll (name : List UInt8) (deeper : List UInt8 → ℕ → Option Printed) (path : List UInt8) :
    List (Option (List UInt8 × ℕ)) → ℕ → Option Printed
  | [], free => some ([], free)
  | slot :: slots, free => (visit w cwd name deeper path free slot).bind fun a =>
    (visitAll name deeper path slots a.2).map fun b => (a.1 ++ b.1, b.2)

/-- `findpath(path, name)` with `k` frames and `free` descriptors: what it prints, and the
descriptors afterwards.  A path that does not fit into `buf` runs over the frame. -/
def findpath (name : List UInt8) : ℕ → List UInt8 → ℕ → Option Printed
  | 0, _, _ => none
  | k + 1, path, free =>
    if path.length < 512 then
      match openFile w cwd path free with
      | none => some ([], free)
      | some (i, left) =>
        (visitAll w cwd name (findpath name k) path (w i).slots left).map fun r => (r.1, r.2 + 1)
    else none

end Code

/-! ### Trees -/

variable {w : World} {cwd i j k r free m n : ℕ} {path name de line : List UInt8}
  {cs : List (List UInt8)} {slots : List (Option (List UInt8 × ℕ))}
  {deeper : List UInt8 → ℕ → Option Printed} {run : Option Printed}

/-- The path below `path` through the names `cs`. -/
def under (path : List UInt8) (cs : List (List UInt8)) : List UInt8 :=
  path ++ cs.flatMap (slash :: ·)

/-- `cs` leads from `i` down to `j`, through entries other than `.` and `..`. -/
def Leads (w : World) : ℕ → List (List UInt8) → ℕ → Prop
  | i, [], j => j = i
  | i, c :: cs, j => c ≠ dot ∧ c ≠ dotdot ∧ ∃ m, w.follow i c = some m ∧ Leads w m cs j

/-- `line` is the path of a file called `name`, which the entry `c` of `i` leads to. -/
def Through (w : World) (name path : List UInt8) (i : ℕ) (c line : List UInt8) : Prop :=
  ∃ cs j, Leads w i (c :: cs) j ∧ (w j).type = T_FILE ∧ (c :: cs).getLast? = some name ∧
    line = under path (c :: cs) ++ [newline]

/-- `line` is the path of a file called `name` in the tree below `i`. -/
def Found (w : World) (name path : List UInt8) (i : ℕ) (line : List UInt8) : Prop :=
  ∃ c, Through w name path i c line

/-- The same where the names in `i` are looked up in `r`. -/
def Seen (w : World) (name path : List UInt8) (r i : ℕ) (line : List UInt8) : Prop :=
  ∃ c ∈ Slots.keys (w i).slots, Through w name path r c line

/-- A directory in order: the names are distinct, each is one that a path can have, and it leads to
one of the `n` inodes. -/
structure Tidy (w : World) (n i : ℕ) : Prop where
  distinct : Slots.Distinct (w i).slots
  ne_nil : ∀ c m, some (c, m) ∈ (w i).slots → c ≠ []
  slash_notMem : ∀ c m, some (c, m) ∈ (w i).slots → slash ∉ c
  length_le : ∀ c m, some (c, m) ∈ (w i).slots → c.length ≤ DIRSIZ
  lt : ∀ c m, some (c, m) ∈ (w i).slots → m < n
  dots : ∀ c m, some (c, m) ∈ (w i).slots → c = dot ∨ c = dotdot → (w m).type = T_DIR

/-- `stat` can open the name `c` behind `path`, which leads to `m`, with `free` descriptors left. -/
structure Opens (w : World) (path : List UInt8) (free : ℕ) (c : List UInt8) (m : ℕ) : Prop where
  short : (path ++ slash :: c).length < MAXPATH
  free : free ≠ 0
  device : (w m).type = T_DEVICE → (w m).major.toNat < NDEV

/-- The directory `i` is open, its names are looked up in `r`, and there are `k` frames and `free`
descriptors: each entry can be opened, and there is enough for each directory below. -/
def Fits (w : World) : ℕ → List UInt8 → ℕ → ℕ → ℕ → Prop
  | 0, _, _, _, _ => False
  | k + 1, path, r, i, free => ∀ c ∈ Slots.keys (w i).slots, ∃ m, w.follow r c = some m ∧
    Opens w path free c m ∧
      ((w m).type = T_DIR → c ≠ dot → c ≠ dotdot → Fits w k (path ++ slash :: c) m m (free - 1))

theorem under_cons (path : List UInt8) (c : List UInt8) (cs : List (List UInt8)) :
    under path (c :: cs) = under (path ++ slash :: c) cs := by
  simp [under]

theorem mem_of_follow (h : w.follow i de = some m) :
    (w i).type = T_DIR ∧ some (de, m) ∈ (w i).slots := by
  rw [World.follow] at h
  split at h
  · obtain ⟨a, b, hab, -⟩ := Slots.lookup_eq_some.1 h
    rw [hab]
    exact ⟨‹_›, List.mem_append_right _ (.head _)⟩
  · cases h

theorem seen_iff_found : Seen w name path i i line ↔ Found w name path i line := by
  constructor
  · rintro ⟨c, -, h⟩
    exact ⟨c, h⟩
  · rintro ⟨c, h⟩
    obtain ⟨_, _, ⟨_, _, m, hm, _⟩, _⟩ := id h
    exact ⟨c, Slots.mem_keys.2 ⟨m, (mem_of_follow hm).2⟩, h⟩

theorem Found.slash_mem (h : Found w name path i line) : slash ∈ line := by
  obtain ⟨c, cs, j, -, -, -, rfl⟩ := h
  simp [under]

/-- A file behind an entry is what the entry leads to, or below it. -/
theorem through_iff (hm : w.follow r de = some m) : Through w name path r de line ↔
    de ≠ dot ∧ de ≠ dotdot ∧
      ((w m).type = T_FILE ∧ de = name ∧ line = path ++ slash :: de ++ [newline] ∨
        (w m).type = T_DIR ∧ Found w name (path ++ slash :: de) m line) := by
  constructor
  · rintro ⟨cs, j, ⟨hdot, hdotdot, m', hm', hlead⟩, hfile, hlast, rfl⟩
    obtain rfl : m' = m := Option.some.inj (hm'.symm.trans hm)
    refine ⟨hdot, hdotdot, ?_⟩
    cases cs with
    | nil =>
      obtain rfl : j = m' := hlead
      exact .inl ⟨hfile, by simpa using hlast, by simp [under]⟩
    | cons c cs =>
      obtain ⟨_, _, m, hc, _⟩ := id hlead
      refine .inr ⟨(mem_of_follow hc).1, c, cs, j, hlead, hfile, ?_, by rw [under_cons]⟩
      rwa [List.getLast?_cons_cons] at hlast
  · rintro ⟨hdot, hdotdot, ⟨hfile, rfl, rfl⟩ | ⟨-, c, cs, j, hlead, hfile, hlast, rfl⟩⟩
    · exact ⟨[], m, ⟨hdot, hdotdot, m, hm, rfl⟩, hfile, rfl, by simp [under]⟩
    · refine ⟨c :: cs, j, ⟨hdot, hdotdot, m, hm, hlead⟩, hfile, ?_, by rw [under_cons path de]⟩
      rwa [List.getLast?_cons_cons]

/-- The line of a file shows the entry that leads to it. -/
theorem Through.inj {c c' : List UInt8} (h : Through w name path i c line)
    (h' : Through w name path i c' line) (hc : slash ∉ c) (hc' : slash ∉ c') : c = c' := by
  have hcut : ∀ (c : List UInt8) (cs : List (List UInt8)), slash ∉ c →
      (c ++ cs.flatMap (slash :: ·)).takeWhile (· != slash) = c := by
    intro c cs hc
    have hall : ∀ x ∈ c, (x != slash) = true := fun x hx => by
      simpa using fun he : x = slash => hc (he ▸ hx)
    rw [List.takeWhile_append_of_pos hall]
    cases cs <;> simp
  obtain ⟨cs, _, _, _, _, rfl⟩ := h
  obtain ⟨cs', _, _, _, _, h⟩ := h'
  have h := List.append_cancel_right h
  simp only [under, List.flatMap_cons, List.cons_append, List.append_cancel_left_eq,
    List.cons.injEq, true_and] at h
  rw [← hcut c cs hc, h, hcut c' cs' hc']

/-! ### Paths -/

theorem getname_append (h : slash ∉ de) : getname (path ++ slash :: de) = de := by
  have hall : ∀ c ∈ de.reverse, (c != slash) = true := fun c hc => by
    simpa using fun he : c = slash => h (he ▸ List.mem_reverse.1 hc)
  rw [getname, List.reverse_append, List.reverse_cons, List.append_assoc,
    List.takeWhile_append_of_pos hall]
  simp

theorem components_append (hne : de ≠ []) (hslash : slash ∉ de) (hlen : de.length ≤ DIRSIZ) :
    components (path ++ slash :: de) = components path ++ [de] := by
  rw [components, List.splitOn_append_cons_of_beq _ _ (beq_self_eq_true _),
    List.splitOn_eq_singleton hslash, List.filter_append, List.map_append, components]
  simp [hne, List.take_of_length_le hlen]

/-- Where `path` and a slash lead: not to the current directory if `path` is empty. -/
def behind (path : List UInt8) (i : ℕ) : ℕ := if path = [] then ROOTINO else i

@[simp] theorem behind_append : behind (path ++ slash :: de) i = i := if_neg (by simp)

theorem resolve_entry (hpath : w.resolve (startOf cwd path) (components path) = some i)
    (ht : Tidy w n i) (hmem : some (de, j) ∈ (w i).slots) :
    w.resolve (startOf cwd (path ++ slash :: de)) (components (path ++ slash :: de)) =
      w.follow (behind path i) de := by
  have hstart : w.resolve (startOf cwd (path ++ slash :: de)) (components path) =
      some (behind path i) := by
    cases path with
    | nil => rfl
    | cons c path => exact hpath
  rw [World.resolve] at hstart
  rw [components_append (ht.ne_nil _ _ hmem) (ht.slash_notMem _ _ hmem) (ht.length_le _ _ hmem),
    World.resolve, List.foldlM_append, hstart]
  simp

theorem stat_eq_some_iff (hpath : w.resolve (startOf cwd path) (components path) = some i)
    (ht : Tidy w n i) (hmem : some (de, j) ∈ (w i).slots) :
    stat w cwd (path ++ slash :: de) free = some type ↔
      ∃ m, w.follow (behind path i) de = some m ∧ Opens w path free de m ∧ (w m).type = type := by
  rw [stat, openFile, resolve_entry hpath ht hmem]
  by_cases hshort : (path ++ slash :: de).length < MAXPATH
  · rw [if_pos hshort]
    cases w.follow (behind path i) de with
    | none => simp
    | some m =>
      have hopens : ¬((w m).type = T_DEVICE ∧ NDEV ≤ (w m).major.toNat ∨ free = 0) ↔
          Opens w path free de m := by
        rw [not_or, not_and, not_le]
        exact ⟨fun h => ⟨hshort, h.2, h.1⟩, fun h => ⟨h.device, h.free⟩⟩
      by_cases h : Opens w path free de m
      · simp only [if_neg (hopens.2 h), Option.map_some, Option.some.injEq, exists_eq_left',
          h, true_and]
      · simp only [if_pos (not_not.1 (mt hopens.1 h)), Option.map_none, Option.some.injEq,
          exists_eq_left', h, false_and, reduceCtorEq]
  · rw [if_neg hshort]
    simp only [Option.map_none, reduceCtorEq, false_iff, not_exists, not_and]
    exact fun m _ h => absurd h.short hshort

/-! ### What is printed -/

/-- The lines for which `P` holds are printed, each once, and the descriptors are back. -/
def Shows (run : Option Printed) (free : ℕ) (P : List UInt8 → Prop) : Prop :=
  ∃ out, run = some (out, free) ∧ out.Nodup ∧ ∀ line, line ∈ out ↔ P line

theorem Shows.congr {P Q : List UInt8 → Prop} (h : Shows run free P)
    (hPQ : ∀ line, P line ↔ Q line) : Shows run free Q := by
  obtain ⟨out, hrun, hnodup, hmem⟩ := h
  exact ⟨out, hrun, hnodup, fun line => (hmem line).trans (hPQ line)⟩

theorem shows_nil {P : List UInt8 → Prop} (h : ∀ line, ¬P line) : Shows (some ([], free)) free P :=
  ⟨[], rfl, List.nodup_nil, fun line => iff_of_false List.not_mem_nil (h line)⟩

section

variable (hpath : w.resolve (startOf cwd path) (components path) = some i) (ht : Tidy w n i)
  (hslot : some (de, j) ∈ (w i).slots)
include hpath ht hslot

/-- **One entry** that can be opened. -/
theorem visit_eq (hm : w.follow (behind path i) de = some m) (ho : Opens w path free de m) :
    visit w cwd name deeper path free (some (de, j)) =
      if (w m).type = T_FILE then
        some (if de = name then [path ++ slash :: de ++ [newline]] else [], free)
      else if (w m).type = T_DIR ∧ de ≠ dot ∧ de ≠ dotdot then deeper (path ++ slash :: de) free
      else some ([], free) := by
  have hstat := (stat_eq_some_iff hpath ht hslot).2 ⟨m, hm, ho, rfl⟩
  simp only [visit, hstat, getname_append (ht.slash_notMem de j hslot)]
  by_cases hdir : (w m).type = T_DIR <;> by_cases hdots :
    de = dot ∨ de = dotdot <;> simp [hdir, hdots, ← not_or]

theorem visit_shows (hm : w.follow (behind path i) de = some m) (ho : Opens w path free de m)
    (hdots : de = dot ∨ de = dotdot → (w m).type = T_DIR)
    (hdeeper : (w m).type = T_DIR → de ≠ dot → de ≠ dotdot →
      Shows (deeper (path ++ slash :: de) free) free (Found w name (path ++ slash :: de) m)) :
    Shows (visit w cwd name deeper path free (some (de, j))) free
    (Through w name path (behind path i) de) := by
  have hthrough : ∀ line, _ ↔ Through w name path (behind path i) de line :=
    fun _ => (through_iff hm).symm
  have hne : ¬T_FILE = T_DIR := by decide
  rw [visit_eq hpath ht hslot hm ho]
  refine Shows.congr ?_ hthrough
  by_cases hfile : (w m).type = T_FILE
  · have hnames := not_or.1 (mt hdots (hfile ▸ hne))
    rw [if_pos hfile]
    split
    · exact ⟨_, rfl, List.nodup_singleton _, by simp_all⟩
    · exact shows_nil (by simp_all)
  rw [if_neg hfile]
  split
  · rename_i hdir
    refine (hdeeper hdir.1 hdir.2.1 hdir.2.2).congr fun line =>
      ⟨fun h => ⟨hdir.2.1, hdir.2.2, .inr ⟨hdir.1, h⟩⟩, ?_⟩
    rintro ⟨-, -, ⟨h, -⟩ | ⟨-, h⟩⟩
    · exact absurd h hfile
    · exact h
  · rename_i hdir
    refine shows_nil fun line => ?_
    rintro ⟨hdot, hdotdot, ⟨h, -⟩ | ⟨h, -⟩⟩
    · exact hfile h
    · exact hdir ⟨h, hdot, hdotdot⟩

/-- An entry that shows no `test?` can be opened. -/
theorem opens_of_visit {a : Printed} (hdeeper : ∀ m, w.follow (behind path i) de = some m →
      (w m).type = T_DIR → Opens w path free de m →
      ∀ a, deeper (path ++ slash :: de) free = some a →
        testLine ∉ a.1 → Fits w k (path ++ slash :: de) m m (free - 1) ∧ a.2 = free)
    (hrun : visit w cwd name deeper path free (some (de, j)) = some a) (hnot : testLine ∉ a.1) :
    (∃ m, w.follow (behind path i) de = some m ∧ Opens w path free de m ∧
      ((w m).type = T_DIR → de ≠ dot → de ≠ dotdot → Fits w k (path ++ slash :: de) m m
      (free - 1))) ∧ a.2 = free := by
  by_cases hopens : ∃ m, w.follow (behind path i) de = some m ∧ Opens w path free de m
  · obtain ⟨m, hm, ho⟩ := hopens
    rw [visit_eq hpath ht hslot hm ho] at hrun
    split_ifs at hrun with hfile _ hdir
    · cases hrun
      exact ⟨⟨m, hm, ho, fun hd => absurd (hd.symm.trans hfile) (by decide)⟩, rfl⟩
    · cases hrun
      exact ⟨⟨m, hm, ho, fun hd => absurd (hd.symm.trans hfile) (by decide)⟩, rfl⟩
    · obtain ⟨hfits, hfree⟩ := hdeeper m hm hdir.1 ho a hrun hnot
      exact ⟨⟨m, hm, ho, fun _ _ _ => hfits⟩, hfree⟩
    · cases hrun
      exact ⟨⟨m, hm, ho, fun hd h₁ h₂ => absurd ⟨hd, h₁, h₂⟩ hdir⟩, rfl⟩
  · have hstat : stat w cwd (path ++ slash :: de) free = none := by
      refine Option.eq_none_iff_forall_ne_some.2 fun type htype => hopens ?_
      obtain ⟨m, hm, ho, -⟩ := (stat_eq_some_iff hpath ht hslot).1 htype
      exact ⟨m, hm, ho⟩
    rw [visit, hstat] at hrun
    cases hrun
    exact absurd (.head _) hnot

end

/-- **The loop of `findpath`** shows what its rounds show, one entry after the other. -/
theorem visitAll_shows {P : List UInt8 → List UInt8 → Prop} (hd : Slots.Distinct slots)
    (hinj : ∀ c ∈ Slots.keys slots, ∀ c' ∈ Slots.keys slots, ∀ line, P c line → P c' line → c = c')
    (h : ∀ c j, some (c, j) ∈ slots → Shows (visit w cwd name deeper path free (some (c, j)))
      free (P c)) :
    Shows (visitAll w cwd name deeper path slots free) free fun line =>
    ∃ c ∈ Slots.keys slots, P c line := by
  induction slots with
  | nil => exact shows_nil (by simp)
  | cons slot slots ih =>
    have htail := fun c j hc => h c j (.tail _ hc)
    cases slot with
    | none =>
      obtain ⟨out, hrun, hout⟩ := ih hd hinj htail
      exact ⟨out, by simp [visitAll, visit, hrun], hout⟩
    | some e =>
      obtain ⟨hc, hd⟩ := List.nodup_cons.1 hd
      obtain ⟨out₁, hrun₁, hnodup₁, hmem₁⟩ := h e.1 e.2 (.head _)
      obtain ⟨out, hrun, hnodup, hmem⟩ :=
        ih hd (fun c hc c' hc' => hinj c (.tail _ hc) c' (.tail _ hc')) htail
      refine ⟨out₁ ++ out, by simp [visitAll, hrun₁, hrun], List.nodup_append'.2
        ⟨hnodup₁, hnodup, ?_⟩, fun line => ?_⟩
      · intro line h₁ h₂
        obtain ⟨c', hc', hp⟩ := (hmem line).1 h₂
        obtain rfl := hinj e.1 (.head _) c' (.tail _ hc') line ((hmem₁ line).1 h₁) hp
        exact hc hc'
      · simp [hmem₁, hmem]

theorem visitAll_inv {G : List UInt8 → Prop} {res : Printed}
    (hvisit : ∀ c j, some (c, j) ∈ slots → ∀ a, visit w cwd name deeper path free
      (some (c, j)) = some a → testLine ∉ a.1 → G c ∧ a.2 = free)
    (hrun : visitAll w cwd name deeper path slots free = some res) (hnot : testLine ∉ res.1) :
    (∀ c ∈ Slots.keys slots, G c) ∧ res.2 = free := by
  induction slots generalizing res with
  | nil =>
    cases hrun
    exact ⟨by simp, rfl⟩
  | cons slot slots ih =>
    obtain ⟨a, ha, hrun⟩ := Option.bind_eq_some_iff.1 hrun
    obtain ⟨b, hb, rfl⟩ := Option.map_eq_some_iff.1 hrun
    rw [List.mem_append, not_or] at hnot
    have hrest := fun hb => ih (fun c j hc => hvisit c j (.tail _ hc)) hb hnot.2
    cases slot with
    | none =>
      cases ha
      exact hrest hb
    | some e =>
      obtain ⟨hG, hfree⟩ := hvisit e.1 e.2 (.head _) a ha hnot.1
      rw [hfree] at hb
      obtain ⟨hall, hfree⟩ := hrest hb
      exact ⟨List.forall_mem_cons.2 ⟨hG, hall⟩, hfree⟩

theorem openFile_eq (hpath : w.resolve (startOf cwd path) (components path) = some i)
    (hi : (w i).type = T_DIR) :
    openFile w cwd path free = if path.length < MAXPATH ∧
    free ≠ 0 then some (i, free - 1) else none := by
  have hnot : ¬T_DIR = T_DEVICE := by decide
  rw [openFile, hpath]
  simp only [hi, hnot, false_and, false_or]
  by_cases hshort : path.length < MAXPATH <;> by_cases h0 : free = 0 <;> simp [hshort, h0]

theorem behind_lt (hroot : ROOTINO < n) (hlt : i < n) : behind path i < n := by
  rw [behind]
  split
  · exact hroot
  · exact hlt

section

variable (htidy : ∀ j < n, (w j).type = T_DIR → Tidy w n j) (hroot : ROOTINO < n) (hlt : i < n)
  (hpath : w.resolve (startOf cwd path) (components path) = some i) (hi : (w i).type = T_DIR)
include htidy hroot hlt hpath hi

/-- **With enough of everything** `findpath` prints the files that are seen. -/
theorem findpath_shows (hshort : path.length < MAXPATH) (h : Fits w k path (behind path i) i free) :
    Shows (findpath w cwd name k path (free + 1)) (free + 1)
    (Seen w name path (behind path i) i) := by
  induction k generalizing path i free with
  | zero => exact h.elim
  | succ k ih =>
    have ht := htidy i hlt hi
    have hslash : ∀ c ∈ Slots.keys (w i).slots, slash ∉ c := fun c hc => by
      obtain ⟨m, hm⟩ := Slots.mem_keys.1 hc
      exact ht.slash_notMem c m hm
    obtain ⟨out, hrun, hout⟩ :
      Shows (visitAll w cwd name (findpath w cwd name k) path (w i).slots free) free
        (Seen w name path (behind path i) i) :=
        visitAll_shows (P := Through w name path (behind path i)) ht.distinct
      (fun c hc c' hc' line hline hline' => hline.inj hline' (hslash c hc) (hslash c' hc'))
        fun c j hslot => by
        obtain ⟨m, hm, ho, hfits⟩ := h c (Slots.mem_keys.2 ⟨j, hslot⟩)
        obtain ⟨hr, hmr⟩ := mem_of_follow hm
        have htr := htidy _ (behind_lt hroot hlt) hr
        refine visit_shows hpath ht hslot hm ho (htr.dots c m hmr) fun hd hdot hdotdot => ?_
        obtain ⟨left, rfl⟩ := Nat.exists_eq_succ_of_ne_zero ho.free
        have hbelow : Fits w k _ _ m left → _ :=
          ih (htr.lt c m hmr) (by rw [resolve_entry hpath ht hslot, hm]) hd ho.short
        rw [behind_append] at hbelow
        exact (hbelow (hfits hd hdot hdotdot)).congr fun _ => seen_iff_found
    refine ⟨out, ?_, hout⟩
    rw [findpath, if_pos (hshort.trans (by decide)), openFile_eq hpath hi,
      if_pos ⟨hshort, Nat.succ_ne_zero _⟩]
    simp [hrun]

/-- **A run that shows no `test?`** had enough of everything: a `stat` that fails always shows. -/
theorem fits_of_findpath (hshort : path.length < MAXPATH) {res : Printed}
    (hrun : findpath w cwd name k path (free + 1) = some res) (hnot : testLine ∉ res.1) :
    Fits w k path (behind path i) i free ∧ res.2 = free + 1 := by
  induction k generalizing path i free res with
  | zero => cases hrun
  | succ k ih =>
    have ht := htidy i hlt hi
    rw [findpath, if_pos (hshort.trans (by decide)), openFile_eq hpath hi,
      if_pos ⟨hshort, Nat.succ_ne_zero _⟩] at hrun
    obtain ⟨r, hr, rfl⟩ := Option.map_eq_some_iff.1 hrun
    obtain ⟨hall, hfree⟩ :=
      visitAll_inv (fun c j hslot a ha hna => opens_of_visit (k := k) hpath ht hslot
        (fun m hm hd ho a ha hna => by
        obtain ⟨hdir, hmr⟩ := mem_of_follow hm
        obtain ⟨left, hleft⟩ := Nat.exists_eq_succ_of_ne_zero ho.free
        rw [hleft] at ha ⊢
        have hbelow := ih ((htidy _ (behind_lt hroot hlt) hdir).lt c m hmr)
          (by rw [resolve_entry hpath ht hslot, hm]) hd ho.short ha hna
        rwa [behind_append] at hbelow) ha hna) hr hnot
    exact ⟨hall, congrArg (· + 1) hfree⟩

end

/-- **`find` is complete**: the path of every file of that name in the tree below `i` is printed,
each once and no other line, and what was opened is closed. -/
def Complete (w : World) (cwd : ℕ) (name path : List UInt8) (i k free : ℕ) : Prop :=
  Shows (findpath w cwd name k path free) free (Found w name path i)

/-- There is enough of everything.  Either the first `open` fails, and there was nothing to find; or
every entry of the tree can be visited, and those of the empty path, which are looked up in the
root, lead to the same files there. -/
def Enough (w : World) (name path : List UInt8) (i k free : ℕ) : Prop :=
  k ≠ 0 ∧ path.length < 512 ∧
    (¬(path.length < MAXPATH ∧ free ≠ 0) ∧ (∀ line, ¬Found w name path i line) ∨
      (path.length < MAXPATH ∧ free ≠ 0) ∧ Fits w k path (behind path i) i (free - 1) ∧
        (path = [] → ∀ line, Seen w name path ROOTINO i line ↔ Found w name path i line))

theorem complete_iff_enough (htidy : ∀ j < n, (w j).type = T_DIR → Tidy w n j) (hroot : ROOTINO < n)
    (hlt : i < n) (hpath : w.resolve (startOf cwd path) (components path) = some i)
    (hi : (w i).type = T_DIR) :
    Complete w cwd name path i k free ↔ Enough w name path i k free := by
  cases k with
  | zero => simp [Complete, Shows, Enough, findpath]
  | succ k =>
    by_cases hopen : path.length < MAXPATH ∧ free ≠ 0
    · obtain ⟨left, rfl⟩ := Nat.exists_eq_succ_of_ne_zero hopen.2
      have hshows : Fits w (k + 1) path _ i left →
          Shows (findpath w cwd name (k + 1) path (left + 1)) _ _ :=
        findpath_shows htidy hroot hlt hpath hi hopen.1
      constructor
      · rintro ⟨out, hrun, hnodup, hmem⟩
        have hnot : testLine ∉ out := fun h => absurd ((hmem _).1 h).slash_mem (by decide)
        obtain ⟨hfits, -⟩ := fits_of_findpath htidy hroot hlt hpath hi hopen.1 hrun hnot
        refine ⟨Nat.succ_ne_zero k, hopen.1.trans (by decide),
          .inr ⟨hopen, hfits, fun hnil line => ?_⟩⟩
        obtain ⟨out', hrun', -, hmem'⟩ := hshows hfits
        rw [hrun] at hrun'
        obtain rfl : out = out' := congrArg Prod.fst (Option.some.inj hrun')
        rw [← hmem, hmem', behind, if_pos hnil]
      · rintro ⟨-, -, ⟨hnot, -⟩ | ⟨-, hfits, hsame⟩⟩
        · exact absurd hopen hnot
        refine (hshows hfits).congr fun line => ?_
        by_cases hnil : path = []
        · rw [behind, if_pos hnil, hsame hnil]
        · rw [behind, if_neg hnil, seen_iff_found]
    · rw [Complete, Shows, Enough, findpath, openFile_eq hpath hi, if_neg hopen]
      by_cases hlen : path.length < 512 <;> simp [hlen, hopen, eq_comm]

theorem slots_mkfs : (ofDisk mkfsSb mkfsImage 1).slots =
    [some (dot, 1), some (dotdot, 1), some ([102], 2)] ++ List.replicate 61 none := by
    decide +kernel

theorem mem_slots_mkfs (h : some (de, m) ∈ (ofDisk mkfsSb mkfsImage 1).slots) :
    (de = dot ∧ m = 1) ∨ (de = dotdot ∧ m = 1) ∨ de = [102] ∧ m = 2 := by
  rw [slots_mkfs, List.mem_append] at h
  simpa [List.mem_replicate] using h

theorem tidy_mkfs (hj : j < mkfsSb.ninodes) (hd : IsDir mkfsSb mkfsImage j) :
    Tidy (ofDisk mkfsSb mkfsImage) mkfsSb.ninodes j := by
  have hone : j = 1 := by
    rw [IsDir, dinodeAt_mkfsImage ⟨j, hj⟩, mkfsTable] at hd
    split_ifs at hd with h₁ h₂
    · exact h₁
    · exact absurd hd (by decide)
    · exact absurd hd (by decide)
  subst hone
  refine ⟨by rw [slots_mkfs]; decide, ?_, ?_, ?_, ?_, ?_⟩
  all_goals
    intro c m hmem
    rcases mem_slots_mkfs hmem with ⟨rfl, rfl⟩ | ⟨rfl, rfl⟩ | ⟨rfl, rfl⟩ <;> decide +kernel

def letterA : List UInt8 := [97]
def letterB : List UInt8 := [98]

/-- Directories 1 to 13, each with the next under the name `a`, and the file `b` in the last. -/
def chain : World := fun i =>
  if i < 14 then
    { type := T_DIR, major := 0,
      slots :=
      [some (dot, i), some (dotdot, i - 1),
      if i < 13 then some (letterA, i + 1) else some (letterB, 14)] }
  else { type := T_FILE, major := 0, slots := [] }

theorem leads_chain (n i : ℕ) (h : i + n = 13) :
    Leads chain i (List.replicate n letterA ++ [letterB]) 14 := by
  induction n generalizing i with
  | zero =>
    obtain rfl : i = 13 := h
    exact ⟨by decide, by decide, 14, by decide, rfl⟩
  | succ n ih =>
    refine ⟨by decide, by decide, i + 1, ?_, ih (i + 1) (by omega)⟩
    have hdir : chain i =
        ⟨T_DIR, 0, [some (dot, i), some (dotdot, i - 1), some (letterA, i + 1)]⟩ := by
      rw [chain, if_pos (by omega), if_pos (by omega)]
    rw [World.follow, hdir]
    rfl

end Xv6.Find
