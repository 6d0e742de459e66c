/-
# The elements of a path

A path names the non-empty pieces between its slashes, each cut to `DIRSIZ` bytes (`components`),
and `skipelem` takes them off one by one.  It leaves each in a buffer of the caller, where only the
bytes up to the NUL count, so `namex` with that buffer (`namexInto`) does what it does with the
names (`namexFrom_eq`).
-/

import Mathlib.Data.List.DropRight
import Xv6.Fs.Entries

namespace Xv6

open Lib

variable {elem name path rest : List UInt8} {parent : Bool} {ip : Ip} {names : List (List UInt8)}

/-! ### Elements -/

/-- The non-empty pieces of the path between slashes, cut to `DIRSIZ` bytes. -/
def components (path : List UInt8) : List (List UInt8) :=
  ((path.splitOn slash).filter (· ≠ [])).map (List.take DIRSIZ)

theorem components_nil : components [] = [] := rfl

theorem components_slash (path : List UInt8) : components (slash :: path) = components path := by
  have hsplit : ([] ++ slash :: path).splitOn slash = [] :: path.splitOn slash :=
    List.splitOnP_append_cons_of_forall_mem (by simp) slash (by simp) path
  rw [List.nil_append] at hsplit
  rw [components, hsplit]
  rfl

theorem components_dropWhile (path : List UInt8) :
    components (path.dropWhile (· == slash)) = components path := by
  induction path with
  | nil => rfl
  | cons c path ih =>
    by_cases hc : c = slash
    · rw [hc, components_slash, ← ih, List.dropWhile_cons_of_pos (by simp)]
    · rw [List.dropWhile_cons_of_neg (by simpa using hc)]

theorem components_elem (hne : elem ≠ []) (helem : slash ∉ elem)
    (hrest : ∀ c, rest.head? = some c → c = slash) :
    components (elem ++ rest) = elem.take DIRSIZ :: components rest := by
  cases rest with
  | nil =>
    rw [List.append_nil, components, List.splitOn_eq_singleton helem, components_nil]
    simp [hne]
  | cons c rest =>
    have hnot : ∀ x ∈ elem, (x == slash) = false := fun x hx => by
      rw [beq_eq_false_iff_ne]
      rintro rfl
      exact helem hx
    have hsplit : (elem ++ slash :: rest).splitOn slash = elem :: rest.splitOn slash :=
      List.splitOnP_append_cons_of_forall_mem hnot slash (by simp) rest
    rw [hrest c rfl, components_slash, components, hsplit, components]
    simp [hne]

def firstElem (path : List UInt8) : List UInt8 :=
  (path.dropWhile (· == slash)).takeWhile (· != slash)

def afterElem (path : List UInt8) : List UInt8 :=
  ((path.dropWhile (· == slash)).dropWhile (· != slash)).dropWhile (· == slash)

theorem skipelem_eq (path : List UInt8) : skipelem path =
    if path.dropWhile (· == slash) = [] then none else
    some ((firstElem path).take DIRSIZ, afterElem path) := by
  unfold skipelem firstElem afterElem
  split_ifs with hs
  · rw [hs]
  · cases h : path.dropWhile (· == slash) with
    | nil => exact absurd h hs
    | cons c s => rfl

theorem firstElem_ne_nil (h : path.dropWhile (· == slash) ≠ []) : firstElem path ≠ [] := by
  have hhead := List.head?_dropWhile_not (· == slash) path
  unfold firstElem
  cases hs : path.dropWhile (· == slash) with
  | nil => exact absurd hs h
  | cons c s =>
    rw [hs] at hhead
    have hc : (c != slash) = true := by simpa using hhead
    simp [hc]

theorem components_eq (path : List UInt8) : components path =
    if path.dropWhile (· == slash) = [] then [] else (firstElem path).take DIRSIZ :: components
    (afterElem path) := by
  rw [← components_dropWhile path]
  split_ifs with hs
  · rw [hs, components_nil]
  have hsplit := List.takeWhile_append_dropWhile (p := (· != slash))
    (l := path.dropWhile (· == slash))
  have hrest := List.head?_dropWhile_not (· != slash) (path.dropWhile (· == slash))
  conv_lhs => rw [← hsplit]
  rw [afterElem, components_dropWhile]
  refine components_elem (firstElem_ne_nil hs) (fun hmem => ?_) fun c hc => ?_
  · simpa using List.mem_takeWhile_imp hmem
  · rw [hc] at hrest
    simpa using hrest

theorem mem_of_mem_firstElem (h : c ∈ firstElem path) : c ∈ path :=
  (List.dropWhile_sublist _).subset ((List.takeWhile_sublist _).subset h)

theorem mem_of_mem_afterElem (h : c ∈ afterElem path) : c ∈ path :=
  (List.dropWhile_sublist _).subset
    ((List.dropWhile_sublist _).subset ((List.dropWhile_sublist _).subset h))

/-- Nothing is left of the path exactly if no element follows: trailing slashes are skipped too. -/
theorem afterElem_eq_nil_iff (path : List UInt8) :
    afterElem path = [] ↔ components (afterElem path) = [] := by
  have hdrop : (afterElem path).dropWhile (· == slash) = afterElem path :=
    List.dropWhile_idempotent ..
  rw [components_eq (afterElem path), hdrop]
  split_ifs with h
  · exact iff_of_true h rfl
  · exact iff_of_false h (by simp)

theorem components_of_skipelem_none (h : skipelem path = none) : components path = [] := by
  rw [skipelem_eq] at h
  split_ifs at h with hs
  rw [components_eq, if_pos hs]

theorem components_of_skipelem (h : skipelem path = some (name, rest)) :
    components path = name :: components rest ∧ (rest = [] ↔ components rest = []) ∧
    ∀ c ∈ rest, c ∈ path := by
  rw [skipelem_eq] at h
  split_ifs at h with hs
  cases h
  exact ⟨by rw [components_eq, if_neg hs], afterElem_eq_nil_iff path, fun _ => mem_of_mem_afterElem⟩

theorem cstring_of_skipelem (h : 0 ∉ path) (hskip : skipelem path = some (name, rest)) :
    cstring DIRSIZ name = name := by
  rw [skipelem_eq] at hskip
  split_ifs at hskip with hs
  cases hskip
  rw [cstring_of_not_mem fun hmem => h (mem_of_mem_firstElem (List.mem_of_mem_take hmem)),
    List.take_take, min_self]

/-- What `skipelem` yields when it is called again and again. -/
def elements (path : List UInt8) : List (List UInt8) :=
  match _h : skipelem path with
  | none => []
  | some (name, rest) => name :: elements rest
termination_by path.length
decreasing_by exact length_lt_of_skipelem _h

/-- **`skipelem` yields the elements of the path**, in order, and ends. -/
theorem elements_eq_components (path : List UInt8) : elements path = components path := by
  fun_induction elements path with
  | case1 path h => rw [components_of_skipelem_none h]
  | case2 path name rest h ih => rw [(components_of_skipelem h).1, ih]

theorem cstring_of_mem_components (h : 0 ∉ path) (hmem : name ∈ components path) :
    cstring DIRSIZ name = name := by
  rw [← elements_eq_components] at hmem
  fun_induction elements path with
  | case1 path => cases hmem
  | case2 path elem rest hskip ih =>
    rcases List.mem_cons.1 hmem with rfl | hmem
    · exact cstring_of_skipelem h hskip
    · exact ih (fun h0 => h ((components_of_skipelem hskip).2.2 0 h0)) hmem

/-! ### The buffer for the name -/

/-- `skipelem(path, name)`: the buffer afterwards, and the rest of the path. -/
def skipelemInto (path name : List UInt8) : Option (List UInt8 × List UInt8) :=
  match path.dropWhile (· == slash) with
  | [] => none
  | s =>
    let elem := s.takeWhile (· != slash)
    let name := if DIRSIZ ≤ elem.length then elem.take DIRSIZ ++ name.drop DIRSIZ
      else elem ++ 0 :: name.drop (elem.length + 1)
    some (name, (s.dropWhile (· != slash)).dropWhile (· == slash))

theorem cstring_copied (h : 0 ∉ elem) (name : List UInt8) :
    cstring DIRSIZ (if DIRSIZ ≤ elem.length then elem.take DIRSIZ ++ name.drop DIRSIZ
      else elem ++ 0 :: name.drop (elem.length + 1)) = elem.take DIRSIZ := by
  have hall (l : List UInt8) (hl : 0 ∉ l) : ∀ c ∈ l, decide (c ≠ 0) = true :=
    fun c hc => decide_eq_true fun h0 => hl (h0 ▸ hc)
  split_ifs with hlen
  · have htake : 0 ∉ elem.take DIRSIZ := fun hmem => h (List.mem_of_mem_take hmem)
    rw [cstring, List.takeWhile_append_of_pos (hall _ htake),
      List.take_append_of_le_length (by simpa using hlen), List.take_take, min_self]
  · rw [cstring, List.takeWhile_append_of_pos (hall _ h), List.takeWhile_cons_of_neg (by simp),
      List.append_nil]

theorem skipelem_eq_into (h : 0 ∉ path) (name : List UInt8) :
    skipelem path = (skipelemInto path name).map fun r => (cstring DIRSIZ r.1, r.2) := by
  have helem : 0 ∉ firstElem path := fun hmem => h (mem_of_mem_firstElem hmem)
  rw [skipelem_eq]
  unfold skipelemInto
  split_ifs with hs
  · rw [hs]
    rfl
  · rw [← cstring_copied helem name]
    unfold firstElem afterElem
    cases hdrop : path.dropWhile (· == slash) with
    | nil => exact absurd hdrop hs
    | cons c s => rfl

theorem length_lt_of_skipelemInto (h : skipelemInto path name = some (name', rest)) :
    rest.length < path.length := by
  have hsome : ∃ x, skipelem path = some (x, rest) := by
    unfold skipelemInto at h
    unfold skipelem
    cases hdrop : path.dropWhile (· == slash) with
    | nil =>
      rw [hdrop] at h
      cases h
    | cons c s =>
      rw [hdrop] at h
      cases h
      exact ⟨_, rfl⟩
  obtain ⟨x, hx⟩ := hsome
  exact length_lt_of_skipelem hx

variable (sb : Superblock)

/-- The loop of `namex` with the buffer `name`, which the caller sees afterwards. -/
def namexInto (parent : Bool) (ip : Ip) (path name : List UInt8) : FsM (Option Ip × List UInt8) :=
  match _h : skipelemInto path name with
  | none => do
    if parent then
      iput sb ip
      return (none, name)
    else return (some ip, name)
  | some (name, rest) => do
    ilock sb ip
    if ((← get).inode ip).type ≠ T_DIR then
      iunlockput sb ip
      return (none, name)
    else if parent ∧ rest = [] then
      iunlock ip
      return (some ip, name)
    else
      match ← dirlookup sb ip name with
      | none =>
        iunlockput sb ip
        return (none, name)
      | some (next, _) =>
        iunlockput sb ip
        namexInto parent next rest name
termination_by path.length
decreasing_by exact length_lt_of_skipelemInto _h

theorem cstring_cstring (n : ℕ) (l : List UInt8) : cstring n (cstring n l) = cstring n l := by
  have h : 0 ∉ cstring n l := fun hmem => by
    simpa using List.mem_takeWhile_imp (List.mem_of_mem_take hmem)
  rw [cstring_of_not_mem h, cstring, List.take_take, min_self]

theorem dirlookup_cstring (dp : Ip) (name : List UInt8) :
    dirlookup sb dp (cstring DIRSIZ name) = dirlookup sb dp name := by
  have hloop (offs : List ℕ) : dirlookupFrom sb dp (cstring DIRSIZ name) offs = dirlookupFrom sb dp
      name offs := by
    induction offs with
    | nil => rfl
    | cons off offs ih => simp only [dirlookupFrom, namecmp_eq_zero_iff, cstring_cstring, ih]
  simp only [dirlookup, hloop]

/-- **`namex` with the buffer does what it does with the names**, whatever the buffer holds. -/
theorem namexFrom_eq (parent : Bool) (ip : Ip) (path name : List UInt8) (h : 0 ∉ path) :
    namexFrom sb parent ip path = (do
      let r ← namexInto sb parent ip path name
      return r.1.map fun ip => (ip, if parent then cstring DIRSIZ r.2 else [])) := by
  induction hlen : path.length using Nat.strong_induction_on generalizing path ip name with
  | _ k ih =>
    have hskip := skipelem_eq_into h name
    rw [namexInto]
    split <;> rename_i hinto <;> rw [hinto] at hskip
    · rw [namexFrom]
      split <;> rename_i hfrom <;> rw [hskip] at hfrom <;> cases hfrom
      cases parent <;> simp
    · rename_i name' rest
      have hlt : rest.length < path.length := length_lt_of_skipelem hskip
      have hrest : 0 ∉ rest := fun hmem => h ((components_of_skipelem hskip).2.2 0 hmem)
      have hnext (next : Ip) := ih rest.length (by omega) next rest name' hrest rfl
      rw [namexFrom]
      split <;> rename_i hfrom <;> rw [hskip] at hfrom <;> cases hfrom
      simp only [dirlookup_cstring, hnext, bind_assoc]
      refine bind_congr fun _ => bind_congr fun s => ?_
      by_cases hdir : (s.inode ip).type ≠ T_DIR
      · simp [hdir]
      by_cases hlast : parent = true ∧ rest = []
      · simp only [if_neg hdir, if_pos hlast]
        simp [hlast.1]
      · simp only [if_neg hdir, if_neg hlast, bind_assoc]
        refine bind_congr fun r => ?_
        cases r with
        | none => simp
        | some r => simp

/-! ### What a path means -/

def IsDir (blocks : Disk) (i : ℕ) : Prop := (dinodeAt sb blocks i).type = T_DIR

instance (blocks : Disk) (i : ℕ) : Decidable (IsDir sb blocks i) :=
  inferInstanceAs (Decidable (_ = _))

def dirSlots (blocks : Disk) (i : ℕ) : List (Option (List UInt8 × ℕ)) :=
  entries (content blocks (dinodeAt sb blocks i))

/-- The inode that a name means in inode `i`. -/
def follow (blocks : Disk) (i : ℕ) (name : List UInt8) : Option ℕ :=
  if IsDir sb blocks i then Slots.lookup (dirSlots sb blocks i) name else none

/-- The inode that a sequence of names leads to. -/
def resolve (blocks : Disk) (i : ℕ) (names : List (List UInt8)) : Option ℕ :=
  names.foldlM (follow sb blocks) i

/-- The way of `namex`, which stops one level early for the parent. -/
def route (blocks : Disk) (parent : Bool) (i : ℕ) : List (List UInt8) → Option (ℕ × List UInt8)
  | [] => if parent then none else some (i, [])
  | name :: names =>
    if ¬IsDir sb blocks i then none
    else if parent ∧ names = [] then some (i, name)
    else (Slots.lookup (dirSlots sb blocks i) name).bind fun j => route blocks parent j names

variable {sb} {blocks : Disk}

theorem resolve_cons (i : ℕ) (name : List UInt8) (names : List (List UInt8)) :
    resolve sb blocks i (name :: names) = (follow sb blocks i name).bind fun j =>
    resolve sb blocks j names :=
  List.foldlM_cons

theorem resolve_append (i : ℕ) (names names' : List (List UInt8)) :
    resolve sb blocks i (names ++ names') = (resolve sb blocks i names).bind fun j =>
    resolve sb blocks j names' :=
  List.foldlM_append

/-- **The whole way** is the fold of the lookups. -/
theorem route_false (i : ℕ) (names : List (List UInt8)) :
    route sb blocks false i names = (resolve sb blocks i names).map fun j => (j, []) := by
  induction names generalizing i with
  | nil => rfl
  | cons name names ih =>
    rw [route, resolve_cons, follow]
    by_cases hdir : IsDir sb blocks i
    · rw [if_neg (not_not.2 hdir), if_pos hdir, if_neg (by simp), Option.map_bind]
      exact congrArg _ (funext ih)
    · rw [if_pos hdir, if_neg hdir]
      rfl

/-- **The way to the parent** is the fold over all names but the last, if it ends in a directory. -/
theorem route_true (i : ℕ) (names : List (List UInt8)) (name : List UInt8) :
    route sb blocks true i (names ++ [name]) =
      (resolve sb blocks i names).bind fun d => if IsDir sb blocks d then
        some (d, name) else none := by
  induction names generalizing i with
  | nil =>
    have hstart : resolve sb blocks i [] = some i := rfl
    rw [List.nil_append, route, hstart, Option.bind_some]
    split_ifs with hdir <;> simp_all
  | cons n names ih =>
    rw [List.cons_append, route, resolve_cons, follow]
    by_cases hdir : IsDir sb blocks i
    · rw [if_neg (not_not.2 hdir), if_pos hdir, if_neg (by simp), Option.bind_assoc]
      exact congrArg _ (funext ih)
    · rw [if_pos hdir, if_neg hdir]
      rfl

theorem route_congr (hdir : ∀ i < sb.ninodes, IsDir sb blocks' i ↔ IsDir sb blocks i)
    (hslots : ∀ i < sb.ninodes, dirSlots sb blocks' i = dirSlots sb blocks i)
    (hlt : ∀ i < sb.ninodes, IsDir sb blocks i → ∀ key ino, some (key, ino) ∈ dirSlots sb blocks i →
      ino < sb.ninodes) (hi : i < sb.ninodes) (names : List (List UInt8)) :
    route sb blocks' parent i names = route sb blocks parent i names := by
  induction names generalizing i with
  | nil => rfl
  | cons name names ih =>
    rw [route, route, hslots i hi]
    by_cases hd : IsDir sb blocks i
    · rw [if_neg (not_not.2 hd), if_neg (not_not.2 ((hdir i hi).2 hd))]
      cases hl : Slots.lookup (dirSlots sb blocks i) name with
      | none => simp only [Option.bind_none]
      | some j =>
        obtain ⟨a, b, hsplit, -⟩ := Slots.lookup_eq_some.1 hl
        have hj := hlt i hi hd name j (by rw [hsplit]; simp)
        simp only [Option.bind_some, ih hj]
    · rw [if_pos hd, if_pos fun h => hd ((hdir i hi).1 h)]

theorem isDir_of_route (h : route sb blocks true i names = some (d, name)) :
    IsDir sb blocks d ∧ name ∈ names := by
  rcases List.eq_nil_or_concat names with rfl | ⟨init, last, rfl⟩
  · cases h
  · rw [List.concat_eq_append, route_true] at h
    obtain ⟨j, -, hj⟩ := Option.bind_eq_some_iff.1 h
    split_ifs at hj with hdir
    cases hj
    exact ⟨hdir, by simp⟩

/-- **The two ways agree**: a path leads to what its last name means in its parent. -/
theorem resolve_eq_follow_parent (i : ℕ) (h : names ≠ []) :
    resolve sb blocks i names = (route sb blocks true i names).bind fun p =>
    follow sb blocks p.1 p.2 := by
  obtain ⟨init, name, rfl⟩ : ∃ init name, names = init ++ [name] :=
    ⟨names.dropLast, names.getLast h, (List.dropLast_append_getLast h).symm⟩
  rw [route_true, resolve_append, Option.bind_assoc]
  refine congrArg _ (funext fun d => ?_)
  have hlast : resolve sb blocks d [name] = follow sb blocks d name := by
    rw [resolve_cons]
    exact Option.bind_fun_some _
  rw [hlast]
  by_cases hdir : IsDir sb blocks d
  · rw [if_pos hdir, Option.bind_some]
  · rw [if_neg hdir, follow, if_neg hdir, Option.bind_none]

/-- **When a path leads nowhere**: what some part of it leads to is no directory, or has no entry of
the next name. -/
theorem resolve_eq_none_iff (i : ℕ) (names : List (List UInt8)) : resolve sb blocks i names = none ↔
    ∃ before name after j, names = before ++ name :: after ∧ resolve sb blocks i before = some j ∧
      (¬IsDir sb blocks j ∨ name ∉ Slots.keys (dirSlots sb blocks j)) := by
  have hstep (j : ℕ) (name : List UInt8) : follow sb blocks j name = none ↔
      ¬IsDir sb blocks j ∨ name ∉ Slots.keys (dirSlots sb blocks j) := by
    rw [follow, ← Slots.lookup_eq_none]
    split_ifs with hdir <;> simp [hdir]
  constructor
  · intro h
    induction names generalizing i with
    | nil => cases h
    | cons name names ih =>
      rw [resolve_cons] at h
      cases hf : follow sb blocks i name with
      | none => exact ⟨[], name, names, i, rfl, rfl, (hstep i name).1 hf⟩
      | some j =>
        rw [hf, Option.bind_some] at h
        obtain ⟨before, name', after, k, rfl, hbefore, hk⟩ := ih j h
        refine ⟨name :: before, name', after, k, rfl, ?_, hk⟩
        rw [resolve_cons, hf, Option.bind_some, hbefore]
  · rintro ⟨before, name, after, j, rfl, hbefore, hj⟩
    rw [resolve_append, hbefore, Option.bind_some, resolve_cons, (hstep j name).2 hj,
      Option.bind_none]

end Xv6
