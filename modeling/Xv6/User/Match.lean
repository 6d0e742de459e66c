/-
# The regular expressions of `grep`

`match`, `matchhere` and `matchstar` of `user/grep.c`.  An expression is read from the left: `c*` is
any number of `c`, any other `c` stands for itself, `.` for every character, and a `$` that is the
last character for the end of the text (`Regex.parse`).
-/

import Mathlib.Computability.Language

namespace Xv6.Grep

open scoped Computability

/-- `'^'`, `'$'`, `'.'` and `'*'`. -/
def caret : UInt8 := 94
def dollar : UInt8 := 36
def dot : UInt8 := 46
def asterisk : UInt8 := 42

/-! ### The code -/

/-- One character of `matchhere`, before `rest`. -/
def matchchar (rest : List UInt8 → Bool) (c : UInt8) : List UInt8 → Bool
  | [] => false
  | x :: text => (c == dot || c == x) && rest text

/-- The loop of `matchstar`, where `here` is `matchhere` of what follows. -/
def matchloop (here : List UInt8 → Bool) (c : UInt8) : List UInt8 → Bool
  | [] => here []
  | x :: text => here (x :: text) || ((x == c || c == dot) && matchloop here c text)

def matchhere : List UInt8 → List UInt8 → Bool
  | [], _ => true
  | [c], text => if c = dollar then text.isEmpty else matchchar (fun _ => true) c text
  | c :: d :: re, text =>
    if d = asterisk then matchloop (matchhere re) c text else matchchar (matchhere (d :: re)) c text

def matchstar (c : UInt8) (re text : List UInt8) : Bool := matchloop (matchhere re) c text

def search (re : List UInt8) : List UInt8 → Bool
  | [] => matchhere re []
  | x :: text => matchhere re (x :: text) || search re text

def matchRe (re text : List UInt8) : Bool :=
  if re.head? = some caret then matchhere re.tail text else search re text

theorem matchhere_star (c : UInt8) (re text : List UInt8) :
    matchhere (c :: asterisk :: re) text = matchstar c re text := by
  rw [matchhere, if_pos rfl, matchstar]

/-! ### The meaning -/

/-- `c` or `c*`. -/
inductive Item
  | one (c : UInt8)
  | many (c : UInt8)

/-- An expression: whether it is anchored by `^`, its items, and whether `$` ends it. -/
structure Regex where
  anchored : Bool
  items : List Item
  atEnd : Bool

def Fits (c x : UInt8) : Prop := c = dot ∨ c = x

/-- The words of one character that `c` stands for. -/
def charLang (c : UInt8) : Language UInt8 := {w | ∃ x, Fits c x ∧ w = [x]}

def Item.lang : Item → Language UInt8
  | .one c => charLang c
  | .many c => (charLang c)∗

/-- The words of items one after the other. -/
def itemsLang (items : List Item) : Language UInt8 := (items.map Item.lang).prod

/-- The items of an expression without `^`, and whether `$` ends it. -/
def parseItems : List UInt8 → List Item × Bool
  | [] => ([], false)
  | [c] => if c = dollar then ([], true) else ([.one c], false)
  | c :: d :: re =>
    if d = asterisk then (.many c :: (parseItems re).1, (parseItems re).2)
    else (.one c :: (parseItems (d :: re)).1, (parseItems (d :: re)).2)

def Regex.parse (re : List UInt8) : Regex :=
  if re.head? = some caret then ⟨true, (parseItems re.tail).1, (parseItems re.tail).2⟩
  else ⟨false, (parseItems re).1, (parseItems re).2⟩

/-- Some part of the text, from the start if the expression is anchored and to the end if `$` ends
it, is a word of the items. -/
def Regex.Matches (r : Regex) (text : List UInt8) : Prop :=
  ∃ before word after, text = before ++ word ++ after ∧ (r.anchored = true → before = []) ∧
    word ∈ itemsLang r.items ∧ (r.atEnd = true → after = [])

/-! ### The code finds the words -/

/-- The text starts with a word of the items, up to its end if `$` ends them. -/
def Starts (p : List Item × Bool) (text : List UInt8) : Prop :=
  ∃ word after, text = word ++ after ∧ word ∈ itemsLang p.1 ∧ (p.2 = true → after = [])

theorem mem_many_iff (c : UInt8) (w : List UInt8) : w ∈ (Item.many c).lang ↔ ∀ x ∈ w, Fits c x := by
  rw [Item.lang, Language.mem_kstar]
  constructor
  · rintro ⟨words, rfl, hwords⟩ x hx
    obtain ⟨word, hword, hx⟩ := List.mem_flatten.1 hx
    obtain ⟨y, hy, rfl⟩ := hwords word hword
    rwa [List.mem_singleton.1 hx]
  · intro h
    refine ⟨w.map fun x => [x], ?_, fun word hword => ?_⟩
    · rw [← List.flatMap_def, List.flatMap_singleton']
    · obtain ⟨x, hx, rfl⟩ := List.mem_map.1 hword
      exact ⟨x, h x hx, rfl⟩

variable {c : UInt8} {items : List Item} {e : Bool} {text : List UInt8}

theorem starts_nil : Starts ([], e) text ↔ (e = true → text = []) := by
  constructor
  · rintro ⟨word, after, rfl, hword, hend⟩ he
    have hnil : word = [] := hword
    rw [hnil, hend he, List.append_nil]
  · intro h
    exact ⟨[], text, rfl, Language.nil_mem_one, h⟩

theorem starts_cons :
    Starts (i :: items, e) text ↔ ∃ word rest, text = word ++ rest ∧ word ∈ i.lang ∧
    Starts (items, e) rest := by
  have hprod (w : List UInt8) : w ∈ itemsLang (i :: items) ↔
      ∃ u ∈ i.lang, ∃ v ∈ itemsLang items, u ++ v = w := by
    rw [itemsLang, List.map_cons, List.prod_cons, Language.mem_mul]
    rfl
  constructor
  · rintro ⟨w, after, rfl, hw, hend⟩
    obtain ⟨u, hu, v, hv, rfl⟩ := (hprod w).1 hw
    exact ⟨u, v ++ after, List.append_assoc .., hu, v, after, rfl, hv, hend⟩
  · rintro ⟨u, rest, rfl, hu, v, after, rfl, hv, hend⟩
    exact ⟨u ++ v, after, (List.append_assoc ..).symm, (hprod _).2 ⟨u, hu, v, hv, rfl⟩, hend⟩

theorem fits_iff : (c == dot || c == x) = true ↔ Fits c x := by
  simp [Fits]

theorem matchchar_iff (hrest : ∀ text, rest text = true ↔ Starts (items, e) text) :
    matchchar rest c text = true ↔ Starts (.one c :: items, e) text := by
  rw [starts_cons]
  cases text with
  | nil =>
    refine iff_of_false Bool.false_ne_true ?_
    rintro ⟨word, rest, htext, ⟨x, -, rfl⟩, -⟩
    cases htext
  | cons x text =>
    rw [matchchar, Bool.and_eq_true, fits_iff, hrest]
    constructor
    · rintro ⟨hfits, hstarts⟩
      exact ⟨[x], text, rfl, ⟨x, hfits, rfl⟩, hstarts⟩
    · rintro ⟨word, rest, htext, ⟨y, hfits, rfl⟩, hstarts⟩
      cases htext
      exact ⟨hfits, hstarts⟩

/-- The loop of `matchstar` tries every number of characters that fit. -/
theorem matchloop_iff :
    matchloop here c text = true ↔ ∃ word rest, text = word ++ rest ∧ (∀ x ∈ word, Fits c x) ∧
    here rest = true := by
  induction text with
  | nil =>
    constructor
    · intro h
      exact ⟨[], [], rfl, by simp, h⟩
    · rintro ⟨word, rest, htext, -, hrest⟩
      obtain ⟨rfl, rfl⟩ := List.append_eq_nil_iff.1 htext.symm
      exact hrest
  | cons x text ih =>
    have hfits : (x == c || c == dot) = true ↔ Fits c x := by
      rw [Bool.or_eq_true, beq_iff_eq, beq_iff_eq, Or.comm, Fits, @eq_comm _ x c]
    rw [matchloop, Bool.or_eq_true, Bool.and_eq_true, hfits, ih]
    constructor
    · rintro (hhere | ⟨hx, word, rest, rfl, hword, hrest⟩)
      · exact ⟨[], x :: text, rfl, by simp, hhere⟩
      · exact ⟨x :: word, rest, rfl, List.forall_mem_cons.2 ⟨hx, hword⟩, hrest⟩
    rintro ⟨word, rest, htext, hword, hrest⟩
    cases word with
    | nil =>
      left
      rw [htext]
      exact hrest
    | cons y word =>
      cases htext
      obtain ⟨hx, hword⟩ := List.forall_mem_cons.1 hword
      exact .inr ⟨hx, word, rest, rfl, hword, hrest⟩

/-- **`matchhere`** looks for a word at the beginning of the text. -/
theorem matchhere_iff (re text : List UInt8) :
    matchhere re text = true ↔ Starts (parseItems re) text := by
  induction re using parseItems.induct generalizing text with
  | case1 => simp [matchhere, parseItems, starts_nil]
  | case2 => simp [matchhere, parseItems, starts_nil]
  | case3 c hc =>
    rw [matchhere, if_neg hc, parseItems, if_neg hc]
    exact matchchar_iff fun text => by simp [starts_nil]
  | case4 c re ih =>
    rw [matchhere, if_pos rfl, parseItems, if_pos rfl, matchloop_iff, starts_cons]
    simp only [mem_many_iff, ih]
  | case5 c d re hd ih =>
    rw [matchhere, if_neg hd, parseItems, if_neg hd]
    exact matchchar_iff ih

theorem search_iff (re text : List UInt8) :
    search re text = true ↔ ∃ before rest, text = before ++ rest ∧ matchhere re rest = true := by
  induction text with
  | nil =>
    constructor
    · intro h
      exact ⟨[], [], rfl, h⟩
    · rintro ⟨before, rest, htext, hrest⟩
      obtain ⟨rfl, rfl⟩ := List.append_eq_nil_iff.1 htext.symm
      exact hrest
  | cons x text ih =>
    rw [search, Bool.or_eq_true, ih]
    constructor
    · rintro (hhere | ⟨before, rest, rfl, hrest⟩)
      · exact ⟨[], x :: text, rfl, hhere⟩
      · exact ⟨x :: before, rest, rfl, hrest⟩
    rintro ⟨before, rest, htext, hrest⟩
    cases before with
    | nil =>
      left
      rw [htext]
      exact hrest
    | cons y before =>
      cases htext
      exact .inr ⟨before, rest, rfl, hrest⟩

/-- **`match` finds exactly the texts that the expression means.** -/
theorem matchRe_iff_matches (re text : List UInt8) :
    matchRe re text = true ↔ (Regex.parse re).Matches text := by
  unfold matchRe Regex.parse
  split
  · rw [matchhere_iff]
    constructor
    · rintro ⟨word, after, rfl, hword, hend⟩
      exact ⟨[], word, after, rfl, fun _ => rfl, hword, hend⟩
    · rintro ⟨before, word, after, rfl, hanchor, hword, hend⟩
      rw [hanchor rfl]
      exact ⟨word, after, rfl, hword, hend⟩
  · rw [search_iff]
    constructor
    · rintro ⟨before, rest, rfl, hrest⟩
      obtain ⟨word, after, rfl, hword, hend⟩ := (matchhere_iff re rest).1 hrest
      exact ⟨before, word, after, (List.append_assoc ..).symm, fun h => (Bool.false_ne_true h).elim,
        hword, hend⟩
    · rintro ⟨before, word, after, rfl, -, hword, hend⟩
      exact ⟨before, word ++ after, List.append_assoc .., (matchhere_iff re _).2
        ⟨word, after, rfl, hword, hend⟩⟩

/-- `^a*b$` on `aab` and on `aabc`. -/
example : matchRe [caret, 97, asterisk, 98, dollar] [97, 97, 98] = true ∧
    matchRe [caret, 97, asterisk, 98, dollar] [97, 97, 98, 99] = false := by
  decide

end Xv6.Grep
