import Xv6.Machinery.Bytes

/-!
# User/Grep — the matcher of `user/grep.c`

A string is the list of its bytes before the NUL.  `elements` reads a pattern from left to right,
and `Lang` says which words, with what follows them, are in its language.
-/

namespace Xv6.Grep

open Machinery Function

/-- `'*'`. -/
def STAR : Byte := 42

/-- `'.'`. -/
def DOT : Byte := 46

/-- `'$'`. -/
def DOLLAR : Byte := 36

/-- `'^'`. -/
def CARET : Byte := 94

/-! ## The code -/

/-- The loop of `matchstar`; `here` is `matchhere` of the pattern after the star. -/
def starLoop (here : List Byte → Bool) (c : Byte) : List Byte → Bool
  | [] => here []
  | x :: text =>
    if here (x :: text) then true
    else if x = c ∨ c = DOT then starLoop here c text
    else false

def matchhere : (re text : List Byte) → Bool
  | [], _ => true
  | [c], text =>
    if c = DOLLAR then text.isEmpty
    else
      match text with
      | [] => false
      | x :: text => if c = DOT ∨ c = x then matchhere [] text else false
  | c :: d :: re, text =>
    if d = STAR then starLoop (matchhere re) c text
    else
      match text with
      | [] => false
      | x :: text => if c = DOT ∨ c = x then matchhere (d :: re) text else false

def matchstar (c : Byte) (re text : List Byte) : Bool := starLoop (matchhere re) c text

/-- The loop of `match`. -/
def matchLoop (re : List Byte) : List Byte → Bool
  | [] => matchhere re []
  | x :: text => if matchhere re (x :: text) then true else matchLoop re text

def match' (re text : List Byte) : Bool :=
  match re with
  | [] => matchLoop [] text
  | c :: re => if c = CARET then matchhere re text else matchLoop (c :: re) text

theorem matchhere_star (c : Byte) (re text : List Byte) : matchhere (c :: STAR :: re) text = matchstar c re text := by
  cases text <;> simp [matchhere, matchstar]

theorem matchhere_dollar (text : List Byte) : matchhere [DOLLAR] text = text.isEmpty := by
  cases text <;> simp [matchhere]

/-! ## The language of a pattern

Whether a `$` fits depends on what follows in the text. -/

/-- The elements of a pattern. -/
inductive Element
  /-- A character and a star. -/
  | star (c : Byte)
  /-- A `$` at the end. -/
  | last
  /-- Any other character. -/
  | one (c : Byte)
  deriving DecidableEq, Repr

def elements : List Byte → List Element
  | [] => []
  | [c] => if c = DOLLAR then [.last] else [.one c]
  | c :: d :: re => if d = STAR then .star c :: elements re else .one c :: elements (d :: re)

/-- The character `c` of a pattern stands for `x`. -/
def Stands (c x : Byte) : Prop := c = DOT ∨ c = x

/-- The words of an element; `rest` is what follows in the text. -/
def Element.Fits (rest w : List Byte) : Element → Prop
  | .star c => ∀ x ∈ w, Stands c x
  | .last => w = [] ∧ rest = []
  | .one c => ∃ x, w = [x] ∧ Stands c x

/-- **The language of a list of elements**: the words `w`, with what follows in the text. -/
def Lang : List Element → (w rest : List Byte) → Prop
  | [], w, _ => w = []
  | e :: es, w, rest => ∃ u v, w = u ++ v ∧ e.Fits (v ++ rest) u ∧ Lang es v rest

/-- The text starts with a word of the language. -/
def Starts (es : List Element) (text : List Byte) : Prop := ∃ w rest, text = w ++ rest ∧ Lang es w rest

section Starts

variable {c x : Byte} {es : List Element} {text : List Byte}

theorem starts_nil (text : List Byte) : Starts [] text := ⟨[], text, rfl, rfl⟩

theorem starts_star : Starts (.star c :: es) text ↔ ∃ u v, text = u ++ v ∧ (∀ y ∈ u, Stands c y) ∧ Starts es v := by
  constructor
  · rintro ⟨w, rest, rfl, u, v, rfl, hu, hv⟩
    exact ⟨u, v ++ rest, List.append_assoc .., hu, v, rest, rfl, hv⟩
  · rintro ⟨u, v, rfl, hu, w, rest, rfl, hw⟩
    exact ⟨u ++ w, rest, (List.append_assoc ..).symm, u, w, rfl, hu, hw⟩

theorem starts_last : Starts [.last] text ↔ text = [] := by
  constructor
  · rintro ⟨w, rest, rfl, u, v, rfl, ⟨rfl, hrest⟩, rfl⟩
    simpa using hrest
  · rintro rfl
    exact ⟨[], [], rfl, [], [], rfl, ⟨rfl, rfl⟩, rfl⟩

theorem starts_one_nil : ¬Starts (.one c :: es) [] := by
  rintro ⟨w, rest, heq, u, v, rfl, ⟨x, rfl, -⟩, -⟩
  cases heq

theorem starts_one_cons : Starts (.one c :: es) (x :: text) ↔ Stands c x ∧ Starts es text := by
  constructor
  · rintro ⟨w, rest, heq, u, v, rfl, ⟨y, rfl, hy⟩, hv⟩
    obtain ⟨rfl, rfl⟩ := List.cons.inj heq
    exact ⟨hy, v, rest, rfl, hv⟩
  · rintro ⟨hx, w, rest, rfl, hw⟩
    exact ⟨x :: w, rest, rfl, [x], w, rfl, ⟨x, rfl, hx⟩, hw⟩

end Starts

/-! ## The matcher decides the language -/

/-- **A star takes any number of repetitions.** -/
theorem starLoop_iff {here : List Byte → Bool} {c : Byte} {text : List Byte} :
    starLoop here c text = true ↔ ∃ u v, text = u ++ v ∧ (∀ y ∈ u, Stands c y) ∧ here v = true := by
  induction text with
  | nil =>
    constructor
    · exact fun h => ⟨[], [], rfl, nofun, h⟩
    · rintro ⟨u, v, heq, -, hv⟩
      obtain ⟨-, rfl⟩ := List.append_eq_nil_iff.1 heq.symm
      exact hv
  | cons x text ih =>
    rw [starLoop]
    constructor
    · intro h
      split_ifs at h with hhere hx
      · exact ⟨[], x :: text, rfl, nofun, hhere⟩
      · obtain ⟨u, v, rfl, hu, hv⟩ := ih.1 h
        refine ⟨x :: u, v, rfl, ?_, hv⟩
        rintro y (_ | ⟨_, hy⟩)
        · exact hx.symm.imp_right Eq.symm
        · exact hu y hy
    · rintro ⟨u, v, heq, hu, hv⟩
      split_ifs with hhere hx
      · rfl
      · cases u with
        | nil => exact absurd (heq ▸ hv) hhere
        | cons y u =>
          obtain ⟨rfl, rfl⟩ := List.cons.inj heq
          exact ih.2 ⟨u, v, rfl, fun z hz => hu z (List.mem_cons_of_mem _ hz), hv⟩
      · cases u with
        | nil => exact absurd (heq ▸ hv) hhere
        | cons y u =>
          obtain ⟨rfl, -⟩ := List.cons.inj heq
          exact absurd ((hu x List.mem_cons_self).symm.imp_left Eq.symm) hx

/-- **`matchhere` decides whether the text starts with a word of the pattern's language.** -/
theorem matchhere_iff (re text : List Byte) : matchhere re text = true ↔ Starts (elements re) text := by
  induction re using elements.induct generalizing text with
  | case1 => exact iff_of_true (by simp [matchhere]) (starts_nil text)
  | case2 => rw [matchhere_dollar, elements, if_pos rfl, starts_last, List.isEmpty_iff]
  | case3 c hc =>
    rw [elements, if_neg hc]
    cases text with
    | nil =>
      rw [matchhere, if_neg hc]
      exact iff_of_false Bool.false_ne_true starts_one_nil
    | cons x text =>
      rw [matchhere, if_neg hc, starts_one_cons, and_iff_left (starts_nil text), Stands]
      simp [matchhere]
  | case4 c re ih =>
    rw [matchhere_star, matchstar, elements, if_pos rfl, starts_star, starLoop_iff]
    simp only [ih]
  | case5 c d re hd ih =>
    rw [elements, if_neg hd]
    cases text with
    | nil =>
      rw [matchhere, if_neg hd]
      exact iff_of_false Bool.false_ne_true starts_one_nil
    | cons x text =>
      rw [matchhere, if_neg hd, starts_one_cons, ← ih, Stands]
      split_ifs with hx
      · exact (and_iff_right hx).symm
      · exact iff_of_false id fun h => hx h.1

theorem matchLoop_iff (re text : List Byte) :
    matchLoop re text = true ↔ ∃ u v, text = u ++ v ∧ Starts (elements re) v := by
  induction text with
  | nil =>
    rw [matchLoop, matchhere_iff]
    constructor
    · exact fun h => ⟨[], [], rfl, h⟩
    · rintro ⟨u, v, heq, hv⟩
      obtain ⟨-, rfl⟩ := List.append_eq_nil_iff.1 heq.symm
      exact hv
  | cons x text ih =>
    rw [matchLoop]
    split_ifs with hhere
    · exact iff_of_true rfl ⟨[], x :: text, rfl, (matchhere_iff ..).1 hhere⟩
    · rw [ih]
      constructor
      · rintro ⟨u, v, rfl, hv⟩
        exact ⟨x :: u, v, rfl, hv⟩
      · rintro ⟨u, v, heq, hv⟩
        cases u with
        | nil => exact absurd ((matchhere_iff ..).2 (heq ▸ hv)) hhere
        | cons y u =>
          obtain ⟨-, rfl⟩ := List.cons.inj heq
          exact ⟨u, v, rfl, hv⟩

/-- **The matcher decides its pattern language.**  A pattern that starts with `^` matches iff a word of the
language of the rest is at the start of the text, any other pattern iff there is a word of its language
somewhere in the text. -/
theorem match_decides (re text : List Byte) :
    (match' (CARET :: re) text = true ↔ ∃ w rest, text = w ++ rest ∧ Lang (elements re) w rest) ∧
    (re.head? ≠ some CARET → (match' re text = true ↔
      ∃ before w rest, text = before ++ w ++ rest ∧ Lang (elements re) w rest)) := by
  constructor
  · rw [match', if_pos rfl]
    exact matchhere_iff re text
  · intro hre
    have hloop : match' re text = matchLoop re text := by
      cases re with
      | nil => rfl
      | cons c re => rw [match', if_neg fun hc : c = CARET => hre (congrArg some hc)]
    rw [hloop, matchLoop_iff]
    constructor
    · rintro ⟨u, v, rfl, w, rest, rfl, hw⟩
      exact ⟨u, w, rest, (List.append_assoc ..).symm, hw⟩
    · rintro ⟨u, w, rest, rfl, hw⟩
      exact ⟨u, w ++ rest, List.append_assoc .., w, rest, rfl, hw⟩

end Xv6.Grep
