import Mathlib

/-!
# The regular expressions of `grep`

`match`, `matchhere` and `matchstar` of `grep.c`. A string is the list of its bytes
before the terminator, so a test for the terminator is one for the end of the list.
`matchstar` gets the search for the rest of the expression as a function. What an
expression means is a language in the sense of Mathlib, with two anchors: a text
matches if some part of it is in the language, at the ends that are anchored.
-/

namespace Xv6.Grep

abbrev Byte := BitVec 8

def caret : Byte := 0x5e

def dollar : Byte := 0x24

def dot : Byte := 0x2e

def asterisk : Byte := 0x2a

/-! ## The matcher -/

/-- `matchstar(c, re, text)`: search for `c*re` at the beginning of the text. -/
def matchstar (matchhere : List Byte → Bool) (c : Byte) : List Byte → Bool
  | [] => matchhere []
  | a :: text => matchhere (a :: text) || ((a = c || c = dot) && matchstar matchhere c text)

/-- `*text!='\0' && (re[0]=='.' || re[0]==*text)`, and then the search for the rest behind the character. -/
def matchchar (r : Byte) (matchhere : List Byte → Bool) : List Byte → Bool
  | [] => false
  | a :: text => (r = dot || r = a) && matchhere text

/-- Search for `re` at the beginning of the text. -/
def matchhere : List Byte → List Byte → Bool
  | [], _ => true
  | [r], text => if r = dollar then text.isEmpty else matchchar r (matchhere []) text
  | r :: r' :: re, text =>
    if r' = asterisk then matchstar (matchhere re) r text else matchchar r (matchhere (r' :: re)) text

/-- The loop of `match`: search at every place, the end of the text included. -/
def matchLoop (re : List Byte) : List Byte → Bool
  | [] => matchhere re []
  | a :: text => matchhere re (a :: text) || matchLoop re text

/-- `match(re, text)`. -/
def matchText (re text : List Byte) : Bool :=
  match re with
  | [] => matchLoop [] text
  | r :: re => if r = caret then matchhere re text else matchLoop (r :: re) text

/-! ## What an expression means -/

/-- The character `c` stands for itself, and `.` for every character. -/
def single (c : Byte) : Language Byte := {w | ∃ a, (c = dot ∨ c = a) ∧ w = [a]}

open Computability in
/-- The language of an expression without anchors. An asterisk repeats the character before it; one that has nothing to
repeat is a character. -/
def language : List Byte → Language Byte
  | [] => 1
  | [c] => single c
  | c :: d :: re => if d = asterisk then (single c)∗ * language re else single c * language (d :: re)

/-- The expression is anchored at the beginning. -/
def AtStart (re : List Byte) : Prop := re.head? = some caret

/-- The expression is anchored at the end. As the last character the dollar sign is not starred. -/
def AtEnd (re : List Byte) : Prop := re.getLast? = some dollar

instance (re : List Byte) : Decidable (AtStart re) := inferInstanceAs (Decidable (_ = _))

instance (re : List Byte) : Decidable (AtEnd re) := inferInstanceAs (Decidable (_ = _))

/-- The expression without the anchor at its beginning. -/
def afterStart (re : List Byte) : List Byte := if AtStart re then re.tail else re

/-- The expression without the anchor at its end. -/
def beforeEnd (re : List Byte) : List Byte := if AtEnd re then re.dropLast else re

/-- A part of the text is in the language of the expression, at the ends of the text that are anchored. -/
def Matches (re text : List Byte) : Prop :=
  ∃ before part behind, text = before ++ part ++ behind ∧ part ∈ language (beforeEnd (afterStart re)) ∧
    (AtStart re → before = []) ∧ (AtEnd (afterStart re) → behind = [])

/-! ## Correctness -/

/-- The text begins with a word of the language, and ends with it if the expression is anchored there. -/
def Begins (re text : List Byte) : Prop :=
  ∃ part behind, text = part ++ behind ∧ part ∈ language (beforeEnd re) ∧ (AtEnd re → behind = [])

section
variable {c d : Byte} {re text : List Byte}

open Computability in
/-- The words of `c*` begin with a word of `c`. -/
theorem mem_star_iff {w : List Byte} : w ∈ (single c)∗ ↔ ∀ a ∈ w, c = dot ∨ c = a := by
  rw [Language.mem_kstar]
  constructor
  · rintro ⟨parts, rfl, each⟩ a member
    obtain ⟨part, listed, inside⟩ := List.mem_flatten.1 member
    obtain ⟨b, accepts, rfl⟩ := each part listed
    rw [List.mem_singleton.1 inside]
    exact accepts
  · intro each
    refine ⟨w.map fun a => [a], ?_, fun part listed => ?_⟩
    · induction w with
      | nil => rfl
      | cons a w ih => rw [List.map_cons, List.flatten_cons, ← ih fun b member => each b (List.mem_cons_of_mem _ member)]; rfl
    · obtain ⟨a, member, rfl⟩ := List.mem_map.1 listed
      exact ⟨a, each a member, rfl⟩

theorem repeats_iff {a : Byte} : (decide (a = c) || decide (c = dot)) = true ↔ c = dot ∨ c = a := by
  rw [Bool.or_eq_true, decide_eq_true_iff, decide_eq_true_iff, eq_comm, or_comm]

/-- Repetitions of `c` are taken off the text one by one, and the rest is tried after each. -/
theorem matchstar_iff {here : List Byte → Bool} : matchstar here c text = true ↔
    ∃ part behind, text = part ++ behind ∧ (∀ a ∈ part, c = dot ∨ c = a) ∧ here behind = true := by
  induction text with
  | nil =>
    rw [matchstar]
    constructor
    · intro found
      exact ⟨[], [], rfl, by simp, found⟩
    · rintro ⟨part, behind, split, -, found⟩
      rwa [(List.append_eq_nil_iff.1 split.symm).2] at found
  | cons a text ih =>
    rw [matchstar, Bool.or_eq_true, Bool.and_eq_true, repeats_iff, ih]
    constructor
    · rintro (found | ⟨accepts, part, behind, rfl, each, found⟩)
      · exact ⟨[], a :: text, rfl, by simp, found⟩
      · refine ⟨a :: part, behind, rfl, fun b member => ?_, found⟩
        rcases List.mem_cons.1 member with rfl | later
        · exact accepts
        · exact each b later
    · rintro ⟨_ | ⟨b, part⟩, behind, split, each, found⟩
      · rw [List.nil_append] at split
        rw [split]
        exact .inl found
      · obtain ⟨rfl, rfl⟩ := List.cons.inj split
        refine .inr ⟨each a List.mem_cons_self, part, behind, rfl, fun x member => ?_, found⟩
        exact each x (List.mem_cons_of_mem _ member)

theorem atEnd_cons_cons : AtEnd (c :: d :: re) ↔ AtEnd (d :: re) := by
  rw [AtEnd, AtEnd, List.getLast?_cons_cons]

theorem beforeEnd_cons_cons : beforeEnd (c :: d :: re) = c :: beforeEnd (d :: re) := by
  unfold beforeEnd
  by_cases last : AtEnd (d :: re)
  · rw [if_pos last, if_pos (atEnd_cons_cons.2 last), List.dropLast_cons_cons]
  · rw [if_neg last, if_neg (mt atEnd_cons_cons.1 last)]

theorem atEnd_star : AtEnd (c :: asterisk :: re) ↔ AtEnd re := by
  rw [atEnd_cons_cons]
  cases re with
  | nil => simp [AtEnd, asterisk, dollar]
  | cons d re => exact atEnd_cons_cons

theorem beforeEnd_star : beforeEnd (c :: asterisk :: re) = c :: asterisk :: beforeEnd re := by
  rw [beforeEnd_cons_cons]
  cases re with
  | nil => rfl
  | cons d re => rw [beforeEnd_cons_cons]

theorem begins_nil : Begins [] text :=
  ⟨[], text, rfl, Language.nil_mem_one, by simp [AtEnd]⟩

theorem begins_dollar : Begins [dollar] text ↔ text = [] := by
  have meaning : beforeEnd [dollar] = [] := rfl
  constructor
  · rintro ⟨part, behind, split, member, last⟩
    rw [meaning] at member
    rw [split, last rfl, (Language.mem_one _).1 member]
    rfl
  · rintro rfl
    exact ⟨[], [], rfl, Language.nil_mem_one, fun _ => rfl⟩

open Computability in
/-- The meaning of an expression that begins with a repetition. -/
theorem begins_star : Begins (c :: asterisk :: re) text ↔
    ∃ part behind, text = part ++ behind ∧ (∀ a ∈ part, c = dot ∨ c = a) ∧ Begins re behind := by
  have meaning : language (c :: asterisk :: beforeEnd re) = (single c)∗ * language (beforeEnd re) := if_pos rfl
  unfold Begins
  rw [beforeEnd_star, meaning, atEnd_star]
  constructor
  · rintro ⟨part, behind, rfl, member, last⟩
    obtain ⟨first, repeated, rest, inside, rfl⟩ := Language.mem_mul.1 member
    exact ⟨first, rest ++ behind, List.append_assoc .., mem_star_iff.1 repeated, rest, behind, rfl, inside, last⟩
  · rintro ⟨first, _, rfl, repeated, rest, behind, rfl, inside, last⟩
    refine ⟨first ++ rest, behind, (List.append_assoc ..).symm, ?_, last⟩
    exact Language.mem_mul.2 ⟨first, mem_star_iff.2 repeated, rest, inside, rfl⟩

/-- A character that is neither starred nor an anchor. -/
theorem language_cons (plain : (beforeEnd re).head? ≠ some asterisk) :
    language (c :: beforeEnd re) = single c * language (beforeEnd re) := by
  cases body : beforeEnd re with
  | nil => rw [language, language, mul_one]
  | cons d rest =>
    rw [body] at plain
    refine if_neg fun star => plain ?_
    rw [star]
    rfl

/-- The meaning of an expression that begins with a character. -/
theorem begins_cons (notAnchor : re = [] → c ≠ dollar) (plain : re.head? ≠ some asterisk) :
    Begins (c :: re) text ↔ ∃ a rest, text = a :: rest ∧ (c = dot ∨ c = a) ∧ Begins re rest := by
  have split : beforeEnd (c :: re) = c :: beforeEnd re ∧ (AtEnd (c :: re) ↔ AtEnd re) := by
    cases re with
    | nil =>
      have differs := notAnchor rfl
      simp [beforeEnd, AtEnd, differs]
    | cons d re => exact ⟨beforeEnd_cons_cons, atEnd_cons_cons⟩
  have plain' : (beforeEnd re).head? ≠ some asterisk := by
    unfold beforeEnd
    split_ifs
    · cases re with
      | nil => simp
      | cons d re =>
        cases re with
        | nil => simp
        | cons e re => simpa using plain
    · exact plain
  unfold Begins
  rw [split.1, split.2, language_cons plain']
  constructor
  · rintro ⟨part, behind, rfl, member, last⟩
    obtain ⟨_, ⟨a, accepts, rfl⟩, rest, inside, rfl⟩ := Language.mem_mul.1 member
    exact ⟨a, rest ++ behind, rfl, accepts, rest, behind, rfl, inside, last⟩
  · rintro ⟨a, _, rfl, accepts, rest, behind, rfl, inside, last⟩
    exact ⟨a :: rest, behind, rfl, Language.mem_mul.2 ⟨[a], ⟨a, accepts, rfl⟩, rest, inside, rfl⟩, last⟩

theorem matchchar_iff {here : List Byte → Bool} :
    matchchar c here text = true ↔ ∃ a rest, text = a :: rest ∧ (c = dot ∨ c = a) ∧ here rest = true := by
  cases text with
  | nil => simp [matchchar]
  | cons a text => simp [matchchar]

end

theorem matchhere_iff : ∀ re text : List Byte, matchhere re text = true ↔ Begins re text
  | [], _ => iff_of_true rfl begins_nil
  | [r], text => by
    by_cases anchor : r = dollar
    · rw [matchhere, if_pos anchor, anchor, begins_dollar]
      exact List.isEmpty_iff
    · rw [matchhere, if_neg anchor, matchchar_iff, begins_cons (fun _ => anchor) (by simp)]
      simp only [matchhere_iff]
  | r :: r' :: re, text => by
    by_cases star : r' = asterisk
    · rw [matchhere, if_pos star, matchstar_iff, star, begins_star]
      simp only [matchhere_iff re]
    · rw [matchhere, if_neg star, matchchar_iff, begins_cons (by simp) (by simpa using star)]
      simp only [matchhere_iff (r' :: re)]

section
variable {re text : List Byte}

theorem matchLoop_iff : matchLoop re text = true ↔ ∃ before rest, text = before ++ rest ∧ Begins re rest := by
  induction text with
  | nil =>
    rw [matchLoop, matchhere_iff]
    constructor
    · intro found
      exact ⟨[], [], rfl, found⟩
    · rintro ⟨before, rest, split, found⟩
      rwa [(List.append_eq_nil_iff.1 split.symm).2] at found
  | cons a text ih =>
    rw [matchLoop, Bool.or_eq_true, matchhere_iff, ih]
    constructor
    · rintro (found | ⟨before, rest, rfl, found⟩)
      · exact ⟨[], a :: text, rfl, found⟩
      · exact ⟨a :: before, rest, rfl, found⟩
    · rintro ⟨_ | ⟨b, before⟩, rest, split, found⟩
      · rw [List.nil_append] at split
        rw [split]
        exact .inl found
      · exact .inr ⟨before, rest, (List.cons.inj split).2, found⟩

end

/-- The matcher returns 1 exactly for the texts that match. -/
theorem matchText_iff (re text : List Byte) : matchText re text = true ↔ Matches re text := by
  by_cases start : AtStart re
  · obtain ⟨re, rfl⟩ : ∃ re', re = caret :: re' := List.head?_eq_some_iff.1 start
    have body : afterStart (caret :: re) = re := if_pos start
    unfold Matches
    have search : matchText (caret :: re) text = matchhere re text := by rw [matchText, if_pos rfl]
    rw [body, search, matchhere_iff]
    constructor
    · rintro ⟨part, behind, rfl, member, last⟩
      exact ⟨[], part, behind, rfl, member, fun _ => rfl, last⟩
    · rintro ⟨before, part, behind, rfl, member, first, last⟩
      rw [first start]
      exact ⟨part, behind, rfl, member, last⟩
  · have body : afterStart re = re := if_neg start
    have search : matchText re text = matchLoop re text := by
      cases re with
      | nil => rfl
      | cons r re => exact if_neg fun first => start (congrArg some first)
    unfold Matches
    rw [body, search, matchLoop_iff]
    constructor
    · rintro ⟨before, _, rfl, part, behind, rfl, member, last⟩
      exact ⟨before, part, behind, (List.append_assoc ..).symm, member, fun first => absurd first start, last⟩
    · rintro ⟨before, part, behind, rfl, member, -, last⟩
      exact ⟨before, part ++ behind, List.append_assoc .., part, behind, rfl, member, last⟩

end Xv6.Grep
