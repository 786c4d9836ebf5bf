import Mathlib

/-!
# Doubly linked lists in a heap of link fields

A list threaded through two link fields `next` and `prev` (`none` is the null
pointer) with a pointer to each end. `IsDList` says which list the fields hold:
`next` is the successor in the list and `prev` the successor in its reverse, both
null off the list. Appending at the end and unlinking a member are then two
equations about the successor function.
-/

namespace Xv6.Lib

variable {α : Type*} [DecidableEq α]

/-- The element after the first occurrence of `a` in `l`. -/
def succIn : List α → α → Option α
  | [], _ => none
  | b :: l, a => if b = a then l.head? else succIn l a

@[simp] theorem succIn_nil (a : α) : succIn ([] : List α) a = none := rfl

theorem succIn_cons_self (a : α) (l : List α) : succIn (a :: l) a = l.head? := by simp [succIn]

theorem succIn_cons_ne {a b : α} (l : List α) (different : b ≠ a) : succIn (b :: l) a = succIn l a := by
  simp [succIn, different]

theorem succIn_of_not_mem {l : List α} {a : α} (outside : a ∉ l) : succIn l a = none := by
  induction l with
  | nil => rfl
  | cons b l ih =>
    simp only [List.mem_cons, not_or] at outside
    rw [succIn_cons_ne l (Ne.symm outside.1), ih outside.2]

/-- In a list without repetition the successor of `a` is `b` exactly when they stand side by side. -/
theorem succIn_eq_some_iff {l : List α} (nodup : l.Nodup) {a b : α} :
    succIn l a = some b ↔ ∃ l1 l2, l = l1 ++ a :: b :: l2 := by
  induction l with
  | nil => simp
  | cons c l ih =>
    obtain ⟨fresh, nodup⟩ := List.nodup_cons.1 nodup
    by_cases same : c = a
    · subst same
      rw [succIn_cons_self]
      constructor
      · intro h
        cases l with
        | nil => simp at h
        | cons d l => cases h; exact ⟨[], l, rfl⟩
      · rintro ⟨l1, l2, h⟩
        cases l1 with
        | nil => cases h; rfl
        | cons d l1 => cases h; simp at fresh
    · rw [succIn_cons_ne l same, ih nodup]
      constructor
      · rintro ⟨l1, l2, rfl⟩; exact ⟨c :: l1, l2, rfl⟩
      · rintro ⟨l1, l2, h⟩
        cases l1 with
        | nil => cases h; exact absurd rfl same
        | cons d l1 => cases h; exact ⟨l1, l2, rfl⟩

/-- The successor of `a` heads what follows `a`. -/
theorem succIn_split {l l1 l2 : List α} (nodup : l.Nodup) {a : α} (split : l = l1 ++ a :: l2) :
    succIn l a = l2.head? := by
  subst split
  induction l1 with
  | nil => exact succIn_cons_self a l2
  | cons b l1 ih =>
    obtain ⟨fresh, nodup⟩ := List.nodup_cons.1 nodup
    have different : b ≠ a := fun same => fresh (by simp [same])
    rw [List.cons_append, succIn_cons_ne _ different, ih nodup]

/-- The successor of the reverse is the predecessor. -/
theorem succIn_reverse_eq_some_iff {l : List α} (nodup : l.Nodup) {a b : α} :
    succIn l.reverse b = some a ↔ succIn l a = some b := by
  rw [succIn_eq_some_iff (List.nodup_reverse.2 nodup), succIn_eq_some_iff nodup]
  constructor
  · rintro ⟨l1, l2, h⟩
    exact ⟨l2.reverse, l1.reverse, by simpa using congrArg List.reverse h⟩
  · rintro ⟨l1, l2, rfl⟩
    exact ⟨l2.reverse, l1.reverse, by simp⟩

/-- Appending a new element gives the old last element a successor. -/
theorem succIn_append_singleton {l : List α} {p : α} (nodup : l.Nodup) (fresh : p ∉ l) (a : α) :
    succIn (l ++ [p]) a = if l.getLast? = some a then some p else succIn l a := by
  induction l with
  | nil => by_cases same : p = a <;> simp [succIn, same]
  | cons b l ih =>
    obtain ⟨outside, nodup⟩ := List.nodup_cons.1 nodup
    have fresh' : p ∉ l := fun h => fresh (List.mem_cons_of_mem _ h)
    rw [List.cons_append]
    by_cases same : b = a
    · subst same
      rw [succIn_cons_self, succIn_cons_self]
      cases l with
      | nil => simp
      | cons c l =>
        have : (c :: l).getLast? ≠ some b := fun h => outside (List.mem_of_getLast? h)
        simp [List.getLast?_cons_cons, this]
    · rw [succIn_cons_ne _ same, succIn_cons_ne _ same, ih nodup fresh']
      cases l with
      | nil => simp [same]
      | cons c l => simp [List.getLast?_cons_cons]

/-- Unlinking `p` makes its predecessor point to its successor. -/
theorem succIn_erase {l : List α} (nodup : l.Nodup) (p a : α) :
    succIn (l.erase p) a =
      if a = p then none else if succIn l a = some p then succIn l p else succIn l a := by
  induction l with
  | nil => simp
  | cons b l ih =>
    obtain ⟨outside, nodup⟩ := List.nodup_cons.1 nodup
    by_cases atHead : b = p
    · subst atHead
      rw [List.erase_cons_head]
      by_cases same : a = b
      · subst same; rw [if_pos rfl, succIn_of_not_mem outside]
      · have noPred : succIn l a ≠ some b := by
          intro h
          obtain ⟨l1, l2, rfl⟩ := (succIn_eq_some_iff nodup).1 h
          simp at outside
        rw [if_neg same, succIn_cons_ne _ (Ne.symm same), if_neg noPred]
    · rw [List.erase_cons_tail (by simpa using atHead)]
      by_cases same : b = a
      · subst same
        rw [succIn_cons_self, succIn_cons_self, if_neg atHead, succIn_cons_ne _ atHead]
        cases l with
        | nil => simp
        | cons c l =>
          by_cases next : c = p
          · subst next; simp [succIn_cons_self]
          · rw [List.erase_cons_tail (by simpa using next)]; simp [next]
      · rw [succIn_cons_ne _ same, succIn_cons_ne _ same, succIn_cons_ne _ atHead, ih nodup]

/-- Unlinking `p` moves the head pointer past it. -/
theorem head?_erase (l : List α) (p : α) :
    (l.erase p).head? = if l.head? = some p then succIn l p else l.head? := by
  cases l with
  | nil => simp
  | cons b l =>
    by_cases same : b = p
    · subst same; simp [succIn_cons_self]
    · rw [List.erase_cons_tail (by simpa using same)]; simp [same]

theorem reverse_erase {l : List α} (nodup : l.Nodup) (p : α) : (l.erase p).reverse = l.reverse.erase p := by
  rw [nodup.erase_eq_filter, (List.nodup_reverse.2 nodup).erase_eq_filter, List.filter_reverse]

/-- Which list the two link fields and the two end pointers hold. -/
structure IsDList (next prev : α → Option α) (first last : Option α) (l : List α) : Prop where
  nodup : l.Nodup
  first_eq : first = l.head?
  last_eq : last = l.getLast?
  next_eq : ∀ a, next a = succIn l a
  prev_eq : ∀ a, prev a = succIn l.reverse a

namespace IsDList

variable {next prev : α → Option α} {first last : Option α} {l : List α}

section
variable (h : IsDList next prev first last l)
include h

/-- `prev` is the exact inverse of `next`. -/
theorem prev_iff {a b : α} : prev b = some a ↔ next a = some b := by
  rw [h.prev_eq, h.next_eq, succIn_reverse_eq_some_iff h.nodup]

/-- Following `next` from inside the list goes on through what is left of it. -/
theorem next_split {l1 l2 : List α} {a : α} (split : l = l1 ++ a :: l2) :
    next a = l2.head? := by
  rw [h.next_eq, succIn_split h.nodup split]

/-- Following `prev` goes on through what is left of the reverse. -/
theorem prev_split {l1 l2 : List α} {a : α}
    (split : l.reverse = l1 ++ a :: l2) : prev a = l2.head? := by
  rw [h.prev_eq, succIn_split (List.nodup_reverse.2 h.nodup) split]

theorem next_none {a : α} (outside : a ∉ l) : next a = none := by
  rw [h.next_eq, succIn_of_not_mem outside]

theorem prev_none {a : α} (outside : a ∉ l) : prev a = none := by
  rw [h.prev_eq, succIn_of_not_mem (by simpa using outside)]

theorem first_none_iff : first = none ↔ last = none := by
  rw [h.first_eq, h.last_eq, List.head?_eq_none_iff, List.getLast?_eq_none_iff]

theorem next_ne_self (a : α) : next a ≠ some a := by
  rw [h.next_eq]
  intro loop
  obtain ⟨l1, l2, split⟩ := (succIn_eq_some_iff h.nodup).1 loop
  have nodup := h.nodup
  simp [split, List.nodup_append] at nodup

/-- A member without a predecessor is the first one. -/
theorem prev_none_iff {a : α} (member : a ∈ l) : prev a = none ↔ first = some a := by
  obtain ⟨l1, l2, split⟩ := List.append_of_mem member
  have nodup := h.nodup
  rw [split] at nodup
  rw [h.prev_split (show l.reverse = l2.reverse ++ a :: l1.reverse by simp [split]), h.first_eq, split]
  cases l1 with
  | nil => simp
  | cons b l1 =>
    have ne : b ≠ a := by
      rintro rfl
      simp at nodup
    simp [ne]

end

/-- What the first `n` nodes from `p` are, and the pointer after them. -/
def follow (next : α → Option α) : Nat → Option α → List α × Option α
  | 0, p => ([], p)
  | _ + 1, none => ([], none)
  | n + 1, some a => (a :: (follow next n (next a)).1, (follow next n (next a)).2)

/-- Following `next` from inside the list visits the rest of it and ends in null. -/
theorem follow_rest (h : IsDList next prev first last l) (rest : List α) :
    ∀ {done : List α}, l = done ++ rest → follow next rest.length rest.head? = (rest, none) := by
  induction rest with
  | nil => intro done _; rfl
  | cons a rest ih =>
    intro done split
    have left := @ih (done ++ [a]) (by rw [split]; simp)
    simp only [List.length_cons, List.head?_cons, follow, h.next_split split, left]

theorem follow_first (h : IsDList next prev first last l) : follow next l.length first = (l, none) := by
  rw [h.first_eq]
  exact @follow_rest _ _ _ _ _ _ _ h l [] rfl

/-- Being reachable from the head through `next` is being on the list. -/
theorem reachable_iff (h : IsDList next prev first last l) {p : α} :
    (∃ f, first = some f ∧ Relation.ReflTransGen (fun a b => next a = some b) f p) ↔ p ∈ l := by
  constructor
  · rintro ⟨f, head, path⟩
    rw [h.first_eq] at head
    induction path with
    | refl => exact List.mem_of_mem_head? head
    | tail _ link _ =>
      rw [h.next_eq, succIn_eq_some_iff h.nodup] at link
      obtain ⟨l1, l2, rfl⟩ := link
      simp
  · intro inside
    have walk : ∀ rest done, l = done ++ rest → p ∈ rest → ∃ f, rest.head? = some f ∧
        Relation.ReflTransGen (fun a b => next a = some b) f p := by
      intro rest
      induction rest with
      | nil => intro _ _ inside; cases inside
      | cons a rest ih =>
        intro done split inside
        refine ⟨a, rfl, ?_⟩
        rcases List.mem_cons.1 inside with rfl | inside
        · exact .refl
        · obtain ⟨f, head, path⟩ := ih (done ++ [a]) (by rw [split]; simp) inside
          exact path.head ((h.next_split split).trans head)
    rw [h.first_eq]
    exact walk l [] rfl inside

/-- The empty list: every pointer null. -/
theorem empty (next prev : α → Option α) (noNext : ∀ a, next a = none) (noPrev : ∀ a, prev a = none) :
    IsDList next prev none none [] :=
  ⟨List.nodup_nil, rfl, rfl, noNext, noPrev⟩

section
variable (h : IsDList next prev first last l)
include h

/-- Appending an element off the list: the old last element and the new one are linked. -/
theorem append {p : α} (fresh : p ∉ l) :
    IsDList (fun a => if last = some a then some p else next a)
      (fun a => if a = p then last else prev a) (some (first.getD p)) (some p) (l ++ [p]) where
  nodup := List.nodup_append.2 ⟨h.nodup, List.nodup_singleton p, by
    rintro a inside b hb rfl
    exact fresh (List.mem_singleton.1 hb ▸ inside)⟩
  first_eq := by rw [h.first_eq]; cases l <;> simp
  last_eq := by simp
  next_eq a := by rw [succIn_append_singleton h.nodup fresh, h.last_eq, h.next_eq]
  prev_eq a := by
    rw [List.reverse_append, List.reverse_singleton, List.singleton_append]
    by_cases same : a = p
    · subst same; rw [if_pos rfl, succIn_cons_self, h.last_eq, List.head?_reverse]
    · rw [if_neg same, succIn_cons_ne _ (Ne.symm same), h.prev_eq]

/-- Read backwards, the fields hold the reverse. -/
theorem reverse : IsDList prev next last first l.reverse where
  nodup := List.nodup_reverse.2 h.nodup
  first_eq := by rw [h.last_eq, List.head?_reverse]
  last_eq := by rw [h.first_eq, List.getLast?_reverse]
  next_eq := h.prev_eq
  prev_eq a := by rw [h.next_eq, List.reverse_reverse]

/-- A member without a successor is the last one. -/
theorem next_none_iff {a : α} (member : a ∈ l) : next a = none ↔ last = some a :=
  h.reverse.prev_none_iff (by simpa using member)

/-- Putting an element off the list in front. -/
theorem prepend {p : α} (fresh : p ∉ l) :
    IsDList (fun a => if a = p then first else next a) (fun a => if first = some a then some p else prev a)
      (some p) (some (last.getD p)) (p :: l) := by
  simpa using (h.reverse.append (p := p) (by simpa using fresh)).reverse

/-- Unlinking `p`: its neighbours are linked to each other, its own links become null. -/
theorem erase (p : α) :
    IsDList (fun a => if a = p then none else if next a = some p then next p else next a)
      (fun a => if a = p then none else if prev a = some p then prev p else prev a)
      (if first = some p then next p else first) (if last = some p then prev p else last) (l.erase p) where
  nodup := h.nodup.erase p
  first_eq := by rw [h.first_eq, h.next_eq, head?_erase]
  last_eq := by
    rw [h.last_eq, h.prev_eq, ← List.head?_reverse, ← List.head?_reverse, reverse_erase h.nodup, head?_erase]
  next_eq a := by simp only [h.next_eq]; rw [succIn_erase h.nodup]
  prev_eq a := by
    simp only [h.prev_eq]
    rw [reverse_erase h.nodup, succIn_erase (List.nodup_reverse.2 h.nodup)]

end

end IsDList

end Xv6.Lib
