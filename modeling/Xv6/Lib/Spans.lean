import Mathlib

/-!
# Spans of addresses

Lists of half-open address ranges in rising order with gaps between them, and putting
another range into such a list: ranges that touch become one.
-/

namespace Xv6.Lib

/-- The addresses from `lo` up to `hi`. -/
structure Span where
  lo : Nat
  hi : Nat
  deriving DecidableEq, Repr

namespace Span

def bytes (s : Span) : Set Nat := Set.Ico s.lo s.hi

/-- The addresses of a list of spans. -/
def cover (l : List Span) : Set Nat := {x | ∃ s ∈ l, x ∈ s.bytes}

/-- Rising, with a gap between any two. -/
def Separated (l : List Span) : Prop := l.Pairwise fun s t => s.hi < t.lo

/-- Put a span before a list; if it touches the first span of the list, the two become one. -/
def attach (s : Span) : List Span → List Span
  | [] => [s]
  | t :: l => if s.hi = t.lo then ⟨s.lo, t.hi⟩ :: l else s :: t :: l

variable {s t : Span} {l r : List Span} {x : Nat}

@[simp] theorem mem_bytes : x ∈ s.bytes ↔ s.lo ≤ x ∧ x < s.hi := Iff.rfl

@[simp] theorem cover_nil : cover [] = ∅ := by
  ext x
  simp [cover]

@[simp] theorem cover_cons (s : Span) (l : List Span) : cover (s :: l) = s.bytes ∪ cover l := by
  ext x
  simp [cover]

@[simp] theorem cover_append (l r : List Span) : cover (l ++ r) = cover l ∪ cover r := by
  ext x
  simp [cover, or_and_right, exists_or]

theorem bytes_subset_cover (member : s ∈ l) : s.bytes ⊆ cover l := fun _ inside => ⟨s, member, inside⟩

/-- Disjoint spans that are not empty lie one after the other. -/
theorem apart_of_disjoint (disjoint : Disjoint s.bytes t.bytes) (some_s : s.lo < s.hi) (some_t : t.lo < t.hi) :
    s.hi ≤ t.lo ∨ t.hi ≤ s.lo := by
  rw [Set.disjoint_left] at disjoint
  have first := @disjoint t.lo
  have second := @disjoint s.lo
  simp only [mem_bytes] at first second
  omega

theorem disjoint_of_apart (apart : s.hi ≤ t.lo ∨ t.hi ≤ s.lo) : Disjoint s.bytes t.bytes := by
  rw [Set.disjoint_left]
  intro x inside inside'
  rw [mem_bytes] at inside inside'
  omega

/-- Of two spans of the list one comes first, with a gap after it. -/
theorem Separated.gap (separated : Separated l) (first : s ∈ l) (second : t ∈ l) : s = t ∨ s.hi < t.lo ∨ t.hi < s.lo := by
  induction l with
  | nil => cases first
  | cons u l ih =>
    obtain ⟨before, rest⟩ := List.pairwise_cons.1 separated
    rcases List.mem_cons.1 first with rfl | first' <;> rcases List.mem_cons.1 second with rfl | second'
    · exact Or.inl rfl
    · exact Or.inr (Or.inl (before t second'))
    · exact Or.inr (Or.inr (before s first'))
    · exact ih rest first' second'

theorem bytes_append (le : s.lo ≤ s.hi) (touch : s.hi = t.lo) (le' : t.lo ≤ t.hi) :
    (⟨s.lo, t.hi⟩ : Span).bytes = s.bytes ∪ t.bytes := by
  unfold bytes
  rw [touch] at le
  rw [touch, Set.Ico_union_Ico_eq_Ico le le']

theorem cover_attach (le : s.lo ≤ s.hi) (les : ∀ t ∈ l, t.lo ≤ t.hi) : cover (attach s l) = s.bytes ∪ cover l := by
  cases l with
  | nil => simp [attach]
  | cons t l =>
    rw [attach]
    split
    next touch => rw [cover_cons, cover_cons, bytes_append le touch (les t List.mem_cons_self), Set.union_assoc]
    next => rw [cover_cons]

/-- The spans of the list after `attach`: the old ones but the first, and one that begins where `s` does. -/
theorem mem_attach (member : t ∈ attach s l) : t ∈ l ∨ t.lo = s.lo ∧ (t.hi = s.hi ∨ ∃ u ∈ l, s.hi = u.lo ∧ t.hi = u.hi) := by
  cases l with
  | nil =>
    rw [attach, List.mem_singleton] at member
    exact Or.inr ⟨by rw [member], Or.inl (by rw [member])⟩
  | cons u l =>
    rw [attach] at member
    split at member
    next touch =>
      rcases List.mem_cons.1 member with rfl | member
      · exact Or.inr ⟨rfl, Or.inr ⟨u, List.mem_cons_self, touch, rfl⟩⟩
      · exact Or.inl (List.mem_cons_of_mem u member)
    next =>
      rcases List.mem_cons.1 member with rfl | member
      · exact Or.inr ⟨rfl, Or.inl rfl⟩
      · exact Or.inl member

/-- The first span of the list after `attach`. -/
theorem attach_eq_cons (les : ∀ t ∈ l, t.lo ≤ t.hi) : ∃ t r, attach s l = t :: r ∧ t.lo = s.lo ∧ s.hi ≤ t.hi := by
  cases l with
  | nil => exact ⟨s, [], rfl, rfl, le_rfl⟩
  | cons u l =>
    rw [attach]
    split
    next touch => exact ⟨_, l, rfl, rfl, touch ▸ les u List.mem_cons_self⟩
    next => exact ⟨s, u :: l, rfl, rfl, le_rfl⟩

theorem Separated.attach (separated : Separated l) (above : ∀ t ∈ l, s.hi ≤ t.lo) (les : ∀ t ∈ l, t.lo ≤ t.hi) :
    Separated (attach s l) := by
  cases l with
  | nil => exact List.pairwise_singleton _ _
  | cons t l =>
    obtain ⟨first, rest⟩ := List.pairwise_cons.1 separated
    rw [Span.attach]
    split
    next => exact List.pairwise_cons.2 ⟨first, rest⟩
    next gap =>
      refine List.pairwise_cons.2 ⟨fun u member => ?_, separated⟩
      have touch := above t List.mem_cons_self
      rcases List.mem_cons.1 member with rfl | member
      · omega
      · have := first u member
        have := les t List.mem_cons_self
        omega

end Span

end Xv6.Lib
