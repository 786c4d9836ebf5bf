import Xv6.Umalloc.Free

/-!
# Taking a block from the free list

`malloc` walks once around the circular list. If no block is large enough it has the list
extended, and since `free` leaves the roving pointer before or at the new block, the second
walk ends at a block that is large enough. The block found is unlinked, or the new block is
cut from its end.
-/

namespace Xv6.Umalloc
open Lib

/-! ## Cutting a block -/

/-- The block `new` is cut from the end of the free block `v`, of which `keeps` is left. -/
inductive Carved (v : Span) : Span → List Span → Prop where
  | whole : Carved v v []
  | tail {cut : Nat} (left : v.lo + 8 ≤ cut) (right : cut + 8 ≤ v.hi) : Carved v ⟨cut, v.hi⟩ [⟨v.lo, cut⟩]

section
variable {base n : Nat} {all : Set Nat} {a : Arena} {h : Heap} {v new s : Span} {keeps l r frees' : List Span}

theorem Carved.keep (carved : Carved v new keeps) (solid : v.lo + 8 ≤ v.hi) :
    v.lo ≤ new.lo ∧ new.hi = v.hi ∧ new.lo + 8 ≤ new.hi ∧
      ∀ t ∈ keeps, t.lo = v.lo ∧ t.hi = new.lo ∧ t.lo + 8 ≤ t.hi := by
  cases carved with
  | whole => exact ⟨le_rfl, rfl, solid, fun t member => by cases member⟩
  | @tail cut left right =>
    refine ⟨show v.lo ≤ cut by omega, rfl, right, fun t member => ?_⟩
    rw [List.mem_singleton.1 member]
    exact ⟨rfl, rfl, left⟩

theorem Carved.bytes_eq (carved : Carved v new keeps) : v.bytes = Span.cover keeps ∪ new.bytes := by
  cases carved with
  | whole => rw [Span.cover_nil, Set.empty_union]
  | @tail cut left right =>
    rw [Span.cover_cons, Span.cover_nil, Set.union_empty]
    exact (Set.Ico_union_Ico_eq_Ico (show v.lo ≤ cut by omega) (show cut ≤ v.hi by omega)).symm

theorem Carved.disjoint (carved : Carved v new keeps) : Disjoint (Span.cover keeps) new.bytes := by
  cases carved with
  | whole =>
    rw [Span.cover_nil]
    exact Set.empty_disjoint _
  | tail left right =>
    rw [Span.cover_cons, Span.cover_nil, Set.union_empty]
    exact Span.disjoint_of_apart (Or.inl le_rfl)

/-- **Taking a block keeps the arena sound.** -/
theorem Arena.Sound.carve (sound : a.Sound base all) (split : nodes base a.frees = l ++ s :: v :: r)
    (free : v ∈ a.frees) (carved : Carved v new keeps) (new_ : l ++ s :: (keeps ++ r) = nodes base frees')
    (usable : new.lo + 8 + n ≤ new.hi) : Arena.Sound base all ⟨frees', (new, n) :: a.lives⟩ := by
  obtain ⟨low, hi, room, left⟩ := carved.keep (sound.solid v free)
  have solid := sound.solid v free
  have separated := sound.separated
  rw [split] at separated
  obtain ⟨before, after, cross⟩ := List.pairwise_append.1 separated
  obtain ⟨first, after⟩ := List.pairwise_cons.1 after
  obtain ⟨second, after⟩ := List.pairwise_cons.1 after
  have gap := first v List.mem_cons_self
  have gaps (t : Span) (member : t ∈ keeps ++ r) : t ∈ r ∨ t.lo = v.lo := by
    rcases List.mem_append.1 member with kept | old
    · exact Or.inr (left t kept).1
    · exact Or.inl old
  have whole : Span.Separated (nodes base frees') := by
    rw [← new_]
    refine List.pairwise_append.2 ⟨before, List.pairwise_cons.2 ⟨?_, List.pairwise_append.2 ⟨?_, after, ?_⟩⟩, ?_⟩
    · intro t member
      rcases gaps t member with old | lo
      · exact first t (List.mem_cons_of_mem v old)
      · omega
    · cases carved with
      | whole => exact List.Pairwise.nil
      | tail => exact List.pairwise_singleton _ _
    · intro t kept u old
      have := second u old
      have := left t kept
      omega
    · intro t inside u member
      rcases List.mem_cons.1 member with rfl | member
      · exact cross t inside u List.mem_cons_self
      rcases gaps u member with old | lo
      · exact cross t inside u (by simp [old])
      · have := cross t inside v (by simp)
        omega
  have covered : Span.cover a.frees = Span.cover frees' ∪ new.bytes := by
    rw [← cover_nodes base frees', ← new_, ← cover_nodes base a.frees, split]
    simp only [Span.cover_append, Span.cover_cons, carved.bytes_eq]
    ext x
    simp only [Set.mem_union]
    tauto
  have outside : Disjoint (Span.cover frees') new.bytes := by
    rw [← cover_nodes base frees', ← new_]
    simp only [Span.cover_append, Span.cover_cons, Set.disjoint_union_left]
    refine ⟨?_, Span.disjoint_of_apart (Or.inl (by omega)), carved.disjoint, ?_⟩
    · refine Set.disjoint_left.2 ?_
      rintro x ⟨t, member, inside⟩ inside'
      have := cross t member v (by simp)
      rw [Span.mem_bytes] at inside inside'
      omega
    · refine Set.disjoint_left.2 ?_
      rintro x ⟨t, member, inside⟩ inside'
      have := second t member
      rw [Span.mem_bytes] at inside inside'
      omega
  have disjoint := sound.disjoint
  rw [covered, Set.disjoint_union_left] at disjoint
  have taken : Arena.taken ⟨frees', (new, n) :: a.lives⟩ = new :: a.taken := rfl
  refine ⟨whole, ?_, ?_, ?_, ?_, ?_, sound.bounds⟩
  · intro t member
    have later := (List.pairwise_cons.1 whole).1 t member
    have found : t ∈ l ++ s :: (keeps ++ r) := new_ ▸ List.mem_cons_of_mem _ member
    have old (inside : t ∈ nodes base a.frees) : t.lo + 8 ≤ t.hi := by
      rcases List.mem_cons.1 inside with rfl | free
      · simp at later
      · exact sound.solid t free
    simp only [List.mem_append, List.mem_cons] at found
    rcases found with inside | inside | inside | inside
    · exact old (split ▸ List.mem_append_left _ inside)
    · exact old (split ▸ by simp [inside])
    · exact (left t inside).2.2
    · exact old (split ▸ by simp [inside])
  · rintro p (_ | ⟨_, member⟩)
    · exact usable
    · exact sound.usable p member
  · rw [taken]
    refine List.pairwise_cons.2 ⟨fun t member => ?_, sound.apart⟩
    exact disjoint.2.mono_right (Span.bytes_subset_cover member)
  · rw [taken, Span.cover_cons, Set.disjoint_union_right]
    exact ⟨outside, disjoint.1⟩
  · rw [taken, Span.cover_cons, ← sound.covers, covered, Set.union_assoc]

/-- The block after an element of the free list, if it is not `base`. -/
theorem Represents.exists_after (rep : Represents base h a) {prevp : Nat} (member : prevp ∈ (nodes base a.frees).map Span.lo)
    (other : ptr h.mem prevp ≠ base) : ∃ l s v r, nodes base a.frees = l ++ s :: v :: r ∧ s.lo = prevp ∧
      v.lo = ptr h.mem prevp ∧ v ∈ a.frees := by
  obtain ⟨s, found, rfl⟩ := List.mem_map.1 member
  obtain ⟨l, r, split⟩ := List.append_of_mem found
  have circle := rep.circle
  rw [split, List.map_append, List.map_cons, linked_split] at circle
  obtain ⟨_, rest⟩ := circle
  cases r with
  | nil => exact absurd rest other
  | cons v r =>
    refine ⟨l, s, v, r, split, rfl, rest.1.symm, ?_⟩
    have inside : v ∈ nodes base a.frees := split ▸ by simp
    rcases List.mem_cons.1 inside with rfl | free
    · exact absurd rest.1 other
    · exact free

theorem exists_frees_of_split {frees : List Span} (split : nodes base frees = l ++ s :: r) (r' : List Span) :
    ∃ frees', l ++ s :: r' = nodes base frees' := by
  cases l with
  | nil =>
    obtain ⟨rfl, _⟩ := List.cons.inj split
    exact ⟨r', rfl⟩
  | cons c l =>
    obtain ⟨rfl, _⟩ := List.cons.inj split
    exact ⟨l ++ s :: r', rfl⟩

/-- The memory after a block was taken. -/
structure Taken (base : Nat) (m m' : Bytes) (l : List Span) (s v new : Span) (keeps r : List Span) : Prop where
  carved : Carved v new keeps
  circle : Linked (ptr m') base ((l ++ s :: (keeps ++ r)).map Span.lo) base
  sizes : ∀ t ∈ l ++ s :: (keeps ++ r), Sized m' t
  sized : Sized m' new
  frame : Frame (headerAt s.lo ∪ v.bytes) m m'

/-- The other elements of the free list have their headers outside of a free block. -/
theorem Arena.Sound.node_apart (sound : a.Sound base all) (split : nodes base a.frees = l ++ v :: r) {t : Span}
    (member : t ∈ l ++ r) : Disjoint (headerAt t.lo) v.bytes := by
  have stepped := sound.stepped
  rw [split] at stepped
  obtain ⟨_, after, cross⟩ := List.pairwise_append.1 stepped
  refine Span.disjoint_of_apart (s := ⟨t.lo, t.lo + 8⟩) ?_
  rcases List.mem_append.1 member with inside | inside
  · exact Or.inl (cross t inside v List.mem_cons_self).1
  · exact Or.inr (Nat.le_of_lt ((List.pairwise_cons.1 after).1 t inside).2)

theorem Represents.take_whole (rep : Represents base h a) (sound : a.Sound base all)
    (split : nodes base a.frees = l ++ s :: v :: r) :
    Taken base h.mem (setPtr h.mem s.lo (ptr h.mem v.lo)) l s v v [] r := by
  have stepped := sound.stepped
  rw [split] at stepped
  obtain ⟨_, after, cross⟩ := List.pairwise_append.1 stepped
  have later := (List.pairwise_cons.1 after).1
  have kept (t : Span) (member : t ∈ l ++ v :: r) : ptr (setPtr h.mem s.lo (ptr h.mem v.lo)) t.lo = ptr h.mem t.lo ∧
      size (setPtr h.mem s.lo (ptr h.mem v.lo)) t.lo = size h.mem t.lo := by
    refine setPtr_frame.header (headerAt_disjoint ?_)
    rcases List.mem_append.1 member with inside | inside
    · exact Or.inl (cross t inside s List.mem_cons_self).1
    · exact Or.inr (later t inside).1
  have sizes : ∀ t ∈ l ++ s :: v :: r, Sized h.mem t := split ▸ rep.sizes
  have circle := rep.circle
  rw [split, List.map_append, List.map_cons, linked_split] at circle
  obtain ⟨front, _, back⟩ := circle
  refine ⟨.whole, ?_, ?_, (sizes v (by simp)).congr (kept v (by simp)).2, setPtr_frame.mono Set.subset_union_left⟩
  · rw [List.nil_append, List.map_append, List.map_cons, linked_split, ptr_setPtr (ptr_lt _ _)]
    refine ⟨front.congr fun x member => ?_, back.congr fun x member => ?_⟩
    · obtain ⟨t, inside, rfl⟩ := List.mem_map.1 member
      exact (kept t (by simp [inside])).1
    · obtain ⟨t, inside, rfl⟩ := List.mem_map.1 member
      exact (kept t (by simp [inside])).1
  · intro t member
    simp only [List.nil_append, List.mem_append, List.mem_cons] at member
    rcases member with inside | rfl | inside
    · exact (sizes t (by simp [inside])).congr (kept t (by simp [inside])).2
    · exact (sizes t (by simp)).congr size_setPtr
    · exact (sizes t (by simp [inside])).congr (kept t (by simp [inside])).2

theorem Represents.take_tail (rep : Represents base h a) (sound : a.Sound base all)
    (split : nodes base a.frees = l ++ s :: v :: r) (free : v ∈ a.frees) {nunits : Nat} (some_ : 0 < nunits)
    (more : nunits < size h.mem v.lo) :
    Taken base h.mem (setSize (setSize h.mem v.lo (size h.mem v.lo - nunits)) (v.hi - 8 * nunits) nunits) l s v
      ⟨v.hi - 8 * nunits, v.hi⟩ [⟨v.lo, v.hi - 8 * nunits⟩] r := by
  obtain ⟨_, room, below, _⟩ := sound.free_mem free
  have sizes : ∀ t ∈ l ++ s :: v :: r, Sized h.mem t := split ▸ rep.sizes
  have sized : v.lo + 8 * size h.mem v.lo = v.hi := sizes v (by simp)
  have fits : size h.mem v.lo < 2 ^ 32 := word_lt _ _
  -- both stores are inside of the block
  have frame : Frame v.bytes h.mem
      (setSize (setSize h.mem v.lo (size h.mem v.lo - nunits)) (v.hi - 8 * nunits) nunits) :=
    (setSize_frame.mono (Set.Ico_subset_Ico_right (by omega))).trans
      (setSize_frame.mono (Set.Ico_subset_Ico (by omega) (by omega)))
  have split' : nodes base a.frees = (l ++ [s]) ++ v :: r := by simpa using split
  have kept (t : Span) (member : t ∈ (l ++ [s]) ++ r) := frame.header (sound.node_apart split' member)
  have keptV := (setSize_frame (m := setSize h.mem v.lo (size h.mem v.lo - nunits)) (p := v.hi - 8 * nunits) (v := nunits)).header
    (headerAt_disjoint (p := v.lo) (by omega))
  have circle := rep.circle
  rw [split', List.map_append, List.map_cons, linked_split] at circle
  obtain ⟨front, back⟩ := circle
  refine ⟨.tail (by omega) (by omega), ?_, ?_, ?_, frame.mono Set.subset_union_right⟩
  · rw [show l ++ s :: ([⟨v.lo, v.hi - 8 * nunits⟩] ++ r) = (l ++ [s]) ++ ⟨v.lo, v.hi - 8 * nunits⟩ :: r by simp,
      List.map_append, List.map_cons, linked_split, keptV.1, ptr_setSize]
    refine ⟨front.congr fun x member => ?_, back.congr fun x member => ?_⟩
    · obtain ⟨t, inside, rfl⟩ := List.mem_map.1 member
      exact (kept t (List.mem_append_left r inside)).1
    · obtain ⟨t, inside, rfl⟩ := List.mem_map.1 member
      exact (kept t (List.mem_append_right _ inside)).1
  · intro t member
    simp only [List.mem_append, List.mem_cons, List.not_mem_nil, or_false] at member
    rcases member with inside | rfl | rfl | inside
    · exact (sizes t (by simp [inside])).congr (kept t (by simp [inside])).2
    · exact (sizes t (by simp)).congr (kept t (by simp)).2
    · show v.lo + 8 * _ = v.hi - 8 * nunits
      rw [keptV.2, size_setSize (by omega)]
      omega
    · exact (sizes t (by simp [inside])).congr (kept t (by simp [inside])).2
  · show v.hi - 8 * nunits + 8 * _ = v.hi
    rw [size_setSize (by omega)]
    omega

/-- What `take` does to the memory, and the block it returns. -/
theorem take_eq {nunits : Nat} (rep : Represents base h a) (sound : a.Sound base all)
    (split : nodes base a.frees = l ++ s :: v :: r) (free : v ∈ a.frees) (some_ : 0 < nunits)
    (fits : nunits ≤ size h.mem v.lo) : ∃ m' new keeps,
      take nunits s.lo v.lo h = (new.lo + 8, { h with mem := m', freep := s.lo }) ∧
      Taken base h.mem m' l s v new keeps r ∧ new.lo + 8 * nunits = new.hi := by
  obtain ⟨_, room, below, _⟩ := sound.free_mem free
  have sized : v.lo + 8 * size h.mem v.lo = v.hi := rep.sizes v (split ▸ by simp)
  by_cases exact_ : size h.mem v.lo = nunits
  · refine ⟨_, v, [], ?_, rep.take_whole sound split, by omega⟩
    rw [take, if_pos exact_, plus_eq (by omega)]
  · have less : size h.mem v.lo < 2 ^ 32 := word_lt _ _
    refine ⟨_, _, _, ?_, rep.take_tail sound split free some_ (by omega), ?_⟩
    · rw [take, if_neg exact_]
      dsimp only
      rw [size_setSize (by omega), plus_eq (p := v.lo) (by omega), plus_eq (by omega),
        show v.lo + 8 * (size h.mem v.lo - nunits) = v.hi - 8 * nunits by omega]
    · show v.hi - 8 * nunits + 8 * nunits = v.hi
      omega

/-- A heap in which the blocks are made of what `sbrk` has returned. -/
def Holds (base : Nat) (h : Heap) (a : Arena) : Prop := Represents base h a ∧ a.Sound base (Span.cover h.regions)

/-- `malloc` has returned `r` for `n` bytes: the live blocks are those from before and the new one. -/
structure Gives (base : Nat) (h : Heap) (a : Arena) (n r : Nat) (h' : Heap) : Prop where
  nonnull : r ≠ 0
  live : h'.live = h.live
  undisturbed : Undisturbed a h.mem h'.mem
  holds : ∃ frees' new, Holds base { h' with live := (r, n) :: h'.live } ⟨frees', (new, n) :: a.lives⟩

/-- **Taking a block that is large enough.** -/
theorem take_spec {nunits prevp : Nat} (holds : Holds base h a) (member : prevp ∈ (nodes base a.frees).map Span.lo)
    (some_ : 0 < nunits) (fits : nunits ≤ size h.mem (ptr h.mem prevp)) (enough : n + 8 ≤ 8 * nunits) :
    Gives base h a n (take nunits prevp (ptr h.mem prevp) h).1 (take nunits prevp (ptr h.mem prevp) h).2 := by
  obtain ⟨rep, sound⟩ := holds
  have other : ptr h.mem prevp ≠ base := by
    intro same
    have empty : base + 8 * size h.mem base = base := rep.sizes ⟨base, base⟩ List.mem_cons_self
    rw [same] at fits
    omega
  obtain ⟨l, s, v, r, split, rfl, link, free⟩ := rep.exists_after member other
  rw [← link] at fits ⊢
  obtain ⟨m', new, keeps, is, taken, size⟩ := take_eq rep sound split free some_ fits
  obtain ⟨frees', nodes_⟩ := exists_frees_of_split split (keeps ++ r)
  have node : s ∈ nodes base a.frees := split ▸ by simp
  have apart (t : Span) (member : t ∈ a.taken) : Disjoint t.bytes (headerAt s.lo ∪ v.bytes) := by
    obtain ⟨low, _⟩ := sound.taken_mem member
    have disjoint (u : Span) (inside : u ∈ a.frees) : Disjoint t.bytes u.bytes :=
      sound.disjoint.symm.mono (Span.bytes_subset_cover member) (Span.bytes_subset_cover inside)
    refine Set.disjoint_union_right.2 ⟨?_, disjoint v free⟩
    rcases List.mem_cons.1 node with rfl | inside
    · exact Span.disjoint_of_apart (t := ⟨base, base + 8⟩) (Or.inr low)
    · exact (disjoint s inside).mono_right (Set.Ico_subset_Ico_right (sound.solid s inside))
  rw [is]
  refine ⟨by simp, rfl, fun t member x inside => taken.frame x (Set.disjoint_left.1 (apart t member) inside),
    frees', new, ⟨?_, ?_, ?_, ?_, ?_⟩, sound.carve split free taken.carved nodes_ (by omega)⟩
  · rw [← nodes_]
    exact taken.circle
  · rw [← nodes_]
    exact taken.sizes
  · rintro t (_ | ⟨_, member⟩)
    · exact taken.sized
    · refine (rep.takenSizes t member).congr (taken.frame.header ?_).2
      exact (apart t member).mono_left (Set.Ico_subset_Ico_right (sound.taken_mem member).2.1)
  · rw [← nodes_]
    simp
  · exact congrArg _ rep.live

end

end Xv6.Umalloc
