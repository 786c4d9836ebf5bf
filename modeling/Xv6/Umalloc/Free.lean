import Xv6.Umalloc.Heap
import Xv6.Lib.Linked

/-!
# Putting a block on the free list

What the memory of the allocator means: an arena of free blocks and live blocks, each a
span of addresses that begins with its header. `free` finds the place of a block in the
circular list, wherever the roving pointer is, and links it there; a block that ends where
the next one begins becomes one with it.
-/

namespace Xv6.Umalloc
open Lib

/-! ## Headers in memory -/

/-- The memories agree outside of `S`. -/
def Frame (S : Set Nat) (m m' : Bytes) : Prop := ∀ a ∉ S, m' a = m a

section
variable {m m' m'' : Bytes} {S T : Set Nat} {p v : Nat}

theorem Frame.trans (first : Frame S m m') (second : Frame S m' m'') : Frame S m m'' := fun a outside =>
  (second a outside).trans (first a outside)

theorem Frame.mono (frame : Frame S m m') (sub : S ⊆ T) : Frame T m m' := fun a outside =>
  frame a fun inside => outside (sub inside)

/-- The addresses of a header. -/
def headerAt (p : Nat) : Set Nat := Set.Ico p (p + 8)

theorem headerAt_disjoint {q : Nat} (apart : p + 8 ≤ q ∨ q + 8 ≤ p) : Disjoint (headerAt p) (headerAt q) := by
  rw [Set.disjoint_left]
  rintro a ⟨low, high⟩ ⟨low', high'⟩
  omega

/-- A header away from the changes is as before. -/
theorem Frame.header (frame : Frame S m m') (apart : Disjoint (headerAt p) S) :
    ptr m' p = ptr m p ∧ size m' p = size m p := by
  have same (a : Nat) (low : p ≤ a) (high : a < p + 8) : m' a = m a :=
    frame a (Set.disjoint_left.1 apart ⟨low, high⟩)
  exact ⟨word_congr fun a low high => same a low (by omega), word_congr fun a low high => same a (by omega) (by omega)⟩

theorem setPtr_frame : Frame (headerAt p) m (setPtr m p v) := fun _ outside =>
  setWord_outside fun inside => outside ⟨inside.1, by omega⟩

theorem setSize_frame : Frame (headerAt p) m (setSize m p v) := fun _ outside =>
  setWord_outside fun inside => outside ⟨by omega, by omega⟩

theorem ptr_setPtr (fits : v < 2 ^ 32) : ptr (setPtr m p v) p = v := word_setWord m p fits

theorem size_setPtr : size (setPtr m p v) p = size m p := word_setWord_apart (Or.inl le_rfl)

theorem size_setSize (fits : v < 2 ^ 32) : size (setSize m p v) p = v := word_setWord m (p + 4) fits

theorem ptr_setSize : ptr (setSize m p v) p = ptr m p := word_setWord_apart (Or.inr le_rfl)

theorem ptr_lt (m : Bytes) (p : Nat) : ptr m p < 2 ^ 32 := word_lt m p

theorem plus_eq {n : Nat} (below : p + 8 * n < 2 ^ 32) : plus p n = p + 8 * n := by
  unfold plus sizeofHeader
  omega

theorem header_plus (p : Nat) : header (p + 8) = p := by
  rw [header, sizeofHeader, if_pos (Nat.le_add_left 8 p), Nat.add_sub_cancel]

end

/-! ## The arena -/

/-- The free blocks in rising order, and the live ones with the bytes asked for. -/
structure Arena where
  frees : List Span
  lives : List (Span × Nat)

/-- The live blocks. -/
def Arena.taken (a : Arena) : List Span := a.lives.map Prod.fst

/-- The elements of the free list: `base`, which has no bytes, and the free blocks. -/
def nodes (base : Nat) (frees : List Span) : List Span := ⟨base, base⟩ :: frees

/-- The blocks are made of the memory `all`. -/
structure Arena.Sound (base : Nat) (all : Set Nat) (a : Arena) : Prop where
  separated : Span.Separated (nodes base a.frees)
  solid : ∀ s ∈ a.frees, s.lo + 8 ≤ s.hi
  usable : ∀ l ∈ a.lives, l.1.lo + 8 + l.2 ≤ l.1.hi
  apart : a.taken.Pairwise fun s t => Disjoint s.bytes t.bytes
  disjoint : Disjoint (Span.cover a.frees) (Span.cover a.taken)
  covers : Span.cover a.frees ∪ Span.cover a.taken = all
  bounds : all ⊆ Set.Ico (base + 8) (2 ^ 32 - 1)

/-- The size in the header of a block. -/
def Sized (m : Bytes) (s : Span) : Prop := s.lo + 8 * size m s.lo = s.hi

/-- The memory holds the blocks of the arena. -/
structure Represents (base : Nat) (h : Heap) (a : Arena) : Prop where
  circle : Linked (ptr h.mem) base ((nodes base a.frees).map Span.lo) base
  sizes : ∀ s ∈ nodes base a.frees, Sized h.mem s
  takenSizes : ∀ s ∈ a.taken, Sized h.mem s
  roving : h.freep ∈ (nodes base a.frees).map Span.lo
  live : h.live = a.lives.map fun l => (l.1.lo + 8, l.2)

section
variable {base : Nat} {all : Set Nat} {a : Arena} {s t : Span} {m m' : Bytes} {S : Set Nat}

theorem Arena.Sound.free_mem (sound : a.Sound base all) (member : s ∈ a.frees) :
    base + 8 ≤ s.lo ∧ s.lo + 8 ≤ s.hi ∧ s.hi < 2 ^ 32 ∧ s.bytes ⊆ all := by
  have room := sound.solid s member
  have sub : s.bytes ⊆ all := sound.covers ▸ (Span.bytes_subset_cover member).trans Set.subset_union_left
  have first := sound.bounds (sub (show s.lo ∈ s.bytes from ⟨le_rfl, by omega⟩))
  have last := sound.bounds (sub (show s.hi - 1 ∈ s.bytes from ⟨by omega, by omega⟩))
  exact ⟨first.1, room, by have := last.2; omega, sub⟩

theorem Arena.Sound.taken_mem (sound : a.Sound base all) (member : s ∈ a.taken) :
    base + 8 ≤ s.lo ∧ s.lo + 8 ≤ s.hi ∧ s.hi < 2 ^ 32 ∧ s.bytes ⊆ all := by
  obtain ⟨l, found, rfl⟩ := List.mem_map.1 member
  have room := sound.usable l found
  have sub : l.1.bytes ⊆ all := sound.covers ▸ (Span.bytes_subset_cover member).trans Set.subset_union_right
  have first := sound.bounds (sub (show l.1.lo ∈ l.1.bytes from ⟨le_rfl, by omega⟩))
  have last := sound.bounds (sub (show l.1.hi - 1 ∈ l.1.bytes from ⟨by omega, by omega⟩))
  exact ⟨first.1, by omega, by have := last.2; omega, sub⟩

theorem Sized.congr (sized : Sized m s) (same : size m' s.lo = size m s.lo) : Sized m' s := by
  rw [Sized, same]
  exact sized

end

/-! ## Linking two blocks -/

section
variable {m : Bytes} {x v e : Nat} {y : Bytes → Nat} {b : Span} {r : List Span}

theorem join_frame (m : Bytes) (x : Nat) (y : Bytes → Nat) : Frame (headerAt x) m (join m x y) := by
  unfold join
  split
  next => exact setSize_frame.trans setPtr_frame
  next => exact setPtr_frame

/-- **Linking a block before a list.** -/
theorem join_linked (linked : Linked (ptr m) v (r.map Span.lo) e) (sized : Sized m b) (sizes : ∀ t ∈ r, Sized m t)
    (above : ∀ t ∈ r, b.lo + 8 ≤ t.lo) (below : ∀ t ∈ r, t.hi < 2 ^ 32) (below' : b.hi < 2 ^ 32) (other : r = [] → b.hi ≠ e)
    (fits : v < 2 ^ 32) (stable : ∀ m', Frame (headerAt b.lo) m m' → y m' = v) :
    Linked (ptr (join m b.lo y)) b.lo ((b.attach r).map Span.lo) e ∧ ∀ t ∈ b.attach r, Sized (join m b.lo y) t := by
  have now : y m = v := stable m fun _ _ => rfl
  have later : y (setSize m b.lo (size m b.lo + size m v)) = v := stable _ setSize_frame
  have kept (t : Span) (member : t ∈ r) : ptr (join m b.lo y) t.lo = ptr m t.lo ∧ size (join m b.lo y) t.lo = size m t.lo :=
    (join_frame m b.lo y).header (headerAt_disjoint (Or.inr (above t member)))
  have ends : plus b.lo (size m b.lo) = b.hi := (plus_eq (sized.trans_lt below')).trans sized
  cases r with
  | nil =>
    have here : v = e := linked
    have is : join m b.lo y = setPtr m b.lo e := by rw [join, now, here, if_neg (ends.trans_ne (other rfl))]
    rw [here] at fits
    rw [is]
    refine ⟨⟨rfl, ptr_setPtr fits⟩, fun t member => ?_⟩
    rw [List.mem_singleton.1 member]
    exact sized.congr size_setPtr
  | cons t r =>
    obtain ⟨here, rest⟩ := linked
    have here : v = t.lo := here
    subst here
    have tSized := sizes t List.mem_cons_self
    have tBelow := below t List.mem_cons_self
    have rest' : Linked (ptr (join m b.lo y)) (ptr m t.lo) (r.map Span.lo) e := by
      refine rest.congr fun x member => ?_
      obtain ⟨u, found, rfl⟩ := List.mem_map.1 member
      exact (kept u (List.mem_cons_of_mem t found)).1
    rw [Span.attach]
    split
    next touch =>
      have is : join m b.lo y = setPtr (setSize m b.lo (size m b.lo + size m t.lo)) b.lo (ptr m t.lo) := by
        rw [join, now, if_pos (ends.trans touch)]
        dsimp only
        rw [later, (setSize_frame.header (headerAt_disjoint (Or.inr (above t List.mem_cons_self)))).1]
      unfold Sized at sized tSized
      refine ⟨⟨rfl, ?_⟩, fun u member => ?_⟩
      · have link : ptr (join m b.lo y) b.lo = ptr m t.lo := by rw [is, ptr_setPtr (ptr_lt m _)]
        rw [link]
        exact rest'
      · rcases List.mem_cons.1 member with rfl | member
        · show b.lo + 8 * size (join m b.lo y) b.lo = t.hi
          rw [is, size_setPtr, size_setSize (by omega)]
          omega
        · exact (sizes u (List.mem_cons_of_mem t member)).congr (kept u (List.mem_cons_of_mem t member)).2
    next gap =>
      have is : join m b.lo y = setPtr m b.lo t.lo := by rw [join, now, if_neg (ends.trans_ne gap)]
      refine ⟨⟨rfl, ?_⟩, fun u member => ?_⟩
      · have link : ptr (join m b.lo y) b.lo = t.lo := by rw [is, ptr_setPtr fits]
        rw [link]
        exact ⟨rfl, (kept t List.mem_cons_self).1 ▸ rest'⟩
      · rcases List.mem_cons.1 member with rfl | member
        · exact sized.congr (by rw [is, size_setPtr])
        · exact (sizes u member).congr (kept u member).2

end

/-! ## Finding the place -/

/-- `x` is the last address of the list below `bp`. -/
def LastBelow (bp : Nat) (l : List Nat) (x : Nat) : Prop := x ∈ l ∧ x < bp ∧ ∀ y ∈ l, y < bp → y ≤ x

section
variable {m : Bytes} {bp p q x e base : Nat} {l vs : List Nat}

theorem LastBelow.unique {y : Nat} (first : LastBelow bp l x) (second : LastBelow bp l y) : x = y :=
  Nat.le_antisymm (second.2.2 x first.1 first.2.1) (first.2.2 y second.1 second.2.1)

theorem exists_lastBelow (bp : Nat) (member : p ∈ l) (below : p < bp) : ∃ x, LastBelow bp l x := by
  have found : p ∈ l.filter (· < bp) := List.mem_filter.2 ⟨member, by simpa using below⟩
  obtain ⟨x, is⟩ := Option.isSome_iff_exists.1 (List.isSome_max?_of_mem found)
  obtain ⟨inside, greatest⟩ := List.max?_eq_some_iff.1 is
  obtain ⟨mem, lt⟩ := List.mem_filter.1 inside
  refine ⟨x, mem, by simpa using lt, fun y other below => greatest y (List.mem_filter.2 ⟨other, by simpa using below⟩)⟩

/-- **The loop of `free` ends at the last block below**, also at the wrap point. -/
theorem stops_iff (circle : Linked (ptr m) base l base) (rising : l.Pairwise (· < ·)) (least : ∀ y ∈ l, base ≤ y)
    (above : base < bp) (other : bp ∉ l) (member : x ∈ l) : Stops m bp x ↔ LastBelow bp l x := by
  obtain ⟨before, after, rfl⟩ := List.append_of_mem member
  obtain ⟨_, rest⟩ := linked_split.1 circle
  obtain ⟨_, tail, cross⟩ := List.pairwise_append.1 rising
  obtain ⟨later, _⟩ := List.pairwise_cons.1 tail
  have low := least x member
  have smaller (y : Nat) (found : y ∈ before) : y < x := cross y found x List.mem_cons_self
  unfold Stops LastBelow
  cases after with
  | nil =>
    have link : ptr m x = base := rest
    rw [link]
    constructor
    · intro stops
      have lt : x < bp := by omega
      refine ⟨member, lt, fun y found _ => ?_⟩
      rcases List.mem_append.1 found with found | found
      · exact Nat.le_of_lt (smaller y found)
      · exact Nat.le_of_eq (List.mem_singleton.1 found)
    · rintro ⟨_, lt, _⟩
      exact Or.inr ⟨low, Or.inl lt⟩
  | cons z after =>
    have link : ptr m x = z := rest.1
    have lt := later z List.mem_cons_self
    rw [link]
    constructor
    · intro stops
      have between : x < bp ∧ bp < z := by omega
      refine ⟨member, between.1, fun y found below => ?_⟩
      rcases List.mem_append.1 found with found | found
      · exact Nat.le_of_lt (smaller y found)
      rcases List.mem_cons.1 found with rfl | found
      · exact le_rfl
      rcases List.mem_cons.1 found with rfl | found
      · omega
      · have := (List.pairwise_cons.1 (List.pairwise_cons.1 tail).2).1 y found
        omega
    · rintro ⟨_, below, greatest⟩
      have found : z ∈ before ++ x :: z :: after := by simp
      have ne : z ≠ bp := fun same => other (same ▸ found)
      have := greatest z found
      exact Or.inl ⟨below, by omega⟩

theorem findPrev_walk (linked : Linked (ptr m) p vs e) (member : q ∈ vs) (stops : ∀ x ∈ vs, Stops m bp x ↔ x = q)
    {rounds : Nat} (enough : vs.length ≤ rounds) : findPrev rounds m bp p = some q := by
  induction vs generalizing p rounds with
  | nil => cases member
  | cons c vs ih =>
    obtain ⟨rfl, rest⟩ := linked
    obtain ⟨rounds, rfl⟩ : ∃ n, rounds = n + 1 := ⟨rounds - 1, by simp at enough; omega⟩
    rw [findPrev]
    split
    next here => rw [(stops p List.mem_cons_self).1 here]
    next go =>
      have other : p ≠ q := fun same => go ((stops p List.mem_cons_self).2 same)
      refine ih rest ((List.mem_cons.1 member).resolve_left fun same => other same.symm) ?_ (by simpa using enough)
      exact fun x found => stops x (List.mem_cons_of_mem p found)

end

/-! ## `free` -/

section
variable {base : Nat} {all : Set Nat} {a : Arena} {h : Heap}

theorem Arena.Sound.stepped (sound : a.Sound base all) :
    (nodes base a.frees).Pairwise fun s t => s.lo + 8 ≤ t.lo ∧ s.hi < t.lo := by
  obtain ⟨first, rest⟩ := List.pairwise_cons.1 sound.separated
  refine List.pairwise_cons.2 ⟨fun t member => ⟨(sound.free_mem member).1, first t member⟩, ?_⟩
  refine rest.imp_of_mem fun {s t} member _ gap => ⟨?_, gap⟩
  have := sound.solid s member
  omega

theorem Arena.Sound.rising (sound : a.Sound base all) : ((nodes base a.frees).map Span.lo).Pairwise (· < ·) := by
  rw [List.pairwise_map]
  exact sound.stepped.imp fun step => by omega

theorem Arena.Sound.least (sound : a.Sound base all) : ∀ x ∈ (nodes base a.frees).map Span.lo, base ≤ x := by
  intro x member
  obtain ⟨s, found, rfl⟩ := List.mem_map.1 member
  rcases List.mem_cons.1 found with rfl | inside
  · exact le_rfl
  · have := (sound.free_mem inside).1
    omega

/-- A block of fresh memory, its header filled in. -/
structure Loose (base : Nat) (all : Set Nat) (h : Heap) (b : Span) : Prop where
  sized : Sized h.mem b
  room : b.lo + 8 ≤ b.hi
  fresh : Disjoint b.bytes all
  above : base + 8 ≤ b.lo
  below : b.hi < 2 ^ 32

theorem Loose.apart {b s : Span} (loose : Loose base all h b) (inside : s.bytes ⊆ all) (some_ : s.lo < s.hi) :
    b.hi ≤ s.lo ∨ s.hi ≤ b.lo :=
  Span.apart_of_disjoint (loose.fresh.mono_right inside) (by have := loose.room; omega) some_

/-- The block `b` belongs between `s` and `r`. -/
structure Place (base : Nat) (frees : List Span) (b : Span) (l : List Span) (s : Span) (r : List Span) : Prop where
  split : nodes base frees = l ++ s :: r
  last : LastBelow b.lo ((nodes base frees).map Span.lo) s.lo
  before : s.hi ≤ b.lo
  header : s.lo + 8 ≤ b.lo
  after : ∀ t ∈ r, b.hi ≤ t.lo

variable {b s : Span} {l r frees' : List Span}

theorem Loose.free_apart (loose : Loose base all h b) (sound : a.Sound base all) (member : s ∈ a.frees) :
    b.hi ≤ s.lo ∨ s.hi ≤ b.lo := by
  obtain ⟨_, room, _, inside⟩ := sound.free_mem member
  exact loose.apart inside (by omega)

theorem Loose.exists_place (loose : Loose base all h b) (sound : a.Sound base all) :
    ∃ l s r, Place base a.frees b l s r := by
  have low := loose.above
  have room := loose.room
  obtain ⟨q, last⟩ := exists_lastBelow (l := (nodes base a.frees).map Span.lo) (p := base) b.lo
    (List.mem_cons_self) (by omega)
  obtain ⟨s, member, rfl⟩ := List.mem_map.1 last.1
  obtain ⟨l, r, split⟩ := List.append_of_mem member
  have below := last.2.1
  have before : s.hi ≤ b.lo ∧ s.lo + 8 ≤ b.lo := by
    rcases List.mem_cons.1 member with rfl | inside
    · exact ⟨show base ≤ b.lo by omega, low⟩
    · have := sound.solid s inside
      have := loose.free_apart sound inside
      omega
  refine ⟨l, s, r, split, last, before.1, before.2, fun t inside => ?_⟩
  have rest := (List.pairwise_append.1 (split ▸ sound.stepped)).2.1
  have later := ((List.pairwise_cons.1 rest).1 t inside).1
  have found : t ∈ nodes base a.frees := split ▸ List.mem_append_right l (List.mem_cons_of_mem s inside)
  have notBelow := last.2.2 t.lo (List.mem_map_of_mem found)
  rcases List.mem_cons.1 found with rfl | free
  · have := sound.least s.lo (List.mem_map_of_mem member)
    simp at later
    omega
  · have := sound.solid t free
    have := loose.free_apart sound free
    omega

/-- The free list stays one that begins with `base`. -/
theorem Place.exists_frees (place : Place base a.frees b l s r) (loose : Loose base all h b)
    (les : ∀ t ∈ r, t.lo ≤ t.hi) : ∃ frees', l ++ s.attach (b.attach r) = nodes base frees' := by
  cases l with
  | nil =>
    have first : s = ⟨base, base⟩ := (List.cons.inj place.split).1.symm
    obtain ⟨t, r', is, lo, _⟩ := Span.attach_eq_cons (s := b) les
    refine ⟨b.attach r, ?_⟩
    have gap : s.hi ≠ t.lo := by
      have := loose.above
      rw [first, lo]
      simp
      omega
    rw [List.nil_append, is, Span.attach, if_neg gap, first]
    rfl
  | cons c l =>
    obtain ⟨rfl, _⟩ := List.cons.inj place.split
    exact ⟨l ++ s.attach (b.attach r), rfl⟩

theorem cover_nodes (base : Nat) (frees : List Span) : Span.cover (nodes base frees) = Span.cover frees := by
  have none : (⟨base, base⟩ : Span).bytes = ∅ := Set.Ico_self base
  rw [nodes, Span.cover_cons, none, Set.empty_union]

/-- The elements of the free list are not the other way round. -/
theorem Arena.Sound.node_le (sound : a.Sound base all) (member : s ∈ nodes base a.frees) : s.lo ≤ s.hi := by
  rcases List.mem_cons.1 member with rfl | inside
  · exact le_rfl
  · have := sound.solid s inside
    omega

theorem Place.mem_right (place : Place base a.frees b l s r) {t : Span} (member : t ∈ s :: r) :
    t ∈ nodes base a.frees := place.split ▸ List.mem_append_right l member

/-- **Inserting a block keeps the arena sound.** -/
theorem Arena.Sound.insert (sound : a.Sound base all) (loose : Loose base all h b) (place : Place base a.frees b l s r)
    (new : l ++ s.attach (b.attach r) = nodes base frees') :
    Arena.Sound base (all ∪ b.bytes) { a with frees := frees' } := by
  have room := loose.room
  have les : ∀ t ∈ r, t.lo ≤ t.hi := fun t member => sound.node_le (place.mem_right (List.mem_cons_of_mem s member))
  obtain ⟨left, right, cross⟩ := List.pairwise_append.1 (place.split ▸ sound.separated)
  have right := List.pairwise_cons.1 right
  have les' : ∀ t ∈ b.attach r, b.lo ≤ t.lo ∧ t.lo + 8 ≤ t.hi ∨ t ∈ r := by
    intro t member
    rcases Span.mem_attach member with old | ⟨lo, same | ⟨u, inside, touch, hi⟩⟩
    · exact Or.inr old
    · exact Or.inl (by omega)
    · have := les u inside
      exact Or.inl (by omega)
  have middle : Span.Separated (b.attach r) := Span.Separated.attach right.2 place.after les
  have above : ∀ t ∈ b.attach r, s.hi ≤ t.lo ∧ t.lo ≤ t.hi := by
    intro t member
    have := place.before
    rcases les' t member with fresh | old
    · omega
    · have := place.after t old
      have := les t old
      omega
  have whole : Span.Separated (nodes base frees') := by
    rw [← new]
    refine List.pairwise_append.2 ⟨left, Span.Separated.attach middle (fun t m => (above t m).1) fun t m => (above t m).2, ?_⟩
    intro t inside u member
    have gap := cross t inside s List.mem_cons_self
    have := sound.node_le (place.mem_right List.mem_cons_self)
    rcases Span.mem_attach member with old | ⟨lo, _⟩
    · have := (above u old).1
      omega
    · omega
  have covered : Span.cover frees' = Span.cover a.frees ∪ b.bytes := by
    rw [← cover_nodes base frees', ← new, ← cover_nodes base a.frees, place.split, Span.cover_append, Span.cover_append,
      Span.cover_cons, Span.cover_attach (sound.node_le (place.mem_right List.mem_cons_self)) fun t m => (above t m).2,
      Span.cover_attach (by omega) les]
    ext x
    simp only [Set.mem_union]
    tauto
  refine ⟨whole, ?_, sound.usable, sound.apart, ?_, ?_, ?_⟩
  · intro t member
    have later := (List.pairwise_cons.1 whole).1 t member
    have found : t ∈ l ++ s.attach (b.attach r) := new ▸ List.mem_cons_of_mem _ member
    have old (inside : t ∈ nodes base a.frees) : t.lo + 8 ≤ t.hi := by
      rcases List.mem_cons.1 inside with rfl | free
      · simp at later
      · exact sound.solid t free
    rcases List.mem_append.1 found with inside | inside
    · exact old (place.split ▸ List.mem_append_left _ inside)
    · rcases Span.mem_attach inside with inside | ⟨lo, same | ⟨u, inside, touch, hi⟩⟩
      · rcases les' t inside with fresh | inside
        · omega
        · exact old (place.mem_right (List.mem_cons_of_mem s inside))
      · have is : t = s := by
          cases t
          cases s
          simp_all
        exact old (is ▸ place.mem_right List.mem_cons_self)
      · have := (above u inside).2
        have node := place.mem_right (show s ∈ s :: r from List.mem_cons_self)
        rcases List.mem_cons.1 node with rfl | free
        · rw [lo] at later
          simp at later
        · have := sound.solid s free
          omega
  · rw [covered, Set.disjoint_union_left]
    refine ⟨sound.disjoint, loose.fresh.mono_right ?_⟩
    rw [← sound.covers]
    exact Set.subset_union_right
  · rw [covered, ← sound.covers]
    show _ ∪ Span.cover a.taken = _
    ext x
    simp only [Set.mem_union]
    tauto
  · refine Set.union_subset sound.bounds fun x inside => ?_
    rw [Span.mem_bytes] at inside
    have := loose.above
    have := loose.below
    exact ⟨by omega, by omega⟩

/-- The new block is part of a free block. -/
theorem Place.exists_around (place : Place base a.frees b l s r) (sound : a.Sound base all) (loose : Loose base all h b)
    (new : l ++ s.attach (b.attach r) = nodes base frees') : ∃ t ∈ frees', t.lo ≤ b.lo ∧ b.hi ≤ t.hi := by
  have room := loose.room
  have low := loose.above
  obtain ⟨t, r', is, lo, hi⟩ := Span.attach_eq_cons (s := b)
    fun t member => sound.node_le (place.mem_right (List.mem_cons_of_mem s member))
  have found : ∃ u ∈ l ++ s.attach (b.attach r), u.lo ≤ b.lo ∧ b.hi ≤ u.hi := by
    rw [is, Span.attach]
    split
    next => exact ⟨⟨s.lo, t.hi⟩, by simp, by have := place.header; show s.lo ≤ b.lo; omega, hi⟩
    next => exact ⟨t, by simp, le_of_eq lo, hi⟩
  obtain ⟨u, member, around⟩ := found
  rcases List.mem_cons.1 (new ▸ member) with rfl | free
  · have around : base ≤ b.lo ∧ b.hi ≤ base := around
    omega
  · exact ⟨u, free, around⟩

theorem Place.findPrev (place : Place base a.frees b l s r) (rep : Represents base h a) (sound : a.Sound base all)
    (loose : Loose base all h b) {rounds : Nat} (enough : a.frees.length < rounds) :
    findPrev rounds h.mem b.lo h.freep = some s.lo := by
  have other : b.lo ∉ (nodes base a.frees).map Span.lo := by
    intro member
    obtain ⟨t, found, same⟩ := List.mem_map.1 member
    have := loose.above
    have := loose.room
    rcases List.mem_cons.1 found with rfl | free
    · simp at same
      omega
    · have := sound.solid t free
      have := loose.free_apart sound free
      omega
  obtain ⟨before, after, whole⟩ := List.append_of_mem rep.roving
  have circle := rep.circle
  rw [whole] at circle
  have walk : Linked (ptr h.mem) h.freep (h.freep :: (after ++ before)) h.freep := ⟨rfl, circle.rotate⟩
  have same (x : Nat) : x ∈ h.freep :: (after ++ before) ↔ x ∈ (nodes base a.frees).map Span.lo := by
    rw [whole]
    simp only [List.mem_cons, List.mem_append]
    tauto
  refine findPrev_walk walk ((same _).2 place.last.1) (fun x member => ?_) ?_
  · have member := (same x).1 member
    rw [stops_iff rep.circle sound.rising sound.least (by have := loose.above; omega) other member]
    exact ⟨fun last => last.unique place.last, fun is => is ▸ place.last⟩
  · have length := congrArg List.length whole
    simp [nodes] at length
    simp
    omega

/-- The memory after the two stores of `free`. -/
theorem Place.linked (place : Place base a.frees b l s r) (rep : Represents base h a) (sound : a.Sound base all)
    (loose : Loose base all h b) {m : Bytes} (is : m = join (join h.mem b.lo fun m => ptr m s.lo) s.lo fun _ => b.lo) :
    Linked (ptr m) base ((l ++ s.attach (b.attach r)).map Span.lo) base ∧
      (∀ t ∈ l ++ s.attach (b.attach r), Sized m t) ∧ Frame (headerAt s.lo ∪ headerAt b.lo) h.mem m := by
  have room := loose.room
  have low := loose.above
  have step := place.header
  have les : ∀ t ∈ r, t.lo ≤ t.hi := fun t member => sound.node_le (place.mem_right (List.mem_cons_of_mem s member))
  have below : ∀ t ∈ r, t.hi < 2 ^ 32 := by
    intro t member
    have := place.after t member
    rcases List.mem_cons.1 (place.mem_right (List.mem_cons_of_mem s member)) with rfl | free
    · have : b.hi ≤ base := this
      omega
    · exact (sound.free_mem free).2.2.1
  have circle := rep.circle
  rw [place.split, List.map_append, List.map_cons, linked_split] at circle
  obtain ⟨front, back⟩ := circle
  have sizes : ∀ t ∈ l ++ s :: r, Sized h.mem t := place.split ▸ rep.sizes
  -- the block before the rest of the list
  obtain ⟨back1, sizes1⟩ := join_linked (y := fun m => ptr m s.lo) back loose.sized
    (fun t member => sizes t (by simp [member])) (fun t member => by have := place.after t member; omega) below
    loose.below (fun _ => by omega) (ptr_lt _ _) fun m' frame => (frame.header (headerAt_disjoint (by omega))).1
  have frame1 := join_frame h.mem b.lo fun m => ptr m s.lo
  -- and the one before it
  have sized : Sized (join h.mem b.lo fun m => ptr m s.lo) s :=
    (sizes s (by simp)).congr (frame1.header (headerAt_disjoint (by omega))).2
  have mem1 : ∀ t ∈ b.attach r, b.lo ≤ t.lo ∧ t.hi < 2 ^ 32 := by
    intro t member
    have := loose.below
    rcases Span.mem_attach member with old | ⟨lo, same | ⟨u, inside, touch, hi⟩⟩
    · have := place.after t old
      have := below t old
      omega
    · omega
    · have := below u inside
      omega
  obtain ⟨back2, sizes2⟩ := join_linked (y := fun _ => b.lo) back1 sized sizes1
    (fun t member => by have := (mem1 t member).1; omega) (fun t member => (mem1 t member).2)
    (by have := place.before; have := loose.below; omega)
    (fun none => by obtain ⟨t, r', is, _⟩ := Span.attach_eq_cons (s := b) les; rw [is] at none; cases none)
    (by have := loose.below; omega) fun _ _ => rfl
  have frame2 := join_frame (join h.mem b.lo fun m => ptr m s.lo) s.lo fun _ => b.lo
  rw [← is] at back2 sizes2 frame2
  have frame : Frame (headerAt s.lo ∪ headerAt b.lo) h.mem m :=
    (frame1.mono Set.subset_union_right).trans (frame2.mono Set.subset_union_left)
  have kept (t : Span) (member : t ∈ l) : ptr m t.lo = ptr h.mem t.lo ∧ size m t.lo = size h.mem t.lo := by
    have earlier := (List.pairwise_append.1 (place.split ▸ sound.stepped)).2.2 t member s List.mem_cons_self
    refine frame.header (Set.disjoint_union_right.2 ⟨headerAt_disjoint (by omega), headerAt_disjoint (by omega)⟩)
  refine ⟨?_, ?_, frame⟩
  · rw [List.map_append]
    refine Linked.append (front.congr fun x member => ?_) back2
    obtain ⟨t, found, rfl⟩ := List.mem_map.1 member
    exact (kept t found).1
  · intro t member
    rcases List.mem_append.1 member with old | new
    · exact (sizes t (by simp [old])).congr (kept t old).2
    · exact sizes2 t new

/-- What `free` and `malloc` leave alone. -/
def Undisturbed (a : Arena) (m m' : Bytes) : Prop := ∀ s ∈ a.taken, ∀ x ∈ s.bytes, m' x = m x

/-- **`free` puts a block on the free list.** -/
theorem free_spec (rep : Represents base h a) (sound : a.Sound base all) (loose : Loose base all h b) :
    ∃ h' frees', (∀ rounds, a.frees.length < rounds → free rounds (b.lo + 8) h = some h') ∧
      h'.regions = h.regions ∧ Undisturbed a h.mem h'.mem ∧
      Represents base h' { a with frees := frees' } ∧ Arena.Sound base (all ∪ b.bytes) { a with frees := frees' } ∧
      ∃ t ∈ frees', t.lo ≤ b.lo ∧ b.hi ≤ t.hi := by
  have room := loose.room
  obtain ⟨l, s, r, place⟩ := loose.exists_place sound
  have les : ∀ t ∈ r, t.lo ≤ t.hi := fun t member => sound.node_le (place.mem_right (List.mem_cons_of_mem s member))
  have les' : ∀ t ∈ b.attach r, t.lo ≤ t.hi := by
    intro t member
    rcases Span.mem_attach member with old | ⟨lo, same | ⟨u, inside, touch, hi⟩⟩
    · exact les t old
    · omega
    · have := les u inside
      omega
  obtain ⟨frees', new⟩ := place.exists_frees loose les
  obtain ⟨circle, sizes, frame⟩ := place.linked rep sound loose rfl
  have apart (t : Span) (member : t ∈ a.taken) : Disjoint t.bytes (headerAt s.lo ∪ headerAt b.lo) := by
    obtain ⟨low, room', _, inside⟩ := sound.taken_mem member
    refine Set.disjoint_union_right.2 ⟨?_, ?_⟩
    · rcases List.mem_cons.1 (place.mem_right List.mem_cons_self) with rfl | free
      · exact Span.disjoint_of_apart (t := ⟨base, base + 8⟩) (Or.inr low)
      · have := sound.solid s free
        refine Disjoint.mono_right ?_ (sound.disjoint.symm.mono (Span.bytes_subset_cover member) (Span.bytes_subset_cover free))
        exact Set.Ico_subset_Ico_right this
    · exact (loose.fresh.symm.mono_left inside).mono_right (Set.Ico_subset_Ico_right room)
  have undisturbed : Undisturbed a h.mem _ := fun t member x inside =>
    frame x (Set.disjoint_left.1 (apart t member) inside)
  refine ⟨{ h with mem := join (join h.mem b.lo fun m => ptr m s.lo) s.lo fun _ => b.lo, freep := s.lo }, frees',
    fun rounds enough => ?_, ?_, undisturbed, ⟨?_, ?_, ?_, ?_, ?_⟩, sound.insert loose place new,
    place.exists_around sound loose new⟩
  · rw [free, header_plus]
    simp only [place.findPrev rep sound loose enough]
  · rfl
  · rw [← new]
    exact circle
  · rw [← new]
    exact sizes
  · intro t member
    refine (rep.takenSizes t member).congr (frame.header ?_).2
    refine (apart t member).mono_left (Set.Ico_subset_Ico_right ?_)
    exact (sound.taken_mem member).2.1
  · rw [← new, List.map_append]
    refine List.mem_append_right _ ?_
    obtain ⟨t, r', is, lo, _⟩ := Span.attach_eq_cons (s := s) (l := b.attach r) les'
    rw [is, List.map_cons, lo]
    exact List.mem_cons_self
  · exact rep.live

end

end Xv6.Umalloc
