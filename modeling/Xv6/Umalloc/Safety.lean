import Xv6.Umalloc.Search

/-!
# Safety of the user heap

Over every run of a program that calls `malloc` and `free` and stores where it may: the
free list is a circle through `base` in rising order, no two free blocks touch, the free
and the live blocks divide up what `sbrk` has returned, every live block has the bytes that
were asked for, and every call returns.
-/

namespace Xv6.Umalloc
open Lib

/-! ## What is shown -/

/-- The block whose header is at `p`. -/
def block (m : Bytes) (p : Nat) : Span := ⟨p, p + 8 * size m p⟩

/-- The free list: a circle through `base`, in rising order up to the one link that leads back to `base`. -/
structure FreeList (base : Nat) (h : Heap) (frees : List Nat) : Prop where
  circle : Linked (ptr h.mem) base (base :: frees) base
  rising : (base :: frees).Pairwise (· < ·)
  roving : h.freep ∈ base :: frees
  coalesced : ∀ p ∈ frees, ∀ q ∈ frees, (block h.mem p).hi ≠ q

/-- The headers of the live blocks. -/
def Heap.heads (h : Heap) : List Nat := h.live.map fun l => header l.1

/-- The free and the live blocks are disjoint, and together they are what `sbrk` has returned. -/
structure Partition (h : Heap) (frees : List Nat) : Prop where
  disjoint : ((frees ++ h.heads).map (block h.mem)).Pairwise fun s t => Disjoint s.bytes t.bytes
  covers : Span.cover ((frees ++ h.heads).map (block h.mem)) = Span.cover h.regions

/-- Every live block has at least the bytes that were asked for. -/
def Usable (h : Heap) : Prop := ∀ l ∈ h.live, l.1 + l.2 ≤ (block h.mem (header l.1)).hi

/-- The allocator has not been called yet. -/
def Idle (h : Heap) : Prop := h.freep = 0 ∧ h.regions = [] ∧ h.live = []

def Safe (base : Nat) (h : Heap) : Prop :=
  Idle h ∨ ∃ frees, FreeList base h frees ∧ Partition h frees ∧ Usable h

/-- Every call returns: `malloc` without calling `sbrk`, or after one call, whatever the answer. -/
structure CallsReturn (base : Nat) (h : Heap) : Prop where
  malloc : ∀ n < 2 ^ 30, (∃ rounds h', step base h (.malloc rounds n []) = some h') ∨
    ∀ answer : Answer, answer.Allowed base h (atLeast (units n) * sizeofHeader) →
      ∃ rounds h', step base h (.malloc rounds n [answer]) = some h'
  free : ∀ l ∈ h.live, ∃ rounds h', step base h (.free rounds l.1) = some h'

/-! ## Arenas are safe -/

section
variable {base n r : Nat} {all : Set Nat} {a : Arena} {h h' : Heap} {s t : Span}

theorem Sized.block_eq {m : Bytes} (sized : Sized m s) : block m s.lo = s := by
  rw [block, sized]

theorem Holds.heads_eq (holds : Holds base h a) : h.heads = a.taken.map Span.lo := by
  rw [Heap.heads, holds.1.live, Arena.taken, List.map_map, List.map_map]
  exact List.map_congr_left fun l _ => header_plus l.1.lo

theorem Holds.blocks_eq (holds : Holds base h a) :
    (a.frees.map Span.lo ++ h.heads).map (block h.mem) = a.frees ++ a.taken := by
  have same (l : List Span) (sized : ∀ s ∈ l, Sized h.mem s) : (l.map Span.lo).map (block h.mem) = l := by
    rw [List.map_map]
    exact (List.map_congr_left fun s member => (sized s member).block_eq).trans (List.map_id l)
  rw [holds.heads_eq, List.map_append, same a.frees fun s member => holds.1.sizes s (List.mem_cons_of_mem _ member),
    same a.taken holds.1.takenSizes]

theorem Holds.safe (holds : Holds base h a) : Safe base h := by
  obtain ⟨rep, sound⟩ := id holds
  refine Or.inr ⟨a.frees.map Span.lo, ⟨rep.circle, sound.rising, rep.roving, ?_⟩, ⟨?_, ?_⟩, ?_⟩
  · rintro p first q second same
    obtain ⟨s, free, rfl⟩ := List.mem_map.1 first
    obtain ⟨t, free', rfl⟩ := List.mem_map.1 second
    rw [(rep.sizes s (List.mem_cons_of_mem _ free)).block_eq] at same
    have room := sound.solid s free
    have room' := sound.solid t free'
    have gap := Span.Separated.gap (List.pairwise_cons.1 sound.separated).2 free free'
    rcases gap with rfl | gap | gap <;> omega
  · rw [holds.blocks_eq]
    refine List.pairwise_append.2 ⟨?_, sound.apart, fun s free t taken => ?_⟩
    · exact (List.pairwise_cons.1 sound.separated).2.imp fun gap => Span.disjoint_of_apart (Or.inl (Nat.le_of_lt gap))
    · exact sound.disjoint.mono (Span.bytes_subset_cover free) (Span.bytes_subset_cover taken)
  · rw [holds.blocks_eq, Span.cover_append, sound.covers]
  · intro l member
    rw [rep.live] at member
    obtain ⟨q, found, rfl⟩ := List.mem_map.1 member
    have taken : q.1 ∈ a.taken := List.mem_map_of_mem found
    rw [header_plus, (rep.takenSizes q.1 taken).block_eq]
    exact sound.usable q found

/-! ## What the calls and the stores keep -/

/-- The allocator has not been called, or the memory holds an arena. -/
def Inv (base : Nat) (h : Heap) : Prop := Idle h ∨ ∃ a, Holds base h a

theorem Inv.safe (inv : Inv base h) : Safe base h := by
  rcases inv with idle | ⟨a, holds⟩
  · exact Or.inl idle
  · exact holds.safe

theorem Holds.freep_ne_zero (holds : Holds base h a) (positive : 0 < base) : h.freep ≠ 0 := by
  have := holds.2.least _ holds.1.roving
  omega

theorem initialise_regions (base : Nat) (h : Heap) : (initialise base h).regions = h.regions := by
  unfold initialise
  split <;> rfl

/-- `malloc` begins with an arena. -/
theorem Inv.initialise (inv : Inv base h) (positive : 0 < base) (static : base < 2 ^ 32) :
    ∃ a, Holds base (initialise base h) a := by
  rcases inv with ⟨null, regions, live⟩ | ⟨a, holds⟩
  · rw [Umalloc.initialise, if_pos null]
    refine ⟨⟨[], []⟩, ⟨⟨rfl, ?_⟩, ?_, by simp [Arena.taken], List.mem_cons_self, live⟩, ?_⟩
    · show ptr (setSize (setPtr h.mem base base) base 0) base = base
      rw [ptr_setSize, ptr_setPtr static]
    · intro s member
      rw [List.mem_singleton.1 member]
      show base + 8 * size (setSize (setPtr h.mem base base) base 0) base = base
      rw [size_setSize (by omega), Nat.mul_zero, Nat.add_zero]
    · rw [show ({ h with mem := setSize (setPtr h.mem base base) base 0, freep := base } : Heap).regions = [] from regions]
      exact ⟨List.pairwise_singleton _ _, by simp, by simp, List.Pairwise.nil, by simp, by simp [Arena.taken], by simp⟩
  · rw [Umalloc.initialise, if_neg (holds.freep_ne_zero positive)]
    exact ⟨a, holds⟩

/-- Whatever the answers of `sbrk` are, what `malloc` returns is null or a block. -/
theorem Holds.returns (holds : Holds base h a) (positive : 0 < base) (small : n < 2 ^ 31) {answers answers' : List Answer}
    {rounds : Nat} (ends : search base rounds (units n) h.freep (ptr h.mem h.freep) h answers = some (r, h', answers')) :
    Returns base h a n r h' := by
  have same {r1 : Nat} {h1 : Heap} {answers1 : List Answer} {bound : Nat} (always : ∀ rounds, bound ≤ rounds →
      search base rounds (units n) h.freep (ptr h.mem h.freep) h answers = some (r1, h1, answers1)) : r1 = r ∧ h1 = h' := by
    have more := search_mono_le (Nat.le_max_left rounds bound) ends
    rw [always _ (Nat.le_max_right rounds bound)] at more
    cases more
    exact ⟨rfl, rfl⟩
  rcases holds.loop positive small with ⟨r1, h1, gives, bound, always⟩ | ⟨without, withAnswer⟩
  · obtain ⟨rfl, rfl⟩ := same (always answers)
    exact Or.inr gives
  · cases answers with
    | nil =>
      rw [without] at ends
      cases ends
    | cons answer answers =>
      have result := withAnswer answer
      split at result
      next =>
        obtain ⟨r1, h1, returns, bound, always⟩ := result
        obtain ⟨rfl, rfl⟩ := same (always answers)
        exact returns
      next =>
        rw [result] at ends
        cases ends

/-- What the program has in a block it holds. -/
def ContentsKept (h h' : Heap) : Prop :=
  ∀ l ∈ h.live, l ∈ h'.live → ∀ x, l.1 ≤ x → x < l.1 + l.2 → h'.mem x = h.mem x

/-- The bytes that were asked for are part of the live blocks. -/
theorem Holds.contents (holds : Holds base h a) {l : Nat × Nat} (live : l ∈ h.live) :
    ∃ s ∈ a.taken, l.1 = s.lo + 8 ∧ ∀ x, l.1 ≤ x → x < l.1 + l.2 → x ∈ s.bytes := by
  rw [holds.1.live] at live
  obtain ⟨q, found, rfl⟩ := List.mem_map.1 live
  have usable := holds.2.usable q found
  exact ⟨q.1, List.mem_map_of_mem found, rfl, fun x low high => ⟨by omega, by omega⟩⟩

theorem Inv.malloc (inv : Inv base h) (positive : 0 < base) (static : base < 2 ^ 32) {rounds : Nat} {answers : List Answer}
    (taken : step base h (.malloc rounds n answers) = some h') : Inv base h' ∧ ContentsKept h h' := by
  obtain ⟨a, holds⟩ := inv.initialise positive static
  -- before the first call the program holds no block
  have first (l : Nat × Nat) (live : l ∈ h.live) : Umalloc.initialise base h = h := by
    rcases inv with ⟨_, _, none⟩ | ⟨a, holds⟩
    · rw [none] at live
      cases live
    · rw [Umalloc.initialise, if_neg (holds.freep_ne_zero positive)]
  rw [step] at taken
  split at taken
  next small =>
    cases result : Umalloc.malloc base rounds n h answers with
    | none => simp [result] at taken
    | some x =>
      obtain ⟨r, h1, answers1⟩ := x
      rw [result] at taken
      cases answers1 with
      | cons answer answers1 => simp at taken
      | nil =>
        rw [Umalloc.malloc] at result
        have is : h' = if r = 0 then h1 else { h1 with live := (r, n) :: h1.live } := (Option.some.inj taken).symm
        rcases holds.returns positive (by omega) result with ⟨rfl, rfl⟩ | gives
        · rw [is, if_pos rfl]
          exact ⟨Or.inr ⟨a, holds⟩, fun l live _ x _ _ => by rw [first l live]⟩
        · rw [is, if_neg gives.nonnull]
          obtain ⟨frees', new, holds'⟩ := gives.holds
          refine ⟨Or.inr ⟨_, holds'⟩, fun l live _ x low high => ?_⟩
          have same := first l live
          rw [same] at gives holds
          obtain ⟨s, inside, _, bytes⟩ := holds.contents live
          exact gives.undisturbed s inside x (bytes x low high)
  next => cases taken

/-- The arena without the live block that `ap` points into. -/
def Arena.drop (a : Arena) (ap : Nat) : Arena := { a with lives := a.lives.filter fun l => l.1.lo + 8 ≠ ap }

theorem Arena.taken_drop (a : Arena) (ap : Nat) : (a.drop ap).taken = a.taken.filter fun s => s.lo + 8 ≠ ap := by
  rw [Arena.taken, Arena.drop, Arena.taken, List.filter_map]
  rfl

/-- A live block is known by its address. -/
theorem Arena.Sound.taken_unique (sound : a.Sound base all) (first : s ∈ a.taken) (second : t ∈ a.taken)
    (same : s.lo = t.lo) : s = t := by
  obtain ⟨_, room, _⟩ := sound.taken_mem first
  obtain ⟨_, room', _⟩ := sound.taken_mem second
  by_contra other
  have apart : Disjoint s.bytes t.bytes := sound.apart.forall first second other
  exact Set.disjoint_left.1 apart ⟨le_rfl, by omega⟩ ⟨by omega, by omega⟩

theorem Arena.Sound.cover_drop (sound : a.Sound base all) (member : s ∈ a.taken) :
    Span.cover (a.drop (s.lo + 8)).taken = Span.cover a.taken \ s.bytes := by
  rw [Arena.taken_drop]
  ext x
  constructor
  · rintro ⟨t, found, inside⟩
    obtain ⟨taken, other⟩ := List.mem_filter.1 found
    refine ⟨⟨t, taken, inside⟩, fun inside' => ?_⟩
    have other : t ≠ s := by
      rintro rfl
      simp at other
    exact Set.disjoint_left.1 (sound.apart.forall taken member other) inside inside'
  · rintro ⟨⟨t, taken, inside⟩, outside⟩
    refine ⟨t, List.mem_filter.2 ⟨taken, ?_⟩, inside⟩
    simp only [ne_eq, Nat.add_right_cancel_iff, decide_not, Bool.not_eq_true', decide_eq_false_iff_not]
    intro same
    exact outside (sound.taken_unique taken member same ▸ inside)

/-- **Taking a live block out of the arena.** -/
theorem Arena.Sound.drop (sound : a.Sound base all) (member : s ∈ a.taken) :
    (a.drop (s.lo + 8)).Sound base (all \ s.bytes) := by
  have sub : (a.drop (s.lo + 8)).taken ⊆ a.taken := fun t found => by
    rw [Arena.taken_drop] at found
    exact (List.mem_filter.1 found).1
  have outside : Disjoint (Span.cover a.frees) s.bytes := sound.disjoint.mono_right (Span.bytes_subset_cover member)
  refine ⟨sound.separated, sound.solid, fun l found => sound.usable l (List.mem_filter.1 found).1, ?_, ?_, ?_, ?_⟩
  · rw [Arena.taken_drop]
    exact sound.apart.filter _
  · refine sound.disjoint.mono_right ?_
    rintro x ⟨t, found, inside⟩
    exact ⟨t, sub found, inside⟩
  · rw [sound.cover_drop member, ← sound.covers, Set.union_sdiff_distrib, outside.sdiff_eq_left]
    rfl
  · exact Set.sdiff_subset.trans sound.bounds

theorem Represents.drop (rep : Represents base h a) (ap : Nat) :
    Represents base { h with live := h.live.filter fun l => l.1 ≠ ap } (a.drop ap) := by
  refine ⟨rep.circle, rep.sizes, fun s found => ?_, rep.roving, ?_⟩
  · rw [Arena.taken_drop] at found
    exact rep.takenSizes s (List.mem_filter.1 found).1
  · show h.live.filter _ = _
    rw [rep.live, Arena.drop, List.filter_map]
    rfl

/-- `free` does not look at what the program holds. -/
theorem free_live (rounds ap : Nat) (h : Heap) (live : List (Nat × Nat)) :
    free rounds ap { h with live := live } = (free rounds ap h).map fun h => { h with live := live } := by
  cases found : findPrev rounds h.mem (header ap) h.freep with
  | none => rw [free_eq_none found, free_eq_none (h := { h with live := live }) found, Option.map_none]
  | some p => rw [free_eq_some found, free_eq_some (h := { h with live := live }) found, Option.map_some]

theorem free_keeps_live {rounds ap : Nat} (freed : free rounds ap h = some h') : h'.live = h.live := by
  cases found : findPrev rounds h.mem (header ap) h.freep with
  | none =>
    rw [free_eq_none found] at freed
    cases freed
  | some p =>
    rw [free_eq_some found] at freed
    cases freed
    rfl

/-- **`free` of a live block.** -/
theorem Holds.free (holds : Holds base h a) (member : s ∈ a.taken) : ∃ h1 a1,
    Holds base { h1 with live := h1.live.filter fun l => l.1 ≠ s.lo + 8 } a1 ∧
      Undisturbed (a.drop (s.lo + 8)) h.mem h1.mem ∧
      ∀ rounds, a.frees.length < rounds → free rounds (s.lo + 8) h = some h1 := by
  obtain ⟨rep, sound⟩ := holds
  obtain ⟨low, room, below, inside⟩ := sound.taken_mem member
  have loose : Loose base (Span.cover h.regions \ s.bytes) { h with live := h.live.filter fun l => l.1 ≠ s.lo + 8 } s :=
    ⟨rep.takenSizes s member, room, Set.disjoint_sdiff_right, low, below⟩
  obtain ⟨h', frees', freed, regions, undisturbed, rep', sound', _⟩ := free_spec (rep.drop (s.lo + 8)) (sound.drop member) loose
  rw [Set.sdiff_union_of_subset inside] at sound'
  have all : ∃ h1, ∀ rounds, a.frees.length < rounds → Umalloc.free rounds (s.lo + 8) h = some h1 := by
    obtain ⟨h1, is, _⟩ := Option.map_eq_some_iff.1 ((free_live _ _ _ _).symm.trans (freed (a.frees.length + 1) (Nat.lt_succ_self _)))
    refine ⟨h1, fun rounds enough => ?_⟩
    induction enough with
    | refl => exact is
    | step _ ih => exact free_mono ih
  obtain ⟨h1, always⟩ := all
  have is : { h1 with live := h.live.filter fun l => l.1 ≠ s.lo + 8 } = h' := by
    have once := freed (a.frees.length + 1) (Nat.lt_succ_self _)
    rw [free_live, always _ (Nat.lt_succ_self _)] at once
    exact Option.some.inj once
  refine ⟨h1, { a.drop (s.lo + 8) with frees := frees' }, ?_, (congrArg Heap.mem is).symm ▸ undisturbed, always⟩
  rw [free_keeps_live (always _ (Nat.lt_succ_self _)), is]
  exact ⟨rep', regions ▸ sound'⟩

theorem Holds.live_mem (holds : Holds base h a) {ap : Nat} (member : ap ∈ h.live.map Prod.fst) :
    ∃ s ∈ a.taken, ap = s.lo + 8 := by
  obtain ⟨l, found, rfl⟩ := List.mem_map.1 member
  rw [holds.1.live] at found
  obtain ⟨q, inside, rfl⟩ := List.mem_map.1 found
  exact ⟨q.1, List.mem_map_of_mem inside, rfl⟩

theorem Inv.holds_of_live (inv : Inv base h) {ap : Nat} (member : ap ∈ h.live.map Prod.fst) : ∃ a, Holds base h a := by
  rcases inv with ⟨_, _, live⟩ | holds
  · rw [live] at member
    cases member
  · exact holds

theorem Inv.free (inv : Inv base h) {rounds ap : Nat} (taken : step base h (.free rounds ap) = some h') :
    Inv base h' ∧ ContentsKept h h' := by
  rw [step] at taken
  split at taken
  next member =>
    obtain ⟨a, holds⟩ := inv.holds_of_live member
    obtain ⟨s, inside, rfl⟩ := holds.live_mem member
    obtain ⟨h1, a1, holds1, undisturbed, always⟩ := holds.free inside
    cases freed : Umalloc.free rounds (s.lo + 8) h with
    | none => simp [freed] at taken
    | some h2 =>
      have same : h2 = h1 := by
        have more : Umalloc.free (rounds + (a.frees.length + 1)) (s.lo + 8) h = some h2 := by
          generalize a.frees.length + 1 = k
          induction k with
          | zero => exact freed
          | succ k ih => exact free_mono ih
        rw [always _ (by omega)] at more
        exact (Option.some.inj more).symm
      rw [freed, same] at taken
      cases taken
      refine ⟨Or.inr ⟨a1, holds1⟩, fun l live kept x low high => ?_⟩
      obtain ⟨t, inside', is, bytes⟩ := holds.contents live
      have other : l.1 ≠ s.lo + 8 := by simpa using (List.mem_filter.1 kept).2
      refine undisturbed t ?_ x (bytes x low high)
      rw [Arena.taken_drop]
      exact List.mem_filter.2 ⟨inside', by simpa [is] using other⟩
  next => cases taken

/-- A byte that the program may store to is in no header. -/
theorem Holds.header_apart (holds : Holds base h a) {x : Nat} (writable : h.Writable base x)
    (member : s ∈ nodes base a.frees ++ a.taken) : Disjoint (headerAt s.lo) {x} := by
  obtain ⟨rep, sound⟩ := holds
  rw [Set.disjoint_singleton_right]
  rintro ⟨low, high⟩
  have part : s = ⟨base, base⟩ ∨ (s ∈ a.frees ∨ s ∈ a.taken) ∧ s.lo + 8 ≤ s.hi ∧ base + 8 ≤ s.lo ∧ s.bytes ⊆ Span.cover h.regions := by
    rcases List.mem_append.1 member with node | taken
    · rcases List.mem_cons.1 node with rfl | free
      · exact Or.inl rfl
      · obtain ⟨above, room, _, sub⟩ := sound.free_mem free
        exact Or.inr ⟨Or.inl free, room, above, sub⟩
    · obtain ⟨above, room, _, sub⟩ := sound.taken_mem taken
      exact Or.inr ⟨Or.inr taken, room, above, sub⟩
  rcases writable with ⟨l, live, from_, upto⟩ | ⟨notBase, notHeap⟩
  · rw [rep.live] at live
    obtain ⟨q, found, rfl⟩ := List.mem_map.1 live
    have taken : q.1 ∈ a.taken := List.mem_map_of_mem found
    have usable := sound.usable q found
    have above := (sound.taken_mem taken).1
    have inside : x ∈ q.1.bytes := ⟨by omega, by omega⟩
    rcases part with rfl | ⟨free | other, room, _, _⟩
    · have high : x < base + 8 := high
      omega
    · refine Set.disjoint_left.1 sound.disjoint ⟨s, free, ?_⟩ ⟨q.1, taken, inside⟩
      exact ⟨low, by omega⟩
    · by_cases same : s = q.1
      · rw [same] at high
        omega
      · exact Set.disjoint_left.1 (sound.apart.forall other taken same) ⟨low, by omega⟩ inside
  · rcases part with rfl | ⟨_, room, _, sub⟩
    · exact notBase ⟨low, high⟩
    · obtain ⟨r, region, inside⟩ := sub (show x ∈ s.bytes from ⟨low, by omega⟩)
      exact notHeap r region inside

theorem Inv.store (inv : Inv base h) {x : Nat} {b : BitVec 8} (taken : step base h (.store x b) = some h') :
    Inv base h' := by
  rw [step] at taken
  split at taken
  next writable =>
    cases taken
    rcases inv with idle | ⟨a, holds⟩
    · exact Or.inl idle
    have frame : Frame {x} h.mem fun y => if y = x then b else h.mem y := fun y other => if_neg other
    have kept (s : Span) (member : s ∈ nodes base a.frees ++ a.taken) := frame.header (holds.header_apart writable member)
    obtain ⟨rep, sound⟩ := holds
    refine Or.inr ⟨a, ⟨rep.circle.congr fun y member => ?_, fun s member => ?_, fun s member => ?_, rep.roving, rep.live⟩, sound⟩
    · obtain ⟨s, node, rfl⟩ := List.mem_map.1 member
      exact (kept s (List.mem_append_left _ node)).1
    · exact (rep.sizes s member).congr (kept s (List.mem_append_left _ member)).2
    · exact (rep.takenSizes s member).congr (kept s (List.mem_append_right _ member)).2
  next => cases taken

theorem Inv.step (inv : Inv base h) (positive : 0 < base) (static : base < 2 ^ 32) {e : Event}
    (taken : step base h e = some h') : Inv base h' := by
  cases e with
  | malloc rounds n answers => exact (inv.malloc positive static taken).1
  | free rounds ap => exact (inv.free taken).1
  | store x b => exact inv.store taken

/-! ## The calls return -/

theorem step_malloc {rounds : Nat} {answers : List Answer} (small : n < 2 ^ 30)
    (ends : Umalloc.malloc base rounds n h answers = some (r, h', [])) :
    ∃ h'', Umalloc.step base h (.malloc rounds n answers) = some h'' := by
  rw [Umalloc.step, if_pos small, ends]
  exact ⟨_, rfl⟩

theorem Inv.callsReturn (inv : Inv base h) (positive : 0 < base) (static : base < 2 ^ 32) : CallsReturn base h := by
  refine ⟨fun n small => ?_, fun l live => ?_⟩
  · obtain ⟨a, holds⟩ := inv.initialise positive static
    rcases holds.loop (n := n) positive (by omega) with ⟨r, h', _, bound, always⟩ | ⟨_, withAnswer⟩
    · exact Or.inl ⟨bound, step_malloc small (always [] bound le_rfl)⟩
    · refine Or.inr fun answer allowed => ?_
      have allowed' : answer.Allowed base (Umalloc.initialise base h) (atLeast (units n) * sizeofHeader) := by
        cases answer with
        | none => trivial
        | some p =>
          obtain ⟨low, high, above⟩ := allowed
          exact ⟨low, high, (initialise_regions base h).symm ▸ above⟩
      have result := withAnswer answer
      rw [if_pos allowed'] at result
      obtain ⟨r, h', _, bound, always⟩ := result
      exact ⟨bound, step_malloc small (always [] bound le_rfl)⟩
  · have member : l.1 ∈ h.live.map Prod.fst := List.mem_map_of_mem live
    obtain ⟨a, holds⟩ := inv.holds_of_live member
    obtain ⟨s, inside, is⟩ := holds.live_mem member
    obtain ⟨h1, _, _, _, always⟩ := holds.free inside
    refine ⟨a.frees.length + 1, { h1 with live := h1.live.filter fun q => q.1 ≠ l.1 }, ?_⟩
    rw [Umalloc.step, if_pos member, is, always _ (Nat.lt_succ_self _)]

end

section
variable {base : Nat} {mem : Bytes} {tr : List (Heap × Event)} {h h' : Heap}

theorem run_inv (positive : 0 < base) (static : base < 2 ^ 32) (run : Run (step base) (start mem) tr h) : Inv base h :=
  run.invariant_all (Inv base) (Or.inl ⟨rfl, rfl, rfl⟩) fun _ _ _ inv taken => inv.step positive static taken

/-- The calls change nothing in the blocks that the program holds. -/
theorem calls_keep_contents (positive : 0 < base) (static : base < 2 ^ 32) (run : Run (step base) (start mem) tr h)
    {e : Event} (call : ∀ x b, e ≠ .store x b) (taken : step base h e = some h') : ContentsKept h h' := by
  have inv := run_inv positive static run
  cases e with
  | malloc rounds n answers => exact (inv.malloc positive static taken).2
  | free rounds ap => exact (inv.free taken).2
  | store x b => exact absurd rfl (call x b)

/-- A block is freed while another one is in use. -/
theorem calls_keep_contents_free : ∃ tr h h', Run (step 0x1000) (start fun _ => 0) tr h ∧
    step 0x1000 h (.free 3 0xaff0) = some h' ∧ ContentsKept h h' := by
  have ran : ((exec (step 0x1000) (start fun _ => 0) [.malloc 4 10 [some 0x3000], .malloc 3 20 []]).bind
      (step 0x1000 · (.free 3 0xaff0))).isSome := by decide +kernel
  obtain ⟨h', ends⟩ := Option.isSome_iff_exists.1 ran
  obtain ⟨h, ends, taken⟩ := Option.bind_eq_some_iff.1 ends
  exact ⟨_, h, h', run_of_exec ends, taken, calls_keep_contents (by decide) (by decide) (run_of_exec ends) (by simp) taken⟩

/-- **The user heap is safe.** -/
theorem heap_safe (positive : 0 < base) (static : base < 2 ^ 32) (run : Run (step base) (start mem) tr h) :
    Safe base h ∧ CallsReturn base h := by
  have inv := run_inv positive static run
  exact ⟨inv.safe, inv.callsReturn positive static⟩

end

/-- Two blocks are cut from the end of the first region, the first is freed, and a third call gets it again. -/
theorem heap_safe_reuse : ∃ tr h, Run (step 0x1000) (start fun _ => 0) tr h ∧ h.live = [(0xaff0, 9), (0xafd0, 20)] ∧
    Safe 0x1000 h ∧ CallsReturn 0x1000 h := by
  have ran : (exec (step 0x1000) (start fun _ => 0) [.malloc 4 10 [some 0x3000], .malloc 3 20 [], .free 3 0xaff0,
      .malloc 3 9 []]).map Heap.live = some [(0xaff0, 9), (0xafd0, 20)] := by decide +kernel
  obtain ⟨h, ends, live⟩ := Option.map_eq_some_iff.1 ran
  exact ⟨_, h, run_of_exec ends, live, heap_safe (by decide) (by decide) (run_of_exec ends)⟩

end Xv6.Umalloc
