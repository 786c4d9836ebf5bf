import Xv6.Umalloc.Safety

/-!
# The allocator on the system call

`sbrk` as `sys_sbrk` and `growproc` implement it. Its argument is an `int`: the product that
`morecore` passes is taken as a signed number, and a negative one shrinks the process. The
size of the process is part of the state here, and `malloc` is the one of `Umalloc.Heap`
with the answers of `sbrk` computed instead of given.

A store to an address without a page would kill the process; here it goes on.
-/

namespace Xv6.Umalloc
open Lib

def KERNBASE : Nat := 0x80000000

/-- The value of an unsigned argument as an `int`. -/
def asInt (n : Nat) : Int := if n % 2 ^ 32 < 2 ^ 31 then (n % 2 ^ 32 : Nat) else (n % 2 ^ 32 : Nat) - 2 ^ 32

/-- `sz + n`, for an `int` added to a `uint`. -/
def addInt (sz : Nat) (n : Int) : Nat := ((sz + n) % 2 ^ 32).toNat

/-- `allocuvm`, where `fits` says whether there are pages left for it. -/
def allocuvm (fits : Bool) (oldsz newsz : Nat) : Nat :=
  if newsz ≥ KERNBASE then 0 else if newsz < oldsz then oldsz else if fits then newsz else 0

/-- The size that `deallocuvm` returns. -/
def deallocuvm (oldsz newsz : Nat) : Nat := if newsz ≥ oldsz then oldsz else newsz

/-- The new size that `growproc` stores, and `none` if it fails. -/
def growproc (fits : Bool) (sz : Nat) (n : Int) : Option Nat :=
  if n > 0 then
    if allocuvm fits sz (addInt sz n) = 0 then none else some (allocuvm fits sz (addInt sz n))
  else if n < 0 then
    if deallocuvm sz (addInt sz n) = 0 then none else some (deallocuvm sz (addInt sz n))
  else some sz

/-- A process that uses the allocator. -/
structure Process where
  heap : Heap
  sz : Nat

/-- `sbrk(n)`: what it returns, where `none` is -1. The memory that the process has gained is the heap's. -/
def Process.sbrk (fits : Bool) (n : Nat) (q : Process) : Option Nat × Process :=
  match growproc fits q.sz (asInt n) with
  | none => (none, q)
  | some sz =>
    let regions := if q.sz < sz then ⟨q.sz, sz⟩ :: q.heap.regions else q.heap.regions
    (some q.sz, ⟨{ q.heap with regions := regions }, sz⟩)

/-- `morecore`. The call of `sbrk` takes the first of the answers `fits`; there are no pages when none is left. -/
def Process.morecore (rounds nu : Nat) (q : Process) (fits : List Bool) : Option (Nat × Process × List Bool) :=
  match q.sbrk (fits.headD false) (atLeast nu * sizeofHeader) with
  | (none, q) => some (0, q, fits.tail)
  | (some hp, q) =>
    (free rounds (plus hp 1) { q.heap with mem := setSize q.heap.mem hp (atLeast nu) }).map fun h =>
      (h.freep, { q with heap := h }, fits.tail)

/-- The `for` of `malloc`. -/
def Process.search : Nat → Nat → Nat → Nat → Process → List Bool → Option (Nat × Process × List Bool)
  | 0, _, _, _, _, _ => none
  | rounds + 1, nunits, prevp, p, q, fits =>
    if size q.heap.mem p ≥ nunits then
      some ((take nunits prevp p q.heap).1, { q with heap := (take nunits prevp p q.heap).2 }, fits)
    else if p = q.heap.freep then
      match q.morecore rounds nunits fits with
      | none => none
      | some (p, q, fits) => if p = 0 then some (0, q, fits) else search rounds nunits p (ptr q.heap.mem p) q fits
    else search rounds nunits p (ptr q.heap.mem p) q fits

def Process.malloc (base rounds nbytes : Nat) (q : Process) (fits : List Bool) : Option (Nat × Process × List Bool) :=
  let h := initialise base q.heap
  Process.search rounds (units nbytes) h.freep (ptr h.mem h.freep) { q with heap := h } fits

/-- The allocator's invariant, and the heap is part of the process. -/
structure Process.Valid (base : Nat) (q : Process) : Prop where
  inv : Inv base q.heap
  within : ∀ r ∈ q.heap.regions, r.hi ≤ q.sz
  positive : 0 < base
  static : base + sizeofHeader ≤ q.sz
  user : q.sz < KERNBASE

/-- The pointer `r` is to a block of at least `nbytes` usable bytes inside the process that overlaps no live block. -/
structure Process.Block (q : Process) (nbytes r : Nat) : Prop where
  usable : r + nbytes ≤ (block q.heap.mem (header r)).hi
  inside : (block q.heap.mem (header r)).hi ≤ q.sz
  apart : ∀ l ∈ q.heap.live, Disjoint (block q.heap.mem (header r)).bytes (block q.heap.mem (header l.1)).bytes

/-- `malloc` returns null or such a block, whatever `sbrk` finds. -/
def Process.MallocOk (base nbytes : Nat) (q : Process) : Prop :=
  ∀ fits, ∃ bound, ∀ rounds, bound ≤ rounds → ∃ r q' fits',
    q.malloc base rounds nbytes fits = some (r, q', fits') ∧ (r = 0 ∨ q'.Block nbytes r)

/-! ## The answers of `sbrk` -/

section
variable {base rounds nu nunits prevp p r n : Nat} {q : Process} {h h' : Heap} {fits : List Bool} {fit : Bool}

theorem asInt_small (small : n < 2 ^ 31) : asInt n = n := by
  unfold asInt
  rw [Nat.mod_eq_of_lt (by omega), if_pos small]

/-- A positive amount that an `int` holds: the process grows by it, or `sbrk` fails. -/
theorem sbrk_grow (fit : Bool) (user : q.sz < KERNBASE) (positive : 0 < n) (small : n < 2 ^ 31) :
    q.sbrk fit n = (none, q) ∨ q.sz + n < KERNBASE ∧
      q.sbrk fit n = (some q.sz, ⟨{ q.heap with regions := ⟨q.sz, q.sz + n⟩ :: q.heap.regions }, q.sz + n⟩) := by
  have kern : KERNBASE = 0x80000000 := rfl
  have sum : addInt q.sz n = q.sz + n := by
    unfold addInt
    omega
  have size : allocuvm fit q.sz (q.sz + n) = if q.sz + n < KERNBASE ∧ fit = true then q.sz + n else 0 := by
    unfold allocuvm
    by_cases high : q.sz + n ≥ KERNBASE
    · rw [if_pos high, if_neg (by omega)]
    · rw [if_neg high, if_neg (by omega)]
      cases fit with
      | false => simp
      | true => simp [not_le.1 high]
  have grows : growproc fit q.sz (asInt n) = if q.sz + n < KERNBASE ∧ fit = true then some (q.sz + n) else none := by
    rw [asInt_small small, growproc, if_pos (by omega), sum, size]
    by_cases given : q.sz + n < KERNBASE ∧ fit = true
    · rw [if_pos given, if_pos given, if_neg (by omega)]
    · rw [if_neg given, if_neg given, if_pos rfl]
  unfold Process.sbrk
  rw [grows]
  by_cases given : q.sz + n < KERNBASE ∧ fit = true
  · rw [if_pos given]
    refine Or.inr ⟨given.1, ?_⟩
    dsimp only
    rw [if_pos (by omega)]
  · rw [if_neg given]
    exact Or.inl rfl

/-! ## Following the allocator -/

theorem free_regions {ap : Nat} (freed : free rounds ap h = some h') : h'.regions = h.regions := by
  cases found : findPrev rounds h.mem (header ap) h.freep with
  | none =>
    rw [free_eq_none found] at freed
    cases freed
  | some p =>
    rw [free_eq_some found] at freed
    cases freed
    rfl

theorem take_regions (nunits prevp p : Nat) (h : Heap) : (take nunits prevp p h).2.regions = h.regions := by
  unfold take
  split <;> rfl

/-- A search that needs no answer. -/
theorem search_without (fits : List Bool) (ends : search base rounds nunits prevp p q.heap [] = some (r, h', [])) :
    q.search rounds nunits prevp p fits = some (r, { q with heap := h' }, fits) ∧ h'.regions = q.heap.regions := by
  induction rounds generalizing prevp p with
  | zero => cases ends
  | succ rounds ih =>
    rw [Process.search]
    by_cases large : size q.heap.mem p ≥ nunits
    · rw [search_fits large] at ends
      cases ends
      rw [if_pos large]
      exact ⟨rfl, take_regions _ _ _ _⟩
    by_cases round : p = q.heap.freep
    · rw [search_round large round, extend_eq_none (morecore_eq_none rfl)] at ends
      cases ends
    · rw [search_next large round] at ends
      rw [if_neg large, if_neg round]
      exact ih ends

/-- A search that needs one answer, when that is the one of `sbrk`. -/
theorem search_with (fits : List Bool) (less : atLeast nunits * sizeofHeader < 2 ^ 32)
    (ends : search base rounds nunits prevp p q.heap [(q.sbrk (fits.headD false) (atLeast nunits * sizeofHeader)).1] =
      some (r, h', []))
    (grows : ∀ hp q', q.sbrk (fits.headD false) (atLeast nunits * sizeofHeader) = (some hp, q') →
      q'.heap = { q.heap with regions := ⟨hp, hp + atLeast nunits * sizeofHeader⟩ :: q.heap.regions }) :
    ∃ q', q'.heap = h' ∧ q'.sz = (q.sbrk (fits.headD false) (atLeast nunits * sizeofHeader)).2.sz ∧
      h'.regions = (q.sbrk (fits.headD false) (atLeast nunits * sizeofHeader)).2.heap.regions ∧
      q.search rounds nunits prevp p fits = some (r, q', fits.tail) := by
  induction rounds generalizing prevp p with
  | zero => cases ends
  | succ rounds ih =>
    rw [Process.search]
    by_cases large : size q.heap.mem p ≥ nunits
    · rw [search_fits large] at ends
      cases ends
    by_cases round : p = q.heap.freep
    · rw [if_neg large, if_pos round, Process.morecore]
      rw [search_round large round] at ends
      cases asked : q.sbrk (fits.headD false) (atLeast nunits * sizeofHeader) with
      | mk answer q1 =>
        rw [asked] at ends
        cases answer with
        | none =>
          have same : q1 = q := by
            unfold Process.sbrk at asked
            split at asked <;> cases asked
            rfl
          subst same
          rw [extend_eq_some (morecore_eq_zero (sbrk_refused _ _ _ _)), if_pos rfl] at ends
          cases ends
          exact ⟨q1, rfl, rfl, rfl, rfl⟩
        | some hp =>
          have heap := grows hp q1 asked
          have amount : atLeast nunits * sizeofHeader % 2 ^ 32 = atLeast nunits * sizeofHeader := Nat.mod_eq_of_lt less
          by_cases allowed : Answer.Allowed base q.heap (atLeast nunits * sizeofHeader) (some hp)
          · have given := (congrArg (fun n => sbrk base n q.heap [some hp]) amount).trans (sbrk_given allowed [])
            have more : morecore base rounds nunits q.heap [some hp] = _ := morecore_eq_free given
            rw [← heap] at more
            dsimp only
            cases freed : free rounds (plus hp 1) { q1.heap with mem := setSize q1.heap.mem hp (atLeast nunits) } with
            | none =>
              rw [freed, Option.map_none] at more
              rw [extend_eq_none more] at ends
              cases ends
            | some h2 =>
              rw [freed, Option.map_some] at more
              rw [extend_eq_some more] at ends
              rw [Option.map_some]
              have regions : h2.regions = q1.heap.regions := (free_regions freed).trans rfl
              by_cases null : h2.freep = 0
              · rw [if_pos null] at ends
                cases ends
                dsimp only
                rw [if_pos null]
                exact ⟨{ q1 with heap := h' }, rfl, rfl, regions, rfl⟩
              · rw [if_neg null] at ends
                dsimp only
                rw [if_neg null]
                obtain ⟨found, kept⟩ := search_without (q := { q1 with heap := h2 }) fits.tail ends
                exact ⟨{ q1 with heap := h' }, rfl, rfl, kept.trans regions, found⟩
          · rw [extend_eq_none (morecore_eq_none (by rw [amount]; exact sbrk_not_allowed allowed []))] at ends
            cases ends
    · rw [search_next large round] at ends
      rw [if_neg large, if_neg round]
      exact ih ends

/-! ## Amounts that an `int` holds -/

/-- The block that the loop has taken. -/
theorem Gives.block {a : Arena} (gives : Gives base h a n r h') {sz : Nat} (within : ∀ s ∈ h'.regions, s.hi ≤ sz) :
    Process.Block ⟨h', sz⟩ n r := by
  obtain ⟨frees', new, rep, sound⟩ := gives.holds
  obtain ⟨first, rest⟩ := List.cons.inj rep.live
  obtain ⟨rfl, -⟩ := Prod.mk.inj first
  have member : new ∈ Arena.taken ⟨frees', (new, n) :: a.lives⟩ := List.mem_cons_self
  have here : Umalloc.block h'.mem (header (new.lo + 8)) = new := by
    rw [header_plus]
    exact (rep.takenSizes new member).block_eq
  refine ⟨?_, ?_, fun l live => ?_⟩
  · rw [here]
    exact sound.usable (new, n) List.mem_cons_self
  · obtain ⟨_, room, _, sub⟩ := sound.taken_mem member
    obtain ⟨s, region, inside⟩ := sub (show new.hi - 1 ∈ new.bytes from ⟨by omega, by omega⟩)
    have below := within s region
    rw [Span.mem_bytes] at inside
    rw [here]
    show new.hi ≤ sz
    omega
  · obtain ⟨s, found, rfl⟩ := List.mem_map.1 ((congrArg (l ∈ ·) rest).mp live)
    have other : s.1 ∈ Arena.taken ⟨frees', (new, n) :: a.lives⟩ :=
      List.mem_cons_of_mem _ (List.mem_map_of_mem (f := Prod.fst) found)
    have there : Umalloc.block h'.mem (header (s.1.lo + 8)) = s.1 := by
      rw [header_plus]
      exact (rep.takenSizes s.1 other).block_eq
    rw [here, there]
    exact (List.pairwise_cons.1 sound.apart).1 s.1 (List.mem_map_of_mem (f := Prod.fst) found)

/-- A request of this size gets a block with room for it, or nothing. -/
theorem malloc_ok (valid : q.Valid base) (small : n ≤ 2 ^ 31 - 16) : q.MallocOk base n := by
  intro fits
  obtain ⟨inv, within, positive, static, user⟩ := valid
  have kern : KERNBASE = 0x80000000 := rfl
  obtain ⟨a, holds⟩ := inv.initialise positive (by rw [sizeofHeader] at static; omega)
  have regions := initialise_regions base q.heap
  have less : atLeast (units n) * sizeofHeader < 2 ^ 31 ∧ 0 < atLeast (units n) * sizeofHeader := by
    unfold units atLeast sizeofHeader
    split <;> omega
  unfold Process.malloc
  dsimp only
  rcases holds.loop (n := n) positive (by omega) with ⟨r, h', gives, bound, always⟩ | ⟨_, withAnswer⟩
  · refine ⟨bound, fun rounds enough => ?_⟩
    obtain ⟨found, kept⟩ := search_without (q := { q with heap := initialise base q.heap }) fits
      (always [] rounds enough)
    refine ⟨r, _, _, found, Or.inr (gives.block fun s region => ?_)⟩
    rw [kept] at region
    exact within s (regions ▸ region)
  · have grown := sbrk_grow (q := { q with heap := initialise base q.heap }) (fits.headD false) user less.2 less.1
    have result := withAnswer (Process.sbrk (fits.headD false) (atLeast (units n) * sizeofHeader)
      { q with heap := initialise base q.heap }).1
    have allowed : Answer.Allowed base (initialise base q.heap) (atLeast (units n) * sizeofHeader)
        (Process.sbrk (fits.headD false) (atLeast (units n) * sizeofHeader) { q with heap := initialise base q.heap }).1 := by
      rcases grown with failed | ⟨room, given⟩
      · rw [failed]
        trivial
      · rw [given]
        refine ⟨static, ?_, fun s region => within s (regions ▸ region)⟩
        show q.sz + _ < _
        have room : q.sz + atLeast (units n) * sizeofHeader < KERNBASE := room
        omega
    rw [if_pos allowed] at result
    obtain ⟨r, h', returns, bound, always⟩ := result
    refine ⟨bound, fun rounds enough => ?_⟩
    obtain ⟨q', rfl, size, kept, found⟩ := search_with (q := { q with heap := initialise base q.heap }) fits
      (by omega) (always [] rounds enough) (by
        intro hp q' asked
        rcases grown with failed | ⟨_, given⟩
        · rw [failed] at asked
          cases asked
        · rw [given] at asked
          cases asked
          rfl)
    refine ⟨r, q', _, found, ?_⟩
    rcases returns with ⟨null, _⟩ | gives
    · exact Or.inl null
    · refine Or.inr (gives.block fun s region => ?_)
      rw [size]
      rw [kept] at region
      rcases grown with failed | ⟨_, given⟩
      · rw [failed] at region ⊢
        exact within s (regions ▸ region)
      · rw [given] at region ⊢
        rcases List.mem_cons.1 region with rfl | old
        · exact le_rfl
        · exact (within s (regions ▸ old)).trans (Nat.le_add_right _ _)

/-! ## Larger amounts -/

/-- A small process that has not called `malloc` yet. -/
def newProcess : Process := ⟨start fun _ => 0, 0x204⟩

theorem newProcess_valid : newProcess.Valid 0x100 :=
  ⟨Or.inl ⟨rfl, rfl, rfl⟩, by simp [newProcess, start], by decide, by decide, by decide⟩

/-- The memory when `free` has linked the first block, of `w` units. -/
def linkedMem (w : Nat) : Bytes :=
  setPtr (setPtr (setSize (initialise 0x100 newProcess.heap).mem 0x204 w) 0x204 0x100) 0x100 0x204

theorem linkedMem_words {w : Nat} (fits : w < 2 ^ 32) :
    ptr (linkedMem w) 0x100 = 0x204 ∧ ptr (linkedMem w) 0x204 = 0x100 ∧ size (linkedMem w) 0x204 = w := by
  refine ⟨ptr_setPtr (by decide), ?_, ?_⟩
  · refine (setPtr_frame.header (headerAt_disjoint (Or.inr (by decide)))).1.trans ?_
    exact ptr_setPtr (by decide)
  · refine (setPtr_frame.header (headerAt_disjoint (Or.inr (by decide)))).2.trans ?_
    exact size_setPtr.trans (size_setSize fits)

/-- `free` puts the first block behind `base`. -/
theorem free_first {w : Nat} (fits : w < 2 ^ 32) (h : Heap) (fresh : h.mem = (initialise 0x100 newProcess.heap).mem)
    (list : h.freep = 0x100) : free (rounds + 1) (plus 0x204 1) { h with mem := setSize h.mem 0x204 w } =
      some { h with mem := linkedMem w } := by
  have start : ptr (initialise 0x100 newProcess.heap).mem 0x100 = 0x100 ∧
      size (initialise 0x100 newProcess.heap).mem 0x100 = 0 := by decide
  have base : ptr (setSize h.mem 0x204 w) 0x100 = 0x100 ∧ size (setSize h.mem 0x204 w) 0x100 = 0 := by
    have frame : Frame (headerAt 0x204) h.mem (setSize h.mem 0x204 w) := setSize_frame
    obtain ⟨link, empty⟩ := frame.header (p := 0x100) (headerAt_disjoint (Or.inl (by decide)))
    rw [link, empty, fresh]
    exact start
  have stops : Stops (setSize h.mem 0x204 w) 0x204 0x100 := Or.inr ⟨by rw [base.1], Or.inl (by decide)⟩
  have found : findPrev (rounds + 1) (setSize h.mem 0x204 w) (header (plus 0x204 1)) h.freep = some 0x100 := by
    rw [list, findPrev]
    exact if_pos stops
  rw [free_eq_some found]
  -- neither block ends where the other one begins
  have first : join (setSize h.mem 0x204 w) 0x204 (fun m => ptr m 0x100) = setPtr (setSize h.mem 0x204 w) 0x204 0x100 := by
    rw [join, size_setSize fits, base.1, if_neg]
    unfold plus sizeofHeader
    omega
  have second : join (setPtr (setSize h.mem 0x204 w) 0x204 0x100) 0x100 (fun _ => 0x204) = linkedMem w := by
    rw [join, (setPtr_frame.header (headerAt_disjoint (Or.inl (by decide)))).2, base.2, if_neg (by decide), fresh]
    rfl
  show some ({ h with mem := join (join (setSize h.mem 0x204 w) 0x204 fun m => ptr m 0x100) 0x100 fun _ => 0x204,
                      freep := 0x100 } : Heap) = _
  rw [first, second, ← list]

/-- The first call, when `sbrk` returns the size of the process. -/
theorem malloc_first (fits : List Bool) {q' : Process} (asked : Process.sbrk (fits.headD false) (atLeast (units n) * sizeofHeader)
      { newProcess with heap := initialise 0x100 newProcess.heap } = (some 0x204, q'))
    (fresh : q'.heap.mem = (initialise 0x100 newProcess.heap).mem) (list : q'.heap.freep = 0x100)
    (bounded : atLeast (units n) < 2 ^ 32) (rounds : Nat) :
    newProcess.malloc 0x100 (rounds + 3) n fits =
      some ((take (units n) 0x100 0x204 { q'.heap with mem := linkedMem (atLeast (units n)) }).1,
        { q' with heap := (take (units n) 0x100 0x204 { q'.heap with mem := linkedMem (atLeast (units n)) }).2 }, fits.tail) := by
  have start : ptr (initialise 0x100 newProcess.heap).mem 0x100 = 0x100 ∧
      size (initialise 0x100 newProcess.heap).mem 0x100 = 0 := by decide
  have some_ : 0 < units n ∧ units n ≤ atLeast (units n) := by
    unfold units atLeast sizeofHeader
    split <;> omega
  have freep : (initialise 0x100 newProcess.heap).freep = 0x100 := rfl
  have more : Process.morecore (rounds + 2) (units n) { newProcess with heap := initialise 0x100 newProcess.heap } fits =
      some (0x100, { q' with heap := { q'.heap with mem := linkedMem (atLeast (units n)) } }, fits.tail) := by
    rw [Process.morecore, asked]
    dsimp only
    rw [free_first bounded q'.heap fresh list, Option.map_some]
    dsimp only
    rw [list]
  obtain ⟨link, _, large⟩ := linkedMem_words bounded
  unfold Process.malloc
  dsimp only
  rw [freep, start.1, Process.search, if_neg (by rw [start.2]; omega), if_pos freep.symm, more]
  dsimp only
  rw [if_neg (by decide), link, Process.search, if_pos (by rw [large]; exact some_.2)]

/-- An amount that `sbrk` takes as zero or negative: the header lies where the process ends. -/
theorem malloc_beyond (large : 2 ^ 31 - 16 < n) (wraps : n ≤ 2 ^ 32 - 8) : ¬ newProcess.MallocOk 0x100 n := by
  have count : 2 ^ 28 ≤ units n ∧ units n ≤ 2 ^ 29 ∧ atLeast (units n) = units n := by
    unfold units atLeast sizeofHeader
    split <;> omega
  obtain ⟨q', asked, heap, shrunk⟩ : ∃ q', Process.sbrk false (atLeast (units n) * sizeofHeader)
      { newProcess with heap := initialise 0x100 newProcess.heap } = (some 0x204, q') ∧
      q'.heap = initialise 0x100 newProcess.heap ∧ q'.sz ≤ 0x204 := by
    obtain ⟨sz, grown, bound⟩ : ∃ sz,
        growproc false 0x204 (asInt (atLeast (units n) * sizeofHeader)) = some sz ∧ sz ≤ 0x204 := by
      rw [count.2.2]
      by_cases whole : units n = 2 ^ 29
      · rw [whole]
        exact ⟨0x204, by decide, le_rfl⟩
      · have negative : asInt (units n * sizeofHeader) = (units n * 8 : Nat) - 2 ^ 32 := by
          unfold asInt sizeofHeader
          rw [if_neg (by omega)]
          omega
        have size : deallocuvm 0x204 (addInt 0x204 (asInt (units n * sizeofHeader))) ≤ 0x204 ∧
            deallocuvm 0x204 (addInt 0x204 (asInt (units n * sizeofHeader))) ≠ 0 := by
          rw [negative]
          unfold deallocuvm addInt
          split <;> omega
        refine ⟨_, ?_, size.1⟩
        rw [growproc, if_neg (by rw [negative]; omega), if_pos (by rw [negative]; omega), if_neg size.2]
    refine ⟨⟨initialise 0x100 newProcess.heap, sz⟩, ?_, rfl, bound⟩
    unfold Process.sbrk
    rw [show ({ newProcess with heap := initialise 0x100 newProcess.heap } : Process).sz = 0x204 from rfl, grown]
    dsimp only
    rw [if_neg (by omega)]
  intro ok
  obtain ⟨bound, always⟩ := ok []
  obtain ⟨r, q1, fits', returned, good⟩ := always (bound + 3) (by omega)
  rw [malloc_first [] asked (by rw [heap]) (by rw [heap]; rfl) (by omega)] at returned
  obtain ⟨_, _, words⟩ := linkedMem_words (w := atLeast (units n)) (by omega)
  have taken : take (units n) 0x100 0x204 { q'.heap with mem := linkedMem (atLeast (units n)) } =
      (0x20c, { q'.heap with mem := setPtr (linkedMem (atLeast (units n))) 0x100 (ptr (linkedMem (atLeast (units n))) 0x204),
                             freep := 0x100 }) := by
    rw [take, if_pos (words.trans count.2.2)]
    rfl
  rw [taken] at returned
  cases returned
  rcases good with null | good
  · cases null
  · have inside := good.inside
    have size : Umalloc.size (setPtr (linkedMem (atLeast (units n))) 0x100 (ptr (linkedMem (atLeast (units n))) 0x204))
        0x204 = units n :=
      (setPtr_frame.header (headerAt_disjoint (Or.inr (by decide)))).2.trans (words.trans count.2.2)
    have ends : (Umalloc.block (setPtr (linkedMem (atLeast (units n))) 0x100 (ptr (linkedMem (atLeast (units n))) 0x204))
        (header 0x20c)).hi = 0x204 + 8 * units n := by
      show 0x204 + 8 * Umalloc.size _ 0x204 = _
      rw [size]
    rw [ends] at inside
    have inside : 0x204 + 8 * units n ≤ q'.sz := inside
    omega

/-- The heap of the new process after `sbrk(32768)`. -/
def grownHeap : Heap := { initialise 0x100 newProcess.heap with regions := [⟨0x204, 0x8204⟩] }

theorem take_unit : ∃ h, take 1 0x100 0x204 { grownHeap with mem := linkedMem 4096 } = (0x8204, h) ∧ size h.mem 0x81fc = 1 :=
  ⟨_, rfl, by decide +kernel⟩

/-- An amount whose number of units wraps to one. -/
theorem malloc_wraps (wraps : 2 ^ 32 - 8 < n) (word : n < 2 ^ 32) : ¬ newProcess.MallocOk 0x100 n := by
  have one : units n = 1 := by
    unfold units sizeofHeader
    omega
  have grown : growproc true 0x204 (asInt (atLeast (units n) * sizeofHeader)) = some 0x8204 := by
    rw [one]
    decide
  have asked : Process.sbrk true (atLeast (units n) * sizeofHeader)
      { newProcess with heap := initialise 0x100 newProcess.heap } = (some 0x204, ⟨grownHeap, 0x8204⟩) := by
    unfold Process.sbrk
    rw [show ({ newProcess with heap := initialise 0x100 newProcess.heap } : Process).sz = 0x204 from rfl, grown]
    dsimp only
    rw [if_pos (by decide)]
    rfl
  intro ok
  obtain ⟨bound, always⟩ := ok [true]
  obtain ⟨r, q1, fits', returned, good⟩ := always (bound + 3) (by omega)
  rw [malloc_first [true] asked rfl rfl (by rw [one]; decide), one,
    show atLeast 1 = 4096 from rfl] at returned
  obtain ⟨h, is, unit⟩ := take_unit
  dsimp only at returned
  rw [is] at returned
  cases returned
  rcases good with null | good
  · cases null
  · have usable := good.usable
    have ends : (Umalloc.block h.mem (header 0x8204)).hi = 0x8204 := by
      show 0x81fc + 8 * size h.mem 0x81fc = _
      rw [unit]
    rw [ends] at usable
    omega

end

/-- **`malloc` returns null or a block that is large enough exactly for the requests whose bytes `sbrk` can be asked
for**: those up to `2 ^ 31 - 16`. From every state that satisfies the allocator's invariant and whatever pages are left,
such a request ends with null or with a block of its size inside the process that overlaps no live block; for every larger
request there is a process whose `malloc` returns something else. -/
theorem malloc_large_enough_iff (nbytes : BitVec 32) :
    (∀ base (q : Process), q.Valid base → q.MallocOk base nbytes.toNat) ↔ nbytes.toNat ≤ 2 ^ 31 - 16 := by
  refine ⟨fun ok => ?_, fun small base q valid => malloc_ok valid small⟩
  by_contra large
  have bad := ok 0x100 newProcess newProcess_valid
  have word := nbytes.isLt
  by_cases wraps : nbytes.toNat ≤ 2 ^ 32 - 8
  · exact malloc_beyond (by omega) wraps bad
  · exact malloc_wraps (by omega) word bad

/-- The first call in a process of four pages, for `0xffffffff` bytes: the block has one unit, which is its header. -/
theorem malloc_returns_empty_block : ∃ q', Process.malloc 0x1000 3 0xffffffff ⟨start fun _ => 0, 0x4000⟩ [true] =
      some (0xc000, q', []) ∧ Process.Valid 0x1000 ⟨start fun _ => 0, 0x4000⟩ ∧
      (block q'.heap.mem (header 0xc000)).hi = 0xc000 ∧ ¬ q'.Block 0xffffffff 0xc000 := by
  have run : (Process.malloc 0x1000 3 0xffffffff ⟨start fun _ => 0, 0x4000⟩ [true]).map
      (fun x => (x.1, x.2.2, (block x.2.1.heap.mem (header 0xc000)).hi)) = some (0xc000, [], 0xc000) := by decide +kernel
  obtain ⟨⟨r, q', fits⟩, ends, facts⟩ := Option.map_eq_some_iff.1 run
  obtain ⟨rfl, rest⟩ := Prod.mk.inj facts
  obtain ⟨rfl, hi⟩ := Prod.mk.inj rest
  refine ⟨q', ends, ⟨Or.inl ⟨rfl, rfl, rfl⟩, by simp [start], by decide, by decide, by decide⟩, hi, fun good => ?_⟩
  have usable := good.usable
  rw [hi] at usable
  omega

end Xv6.Umalloc
