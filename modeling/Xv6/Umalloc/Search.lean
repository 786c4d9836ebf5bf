import Xv6.Umalloc.Malloc

/-!
# The loop of `malloc`

One walk around the free list meets every block. If none is large enough, `morecore` puts a
block on the list that is, and the second walk finds one. So `malloc` returns, and calls
`sbrk` at most once.
-/

namespace Xv6.Umalloc
open Lib

/-! ## More rounds change nothing -/

section
variable {base rounds nu nunits prevp p bp ap : Nat} {m : Bytes} {h h' : Heap} {answers : List Answer}
  {x : Nat × Heap × List Answer}

theorem findPrev_mono {q : Nat} (ends : findPrev rounds m bp p = some q) : findPrev (rounds + 1) m bp p = some q := by
  induction rounds generalizing p with
  | zero => cases ends
  | succ rounds ih =>
    rw [findPrev] at ends ⊢
    split at ends
    next stops => rw [if_pos stops, ends]
    next go =>
      rw [if_neg go]
      exact ih ends

theorem free_eq_none (lost : findPrev rounds h.mem (header ap) h.freep = none) : free rounds ap h = none := by
  rw [free, lost]

theorem free_eq_some (found : findPrev rounds h.mem (header ap) h.freep = some p) : free rounds ap h =
    some { h with mem := join (join h.mem (header ap) fun m => ptr m p) p fun _ => header ap, freep := p } := by
  rw [free, found]

theorem free_mono (ends : free rounds ap h = some h') : free (rounds + 1) ap h = some h' := by
  cases found : findPrev rounds h.mem (header ap) h.freep with
  | none =>
    rw [free_eq_none found] at ends
    cases ends
  | some p =>
    rw [free_eq_some found] at ends
    rw [free_eq_some (findPrev_mono found), ends]

theorem morecore_eq_none (lost : sbrk base (atLeast nu * sizeofHeader % 2 ^ 32) h answers = none) :
    morecore base rounds nu h answers = none := by
  rw [morecore, lost]

theorem morecore_eq_zero {answers' : List Answer}
    (refused : sbrk base (atLeast nu * sizeofHeader % 2 ^ 32) h answers = some (none, h', answers')) :
    morecore base rounds nu h answers = some (0, h', answers') := by
  rw [morecore, refused]

theorem morecore_eq_free {answers' : List Answer} {hp : Nat}
    (given : sbrk base (atLeast nu * sizeofHeader % 2 ^ 32) h answers = some (some hp, h', answers')) :
    morecore base rounds nu h answers =
      (free rounds (plus hp 1) { h' with mem := setSize h'.mem hp (atLeast nu) }).map fun h => (h.freep, h, answers') := by
  rw [morecore, given]

theorem morecore_mono (ends : morecore base rounds nu h answers = some x) :
    morecore base (rounds + 1) nu h answers = some x := by
  cases asked : sbrk base (atLeast nu * sizeofHeader % 2 ^ 32) h answers with
  | none =>
    rw [morecore_eq_none asked] at ends
    cases ends
  | some y =>
    obtain ⟨answer, h1, answers1⟩ := y
    cases answer with
    | none =>
      rw [morecore_eq_zero asked] at ends ⊢
      exact ends
    | some hp =>
      rw [morecore_eq_free asked] at ends ⊢
      obtain ⟨h2, freed, rfl⟩ := Option.map_eq_some_iff.1 ends
      rw [free_mono freed, Option.map_some]

/-- What the loop does when it has come round. -/
def extend (base rounds nunits : Nat) (h : Heap) (answers : List Answer) : Option (Nat × Heap × List Answer) :=
  match morecore base rounds nunits h answers with
  | none => none
  | some (p, h, answers) =>
    if p = 0 then some (0, h, answers) else search base rounds nunits p (ptr h.mem p) h answers

theorem extend_eq_none (lost : morecore base rounds nunits h answers = none) :
    extend base rounds nunits h answers = none := by
  rw [extend, lost]

theorem extend_eq_some {answers' : List Answer} (more : morecore base rounds nunits h answers = some (p, h', answers')) :
    extend base rounds nunits h answers =
      if p = 0 then some (0, h', answers') else search base rounds nunits p (ptr h'.mem p) h' answers' := by
  rw [extend, more]

theorem search_fits (fits : size h.mem p ≥ nunits) : search base (rounds + 1) nunits prevp p h answers =
    some ((take nunits prevp p h).1, (take nunits prevp p h).2, answers) := by
  rw [search, if_pos fits]

theorem search_round (small : ¬ size h.mem p ≥ nunits) (round : p = h.freep) :
    search base (rounds + 1) nunits prevp p h answers = extend base rounds nunits h answers := by
  rw [search, if_neg small, if_pos round]
  unfold extend
  cases morecore base rounds nunits h answers <;> rfl

theorem search_next (small : ¬ size h.mem p ≥ nunits) (other : p ≠ h.freep) :
    search base (rounds + 1) nunits prevp p h answers = search base rounds nunits p (ptr h.mem p) h answers := by
  rw [search, if_neg small, if_neg other]

theorem search_mono (ends : search base rounds nunits prevp p h answers = some x) :
    search base (rounds + 1) nunits prevp p h answers = some x := by
  induction rounds generalizing prevp p h answers with
  | zero => cases ends
  | succ rounds ih =>
    by_cases small : size h.mem p ≥ nunits
    · rw [search_fits small] at ends ⊢
      exact ends
    by_cases round : p = h.freep
    · rw [search_round small round] at ends ⊢
      cases more : morecore base rounds nunits h answers with
      | none =>
        rw [extend_eq_none more] at ends
        cases ends
      | some y =>
        obtain ⟨q, h1, answers1⟩ := y
        rw [extend_eq_some more] at ends
        rw [extend_eq_some (morecore_mono more)]
        by_cases null : q = 0
        · rw [if_pos null] at ends ⊢
          exact ends
        · rw [if_neg null] at ends ⊢
          exact ih ends
    · rw [search_next small round] at ends ⊢
      exact ih ends

theorem search_mono_le {rounds' : Nat} (le : rounds ≤ rounds') (ends : search base rounds nunits prevp p h answers = some x) :
    search base rounds' nunits prevp p h answers = some x := by
  induction le with
  | refl => exact ends
  | step _ ih => exact search_mono ih

end

/-! ## One walk -/

section
variable {base n nunits prevp p : Nat} {a : Arena} {h : Heap} {answers : List Answer}

/-- The walk ends at a block that is large enough, or comes round. -/
theorem search_walk (base nunits : Nat) {vs : List Nat} (linked : Linked (ptr h.mem) p vs h.freep) (link : ptr h.mem prevp = p)
    (others : ∀ x ∈ vs, x ≠ h.freep) :
    (∃ prev ∈ prevp :: vs, nunits ≤ size h.mem (ptr h.mem prev) ∧ ∀ answers rounds, vs.length < rounds →
      search base rounds nunits prevp p h answers =
        some ((take nunits prev (ptr h.mem prev) h).1, (take nunits prev (ptr h.mem prev) h).2, answers)) ∨
    ((∀ x ∈ vs ++ [h.freep], size h.mem x < nunits) ∧ ∀ answers rounds,
      search base (rounds + vs.length + 1) nunits prevp p h answers = extend base rounds nunits h answers) := by
  induction vs generalizing prevp p with
  | nil =>
    have round : p = h.freep := linked
    by_cases fits : size h.mem p ≥ nunits
    · refine Or.inl ⟨prevp, List.mem_cons_self, link ▸ fits, fun answers rounds enough => ?_⟩
      obtain ⟨rounds, rfl⟩ := Nat.exists_eq_add_one_of_ne_zero (Nat.ne_of_gt enough)
      rw [search_fits fits, link]
    · refine Or.inr ⟨fun x member => ?_, fun answers rounds => ?_⟩
      · rw [List.nil_append, List.mem_singleton] at member
        rw [member, ← round]
        omega
      · exact search_round fits round
  | cons c vs ih =>
    obtain ⟨rfl, rest⟩ := linked
    by_cases fits : size h.mem p ≥ nunits
    · refine Or.inl ⟨prevp, List.mem_cons_self, link ▸ fits, fun answers rounds enough => ?_⟩
      obtain ⟨rounds, rfl⟩ := Nat.exists_eq_add_one_of_ne_zero (Nat.ne_of_gt (Nat.zero_lt_of_lt enough))
      rw [search_fits fits, link]
    · have other := others p List.mem_cons_self
      rcases ih rest rfl (fun x member => others x (List.mem_cons_of_mem p member)) with
        ⟨prev, member, large, ends⟩ | ⟨small, ends⟩
      · refine Or.inl ⟨prev, List.mem_cons_of_mem prevp member, large, fun answers rounds enough => ?_⟩
        rw [List.length_cons] at enough
        obtain ⟨rounds, rfl⟩ := Nat.exists_eq_add_one_of_ne_zero (Nat.ne_of_gt (Nat.zero_lt_of_lt enough))
        rw [search_next fits other]
        exact ends answers rounds (by omega)
      · refine Or.inr ⟨fun x member => ?_, fun answers rounds => ?_⟩
        · rcases List.mem_cons.1 member with rfl | member
          · omega
          · exact small x member
        · rw [List.length_cons, ← Nat.add_assoc, search_next fits other]
          exact ends answers rounds

/-- One walk around the free list. -/
theorem Holds.walk (holds : Holds base h a) (nunits : Nat) :
    (∃ prev ∈ (nodes base a.frees).map Span.lo, nunits ≤ size h.mem (ptr h.mem prev) ∧ ∀ answers rounds,
      a.frees.length < rounds → search base rounds nunits h.freep (ptr h.mem h.freep) h answers =
        some ((take nunits prev (ptr h.mem prev) h).1, (take nunits prev (ptr h.mem prev) h).2, answers)) ∨
    ((∀ x ∈ (nodes base a.frees).map Span.lo, size h.mem x < nunits) ∧ ∀ answers rounds,
      search base (rounds + a.frees.length + 1) nunits h.freep (ptr h.mem h.freep) h answers =
        extend base rounds nunits h answers) := by
  obtain ⟨rep, sound⟩ := holds
  obtain ⟨before, after, whole⟩ := List.append_of_mem rep.roving
  have circle := rep.circle
  rw [whole] at circle
  have nodup : ((nodes base a.frees).map Span.lo).Nodup := sound.rising.imp fun lt => Nat.ne_of_lt lt
  rw [whole] at nodup
  have others : ∀ x ∈ after ++ before, x ≠ h.freep := by
    rintro x member rfl
    rw [List.nodup_append, List.nodup_cons] at nodup
    rcases List.mem_append.1 member with inside | inside
    · exact nodup.2.1.1 inside
    · exact nodup.2.2 _ inside _ List.mem_cons_self rfl
  have length : (after ++ before).length = a.frees.length := by
    have := congrArg List.length whole
    simp [nodes] at this
    simp
    omega
  have same (x : Nat) : x ∈ h.freep :: (after ++ before) ↔ x ∈ (nodes base a.frees).map Span.lo := by
    rw [whole]
    simp only [List.mem_cons, List.mem_append]
    tauto
  rcases search_walk base nunits circle.rotate rfl others with ⟨prev, member, large, ends⟩ | ⟨small, ends⟩
  · exact Or.inl ⟨prev, (same prev).1 member, large, fun answers rounds enough => ends answers rounds (by omega)⟩
  · refine Or.inr ⟨fun x member => small x ?_, fun answers rounds => ?_⟩
    · have := (same x).2 member
      simp only [List.mem_cons, List.mem_append] at this
      simp only [List.mem_append, List.mem_singleton]
      tauto
    · rw [← length]
      exact ends answers rounds

/-! ## Extending the free list -/

theorem sbrk_given {m p : Nat} (fresh : Fresh base h m p) (answers : List Answer) :
    sbrk base m h (some p :: answers) = some (some p, { h with regions := ⟨p, p + m⟩ :: h.regions }, answers) := by
  rw [sbrk, if_pos (show Answer.Allowed base h m (some p) from fresh)]

theorem sbrk_refused (base m : Nat) (h : Heap) (answers : List Answer) :
    sbrk base m h (none :: answers) = some (none, h, answers) := by
  rw [sbrk, if_pos (show Answer.Allowed base h m none from trivial)]

theorem sbrk_not_allowed {m : Nat} {answer : Answer} (not : ¬ answer.Allowed base h m) (answers : List Answer) :
    sbrk base m h (answer :: answers) = none := by
  rw [sbrk.eq_def]
  exact if_neg not

/-- What `sbrk` returns is outside of the blocks. -/
theorem Fresh.disjoint {m : Nat} (fresh : Fresh base h m p) :
    Disjoint (⟨p, p + m⟩ : Span).bytes (Span.cover h.regions) := by
  refine Set.disjoint_left.2 ?_
  rintro x ⟨low, _⟩ ⟨r, member, inside⟩
  have := fresh.2.2 r member
  rw [Span.mem_bytes] at inside
  exact absurd low (by show ¬ p ≤ x; omega)

/-- **`morecore` puts a block on the free list that is large enough.** -/
theorem Holds.more (holds : Holds base h a) {nu : Nat} (less : atLeast nu * sizeofHeader < 2 ^ 32)
    (fresh : Fresh base h (atLeast nu * sizeofHeader) p) : ∃ h' a', Holds base h' a' ∧
      (∀ answers rounds, a.frees.length < rounds →
        morecore base rounds nu h (some p :: answers) = some (h'.freep, h', answers)) ∧
      h'.live = h.live ∧ a'.lives = a.lives ∧ Undisturbed a h.mem h'.mem ∧ ∃ x ∈ (nodes base a'.frees).map Span.lo,
        nu ≤ size h'.mem x := by
  obtain ⟨rep, sound⟩ := holds
  have large : nu ≤ atLeast nu ∧ 1 ≤ atLeast nu := by
    unfold atLeast
    split <;> omega
  rw [sizeofHeader] at less
  obtain ⟨low, high, _⟩ := id fresh
  rw [sizeofHeader] at low high
  -- the new block, with its header filled in
  have frame : Frame (headerAt p) h.mem (setSize h.mem p (atLeast nu)) := setSize_frame
  have outside (s : Span) (room : s.lo + 8 ≤ s.hi) (inside : s.bytes ⊆ Span.cover h.regions) :
      Disjoint (headerAt s.lo) (headerAt p) := by
    refine (fresh.disjoint.symm.mono_left inside).mono (Set.Ico_subset_Ico_right room) ?_
    exact Set.Ico_subset_Ico_right (show p + 8 ≤ p + atLeast nu * sizeofHeader by rw [sizeofHeader]; omega)
  have kept (s : Span) (member : s ∈ nodes base a.frees ++ a.taken) : ptr (setSize h.mem p (atLeast nu)) s.lo = ptr h.mem s.lo ∧
      size (setSize h.mem p (atLeast nu)) s.lo = size h.mem s.lo := by
    refine frame.header ?_
    rcases List.mem_append.1 member with node | taken
    · rcases List.mem_cons.1 node with rfl | free
      · exact headerAt_disjoint (Or.inl low)
      · obtain ⟨_, room, _, inside⟩ := sound.free_mem free
        exact outside s room inside
    · obtain ⟨_, room, _, inside⟩ := sound.taken_mem taken
      exact outside s room inside
  have rep1 : Represents base { h with mem := setSize h.mem p (atLeast nu), regions := ⟨p, p + atLeast nu * sizeofHeader⟩ :: h.regions } a := by
    refine ⟨rep.circle.congr fun x member => ?_, fun s member => ?_, fun s member => ?_, rep.roving, rep.live⟩
    · obtain ⟨s, node, rfl⟩ := List.mem_map.1 member
      exact (kept s (List.mem_append_left _ node)).1
    · exact (rep.sizes s member).congr (kept s (List.mem_append_left _ member)).2
    · exact (rep.takenSizes s member).congr (kept s (List.mem_append_right _ member)).2
  have loose : Loose base (Span.cover h.regions)
      { h with mem := setSize h.mem p (atLeast nu), regions := ⟨p, p + atLeast nu * sizeofHeader⟩ :: h.regions }
      ⟨p, p + atLeast nu * sizeofHeader⟩ := by
    refine ⟨?_, ?_, fresh.disjoint, low, ?_⟩
    · show p + 8 * size (setSize h.mem p (atLeast nu)) p = p + atLeast nu * sizeofHeader
      rw [size_setSize (by omega), sizeofHeader, Nat.mul_comm]
    · show p + 8 ≤ p + atLeast nu * 8
      omega
    · exact high
  obtain ⟨h', frees', freed, regions, undisturbed, rep', sound', t, member, lo, hi⟩ := free_spec rep1 sound loose
  have lo : t.lo ≤ p := lo
  have hi : p + atLeast nu * 8 ≤ t.hi := hi
  refine ⟨h', { a with frees := frees' }, ⟨rep', ?_⟩, fun answers rounds enough => ?_, ?_, rfl, ?_, t.lo, ?_, ?_⟩
  · rw [regions, Span.cover_cons, Set.union_comm]
    exact sound'
  · have amount : atLeast nu * sizeofHeader % 2 ^ 32 = atLeast nu * sizeofHeader := Nat.mod_eq_of_lt less
    have asked := (congrArg (fun n => sbrk base n h (some p :: answers)) amount).trans (sbrk_given fresh answers)
    rw [morecore_eq_free asked, plus_eq (by omega), Nat.mul_one]
    rw [freed rounds enough, Option.map_some]
  · exact rep'.live.trans rep.live.symm
  · intro s taken x inside
    rw [undisturbed s taken x inside]
    obtain ⟨_, _, _, sub⟩ := sound.taken_mem taken
    refine frame x fun header => ?_
    refine Set.disjoint_left.1 (fresh.disjoint.symm.mono_left sub) inside ?_
    exact Set.Ico_subset_Ico_right (show p + 8 ≤ p + atLeast nu * sizeofHeader by rw [sizeofHeader]; omega) header
  · exact List.mem_map_of_mem (List.mem_cons_of_mem _ member)
  · have sized : t.lo + 8 * size h'.mem t.lo = t.hi := rep'.sizes t (List.mem_cons_of_mem _ member)
    omega

/-! ## The loop -/

theorem units_spec (small : n < 2 ^ 31) : 0 < units n ∧ n + 8 ≤ 8 * units n ∧ atLeast (units n) * sizeofHeader < 2 ^ 32 := by
  unfold units atLeast sizeofHeader
  split <;> omega

/-- `malloc` has returned null, or a block. -/
def Returns (base : Nat) (h : Heap) (a : Arena) (n r : Nat) (h' : Heap) : Prop :=
  (r = 0 ∧ h' = h) ∨ Gives base h a n r h'

/-- **The loop of `malloc`.** It finds a block without calling `sbrk`, or calls it once. -/
theorem Holds.loop (holds : Holds base h a) (positive : 0 < base) (small : n < 2 ^ 31) :
    (∃ r h', Gives base h a n r h' ∧ ∃ bound, ∀ answers rounds, bound ≤ rounds →
      search base rounds (units n) h.freep (ptr h.mem h.freep) h answers = some (r, h', answers)) ∨
    ((∀ rounds, search base rounds (units n) h.freep (ptr h.mem h.freep) h [] = none) ∧
      ∀ answer : Answer, if answer.Allowed base h (atLeast (units n) * sizeofHeader) then
        ∃ r h', Returns base h a n r h' ∧ ∃ bound, ∀ answers rounds, bound ≤ rounds →
          search base rounds (units n) h.freep (ptr h.mem h.freep) h (answer :: answers) = some (r, h', answers)
      else ∀ answers rounds, search base rounds (units n) h.freep (ptr h.mem h.freep) h (answer :: answers) = none) := by
  obtain ⟨some_, enough, less⟩ := units_spec small
  rcases holds.walk (units n) with ⟨prev, member, fits, ends⟩ | ⟨_, ends⟩
  · exact Or.inl ⟨_, _, take_spec holds member some_ fits enough, a.frees.length + 1, ends⟩
  -- without an answer the loop never ends
  have stuck (answers : List Answer) (lost : sbrk base (atLeast (units n) * sizeofHeader % 2 ^ 32) h answers = none) (rounds : Nat) :
      search base rounds (units n) h.freep (ptr h.mem h.freep) h answers = none := by
    cases result : search base rounds (units n) h.freep (ptr h.mem h.freep) h answers with
    | none => rfl
    | some x =>
      have more := search_mono_le (Nat.le_add_right rounds (a.frees.length + 1)) result
      rw [← Nat.add_assoc, ends, extend_eq_none (morecore_eq_none lost)] at more
      cases more
  refine Or.inr ⟨stuck [] rfl, fun answer => ?_⟩
  split
  next allowed =>
    cases answer with
    | none =>
      refine ⟨0, h, Or.inl ⟨rfl, rfl⟩, a.frees.length + 1, fun answers rounds enough => ?_⟩
      obtain ⟨k, rfl⟩ := Nat.exists_eq_add_of_le enough
      rw [show a.frees.length + 1 + k = k + a.frees.length + 1 by omega, ends,
        extend_eq_some (morecore_eq_zero (sbrk_refused _ _ _ _)), if_pos rfl]
    | some p =>
      obtain ⟨h1, a1, holds1, more, live, lives, undisturbed, x, member, large⟩ := holds.more less allowed
      rcases holds1.walk (units n) with ⟨prev, member1, fits, ends1⟩ | ⟨none1, _⟩
      · obtain ⟨nonnull, live1, undisturbed1, frees', new, holds'⟩ := take_spec holds1 member1 some_ fits enough
        have same : a1.taken = a.taken := by rw [Arena.taken, lives, Arena.taken]
        have gives : Gives base h a n _ _ := ⟨nonnull, live1.trans live, fun s taken x inside =>
          (undisturbed1 s (same ▸ taken) x inside).trans (undisturbed s taken x inside), frees', new, lives ▸ holds'⟩
        refine ⟨_, _, Or.inr gives, 2 * (a.frees.length + a1.frees.length + 2), fun answers rounds enough => ?_⟩
        obtain ⟨k, rfl⟩ : ∃ k, rounds = k + a.frees.length + 1 := ⟨rounds - (a.frees.length + 1), by omega⟩
        have nonzero : h1.freep ≠ 0 := by
          have := holds1.2.least _ holds1.1.roving
          omega
        rw [ends, extend_eq_some (more answers k (by omega)), if_neg nonzero, ends1 answers k (by omega)]
      · exact absurd (none1 x member) (by omega)
  next not =>
    intro answers
    refine stuck _ ?_
    rw [Nat.mod_eq_of_lt less, sbrk_not_allowed not]

end

end Xv6.Umalloc
