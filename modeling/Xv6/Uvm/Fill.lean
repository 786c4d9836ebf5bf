import Xv6.Uvm.Dealloc

/-!
# Filling a range of user pages

`allocuvm` and `copyuvm` both go over the pages of a range, take a page of memory for each, give it its
contents and map it. `Filled` says how far they got. As long as every page table was to be had, all pages
taken are mapped; for a page whose page table was not, the page of memory is lost.
-/

namespace Xv6.Uvm

open Xv6.Lib Xv6.Vm

section
variable {L : Layout} {d p : Page} {s s1 s2 s3 : State} {k : Nat}

/-- A page of memory taken from the free list and given its contents. -/
structure Takes (L : Layout) (d p : Page) (s s' : State) : Prop where
  wf : Wf L s' d
  same : SameTables d s.mem s'.mem
  fresh : ¬ Has s' d p
  valid : L.Valid p
  has : ∀ q, Has s d q ↔ q = p ∨ Has s' d q
  grows : Grows d s s'

theorem Wf.takes (wf : Wf L s d) {c : BitVec 12 → Byte} (free : s.freelist = p :: s1.freelist) (mem : s1.mem = setPage s.mem p c) :
    Takes L d p s s1 := by
  have isFree : p ∈ s.freelist := by rw [free]; exact List.mem_cons_self
  have same : SameTables d s.mem s1.mem := by rw [mem]; exact sameTables_setPage (wf.not_table isFree)
  have popped : Wf L { s with freelist := s1.freelist } d ∧ _ := wf.pop rfl free
  obtain ⟨wf', fresh, valid, has⟩ := popped
  have has' : ∀ q, Has s1 d q ↔ Has { s with freelist := s1.freelist } d q := fun q => by rw [Has, Has, holds_sameTables same]
  refine ⟨wf'.congr same rfl, same, fun member => fresh ((has' p).1 member), valid, fun q => by rw [has, has'], ⟨?_, ?_, ?_, ?_⟩⟩
  · rw [free]
    exact List.suffix_cons p _
  · exact fun i _ => same.directory i
  · exact fun q table => .inl (same.table.1 table)
  · intro q outside _ o
    have other : q ≠ p := fun same => outside (same ▸ isFree)
    rw [mem, setPage_ne other]

end

/-- The pages of the addresses from `k0` up to `k` have been dealt with, page `j` to be mapped with `flags j` and the bytes
`c j`. -/
structure Filled (L : Layout) (d : Page) (flags : Nat → Word) (c : Nat → BitVec 12 → Byte) (k0 k : Nat) (s s' : State)
    (t : List Event) : Prop where
  wf : Wf L s' d
  grows : Grows d s s'
  less : ∀ p, Has s' d p → Has s d p
  outside : ∀ j < 2 ^ 20, ¬ (k0 ≤ j ∧ j < k) → pteAt s'.mem d j = pteAt s.mem d j
  keeps : Fine t → ∀ p, Has s d p → Has s' d p
  pages : Fine t → ∀ j, k0 ≤ j → j < k →
    ∃ f ∈ s.freelist, pteAt s'.mem d j = addr f ||| flags j ||| PTE_P ∧ ∀ o, s'.mem ⟨f, o⟩ = c j o
  taken : Fine t → ∀ p, .kalloc .mem (some p) ∈ t → ∃ j, k0 ≤ j ∧ j < k ∧ holds s'.mem d (.user j) = some p
  lost : ¬ Fine t → ∃ j p, k0 ≤ j ∧ j < k ∧ ¬ present (pteAt s'.mem d j) = true ∧
    .kalloc .mem (some p) ∈ t ∧ p ∈ s.freelist ∧ ¬ Has s' d p

section
variable {L : Layout} {d p : Page} {s s1 s2 s3 : State} {k0 k : Nat} {flags : Nat → Word} {c : Nat → BitVec 12 → Byte}
  {t t' : List Event}

theorem Filled.start (wf : Wf L s d) (k : Nat) : Filled L d flags c k k s s [] :=
  ⟨wf, .refl d s, fun _ => id, fun _ _ _ => rfl, fun _ _ => id, (by omega), (by simp), fun failed => absurd (by simp [Fine]) failed⟩

/-- A request that failed. -/
theorem Filled.refused (filled : Filled L d flags c k0 k s s1 t) (mem : s2.mem = s1.mem) (free : s2.freelist = s1.freelist) :
    Filled L d flags c k0 k s s2 (t ++ [.kalloc .mem none]) := by
  have same : SameTables d s1.mem s2.mem := by rw [mem]; exact .refl d s1.mem
  have has : ∀ p, Has s2 d p ↔ Has s1 d p := fun p => by rw [Has, Has, mem, free]
  have fine : Fine (t ++ [.kalloc .mem none]) ↔ Fine t := by simp [Fine]
  have event : ∀ p, .kalloc .mem (some p) ∈ t ++ [Event.kalloc .mem none] ↔ .kalloc .mem (some p) ∈ t := fun p => by simp
  obtain ⟨wf, grows, less, outside, keeps, pages, taken, lost⟩ := filled
  refine ⟨wf.congr same free, ⟨?_, ?_, ?_, ?_⟩, fun p member => less p ((has p).1 member), ?_, ?_, ?_, ?_, ?_⟩
  · rw [free]; exact grows.free
  · rw [mem]; exact grows.tables
  · rw [mem]; exact grows.new
  · rw [mem]; exact grows.frame
  · rw [mem]; exact outside
  · exact fun isFine p member => (has p).2 (keeps (fine.1 isFine) p member)
  · rw [mem]; exact fun isFine => pages (fine.1 isFine)
  · rw [mem]; exact fun isFine p member => taken (fine.1 isFine) p ((event p).1 member)
  · intro failed
    obtain ⟨j, p, low, high, absent, asked, isFree, gone⟩ := lost fun isFine => failed (fine.2 isFine)
    exact ⟨j, p, low, high, by rw [mem]; exact absent, (event p).2 asked, isFree, fun member => gone ((has p).1 member)⟩

/-- A page that is mapped keeps its bytes while others are being mapped. -/
theorem Wf.user_page {w : Word} (wf : Wf L s d) (isUser : k < USERPAGES) (flag : frame w = 0#20)
    (pte : pteAt s.mem d k = addr p ||| w ||| PTE_P) : holds s.mem d (.user k) = some p ∧ p ∉ s.freelist ∧ ¬ Table s.mem d p := by
  have held : holds s.mem d (.user k) = some p := by
    rw [holds_user, pte]
    exact ⟨isUser, present_pte _ _, frame_pte p flag⟩
  exact ⟨held, wf.user_apart held⟩

theorem kalloc_event {e e' : List Event} (only : OnlyTables e') :
    .kalloc .mem (some p) ∈ t ++ (e ++ e') ↔ .kalloc .mem (some p) ∈ t ∨ .kalloc .mem (some p) ∈ e := by
  have none : Event.kalloc .mem (some p) ∉ e' := fun member => by
    obtain ⟨r, same⟩ := only _ member
    cases same
  simp [none]

/-- The page taken is mapped. -/
theorem Filled.mapped (filled : Filled L d flags c k0 k s s1 t) (from_ : k0 ≤ k) (isUser : k < USERPAGES)
    (flag : ∀ j, frame (flags j) = 0#20) (takes : Takes L d p s1 s2) (bytes : ∀ o, s2.mem ⟨p, o⟩ = c k o) (isFree : p ∈ s1.freelist)
    (mapped : Mapped L d k p (flags k) 1 s2 s3) (only : OnlyTables t') (fine' : Fine t') :
    Filled L d flags c k0 (k + 1) s s3 (t ++ ([.kalloc .mem (some p)] ++ t')) := by
  have isUser' : k < 0x80000 := isUser
  have fine : Fine (t ++ ([.kalloc .mem (some p)] ++ t')) ↔ Fine t := by
    rw [fine_append, fine_append]
    exact and_iff_left ⟨by simp [Fine], fine'⟩
  have grows : Grows d s1 s3 := takes.grows.trans mapped.grows
  have has : ∀ q, Has s3 d q ↔ Has s1 d q := fun q => by
    rw [mapped.has, takes.has, or_comm]
    simp [isUser]
  have pte : ∀ j < 2 ^ 20, pteAt s3.mem d j = if j = k then addr p ||| flags k ||| PTE_P else pteAt s1.mem d j := by
    intro j small
    rw [mapped.pte j small, pteAt_sameTables takes.same]
    by_cases here : j = k
    · subst here
      simp
    · rw [if_neg (by omega), if_neg here]
  refine ⟨mapped.wf, filled.grows.trans grows, fun q member => filled.less q ((has q).1 member), ?_, ?_, ?_, ?_, ?_⟩
  · intro j small away
    rw [pte j small, if_neg (by omega), filled.outside j small (by omega)]
  · exact fun isFine q member => (has q).2 (filled.keeps (fine.1 isFine) q member)
  · intro isFine j low high
    rw [pte j (by omega)]
    by_cases here : j = k
    · subst here
      refine ⟨p, filled.grows.free.subset isFree, if_pos rfl, fun o => ?_⟩
      rw [mapped.grows.frame p (fun free => takes.fresh (.inl free)) (not_table_of_not_has takes.fresh), bytes]
    · obtain ⟨f, old, maps, contents⟩ := filled.pages (fine.1 isFine) j low (by omega)
      obtain ⟨-, notFree, notTable⟩ := filled.wf.user_page (by unfold USERPAGES; omega) (flag j) maps
      refine ⟨f, old, by rw [if_neg here, maps], fun o => ?_⟩
      rw [grows.frame f notFree notTable, contents]
  · intro isFine q member
    rcases (kalloc_event only).1 member with old | new
    · obtain ⟨j, low, high, held⟩ := filled.taken (fine.1 isFine) q old
      refine ⟨j, low, by omega, ?_⟩
      rw [holds_user] at held ⊢
      rw [pte j (by omega), if_neg (by omega)]
      exact held
    · obtain rfl : q = p := by simpa using new
      refine ⟨k, from_, by omega, ?_⟩
      rw [holds_user, pte k (by omega), if_pos rfl]
      exact ⟨isUser, present_pte _ _, frame_pte q (flag k)⟩
  · intro failed
    obtain ⟨j, q, low, high, absent, asked, wasFree, gone⟩ := filled.lost fun isFine => failed (fine.2 isFine)
    refine ⟨j, q, low, by omega, ?_, (kalloc_event only).2 (.inl asked), wasFree, fun member => gone ((has q).1 member)⟩
    rw [pte j (by omega), if_neg (by omega)]
    exact absent

/-- There is no page table for it: the page taken is lost. -/
theorem Filled.unmapped (filled : Filled L d flags c k0 k s s1 t) (from_ : k0 ≤ k) (isUser : k < USERPAGES)
    (absent : ¬ present (pteAt s.mem d k) = true) (takes : Takes L d p s1 s2) (isFree : p ∈ s1.freelist)
    (mapped : Mapped L d k p (flags k) 0 s2 s3) (only : OnlyTables t') (failed : ¬ Fine t') :
    Filled L d flags c k0 (k + 1) s s3 (t ++ ([.kalloc .mem (some p)] ++ t')) := by
  have isUser' : k < 0x80000 := isUser
  have notFine : ¬ Fine (t ++ ([.kalloc .mem (some p)] ++ t')) := fun isFine =>
    failed (fine_append.1 (fine_append.1 isFine).2).2
  have has : ∀ q, Has s3 d q ↔ Has s2 d q := fun q => by
    rw [mapped.has]
    simp
  have pte : ∀ j < 2 ^ 20, pteAt s3.mem d j = pteAt s1.mem d j := fun j small => by
    rw [mapped.pte j small, if_neg (by omega), pteAt_sameTables takes.same]
  refine ⟨mapped.wf, filled.grows.trans (takes.grows.trans mapped.grows), ?_, ?_, fun isFine => absurd isFine notFine,
    fun isFine => absurd isFine notFine, fun isFine => absurd isFine notFine, fun _ => ?_⟩
  · exact fun q member => filled.less q ((takes.has q).2 (.inr ((has q).1 member)))
  · intro j small away
    rw [pte j small, filled.outside j small (by omega)]
  · refine ⟨k, p, from_, by omega, ?_, (kalloc_event only).2 (.inr List.mem_cons_self), filled.grows.free.subset isFree,
      fun member => takes.fresh ((has p).1 member)⟩
    rw [pte k (by omega), filled.outside k (by omega) (by omega)]
    exact absent

/-- The round for page `k`, after a page of memory was found and given its bytes. -/
theorem fill_round (filled : Filled L d flags c k0 k s s1 t) (from_ : k0 ≤ k) (isUser : k < USERPAGES)
    (absent : ¬ present (pteAt s.mem d k) = true) (flag : ∀ j, frame (flags j) = 0#20) (free : s1.freelist = p :: s2.freelist)
    (mem : s2.mem = setPage s1.mem p (c k)) :
    Eff.succeeds (mappages d (pageAddr k) pgsize (addr p) (flags k))
      (fun r s3 t' => OnlyTables t' ∧
        (r = 0 ∧ Fine t' ∧ (∀ m, Plenty d m s2 → Plenty d m s3) ∨ r = -1 ∧ ¬ Fine t' ∧ ∀ m, ¬ Plenty d m s2) ∧
        Filled L d flags c k0 (k + 1) s s3 (t ++ ([.kalloc .mem (some p)] ++ t'))) s2 := by
  have isUser' : k < 0x80000 := isUser
  have isFree : p ∈ s1.freelist := by rw [free]; exact List.mem_cons_self
  have takes := filled.wf.takes free mem
  have absent' : ¬ present (pteAt s2.mem d k) = true := by
    rw [pteAt_sameTables takes.same, filled.outside k (by omega) (by omega)]
    exact absent
  refine Eff.succeeds_mono (mappages_page (flag k) isUser takes.wf absent' takes.valid takes.fresh) ?_
  rintro r s3 t' ⟨only, ⟨rfl, fine, plenty, mapped⟩ | ⟨rfl, failed, scarce, mapped⟩⟩
  · have bytes : ∀ o, s2.mem ⟨p, o⟩ = c k o := fun o => by rw [mem, setPage_self]
    exact ⟨only, .inl ⟨rfl, fine, plenty⟩, filled.mapped from_ isUser flag takes bytes isFree mapped only fine⟩
  · exact ⟨only, .inr ⟨rfl, failed, scarce⟩, filled.unmapped from_ isUser absent takes isFree mapped only failed⟩

end

end Xv6.Uvm
