import Xv6.Uvm.Mapping

/-!
# Giving pages back

What `deallocuvm` and `freevm` do to a well-formed page directory. `deallocuvm` jumps over as many
pages as a page table has when there is no page table for an address; it misses no page if it starts
at the first page of a page table or at a page that has one.
-/

namespace Xv6.Uvm

open Xv6.Lib Xv6.Lib.Eff Xv6.Vm

/-- The page that `kfree` is called on. -/
def Event.freed : Event → Option Page
  | .kfree p => some p
  | .kalloc _ _ => none

/-- The pages that `kfree` is called on. -/
def freed (t : List Event) : List Page := t.filterMap Event.freed

theorem freed_append (t t' : List Event) : freed (t ++ t') = freed t ++ freed t' := List.filterMap_append

theorem mem_freed {t : List Event} {p : Page} : p ∈ freed t ↔ Event.kfree p ∈ t := by
  rw [freed, List.mem_filterMap]
  constructor
  · rintro ⟨e, member, isFree⟩
    cases e with
    | kfree q => cases isFree; exact member
    | kalloc use r => cases isFree
  · intro member
    exact ⟨_, member, rfl⟩

/-- The pages in `R` are not present any more, and the pages of memory behind them are free. -/
structure Released (L : Layout) (d : Page) (R : Nat → Prop) (s s' : State) (t : List Event) : Prop where
  wf : Wf L s' d
  has : ∀ p, Has s' d p ↔ Has s d p
  directory : ∀ i, entry s'.mem d i = entry s.mem d i
  gone : ∀ j < 2 ^ 20, R j → ¬ present (pteAt s'.mem d j) = true
  kept : ∀ j < 2 ^ 20, ¬ R j → pteAt s'.mem d j = pteAt s.mem d j
  events : ∀ e ∈ t, ∃ p, e = .kfree p
  freed : ∀ p, p ∈ freed t ↔ ∃ j, R j ∧ holds s.mem d (.user j) = some p
  free : s'.freelist = (Uvm.freed t).reverse ++ s.freelist
  frame : ∀ p, ¬ Table s.mem d p → p ∉ Uvm.freed t → ∀ o, s'.mem ⟨p, o⟩ = s.mem ⟨p, o⟩

section
variable {L : Layout} {d : Page} {s s' s'' : State} {t t' : List Event} {R R' : Nat → Prop} {k : Nat}

/-- Pages that are not present need nothing to be done. -/
theorem Released.nothing (wf : Wf L s d) (absent : ∀ j, R j → ¬ present (pteAt s.mem d j) = true) :
    Released L d R s s [] where
  wf := wf
  has _ := Iff.rfl
  directory _ := rfl
  gone j _ := absent j
  kept _ _ _ := rfl
  events := by simp
  freed p := by
    constructor
    · rintro ⟨⟩
    · rintro ⟨j, member, held⟩
      exact absurd (holds_user.1 held).2.1 (absent j member)
  free := rfl
  frame _ _ _ _ := rfl

theorem Released.table (released : Released L d R s s' t) (p : Page) : Table s'.mem d p ↔ Table s.mem d p := by
  simp only [Table, released.directory]

/-- An entry that is kept keeps its page. -/
theorem Released.holds (released : Released L d R s s' t) {j : Nat} {p : Page} :
    holds s'.mem d (.user j) = some p ↔ ¬ R j ∧ holds s.mem d (.user j) = some p := by
  rw [holds_user, holds_user]
  constructor
  · rintro ⟨isUser, has, same⟩
    have small : j < 2 ^ 20 := lt_trans isUser (by decide)
    have outside : ¬ R j := fun inside => released.gone j small inside has
    rw [released.kept j small outside] at has same
    exact ⟨outside, isUser, has, same⟩
  · rintro ⟨outside, isUser, has, same⟩
    rw [released.kept j (lt_trans isUser (by decide)) outside]
    exact ⟨isUser, has, same⟩

theorem Released.trans (first : Released L d R s s' t) (second : Released L d R' s' s'' t') :
    Released L d (fun j => R j ∨ R' j) s s'' (t ++ t') where
  wf := second.wf
  has p := (second.has p).trans (first.has p)
  directory i := (second.directory i).trans (first.directory i)
  gone j small := by
    rintro (inside | inside)
    · by_cases inside' : R' j
      · exact second.gone j small inside'
      · rw [second.kept j small inside']
        exact first.gone j small inside
    · exact second.gone j small inside
  kept j small outside := by
    rw [second.kept j small fun h => outside (.inr h), first.kept j small fun h => outside (.inl h)]
  events e member := (List.mem_append.1 member).elim (first.events e) (second.events e)
  freed p := by
    rw [freed_append, List.mem_append, first.freed, second.freed]
    simp only [first.holds]
    constructor
    · rintro (⟨j, inside, held⟩ | ⟨j, inside, -, held⟩)
      · exact ⟨j, .inl inside, held⟩
      · exact ⟨j, .inr inside, held⟩
    · rintro ⟨j, inside, held⟩
      by_cases before : R j
      · exact .inl ⟨j, before, held⟩
      · exact .inr ⟨j, inside.resolve_left before, before, held⟩
  free := by rw [second.free, first.free, freed_append, List.reverse_append, List.append_assoc]
  frame p notTable kept o := by
    rw [freed_append, List.mem_append, not_or] at kept
    rw [second.frame p (fun table => notTable ((first.table p).1 table)) kept.2, first.frame p notTable kept.1]

theorem Released.nodup (released : Released L d R s s' t) : (Uvm.freed t).Nodup := by
  have nodup := released.wf.sound.nodup
  rw [released.free] at nodup
  exact List.nodup_reverse.1 (List.nodup_append.1 nodup).1

/-- A user page is given back and its entry cleared. -/
theorem Released.one (wf : Wf L s d) (isUser : k < USERPAGES) (has : present (pteAt s.mem d k) = true)
    (mem : s'.mem = setEntry (setPage s.mem (Vm.frame (pteAt s.mem d k)) fun _ => 1)
      (Vm.frame (entry s.mem d (high k))) (low k) 0)
    (free : s'.freelist = Vm.frame (pteAt s.mem d k) :: s.freelist) :
    Released L d (fun j => j = k) s s' [.kfree (Vm.frame (pteAt s.mem d k))] := by
  have held : Uvm.holds s.mem d (.user k) = some (Vm.frame (pteAt s.mem d k)) := holds_user.2 ⟨isUser, has, rfl⟩
  generalize Vm.frame (pteAt s.mem d k) = p at held mem free ⊢
  have small : k < 2 ^ 20 := lt_trans isUser (by decide)
  have notTable : ¬ Table s.mem d p := (wf.user_apart held).2
  -- the page first, which is no page table, and then its entry
  have same : SameTables d s.mem (setPage s.mem p fun _ => 1) := sameTables_setPage notTable
  have apart : Apart (setPage s.mem p fun _ => 1) d := apart_of_sound (by rw [holds_sameTables same]; exact wf.sound)
  rw [← same.directory (high k)] at mem
  change s'.mem = setPte _ d k 0 at mem
  have table : present (entry (setPage s.mem p fun _ => 1) d (high k)) = true := by
    rw [same.directory]
    exact table_of_present has
  have directory : ∀ i, entry s'.mem d i = entry s.mem d i := fun i => by
    rw [mem, setPte_directory apart table, same.directory]
  have pte : ∀ j < 2 ^ 20, pteAt s'.mem d j = if j = k then 0 else pteAt s.mem d j := fun j small' => by
    rw [mem, setPte_pteAt apart table small small', pteAt_sameTables same]
  have dropped : Uvm.holds s'.mem d = Function.update (Uvm.holds s.mem d) (.user k) none := by
    rw [mem, setPte_holds_user apart table isUser, holds_sameTables same]
    rfl
  obtain ⟨sound, unheld⟩ := wf.sound.drop held
  have has : ∀ q, Has s' d q ↔ Has s d q := fun q => by rw [Has, Has, dropped, free, Pool.has_cons, Pool.has_drop held]
  refine ⟨⟨?_, fun q member => wf.valid q ((has q).1 member)⟩, has, directory, ?_, ?_, ?_, ?_, free, ?_⟩
  · rw [dropped, free]
    exact sound.push unheld
  · rintro j small' rfl
    rw [pte j small', if_pos rfl]
    decide
  · intro j small' other
    rw [pte j small', if_neg other]
  · rintro e member
    exact ⟨p, List.mem_singleton.1 member⟩
  · intro q
    rw [mem_freed, List.mem_singleton, Event.kfree.injEq]
    constructor
    · rintro rfl
      exact ⟨k, rfl, held⟩
    · rintro ⟨j, rfl, held'⟩
      exact Option.some.inj (held'.symm.trans held)
  · intro q outside kept o
    have other : q ≠ p := fun same => kept (by rw [mem_freed, same]; exact List.mem_cons_self)
    have outside' : ¬ Table (setPage s.mem p fun _ => 1) d q := fun isTable => outside (same.table.1 isTable)
    rw [mem, setPte_ne table (a := ⟨q, o⟩) outside', setPage_ne other]

/-! ## `deallocuvm` -/

/-- How many pages there are up to a size. -/
def pagesUpTo (sz : Word) : Nat := (sz.toNat + 4095) / 4096

theorem pageAddr_lt {sz : Word} (small : k < 2 ^ 20) : pageAddr k < sz ↔ k < pagesUpTo sz := by
  rw [BitVec.lt_def, pageAddr_toNat small, pagesUpTo]
  omega

theorem pageAddr_jump (k : Nat) :
    pageAddr k + BitVec.ofNat 32 (NPTENTRIES - 1) * pgsize + pgsize = pageAddr (k + 1024) := by
  refine BitVec.eq_of_toNat_eq ?_
  have jump : (BitVec.ofNat 32 (NPTENTRIES - 1) * pgsize).toNat = 1023 * 4096 := rfl
  rw [BitVec.toNat_add, BitVec.toNat_add, jump, pgsize_toNat, pageAddr, pageAddr, BitVec.toNat_ofNat, BitVec.toNat_ofNat]
  omega

/-- The walk over the pages can begin at page `k` without missing any. -/
def Start (m : Mem) (d : Page) (k : Nat) : Prop := k % 1024 = 0 ∨ present (entry m d (high k)) = true

/-- The pages that are given back: some of those from `k` up to `lim`, and all of them from a good start. -/
structure Clears (L : Layout) (d : Page) (k lim : Nat) (R : Nat → Prop) (s s' : State) (t : List Event) : Prop where
  released : Released L d R s s' t
  within : ∀ j, R j → k ≤ j ∧ j < lim
  all : Start s.mem d k → ∀ j, k ≤ j → j < lim → R j

theorem Clears.empty {lim : Nat} (wf : Wf L s d) (past : lim ≤ k) : Clears L d k lim (fun _ => False) s s [] :=
  ⟨.nothing wf fun _ h => h.elim, fun _ h => h.elim, fun _ _ _ _ => by omega⟩

/-- A page that has a page table, then the rest. -/
theorem Clears.cons {lim : Nat} (before : k < lim) (small : lim ≤ USERPAGES) (table : present (entry s.mem d (high k)) = true)
    (first : Released L d (fun j => j = k) s s' t) (rest : Clears L d (k + 1) lim R s' s'' t') :
    Clears L d k lim (fun j => j = k ∨ R j) s s'' (t ++ t') where
  released := first.trans rest.released
  within j := by
    rintro (rfl | later)
    · exact ⟨le_rfl, before⟩
    · have := rest.within j later
      omega
  all _ j low high := by
    unfold USERPAGES at small
    have start : Start s'.mem d (k + 1) := by
      by_cases aligned : (k + 1) % 1024 = 0
      · exact .inl aligned
      · rw [Start, first.directory, (high_eq_iff (k := k) (by omega) (by omega)).2 (by omega)]
        exact .inr table
    rcases Nat.eq_or_lt_of_le low with rfl | later
    · exact .inl rfl
    · exact .inr (rest.all start j later high)

/-- A jump over the pages without a page table, then the rest. -/
theorem Clears.jump {lim : Nat} (small : lim ≤ USERPAGES) (wf : Wf L s d) (absent : ¬ present (entry s.mem d (high k)) = true)
    (rest : Clears L d (k + 1024) lim R s s' t) :
    Clears L d k lim (fun j => (k % 1024 = 0 ∧ k ≤ j ∧ j < k + 1024 ∧ j < lim) ∨ R j) s s' t where
  released := by
    unfold USERPAGES at small
    refine Released.trans (t := []) (.nothing wf ?_) rest.released
    rintro j ⟨aligned, low, high, inside⟩ has
    have sameHigh := (high_eq_iff (j := j) (k := k) (by omega) (by omega)).2 (by omega)
    exact absent (sameHigh ▸ table_of_present has)
  within j := by
    rintro (⟨-, low, -, inside⟩ | later)
    · exact ⟨low, inside⟩
    · have := rest.within j later
      omega
  all start j low inside := by
    have aligned : k % 1024 = 0 := start.resolve_right absent
    by_cases near : j < k + 1024
    · exact .inl ⟨aligned, low, near, inside⟩
    · exact .inr (rest.all (.inl (by omega)) j (by omega) inside)

/-- No page for `kalloc` is at address 0. -/
theorem PTE_ADDR_ne_zero {e : Word} (valid : L.Valid (Vm.frame e)) : PTE_ADDR e ≠ 0 := by
  intro zero
  have low := valid.1
  have := L.text
  have := L.order
  have isZero : (Vm.frame e).toNat * 4096 = 0 := by
    rw [← append_toNat, show Vm.frame e = vpn e from rfl, ← mask_eq]
    exact congrArg BitVec.toNat zero
  omega

/-- The loop of `deallocuvm`. -/
theorem deallocLoop_spec {sz : Word} (bound : pagesUpTo sz ≤ USERPAGES) (fuel : Nat) {k : Nat} {s : State} (wf : Wf L s d)
    (enough : pagesUpTo sz - k < fuel) (small : k ≤ pagesUpTo sz + 1024) :
    succeeds (deallocLoop L d sz fuel (pageAddr k)) (fun _ s' t => ∃ R, Clears L d k (pagesUpTo sz) R s s' t) s := by
  have bound' : pagesUpTo sz ≤ 0x80000 := bound
  induction fuel generalizing k s with
  | zero => omega
  | succ fuel ih =>
    unfold deallocLoop
    refine succeeds_ite (fun inside => ?_) fun past => ?_
    · have before : k < pagesUpTo sz := (pageAddr_lt (by omega)).1 inside
      refine succeeds_then (walkpgdir_find s d k) ?_
      rintro _ s _ ⟨rfl, rfl, rfl⟩
      simp only [List.nil_append]
      by_cases table : present (entry s.mem d (high k)) = true
      · rw [if_pos table]
        refine succeeds_state_bind ?_
        rw [← pteAt_eq table, pageAddr_succ]
        refine succeeds_ite (fun has => ?_) fun absent => ?_
        · have isUser : k < USERPAGES := by omega
          have held : Uvm.holds s.mem d (.user k) = some (Vm.frame (pteAt s.mem d k)) := holds_user.2 ⟨isUser, has, rfl⟩
          have valid : L.Valid (Vm.frame (pteAt s.mem d k)) := wf.valid _ (.inr ⟨_, held⟩)
          rw [if_neg (PTE_ADDR_ne_zero valid)]
          refine succeeds_then (kfree_spec valid s) ?_
          rintro _ s1 _ ⟨mem, free, rfl⟩
          refine succeeds_update_bind ?_
          have first : Released L d (fun j => j = k) s
              { s1 with mem := setEntry s1.mem (Vm.frame (entry s.mem d (high k))) (low k) 0 } _ :=
            .one wf isUser has (by rw [mem]) free
          refine succeeds_mono (ih first.wf (by omega) (by omega)) ?_
          rintro _ s' t ⟨R, rest⟩
          exact ⟨_, .cons before bound table first rest⟩
        · have first : Released L d (fun j => j = k) s s [] := .nothing wf (by rintro _ rfl; exact absent)
          refine succeeds_mono (ih wf (by omega) (by omega)) ?_
          rintro _ s' t ⟨R, rest⟩
          exact ⟨_, .cons before bound table first rest⟩
      · rw [if_neg table]
        show succeeds (deallocLoop L d sz fuel (pageAddr k + BitVec.ofNat 32 (NPTENTRIES - 1) * pgsize + pgsize)) _ _
        rw [pageAddr_jump]
        refine succeeds_mono (ih wf (by omega) (by omega)) ?_
        rintro _ s' t ⟨R, rest⟩
        exact ⟨_, rest.jump bound wf table⟩
    · have past' : pagesUpTo sz ≤ k := by
        by_contra before
        exact past ((pageAddr_lt (by omega)).2 (by omega))
      exact succeeds_pure ⟨_, .empty wf past'⟩

theorem PGROUNDUP_eq {sz : Word} (small : sz.toNat + 4095 < 2 ^ 32) : PGROUNDUP sz = pageAddr (pagesUpTo sz) := by
  have sum : (sz + 4095).toNat = sz.toNat + 4095 := by
    rw [BitVec.toNat_add, show (4095 : Word).toNat = 4095 from rfl]
    omega
  rw [show PGROUNDUP sz = PGROUNDDOWN (sz + 4095) from rfl, PGROUNDDOWN_eq, sum, pagesUpTo]

theorem pagesUpTo_mono {sz sz' : Word} (le : sz ≤ sz') : pagesUpTo sz ≤ pagesUpTo sz' := by
  rw [BitVec.le_def] at le
  unfold pagesUpTo
  omega

/-- `deallocuvm` from a size of user memory. -/
theorem deallocuvm_spec (wf : Wf L s d) {oldsz newsz : Word} (bound : oldsz ≤ KERNBASE) :
    succeeds (deallocuvm L d oldsz newsz)
      (fun r s' t => r = (if newsz ≥ oldsz then oldsz else newsz) ∧
        ∃ R, Clears L d (pagesUpTo newsz) (pagesUpTo oldsz) R s s' t) s := by
  have bound' : oldsz.toNat ≤ 0x80000000 := bound
  unfold deallocuvm
  refine succeeds_ite (fun notSmaller => ?_) fun smaller => ?_
  · exact succeeds_pure ⟨(if_pos notSmaller).symm, _, .empty wf (pagesUpTo_mono notSmaller)⟩
  · have smaller' : newsz.toNat < oldsz.toNat := not_le.1 smaller
    rw [PGROUNDUP_eq (by omega)]
    have pages : pagesUpTo oldsz ≤ USERPAGES := by unfold pagesUpTo USERPAGES; omega
    have le : pagesUpTo newsz ≤ pagesUpTo oldsz := by unfold pagesUpTo; omega
    have enough : pagesUpTo oldsz - pagesUpTo newsz < rounds := by unfold USERPAGES at pages; unfold rounds; omega
    refine succeeds_then (deallocLoop_spec pages rounds wf enough (by omega)) ?_
    rintro _ s' t ⟨R, clears⟩
    refine succeeds_pure ?_
    rw [List.append_nil]
    exact ⟨(if_neg smaller).symm, R, clears⟩

/-! ## `freevm` -/

/-- All pages of memory that a page directory holds. -/
def owned (m : Mem) (d : Page) : List Page :=
  ((List.range USERPAGES).map Item.user ++ indices.map Item.table ++ [Item.dir]).filterMap (holds m d)

theorem mem_indices (i : BitVec 10) : i ∈ indices := by
  refine List.mem_map.2 ⟨i.toNat, List.mem_range.2 i.isLt, ?_⟩
  rw [BitVec.ofNat_toNat, BitVec.setWidth_eq]

/-- The loop over the page tables. -/
theorem freeTables_spec {m : Mem} (valid : ∀ i p, Uvm.holds m d (.table i) = some p → L.Valid p ∧ p ≠ d)
    (is : List (BitVec 10)) {s : State} (same : ∀ i, entry s.mem d i = entry m d i) :
    succeeds (forEach (freeTable L d) is)
      (fun _ s' t => Uvm.freed t = is.filterMap (fun i => Uvm.holds m d (.table i)) ∧ (∀ e ∈ t, ∃ p, e = .kfree p) ∧
        s'.freelist = (Uvm.freed t).reverse ++ s.freelist ∧ ∀ p, p ∉ Uvm.freed t → ∀ o, s'.mem ⟨p, o⟩ = s.mem ⟨p, o⟩) s := by
  induction is generalizing s with
  | nil => exact succeeds_pure ⟨rfl, by simp, rfl, fun _ _ _ => rfl⟩
  | cons i is ih =>
    unfold forEach freeTable
    by_cases has : present (entry m d i) = true
    · have held : Uvm.holds m d (.table i) = some (Vm.frame (entry m d i)) := holds_table.2 ⟨has, rfl⟩
      obtain ⟨valid', other⟩ := valid i _ held
      refine succeeds_then (succeeds_state_bind ?_) (Q := fun _ s1 t =>
        s1.mem = setPage s.mem (Vm.frame (entry m d i)) (fun _ => 1) ∧ s1.freelist = Vm.frame (entry m d i) :: s.freelist ∧
          t = [.kfree (Vm.frame (entry m d i))]) ?_
      · rw [same, if_pos has]
        exact kfree_spec valid' s
      · rintro _ s1 _ ⟨mem, free, rfl⟩
        refine succeeds_mono (ih fun j => ?_) ?_
        · rw [mem, entry_setPage_ne other.symm, same]
        · rintro _ s' t ⟨pages, events, free', frame⟩
          refine ⟨?_, ?_, ?_, ?_⟩
          · rw [freed_append, pages, List.filterMap_cons_some (f := fun i => Uvm.holds m d (.table i)) held]
            rfl
          · intro e member
            rcases List.mem_append.1 member with first | later
            · exact ⟨_, List.mem_singleton.1 first⟩
            · exact events e later
          · rw [free', free, freed_append, List.reverse_append, List.append_assoc]
            rfl
          · intro p kept o
            rw [freed_append, List.mem_append, not_or] at kept
            have different : p ≠ Vm.frame (entry m d i) := fun same => kept.1 (by rw [same, mem_freed]; exact List.mem_cons_self)
            rw [frame p kept.2, mem, setPage_ne different]
    · have empty : Uvm.holds m d (.table i) = none := by simp [Uvm.holds, has]
      refine succeeds_then (succeeds_state_bind ?_) (Q := fun _ s1 t => s1 = s ∧ t = []) ?_
      · rw [same, if_neg has]
        exact succeeds_pure ⟨rfl, rfl⟩
      · rintro _ s _ ⟨rfl, rfl⟩
        rw [List.filterMap_cons_none (f := fun i => Uvm.holds m d (.table i)) empty]
        exact ih same

/-- `freevm` gives back what the page directory holds, each page once. -/
theorem freevm_spec (wf : Wf L s d) : succeeds (freevm L d)
    (fun _ s' t => (Uvm.freed t).Perm (owned s.mem d) ∧ (∀ e ∈ t, ∃ p, e = .kfree p) ∧
      s'.freelist = (Uvm.freed t).reverse ++ s.freelist ∧
      ∀ p, p ∉ Uvm.freed t → ∀ o, s'.mem ⟨p, o⟩ = s.mem ⟨p, o⟩) s := by
  unfold freevm
  refine succeeds_then (deallocuvm_spec wf (show KERNBASE ≤ KERNBASE by decide)) ?_
  rintro _ s1 t1 ⟨-, R, clears⟩
  have released := clears.released
  have all : ∀ j < USERPAGES, R j := fun j small => clears.all (.inl rfl) j (Nat.zero_le j) small
  have valid : ∀ i p, Uvm.holds s.mem d (.table i) = some p → L.Valid p ∧ p ≠ d := fun i p held =>
    ⟨wf.valid p (.inr ⟨_, held⟩), fun same => wf.apart.self i (same ▸ held)⟩
  refine succeeds_then (freeTables_spec valid indices released.directory) ?_
  rintro _ s2 t2 ⟨tables, events, free, frame⟩
  refine succeeds_mono (kfree_spec (wf.valid d (.inr ⟨.dir, rfl⟩)) s2) ?_
  rintro _ s3 _ ⟨mem, free', rfl⟩
  have users : (Uvm.freed t1).Perm (((List.range USERPAGES).map Item.user).filterMap (Uvm.holds s.mem d)) := by
    refine (List.perm_ext_iff_of_nodup released.nodup ?_).2 fun p => ?_
    · refine List.Nodup.filterMap (fun i j p held held' => wf.sound.once i j p held held') ?_
      exact List.Nodup.map (fun i j same => Item.user.inj same) List.nodup_range
    · rw [released.freed, List.filterMap_map, List.mem_filterMap]
      constructor
      · rintro ⟨j, -, held⟩
        exact ⟨j, List.mem_range.2 (holds_user.1 held).1, held⟩
      · rintro ⟨j, inside, held⟩
        exact ⟨j, all j (List.mem_range.1 inside), held⟩
  refine ⟨?_, ?_, ?_, ?_⟩
  · rw [freed_append, freed_append, tables, owned, List.filterMap_append, List.filterMap_append, List.filterMap_map (f := Item.table),
      List.append_assoc]
    exact users.append (.refl _)
  · intro e member
    rcases List.mem_append.1 member with first | later
    · exact released.events e first
    · rcases List.mem_append.1 later with second | last
      · exact events e second
      · exact ⟨d, List.mem_singleton.1 last⟩
  · rw [free', free, released.free, freed_append, freed_append, List.reverse_append, List.reverse_append]
    simp [Uvm.freed, Event.freed]
  · intro p kept o
    rw [freed_append, freed_append, List.mem_append, List.mem_append, not_or, not_or] at kept
    obtain ⟨notUser, notTable, notDir⟩ := kept
    have different : p ≠ d := fun same => notDir (by rw [same, mem_freed]; exact List.mem_cons_self)
    have outside : ¬ Table s.mem d p := by
      intro table
      rcases table_iff.1 table with same | ⟨i, held⟩
      · exact different same
      · exact notTable (by rw [tables]; exact List.mem_filterMap.2 ⟨i, mem_indices i, held⟩)
    rw [mem, setPage_ne different, frame p notTable, released.frame p outside notUser]

end

end Xv6.Uvm
