import Xv6.Uvm.Fill
import Xv6.Uvm.Setup

/-!
# Growing and shrinking a process

`allocuvm` is all or nothing exactly when every page table it needs is to be had: it does not look at what
`mappages` returns. `growproc` takes a size of 0 for an error, and adds a negative number to
an unsigned size.
-/

namespace Xv6.Uvm

open Xv6.Lib Xv6.Lib.Eff Xv6.Vm

/-- The user pages are exactly those below `PGROUNDUP(sz)`. -/
def Sized (s : State) (d : Page) (sz : Word) : Prop :=
  ∀ j < USERPAGES, present (pteAt s.mem d j) = true ↔ j < pagesUpTo sz

/-- `allocuvm` has got so far. -/
abbrev Allocated (L : Layout) (d : Page) (k0 k : Nat) (s s' : State) (t : List Event) : Prop :=
  Filled L d (fun _ => PTE_W ||| PTE_U) (fun _ _ => 0) k0 k s s' t

/-- How `allocuvm` ends: with all pages, or after a request for memory failed and the pages were given back. -/
inductive AllocEnd (L : Layout) (d : Page) (oldsz newsz : Word) (s : State) : Word → State → List Event → Prop where
  | done {s' : State} {t : List Event} (filled : Allocated L d (pagesUpTo oldsz) (pagesUpTo newsz) s s' t)
      (given : .kalloc .mem none ∉ t) : AllocEnd L d oldsz newsz s newsz s' t
  | undone {k : Nat} {s1 s' : State} {t1 t2 : List Event} {R : Nat → Prop}
      (filled : Allocated L d (pagesUpTo oldsz) k s s1 t1) (refused : .kalloc .mem none ∈ t1) (before : k < pagesUpTo newsz)
      (clears : Clears L d (pagesUpTo oldsz) (pagesUpTo newsz) R s1 s' t2) : AllocEnd L d oldsz newsz s 0 s' (t1 ++ t2)

section
variable {L : Layout} {d : Page} {s s' : State} {oldsz newsz sz n r : Word} {t : List Event}

theorem frame_user (j : Nat) : frame ((fun _ : Nat => PTE_W ||| PTE_U) j) = 0#20 := by
  show frame (PTE_W ||| PTE_U) = 0#20
  decide

/-- The round for page `k`, after a page of memory was found and cleared. -/
theorem alloc_round {k0 k : Nat} {s1 s2 : State} {p : Page} (filled : Allocated L d k0 k s s1 t) (from_ : k0 ≤ k)
    (isUser : k < USERPAGES) (absent : ¬ present (pteAt s.mem d k) = true) (free : s1.freelist = p :: s2.freelist)
    (mem : s2.mem = setPage s1.mem p fun _ => 0) :
    succeeds (mappages d (pageAddr k) pgsize (addr p) (PTE_W ||| PTE_U))
      (fun _ s3 t' => OnlyTables t' ∧ Allocated L d k0 (k + 1) s s3 (t ++ ([.kalloc .mem (some p)] ++ t'))) s2 := by
  have round := fill_round filled from_ isUser absent frame_user free mem
  exact succeeds_mono round fun _ _ _ post => ⟨post.1, post.2.2⟩

/-- The loop of `allocuvm`. -/
theorem allocLoop_spec (below : newsz < KERNBASE)
    (absent : ∀ j, pagesUpTo oldsz ≤ j → j < pagesUpTo newsz → ¬ present (pteAt s.mem d j) = true) (fuel : Nat) {k : Nat}
    {s1 : State} {t : List Event} (filled : Allocated L d (pagesUpTo oldsz) k s s1 t) (given : .kalloc .mem none ∉ t)
    (from_ : pagesUpTo oldsz ≤ k) (upto : k ≤ pagesUpTo newsz) (enough : pagesUpTo newsz - k < fuel) :
    succeeds (allocLoop L d oldsz newsz fuel (pageAddr k)) (fun r s' t' => AllocEnd L d oldsz newsz s r s' (t ++ t')) s1 := by
  have below' : newsz.toNat < 0x80000000 := below
  have bound : pagesUpTo newsz ≤ 0x80000 := by unfold pagesUpTo; omega
  induction fuel generalizing k s1 t with
  | zero => omega
  | succ fuel ih =>
    unfold allocLoop
    refine succeeds_ite (fun inside => ?_) fun past => ?_
    · have before : k < pagesUpTo newsz := (pageAddr_lt (by omega)).1 inside
      refine succeeds_then (kalloc_spec .mem s1) ?_
      rintro (_ | mem) s2 _ ⟨same, rfl, taken, refused, -⟩
      · have filled' := filled.refused same (refused rfl)
        refine succeeds_then (deallocuvm_spec filled'.wf (show newsz ≤ KERNBASE from le_of_lt below')) ?_
        rintro _ s' t2 ⟨-, R, clears⟩
        refine succeeds_pure ?_
        rw [List.append_nil, ← List.append_assoc]
        exact .undone filled' (by simp) before clears
      · refine succeeds_update_bind ?_
        have isUser : k < USERPAGES := lt_of_lt_of_le before bound
        refine succeeds_then (alloc_round filled from_ isUser (absent k from_ before) (taken mem rfl) (by rw [same])) ?_
        rintro _ s3 t' ⟨only, filled'⟩
        have given' : .kalloc .mem none ∉ t ++ ([.kalloc .mem (some mem)] ++ t') := by
          have none : Event.kalloc .mem none ∉ t' := fun member => by
            obtain ⟨r, same⟩ := only _ member
            cases same
          simp [given, none]
        rw [pageAddr_succ]
        refine succeeds_mono (ih filled' given' (by omega) before (by omega)) ?_
        intro r s' t'' ends
        simpa only [List.append_assoc] using ends
    · have all : k = pagesUpTo newsz := by
        by_contra other
        exact past ((pageAddr_lt (by omega)).2 (by omega))
      subst all
      refine succeeds_pure ?_
      rw [List.append_nil]
      exact .done filled given

theorem allocuvm_spec (wf : Wf L s d) (sized : Sized s d oldsz) (le : oldsz ≤ newsz) (below : newsz < KERNBASE) :
    succeeds (allocuvm L d oldsz newsz) (AllocEnd L d oldsz newsz s) s := by
  have below' : newsz.toNat < 0x80000000 := below
  have le' : oldsz.toNat ≤ newsz.toNat := le
  have bound : pagesUpTo newsz ≤ 0x80000 := by unfold pagesUpTo; omega
  unfold allocuvm
  rw [if_neg (show ¬ newsz ≥ KERNBASE from not_le_of_gt below'), if_neg (show ¬ newsz < oldsz from not_lt_of_ge le'),
    PGROUNDUP_eq (by omega)]
  have absent : ∀ j, pagesUpTo oldsz ≤ j → j < pagesUpTo newsz → ¬ present (pteAt s.mem d j) = true :=
    fun j low high has => absurd ((sized j (lt_of_lt_of_le high bound)).1 has) (not_lt_of_ge low)
  refine allocLoop_spec below absent rounds (.start wf _) List.not_mem_nil le_rfl (pagesUpTo_mono le) ?_
  unfold rounds
  omega

/-! ## All or nothing -/

/-- A page that was given to the process: present, user-writable, cleared and backed by a page of its own, which was free. -/
structure NewPage (s s' : State) (d : Page) (j : Nat) : Prop where
  present : present (pteAt s'.mem d j) = true
  writable : writable (pteAt s'.mem d j) = true
  user : user (pteAt s'.mem d j) = true
  zero : ∀ o, s'.mem ⟨frame (pteAt s'.mem d j), o⟩ = 0
  own : ∀ i, holds s'.mem d i = some (frame (pteAt s'.mem d j)) → i = .user j
  fresh : frame (pteAt s'.mem d j) ∈ s.freelist

/-- The same user pages are mapped. -/
def SamePages (s s' : State) (d : Page) : Prop := ∀ j < USERPAGES, present (pteAt s'.mem d j) = present (pteAt s.mem d j)

/-- `allocuvm` returns `newsz` with all pages there, or 0 with the mapped pages as before and the pages it took free again. -/
def AllOrNothing (L : Layout) (d : Page) (oldsz newsz : Word) (s : State) : Prop :=
  ∃ r s' t, allocuvm L d oldsz newsz s = (.ok r, s', t) ∧ (r = newsz ∨ r = 0) ∧
    (r = newsz → ∀ j, pagesUpTo oldsz ≤ j → j < pagesUpTo newsz → NewPage s s' d j) ∧
    (r = 0 → SamePages s s' d ∧ ∀ p, .kalloc .mem (some p) ∈ t → p ∈ s'.freelist)

theorem pagesUpTo_le (below : sz < KERNBASE) : pagesUpTo sz ≤ USERPAGES := by
  have below' : sz.toNat < 0x80000000 := below
  unfold pagesUpTo USERPAGES
  omega

theorem pagesUpTo_zero_iff : pagesUpTo sz = 0 ↔ sz = 0 := by
  rw [← BitVec.toNat_inj, pagesUpTo, show (0 : Word).toNat = 0 from rfl]
  omega

/-- The walk of `deallocuvm` may begin at the end of the user pages. -/
theorem start_of_sized (sized : Sized s d sz) (below : sz < KERNBASE) : Start s.mem d (pagesUpTo sz) := by
  have bound : pagesUpTo sz ≤ 0x80000 := pagesUpTo_le below
  by_cases aligned : pagesUpTo sz % 1024 = 0
  · exact .inl aligned
  · have has := (sized (pagesUpTo sz - 1) (by unfold USERPAGES; omega)).2 (by omega)
    have same : high (pagesUpTo sz - 1) = high (pagesUpTo sz) := (high_eq_iff (by omega) (by omega)).2 (by omega)
    exact .inr (same ▸ table_of_present has)

theorem Start.grows {k : Nat} (start : Start s.mem d k) (grows : Grows d s s') : Start s'.mem d k := by
  rcases start with aligned | table
  · exact .inl aligned
  · exact .inr (by rw [grows.tables _ table]; exact table)

/-- Pages that are all there. -/
theorem Filled.newPage {k0 k j : Nat} (filled : Allocated L d k0 k s s' t) (fine : Fine t) (low : k0 ≤ j) (high : j < k)
    (isUser : j < USERPAGES) : NewPage s s' d j := by
  obtain ⟨f, isFree, pte, zero⟩ := filled.pages fine j low high
  obtain ⟨held, -, -⟩ := filled.wf.user_page isUser (frame_user j) pte
  have frame_eq : frame (pteAt s'.mem d j) = f := (holds_user.1 held).2.2
  refine ⟨by rw [pte]; exact present_pte _ _, ?_, ?_, by rw [frame_eq]; exact zero, fun i held' => ?_, by rw [frame_eq]; exact isFree⟩
  · simp only [pte, Vm.writable, BitVec.getLsbD_or, show PTE_W.getLsbD 1 = true from rfl, Bool.true_or, Bool.or_true]
  · simp only [pte, Vm.user, BitVec.getLsbD_or, show PTE_U.getLsbD 2 = true from rfl, Bool.true_or, Bool.or_true]
  · rw [frame_eq] at held'
    exact filled.wf.sound.once _ _ f held' held

theorem Clears.fine {k lim : Nat} {R : Nat → Prop} (clears : Clears L d k lim R s s' t) : Fine t := by
  intro failed
  obtain ⟨p, same⟩ := clears.released.events _ failed
  cases same

/-- What was filled has been cleared: the pages are as they were. -/
theorem undone_pages {s1 : State} {t1 t2 : List Event} {R : Nat → Prop} {k : Nat} (sized : Sized s d oldsz)
    (start : Start s.mem d (pagesUpTo oldsz)) (filled : Allocated L d (pagesUpTo oldsz) k s s1 t1)
    (before : k < pagesUpTo newsz) (clears : Clears L d (pagesUpTo oldsz) (pagesUpTo newsz) R s1 s' t2) {j : Nat} (isUser : j < USERPAGES) :
    (j < pagesUpTo oldsz ∧ pteAt s'.mem d j = pteAt s.mem d j) ∨
      (¬ j < pagesUpTo oldsz ∧ ¬ present (pteAt s'.mem d j) = true) := by
  have small : j < 2 ^ 20 := lt_trans isUser (by decide)
  by_cases old : j < pagesUpTo oldsz
  · have outside : ¬ R j := fun inside => by
      have := clears.within j inside
      omega
    refine .inl ⟨old, ?_⟩
    rw [clears.released.kept j small outside, filled.outside j small (by omega)]
  · refine .inr ⟨old, ?_⟩
    by_cases inside : j < pagesUpTo newsz
    · exact clears.released.gone j small (clears.all (start.grows filled.grows) j (by omega) inside)
    · have outside : ¬ R j := fun member => inside (clears.within j member).2
      rw [clears.released.kept j small outside, filled.outside j small (by omega), sized j isUser]
      exact old

/-- `allocuvm` is all or nothing if and only if it does not run out of pages for page tables. -/
theorem all_or_nothing_iff (wf : Wf L s d) (sized : Sized s d oldsz) (le : oldsz ≤ newsz) (below : newsz < KERNBASE) :
    AllOrNothing L d oldsz newsz s ↔ Fine (allocuvm L d oldsz newsz s).2.2 := by
  obtain ⟨r, s', t, run, ends⟩ := (allocuvm_spec wf sized le below).exists
  have bound := pagesUpTo_le below
  have oldBelow : oldsz < KERNBASE := lt_of_le_of_lt (show oldsz.toNat ≤ newsz.toNat from le) below
  have start := start_of_sized sized oldBelow
  have unique : AllOrNothing L d oldsz newsz s ↔ (r = newsz ∨ r = 0) ∧
      (r = newsz → ∀ j, pagesUpTo oldsz ≤ j → j < pagesUpTo newsz → NewPage s s' d j) ∧
      (r = 0 → SamePages s s' d ∧ ∀ p, .kalloc .mem (some p) ∈ t → p ∈ s'.freelist) := by
    constructor
    · rintro ⟨r', s'', t', run', rest⟩
      cases run.symm.trans run'
      exact rest
    · exact fun rest => ⟨r, s', t, run, rest⟩
  rw [unique, run]
  cases ends with
  | done filled given =>
    constructor
    · rintro ⟨-, all, -⟩
      by_contra failed
      obtain ⟨j, p, low, high, absent, -⟩ := filled.lost failed
      exact absent (all rfl j low high).present
    · intro fine
      refine ⟨.inl rfl, fun _ j low high => filled.newPage fine low high (lt_of_lt_of_le high bound), fun zero => ?_⟩
      -- a size of 0 takes no page
      have none : pagesUpTo newsz = 0 := pagesUpTo_zero_iff.2 zero
      refine ⟨fun j isUser => ?_, fun p asked => ?_⟩
      · rw [filled.outside j (lt_trans isUser (by decide)) (by omega)]
      · obtain ⟨j, low, high, -⟩ := filled.taken fine p asked
        omega
  | undone filled refused before clears =>
    constructor
    · rintro ⟨-, -, nothing⟩
      by_contra failed
      have failed' := fun fine => failed (fine_append.2 ⟨fine, clears.fine⟩)
      obtain ⟨j, p, -, -, -, asked, -, gone⟩ := filled.lost failed'
      have back := (nothing rfl).2 p (List.mem_append_left _ asked)
      exact gone ((clears.released.has p).1 (.inl back))
    · intro fine
      refine ⟨.inr rfl, fun zero => ?_, fun _ => ⟨fun j isUser => ?_, fun p asked => ?_⟩⟩
      · have : pagesUpTo newsz = 0 := pagesUpTo_zero_iff.2 zero.symm
        omega
      · rcases undone_pages sized start filled before clears isUser with ⟨-, same⟩ | ⟨notOld, absent⟩
        · rw [same]
        · rw [Bool.eq_false_of_not_eq_true absent, Bool.eq_false_of_not_eq_true fun has => notOld ((sized j isUser).1 has)]
      · have asked' : Event.kalloc .mem (some p) ∈ _ := (List.mem_append.1 asked).resolve_right fun member => by
          obtain ⟨q, same⟩ := clears.released.events _ member
          cases same
        obtain ⟨j, low, high, held⟩ := filled.taken (fine_append.1 fine).1 p asked'
        have inside := clears.all (start.grows filled.grows) j low (by omega)
        rw [clears.released.free, List.mem_append, List.mem_reverse, clears.released.freed]
        exact .inl ⟨j, inside, held⟩

/-! ## `growproc` -/

/-- The same user pages are mapped, with the same bytes in them. -/
def SameMemory (s s' : State) (d : Page) : Prop :=
  ∀ j < USERPAGES, present (pteAt s'.mem d j) = present (pteAt s.mem d j) ∧
    (present (pteAt s.mem d j) = true → ∀ o, s'.mem ⟨frame (pteAt s'.mem d j), o⟩ = s.mem ⟨frame (pteAt s.mem d j), o⟩)

/-- If `growproc` returns -1, size and memory of the process are as before; if it returns 0, the size has grown by `n`
and the pages are those of the new size. -/
structure SbrkLaw (d : Page) (sz n : Word) (s : State) (r : Int) (new : Word) (s' : State) : Prop where
  result : r = 0 ∨ r = -1
  failed : r = -1 → new = sz ∧ SameMemory s s' d
  done : r = 0 → (new.toNat : Int) = sz.toNat + n.toInt ∧ Sized s' d new

theorem growproc_grow {new : Word} (grow : 0 < n.toInt) (run : allocuvm L d sz (sz + n) s = (.ok new, s', t)) :
    growproc L d sz n s = (.ok (if new = 0 then (-1, sz) else (0, new)), s', t) := by
  unfold growproc
  rw [if_pos grow, bind_ok run]
  by_cases zero : new = 0
  · rw [if_pos zero, if_pos zero]
    exact congrArg (Prod.mk _ ∘ Prod.mk _) (List.append_nil t)
  · rw [if_neg zero, if_neg zero]
    exact congrArg (Prod.mk _ ∘ Prod.mk _) (List.append_nil t)

theorem growproc_shrink {new : Word} (shrink : n.toInt < 0) (run : deallocuvm L d sz (sz + n) s = (.ok new, s', t)) :
    growproc L d sz n s = (.ok (if new = 0 then (-1, sz) else (0, new)), s', t) := by
  unfold growproc
  rw [if_neg (by omega), if_pos shrink, bind_ok run]
  by_cases zero : new = 0
  · rw [if_pos zero, if_pos zero]
    exact congrArg (Prod.mk _ ∘ Prod.mk _) (List.append_nil t)
  · rw [if_neg zero, if_neg zero]
    exact congrArg (Prod.mk _ ∘ Prod.mk _) (List.append_nil t)

/-- All pages of the new size are there. -/
theorem Filled.sized (filled : Allocated L d (pagesUpTo sz) (pagesUpTo newsz) s s' t) (sized : Sized s d sz)
    (le : pagesUpTo sz ≤ pagesUpTo newsz) (fine : Fine t) : Sized s' d newsz := by
  intro j isUser
  by_cases inside : pagesUpTo sz ≤ j ∧ j < pagesUpTo newsz
  · exact iff_of_true (filled.newPage fine inside.1 inside.2 isUser).present inside.2
  · rw [filled.outside j (lt_trans isUser (by decide)) inside, sized j isUser]
    omega

/-- The pages below the old size keep their bytes when the new ones are given back. -/
theorem undone_memory {s1 : State} {t1 t2 : List Event} {R : Nat → Prop} {k : Nat} (wf : Wf L s d) (sized : Sized s d sz)
    (start : Start s.mem d (pagesUpTo sz)) (filled : Allocated L d (pagesUpTo sz) k s s1 t1) (before : k < pagesUpTo newsz)
    (clears : Clears L d (pagesUpTo sz) (pagesUpTo newsz) R s1 s' t2) : SameMemory s s' d := by
  intro j isUser
  rcases undone_pages sized start filled before clears isUser with ⟨old, same⟩ | ⟨notOld, absent⟩
  · rw [same]
    refine ⟨rfl, fun has o => ?_⟩
    have small : j < 2 ^ 20 := lt_trans isUser (by decide)
    have held : holds s.mem d (.user j) = some (frame (pteAt s.mem d j)) := holds_user.2 ⟨isUser, has, rfl⟩
    obtain ⟨notFree, notTable⟩ := wf.user_apart held
    have held1 : holds s1.mem d (.user j) = some (frame (pteAt s.mem d j)) := by
      rw [holds_user, filled.outside j small (by omega)]
      exact ⟨isUser, has, rfl⟩
    have notTable1 : ¬ Table s1.mem d (frame (pteAt s.mem d j)) := fun table =>
      (filled.grows.new _ table).elim notTable notFree
    have notFreed : frame (pteAt s.mem d j) ∉ freed t2 := fun member => by
      obtain ⟨j', inside, held'⟩ := (clears.released.freed _).1 member
      cases filled.wf.sound.once _ _ _ held1 held'
      have := clears.within j inside
      omega
    rw [clears.released.frame _ notTable1 notFreed, filled.grows.frame _ notFree notTable]
  · have absent' : present (pteAt s.mem d j) = false :=
      Bool.eq_false_of_not_eq_true fun has => notOld ((sized j isUser).1 has)
    rw [Bool.eq_false_of_not_eq_true absent, absent']
    exact ⟨rfl, fun has => by cases has⟩

/-- After shrinking, the pages are those of the new size. -/
theorem Clears.sized {R : Nat → Prop} (clears : Clears L d (pagesUpTo newsz) (pagesUpTo sz) R s s' t) (sized : Sized s d sz)
    (le : pagesUpTo newsz ≤ pagesUpTo sz) (below : sz < KERNBASE) : Sized s' d newsz := by
  have bound := pagesUpTo_le below
  intro j isUser
  have small : j < 2 ^ 20 := lt_trans isUser (by decide)
  by_cases inside : pagesUpTo newsz ≤ j ∧ j < pagesUpTo sz
  · have has := (sized (pagesUpTo newsz) (by omega)).2 (by omega)
    have gone := clears.released.gone j small (clears.all (.inr (table_of_present has)) j inside.1 inside.2)
    exact iff_of_false gone (by omega)
  · have outside : ¬ R j := fun member => inside (clears.within j member)
    rw [clears.released.kept j small outside, sized j isUser]
    omega

/-- Growing: the law holds unless `kalloc` finds every page of memory and not every page table. -/
theorem sbrk_grow (wf : Wf L s d) (sized : Sized s d sz) (below : sz < KERNBASE) (grow : 0 < n.toInt) :
    ∃ r new s' t, growproc L d sz n s = (.ok (r, new), s', t) ∧
      (SbrkLaw d sz n s r new s' ↔
        ((sz.toNat : Int) + n.toInt < KERNBASE.toNat → .kalloc .mem none ∉ t → Fine t)) := by
  have below' : sz.toNat < 0x80000000 := below
  have value : n.toInt = if 2 * n.toNat < 2 ^ 32 then (n.toNat : Int) else n.toNat - 2 ^ 32 := BitVec.toInt_eq_toNat_cond n
  have lt := n.isLt
  have sum : (sz + n).toNat = sz.toNat + n.toNat := by
    rw [BitVec.toNat_add]
    split_ifs at value <;> omega
  have positive : 0 < n.toNat := by split_ifs at value <;> omega
  have notZero : sz + n ≠ 0 := fun zero => by
    have : (sz + n).toNat = 0 := congrArg BitVec.toNat zero
    omega
  have exact_ : ((sz + n).toNat : Int) = sz.toNat + n.toInt := by split_ifs at value <;> omega
  by_cases high : sz + n ≥ KERNBASE
  · have run : allocuvm L d sz (sz + n) s = (.ok 0, s, []) := by unfold allocuvm; rw [if_pos high]; rfl
    refine ⟨-1, sz, s, [], growproc_grow grow run, iff_of_true ⟨.inr rfl, fun _ => ⟨rfl, ?_⟩, by simp⟩ (by simp [Fine])⟩
    exact fun j isUser => ⟨rfl, fun _ _ => rfl⟩
  · have below'' : sz + n < KERNBASE := by
      show (sz + n).toNat < 0x80000000
      have notHigh : ¬ 0x80000000 ≤ (sz + n).toNat := high
      omega
    have le : sz ≤ sz + n := by
      show sz.toNat ≤ (sz + n).toNat
      omega
    obtain ⟨new, s', t, run, ends⟩ := (allocuvm_spec wf sized le below'').exists
    have run' := growproc_grow grow run
    cases ends with
    | done filled given =>
      rw [if_neg notZero] at run'
      refine ⟨0, sz + n, s', t, run', ?_, ?_⟩
      · intro law _ _
        by_contra failed
        obtain ⟨j, p, -, inside, absent, -⟩ := filled.lost failed
        exact absent (((law.done rfl).2 j (lt_of_lt_of_le inside (pagesUpTo_le below''))).2 inside)
      · intro fine
        have small : (sz.toNat : Int) + n.toInt < KERNBASE.toNat := by
          rw [← exact_]
          exact Int.ofNat_lt.2 below''
        refine ⟨.inl rfl, by simp, fun _ => ⟨exact_, filled.sized sized (pagesUpTo_mono le) (fine small given)⟩⟩
    | undone filled refused before clears =>
      rw [if_pos rfl] at run'
      refine ⟨-1, sz, s', _, run', iff_of_true ⟨.inr rfl, fun _ => ⟨rfl, ?_⟩, by simp⟩ (by simp [refused])⟩
      exact undone_memory wf sized (start_of_sized sized below) filled before clears

/-- Shrinking: the law holds if something is left. -/
theorem sbrk_shrink (wf : Wf L s d) (sized : Sized s d sz) (positive : 0 < sz) (below : sz < KERNBASE) (shrink : n.toInt < 0) :
    ∃ r new s' t, growproc L d sz n s = (.ok (r, new), s', t) ∧ Fine t ∧
      (SbrkLaw d sz n s r new s' ↔ 0 < (sz.toNat : Int) + n.toInt) := by
  have positive' : 0 < sz.toNat := positive
  have below' : sz.toNat < 0x80000000 := below
  have value : n.toInt = if 2 * n.toNat < 2 ^ 32 then (n.toNat : Int) else n.toNat - 2 ^ 32 := BitVec.toInt_eq_toNat_cond n
  have lt := n.isLt
  have sum : (sz + n).toNat = (sz.toNat + n.toNat) % 2 ^ 32 := BitVec.toNat_add sz n
  obtain ⟨new, s', t, run, result, R, clears⟩ :=
    (deallocuvm_spec wf (show sz ≤ KERNBASE from le_of_lt below')).exists
  have run' := growproc_shrink shrink run
  by_cases wraps : sz + n ≥ sz
  · -- below 0: nothing is done, and the size stays as it is
    have wraps' : sz.toNat ≤ (sz + n).toNat := wraps
    rw [if_pos wraps] at result
    rw [result, if_neg (show sz ≠ 0 from fun zero => by rw [zero] at positive'; exact absurd positive' (by decide))] at run'
    refine ⟨0, sz, s', t, run', clears.fine, iff_of_false (fun law => ?_) ?_⟩
    · have := (law.done rfl).1
      omega
    · split_ifs at value <;> omega
  · have smaller : (sz + n).toNat < sz.toNat := not_le.1 wraps
    have exact_ : ((sz + n).toNat : Int) = sz.toNat + n.toInt := by split_ifs at value <;> omega
    have le : pagesUpTo (sz + n) ≤ pagesUpTo sz := pagesUpTo_mono smaller.le
    rw [if_neg wraps] at result
    by_cases zero : sz + n = 0
    · -- to 0: all pages are gone, but 0 stands for an error
      have gone : (sz + n).toNat = 0 := congrArg BitVec.toNat zero
      have first : 0 < pagesUpTo sz := by unfold pagesUpTo; omega
      rw [result, if_pos zero] at run'
      refine ⟨-1, sz, s', t, run', clears.fine, iff_of_false (fun law => ?_) (by omega)⟩
      have same := ((law.failed rfl).2 0 (by decide)).1
      rw [(sized 0 (by decide)).2 first] at same
      have start : pagesUpTo (sz + n) = 0 := pagesUpTo_zero_iff.2 zero
      rw [start] at clears
      exact clears.released.gone 0 (by decide) (clears.all (.inl rfl) 0 le_rfl first) same
    · rw [result, if_neg zero] at run'
      have left : (sz + n).toNat ≠ 0 := fun gone => zero (BitVec.eq_of_toNat_eq gone)
      refine ⟨0, sz + n, s', t, run', clears.fine, iff_of_true ⟨.inl rfl, by simp, fun _ => ⟨exact_, ?_⟩⟩ (by omega)⟩
      exact clears.sized sized le below

/-- `growproc` keeps its word if and only if it does not shrink the process to nothing or below, and `kalloc` does not refuse
a page table to a process that grows below `KERNBASE` and gets all its pages of memory. -/
theorem sbrk_law_iff (wf : Wf L s d) (sized : Sized s d sz) (positive : 0 < sz) (below : sz < KERNBASE) (n : Word) :
    (∃ r new s' t, growproc L d sz n s = (.ok (r, new), s', t) ∧ SbrkLaw d sz n s r new s') ↔
      (n.toInt < 0 → 0 < (sz.toNat : Int) + n.toInt) ∧
      (0 < n.toInt → (sz.toNat : Int) + n.toInt < KERNBASE.toNat → .kalloc .mem none ∉ (growproc L d sz n s).2.2 →
        .kalloc .pgtab none ∉ (growproc L d sz n s).2.2) := by
  -- there is only one run
  have unique : ∀ {r new s' t}, growproc L d sz n s = (.ok (r, new), s', t) →
      ((∃ r new s' t, growproc L d sz n s = (.ok (r, new), s', t) ∧ SbrkLaw d sz n s r new s') ↔ SbrkLaw d sz n s r new s') := by
    intro r new s' t run
    constructor
    · rintro ⟨r', new', s'', t', run', law⟩
      cases run.symm.trans run'
      exact law
    · exact fun law => ⟨r, new, s', t, run, law⟩
  rcases lt_trichotomy n.toInt 0 with shrink | zero | grow
  · obtain ⟨r, new, s', t, run, fine, law⟩ := sbrk_shrink wf sized positive below shrink
    rw [unique run, law, run]
    exact ⟨fun left => ⟨fun _ => left, fun _ _ _ => fine⟩, fun h => h.1 shrink⟩
  · have run : growproc L d sz n s = (.ok (0, sz), s, []) := by
      unfold growproc
      rw [if_neg (by omega), if_neg (by omega)]
      rfl
    rw [unique run, run]
    refine iff_of_true ⟨.inl rfl, by simp, fun _ => ⟨by omega, sized⟩⟩ ⟨fun shrink => by omega, fun _ _ _ => ?_⟩
    simp
  · obtain ⟨r, new, s', t, run, law⟩ := sbrk_grow wf sized below grow
    rw [unique run, law, run]
    exact ⟨fun fine => ⟨fun shrink => by omega, fun _ => fine⟩, fun h => h.2 grow⟩

end

/-! A kernel whose data segment begins at page `0x108`, with an empty page directory. -/

def layout : Layout := ⟨0x108, 0x116, by decide, by decide, by decide⟩

/-- Memory that is all 0, with these free pages. -/
def blank (freelist : List Page) : State := ⟨fun _ => 0, freelist, []⟩

theorem blank_entry (freelist : List Page) (d : Page) (i : BitVec 10) : entry (blank freelist).mem d i = 0 := by
  simp only [entry, blank]
  rfl

theorem blank_wf {freelist : List Page} {d : Page} (free : FreeList layout (d :: freelist)) : Wf layout (blank freelist) d :=
  (kernelPart_empty (s := blank freelist) free (blank_entry freelist d)).1.wf

theorem blank_sized (freelist : List Page) (d : Page) : Sized (blank freelist) d 0 := by
  intro j _
  have pte : pteAt (blank freelist).mem d j = 0 := pteAt_absent (by rw [blank_entry]; decide)
  rw [pte, present_zero, pagesUpTo_zero_iff.2 rfl]
  simp

/-- Two free pages are a page of memory and its page table: the call for one page succeeds as a whole. -/
theorem all_or_nothing_iff_blank : Fine (allocuvm layout 0x200 0 4096 (blank [0x201, 0x202])).2.2 ∧
    AllOrNothing layout 0x200 0 4096 (blank [0x201, 0x202]) := by
  have fine : Fine (allocuvm layout 0x200 0 4096 (blank [0x201, 0x202])).2.2 := by
    unfold Fine
    decide +kernel
  exact ⟨fine, (all_or_nothing_iff (blank_wf ⟨by decide +kernel, by simp [Layout.Valid, layout, PHYSPAGES]⟩) (blank_sized _ _)
    (by decide) (by decide)).2 fine⟩

/-- One free page, for which there is then no page table: `allocuvm` returns the new size, but the page is not present, and
the page of memory is neither free nor held. -/
theorem allocuvm_without_table : Wf layout (blank [0x201]) 0x200 ∧ Sized (blank [0x201]) 0x200 0 ∧
    ∃ s' t, allocuvm layout 0x200 0 4096 (blank [0x201]) = (.ok 4096, s', t) ∧
      present (pteAt s'.mem 0x200 0) = false ∧ .kalloc .mem (some 0x201) ∈ t ∧ s'.freelist = [] := by
  have returns : (allocuvm layout 0x200 0 4096 (blank [0x201])).1 = .ok 4096 := by decide +kernel
  refine ⟨blank_wf ⟨by decide +kernel, by simp [Layout.Valid, layout, PHYSPAGES]⟩, blank_sized _ _, _, _,
    Prod.ext returns rfl, ?_⟩
  decide +kernel

/-- The process that `allocuvm` makes of an empty page directory. -/
theorem allocuvm_sized {freelist : List Page} {d : Page} (wf : Wf layout (blank freelist) d)
    (returns : (allocuvm layout d 0 4096 (blank freelist)).1 = .ok 4096)
    (fine : .kalloc .pgtab none ∉ (allocuvm layout d 0 4096 (blank freelist)).2.2) :
    Wf layout (allocuvm layout d 0 4096 (blank freelist)).2.1 d ∧ Sized (allocuvm layout d 0 4096 (blank freelist)).2.1 d 4096 := by
  obtain ⟨r, s', t, run, ends⟩ := (allocuvm_spec wf (blank_sized _ _) (by decide) (show (4096 : Word) < KERNBASE by decide)).exists
  rw [run] at returns fine ⊢
  obtain rfl : r = 4096 := Except.ok.inj returns
  generalize size : (4096 : Word) = sz at ends ⊢
  cases ends with
  | done filled given => exact ⟨filled.wf, filled.sized (blank_sized _ _) (pagesUpTo_mono (by rw [← size]; decide)) fine⟩
  | undone => cases size

/-- A process with one page. -/
def onePage : State := (allocuvm layout 0x200 0 4096 (blank [0x201, 0x202])).2.1

theorem onePage_sized : Wf layout onePage 0x200 ∧ Sized onePage 0x200 4096 :=
  allocuvm_sized (blank_wf ⟨by decide +kernel, by simp [Layout.Valid, layout, PHYSPAGES]⟩) (by decide +kernel) (by decide +kernel)

/-- Shrinking by a byte keeps the law, and so does growing by one: `kalloc` refuses the page of memory. -/
theorem sbrk_law_iff_onePage :
    (∃ r new s' t, growproc layout 0x200 4096 (-1) onePage = (.ok (r, new), s', t) ∧ SbrkLaw 0x200 4096 (-1) onePage r new s') ∧
    ∃ r new s' t, growproc layout 0x200 4096 1 onePage = (.ok (r, new), s', t) ∧ SbrkLaw 0x200 4096 1 onePage r new s' := by
  have shrinks := sbrk_law_iff onePage_sized.1 onePage_sized.2 (by decide) (by decide) (-1)
  have grows := sbrk_law_iff onePage_sized.1 onePage_sized.2 (by decide) (by decide) 1
  refine ⟨shrinks.2 ⟨fun _ => by decide, fun grow => absurd grow (by decide)⟩,
    grows.2 ⟨fun shrink => absurd shrink (by decide), fun _ _ given => absurd ?_ given⟩⟩
  decide +kernel

/-- Shrinking by the whole size returns -1 with the page gone; shrinking by more returns 0 with the size as it was. -/
theorem growproc_to_nothing : Wf layout onePage 0x200 ∧ Sized onePage 0x200 4096 ∧ present (pteAt onePage.mem 0x200 0) = true ∧
    (∃ s' t, growproc layout 0x200 4096 (-4096) onePage = (.ok (-1, 4096), s', t) ∧
      present (pteAt s'.mem 0x200 0) = false) ∧
    ∃ s' t, growproc layout 0x200 4096 (-8192) onePage = (.ok (0, 4096), s', t) := by
  have fails : (growproc layout 0x200 4096 (-4096) onePage).1 = .ok (-1, 4096) := by decide +kernel
  have wraps : (growproc layout 0x200 4096 (-8192) onePage).1 = .ok (0, 4096) := by decide +kernel
  refine ⟨onePage_sized.1, onePage_sized.2, by decide +kernel, ⟨_, _, Prod.ext fails rfl, ?_⟩, _, _, Prod.ext wraps rfl⟩
  decide +kernel

end Xv6.Uvm
