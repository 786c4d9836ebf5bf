import Xv6.Uvm.Directory
import Xv6.Lib.Pool

/-!
# What a page directory holds

A page directory stands for a map from the pages of the address space to page table
entries. The pages of memory that it holds are its own page, its page tables and the
pages of user addresses; the pages behind the kernel's addresses are not its own. In a
well-formed state no page is held twice or also free.
-/

namespace Xv6.Uvm

open Xv6.Lib Xv6.Vm

/-- The pages of addresses below `KERNBASE`. -/
def USERPAGES : Nat := 0x80000

/-- The address of page `k`. -/
def pageAddr (k : Nat) : Word := BitVec.ofNat 32 (k * 4096)

/-- The indices of page `k` in the page directory and in its page table. -/
def high (k : Nat) : BitVec 10 := BitVec.ofNat 10 (k / 1024)

def low (k : Nat) : BitVec 10 := BitVec.ofNat 10 k

/-- The page table entry of page `k`; 0 if there is no page table for it. -/
def pteAt (m : Mem) (d : Page) (k : Nat) : Word :=
  if present (entry m d (high k)) then entry m (frame (entry m d (high k))) (low k) else 0

/-- The places where a page directory has a page: itself, a page table, or a page of user addresses. -/
inductive Item where
  | dir
  | table (i : BitVec 10)
  | user (k : Nat)
  deriving DecidableEq, Repr

def holds (m : Mem) (d : Page) : Item → Option Page
  | .dir => some d
  | .table i => if present (entry m d i) then some (frame (entry m d i)) else none
  | .user k => if k < USERPAGES ∧ present (pteAt m d k) then some (frame (pteAt m d k)) else none

/-- The page is free or the page directory holds it. -/
def Has (s : State) (d : Page) (p : Page) : Prop := Pool.Has (holds s.mem d) s.freelist p

/-- No page is free and held or held twice, and they are all pages for `kalloc`. -/
structure Wf (L : Layout) (s : State) (d : Page) : Prop where
  sound : Pool.Sound (holds s.mem d) s.freelist
  valid : ∀ p, Has s d p → L.Valid p

/-! ## Addresses -/

theorem pageAddr_toNat {k : Nat} (small : k < 2 ^ 20) : (pageAddr k).toNat = k * 4096 := by
  rw [pageAddr, BitVec.toNat_ofNat]
  omega

theorem pgsize_toNat : pgsize.toNat = 4096 := rfl

theorem pageAddr_succ (k : Nat) : pageAddr k + pgsize = pageAddr (k + 1) := by
  refine BitVec.eq_of_toNat_eq ?_
  rw [BitVec.toNat_add, pgsize_toNat, pageAddr, pageAddr, BitVec.toNat_ofNat, BitVec.toNat_ofNat]
  omega

theorem PDX_pageAddr (k : Nat) : PDX (pageAddr k) = high k := by
  refine BitVec.eq_of_toNat_eq ?_
  rw [PDX, high, pageAddr, BitVec.extractLsb'_toNat, Nat.shiftRight_eq_div_pow, BitVec.toNat_ofNat, BitVec.toNat_ofNat]
  omega

theorem PTX_pageAddr (k : Nat) : PTX (pageAddr k) = low k := by
  refine BitVec.eq_of_toNat_eq ?_
  rw [PTX, low, pageAddr, BitVec.extractLsb'_toNat, Nat.shiftRight_eq_div_pow, BitVec.toNat_ofNat, BitVec.toNat_ofNat]
  omega

theorem pageAddr_inj {j k : Nat} (small : j < 2 ^ 20) (small' : k < 2 ^ 20) : pageAddr j = pageAddr k ↔ j = k := by
  rw [← BitVec.toNat_inj, pageAddr_toNat small, pageAddr_toNat small']
  omega

theorem PGROUNDDOWN_eq (va : Word) : PGROUNDDOWN va = pageAddr (va.toNat / 4096) := by
  have lt := va.isLt
  refine BitVec.eq_of_toNat_eq ?_
  rw [PGROUNDDOWN_toNat, pageAddr_toNat (by omega)]

/-- Two pages with the same indices are the same. -/
theorem indices_inj {j k : Nat} (small : j < 2 ^ 20) (small' : k < 2 ^ 20) (sameHigh : high j = high k)
    (sameLow : low j = low k) : j = k := by
  rw [high, high, ← BitVec.toNat_inj, BitVec.toNat_ofNat, BitVec.toNat_ofNat] at sameHigh
  rw [low, low, ← BitVec.toNat_inj, BitVec.toNat_ofNat, BitVec.toNat_ofNat] at sameLow
  omega

theorem high_eq_iff {j k : Nat} (small : j < 2 ^ 20) (small' : k < 2 ^ 20) : high j = high k ↔ j / 1024 = k / 1024 := by
  rw [high, high, ← BitVec.toNat_inj, BitVec.toNat_ofNat, BitVec.toNat_ofNat]
  omega

theorem addr_succ (p : Page) : addr p + pgsize = addr (p + 1) := by
  have lt := p.isLt
  refine BitVec.eq_of_toNat_eq ?_
  rw [BitVec.toNat_add, pgsize_toNat, addr, addr, append_toNat, append_toNat, BitVec.toNat_add, show (1 : Page).toNat = 1 from rfl]
  omega

/-! ## Entries -/

theorem present_zero : present 0 = false := rfl

/-- The entry that maps a page of memory. -/
theorem frame_pte (p : Page) {perm : Word} (flags : frame perm = 0#20) : frame (addr p ||| perm ||| PTE_P) = p := by
  rw [frame_or, frame_or, frame_addr, flags, show frame PTE_P = 0#20 from rfl, BitVec.or_zero, BitVec.or_zero]

theorem present_pte (pa perm : Word) : present (pa ||| perm ||| PTE_P) = true := by
  rw [present, BitVec.getLsbD_or, show PTE_P.getLsbD 0 = true from rfl, Bool.or_true]

/-- The entry that `walkpgdir` makes. -/
theorem present_pde (p : Page) : present (addr p ||| PTE_P ||| PTE_W ||| PTE_U) = true := by
  simp only [present, BitVec.getLsbD_or, show PTE_P.getLsbD 0 = true from rfl, Bool.or_true, Bool.true_or]

theorem frame_pde (p : Page) : frame (addr p ||| PTE_P ||| PTE_W ||| PTE_U) = p := by
  simp only [frame_or, frame_addr, show frame PTE_P = 0#20 from rfl, show frame PTE_W = 0#20 from rfl,
    show frame PTE_U = 0#20 from rfl, BitVec.or_zero]

/-! ## What the stores do to a page directory -/

section
variable {m m' : Mem} {d p t : Page} {i : BitVec 10} {k : Nat} {w : Word}

theorem holds_table : holds m d (.table i) = some p ↔ present (entry m d i) = true ∧ frame (entry m d i) = p := by
  simp [holds]

theorem holds_user : holds m d (.user k) = some p ↔
    k < USERPAGES ∧ present (pteAt m d k) = true ∧ frame (pteAt m d k) = p := by
  simp [holds, and_assoc]

theorem table_iff : Table m d p ↔ p = d ∨ ∃ i, holds m d (.table i) = some p := by
  simp only [Table, holds_table]
  exact or_congr_right (exists_congr fun i => and_congr_right fun _ => eq_comm)

theorem pteAt_eq (has : present (entry m d (high k)) = true) :
    pteAt m d k = entry m (frame (entry m d (high k))) (low k) := if_pos has

theorem pteAt_absent (absent : ¬ present (entry m d (high k)) = true) : pteAt m d k = 0 := if_neg absent

/-- The page has a page table if it is present. -/
theorem table_of_present (has : present (pteAt m d k) = true) : present (entry m d (high k)) = true := by
  by_contra absent
  rw [pteAt_absent absent] at has
  cases has

theorem pteAt_sameTables (same : SameTables d m m') : pteAt m' d k = pteAt m d k := by
  unfold pteAt
  rw [same.directory]
  by_cases has : present (entry m d (high k)) = true
  · rw [if_pos has, if_pos has, same _ (.inr ⟨_, has, rfl⟩)]
  · rw [if_neg has, if_neg has]

theorem holds_sameTables (same : SameTables d m m') : holds m' d = holds m d := by
  funext item
  cases item with
  | dir => rfl
  | table i => rw [holds, holds, same.directory]
  | user k => rw [holds, holds, pteAt_sameTables same]

theorem sameTables_setPage {c : BitVec 12 → Byte} (outside : ¬ Table m d p) : SameTables d m (setPage m p c) := by
  intro t isTable i
  exact entry_setPage_ne fun same => outside (same ▸ isTable)

/-- A directory with its tables in pages of their own. -/
structure Apart (m : Mem) (d : Page) : Prop where
  self : ∀ i, holds m d (.table i) ≠ some d
  tables : ∀ i j p, holds m d (.table i) = some p → holds m d (.table j) = some p → i = j

theorem apart_of_sound {free : List Page} (sound : Pool.Sound (holds m d) free) : Apart m d where
  self i held := by cases sound.once _ _ d held (show holds m d .dir = some d from rfl)
  tables i j p held held' := by
    cases sound.once _ _ p held held'
    rfl

/-- The memory after `walkpgdir` made a page table of page `p`. -/
def newTable (m : Mem) (d p : Page) (i : BitVec 10) : Mem :=
  setEntry (setPage m p fun _ => 0) d i (addr p ||| PTE_P ||| PTE_W ||| PTE_U)

theorem newTable_ne {a : Phys} (other : a.page ≠ p) (other' : a.page ≠ d) : newTable m d p i a = m a := by
  rw [newTable, setEntry_ne other', setPage_ne other]

section
variable (apart : Apart m d) (fresh : ¬ Table m d p)

include fresh in
theorem newTable_directory (j : BitVec 10) : entry (newTable m d p i) d j =
    if j = i then addr p ||| PTE_P ||| PTE_W ||| PTE_U else entry m d j := by
  have different : d ≠ p := fun same => fresh (.inl same.symm)
  by_cases same : j = i
  · rw [if_pos same, same, newTable, entry_setEntry_self]
  · rw [if_neg same, newTable, entry_setEntry_ne (.inr same), entry_setPage_ne different]

include apart fresh in
/-- A new page table maps nothing. -/
theorem newTable_pteAt (absent : ¬ present (entry m d i) = true) (k : Nat) :
    pteAt (newTable m d p i) d k = pteAt m d k := by
  have different : p ≠ d := fun same => fresh (.inl same)
  by_cases same : high k = i
  · subst same
    have pde : entry (newTable m d p (high k)) d (high k) = addr p ||| PTE_P ||| PTE_W ||| PTE_U := by
      rw [newTable_directory fresh, if_pos rfl]
    rw [pteAt_absent absent, pteAt, pde, if_pos (present_pde p), frame_pde, newTable, entry_setEntry_ne (.inl different),
      entry_zeroPage]
  · have pde : entry (newTable m d p i) d (high k) = entry m d (high k) := by rw [newTable_directory fresh, if_neg same]
    rw [pteAt, pteAt, pde]
    by_cases has : present (entry m d (high k)) = true
    · have table : holds m d (.table (high k)) = some (frame (entry m d (high k))) := holds_table.2 ⟨has, rfl⟩
      have notDir : frame (entry m d (high k)) ≠ d := fun same => apart.self _ (same ▸ table)
      have notNew : frame (entry m d (high k)) ≠ p := fun same => fresh (same ▸ table_iff.2 (.inr ⟨_, table⟩))
      rw [if_pos has, if_pos has, newTable, entry_setEntry_ne (.inl notDir), entry_setPage_ne notNew]
    · rw [if_neg has, if_neg has]

include apart fresh in
theorem newTable_holds (absent : ¬ present (entry m d i) = true) :
    holds (newTable m d p i) d = Function.update (holds m d) (.table i) (some p) := by
  funext item
  cases item with
  | dir => rw [Function.update_of_ne (by simp)]; rfl
  | table j =>
    rw [holds, newTable_directory fresh]
    by_cases same : j = i
    · subst same
      rw [if_pos rfl, Function.update_self, if_pos (present_pde p), frame_pde]
    · rw [if_neg same, Function.update_of_ne (by simpa using same)]
      rfl
  | user k =>
    rw [Function.update_of_ne (by simp), holds, newTable_pteAt apart fresh absent]
    rfl

end

/-- The memory after a store to the page table entry of page `k`. -/
def setPte (m : Mem) (d : Page) (k : Nat) (w : Word) : Mem := setEntry m (frame (entry m d (high k))) (low k) w

section
variable (apart : Apart m d) (has : present (entry m d (high k)) = true)
include apart has

theorem setPte_directory (j : BitVec 10) : entry (setPte m d k w) d j = entry m d j := by
  have notDir : d ≠ frame (entry m d (high k)) := fun same => apart.self _ (holds_table.2 ⟨has, same.symm⟩)
  exact entry_setEntry_ne (.inl notDir)

/-- A store to an entry changes that entry only. -/
theorem setPte_pteAt {j : Nat} (small : k < 2 ^ 20) (small' : j < 2 ^ 20) :
    pteAt (setPte m d k w) d j = if j = k then w else pteAt m d j := by
  rw [pteAt, setPte_directory apart has, pteAt]
  by_cases same : j = k
  · subst same
    rw [if_pos rfl, if_pos has, setPte, entry_setEntry_self]
  · rw [if_neg same]
    by_cases has' : present (entry m d (high j)) = true
    · rw [if_pos has', if_pos has', setPte, entry_setEntry_ne]
      -- another table, or another entry of the same table
      by_cases sameHigh : high j = high k
      · exact .inr fun sameLow => same (indices_inj small' small sameHigh sameLow)
      · exact .inl fun sameTable => sameHigh (apart.tables _ _ _ (holds_table.2 ⟨has', sameTable⟩) (holds_table.2 ⟨has, rfl⟩))
    · rw [if_neg has', if_neg has']

theorem setPte_holds_user (isUser : k < USERPAGES) : holds (setPte m d k w) d =
    Function.update (holds m d) (.user k) (if present w then some (frame w) else none) := by
  unfold USERPAGES at isUser
  funext item
  cases item with
  | dir => rw [Function.update_of_ne (by simp)]; rfl
  | table j =>
    rw [Function.update_of_ne (by simp), holds, setPte_directory apart has]
    rfl
  | user j =>
    by_cases inside : j < USERPAGES
    · rw [holds, setPte_pteAt apart has (by omega) (lt_trans inside (by decide))]
      by_cases same : j = k
      · subst same
        simp [inside]
      · rw [if_neg same, Function.update_of_ne (by simpa using same)]
        rfl
    · have different : j ≠ k := fun same => inside (same ▸ isUser)
      rw [Function.update_of_ne (by simpa using different), holds, holds, if_neg (fun h => inside h.1), if_neg (fun h => inside h.1)]

omit apart in
theorem setPte_ne {a : Phys} (other : ¬ Table m d a.page) : setPte m d k w a = m a :=
  setEntry_ne fun same => other (.inr ⟨_, has, same⟩)

end

end

end Xv6.Uvm
