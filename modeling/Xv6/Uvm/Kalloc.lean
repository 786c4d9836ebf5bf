import Xv6.Vm.Paging

/-!
# Pages of memory

`kalloc` and `kfree` of `kalloc.c`, and the stores that `vm.c` makes in whole pages and in
page table entries. The free list is a list of pages; the links that `kfree` stores in the pages
themselves are left out. A call of `kalloc` may find the list empty although pages come back
later, when other processes take and return pages; which calls do so is a part of the state.

Kernel code observes its calls of `kalloc`, with what the page is for, and of `kfree`.
-/

namespace Xv6.Uvm

open Xv6.Lib Xv6.Lib.Eff Xv6.Vm

/-- What a page is asked for: a kernel stack, a page directory, a page table or memory of a process. -/
inductive Use where
  | kstack | pgdir | pgtab | mem
  deriving DecidableEq, Repr

inductive Event where
  | kalloc (use : Use) (r : Option Page)
  | kfree (p : Page)
  deriving DecidableEq, Repr

/-- The calls of `panic`; `endless` stands for a loop that is cut off. -/
inductive Panic where
  | kfree
  | remap
  | phystopTooHigh
  | pteShouldExist
  | pageNotPresent
  | endless
  deriving DecidableEq, Repr

/-- Memory, the free pages, and whether each of the next calls of `kalloc` finds no page. -/
structure State where
  mem : Mem
  freelist : List Page
  refuse : List Bool

abbrev Code := Eff State Panic Event

/-- Where the kernel ends in physical memory: the page of `data`, and the first page at or after `end`. The
kernel is linked after the I/O space, and there is memory left for `kalloc`. -/
structure Layout where
  data : Page
  end_ : Page
  text : 0x100 < data.toNat
  order : data.toNat ≤ end_.toNat
  room : end_.toNat < PHYSPAGES

/-- The pages that `kfree` accepts. -/
def Layout.Valid (L : Layout) (p : Page) : Prop := L.end_.toNat ≤ p.toNat ∧ p.toNat < PHYSPAGES

instance (L : Layout) : DecidablePred L.Valid := fun _ => inferInstanceAs (Decidable (_ ∧ _))

/-- The physical address of a page. -/
def addr (p : Page) : Word := p ++ 0#12

/-! ## Stores -/

/-- The memory with new bytes in a page. -/
def setPage (m : Mem) (p : Page) (c : BitVec 12 → Byte) : Mem := fun a => if a.page = p then c a.off else m a

/-- The memory with a new entry `i` in the page directory or page table in page `t`. -/
def setEntry (m : Mem) (t : Page) (i : BitVec 10) (w : Word) : Mem := fun a =>
  if a.page = t ∧ a.off.extractLsb' 2 10 = i then w.extractLsb' (8 * (a.off.extractLsb' 0 2).toNat) 8 else m a

/-- `memset` of a page. -/
def memset (p : Page) (b : Byte) : Code Unit := update fun s => { s with mem := setPage s.mem p fun _ => b }

/-- `memmove` of a page. -/
def memmove (dst src : Page) : Code Unit :=
  update fun s => { s with mem := setPage s.mem dst fun o => s.mem ⟨src, o⟩ }

/-- `*pde = w` and `*pte = w`. -/
def store (t : Page) (i : BitVec 10) (w : Word) : Code Unit :=
  update fun s => { s with mem := setEntry s.mem t i w }

/-! ## The allocator -/

/-- The page that `kalloc` returns. -/
def State.next (s : State) : Option Page := if s.refuse.headD false then none else s.freelist.head?

/-- `kalloc`. -/
def kalloc (use : Use) : Code (Option Page) := do
  let s ← state
  update fun s =>
    { s with freelist := if s.next = none then s.freelist else s.freelist.tail, refuse := s.refuse.tail }
  emit (.kalloc use s.next)
  pure s.next

/-- `kfree`. -/
def kfree (L : Layout) (p : Page) : Code Unit :=
  if ¬ L.Valid p then fail .kfree
  else do
    memset p 1
    update fun s => { s with freelist := p :: s.freelist }
    emit (.kfree p)

/-! ## What the stores do -/

section
variable {m : Mem} {p t t' : Page} {i j : BitVec 10} {w : Word}

theorem setPage_ne {a : Phys} {c : BitVec 12 → Byte} (different : a.page ≠ p) : setPage m p c a = m a := if_neg different

theorem setPage_self {o : BitVec 12} {c : BitVec 12 → Byte} : setPage m p c ⟨p, o⟩ = c o := if_pos rfl

theorem setEntry_ne {a : Phys} (different : a.page ≠ t) : setEntry m t i w a = m a := if_neg fun h => different h.1

theorem entry_setPage_ne {c : BitVec 12 → Byte} (different : t ≠ p) : entry (setPage m p c) t i = entry m t i := by
  simp only [entry, setPage, different, if_false]

theorem entry_zeroPage : entry (setPage m p fun _ => 0) p i = 0 := by
  simp only [entry, setPage, if_true]
  rfl

theorem setEntry_at (k : BitVec 2) : setEntry m t i w ⟨t, i ++ k⟩ = w.extractLsb' (8 * k.toNat) 8 := by
  simp only [setEntry, BitVec.extractLsb'_append_eq_left, BitVec.extractLsb'_append_eq_right, and_self, if_true]

theorem entry_setEntry_self : entry (setEntry m t i w) t i = w := by
  rw [entry, setEntry_at, setEntry_at, setEntry_at, setEntry_at]
  show w.extractLsb' 24 8 ++ w.extractLsb' 16 8 ++ w.extractLsb' 8 8 ++ w.extractLsb' 0 8 = w
  rw [BitVec.extractLsb'_append_extractLsb'_eq_extractLsb' (by rfl), BitVec.extractLsb'_append_extractLsb'_eq_extractLsb' (by rfl),
    BitVec.extractLsb'_append_extractLsb'_eq_extractLsb' (by rfl)]
  exact BitVec.extractLsb'_eq_self

theorem entry_setEntry_ne (different : t' ≠ t ∨ j ≠ i) : entry (setEntry m t i w) t' j = entry m t' j := by
  have outside : ¬ (t' = t ∧ j = i) := fun ⟨same, same'⟩ => different.elim (· same) (· same')
  simp only [entry, setEntry, BitVec.extractLsb'_append_eq_left, outside, if_false]

theorem frame_addr (p : Page) : frame (addr p) = p := BitVec.extractLsb'_append_eq_left

theorem frame_or (v w : Word) : frame (v ||| w) = frame v ||| frame w := BitVec.extractLsb'_or

end

/-! ## What the allocator does -/

section
variable {L : Layout} {s : State}

theorem kalloc_spec (use : Use) (s : State) : succeeds (kalloc use)
    (fun r s' t => s'.mem = s.mem ∧ t = [.kalloc use r] ∧ (∀ p, r = some p → s.freelist = p :: s'.freelist) ∧
      (r = none → s'.freelist = s.freelist) ∧
      (s.refuse = [] → s'.refuse = [] ∧ (r = none → s.freelist = []))) s := by
  unfold kalloc
  refine succeeds_state_bind (succeeds_update_bind ?_)
  refine succeeds_then (succeeds_emit (Q := fun _ s' t => s' = _ ∧ t = _) ⟨rfl, rfl⟩) ?_
  rintro _ _ _ ⟨rfl, rfl⟩
  refine succeeds_pure ⟨rfl, rfl, fun p found => ?_, fun none => ?_, fun granted => ⟨?_, fun none => ?_⟩⟩
  · simp only [found, reduceCtorEq, if_false]
    rw [State.next] at found
    split_ifs at found
    exact List.eq_cons_of_mem_head? found
  · simp [none]
  · simp [granted]
  · simpa [State.next, granted] using none

theorem kfree_spec {p : Page} (valid : L.Valid p) (s : State) : succeeds (kfree L p)
    (fun _ s' t => s'.mem = setPage s.mem p (fun _ => 1) ∧ s'.freelist = p :: s.freelist ∧ t = [.kfree p]) s := by
  unfold kfree memset
  rw [if_neg (not_not.2 valid)]
  exact succeeds_update_bind (succeeds_update_bind (succeeds_emit ⟨rfl, rfl, rfl⟩))

end

end Xv6.Uvm
