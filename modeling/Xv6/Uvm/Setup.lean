import Xv6.Uvm.Dealloc

/-!
# The kernel part of a page directory

`setupkvm` takes a page for the directory and maps the kernel in it. When a page table is not to be had it returns 0
and keeps the pages it has taken; otherwise it returns a directory that holds only page tables.
-/

namespace Xv6.Uvm

open Xv6.Lib Xv6.Lib.Eff Xv6.Vm

/-- The entries of `kmap` from page `hi` on, each after the one before it. -/
def Ranges : Nat → List Kmap → Prop
  | _, [] => True
  | hi, e :: es => ∃ k n f, hi ≤ k ∧ e.virt.toNat / 4096 = k ∧
      (e.virt + (e.physEnd - e.physStart) - 1).toNat / 4096 = k + n ∧ e.physStart = addr f ∧ frame e.perm = 0#20 ∧
      Ranges (k + n + 1) es

theorem kmap_ranges (L : Layout) : Ranges USERPAGES (kmap L) := by
  have text := L.text
  have room := lt_of_le_of_lt L.order L.room
  unfold PHYSPAGES at room
  have at_ : (addr L.data).toNat = L.data.toNat * 4096 := append_toNat L.data
  have base : KERNBASE.toNat = 0x80000000 := rfl
  have ext : EXTMEM.toNat = 0x100000 := rfl
  have top : PHYSTOP.toNat = 0xe000000 := rfl
  have one : (1 : Word).toNat = 1 := rfl
  refine ⟨0x80000, 0xff, 0, by decide, by decide, by decide, by decide, by decide, ?_⟩
  refine ⟨0x80100, L.data.toNat - 0x101, 0x100, by decide, show (KERNBASE + EXTMEM).toNat / 4096 = _ by decide, ?_, rfl, show frame (0 : Word) = 0#20 by decide, ?_⟩
  · show (KERNBASE + EXTMEM + (addr L.data - EXTMEM) - 1).toNat / 4096 = _
    rw [BitVec.toNat_sub, BitVec.toNat_add, BitVec.toNat_add, BitVec.toNat_sub, at_, base, ext, one]
    omega
  refine ⟨0x80000 + L.data.toNat, 0xdfff - L.data.toNat, L.data, by omega, ?_, ?_, rfl, show frame PTE_W = 0#20 by decide, ?_⟩
  · show (addr L.data + KERNBASE).toNat / 4096 = _
    rw [BitVec.toNat_add, at_, base]
    omega
  · show (addr L.data + KERNBASE + (PHYSTOP - addr L.data) - 1).toNat / 4096 = _
    rw [BitVec.toNat_sub, BitVec.toNat_add, BitVec.toNat_add, BitVec.toNat_sub, at_, base, top, one]
    omega
  exact ⟨0xfe000, 0x1fff, 0xfe000, by omega, rfl, rfl, rfl, rfl, trivial⟩

/-- A page directory with no pages but those of the kernel, from `KERNBASE` up to page `hi`. -/
structure KernelPart (L : Layout) (d : Page) (hi : Nat) (s : State) : Prop where
  wf : Wf L s d
  upto : ∀ j < 2 ^ 20, present (pteAt s.mem d j) = true → USERPAGES ≤ j ∧ j < hi

section
variable {L : Layout} {d : Page} {s s' : State} {hi : Nat}

/-- The loop of `setupkvm` over `kmap`. -/
theorem setupLoop_spec (es : List Kmap) {hi : Nat} {s : State} (above : USERPAGES ≤ hi) (ranges : Ranges hi es)
    (part : KernelPart L d hi s) : succeeds (setupLoop d es)
      (fun r s' t => OnlyTables t ∧ Grows d s s' ∧ (∀ p, Has s' d p ↔ Has s d p) ∧
        (r = some d ∧ Fine t ∧ (∃ hi', KernelPart L d hi' s') ∧ (∀ m, Plenty d m s → Plenty d m s') ∨
          r = none ∧ ¬ Fine t ∧ ∀ m, ¬ Plenty d m s)) s := by
  induction es generalizing hi s with
  | nil =>
    exact succeeds_pure ⟨by simp [OnlyTables], .refl d s, fun _ => Iff.rfl, .inl ⟨rfl, by simp [Fine], ⟨hi, part⟩, fun _ h => h⟩⟩
  | cons e es ih =>
    obtain ⟨k, n, f, after, first, last, start, flags, rest⟩ := ranges
    have lt := (e.virt + (e.physEnd - e.physStart) - 1).isLt
    unfold setupLoop
    rw [start] at last ⊢
    have absent : ∀ i ≤ n, ¬ present (pteAt s.mem d (k + i)) = true := fun i le has => by
      have := part.upto (k + i) (by omega) has
      omega
    have notUser : ∀ i, ¬ k + i < USERPAGES := fun i => by omega
    refine succeeds_then (mappages_spec flags first last part.wf absent fun i _ isUser => absurd isUser (notUser i)) ?_
    rintro r s1 t ⟨only, b, mapped, result⟩
    have has : ∀ p, Has s1 d p ↔ Has s d p := fun p => by
      rw [mapped.has]
      refine or_iff_left ?_
      rintro ⟨i, -, isUser, -⟩
      exact notUser i isUser
    rcases result with ⟨rfl, rfl, fine, plenty⟩ | ⟨rfl, -, failed, scarce⟩
    · rw [if_neg (by decide)]
      have part' : KernelPart L d (k + n + 1) s1 := by
        refine ⟨mapped.wf, fun j small present => ?_⟩
        rw [mapped.pte j small] at present
        split_ifs at present with inside
        · omega
        · have := part.upto j small present
          omega
      refine succeeds_mono (ih (by omega) rest part') ?_
      rintro r s' t' ⟨only', grows, has', result⟩
      refine ⟨only.append only', mapped.grows.trans grows, fun p => (has' p).trans (has p), ?_⟩
      rcases result with ⟨rfl, fine', part'', plenty'⟩ | ⟨rfl, failed, scarce⟩
      · exact .inl ⟨rfl, fine_append.2 ⟨fine, fine'⟩, part'', fun m h => plenty' m (plenty m h)⟩
      · exact .inr ⟨rfl, fun both => failed (fine_append.1 both).2, fun m h => scarce m (plenty m h)⟩
    · rw [if_pos (by decide)]
      refine succeeds_pure ?_
      rw [List.append_nil]
      exact ⟨only, mapped.grows, has, .inr ⟨rfl, failed, scarce⟩⟩

/-- The free list is one of pages for `kalloc`. -/
structure FreeList (L : Layout) (free : List Page) : Prop where
  nodup : free.Nodup
  valid : ∀ p ∈ free, L.Valid p

/-- A page directory made from free pages: it holds what is not free any more, and no user page. -/
structure Built (L : Layout) (d : Page) (s s' : State) : Prop where
  wf : Wf L s' d
  has : ∀ p, Has s' d p ↔ p ∈ s.freelist
  free : s'.freelist <:+ s.freelist
  frame : ∀ p, p ∉ s.freelist → ∀ o, s'.mem ⟨p, o⟩ = s.mem ⟨p, o⟩

/-- No request is refused, and there are pages for a directory and all its page tables, and `m` more. -/
structure Rich (m : Nat) (s : State) : Prop where
  granted : s.refuse = []
  enough : NPDENTRIES + 1 + m ≤ s.freelist.length

/-- The three ways in which `setupkvm` ends: with a directory, without any page, or for want of a page table, and then the
page taken for the directory is not free again. -/
inductive SetUp (L : Layout) (s : State) : Option Page → State → List Event → Prop where
  | made {d : Page} {s1 : State} {t : List Event} (fine : Fine t) (built : Built L d s s1)
      (none : ∀ k < USERPAGES, ¬ present (pteAt s1.mem d k) = true) (plenty : ∀ m, Rich m s → Plenty d m s1) :
    SetUp L s (some d) s1 t
  | noPage {s1 : State} (mem : s1.mem = s.mem) (free : s1.freelist = s.freelist) (poor : ∀ m, ¬ Rich m s) :
    SetUp L s none s1 [.kalloc .pgdir none]
  | noTable {d : Page} {s1 : State} {t : List Event} (failed : ¬ Fine t) (free : s1.freelist <:+ s.freelist)
      (taken : d ∈ s.freelist) (lost : d ∉ s1.freelist)
      (frame : ∀ p, p ∉ s.freelist → ∀ o, s1.mem ⟨p, o⟩ = s.mem ⟨p, o⟩) (poor : ∀ m, ¬ Rich m s) : SetUp L s none s1 t

/-- An empty page directory. -/
theorem kernelPart_empty (free : FreeList L (d :: s.freelist)) (zero : ∀ i, entry s.mem d i = 0) :
    KernelPart L d USERPAGES s ∧ ∀ p, Has s d p ↔ p = d ∨ p ∈ s.freelist := by
  have pte : ∀ j, pteAt s.mem d j = 0 := fun j => pteAt_absent (by rw [zero]; decide)
  have held : ∀ i p, holds s.mem d i = some p ↔ i = .dir ∧ p = d := by
    intro i p
    cases i with
    | dir => simp [holds, eq_comm]
    | table i => simp [holds, zero, show present 0#32 = false from rfl]
    | user k => simp [holds, pte, show present 0#32 = false from rfl]
  have has : ∀ p, Has s d p ↔ p = d ∨ p ∈ s.freelist := by
    intro p
    simp only [Has, Pool.Has, held]
    simp [or_comm]
  obtain ⟨fresh, nodup⟩ := List.nodup_cons.1 free.nodup
  refine ⟨⟨⟨⟨nodup, ?_, ?_⟩, ?_⟩, ?_⟩, has⟩
  · intro i p isHeld
    rw [((held i p).1 isHeld).2]
    exact fresh
  · intro i j p isHeld isHeld'
    rw [((held i p).1 isHeld).1, ((held j p).1 isHeld').1]
  · intro p member
    exact free.valid p (List.mem_cons.2 ((has p).1 member))
  · intro j _ isPresent
    rw [pte, present_zero] at isPresent
    cases isPresent

/-- **What `setupkvm` does.** -/
theorem setupkvm_spec (free : FreeList L s.freelist) : succeeds (setupkvm L) (SetUp L s) s := by
  unfold setupkvm
  refine succeeds_then (kalloc_spec .pgdir s) ?_
  rintro (_ | d) s1 _ ⟨mem, rfl, taken, refused, granted⟩
  · refine succeeds_pure (.noPage mem (refused rfl) fun m rich => ?_)
    have enough := rich.enough
    rw [(granted rich.granted).2 rfl, List.length_nil] at enough
    omega
  · have isFree := taken d rfl
    unfold memset
    refine succeeds_update_bind ?_
    rw [if_neg (by decide)]
    rw [isFree] at free
    have empty := kernelPart_empty (s := { s1 with mem := setPage s1.mem d fun _ => 0 }) free fun i => entry_zeroPage
    obtain ⟨part, has⟩ := empty
    refine succeeds_mono (setupLoop_spec (kmap L) le_rfl (kmap_ranges L) part) ?_
    rintro r s' t ⟨only, grows, has', result⟩
    have plenty1 : ∀ m, Rich m s → Plenty d m { s1 with mem := setPage s1.mem d fun _ => 0 } := by
      intro m rich
      refine ⟨(granted rich.granted).1, ?_⟩
      have enough := rich.enough
      rw [isFree, List.length_cons] at enough
      have most := Finset.card_filter_le (Finset.univ : Finset (BitVec 10))
        fun i => ¬ present (entry (setPage s1.mem d fun _ => 0) d i) = true
      rw [Finset.card_univ, ← FinEnum.card_eq_fintypeCard, FinEnum.card_bitVec] at most
      unfold NPDENTRIES at enough
      exact le_trans (Nat.add_le_add_right most m) (show 2 ^ 10 + m ≤ s1.freelist.length by omega)
    have has'' : ∀ p, Has s' d p ↔ p ∈ s.freelist := fun p => by
      rw [has', has, isFree, List.mem_cons]
    have free' : s'.freelist <:+ s.freelist := grows.free.trans (isFree ▸ List.suffix_cons d _)
    have frame : ∀ p, p ∉ s.freelist → ∀ o, s'.mem ⟨p, o⟩ = s.mem ⟨p, o⟩ := by
      intro p outside o
      have notFree : p ∉ s1.freelist := fun member => outside (isFree ▸ List.mem_cons_of_mem d member)
      have notDir : p ≠ d := fun same => outside (isFree ▸ same ▸ List.mem_cons_self)
      have notTable : ¬ Table (setPage s1.mem d fun _ => 0) d p := fun table => by
        rcases table with same | ⟨i, has, -⟩
        · exact notDir same
        · rw [entry_zeroPage] at has
          cases has
      rw [grows.frame p notFree notTable o, ← mem]
      exact setPage_ne (m := s1.mem) (p := d) (c := fun _ => 0) (a := ⟨p, o⟩) notDir
    rcases result with ⟨rfl, fine, ⟨hi', part'⟩, plenty⟩ | ⟨rfl, failed, scarce⟩
    · refine .made (fine_append.2 ⟨by simp [Fine], fine⟩) ⟨part'.wf, has'', free', frame⟩ (fun k isUser has => ?_)
        fun m rich => plenty m (plenty1 m rich)
      have := part'.upto k (lt_trans isUser (by decide)) has
      omega
    · refine .noTable (fun both => failed (fine_append.1 both).2) free' (isFree ▸ List.mem_cons_self) ?_ frame
        fun m rich => scarce m (plenty1 m rich)
      intro member
      exact (List.nodup_cons.1 free.nodup).1 (grows.free.subset member)

end

end Xv6.Uvm
