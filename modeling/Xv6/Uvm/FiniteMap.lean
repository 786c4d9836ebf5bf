import Xv6.Uvm.Grow

/-!
# A page directory is a finite map

From outside, a page directory maps the pages of addresses to pages of memory with flags. `mappages` adds the pages of a range,
whether its ends are page-aligned or not and wherever it ends, and changes the map nowhere else. The ranges of `kmap` do
not overlap, so `setupkvm` maps no page twice.
-/

namespace Xv6.Uvm

open Xv6.Lib Xv6.Lib.Eff Xv6.Vm

/-- The physical address and the flags that a directory has for a virtual address: those of the entry that `walkpgdir` finds
without making page tables, if it is present. -/
def lookup (d : Page) (va : Word) : Code (Option (Word × Word)) := do
  match ← walkpgdir d va false with
  | none => pure none
  | some (pgtab, i) => do
    let s ← state
    let pte := entry s.mem pgtab i
    pure (if present pte then some (PTE_ADDR pte, PTE_FLAGS pte) else none)

/-- The map that a directory stands for, on the pages of addresses. -/
def translation (s : State) (d : Page) (j : Nat) : Option (Word × Word) :=
  let pte := pteAt s.mem d j
  if present pte then some (PTE_ADDR pte, PTE_FLAGS pte) else none

section
variable {s s' : State} {d f : Page} {perm : Word} {j k b : Nat}

theorem lookup_eq (s : State) (d : Page) (j : Nat) : lookup d (pageAddr j) s = (.ok (translation s d j), s, []) := by
  have spec : succeeds (lookup d (pageAddr j)) (fun r s' t => r = translation s d j ∧ s' = s ∧ t = []) s := by
    unfold lookup
    refine succeeds_then (walkpgdir_find s d j) ?_
    rintro r s1 _ ⟨rfl, rfl, rfl⟩
    by_cases has : present (entry s1.mem d (high j)) = true
    · rw [if_pos has]
      refine succeeds_state_bind (succeeds_pure ⟨?_, rfl, rfl⟩)
      rw [translation, pteAt_eq has]
    · rw [if_neg has]
      refine succeeds_pure ⟨?_, rfl, rfl⟩
      rw [translation, pteAt_absent has]
      rfl
  obtain ⟨_, _, _, run, rfl, rfl, rfl⟩ := spec.exists
  exact run

theorem addr_add (f : Page) (k : Nat) : addr (f + BitVec.ofNat 20 k) = addr f + BitVec.ofNat 32 (k * 4096) := by
  refine BitVec.eq_of_toNat_eq ?_
  rw [addr, addr, append_toNat, BitVec.toNat_add, BitVec.toNat_add, append_toNat, BitVec.toNat_ofNat, BitVec.toNat_ofNat]
  omega

theorem flags_toNat (e : Word) : (PTE_FLAGS e).toNat = e.toNat % 4096 := by
  rw [PTE_FLAGS, BitVec.toNat_and]
  exact Nat.and_two_pow_sub_one_eq_mod _ 12

theorem frame_toNat (e : Word) : (frame e).toNat = e.toNat / 4096 := by
  have lt := e.isLt
  rw [frame, BitVec.extractLsb'_toNat, Nat.shiftRight_eq_div_pow]
  omega

/-- The address and the flags in an entry do not mix. -/
theorem pte_parts (flags : frame perm = 0#20) (f : Page) :
    PTE_ADDR (addr f ||| perm ||| PTE_P) = addr f ∧ PTE_FLAGS (addr f ||| perm ||| PTE_P) = perm ||| PTE_P := by
  constructor
  · have page : PTE_ADDR (addr f ||| perm ||| PTE_P) = addr (frame (addr f ||| perm ||| PTE_P)) := mask_eq _
    rw [page, frame_pte f flags]
  · have none : PTE_FLAGS (addr f) = 0#32 := BitVec.eq_of_toNat_eq (by rw [flags_toNat, addr, append_toNat]; simp)
    have all : PTE_FLAGS perm = perm := BitVec.eq_of_toNat_eq (by
      have zero := frame_toNat perm
      rw [flags, BitVec.toNat_zero] at zero
      rw [flags_toNat]
      omega)
    have one : PTE_FLAGS PTE_P = PTE_P := rfl
    unfold PTE_FLAGS at *
    rw [BitVec.and_or_distrib_right, BitVec.and_or_distrib_right, none, all, one, BitVec.zero_or]

/-- The map after pages were mapped. -/
theorem Laid.translation (laid : Laid d k f perm b s s') (flags : frame perm = 0#20) {j : Nat} (small : j < 2 ^ 20) :
    Uvm.translation s' d j = if k ≤ j ∧ j < k + b then
      some (addr f + BitVec.ofNat 32 ((j - k) * 4096), perm ||| PTE_P) else Uvm.translation s d j := by
  rw [Uvm.translation, laid.pte j small]
  by_cases inside : k ≤ j ∧ j < k + b
  · rw [if_pos inside, if_pos inside, if_pos (present_pte _ _), (pte_parts flags _).1, (pte_parts flags _).2, addr_add]
  · rw [if_neg inside, if_neg inside, Uvm.translation]

end

/-- `mappages` adds the pages from that of `va` to that of `va + size - 1` to the map, if there are page tables to be had,
and leaves the rest of it alone; and `setupkvm` does not panic, wherever the kernel's data begin. -/
theorem mappages_finite_map (L : Layout) (s : State) (d f : Page) (va size perm : Word) (tree : Tree s d)
    (some_ : 1 ≤ size.toNat) (nowrap : va.toNat + size.toNat - 1 < 2 ^ 32) (flags : frame perm = 0#20)
    (absent : ∀ j, va.toNat / 4096 ≤ j → j ≤ (va.toNat + size.toNat - 1) / 4096 → translation s d j = none) :
    (∃ r s' t, mappages d va size (addr f) perm s = (.ok r, s', t) ∧ (Fine t → r = 0 ∧ ∀ j < 2 ^ 20,
      lookup d (pageAddr j) s' = (.ok (if va.toNat / 4096 ≤ j ∧ j ≤ (va.toNat + size.toNat - 1) / 4096 then
        some (addr f + BitVec.ofNat 32 ((j - va.toNat / 4096) * 4096), perm ||| PTE_P) else
        translation s d j), s', []))) ∧
    ∀ s0 : State, FreeList L s0.freelist → ∃ r s' t, setupkvm L s0 = (.ok r, s', t) := by
  constructor
  · have last : (va + size - 1).toNat = va.toNat + size.toNat - 1 := by
      rw [BitVec.toNat_sub, BitVec.toNat_add, show (1 : Word).toNat = 1 from rfl]
      omega
    obtain ⟨n, upto⟩ := Nat.exists_eq_add_of_le
      (show va.toNat / 4096 ≤ (va.toNat + size.toNat - 1) / 4096 from Nat.div_le_div_right (by omega))
    have absent' : ∀ i ≤ n, ¬ present (pteAt s.mem d (va.toNat / 4096 + i)) = true := fun i le isPresent => by
      have none := absent (va.toNat / 4096 + i) (by omega) (by omega)
      rw [translation, if_pos isPresent] at none
      cases none
    have spec : succeeds (mappages d va size (addr f) perm) _ s := mappages_lays rfl (by rw [last, upto]) tree absent'
    obtain ⟨r, s', t, run, -, b, laid, result⟩ := spec.exists
    refine ⟨r, s', t, run, fun fine => ?_⟩
    rcases result with ⟨rfl, rfl, -⟩ | ⟨-, -, failed, -⟩
    · refine ⟨rfl, fun j small => ?_⟩
      rw [lookup_eq, laid.translation flags small, upto, ← Nat.add_assoc]
      simp only [Nat.lt_succ_iff]
    · exact absurd fine failed
  · intro s0 free
    obtain ⟨r, s', t, run, -⟩ := (setupkvm_spec free).exists
    exact ⟨r, s', t, run⟩

/-- `0x2000` bytes at `0x1234` are mapped in an empty directory: three pages. -/
theorem mappages_finite_map_blank : Tree (blank [0x201]) 0x200 ∧ ∃ s' t,
    mappages 0x200 0x1234 0x2000 (addr 5) PTE_W (blank [0x201]) = (.ok 0, s', t) ∧
    lookup 0x200 (pageAddr 1) s' = (.ok (some (0x5000, 3)), s', []) ∧
    lookup 0x200 (pageAddr 3) s' = (.ok (some (0x7000, 3)), s', []) ∧ lookup 0x200 (pageAddr 4) s' = (.ok none, s', []) := by
  have tree : Tree (blank [0x201]) 0x200 :=
    (blank_wf ⟨by decide +kernel, by simp [Layout.Valid, layout, PHYSPAGES]⟩).tree
  have unmapped (j : Nat) : translation (blank [0x201]) 0x200 j = none := by
    rw [translation, pteAt_absent (by rw [blank_entry]; decide), present_zero]
    rfl
  obtain ⟨r, s', t, run, maps⟩ := (mappages_finite_map layout (blank [0x201]) 0x200 5 0x1234 0x2000 PTE_W tree (by decide)
    (by decide) (by decide) fun j _ _ => unmapped j).1
  have trace : (mappages 0x200 0x1234 0x2000 (addr 5) PTE_W (blank [0x201])).2.2 = [.kalloc .pgtab (some 0x201)] := by
    decide +kernel
  rw [run] at trace
  obtain ⟨rfl, found⟩ := maps (by rw [show t = _ from trace]; simp [Fine])
  have above := found 4 (by decide)
  rw [unmapped] at above
  exact ⟨tree, s', t, run, found 1 (by decide), found 3 (by decide), above⟩

end Xv6.Uvm
