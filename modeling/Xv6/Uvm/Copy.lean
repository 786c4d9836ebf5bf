import Xv6.Uvm.Teardown

/-!
# The copy of an address space

`copyuvm` makes a page directory for the child and gives it, for each page of the parent, a free page with the same bytes and
the same flags. Whatever is in use when it is called is left as it is, the parent's pages among it.
-/

namespace Xv6.Uvm

open Xv6.Lib Xv6.Lib.Eff Xv6.Vm

/-! ## What is in use -/

/-- None of the pages that the directory holds is free. -/
def InUse (s : State) (e : Page) : Prop := ∀ i p, holds s.mem e i = some p → p ∉ s.freelist

/-- The pages that the directory holds have the same bytes. -/
def Untouched (e : Page) (m m' : Mem) : Prop := ∀ i p, holds m e i = some p → ∀ o, m' ⟨p, o⟩ = m ⟨p, o⟩

section
variable {L : Layout} {d e p pgdir : Page} {s s' s1 s2 : State} {m m' m'' : Mem} {k : Nat} {t : List Event}

theorem entry_congr (same : ∀ o, m' ⟨p, o⟩ = m ⟨p, o⟩) (i : BitVec 10) : entry m' p i = entry m p i := by
  simp only [entry, same]

theorem Untouched.sameTables (untouched : Untouched e m m') : SameTables e m m' := by
  intro p table i
  refine entry_congr ?_ i
  rcases table_iff.1 table with rfl | ⟨j, held⟩
  · exact untouched .dir p rfl
  · exact untouched _ p held

theorem Untouched.trans (first : Untouched e m m') (second : Untouched e m' m'') : Untouched e m m'' := by
  intro i p held o
  rw [second i p (by rw [holds_sameTables first.sameTables]; exact held), first i p held]

theorem Grows.untouched (grows : Grows d s s') (away : ∀ i p, holds s.mem e i = some p → ¬ Has s d p) :
    Untouched e s.mem s'.mem := by
  intro i p held o
  have fresh := away i p held
  exact grows.frame p (fun free => fresh (.inl free)) (not_table_of_not_has fresh) o

/-! ## The flags of an entry -/

theorem frame_flags (e : Word) : frame (PTE_FLAGS e) = 0#20 := by
  rw [frame, PTE_FLAGS, BitVec.extractLsb'_and, show (0xfff : Word).extractLsb' 12 20 = 0#20 from rfl, BitVec.and_zero]

/-- The entry of a copy has the flags of the entry it was made from. -/
theorem flags_copy (p : Page) (e : Word) (has : present e = true) : PTE_FLAGS (addr p ||| PTE_FLAGS e ||| PTE_P) = PTE_FLAGS e := by
  refine BitVec.eq_of_getLsbD_eq fun i _ => ?_
  have page : (addr p).getLsbD i = true → ¬ i < 12 := by
    rw [addr, BitVec.getLsbD_append]
    intro set low
    rw [if_pos low] at set
    simp at set
  have one : PTE_P.getLsbD i = true → i = 0 := by
    rw [show PTE_P = 1#32 from rfl, BitVec.getLsbD_one]
    simp
  have mask : (0xfff : Word).getLsbD i = true ↔ i < 12 := by
    rw [show (0xfff : Word) = BitVec.ofNat 32 (2 ^ 12 - 1) from rfl, BitVec.getLsbD_ofNat, Nat.testBit_two_pow_sub_one]
    simp
    omega
  rw [present] at has
  rw [Bool.eq_iff_iff]
  simp only [PTE_FLAGS, BitVec.getLsbD_and, BitVec.getLsbD_or, Bool.and_eq_true, Bool.or_eq_true, mask]
  constructor
  · rintro ⟨(set | set) | set, low⟩
    · exact absurd low (page set)
    · exact set
    · exact ⟨one set ▸ has, low⟩
  · rintro ⟨set, low⟩
    exact ⟨.inl (.inr ⟨set, low⟩), low⟩

/-! ## The loop of `copyuvm` -/

/-- The flags of page `k` of the parent. -/
def flagsOf (m : Mem) (pgdir : Page) (k : Nat) : Word := PTE_FLAGS (pteAt m pgdir k)

/-- The bytes of page `k` of the parent. -/
def bytesOf (m : Mem) (pgdir : Page) (k : Nat) (o : BitVec 12) : Byte := m ⟨frame (pteAt m pgdir k), o⟩

/-- The copies of the first `k` pages of the parent are in the directory of the child. -/
abbrev Copying (L : Layout) (pgdir d : Page) (k : Nat) (s s' : State) (t : List Event) : Prop :=
  Filled L d (flagsOf s.mem pgdir) (bytesOf s.mem pgdir) 0 k s s' t

/-- The loop returns the child's directory with all the copies, or gives back what the directory holds. -/
inductive CopyEnd (L : Layout) (pgdir d : Page) (sz : Word) (s : State) : Option Page → State → List Event → Prop where
  | done {s' : State} {t : List Event} (fine : Fine t) (copies : Copying L pgdir d (pagesUpTo sz) s s' t) :
    CopyEnd L pgdir d sz s (some d) s' t
  | failed {k : Nat} {s1 s' : State} {t t' : List Event} (copies : Copying L pgdir d k s s1 t) (free : ∀ p, p ∈ s'.freelist ↔ Has s1 d p)
      (nodup : s'.freelist.Nodup) (frame : ∀ p, ¬ Has s d p → ∀ o, s'.mem ⟨p, o⟩ = s.mem ⟨p, o⟩)
      (frees : ∀ e ∈ t', ∃ p, e = .kfree p) : CopyEnd L pgdir d sz s none s' (t ++ t')

/-- The round for page `k`, after a page of memory was found and filled. -/
theorem copy_round (copies : Copying L pgdir d k s s1 t) (isUser : k < USERPAGES) (absent : ¬ present (pteAt s.mem d k) = true)
    (free : s1.freelist = p :: s2.freelist)
    (mem : s2.mem = setPage s1.mem p (bytesOf s.mem pgdir k)) :
    succeeds (mappages d (pageAddr k) pgsize (addr p) (flagsOf s.mem pgdir k))
      (fun r s3 t' => (r = 0 ∧ Fine t' ∧ (∀ m, Plenty d m s2 → Plenty d m s3) ∨ r = -1 ∧ ¬ Fine t' ∧ ∀ m, ¬ Plenty d m s2) ∧
        Copying L pgdir d (k + 1) s s3 (t ++ ([.kalloc .mem (some p)] ++ t'))) s2 :=
  succeeds_mono (fill_round copies (Nat.zero_le k) isUser absent (fun j => frame_flags (pteAt s.mem pgdir j)) free mem)
    fun _ _ _ post => post.2

/-- `goto bad`. -/
theorem copy_bad (sz : Word) (copies : Copying L pgdir d k s s1 t) :
    succeeds (do freevm L d; pure none : Code (Option Page)) (fun r s' t' => r = none ∧ CopyEnd L pgdir d sz s r s' (t ++ t')) s1 := by
  have wf := copies.wf
  refine succeeds_then (freevm_spec wf) ?_
  rintro _ s' t' ⟨perm, frees, free, frame⟩
  refine succeeds_pure ?_
  rw [List.append_nil]
  have free' : ∀ p, p ∈ s'.freelist ↔ Has s1 d p := fun p => by
    rw [free, List.mem_append, List.mem_reverse, perm.mem_iff, mem_owned, or_comm]
    exact Iff.rfl
  refine ⟨rfl, .failed copies free' ?_ (fun p fresh o => ?_) frees⟩
  · rw [free, List.nodup_append]
    refine ⟨List.nodup_reverse.2 (perm.nodup_iff.2 (nodup_owned wf)), wf.sound.nodup, fun p owned q isFree same => ?_⟩
    rw [List.mem_reverse, perm.mem_iff, mem_owned] at owned
    obtain ⟨i, held⟩ := owned
    exact wf.sound.apart i p held (same ▸ isFree)
  · have notHeld : p ∉ freed t' := fun owned => by
      rw [perm.mem_iff, mem_owned] at owned
      exact fresh (copies.less p (.inr owned))
    rw [frame p notHeld, copies.grows.frame p (fun isFree => fresh (.inl isFree)) (not_table_of_not_has fresh)]

/-- The loop of `copyuvm`, from page `k` on. -/
theorem copyLoop_spec {sz : Word} (below : sz < KERNBASE) (away : ∀ i p, holds s.mem pgdir i = some p → ¬ Has s d p)
    (mapped : ∀ k < pagesUpTo sz, present (pteAt s.mem pgdir k) = true)
    (absent : ∀ k < USERPAGES, ¬ present (pteAt s.mem d k) = true) (fuel : Nat) {k : Nat} {s1 : State} {t : List Event}
    (copies : Copying L pgdir d k s s1 t) (fine : Fine t) (upto : k ≤ pagesUpTo sz) (enough : pagesUpTo sz - k < fuel) :
    succeeds (copyLoop L pgdir d sz fuel (pageAddr k))
      (fun r s' t' => CopyEnd L pgdir d sz s r s' (t ++ t') ∧ (Plenty d (pagesUpTo sz - k) s1 → r ≠ none)) s1 := by
  have bound : pagesUpTo sz ≤ 0x80000 := pagesUpTo_le below
  induction fuel generalizing k s1 t with
  | zero => omega
  | succ fuel ih =>
    unfold copyLoop
    refine succeeds_ite (fun inside => ?_) fun past => ?_
    · have before : k < pagesUpTo sz := (pageAddr_lt (by omega)).1 inside
      have isUser : k < USERPAGES := by unfold USERPAGES; omega
      have untouched : Untouched pgdir s.mem s1.mem := copies.grows.untouched away
      have pte : pteAt s1.mem pgdir k = pteAt s.mem pgdir k := pteAt_sameTables untouched.sameTables
      have has : present (pteAt s1.mem pgdir k) = true := by rw [pte]; exact mapped k before
      have table := table_of_present has
      refine succeeds_then (walkpgdir_find s1 pgdir k) ?_
      rintro _ s1 _ ⟨rfl, rfl, rfl⟩
      rw [if_pos table]
      refine succeeds_state_bind ?_
      rw [← pteAt_eq table, if_neg (not_not.2 has), pte]
      refine succeeds_then (kalloc_spec .mem s1) ?_
      rintro (_ | p) s2 _ ⟨mem, rfl, taken, refused, granted⟩
      · refine succeeds_mono (copy_bad sz (copies.refused mem (refused rfl))) ?_
        rintro r s' t' ⟨rfl, ended⟩
        refine ⟨by simpa using ended, fun plenty => ?_⟩
        have enough := plenty.enough
        rw [(granted plenty.granted).2 rfl, List.length_nil] at enough
        omega
      · have free := taken p rfl
        have bytes : (fun o => s2.mem ⟨frame (pteAt s.mem pgdir k), o⟩) = bytesOf s.mem pgdir k := funext fun o => by
          rw [mem]
          exact untouched (.user k) _ (holds_user.2 ⟨isUser, mapped k before, rfl⟩) o
        unfold memmove
        refine succeeds_update_bind ?_
        rw [bytes, show PTE_FLAGS (pteAt s.mem pgdir k) = flagsOf s.mem pgdir k from rfl]
        have left : pagesUpTo sz - k = pagesUpTo sz - (k + 1) + 1 := by omega
        have plenty2 : Plenty d (pagesUpTo sz - k) s1 →
            Plenty d (pagesUpTo sz - (k + 1)) { s2 with mem := setPage s2.mem p (bytesOf s.mem pgdir k) } := fun plenty => by
          have takes : Takes L d p s1 { s2 with mem := setPage s2.mem p (bytesOf s.mem pgdir k) } :=
            copies.wf.takes free (by rw [mem])
          rw [left] at plenty
          exact plenty.pop (granted plenty.granted).1 free takes.same.directory
        refine succeeds_then (copy_round copies isUser (absent k isUser) free (by rw [mem])) ?_
        rintro r s3 t' ⟨⟨rfl, fine', plenty⟩ | ⟨rfl, failed, poor⟩, copies'⟩
        · rw [if_neg (by decide), pageAddr_succ]
          have fine1 : Fine (t ++ ([.kalloc .mem (some p)] ++ t')) := by
            rw [fine_append, fine_append]
            exact ⟨fine, by simp [Fine], fine'⟩
          refine succeeds_mono (ih copies' fine1 (by omega) (by omega)) ?_
          rintro r s' t'' ⟨ended, more⟩
          exact ⟨by simpa using ended, fun plenty1 => more (plenty _ (plenty2 plenty1))⟩
        · rw [if_pos (by decide)]
          refine succeeds_mono (copy_bad sz copies') ?_
          rintro r s' t'' ⟨rfl, ended⟩
          exact ⟨by simpa using ended, fun plenty1 => absurd (plenty2 plenty1) (poor _)⟩
    · have past' : pagesUpTo sz ≤ k := by
        by_contra before
        exact past ((pageAddr_lt (by omega)).2 (by omega))
      obtain rfl : k = pagesUpTo sz := by omega
      refine succeeds_pure ⟨?_, by simp⟩
      rw [List.append_nil]
      exact .done fine copies

/-! ## `copyuvm` -/

/-- The child has the pages of the parent: each address below `sz` has the same bytes and the same flags, in pages that were
free and are the child's only. Nothing that was in use has changed. -/
structure Copied (pgdir : Page) (sz : Word) (d : Page) (s s' : State) : Prop where
  present : ∀ k < pagesUpTo sz, present (pteAt s'.mem d k) = true
  flags : ∀ k < pagesUpTo sz, PTE_FLAGS (pteAt s'.mem d k) = PTE_FLAGS (pteAt s.mem pgdir k)
  bytes : ∀ k < pagesUpTo sz, ∀ o, s'.mem ⟨frame (pteAt s'.mem d k), o⟩ = s.mem ⟨frame (pteAt s.mem pgdir k), o⟩
  fresh : ∀ k p, holds s'.mem d (.user k) = some p → p ∈ s.freelist ∧ p ∉ s'.freelist
  once : ∀ k p i, holds s'.mem d (.user k) = some p → holds s'.mem d i = some p → i = .user k
  above : ∀ k < USERPAGES, pagesUpTo sz ≤ k → ¬ Vm.present (pteAt s'.mem d k) = true
  untouched : ∀ e, InUse s e → Untouched e s.mem s'.mem
  separate : ∀ e, InUse s e → ∀ k p i, holds s'.mem d (.user k) = some p → holds s'.mem e i ≠ some p

/-- `copyuvm` makes the copy, or it fails: then the pages that were free are free again, unless a page table was asked for
in vain. -/
inductive CopyResult (L : Layout) (pgdir : Page) (sz : Word) (s : State) : Option Page → State → List Event → Prop where
  | copied {d : Page} {s' : State} {t : List Event} (fine : Fine t) (wf : Wf L s' d) (copied : Copied pgdir sz d s s') :
    CopyResult L pgdir sz s (some d) s' t
  | failed {s' : State} {t : List Event} (poor : ¬ Rich (pagesUpTo sz) s) (same : Fine t → s'.freelist.Perm s.freelist)
      (lost : ¬ Fine t → ∃ p ∈ s.freelist, p ∉ s'.freelist) (less : ∀ p ∈ s'.freelist, p ∈ s.freelist) (nodup : s'.freelist.Nodup)
      (frame : ∀ p, p ∉ s.freelist → ∀ o, s'.mem ⟨p, o⟩ = s.mem ⟨p, o⟩) : CopyResult L pgdir sz s none s' t

theorem fine_kfrees {t' : List Event} (frees : ∀ e ∈ t', ∃ p, e = .kfree p) : Fine (t ++ t') ↔ Fine t := by
  rw [fine_append]
  refine and_iff_left fun member => ?_
  obtain ⟨p, same⟩ := frees _ member
  cases same

theorem Built.untouched (built : Built L d s s1) (inUse : InUse s e) : Untouched e s.mem s1.mem :=
  fun i p held => built.frame p (inUse i p held)

theorem Built.away (built : Built L d s s1) (inUse : InUse s e) : ∀ i p, holds s1.mem e i = some p → ¬ Has s1 d p := by
  intro i p held has
  rw [holds_sameTables (built.untouched inUse).sameTables] at held
  exact inUse i p held ((built.has p).1 has)

/-- The copy that the loop makes in a new page directory. -/
theorem Copying.copied {sz : Word} (below : sz < KERNBASE) (built : Built L d s s1) (inUse : InUse s pgdir)
    (mapped : ∀ k < pagesUpTo sz, present (pteAt s.mem pgdir k) = true)
    (absent : ∀ k < USERPAGES, ¬ present (pteAt s1.mem d k) = true) (fine : Fine t)
    (copies : Copying L pgdir d (pagesUpTo sz) s1 s' t) : Copied pgdir sz d s s' := by
  have bound : pagesUpTo sz ≤ USERPAGES := pagesUpTo_le below
  have user : USERPAGES ≤ 2 ^ 20 := by unfold USERPAGES; omega
  have pte : ∀ k, pteAt s1.mem pgdir k = pteAt s.mem pgdir k := fun k => pteAt_sameTables (built.untouched inUse).sameTables
  have untouched : ∀ e, InUse s e → Untouched e s.mem s'.mem := fun e inUse' =>
    (built.untouched inUse').trans (copies.grows.untouched (built.away inUse'))
  have wasFree : ∀ i p, holds s'.mem d i = some p → p ∈ s.freelist := fun i p held =>
    (built.has p).1 (copies.less p (.inr ⟨i, held⟩))
  have pages : ∀ k < pagesUpTo sz, ∃ f, pteAt s'.mem d k = addr f ||| PTE_FLAGS (pteAt s.mem pgdir k) ||| PTE_P ∧
      ∀ o, s'.mem ⟨f, o⟩ = s.mem ⟨frame (pteAt s.mem pgdir k), o⟩ := by
    intro k inside
    obtain ⟨f, -, maps, contents⟩ := copies.pages fine k (Nat.zero_le k) inside
    rw [flagsOf, pte] at maps
    refine ⟨f, maps, fun o => ?_⟩
    rw [contents, bytesOf, pte]
    exact built.untouched inUse (.user k) _ (holds_user.2 ⟨by omega, mapped k inside, rfl⟩) o
  refine ⟨?_, ?_, ?_, ?_, ?_, ?_, untouched, ?_⟩
  · intro k inside
    obtain ⟨f, maps, -⟩ := pages k inside
    rw [maps]
    exact present_pte _ _
  · intro k inside
    obtain ⟨f, maps, -⟩ := pages k inside
    rw [maps]
    exact flags_copy f _ (mapped k inside)
  · intro k inside o
    obtain ⟨f, maps, contents⟩ := pages k inside
    rw [maps, frame_pte f (frame_flags _), contents]
  · exact fun k p held => ⟨wasFree _ p held, copies.wf.sound.apart _ p held⟩
  · exact fun k p i held held' => copies.wf.sound.once i _ p held' held
  · intro k isUser past
    rw [copies.outside k (by omega) (by omega)]
    exact absent k isUser
  · intro e inUse' k p i held held'
    rw [holds_sameTables (untouched e inUse').sameTables] at held'
    exact inUse' i p held' (wasFree _ p held)

/-- **What `copyuvm` does.** -/
theorem copyuvm_spec {sz : Word} (free : FreeList L s.freelist) (inUse : InUse s pgdir) (below : sz < KERNBASE)
    (mapped : ∀ k < pagesUpTo sz, present (pteAt s.mem pgdir k) = true) :
    succeeds (copyuvm L pgdir sz) (CopyResult L pgdir sz s) s := by
  have bound : pagesUpTo sz ≤ 0x80000 := pagesUpTo_le below
  unfold copyuvm
  refine succeeds_then (setupkvm_spec free) ?_
  rintro r s1 t ended
  cases ended with
  | noPage mem same poor =>
    refine succeeds_pure (.failed (poor _) (fun _ => by rw [same]) (fun failed => ?_) (by simp [same]) ?_ (by simp [mem]))
    · exact absurd (by simp [Fine]) failed
    · rw [same]
      exact free.nodup
  | noTable failed less taken lost frame poor =>
    rw [← List.append_nil t] at failed
    exact succeeds_pure (.failed (poor _) (fun fine => absurd fine failed) (fun _ => ⟨_, taken, lost⟩) less.subset
      (free.nodup.sublist less.sublist) frame)
  | @made d _ _ fine built none plenty =>
    have mapped1 : ∀ k < pagesUpTo sz, present (pteAt s1.mem pgdir k) = true := fun k inside => by
      rw [pteAt_sameTables (built.untouched inUse).sameTables]
      exact mapped k inside
    have loop := copyLoop_spec below (built.away inUse) mapped1 none rounds (.start built.wf 0) (by simp [Fine]) (Nat.zero_le _)
      (by unfold rounds; omega)
    refine succeeds_mono loop ?_
    rintro r s' t' ⟨ended, more⟩
    rw [List.nil_append] at ended
    cases ended with
    | done fine' copies =>
      exact .copied (fine_append.2 ⟨fine, fine'⟩) copies.wf (copies.copied below built inUse mapped none fine')
    | @failed k s2 _ t1 t2 copies free' nodup frame frees =>
      have isFine : Fine (t ++ (t1 ++ t2)) ↔ Fine t1 := by
        rw [fine_append, fine_kfrees frees]
        exact and_iff_right fine
      have less : ∀ p ∈ s'.freelist, p ∈ s.freelist := fun p member =>
        (built.has p).1 (copies.less p ((free' p).1 member))
      refine .failed (fun rich => more (plenty _ rich) rfl) (fun fine => ?_) (fun failed => ?_) less nodup ?_
      · refine (List.perm_ext_iff_of_nodup nodup free.nodup).2 fun p => ⟨less p, fun member => ?_⟩
        exact (free' p).2 (copies.keeps (isFine.1 fine) p ((built.has p).2 member))
      · obtain ⟨j, p, -, -, -, -, wasFree, gone⟩ := copies.lost fun fine => failed (isFine.2 fine)
        exact ⟨p, built.free.subset wasFree, fun member => gone ((free' p).1 member)⟩
      · intro p notFree o
        rw [frame p (fun has => notFree ((built.has p).1 has)), built.frame p notFree]

/-- The address space that `copyuvm` returns is equal to the parent's and separate from every other; the parent's is
unchanged. -/
theorem copyuvm_equal_and_separate {sz : Word} (free : FreeList L s.freelist) (inUse : InUse s pgdir) (below : sz < KERNBASE)
    (mapped : ∀ k < pagesUpTo sz, present (pteAt s.mem pgdir k) = true) (run : copyuvm L pgdir sz s = (.ok (some d), s', t)) :
    Copied pgdir sz d s s' ∧ Untouched pgdir s.mem s'.mem := by
  obtain ⟨t', ended⟩ := (copyuvm_spec free inUse below mapped).returns.apply run
  cases ended with
  | copied fine wf copied => exact ⟨copied, copied.untouched pgdir inUse⟩

end

/-- The copy of a process of three pages. -/
theorem copyuvm_equal_and_separate_three : ∃ pgdir d s s' t, copyuvm layout pgdir 0x3000 s = (.ok (some d), s', t) ∧
    (∀ k < 3, present (pteAt s.mem pgdir k) = true) ∧ Copied pgdir 0x3000 d s s' ∧ Untouched pgdir s.mem s'.mem := by
  obtain ⟨pgdir, s, hand, made, plenty, pages⟩ := exists_made (m := 1028) (show [0, 1, 2].Nodup by decide) (by decide) (by decide)
  have wf := made.ready.wf
  have free : FreeList layout s.freelist := ⟨wf.sound.nodup, fun p isFree => wf.valid p (.inl isFree)⟩
  have mapped : ∀ k < 3, present (pteAt s.mem pgdir k) = true := fun k inside =>
    (pages k (by unfold USERPAGES; omega)).2 (by simp; omega)
  have enough := plenty.enough
  have rich : Rich 3 s := ⟨plenty.granted, by unfold NPDENTRIES; omega⟩
  obtain ⟨r, s', t, run, ended⟩ := (copyuvm_spec free wf.sound.apart (show (0x3000 : Word) < KERNBASE by decide) mapped).exists
  cases ended with
  | copied fine wf' copied =>
    exact ⟨pgdir, _, s, s', t, run, mapped, copyuvm_equal_and_separate free wf.sound.apart (by decide) mapped run⟩
  | failed poor same lost less nodup frame => exact absurd rich poor

end Xv6.Uvm
