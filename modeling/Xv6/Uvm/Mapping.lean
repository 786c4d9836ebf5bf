import Xv6.Uvm.Holds

/-!
# Making page tables and entries

What `walkpgdir` and `mappages` do to a well-formed page directory. A new page table comes from
the free list and maps nothing. `mappages` sets the entries of consecutive pages
and stops at the first one for which there is no page table to be had.
-/

namespace Xv6.Uvm

open Xv6.Lib Xv6.Lib.Eff Xv6.Vm

/-- The events are requests for page tables. -/
def OnlyTables (t : List Event) : Prop := ∀ e ∈ t, ∃ r, e = .kalloc .pgtab r

/-- No request for a page table failed. -/
def Fine (t : List Event) : Prop := .kalloc .pgtab none ∉ t

theorem fine_append {t t' : List Event} : Fine (t ++ t') ↔ Fine t ∧ Fine t' := by
  simp only [Fine, List.mem_append, not_or]

theorem OnlyTables.append {t t' : List Event} (only : OnlyTables t) (only' : OnlyTables t') : OnlyTables (t ++ t') :=
  fun e member => (List.mem_append.1 member).elim (only e) (only' e)

/-- What making page tables and entries leaves alone. -/
structure Grows (d : Page) (s s' : State) : Prop where
  free : s'.freelist <:+ s.freelist
  tables : ∀ i, present (entry s.mem d i) = true → entry s'.mem d i = entry s.mem d i
  new : ∀ p, Table s'.mem d p → Table s.mem d p ∨ p ∈ s.freelist
  frame : ∀ p, p ∉ s.freelist → ¬ Table s.mem d p → ∀ o, s'.mem ⟨p, o⟩ = s.mem ⟨p, o⟩

section
variable {L : Layout} {d p : Page} {s s' s'' : State} {k : Nat} {w : Word}

theorem Grows.refl (d : Page) (s : State) : Grows d s s :=
  ⟨List.suffix_refl _, fun _ _ => rfl, fun _ => .inl, fun _ _ _ _ => rfl⟩

theorem Grows.trans (h : Grows d s s') (h' : Grows d s' s'') : Grows d s s'' where
  free := h'.free.trans h.free
  tables i has := by
    rw [h'.tables i (by rw [h.tables i has]; exact has), h.tables i has]
  new p table := by
    rcases h'.new p table with old | free
    · exact h.new p old
    · exact .inr (h.free.subset free)
  frame p taken notTable o := by
    have notTable' : ¬ Table s'.mem d p := fun table => (h.new p table).elim notTable taken
    rw [h'.frame p (fun free => taken (h.free.subset free)) notTable' o, h.frame p taken notTable o]

/-! ## Well-formed page directories -/

theorem Wf.apart (wf : Wf L s d) : Apart s.mem d := apart_of_sound wf.sound

theorem Wf.not_table (wf : Wf L s d) (free : p ∈ s.freelist) : ¬ Table s.mem d p := by
  intro table
  rcases table_iff.1 table with rfl | ⟨i, held⟩
  · exact wf.sound.apart .dir p rfl free
  · exact wf.sound.apart _ p held free

/-- A user page is not free and no page table. -/
theorem Wf.user_apart (wf : Wf L s d) (held : holds s.mem d (.user k) = some p) : p ∉ s.freelist ∧ ¬ Table s.mem d p := by
  refine ⟨wf.sound.apart _ p held, fun table => ?_⟩
  rcases table_iff.1 table with rfl | ⟨i, held'⟩
  · cases wf.sound.once _ _ _ held (show holds s.mem p .dir = some p from rfl)
  · cases wf.sound.once _ _ _ held held'

theorem not_table_of_not_has (fresh : ¬ Has s d p) : ¬ Table s.mem d p := by
  intro table
  rcases table_iff.1 table with rfl | ⟨i, held⟩
  · exact fresh (.inr ⟨.dir, rfl⟩)
  · exact fresh (.inr ⟨_, held⟩)

/-- A state with the same free pages and the same page tables. -/
theorem Wf.congr (wf : Wf L s d) (same : SameTables d s.mem s'.mem) (free : s'.freelist = s.freelist) : Wf L s' d := by
  have has : ∀ p, Has s' d p ↔ Has s d p := fun p => by rw [Has, Has, holds_sameTables same, free]
  exact ⟨by rw [holds_sameTables same, free]; exact wf.sound, fun p member => wf.valid p ((has p).1 member)⟩

/-- Taking a page from the free list. -/
theorem Wf.pop (wf : Wf L s d) (mem : s'.mem = s.mem) (free : s.freelist = p :: s'.freelist) :
    Wf L s' d ∧ ¬ Has s' d p ∧ L.Valid p ∧ ∀ q, Has s d q ↔ q = p ∨ Has s' d q := by
  have sound := wf.sound
  rw [free] at sound
  obtain ⟨sound, fresh⟩ := sound.pop
  have has : ∀ q, Has s d q ↔ q = p ∨ Has s' d q := fun q => by rw [Has, free, Has, mem]; exact Pool.has_cons
  refine ⟨⟨by rw [mem]; exact sound, fun q member => wf.valid q ((has q).2 (.inr member))⟩, ?_,
    wf.valid p ((has p).2 (.inl rfl)), has⟩
  rw [Has, mem]
  exact fresh

/-! ## Enough pages -/

/-- No request is refused, and there is a free page for each page table that is missing, and `m` more. -/
structure Plenty (d : Page) (m : Nat) (s : State) : Prop where
  granted : s.refuse = []
  enough : (Finset.univ.filter fun i => ¬ present (entry s.mem d i) = true).card + m ≤ s.freelist.length

theorem Plenty.congr {m : Nat} (plenty : Plenty d m s) (refuse : s'.refuse = s.refuse) (free : s'.freelist = s.freelist)
    (directory : ∀ i, entry s'.mem d i = entry s.mem d i) : Plenty d m s' := by
  refine ⟨by rw [refuse]; exact plenty.granted, ?_⟩
  simp only [directory, free]
  exact plenty.enough

/-- A page is taken for something else. -/
theorem Plenty.pop {m : Nat} (plenty : Plenty d (m + 1) s) (refuse : s'.refuse = []) (free : s.freelist = p :: s'.freelist)
    (directory : ∀ i, entry s'.mem d i = entry s.mem d i) : Plenty d m s' := by
  have enough := plenty.enough
  rw [free, List.length_cons] at enough
  refine ⟨refuse, ?_⟩
  simp only [directory]
  omega

/-- There is a page for a page table that is missing. -/
theorem Plenty.nonempty {i : BitVec 10} {m : Nat} (plenty : Plenty d m s) (absent : ¬ present (entry s.mem d i) = true) :
    s.freelist ≠ [] := by
  intro empty
  have enough := plenty.enough
  rw [empty, List.length_nil] at enough
  have member : i ∈ Finset.univ.filter fun i => ¬ present (entry s.mem d i) = true := by simpa using absent
  have positive := Finset.card_pos.2 ⟨i, member⟩
  omega

/-- After a page table has been made there is a page for each of the others. -/
theorem Plenty.table {i : BitVec 10} {m : Nat} (plenty : Plenty d m s) (absent : ¬ present (entry s.mem d i) = true)
    (granted : s'.refuse = []) (free : s.freelist = p :: s'.freelist)
    (directory : ∀ j, entry s'.mem d j = if j = i then addr p ||| PTE_P ||| PTE_W ||| PTE_U else entry s.mem d j) :
    Plenty d m s' := by
  have member : i ∈ Finset.univ.filter fun i => ¬ present (entry s.mem d i) = true := by simpa using absent
  have erase : (Finset.univ.filter fun j => ¬ present (entry s'.mem d j) = true) =
      (Finset.univ.filter fun j => ¬ present (entry s.mem d j) = true).erase i := by
    ext j
    by_cases same : j = i
    · simp [directory, same, present_pde]
    · simp [directory, same]
  have enough := plenty.enough
  have positive := Finset.card_pos.2 ⟨i, member⟩
  refine ⟨granted, ?_⟩
  rw [erase, Finset.card_erase_of_mem member]
  rw [free, List.length_cons] at enough
  omega

/-! ## `walkpgdir` -/

/-- The page is free, the directory or one of its page tables. -/
def Stock (s : State) (d p : Page) : Prop := p ∈ s.freelist ∨ Table s.mem d p

/-- The directory and its page tables are in pages of their own, which are not free. -/
structure Tree (s : State) (d : Page) : Prop where
  apart : Apart s.mem d
  nodup : s.freelist.Nodup
  unfree : ∀ p ∈ s.freelist, ¬ Table s.mem d p

theorem Wf.tree (wf : Wf L s d) : Tree s d := ⟨wf.apart, wf.sound.nodup, fun _ => wf.not_table⟩

/-- A state with the same free pages and the same page directory. -/
theorem Tree.congr (tree : Tree s d) (directory : ∀ i, entry s'.mem d i = entry s.mem d i) (free : s'.freelist = s.freelist) :
    Tree s' d ∧ ∀ p, Stock s' d p ↔ Stock s d p := by
  have table (p : Page) : Table s'.mem d p ↔ Table s.mem d p := by simp only [Table, directory]
  have held (i : BitVec 10) : holds s'.mem d (.table i) = holds s.mem d (.table i) := by rw [holds, directory]; rfl
  refine ⟨⟨⟨fun i => ?_, fun i j p => ?_⟩, by rw [free]; exact tree.nodup, fun p member => ?_⟩, fun p => ?_⟩
  · rw [held]
    exact tree.apart.self i
  · rw [held, held]
    exact tree.apart.tables i j p
  · rw [table]
    exact tree.unfree p (free ▸ member)
  · rw [Stock, Stock, free, table]

/-- A walk that may make a page table: the entries of the pages stay as they are. -/
structure Walks (d : Page) (k : Nat) (s : State) (r : Option (Page × BitVec 10)) (s' : State) (t : List Event) : Prop where
  tree : Tree s' d
  grows : Grows d s s'
  pte : ∀ j, pteAt s'.mem d j = pteAt s.mem d j
  stock : ∀ p, Stock s' d p ↔ Stock s d p
  events : OnlyTables t
  found : ∀ pgtab i, r = some (pgtab, i) → Fine t ∧ present (entry s'.mem d (high k)) = true ∧
    pgtab = Vm.frame (entry s'.mem d (high k)) ∧ i = low k
  failed : r = none → ¬ Fine t ∧ s'.mem = s.mem ∧ s'.freelist = s.freelist
  plenty : ∀ m, Plenty d m s → r ≠ none ∧ Plenty d m s'

/-- The walk that makes a page table of page `p`. -/
theorem walked_new (tree : Tree s d) (absent : ¬ present (entry s.mem d (high k)) = true)
    (free : s.freelist = p :: s'.freelist) (mem : s'.mem = newTable s.mem d p (high k))
    (refuse : s.refuse = [] → s'.refuse = []) :
    Walks d k s (some (p, low k)) s' [.kalloc .pgtab (some p)] := by
  have isFree : p ∈ s.freelist := by rw [free]; exact List.mem_cons_self
  have fresh : ¬ Table s.mem d p := tree.unfree p isFree
  have nodup := tree.nodup
  rw [free, List.nodup_cons] at nodup
  have held (i : BitVec 10) (q : Page) : holds s'.mem d (.table i) = some q ↔
      i = high k ∧ q = p ∨ i ≠ high k ∧ holds s.mem d (.table i) = some q := by
    rw [mem, newTable_holds tree.apart fresh absent, Pool.update_eq_some]
    simp [eq_comm]
  have old {i : BitVec 10} {q : Page} (isHeld : holds s.mem d (.table i) = some q) : q ≠ p ∧ i ≠ high k := by
    refine ⟨fun same => fresh (same ▸ table_iff.2 (.inr ⟨i, isHeld⟩)), fun same => absent ?_⟩
    exact same ▸ (holds_table.1 isHeld).1
  have table (q : Page) : Table s'.mem d q ↔ q = p ∨ Table s.mem d q := by
    simp only [table_iff, held]
    constructor
    · rintro (rfl | ⟨i, ⟨-, rfl⟩ | ⟨-, isHeld⟩⟩)
      · exact .inr (.inl rfl)
      · exact .inl rfl
      · exact .inr (.inr ⟨i, isHeld⟩)
    · rintro (rfl | rfl | ⟨i, isHeld⟩)
      · exact .inr ⟨_, .inl ⟨rfl, rfl⟩⟩
      · exact .inl rfl
      · exact .inr ⟨i, .inr ⟨(old isHeld).2, isHeld⟩⟩
  have pde : entry s'.mem d (high k) = addr p ||| PTE_P ||| PTE_W ||| PTE_U := by
    rw [mem, newTable_directory fresh, if_pos rfl]
  refine ⟨⟨⟨fun i isHeld => ?_, fun i j q isHeld isHeld' => ?_⟩, nodup.2, fun q member isTable => ?_⟩,
    ⟨?_, ?_, ?_, ?_⟩, ?_, fun q => ?_, ?_, ?_, ?_, fun m plenty => ⟨by simp, ?_⟩⟩
  · rcases (held i d).1 isHeld with ⟨-, same⟩ | ⟨-, isHeld⟩
    · exact fresh (.inl same.symm)
    · exact tree.apart.self i isHeld
  · rcases (held i q).1 isHeld with ⟨rfl, rfl⟩ | ⟨-, isHeld⟩ <;> rcases (held j _).1 isHeld' with ⟨same, same'⟩ | ⟨-, isHeld'⟩
    · exact same.symm
    · exact absurd rfl (old isHeld').1
    · exact absurd same' (old isHeld).1
    · exact tree.apart.tables i j q isHeld isHeld'
  · rcases (table q).1 isTable with rfl | isTable
    · exact nodup.1 member
    · exact tree.unfree q (free ▸ List.mem_cons_of_mem p member) isTable
  · rw [free]
    exact List.suffix_cons p _
  · intro i present
    rw [mem, newTable_directory fresh, if_neg]
    rintro rfl
    exact absent present
  · intro q isTable
    rcases (table q).1 isTable with rfl | isTable
    · exact .inr isFree
    · exact .inl isTable
  · intro q taken notTable o
    have other : q ≠ p := fun same => taken (same ▸ isFree)
    have other' : q ≠ d := fun same => notTable (.inl same)
    rw [mem, newTable_ne (a := ⟨q, o⟩) other other']
  · intro j
    rw [mem, newTable_pteAt tree.apart fresh absent]
  · rw [Stock, Stock, table, free, List.mem_cons]
    tauto
  · simp [OnlyTables]
  · rintro _ _ ⟨⟩
    exact ⟨by simp [Fine], by rw [pde]; exact present_pde p, by rw [pde, frame_pde], rfl⟩
  · rintro ⟨⟩
  · refine plenty.table absent (refuse plenty.granted) free fun j => ?_
    rw [mem, newTable_directory fresh]

theorem walkpgdir_spec (tree : Tree s d) (k : Nat) :
    succeeds (walkpgdir d (pageAddr k) true) (Walks d k s) s := by
  unfold walkpgdir
  refine succeeds_state_bind ?_
  rw [PDX_pageAddr, PTX_pageAddr]
  refine succeeds_ite (fun has => ?_) fun absent => ?_
  · exact succeeds_pure ⟨tree, .refl d s, fun _ => rfl, fun _ => Iff.rfl, by simp [OnlyTables],
      by rintro _ _ ⟨⟩; exact ⟨by simp [Fine], has, rfl, rfl⟩, by rintro ⟨⟩, fun m plenty => ⟨by simp, plenty⟩⟩
  · rw [if_neg (by simp)]
    refine succeeds_then (kalloc_spec .pgtab s) ?_
    rintro (_ | p) s1 _ ⟨mem, rfl, taken, refused, granted⟩
    · have free := refused rfl
      have directory (i : BitVec 10) : entry s1.mem d i = entry s.mem d i := by rw [mem]
      obtain ⟨tree1, stock⟩ := tree.congr directory free
      refine succeeds_pure ⟨tree1, ⟨by rw [free], ?_, ?_, ?_⟩, ?_, stock, by simp [OnlyTables], by rintro _ _ ⟨⟩,
        fun _ => ⟨by simp [Fine], mem, free⟩, fun m plenty => absurd ((granted plenty.granted).2 rfl) (plenty.nonempty absent)⟩
      · intro i _
        rw [mem]
      · intro p table
        rw [mem] at table
        exact .inl table
      · intro p _ _ o
        rw [mem]
      · intro j
        rw [mem]
    · unfold memset store
      refine succeeds_update_bind (succeeds_update_bind (succeeds_pure ?_))
      refine walked_new tree absent (taken p rfl) ?_ fun refuse => (granted refuse).1
      rw [← mem]
      rfl

/-- A walk that makes no page tables. -/
theorem walkpgdir_find (s : State) (d : Page) (k : Nat) : succeeds (walkpgdir d (pageAddr k) false)
    (fun r s' t => s' = s ∧ t = [] ∧ r = if present (entry s.mem d (high k)) then
      some (Vm.frame (entry s.mem d (high k)), low k) else none) s := by
  unfold walkpgdir
  refine succeeds_state_bind ?_
  rw [PDX_pageAddr, PTX_pageAddr]
  refine succeeds_ite (fun has => ?_) fun absent => ?_
  · exact succeeds_pure ⟨rfl, rfl, (if_pos has).symm⟩
  · rw [if_pos rfl]
    exact succeeds_pure ⟨rfl, rfl, (if_neg absent).symm⟩

/-! ## `mappages` -/

/-- The entries of the `b` pages from `k` on map the pages of memory from `f` on, and the other entries are as before. -/
structure Laid (d : Page) (k : Nat) (f : Page) (perm : Word) (b : Nat) (s s' : State) : Prop where
  tree : Tree s' d
  grows : Grows d s s'
  pte : ∀ j < 2 ^ 20, pteAt s'.mem d j =
    if k ≤ j ∧ j < k + b then addr (f + BitVec.ofNat 20 (j - k)) ||| perm ||| PTE_P else pteAt s.mem d j
  stock : ∀ p, Stock s' d p ↔ Stock s d p

variable {f : Page} {perm : Word} {t : List Event} {r : Option (Page × BitVec 10)} {b : Nat}

theorem Walks.laid (walked : Walks d k s r s' t) : Laid d k f perm 0 s s' where
  tree := walked.tree
  grows := walked.grows
  pte j _ := by rw [walked.pte, if_neg (by omega)]
  stock := walked.stock

/-- One entry, for a page that has a page table. -/
theorem Laid.one (tree : Tree s d) (small : k < 2 ^ 20) (table : present (entry s.mem d (high k)) = true)
    (mem : s'.mem = setPte s.mem d k (addr f ||| perm ||| PTE_P)) (free : s'.freelist = s.freelist) :
    Laid d k f perm 1 s s' := by
  have directory : ∀ i, entry s'.mem d i = entry s.mem d i := fun i => by rw [mem, setPte_directory tree.apart table]
  obtain ⟨tree', stock⟩ := tree.congr directory free
  refine ⟨tree', ⟨by rw [free], fun i _ => directory i, fun p isTable => .inl ?_, ?_⟩, fun j small' => ?_, stock⟩
  · simpa only [Table, directory] using isTable
  · intro p _ notTable o
    rw [mem, setPte_ne table (a := ⟨p, o⟩) notTable]
  · rw [mem, setPte_pteAt tree.apart table small small']
    by_cases same : j = k
    · subst same
      simp
    · rw [if_neg same, if_neg (by omega)]

/-- After a walk that changed no entry. -/
theorem Laid.after (walked : Walks d k s r s' t) (laid : Laid d k f perm b s' s'') : Laid d k f perm b s s'' where
  tree := laid.tree
  grows := walked.grows.trans laid.grows
  pte j small := by rw [laid.pte j small, walked.pte]
  stock p := by rw [laid.stock, walked.stock]

theorem next_page (f : Page) (i : Nat) : f + 1 + BitVec.ofNat 20 i = f + BitVec.ofNat 20 (i + 1) := by
  rw [Nat.add_comm, BitVec.ofNat_add, BitVec.add_assoc]
  rfl

theorem Laid.cons (first : Laid d k f perm 1 s s') (rest : Laid d (k + 1) (f + 1) perm b s' s'') :
    Laid d k f perm (b + 1) s s'' where
  tree := rest.tree
  grows := first.grows.trans rest.grows
  pte j small := by
    rw [rest.pte j small, first.pte j small]
    by_cases later : k + 1 ≤ j ∧ j < k + 1 + b
    · rw [if_pos later, if_pos (by omega), next_page, show j - (k + 1) + 1 = j - k by omega]
    · rw [if_neg later]
      by_cases here : j = k
      · rw [if_pos (by omega), if_pos (by omega)]
      · rw [if_neg (by omega), if_neg (by omega)]
  stock p := by rw [rest.stock, first.stock]

/-- What `mappages` returns, and how many of the `n + 1` pages it then mapped. -/
def Result (n : Nat) (d : Page) (s : State) (r : Int) (b : Nat) (s' : State) (t : List Event) : Prop :=
  r = 0 ∧ b = n + 1 ∧ Fine t ∧ (∀ m, Plenty d m s → Plenty d m s') ∨ r = -1 ∧ b ≤ n ∧ ¬ Fine t ∧ ∀ m, ¬ Plenty d m s

/-- One round: without a page table the loop ends, otherwise the entry is set. -/
theorem mapLoop_round (tree : Tree s d) (small : k < 2 ^ 20) (absent : ¬ present (pteAt s.mem d k) = true) {last : Word}
    {fuel : Nat} {Q : Int → State → List Event → Prop}
    (failed : ∀ s' t, OnlyTables t → ¬ Fine t → (∀ m, ¬ Plenty d m s) → Laid d k f perm 0 s s' → Q (-1) s' t)
    (next : ∀ s' t, OnlyTables t → Fine t → (∀ m, Plenty d m s → Plenty d m s') → Laid d k f perm 1 s s' →
      succeeds (if pageAddr k = last then pure 0 else mapLoop d last perm fuel (pageAddr (k + 1)) (addr (f + 1)))
        (fun r s'' t' => Q r s'' (t ++ t')) s') :
    succeeds (mapLoop d last perm (fuel + 1) (pageAddr k) (addr f)) Q s := by
  unfold mapLoop
  refine succeeds_then (walkpgdir_spec tree k) ?_
  rintro (_ | ⟨pgtab, i⟩) s1 t walked
  · refine succeeds_pure ?_
    rw [List.append_nil]
    exact failed s1 t walked.events (walked.failed rfl).1 (fun m plenty => (walked.plenty m plenty).1 rfl) walked.laid
  · obtain ⟨fine, table, rfl, rfl⟩ := walked.found pgtab i rfl
    refine succeeds_state_bind ?_
    rw [← pteAt_eq table, if_neg (by rw [walked.pte]; exact absent)]
    refine succeeds_update_bind ?_
    rw [pageAddr_succ, addr_succ]
    refine next _ t walked.events fine (fun m plenty => ?_) (.after walked (.one walked.tree small table rfl rfl))
    exact (walked.plenty m plenty).2.congr rfl rfl fun i => setPte_directory walked.tree.apart table i

/-- The loop of `mappages`. -/
theorem mapLoop_lays (n : Nat) {k fuel : Nat} {f : Page} {s : State} (enough : n < fuel) (small : k + n < 2 ^ 20)
    (tree : Tree s d) (absent : ∀ i ≤ n, ¬ present (pteAt s.mem d (k + i)) = true) :
    succeeds (mapLoop d (pageAddr (k + n)) perm fuel (pageAddr k) (addr f))
      (fun r s' t => OnlyTables t ∧ ∃ b, Laid d k f perm b s s' ∧ Result n d s r b s' t) s := by
  obtain ⟨fuel, rfl⟩ : ∃ m, fuel = m + 1 := ⟨fuel - 1, by omega⟩
  induction n generalizing k fuel f s with
  | zero =>
    refine mapLoop_round tree small (absent 0 le_rfl) ?_ ?_
    · intro s' t only failed scarce laid
      exact ⟨only, 0, laid, .inr ⟨rfl, le_rfl, failed, scarce⟩⟩
    · intro s' t only fine plenty laid
      rw [if_pos rfl]
      refine succeeds_pure ?_
      rw [List.append_nil]
      exact ⟨only, 1, laid, .inl ⟨rfl, rfl, fine, plenty⟩⟩
  | succ n ih =>
    have notLast : pageAddr k ≠ pageAddr (k + (n + 1)) := by
      rw [Ne, pageAddr_inj (by omega) small]
      omega
    refine mapLoop_round (k := k) tree (by omega) (absent 0 (by omega)) ?_ ?_
    · intro s' t only failed scarce laid
      exact ⟨only, 0, laid, .inr ⟨rfl, by omega, failed, scarce⟩⟩
    · intro s' t only fine plenty first
      rw [if_neg notLast, show k + (n + 1) = k + 1 + n by omega]
      -- the rest is not touched by the first entry
      have absent' : ∀ i ≤ n, ¬ present (pteAt s'.mem d (k + 1 + i)) = true := by
        intro i le
        rw [first.pte _ (by omega), if_neg (by omega), Nat.add_assoc, Nat.add_comm 1]
        exact absent (i + 1) (by omega)
      obtain ⟨fuel, rfl⟩ : ∃ m, fuel = m + 1 := ⟨fuel - 1, by omega⟩
      refine succeeds_mono (ih (by omega) first.tree absent' fuel (by omega)) ?_
      rintro r s'' t' ⟨only', b, laid, result⟩
      refine ⟨only.append only', b + 1, first.cons laid, ?_⟩
      rcases result with ⟨rfl, rfl, fine', plenty'⟩ | ⟨rfl, le, failed, scarce⟩
      · exact .inl ⟨rfl, rfl, fine_append.2 ⟨fine, fine'⟩, fun m h => plenty' m (plenty m h)⟩
      · exact .inr ⟨rfl, by omega, fun both => failed (fine_append.1 both).2, fun m h => scarce m (plenty m h)⟩

/-- `mappages` of whole pages: the pages from `k` to `k + n`, where `va` and the last byte are. -/
theorem mappages_lays {n : Nat} {va size : Word} (first : va.toNat / 4096 = k) (last : (va + size - 1).toNat / 4096 = k + n)
    (tree : Tree s d) (absent : ∀ i ≤ n, ¬ present (pteAt s.mem d (k + i)) = true) :
    succeeds (mappages d va size (addr f) perm)
      (fun r s' t => OnlyTables t ∧ ∃ b, Laid d k f perm b s s' ∧ Result n d s r b s' t) s := by
  have lt := (va + size - 1).isLt
  unfold mappages
  rw [PGROUNDDOWN_eq, PGROUNDDOWN_eq, first, last]
  refine mapLoop_lays n ?_ (by omega) tree absent
  unfold rounds
  omega

/-! ## Pages of its own -/

/-- The entries of the `b` pages from `k` on map the pages of memory from `f` on; of these the directory now holds those at
user addresses. -/
structure Mapped (L : Layout) (d : Page) (k : Nat) (f : Page) (perm : Word) (b : Nat) (s s' : State) : Prop where
  wf : Wf L s' d
  grows : Grows d s s'
  pte : ∀ j < 2 ^ 20, pteAt s'.mem d j =
    if k ≤ j ∧ j < k + b then addr (f + BitVec.ofNat 20 (j - k)) ||| perm ||| PTE_P else pteAt s.mem d j
  has : ∀ p, Has s' d p ↔ Has s d p ∨ ∃ i < b, k + i < USERPAGES ∧ p = f + BitVec.ofNat 20 i

/-- The directory and its tables, and the user pages. -/
theorem has_iff {p : Page} : Has s d p ↔ Stock s d p ∨ ∃ j, holds s.mem d (.user j) = some p := by
  rw [Has, Pool.Has, Stock, table_iff]
  constructor
  · rintro (free | ⟨item, held⟩)
    · exact .inl (.inl free)
    · cases item with
      | dir => exact .inl (.inr (.inl (Option.some.inj held).symm))
      | table i => exact .inl (.inr (.inr ⟨i, held⟩))
      | user j => exact .inr ⟨j, held⟩
  · rintro ((free | rfl | ⟨i, held⟩) | ⟨j, held⟩)
    · exact .inl free
    · exact .inr ⟨.dir, rfl⟩
    · exact .inr ⟨_, held⟩
    · exact .inr ⟨_, held⟩

/-- Pages laid in a sound address space leave it sound. -/
theorem Laid.mapped (laid : Laid d k f perm b s s') (flags : frame perm = 0#20) (wf : Wf L s d) (small : k + b ≤ 2 ^ 20)
    (absent : ∀ i < b, ¬ present (pteAt s.mem d (k + i)) = true)
    (own : ∀ i < b, k + i < USERPAGES → L.Valid (f + BitVec.ofNat 20 i) ∧ ¬ Has s d (f + BitVec.ofNat 20 i)) :
    Mapped L d k f perm b s s' := by
  -- a user page is one from before or a new one
  have users (j : Nat) (p : Page) : holds s'.mem d (.user j) = some p ↔ holds s.mem d (.user j) = some p ∨
      ∃ i < b, j = k + i ∧ j < USERPAGES ∧ p = f + BitVec.ofNat 20 i := by
    rw [holds_user, holds_user]
    by_cases isUser : j < USERPAGES
    · rw [laid.pte j (lt_trans isUser (by decide))]
      by_cases inside : k ≤ j ∧ j < k + b
      · obtain ⟨i, rfl⟩ := Nat.exists_eq_add_of_le inside.1
        rw [if_pos inside, Nat.add_sub_cancel_left, frame_pte _ flags]
        constructor
        · rintro ⟨-, -, page⟩
          exact .inr ⟨i, by omega, rfl, isUser, page.symm⟩
        · rintro (⟨-, isPresent, -⟩ | ⟨i', -, same, -, page⟩)
          · exact absurd isPresent (absent i (by omega))
          · obtain rfl := Nat.add_left_cancel same
            exact ⟨isUser, present_pte _ _, page.symm⟩
      · rw [if_neg inside]
        refine ⟨.inl, ?_⟩
        rintro (old | ⟨i, less, rfl, -⟩)
        · exact old
        · omega
    · simp [isUser]
  have fresh {j : Nat} {p : Page} (new : ∃ i < b, j = k + i ∧ j < USERPAGES ∧ p = f + BitVec.ofNat 20 i) :
      L.Valid p ∧ ¬ Has s d p := by
    obtain ⟨i, less, rfl, isUser, rfl⟩ := new
    exact own i less isUser
  have has (p : Page) : Has s' d p ↔ Has s d p ∨ ∃ i < b, k + i < USERPAGES ∧ p = f + BitVec.ofNat 20 i := by
    simp only [has_iff, laid.stock, users, exists_or, or_assoc]
    refine or_congr_right (or_congr_right ⟨?_, ?_⟩)
    · rintro ⟨j, i, less, rfl, isUser, page⟩
      exact ⟨i, less, isUser, page⟩
    · rintro ⟨i, less, isUser, page⟩
      exact ⟨_, i, less, rfl, isUser, page⟩
  -- a user page is not free and not a page table
  have apart {j : Nat} {p : Page} (held : holds s'.mem d (.user j) = some p) : ¬ Stock s' d p := by
    rw [laid.stock]
    rcases (users j p).1 held with old | new
    · exact fun stock => stock.elim (wf.user_apart old).1 (wf.user_apart old).2
    · exact fun stock => (fresh new).2 (has_iff.2 (.inl stock))
  have table {i : BitVec 10} {p : Page} (held : holds s'.mem d (.table i) = some p) : Table s'.mem d p :=
    table_iff.2 (.inr ⟨i, held⟩)
  have once {j : Nat} {p : Page} {item : Item} (held : holds s'.mem d (.user j) = some p) (held' : holds s'.mem d item = some p) :
      item = .user j := by
    cases item with
    | dir => exact absurd (.inr (.inl (Option.some.inj held').symm)) (apart held)
    | table i => exact absurd (.inr (table held')) (apart held)
    | user j' =>
      rcases (users j p).1 held with old | new <;> rcases (users j' p).1 held' with old' | new'
      · exact wf.sound.once _ _ p old' old
      · exact absurd (has_iff.2 (.inr ⟨j, old⟩)) (fresh new').2
      · exact absurd (has_iff.2 (.inr ⟨j', old'⟩)) (fresh new).2
      · obtain ⟨i, less, rfl, -, rfl⟩ := new
        obtain ⟨i', less', rfl, -, same⟩ := new'
        rw [BitVec.add_right_inj, ← BitVec.toNat_inj, BitVec.toNat_ofNat, BitVec.toNat_ofNat] at same
        rw [show i' = i by omega]
  refine ⟨⟨⟨laid.tree.nodup, fun item p held => ?_, fun item item' p held held' => ?_⟩, fun p member => ?_⟩,
    laid.grows, laid.pte, has⟩
  · cases item with
    | dir => exact fun free => laid.tree.unfree p free (.inl (Option.some.inj held).symm)
    | table i => exact fun free => laid.tree.unfree p free (table held)
    | user j => exact fun free => apart held (.inl free)
  · cases item with
    | user j => exact (once held held').symm
    | dir =>
      cases item' with
      | dir => rfl
      | table i => exact absurd (held'.trans held.symm) (laid.tree.apart.self i)
      | user j => exact once held' held
    | table i =>
      cases item' with
      | dir => exact absurd (held.trans held'.symm) (laid.tree.apart.self i)
      | table i' => rw [laid.tree.apart.tables i i' p held held']
      | user j => exact once held' held
  · rcases (has p).1 member with old | ⟨i, less, isUser, rfl⟩
    · exact wf.valid p old
    · exact (own i less isUser).1

/-- `mappages` in a well-formed directory. -/
theorem mappages_spec (flags : frame perm = 0#20) {n : Nat} {va size : Word} (first : va.toNat / 4096 = k)
    (last : (va + size - 1).toNat / 4096 = k + n) (wf : Wf L s d)
    (absent : ∀ i ≤ n, ¬ present (pteAt s.mem d (k + i)) = true)
    (own : ∀ i ≤ n, k + i < USERPAGES → L.Valid (f + BitVec.ofNat 20 i) ∧ ¬ Has s d (f + BitVec.ofNat 20 i)) :
    succeeds (mappages d va size (addr f) perm)
      (fun r s' t => OnlyTables t ∧ ∃ b, Mapped L d k f perm b s s' ∧ Result n d s r b s' t) s := by
  have lt := (va + size - 1).isLt
  refine succeeds_mono (mappages_lays first last wf.tree absent) ?_
  rintro r s' t ⟨only, b, laid, result⟩
  have few : b ≤ n + 1 := by rcases result with ⟨-, rfl, -⟩ | ⟨-, le, -⟩ <;> omega
  refine ⟨only, b, laid.mapped flags wf (by omega) (fun i less => absent i (by omega)) fun i less => own i (by omega), result⟩

theorem one_page (isUser : k < USERPAGES) :
    (pageAddr k).toNat / 4096 = k ∧ (pageAddr k + pgsize - 1).toNat / 4096 = k + 0 := by
  unfold USERPAGES at isUser
  have at_ : (pageAddr k).toNat = k * 4096 := pageAddr_toNat (by omega)
  refine ⟨by omega, ?_⟩
  rw [BitVec.toNat_sub, BitVec.toNat_add, pgsize_toNat, at_, show (1 : Word).toNat = 1 from rfl]
  omega

/-- `mappages` of one page at a user address. -/
theorem mappages_page (flags : frame perm = 0#20) (isUser : k < USERPAGES) (wf : Wf L s d)
    (absent : ¬ present (pteAt s.mem d k) = true) (valid : L.Valid f) (fresh : ¬ Has s d f) :
    succeeds (mappages d (pageAddr k) pgsize (addr f) perm)
      (fun r s' t => OnlyTables t ∧ (r = 0 ∧ Fine t ∧ (∀ m, Plenty d m s → Plenty d m s') ∧ Mapped L d k f perm 1 s s' ∨
        r = -1 ∧ ¬ Fine t ∧ (∀ m, ¬ Plenty d m s) ∧ Mapped L d k f perm 0 s s')) s := by
  obtain ⟨first, last⟩ := one_page isUser
  refine succeeds_mono (mappages_spec (k := k) (n := 0) flags first last wf ?_ ?_) ?_
  · intro i zero
    obtain rfl : i = 0 := by omega
    exact absent
  · intro i zero _
    obtain rfl : i = 0 := by omega
    simpa using ⟨valid, fresh⟩
  · rintro r s' t ⟨only, b, mapped, ⟨rfl, rfl, fine, plenty⟩ | ⟨rfl, le, failed, scarce⟩⟩
    · exact ⟨only, .inl ⟨rfl, fine, plenty, mapped⟩⟩
    · obtain rfl : b = 0 := by omega
      exact ⟨only, .inr ⟨rfl, failed, scarce, mapped⟩⟩

end

end Xv6.Uvm
