import Xv6.Uvm.Grow

/-!
# The life of a page directory

A page directory is made by `setupkvm`; then the kernel grows and shrinks it and maps pages in it, at any
user addresses. Through all of it the directory holds each of its pages once, and `freevm` gives back exactly what it holds.
-/

namespace Xv6.Uvm

open Xv6.Lib Xv6.Lib.Eff Xv6.Vm

section
variable {L : Layout} {d f : Page} {s s' : State} {k n : Nat} {perm : Word} {t : List Event}

/-- The pages of memory from `f` on. -/
def pagesFrom (f : Page) (n : Nat) : List Page := (List.range n).map fun i => f + BitVec.ofNat 20 i

theorem mem_pagesFrom {p : Page} : p ∈ pagesFrom f n ↔ ∃ i < n, p = f + BitVec.ofNat 20 i := by
  simp only [pagesFrom, List.mem_map, List.mem_range, eq_comm]

/-- The directory holds its pages once, and nothing but what it had and the pages `l`. -/
structure Gains (L : Layout) (d : Page) (l : List Page) (s s' : State) : Prop where
  wf : Wf L s' d
  less : ∀ p, Has s' d p → Has s d p ∨ p ∈ l

theorem Gains.mono {l l' : List Page} (gains : Gains L d l s s') (sub : ∀ p ∈ l, p ∈ l') : Gains L d l' s s' :=
  ⟨gains.wf, fun p member => (gains.less p member).imp_right (sub p)⟩

theorem Gains.trans {l l' : List Page} {s'' : State} (first : Gains L d l s s') (second : Gains L d l' s' s'') :
    Gains L d (l ++ l') s s'' := by
  refine ⟨second.wf, fun p member => ?_⟩
  rw [List.mem_append]
  rcases second.less p member with old | new
  · exact (first.less p old).imp_right .inl
  · exact .inr (.inr new)

theorem Mapped.gains (mapped : Mapped L d k f perm 1 s s') : Gains L d [f] s s' := by
  refine ⟨mapped.wf, fun p member => ((mapped.has p).1 member).imp_right ?_⟩
  rintro ⟨i, zero, -, rfl⟩
  obtain rfl : i = 0 := by omega
  simp

/-- One round of `mappages`, whatever it comes across: it panics if the page is present. -/
theorem mapRound_returns (flags : frame perm = 0#20) (wf : Wf L s d) (small : k < 2 ^ 20)
    (own : k < USERPAGES → L.Valid f ∧ ¬ Has s d f) {last : Word} {fuel : Nat} {Q : Int → State → Prop}
    (failed : ∀ s', Gains L d [] s s' → Q (-1) s')
    (next : ∀ s', Gains L d [f] s s' →
      returns (if pageAddr k = last then pure 0 else mapLoop d last perm fuel (pageAddr (k + 1)) (addr (f + 1))) Q s') :
    returns (mapLoop d last perm (fuel + 1) (pageAddr k) (addr f)) Q s := by
  unfold mapLoop
  refine returns_bind (walkpgdir_spec wf.tree k).returns ?_
  rintro (_ | ⟨pgtab, i⟩) s1 ⟨t, walked⟩
  · have mapped : Mapped L d k f perm 0 s s1 := walked.laid.mapped flags wf small.le (by simp) (by simp)
    exact returns_pure (failed s1 ⟨mapped.wf, fun p member => .inl (by simpa [mapped.has] using member)⟩)
  · obtain ⟨-, table, rfl, rfl⟩ := walked.found pgtab i rfl
    refine returns_state_bind ?_
    rw [← pteAt_eq table]
    refine returns_ite (fun _ => returns_fail) fun absent => returns_update_bind ?_
    rw [pageAddr_succ, addr_succ]
    rw [walked.pte] at absent
    have mapped {s2 : State} (mem : s2.mem = setPte s1.mem d k (addr f ||| perm ||| PTE_P)) (free : s2.freelist = s1.freelist) :
        Mapped L d k f perm 1 s s2 :=
      (Laid.after walked (.one walked.tree small table mem free)).mapped flags wf small
        (by simpa using absent) (by simpa using own)
    exact next _ (Mapped.gains (mapped rfl rfl))

theorem mapLoop_returns (flags : frame perm = 0#20) (n : Nat) {k fuel : Nat} {f : Page} {s : State} (small : k + n < 2 ^ 20)
    (wf : Wf L s d)
    (own : ∀ i ≤ n, k + i < USERPAGES → L.Valid (f + BitVec.ofNat 20 i) ∧ ¬ Has s d (f + BitVec.ofNat 20 i)) :
    returns (mapLoop d (pageAddr (k + n)) perm fuel (pageAddr k) (addr f))
      (fun _ s' => Gains L d (pagesFrom f (n + 1)) s s') s := by
  induction fuel generalizing k n f s with
  | zero => exact returns_fail
  | succ fuel ih =>
    have first : f ∈ pagesFrom f (n + 1) := mem_pagesFrom.2 ⟨0, by omega, by simp⟩
    refine mapRound_returns (k := k) flags wf (by omega) (by simpa using own 0 (Nat.zero_le n))
      (fun s' gains => gains.mono (by simp)) fun s' gains => ?_
    refine returns_ite (fun _ => returns_pure (gains.mono (by simpa using first))) fun notLast => ?_
    cases n with
    | zero => exact absurd rfl notLast
    | succ n =>
      rw [show k + (n + 1) = k + 1 + n by omega] at small ⊢
      refine returns_mono (ih n small gains.wf fun i le isUser => ?_) fun _ s'' gains' => (gains.trans gains').mono ?_
      · obtain ⟨valid, fresh⟩ := own (i + 1) (by omega) (by omega)
        rw [next_page]
        refine ⟨valid, fun member => ?_⟩
        rcases gains.less _ member with old | same
        · exact fresh old
        · have lt := f.isLt
          have eq := congrArg BitVec.toNat (List.mem_singleton.1 same)
          rw [BitVec.toNat_add, BitVec.toNat_ofNat] at eq
          omega
      · intro p member
        rcases List.mem_append.1 member with same | later
        · exact List.mem_singleton.1 same ▸ first
        · obtain ⟨i, lt, rfl⟩ := mem_pagesFrom.1 later
          exact mem_pagesFrom.2 ⟨i + 1, by omega, next_page f i⟩

theorem mappages_returns (flags : frame perm = 0#20) {va size : Word} (first : va.toNat / 4096 = k)
    (last : (va + size - 1).toNat / 4096 = k + n) (wf : Wf L s d)
    (own : ∀ i ≤ n, k + i < USERPAGES → L.Valid (f + BitVec.ofNat 20 i) ∧ ¬ Has s d (f + BitVec.ofNat 20 i)) :
    returns (mappages d va size (addr f) perm) (fun _ s' => Gains L d (pagesFrom f (n + 1)) s s') s := by
  have lt := (va + size - 1).isLt
  unfold mappages
  rw [PGROUNDDOWN_eq, PGROUNDDOWN_eq, first, last]
  exact mapLoop_returns flags n (by omega) wf own

theorem mappages_page_returns (flags : frame perm = 0#20) (isUser : k < USERPAGES) (wf : Wf L s d)
    (own : k < USERPAGES → L.Valid f ∧ ¬ Has s d f) :
    returns (mappages d (pageAddr k) pgsize (addr f) perm) (fun _ s' => Gains L d [f] s s') s := by
  obtain ⟨first, last⟩ := one_page isUser
  refine returns_mono (mappages_returns (k := k) (n := 0) flags first last wf ?_) fun _ s' gains => gains.mono ?_
  · intro i zero _
    obtain rfl : i = 0 := by omega
    simpa using own isUser
  · simp [pagesFrom]

theorem allocLoop_returns {oldsz newsz : Word} (below : newsz < KERNBASE) (fuel : Nat) {k : Nat} {s : State} (wf : Wf L s d)
    (upto : k ≤ pagesUpTo newsz) :
    returns (allocLoop L d oldsz newsz fuel (pageAddr k)) (fun _ s' => Gains L d [] s s') s := by
  have below' : newsz.toNat < 0x80000000 := below
  have bound : pagesUpTo newsz ≤ 0x80000 := pagesUpTo_le below
  induction fuel generalizing k s with
  | zero => exact returns_fail
  | succ fuel ih =>
    unfold allocLoop
    refine returns_ite (fun inside => ?_) fun _ => returns_pure ⟨wf, fun p => .inl⟩
    have before : k < pagesUpTo newsz := (pageAddr_lt (by omega)).1 inside
    refine returns_bind (kalloc_spec .mem s).returns ?_
    rintro (_ | mem) s1 ⟨_, same, -, taken, refused, -⟩
    · have free := refused rfl
      have wf1 : Wf L s1 d := wf.congr (by rw [same]; exact .refl d s.mem) free
      refine returns_bind (deallocuvm_spec wf1 (show newsz ≤ KERNBASE from le_of_lt below')).returns ?_
      rintro _ s' ⟨t, -, R, clears⟩
      refine returns_pure ⟨clears.released.wf, fun p member => .inl ?_⟩
      rw [clears.released.has, Has, same, free] at member
      exact member
    · unfold memset
      refine returns_update_bind ?_
      have takes : Takes L d mem s { s1 with mem := setPage s1.mem mem fun _ => 0 } := wf.takes (taken mem rfl) (by rw [same])
      refine returns_bind (mappages_page_returns (by decide) (by unfold USERPAGES; omega) takes.wf fun _ =>
        ⟨takes.valid, takes.fresh⟩) ?_
      intro _ s2 gains
      rw [pageAddr_succ]
      refine returns_mono (ih gains.wf (by omega)) fun _ s' gains' => ⟨gains'.wf, fun p member => .inl ?_⟩
      rcases gains'.less p member with old | none
      · rcases gains.less p old with old' | same'
        · exact (takes.has p).2 (.inr old')
        · exact (takes.has p).2 (.inl (List.mem_singleton.1 same'))
      · cases none

theorem allocuvm_returns {oldsz newsz : Word} (wf : Wf L s d) :
    returns (allocuvm L d oldsz newsz) (fun _ s' => Gains L d [] s s') s := by
  unfold allocuvm
  refine returns_ite (fun _ => returns_pure ⟨wf, fun p => .inl⟩) fun below => ?_
  refine returns_ite (fun _ => returns_pure ⟨wf, fun p => .inl⟩) fun le => ?_
  have below' : newsz.toNat < 0x80000000 := not_le.1 below
  have le' : oldsz.toNat ≤ newsz.toNat := not_lt.1 le
  rw [PGROUNDUP_eq (by omega)]
  exact allocLoop_returns below' rounds wf (pagesUpTo_mono le')

/-! ## A page directory and its pages -/

/-- A page directory that `setupkvm` made, after any calls that returned. The pages of `hand` were taken for it and are not
mapped yet. The rest of the kernel leaves its page tables alone, and puts none of its pages on the free list. -/
inductive Made (L : Layout) (d : Page) : State → List Page → Prop where
  | setup {s s' : State} {t : List Event} (free : FreeList L s.freelist) (run : setupkvm L s = (.ok (some d), s', t)) :
    Made L d s' []
  | alloc {s s' : State} {hand : List Page} {oldsz newsz r : Word} {t : List Event} (made : Made L d s hand)
      (run : allocuvm L d oldsz newsz s = (.ok r, s', t)) : Made L d s' hand
  | dealloc {s s' : State} {hand : List Page} {oldsz newsz r : Word} {t : List Event} (made : Made L d s hand)
      (size : oldsz ≤ KERNBASE) (run : deallocuvm L d oldsz newsz s = (.ok r, s', t)) : Made L d s' hand
  | take {s s' : State} {hand : List Page} {p : Page} {t : List Event} (made : Made L d s hand)
      (run : kalloc .mem s = (.ok (some p), s', t)) : Made L d s' (p :: hand)
  | map {s s' : State} {hand : List Page} {va size perm : Word} {f : Page} {k n : Nat} {r : Int} {t : List Event}
      (made : Made L d s hand) (flags : frame perm = 0#20) (first : va.toNat / 4096 = k)
      (last : (va + size - 1).toNat / 4096 = k + n) (isUser : k + n < USERPAGES) (own : ∀ p ∈ pagesFrom f (n + 1), p ∈ hand)
      (run : mappages d va size (addr f) perm s = (.ok r, s', t)) : Made L d s' (hand.filter (· ∉ pagesFrom f (n + 1)))
  | other {s s' : State} {hand hand' : List Page} (made : Made L d s hand) (same : SameTables d s.mem s'.mem)
      (free : FreeList L s'.freelist) (sub : ∀ p ∈ hand', p ∈ hand)
      (apart : ∀ p, p ∈ hand' ∨ (∃ i, holds s.mem d i = some p) → p ∉ s'.freelist) : Made L d s' hand'

/-- The directory holds its pages once, and none of those in hand. -/
structure Ready (L : Layout) (d : Page) (s : State) (hand : List Page) : Prop where
  wf : Wf L s d
  own : ∀ p ∈ hand, L.Valid p ∧ ¬ Has s d p

theorem Ready.gains {hand hand' l : List Page} (ready : Ready L d s hand) (gains : Gains L d l s s')
    (sub : ∀ p ∈ hand', p ∈ hand ∧ p ∉ l) : Ready L d s' hand' := by
  refine ⟨gains.wf, fun p member => ?_⟩
  obtain ⟨inHand, other⟩ := sub p member
  obtain ⟨valid, fresh⟩ := ready.own p inHand
  exact ⟨valid, fun has => (gains.less p has).elim fresh other⟩

theorem Made.ready {hand : List Page} (made : Made L d s hand) : Ready L d s hand := by
  induction made with
  | setup free run =>
    obtain ⟨t, ended⟩ := (setupkvm_spec free).returns.apply run
    cases ended with
    | made fine built none plenty => exact ⟨built.wf, by simp⟩
  | alloc made run ih => exact ih.gains ((allocuvm_returns ih.wf).apply run) (by simp)
  | dealloc made size run ih =>
    obtain ⟨t, -, R, clears⟩ := (deallocuvm_spec ih.wf size).returns.apply run
    exact ih.gains ⟨clears.released.wf, fun p has => .inl ((clears.released.has p).1 has)⟩ (l := []) (by simp)
  | take made run ih =>
    obtain ⟨t, mem, -, taken, -⟩ := (kalloc_spec .mem _).returns.apply run
    obtain ⟨wf, fresh, valid, has⟩ := ih.wf.pop mem (taken _ rfl)
    refine ⟨wf, fun q member => ?_⟩
    rcases List.mem_cons.1 member with rfl | inHand
    · exact ⟨valid, fresh⟩
    · exact ⟨(ih.own q inHand).1, fun has' => (ih.own q inHand).2 ((has q).2 (.inr has'))⟩
  | map made flags first last isUser own run ih =>
    refine ih.gains ((mappages_returns flags first last ih.wf fun i le _ => ?_).apply run) (by simp)
    exact ih.own _ (own _ (mem_pagesFrom.2 ⟨i, by omega, rfl⟩))
  | @other s s' hand hand' made same free sub apart ih =>
    have holds' := holds_sameTables same
    refine ⟨⟨?_, ?_⟩, fun p member => ⟨(ih.own p (sub p member)).1, ?_⟩⟩
    · rw [holds']
      exact ⟨free.nodup, fun i p held => apart p (.inr ⟨i, held⟩), ih.wf.sound.once⟩
    · rintro p (isFree | held)
      · exact free.valid p isFree
      · rw [holds'] at held
        exact ih.wf.valid p (.inr held)
    · rintro (isFree | held)
      · exact apart p (.inl member) isFree
      · rw [holds'] at held
        exact (ih.own p (sub p member)).2 (.inr held)

theorem mem_owned {m : Mem} {p : Page} : p ∈ owned m d ↔ ∃ i, holds m d i = some p := by
  rw [owned, List.mem_filterMap]
  constructor
  · rintro ⟨i, -, held⟩
    exact ⟨i, held⟩
  · rintro ⟨i, held⟩
    refine ⟨i, ?_, held⟩
    cases i with
    | dir => simp
    | table i => simp [mem_indices]
    | user k => simp [(holds_user.1 held).1]

theorem exists_holds {m : Mem} {p : Page} : (∃ i, holds m d i = some p) ↔
    (∃ k < USERPAGES, present (pteAt m d k) = true ∧ frame (pteAt m d k) = p) ∨
    (∃ i, present (entry m d i) = true ∧ frame (entry m d i) = p) ∨ p = d := by
  constructor
  · rintro ⟨_ | i | k, held⟩
    · cases held
      exact .inr (.inr rfl)
    · exact .inr (.inl ⟨i, holds_table.1 held⟩)
    · exact .inl ⟨k, holds_user.1 held⟩
  · rintro (⟨k, held⟩ | ⟨i, held⟩ | rfl)
    · exact ⟨.user k, holds_user.2 held⟩
    · exact ⟨.table i, holds_table.2 held⟩
    · exact ⟨.dir, rfl⟩

theorem nodup_indices : indices.Nodup := by
  refine List.Nodup.map_on (fun a small b small' same => ?_) List.nodup_range
  rw [← BitVec.toNat_inj, BitVec.toNat_ofNat, BitVec.toNat_ofNat] at same
  have lt : a < 1024 := List.mem_range.1 small
  have lt' : b < 1024 := List.mem_range.1 small'
  omega

theorem nodup_owned (wf : Wf L s d) : (owned s.mem d).Nodup := by
  refine List.Nodup.filterMap (fun i j p held held' => wf.sound.once i j p held held') ?_
  rw [List.nodup_append, List.nodup_append]
  refine ⟨⟨List.Nodup.map (fun a b same => Item.user.inj same) List.nodup_range,
    List.Nodup.map (fun a b same => Item.table.inj same) nodup_indices, ?_⟩, List.nodup_singleton _, ?_⟩
  · simp
  · rintro i member j isDir rfl
    rw [List.mem_singleton.1 isDir] at member
    simp at member

theorem map_freed (kfrees : ∀ e ∈ t, ∃ p, e = .kfree p) : t = (freed t).map .kfree := by
  induction t with
  | nil => rfl
  | cons e t ih =>
    obtain ⟨p, rfl⟩ := kfrees e List.mem_cons_self
    rw [show freed (.kfree p :: t) = p :: freed t from rfl, List.map_cons,
      ← ih fun e member => kfrees e (List.mem_cons_of_mem _ member)]

/-- `freevm` gives back each page that the address space owns once, by `kfree`, and does nothing else: the pages of the user
part, whatever gaps they have, the page tables of both parts and the directory. A page that only the kernel part maps is not
one of them. -/
theorem freevm_gives_back_owned {hand : List Page} (made : Made L d s hand) :
    ∃ s' t, freevm L d s = (.ok (), s', t) ∧ t = (freed t).map .kfree ∧ (freed t).Nodup ∧
      (∀ p, p ∈ freed t ↔
        (∃ k < USERPAGES, present (pteAt s.mem d k) = true ∧ frame (pteAt s.mem d k) = p) ∨
        (∃ i, present (entry s.mem d i) = true ∧ frame (entry s.mem d i) = p) ∨ p = d) ∧
      s'.freelist = (freed t).reverse ++ s.freelist := by
  have wf := made.ready.wf
  obtain ⟨_, s', t, run, perm, kfrees, free, -⟩ := (freevm_spec wf).exists
  refine ⟨s', t, run, map_freed kfrees, perm.nodup_iff.2 (nodup_owned wf), fun p => ?_, free⟩
  rw [perm.mem_iff, mem_owned, exists_holds]

end

/-! A machine with many free pages. -/

def many (n : Nat) : State := blank ((List.range n).map fun i => BitVec.ofNat 20 (0x200 + i))

theorem many_free {n : Nat} (small : n ≤ 4000) : FreeList layout (many n).freelist := by
  constructor
  · refine List.Nodup.map_on (fun a member b member' same => ?_) List.nodup_range
    rw [← BitVec.toNat_inj, BitVec.toNat_ofNat, BitVec.toNat_ofNat] at same
    have lt := List.mem_range.1 member
    have lt' := List.mem_range.1 member'
    omega
  · intro p member
    obtain ⟨i, member', rfl⟩ := List.mem_map.1 member
    have lt := List.mem_range.1 member'
    rw [Layout.Valid, BitVec.toNat_ofNat, show layout.end_.toNat = 0x116 from rfl, PHYSPAGES]
    omega

theorem many_rich {n m : Nat} (enough : NPDENTRIES + 1 + m ≤ n) : Rich m (many n) := ⟨rfl, by simpa [many, blank] using enough⟩

theorem many_setupkvm {n m : Nat} (small : n ≤ 4000) (enough : NPDENTRIES + 1 + m ≤ n) :
    ∃ d s t, setupkvm layout (many n) = (.ok (some d), s, t) ∧ Built layout d (many n) s ∧
      (∀ k < USERPAGES, ¬ present (pteAt s.mem d k) = true) ∧ Plenty d m s := by
  obtain ⟨r, s, t, run, ended⟩ := (setupkvm_spec (many_free small)).exists
  cases ended with
  | made fine built none plenty => exact ⟨_, s, t, run, built, none, plenty m (many_rich enough)⟩
  | noPage mem free poor => exact absurd (many_rich enough) (poor m)
  | noTable failed free taken lost frame poor => exact absurd (many_rich enough) (poor m)

/-- One more user page, at any address. -/
theorem Made.page {d : Page} {s : State} {hand : List Page} {k m : Nat} (made : Made layout d s hand) (isUser : k < USERPAGES)
    (absent : ¬ present (pteAt s.mem d k) = true) (plenty : Plenty d (m + 1) s) :
    ∃ s' hand', Made layout d s' hand' ∧ Plenty d m s' ∧
      ∀ j < USERPAGES, present (pteAt s'.mem d j) = true ↔ j = k ∨ present (pteAt s.mem d j) = true := by
  obtain ⟨r, s1, t1, run1, mem, -, taken, -, granted⟩ := (kalloc_spec .mem s).exists
  cases r with
  | none =>
    have enough := plenty.enough
    rw [(granted plenty.granted).2 rfl, List.length_nil] at enough
    omega
  | some p =>
    have free := taken p rfl
    have made1 := made.take run1
    have plenty1 : Plenty d m s1 := plenty.pop (granted plenty.granted).1 free fun i => by rw [mem]
    obtain ⟨wf, fresh, valid, -⟩ := made.ready.wf.pop mem free
    have absent1 : ¬ present (pteAt s1.mem d k) = true := by rwa [mem]
    have perm : frame (PTE_W ||| PTE_U) = 0#20 := by decide
    obtain ⟨first, last⟩ := one_page isUser
    obtain ⟨r, s2, t2, run2, -, ended⟩ := (mappages_page perm isUser wf absent1 valid fresh).exists
    have own : ∀ q ∈ pagesFrom p (0 + 1), q ∈ p :: hand := by simp [pagesFrom]
    rcases ended with ⟨-, -, keeps, mapped⟩ | ⟨-, -, poor, -⟩
    · refine ⟨s2, _, made1.map perm first last isUser own run2, keeps m plenty1, fun j below => ?_⟩
      unfold USERPAGES at below
      rw [mapped.pte j (by omega), mem]
      split_ifs with here
      · exact iff_of_true (present_pte _ _) (.inl (by omega))
      · exact (or_iff_right (by omega)).symm
    · exact absurd plenty1 (poor m)

/-- A page directory with any few user pages. -/
theorem exists_made {ks : List Nat} {m : Nat} (nodup : ks.Nodup) (user : ∀ k ∈ ks, k < USERPAGES) (small : m + ks.length ≤ 2900) :
    ∃ d s hand, Made layout d s hand ∧ Plenty d m s ∧ ∀ j < USERPAGES, present (pteAt s.mem d j) = true ↔ j ∈ ks := by
  induction ks generalizing m with
  | nil =>
    have enough : NPDENTRIES + 1 + m ≤ 4000 := by rw [List.length_nil] at small; unfold NPDENTRIES; omega
    obtain ⟨d, s, t, run, built, absent, plenty⟩ := many_setupkvm le_rfl enough
    exact ⟨d, s, _, .setup (many_free le_rfl) run, plenty, fun j below => iff_of_false (absent j below) List.not_mem_nil⟩
  | cons k ks ih =>
    obtain ⟨fresh, nodup⟩ := List.nodup_cons.1 nodup
    obtain ⟨isUser, user⟩ := List.forall_mem_cons.1 user
    obtain ⟨d, s, hand, made, plenty, pages⟩ := ih (m := m + 1) nodup user (by rw [List.length_cons] at small; omega)
    obtain ⟨s', hand', made', plenty', pages'⟩ := made.page isUser (fresh ∘ (pages k isUser).1) plenty
    exact ⟨d, s', hand', made', plenty', fun j below => by rw [pages' j below, pages j below, List.mem_cons]⟩

/-- Three pages under two page tables, with gaps. -/
theorem freevm_gives_back_sparse : ∃ d s hand, Made layout d s hand ∧
    (∀ j < USERPAGES, present (pteAt s.mem d j) = true ↔ j ∈ [5, 7, 1500]) ∧ ∃ s' t, freevm layout d s = (.ok (), s', t) ∧
    (∀ k ∈ [5, 7, 1500], frame (pteAt s.mem d k) ∈ freed t) ∧ (freed t).Nodup := by
  have user : ∀ k ∈ [5, 7, 1500], k < USERPAGES := by decide
  obtain ⟨d, s, hand, made, -, pages⟩ := exists_made (m := 0) (by decide) user (by decide)
  obtain ⟨s', t, run, -, once, iff, -⟩ := freevm_gives_back_owned made
  exact ⟨d, s, hand, made, pages, s', t, run,
    fun k inside => (iff _).2 (.inl ⟨k, user k inside, (pages k (user k inside)).2 inside, rfl⟩), once⟩

end Xv6.Uvm
