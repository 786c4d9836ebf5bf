import Xv6.Vm.UserStores

/-!
# What `copyout` copies, and where

`copyout` cuts its range at the page boundaries and asks `uva2ka` for each page in turn.
`uva2ka` looks at `PTE_P` and `PTE_U` of the entry that `walkpgdir` finds, but not at
whether there is one: without a page table for the page, `walkpgdir` returns 0, and the
word at address 0 of the current process is taken for the entry.
-/

namespace Xv6.Vm

open Xv6.Lib Xv6.Lib.Eff

/-- Where the byte at `va` is, if it is on a page that is present with `PTE_U`. -/
def userPhys (m : Mem) (pgdir : Page) (va : Word) : Option Phys :=
  (pteOf m pgdir va).bind fun e => if present e ∧ user e then some ⟨frame e, offset va⟩ else none

/-- The address `k` bytes after `va`. -/
abbrev nth (va : Word) (k : Nat) : Word := va + BitVec.ofNat 32 k

/-- The first `k` bytes of `buf` are in the range from `va` on, translated by the tables of `m`; no other byte of the
memory is different from `m`. -/
structure Copied (m : Mem) (pgdir : Page) (va : Word) (buf : List Byte) (k : Nat) (m' : Mem) : Prop where
  stored : ∀ j < k, ∀ a, userPhys m pgdir (nth va j) = some a → buf[j]? = some (m' a)
  kept : ∀ a, (∀ j < k, userPhys m pgdir (nth va j) ≠ some a) → m' a = m a

/-- How much of the buffer goes to the first page. -/
def chunk (va : Word) (buf : List Byte) : Nat := min (PGSIZE - (va - PGROUNDDOWN va).toNat) buf.length

/-- The memory after a round of the loop of `copyout`, if there is another one. -/
def copyoutRound (cr3 pgdir : Page) (va : Word) (buf : List Byte) (m : Mem) : Option Mem :=
  match uva2ka cr3 pgdir (PGROUNDDOWN va) m with
  | (.error _, _, _) => none
  | (.ok pa0, m, _) =>
    if pa0 = 0 then none
    else
      match memmove cr3 (pa0 + (va - PGROUNDDOWN va)) (buf.take (chunk va buf)) m with
      | (.error _, _, _) => none
      | (.ok _, m, _) => some m

/-- What `walkpgdir` returns for the pages of the range, in the order of the loop of `copyout`. The pointer is
dereferenced each time. -/
def copyoutWalks (cr3 pgdir : Page) : Nat → Word → List Byte → Mem → List (Option (Page × BitVec 10))
  | 0, _, _, _ => []
  | rounds + 1, va, buf, m =>
    if buf = [] then []
    else walkpgdir m pgdir (PGROUNDDOWN va) ::
      match copyoutRound cr3 pgdir va buf m with
      | none => []
      | some m =>
        copyoutWalks cr3 pgdir rounds (PGROUNDDOWN va + BitVec.ofNat 32 PGSIZE) (buf.drop (chunk va buf)) m

/-- `copyout` is confined to the pages that are present with `PTE_U`, and exact. -/
structure CopiesOut (m : Mem) (cr3 pgdir : Page) (va : Word) (buf : List Byte) : Prop where
  /-- No missing entry is followed. -/
  walks : none ∉ copyoutWalks cr3 pgdir buf.length va buf m
  /-- It returns 0 if and only if the whole range is there. -/
  succeeds : (copyout cr3 pgdir va buf m).1 = .ok 0 ↔ ∀ k < buf.length, userPhys m pgdir (nth va k) ≠ none
  /-- Then the range holds `buf`. -/
  exact : (copyout cr3 pgdir va buf m).1 = .ok 0 → Copied m pgdir va buf buf.length (copyout cr3 pgdir va buf m).2.1
  /-- Otherwise it returns -1 after a prefix that is there. -/
  refused : (copyout cr3 pgdir va buf m).1 ≠ .ok 0 → (copyout cr3 pgdir va buf m).1 = .ok (-1) ∧
    ∃ k ≤ buf.length, (∀ j < k, userPhys m pgdir (nth va j) ≠ none) ∧
      Copied m pgdir va buf k (copyout cr3 pgdir va buf m).2.1

/-- A page directory that the kernel built, while `cr3` is the current one: user pages are different pages of memory,
outside of the tables of both, and the kernel reaches them through its direct map. -/
structure Target (m : Mem) (cr3 pgdir : Page) : Prop where
  pages : ∀ va a, userPhys m pgdir va = some a → a.page.toNat < PHYSPAGES ∧ ¬ Table m cr3 a.page ∧
    ¬ Table m pgdir a.page ∧ translate m cr3 ((a.page ++ 0#12) + KERNBASE) = some ⟨a.page, true⟩
  apart : ∀ va va' a a', userPhys m pgdir va = some a → userPhys m pgdir va' = some a' → a.page = a'.page →
    vpn va = vpn va'

section
variable {m m' : Mem} {cr3 pgdir : Page} {va va' : Word} {buf : List Byte} {a : Phys}

theorem userPhys_some :
    userPhys m pgdir va = some a ↔
      ∃ e, pteOf m pgdir va = some e ∧ present e = true ∧ user e = true ∧ a = ⟨frame e, offset va⟩ := by
  unfold userPhys
  simp only [Option.bind_eq_some_iff, Option.ite_none_right_eq_some, Option.some.injEq, eq_comm (a := a), and_assoc]

theorem SameTables.userPhys (same : SameTables pgdir m m') (va : Word) : userPhys m' pgdir va = userPhys m pgdir va := by
  unfold Vm.userPhys
  rw [same.pteOf]

theorem Target.of_same (target : Target m cr3 pgdir) (current : SameTables cr3 m m') (same : SameTables pgdir m m') :
    Target m' cr3 pgdir where
  pages va a is := by
    rw [same.userPhys] at is
    rw [current.table, same.table, current.translate]
    exact target.pages va a is
  apart va va' a a' is is' := by
    rw [same.userPhys] at is is'
    exact target.apart va va' a a' is is'

/-- Different addresses are different bytes. -/
theorem Target.injective (target : Target m cr3 pgdir) (is : userPhys m pgdir va = some a)
    (is' : userPhys m pgdir va' = some a) : va = va' := by
  have page := congrArg BitVec.toNat (target.apart _ _ _ _ is is' rfl)
  obtain ⟨e, _, _, _, rfl⟩ := userPhys_some.1 is
  obtain ⟨e', _, _, _, at_⟩ := userPhys_some.1 is'
  have off := congrArg BitVec.toNat (congrArg Phys.off at_)
  dsimp only at off
  rw [vpn_toNat, vpn_toNat] at page
  rw [offset_toNat, offset_toNat] at off
  exact BitVec.eq_of_toNat_eq (by omega)

theorem nth_inj {j k : Nat} (lt : j < 2 ^ 32) (lt' : k < 2 ^ 32) (same : nth va j = nth va k) : j = k := by
  have := congrArg BitVec.toNat same
  simp only [nth, BitVec.toNat_add, BitVec.toNat_ofNat] at this
  have := va.isLt
  omega

theorem nth_nth (va : Word) (j k : Nat) : nth (nth va j) k = nth va (j + k) := by
  rw [nth, nth, nth, BitVec.add_assoc, BitVec.ofNat_add]

theorem nth_zero (va : Word) : nth va 0 = va := BitVec.add_zero va

/-- The other bytes of a page. -/
theorem userPhys_within {k : Nat} (inside : (offset va).toNat + k < 4096) (is : userPhys m pgdir va = some a) :
    userPhys m pgdir (nth va k) = some ⟨a.page, offset (nth va k)⟩ := by
  obtain ⟨e, entry, has, us, rfl⟩ := userPhys_some.1 is
  exact userPhys_some.2 ⟨e, (pteOf_congr (add_within va inside).1).trans entry, has, us, rfl⟩

/-! ## Stores -/

/-- Stores outside of the page tables. -/
theorem sameTables_writes {ws : List (Phys × Byte)} (outside : ∀ w ∈ ws, ¬ Table m pgdir w.1.page) :
    SameTables pgdir m (applyWrites m ws) := by
  intro t isTable i
  have untouched (o : BitVec 12) : applyWrites m ws ⟨t, o⟩ = m ⟨t, o⟩ := by
    refine applyWrites_untouched fun member => ?_
    obtain ⟨w, written, at_⟩ := List.mem_map.1 member
    have : t = w.1.page := (congrArg Phys.page at_).symm
    exact outside w written (this ▸ isTable)
  simp only [entry, untouched]

/-- Writes of a buffer to different places. -/
theorem copied_writes {at_ : Nat → Phys} (is : ∀ k < buf.length, userPhys m pgdir (nth va k) = some (at_ k))
    (inj : ∀ j < buf.length, ∀ k < buf.length, at_ j = at_ k → j = k) :
    Copied m pgdir va buf buf.length (applyWrites m (buf.zipIdx.map fun q => (at_ q.2, q.1))) := by
  have places : (buf.zipIdx.map fun q => (at_ q.2, q.1)).map Prod.fst = (List.range buf.length).map at_ := by
    rw [List.range_eq_range', ← List.zipIdx_map_snd 0 buf, List.map_map, List.map_map]
    rfl
  constructor
  · intro j lt a here
    obtain rfl : at_ j = a := Option.some.inj ((is j lt).symm.trans here)
    have distinct : ((List.range buf.length).map at_).Nodup :=
      List.Nodup.map_on (fun i member k member' => inj i (List.mem_range.1 member) k (List.mem_range.1 member'))
        List.nodup_range
    rw [← places] at distinct
    have member : (at_ j, buf[j]) ∈ buf.zipIdx.map fun q => (at_ q.2, q.1) :=
      List.mem_map.2 ⟨(buf[j], j), List.mk_mem_zipIdx_iff_getElem?.2 (List.getElem?_eq_getElem lt), rfl⟩
    rw [applyWrites_of_mem distinct member, List.getElem?_eq_getElem lt]
  · intro a off
    refine applyWrites_untouched ?_
    rw [places]
    intro member
    obtain ⟨k, inside, rfl⟩ := List.mem_map.1 member
    have inside := List.mem_range.1 inside
    exact off k inside (is k inside)

/-- A prefix and what follows it. -/
theorem Copied.append {m1 m2 : Mem} {n k : Nat} (target : Target m cr3 pgdir) (same : SameTables pgdir m m1)
    (small : n + k < 2 ^ 32) (first : Copied m pgdir va (buf.take n) n m1)
    (second : Copied m1 pgdir (nth va n) (buf.drop n) k m2) : Copied m pgdir va buf (n + k) m2 := by
  constructor
  · intro j lt a is
    by_cases early : j < n
    · have off : m2 a = m1 a := by
        refine second.kept a fun i lt' is' => ?_
        rw [same.userPhys, nth_nth] at is'
        have := nth_inj (by omega) (by omega) (target.injective is is')
        omega
      have := first.stored j early a is
      rwa [List.getElem?_take_of_lt early, ← off] at this
    · have late : nth va j = nth (nth va n) (j - n) := by
        rw [nth_nth]
        congr 2
        omega
      have := second.stored (j - n) (by omega) a (by rw [same.userPhys, ← late, is])
      rw [List.getElem?_drop] at this
      rw [← this]
      congr 1
      omega
  · intro a off
    rw [second.kept a fun i lt => ?_]
    · exact first.kept a fun j lt => off j (by omega)
    · rw [same.userPhys, nth_nth]
      exact off (n + i) (by omega)

theorem copied_zero : Copied m pgdir va buf 0 m := ⟨fun _ lt => absurd lt (Nat.not_lt_zero _), fun _ _ => rfl⟩

/-! ## One round -/

/-- `uva2ka` where there is a page table. -/
theorem uva2ka_walked {e : Word} (is : pteOf m pgdir va = some e) :
    uva2ka cr3 pgdir va m =
      (.ok (if present e = true ∧ user e = true then PTE_ADDR e + KERNBASE else 0), m, []) := by
  obtain ⟨⟨t, i⟩, walk, rfl⟩ := Option.map_eq_some_iff.1 is
  have found : uva2ka cr3 pgdir va m =
      (if present (entry m t i) = false then (pure 0 : Kernel Word)
        else if user (entry m t i) = false then pure 0 else pure (PTE_ADDR (entry m t i) + KERNBASE)) m := by
    refine (bind_ok rfl).trans ?_
    rw [walk]
    rfl
  rw [found]
  cases present (entry m t i)
  · rfl
  · cases user (entry m t i) <;> rfl

/-- The kernel's address of a user page is not 0. -/
theorem Target.nonzero (target : Target m cr3 pgdir) (is : userPhys m pgdir va = some a) :
    (a.page ++ 0#12) + KERNBASE ≠ 0 := by
  intro zero
  have small := (target.pages va a is).1
  have := congrArg BitVec.toNat zero
  rw [BitVec.toNat_add, append_toNat] at this
  simp only [KERNBASE, PHYSPAGES] at this small
  simp at this
  omega

theorem uva2ka_there (cr3 : Page) (is : userPhys m pgdir va = some a) :
    uva2ka cr3 pgdir (PGROUNDDOWN va) m = (.ok ((a.page ++ 0#12) + KERNBASE), m, []) := by
  obtain ⟨e, entry, has, us, rfl⟩ := userPhys_some.1 is
  rw [uva2ka_walked ((pteOf_congr (vpn_PGROUNDDOWN va)).trans entry), if_pos ⟨has, us⟩, PTE_ADDR, mask_eq]
  rfl

theorem uva2ka_refuses (cr3 : Page) (table : pteOf m pgdir va ≠ none) (not : userPhys m pgdir va = none) :
    uva2ka cr3 pgdir (PGROUNDDOWN va) m = (.ok 0, m, []) := by
  obtain ⟨e, entry⟩ := Option.ne_none_iff_exists'.1 table
  rw [uva2ka_walked ((pteOf_congr (vpn_PGROUNDDOWN va)).trans entry), if_neg]
  intro both
  rw [userPhys_some.2 ⟨e, entry, both.1, both.2, rfl⟩] at not
  cases not

/-- A copy to one user page. -/
theorem memmove_page (buf : List Byte) (target : Target m cr3 pgdir) (is : userPhys m pgdir va = some a)
    (inside : (offset va).toNat + buf.length ≤ 4096) :
    ∃ m1 t, memmove cr3 ((a.page ++ 0#12) + KERNBASE + (va - PGROUNDDOWN va)) buf m = (.ok (), m1, t) ∧
      Copied m pgdir va buf buf.length m1 ∧ SameTables cr3 m m1 ∧ SameTables pgdir m m1 ∧
      ∀ x ∈ t, ∃ k < buf.length, userPhys m pgdir (nth va k) = some x := by
  obtain ⟨_, data, data', direct⟩ := target.pages va a is
  have there (k : Nat) (lt : k < buf.length) := userPhys_within (k := k) (by omega) is
  have start : (offset ((a.page ++ 0#12) + KERNBASE)).toNat = 0 := by
    rw [offset_toNat, BitVec.toNat_add, append_toNat]
    simp only [KERNBASE]
    simp
  generalize (a.page ++ 0#12) + KERNBASE = pa0 at direct start ⊢
  have distance : va - PGROUNDDOWN va = BitVec.ofNat 32 (offset va).toNat :=
    BitVec.eq_of_toNat_eq (by rw [sub_PGROUNDDOWN, BitVec.toNat_ofNat]; have := (offset va).isLt; omega)
  have moved : succeeds (memmove cr3 (pa0 + (va - PGROUNDDOWN va)) buf) _ m :=
    memmove_writes (a := fun k => ⟨a.page, offset (nth va k)⟩) fun k lt => by
      have alias_ := add_within pa0 (k := (offset va).toNat + k) (by omega)
      have same := (add_within va (k := k) (by omega)).2
      rw [distance, BitVec.add_assoc, ← BitVec.ofNat_add, translate_congr alias_.1]
      exact ⟨direct, BitVec.eq_of_toNat_eq (by dsimp only [nth]; omega), data⟩
  obtain ⟨_, m1, t, runs, rfl, current, stored⟩ := moved.exists
  refine ⟨_, t, runs, copied_writes there fun j lt k lt' same => ?_, current, sameTables_writes fun w member => ?_,
    fun x member => ?_⟩
  · have at_ := there k lt'
    rw [← same] at at_
    have small := (offset va).isLt
    exact nth_inj (by omega) (by omega) (target.injective (there j lt) at_)
  · obtain ⟨q, _, rfl⟩ := List.mem_map.1 member
    exact data'
  · rw [stored] at member
    obtain ⟨k, lt, rfl⟩ := List.mem_map.1 member
    exact ⟨k, List.mem_range.1 lt, there k (List.mem_range.1 lt)⟩

theorem chunk_eq (va : Word) (buf : List Byte) : chunk va buf = min (4096 - (offset va).toNat) buf.length := by
  rw [chunk, sub_PGROUNDDOWN, PGSIZE]

/-- The rest of the buffer starts on the next page. -/
theorem next_page (more : chunk va buf < buf.length) :
    PGROUNDDOWN va + BitVec.ofNat 32 PGSIZE = nth va (chunk va buf) := by
  refine BitVec.eq_of_toNat_eq ?_
  have down := PGROUNDDOWN_toNat va
  have off := offset_toNat va
  have lt := va.isLt
  generalize size : chunk va buf = n at more ⊢
  rw [chunk_eq] at size
  simp only [nth, BitVec.toNat_add, BitVec.toNat_ofNat, PGSIZE, down]
  omega

/-- The loop of `copyout`, and its walks, a round at a time. -/
theorem copyoutLoop_succ {rounds : Nat} (more : buf ≠ []) :
    copyoutLoop cr3 pgdir (rounds + 1) va buf = (uva2ka cr3 pgdir (PGROUNDDOWN va) >>= fun pa0 =>
      if pa0 = 0 then pure (-1)
      else memmove cr3 (pa0 + (va - PGROUNDDOWN va)) (buf.take (chunk va buf)) >>= fun _ =>
        copyoutLoop cr3 pgdir rounds (PGROUNDDOWN va + BitVec.ofNat 32 PGSIZE) (buf.drop (chunk va buf))) := by
  rw [copyoutLoop, if_neg more]
  rfl

theorem copyoutWalks_succ {rounds : Nat} (more : buf ≠ []) :
    copyoutWalks cr3 pgdir (rounds + 1) va buf m = walkpgdir m pgdir (PGROUNDDOWN va) ::
      match copyoutRound cr3 pgdir va buf m with
      | none => []
      | some m =>
        copyoutWalks cr3 pgdir rounds (PGROUNDDOWN va + BitVec.ofNat 32 PGSIZE) (buf.drop (chunk va buf)) m := by
  rw [copyoutWalks, if_neg more]

-- the code of a round is kept abstract here: the kernel would compute with the address that it finds
section
variable {find : Kernel Word} {rest : Kernel Int} {pa0 : Word} {m1 : Mem} {t : List Phys}

theorem round_copies (move : Word → Kernel Unit) (found : find m = (.ok pa0, m, [])) (nonzero : pa0 ≠ 0)
    (moved : move pa0 m = (.ok (), m1, t)) :
    (find >>= fun pa0 => if pa0 = 0 then pure (-1) else move pa0 >>= fun _ => rest) m =
      ((rest m1).1, (rest m1).2.1, t ++ (rest m1).2.2) := by
  rw [bind_ok found, if_neg nonzero, bind_ok moved, List.nil_append]

theorem round_refuses (move : Word → Kernel Unit) (found : find m = (.ok 0, m, [])) :
    (find >>= fun pa0 => if pa0 = 0 then pure (-1) else move pa0 >>= fun _ => rest) m = (.ok (-1), m, []) := by
  rw [bind_ok found, if_pos rfl]
  rfl

end

theorem copyoutRound_copies {pa0 : Word} {m1 : Mem} {t : List Phys}
    (found : uva2ka cr3 pgdir (PGROUNDDOWN va) m = (.ok pa0, m, [])) (nonzero : pa0 ≠ 0)
    (moved : memmove cr3 (pa0 + (va - PGROUNDDOWN va)) (buf.take (chunk va buf)) m = (.ok (), m1, t)) :
    copyoutRound cr3 pgdir va buf m = some m1 := by
  simp only [copyoutRound, found, if_neg nonzero, moved]

theorem copyoutRound_refuses (found : uva2ka cr3 pgdir (PGROUNDDOWN va) m = (.ok 0, m, [])) :
    copyoutRound cr3 pgdir va buf m = none := by
  simp only [copyoutRound, found, if_pos]

/-- A round that copies. -/
theorem copyoutLoop_next (rounds : Nat) {m1 : Mem} {t : List Phys} (target : Target m cr3 pgdir) (more : buf ≠ [])
    (is : userPhys m pgdir va = some a)
    (moved : memmove cr3 ((a.page ++ 0#12) + KERNBASE + (va - PGROUNDDOWN va)) (buf.take (chunk va buf)) m =
      (.ok (), m1, t)) :
    let rest := copyoutLoop cr3 pgdir rounds (PGROUNDDOWN va + BitVec.ofNat 32 PGSIZE) (buf.drop (chunk va buf)) m1
    copyoutLoop cr3 pgdir (rounds + 1) va buf m = (rest.1, rest.2.1, t ++ rest.2.2) ∧
      copyoutWalks cr3 pgdir (rounds + 1) va buf m = walkpgdir m pgdir (PGROUNDDOWN va) ::
        copyoutWalks cr3 pgdir rounds (PGROUNDDOWN va + BitVec.ofNat 32 PGSIZE) (buf.drop (chunk va buf)) m1 := by
  have found := uva2ka_there cr3 is
  have nonzero := target.nonzero is
  generalize (a.page ++ 0#12) + KERNBASE = pa0 at found nonzero moved
  constructor
  · rw [copyoutLoop_succ more]
    exact round_copies (fun pa0 => memmove cr3 (pa0 + (va - PGROUNDDOWN va)) (buf.take (chunk va buf)))
      found nonzero moved
  · rw [copyoutWalks_succ more, copyoutRound_copies found nonzero moved]

/-- A round that ends the call. -/
theorem copyoutLoop_refuses (cr3 : Page) (rounds : Nat) (more : buf ≠ []) (table : pteOf m pgdir va ≠ none)
    (not : userPhys m pgdir va = none) :
    copyoutLoop cr3 pgdir (rounds + 1) va buf m = (.ok (-1), m, []) ∧
      copyoutWalks cr3 pgdir (rounds + 1) va buf m = [walkpgdir m pgdir (PGROUNDDOWN va)] := by
  have found := uva2ka_refuses cr3 table not
  constructor
  · rw [copyoutLoop_succ more]
    exact round_refuses (fun pa0 => memmove cr3 (pa0 + (va - PGROUNDDOWN va)) (buf.take (chunk va buf))) found
  · rw [copyoutWalks_succ more, copyoutRound_refuses found]

/-- The walk finds a page table. -/
theorem walkpgdir_ne_none (table : pteOf m pgdir va ≠ none) : walkpgdir m pgdir (PGROUNDDOWN va) ≠ none := by
  intro missing
  rw [← pteOf_congr (vpn_PGROUNDDOWN va), pteOf, missing] at table
  exact table rfl

theorem pteOf_of_userPhys (is : userPhys m pgdir va = some a) : pteOf m pgdir va ≠ none := by
  obtain ⟨e, entry, _⟩ := userPhys_some.1 is
  rw [entry]
  exact Option.some_ne_none e

/-! ## The loop -/

/-- How a call of `copyout` ends that finds a page table whenever it looks: it copies `k` bytes, up to the first that
is not there. -/
structure Ends (m : Mem) (cr3 pgdir : Page) (rounds : Nat) (va : Word) (buf : List Byte) (k : Nat) : Prop where
  bound : k ≤ buf.length
  there : ∀ j < k, userPhys m pgdir (nth va j) ≠ none
  stop : k < buf.length → userPhys m pgdir (nth va k) = none
  result : (copyoutLoop cr3 pgdir rounds va buf m).1 = .ok (if k = buf.length then 0 else -1)
  copied : Copied m pgdir va buf k (copyoutLoop cr3 pgdir rounds va buf m).2.1
  walks : none ∉ copyoutWalks cr3 pgdir rounds va buf m

/-- At the first byte that is not there, there is a page table all the same. -/
def Walkable (m : Mem) (pgdir : Page) (va : Word) (buf : List Byte) : Prop :=
  ∀ k < buf.length, (∀ j < k, userPhys m pgdir (nth va j) ≠ none) → pteOf m pgdir (nth va k) ≠ none

theorem Walkable.drop {n : Nat} (tables : Walkable m pgdir va buf) (same : SameTables pgdir m m')
    (here : ∀ j < n, userPhys m pgdir (nth va j) ≠ none) : Walkable m' pgdir (nth va n) (buf.drop n) := by
  intro k lt before
  rw [List.length_drop] at lt
  rw [same.pteOf, nth_nth]
  refine tables _ (by omega) fun j lt' => ?_
  by_cases early : j < n
  · exact here j early
  · have := before (j - n) (by omega)
    rwa [same.userPhys, nth_nth, Nat.add_sub_cancel' (Nat.le_of_not_lt early)] at this

/-- The loop copies up to the first byte that is not there. -/
theorem copyoutLoop_ends {rounds : Nat} (target : Target m cr3 pgdir) (enough : buf.length ≤ rounds)
    (len : buf.length < 2 ^ 32) (tables : Walkable m pgdir va buf) : ∃ k, Ends m cr3 pgdir rounds va buf k := by
  have done {m : Mem} {rounds : Nat} {va : Word} : Ends m cr3 pgdir rounds va [] 0 := by
    refine ⟨Nat.le_refl 0, fun j lt => absurd lt (Nat.not_lt_zero j), fun lt => absurd lt (Nat.lt_irrefl 0), ?_, ?_, ?_⟩
    · cases rounds <;> rfl
    · cases rounds <;> exact copied_zero
    · cases rounds <;> exact List.not_mem_nil
  -- a round copies a byte at least, or is the last one
  induction rounds generalizing va buf m with
  | zero =>
    obtain rfl := List.length_eq_zero_iff.1 (Nat.le_zero.1 enough)
    exact ⟨0, done⟩
  | succ rounds ih =>
    by_cases more : buf = []
    · subst more
      exact ⟨0, done⟩
    have pos : 0 < buf.length := List.length_pos_iff.2 more
    have table : pteOf m pgdir va ≠ none := by
      have := tables 0 pos fun j lt => absurd lt (Nat.not_lt_zero j)
      rwa [nth_zero] at this
    cases is : userPhys m pgdir va with
    | none =>
      obtain ⟨runs, walked⟩ := copyoutLoop_refuses cr3 rounds more table is
      refine ⟨0, Nat.zero_le _, fun j lt => absurd lt (Nat.not_lt_zero j), fun _ => by rw [nth_zero, is], ?_, ?_, ?_⟩
      · rw [runs, if_neg pos.ne]
      · rw [runs]
        exact copied_zero
      · rw [walked, List.mem_singleton]
        exact (walkpgdir_ne_none table).symm
    | some a =>
      have small := (offset va).isLt
      have length : (buf.take (chunk va buf)).length = chunk va buf := by
        rw [List.length_take, chunk_eq]
        omega
      obtain ⟨m1, t, moved, first, current, same, _⟩ :=
        memmove_page (buf.take (chunk va buf)) target is (by rw [length, chunk_eq]; omega)
      rw [length] at first
      have here (j : Nat) (lt : j < chunk va buf) : userPhys m pgdir (nth va j) ≠ none := by
        rw [userPhys_within (by rw [chunk_eq] at lt; omega) is]
        exact Option.some_ne_none _
      obtain ⟨runs, walked⟩ := copyoutLoop_next rounds target more is moved
      -- what is left starts with the next page
      have rest : ∃ k, Ends m1 cr3 pgdir rounds (PGROUNDDOWN va + BitVec.ofNat 32 PGSIZE) (buf.drop (chunk va buf)) k ∧
          (k ≠ 0 ∨ chunk va buf < buf.length →
            PGROUNDDOWN va + BitVec.ofNat 32 PGSIZE = nth va (chunk va buf)) := by
        by_cases last : chunk va buf < buf.length
        · have next := next_page last
          rw [next]
          have some_ : 0 < chunk va buf := by
            rw [chunk_eq]
            omega
          obtain ⟨k, ends⟩ := ih (target.of_same current same) (by rw [List.length_drop]; omega)
            (by rw [List.length_drop]; omega) (tables.drop same here)
          exact ⟨k, ends, fun _ => rfl⟩
        · rw [List.drop_eq_nil_of_le (Nat.le_of_not_lt last)]
          exact ⟨0, done, fun either => absurd either (by simp [last])⟩
      obtain ⟨k, ends, next⟩ := rest
      have bound := ends.bound
      rw [List.length_drop] at bound
      have le : chunk va buf ≤ buf.length := by
        rw [chunk_eq]
        omega
      refine ⟨chunk va buf + k, by omega, fun j lt => ?_, fun lt => ?_, ?_, ?_, ?_⟩
      · by_cases early : j < chunk va buf
        · exact here j early
        · have := ends.there (j - chunk va buf) (by omega)
          rwa [next (by omega), same.userPhys, nth_nth, Nat.add_sub_cancel' (Nat.le_of_not_lt early)] at this
      · have := ends.stop (by rw [List.length_drop]; omega)
        rwa [next (by omega), same.userPhys, nth_nth] at this
      · have all : (k = (buf.drop (chunk va buf)).length) ↔ chunk va buf + k = buf.length := by
          rw [List.length_drop]
          omega
        rw [runs]
        refine ends.result.trans ?_
        simp only [all]
      · rw [runs]
        refine first.append target same (by omega) ⟨fun j lt a there => ?_, fun a off => ?_⟩
        · rw [← next (by omega)] at there
          exact ends.copied.stored j lt a there
        · refine ends.copied.kept a fun j lt => ?_
          rw [next (by omega)]
          exact off j lt
      · rw [walked, List.mem_cons, not_or]
        exact ⟨(walkpgdir_ne_none table).symm, ends.walks⟩

/-- If there is no page table for the first byte that is not there, the missing entry is followed. -/
theorem walks_missing {rounds : Nat} (target : Target m cr3 pgdir) (enough : buf.length ≤ rounds)
    {k : Nat} (lt : k < buf.length) (before : ∀ j < k, userPhys m pgdir (nth va j) ≠ none)
    (missing : pteOf m pgdir (nth va k) = none) : none ∈ copyoutWalks cr3 pgdir rounds va buf m := by
  induction rounds generalizing va buf m k with
  | zero => omega
  | succ rounds ih =>
    have more : buf ≠ [] := List.length_pos_iff.1 (by omega)
    cases is : userPhys m pgdir va with
    | none =>
      have first : k = 0 := by
        by_contra pos
        exact before 0 (by omega) (by rw [nth_zero, is])
      rw [first, nth_zero, ← pteOf_congr (vpn_PGROUNDDOWN va), pteOf, Option.map_eq_none_iff] at missing
      rw [copyoutWalks, if_neg more, missing]
      exact List.mem_cons_self
    | some a =>
      have small := (offset va).isLt
      have length : (buf.take (chunk va buf)).length = chunk va buf := by
        rw [List.length_take, chunk_eq]
        omega
      obtain ⟨m1, t, moved, _, current, same, _⟩ :=
        memmove_page (buf.take (chunk va buf)) target is (by rw [length, chunk_eq]; omega)
      rw [(copyoutLoop_next rounds target more is moved).2]
      have late : chunk va buf ≤ k := by
        by_contra early
        refine pteOf_of_userPhys (userPhys_within (k := k) ?_ is) missing
        rw [chunk_eq] at early
        omega
      have some_ : 0 < chunk va buf := by
        rw [chunk_eq]
        omega
      rw [next_page (Nat.lt_of_le_of_lt late lt)]
      refine List.mem_cons_of_mem _ (ih (k := k - chunk va buf) (target.of_same current same) ?_ ?_ ?_ ?_)
      · rw [List.length_drop]
        omega
      · rw [List.length_drop]
        omega
      · intro j lt'
        rw [same.userPhys, nth_nth]
        exact before _ (by omega)
      · rwa [same.pteOf, nth_nth, Nat.add_sub_cancel' late]

theorem Ends.copiesOut {k : Nat} (ends : Ends m cr3 pgdir buf.length va buf k) : CopiesOut m cr3 pgdir va buf := by
  have result : (copyout cr3 pgdir va buf m).1 = .ok (if k = buf.length then 0 else -1) := ends.result
  have zero : (copyout cr3 pgdir va buf m).1 = .ok 0 ↔ k = buf.length := by
    rw [result]
    by_cases all : k = buf.length <;> simp [all]
  refine ⟨ends.walks, zero.trans ⟨fun all => all ▸ ends.there, fun there => ?_⟩, fun is => ?_, fun isNot => ?_⟩
  · by_contra part
    have lt := Nat.lt_of_le_of_ne ends.bound part
    exact there k lt (ends.stop lt)
  · have copied := ends.copied
    rw [zero.1 is] at copied
    exact copied
  · rw [Ne, zero] at isNot
    exact ⟨by rw [result, if_neg isNot], k, ends.bound, ends.there, ends.copied⟩

end

/-- **`copyout` is confined and exact if and only if the first page of the range that is not there has a page table.** -/
theorem copyout_exact_iff {m : Mem} {cr3 pgdir : Page} {va : Word} {buf : List Byte} (target : Target m cr3 pgdir)
    (len : buf.length < 2 ^ 32) : CopiesOut m cr3 pgdir va buf ↔ Walkable m pgdir va buf := by
  constructor
  · intro right k lt before missing
    exact right.walks (walks_missing target (Nat.le_refl _) lt before missing)
  · intro tables
    obtain ⟨k, ends⟩ := copyoutLoop_ends target (Nat.le_refl _) len tables
    exact ends.copiesOut

/-! ## A process with an entry at address 0 -/

/-- The memory of `onePage`, where the first word of the user page looks like an entry for page 5. -/
def nullWord (t : Page) (i : BitVec 10) : Word := if t = 3 ∧ i = 0 then 0x5007 else onePage t i

theorem nullWord_directory : ∀ i : BitVec 10, present (nullWord 1 i) = true →
    i = 0 ∧ nullWord 1 i = 0x2007 ∨ i = 512 ∧ nullWord 1 i = 0x4007 := by
  decide +kernel

theorem nullWord_table : ∀ i : BitVec 10, present (nullWord 2 i) = true → i = 0 ∧ nullWord 2 i = 0x3007 := by
  decide +kernel

theorem nullWord_direct : ∀ i : BitVec 10, user (nullWord 4 i) = false := by decide +kernel

theorem vpn_zero {va : Word} (directory : PDX va = 0) (table : PTX va = 0) : vpn va = 0 := by
  refine BitVec.eq_of_toNat_eq ?_
  have high := congrArg BitVec.toNat directory
  have low := congrArg BitVec.toNat table
  rw [PDX_eq, BitVec.extractLsb'_toNat, Nat.shiftRight_eq_div_pow] at high
  rw [PTX_eq, BitVec.extractLsb'_toNat] at low
  have := (vpn va).isLt
  simp at high low ⊢
  omega

/-- Its only user page is page 3, at 0. -/
theorem nullWord_user {va : Word} {a : Phys} (is : userPhys (memOf nullWord) 1 va = some a) : a.page = 3 ∧ vpn va = 0 := by
  obtain ⟨e, entry, has, us, rfl⟩ := userPhys_some.1 is
  rw [pteOf_memOf] at entry
  split_ifs at entry with directory
  rcases nullWord_directory _ directory with ⟨low, pde⟩ | ⟨_, pde⟩
  · rw [pde] at entry
    cases entry
    obtain ⟨first, pte⟩ := nullWord_table _ has
    exact ⟨(congrArg frame pte).trans (show frame 0x3007 = 3 by decide), vpn_zero low first⟩
  · rw [pde] at entry
    cases entry
    exact absurd ((nullWord_direct (PTX va)).symm.trans us) (by decide)

theorem nullWord_target : Target (memOf nullWord) 1 1 where
  pages va a is := by
    have data : ¬ Table (memOf nullWord) 1 3 := by
      rintro (same | ⟨i, has, same⟩)
      · exact absurd same (by decide)
      · rw [entry_memOf] at has same
        rcases nullWord_directory i has with ⟨_, is⟩ | ⟨_, is⟩ <;> rw [is] at same <;> exact absurd same (by decide)
    rw [(nullWord_user is).1]
    exact ⟨by decide, data, data, by decide +kernel⟩
  apart va va' a a' is is' _ := (nullWord_user is).2.trans (nullWord_user is').2.symm

/-- A copy that crosses the end of the page stops there: the next page is not present, but it has a page table. -/
theorem copyout_exact_iff_crossing : CopiesOut (memOf nullWord) 1 1 0xffe [1, 2, 3] := by
  refine (copyout_exact_iff nullWord_target (by decide)).2 fun k lt _ => ?_
  have each : ∀ k < 3, pteOf (memOf nullWord) 1 (nth 0xffe k) ≠ none := by decide +kernel
  exact each k lt

/-- **A copy to 0x400000, for which there is no page table, returns 0 and stores in page 5**, because the word at
address 0 of the process says so. -/
theorem copyout_follows_null :
    Target (memOf nullWord) 1 1 ∧ userPhys (memOf nullWord) 1 0x400000 = none ∧
      copyoutWalks 1 1 1 0x400000 [0xaa] (memOf nullWord) = [none] ∧
      (copyout 1 1 0x400000 [0xaa] (memOf nullWord)).1 = .ok 0 ∧
      (copyout 1 1 0x400000 [0xaa] (memOf nullWord)).2.2 = [⟨5, 0⟩] ∧
      ¬ CopiesOut (memOf nullWord) 1 1 0x400000 [0xaa] := by
  have nowhere : userPhys (memOf nullWord) 1 0x400000 = none := by decide +kernel
  have walks : copyoutWalks 1 1 1 0x400000 [0xaa] (memOf nullWord) = [none] := by decide +kernel
  have zero : (copyout 1 1 0x400000 [0xaa] (memOf nullWord)).1 = .ok 0 := by rfl
  refine ⟨nullWord_target, nowhere, walks, zero, by decide +kernel, fun right => ?_⟩
  exact right.succeeds.1 zero 0 (by decide) nowhere

end Xv6.Vm
