import Xv6.Vm.Paging

/-!
# What the added system calls store in user memory

`wait_stat` stores a `struct perf` through a pointer that it took from the stack as an
integer, and `handleSignals` stores a return frame below the saved stack pointer: the
code of `implicit_sigret` with `copyout`, whose result it ignores, then the signal number
and the return address through the pointer itself. Neither compares the address with
`proc->sz`, and the processor lets the kernel write to pages that are not the user's.
-/

namespace Xv6.Vm

open Xv6.Lib Xv6.Lib.Eff

/-- The fields of the current process that the calls read; `esp` is the saved one. -/
structure Proc where
  pgdir : Page
  sz : Word
  esp : Word

/-- `struct perf`. -/
structure Perf where
  ctime : Word
  ttime : Word
  stime : Word
  retime : Word
  rutime : Word

/-- How a call ends: normally, by returning -1, or with the process killed. -/
inductive Outcome where
  | done
  | failed
  | killed
  deriving DecidableEq, Repr

/-- `fetchint`. -/
def fetchint (p : Proc) (addr : Word) : Kernel (Option Word) :=
  if p.sz ≤ addr ∨ p.sz < addr + 4 then pure none
  else do
    let m ← state
    match readWord m p.pgdir addr with
    | some w => pure (some w)
    | none => fail .trap

/-- `argint`. -/
def argint (p : Proc) (n : Nat) : Kernel (Option Word) := fetchint p (p.esp + 4 + BitVec.ofNat 32 (4 * n))

/-- The stores of `wait_stat` through `perfP`. -/
def storePerf (p : Proc) (perfP : Word) (perf : Perf) : Kernel Unit := do
  storeWord p.pgdir perfP perf.ctime
  storeWord p.pgdir (perfP + 4) perf.ttime
  storeWord p.pgdir (perfP + 8) perf.stime
  storeWord p.pgdir (perfP + 12) perf.retime
  storeWord p.pgdir (perfP + 16) perf.rutime

/-- `wait_stat`: `found` is the zombie child that the scan ends with, if it does not end with -1. -/
def waitStat (p : Proc) (perfP : Word) (found : Option Perf) : Kernel Outcome :=
  match found with
  | none => pure .failed
  | some perf => do
    storePerf p perfP perf
    pure .done

/-- `sys_wait_stat`. -/
def sysWaitStat (p : Proc) (found : Option Perf) : Kernel Outcome := do
  match ← argint p 0 with
  | none => pure .failed
  | some perfP => waitStat p perfP found

/-- The code from `implicit_sigret` to `end_of_sigret`: `pushl %eax; movl $SYS_sigreturn, %eax; int $T_SYSCALL`. -/
def implicitSigret : List Byte := [0x50, 0xb8, 26, 0, 0, 0, 0xcd, 0x40]

/-- The part of `handleSignals` that stores on the user stack, when it delivers `signum`. -/
def handleSignals (p : Proc) (signum : Word) : Kernel Outcome := do
  let funcAddr := p.esp - 20
  let _ ← copyout p.pgdir p.pgdir funcAddr implicitSigret
  storeWord p.pgdir (p.esp - 4) signum
  storeWord p.pgdir (p.esp - 8) funcAddr
  pure .done

/-- The two ways in which the added code stores in user memory. -/
inductive Path where
  | waitStat (found : Option Perf)
  | handleSignals (signum : Word)

def Path.run (p : Proc) : Path → Kernel Outcome
  | waitStat found => sysWaitStat p found
  | handleSignals signum => Vm.handleSignals p signum

/-- The `n` addresses from `va` on. -/
def bytesAt (va : Word) (n : Nat) : List Word := (List.range n).map fun k => va + BitVec.ofNat 32 k

/-- The addresses that the call is to store to. -/
def Path.targets (p : Proc) (m : Mem) : Path → List Word
  | waitStat found =>
    match (argint p 0 m).1, found with
    | .ok (some perfP), some _ => bytesAt perfP 20
    | _, _ => []
  | handleSignals _ => bytesAt (p.esp - 20) 8 ++ bytesAt (p.esp - 4) 4 ++ bytesAt (p.esp - 8) 4

/-- The address is in `[0, sz)` on a page with `PTE_U`. -/
def UserByte (m : Mem) (p : Proc) (va : Word) : Prop :=
  va < p.sz ∧ ∃ e, pteOf m p.pgdir va = some e ∧ present e = true ∧ user e = true

/-- The byte of memory is the one at such an address. -/
def Owned (m : Mem) (p : Proc) (a : Phys) : Prop :=
  ∃ va, UserByte m p va ∧ ∃ e, pteOf m p.pgdir va = some e ∧ a = ⟨frame e, offset va⟩

/-- The call stores only in user memory; and if an address that it is to store to is not there, it fails or the process
is killed, without any store. -/
def Confined (m : Mem) (p : Proc) (path : Path) : Prop :=
  (∀ a ∈ (path.run p m).2.2, Owned m p a) ∧
  ((∃ va ∈ path.targets p m, ¬ UserByte m p va) →
    ((path.run p m).1 = .ok .failed ∨ (path.run p m).1 = .ok .killed) ∧ (path.run p m).2.2 = [])

/-- The address space of a process: all pages below `sz` are mapped, user pages are writable pages of memory outside of
the page tables, and the kernel reaches them through its direct map. -/
structure Space (m : Mem) (p : Proc) : Prop where
  size : p.sz ≤ KERNBASE
  below : ∀ va, va < p.sz → ∃ e, pteOf m p.pgdir va = some e ∧ present e = true
  directory : ∀ i, present (entry m p.pgdir i) = true → writable (entry m p.pgdir i) = true
  pages : ∀ va e, va < KERNBASE → pteOf m p.pgdir va = some e → present e = true →
    writable e = true ∧ (frame e).toNat < PHYSPAGES ∧ ¬ Table m p.pgdir (frame e) ∧
    translate m p.pgdir ((frame e ++ 0#12) + KERNBASE) = some ⟨frame e, true⟩

section
variable {m m' : Mem} {p : Proc} {va : Word}

theorem SameTables.userByte (same : SameTables p.pgdir m m') : UserByte m' p va ↔ UserByte m p va := by
  unfold UserByte
  rw [same.pteOf]

theorem SameTables.owned (same : SameTables p.pgdir m m') {a : Phys} : Owned m' p a ↔ Owned m p a := by
  unfold Owned
  simp only [same.userByte, same.pteOf]

theorem Space.of_same (space : Space m p) (same : SameTables p.pgdir m m') : Space m' p where
  size := space.size
  below va lt := by
    rw [same.pteOf]
    exact space.below va lt
  directory i has := by
    rw [same.directory] at has ⊢
    exact space.directory i has
  pages va e lt is has := by
    rw [same.pteOf] at is
    rw [same.table, same.translate]
    exact space.pages va e lt is has

/-- The processor finds the page of an entry. -/
theorem Space.translate_eq (space : Space m p) {e : Word} (lt : va < KERNBASE) (is : pteOf m p.pgdir va = some e)
    (has : present e = true) : translate m p.pgdir va = some ⟨frame e, true⟩ := by
  obtain ⟨write, _⟩ := space.pages va e lt is has
  unfold pteOf walkpgdir at is
  dsimp only at is
  split_ifs at is with table
  · simp only [Option.map_some, Option.some.injEq] at is
    unfold translate
    dsimp only
    rw [is, if_pos ⟨table, has⟩, space.directory _ table, write]
    rfl
  · cases is

/-- What a kernel store to a byte of the user does. -/
structure UserStore (m : Mem) (p : Proc) (m' : Mem) (t : List Phys) : Prop where
  tables : SameTables p.pgdir m m'
  owned : ∀ a ∈ t, Owned m p a

theorem UserStore.append {m'' : Mem} {t t' : List Phys} (first : UserStore m p m' t) (second : UserStore m' p m'' t') :
    UserStore m p m'' (t ++ t') where
  tables := first.tables.trans second.tables
  owned a member := (List.mem_append.1 member).elim (first.owned a) fun new =>
    first.tables.owned.1 (second.owned a new)

theorem storeWord_user (space : Space m p) (fine : ∀ k < 4, UserByte m p (va + BitVec.ofNat 32 k)) (w : Word) :
    succeeds (storeWord p.pgdir va w) (fun _ m' t => UserStore m p m' t) m := by
  choose! lt e is has us using fine
  have below (k : Nat) (inside : k < 4) : va + BitVec.ofNat 32 k < KERNBASE := Nat.lt_of_lt_of_le (lt k inside) space.size
  refine succeeds_mono (storeWord_spec (a := fun k => ⟨frame (e k), offset (va + BitVec.ofNat 32 k)⟩)
    (fun k inside => ?_) w) ?_
  · exact ⟨space.translate_eq (below k inside) (is k inside) (has k inside), rfl,
      (space.pages _ _ (below k inside) (is k inside) (has k inside)).2.2.1⟩
  · rintro _ m' _ ⟨same, rfl⟩
    refine ⟨same, fun a member => ?_⟩
    obtain ⟨k, inside, rfl⟩ := List.mem_map.1 member
    have inside := List.mem_range.1 inside
    exact ⟨_, ⟨lt k inside, e k, is k inside, has k inside, us k inside⟩, e k, is k inside, rfl⟩

/-- `uva2ka` on a page of the user gives its address in the direct map. -/
theorem uva2ka_user (space : Space m p) {e : Word} (lt : va < KERNBASE) (is : pteOf m p.pgdir va = some e)
    (has : present e = true) (us : user e = true) :
    succeeds (uva2ka p.pgdir p.pgdir va)
      (fun pa m' t => pa = (frame e ++ 0#12) + KERNBASE ∧ m = m' ∧ t = []) m ∧ (frame e ++ 0#12) + KERNBASE ≠ 0 := by
  have address : PTE_ADDR e = frame e ++ 0#12 := mask_eq e
  constructor
  · unfold pteOf at is
    obtain ⟨⟨t, i⟩, walk, rfl⟩ := Option.map_eq_some_iff.1 is
    unfold uva2ka
    refine succeeds_state_bind ?_
    rw [walk]
    dsimp only at has us address ⊢
    rw [has, us, address]
    exact succeeds_pure ⟨rfl, rfl, rfl⟩
  · intro zero
    have small := (space.pages va e lt is has).2.1
    have := congrArg BitVec.toNat zero
    rw [BitVec.toNat_add, append_toNat] at this
    simp only [KERNBASE, PHYSPAGES] at this small
    simp at this
    omega

/-- A copy to one page of the user, through the direct map. -/
theorem memmove_direct (space : Space m p) {e : Word} (buf : List Byte) (low : va < KERNBASE)
    (is : pteOf m p.pgdir va = some e) (has : present e = true) (inside : (offset va).toNat + buf.length ≤ 4096)
    (fine : ∀ k < buf.length, UserByte m p (va + BitVec.ofNat 32 k)) :
    succeeds (memmove p.pgdir ((frame e ++ 0#12) + KERNBASE + (va - PGROUNDDOWN va)) buf)
      (fun _ m' t => UserStore m p m' t) m := by
  obtain ⟨_, _, data, direct⟩ := space.pages va e low is has
  have start : (offset ((frame e ++ 0#12) + KERNBASE)).toNat = 0 := by
    rw [offset_toNat, BitVec.toNat_add, append_toNat]
    simp only [KERNBASE]
    simp
  generalize (frame e ++ 0#12) + KERNBASE = pa0 at direct start ⊢
  have distance : va - PGROUNDDOWN va = BitVec.ofNat 32 (offset va).toNat :=
    BitVec.eq_of_toNat_eq (by rw [sub_PGROUNDDOWN, BitVec.toNat_ofNat]; have := (offset va).isLt; omega)
  refine succeeds_mono (memmove_spec (a := fun k => ⟨frame e, offset (va + BitVec.ofNat 32 k)⟩) fun k lt => ?_) ?_
  · have alias_ := add_within pa0 (k := (offset va).toNat + k) (by omega)
    have same := (add_within va (k := k) (by omega)).2
    have sum : pa0 + (va - PGROUNDDOWN va) + BitVec.ofNat 32 k = pa0 + BitVec.ofNat 32 ((offset va).toNat + k) := by
      rw [distance, BitVec.add_assoc, BitVec.ofNat_add]
    rw [sum, translate_congr alias_.1]
    exact ⟨direct, BitVec.eq_of_toNat_eq (by dsimp only; omega), data⟩
  · rintro _ m' _ ⟨tables, rfl⟩
    refine ⟨tables, fun a member => ?_⟩
    obtain ⟨k, lt, rfl⟩ := List.mem_map.1 member
    have lt := List.mem_range.1 lt
    exact ⟨_, fine k lt, e, (pteOf_congr (add_within va (by omega)).1).trans is, rfl⟩

/-- **`copyout` to user memory** copies everything, there. -/
theorem copyoutLoop_user {rounds : Nat} (buf : List Byte) (space : Space m p) (enough : buf.length ≤ rounds)
    (fine : ∀ k < buf.length, UserByte m p (va + BitVec.ofNat 32 k)) :
    succeeds (copyoutLoop p.pgdir p.pgdir rounds va buf) (fun r m' t => r = 0 ∧ UserStore m p m' t) m := by
  induction rounds generalizing va buf m with
  | zero => exact succeeds_pure ⟨rfl, .refl _ _, by simp⟩
  | succ rounds ih =>
    unfold copyoutLoop
    by_cases empty : buf = []
    · rw [if_pos empty]
      exact succeeds_pure ⟨rfl, .refl _ _, by simp⟩
    rw [if_neg empty]
    have some_ : 0 < buf.length := List.length_pos_iff.2 empty
    obtain ⟨lt, e, is, has, us⟩ := fine 0 some_
    rw [BitVec.add_zero] at lt is
    have low : va < KERNBASE := Nat.lt_of_lt_of_le lt space.size
    have down := PGROUNDDOWN_toNat va
    have low' : PGROUNDDOWN va < KERNBASE := by
      rw [BitVec.lt_def] at low ⊢
      omega
    have is' : pteOf m p.pgdir (PGROUNDDOWN va) = some e := (pteOf_congr (vpn_PGROUNDDOWN va)).trans is
    obtain ⟨finds, nonzero⟩ := uva2ka_user space low' is' has us
    refine succeeds_then finds ?_
    rintro _ _ _ ⟨rfl, rfl, rfl⟩
    rw [if_neg nonzero, sub_PGROUNDDOWN]
    dsimp only
    generalize size : min (PGSIZE - (offset va).toNat) buf.length = n
    have small := (offset va).isLt
    simp only [PGSIZE] at size
    have copy := memmove_direct space (buf.take n) low is has (by rw [List.length_take]; omega)
      fun k inside => fine k (by rw [List.length_take] at inside; omega)
    refine succeeds_then copy ?_
    intro _ m1 t first
    -- the rest of the buffer starts on the next page
    have next (k : Nat) (inside : k < (buf.drop n).length) :
        UserByte m1 p (PGROUNDDOWN va + BitVec.ofNat 32 PGSIZE + BitVec.ofNat 32 k) := by
      rw [List.length_drop] at inside
      have sum : PGROUNDDOWN va + BitVec.ofNat 32 PGSIZE + BitVec.ofNat 32 k = va + BitVec.ofNat 32 (n + k) := by
        refine BitVec.eq_of_toNat_eq ?_
        have off := offset_toNat va
        simp only [BitVec.toNat_add, BitVec.toNat_ofNat, PGSIZE, down]
        omega
      rw [sum, first.tables.userByte]
      exact fine (n + k) (by omega)
    refine succeeds_mono (ih _ (space.of_same first.tables) (by rw [List.length_drop]; omega) next) ?_
    rintro r m2 t' ⟨rfl, second⟩
    exact ⟨rfl, first.append second⟩

/-! ## The calls -/

theorem fetchint_reads (space : Space m p) (addr : Word) : ∃ w, fetchint p addr m = (.ok w, m, []) := by
  unfold fetchint
  by_cases outside : p.sz ≤ addr ∨ p.sz < addr + 4
  · rw [if_pos outside]
    exact ⟨none, rfl⟩
  · rw [if_neg outside]
    have byte (k : Nat) (small : k < 4) : ∃ b, readByte m p.pgdir (addr + BitVec.ofNat 32 k) = some b := by
      have lt : addr + BitVec.ofNat 32 k < p.sz := by
        have size : p.sz.toNat ≤ 2147483648 := space.size
        rw [not_or, BitVec.le_def, BitVec.lt_def, BitVec.toNat_add] at outside
        rw [BitVec.lt_def, BitVec.toNat_add, BitVec.toNat_ofNat]
        have four : (4 : Word).toNat = 4 := rfl
        omega
      obtain ⟨e, is, has⟩ := space.below _ lt
      exact ⟨_, by rw [readByte, space.translate_eq (Nat.lt_of_lt_of_le lt space.size) is has, Option.map_some]⟩
    obtain ⟨b0, read0⟩ := byte 0 (by decide)
    obtain ⟨b1, read1⟩ := byte 1 (by decide)
    obtain ⟨b2, read2⟩ := byte 2 (by decide)
    obtain ⟨b3, read3⟩ := byte 3 (by decide)
    rw [BitVec.add_zero] at read0
    have word : readWord m p.pgdir addr = some (b3 ++ b2 ++ b1 ++ b0) := by
      unfold readWord
      rw [read0, Option.bind_some]
      exact (congrArg (Option.bind · _) read1).trans ((congrArg (Option.bind · _) read2).trans (congrArg (Option.map _) read3))
    refine ⟨some (b3 ++ b2 ++ b1 ++ b0), ?_⟩
    show (match readWord m p.pgdir addr with
      | some w => (pure (some w) : Kernel (Option Word))
      | none => fail .trap) m = _
    rw [word]
    rfl

theorem mem_bytesAt {n : Nat} {a : Word} : a ∈ bytesAt va n ↔ ∃ k < n, a = va + BitVec.ofNat 32 k := by
  simp [bytesAt, eq_comm]

/-- A word in the middle of the targets. -/
theorem fine_word {n d : Nat} (fine : ∀ a ∈ bytesAt va n, UserByte m p a) (inside : d + 4 ≤ n) :
    ∀ k < 4, UserByte m p (va + BitVec.ofNat 32 d + BitVec.ofNat 32 k) := fun k small => by
  refine fine _ (mem_bytesAt.2 ⟨d + k, by omega, ?_⟩)
  rw [BitVec.add_assoc, BitVec.ofNat_add]

theorem storePerf_user (space : Space m p) {perfP : Word} (fine : ∀ a ∈ bytesAt perfP 20, UserByte m p a) (perf : Perf) :
    succeeds (storePerf p perfP perf) (fun _ m' t => UserStore m p m' t) m := by
  have word {m' : Mem} {t : List Phys} (before : UserStore m p m' t) (d : Nat) (inside : d + 4 ≤ 20) (w : Word) :
      succeeds (storeWord p.pgdir (perfP + BitVec.ofNat 32 d) w) (fun _ m'' t' => UserStore m p m'' (t ++ t')) m' := by
    have here := storeWord_user (space.of_same before.tables)
      (fun k small => before.tables.userByte.2 (fine_word fine inside k small)) w
    exact succeeds_mono here fun _ _ _ after => before.append after
  have start : UserStore m p m [] := ⟨.refl _ _, by simp⟩
  have zero := word start 0 (by decide) perf.ctime
  rw [BitVec.add_zero] at zero
  unfold storePerf
  refine succeeds_then zero fun _ m1 t1 s1 => ?_
  refine succeeds_then (word s1 4 (by decide) perf.ttime) fun _ m2 t2 s2 => ?_
  refine succeeds_then (word s2 8 (by decide) perf.stime) fun _ m3 t3 s3 => ?_
  refine succeeds_then (word s3 12 (by decide) perf.retime) fun _ m4 t4 s4 => ?_
  refine succeeds_mono (word s4 16 (by decide) perf.rutime) fun _ m5 t5 s5 => ?_
  simpa using s5

theorem handleSignals_user (space : Space m p) (signum : Word)
    (fine : ∀ a ∈ (Path.handleSignals signum).targets p m, UserByte m p a) :
    succeeds (handleSignals p signum) (fun _ m' t => UserStore m p m' t) m := by
  simp only [Path.targets, List.mem_append, or_imp, forall_and] at fine
  obtain ⟨⟨code, number⟩, address⟩ := fine
  unfold handleSignals
  have copied := copyoutLoop_user implicitSigret space (Nat.le_refl _)
    fun k small => code _ (mem_bytesAt.2 ⟨k, small, rfl⟩)
  refine succeeds_then copied ?_
  rintro r m1 t1 ⟨_, s1⟩
  have first := storeWord_user (space.of_same s1.tables)
    (fun k small => s1.tables.userByte.2 (number _ (mem_bytesAt.2 ⟨k, small, rfl⟩))) signum
  refine succeeds_then first fun _ m2 t2 s2 => ?_
  have both := s1.append s2
  have second := storeWord_user (space.of_same both.tables)
    (fun k small => both.tables.userByte.2 (address _ (mem_bytesAt.2 ⟨k, small, rfl⟩))) (p.esp - 20)
  refine succeeds_then second fun _ m3 t3 s3 => succeeds_pure ?_
  simpa using both.append s3

theorem sysWaitStat_eq {w : Option Word} (arg : argint p 0 m = (.ok w, m, [])) (found : Option Perf) :
    sysWaitStat p found m = (match w with
      | none => (pure .failed : Kernel Outcome)
      | some perfP => waitStat p perfP found) m := by
  unfold sysWaitStat
  rw [bind_ok arg]
  rfl

/-- What a `wait_stat` with something to store runs. -/
theorem sysWaitStat_stores (space : Space m p) {found : Option Perf} (some_ : (Path.waitStat found).targets p m ≠ []) :
    ∃ perfP perf, (Path.waitStat found).targets p m = bytesAt perfP 20 ∧
      sysWaitStat p found m = (storePerf p perfP perf >>= fun _ => pure .done : Kernel Outcome) m := by
  obtain ⟨w, arg⟩ := fetchint_reads space (p.esp + 4 + BitVec.ofNat 32 (4 * 0))
  have arg' : argint p 0 m = (.ok w, m, []) := arg
  rw [sysWaitStat_eq arg']
  simp only [Path.targets, arg'] at some_ ⊢
  cases w with
  | none => simp at some_
  | some perfP =>
    cases found with
    | none => simp at some_
    | some perf => exact ⟨perfP, perf, rfl, rfl⟩

/-- Code that returns only `done` does not fail. -/
theorem not_refused {code : Kernel Outcome} (ends : returns code (fun r _ => r = .done) m) :
    (code m).1 ≠ .ok .failed ∧ (code m).1 ≠ .ok .killed := by
  have (r : Outcome) (is : (code m).1 = .ok r) : r = .done := ends.apply (Prod.ext is rfl)
  exact ⟨fun is => absurd (this _ is) (by decide), fun is => absurd (this _ is) (by decide)⟩

/-- Once they have something to store, the calls do not fail. -/
theorem run_never_refuses (space : Space m p) (path : Path) (some_ : path.targets p m ≠ []) :
    (path.run p m).1 ≠ .ok .failed ∧ (path.run p m).1 ≠ .ok .killed := by
  cases path with
  | waitStat found =>
    obtain ⟨perfP, perf, _, runs⟩ := sysWaitStat_stores space some_
    rw [Path.run, runs]
    exact not_refused (returns_bind (returns_true _ _) fun _ _ _ => returns_pure rfl)
  | handleSignals signum =>
    refine not_refused (returns_bind (returns_true _ _) fun _ _ _ => ?_)
    refine returns_bind (returns_true _ _) fun _ _ _ => ?_
    exact returns_bind (returns_true _ _) fun _ _ _ => returns_pure rfl

/-- A call with nothing to store stores nothing. -/
theorem sysWaitStat_silent (space : Space m p) {found : Option Perf} (none : (Path.waitStat found).targets p m = []) :
    (sysWaitStat p found m).2.2 = [] := by
  obtain ⟨w, arg⟩ := fetchint_reads space (p.esp + 4 + BitVec.ofNat 32 (4 * 0))
  have arg' : argint p 0 m = (.ok w, m, []) := arg
  rw [sysWaitStat_eq arg']
  simp only [Path.targets, arg'] at none
  cases w with
  | none => rfl
  | some perfP =>
    cases found with
    | none => rfl
    | some perf => simp [bytesAt] at none

/-- If everything they are to store lies in user memory, it is stored there. -/
theorem run_owned (space : Space m p) (path : Path) (fine : ∀ va ∈ path.targets p m, UserByte m p va) :
    ∀ a ∈ (path.run p m).2.2, Owned m p a := by
  cases path with
  | waitStat found =>
    by_cases none : (Path.waitStat found).targets p m = []
    · rw [Path.run, sysWaitStat_silent space none]
      simp
    · obtain ⟨perfP, perf, targets, runs⟩ := sysWaitStat_stores space none
      rw [targets] at fine
      obtain ⟨_, m', t, stored, after⟩ := (storePerf_user space fine perf).exists
      rw [Path.run, runs, bind_ok stored]
      intro a member
      rcases List.mem_append.1 member with new | none
      · exact after.owned a new
      · cases none
  | handleSignals signum =>
    obtain ⟨_, m', t, stored, after⟩ := (handleSignals_user space signum fine).exists
    rw [Path.run, stored]
    exact after.owned

/-- **The added calls are confined exactly if what they are to store lies in user memory.** -/
theorem confined_iff (space : Space m p) (path : Path) :
    Confined m p path ↔ ∀ va ∈ path.targets p m, UserByte m p va := by
  constructor
  · rintro ⟨_, refused⟩ va member
    by_contra outside
    have never := run_never_refuses space path (List.ne_nil_of_mem member)
    rcases (refused ⟨va, member, outside⟩).1 with failed | killed
    · exact never.1 failed
    · exact never.2 killed
  · intro fine
    refine ⟨run_owned space path fine, ?_⟩
    rintro ⟨va, member, outside⟩
    exact absurd (fine va member) outside

/-! ## A process -/

/-- A memory given by its words. -/
def memOf (w : Page → BitVec 10 → Word) : Mem := fun a =>
  (w a.page (a.off.extractLsb' 2 10)).extractLsb' (8 * (a.off.extractLsb' 0 2).toNat) 8

theorem word_bytes (w : Word) :
    (w.extractLsb' 24 8 ++ w.extractLsb' 16 8 ++ w.extractLsb' 8 8 ++ w.extractLsb' 0 8 : Word) = w := by
  grind

theorem entry_memOf (w : Page → BitVec 10 → Word) (t : Page) (i : BitVec 10) : entry (memOf w) t i = w t i := by
  have high (b : BitVec 2) : (i ++ b).extractLsb' 2 10 = i := BitVec.extractLsb'_append_eq_left
  have low (b : BitVec 2) : (i ++ b).extractLsb' 0 2 = b := BitVec.extractLsb'_append_eq_right
  simp only [entry, memOf, high, low]
  exact word_bytes _

theorem pteOf_memOf (w : Page → BitVec 10 → Word) (pgdir : Page) (va : Word) :
    pteOf (memOf w) pgdir va =
      if present (w pgdir (PDX va)) then some (w (frame (w pgdir (PDX va))) (PTX va)) else none := by
  unfold pteOf walkpgdir
  simp only [entry_memOf]
  split_ifs <;> simp

/-- One user page, page 3, mapped at 0. Page 1 is the page directory, page 2 the page table of the user, page 4 one of
the direct map, in which page 5 is memory of the kernel. The word at address 8 is the address of page 5 there. -/
def onePage (t : Page) (i : BitVec 10) : Word :=
  if t = 1 ∧ i = 0 then 0x2007
  else if t = 1 ∧ i = 512 then 0x4007
  else if t = 2 ∧ i = 0 then 0x3007
  else if t = 4 ∧ i = 3 then 0x3003
  else if t = 4 ∧ i = 5 then 0x5003
  else if t = 3 ∧ i = 2 then 0x80005000
  else 0

theorem onePage_directory : ∀ i : BitVec 10, present (onePage 1 i) = true →
    i = 0 ∧ onePage 1 i = 0x2007 ∨ i = 512 ∧ onePage 1 i = 0x4007 := by
  decide +kernel

theorem onePage_table : ∀ i : BitVec 10, present (onePage 2 i) = true → i = 0 ∧ onePage 2 i = 0x3007 := by
  decide +kernel

theorem PDX_low {va : Word} (low : va < KERNBASE) : PDX va ≠ 512 := by
  intro high
  have := congrArg BitVec.toNat high
  rw [PDX, BitVec.extractLsb'_toNat, Nat.shiftRight_eq_div_pow] at this
  have low : va.toNat < 2147483648 := low
  have five : (512 : BitVec 10).toNat = 512 := rfl
  omega

/-- The only user page is page 3. -/
theorem onePage_user {va e : Word} (low : va < KERNBASE) (is : pteOf (memOf onePage) 1 va = some e)
    (has : present e = true) : e = 0x3007 := by
  rw [pteOf_memOf] at is
  split_ifs at is with directory
  rcases onePage_directory _ directory with ⟨_, pde⟩ | ⟨high, _⟩
  · rw [pde] at is
    cases is
    exact (onePage_table _ has).2
  · exact absurd high (PDX_low low)

theorem onePage_below {va : Word} (lt : va < 4096) : pteOf (memOf onePage) 1 va = some 0x3007 := by
  have zero : vpn va = 0 := by
    refine BitVec.eq_of_toNat_eq ?_
    have lt : va.toNat < 4096 := lt
    rw [vpn_toNat]
    simp
    omega
  rw [pteOf_memOf, PDX_eq, PTX_eq, zero]
  decide +kernel

theorem onePage_space (esp : Word) : Space (memOf onePage) ⟨1, 4096, esp⟩ where
  size := show (4096 : Word) ≤ KERNBASE by decide
  below va lt := ⟨0x3007, onePage_below lt, by decide⟩
  directory i has := by
    rw [entry_memOf] at has ⊢
    rcases onePage_directory i has with ⟨_, is⟩ | ⟨_, is⟩ <;> rw [is] <;> decide
  pages va e low is has := by
    cases onePage_user low is has
    refine ⟨by decide, by decide, ?_, show translate (memOf onePage) 1 _ = _ by decide +kernel⟩
    rintro (same | ⟨i, has, same⟩)
    · exact absurd same (show ¬ frame 0x3007 = 1 by decide)
    · rw [entry_memOf] at has same
      rcases onePage_directory i has with ⟨_, is⟩ | ⟨_, is⟩ <;> rw [is] at same <;> exact absurd same (by decide)

/-- A signal for a process with its stack pointer in its page. -/
theorem confined_iff_onePage : Confined (memOf onePage) ⟨1, 4096, 0x100⟩ (.handleSignals 3) := by
  refine (confined_iff (onePage_space 0x100) (.handleSignals 3)).2 fun va member => ?_
  have lt : va < 4096 := by
    simp only [Path.targets, List.mem_append, mem_bytesAt] at member
    rcases member with (⟨k, small, rfl⟩ | ⟨k, small, rfl⟩) | ⟨k, small, rfl⟩ <;>
      rw [BitVec.lt_def, BitVec.toNat_add, BitVec.toNat_ofNat] <;> simp <;> omega
  exact ⟨lt, 0x3007, onePage_below lt, by decide, by decide⟩

/-- Page 5 is not the user's. -/
theorem onePage_not_owned (esp : Word) (off : BitVec 12) : ¬ Owned (memOf onePage) ⟨1, 4096, esp⟩ ⟨5, off⟩ := by
  rintro ⟨va, ⟨lt, _⟩, e, is, same⟩
  cases (onePage_below lt).symm.trans is
  exact absurd (congrArg Phys.page same) (show ¬ (5 : Page) = frame 0x3007 by decide)

/-- Page 5 in the direct map. -/
theorem onePage_kernel {m : Mem} (same : SameTables 1 (memOf onePage) m) {d : Nat} (inside : d < 4096) :
    translate m 1 (0x80005000 + BitVec.ofNat 32 d) = some ⟨5, true⟩ ∧
      offset (0x80005000 + BitVec.ofNat 32 d) = BitVec.ofNat 12 d ∧ ¬ Table m 1 5 := by
  have start : (offset 0x80005000).toNat = 0 := by decide
  obtain ⟨page, off⟩ := add_within 0x80005000 (k := d) (by omega)
  refine ⟨?_, BitVec.eq_of_toNat_eq ?_, ?_⟩
  · rw [same.translate, translate_congr page]
    decide +kernel
  · rw [off, start, BitVec.toNat_ofNat]
    omega
  · rw [same.table]
    rintro (same | ⟨i, has, same⟩)
    · exact absurd same (by decide)
    · rw [entry_memOf] at has same
      rcases onePage_directory i has with ⟨_, is⟩ | ⟨_, is⟩ <;> rw [is] at same <;> exact absurd same (by decide)

/-- A word stored in page 5. -/
theorem onePage_store {m : Mem} (same : SameTables 1 (memOf onePage) m) {d : Nat} (inside : d + 4 ≤ 4096) (w : Word) :
    succeeds (storeWord 1 (0x80005000 + BitVec.ofNat 32 d) w)
      (fun _ m' t => SameTables 1 (memOf onePage) m' ∧ ⟨5, BitVec.ofNat 12 d⟩ ∈ t) m := by
  refine succeeds_mono (storeWord_spec (a := fun k => ⟨5, BitVec.ofNat 12 (d + k)⟩) (fun k lt => ?_) w) ?_
  · rw [BitVec.add_assoc, ← BitVec.ofNat_add]
    exact onePage_kernel same (by omega)
  · rintro _ m' _ ⟨same', rfl⟩
    exact ⟨same.trans same', List.mem_map.2 ⟨0, by simp, rfl⟩⟩

/-- `wait_stat` stores through the pointer 0x80005000 that it finds on the stack. -/
theorem onePage_waitStat (perf : Perf) : succeeds (sysWaitStat ⟨1, 4096, 4⟩ (some perf))
    (fun r _ t => r = .done ∧ ⟨5, 0⟩ ∈ t) (memOf onePage) := by
  have word : readWord (memOf onePage) 1 8 = some 0x80005000 := by decide +kernel
  have arg : succeeds (argint ⟨1, 4096, 4⟩ 0) (fun w m t => w = some 0x80005000 ∧ memOf onePage = m ∧ t = [])
      (memOf onePage) := by
    unfold argint fetchint
    rw [if_neg (by decide)]
    refine succeeds_state_bind ?_
    show succeeds (match readWord (memOf onePage) 1 8 with
      | some w => (pure (some w) : Kernel (Option Word))
      | none => fail .trap) _ _
    rw [word]
    exact succeeds_pure ⟨rfl, rfl, rfl⟩
  unfold sysWaitStat
  refine succeeds_then arg ?_
  rintro _ _ _ ⟨rfl, rfl, rfl⟩
  have stores : succeeds (storePerf ⟨1, 4096, 4⟩ 0x80005000 perf) (fun _ _ t => ⟨5, 0⟩ ∈ t) (memOf onePage) := by
    unfold storePerf
    have first := onePage_store (SameTables.refl 1 (memOf onePage)) (d := 0) (by decide) perf.ctime
    refine succeeds_then first fun _ m1 t1 stored => ?_
    refine succeeds_then (onePage_store stored.1 (d := 4) (by decide) perf.ttime) fun _ m2 t2 s2 => ?_
    refine succeeds_then (onePage_store s2.1 (d := 8) (by decide) perf.stime) fun _ m3 t3 s3 => ?_
    refine succeeds_then (onePage_store s3.1 (d := 12) (by decide) perf.retime) fun _ m4 t4 s4 => ?_
    refine succeeds_mono (onePage_store s4.1 (d := 16) (by decide) perf.rutime) fun _ m5 t5 s5 => ?_
    exact List.mem_append_left _ stored.2
  exact succeeds_then stores fun _ _ _ stored => succeeds_pure ⟨rfl, by simpa using stored⟩

/-- `handleSignals` stores below the stack pointer 0x80005100. -/
theorem onePage_handleSignals (signum : Word) : succeeds (handleSignals ⟨1, 4096, 0x80005100⟩ signum)
    (fun r _ t => r = .done ∧ ⟨5, 0x0fc⟩ ∈ t) (memOf onePage) := by
  have refuses : succeeds (copyout 1 1 (0x80005100 - 20) implicitSigret)
      (fun _ m t => memOf onePage = m ∧ t = []) (memOf onePage) := by
    have walk : walkpgdir (memOf onePage) 1 (PGROUNDDOWN (0x80005100 - 20)) = some (4, 5) := by decide +kernel
    have null : succeeds (uva2ka 1 1 (PGROUNDDOWN (0x80005100 - 20)))
        (fun pa m t => pa = 0 ∧ memOf onePage = m ∧ t = []) (memOf onePage) := by
      unfold uva2ka
      refine succeeds_state_bind ?_
      rw [walk]
      dsimp only
      rw [entry_memOf]
      exact succeeds_pure ⟨rfl, rfl, rfl⟩
    unfold copyout
    show succeeds (copyoutLoop 1 1 (7 + 1) _ _) _ _
    unfold copyoutLoop
    rw [if_neg (by decide)]
    refine succeeds_then null ?_
    rintro _ _ _ ⟨rfl, rfl, rfl⟩
    exact succeeds_pure ⟨rfl, rfl⟩
  unfold handleSignals
  refine succeeds_then refuses ?_
  rintro _ _ _ ⟨rfl, rfl⟩
  have first := onePage_store (SameTables.refl 1 (memOf onePage)) (d := 0xfc) (by decide) signum
  refine succeeds_then first ?_
  rintro _ m1 t1 ⟨same1, stored⟩
  refine succeeds_then (onePage_store same1 (d := 0xf8) (by decide) (0x80005100 - 20)) ?_
  rintro _ m2 t2 _
  exact succeeds_pure ⟨rfl, List.mem_append_right _ (List.mem_append_left _ stored)⟩

/-- **Both calls write to a page of the kernel.** -/
theorem kernel_page_overwritten :
    (Space (memOf onePage) ⟨1, 4096, 4⟩ ∧ ¬ Confined (memOf onePage) ⟨1, 4096, 4⟩ (.waitStat (some ⟨1, 2, 3, 4, 5⟩))) ∧
    (Space (memOf onePage) ⟨1, 4096, 0x80005100⟩ ∧
      ¬ Confined (memOf onePage) ⟨1, 4096, 0x80005100⟩ (.handleSignals 3)) := by
  obtain ⟨_, m1, t1, runs1, _, perf⟩ := (onePage_waitStat ⟨1, 2, 3, 4, 5⟩).exists
  obtain ⟨_, m2, t2, runs2, _, frame⟩ := (onePage_handleSignals 3).exists
  refine ⟨⟨onePage_space _, fun confined => ?_⟩, ⟨onePage_space _, fun confined => ?_⟩⟩
  · have owned := confined.1
    rw [Path.run, runs1] at owned
    exact onePage_not_owned _ _ (owned _ perf)
  · have owned := confined.1
    rw [Path.run, runs2] at owned
    exact onePage_not_owned _ _ (owned _ frame)

end

end Xv6.Vm
