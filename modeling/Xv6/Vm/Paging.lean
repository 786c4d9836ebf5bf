import Xv6.Lib.Effect
import Xv6.Lib.Writes

/-!
# Page tables and the kernel's accesses through them

Physical memory, page directories and page tables in it, `walkpgdir`, `uva2ka` and
`copyout` of `vm.c`, and the loads and stores that the kernel makes through virtual
addresses. The processor translates them with the current page directory: an access to
a page that is not present, or a store to one that is not writable, is a fault, for
which `trap` panics when it comes from the kernel. `PTE_U` stops the user only.

The kernel reaches page tables through its direct map; the model reads them at their
physical address. Kernel code is `Eff` code over the memory whose observations are the
bytes it stores.
-/

namespace Xv6.Vm

open Xv6.Lib Xv6.Lib.Eff

abbrev Word := BitVec 32

abbrev Byte := BitVec 8

/-- A page number: the upper 20 bits of an address. -/
abbrev Page := BitVec 20

/-- The physical address of a byte. -/
structure Phys where
  page : Page
  off : BitVec 12
  deriving DecidableEq, Repr

abbrev Mem := Phys → Byte

def PGSIZE : Nat := 4096

def KERNBASE : Word := 0x80000000

/-- The pages below `PHYSTOP`. -/
def PHYSPAGES : Nat := 0xe000

/-- The page of a virtual address, and the page directory index, page table index and offset in it. -/
def vpn (va : Word) : Page := va.extractLsb' 12 20

def PDX (va : Word) : BitVec 10 := va.extractLsb' 22 10

def PTX (va : Word) : BitVec 10 := va.extractLsb' 12 10

def offset (va : Word) : BitVec 12 := va.extractLsb' 0 12

def PGROUNDDOWN (va : Word) : Word := va &&& 0xfffff000

/-- `PTE_P`, `PTE_W` and `PTE_U` of an entry. -/
def present (e : Word) : Bool := e.getLsbD 0

def writable (e : Word) : Bool := e.getLsbD 1

def user (e : Word) : Bool := e.getLsbD 2

def PTE_ADDR (e : Word) : Word := e &&& 0xfffff000

/-- The page that an entry points to. -/
def frame (e : Word) : Page := e.extractLsb' 12 20

/-- Entry `i` of the page directory or page table in page `t`. -/
def entry (m : Mem) (t : Page) (i : BitVec 10) : Word :=
  m ⟨t, i ++ 3#2⟩ ++ m ⟨t, i ++ 2#2⟩ ++ m ⟨t, i ++ 1#2⟩ ++ m ⟨t, i ++ 0#2⟩

/-- `walkpgdir(pgdir, va, 0)`: where the page table entry is, or the null pointer. -/
def walkpgdir (m : Mem) (pgdir : Page) (va : Word) : Option (Page × BitVec 10) :=
  let pde := entry m pgdir (PDX va)
  if present pde then some (frame pde, PTX va) else none

/-- Where the processor finds a page, and whether the kernel may write there. -/
structure Mapping where
  page : Page
  writable : Bool
  deriving DecidableEq, Repr

/-- The translation of the processor for the kernel, with `CR0_WP` set as `entry.S` does. -/
def translate (m : Mem) (cr3 : Page) (va : Word) : Option Mapping :=
  let pde := entry m cr3 (PDX va)
  let pte := entry m (frame pde) (PTX va)
  if present pde ∧ present pte then some ⟨frame pte, writable pde && writable pte⟩ else none

/-- The page fault of the kernel: `panic("trap")`. -/
inductive Panic where
  | trap
  deriving DecidableEq, Repr

/-- Kernel code; it observes the bytes it stores. -/
abbrev Kernel := Eff Mem Panic Phys

def readByte (m : Mem) (cr3 : Page) (va : Word) : Option Byte :=
  (translate m cr3 va).map fun a => m ⟨a.page, offset va⟩

/-- `*(int*)va`; `none` is a fault. -/
def readWord (m : Mem) (cr3 : Page) (va : Word) : Option Word :=
  (readByte m cr3 va).bind fun b0 => (readByte m cr3 (va + 1)).bind fun b1 =>
    (readByte m cr3 (va + 2)).bind fun b2 => (readByte m cr3 (va + 3)).map fun b3 => b3 ++ b2 ++ b1 ++ b0

/-- A store of the kernel to the byte at `va`. -/
def storeByte (cr3 : Page) (va : Word) (b : Byte) : Kernel Unit := do
  let m ← state
  match translate m cr3 va with
  | some ⟨page, true⟩ =>
    update fun m => Function.update m ⟨page, offset va⟩ b
    emit ⟨page, offset va⟩
  | _ => fail .trap

/-- `memmove(va, buf, n)`, from memory that the copy does not overwrite. -/
def memmove (cr3 : Page) (va : Word) (buf : List Byte) : Kernel Unit :=
  forEach (fun q => storeByte cr3 (va + BitVec.ofNat 32 q.2) q.1) buf.zipIdx

def bytesOf (w : Word) : List Byte := [w.extractLsb' 0 8, w.extractLsb' 8 8, w.extractLsb' 16 8, w.extractLsb' 24 8]

/-- The kernel may store at `va`. -/
def storable (m : Mem) (cr3 : Page) (va : Word) : Bool :=
  match translate m cr3 va with
  | some a => a.writable
  | none => false

/-- `*(int*)va = w`: a store that crosses a page faults before it stores anything. -/
def storeWord (cr3 : Page) (va w : Word) : Kernel Unit := do
  let m ← state
  if storable m cr3 va ∧ storable m cr3 (va + 3) then memmove cr3 va (bytesOf w) else fail .trap

/-- `uva2ka`: 0 is the null pointer. `walkpgdir` may return 0, which is dereferenced all the same: then the word at
address 0 of the current process is taken for the entry. -/
def uva2ka (cr3 pgdir : Page) (uva : Word) : Kernel Word := do
  let m ← state
  let found := match walkpgdir m pgdir uva with
    | some (t, i) => some (entry m t i)
    | none => readWord m cr3 0
  match found with
  | none => fail .trap
  | some pte =>
    if present pte = false then pure 0
    else if user pte = false then pure 0
    else pure (PTE_ADDR pte + KERNBASE)

/-- The loop of `copyout`. Every round copies a byte at least, so as many rounds as there are bytes are enough. -/
def copyoutLoop (cr3 pgdir : Page) : Nat → Word → List Byte → Kernel Int
  | 0, _, _ => pure 0
  | rounds + 1, va, buf =>
    if buf = [] then pure 0
    else do
      let va0 := PGROUNDDOWN va
      let pa0 ← uva2ka cr3 pgdir va0
      if pa0 = 0 then pure (-1)
      else do
        let n := min (PGSIZE - (va - va0).toNat) buf.length
        memmove cr3 (pa0 + (va - va0)) (buf.take n)
        copyoutLoop cr3 pgdir rounds (va0 + BitVec.ofNat 32 PGSIZE) (buf.drop n)

/-- `copyout(pgdir, va, p, len)`, where `buf` is the `len` bytes at `p`. -/
def copyout (cr3 pgdir : Page) (va : Word) (buf : List Byte) : Kernel Int := copyoutLoop cr3 pgdir buf.length va buf

/-! ## Addresses -/

section
variable {va : Word} {m m' : Mem} {cr3 pgdir t : Page}

theorem PDX_eq (va : Word) : PDX va = (vpn va).extractLsb' 10 10 := by
  unfold PDX vpn
  ext i lt
  simp only [BitVec.getElem_extractLsb', BitVec.getLsbD_extractLsb']
  simp [show 10 + i < 20 by omega]
  congr 1
  omega

theorem PTX_eq (va : Word) : PTX va = (vpn va).extractLsb' 0 10 := by
  unfold PTX vpn
  ext i lt
  simp only [BitVec.getElem_extractLsb', BitVec.getLsbD_extractLsb']
  simp [show i < 20 by omega]

theorem vpn_toNat (va : Word) : (vpn va).toNat = va.toNat / 4096 := by
  rw [vpn, BitVec.extractLsb'_toNat, Nat.shiftRight_eq_div_pow]
  have := va.isLt
  omega

theorem offset_toNat (va : Word) : (offset va).toNat = va.toNat % 4096 := by
  rw [offset, BitVec.extractLsb'_toNat]
  simp

/-- The bytes of a page follow each other. -/
theorem add_within (va : Word) {k : Nat} (inside : (offset va).toNat + k < 4096) :
    vpn (va + BitVec.ofNat 32 k) = vpn va ∧ (offset (va + BitVec.ofNat 32 k)).toNat = (offset va).toNat + k := by
  rw [offset_toNat] at inside
  have lt := va.isLt
  have sum : (va + BitVec.ofNat 32 k).toNat = va.toNat + k := by
    rw [BitVec.toNat_add, BitVec.toNat_ofNat]
    omega
  refine ⟨BitVec.eq_of_toNat_eq ?_, ?_⟩
  · rw [vpn_toNat, vpn_toNat, sum]
    omega
  · rw [offset_toNat, offset_toNat, sum]
    omega

theorem mask_getElem : ∀ i : Fin 32, (0xfffff000 : Word).getLsbD i = decide (12 ≤ i.val) := by decide

/-- Clearing the low 12 bits leaves the page. -/
theorem mask_eq (va : Word) : va &&& 0xfffff000 = vpn va ++ 0#12 := by
  refine BitVec.eq_of_getLsbD_eq fun i lt => ?_
  rw [BitVec.getLsbD_and, mask_getElem ⟨i, lt⟩, BitVec.getLsbD_append, vpn, BitVec.getLsbD_extractLsb']
  by_cases low : i < 12
  · simp [low]
  · have lt' : i - 12 < 20 := by omega
    have sum : 12 + (i - 12) = i := by omega
    simp [low, lt', sum, Nat.le_of_not_lt low]

theorem append_toNat (f : Page) : (f ++ 0#12 : Word).toNat = f.toNat * 4096 := by
  rw [BitVec.toNat_append]
  simp [Nat.shiftLeft_eq]

theorem PGROUNDDOWN_toNat (va : Word) : (PGROUNDDOWN va).toNat = va.toNat / 4096 * 4096 := by
  rw [PGROUNDDOWN, mask_eq, append_toNat, vpn_toNat]

/-- The distance from the start of the page. -/
theorem sub_PGROUNDDOWN (va : Word) : (va - PGROUNDDOWN va).toNat = (offset va).toNat := by
  have down := PGROUNDDOWN_toNat va
  have lt := va.isLt
  rw [BitVec.toNat_sub, down, offset_toNat]
  omega

theorem vpn_PGROUNDDOWN (va : Word) : vpn (PGROUNDDOWN va) = vpn va := by
  refine BitVec.eq_of_toNat_eq ?_
  rw [vpn_toNat, vpn_toNat, PGROUNDDOWN_toNat]
  omega

/-! ## What the translation depends on -/

/-- The entry for an address, if there is a page table for it. -/
def pteOf (m : Mem) (pgdir : Page) (va : Word) : Option Word := (walkpgdir m pgdir va).map fun p => entry m p.1 p.2

/-- The pages that hold the page directory and its page tables. -/
def Table (m : Mem) (pgdir t : Page) : Prop := t = pgdir ∨ ∃ i, present (entry m pgdir i) ∧ t = frame (entry m pgdir i)

/-- The two memories have the same page directory and page tables. -/
def SameTables (pgdir : Page) (m m' : Mem) : Prop := ∀ t, Table m pgdir t → ∀ i, entry m' t i = entry m t i

theorem pteOf_congr {va' : Word} (same : vpn va' = vpn va) : pteOf m pgdir va' = pteOf m pgdir va := by
  unfold pteOf walkpgdir
  rw [PDX_eq, PTX_eq, PDX_eq, PTX_eq, same]

theorem translate_congr {va' : Word} (same : vpn va' = vpn va) : translate m pgdir va' = translate m pgdir va := by
  unfold translate
  rw [PDX_eq, PTX_eq, PDX_eq, PTX_eq, same]

theorem SameTables.refl (pgdir : Page) (m : Mem) : SameTables pgdir m m := fun _ _ _ => rfl

section
variable (same : SameTables pgdir m m')
include same

theorem SameTables.directory (i : BitVec 10) : entry m' pgdir i = entry m pgdir i := same pgdir (.inl rfl) i

theorem SameTables.table : Table m' pgdir t ↔ Table m pgdir t := by
  unfold Table
  simp only [same.directory]

theorem SameTables.walkpgdir (va : Word) : walkpgdir m' pgdir va = walkpgdir m pgdir va := by
  unfold Vm.walkpgdir
  rw [same.directory]

theorem SameTables.pteOf (va : Word) : pteOf m' pgdir va = pteOf m pgdir va := by
  unfold Vm.pteOf
  rw [same.walkpgdir]
  unfold Vm.walkpgdir
  dsimp only
  split_ifs with has
  · simp only [Option.map_some, Option.some.injEq]
    exact same _ (.inr ⟨_, has, rfl⟩) _
  · rfl

theorem SameTables.translate (va : Word) : translate m' pgdir va = translate m pgdir va := by
  unfold Vm.translate
  dsimp only
  rw [same.directory]
  by_cases has : present (entry m pgdir (PDX va)) = true
  · rw [same _ (.inr ⟨_, has, rfl⟩)]
  · simp [has]

theorem SameTables.trans {m'' : Mem} (next : SameTables pgdir m' m'') : SameTables pgdir m m'' := fun t isTable i =>
  (next t (same.table.2 isTable) i).trans (same t isTable i)

end

/-- A store outside of the page tables. -/
theorem sameTables_update {a : Phys} (outside : ¬ Table m pgdir a.page) (b : Byte) :
    SameTables pgdir m (Function.update m a b) := by
  intro t isTable i
  have ne (o : BitVec 12) : (⟨t, o⟩ : Phys) ≠ a := fun same => outside (same ▸ isTable)
  simp only [entry, Function.update_of_ne (ne _)]

/-! ## Stores that go through -/

theorem storeByte_spec {f : Page} {va : Word} (maps : translate m pgdir va = some ⟨f, true⟩) (b : Byte) :
    succeeds (storeByte pgdir va b)
      (fun _ m' t => m' = Function.update m ⟨f, offset va⟩ b ∧ t = [⟨f, offset va⟩]) m := by
  unfold storeByte
  refine succeeds_state_bind ?_
  rw [maps]
  exact succeeds_update_bind (succeeds_emit ⟨rfl, rfl⟩)

/-- A copy to addresses that are mapped to data pages: the memory after it, and what it stores. -/
theorem memmove_writes {va : Word} {buf : List Byte} {a : Nat → Phys}
    (maps : ∀ k < buf.length, translate m pgdir (va + BitVec.ofNat 32 k) = some ⟨(a k).page, true⟩ ∧
      offset (va + BitVec.ofNat 32 k) = (a k).off ∧ ¬ Table m pgdir (a k).page) :
    succeeds (memmove pgdir va buf)
      (fun _ m' t => m' = applyWrites m (buf.zipIdx.map fun q => (a q.2, q.1)) ∧ SameTables pgdir m m' ∧
        t = (List.range buf.length).map a) m := by
  unfold memmove
  suffices general : ∀ (l : List (Byte × Nat)) (m' : Mem), SameTables pgdir m m' → (∀ q ∈ l, q.2 < buf.length) →
      succeeds (forEach (fun q => storeByte pgdir (va + BitVec.ofNat 32 q.2) q.1) l)
        (fun _ m'' t => m'' = applyWrites m' (l.map fun q => (a q.2, q.1)) ∧ SameTables pgdir m m'' ∧
          t = l.map fun q => a q.2) m' by
    have all := general buf.zipIdx m (.refl pgdir m) fun q member => by
      have := List.mem_zipIdx member
      omega
    have order : buf.zipIdx.map (fun q => a q.2) = (List.range buf.length).map a := by
      rw [List.range_eq_range', ← List.zipIdx_map_snd 0 buf, List.map_map]
      rfl
    rwa [order] at all
  intro l
  induction l with
  | nil =>
    intro m' same _
    exact succeeds_pure ⟨rfl, same, rfl⟩
  | cons q l ih =>
    intro m' same inside
    obtain ⟨goes, off, data⟩ := maps q.2 (inside q (by simp))
    have place : (⟨(a q.2).page, offset (va + BitVec.ofNat 32 q.2)⟩ : Phys) = a q.2 := by rw [off]
    have one := storeByte_spec (m := m') (by rw [same.translate, goes]) q.1
    rw [place] at one
    refine succeeds_then one ?_
    rintro _ m1 t ⟨rfl, rfl⟩
    have same1 : SameTables pgdir m' (Function.update m' (a q.2) q.1) :=
      sameTables_update (fun isTable => data (same.table.1 isTable)) q.1
    refine succeeds_mono (ih _ (same.trans same1) fun q' member => inside q' (by simp [member])) ?_
    rintro _ m2 t ⟨rfl, same2, rfl⟩
    exact ⟨rfl, same2, rfl⟩

theorem memmove_spec {va : Word} {buf : List Byte} {a : Nat → Phys}
    (maps : ∀ k < buf.length, translate m pgdir (va + BitVec.ofNat 32 k) = some ⟨(a k).page, true⟩ ∧
      offset (va + BitVec.ofNat 32 k) = (a k).off ∧ ¬ Table m pgdir (a k).page) :
    succeeds (memmove pgdir va buf)
      (fun _ m' t => SameTables pgdir m m' ∧ t = (List.range buf.length).map a) m :=
  succeeds_mono (memmove_writes maps) fun _ _ _ after => after.2

theorem storeWord_spec {va : Word} {a : Nat → Phys}
    (maps : ∀ k < 4, translate m pgdir (va + BitVec.ofNat 32 k) = some ⟨(a k).page, true⟩ ∧
      offset (va + BitVec.ofNat 32 k) = (a k).off ∧ ¬ Table m pgdir (a k).page) (w : Word) :
    succeeds (storeWord pgdir va w) (fun _ m' t => SameTables pgdir m m' ∧ t = (List.range 4).map a) m := by
  have can (k : Nat) (inside : k < 4) : storable m pgdir (va + BitVec.ofNat 32 k) = true := by
    rw [storable, (maps k inside).1]
  have first := can 0 (by decide)
  rw [BitVec.add_zero] at first
  unfold storeWord
  refine succeeds_state_bind ?_
  rw [if_pos ⟨first, can 3 (by decide)⟩]
  exact memmove_spec maps

end

end Xv6.Vm
