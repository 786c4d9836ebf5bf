import Xv6.Uvm.Kalloc

/-!
# The page directory functions

`walkpgdir`, `mappages`, `setupkvm`, `allocuvm`, `deallocuvm`, `freevm` and `copyuvm` of `vm.c`, and
`growproc` of `proc.c`. A loop over addresses is cut off after as many rounds as there are pages.
-/

namespace Xv6.Uvm

open Xv6.Lib Xv6.Lib.Eff Xv6.Vm

def PTE_P : Word := 1

def PTE_W : Word := 2

def PTE_U : Word := 4

def EXTMEM : Word := 0x100000

def PHYSTOP : Word := 0xe000000

def DEVSPACE : Word := 0xfe000000

def NPTENTRIES : Nat := 1024

def NPDENTRIES : Nat := 1024

/-- `PGSIZE` as a `uint`. -/
def pgsize : Word := 4096

def PGROUNDUP (sz : Word) : Word := (sz + 4095) &&& 0xfffff000

def PTE_FLAGS (e : Word) : Word := e &&& 0xfff

/-- There are as many pages of addresses. -/
def rounds : Nat := 2 ^ 20

/-- `walkpgdir`: where the page table entry is, or the null pointer. -/
def walkpgdir (pgdir : Page) (va : Word) (alloc : Bool) : Code (Option (Page × BitVec 10)) := do
  let s ← state
  let pde := entry s.mem pgdir (PDX va)
  if present pde then pure (some (frame pde, PTX va))
  else if alloc = false then pure none
  else do
    match ← kalloc .pgtab with
    | none => pure none
    | some pgtab => do
      memset pgtab 0
      store pgdir (PDX va) (addr pgtab ||| PTE_P ||| PTE_W ||| PTE_U)
      pure (some (pgtab, PTX va))

/-- The loop of `mappages`. -/
def mapLoop (pgdir : Page) (last perm : Word) : Nat → Word → Word → Code Int
  | 0, _, _ => fail .endless
  | n + 1, a, pa => do
    match ← walkpgdir pgdir a true with
    | none => pure (-1)
    | some (pgtab, i) => do
      let s ← state
      if present (entry s.mem pgtab i) then fail .remap
      else do
        store pgtab i (pa ||| perm ||| PTE_P)
        if a = last then pure 0 else mapLoop pgdir last perm n (a + pgsize) (pa + pgsize)

/-- `mappages`. -/
def mappages (pgdir : Page) (va size pa perm : Word) : Code Int :=
  mapLoop pgdir (PGROUNDDOWN (va + size - 1)) perm rounds (PGROUNDDOWN va) pa

/-- An entry of `kmap`. -/
structure Kmap where
  virt : Word
  physStart : Word
  physEnd : Word
  perm : Word

/-- `kmap`: I/O space, kernel text and read-only data, kernel data and memory, more devices. -/
def kmap (L : Layout) : List Kmap :=
  [⟨KERNBASE, 0, EXTMEM, PTE_W⟩, ⟨KERNBASE + EXTMEM, EXTMEM, addr L.data, 0⟩,
    ⟨addr L.data + KERNBASE, addr L.data, PHYSTOP, PTE_W⟩, ⟨DEVSPACE, DEVSPACE, 0, PTE_W⟩]

/-- The loop of `setupkvm`. -/
def setupLoop (pgdir : Page) : List Kmap → Code (Option Page)
  | [] => pure (some pgdir)
  | k :: ks => do
    if (← mappages pgdir k.virt (k.physEnd - k.physStart) k.physStart k.perm) < 0 then pure none
    else setupLoop pgdir ks

/-- `setupkvm`. -/
def setupkvm (L : Layout) : Code (Option Page) := do
  match ← kalloc .pgdir with
  | none => pure none
  | some pgdir => do
    memset pgdir 0
    if PHYSTOP + KERNBASE > DEVSPACE then fail .phystopTooHigh
    else setupLoop pgdir (kmap L)

/-- The loop of `deallocuvm`. -/
def deallocLoop (L : Layout) (pgdir : Page) (oldsz : Word) : Nat → Word → Code Unit
  | 0, _ => fail .endless
  | n + 1, a =>
    if a < oldsz then do
      match ← walkpgdir pgdir a false with
      | none => deallocLoop L pgdir oldsz n (a + BitVec.ofNat 32 (NPTENTRIES - 1) * pgsize + pgsize)
      | some (pgtab, i) => do
        let s ← state
        let pte := entry s.mem pgtab i
        if present pte then
          if PTE_ADDR pte = 0 then fail .kfree
          else do
            kfree L (frame pte)
            store pgtab i 0
            deallocLoop L pgdir oldsz n (a + pgsize)
        else deallocLoop L pgdir oldsz n (a + pgsize)
    else pure ()

/-- `deallocuvm`. -/
def deallocuvm (L : Layout) (pgdir : Page) (oldsz newsz : Word) : Code Word :=
  if newsz ≥ oldsz then pure oldsz
  else do
    deallocLoop L pgdir oldsz rounds (PGROUNDUP newsz)
    pure newsz

/-- The loop of `allocuvm`, which does not look at what `mappages` returns. -/
def allocLoop (L : Layout) (pgdir : Page) (oldsz newsz : Word) : Nat → Word → Code Word
  | 0, _ => fail .endless
  | n + 1, a =>
    if a < newsz then do
      match ← kalloc .mem with
      | none => do
        let _ ← deallocuvm L pgdir newsz oldsz
        pure 0
      | some mem => do
        memset mem 0
        let _ ← mappages pgdir a pgsize (addr mem) (PTE_W ||| PTE_U)
        allocLoop L pgdir oldsz newsz n (a + pgsize)
    else pure newsz

/-- `allocuvm`. -/
def allocuvm (L : Layout) (pgdir : Page) (oldsz newsz : Word) : Code Word :=
  if newsz ≥ KERNBASE then pure 0
  else if newsz < oldsz then pure oldsz
  else allocLoop L pgdir oldsz newsz rounds (PGROUNDUP oldsz)

/-- The indices of a page directory. -/
def indices : List (BitVec 10) := (List.range NPDENTRIES).map (BitVec.ofNat 10)

/-- The body of the loop of `freevm`. -/
def freeTable (L : Layout) (pgdir : Page) (i : BitVec 10) : Code Unit := do
  let s ← state
  let pde := entry s.mem pgdir i
  if present pde then kfree L (frame pde) else pure ()

/-- `freevm`. -/
def freevm (L : Layout) (pgdir : Page) : Code Unit := do
  let _ ← deallocuvm L pgdir KERNBASE 0
  forEach (freeTable L pgdir) indices
  kfree L pgdir

/-- The loop of `copyuvm`. -/
def copyLoop (L : Layout) (pgdir d : Page) (sz : Word) : Nat → Word → Code (Option Page)
  | 0, _ => fail .endless
  | n + 1, i =>
    if i < sz then do
      match ← walkpgdir pgdir i false with
      | none => fail .pteShouldExist
      | some (pgtab, j) => do
        let s ← state
        let pte := entry s.mem pgtab j
        if ¬ present pte then fail .pageNotPresent
        else do
          match ← kalloc .mem with
          | none => do
            freevm L d
            pure none
          | some mem => do
            memmove mem (frame pte)
            if (← mappages d i pgsize (addr mem) (PTE_FLAGS pte)) < 0 then do
              freevm L d
              pure none
            else copyLoop L pgdir d sz n (i + pgsize)
    else pure (some d)

/-- `copyuvm`. -/
def copyuvm (L : Layout) (pgdir : Page) (sz : Word) : Code (Option Page) := do
  match ← setupkvm L with
  | none => pure none
  | some d => copyLoop L pgdir d sz rounds 0

/-- `growproc` for a process with page directory `pgdir` and size `sz`: the result and the new `proc->sz`. -/
def growproc (L : Layout) (pgdir : Page) (sz n : Word) : Code (Int × Word) :=
  if n.toInt > 0 then do
    let new ← allocuvm L pgdir sz (sz + n)
    if new = 0 then pure (-1, sz) else pure (0, new)
  else if n.toInt < 0 then do
    let new ← deallocuvm L pgdir sz (sz + n)
    if new = 0 then pure (-1, sz) else pure (0, new)
  else pure (0, sz)

end Xv6.Uvm
