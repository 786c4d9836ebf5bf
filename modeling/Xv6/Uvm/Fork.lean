import Xv6.Sched.Table
import Xv6.Uvm.Copy

/-!
# A `fork` that fails

`fork` takes a slot of the process table, a page for the kernel stack and, in `copyuvm`, the pages of the child's address space;
it counts the references to the files and the working directory last. When it fails it has the slot and the kernel stack to give
back. The trap frame, the name and the counters of the child are not part of this model, nor is what `allocproc` writes on the
kernel stack.
-/

namespace Xv6.Uvm

open Xv6.Lib Xv6.Lib.Eff Xv6.Vm
open Xv6.Sched (ProcState Slot)

/-! ## The code -/

/-- `struct proc`: the slot, the memory and the files. -/
structure Proc where
  state : ProcState
  pid : Nat
  sz : Word
  pgdir : Option Page
  kstack : Option Page
  parent : Option Slot
  ofile : Fin NOFILE → Option (Fin NFILE)
  cwd : Fin NINODE

/-- The memory, the process table, and the reference counts of the tables of files and of inodes. -/
structure Kernel where
  vm : State
  proc : Slot → Proc
  nextpid : Nat
  file : Fin NFILE → Int
  inode : Fin NINODE → Int

inductive Stop where
  | vm (p : Panic)
  | filedup
  /-- there is no page directory to copy -/
  | noPgdir
  deriving DecidableEq, Repr

abbrev KernelCode := Eff Kernel Stop Event

/-- Code that works on the memory. -/
def onVm {α : Type} (c : Code α) : KernelCode α := fun k =>
  ((c k.vm).1.mapError Stop.vm, { k with vm := (c k.vm).2.1 }, (c k.vm).2.2)

def setProc (p : Slot) (f : Proc → Proc) : KernelCode Unit :=
  update fun k => { k with proc := Function.update k.proc p (f (k.proc p)) }

/-- `allocproc`. -/
def allocproc : KernelCode (Option Slot) := do
  let k ← state
  match (List.finRange NPROC).find? fun p => (k.proc p).state = .unused with
  | none => pure none
  | some p => do
    setProc p fun q => { q with state := .embryo, pid := k.nextpid }
    update fun k => { k with nextpid := k.nextpid + 1 }
    let kstack ← onVm (kalloc .kstack)
    setProc p fun q => { q with kstack := kstack }
    match kstack with
    | none => do
      setProc p fun q => { q with state := .unused }
      pure none
    | some _ => pure (some p)

/-- `filedup`. -/
def filedup (f : Fin NFILE) : KernelCode (Fin NFILE) := do
  let k ← state
  if k.file f < 1 then fail .filedup
  else do
    update fun k => { k with file := Function.update k.file f (k.file f + 1) }
    pure f

/-- `idup`. -/
def idup (ip : Fin NINODE) : KernelCode (Fin NINODE) := do
  update fun k => { k with inode := Function.update k.inode ip (k.inode ip + 1) }
  pure ip

/-- The body of the loop of `fork` over the descriptors. -/
def dupFd (me np : Slot) (fd : Fin NOFILE) : KernelCode Unit := do
  let k ← state
  match (k.proc me).ofile fd with
  | none => pure ()
  | some f => do
    let f ← filedup f
    setProc np fun q => { q with ofile := Function.update q.ofile fd (some f) }

/-- `fork`, called by the process in slot `me`. -/
def fork (L : Layout) (me : Slot) : KernelCode Int := do
  match ← allocproc with
  | none => pure (-1)
  | some np => do
    let k ← state
    match (k.proc me).pgdir with
    | none => fail .noPgdir
    | some pgdir => do
      let d ← onVm (copyuvm L pgdir (k.proc me).sz)
      setProc np fun q => { q with pgdir := d }
      match d with
      | none => do
        let k ← state
        match (k.proc np).kstack with
        | none => fail (.vm .kfree)
        | some kstack => do
          onVm (kfree L kstack)
          setProc np fun q => { q with kstack := none, state := .unused }
          pure (-1)
      | some _ => do
        setProc np fun q => { q with sz := (k.proc me).sz, parent := some me }
        forEach (dupFd me np) (List.finRange NOFILE)
        let cwd ← idup (k.proc me).cwd
        setProc np fun q => { q with cwd := cwd, state := .runnable }
        let k ← state
        pure (k.proc np).pid

/-! ## Running it -/

section
variable {L : Layout} {me np : Slot} {k k' : Kernel} {t : List Event}

theorem succeeds_onVm {α : Type} {c : Code α} {Q : α → State → List Event → Prop} (h : succeeds c Q k.vm) :
    succeeds (onVm c) (fun a k' t => ∃ s', Q a s' t ∧ k' = { k with vm := s' }) k := by
  obtain ⟨a, s', t, run, post⟩ := h.exists
  have run' : onVm c k = (.ok a, { k with vm := s' }, t) := by
    unfold onVm
    rw [run]
    rfl
  exact succeeds_of_run run' ⟨s', post, rfl⟩

/-- A process that calls `fork`: it is running, it has all its pages, and none of the pages in use is free. -/
structure Caller (L : Layout) (k : Kernel) (me : Slot) (d : Page) : Prop where
  running : (k.proc me).state = .running
  pgdir : (k.proc me).pgdir = some d
  below : (k.proc me).sz < KERNBASE
  mapped : ∀ j < pagesUpTo (k.proc me).sz, present (pteAt k.vm.mem d j) = true
  free : FreeList L k.vm.freelist
  inUse : InUse k.vm d
  files : ∀ fd f, (k.proc me).ofile fd = some f → 1 ≤ k.file f

/-- All slots are as before, in use or not, and so are the reference counts. -/
structure Undone (k k' : Kernel) : Prop where
  slots : ∀ p, (k'.proc p).state = (k.proc p).state
  files : k'.file = k.file
  inodes : k'.inode = k.inode

/-- The slot that `allocproc` found has its kernel stack and is an embryo. -/
structure Embryo (k : Kernel) (np : Slot) (kstack : Page) (k' : Kernel) : Prop where
  unused : (k.proc np).state = .unused
  free : k.vm.freelist = kstack :: k'.vm.freelist
  mem : k'.vm.mem = k.vm.mem
  kstack : (k'.proc np).kstack = some kstack
  others : ∀ p, p ≠ np → k'.proc p = k.proc p
  files : k'.file = k.file
  inodes : k'.inode = k.inode

theorem Undone.refl (k : Kernel) : Undone k k := ⟨fun _ => rfl, rfl, rfl⟩

/-- The slot taken is given back. -/
theorem undone_of_slot (unused : (k.proc np).state = .unused) (unused' : (k'.proc np).state = .unused)
    (others : ∀ p, p ≠ np → k'.proc p = k.proc p) (files : k'.file = k.file) (inodes : k'.inode = k.inode) : Undone k k' := by
  refine ⟨fun p => ?_, files, inodes⟩
  by_cases here : p = np
  · rw [here, unused, unused']
  · rw [others p here]

theorem allocproc_spec (k : Kernel) : succeeds allocproc
    (fun r k' t => (r = none ∧ k'.vm.freelist = k.vm.freelist ∧ Undone k k' ∧ Fine t) ∨
      ∃ np kstack, r = some np ∧ Embryo k np kstack k' ∧ t = [.kalloc .kstack (some kstack)]) k := by
  unfold allocproc
  refine succeeds_state_bind ?_
  split
  · exact succeeds_pure (.inl ⟨rfl, rfl, .refl k, by simp [Fine]⟩)
  · rename_i np found
    have unused : (k.proc np).state = .unused := by simpa using List.find?_some found
    unfold setProc
    refine succeeds_update_bind (succeeds_update_bind (succeeds_then (succeeds_onVm (kalloc_spec .kstack _)) ?_))
    rintro (_ | kstack) _ _ ⟨s', ⟨mem, rfl, taken, refused, -⟩, rfl⟩
    · refine succeeds_update_bind (succeeds_update_bind (succeeds_pure (.inl ⟨rfl, refused rfl, ?_, by simp [Fine]⟩)))
      exact undone_of_slot unused (by simp) (fun p other => by simp [other]) rfl rfl
    · refine succeeds_update_bind (succeeds_pure (.inr ⟨np, kstack, rfl, ?_, rfl⟩))
      exact ⟨unused, taken kstack rfl, mem, by simp, fun p other => by simp [other], rfl, rfl⟩

/-- The loop over the descriptors, for a process whose files are counted. -/
theorem dupAll_spec (other : me ≠ np) (files : ∀ fd f, (k.proc me).ofile fd = some f → 1 ≤ k.file f) (fds : List (Fin NOFILE)) :
    succeeds (forEach (dupFd me np) fds) (fun _ _ t => t = []) k := by
  induction fds generalizing k with
  | nil => exact succeeds_pure rfl
  | cons fd fds ih =>
    unfold forEach dupFd
    refine succeeds_then (Q := fun _ k' t => t = [] ∧ ∀ fd f, (k'.proc me).ofile fd = some f → 1 ≤ k'.file f) ?_ ?_
    · refine succeeds_state_bind ?_
      cases refers : (k.proc me).ofile fd with
      | none => exact succeeds_pure ⟨rfl, files⟩
      | some f =>
        have counted := files fd f refers
        unfold filedup setProc
        refine succeeds_then (Q := fun g k' t => t = [] ∧ k' = { k with file := Function.update k.file f (k.file f + 1) }) ?_ ?_
        · refine succeeds_state_bind ?_
          rw [if_neg (by omega)]
          exact succeeds_update_bind (succeeds_pure ⟨rfl, rfl⟩)
        · rintro g _ _ ⟨rfl, rfl⟩
          refine ⟨yields_update ⟨rfl, fun fd' f' refers' => ?_⟩⟩
          simp only [Function.update_of_ne other] at refers'
          have old := files fd' f' refers'
          by_cases same : f' = f
          · subst same
            simp only [Function.update_self]
            omega
          · simp only [Function.update_of_ne same]
            exact old
    · rintro _ k' _ ⟨rfl, files'⟩
      exact ih files'

/-- A `fork` that fails has given the slot back and counted nothing. The pages that were free are free again if no page
table was asked for in vain; otherwise one of them is lost. A `fork` that succeeds got every page table. -/
theorem fork_spec {d : Page} (caller : Caller L k me d) : succeeds (fork L me)
    (fun r k' t => (r ≠ -1 → Fine t) ∧ (r = -1 → Undone k k' ∧ (Fine t → k'.vm.freelist.Perm k.vm.freelist) ∧
      (¬ Fine t → ∃ p ∈ k.vm.freelist, p ∉ k'.vm.freelist))) k := by
  unfold fork
  refine succeeds_then (allocproc_spec k) ?_
  rintro r k1 t (⟨rfl, free, undone, fine⟩ | ⟨np, kstack, rfl, embryo, rfl⟩)
  · rw [← List.append_nil t] at fine
    exact succeeds_pure ⟨fun _ => fine, fun _ => ⟨undone, fun _ => by rw [free], fun failed => absurd fine failed⟩⟩
  · have other : me ≠ np := by
      rintro rfl
      have unused := embryo.unused
      rw [caller.running] at unused
      cases unused
    have free := caller.free
    rw [embryo.free] at free
    obtain ⟨fresh, nodup⟩ := List.nodup_cons.1 free.nodup
    have inUse : InUse k1.vm d := by
      intro i p held isFree
      rw [embryo.mem] at held
      exact caller.inUse i p held (by rw [embryo.free]; exact List.mem_cons_of_mem _ isFree)
    have mapped : ∀ j < pagesUpTo (k.proc me).sz, present (pteAt k1.vm.mem d j) = true := by
      rw [embryo.mem]
      exact caller.mapped
    refine succeeds_state_bind ?_
    rw [embryo.others me other, caller.pgdir]
    have copy := copyuvm_spec ⟨nodup, fun p member => free.valid p (List.mem_cons_of_mem _ member)⟩ inUse caller.below mapped
    refine succeeds_then (succeeds_onVm copy) ?_
    rintro r _ t ⟨s', ended, rfl⟩
    unfold setProc
    refine succeeds_update_bind ?_
    cases ended with
    | copied fine =>
      refine succeeds_update_bind (succeeds_then (dupAll_spec other ?_ _) ?_)
      · simp only [Function.update_of_ne other, embryo.others me other, embryo.files]
        exact caller.files
      · rintro _ k2 _ rfl
        unfold idup
        refine succeeds_then (succeeds_update_bind (succeeds_pure rfl) (R := fun _ _ t => t = [])) ?_
        rintro cwd k3 _ rfl
        refine succeeds_update_bind (succeeds_state_bind (succeeds_pure ⟨fun _ => ?_, by omega⟩))
        simpa [Fine] using fine
    | failed poor same lost less nodup' frame =>
      refine succeeds_state_bind ?_
      simp only [Function.update_self, embryo.kstack]
      refine succeeds_then (succeeds_onVm (kfree_spec (free.valid kstack List.mem_cons_self) _)) ?_
      rintro _ _ _ ⟨s'', ⟨-, free'', rfl⟩, rfl⟩
      have isFine : Fine ([.kalloc .kstack (some kstack)] ++ (t ++ ([.kfree kstack] ++ []))) ↔ Fine t := by simp [Fine]
      refine succeeds_update_bind (succeeds_pure ⟨(absurd rfl ·), fun _ => ⟨?_, fun fine => ?_, fun failed => ?_⟩⟩)
      · refine undone_of_slot embryo.unused (by simp) (fun p away => ?_) embryo.files embryo.inodes
        simp only [Function.update_of_ne away, embryo.others p away]
      · rw [embryo.free]
        show s''.freelist.Perm _
        rw [free'']
        exact (same (isFine.1 fine)).cons kstack
      · obtain ⟨p, wasFree, gone⟩ := lost fun fine => failed (isFine.2 fine)
        refine ⟨p, by rw [embryo.free]; exact List.mem_cons_of_mem _ wasFree, fun member => ?_⟩
        rw [free''] at member
        rcases List.mem_cons.1 member with rfl | still
        · exact fresh wasFree
        · exact gone still

/-- A `fork` that returns -1 leaves the free pages, the slots and the reference counts as they were exactly if no page table
was asked for in vain: `setupkvm` keeps the pages it has taken when it fails, and `copyuvm` the page that it could not map. -/
theorem failed_fork_leaks_nothing_iff {d : Page} (caller : Caller L k me d) : ∃ r k' t, fork L me k = (.ok r, k', t) ∧
    ((r = -1 → k'.vm.freelist.Perm k.vm.freelist ∧ Undone k k') ↔ Fine t) := by
  obtain ⟨r, k', t, run, done, post⟩ := (fork_spec caller).exists
  refine ⟨r, k', t, run, fun law => ?_, fun fine failed => ?_⟩
  · by_contra notFine
    have failed : r = -1 := by_contra fun other => notFine (done other)
    obtain ⟨p, wasFree, gone⟩ := (post failed).2.2 notFine
    exact gone ((law failed).1.mem_iff.2 wasFree)
  · obtain ⟨undone, same, -⟩ := post failed
    exact ⟨same fine, undone⟩

end

/-! A process of one page, in a kernel with one or two free pages. -/

def onePageKernel (free : List Page) : Kernel where
  vm := (allocuvm layout 0x200 0 4096 (blank (0x201 :: 0x202 :: free))).2.1
  proc p := if p = 0 then ⟨.running, 1, 4096, some 0x200, none, none, fun _ => none, 0⟩
    else ⟨.unused, 0, 0, none, none, none, fun _ => none, 0⟩
  nextpid := 2
  file _ := 0
  inode i := if i = 0 then 1 else 0

theorem onePageKernel_caller {free : List Page} (valid : FreeList layout (0x200 :: 0x201 :: 0x202 :: free))
    (returns : (allocuvm layout 0x200 0 4096 (blank (0x201 :: 0x202 :: free))).1 = .ok 4096)
    (fine : .kalloc .pgtab none ∉ (allocuvm layout 0x200 0 4096 (blank (0x201 :: 0x202 :: free))).2.2) :
    Caller layout (onePageKernel free) 0 0x200 := by
  obtain ⟨wf, sized⟩ := allocuvm_sized (blank_wf valid) returns fine
  have size : (4096 : Word) < KERNBASE := by decide
  exact ⟨rfl, rfl, size, fun j inside => (sized j (lt_of_lt_of_le inside (pagesUpTo_le size))).2 inside,
    ⟨wf.sound.nodup, fun p isFree => wf.valid p (.inl isFree)⟩, wf.sound.apart, fun fd f refers => by cases refers⟩

def oneFreeKernel : Kernel := onePageKernel [0x203]

def twoFreeKernel : Kernel := onePageKernel [0x203, 0x204]

/-- The page is for the kernel stack, and there is none for a page directory: the call fails and leaves nothing behind. -/
theorem failed_fork_leaks_nothing_iff_oneFree : Caller layout oneFreeKernel 0 0x200 ∧ oneFreeKernel.vm.freelist = [0x203] ∧
    ∃ k' t, fork layout 0 oneFreeKernel = (.ok (-1), k', t) ∧ Fine t ∧ k'.vm.freelist.Perm [0x203] ∧ Undone oneFreeKernel k' := by
  have caller : Caller layout oneFreeKernel 0 0x200 := onePageKernel_caller
    ⟨by decide +kernel, by simp [Layout.Valid, layout, PHYSPAGES]⟩ (by decide +kernel) (by decide +kernel)
  have free : oneFreeKernel.vm.freelist = [0x203] := by decide +kernel
  have returns : (fork layout 0 oneFreeKernel).1 = .ok (-1) := by decide +kernel
  have fine : .kalloc .pgtab none ∉ (fork layout 0 oneFreeKernel).2.2 := by decide +kernel
  obtain ⟨r, k', t, run, law⟩ := failed_fork_leaks_nothing_iff caller
  rw [run] at returns fine
  cases returns
  exact ⟨caller, free, k', t, run, fine, free ▸ law.2 fine rfl⟩

/-- The two pages are for the kernel stack and the page directory, and there is none for a page table: the page of the
directory is lost. -/
theorem fork_loses_pgdir : Caller layout twoFreeKernel 0 0x200 ∧ twoFreeKernel.vm.freelist = [0x203, 0x204] ∧
    ∃ k' t, fork layout 0 twoFreeKernel = (.ok (-1), k', t) ∧ k'.vm.freelist = [0x203] := by
  have returns : (fork layout 0 twoFreeKernel).1 = .ok (-1) := by decide +kernel
  have caller : Caller layout twoFreeKernel 0 0x200 := onePageKernel_caller
    ⟨by decide +kernel, by simp [Layout.Valid, layout, PHYSPAGES]⟩ (by decide +kernel) (by decide +kernel)
  exact ⟨caller, by decide +kernel, _, _, Prod.ext returns rfl, by decide +kernel⟩

end Xv6.Uvm
