import Xv6.Lib.Run
import Xv6.Signal.Frame

/-!
# System calls and signal delivery

The path of a system call through `alltraps`: `trap` builds the frame, `syscall`
executes the call and stores its result in `eax`, `handleSignals` redirects the
frame to a handler if a signal is pending, and `trapret` returns to user mode.
Processes live in the slots of the process table, whose signal fields survive
`exit`, `wait` and `fork`. User memory and user registers are chosen by the user
program; the privilege level of a frame is set by the hardware.
-/

namespace Xv6.Signal

open Xv6.Lib
open Function (update)

/-- The vector of `int $T_SYSCALL`. -/
def T_SYSCALL : BitVec 32 := 64

def SYS_sigreturn : BitVec 32 := 26

/-- Where a process is on the path of a system call. -/
inductive Phase where
  /-- the slot is free -/
  | unused
  /-- forked, about to return to user mode through `forkret` -/
  | born
  /-- in user mode; `tf` is the frame it returned with -/
  | user
  /-- in the kernel, `syscall` has returned and `handleSignals` comes next -/
  | called
  | zombie
  deriving DecidableEq, Repr

/-- The fields of `struct proc` that signals use, and the user memory. A page for `backuptf` is never
freed or shared, so the pointer and the page are one field, with `none` for the null pointer. -/
structure Proc where
  phase : Phase
  tf : Trapframe
  backuptf : Option Trapframe
  mem : Mem
  /-- the end of the user memory that is mapped -/
  sz : Nat
  /-- the pages with `PTE_U`; the page that `exec` leaves below the stack has it not -/
  pteU : BitVec 20 → Bool
  pending : BitVec 32
  insignal : BitVec 32
  signal_handlers : Nat → BitVec 32
  killed : Bool

/-! ## Delivery -/

/-- The loop of `getLowestSetBit`, for at most `fuel` rounds. -/
def lowestSetBitLoop : Nat → BitVec 32 → Nat → Nat
  | 0, _, bitNum => bitNum
  | fuel + 1, num, bitNum => if num &&& 1 = 0 then lowestSetBitLoop fuel (num.sshiftRight 1) (bitNum + 1) else bitNum

/-- The number of the lowest bit which is set. -/
def getLowestSetBit (num : BitVec 32) : Int :=
  if num = 0 then -1 else lowestSetBitLoop 32 num 0

/-- The code from `implicit_sigret` to `end_of_sigret`: `pushl %eax`, `movl $SYS_sigreturn, %eax`,
`int $T_SYSCALL`. -/
def implicitSigret : List (BitVec 8) := [0x50, 0xb8, 0x1a, 0, 0, 0, 0xcd, 0x40]

namespace Proc

/-- The test of `handleSignals`. -/
def Delivers (p : Proc) : Prop := p.tf.trapno = T_SYSCALL ∧ 0 < p.pending.toInt ∧ p.insignal = 0

instance (p : Proc) : Decidable p.Delivers :=
  inferInstanceAs (Decidable (p.tf.trapno = T_SYSCALL ∧ 0 < p.pending.toInt ∧ p.insignal = 0))

/-- Copy the trap frame to `backuptf`, allocated on the first delivery. When `kalloc` fails the pointer
stays 0 and the frame goes to user address 0. -/
def saveFrame (kalloc : Bool) (p : Proc) : Proc :=
  match p.backuptf with
  | some backup => { p with backuptf := some (copytf p.tf backup) }
  | none =>
    if kalloc then { p with backuptf := some (copytf p.tf default) }
    else { p with mem := applyWrites p.mem (storesAt 0 p.tf.bytes) }

/-- The stores of `copyout`, which stops without an error for the caller to see at a page without `PTE_U`. -/
def copyout (p : Proc) (va : Addr) (bs : List (BitVec 8)) : List (Addr × BitVec 8) :=
  (storesAt va bs).takeWhile fun w => p.pteU (w.1.extractLsb' 12 20)

/-- What a delivery stores on the user stack: the return code, the argument and the return address. -/
def stackStores (p : Proc) (signum : Nat) : List (Addr × BitVec 8) :=
  p.copyout (p.tf.esp - 20) implicitSigret ++ storesAt (p.tf.esp - 4) (bytes32 (BitVec.ofNat 32 signum)) ++
    storesAt (p.tf.esp - 8) (bytes32 (p.tf.esp - 20))

/-- All of it is for addresses in the memory of the process. -/
def StackMapped (p : Proc) : Prop := 20 ≤ p.tf.esp.toNat ∧ p.tf.esp.toNat ≤ p.sz

instance (p : Proc) : Decidable p.StackMapped :=
  inferInstanceAs (Decidable (20 ≤ p.tf.esp.toNat ∧ p.tf.esp.toNat ≤ p.sz))

/-- `handleSignals`, for a process whose stack is mapped. -/
def handleSignals (kalloc : Bool) (p : Proc) : Proc :=
  if p.Delivers then
    let signum := (getLowestSetBit p.pending).toNat
    let handler := p.signal_handlers signum
    let p := { p with pending := p.pending &&& ~~~ ((1 : BitVec 32) <<< signum), insignal := 1 }
    let p := p.saveFrame kalloc
    { p with
      mem := applyWrites p.mem (p.stackStores signum)
      tf := { p.tf with esp := p.tf.esp - 8, eip := handler } }
  else p

/-- `sys_sigreturn`: a null `backuptf` is read from user address 0. -/
def sysSigreturn (p : Proc) : Proc :=
  { p with tf := copytf (p.backuptf.getD (Trapframe.load p.mem 0)) p.tf, insignal := 0 }

/-- `proc->tf->eax = syscalls[num]()`. -/
def result (p : Proc) (r : BitVec 32) : Proc := { p with tf := { p.tf with eax := r }, phase := .called }

/-- `signal`, with the handler it returns. -/
def signal (p : Proc) (signum : Int) (handler : BitVec 32) : Proc × BitVec 32 :=
  if signum ≥ 32 ∨ signum < 0 then (p, -1)
  else ({ p with signal_handlers := update p.signal_handlers signum.toNat handler },
    p.signal_handlers signum.toNat)

/-- What `sigsend` does to the process it finds. -/
def sigsend (p : Proc) (signum : Int) : Proc :=
  if signum ≥ 31 ∨ signum < 0 then p else { p with pending := p.pending ||| ((1 : BitVec 32) <<< signum.toNat) }

end Proc

/-! ## System calls -/

/-- A system call, with what it depends on outside of this model: the slot that a process identifier
names, results, and the new contents of the caller's memory. A call that fails is `other`. -/
inductive Call (P : Type) where
  | sigreturn
  | signal (signum : Int) (handler : BitVec 32)
  | sigsend (q : P) (signum : Int)
  | kill (q : P)
  | fork (child : P) (pid : BitVec 32)
  | exit
  | wait (child : P) (pid : BitVec 32)
  | exec (mem : Mem) (sz : Nat) (pteU : BitVec 20 → Bool) (eip esp : BitVec 32)
  | other (r : BitVec 32) (mem : Mem) (sz : Nat) (pteU : BitVec 20 → Bool)

/-- The number in `eax` selects the call. -/
def Call.numbered {P : Type} : Call P → BitVec 32 → Bool
  | .sigreturn, n => n = SYS_sigreturn
  | .signal _ _, n => n = 22
  | .sigsend _ _, n => n = 25
  | .kill _, n => n = 6
  | .fork _ _, n => n = 1
  | .exit, n => n = 2
  | .wait _ _, n => n = 3 ∨ n = 24
  | .exec _ _ _ _ _, n => n = 7
  | .other _ _ _ _, n => n ≠ SYS_sigreturn

/-- The process table. -/
abbrev State (P : Type) := P → Proc

section
variable {P : Type} [DecidableEq P]

/-- The body of a system call of `p`, whose frame is in place. -/
def Call.body (s : State P) (p : P) : Call P → Option (State P)
  | .sigreturn => some (update s p ((s p).sysSigreturn.result 0))
  | .signal signum handler =>
    let (q, old) := (s p).signal signum handler
    some (update s p (q.result old))
  | .sigsend q signum =>
    let s := update s q ((s q).sigsend signum)
    some (update s p ((s p).result 0))
  | .kill q =>
    let s := update s q { s q with killed := true }
    some (update s p ((s p).result 0))
  | .fork child pid =>
    -- the child's pending, insignal, backuptf and handlers are those of the slot's last process
    if (s child).phase = .unused ∧ child ≠ p then
      let s := update s child { s child with
        phase := .born, tf := { (s p).tf with eax := 0 }, mem := (s p).mem, sz := (s p).sz, pteU := (s p).pteU }
      some (update s p ((s p).result pid))
    else none
  | .exit => some (update s p { s p with phase := .zombie })
  | .wait child pid =>
    if (s child).phase = .zombie ∧ child ≠ p then
      let s := update s child { s child with phase := .unused, killed := false }
      some (update s p ((s p).result pid))
    else none
  | .exec mem sz pteU eip esp =>
    some (update s p { (s p) with
      mem, sz, pteU, tf := { (s p).tf with eip, esp, eax := 0 }, phase := .called })
  | .other r mem sz pteU => some (update s p ({ s p with mem, sz, pteU }.result r))

/-- An event of process `p`. -/
inductive Event (P : Type) where
  /-- the user program computes: any bytes of its memory change -/
  | user (p : P) (mem : Mem)
  /-- `int $T_SYSCALL` with the registers `frame`, up to the return of `syscall` -/
  | trap (p : P) (frame : Trapframe) (call : Call P)
  /-- `handleSignals` and the return to user mode -/
  | ret (p : P) (kalloc : Bool)
  /-- a forked process returns to user mode -/
  | birth (p : P)
  /-- `handleSignals` stores outside of the memory of the process; anything may be overwritten -/
  | wild (p : P) (after : P → Proc)

/-- What the hardware allows a frame of `p` to be: the vector and the privilege level are not the
program's choice. -/
def Hardware (p : Proc) (frame : Trapframe) : Prop :=
  frame.trapno = T_SYSCALL ∧ frame.cs &&& 3 = p.tf.cs &&& 3 ∧ frame.ss &&& 3 = p.tf.ss &&& 3

instance (p : Proc) (frame : Trapframe) : Decidable (Hardware p frame) :=
  inferInstanceAs (Decidable (_ ∧ _ ∧ _))

def step (s : State P) : Event P → Option (State P)
  | .user p mem => if (s p).phase = .user then some (update s p { s p with mem }) else none
  | .trap p frame call =>
    if (s p).phase = .user ∧ Hardware (s p) frame ∧ call.numbered frame.eax then
      if (s p).killed then some (update s p { s p with phase := .zombie })
      else call.body (update s p { s p with tf := frame }) p
    else none
  | .ret p kalloc =>
    if (s p).phase = .called then
      if (s p).killed then some (update s p { s p with phase := .zombie })
      else if (s p).Delivers ∧ ¬ (s p).StackMapped then none
      else some (update s p { (s p).handleSignals kalloc with phase := .user })
    else none
  | .birth p => if (s p).phase = .born then some (update s p { s p with phase := .user }) else none
  | .wild p after =>
    if (s p).phase = .called ∧ ¬ (s p).killed ∧ (s p).Delivers ∧ ¬ (s p).StackMapped then some after else none

/-- A slot that was never used. -/
def Proc.zero : Proc := ⟨.unused, default, none, fun _ => 0, 0, fun _ => false, 0, 0, fun _ => 0, false⟩

/-- The frame that `userinit` sets up: `SEG_UCODE` and `SEG_UDATA` with `DPL_USER`. -/
def initFrame : Trapframe :=
  { (default : Trapframe) with
    cs := 0x23, ds := 0x2b, es := 0x2b, ss := 0x2b, eflags := 0x200, esp := 4096, eip := 0 }

/-- The table after `userinit` put the first process, with the memory `mem`, into slot `p`. -/
def userinit (p : P) (mem : Mem) : State P :=
  update (fun _ => Proc.zero) p
    { Proc.zero with phase := .born, tf := initFrame, mem, sz := 4096, pteU := fun v => v = 0 }

end

end Xv6.Signal
