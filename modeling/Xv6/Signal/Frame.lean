import Mathlib
import Xv6.Lib.Writes

/-!
# Trap frames

`struct trapframe` of `x86.h`, its copy by `copytf`, and its layout in memory: a
frame can also lie in the user memory of a process, when the pointer to it is 0.
-/

namespace Xv6.Signal

open Xv6.Lib

/-- A user virtual address. -/
abbrev Addr := BitVec 32

/-- The user memory of a process. -/
abbrev Mem := Addr → BitVec 8

/-- The registers as `alltraps` pushes them. -/
structure Trapframe where
  edi : BitVec 32
  esi : BitVec 32
  ebp : BitVec 32
  oesp : BitVec 32
  ebx : BitVec 32
  edx : BitVec 32
  ecx : BitVec 32
  eax : BitVec 32
  gs : BitVec 16
  padding1 : BitVec 16
  fs : BitVec 16
  padding2 : BitVec 16
  es : BitVec 16
  padding3 : BitVec 16
  ds : BitVec 16
  padding4 : BitVec 16
  trapno : BitVec 32
  err : BitVec 32
  eip : BitVec 32
  cs : BitVec 16
  padding5 : BitVec 16
  eflags : BitVec 32
  esp : BitVec 32
  ss : BitVec 16
  padding6 : BitVec 16
  deriving DecidableEq, Inhabited

/-- `copytf(tf, copyaddr)`: what `copyaddr` points to afterwards. -/
def copytf (tf copyaddr : Trapframe) : Trapframe :=
  { copyaddr with
    edi := tf.edi, esi := tf.esi, ebp := tf.ebp, oesp := tf.oesp, ebx := tf.ebx, edx := tf.edx, ecx := tf.ecx,
    eax := tf.eax, gs := tf.gs, padding1 := tf.padding1, fs := tf.fs, padding2 := tf.padding2, es := tf.es,
    padding3 := tf.padding3, ds := tf.ds, padding4 := tf.padding4, trapno := tf.trapno, err := tf.err,
    eip := tf.eip, cs := tf.cs, padding5 := tf.padding5, eflags := tf.eflags, esp := tf.esp, ss := tf.ss,
    padding6 := tf.padding6 }

/-- Every field is copied. -/
@[simp] theorem copytf_eq (tf copyaddr : Trapframe) : copytf tf copyaddr = tf := rfl

/-! ## Frames in memory -/

def load16 (m : Mem) (a : Addr) : BitVec 16 := m (a + 1) ++ m a

def load32 (m : Mem) (a : Addr) : BitVec 32 := m (a + 3) ++ m (a + 2) ++ m (a + 1) ++ m a

def bytes16 (w : BitVec 16) : List (BitVec 8) := [w.extractLsb' 0 8, w.extractLsb' 8 8]

def bytes32 (w : BitVec 32) : List (BitVec 8) :=
  [w.extractLsb' 0 8, w.extractLsb' 8 8, w.extractLsb' 16 8, w.extractLsb' 24 8]

/-- The byte stores that put `bs` at address `a`. -/
def storesAt (a : Addr) (bs : List (BitVec 8)) : List (Addr × BitVec 8) :=
  bs.zipIdx.map fun p => (a + BitVec.ofNat 32 p.2, p.1)

/-- The 76 bytes of a frame. -/
def Trapframe.bytes (f : Trapframe) : List (BitVec 8) :=
  bytes32 f.edi ++ bytes32 f.esi ++ bytes32 f.ebp ++ bytes32 f.oesp ++ bytes32 f.ebx ++ bytes32 f.edx ++
  bytes32 f.ecx ++ bytes32 f.eax ++ bytes16 f.gs ++ bytes16 f.padding1 ++ bytes16 f.fs ++ bytes16 f.padding2 ++
  bytes16 f.es ++ bytes16 f.padding3 ++ bytes16 f.ds ++ bytes16 f.padding4 ++ bytes32 f.trapno ++ bytes32 f.err ++
  bytes32 f.eip ++ bytes16 f.cs ++ bytes16 f.padding5 ++ bytes32 f.eflags ++ bytes32 f.esp ++ bytes16 f.ss ++
  bytes16 f.padding6

/-- The frame at address `a`. -/
def Trapframe.load (m : Mem) (a : Addr) : Trapframe where
  edi := load32 m a
  esi := load32 m (a + 4)
  ebp := load32 m (a + 8)
  oesp := load32 m (a + 12)
  ebx := load32 m (a + 16)
  edx := load32 m (a + 20)
  ecx := load32 m (a + 24)
  eax := load32 m (a + 28)
  gs := load16 m (a + 32)
  padding1 := load16 m (a + 34)
  fs := load16 m (a + 36)
  padding2 := load16 m (a + 38)
  es := load16 m (a + 40)
  padding3 := load16 m (a + 42)
  ds := load16 m (a + 44)
  padding4 := load16 m (a + 46)
  trapno := load32 m (a + 48)
  err := load32 m (a + 52)
  eip := load32 m (a + 56)
  cs := load16 m (a + 60)
  padding5 := load16 m (a + 62)
  eflags := load32 m (a + 64)
  esp := load32 m (a + 68)
  ss := load16 m (a + 72)
  padding6 := load16 m (a + 74)

/-- The frame returns to user mode: the privilege level in `cs` and `ss` is `DPL_USER`. -/
def Trapframe.User (f : Trapframe) : Prop := f.cs &&& 3 = 3 ∧ f.ss &&& 3 = 3

end Xv6.Signal
