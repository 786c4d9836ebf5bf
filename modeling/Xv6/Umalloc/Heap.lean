import Xv6.Lib.Run
import Xv6.Lib.Words
import Xv6.Lib.Spans

/-!
# The user-level allocator

`malloc` and `free` of `umalloc.c` on the memory of a process. A header is two words, the
link and the size in headers, and lies in the memory at the address of its block; pointers
and sizes wrap at `2 ^ 32`. The loops are given a number of rounds; `none` says that they
have not ended within it, or that `sbrk` was called more often than it was answered.

The events are the calls and the stores of the program that uses the allocator. It calls
`malloc` with less than `2 ^ 30` bytes, frees pointers that it was given and has not freed
yet, and stores into the bytes it asked for and outside of the heap.
-/

namespace Xv6.Umalloc
open Lib

/-- `p->s.ptr`. -/
def ptr (m : Bytes) (p : Nat) : Nat := word m p

/-- `p->s.size`. -/
def size (m : Bytes) (p : Nat) : Nat := word m (p + 4)

def setPtr (m : Bytes) (p v : Nat) : Bytes := setWord m p v

def setSize (m : Bytes) (p v : Nat) : Bytes := setWord m (p + 4) v

/-- `sizeof(Header)`. -/
def sizeofHeader : Nat := 8

/-- `p + n`, for a pointer to a header. -/
def plus (p n : Nat) : Nat := (p + n * sizeofHeader) % 2 ^ 32

/-- `(Header*)ap - 1`. -/
def header (ap : Nat) : Nat := if sizeofHeader ≤ ap then ap - sizeofHeader else ap + 2 ^ 32 - sizeofHeader

/-- The process's memory, the static `freep`, and what the calls so far have returned. -/
structure Heap where
  mem : Bytes
  freep : Nat
  /-- the memory that `sbrk` has returned -/
  regions : List Span
  /-- the pointers that `malloc` has returned and that are not freed, with the bytes asked for -/
  live : List (Nat × Nat)

/-- The condition on which the loop of `free` ends at `p`. -/
def Stops (m : Bytes) (bp p : Nat) : Prop :=
  (bp > p ∧ bp < ptr m p) ∨ (p ≥ ptr m p ∧ (bp > p ∨ bp < ptr m p))

instance (m : Bytes) (bp p : Nat) : Decidable (Stops m bp p) := inferInstanceAs (Decidable (_ ∨ _))

/-- The `for` of `free`. -/
def findPrev : Nat → Bytes → Nat → Nat → Option Nat
  | 0, _, _, _ => none
  | rounds + 1, m, bp, p => if Stops m bp p then some p else findPrev rounds m bp (ptr m p)

/-- Link the block `x` to the block that `y` points to, or make them one if `x` ends where that one begins. -/
def join (m : Bytes) (x : Nat) (y : Bytes → Nat) : Bytes :=
  if plus x (size m x) = y m then
    let m := setSize m x (size m x + size m (y m))
    setPtr m x (ptr m (y m))
  else setPtr m x (y m)

def free (rounds ap : Nat) (h : Heap) : Option Heap :=
  let bp := header ap
  match findPrev rounds h.mem bp h.freep with
  | none => none
  | some p =>
    let m := join h.mem bp fun m => ptr m p
    let m := join m p fun _ => bp
    some { h with mem := m, freep := p }

/-- What `sbrk(n)` may return: `n` bytes above `base` and above all it has returned before. -/
def Fresh (base : Nat) (h : Heap) (n p : Nat) : Prop :=
  base + sizeofHeader ≤ p ∧ p + n < 2 ^ 32 ∧ ∀ r ∈ h.regions, r.hi ≤ p

instance (base : Nat) (h : Heap) (n p : Nat) : Decidable (Fresh base h n p) := inferInstanceAs (Decidable (_ ∧ _ ∧ _))

/-- An answer of `sbrk`, where `none` is -1. -/
abbrev Answer := Option Nat

def Answer.Allowed (base : Nat) (h : Heap) (n : Nat) : Answer → Prop
  | none => True
  | some p => Fresh base h n p

instance (base : Nat) (h : Heap) (n : Nat) : (a : Answer) → Decidable (a.Allowed base h n)
  | none => isTrue trivial
  | some p => inferInstanceAs (Decidable (Fresh base h n p))

/-- `sbrk(n)` with the next answer. -/
def sbrk (base n : Nat) (h : Heap) : List Answer → Option (Answer × Heap × List Answer)
  | [] => none
  | answer :: answers =>
    if answer.Allowed base h n then
      match answer with
      | none => some (none, h, answers)
      | some p => some (some p, { h with regions := ⟨p, p + n⟩ :: h.regions }, answers)
    else none

/-- The units that `morecore` asks for. -/
def atLeast (nu : Nat) : Nat := if nu < 4096 then 4096 else nu

def morecore (base rounds nu : Nat) (h : Heap) (answers : List Answer) : Option (Nat × Heap × List Answer) :=
  match sbrk base (atLeast nu * sizeofHeader % 2 ^ 32) h answers with
  | none => none
  | some (none, h, answers) => some (0, h, answers)
  | some (some hp, h, answers) =>
    (free rounds (plus hp 1) { h with mem := setSize h.mem hp (atLeast nu) }).map fun h => (h.freep, h, answers)

/-- The block `p` after `prevp` is large enough: unlink it, or cut the new block from its end. -/
def take (nunits prevp p : Nat) (h : Heap) : Nat × Heap :=
  if size h.mem p = nunits then
    (plus p 1, { h with mem := setPtr h.mem prevp (ptr h.mem p), freep := prevp })
  else
    let m := setSize h.mem p (size h.mem p - nunits)
    let p := plus p (size m p)
    (plus p 1, { h with mem := setSize m p nunits, freep := prevp })

/-- The `for` of `malloc`. -/
def search (base : Nat) : Nat → Nat → Nat → Nat → Heap → List Answer → Option (Nat × Heap × List Answer)
  | 0, _, _, _, _, _ => none
  | rounds + 1, nunits, prevp, p, h, answers =>
    if size h.mem p ≥ nunits then
      let (r, h) := take nunits prevp p h
      some (r, h, answers)
    else if p = h.freep then
      match morecore base rounds nunits h answers with
      | none => none
      | some (p, h, answers) =>
        if p = 0 then some (0, h, answers) else search base rounds nunits p (ptr h.mem p) h answers
    else search base rounds nunits p (ptr h.mem p) h answers

/-- The header units for a number of bytes. -/
def units (nbytes : Nat) : Nat := (nbytes + sizeofHeader - 1) % 2 ^ 32 / sizeofHeader + 1

/-- `malloc` when it is called for the first time: the free list is `base` alone. -/
def initialise (base : Nat) (h : Heap) : Heap :=
  if h.freep = 0 then { h with mem := setSize (setPtr h.mem base base) base 0, freep := base } else h

def malloc (base rounds nbytes : Nat) (h : Heap) (answers : List Answer) : Option (Nat × Heap × List Answer) :=
  let h := initialise base h
  let prevp := h.freep
  search base rounds (units nbytes) prevp (ptr h.mem prevp) h answers

/-! ## The program -/

inductive Event where
  /-- a call of `malloc`, with the answers of the calls of `sbrk` in it -/
  | malloc (rounds nbytes : Nat) (answers : List Answer)
  | free (rounds ap : Nat)
  | store (a : Nat) (b : BitVec 8)

/-- The byte is one that the program may store to. -/
def Heap.Writable (base : Nat) (h : Heap) (a : Nat) : Prop :=
  (∃ l ∈ h.live, l.1 ≤ a ∧ a < l.1 + l.2) ∨
    (¬ (base ≤ a ∧ a < base + sizeofHeader) ∧ ∀ r ∈ h.regions, ¬ (r.lo ≤ a ∧ a < r.hi))

instance (base : Nat) (h : Heap) (a : Nat) : Decidable (h.Writable base a) := inferInstanceAs (Decidable (_ ∨ _))

def step (base : Nat) (h : Heap) : Event → Option Heap
  | .malloc rounds nbytes answers =>
    if nbytes < 2 ^ 30 then
      match Umalloc.malloc base rounds nbytes h answers with
      | some (r, h, []) => some (if r = 0 then h else { h with live := (r, nbytes) :: h.live })
      | _ => none
    else none
  | .free rounds ap =>
    if ap ∈ h.live.map Prod.fst then
      match Umalloc.free rounds ap h with
      | none => none
      | some h => some { h with live := h.live.filter fun l => l.1 ≠ ap }
    else none
  | .store a b => if h.Writable base a then some { h with mem := fun x => if x = a then b else h.mem x } else none

/-- A program that has not called the allocator yet. -/
def start (mem : Bytes) : Heap := ⟨mem, 0, [], []⟩

end Xv6.Umalloc
