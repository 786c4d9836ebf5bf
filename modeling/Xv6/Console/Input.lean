import Xv6.Lib.Run

/-!
# The console input

`console.c`: the interrupt handler `consoleintr` puts characters into the ring
`input.buf`, edits the current line and releases it; `consoleread` copies released bytes
to a process. The indices `r`, `w` and `e` are counters of 32 bits that wrap around, and
both functions hold `input.lock`, which `sleep` gives up: what the lock protects is one
step of the system. Any number of processes may be in `consoleread`, since it unlocks
the inode of the console.

The log records what the calls take from the ring and return.
-/

namespace Xv6.Console

abbrev Byte := BitVec 8

def INPUT_BUF : Nat := 128

/-- `C(x)`: Control-x. -/
def C (x : Byte) : Byte := x - 0x40

/-- `C('D')`, the end of file. -/
def EOF : Byte := C 0x44

/-- `'\n'`. -/
def newline : Byte := 0x0a

/-- `'\r'`. -/
def carriageReturn : Byte := 0x0d

/-- `'\x7f'`. -/
def DEL : Byte := 0x7f

/-- `input` without its lock; the cells of `buf` are used modulo `INPUT_BUF`. -/
structure Input where
  buf : Nat → Byte
  r : BitVec 32
  w : BitVec 32
  e : BitVec 32

/-- `i % INPUT_BUF`. -/
def cell (i : BitVec 32) : Nat := i.toNat % INPUT_BUF

namespace Input

/-- The loop of `C('U')`. Each round brings `e` nearer to `w`, so it is over after `e - w` rounds. -/
def killLine : Nat → Input → Input
  | 0, input => input
  | rounds + 1, input =>
    if input.e ≠ input.w ∧ input.buf (cell (input.e - 1)) ≠ newline then
      killLine rounds { input with e := input.e - 1 }
    else input

/-- The body of the loop of `consoleintr` for the character `c`, and whether it calls `wakeup(&input.r)`. The process
listing of `C('P')` does not touch the input. -/
def key (input : Input) (c : Byte) : Input × Bool :=
  if c = C 0x50 then (input, false)
  else if c = C 0x55 then (input.killLine (input.e - input.w).toNat, false)
  else if c = C 0x48 ∨ c = DEL then
    if input.e ≠ input.w then ({ input with e := input.e - 1 }, false) else (input, false)
  else if c ≠ 0 ∧ (input.e - input.r).toNat < INPUT_BUF then
    let c := if c = carriageReturn then newline else c
    let input := { input with buf := Function.update input.buf (cell input.e) c, e := input.e + 1 }
    if c = newline ∨ c = EOF ∨ input.e = input.r + BitVec.ofNat 32 INPUT_BUF then
      ({ input with w := input.e }, true)
    else (input, false)
  else (input, false)

end Input

/-- Where a process is with respect to `consoleread`: not in it, or in the `sleep` of a call for `target` bytes that has
`n` to go and has stored `dst`. -/
inductive Reader where
  | idle
  | asleep (target n : BitVec 32) (dst : List Byte)
  /-- woken up, about to test `input.r == input.w` again -/
  | awake (target n : BitVec 32) (dst : List Byte)
  deriving DecidableEq, Repr

def Reader.wake : Reader → Reader
  | asleep target n dst => awake target n dst
  | other => other

/-- What the calls do, as the log records it. -/
inductive Obs (P : Type) where
  | called (p : P) (n : BitVec 32)
  /-- the call of `p` advanced `input.r` over the byte -/
  | took (p : P) (c : Byte)
  /-- the call of `p` for `n` bytes stored `dst` and returned `value` -/
  | returned (p : P) (n : BitVec 32) (dst : List Byte) (value : BitVec 32)
  deriving DecidableEq, Repr

structure State (P : Type) where
  input : Input
  reader : P → Reader
  killed : P → Bool
  log : List (Obs P)

/-- The console gets characters; a process calls `consoleread`, runs again after a wakeup, is woken up by something
else, or is killed. -/
inductive Event (P : Type) where
  | consoleintr (cs : List Byte)
  | consoleread (p : P) (n : BitVec 32)
  | resume (p : P)
  | wake (p : P)
  | kill (p : P)
  deriving DecidableEq, Repr

section
variable {P : Type}

namespace State

def observe (s : State P) (o : Obs P) : State P := { s with log := s.log ++ [o] }

/-- One character. -/
def key (s : State P) (c : Byte) : State P :=
  { s with
    input := (s.input.key c).1
    reader := if (s.input.key c).2 then fun p => (s.reader p).wake else s.reader }

/-- `consoleintr`, when `getc` gives the characters `cs`. -/
def consoleintr (s : State P) (cs : List Byte) : State P := cs.foldl key s

variable [DecidableEq P]

def setReader (s : State P) (p : P) (reader : Reader) : State P :=
  { s with reader := Function.update s.reader p reader }

/-- The loop of `consoleread`, for a call for `target` bytes that has `n` to go. Each round but the last takes a byte
that is there, so `w - r` rounds and one more are enough; `none` says that the rounds were not. -/
def readLoop (p : P) (target : BitVec 32) : Nat → State P → BitVec 32 → List Byte → Option (State P)
  | 0, _, _, _ => none
  | rounds + 1, s, n, dst =>
    if 0 < n.toInt then
      if s.input.r = s.input.w then
        if s.killed p then some (s.observe (.returned p target dst (-1)))
        else some (s.setReader p (.asleep target n dst))
      else
        let c := s.input.buf (cell s.input.r)
        let next := { s with input := { s.input with r := s.input.r + 1 } }
        if c = EOF then
          if n.toNat < target.toNat then
            let back := { next with input := { next.input with r := next.input.r - 1 } }
            some (back.observe (.returned p target dst (target - n)))
          else some ((next.observe (.took p c)).observe (.returned p target dst (target - n)))
        else
          let next := next.observe (.took p c)
          if c = newline then some (next.observe (.returned p target (dst ++ [c]) (target - (n - 1))))
          else readLoop p target rounds next (n - 1) (dst ++ [c])
    else some (s.observe (.returned p target dst (target - n)))

/-- The loop, entered by a process that is not asleep. -/
def run (s : State P) (p : P) (target n : BitVec 32) (dst : List Byte) : Option (State P) :=
  readLoop p target ((s.input.w - s.input.r).toNat + 1) (s.setReader p .idle) n dst

end State

variable [DecidableEq P]

/-- A step of the system. -/
def step (s : State P) : Event P → Option (State P)
  | .consoleintr cs => some (s.consoleintr cs)
  | .consoleread p n => match s.reader p with
    | .idle => (s.observe (.called p n)).run p n n []
    | _ => none
  | .resume p => match s.reader p with
    | .awake target n dst => s.run p target n dst
    | _ => none
  | .wake p => some (s.setReader p (s.reader p).wake)
  | .kill p => some { s with killed := Function.update s.killed p true, reader := Function.update s.reader p (s.reader p).wake }

/-- The console with nothing typed; the indices may be anywhere. -/
def initial (buf : Nat → Byte) (i : BitVec 32) : State P where
  input := ⟨buf, i, i, i⟩
  reader _ := .idle
  killed _ := false
  log := []

end

end Xv6.Console
