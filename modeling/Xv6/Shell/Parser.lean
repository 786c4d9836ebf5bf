import Xv6.Shell.Lexer

/-!
# The parser of the shell

`parsecmd` of `sh.c` and the routines it calls, each of which takes a pointer into the
line and leaves it where it stopped reading. `panic` ends the shell. The routines are
given a bound on the depth of their calls and loops; `none` says that the bound was
reached.
-/

namespace Xv6.Shell

def MAXARGS : Nat := 10

def O_RDONLY : Nat := 0

def O_WRONLY : Nat := 1

def O_CREATE : Nat := 0x200

/-- `struct cmd` and the structures it stands for. -/
inductive Cmd where
  | exec (argv : List Word)
  | redir (cmd : Cmd) (file : Word) (mode fd : Nat)
  | pipe (left right : Cmd)
  | list (left right : Cmd)
  | back (cmd : Cmd)
  deriving DecidableEq, Repr

/-- The messages of `panic`. -/
inductive Panic where
  /-- `missing file for redirection` -/
  | missingFile
  /-- `parseblock` -/
  | parseblock
  /-- `syntax - missing )` -/
  | missingParen
  /-- `syntax` -/
  | badToken
  /-- `too many args` -/
  | tooManyArgs
  deriving DecidableEq, Repr

/-- How a routine ends: with a panic, or with a value and the pointer. -/
abbrev Result (α : Type) := Option (Except Panic (α × List Byte))

/-- Go on where a routine stopped. -/
def Result.andThen {α β : Type} (r : Result α) (f : α → List Byte → Result β) : Result β :=
  match r with
  | none => none
  | some (.error why) => some (.error why)
  | some (.ok (a, s)) => f a s

def panic {α : Type} (why : Panic) : Result α := some (.error why)

def done {α : Type} (a : α) (s : List Byte) : Result α := some (.ok (a, s))

/-- The `switch` of `parseredirs`. -/
def redirFor (tok : Byte) (cmd : Cmd) (file : Word) : Cmd :=
  if tok = lt then .redir cmd file O_RDONLY 0
  else if tok = gt then .redir cmd file (O_WRONLY ||| O_CREATE) 1
  else if tok = plus then .redir cmd file (O_WRONLY ||| O_CREATE) 1
  else cmd

def parseredirs : Nat → Cmd → List Byte → Result Cmd
  | 0, _, _ => none
  | depth + 1, cmd, s =>
    let (more, s) := peek s [lt, gt]
    if more then
      let op := gettoken s
      let file := gettoken op.ps
      if file.ret ≠ letterA then panic .missingFile
      else parseredirs depth (redirFor op.ret cmd ⟨file.q, file.eq⟩) file.ps
    else done cmd s

/-- A store to `cmd->argv[argc]` of the `execcmd` that `parseexec` is still filling; redirections may stand around it
already. -/
def Cmd.pushArg : Cmd → Word → Cmd
  | exec argv, w => exec (argv ++ [w])
  | redir cmd file mode fd, w => redir (cmd.pushArg w) file mode fd
  | other, _ => other

/-- The loop of `parseexec`. -/
def parseargs : Nat → Nat → Cmd → List Byte → Result Cmd
  | 0, _, _, _ => none
  | depth + 1, argc, ret, s =>
    let (stop, s) := peek s [bar, rpar, amp, semi]
    if stop then done ret s
    else
      let tok := gettoken s
      if tok.ret = 0 then done ret tok.ps
      else if tok.ret ≠ letterA then panic .badToken
      else if MAXARGS ≤ argc + 1 then panic .tooManyArgs
      else (parseredirs depth (ret.pushArg ⟨tok.q, tok.eq⟩) tok.ps).andThen fun ret s => parseargs depth (argc + 1) ret s

/-- The loop of `parseline`. -/
def parsebacks : Nat → Cmd → List Byte → Result Cmd
  | 0, _, _ => none
  | depth + 1, cmd, s =>
    let (more, s) := peek s [amp]
    if more then parsebacks depth (.back cmd) (gettoken s).ps else done cmd s

mutual

def parseline : Nat → List Byte → Result Cmd
  | 0, _ => none
  | depth + 1, s =>
    (parsepipe depth s).andThen fun cmd s =>
      (parsebacks depth cmd s).andThen fun cmd s =>
        let (more, s) := peek s [semi]
        if more then (parseline depth (gettoken s).ps).andThen fun right s => done (.list cmd right) s
        else done cmd s

def parsepipe : Nat → List Byte → Result Cmd
  | 0, _ => none
  | depth + 1, s =>
    (parseexec depth s).andThen fun cmd s =>
      let (more, s) := peek s [bar]
      if more then (parsepipe depth (gettoken s).ps).andThen fun right s => done (.pipe cmd right) s
      else done cmd s

def parseexec : Nat → List Byte → Result Cmd
  | 0, _ => none
  | depth + 1, s =>
    let (paren, s) := peek s [lpar]
    if paren then parseblock depth s
    else (parseredirs depth (.exec []) s).andThen fun ret s => parseargs depth 0 ret s

def parseblock : Nat → List Byte → Result Cmd
  | 0, _ => none
  | depth + 1, s =>
    let (opens, s) := peek s [lpar]
    if opens = false then panic .parseblock
    else
      (parseline depth (gettoken s).ps).andThen fun cmd s =>
        let (closes, s) := peek s [rpar]
        if closes = false then panic .missingParen
        else parseredirs depth cmd (gettoken s).ps

end

/-- The string at the start of a buffer. -/
def cstring (buf : List Byte) : List Byte := buf.takeWhile fun c => decide (c ≠ 0)

/-- The place in the string `s` that a pointer into it points to. -/
def place (s p : List Byte) : Nat := s.length - p.length

/-- `*p = 0`, for a pointer `p` into the string `s` at the start of the buffer. -/
def storeNul (s p buf : List Byte) : List Byte := buf.set (place s p) 0

/-- `nulterminate`: the buffer in which every word of the command is a string. -/
def nulterminate (s : List Byte) : Cmd → List Byte → List Byte
  | .exec argv, buf => argv.foldl (fun buf w => storeNul s w.eq buf) buf
  | .redir cmd file _ _, buf => storeNul s file.eq (nulterminate s cmd buf)
  | .pipe left right, buf => nulterminate s right (nulterminate s left buf)
  | .list left right, buf => nulterminate s right (nulterminate s left buf)
  | .back cmd, buf => nulterminate s cmd buf

/-- `parsecmd`: the command, and the buffer it points into. -/
def parsecmd (buf : List Byte) : Option (Except Panic (Cmd × List Byte)) :=
  let s := cstring buf
  match parseline (4 * s.length + 4) s with
  | none => none
  | some (.error why) => some (.error why)
  | some (.ok (cmd, rest)) =>
    if (peek rest []).2 ≠ [] then some (.error .badToken) else some (.ok (cmd, nulterminate s cmd buf))

/-! ## Results -/

section
variable {α β : Type} {P : α → List Byte → Prop} {Q : β → List Byte → Prop}

/-- The routine ends within the bound, and if it does not panic then with `P`. -/
def Ends (P : α → List Byte → Prop) : Result α → Prop
  | none => False
  | some (.error _) => True
  | some (.ok (a, s)) => P a s

theorem Ends.mono {P' : α → List Byte → Prop} {r : Result α} (ends : Ends P r) (weaker : ∀ a s, P a s → P' a s) :
    Ends P' r := by
  match r, ends with
  | some (.error _), _ => trivial
  | some (.ok (a, s)), holds => exact weaker a s holds

theorem Ends.andThen {r : Result α} {f : α → List Byte → Result β} (ends : Ends P r)
    (next : ∀ a s, P a s → Ends Q (f a s)) : Ends Q (r.andThen f) := by
  match r, ends with
  | some (.error _), _ => trivial
  | some (.ok (a, s)), holds => exact next a s holds

theorem ends_done {a : α} {s : List Byte} (holds : P a s) : Ends P (done a s) := holds

theorem ends_panic {why : Panic} : Ends P (panic why) := trivial

@[simp] theorem done_andThen (a : α) (s : List Byte) (f : α → List Byte → Result β) : (done a s).andThen f = f a s := rfl

end

end Xv6.Shell
