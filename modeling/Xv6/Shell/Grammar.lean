import Xv6.Shell.Parser

/-!
# The grammar of command lines

    line  ::= pipe '&'* [';' line]
    pipe  ::= exec ['|' pipe]
    exec  ::= '(' line ')' redir*  |  (word | redir)*     with fewer than MAXARGS words
    redir ::= ('<' | '>' | '>>') word

A derivation is a tree of the types `Line`, `Pipe` and `Exec`; it has the tokens it
derives and the command it stands for. A list of tokens has at most one derivation, and
`parsecmd` finds it: each routine reads the tokens of its tree when what follows can
follow such a tree, and whatever a routine returns is the command of a tree that it read.
-/

namespace Xv6.Shell

inductive RedirOp where
  | input
  | output
  | append
  deriving DecidableEq, Repr

structure Redir where
  op : RedirOp
  file : Word
  deriving DecidableEq, Repr

/-- A part of a simple command. -/
inductive Item where
  | word (w : Word)
  | redir (r : Redir)
  deriving DecidableEq, Repr

def Item.word? : Item → Option Word
  | word w => some w
  | redir _ => none

def Item.redir? : Item → Option Redir
  | word _ => none
  | redir r => some r

/-- The words of a simple command. -/
def words (items : List Item) : List Word := items.filterMap Item.word?

/-- The redirections of a simple command. -/
def redirs (items : List Item) : List Redir := items.filterMap Item.redir?

mutual

inductive Line where
  | last (p : Pipe) (amps : Nat)
  | seq (p : Pipe) (amps : Nat) (rest : Line)

inductive Pipe where
  | last (e : Exec)
  | seq (e : Exec) (rest : Pipe)

inductive Exec where
  | block (l : Line) (rs : List Redir)
  | simple (items : List Item) (few : (words items).length < MAXARGS)

end

/-! ## The tokens of a derivation -/

def RedirOp.token : RedirOp → Token
  | input => .lt
  | output => .gt
  | append => .append

theorem RedirOp.token_inj {o o' : RedirOp} (same : o.token = o'.token) : o = o' := by
  cases o <;> cases o' <;> first | rfl | cases same

def Redir.toks (r : Redir) : List Token := [r.op.token, .word r.file]

def Item.toks : Item → List Token
  | word w => [.word w]
  | redir r => r.toks

mutual

def Line.toks : Line → List Token
  | .last p amps => p.toks ++ List.replicate amps .amp
  | .seq p amps rest => p.toks ++ List.replicate amps .amp ++ .semi :: rest.toks

def Pipe.toks : Pipe → List Token
  | .last e => e.toks
  | .seq e rest => e.toks ++ .bar :: rest.toks

def Exec.toks : Exec → List Token
  | .block l rs => .lpar :: l.toks ++ .rpar :: rs.flatMap Redir.toks
  | .simple items _ => items.flatMap Item.toks

end

/-! ## The command of a derivation -/

/-- The redirection around a command, with the mode and the descriptor of its operator. -/
def Redir.around (cmd : Cmd) (r : Redir) : Cmd :=
  match r.op with
  | .input => .redir cmd r.file O_RDONLY 0
  | .output | .append => .redir cmd r.file (O_WRONLY ||| O_CREATE) 1

mutual

def Line.cmd : Line → Cmd
  | .last p amps => Cmd.back^[amps] p.cmd
  | .seq p amps rest => .list (Cmd.back^[amps] p.cmd) rest.cmd

def Pipe.cmd : Pipe → Cmd
  | .last e => e.cmd
  | .seq e rest => .pipe e.cmd rest.cmd

/-- The redirections stand around the command in source order, the first one inside. -/
def Exec.cmd : Exec → Cmd
  | .block l rs => rs.foldl Redir.around l.cmd
  | .simple items _ => (redirs items).foldl Redir.around (.exec (words items))

end

/-! ## What can follow -/

/-- The list of tokens is empty or begins with one of `ts`. -/
def StartsWith (ts k : List Token) : Prop := ∀ t ∈ k.head?, t ∈ ts

/-- What can follow a line, a pipe and an exec. -/
abbrev AfterLine : List Token → Prop := StartsWith [.rpar]

abbrev AfterPipe : List Token → Prop := StartsWith [.rpar, .amp, .semi]

abbrev AfterExec : List Token → Prop := StartsWith [.rpar, .amp, .semi, .bar]

/-- No redirection comes next. -/
def NoRedir (k : List Token) : Prop := ∀ t ∈ k.head?, t ≠ .lt ∧ t ≠ .gt ∧ t ≠ .append

section
variable {k k' ts ts' : List Token} {t : Token}

theorem startsWith_nil : StartsWith ts [] := by simp [StartsWith]

theorem startsWith_cons : StartsWith ts (t :: k) ↔ t ∈ ts := by simp [StartsWith]

theorem StartsWith.mono (starts : StartsWith ts k) (sub : ∀ t ∈ ts, t ∈ ts') : StartsWith ts' k :=
  fun t head => sub t (starts t head)

theorem AfterLine.pipe (after : AfterLine k) : AfterPipe k := after.mono (by simp)

theorem AfterPipe.exec (after : AfterPipe k) : AfterExec k := after.mono (by simp)

theorem AfterExec.noRedir (after : AfterExec k) : NoRedir k := fun t head => by
  have := after t head
  simp at this
  rcases this with rfl | rfl | rfl | rfl <;> simp

theorem noRedir_cons : NoRedir (t :: k) ↔ t ≠ .lt ∧ t ≠ .gt ∧ t ≠ .append := by simp [NoRedir]

end

/-! ## There is at most one derivation -/

section
variable {k k' : List Token}

/-- A list of phrases and what follows it, where no phrase can follow and a phrase is read off its tokens. -/
theorem phrases_unique {α : Type} {toks : α → List Token} {A : List Token → Prop}
    (ends : ∀ a k, ¬ A (toks a ++ k)) (reads : ∀ {a a' k k'}, toks a ++ k = toks a' ++ k' → a = a' ∧ k = k')
    {l l' : List α} (after : A k) (after' : A k') (same : l.flatMap toks ++ k = l'.flatMap toks ++ k') :
    l = l' ∧ k = k' := by
  induction l generalizing l' with
  | nil =>
    cases l' with
    | nil => exact ⟨rfl, same⟩
    | cons a l' =>
      rw [List.flatMap_nil, List.nil_append, List.flatMap_cons, List.append_assoc] at same
      exact absurd (same ▸ after) (ends a _)
  | cons a l ih =>
    rw [List.flatMap_cons, List.append_assoc] at same
    cases l' with
    | nil =>
      rw [List.flatMap_nil, List.nil_append] at same
      exact absurd (same ▸ after') (ends a _)
    | cons a' l' =>
      rw [List.flatMap_cons, List.append_assoc] at same
      obtain ⟨rfl, rest⟩ := reads same
      obtain ⟨rfl, rfl⟩ := ih rest
      exact ⟨rfl, rfl⟩

theorem Redir.toks_inj {r r' : Redir} (same : r.toks ++ k = r'.toks ++ k') : r = r' ∧ k = k' := by
  simp only [Redir.toks, List.cons_append, List.nil_append, List.cons.injEq, Token.word.injEq] at same
  obtain ⟨ops, files, rest⟩ := same
  cases r
  cases r'
  cases RedirOp.token_inj ops
  cases files
  exact ⟨rfl, rest⟩

theorem redirs_unique {rs rs' : List Redir} (after : NoRedir k) (after' : NoRedir k')
    (same : rs.flatMap Redir.toks ++ k = rs'.flatMap Redir.toks ++ k') : rs = rs' ∧ k = k' := by
  refine phrases_unique (fun r k => ?_) Redir.toks_inj after after' same
  rw [Redir.toks, List.cons_append, noRedir_cons]
  cases r.op <;> simp [RedirOp.token]

theorem items_unique {items items' : List Item} (after : AfterExec k) (after' : AfterExec k')
    (same : items.flatMap Item.toks ++ k = items'.flatMap Item.toks ++ k') : items = items' ∧ k = k' := by
  refine phrases_unique (fun i k => ?_) (fun {i i' k k'} same => ?_) after after' same
  · cases i with
    | word w => simp [Item.toks, startsWith_cons]
    | redir r =>
      rw [Item.toks, Redir.toks, List.cons_append, AfterExec, startsWith_cons]
      cases r.op <;> simp [RedirOp.token]
  · cases i with
    | word w =>
      cases i' with
      | word w' => simpa [Item.toks] using same
      | redir r' => cases op : r'.op <;> simp [Item.toks, Redir.toks, op, RedirOp.token] at same
    | redir r =>
      cases i' with
      | word w' => cases op : r.op <;> simp [Item.toks, Redir.toks, op, RedirOp.token] at same
      | redir r' =>
        obtain ⟨rfl, rest⟩ := Redir.toks_inj same
        exact ⟨rfl, rest⟩

theorem amps_unique {n n' : Nat} (after : k.head? ≠ some .amp) (after' : k'.head? ≠ some .amp)
    (same : List.replicate n Token.amp ++ k = List.replicate n' .amp ++ k') : n = n' ∧ k = k' := by
  have toks (n : Nat) : (List.replicate n ()).flatMap (fun _ => [Token.amp]) = List.replicate n .amp := by
    rw [← List.map_eq_flatMap, List.map_replicate]
  rw [← toks, ← toks] at same
  obtain ⟨counts, rest⟩ := phrases_unique (A := fun k => k.head? ≠ some .amp) (by simp) (by simp) after after' same
  exact ⟨by simpa using congrArg List.length counts, rest⟩

theorem AfterPipe.amps {n : Nat} (after : AfterLine k) : AfterPipe (List.replicate n .amp ++ k) := by
  cases n with
  | zero => exact after.pipe
  | succ n => simp [List.replicate_succ, startsWith_cons]

theorem AfterPipe.amps_semi (n : Nat) (k : List Token) : AfterPipe (List.replicate n .amp ++ .semi :: k) := by
  cases n with
  | zero => simp [startsWith_cons]
  | succ n => simp [List.replicate_succ, startsWith_cons]

theorem AfterLine.ne_amp (after : AfterLine k) : k.head? ≠ some .amp := fun head => by
  have := after _ head
  simp at this

/-- A simple command does not begin with a parenthesis. -/
theorem items_head (items : List Item) (after : AfterExec k) : (items.flatMap Item.toks ++ k).head? ≠ some .lpar := by
  cases items with
  | nil =>
    intro head
    have := after _ head
    simp at this
  | cons i items =>
    cases i with
    | word w => simp [Item.toks]
    | redir r => cases op : r.op <;> simp [Item.toks, Redir.toks, op, RedirOp.token]

mutual

/-- **A line has one derivation**, also when it is followed by something that can follow it. -/
theorem Line.unique {k k' : List Token} (after : AfterLine k) (after' : AfterLine k') :
    (l l' : Line) → l.toks ++ k = l'.toks ++ k' → l = l' ∧ k = k'
  | .last p n, .last p' n', same => by
    simp only [Line.toks, List.append_assoc] at same
    obtain ⟨rfl, rest⟩ := Pipe.unique (.amps after) (.amps after') p p' same
    obtain ⟨rfl, rfl⟩ := amps_unique after.ne_amp after'.ne_amp rest
    exact ⟨rfl, rfl⟩
  | .last p n, .seq p' n' l', same => by
    simp only [Line.toks, List.append_assoc, List.cons_append] at same
    obtain ⟨_, rest⟩ := Pipe.unique (.amps after) (.amps_semi _ _) p p' same
    obtain ⟨_, rfl⟩ := amps_unique after.ne_amp (by simp) rest
    simp [startsWith_cons] at after
  | .seq p n l, .last p' n', same => by
    simp only [Line.toks, List.append_assoc, List.cons_append] at same
    obtain ⟨_, rest⟩ := Pipe.unique (.amps_semi _ _) (.amps after') p p' same
    obtain ⟨_, rfl⟩ := amps_unique (by simp) after'.ne_amp rest
    simp [startsWith_cons] at after'
  | .seq p n l, .seq p' n' l', same => by
    simp only [Line.toks, List.append_assoc, List.cons_append] at same
    obtain ⟨rfl, rest⟩ := Pipe.unique (.amps_semi _ _) (.amps_semi _ _) p p' same
    obtain ⟨rfl, more⟩ := amps_unique (by simp) (by simp) rest
    obtain ⟨rfl, rfl⟩ := Line.unique after after' l l' (List.cons.inj more).2
    exact ⟨rfl, rfl⟩

theorem Pipe.unique {k k' : List Token} (after : AfterPipe k) (after' : AfterPipe k') :
    (p p' : Pipe) → p.toks ++ k = p'.toks ++ k' → p = p' ∧ k = k'
  | .last e, .last e', same => by
    simp only [Pipe.toks] at same
    obtain ⟨rfl, rfl⟩ := Exec.unique after.exec after'.exec e e' same
    exact ⟨rfl, rfl⟩
  | .last e, .seq e' p', same => by
    simp only [Pipe.toks, List.append_assoc, List.cons_append] at same
    obtain ⟨_, rfl⟩ := Exec.unique after.exec (by simp [startsWith_cons]) e e' same
    simp [startsWith_cons] at after
  | .seq e p, .last e', same => by
    simp only [Pipe.toks, List.append_assoc, List.cons_append] at same
    obtain ⟨_, rfl⟩ := Exec.unique (by simp [startsWith_cons]) after'.exec e e' same
    simp [startsWith_cons] at after'
  | .seq e p, .seq e' p', same => by
    simp only [Pipe.toks, List.append_assoc, List.cons_append] at same
    obtain ⟨rfl, rest⟩ := Exec.unique (by simp [startsWith_cons]) (by simp [startsWith_cons]) e e' same
    obtain ⟨rfl, rfl⟩ := Pipe.unique after after' p p' (List.cons.inj rest).2
    exact ⟨rfl, rfl⟩

theorem Exec.unique {k k' : List Token} (after : AfterExec k) (after' : AfterExec k') :
    (e e' : Exec) → e.toks ++ k = e'.toks ++ k' → e = e' ∧ k = k'
  | .block l rs, .block l' rs', same => by
    simp only [Exec.toks, List.append_assoc, List.cons_append, List.cons.injEq, true_and] at same
    obtain ⟨rfl, rest⟩ := Line.unique (by simp [startsWith_cons]) (by simp [startsWith_cons]) l l' same
    obtain ⟨rfl, rfl⟩ := redirs_unique after.noRedir after'.noRedir (List.cons.inj rest).2
    exact ⟨rfl, rfl⟩
  | .block l rs, .simple items few, same => by
    refine absurd (congrArg List.head? same).symm ?_
    simpa only [Exec.toks, List.cons_append, List.head?_cons] using items_head items after'
  | .simple items few, .block l rs, same => by
    refine absurd (congrArg List.head? same) ?_
    simpa only [Exec.toks, List.cons_append, List.head?_cons] using items_head items after
  | .simple items few, .simple items' few', same => by
    simp only [Exec.toks] at same
    obtain ⟨rfl, rfl⟩ := items_unique after after' same
    exact ⟨rfl, rfl⟩

end

end

end Xv6.Shell
