import Xv6.Console.Input
import Xv6.Lib.History

/-!
# The reference line editor

What the console is for: a line that is being edited, a stream of released bytes, and
reads that take from the stream. There is no ring and there are no indices; `INPUT_BUF`
is the number of bytes that may be waiting. The reads are those of `consoleread`: a read
ends when its count is filled, after a newline, or at an end of file, which it takes only
if it has no byte.

The second half says what a log of the editor can look like.
-/

namespace Xv6.Console

open Xv6.Lib

/-- Where a process is with respect to a read of `target` bytes that has `got` some. -/
inductive Reading where
  | idle
  | asleep (target : BitVec 32) (got : List Byte)
  | awake (target : BitVec 32) (got : List Byte)
  deriving DecidableEq, Repr

def Reading.wake : Reading → Reading
  | asleep target got => awake target got
  | other => other

structure Editor (P : Type) where
  /-- every byte released so far -/
  released : List Byte
  /-- how many of them the reads have taken -/
  taken : Nat
  /-- the line that is being edited -/
  line : List Byte
  reader : P → Reading
  log : List (Obs P)

section
variable {P : Type}

namespace Editor

/-- The bytes that wait for a read. -/
def unread (a : Editor P) : List Byte := a.released.drop a.taken

def observe (a : Editor P) (o : Obs P) : Editor P := { a with log := a.log ++ [o] }

/-- Release the line. -/
def release (a : Editor P) : Editor P :=
  { a with released := a.released ++ a.line, line := [], reader := fun p => (a.reader p).wake }

/-- One character. -/
def key (a : Editor P) (c : Byte) : Editor P :=
  if c = C 0x50 then a
  else if c = C 0x55 then { a with line := [] }
  else if c = C 0x48 ∨ c = DEL then { a with line := a.line.dropLast }
  else if c ≠ 0 ∧ a.unread.length + a.line.length < INPUT_BUF then
    let c := if c = carriageReturn then newline else c
    let a := { a with line := a.line ++ [c] }
    if c = newline ∨ c = EOF ∨ a.unread.length + a.line.length = INPUT_BUF then a.release else a
  else a

/-- A read takes the next byte. -/
def take (a : Editor P) (p : P) (c : Byte) : Editor P := { a with taken := a.taken + 1 }.observe (.took p c)

/-- A read returns what it got. -/
def finish (a : Editor P) (p : P) (target : BitVec 32) (got : List Byte) : Editor P :=
  a.observe (.returned p target got (BitVec.ofNat 32 got.length))

variable [DecidableEq P]

def setReader (a : Editor P) (p : P) (reader : Reading) : Editor P :=
  { a with reader := Function.update a.reader p reader }

/-- A read that has `got` some bytes, when `unread` are waiting. -/
def read (p : P) (target : BitVec 32) : List Byte → Editor P → List Byte → Editor P
  | [], a, got => if (got.length : Int) < target.toInt then a.setReader p (.asleep target got) else a.finish p target got
  | c :: rest, a, got =>
    if (got.length : Int) < target.toInt then
      if c = EOF then
        if got = [] then (a.take p c).finish p target [] else a.finish p target got
      else if c = newline then (a.take p c).finish p target (got ++ [c])
      else read p target rest (a.take p c) (got ++ [c])
    else a.finish p target got

def run (a : Editor P) (p : P) (target : BitVec 32) (got : List Byte) : Editor P :=
  read p target a.unread (a.setReader p .idle) got

/-- The events of the console, for the editor; nobody is killed. -/
def step (a : Editor P) : Event P → Option (Editor P)
  | .consoleintr cs => some (cs.foldl key a)
  | .consoleread p n => match a.reader p with
    | .idle => some ((a.observe (.called p n)).run p n [])
    | _ => none
  | .resume p => match a.reader p with
    | .awake target got => some (a.run p target got)
    | _ => none
  | .wake p => some (a.setReader p (a.reader p).wake)
  | .kill _ => none

end Editor

/-- The editor with nothing typed. -/
def blank : Editor P := ⟨[], 0, [], fun _ => .idle, []⟩

/-! ## The log of the editor -/

/-- The byte that the observation takes. -/
def Obs.byte? : Obs P → Option Byte
  | .took _ c => some c
  | _ => none

/-- A read takes an end of file. -/
def Obs.takesEOF : Obs P → Bool
  | .took _ c => c = EOF
  | _ => false

/-- A read of some bytes returns none. -/
def Obs.returnsZero : Obs P → Bool
  | .returned _ n dst _ => 0 < n.toInt ∧ dst = []
  | _ => false

variable [DecidableEq P]

/-- What the process does. -/
def Obs.about (p : P) : Obs P → Bool
  | .called q _ | .took q _ | .returned q _ _ _ => q = p

/-- The process is in a read, and has taken exactly these bytes since it called. -/
def Took (log : List (Obs P)) (p : P) (target : BitVec 32) (bytes : List Byte) : Prop :=
  ∃ past, log.filter (Obs.about p) = past ++ .called p target :: bytes.map (.took p)

/-- **How a read ends**, after the log `pre`: it returns the number of bytes it stored. A read of no bytes stores none.
Any other read has either taken an end of file and nothing else, and stores nothing, or it has taken what it stores:
at least one byte and no more than it asked for, no end of file, a newline at most at the end; and then its count is
filled, or the last byte is a newline, or the next byte of the stream is an end of file, which it leaves. -/
def Ended (released : List Byte) (pre : List (Obs P)) (o : Obs P) : Prop := ∀ p n dst value, o = .returned p n dst value →
  value = BitVec.ofNat 32 dst.length ∧
  (n.toInt ≤ 0 → Took pre p n [] ∧ dst = []) ∧
  (0 < n.toInt → Took pre p n [EOF] ∧ dst = [] ∨
    Took pre p n dst ∧ dst ≠ [] ∧ EOF ∉ dst ∧ newline ∉ dst.dropLast ∧ (dst.length : Int) ≤ n.toInt ∧
      ((dst.length : Int) = n.toInt ∨ dst.getLast? = some newline ∨
        released[(pre.filterMap Obs.byte?).length]? = some EOF))

/-- What holds of the editor at any time, inside a read too. -/
structure Books (a : Editor P) : Prop where
  bound : a.taken ≤ a.released.length
  /-- the reads take the stream byte by byte -/
  stream : a.log.filterMap Obs.byte? = a.released.take a.taken
  /-- a read that waits has all it took, and may get more -/
  waiting : ∀ p target got, a.reader p = .asleep target got ∨ a.reader p = .awake target got →
    Took a.log p target got ∧ (got.length : Int) < target.toInt ∧ EOF ∉ got ∧ newline ∉ got
  ended : AtEach (Ended a.released) a.log

/-- What holds of the editor between the steps: every end of file that was taken has made a read return 0. -/
structure Account (a : Editor P) : Prop extends Books a where
  zeros : a.log.countP Obs.takesEOF = a.log.countP Obs.returnsZero

end

section
open Editor

variable {P : Type} {a : Editor P} {p : P} {target : BitVec 32} {got rest : List Byte} {c : Byte}

theorem drop_add_one {l rest : List Byte} {k : Nat} {c : Byte} (next : l.drop k = c :: rest) :
    l[k]? = some c ∧ l.drop (k + 1) = rest := by
  have head : (l.drop k).head? = some c := by rw [next]; rfl
  have tail : (l.drop k).tail = rest := by rw [next]; rfl
  rw [List.head?_drop] at head
  rw [List.tail_drop] at tail
  exact ⟨head, tail⟩

theorem unread_take (next : a.unread = c :: rest) : (a.take p c).unread = rest := (drop_add_one next).2

variable [DecidableEq P]

/-- The log of one process does not see what another one does. -/
theorem took_concat_ne {log : List (Obs P)} {q : P} {o : Obs P} (other : o.about q = false) :
    Took (log ++ [o]) q target got ↔ Took log q target got := by
  rw [Took, Took, List.filter_append, List.filter_cons_of_neg (by simp [other]), List.filter_nil, List.append_nil]

theorem Took.concat {log : List (Obs P)} (took : Took log p target got) (c : Byte) :
    Took (log ++ [.took p c]) p target (got ++ [c]) := by
  obtain ⟨past, split⟩ := took
  refine ⟨past, ?_⟩
  rw [List.filter_append, split, List.filter_cons_of_pos (by simp [Obs.about])]
  simp

theorem took_called (log : List (Obs P)) (p : P) (n : BitVec 32) : Took (log ++ [.called p n]) p n [] := by
  refine ⟨log.filter (Obs.about p), ?_⟩
  rw [List.filter_append, List.filter_cons_of_pos (by simp [Obs.about])]
  simp

/-- What a process that is not waiting adds to the log. -/
theorem Books.observe (books : Books a) (idle : a.reader p = .idle) {o : Obs P} (own : ∀ q, q ≠ p → o.about q = false)
    (nothing : o.byte? = none) (ended : Ended a.released a.log o) : Books (a.observe o) where
  bound := books.bound
  stream := by
    simp only [Editor.observe, List.filterMap_append, List.filterMap_cons, nothing, List.filterMap_nil, List.append_nil]
    exact books.stream
  waiting q target got waits := by
    have ne : q ≠ p := by
      rintro rfl
      rcases waits with waits | waits <;> cases idle.symm.trans waits
    obtain ⟨took, more⟩ := books.waiting q target got waits
    exact ⟨(took_concat_ne (own q ne)).2 took, more⟩
  ended := books.ended.concat ended

theorem Books.take (books : Books a) (idle : a.reader p = .idle) (next : a.unread = c :: rest) : Books (a.take p c) where
  bound := by
    have inside := List.getElem?_eq_some_iff.1 (drop_add_one next).1
    exact inside.1
  stream := by
    simp only [Editor.take, Editor.observe, List.filterMap_append, List.filterMap_cons, Obs.byte?, List.filterMap_nil,
      books.stream, List.take_add_one, (drop_add_one next).1, Option.toList_some]
  waiting q target got waits := by
    have ne : q ≠ p := by
      rintro rfl
      rcases waits with waits | waits <;> cases idle.symm.trans waits
    obtain ⟨took, more⟩ := books.waiting q target got waits
    exact ⟨(took_concat_ne (by simp [Obs.about, ne.symm])).2 took, more⟩
  ended := books.ended.concat fun _ _ _ _ same => by cases same

/-- A read that comes to sleep. -/
theorem Books.sleep (books : Books a) (took : Took a.log p target got) (more : (got.length : Int) < target.toInt)
    (noEOF : EOF ∉ got) (noNewline : newline ∉ got) : Books (a.setReader p (.asleep target got)) where
  bound := books.bound
  stream := books.stream
  waiting q target' got' waits := by
    by_cases this : q = p
    · subst this
      simp only [Editor.setReader, Function.update_self, Reading.asleep.injEq, reduceCtorEq, or_false] at waits
      obtain ⟨rfl, rfl⟩ := waits
      exact ⟨took, more, noEOF, noNewline⟩
    · simp only [Editor.setReader, Function.update_of_ne this] at waits
      exact books.waiting q target' got' waits
  ended := books.ended

/-- A return that takes nothing more: the count is filled, or an end of file is left to the next read. -/
theorem Account.finish (account : Account a) (idle : a.reader p = .idle) (took : Took a.log p target got)
    (size : (got.length : Int) ≤ max target.toInt 0) (noEOF : EOF ∉ got) (noNewline : newline ∉ got)
    (filled : target.toInt ≤ got.length ∨ got ≠ [] ∧ a.released[a.taken]? = some EOF) : Account (a.finish p target got) := by
  have empty (none : target.toInt ≤ 0) : got = [] := List.eq_nil_of_length_eq_zero (by omega)
  have some_ (pos : 0 < target.toInt) : got ≠ [] := by
    rintro rfl
    rcases filled with filled | ⟨ne, _⟩
    · simp at filled
      omega
    · exact ne rfl
  refine ⟨account.toBooks.observe idle (fun q ne => by simp [Obs.about, ne.symm]) rfl ?_, ?_⟩
  · intro p' n dst value same
    cases same
    refine ⟨rfl, fun none => ⟨empty none ▸ took, empty none⟩, fun pos => .inr ⟨took, some_ pos, noEOF,
      fun inner => noNewline (List.mem_of_mem_dropLast inner), by omega, ?_⟩⟩
    rcases filled with filled | ⟨_, next⟩
    · exact .inl (by omega)
    · refine .inr (.inr ?_)
      rwa [account.stream, List.length_take, Nat.min_eq_left account.bound]
  · have notZero : ¬ (0 < target.toInt ∧ got = []) := fun zero => some_ zero.1 zero.2
    simp only [Editor.finish, Editor.observe, List.countP_append, account.zeros]
    simp [Obs.takesEOF, Obs.returnsZero, notZero]

/-- **A read** takes from the stream and ends as it should, or sleeps. -/
theorem Account.read {unread : List Byte} (account : Account a) (idle : a.reader p = .idle) (waits : a.unread = unread)
    (took : Took a.log p target got) (size : (got.length : Int) ≤ max target.toInt 0) (noEOF : EOF ∉ got)
    (noNewline : newline ∉ got) : Account (Editor.read p target unread a got) := by
  induction unread generalizing a got with
  | nil =>
    simp only [Editor.read]
    split_ifs with more
    · exact ⟨account.toBooks.sleep took more noEOF noNewline, account.zeros⟩
    · exact account.finish idle took size noEOF noNewline (.inl (by omega))
  | cons c rest ih =>
    have next : a.released[a.taken]? = some c := (drop_add_one waits).1
    have taking := account.toBooks.take idle waits
    simp only [Editor.read]
    split_ifs with more isEOF empty isNewline
    · -- an end of file for a read that has nothing
      subst isEOF empty
      refine ⟨taking.observe idle (fun q ne => by simp [Obs.about, ne.symm]) rfl ?_, ?_⟩
      · intro p' n dst value same
        cases same
        refine ⟨rfl, fun none => ?_, fun _ => .inl ⟨took.concat EOF, rfl⟩⟩
        simp at more
        omega
      · have pos : 0 < target.toInt := by simpa using more
        simp only [Editor.finish, Editor.take, Editor.observe, List.countP_append, account.zeros]
        simp [Obs.takesEOF, Obs.returnsZero, pos]
    · subst isEOF
      exact account.finish idle took size noEOF noNewline (.inr ⟨empty, next⟩)
    · -- a newline
      have ne : EOF ≠ c := fun same => isEOF same.symm
      refine ⟨taking.observe idle (fun q ne => by simp [Obs.about, ne.symm]) rfl ?_, ?_⟩
      · intro p' n dst value same
        cases same
        refine ⟨rfl, fun none => ?_, fun pos => .inr ⟨took.concat c, by simp, by simp [noEOF, ne], by simpa using noNewline,
          by simp; omega, .inr (.inl (by simp [isNewline]))⟩⟩
        omega
      · simp only [Editor.finish, Editor.take, Editor.observe, List.countP_append, account.zeros]
        simp [Obs.takesEOF, Obs.returnsZero, isEOF]
    · have ne : EOF ≠ c := fun same => isEOF same.symm
      have ne' : newline ≠ c := fun same => isNewline same.symm
      refine ih ⟨taking, ?_⟩ idle (unread_take waits) (took.concat c) (by simp; omega) (by simp [noEOF, ne])
        (by simp [noNewline, ne'])
      simp only [Editor.take, Editor.observe, List.countP_append, account.zeros]
      simp [Obs.takesEOF, Obs.returnsZero, isEOF]
    · exact account.finish idle took size noEOF noNewline (.inl (by omega))

theorem Reading.wake_waiting {reading : Reading} :
    (reading.wake = .asleep target got ∨ reading.wake = .awake target got) →
      reading = .asleep target got ∨ reading = .awake target got := by
  cases reading <;> simp [Reading.wake]

section
variable (account : Account a)
include account

/-- More is released, and readers are woken up. -/
theorem Account.release : Account a.release where
  bound := by
    have := account.bound
    simp only [Editor.release, List.length_append]
    omega
  stream := by
    simp only [Editor.release, List.take_append_of_le_length account.bound]
    exact account.stream
  waiting q target got waits := account.waiting q target got (Reading.wake_waiting waits)
  ended := account.ended.mono fun pre o ended p n dst value same => by
    obtain ⟨result, none, some_⟩ := ended p n dst value same
    refine ⟨result, none, fun pos => (some_ pos).imp id ?_⟩
    rintro ⟨took, more, noEOF, inner, size, filled⟩
    refine ⟨took, more, noEOF, inner, size, filled.imp id (.imp id fun next => ?_)⟩
    rw [Editor.release, List.getElem?_append_left (List.getElem?_eq_some_iff.1 next).1]
    exact next
  zeros := account.zeros

/-- Editing changes nothing that the reads see. -/
theorem Account.edit (line : List Byte) : Account { a with line := line } :=
  ⟨⟨account.bound, account.stream, account.waiting, account.ended⟩, account.zeros⟩

theorem Account.key (c : Byte) : Account (a.key c) := by
  have accept (d : Byte) (full : Prop) [Decidable full] :
      Account (if full then { a with line := a.line ++ [d] }.release else { a with line := a.line ++ [d] }) := by
    split_ifs
    · exact (account.edit _).release
    · exact account.edit _
  unfold Editor.key
  split_ifs
  · exact account
  · exact account.edit _
  · exact account.edit _
  · exact accept _ _
  · exact accept _ _
  · exact account

theorem Account.setReader {reading : Reading}
    (same : ∀ target got, reading = .asleep target got ∨ reading = .awake target got →
      a.reader p = .asleep target got ∨ a.reader p = .awake target got) : Account (a.setReader p reading) where
  bound := account.bound
  stream := account.stream
  waiting q target got waits := by
    by_cases this : q = p
    · subst this
      simp only [Editor.setReader, Function.update_self] at waits
      exact account.waiting q target got (same target got waits)
    · simp only [Editor.setReader, Function.update_of_ne this] at waits
      exact account.waiting q target got waits
  ended := account.ended
  zeros := account.zeros

theorem Account.run (took : Took a.log p target got) (size : (got.length : Int) ≤ max target.toInt 0)
    (noEOF : EOF ∉ got) (noNewline : newline ∉ got) : Account (a.run p target got) :=
  (account.setReader (by simp)).read (Function.update_self _ _ _) rfl took size noEOF noNewline

/-- What one step keeps. -/
theorem Account.step {a' : Editor P} {e : Event P} (taken : a.step e = some a') : Account a' := by
  cases e with
  | consoleintr cs =>
    cases taken
    induction cs generalizing a with
    | nil => exact account
    | cons c cs ih => exact ih (account.key c)
  | consoleread p n =>
    simp only [Editor.step] at taken
    split at taken
    · next idle =>
      cases taken
      have books := account.toBooks.observe (o := .called p n) idle (fun q ne => by simp [Obs.about, ne.symm]) rfl
        fun _ _ _ _ same => by cases same
      have called : Account (a.observe (.called p n)) := by
        refine ⟨books, ?_⟩
        simp only [Editor.observe, List.countP_append, account.zeros]
        simp [Obs.takesEOF, Obs.returnsZero]
      exact called.run (took_called a.log p n) (by simp) (by simp) (by simp)
    · cases taken
  | resume p =>
    simp only [Editor.step] at taken
    split at taken
    · next target got awake =>
      cases taken
      obtain ⟨took, more, noEOF, noNewline⟩ := account.waiting p target got (.inr awake)
      exact account.run took (by omega) noEOF noNewline
    · cases taken
  | wake p =>
    cases taken
    exact account.setReader fun target got => Reading.wake_waiting
  | kill p => cases taken

end

theorem blank_account : Account (blank : Editor P) where
  bound := Nat.le_refl _
  stream := rfl
  waiting p target got waits := by rcases waits with waits | waits <;> cases waits
  ended := atEach_nil
  zeros := rfl

end

end Xv6.Console
