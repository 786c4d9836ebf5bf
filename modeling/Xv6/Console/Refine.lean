import Xv6.Console.Editor
import Xv6.Lib.Ring

/-!
# The console is the line editor

The ring `input.buf` between `r` and `e` holds what the reference editor has waiting and
the line that it edits, and `w` is the border between the two. Every step of the console
is the step of the editor for the same event, so the log of the console is a log of the
editor, wherever the indices started and however often they have wrapped around.
-/

namespace Xv6.Console

open Xv6.Lib Editor

theorem INPUT_BUF_dvd : INPUT_BUF ∣ 2 ^ 32 := by decide

theorem INPUT_BUF_lt : INPUT_BUF < 2 ^ 32 := by decide

/-- The variable `n` of a call that has stored `got`. -/
def Left (target n : BitVec 32) (got : List Byte) : Prop := n.toInt = target.toInt - got.length

/-- A call of `consoleread` and a read of the editor. -/
def Matches : Reader → Reading → Prop
  | .idle, .idle => True
  | .asleep target n dst, .asleep target' got | .awake target n dst, .awake target' got =>
    target = target' ∧ dst = got ∧ Left target n dst
  | _, _ => False

section
variable {P : Type} {s s' : State P} {a : Editor P} {p : P} {target n : BitVec 32} {got : List Byte} {c : Byte}

structure Represents (s : State P) (a : Editor P) : Prop where
  cells : Ring.Holds INPUT_BUF s.input.buf s.input.r s.input.e (a.unread ++ a.line)
  border : s.input.w = s.input.r + BitVec.ofNat 32 a.unread.length
  oneLine : newline ∉ a.line
  readers : ∀ p, Matches (s.reader p) (a.reader p)
  alive : ∀ p, s.killed p = false
  log : s.log = a.log

/-- The released part of the ring. -/
theorem Represents.waiting (rep : Represents s a) : Ring.Holds INPUT_BUF s.input.buf s.input.r s.input.w a.unread :=
  rep.border ▸ rep.cells.front

/-- The line in the ring. -/
theorem Represents.editing (rep : Represents s a) : Ring.Holds INPUT_BUF s.input.buf s.input.w s.input.e a.line :=
  rep.border ▸ rep.cells.suffix

/-! ## The characters -/

/-- `C('U')` takes `e` back to `w`. -/
theorem killLine_eq {line : List Byte} (input : Input) (holds : Ring.Holds INPUT_BUF input.buf input.w input.e line)
    (oneLine : newline ∉ line) : input.killLine line.length = { input with e := input.w } := by
  induction line using List.reverseRecOn generalizing input with
  | nil =>
    have same := (holds.empty_iff INPUT_BUF_lt).2 rfl
    rw [List.length_nil, Input.killLine]
    cases input
    cases same
    rfl
  | append_singleton line x ih =>
    obtain ⟨last, rest⟩ := holds.unpush
    have more : input.e ≠ input.w := by
      intro same
      have empty := (holds.empty_iff INPUT_BUF_lt).1 same.symm
      simp at empty
    have ne : x ≠ newline := fun same => oneLine (by simp [same])
    rw [List.length_append, List.length_singleton, Input.killLine,
      if_pos ⟨more, by rw [cell]; exact last.symm ▸ ne⟩]
    exact ih { input with e := input.e - 1 } rest fun inner => oneLine (by simp [inner])

theorem Matches.wake {reader : Reader} {reading : Reading} (same : Matches reader reading) :
    Matches reader.wake reading.wake := by
  cases reader <;> cases reading <;> first | exact same | exact same.elim

section
variable (rep : Represents s a)
include rep

/-- The line changes, and `buf` and `e` with it. -/
theorem Represents.edit {buf : Nat → Byte} {e : BitVec 32} {line : List Byte}
    (cells : Ring.Holds INPUT_BUF buf s.input.r e (a.unread ++ line)) (oneLine : newline ∉ line) :
    Represents { s with input := { s.input with buf := buf, e := e } } { a with line := line } :=
  ⟨cells, rep.border, oneLine, rep.readers, rep.alive, rep.log⟩

/-- Backspace. -/
theorem Represents.backspace :
    Represents { s with input := if s.input.e ≠ s.input.w then { s.input with e := s.input.e - 1 } else s.input }
      { a with line := a.line.dropLast } := by
  have empty := rep.editing.empty_iff INPUT_BUF_lt
  have cells := rep.cells
  rcases List.eq_nil_or_concat a.line with nil | ⟨line, x, more⟩
  · rw [if_neg (not_not.2 (empty.2 nil).symm)]
    exact rep.edit (by rwa [nil] at cells ⊢) (by simp [nil])
  · rw [List.concat_eq_append] at more
    have some_ : s.input.e ≠ s.input.w := fun same => by simp [more] at empty; exact empty same.symm
    rw [if_pos some_, more, List.dropLast_concat]
    rw [more, ← List.append_assoc] at cells
    exact rep.edit cells.unpush.2 fun inner => rep.oneLine (by simp [more, inner])

/-- The line is released: `w = e`, and the readers are woken up. -/
theorem Represents.release (bound : a.taken ≤ a.released.length) {buf : Nat → Byte} {e : BitVec 32}
    {line : List Byte} (cells : Ring.Holds INPUT_BUF buf s.input.r e (a.unread ++ line)) :
    Represents { s with input := { s.input with buf := buf, w := e, e := e }, reader := fun p => (s.reader p).wake }
      { a with line := line }.release := by
  have unread : ({ a with line := line }.release).unread = a.unread ++ line := by
    rw [Editor.unread, Editor.release, List.drop_append_of_le_length bound, Editor.unread]
  have released := cells
  rw [← unread, ← List.append_nil (Editor.unread _)] at released
  refine ⟨released, ?_, by simp [Editor.release], fun p => (rep.readers p).wake, rep.alive, rep.log⟩
  rw [unread]
  exact cells.count

/-- **One character.** -/
theorem Represents.key (bound : a.taken ≤ a.released.length) (c : Byte) :
    Represents (s.key c) (a.key c) := by
  have length := rep.cells.length_eq INPUT_BUF_lt
  rw [List.length_append] at length
  unfold State.key Input.key Editor.key
  by_cases listing : c = C 0x50
  · simpa only [if_pos listing, Bool.false_eq_true, if_false] using rep
  rw [if_neg listing, if_neg listing]
  by_cases kill : c = C 0x55
  · simp only [if_pos kill, Bool.false_eq_true, if_false]
    rw [rep.editing.length_eq INPUT_BUF_lt, killLine_eq s.input rep.editing rep.oneLine]
    refine rep.edit ?_ (by simp)
    rw [List.append_nil]
    exact rep.waiting
  rw [if_neg kill, if_neg kill]
  by_cases back : c = C 0x48 ∨ c = DEL
  · have erased := rep.backspace
    rw [if_pos back, if_pos back]
    by_cases some_ : s.input.e ≠ s.input.w
    · rw [if_pos some_] at erased ⊢
      exact erased
    · rw [if_neg some_] at erased ⊢
      exact erased
  rw [if_neg back, if_neg back, length]
  by_cases accepted : c ≠ 0 ∧ a.unread.length + a.line.length < INPUT_BUF
  · rw [if_pos accepted, if_pos accepted]
    generalize (if c = carriageReturn then newline else c) = d
    have cells := rep.cells.push INPUT_BUF_dvd (by simpa using accepted.2) d
    rw [List.append_assoc] at cells
    have full := cells.full_iff INPUT_BUF_lt
    rw [List.length_append] at full
    have kept : Editor.unread { a with line := a.line ++ [d] } = a.unread := rfl
    dsimp only
    rw [kept]
    have same : (d = newline ∨ d = EOF ∨ s.input.e + 1 = s.input.r + BitVec.ofNat 32 INPUT_BUF) ↔
        d = newline ∨ d = EOF ∨ a.unread.length + (a.line ++ [d]).length = INPUT_BUF := or_congr_right (or_congr_right full)
    by_cases commits : d = newline ∨ d = EOF ∨ a.unread.length + (a.line ++ [d]).length = INPUT_BUF
    · rw [if_pos (same.2 commits), if_pos commits]
      exact rep.release bound cells
    · rw [if_neg fun h => commits (same.1 h), if_neg commits]
      have ne : newline ≠ d := fun h => commits (.inl h.symm)
      exact rep.edit cells (by simp [rep.oneLine, ne])
  · simpa only [if_neg accepted, Bool.false_eq_true, if_false] using rep

theorem Represents.observe (o : Obs P) : Represents (s.observe o) (a.observe o) :=
  ⟨rep.cells, rep.border, rep.oneLine, rep.readers, rep.alive, by
    simp only [State.observe, Editor.observe, rep.log]⟩

/-- The next byte of the ring is the next byte of the stream. -/
theorem Represents.take {rest : List Byte} (next : a.unread = c :: rest) :
    s.input.buf (cell s.input.r) = c ∧
      Represents ({ s with input := { s.input with r := s.input.r + 1 } }.observe (.took p c)) (a.take p c) := by
  have cells := rep.cells
  rw [next, List.cons_append] at cells
  obtain ⟨first, rest_⟩ := cells.pop
  refine ⟨first, ?_⟩
  have advanced : Represents { s with input := { s.input with r := s.input.r + 1 } } { a with taken := a.taken + 1 } := by
    have unread : Editor.unread { a with taken := a.taken + 1 } = rest := (drop_add_one next).2
    refine ⟨by rw [unread]; exact rest_, ?_, rep.oneLine, rep.readers, rep.alive, rep.log⟩
    rw [unread, rep.border, next, List.length_cons, BitVec.ofNat_add, BitVec.add_assoc]
    exact congrArg _ (BitVec.add_comm _ _)
  exact advanced.observe _

end

theorem initial_represents (buf : Nat → Byte) (i : BitVec 32) : Represents (initial buf i : State P) blank where
  cells := .nil buf i
  border := by simp [initial, blank, Editor.unread]
  oneLine := by simp [blank]
  readers _ := trivial
  alive _ := rfl
  log := rfl

variable [DecidableEq P]

theorem consoleintr_refines (rep : Represents s a) (account : Account a) (cs : List Byte) :
    Represents (s.consoleintr cs) (cs.foldl Editor.key a) := by
  induction cs generalizing s a with
  | nil => exact rep
  | cons c cs ih => exact ih (rep.key account.bound c) (account.key c)

/-! ## The reads -/

theorem toInt_of_pos {x : BitVec 32} (pos : 0 < x.toInt) : x.toInt = x.toNat := by
  rw [BitVec.toInt_eq_toNat_cond] at pos ⊢
  split_ifs at pos ⊢ <;> omega

section
variable (left : Left target n got)
include left

theorem Left.more_iff : 0 < n.toInt ↔ (got.length : Int) < target.toInt := by
  unfold Left at left
  omega

/-- `n < target` says that the call has stored something. -/
theorem Left.lt_iff (more : 0 < n.toInt) : n.toNat < target.toNat ↔ got ≠ [] := by
  unfold Left at left
  have nonneg := toInt_of_pos more
  have nonneg' : target.toInt = target.toNat := toInt_of_pos (by omega)
  rw [← List.length_pos_iff]
  omega

theorem Left.next (more : 0 < n.toInt) (c : Byte) : Left target (n - 1) (got ++ [c]) := by
  unfold Left at *
  have lt := BitVec.toInt_lt (x := n)
  rw [BitVec.toInt_sub, List.length_append, List.length_singleton, left]
  simp [Int.bmod]
  omega

/-- What the call returns. -/
theorem Left.value : target - n = BitVec.ofNat 32 got.length := by
  unfold Left at left
  refine BitVec.eq_of_toInt_eq ?_
  rw [BitVec.toInt_sub, left, BitVec.toInt_ofNat', Int.sub_sub_self]

end

section
variable (rep : Represents s a)
include rep

theorem Represents.setReader {reader : Reader} {reading : Reading} (same : Matches reader reading) :
    Represents (s.setReader p reader) (a.setReader p reading) := by
  refine ⟨rep.cells, rep.border, rep.oneLine, fun q => ?_, rep.alive, rep.log⟩
  by_cases this : q = p
  · subst this
    simpa [State.setReader, Editor.setReader] using same
  · simpa [State.setReader, Editor.setReader, this] using rep.readers q

/-- **The loop of `consoleread`** is a read of the editor. -/
theorem readLoop_refines {unread : List Byte} {rounds : Nat} (left : Left target n got)
    (waits : a.unread = unread) (enough : unread.length < rounds) :
    ∃ s', State.readLoop p target rounds s n got = some s' ∧ Represents s' (Editor.read p target unread a got) := by
  induction unread generalizing s a n got rounds with
  | nil =>
    obtain ⟨rounds, rfl⟩ := Nat.exists_eq_add_one_of_ne_zero (Nat.ne_of_gt enough)
    have none : s.input.r = s.input.w := (rep.waiting.empty_iff INPUT_BUF_lt).2 waits
    unfold State.readLoop Editor.read
    by_cases more : 0 < n.toInt
    · rw [if_pos more, if_pos none, rep.alive p, if_pos (left.more_iff.1 more)]
      exact ⟨_, rfl, rep.setReader ⟨rfl, rfl, left⟩⟩
    · rw [if_neg more, if_neg fun h => more (left.more_iff.2 h), left.value]
      exact ⟨_, rfl, rep.observe _⟩
  | cons c rest ih =>
    obtain ⟨rounds, rfl⟩ := Nat.exists_eq_add_one_of_ne_zero (Nat.ne_of_gt (Nat.zero_lt_of_lt enough))
    have some_ : s.input.r ≠ s.input.w := fun same => by
      have := (rep.waiting.empty_iff INPUT_BUF_lt).1 same
      rw [waits] at this
      cases this
    obtain ⟨first, taken⟩ := rep.take (p := p) waits
    unfold State.readLoop Editor.read
    by_cases more : 0 < n.toInt
    · rw [if_pos more, if_neg some_, if_pos (left.more_iff.1 more), first]
      dsimp only
      by_cases isEOF : c = EOF
      · rw [if_pos isEOF, if_pos isEOF, left.value]
        by_cases empty : got = []
        · rw [if_neg fun h => (left.lt_iff more).1 h empty, if_pos empty, empty]
          exact ⟨_, rfl, taken.observe _⟩
        · rw [if_pos ((left.lt_iff more).2 empty), if_neg empty, BitVec.add_sub_cancel]
          exact ⟨_, rfl, rep.observe _⟩
      · rw [if_neg isEOF, if_neg isEOF]
        have next := left.next more c
        by_cases isNewline : c = newline
        · rw [if_pos isNewline, if_pos isNewline, next.value]
          exact ⟨_, rfl, taken.observe _⟩
        · rw [if_neg isNewline, if_neg isNewline]
          exact ih taken next (unread_take waits) (by simpa using enough)
    · rw [if_neg more, if_neg fun h => more (left.more_iff.2 h), left.value]
      exact ⟨_, rfl, rep.observe _⟩

theorem run_refines (left : Left target n got) :
    ∃ s', s.run p target n got = some s' ∧ Represents s' (a.run p target got) := by
  have awake : Represents (s.setReader p .idle) (a.setReader p .idle) := rep.setReader trivial
  exact readLoop_refines awake left rfl (by rw [rep.waiting.length_eq INPUT_BUF_lt]; exact Nat.lt_succ_self _)

/-! ## The system -/

theorem consoleread_refines (idle : s.reader p = .idle) (n : BitVec 32) :
    ∃ s' a', step s (.consoleread p n) = some s' ∧ a.step (.consoleread p n) = some a' ∧ Represents s' a' := by
  have idle' : a.reader p = .idle := by
    have same := rep.readers p
    rw [idle] at same
    cases reading : a.reader p with
    | idle => rfl
    | asleep | awake => rw [reading] at same; cases same
  obtain ⟨s', taken, rep'⟩ := run_refines (p := p) (rep.observe (.called p n)) (show Left n n [] by simp [Left])
  refine ⟨s', _, ?_, ?_, rep'⟩
  · simpa only [step, idle] using taken
  · simp only [Editor.step, idle']

/-- **Every step of the console is the step of the editor.** -/
theorem Represents.step {e : Event P} (account : Account a) (alive : ∀ p, e ≠ .kill p)
    (taken : step s e = some s') : ∃ a', a.step e = some a' ∧ Represents s' a' := by
  cases e with
  | consoleintr cs =>
    cases taken
    exact ⟨_, rfl, consoleintr_refines rep account cs⟩
  | consoleread p n =>
    cases reader : s.reader p with
    | idle =>
      obtain ⟨s'', a', taken', same, rep'⟩ := consoleread_refines rep reader n
      cases taken.symm.trans taken'
      exact ⟨a', same, rep'⟩
    | asleep | awake => simp [Console.step, reader] at taken
  | resume p =>
    have same := rep.readers p
    cases reader : s.reader p with
    | idle | asleep => simp [Console.step, reader] at taken
    | awake target n dst =>
      rw [reader] at same
      cases reading : a.reader p with
      | idle | asleep => rw [reading] at same; cases same
      | awake target' got =>
        rw [reading] at same
        obtain ⟨rfl, rfl, left⟩ := same
        obtain ⟨s'', taken', rep'⟩ := run_refines (p := p) rep left
        simp only [Console.step, reader] at taken
        cases taken.symm.trans taken'
        exact ⟨_, by simp only [Editor.step, reading], rep'⟩
  | wake p =>
    cases taken
    exact ⟨_, rfl, rep.setReader (rep.readers p).wake⟩
  | kill p => exact absurd rfl (alive p)

end

variable {tr : List (State P × Event P)}

/-- A run of the console is a run of the editor. -/
theorem run_represents (buf : Nat → Byte) (i : BitVec 32) (run : Run step (initial buf i) tr s)
    (alive : ∀ q ∈ tr, ∀ p, q.2 ≠ .kill p) :
    ∃ a : Editor P, exec Editor.step blank (tr.map Prod.snd) = some a ∧ Represents s a ∧ Account a := by
  induction run with
  | start => exact ⟨blank, rfl, initial_represents buf i, blank_account⟩
  | @next tr s s' e run taken ih =>
    obtain ⟨a, done, rep, account⟩ := ih fun q member => alive q (List.mem_append_left _ member)
    obtain ⟨a', taken', rep'⟩ := rep.step account (alive (s, e) (by simp)) taken
    refine ⟨a', ?_, rep', account.step taken'⟩
    rw [List.map_append, exec_append done, List.map_singleton, exec, taken', Option.bind_some, exec]

/-- **The line discipline of the console.** Whatever is typed and read, by processes that are not killed and from any
value of the indices on: the reference editor, given the same events, has the same log; the bytes from `r` to `w` are
those it has waiting, the bytes from `w` to `e` are the line it edits, and there are at most `INPUT_BUF`; the bytes
that the reads have taken and those that wait are the stream it has released; every read ended as it should; every end
of file that was taken made one read return 0; and a call of `consoleread` comes to its end or to sleep. -/
theorem line_discipline (buf : Nat → Byte) (i : BitVec 32) (run : Run step (initial buf i) tr s)
    (alive : ∀ q ∈ tr, ∀ p, q.2 ≠ .kill p) : ∃ a : Editor P,
      exec Editor.step blank (tr.map Prod.snd) = some a ∧ s.log = a.log ∧
      ((s.input.w - s.input.r).toNat ≤ (s.input.e - s.input.r).toNat ∧ (s.input.e - s.input.r).toNat ≤ INPUT_BUF) ∧
      (s.input.w - s.input.r).toNat = a.unread.length ∧ (s.input.e - s.input.w).toNat = a.line.length ∧
      (∀ k (inside : k < (a.unread ++ a.line).length),
        s.input.buf (cell (s.input.r + BitVec.ofNat 32 k)) = (a.unread ++ a.line)[k]) ∧
      s.log.filterMap Obs.byte? ++ a.unread = a.released ∧
      AtEach (Ended a.released) s.log ∧ s.log.countP Obs.takesEOF = s.log.countP Obs.returnsZero ∧
      ∀ p n, s.reader p = .idle → (step s (.consoleread p n)).isSome := by
  obtain ⟨a, done, rep, account⟩ := run_represents buf i run alive
  have waiting := rep.waiting.length_eq INPUT_BUF_lt
  have editing := rep.editing.length_eq INPUT_BUF_lt
  have both := rep.cells.length_eq INPUT_BUF_lt
  have fits := rep.cells.fits
  rw [List.length_append] at both fits
  refine ⟨a, done, rep.log, by omega, waiting, editing, rep.cells.cells, ?_, ?_, ?_, fun p n idle => ?_⟩
  · rw [rep.log, account.stream]
    exact List.take_append_drop _ _
  · rw [rep.log]
    exact account.ended
  · rw [rep.log]
    exact account.zeros
  · obtain ⟨s', a', taken, _⟩ := consoleread_refines rep idle n
    rw [taken]
    rfl

/-- A read waits; `ab`, a backspace, `c` and an end of file are typed; the read gets `ac`, the next one nothing. -/
def typeEOF : List (Event (Fin 1)) :=
  [.consoleread 0 5, .consoleintr [0x61, 0x62, C 0x48, 0x63, EOF], .resume 0, .consoleread 0 5]

/-- The indices wrap around in this run. -/
theorem line_discipline_typeEOF : ∃ s a, exec step (initial (fun _ => 0) (-2)) typeEOF = some s ∧
    s.log = [.called 0 5, .took 0 0x61, .took 0 0x63, .returned 0 5 [0x61, 0x63] 2, .called 0 5, .took 0 EOF,
      .returned 0 5 [] 0] ∧
    s.input.r = 1 ∧ exec Editor.step blank typeEOF = some a ∧ a.log = s.log := by
  have reached : (exec step (initial (fun _ => 0) (-2)) typeEOF).map (fun s => (s.log, s.input.r)) =
      some ([.called 0 5, .took 0 0x61, .took 0 0x63, .returned 0 5 [0x61, 0x63] 2, .called 0 5, .took 0 EOF,
        .returned 0 5 [] 0], 1) := by decide +kernel
  have alive : ∀ q ∈ record step (initial (fun _ => 0) (-2)) typeEOF, ∀ p, q.2 ≠ .kill p := by decide +kernel
  obtain ⟨s, done, facts⟩ := Option.map_eq_some_iff.1 reached
  obtain ⟨log, r⟩ := Prod.mk.inj facts
  obtain ⟨a, same, logs, _⟩ := line_discipline _ _ (run_of_exec done) alive
  rw [record_events done] at same
  exact ⟨s, a, done, log, r, same, logs.symm⟩

end

end Xv6.Console
